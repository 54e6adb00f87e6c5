import Toystar.Fs.Initrd
import Toystar.Fs.Vfs

/-!
# Relative paths and the filesystem they reach

`Vfs::open` and `Vfs::mkdir` hand a relative path to `working_dir->fs`, where the working
directory of a program is the `fs_node` of the directory its file is in.  So every
`fs_node` must point back to its filesystem.  All but one do: the root directory is made
by the constructor whose result `tmp_filesystem` is to hold, and gets the null that
`tmp_filesystem` holds until then.
-/

namespace Toystar.Fs

open Toystar.Kernel
open Toystar.Klibc
open Toystar.Memory
open Toystar.Verified

/-! ## Dispatch -/

/-- The filesystem a call goes to, and the arguments it has there. -/
structure Target where
  fs : Nat
  workingDir : Option Nat
  path : CStr
deriving DecidableEq

namespace Vfs

variable (v : Vfs) (s : Tmpfs)

/-- The dispatch of `Vfs::open` and `Vfs::mkdir`, with `working_dir` of the core. -/
def target (workingDir : Option Nat) (path : CStr) : Except Fault Target := do
  if path.headD 0 ≠ CStr.slash then
    match workingDir with
    | none => .error .nullDeref
    | some dir =>
        match (← s.file dir).fs with
        | none => .error .nullDeref
        | some fs => return ⟨fs, some dir, path⟩
  else
    let vfsPath ← v.getAbsolutePath path
    return ⟨vfsPath.fs, none, vfsPath.fsPath⟩

/-- `Vfs::open`; `others` is `open` of the other filesystems. -/
def openFile (others : Target → UInt16 → Option FileDescription) (workingDir : Option Nat)
    (path : CStr) (mode : UInt16) : Except Fault (Option FileDescription × Tmpfs) := do
  let t ← v.target s workingDir path
  if s.tmpFilesystem = some t.fs then s.openFile t.workingDir t.path mode
  else return (others t mode, s)

/-- `Vfs::mkdir`; `others` is `mkdir` of the other filesystems. -/
def mkdir (others : Target → Int) (workingDir : Option Nat) (path : CStr) :
    Except Fault (Int × Tmpfs) := do
  let t ← v.target s workingDir path
  if s.tmpFilesystem = some t.fs then s.mkdir t.workingDir t.path
  else return (others t, s)

/-- A path from `dir` goes to the filesystem `tmpfs`, with `dir` and as it is. -/
structure Reaches (tmpfs : Nat) (dir : Option Nat) (path : CStr) : Prop where
  target : v.target s dir path = .ok ⟨tmpfs, dir, path⟩
  openFile : ∀ others mode, v.openFile s others dir path mode = s.openFile dir path mode
  mkdir : ∀ others, v.mkdir s others dir path = s.mkdir dir path

end Vfs

namespace Tmpfs

/-- The working directory `create_program` installs, `fd->file->parent`, when it finds the
program. -/
def programDirectory (s : Tmpfs) (workingDir : Option Nat) (path : CStr) :
    Except Fault (Option (Option Nat)) := do
  match (← s.openFile workingDir path 0).1 with
  | none => return none
  | some fd => return some (← s.file fd.file).parent

/-- `node->file`. -/
def fileOf (s : Tmpfs) (i : Nat) : Option FsNode := s.nodes[i]?.bind fun n => s.files[n.file]?

/-- The `fs_node` of node `i` points back to it, and up to that of its parent. -/
structure PointsBack (s : Tmpfs) (i : Nat) (f : FsNode) : Prop where
  deviceNode : f.deviceNode = i
  root : i = s.rootTmpfsNode → f.parent = none
  kid : ∀ p, i ∈ s.tree.kids p → f.parent = s.nodes[p]?.map (·.file)

/-- The back pointers of all nodes.  Only the root is in no directory, and only its
`fs_node` has no filesystem. -/
structure Backed (s : Tmpfs) (tmpfs : Nat) : Prop where
  linked : s.Linked
  rooted : s.Rooted
  filesystem : s.tmpFilesystem = some tmpfs
  below : ∀ i < s.nodes.length, i ≠ s.rootTmpfsNode → ∃ p, i ∈ s.tree.kids p
  back : ∀ i f, s.fileOf i = some f →
    s.PointsBack i f ∧ f.fs = if i = s.rootTmpfsNode then none else some tmpfs

variable {s s' : Tmpfs} {tmpfs m i : Nat} {n : TmpfsNode} {f : FsNode} {data : Option Nat}
  {pmm : Pmm} {mem : ByteMem} {path : CStr}

theorem backed_init (pmm : Pmm) (mem : ByteMem) (tmpfs : Nat) :
    (init pmm mem tmpfs).Backed tmpfs := by
  refine ⟨(shape_init pmm mem tmpfs).linked, rooted_init pmm mem tmpfs, rfl, ?_, ?_⟩
  · intro i hi hne
    exact absurd (Nat.lt_one_iff.mp hi) hne
  · intro i f hf
    cases i with
    | succ i => cases hf
    | zero =>
        cases hf
        refine ⟨⟨rfl, fun _ => rfl, ?_⟩, rfl⟩
        intro p hp
        rw [kids_init] at hp
        cases hp

/-- Nodes keep their `file`. -/
theorem file_grow (hn : s.nodes[m]? = some n) (hi : i < s.nodes.length) :
    (s.grow m n f data pmm mem).nodes[i]?.map (·.file) = s.nodes[i]?.map (·.file) := by
  rw [nodes_grow hn i]
  by_cases hm : i = m
  · rw [if_pos hm, hm, hn]
    rfl
  · rw [if_neg hm, if_neg hi.ne]

/-- A new node with the right pointers keeps the pointers right. -/
theorem Backed.grow (h : s.Backed tmpfs) (hn : s.nodes[m]? = some n) (hname : 0 ∉ f.name)
    (hdevice : f.deviceNode = s.nodes.length) (hparent : f.parent = some n.file)
    (hfs : f.fs = s.tmpFilesystem) : (s.grow m n f data pmm mem).Backed tmpfs := by
  have hl := h.linked
  have hm : m < s.nodes.length := (List.getElem?_eq_some_iff.mp hn).1
  refine ⟨hl.grow hn hname, h.rooted.grow hl hn, h.filesystem, ?_, ?_⟩
  · intro i hi hroot
    rw [length_nodes_grow] at hi
    rw [hl.tree_grow hn]
    by_cases hnew : i = s.nodes.length
    · subst hnew
      refine ⟨m, ?_⟩
      rw [NameTree.insert_kids_self]
      exact List.mem_cons_self
    · obtain ⟨p, hp⟩ := h.below i (by omega) hroot
      refine ⟨p, ?_⟩
      by_cases hpm : p = m
      · subst hpm
        rw [NameTree.insert_kids_self]
        exact List.mem_cons_of_mem _ hp
      · rw [NameTree.insert_kids_of_ne hpm]
        exact hp
  · intro i g hg
    unfold fileOf at hg
    rw [hl.fileOf_grow hn i] at hg
    by_cases hnew : i = s.nodes.length
    · -- the new node
      subst hnew
      rw [if_pos rfl] at hg
      obtain rfl := Option.some.inj hg
      have hne : s.nodes.length ≠ s.rootTmpfsNode := hl.root.ne'
      refine ⟨⟨hdevice, fun hroot => absurd hroot hne, ?_⟩, ?_⟩
      · intro p hp
        cases hl.mem_kids_grow hn hp with
        | inl hself => rw [hself.1, file_grow hn hm, hn, hparent, Option.map_some]
        | inr hold => exact absurd (hl.inside hold) (lt_irrefl _)
      · show f.fs = if s.nodes.length = s.rootTmpfsNode then none else some tmpfs
        rw [if_neg hne, hfs, h.filesystem]
    · rw [if_neg hnew] at hg
      obtain ⟨hback, hold⟩ := h.back i g hg
      refine ⟨⟨hback.deviceNode, hback.root, ?_⟩, hold⟩
      intro p hp
      cases hl.mem_kids_grow hn hp with
      | inl hself => exact absurd hself.2 hnew
      | inr hkid =>
          have hlt : p < s.nodes.length := by
            by_contra hge
            rw [kids_of_le (Nat.not_lt.mp hge)] at hkid
            cases hkid
          rw [file_grow hn hlt]
          exact hback.kid p hkid

end Tmpfs

/-! ## Runs -/

/-- A call of `tmpfs::open` or `tmpfs::mkdir`. -/
inductive PathCall
  | openFile (workingDir : Option Nat) (path : CStr) (mode : UInt16)
  | mkdir (workingDir : Option Nat) (path : CStr)

namespace PathCall

def path : PathCall → CStr
  | openFile _ path _ => path
  | mkdir _ path => path

/-- The state after the call. -/
def exec (s : Tmpfs) : PathCall → Except Fault Tmpfs
  | openFile dir path mode => do return (← s.openFile dir path mode).2
  | mkdir dir path => do return (← s.mkdir dir path).2

end PathCall

/-- A call that returns, for any string as the path. -/
def PathStep (s : Tmpfs) (e : PathCall) (s' : Tmpfs) : Prop := 0 ∉ e.path ∧ e.exec s = .ok s'

namespace Tmpfs

variable {s s' : Tmpfs} {tmpfs : Nat} {e : PathCall}

theorem Backed.step (h : s.Backed tmpfs) (hstep : PathStep s e s') : s'.Backed tmpfs := by
  obtain ⟨hpath, hexec⟩ := hstep
  have hname : 0 ∉ getNameFromPath e.path := fun hmem => hpath (List.mem_of_mem_drop hmem)
  cases e with
  | openFile dir path mode =>
      obtain ⟨⟨r, t⟩, hopen, hret⟩ := bind_eq_ok.mp hexec
      cases hret
      by_cases hmode : mode &&& CREATE = 0
      · obtain ⟨rfl, _⟩ := openFile_existing_cases hmode hopen
        exact h
      · cases openFile_create_cases hmode hopen with
        | inl hsame =>
            obtain ⟨_, rfl, _⟩ := hsame
            exact h
        | inr hmade =>
            obtain ⟨m, n, _, haccepts, _, rfl⟩ := hmade
            exact h.grow haccepts.node hname rfl rfl rfl
  | mkdir dir path =>
      obtain ⟨⟨r, t⟩, hmkdir, hret⟩ := bind_eq_ok.mp hexec
      cases hret
      cases mkdir_cases hmkdir with
      | inl hsame =>
          obtain ⟨_, rfl⟩ := hsame
          exact h
      | inr hmade =>
          obtain ⟨m, n, _, hn, _, _, _, rfl⟩ := hmade
          exact h.grow hn hname rfl rfl rfl

theorem Backed.run (h : s.Backed tmpfs) {es : List PathCall} (hrun : Run PathStep s es s') :
    s'.Backed tmpfs :=
  hrun.invariant (I := fun s => s.Backed tmpfs) (fun hinv hstep => Backed.step hinv hstep) h

/-- A relative path reaches the filesystem of the working directory. -/
theorem reaches_iff (v : Vfs) (hfs : s.tmpFilesystem = some tmpfs) {dir : Nat} {f : FsNode}
    (hf : s.file dir = .ok f) {path : CStr} (hrel : path.headD 0 ≠ CStr.slash) :
    v.Reaches s tmpfs (some dir) path ↔ f.fs = some tmpfs := by
  constructor
  · intro h
    have htarget := h.target
    unfold Vfs.target at htarget
    rw [if_pos hrel] at htarget
    dsimp only at htarget
    rw [hf, ok_bind] at htarget
    cases hnone : f.fs with
    | none =>
        rw [hnone] at htarget
        cases htarget
    | some fs =>
        rw [hnone] at htarget
        cases htarget
        rfl
  · intro h
    have htarget : v.target s (some dir) path = .ok ⟨tmpfs, some dir, path⟩ := by
      unfold Vfs.target
      rw [if_pos hrel]
      dsimp only
      rw [hf, ok_bind, h]
      rfl
    refine ⟨htarget, ?_, ?_⟩
    · intro others mode
      rw [Vfs.openFile, htarget, ok_bind, if_pos hfs]
    · intro others
      rw [Vfs.mkdir, htarget, ok_bind, if_pos hfs]

/-- After any sequence of calls every node has an `fs_node` that points back to it and up
to its parent, and to the filesystem exactly when it is not the root.  A relative path
from the directory of a program reaches the filesystem exactly when this directory is not
the root. -/
theorem back_pointers_iff {pmm : Pmm} {mem : ByteMem} {es : List PathCall}
    (hrun : Run PathStep (init pmm mem tmpfs) es s) :
    (∀ i < s.nodes.length, ∃ f, s.fileOf i = some f ∧ s.PointsBack i f ∧
      (f.fs = some tmpfs ↔ i ≠ s.rootTmpfsNode)) ∧
    ∀ workingDir path dir, s.programDirectory workingDir path = .ok (some dir) →
      ∃ fd i n p np, s.openFile workingDir path 0 = .ok (some fd, s) ∧
        s.nodes[i]? = some n ∧ n.file = fd.file ∧ i ∈ s.tree.kids p ∧
        s.nodes[p]? = some np ∧ dir = some np.file ∧
        ∀ (v : Vfs) (rel : CStr), rel.headD 0 ≠ CStr.slash →
          (v.Reaches s tmpfs dir rel ↔ p ≠ s.rootTmpfsNode) := by
  have h := (backed_init pmm mem tmpfs).run hrun
  have hfile : ∀ i < s.nodes.length, ∃ n f, s.nodes[i]? = some n ∧ s.file n.file = .ok f ∧
      s.fileOf i = some f ∧ some f.type = s.typeOf i ∧ s.PointsBack i f ∧
      (f.fs = some tmpfs ↔ i ≠ s.rootTmpfsNode) := by
    intro i hi
    obtain ⟨n, f, _, hf, hget, _, htype⟩ := h.linked.objects hi
    have hof : s.fileOf i = some f := by
      rw [fileOf, hget]
      exact file_eq_ok.mp hf
    obtain ⟨hback, hfs⟩ := h.back i f hof
    refine ⟨n, f, hget, hf, hof, htype, hback, ?_⟩
    rw [hfs]
    by_cases hroot : i = s.rootTmpfsNode
    · simp [hroot]
    · simp [hroot]
  constructor
  · intro i hi
    obtain ⟨_, f, _, _, hof, _, hback, hfs⟩ := hfile i hi
    exact ⟨f, hof, hback, hfs⟩
  · intro workingDir path dir hdir
    obtain ⟨⟨r, t⟩, hopen, hret⟩ := bind_eq_ok.mp hdir
    obtain ⟨rfl, hcases⟩ := openFile_existing_cases (by decide) hopen
    cases hcases with
    | inl hnone =>
        subst hnone
        cases hret
    | inr hfound =>
        obtain ⟨i, n, f, hn, hf, htype, rfl⟩ := hfound
        dsimp only at hret
        rw [hf, ok_bind] at hret
        obtain rfl := Option.some.inj (Except.ok.inj hret)
        have hi : i < t.nodes.length := (List.getElem?_eq_some_iff.mp hn).1
        obtain ⟨n', f', hn', hf', _, htype', hback, _⟩ := hfile i hi
        rw [hn] at hn'
        obtain rfl := Option.some.inj hn'
        rw [hf] at hf'
        obtain rfl := Except.ok.inj hf'
        -- a file is not the root
        have hroot : i ≠ t.rootTmpfsNode := by
          intro hroot
          rw [hroot, h.rooted.type, htype] at htype'
          cases htype'
        obtain ⟨p, hp⟩ := h.below i hi hroot
        have hplt : p < t.nodes.length := by
          by_contra hge
          rw [kids_of_le (Nat.not_lt.mp hge)] at hp
          cases hp
        obtain ⟨np, fp, hnp, hfp, _, _, _, hfs⟩ := hfile p hplt
        have hparent : f.parent = some np.file := by
          rw [hback.kid p hp, hnp, Option.map_some]
        refine ⟨_, i, n, p, np, hopen, hn, rfl, hp, hnp, hparent, ?_⟩
        intro v rel hrel
        rw [hparent, reaches_iff v h.filesystem hfp hrel, hfs]

/-- The program `/a/b` opens files relative to `/a`. -/
theorem back_pointers_iff_directory :
    ∃ s, Run PathStep sixteenPages [.mkdir none [CStr.slash, 97],
        .openFile none [CStr.slash, 97, CStr.slash, 98] CREATE] s ∧
      (∃ f, s.fileOf 2 = some f ∧ s.PointsBack 2 f ∧ f.fs = some 0) ∧
      s.programDirectory none [CStr.slash, 97, CStr.slash, 98] = .ok (some (some 1)) ∧
      ∀ v : Vfs, v.Reaches s 0 (some 1) [99] := by
  have hrun : ∃ s, Run PathStep sixteenPages [.mkdir none [CStr.slash, 97],
        .openFile none [CStr.slash, 97, CStr.slash, 98] CREATE] s ∧
      s.nodes.length = 3 ∧ s.rootTmpfsNode = 0 ∧
      (∀ n, s.nodes[0]? = some n → n.file = 0) ∧
      s.programDirectory none [CStr.slash, 97, CStr.slash, 98] = .ok (some (some 1)) := by
    refine ⟨_, .cons ⟨by decide, rfl⟩ (.cons ⟨by decide, rfl⟩ (.nil _)), rfl, rfl, ?_, rfl⟩
    intro n hn
    cases hn
    rfl
  obtain ⟨s, hrun, hlen, hroot, hzero, hdir⟩ := hrun
  obtain ⟨hback, hreach⟩ := back_pointers_iff hrun
  obtain ⟨f, hf, hpoints, hfs⟩ := hback 2 (by omega)
  obtain ⟨_, _, _, p, np, _, _, _, _, hnp, hdirectory, hiff⟩ := hreach _ _ _ hdir
  refine ⟨s, hrun, ⟨f, hf, hpoints, hfs.mpr (by omega)⟩, hdir, ?_⟩
  intro v
  rw [hiff v [99] (by decide)]
  -- the `fs_node` of the root is another
  intro hp
  rw [hp, hroot] at hnp
  rw [hzero np hnp] at hdirectory
  cases hdirectory

/-- The root has no filesystem, so the program `/a` faults where it opens a relative path. -/
theorem root_program_null :
    ∃ s, Run PathStep sixteenPages [.openFile none [CStr.slash, 97] CREATE] s ∧
      (∃ f, s.fileOf s.rootTmpfsNode = some f ∧ f.fs = none) ∧
      s.programDirectory none [CStr.slash, 97] = .ok (some (some 0)) ∧
      ∀ (v : Vfs) others mode, v.openFile s others (some 0) [97] mode = .error .nullDeref :=
  ⟨_, .cons ⟨by decide, rfl⟩ (.nil _), ⟨_, rfl, rfl⟩, rfl, fun _ _ _ => rfl⟩

end Tmpfs

end Toystar.Fs

import Toystar.Fs.Dispatch
import Toystar.Fs.Files
import Mathlib.Data.Fintype.EquivFin

/-!
# What an open leaves on the heap

`Vfs::open` of an absolute path makes two objects: the `Vfs::path` that
`get_absolute_path` returns, and the description of the file when there is one.
`syscall_close` deletes the description.  Nothing deletes the path, so every open leaves
one block more on the heap, whether it finds a file or not (`open_close_leaks`).

The heap is the set of its live blocks.  `new` is taken to be served: it returns an
address where no object of the kind is.
-/

namespace Toystar.Fs

open Toystar.Kernel
open Toystar.Klibc
open Toystar.Verified

/-! ## Devices -/

/-- `Devfs::devfs_node`: its `file` and the name in there. -/
structure DevfsNode where
  file : Nat
  name : CStr

/-- The children of `devfs_root_node`, linked through `next`, and what `devfs_filesystem`
holds. -/
structure Devfs where
  children : List DevfsNode
  devfsFilesystem : Option Nat

namespace Devfs

/-- `Devfs::add_device`, where `file` is the result of `new_fs_node`. -/
def addDevice (d : Devfs) (name : CStr) (file : Nat) : Devfs :=
  { d with children := ⟨file, name⟩ :: d.children }

/-- The loop of `devfs::open` along the nodes from `head` on. -/
def findDevice (path : CStr) : List DevfsNode → Except Fault (Option Nat)
  | [] => .ok none
  | head :: next => do
      if ← CStr.strcmp path head.name then return some head.file
      findDevice path next

/-- `devfs::open`.  `path++` leads behind the NUL of an empty path. -/
def openFile (d : Devfs) (path : CStr) (mode : UInt16) :
    Except Fault (Option FileDescription) :=
  match path, d.children with
  | [], _ :: _ => .error .outOfBounds
  | path, children => do
      return (← findDevice (path.drop 1) children).map fun file => ⟨file, mode, 0⟩

end Devfs

/-! ## The calls -/

/-- The filesystems, the descriptors of a process, and the live `Vfs::path`s. -/
structure OpenState where
  vfs : Vfs
  tmpfs : Tmpfs
  devfs : Devfs
  fds : FdState
  paths : Finset Nat

/-- A block of the heap, by what is in it. -/
inductive Block
  | path (a : Nat)
  | description (a : Nat)
  | array (a : Nat)
  | fsNode (i : Nat)
  | tmpfsNode (i : Nat)
deriving DecidableEq

namespace OpenState

/-- The live blocks. -/
def Live (s : OpenState) : Block → Prop
  | .path a => a ∈ s.paths
  | .description a => s.fds.descs a ≠ none
  | .array a => ∃ xs, s.fds.arrays[a]? = some (some xs)
  | .fsNode i => i < s.tmpfs.files.length
  | .tmpfsNode i => i < s.tmpfs.nodes.length

/-- The call of `open` in `Vfs::open`, on the filesystem the path leads to: there are
two. -/
def fsOpen (s : OpenState) (workingDir : Option Nat) (path : CStr) (mode : UInt16) :
    Except Fault (Option FileDescription × Tmpfs) := do
  let t ← s.vfs.target s.tmpfs workingDir path
  if s.tmpfs.tmpFilesystem = some t.fs then s.tmpfs.openFile t.workingDir t.path mode
  else if s.devfs.devfsFilesystem = some t.fs then
    return (← s.devfs.openFile t.path mode, s.tmpfs)
  else .error .nullDeref

/-- `Vfs::open`: the new description or null.  `new` makes the path of
`get_absolute_path` at `pathAt` and the description at `fdAt`. -/
def openFile (s : OpenState) (workingDir : Option Nat) (path : CStr) (mode : UInt16)
    (pathAt fdAt : Nat) : Except Fault (Option Nat × OpenState) := do
  let (opened, tmpfs) ← s.fsOpen workingDir path mode
  let paths := if path.headD 0 ≠ CStr.slash then s.paths else insert pathAt s.paths
  match opened with
  | none => return (none, { s with tmpfs, paths })
  | some d =>
      return (some fdAt, { s with tmpfs, paths, fds := s.fds.setDesc fdAt (some d) })

/-- `delete fd`. -/
def delete (s : OpenState) : Option Nat → OpenState
  | none => s
  | some fd => { s with fds := s.fds.setDesc fd none }

end OpenState

/-- A call of `syscall_open`, with the addresses that `new` returns in it. -/
structure OpenCall where
  workingDir : Option Nat
  path : CStr
  rsi : Nat
  pathAt : Nat
  fdAt : Nat

namespace OpenState

/-- `syscall_open`: the new `rax`. -/
def syscallOpen (s : OpenState) (e : OpenCall) : Except Fault (Nat × OpenState) := do
  let (opened, s) ← s.openFile e.workingDir e.path (UInt16.ofNat e.rsi) e.pathAt e.fdAt
  match opened with
  | none => return (minusOne, s)
  | some fd =>
      let (rax, fds) ← s.fds.bindFirst fd
      return (rax, { s with fds })

/-- `syscall_close`. -/
def syscallClose (s : OpenState) (rdi : Nat) : Except Fault (Nat × OpenState) := do
  let (rax, fds) ← s.fds.syscallClose rdi
  return (rax, { s with fds })

/-- A program opens a file and closes what it got. -/
def openClose (s : OpenState) (e : OpenCall) : Except Fault OpenState := do
  let (rax, s) ← s.syscallOpen e
  return (← s.syscallClose rax).2

/-- `new` returns addresses not in use, and the pair of calls returns. -/
def PairStep (s : OpenState) (e : OpenCall) (s' : OpenState) : Prop :=
  e.pathAt ∉ s.paths ∧ s.fds.descs e.fdAt = none ∧ s.openClose e = .ok s'

/-! ## What they should do -/

/-- The open returns, and once its description is deleted the live blocks are those from
before. -/
def KeepsBlocks (s : OpenState) (workingDir : Option Nat) (path : CStr) (mode : UInt16)
    (pathAt fdAt : Nat) : Prop :=
  ∃ opened s', s.openFile workingDir path mode pathAt fdAt = .ok (opened, s') ∧
    ∀ b, (s'.delete opened).Live b ↔ s.Live b

/-- Any number of pairs for one path return, and the live blocks stay below some bound. -/
def PairsBounded (s : OpenState) (path : CStr) (rsi : Nat) : Prop :=
  ∃ bound, ∀ n, ∃ es s', es.length = n ∧ (∀ e ∈ es, e.path = path ∧ e.rsi = rsi) ∧
    Run PairStep s es s' ∧ ∀ blocks : Finset Block, (∀ b ∈ blocks, s'.Live b) →
      blocks.card ≤ bound

/-! ## What they do -/

variable {s s' : OpenState} {workingDir : Option Nat} {path : CStr} {mode : UInt16}
  {pathAt fdAt rax : Nat} {opened : Option Nat} {e : OpenCall} {es : List OpenCall}

/-- Without `CREATE` no filesystem changes. -/
theorem fsOpen_tmpfs {r : Option FileDescription} {t : Tmpfs} (hmode : mode &&& CREATE = 0)
    (hret : s.fsOpen workingDir path mode = .ok (r, t)) : t = s.tmpfs := by
  rw [fsOpen, bind_eq_ok] at hret
  obtain ⟨target, _, hret⟩ := hret
  split at hret
  · exact (Tmpfs.openFile_existing_cases hmode hret).1
  · split at hret
    · obtain ⟨_, _, hret⟩ := bind_eq_ok.mp hret
      cases hret
      rfl
    · cases hret

/-- The path is new, and the description where there is one. -/
theorem openFile_cases (hmode : mode &&& CREATE = 0) (habs : path.headD 0 = CStr.slash)
    (hret : s.openFile workingDir path mode pathAt fdAt = .ok (opened, s')) :
    (opened = none ∧ s' = { s with paths := insert pathAt s.paths }) ∨
    ∃ d, opened = some fdAt ∧
      s' = { s with
        paths := insert pathAt s.paths, fds := s.fds.setDesc fdAt (some d) } := by
  rw [openFile, bind_eq_ok] at hret
  obtain ⟨⟨r, t⟩, hopen, hret⟩ := hret
  obtain rfl := fsOpen_tmpfs hmode hopen
  simp only [habs, ne_eq, not_true_eq_false, if_false] at hret
  cases r with
  | none =>
      cases hret
      exact .inl ⟨rfl, rfl⟩
  | some d =>
      cases hret
      exact .inr ⟨d, rfl, rfl⟩

/-- Deleting the description leaves the path. -/
theorem live_delete (hmode : mode &&& CREATE = 0) (habs : path.headD 0 = CStr.slash)
    (hfd : s.fds.descs fdAt = none)
    (hret : s.openFile workingDir path mode pathAt fdAt = .ok (opened, s')) (b : Block) :
    (s'.delete opened).Live b ↔ s.Live b ∨ b = .path pathAt := by
  have hpaths : ∀ a, a ∈ insert pathAt s.paths ↔ a ∈ s.paths ∨ a = pathAt := by
    intro a
    rw [Finset.mem_insert, or_comm]
  rcases openFile_cases hmode habs hret with ⟨rfl, rfl⟩ | ⟨d, rfl, rfl⟩
  · cases b with
    | path a => simpa [delete, Live] using hpaths a
    | description a => simp [delete, Live]
    | array a => simp [delete, Live]
    | fsNode i => simp [delete, Live]
    | tmpfsNode i => simp [delete, Live]
  · cases b with
    | path a => simpa [delete, Live] using hpaths a
    | description a =>
        by_cases ha : a = fdAt
        · subst ha
          simp [delete, Live, hfd]
        · simp [delete, Live, FdState.setDesc_descs_of_ne _ ha]
    | array a => simp [delete, Live, FdState.setDesc]
    | fsNode i => simp [delete, Live]
    | tmpfsNode i => simp [delete, Live]

theorem not_keepsBlocks (hmode : mode &&& CREATE = 0) (habs : path.headD 0 = CStr.slash)
    (hpath : pathAt ∉ s.paths) (hfd : s.fds.descs fdAt = none) :
    ¬s.KeepsBlocks workingDir path mode pathAt fdAt := by
  rintro ⟨opened, s', hret, hkeeps⟩
  have hleaked := (live_delete hmode habs hfd hret (.path pathAt)).mpr (.inr rfl)
  exact hpath ((hkeeps _).mp hleaked)

/-! ## Pairs of calls -/

/-- One pair leaves one path. -/
theorem paths_pairStep (hmode : UInt16.ofNat e.rsi &&& CREATE = 0)
    (habs : e.path.headD 0 = CStr.slash) (hstep : PairStep s e s') :
    s'.paths = insert e.pathAt s.paths := by
  obtain ⟨_, _, hret⟩ := hstep
  rw [openClose, bind_eq_ok] at hret
  obtain ⟨⟨rax, t⟩, hopen, hret⟩ := hret
  have hpaths : t.paths = insert e.pathAt s.paths := by
    rw [syscallOpen, bind_eq_ok] at hopen
    obtain ⟨⟨opened, u⟩, hopen, hbind⟩ := hopen
    have hu : u.paths = insert e.pathAt s.paths := by
      rcases openFile_cases hmode habs hopen with ⟨_, rfl⟩ | ⟨d, _, rfl⟩
      · rfl
      · rfl
    cases opened with
    | none =>
        cases hbind
        exact hu
    | some fd =>
        obtain ⟨⟨k, fds⟩, _, hbind⟩ := bind_eq_ok.mp hbind
        cases hbind
        exact hu
  obtain ⟨⟨rax', u⟩, hclose, hret⟩ := bind_eq_ok.mp hret
  rw [syscallClose, bind_eq_ok] at hclose
  obtain ⟨⟨k, fds⟩, _, hclose⟩ := hclose
  cases hclose
  cases hret
  exact hpaths

/-- A run of pairs leaves one path for each. -/
theorem paths_run (hmode : ∀ e ∈ es, UInt16.ofNat e.rsi &&& CREATE = 0)
    (habs : ∀ e ∈ es, e.path.headD 0 = CStr.slash) (hrun : Run PairStep s es s') :
    s.paths ⊆ s'.paths ∧ s'.paths.card = s.paths.card + es.length := by
  induction hrun with
  | nil s => exact ⟨Finset.Subset.refl _, rfl⟩
  | cons hstep _ ih =>
      rw [List.forall_mem_cons] at hmode habs
      have hpaths := paths_pairStep hmode.1 habs.1 hstep
      obtain ⟨hsub, hcard⟩ := ih hmode.2 habs.2
      rw [hpaths] at hsub hcard
      rw [Finset.card_insert_of_notMem hstep.1] at hcard
      refine ⟨(Finset.subset_insert _ _).trans hsub, ?_⟩
      rw [hcard, List.length_cons]
      omega

/-- After some pairs: the filesystems and the form of the list are as before, and there is
room for the next description. -/
structure Again (s₀ : OpenState) (fdAt : Nat) (s : OpenState) : Prop where
  vfs : s.vfs = s₀.vfs
  tmpfs : s.tmpfs = s₀.tmpfs
  devfs : s.devfs = s₀.devfs
  formed : s.fds.WellFormed
  free : s.fds.descs fdAt = none

theorem Again.fsOpen {s₀ : OpenState} (h : s₀.Again fdAt s) :
    s.fsOpen workingDir path mode = s₀.fsOpen workingDir path mode := by
  rw [OpenState.fsOpen, OpenState.fsOpen, h.vfs, h.tmpfs, h.devfs]

/-- A close frees the description of its descriptor and makes none. -/
theorem close_frees {fds : FdState} (h : fds.WellFormed) (rdi : Nat) :
    ∃ rax fds', fds.syscallClose rdi = .ok (rax, fds') ∧ fds'.WellFormed ∧
      ∀ a, fds.descs a = none ∨ fds.Bound rdi a → fds'.descs a = none := by
  rcases h.syscallClose_cases rdi with
    ⟨rax, hret, hnot⟩ | ⟨fd, fds', hbound, hret, hformed, _, hdescs⟩
  · exact ⟨rax, fds, hret, h, fun a ha => ha.resolve_right (hnot a)⟩
  · refine ⟨0, fds', hret, hformed, ?_⟩
    intro a ha
    rw [hdescs, Function.update_apply]
    split
    · rfl
    · rename_i hne
      refine ha.resolve_right fun hother => hne ?_
      rw [FdState.Bound, hbound] at hother
      cases hother
      rfl

theorem syscallOpen_of_found {fd k : Nat} {fds : FdState}
    (hret : s.openFile e.workingDir e.path (UInt16.ofNat e.rsi) e.pathAt e.fdAt =
      .ok (some fd, s')) (hbind : s'.fds.bindFirst fd = .ok (k, fds)) :
    s.syscallOpen e = .ok (k, { s' with fds }) := by
  rw [syscallOpen, hret, ok_bind]
  dsimp only
  rw [hbind]
  rfl

theorem openClose_of_calls {k : Nat} {fds : FdState} (hopen : s.syscallOpen e = .ok (k, s'))
    (hclose : s'.fds.syscallClose k = .ok (rax, fds)) :
    s.openClose e = .ok { s' with fds } := by
  rw [openClose, hopen, ok_bind]
  dsimp only
  rw [syscallClose, hclose]
  rfl

/-- A path that could be opened once can be opened and closed again. -/
theorem Again.step {s₀ : OpenState} {rsi : Nat} {r : Option FileDescription × Tmpfs}
    (hmode : UInt16.ofNat rsi &&& CREATE = 0)
    (hopen : s₀.fsOpen workingDir path (UInt16.ofNat rsi) = .ok r) (h : s₀.Again fdAt s) :
    ∃ e s', (e.path = path ∧ e.rsi = rsi) ∧ PairStep s e s' ∧ s₀.Again fdAt s' := by
  obtain ⟨r, t⟩ := r
  rw [← h.fsOpen] at hopen
  obtain rfl := fsOpen_tmpfs hmode hopen
  obtain ⟨pathAt, hpath⟩ := Infinite.exists_notMem_finset s.paths
  let paths := if path.headD 0 ≠ CStr.slash then s.paths else insert pathAt s.paths
  have hpair : ∃ s', s.openClose ⟨workingDir, path, rsi, pathAt, fdAt⟩ = .ok s' ∧
      s₀.Again fdAt s' := by
    cases r with
    | none =>
        have hret : s.syscallOpen ⟨workingDir, path, rsi, pathAt, fdAt⟩ =
            .ok (minusOne, { s with paths }) := by
          rw [syscallOpen, openFile, hopen]
          rfl
        obtain ⟨rax, fds, hclose, hformed, hfree⟩ := close_frees h.formed minusOne
        exact ⟨{ s with paths, fds }, openClose_of_calls hret hclose, h.vfs, h.tmpfs, h.devfs,
          hformed, hfree fdAt (.inl h.free)⟩
    | some d =>
        have hret : s.openFile workingDir path (UInt16.ofNat rsi) pathAt fdAt =
            .ok (some fdAt, { s with paths, fds := s.fds.setDesc fdAt (some d) }) := by
          rw [openFile, hopen]
          rfl
        obtain ⟨k, fds₁, hbind, _, hformed₁, hbound, _⟩ :=
          (h.formed.setDesc fdAt d).bindFirst ⟨d, FdState.setDesc_descs_self s.fds fdAt _⟩
            fun _ => h.formed.not_bound_of_fresh h.free
        obtain ⟨rax, fds, hclose, hformed, hfree⟩ := close_frees hformed₁ k
        have hopened : s.syscallOpen ⟨workingDir, path, rsi, pathAt, fdAt⟩ =
            .ok (k, { s with paths, fds := fds₁ }) :=
          syscallOpen_of_found (e := ⟨workingDir, path, rsi, pathAt, fdAt⟩) hret hbind
        exact ⟨{ s with paths, fds }, openClose_of_calls hopened hclose, h.vfs, h.tmpfs,
          h.devfs, hformed, hfree fdAt (.inr hbound)⟩
  obtain ⟨s', hret, hagain⟩ := hpair
  exact ⟨_, s', ⟨rfl, rfl⟩, ⟨hpath, h.free, hret⟩, hagain⟩

/-- No bound holds for the pairs that leave one path each. -/
theorem not_pairsBounded {rsi : Nat} (hmode : UInt16.ofNat rsi &&& CREATE = 0)
    (habs : path.headD 0 = CStr.slash) : ¬s.PairsBounded path rsi := by
  rintro ⟨bound, hbounded⟩
  obtain ⟨es, s', hlength, hcalls, hrun, hlive⟩ := hbounded (bound + 1)
  obtain ⟨_, hcard⟩ := paths_run (fun e he => by rw [(hcalls e he).2]; exact hmode)
    (fun e he => by rw [(hcalls e he).1]; exact habs) hrun
  have hle := hlive (s'.paths.map ⟨Block.path, fun a b h => by cases h; rfl⟩) (by
    intro b hb
    obtain ⟨a, ha, rfl⟩ := Finset.mem_map.mp hb
    exact ha)
  rw [Finset.card_map] at hle
  omega

end OpenState

/-- A list that `create_process` filled and the calls of the process worked on. -/
def FdState.Reached (s : FdState) : Prop :=
  ∃ arrays descs fds s₀ es, FdState.FreshAll descs fds ∧
    (FdState.new arrays descs).fill fds = .ok s₀ ∧ Run FdStep s₀ es s

theorem FdState.Reached.wellFormed {s : FdState} (h : s.Reached) : s.WellFormed := by
  obtain ⟨arrays, descs, fds, s₀, es, hfresh, hfill, hrun⟩ := h
  exact ((FdState.WellFormed.of_fill hfresh hfill).run hrun).1

/-- In any state of the filesystems an open of an absolute path that returns leaves its
path behind, be there a file or not.  So opening and closing never keeps the blocks of the
heap; the pairs can go on for ever where one returns, and each leaves another block. -/
theorem open_close_leaks {s : OpenState} {workingDir : Option Nat} {path : CStr}
    {rsi pathAt fdAt : Nat} (habs : path.headD 0 = CStr.slash)
    (hmode : UInt16.ofNat rsi &&& CREATE = 0) (hpath : pathAt ∉ s.paths)
    (hfd : s.fds.descs fdAt = none) :
    (∀ opened s', s.openFile workingDir path (UInt16.ofNat rsi) pathAt fdAt =
        .ok (opened, s') →
      ∀ b, (s'.delete opened).Live b ↔ s.Live b ∨ b = .path pathAt) ∧
    ¬s.KeepsBlocks workingDir path (UInt16.ofNat rsi) pathAt fdAt ∧
    (s.fds.Reached → (∃ r, s.openFile workingDir path (UInt16.ofNat rsi) pathAt fdAt = .ok r) →
      ∀ n, ∃ es s', es.length = n ∧ (∀ e ∈ es, e.path = path ∧ e.rsi = rsi) ∧
        Run OpenState.PairStep s es s') ∧
    (∀ es s', (∀ e ∈ es, e.path = path ∧ e.rsi = rsi) → Run OpenState.PairStep s es s' →
      s.paths ⊆ s'.paths ∧ s'.paths.card = s.paths.card + es.length) ∧
    ¬s.PairsBounded path rsi := by
  refine ⟨fun opened s' hret => OpenState.live_delete hmode habs hfd hret,
    OpenState.not_keepsBlocks hmode habs hpath hfd, ?_, ?_,
    OpenState.not_pairsBounded hmode habs⟩
  · rintro hreached ⟨r, hret⟩ n
    rw [OpenState.openFile, bind_eq_ok] at hret
    obtain ⟨r', hopen, _⟩ := hret
    exact Run.exists_length (fun hs => hs.step hmode hopen)
      (⟨rfl, rfl, rfl, hreached.wellFormed, hfd⟩ : s.Again fdAt s) n
  · intro es s' hcalls hrun
    exact OpenState.paths_run (fun e he => by rw [(hcalls e he).2]; exact hmode)
      (fun e he => by rw [(hcalls e he).1]; exact habs) hrun

/-- The kernel after its start, with `tty0` in `/dev` and nothing else, and a process
without descriptors. -/
def booted : OpenState where
  vfs := ⟨[[116, 109, 112, 102, 115], [100, 101, 118, 102, 115]],
    some (.node [CStr.slash] 0 [.node [CStr.slash, 100, 101, 118] 1 []])⟩
  tmpfs := Tmpfs.sixteenPages
  devfs := Devfs.addDevice ⟨[], some 1⟩ [116, 116, 121, 48] 5
  fds := .new [] fun _ => none
  paths := ∅

/-- `/dev/tty0`. -/
def ttyPath : CStr := [CStr.slash, 100, 101, 118, CStr.slash, 116, 116, 121, 48]

/-- The terminal is opened and closed any number of times. -/
theorem open_close_leaks_tty :
    ¬booted.KeepsBlocks none ttyPath (UInt16.ofNat 4) 3 7 ∧
    (∀ n, ∃ es s', es.length = n ∧ (∀ e ∈ es, e.path = ttyPath ∧ e.rsi = 4) ∧
      Run OpenState.PairStep booted es s' ∧ s'.paths.card = n) ∧
    ¬booted.PairsBounded ttyPath 4 := by
  obtain ⟨_, hkeeps, hruns, hcount, hbounded⟩ :=
    @open_close_leaks booted none ttyPath 4 3 7 rfl (by decide) (Finset.notMem_empty 3) rfl
  refine ⟨hkeeps, ?_, hbounded⟩
  intro n
  obtain ⟨es, s', hlength, hcalls, hrun⟩ := hruns
    ⟨[], fun _ => none, [], _, [], trivial, rfl, .nil _⟩ ⟨_, rfl⟩ n
  obtain ⟨_, hcard⟩ := hcount es s' hcalls hrun
  exact ⟨es, s', hlength, hcalls, hrun, by
    rw [hcard, hlength]
    exact Nat.zero_add n⟩

/-- The terminal is there and `/x` is not: either way the path that the open made is live
when the description is not. -/
theorem opened_path_stays :
    (∃ s', booted.openFile none ttyPath 4 3 7 = .ok (some 7, s') ∧
      (s'.delete (some 7)).Live (.path 3)) ∧
    (∃ s', booted.openFile none [CStr.slash, 120] 4 3 7 = .ok (none, s') ∧
      (s'.delete none).Live (.path 3)) ∧
    ¬booted.Live (.path 3) ∧
    ¬booted.KeepsBlocks none ttyPath 4 3 7 ∧
    ¬booted.KeepsBlocks none [CStr.slash, 120] 4 3 7 := by
  have hnot : ¬booted.Live (.path 3) := Finset.notMem_empty 3
  have htty : ∃ s', booted.openFile none ttyPath 4 3 7 = .ok (some 7, s') ∧
      (s'.delete (some 7)).Live (.path 3) := ⟨_, rfl, Finset.mem_singleton_self 3⟩
  have hnone : ∃ s', booted.openFile none [CStr.slash, 120] 4 3 7 = .ok (none, s') ∧
      (s'.delete none).Live (.path 3) := ⟨_, rfl, Finset.mem_singleton_self 3⟩
  refine ⟨htty, hnone, hnot, ?_, ?_⟩
  · rintro ⟨opened, s', hret, hkeeps⟩
    obtain ⟨s₁, hret₁, hlive⟩ := htty
    rw [hret₁] at hret
    cases hret
    exact hnot ((hkeeps _).mp hlive)
  · rintro ⟨opened, s', hret, hkeeps⟩
    obtain ⟨s₁, hret₁, hlive⟩ := hnone
    rw [hret₁] at hret
    cases hret
    exact hnot ((hkeeps _).mp hlive)

end Toystar.Fs

import Toystar.Fs.TmpfsFile
import Toystar.Fs.TmpfsPath
import Toystar.Verified.Run

/-!
# The form of the tree over calls of `open` and `mkdir`

Both calls add a node below whatever `path_to_node` returns, once they have seen
that this node has not the name they look for.  That is right when it is the
parent.  It is wrong when it is the grandparent, the parent being missing: the new
node lands a level too high, maybe beside another of its name.  And `mkdir`, unlike
`open`, does not ask whether the node is a directory.
-/

namespace Toystar.Fs

open Toystar.Kernel
open Toystar.Klibc
open Toystar.Memory
open Toystar.Verified

/-! ## Calls -/

/-- A call of `tmpfs::open` with `CREATE`, or of `tmpfs::mkdir`, for the absolute path
of the components `cs`. -/
inductive TreeCall
  | create (workingDir : Option Nat) (cs : List CStr) (mode : UInt16)
  | mkdir (workingDir : Option Nat) (cs : List CStr)

namespace TreeCall

def workingDir : TreeCall → Option Nat
  | create dir _ _ => dir
  | mkdir dir _ => dir

def cs : TreeCall → List CStr
  | create _ cs _ => cs
  | mkdir _ cs => cs

/-- The type of the node the call is to make. -/
def type : TreeCall → FileType
  | create _ _ _ => .file
  | mkdir _ _ => .directory

/-- Whether a mode has `CREATE`. -/
def Creates : TreeCall → Prop
  | create _ _ mode => mode &&& CREATE ≠ 0
  | mkdir _ _ => True

/-- The working directory is null or an object, the path has components, and `open`
has `CREATE`. -/
structure Legal (e : TreeCall) (s : Tmpfs) : Prop where
  workingDir : ∀ dir ∈ e.workingDir, dir < s.files.length
  nonempty : e.cs ≠ []
  components : ∀ c ∈ e.cs, CStr.IsComponent c
  creates : e.Creates

/-- The state after the call. -/
def exec (s : Tmpfs) : TreeCall → Except Fault Tmpfs
  | create dir cs mode => do return (← s.openFile dir (CStr.joinPath cs) mode).2
  | mkdir dir cs => do return (← s.mkdir dir (CStr.joinPath cs)).2

end TreeCall

/-- A call that returns. -/
def TreeStep (s : Tmpfs) (e : TreeCall) (s' : Tmpfs) : Prop :=
  e.Legal s ∧ e.exec s = .ok s'

namespace Tmpfs

/-- Each node's children have different names, only directories have any, and each
child's `parent` is the node. -/
def WellFormed (s : Tmpfs) : Prop :=
  ∀ (i : Nat) (n : TmpfsNode), s.nodes[i]? = some n →
    ∃ xs, s.Siblings n.children xs ∧ (xs.map s.nameOf).Nodup ∧
      (xs ≠ [] → s.typeOf i = some .directory) ∧ ∀ j ∈ xs, s.parentOf j = some i

variable {s s' : Tmpfs} {e : TreeCall}

theorem Shape.wellFormed_iff (h : s.Shape) :
    s.WellFormed ↔ s.tree.Distinct ∧
      (∀ i, s.tree.kids i ≠ [] → s.typeOf i = some .directory) ∧
      ∀ i, ∀ j ∈ s.tree.kids i, s.parentOf j = some i := by
  have hout : ∀ i, s.nodes[i]? = none → s.tree.kids i = [] := by
    intro i hi
    exact kids_of_le (List.getElem?_eq_none_iff.mp hi)
  constructor
  · intro hform
    have hnode : ∀ i, ((s.tree.kids i).map s.nameOf).Nodup ∧
        (s.tree.kids i ≠ [] → s.typeOf i = some .directory) ∧
        ∀ j ∈ s.tree.kids i, s.parentOf j = some i := by
      intro i
      cases hi : s.nodes[i]? with
      | none =>
          rw [hout i hi]
          simp
      | some n =>
          rcases hform i n hi with ⟨xs, hxs, hfacts⟩
          rwa [hxs.unique (h.chain hi)] at hfacts
    exact ⟨fun i => (hnode i).1, fun i => (hnode i).2.1, fun i => (hnode i).2.2⟩
  · rintro ⟨hdist, hdir, hparent⟩ i n hi
    exact ⟨s.tree.kids i, h.chain hi, hdist i, hdir i, hparent i⟩

end Tmpfs

namespace TreeCall

variable {s s' : Tmpfs} {e : TreeCall} {m : Nat} {b : CStr}

/-! ## What a call does -/

/-- The call adds a node of the name `b` below `m`. -/
structure Adds (e : TreeCall) (s : Tmpfs) (b : CStr) (m : Nat) : Prop where
  nearest : s.nearest s.rootTmpfsNode e.cs = some m
  name : s.nameOf m ≠ b
  type : e.type = .file → s.typeOf m = some .directory

theorem not_adds_of_none (hm : s.nearest s.rootTmpfsNode e.cs = none) : ¬e.Adds s b m := by
  intro hadds
  have hnear := hadds.nearest
  rw [hm] at hnear
  cases hnear

theorem Adds.eq {m' : Nat} (hadds : e.Adds s b m')
    (hm : s.nearest s.rootTmpfsNode e.cs = some m) : m' = m := by
  have hnear := hadds.nearest
  rw [hm] at hnear
  exact (Option.some.inj hnear).symm

/-- The outcome of a call for a path that ends in `b`: a new node, or nothing. -/
def Outcome (e : TreeCall) (s : Tmpfs) (b : CStr) (s' : Tmpfs) : Prop :=
  (∃ m n f data pmm mem, e.Adds s b m ∧ s.nodes[m]? = some n ∧ f.name = b ∧
    s' = s.grow m n f data pmm mem) ∨ ((∀ m, ¬e.Adds s b m) ∧ s' = s)

variable {ds : List CStr} {dir : Option Nat} {mode : UInt16}

theorem create_cases (h : s.Shape) (hok : (create dir (ds ++ [b]) mode).Legal s) :
    ∃ s', (create dir (ds ++ [b]) mode).exec s = .ok s' ∧
      (create dir (ds ++ [b]) mode).Outcome s b s' := by
  have hwd : ∀ d ∈ dir, d < s.files.length := hok.workingDir
  have hcreates : mode &&& CREATE ≠ 0 := hok.creates
  rcases List.forall_mem_append.mp hok.components with ⟨hds, hb⟩
  rw [List.forall_mem_singleton] at hb
  cases hm : s.nearest s.rootTmpfsNode (ds ++ [b]) with
  | none =>
      rw [exec, h.openFile_none hwd hds hb hm]
      exact ⟨s, rfl, .inr ⟨fun m => not_adds_of_none hm, rfl⟩⟩
  | some m =>
      rcases h.linked.objects (h.nearest_lt hm) with ⟨n, _, _, _, hn, _⟩
      rw [exec, h.openFile_create hwd hds hb hm hn hcreates]
      by_cases hno : b = s.nameOf m ∨ s.typeOf m ≠ some .directory
      · rw [if_pos hno]
        refine ⟨s, rfl, .inr ⟨?_, rfl⟩⟩
        intro m' hadds
        obtain rfl := hadds.eq hm
        rcases hno with hname | htype
        · exact hadds.name hname.symm
        · exact htype (hadds.type rfl)
      · rw [if_neg hno]
        rw [not_or, not_not] at hno
        exact ⟨_, rfl, .inl ⟨m, n, _, _, _, _, ⟨hm, Ne.symm hno.1, fun _ => hno.2⟩, hn,
          rfl, rfl⟩⟩

theorem mkdir_cases (h : s.Shape) (hok : (mkdir dir (ds ++ [b])).Legal s) :
    ∃ s', (mkdir dir (ds ++ [b])).exec s = .ok s' ∧
      (mkdir dir (ds ++ [b])).Outcome s b s' := by
  have hwd : ∀ d ∈ dir, d < s.files.length := hok.workingDir
  rcases List.forall_mem_append.mp hok.components with ⟨hds, hb⟩
  rw [List.forall_mem_singleton] at hb
  cases hm : s.nearest s.rootTmpfsNode (ds ++ [b]) with
  | none =>
      rw [exec, h.mkdir_none hwd hds hb hm]
      exact ⟨s, rfl, .inr ⟨fun m => not_adds_of_none hm, rfl⟩⟩
  | some m =>
      rcases h.linked.objects (h.nearest_lt hm) with ⟨n, _, _, _, hn, _⟩
      rw [exec, h.mkdir_some hwd hds hb hm hn]
      by_cases hno : b = s.nameOf m
      · rw [if_pos hno]
        refine ⟨s, rfl, .inr ⟨?_, rfl⟩⟩
        intro m' hadds
        obtain rfl := hadds.eq hm
        exact hadds.name hno.symm
      · rw [if_neg hno]
        exact ⟨_, rfl, .inl ⟨m, n, _, _, _, _, ⟨hm, Ne.symm hno, fun hfile => nomatch hfile⟩,
          hn, rfl, rfl⟩⟩

/-- Every call returns. -/
theorem exec_cases (h : s.Shape) (hok : e.Legal s) :
    ∃ ds b s', e.cs = ds ++ [b] ∧ CStr.IsComponent b ∧ e.exec s = .ok s' ∧
      e.Outcome s b s' := by
  obtain ⟨ds, b, hcs⟩ : ∃ ds b, e.cs = ds ++ [b] :=
    ⟨_, _, (List.dropLast_append_getLast hok.nonempty).symm⟩
  have hb : CStr.IsComponent b := hok.components b (by simp [hcs])
  cases e with
  | create dir cs mode =>
      obtain rfl : cs = ds ++ [b] := hcs
      rcases create_cases h hok with ⟨s', hexec, hout⟩
      exact ⟨ds, b, s', rfl, hb, hexec, hout⟩
  | mkdir dir cs =>
      obtain rfl : cs = ds ++ [b] := hcs
      rcases mkdir_cases h hok with ⟨s', hexec, hout⟩
      exact ⟨ds, b, s', rfl, hb, hexec, hout⟩

/-! ## Harm -/

/-- The call does not add below a file, nor beside a node of the same name: with the
parent there, it must be a directory for `mkdir`; with only the grandparent there,
that must be a directory without a child of the name.  A node that has the name
itself is safe, since the call takes it for the one it looks for. -/
def Harmless (e : TreeCall) (s : Tmpfs) : Prop :=
  match s.tree.walk s.rootTmpfsNode e.cs with
  | (m, [b]) => s.nameOf m = b ∨ e.type = .file ∨ s.typeOf m = some .directory
  | (m, [_, b]) => s.nameOf m = b ∨
      if s.typeOf m = some .directory then s.tree.child m b = none else e.type = .file
  | _ => True

/-- A call is harmless when what it adds is new below a directory. -/
theorem harmless_iff {ds : List CStr} (hcs : e.cs = ds ++ [b]) :
    e.Harmless s ↔
      ∀ m, e.Adds s b m → s.tree.child m b = none ∧ s.typeOf m = some .directory := by
  have hadds : ∀ {m a : Nat} {rest : List CStr},
      s.tree.walk s.rootTmpfsNode e.cs = (a, rest) → rest.length ≤ 2 →
      (e.Adds s b m ↔ m = a ∧ s.nameOf a ≠ b ∧
        (e.type = .file → s.typeOf a = some .directory)) := by
    intro m a rest hwalk hlen
    have hnear : s.nearest s.rootTmpfsNode e.cs = some a := by
      simp [Tmpfs.nearest, hwalk, hlen]
    constructor
    · intro h
      obtain rfl := h.eq hnear
      exact ⟨rfl, h.name, h.type⟩
    · rintro ⟨rfl, hname, htype⟩
      exact ⟨hnear, hname, htype⟩
  unfold Harmless
  cases hw : s.tree.walk s.rootTmpfsNode e.cs with
  | mk a rest =>
      rcases NameTree.walk_cases hw with ⟨es, hes, _, hnone⟩
      have hend : ∀ {b'}, rest.getLast? = some b' → b' = b := by
        intro b' hb'
        have hlast := congrArg List.getLast? (hcs.symm.trans hes)
        rw [List.getLast?_concat, List.getLast?_append, hb'] at hlast
        exact (Option.some.inj hlast).symm
      cases rest with
      | nil =>
          -- the node is there, and has the name
          refine iff_of_true trivial ?_
          intro m h
          rcases (hadds hw (by simp)).mp h with ⟨_, hname, _⟩
          rw [hcs] at hw
          rcases NameTree.walk_concat hw with ⟨_, _, hchild⟩
          exact absurd (NameTree.name_of_child hchild) hname
      | cons p rest =>
          cases rest with
          | nil =>
              obtain rfl : p = b := hend (by simp)
              simp only [hadds hw (by simp), and_imp, forall_eq, hnone p rfl, true_and]
              tauto
          | cons b' rest =>
              cases rest with
              | nil =>
                  obtain rfl : b' = b := hend (by simp)
                  simp only [hadds hw (by simp), and_imp, forall_eq]
                  split
                  · tauto
                  · tauto
              | cons r rest =>
                  refine iff_of_true trivial ?_
                  intro m h
                  have hnear := h.nearest
                  simp [Tmpfs.nearest, hw] at hnear

end TreeCall

/-! ## Runs -/

variable {s s' : Tmpfs} {e : TreeCall}

/-- A new node leaves a well-formed tree well formed exactly when its name is new below
its parent, and its parent a directory. -/
theorem Tmpfs.Shape.wellFormed_grow_iff (h : s.Shape) (hform : s.WellFormed) {m : Nat}
    {n : TmpfsNode} {f : FsNode} {data : Option Nat} {pmm : Pmm} {mem : ByteMem}
    (hn : s.nodes[m]? = some n) (hf : CStr.IsComponent f.name) :
    (s.grow m n f data pmm mem).WellFormed ↔
      s.tree.child m f.name = none ∧ s.typeOf m = some .directory := by
  have hlt : m < s.nodes.length := (List.getElem?_eq_some_iff.mp hn).1
  rcases h.wellFormed_iff.mp hform with ⟨hdist, hdir, hparent⟩
  rw [(h.grow hn hf).wellFormed_iff, h.linked.tree_grow hn, h.linked.typeOf_grow hn,
    parentOf_grow hn, h.linked.fresh.distinct_insert_iff hdist]
  constructor
  · rintro ⟨hchild, hdir', _⟩
    refine ⟨hchild, ?_⟩
    have hm := hdir' m (by rw [NameTree.insert_kids_self]; exact List.cons_ne_nil _ _)
    rwa [Function.update_of_ne hlt.ne] at hm
  · rintro ⟨hchild, hm⟩
    refine ⟨hchild, ?_, ?_⟩
    · intro i hi
      by_cases him : i = m
      · subst him
        rwa [Function.update_of_ne hlt.ne]
      · rw [NameTree.insert_kids_of_ne him] at hi
        by_cases hnew : i = s.nodes.length
        · rw [hnew, kids_of_le (le_refl _)] at hi
          exact absurd rfl hi
        · rw [Function.update_of_ne hnew]
          exact hdir i hi
    · intro i j hj
      by_cases him : i = m
      · subst him
        rw [NameTree.insert_kids_self, List.mem_cons] at hj
        rcases hj with rfl | hj
        · rw [Function.update_self]
        · rw [Function.update_of_ne (h.inside hj).ne]
          exact hparent i j hj
      · rw [NameTree.insert_kids_of_ne him] at hj
        rw [Function.update_of_ne (h.inside hj).ne]
        exact hparent i j hj

/-- A call returns, keeps the links a tree, and keeps the tree well formed exactly when it
is harmless. -/
theorem TreeCall.wellFormed_exec_iff (h : s.Shape) (hform : s.WellFormed)
    (hok : e.Legal s) :
    ∃ s', e.exec s = .ok s' ∧ s'.Shape ∧ (s'.WellFormed ↔ e.Harmless s) := by
  rcases exec_cases h hok with ⟨ds, b, s', hcs, hb, hexec, hout⟩
  refine ⟨s', hexec, ?_⟩
  rw [harmless_iff hcs]
  rcases hout with ⟨m, n, f, data, pmm, mem, hadds, hn, rfl, rfl⟩ | ⟨hnone, rfl⟩
  · refine ⟨h.grow hn hb, ?_⟩
    rw [h.wellFormed_grow_iff hform hn hb]
    constructor
    · intro hnew m' hadds'
      rwa [hadds'.eq hadds.nearest]
    · intro hall
      exact hall m hadds
  · exact ⟨h, iff_of_true hform fun m hadds => absurd hadds (hnone m)⟩

/-- A harmless call that returns. -/
def HarmlessCall (s : Tmpfs) (e : TreeCall) (s' : Tmpfs) : Prop :=
  TreeStep s e s' ∧ e.Harmless s

theorem wellFormed_init (pmm : Pmm) (mem : ByteMem) (tmpfs : Nat) :
    (Tmpfs.init pmm mem tmpfs).WellFormed := by
  intro i n hi
  obtain rfl : n = ⟨0, none, none, none, none⟩ :=
    List.mem_singleton.mp (List.mem_of_getElem? hi)
  exact ⟨[], rfl, List.nodup_nil, fun hne => absurd rfl hne, by simp⟩

/-- Harmless calls keep the links a tree, and the tree well formed. -/
theorem harmless_run {pmm : Pmm} {mem : ByteMem} {tmpfs : Nat} {es : List TreeCall}
    (hrun : Run HarmlessCall (Tmpfs.init pmm mem tmpfs) es s) : s.Shape ∧ s.WellFormed := by
  refine hrun.invariant (I := fun s => s.Shape ∧ s.WellFormed) ?_
    ⟨Tmpfs.shape_init pmm mem tmpfs, wellFormed_init pmm mem tmpfs⟩
  rintro s e s' ⟨h, hform⟩ ⟨⟨hok, hexec⟩, hharm⟩
  rcases TreeCall.wellFormed_exec_iff h hform hok with ⟨t, ht, hshape, hiff⟩
  obtain rfl : s' = t := by
    rw [hexec] at ht
    exact Except.ok.inj ht
  exact ⟨hshape, hiff.mpr hharm⟩

/-- After every sequence of harmless calls the tree is well formed; from there every
call returns, and keeps it so exactly when it is harmless. -/
theorem tree_well_formed {pmm : Pmm} {mem : ByteMem} {tmpfs : Nat} {es : List TreeCall}
    (hrun : Run HarmlessCall (Tmpfs.init pmm mem tmpfs) es s) :
    s.WellFormed ∧
      ∀ e : TreeCall, e.Legal s → ∃ s', e.exec s = .ok s' ∧ (s'.WellFormed ↔ e.Harmless s) := by
  obtain ⟨hshape, hform⟩ := harmless_run hrun
  refine ⟨hform, ?_⟩
  intro e hok
  rcases TreeCall.wellFormed_exec_iff hshape hform hok with ⟨t, ht, _, hiff⟩
  exact ⟨t, ht, hiff⟩

/-- The directory `/a` and in it the file `/a/b`. -/
theorem tree_well_formed_nested :
    ∃ s, Run HarmlessCall Tmpfs.sixteenPages
        [.mkdir none [[97]], .create none [[97], [98]] CREATE] s ∧
      s.tree.kids 0 = [1] ∧ s.tree.kids 1 = [2] ∧ s.WellFormed ∧
      ∀ e : TreeCall, e.Legal s → ∃ s', e.exec s = .ok s' ∧
        (s'.WellFormed ↔ e.Harmless s) := by
  have hrun : ∃ s, Run HarmlessCall Tmpfs.sixteenPages
      [.mkdir none [[97]], .create none [[97], [98]] CREATE] s ∧
      s.tree.kids 0 = [1] ∧ s.tree.kids 1 = [2] := by
    refine ⟨_, .cons ⟨⟨⟨by simp [TreeCall.workingDir], by simp [TreeCall.cs], ?_, trivial⟩, rfl⟩,
        .inr (.inr rfl)⟩
      (.cons ⟨⟨⟨by simp [TreeCall.workingDir], by simp [TreeCall.cs], ?_, ?_⟩, rfl⟩,
        .inr (.inl rfl)⟩ (.nil _)), rfl, rfl⟩
    · simp [TreeCall.cs, CStr.IsComponent, CStr.slash]
    · simp [TreeCall.cs, CStr.IsComponent, CStr.slash]
    · exact (by decide : CREATE &&& CREATE ≠ 0)
  rcases hrun with ⟨s, hrun, hroot, hdir⟩
  exact ⟨s, hrun, hroot, hdir, tree_well_formed hrun⟩

/-- With `/a` there and no `/x`, creating `/x/a` makes a second `/a`. -/
theorem create_below_missing_directory :
    ∃ s, Run TreeStep Tmpfs.sixteenPages
        [.create none [[97]] CREATE, .create none [[120], [97]] CREATE] s ∧
      s.tree.kids 0 = [2, 1] ∧ s.nameOf 1 = [97] ∧ s.nameOf 2 = [97] ∧ ¬s.WellFormed := by
  have hrun : ∃ s, Run TreeStep Tmpfs.sixteenPages
      [.create none [[97]] CREATE, .create none [[120], [97]] CREATE] s ∧
      (∃ n, s.nodes[0]? = some n ∧ s.Siblings n.children [2, 1]) ∧
      s.tree.kids 0 = [2, 1] ∧ s.nameOf 1 = [97] ∧ s.nameOf 2 = [97] := by
    refine ⟨_, .cons ⟨⟨by simp [TreeCall.workingDir], by simp [TreeCall.cs], ?_, ?_⟩, rfl⟩
      (.cons ⟨⟨by simp [TreeCall.workingDir], by simp [TreeCall.cs], ?_, ?_⟩, rfl⟩ (.nil _)),
      ⟨_, rfl, rfl, nofun, rfl, nofun, rfl⟩, rfl, rfl, rfl⟩
    · simp [TreeCall.cs, CStr.IsComponent, CStr.slash]
    · exact (by decide : CREATE &&& CREATE ≠ 0)
    · simp [TreeCall.cs, CStr.IsComponent, CStr.slash]
    · exact (by decide : CREATE &&& CREATE ≠ 0)
  rcases hrun with ⟨s, hrun, ⟨n, hn, hkids⟩, htree, hname₁, hname₂⟩
  refine ⟨s, hrun, htree, hname₁, hname₂, ?_⟩
  intro hform
  rcases hform 0 n hn with ⟨xs, hxs, hnodup, _⟩
  rw [hxs.unique hkids] at hnodup
  simp [hname₁, hname₂] at hnodup

end Toystar.Fs

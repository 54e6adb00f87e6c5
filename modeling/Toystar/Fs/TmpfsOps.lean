import Toystar.Fs.Lookup

/-!
# A node or its parent

`open` and `mkdir` take the node that `path_to_node` returns for the one the path names
when it has the last name of the path, and for its parent when it has not.  That is right
where the node is there, and where a directory of another name is to have it.  A parent
of the same name is taken for the node itself: `open` returns the file `/a` for `/a/a`,
and no directory gets a child of its own name.  And `mkdir` makes directories in files.
-/

namespace Toystar.Fs

open Toystar.Kernel
open Toystar.Klibc
open Toystar.Memory
open Toystar.Verified

namespace Tmpfs

/-! ## What the calls should do -/

/-- `p` is a directory, and no child of it has the name `b`. -/
def Vacant (s : Tmpfs) (p : Nat) (b : CStr) : Prop :=
  s.typeOf p = some .directory ∧ s.tree.child p b = none

/-- The one difference between the trees is a new child `b` of `p`. -/
structure AddsChild (s : Tmpfs) (p : Nat) (b : CStr) (type : FileType) (s' : Tmpfs) : Prop where
  tree : s'.tree = s.tree.insert p s.nodes.length b
  typeOf : s'.typeOf = Function.update s.typeOf s.nodes.length (some type)
  parentOf : s'.parentOf = Function.update s.parentOf s.nodes.length (some p)
  files : s.files <+: s'.files

/-- `open` of `cs` returns a file exactly when `cs` names one, and then that one. -/
def OpensFile (s : Tmpfs) (workingDir : Option Nat) (cs : List CStr) (mode : UInt16) : Prop :=
  ∃ r, s.openFile workingDir (CStr.joinPath cs) mode = .ok (r, s) ∧
    ∀ fd, r = some fd ↔ ∃ m n, s.tree.Leads s.rootTmpfsNode cs m ∧
      s.typeOf m = some .file ∧ s.nodes[m]? = some n ∧ fd = ⟨n.file, mode, 0⟩

/-- `open` of `ds ++ [b]` makes a file below the node `p` of `ds` exactly when there is
room for it, and returns it. -/
def CreatesFile (s : Tmpfs) (workingDir : Option Nat) (ds : List CStr) (p : Nat) (b : CStr)
    (mode : UInt16) : Prop :=
  ∃ r s', s.openFile workingDir (CStr.joinPath (ds ++ [b])) mode = .ok (r, s') ∧
    (s.Vacant p b → s.AddsChild p b .file s' ∧
      ∃ n, s'.nodes[s.nodes.length]? = some n ∧ r = some ⟨n.file, mode, 0⟩) ∧
    (¬s.Vacant p b → r = none ∧ s' = s)

/-- `mkdir` of `ds ++ [b]` makes a directory below the node `p` of `ds` exactly when there
is room for it. -/
def MakesDirectory (s : Tmpfs) (workingDir : Option Nat) (ds : List CStr) (p : Nat)
    (b : CStr) : Prop :=
  ∃ r s', s.mkdir workingDir (CStr.joinPath (ds ++ [b])) = .ok (r, s') ∧
    (s.Vacant p b → r = 0 ∧ s.AddsChild p b .directory s') ∧
    (¬s.Vacant p b → r = -1 ∧ s' = s)

variable {s : Tmpfs} {ds : List CStr} {b : CStr} {p m : Nat} {n : TmpfsNode} {f : FsNode}
  {data : Option Nat} {pmm : Pmm} {mem : ByteMem}

theorem Shape.addsChild_grow (h : s.Shape) (hn : s.nodes[p]? = some n) :
    s.AddsChild p f.name f.type (s.grow p n f data pmm mem) :=
  { tree := h.linked.tree_grow hn
    typeOf := h.linked.typeOf_grow hn
    parentOf := parentOf_grow hn
    files := List.prefix_append _ _ }

/-! ## What `path_to_node` returns -/

theorem nearest_of_child (hp : s.tree.walk s.rootTmpfsNode ds = (p, []))
    (hb : s.tree.child p b = some m) : s.nearest s.rootTmpfsNode (ds ++ [b]) = some m := by
  rw [nearest, NameTree.walk_append hp, NameTree.walk_of_some hb]
  rfl

theorem nearest_of_vacant (hp : s.tree.walk s.rootTmpfsNode ds = (p, []))
    (hb : s.tree.child p b = none) : s.nearest s.rootTmpfsNode (ds ++ [b]) = some p := by
  rw [nearest, NameTree.walk_append hp, NameTree.walk_of_none hb]
  rfl

/-- The node of a path is the child of its parent. -/
theorem leads_concat_iff (hdist : s.tree.Distinct)
    (hp : s.tree.walk s.rootTmpfsNode ds = (p, [])) :
    s.tree.Leads s.rootTmpfsNode (ds ++ [b]) m ↔ s.tree.child p b = some m := by
  rw [hdist.leads_iff, NameTree.walk_append hp]
  cases hb : s.tree.child p b with
  | none =>
      rw [NameTree.walk_of_none hb]
      simp
  | some j =>
      rw [NameTree.walk_of_some hb]
      simp [NameTree.walk]

/-! ## The calls -/

section Calls

variable {workingDir : Option Nat} {mode : UInt16}
variable (h : s.Shape) (hwd : ∀ dir ∈ workingDir, dir < s.files.length)
  (hds : ∀ d ∈ ds, CStr.IsComponent d) (hb : CStr.IsComponent b)
  (hp : s.tree.walk s.rootTmpfsNode ds = (p, []))
include h hwd hds hb hp

theorem opensFile_iff (hform : s.WellFormed) (hmode : mode &&& CREATE = 0) :
    s.OpensFile workingDir (ds ++ [b]) mode ↔
      ¬(s.typeOf p = some .file ∧ s.nameOf p = b) := by
  obtain ⟨hdist, hdir, _⟩ := h.wellFormed_iff.mp hform
  cases hc : s.tree.child p b with
  | some m =>
      have hkid := NameTree.mem_kids_of_child hc
      have hname : s.nameOf m = b := NameTree.name_of_child hc
      obtain ⟨n, _, _, _, hn, _⟩ := h.linked.objects (h.inside hkid)
      have hopen := h.openFile_existing hwd hds hb (nearest_of_child hp hc) hn hmode
      have htype : s.typeOf p = some .directory := hdir p (List.ne_nil_of_mem hkid)
      refine iff_of_true ?_ (by simp [htype])
      by_cases hfile : s.typeOf m = some .file
      · rw [if_pos ⟨hname.symm, hfile⟩] at hopen
        refine ⟨_, hopen, ?_⟩
        intro fd
        constructor
        · intro hfd
          exact ⟨m, n, (leads_concat_iff hdist hp).mpr hc, hfile, hn, (Option.some.inj hfd).symm⟩
        · intro hfound
          obtain ⟨m', n', hleads, _, hn', rfl⟩ := hfound
          rw [leads_concat_iff hdist hp, hc] at hleads
          obtain rfl := Option.some.inj hleads
          rw [hn] at hn'
          rw [Option.some.inj hn']
      · rw [if_neg (fun hboth => hfile hboth.2)] at hopen
        refine ⟨_, hopen, ?_⟩
        intro fd
        refine iff_of_false nofun ?_
        intro hfound
        obtain ⟨m', _, hleads, hfile', _⟩ := hfound
        rw [leads_concat_iff hdist hp, hc] at hleads
        obtain rfl := Option.some.inj hleads
        exact hfile hfile'
  | none =>
      have hnone : ∀ m, ¬s.tree.Leads s.rootTmpfsNode (ds ++ [b]) m := by
        intro m hleads
        rw [leads_concat_iff hdist hp, hc] at hleads
        cases hleads
      obtain ⟨n, _, _, _, hn, _⟩ := h.linked.objects (h.lt_of_walk hp)
      have hopen := h.openFile_existing hwd hds hb (nearest_of_vacant hp hc) hn hmode
      by_cases hself : b = s.nameOf p ∧ s.typeOf p = some .file
      · -- the parent is taken for the node
        rw [if_pos hself] at hopen
        refine iff_of_false ?_ (not_not_intro ⟨hself.2, hself.1.symm⟩)
        intro hopens
        obtain ⟨r, hr, hfound⟩ := hopens
        rw [hopen] at hr
        obtain rfl := congrArg Prod.fst (Except.ok.inj hr)
        obtain ⟨m, _, hleads, _⟩ := (hfound _).mp rfl
        exact hnone m hleads
      · rw [if_neg hself] at hopen
        refine iff_of_true ⟨none, hopen, ?_⟩ ?_
        · intro fd
          refine iff_of_false nofun ?_
          intro hfound
          obtain ⟨m, _, hleads, _⟩ := hfound
          exact hnone m hleads
        · intro hboth
          exact hself ⟨hboth.2.symm, hboth.1⟩

theorem createsFile_iff (hmode : mode &&& CREATE ≠ 0) :
    s.CreatesFile workingDir ds p b mode ↔ ¬(s.Vacant p b ∧ s.nameOf p = b) := by
  cases hc : s.tree.child p b with
  | some m =>
      have hkid := NameTree.mem_kids_of_child hc
      have hname : s.nameOf m = b := NameTree.name_of_child hc
      obtain ⟨n, _, _, _, hn, _⟩ := h.linked.objects (h.inside hkid)
      have hopen := h.openFile_create hwd hds hb (nearest_of_child hp hc) hn hmode
      rw [if_pos (.inl hname.symm)] at hopen
      have hfull : ¬s.Vacant p b := by
        intro hvacant
        rw [hvacant.2] at hc
        cases hc
      refine iff_of_true ⟨none, s, hopen, ?_, fun _ => ⟨rfl, rfl⟩⟩ (fun hboth => hfull hboth.1)
      intro hvacant
      exact absurd hvacant hfull
  | none =>
      obtain ⟨n, _, _, _, hn, _⟩ := h.linked.objects (h.lt_of_walk hp)
      have hopen := h.openFile_create hwd hds hb (nearest_of_vacant hp hc) hn hmode
      by_cases hdir : s.typeOf p = some .directory
      · have hvacant : s.Vacant p b := ⟨hdir, hc⟩
        by_cases hname : b = s.nameOf p
        · -- the parent is taken for the node
          rw [if_pos (.inl hname)] at hopen
          refine iff_of_false ?_ (not_not_intro ⟨hvacant, hname.symm⟩)
          intro hcreates
          obtain ⟨r, s', hr, hadds, _⟩ := hcreates
          rw [hopen] at hr
          obtain rfl := congrArg Prod.fst (Except.ok.inj hr)
          obtain ⟨_, _, _, hnone⟩ := hadds hvacant
          cases hnone
        · rw [if_neg (by simp [hname, hdir])] at hopen
          refine iff_of_true ⟨_, _, hopen, ?_, fun hfull => absurd hvacant hfull⟩
            (fun hboth => hname hboth.2.symm)
          intro _
          exact ⟨h.addsChild_grow (f := s.newFile n b) hn, _, nodes_grow_new hn, rfl⟩
      · rw [if_pos (.inr hdir)] at hopen
        have hfull : ¬s.Vacant p b := fun hvacant => hdir hvacant.1
        refine iff_of_true ⟨none, s, hopen, ?_, fun _ => ⟨rfl, rfl⟩⟩ (fun hboth => hfull hboth.1)
        intro hvacant
        exact absurd hvacant hfull

theorem makesDirectory_iff :
    s.MakesDirectory workingDir ds p b ↔
      (∃ m, s.tree.child p b = some m) ∨
        (s.typeOf p = some .directory ↔ s.nameOf p ≠ b) := by
  cases hc : s.tree.child p b with
  | some m =>
      have hkid := NameTree.mem_kids_of_child hc
      have hname : s.nameOf m = b := NameTree.name_of_child hc
      obtain ⟨n, _, _, _, hn, _⟩ := h.linked.objects (h.inside hkid)
      have hmkdir := h.mkdir_some hwd hds hb (nearest_of_child hp hc) hn
      rw [if_pos hname.symm] at hmkdir
      refine iff_of_true ⟨-1, s, hmkdir, ?_, fun _ => ⟨rfl, rfl⟩⟩ (.inl ⟨m, rfl⟩)
      intro hvacant
      rw [hvacant.2] at hc
      cases hc
  | none =>
      obtain ⟨n, _, _, _, hn, _⟩ := h.linked.objects (h.lt_of_walk hp)
      have hmkdir := h.mkdir_some hwd hds hb (nearest_of_vacant hp hc) hn
      have hvacant : s.Vacant p b ↔ s.typeOf p = some .directory := and_iff_left hc
      have hnochild : ¬∃ m : Nat, none = some m := nofun
      rw [or_iff_right hnochild]
      by_cases hname : b = s.nameOf p
      · rw [if_pos hname] at hmkdir
        rw [iff_false_right (not_not_intro hname.symm), ← hvacant]
        constructor
        · intro hmakes
          obtain ⟨r, s', hr, hadds, _⟩ := hmakes
          rw [hmkdir] at hr
          have hret : -1 = r := congrArg Prod.fst (Except.ok.inj hr)
          intro hv
          rw [(hadds hv).1] at hret
          exact absurd hret (by decide)
        · intro hfull
          exact ⟨-1, s, hmkdir, fun hv => absurd hv hfull, fun _ => ⟨rfl, rfl⟩⟩
      · rw [if_neg hname] at hmkdir
        rw [iff_true_right (Ne.symm hname), ← hvacant]
        constructor
        · intro hmakes
          obtain ⟨r, s', hr, _, hfails⟩ := hmakes
          by_contra hfull
          rw [hmkdir] at hr
          have hret : 0 = r := congrArg Prod.fst (Except.ok.inj hr)
          rw [(hfails hfull).1] at hret
          exact absurd hret (by decide)
        · intro hv
          exact ⟨0, _, hmkdir, fun _ => ⟨rfl, h.addsChild_grow (f := s.newDirectory n b) hn⟩,
            fun hfull => absurd hv hfull⟩

end Calls

/-- With the parent `p` of the path there: `open` finds the file of the path, or none,
unless `p` is a file of its last name; it makes one unless `p` is a directory of that
name; and `mkdir` does what it should where the node is there, or `p` is a directory of
another name, or has the name and is none. -/
theorem node_or_parent_iff (h : s.Shape) (hform : s.WellFormed) {workingDir : Option Nat}
    (hwd : ∀ dir ∈ workingDir, dir < s.files.length)
    (hcs : ∀ c ∈ ds ++ [b], CStr.IsComponent c)
    (hp : s.tree.Leads s.rootTmpfsNode ds p) :
    (∀ mode, mode &&& CREATE = 0 → (s.OpensFile workingDir (ds ++ [b]) mode ↔
      ¬(s.typeOf p = some .file ∧ s.nameOf p = b))) ∧
    (∀ mode, mode &&& CREATE ≠ 0 → (s.CreatesFile workingDir ds p b mode ↔
      ¬(s.Vacant p b ∧ s.nameOf p = b))) ∧
    (s.MakesDirectory workingDir ds p b ↔ (∃ m, s.tree.child p b = some m) ∨
      (s.typeOf p = some .directory ↔ s.nameOf p ≠ b)) := by
  rw [List.forall_mem_append, List.forall_mem_singleton] at hcs
  obtain ⟨hds, hb⟩ := hcs
  have hwalk := (h.wellFormed_iff.mp hform).1.walk_of_leads hp
  exact ⟨fun _ => opensFile_iff h hwd hds hb hwalk hform,
    fun _ => createsFile_iff h hwd hds hb hwalk,
    makesDirectory_iff h hwd hds hb hwalk⟩

/-- Below the directory `/a` the calls do what they should for `/a/b`. -/
theorem node_or_parent_iff_directory :
    ∃ s, Run HarmlessCall sixteenPages [.mkdir none [[97]]] s ∧ s.Vacant 1 [98] ∧
      s.OpensFile none ([[97]] ++ [[98]]) 0 ∧ s.CreatesFile none [[97]] 1 [98] CREATE ∧
      s.MakesDirectory none [[97]] 1 [98] := by
  have hrun : ∃ s, Run HarmlessCall sixteenPages [.mkdir none [[97]]] s ∧ s.Vacant 1 [98] ∧
      s.nameOf 1 = [97] ∧ s.tree.walk s.rootTmpfsNode [[97]] = (1, []) := by
    refine ⟨_, .cons ⟨⟨⟨by simp [TreeCall.workingDir], by simp [TreeCall.cs], ?_, trivial⟩, rfl⟩,
      .inr (.inr rfl)⟩ (.nil _), ⟨rfl, rfl⟩, rfl, rfl⟩
    simp [TreeCall.cs, CStr.IsComponent, CStr.slash]
  obtain ⟨s, hrun, hvacant, hname, hwalk⟩ := hrun
  obtain ⟨hshape, hform⟩ := harmless_run hrun
  have hwd : ∀ dir ∈ (none : Option Nat), dir < s.files.length := by
    intro dir hdir
    cases hdir
  have hne : s.nameOf 1 ≠ [98] := by
    rw [hname]
    decide
  obtain ⟨hopen, hcreate, hmkdir⟩ := node_or_parent_iff (b := [98]) hshape hform hwd
    (by simp [CStr.IsComponent, CStr.slash]) (NameTree.leads_of_walk hwalk)
  exact ⟨s, hrun, hvacant, (hopen 0 (by decide)).mpr fun hboth => hne hboth.2,
    (hcreate CREATE (by decide)).mpr fun hboth => hne hboth.2,
    hmkdir.mpr (.inr (iff_of_true hvacant.1 hne))⟩

/-- `open` finds the file `/a` at `/a/a`. -/
theorem open_finds_parent :
    ∃ s, Run HarmlessCall sixteenPages [.create none [[97]] CREATE] s ∧
      s.tree.Leads s.rootTmpfsNode [[97]] 1 ∧
      (∀ m, ¬s.tree.Leads s.rootTmpfsNode ([[97]] ++ [[97]]) m) ∧
      (∃ fd, s.openFile none (CStr.joinPath ([[97]] ++ [[97]])) 0 = .ok (some fd, s)) ∧
      ¬s.OpensFile none ([[97]] ++ [[97]]) 0 := by
  have hrun : ∃ s, Run HarmlessCall sixteenPages [.create none [[97]] CREATE] s ∧
      s.tree.walk s.rootTmpfsNode [[97]] = (1, []) ∧ s.tree.child 1 [97] = none ∧
      s.typeOf 1 = some .file ∧ s.nameOf 1 = [97] ∧
      ∃ fd, s.openFile none (CStr.joinPath ([[97]] ++ [[97]])) 0 = .ok (some fd, s) := by
    refine ⟨_, .cons ⟨⟨⟨by simp [TreeCall.workingDir], by simp [TreeCall.cs], ?_, ?_⟩, rfl⟩,
      .inr (.inl rfl)⟩ (.nil _), rfl, rfl, rfl, rfl, ⟨1, 0, 0⟩, rfl⟩
    · simp [TreeCall.cs, CStr.IsComponent, CStr.slash]
    · exact (by decide : CREATE &&& CREATE ≠ 0)
  obtain ⟨s, hrun, hwalk, hnone, htype, hname, hopen⟩ := hrun
  obtain ⟨hshape, hform⟩ := harmless_run hrun
  have hdist := (hshape.wellFormed_iff.mp hform).1
  have hwd : ∀ dir ∈ (none : Option Nat), dir < s.files.length := by
    intro dir hdir
    cases hdir
  refine ⟨s, hrun, NameTree.leads_of_walk hwalk, fun m => hdist.not_leads hwalk hnone m, hopen, ?_⟩
  have hcomponent : CStr.IsComponent [97] := by simp [CStr.IsComponent, CStr.slash]
  have hcomponents : ∀ c ∈ [[97]], CStr.IsComponent c := by
    intro c hc
    rw [List.mem_singleton.mp hc]
    exact hcomponent
  rw [opensFile_iff hshape hwd hcomponents hcomponent hwalk hform (by decide)]
  exact not_not_intro ⟨htype, hname⟩

end Tmpfs

end Toystar.Fs

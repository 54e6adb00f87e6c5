import Toystar.Fs.TmpfsTree

/-!
# Resolving a path

`path_to_node` on the tree: for an absolute path it walks the names as far as
they match, and returns the node it ends at when at most two names are left.
With none left that is the node the path names, with one left its parent; with
two left it is the grandparent, although the comment above the last loop promises
the node or its parent.
-/

namespace Toystar.Klibc

namespace CStr

variable {c b name : CStr} {cs ds : List CStr}

theorem joinPath_cons : joinPath (c :: cs) = slash :: (c ++ joinPath cs) := by
  rw [joinPath, List.flatMap_cons]
  rfl

theorem joinPath_concat : joinPath (ds ++ [b]) = joinPath ds ++ slash :: b := by
  rw [joinPath, List.flatMap_append, List.flatMap_singleton]
  rfl

/-- A component starts with a character. -/
theorem IsComponent.exists_cons (h : IsComponent c) : ∃ x r, c = x :: r ∧ x ≠ 0 := by
  cases c with
  | nil => exact absurd rfl h.1
  | cons x r =>
      refine ⟨x, r, rfl, ?_⟩
      rintro rfl
      exact h.2.2 List.mem_cons_self

theorem IsComponent.headD_ne (h : IsComponent c) (path : CStr) :
    (c ++ path).headD 0 ≠ 0 := by
  rcases h.exists_cons with ⟨x, r, rfl, hx⟩
  exact hx

theorem head_joinPath (cs : List CStr) : ∀ x ∈ (joinPath cs).head?, x = slash := by
  intro x hx
  cases cs with
  | nil => cases hx
  | cons c cs =>
      rw [joinPath_cons, List.head?_cons] at hx
      exact (Option.some.inj hx).symm

/-- A name that is a prefix of a path is its first component, or the next character
shows that it is not. -/
theorem next_of_prefix {r : CStr} (hname : IsComponent name) (hc : IsComponent c)
    (hr : ∀ x ∈ r.head?, x = slash) (hpre : name <+: c ++ r) :
    name = c ∨ ∃ x, (c ++ r)[name.length]? = some x ∧ x ≠ slash ∧ x ≠ 0 := by
  rcases hpre with ⟨t, ht⟩
  rcases List.append_eq_append_iff.mp ht with ⟨a, ha, _⟩ | ⟨a, ha, hrest⟩
  · cases a with
    | nil =>
        rw [List.append_nil] at ha
        exact .inl ha.symm
    | cons x a =>
        have hx : x ∈ c := by simp [ha]
        refine .inr ⟨x, by simp [ha], ?_, ?_⟩
        · rintro rfl
          exact hc.2.1 hx
        · rintro rfl
          exact hc.2.2 hx
  · cases a with
    | nil =>
        rw [List.append_nil] at ha
        exact .inl ha
    | cons x a =>
        -- the path goes on with a slash, which would be in the name
        have hx : x = slash := hr x (by rw [hrest]; rfl)
        refine absurd ?_ hname.2.1
        rw [ha, hx]
        simp

end CStr

end Toystar.Klibc

namespace Toystar.Fs

open Toystar.Kernel
open Toystar.Klibc
open Toystar.Memory
open Toystar.Verified

namespace Tmpfs

variable {s : Tmpfs} {c b x : CStr} {cs ds : List CStr} {path : CStr}

/-! ## The name of a path -/

theorem lastSlash_of_notMem (hslash : CStr.slash ∉ c) (i : Nat) (last : Int) :
    lastSlash c i last = last := by
  induction c generalizing i with
  | nil => rfl
  | cons a c ih =>
      rw [List.mem_cons, not_or] at hslash
      rw [lastSlash]
      split
      · rfl
      · rw [if_neg (fun h => hslash.1 h.1.symm), ih hslash.2]

theorem lastSlash_append (hx : 0 ∉ x) (hb : CStr.IsComponent b) (i : Nat) (last : Int) :
    lastSlash (x ++ CStr.slash :: b) i last = i + x.length := by
  induction x generalizing i last with
  | nil =>
      rcases hb.exists_cons with ⟨a, r, rfl, ha⟩
      rw [List.nil_append, lastSlash, if_neg (by decide), if_pos ⟨rfl, ha⟩,
        lastSlash_of_notMem hb.2.1]
      simp
  | cons a x ih =>
      rw [List.mem_cons, not_or] at hx
      rw [List.cons_append, lastSlash, if_neg (Ne.symm hx.1), ih hx.2, List.length_cons]
      push_cast
      omega

/-- `get_name_from_path` returns the last component. -/
theorem getNameFromPath_joinPath (hds : ∀ d ∈ ds, CStr.IsComponent d)
    (hb : CStr.IsComponent b) : getNameFromPath (CStr.joinPath (ds ++ [b])) = b := by
  have hlast := lastSlash_append (CStr.zero_notMem_joinPath hds) hb 0 (-1)
  have hdrop : (((0 : Nat) : Int) + (CStr.joinPath ds).length + 1).toNat =
      (CStr.joinPath ds).length + 1 := by omega
  rw [getNameFromPath, CStr.joinPath_concat, hlast, hdrop, List.drop_append]
  simp

/-! ## The last check -/

theorem tooDeep_append (hc : CStr.IsComponent c ∨ c = []) (count : Nat) :
    tooDeep (c ++ path) count = tooDeep path count := by
  have hchars : CStr.slash ∉ c ∧ 0 ∉ c := by
    rcases hc with hc | rfl
    · exact hc.2
    · simp
  clear hc
  induction c with
  | nil => rfl
  | cons a c ih =>
      simp only [List.mem_cons, not_or] at hchars
      rw [List.cons_append, tooDeep, if_neg (Ne.symm hchars.2.1),
        if_neg (fun h => hchars.1.1 h.1.symm), ih ⟨hchars.1.2, hchars.2.2⟩]

/-- The loop counts the components below the first slash, and stops at the second. -/
theorem tooDeep_joinPath (hcs : ∀ d ∈ cs, CStr.IsComponent d) {count : Nat}
    (hcount : count ≤ 1) :
    tooDeep (CStr.joinPath cs) count = decide (1 < cs.length + count) := by
  induction cs generalizing count with
  | nil =>
      rw [List.length_nil, decide_eq_false (by omega)]
      rfl
  | cons c cs ih =>
      rw [List.forall_mem_cons] at hcs
      rw [CStr.joinPath_cons, tooDeep, if_neg (by decide),
        if_pos ⟨rfl, hcs.1.headD_ne _⟩, List.length_cons]
      by_cases hlast : count = 1
      · rw [if_pos (by omega), decide_eq_true (by omega)]
      · rw [if_neg (by omega), tooDeep_append (.inl hcs.1), ih hcs.2 (by omega)]
        congr 1
        exact propext (by omega)

/-! ## The descent -/

/-- How the descent ends, from how far the names match. -/
def Descent.of : Nat × List CStr → Descent
  | (m, []) => .found m
  | (m, c :: cs) => .rest (c ++ CStr.joinPath cs) m

variable {i head fuel : Nat} {n : TmpfsNode} {f : FsNode}

section Step

variable (hn : s.node head = .ok n) (hf : s.file n.file = .ok f)
include hn hf

/-- One turn of the loop, at a node whose objects are known. -/
theorem descend_some (hhead : path.headD 0 ≠ 0) (hname : 0 ∉ f.name) :
    s.descend (fuel + 1) (some head) path i =
      if f.name.isPrefixOf path then do
        let c ← CStr.charAt path f.name.length
        if c ≠ CStr.slash ∧ c ≠ 0 then s.descend fuel n.next path i
        else if c = 0 then return .found head
        else s.descend fuel n.children (path.drop (f.name.length + 1)) head
      else s.descend fuel n.next path i := by
  rw [descend, if_neg hhead, hn, ok_bind, hf, ok_bind]
  dsimp only
  rw [CStr.strncmp_eq hname, ok_bind, CStr.strlen_eq hname]

variable (hname : CStr.IsComponent f.name) (hc : CStr.IsComponent c)
include hname hc

/-- A sibling of another name is passed. -/
theorem descend_of_ne {r : CStr} (hr : ∀ x ∈ r.head?, x = CStr.slash) (hne : f.name ≠ c) :
    s.descend (fuel + 1) (some head) (c ++ r) i = s.descend fuel n.next (c ++ r) i := by
  rw [descend_some hn hf (hc.headD_ne _) hname.2.2]
  by_cases hpre : f.name.isPrefixOf (c ++ r)
  · rcases CStr.next_of_prefix hname hc hr (List.isPrefixOf_iff_prefix.mp hpre) with
      heq | ⟨x, hx, hslash, hzero⟩
    · exact absurd heq hne
    · rw [if_pos hpre, CStr.charAt, hx, ok_bind, if_pos ⟨hslash, hzero⟩]
  · rw [if_neg hpre]

/-- The node of the last name is found. -/
theorem descend_of_eq_last (heq : f.name = c) :
    s.descend (fuel + 1) (some head) (c ++ CStr.joinPath []) i = .ok (.found head) := by
  subst heq
  have hpre : f.name.isPrefixOf (f.name ++ CStr.joinPath []) := by simp
  have hend : CStr.charAt (f.name ++ CStr.joinPath []) f.name.length = .ok 0 := by
    rw [CStr.charAt_of_le (by simp)]
    simp [CStr.joinPath]
  rw [descend_some hn hf (hc.headD_ne _) hname.2.2, if_pos hpre, hend, ok_bind,
    if_neg (by simp), if_pos rfl]
  rfl

/-- Below a node of the first name, the descent goes on with the rest. -/
theorem descend_of_eq {r : CStr} (heq : f.name = c) :
    s.descend (fuel + 1) (some head) (c ++ CStr.slash :: r) i =
      s.descend fuel n.children r head := by
  subst heq
  have hpre : f.name.isPrefixOf (f.name ++ CStr.slash :: r) := by simp
  have hslash : CStr.charAt (f.name ++ CStr.slash :: r) f.name.length = .ok CStr.slash := by
    rw [CStr.charAt_of_le (by simp)]
    simp
  rw [descend_some hn hf (hc.headD_ne _) hname.2.2, if_pos hpre, hslash, ok_bind,
    if_neg (by simp), if_neg (by decide)]
  congr 1
  simp [List.drop_append]

end Step

/-- The descent through the siblings `xs` below `i`. -/
theorem Shape.descend_eq (h : s.Shape) {budget : Nat → Nat}
    (hbudget : ∀ i, ∀ j ∈ s.tree.kids i, (s.tree.kids j).length + budget j ≤ budget i)
    {xs : List Nat} {p : Option Nat} (hxs : xs ⊆ s.tree.kids i) (hp : s.Siblings p xs)
    (hcs : ∀ d ∈ c :: cs, CStr.IsComponent d) (hfuel : xs.length + budget i < fuel) :
    s.descend fuel p (c ++ CStr.joinPath cs) i =
      .ok (match xs.find? fun j => s.nameOf j = c with
        | none => .rest (c ++ CStr.joinPath cs) i
        | some j => .of (s.tree.walk j cs)) := by
  induction fuel generalizing xs p i c cs with
  | zero => omega
  | succ fuel ih =>
      cases xs with
      | nil =>
          obtain rfl : p = none := hp
          rfl
      | cons x xs =>
          rw [List.cons_subset] at hxs
          rcases siblings_cons.mp hp with ⟨rfl, hrest⟩
          rcases h.linked.objects (h.inside hxs.1) with ⟨n, f, hn, hf, hget, hname, _⟩
          have hcomp : CStr.IsComponent f.name := by
            rw [hname]
            exact h.component hxs.1
          have hc := hcs c List.mem_cons_self
          rw [List.length_cons] at hfuel
          by_cases heq : f.name = c
          · rw [List.find?_cons_of_pos (by simpa [← hname] using heq)]
            cases cs with
            | nil =>
                rw [descend_of_eq_last hn hf hcomp hc heq]
                rfl
            | cons d cs =>
                have hkids := hbudget i x hxs.1
                rw [CStr.joinPath_cons, descend_of_eq hn hf hcomp hc heq,
                  ih (List.Subset.refl _) (h.chain hget)
                    (fun e he => hcs e (List.mem_cons_of_mem _ he)) (by omega)]
                have hchild : (s.tree.kids x).find? (fun j => s.nameOf j = d) =
                    s.tree.child x d := rfl
                rw [hchild]
                show _ = Except.ok (Descent.of (s.tree.walk x (d :: cs)))
                cases hd : s.tree.child x d with
                | none => rw [NameTree.walk_of_none hd, Descent.of]
                | some j => rw [NameTree.walk_of_some hd]
          · have hnext : s.nextOf (some x) = n.next := by simp [nextOf, hget]
            rw [hnext] at hrest
            rw [List.find?_cons_of_neg (by simpa [← hname] using heq),
              descend_of_ne hn hf hcomp hc (CStr.head_joinPath cs) heq]
            exact ih hxs.2 hrest hcs (by omega)

/-! ## The node of a path -/

/-- The node that the names lead to, when at most two of them are left. -/
def nearest (s : Tmpfs) (i : Nat) (cs : List CStr) : Option Nat :=
  if (s.tree.walk i cs).2.length ≤ 2 then some (s.tree.walk i cs).1 else none

/-- The beginning of the path leads there. -/
theorem nearest_cases {m : Nat} (hm : s.nearest i cs = some m) :
    ∃ es rest, cs = es ++ rest ∧ s.tree.walk i es = (m, []) ∧ rest.length ≤ 2 := by
  unfold nearest at hm
  split at hm
  · rename_i hlen
    cases hm
    obtain ⟨es, hes, hwalk, _⟩ :=
      NameTree.walk_cases (Prod.mk.eta (p := s.tree.walk i cs)).symm
    exact ⟨es, _, hes, hwalk, hlen⟩
  · cases hm

/-- The descent below `i` and the last check. -/
theorem Shape.resolve_eq (h : s.Shape) (hn : s.nodes[i]? = some n) (hcs : cs ≠ [])
    (hcomp : ∀ d ∈ cs, CStr.IsComponent d) :
    s.resolve n.children ((CStr.joinPath cs).drop 1) i = .ok (s.nearest i cs) := by
  cases cs with
  | nil => exact absurd rfl hcs
  | cons c cs =>
      have hV : ∀ i, ∀ j ∈ s.tree.kids i, j ∈ Finset.range s.nodes.length := by
        intro i j hj
        exact Finset.mem_range.mpr (h.inside hj)
      rcases h.isTree.budget hV with ⟨budget, hroot, hbudget⟩
      have hfuel := hroot i
      rw [Finset.card_range] at hfuel
      have hchild : (s.tree.kids i).find? (fun j => s.nameOf j = c) = s.tree.child i c := rfl
      have hwalk : s.descend (s.nodes.length + 1) n.children (c ++ CStr.joinPath cs) i =
          .ok (.of (s.tree.walk i (c :: cs))) := by
        rw [h.descend_eq hbudget (List.Subset.refl _) (h.chain hn) hcomp (by omega), hchild]
        cases hc : s.tree.child i c with
        | none => rw [NameTree.walk_of_none hc, Descent.of]
        | some j => rw [NameTree.walk_of_some hc]
      rw [CStr.joinPath_cons, List.drop_one, List.tail_cons, resolve, hwalk, ok_bind, nearest]
      cases hw : s.tree.walk i (c :: cs) with
      | mk m rest =>
          cases rest with
          | nil => rfl
          | cons d ds =>
              rcases NameTree.walk_cases hw with ⟨es, hes, _, _⟩
              rw [hes, List.forall_mem_append, List.forall_mem_cons] at hcomp
              have hdeep : tooDeep (d ++ CStr.joinPath ds) 0 = decide (1 < ds.length) := by
                rw [tooDeep_append (.inl hcomp.2.1), tooDeep_joinPath hcomp.2.2 (by omega)]
                rfl
              show Except.ok (if tooDeep (d ++ CStr.joinPath ds) 0 then none else some m) = _
              rw [hdeep]
              by_cases hlen : 1 < ds.length
              · rw [if_pos (by simpa using hlen), if_neg (by simp; omega)]
              · rw [if_neg (by simpa using hlen), if_pos (by simp; omega)]

/-- `path_to_node` of an absolute path. -/
theorem Shape.pathToNode_eq (h : s.Shape) (hcs : cs ≠ [])
    (hcomp : ∀ d ∈ cs, CStr.IsComponent d) (currDir : Option Nat) :
    s.pathToNode (CStr.joinPath cs) currDir = .ok (s.nearest s.rootTmpfsNode cs) := by
  rcases h.linked.objects h.root with ⟨n, _, hn, _, hget, _⟩
  have habs : (CStr.joinPath cs).headD 0 = CStr.slash := by
    cases cs with
    | nil => exact absurd rfl hcs
    | cons c cs => rw [CStr.joinPath_cons, List.headD_cons]
  unfold pathToNode
  rw [if_neg (not_not_intro habs), hn, ok_bind]
  exact h.resolve_eq hget hcs hcomp

theorem Shape.nearest_lt (h : s.Shape) {m : Nat}
    (hm : s.nearest s.rootTmpfsNode cs = some m) : m < s.nodes.length := by
  unfold nearest at hm
  split at hm
  · cases hm
    rcases NameTree.walk_mem (Prod.mk.eta (p := s.tree.walk s.rootTmpfsNode cs)).symm with
      heq | ⟨a, ha⟩
    · rw [heq]
      exact h.root
    · exact h.inside ha
  · cases hm

/-! ## The calls -/

/-- A name compared with that of a node. -/
theorem Shape.strcmp_name (h : s.Shape) (hb : CStr.IsComponent b) (hf : f.name = s.nameOf i) :
    CStr.strcmp b f.name = .ok (decide (b = s.nameOf i)) := by
  have hnul := h.noNul i
  rw [← hf] at hnul
  rw [CStr.strcmp_eq hb.2.2 hnul, hf]

section Calls

variable {workingDir : Option Nat} {mode : UInt16} {m : Nat}

/-- The file object `mkdir` makes below the node of `n`. -/
def newDirectory (s : Tmpfs) (n : TmpfsNode) (b : CStr) : FsNode :=
  ⟨b, 0, 0, .directory, s.nodes.length, some n.file, s.tmpFilesystem⟩

/-- The file object `open` makes below the node of `n`. -/
def newFile (s : Tmpfs) (n : TmpfsNode) (b : CStr) : FsNode :=
  ⟨b, 4096, 0, .file, s.nodes.length, some n.file, s.tmpFilesystem⟩

variable (h : s.Shape) (hwd : ∀ dir ∈ workingDir, dir < s.files.length)
  (hds : ∀ d ∈ ds, CStr.IsComponent d) (hb : CStr.IsComponent b)
include h hwd hds hb

/-- The beginning of each call. -/
theorem Shape.workingNode_pathToNode {β : Type}
    (k : Option Nat → Except Fault β) :
    (do
      let wdir ← s.workingNode workingDir
      k (← s.pathToNode (CStr.joinPath (ds ++ [b])) wdir)) =
    k (s.nearest s.rootTmpfsNode (ds ++ [b])) := by
  have hcomp : ∀ d ∈ ds ++ [b], CStr.IsComponent d := by
    rw [List.forall_mem_append, List.forall_mem_singleton]
    exact ⟨hds, hb⟩
  have hnode : ∃ wdir, s.workingNode workingDir = .ok wdir := by
    cases workingDir with
    | none => exact ⟨none, rfl⟩
    | some dir =>
        obtain ⟨f, hf⟩ : ∃ f, s.files[dir]? = some f :=
          ⟨_, List.getElem?_eq_getElem (hwd dir rfl)⟩
        refine ⟨some f.deviceNode, ?_⟩
        rw [workingNode, Tmpfs.file, hf]
        rfl
  rcases hnode with ⟨wdir, hwdir⟩
  rw [hwdir, ok_bind, h.pathToNode_eq (by simp) hcomp wdir, ok_bind]

/-- `mkdir` where the path leads astray. -/
theorem Shape.mkdir_none (hm : s.nearest s.rootTmpfsNode (ds ++ [b]) = none) :
    s.mkdir workingDir (CStr.joinPath (ds ++ [b])) = .ok (-1, s) := by
  unfold mkdir
  rw [h.workingNode_pathToNode hwd hds hb, hm]
  rfl

/-- `mkdir` adds below the node it finds, unless that has the name already. -/
theorem Shape.mkdir_some (hm : s.nearest s.rootTmpfsNode (ds ++ [b]) = some m)
    (hn : s.nodes[m]? = some n) :
    s.mkdir workingDir (CStr.joinPath (ds ++ [b])) =
      .ok (if b = s.nameOf m then (-1, s)
        else (0, s.grow m n (s.newDirectory n b) none s.pmm s.mem)) := by
  rcases h.linked.objects (h.nearest_lt hm) with ⟨n', f, hnode, hf, hget, hname, _⟩
  obtain rfl : n' = n := by
    rw [hn] at hget
    exact (Option.some.inj hget).symm
  unfold mkdir
  rw [h.workingNode_pathToNode hwd hds hb, hm]
  simp only [hnode, hf, ok_bind, getNameFromPath_joinPath hds hb, h.strcmp_name hb hname,
    decide_eq_true_eq]
  split
  · rfl
  · rfl

/-- `open` where the path leads astray. -/
theorem Shape.openFile_none (hm : s.nearest s.rootTmpfsNode (ds ++ [b]) = none) :
    s.openFile workingDir (CStr.joinPath (ds ++ [b])) mode = .ok (none, s) := by
  unfold openFile
  rw [h.workingNode_pathToNode hwd hds hb, hm]
  rfl

/-- `open` with `CREATE` adds below the directory it finds, unless that has the name
already. -/
theorem Shape.openFile_create (hm : s.nearest s.rootTmpfsNode (ds ++ [b]) = some m)
    (hn : s.nodes[m]? = some n) (hmode : mode &&& CREATE ≠ 0) :
    s.openFile workingDir (CStr.joinPath (ds ++ [b])) mode =
      .ok (if b = s.nameOf m ∨ s.typeOf m ≠ some .directory then (none, s)
        else (some ⟨s.files.length, mode, 0⟩,
          s.grow m n (s.newFile n b) (some (s.pmm.alloc s.mem 1).1)
            (s.pmm.alloc s.mem 1).2.1 (s.pmm.alloc s.mem 1).2.2)) := by
  rcases h.linked.objects (h.nearest_lt hm) with ⟨n', f, hnode, hf, hget, hname, htype⟩
  obtain rfl : n' = n := by
    rw [hn] at hget
    exact (Option.some.inj hget).symm
  unfold openFile
  rw [h.workingNode_pathToNode hwd hds hb, hm]
  simp only [hnode, hf, ok_bind, getNameFromPath_joinPath hds hb, h.strcmp_name hb hname,
    decide_eq_true_eq, if_pos hmode, ← htype, ne_eq, Option.some.injEq]
  split
  · rfl
  · simp only [create, hnode, ok_bind, getNameFromPath_joinPath hds hb]
    rfl

/-- `open` without `CREATE` returns the file of the name, or nothing. -/
theorem Shape.openFile_existing (hm : s.nearest s.rootTmpfsNode (ds ++ [b]) = some m)
    (hn : s.nodes[m]? = some n) (hmode : mode &&& CREATE = 0) :
    s.openFile workingDir (CStr.joinPath (ds ++ [b])) mode =
      .ok (if b = s.nameOf m ∧ s.typeOf m = some .file then (some ⟨n.file, mode, 0⟩, s)
        else (none, s)) := by
  rcases h.linked.objects (h.nearest_lt hm) with ⟨n', f, hnode, hf, hget, hname, htype⟩
  obtain rfl : n' = n := by
    rw [hn] at hget
    exact (Option.some.inj hget).symm
  unfold openFile
  rw [h.workingNode_pathToNode hwd hds hb, hm]
  simp only [hnode, hf, ok_bind, getNameFromPath_joinPath hds hb, h.strcmp_name hb hname,
    decide_eq_true_eq, hmode, ← htype, ne_eq, Option.some.injEq, not_true, if_false]
  by_cases hfound : b = s.nameOf m ∧ f.type = .file
  · rw [if_neg (by simp [hfound.1, hfound.2]), if_pos hfound]
    rfl
  · rw [if_pos (by tauto), if_neg hfound]
    rfl

end Calls

/-! ## The calls for any path -/

theorem node_eq_ok : s.node i = .ok n ↔ s.nodes[i]? = some n := by
  unfold node
  cases s.nodes[i]? with
  | none => simp
  | some n' => simp

theorem file_eq_ok : s.file i = .ok f ↔ s.files[i]? = some f := by
  unfold file
  cases s.files[i]? with
  | none => simp
  | some f' => simp

section Cases

variable {s' : Tmpfs} {workingDir : Option Nat} {path : CStr} {mode : UInt16}

/-- The path leads to `m`, a directory that has not its last name: there `open` with
`CREATE` makes a file. -/
structure Accepts (s : Tmpfs) (workingDir : Option Nat) (path : CStr) (m : Nat)
    (n : TmpfsNode) (f : FsNode) : Prop where
  leads : ∃ wdir, s.workingNode workingDir = .ok wdir ∧ s.pathToNode path wdir = .ok (some m)
  node : s.nodes[m]? = some n
  file : s.file n.file = .ok f
  name : CStr.strcmp (getNameFromPath path) f.name = .ok false
  type : f.type = .directory

/-- `open` with `CREATE` makes a file below the directory of the path, or nothing. -/
theorem openFile_create_cases {r : Option FileDescription} (hmode : mode &&& CREATE ≠ 0)
    (hopen : s.openFile workingDir path mode = .ok (r, s')) :
    (r = none ∧ s' = s ∧ ∀ m n f, ¬s.Accepts workingDir path m n f) ∨
    ∃ m n f, s.Accepts workingDir path m n f ∧ r = some ⟨s.files.length, mode, 0⟩ ∧
      s' = s.grow m n (s.newFile n (getNameFromPath path)) (some (s.pmm.alloc s.mem 1).1)
        (s.pmm.alloc s.mem 1).2.1 (s.pmm.alloc s.mem 1).2.2 := by
  unfold openFile at hopen
  obtain ⟨wdir, hwdir, hopen⟩ := bind_eq_ok.mp hopen
  obtain ⟨p, hp, hopen⟩ := bind_eq_ok.mp hopen
  -- the path leads nowhere else
  have hleads : ∀ {m n f}, s.Accepts workingDir path m n f → p = some m := by
    intro m n f haccepts
    obtain ⟨wdir', hwdir', hm⟩ := haccepts.leads
    rw [hwdir] at hwdir'
    obtain rfl := Except.ok.inj hwdir'
    rw [hp] at hm
    exact Except.ok.inj hm
  cases p with
  | none =>
      cases hopen
      exact .inl ⟨rfl, rfl, fun _ _ _ haccepts => nomatch hleads haccepts⟩
  | some m =>
      simp only [bind_eq_ok] at hopen
      obtain ⟨n, hn, f, hf, same, hcmp, hopen⟩ := hopen
      rw [if_pos hmode] at hopen
      split at hopen
      next hno =>
        cases hopen
        refine .inl ⟨rfl, rfl, ?_⟩
        intro m' n' f' haccepts
        obtain rfl := Option.some.inj (hleads haccepts)
        have hnode := haccepts.node
        rw [node_eq_ok.mp hn] at hnode
        obtain rfl := Option.some.inj hnode
        have hfile := haccepts.file
        rw [hf] at hfile
        obtain rfl := Except.ok.inj hfile
        have hname := haccepts.name
        rw [hcmp] at hname
        obtain rfl := Except.ok.inj hname
        exact hno.elim (by decide) (fun htype => htype haccepts.type)
      next hno =>
        rw [not_or, not_not, Bool.not_eq_true] at hno
        obtain ⟨rfl, htype⟩ := hno
        obtain ⟨⟨fd, t⟩, hcreate, hret⟩ := bind_eq_ok.mp hopen
        cases hret
        unfold create at hcreate
        rw [hn, ok_bind] at hcreate
        cases hcreate
        exact .inr ⟨m, n, f, ⟨⟨wdir, hwdir, hp⟩, node_eq_ok.mp hn, hf, hcmp, htype⟩, rfl, rfl⟩

/-- `open` without `CREATE` returns a file, or nothing. -/
theorem openFile_existing_cases {r : Option FileDescription} (hmode : mode &&& CREATE = 0)
    (hopen : s.openFile workingDir path mode = .ok (r, s')) :
    s' = s ∧ (r = none ∨ ∃ (m : Nat) (n : TmpfsNode) (f : FsNode),
      s.nodes[m]? = some n ∧ s.file n.file = .ok f ∧ f.type = .file ∧
        r = some ⟨n.file, mode, 0⟩) := by
  unfold openFile at hopen
  obtain ⟨wdir, _, hopen⟩ := bind_eq_ok.mp hopen
  obtain ⟨p, _, hopen⟩ := bind_eq_ok.mp hopen
  cases p with
  | none =>
      cases hopen
      exact ⟨rfl, .inl rfl⟩
  | some m =>
      simp only [bind_eq_ok] at hopen
      obtain ⟨n, hn, f, hf, same, _, hopen⟩ := hopen
      rw [if_neg (not_not_intro hmode)] at hopen
      split at hopen
      next hno =>
        cases hopen
        exact ⟨rfl, .inl rfl⟩
      next hno =>
        rw [hn, ok_bind] at hopen
        cases hopen
        rw [not_or, not_not, not_not] at hno
        exact ⟨rfl, .inr ⟨m, n, f, node_eq_ok.mp hn, hf, hno.2, rfl⟩⟩

/-- `mkdir` makes a directory below a node of another name, or nothing. -/
theorem mkdir_cases {r : Int} (hmkdir : s.mkdir workingDir path = .ok (r, s')) :
    (r = -1 ∧ s' = s) ∨ ∃ (m : Nat) (n : TmpfsNode) (f : FsNode),
      s.nodes[m]? = some n ∧ s.file n.file = .ok f ∧
      CStr.strcmp (getNameFromPath path) f.name = .ok false ∧ r = 0 ∧
      s' = s.grow m n (s.newDirectory n (getNameFromPath path)) none s.pmm s.mem := by
  unfold mkdir at hmkdir
  obtain ⟨wdir, _, hmkdir⟩ := bind_eq_ok.mp hmkdir
  obtain ⟨p, _, hmkdir⟩ := bind_eq_ok.mp hmkdir
  cases p with
  | none =>
      cases hmkdir
      exact .inl ⟨rfl, rfl⟩
  | some m =>
      simp only [bind_eq_ok] at hmkdir
      obtain ⟨n, hn, f, hf, same, hcmp, hmkdir⟩ := hmkdir
      cases same with
      | true =>
          cases hmkdir
          exact .inl ⟨rfl, rfl⟩
      | false =>
          cases hmkdir
          exact .inr ⟨m, n, f, node_eq_ok.mp hn, hf, hcmp, rfl, rfl⟩

end Cases

end Tmpfs

end Toystar.Fs

import Mathlib.Data.List.Find
import Mathlib.Data.List.Nodup
import Mathlib.Data.Finset.Card
import Mathlib.Order.Interval.Finset.Nat

/-!
# Trees of named nodes

A tree given by the list of children of each node and by the name of each node,
as a directory tree in memory is.  `walk` follows a path of names from a node as
far as it matches; its result is the last node and the part of the path that is
left, so one function says which paths name a node, which name a missing child of
a node, and which go further astray.

`insert` puts a new leaf in front of a node's children.  `child_insert` is what
it changes: one name below one node.  `IsTree` says that the lists are the
children of a tree, and `IsTree.budget` bounds every search that goes through
sibling lists and from a node to its children.
-/

namespace Toystar.Verified

/-- The children of each node, and its name. -/
structure NameTree (ι κ : Type) where
  kids : ι → List ι
  name : ι → κ

namespace NameTree

variable {ι κ : Type} [DecidableEq κ]

/-! ## Paths -/

/-- The first child of `i` with the name `c`. -/
def child (T : NameTree ι κ) (i : ι) (c : κ) : Option ι :=
  (T.kids i).find? fun j => T.name j = c

/-- Follow names from `i` as far as they match: the last node, and the names left. -/
def walk (T : NameTree ι κ) : ι → List κ → ι × List κ
  | i, [] => (i, [])
  | i, c :: cs =>
      match T.child i c with
      | none => (i, c :: cs)
      | some j => walk T j cs

variable {T : NameTree ι κ} {i j m : ι} {c : κ} {cs ds rest : List κ}

theorem child_eq_none : T.child i c = none ↔ ∀ j ∈ T.kids i, T.name j ≠ c := by
  simp [child, List.find?_eq_none]

theorem mem_kids_of_child (h : T.child i c = some j) : j ∈ T.kids i :=
  List.mem_of_find?_eq_some h

theorem name_of_child (h : T.child i c = some j) : T.name j = c := by
  simpa using List.find?_some h

theorem walk_of_none (h : T.child i c = none) : T.walk i (c :: cs) = (i, c :: cs) := by
  rw [walk, h]

theorem walk_of_some (h : T.child i c = some j) : T.walk i (c :: cs) = T.walk j cs := by
  rw [walk, h]

/-- A path goes on where its beginning ends. -/
theorem walk_append (h : T.walk i ds = (m, [])) : T.walk i (ds ++ cs) = T.walk m cs := by
  induction ds generalizing i with
  | nil =>
      cases h
      rfl
  | cons d ds ih =>
      cases hd : T.child i d with
      | none =>
          rw [walk_of_none hd] at h
          cases h
      | some j =>
          rw [walk_of_some hd] at h
          rw [List.cons_append, walk_of_some hd]
          exact ih h

/-- A path goes astray at the first name that is missing. -/
theorem walk_astray (h : T.walk i ds = (m, [])) (hc : T.child m c = none) :
    T.walk i (ds ++ c :: cs) = (m, c :: cs) := by
  rw [walk_append h, walk_of_none hc]

/-- What a walk found: the names before the rest lead to its node, and that node has
no child with the first name of the rest. -/
theorem walk_cases (h : T.walk i cs = (m, rest)) :
    ∃ ds, cs = ds ++ rest ∧ T.walk i ds = (m, []) ∧
      ∀ c ∈ rest.head?, T.child m c = none := by
  induction cs generalizing i with
  | nil =>
      cases h
      exact ⟨[], rfl, rfl, by simp⟩
  | cons c cs ih =>
      cases hc : T.child i c with
      | none =>
          rw [walk_of_none hc] at h
          cases h
          refine ⟨[], rfl, rfl, ?_⟩
          intro c' hc'
          cases hc'
          exact hc
      | some j =>
          rw [walk_of_some hc] at h
          rcases ih h with ⟨ds, hcs, hwalk, hnone⟩
          refine ⟨c :: ds, by rw [hcs, List.cons_append], ?_, hnone⟩
          rw [walk_of_some hc]
          exact hwalk

/-- The last step of a path that names a node. -/
theorem walk_concat {b : κ} (h : T.walk i (ds ++ [b]) = (m, [])) :
    ∃ p, T.walk i ds = (p, []) ∧ T.child p b = some m := by
  induction ds generalizing i with
  | nil =>
      rw [List.nil_append] at h
      cases hb : T.child i b with
      | none =>
          rw [walk_of_none hb] at h
          cases h
      | some j =>
          rw [walk_of_some hb] at h
          cases h
          exact ⟨i, rfl, hb⟩
  | cons d ds ih =>
      rw [List.cons_append] at h
      cases hd : T.child i d with
      | none =>
          rw [walk_of_none hd] at h
          cases h
      | some j =>
          rw [walk_of_some hd] at h ⊢
          exact ih h

/-- A walk ends where it began or at a child of some node. -/
theorem walk_mem (h : T.walk i cs = (m, rest)) : m = i ∨ ∃ a, m ∈ T.kids a := by
  induction cs generalizing i with
  | nil =>
      cases h
      exact .inl rfl
  | cons c cs ih =>
      cases hc : T.child i c with
      | none =>
          rw [walk_of_none hc] at h
          cases h
          exact .inl rfl
      | some j =>
          rw [walk_of_some hc] at h
          rcases ih h with rfl | hmem
          · exact .inr ⟨i, mem_kids_of_child hc⟩
          · exact .inr hmem

/-! ## Nodes at a path -/

omit [DecidableEq κ] in
/-- Siblings have different names. -/
def Distinct (T : NameTree ι κ) : Prop := ∀ i, ((T.kids i).map T.name).Nodup

/-- The names `cs` lead from `i` down to a node. -/
inductive Leads (T : NameTree ι κ) : ι → List κ → ι → Prop
  | nil (i : ι) : Leads T i [] i
  | cons {i j m : ι} {cs : List κ} :
      j ∈ T.kids i → Leads T j cs m → Leads T i (T.name j :: cs) m

theorem Distinct.child_eq (h : T.Distinct) (hj : j ∈ T.kids i) :
    T.child i (T.name j) = some j := by
  cases hchild : T.child i (T.name j) with
  | none => exact absurd rfl (child_eq_none.mp hchild j hj)
  | some k =>
      have hk := mem_kids_of_child hchild
      rw [List.inj_on_of_nodup_map (h i) hk hj (name_of_child hchild)]

theorem leads_of_walk (h : T.walk i cs = (m, [])) : T.Leads i cs m := by
  induction cs generalizing i with
  | nil =>
      cases h
      exact .nil m
  | cons c cs ih =>
      cases hc : T.child i c with
      | none =>
          rw [walk_of_none hc] at h
          cases h
      | some j =>
          rw [walk_of_some hc] at h
          rw [← name_of_child hc]
          exact .cons (mem_kids_of_child hc) (ih h)

/-- Where siblings have different names, the walk finds the node of every path. -/
theorem Distinct.walk_of_leads (h : T.Distinct) (hleads : T.Leads i cs m) :
    T.walk i cs = (m, []) := by
  induction hleads with
  | nil i => rfl
  | cons hj _ ih => rw [walk_of_some (h.child_eq hj), ih]

theorem Distinct.leads_iff (h : T.Distinct) :
    T.Leads i cs m ↔ T.walk i cs = (m, []) :=
  ⟨h.walk_of_leads, leads_of_walk⟩

theorem Distinct.not_leads (h : T.Distinct) (hds : T.walk i ds = (m, []))
    (hc : T.child m c = none) (j : ι) : ¬T.Leads i (ds ++ c :: cs) j := by
  intro hleads
  have hwalk := h.walk_of_leads hleads
  rw [walk_astray hds hc] at hwalk
  cases hwalk

/-! ## A new leaf -/

/-- No node has `new` as a child, and `new` has none. -/
structure Fresh (T : NameTree ι κ) (new : ι) : Prop where
  notMem : ∀ i, new ∉ T.kids i
  leaf : T.kids new = []

variable [DecidableEq ι]

/-- A leaf `new` of the name `b` in front of the children of `p`. -/
def insert (T : NameTree ι κ) (p new : ι) (b : κ) : NameTree ι κ where
  kids := Function.update T.kids p (new :: T.kids p)
  name := Function.update T.name new b

variable {p new : ι} {b : κ}

omit [DecidableEq κ] in
theorem insert_kids_self : (T.insert p new b).kids p = new :: T.kids p :=
  Function.update_self ..

omit [DecidableEq κ] in
theorem insert_kids_of_ne (h : i ≠ p) : (T.insert p new b).kids i = T.kids i :=
  Function.update_of_ne h ..

omit [DecidableEq κ] in
theorem insert_name_self : (T.insert p new b).name new = b := Function.update_self ..

omit [DecidableEq κ] in
/-- Old nodes keep their names. -/
theorem Fresh.name_insert (h : T.Fresh new) (hj : j ∈ T.kids i) :
    (T.insert p new b).name j = T.name j := by
  apply Function.update_of_ne
  rintro rfl
  exact h.notMem i hj

/-- A new leaf is one new name below one node. -/
theorem Fresh.child_insert (h : T.Fresh new) :
    (T.insert p new b).child i c =
      if i = p ∧ c = b then some new else T.child i c := by
  have hold : (T.kids i).find? (fun j => (T.insert p new b).name j = c) = T.child i c := by
    apply List.find?_congr
    intro j hj
    rw [h.name_insert hj]
  by_cases hi : i = p
  · subst hi
    rw [child, insert_kids_self, List.find?_cons, insert_name_self]
    by_cases hc : c = b
    · subst hc
      simp
    · simp only [Ne.symm hc, decide_false, hc, and_false, if_false]
      exact hold
  · rw [child, insert_kids_of_ne hi, if_neg (by simp [hi])]
    exact hold

/-- Paths that named a node before name it still. -/
theorem Fresh.walk_insert (h : T.Fresh new) (hb : T.child p b = none)
    (hwalk : T.walk i cs = (m, [])) : (T.insert p new b).walk i cs = (m, []) := by
  induction cs generalizing i with
  | nil => exact hwalk
  | cons c cs ih =>
      cases hc : T.child i c with
      | none =>
          rw [walk_of_none hc] at hwalk
          cases hwalk
      | some j =>
          have hnew : (T.insert p new b).child i c = some j := by
            rw [h.child_insert, if_neg, hc]
            rintro ⟨rfl, rfl⟩
            rw [hb] at hc
            cases hc
          rw [walk_of_some hc] at hwalk
          rw [walk_of_some hnew]
          exact ih hwalk

/-- The new leaf is where its path leads. -/
theorem Fresh.walk_insert_self (h : T.Fresh new) (hb : T.child p b = none)
    (hwalk : T.walk i ds = (p, [])) :
    (T.insert p new b).walk i (ds ++ [b]) = (new, []) := by
  have hnew : (T.insert p new b).child p b = some new := by
    rw [h.child_insert, if_pos ⟨rfl, rfl⟩]
  rw [walk_append (h.walk_insert hb hwalk), walk_of_some hnew, walk]

/-- And no other path leads to a node that it did not lead to before. -/
theorem Fresh.walk_of_insert (h : T.Fresh new) (hp : p ≠ new)
    (hwalk : (T.insert p new b).walk i cs = (m, [])) : T.walk i cs = (m, []) ∨ m = new := by
  induction cs generalizing i with
  | nil => exact .inl hwalk
  | cons c cs ih =>
      cases hc : (T.insert p new b).child i c with
      | none =>
          rw [walk_of_none hc] at hwalk
          cases hwalk
      | some j =>
          rw [walk_of_some hc] at hwalk
          rw [h.child_insert] at hc
          split at hc
          · obtain rfl := Option.some.inj hc
            cases cs with
            | nil => exact .inr (congrArg Prod.fst hwalk).symm
            | cons d ds =>
                -- the new leaf has no children
                have hleaf : (T.insert p new b).child new d = none := by
                  rw [h.child_insert, if_neg fun hand => hp hand.1.symm, child_eq_none, h.leaf]
                  simp
                rw [walk_of_none hleaf] at hwalk
                cases hwalk
          · rw [walk_of_some hc]
            exact ih hwalk

/-- Siblings stay distinct exactly when the name is new below its parent. -/
theorem Fresh.distinct_insert_iff (h : T.Fresh new) (hT : T.Distinct) :
    (T.insert p new b).Distinct ↔ T.child p b = none := by
  have hold : ∀ i, (T.kids i).map (T.insert p new b).name = (T.kids i).map T.name := by
    intro i
    apply List.map_congr_left
    intro j hj
    exact h.name_insert hj
  have hself : ((T.insert p new b).kids p).map (T.insert p new b).name =
      b :: (T.kids p).map T.name := by
    rw [insert_kids_self, List.map_cons, hold p, insert_name_self]
  have hb : b ∉ (T.kids p).map T.name ↔ T.child p b = none := by
    rw [child_eq_none, List.mem_map]
    simp
  constructor
  · intro hdist
    have hp := hdist p
    rw [hself, List.nodup_cons] at hp
    exact hb.mp hp.1
  · intro hnone i
    by_cases hi : i = p
    · subst hi
      rw [hself, List.nodup_cons]
      exact ⟨hb.mpr hnone, hT i⟩
    · rw [insert_kids_of_ne hi, hold i]
      exact hT i

/-! ## Trees -/

omit [DecidableEq κ] [DecidableEq ι]

/-- The lists are the children of a tree: no node is listed twice, and there is no
way down from a node to itself. -/
structure IsTree (T : NameTree ι κ) : Prop where
  nodup : ∀ i, (T.kids i).Nodup
  parent_unique : ∀ {i i' j}, j ∈ T.kids i → j ∈ T.kids i' → i = i'
  ranked : ∃ rank : ι → Nat, ∀ {i j}, j ∈ T.kids i → rank i < rank j

/-- In a tree one path at most leads from the root to a node. -/
theorem IsTree.walk_unique [DecidableEq κ] (h : T.IsTree) {root : ι}
    (hroot : ∀ i, root ∉ T.kids i) (hcs : T.walk root cs = (m, []))
    (hds : T.walk root ds = (m, [])) : cs = ds := by
  induction cs using List.reverseRecOn generalizing m ds with
  | nil =>
      obtain rfl : root = m := congrArg Prod.fst hcs
      cases ds using List.reverseRecOn with
      | nil => rfl
      | append_singleton ds d =>
          obtain ⟨p, _, hchild⟩ := walk_concat hds
          exact absurd (mem_kids_of_child hchild) (hroot p)
  | append_singleton cs c ih =>
      obtain ⟨p, hp, hchild⟩ := walk_concat hcs
      cases ds using List.reverseRecOn with
      | nil =>
          obtain rfl : root = m := congrArg Prod.fst hds
          exact absurd (mem_kids_of_child hchild) (hroot p)
      | append_singleton ds d =>
          obtain ⟨q, hq, hchild'⟩ := walk_concat hds
          have hsame : p = q :=
            h.parent_unique (mem_kids_of_child hchild) (mem_kids_of_child hchild')
          have hname : c = d := (name_of_child hchild).symm.trans (name_of_child hchild')
          rw [ih hp (hsame ▸ hq), hname]

/-- In a tree of finitely many nodes, every search that reads a sibling list and then
goes on with the children of one of its nodes ends. -/
theorem IsTree.budget (h : T.IsTree) {V : Finset ι} (hV : ∀ i, ∀ j ∈ T.kids i, j ∈ V) :
    ∃ budget : ι → Nat, (∀ i, (T.kids i).length + budget i ≤ V.card) ∧
      ∀ i, ∀ j ∈ T.kids i, (T.kids j).length + budget j ≤ budget i := by
  classical
  rcases h.ranked with ⟨rank, hrank⟩
  -- the nodes whose parent is further down than `i`
  let below : ι → Finset ι := fun i => {j ∈ V | ∃ a, j ∈ T.kids a ∧ rank i < rank a}
  have hcard : ∀ i, ((T.kids i).toFinset ∪ below i).card =
      (T.kids i).length + (below i).card := by
    intro i
    rw [Finset.card_union_of_disjoint, List.toFinset_card_of_nodup (h.nodup i)]
    rw [Finset.disjoint_left]
    intro j hj hbelow
    rw [List.mem_toFinset] at hj
    rcases (Finset.mem_filter.mp hbelow).2 with ⟨a, ha, hlt⟩
    rw [h.parent_unique ha hj] at hlt
    exact lt_irrefl _ hlt
  refine ⟨fun i => (below i).card, ?_, ?_⟩
  · intro i
    rw [← hcard i]
    apply Finset.card_le_card
    intro j hj
    rcases Finset.mem_union.mp hj with hj | hj
    · exact hV i j (List.mem_toFinset.mp hj)
    · exact (Finset.mem_filter.mp hj).1
  · intro i j hj
    rw [← hcard j]
    apply Finset.card_le_card
    intro k hk
    rw [Finset.mem_filter]
    rcases Finset.mem_union.mp hk with hk | hk
    · rw [List.mem_toFinset] at hk
      exact ⟨hV j k hk, j, hk, hrank hj⟩
    · rcases Finset.mem_filter.mp hk with ⟨hkV, a, ha, hlt⟩
      exact ⟨hkV, a, ha, (hrank hj).trans hlt⟩

/-- A new leaf keeps a tree a tree. -/
theorem IsTree.insert [DecidableEq ι] (h : T.IsTree) (hnew : T.Fresh new) (hp : p ≠ new) :
    (T.insert p new b).IsTree := by
  rcases h.ranked with ⟨rank, hrank⟩
  have hmem : ∀ {i j}, j ∈ (T.insert p new b).kids i →
      (i = p ∧ j = new) ∨ j ∈ T.kids i := by
    intro i j hj
    by_cases hi : i = p
    · subst hi
      rw [insert_kids_self, List.mem_cons] at hj
      exact hj.imp (fun hj => ⟨rfl, hj⟩) id
    · rw [insert_kids_of_ne hi] at hj
      exact .inr hj
  have hne : ∀ {i j}, j ∈ T.kids i → j ≠ new := by
    rintro i j hj rfl
    exact hnew.notMem i hj
  refine ⟨?_, ?_, Function.update rank new (rank p + 1), ?_⟩
  · intro i
    by_cases hi : i = p
    · subst hi
      rw [insert_kids_self, List.nodup_cons]
      exact ⟨hnew.notMem i, h.nodup i⟩
    · rw [insert_kids_of_ne hi]
      exact h.nodup i
  · intro i i' j hj hj'
    rcases hmem hj with ⟨rfl, rfl⟩ | hold
    · rcases hmem hj' with ⟨rfl, _⟩ | hold'
      · rfl
      · exact absurd hold' (hnew.notMem i')
    · rcases hmem hj' with ⟨_, hj'⟩ | hold'
      · exact absurd hj' (hne hold)
      · exact h.parent_unique hold hold'
  · intro i j hj
    rcases hmem hj with ⟨rfl, rfl⟩ | hold
    · rw [Function.update_self, Function.update_of_ne hp]
      exact Nat.lt_succ_self _
    · have hi : i ≠ new := by
        rintro rfl
        rw [hnew.leaf] at hold
        cases hold
      rw [Function.update_of_ne hi, Function.update_of_ne (hne hold)]
      exact hrank hold

end NameTree

end Toystar.Verified

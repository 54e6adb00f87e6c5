import Toystar.Fs.Tmpfs
import Toystar.Verified.Chain
import Toystar.Verified.NameTree

/-!
# The directory tree of `tmpfs`

The nodes of the filesystem are linked through `children` and `next`.  `tree`
reads these links as a `NameTree`, and `Shape` says that the reading is the whole
truth: each `children` pointer heads a null-terminated chain of the listed nodes,
and the lists are those of a tree.  `open` and `mkdir` change the links in one
way only, `grow`: a new node becomes the first child of another, which is
`NameTree.insert`.
-/

namespace Toystar.Fs

open Toystar.Kernel
open Toystar.Klibc
open Toystar.Memory
open Toystar.Verified

namespace Tmpfs

/-! ## Links -/

/-- `p->next`. -/
def nextOf (s : Tmpfs) (p : Option Nat) : Option Nat :=
  p.bind fun i => s.nodes[i]?.bind (·.next)

/-- `node->file->name`. -/
def nameOf (s : Tmpfs) (i : Nat) : CStr :=
  ((s.nodes[i]?.bind fun n => s.files[n.file]?).map (·.name)).getD []

/-- `node->file->type`. -/
def typeOf (s : Tmpfs) (i : Nat) : Option FileType :=
  (s.nodes[i]?.bind fun n => s.files[n.file]?).map (·.type)

/-- `node->parent`. -/
def parentOf (s : Tmpfs) (i : Nat) : Option Nat := s.nodes[i]?.bind (·.parent)

/-- The nodes met from a pointer on through `next`. -/
def siblings (s : Tmpfs) : Nat → Option Nat → List Nat
  | 0, _ => []
  | _ + 1, none => []
  | fuel + 1, some i => i :: siblings s fuel (s.nextOf (some i))

/-- The tree of the nodes. -/
def tree (s : Tmpfs) : NameTree Nat CStr where
  kids i := siblings s s.nodes.length (s.nodes[i]?.bind (·.children))
  name := s.nameOf

/-- Following `next` from `p` visits `xs` and ends at null. -/
def Siblings (s : Tmpfs) (p : Option Nat) (xs : List Nat) : Prop :=
  Chain none s.nextOf p (xs.map some)

variable {s s' : Tmpfs} {p : Option Nat} {i j : Nat} {xs ys : List Nat}

theorem siblings_cons : s.Siblings p (i :: xs) ↔
    p = some i ∧ s.Siblings (s.nextOf (some i)) xs := by
  unfold Siblings
  rw [List.map_cons, chain_cons]
  simp

theorem Siblings.unique (hx : s.Siblings p xs) (hy : s.Siblings p ys) : xs = ys :=
  List.map_injective_iff.mpr (Option.some_injective Nat) (Chain.unique hx hy)

/-- With fuel for its length, the reading of a chain is the chain. -/
theorem Siblings.read (h : s.Siblings p xs) {fuel : Nat} (hfuel : xs.length ≤ fuel) :
    s.siblings fuel p = xs := by
  induction xs generalizing p fuel with
  | nil =>
      obtain rfl : p = none := h
      cases fuel <;> rfl
  | cons i xs ih =>
      rcases siblings_cons.mp h with ⟨rfl, hrest⟩
      cases fuel with
      | zero => simp at hfuel
      | succ fuel =>
          rw [siblings, ih hrest (by simpa using hfuel)]

/-- A chain only reads the `next` of its own nodes. -/
theorem Siblings.congr (h : s.Siblings p xs)
    (hag : ∀ i ∈ xs, s'.nextOf (some i) = s.nextOf (some i)) : s'.Siblings p xs := by
  apply Chain.congr h
  intro x hx
  rcases List.mem_map.mp hx with ⟨i, hi, rfl⟩
  exact hag i hi

/-! ## Shape -/

/-- The links of the nodes are those of a tree of named nodes. -/
structure Shape (s : Tmpfs) : Prop where
  root : s.rootTmpfsNode < s.nodes.length
  file : ∀ {i : Nat} {n : TmpfsNode}, s.nodes[i]? = some n → n.file < s.files.length
  chain : ∀ {i : Nat} {n : TmpfsNode},
    s.nodes[i]? = some n → s.Siblings n.children (s.tree.kids i)
  inside : ∀ {i j}, j ∈ s.tree.kids i → j < s.nodes.length
  component : ∀ {i j}, j ∈ s.tree.kids i → CStr.IsComponent (s.nameOf j)
  noNul : ∀ i, 0 ∉ s.nameOf i
  isTree : s.tree.IsTree

/-- The same, whatever the names are. -/
structure Linked (s : Tmpfs) : Prop where
  root : s.rootTmpfsNode < s.nodes.length
  file : ∀ {i : Nat} {n : TmpfsNode}, s.nodes[i]? = some n → n.file < s.files.length
  chain : ∀ {i : Nat} {n : TmpfsNode},
    s.nodes[i]? = some n → s.Siblings n.children (s.tree.kids i)
  inside : ∀ {i j}, j ∈ s.tree.kids i → j < s.nodes.length
  noNul : ∀ i, 0 ∉ s.nameOf i
  isTree : s.tree.IsTree

theorem Shape.linked (h : s.Shape) : s.Linked :=
  { root := h.root
    file := h.file
    chain := h.chain
    inside := h.inside
    noNul := h.noNul
    isTree := h.isTree }

/-- With proper names the tree has the shape. -/
theorem Linked.shape (h : s.Linked)
    (hcomp : ∀ {i j}, j ∈ s.tree.kids i → CStr.IsComponent (s.nameOf j)) : s.Shape :=
  { root := h.root
    file := h.file
    chain := h.chain
    inside := h.inside
    component := hcomp
    noNul := h.noNul
    isTree := h.isTree }

/-- A node that was not made has no children. -/
theorem kids_of_le (h : s.nodes.length ≤ i) : s.tree.kids i = [] := by
  show s.siblings s.nodes.length (s.nodes[i]?.bind (·.children)) = []
  rw [List.getElem?_eq_none h]
  cases s.nodes.length <;> rfl

theorem nameOf_of_le (h : s.nodes.length ≤ i) : s.nameOf i = [] := by
  unfold nameOf
  rw [List.getElem?_eq_none h]
  rfl

namespace Linked

/-- The objects of a node of the tree. -/
theorem objects (h : s.Linked) (hi : i < s.nodes.length) :
    ∃ n f, s.node i = .ok n ∧ s.file n.file = .ok f ∧ s.nodes[i]? = some n ∧
      f.name = s.nameOf i ∧ some f.type = s.typeOf i := by
  have hn : s.nodes[i]? = some s.nodes[i] := List.getElem?_eq_getElem hi
  obtain ⟨f, hf⟩ : ∃ f, s.files[s.nodes[i].file]? = some f :=
    ⟨_, List.getElem?_eq_getElem (h.file hn)⟩
  refine ⟨s.nodes[i], f, ?_, ?_, hn, ?_, ?_⟩
  · rw [Tmpfs.node, hn]
  · rw [Tmpfs.file, hf]
  · rw [nameOf, hn, Option.bind_some, hf]
    rfl
  · rw [typeOf, hn, Option.bind_some, hf]
    rfl

/-- A new index is a fresh node. -/
theorem fresh (h : s.Linked) : s.tree.Fresh s.nodes.length := by
  refine ⟨?_, kids_of_le (le_refl _)⟩
  intro i hmem
  exact absurd (h.inside hmem) (lt_irrefl _)

theorem length_kids_le (h : s.Linked) (i : Nat) :
    (s.tree.kids i).length ≤ s.nodes.length := by
  have hsub : s.tree.kids i ⊆ List.range s.nodes.length := by
    intro j hj
    exact List.mem_range.mpr (h.inside hj)
  have hle := List.Nodup.length_le_of_subset (h.isTree.nodup i) hsub
  rwa [List.length_range] at hle

end Linked

/-! ## A new node -/

/-- What `open` and `mkdir` do to the objects: a new node with the file `f` becomes
the first child of `parent`, whose object is `n`. -/
def grow (s : Tmpfs) (parent : Nat) (n : TmpfsNode) (f : FsNode) (data : Option Nat)
    (pmm : Pmm) (mem : ByteMem) : Tmpfs :=
  { s with
    pmm, mem
    files := s.files ++ [f]
    nodes := List.set (s.nodes ++ [⟨s.files.length, data, n.children, some parent, none⟩])
      parent { n with children := some s.nodes.length } }

variable {parent : Nat} {n : TmpfsNode} {f : FsNode} {data : Option Nat} {pmm : Pmm}
  {mem : ByteMem}

/-- The objects after `grow`. -/
theorem nodes_grow (hn : s.nodes[parent]? = some n) (i : Nat) :
    (s.grow parent n f data pmm mem).nodes[i]? =
      if i = parent then some { n with children := some s.nodes.length }
      else if i = s.nodes.length then
        some ⟨s.files.length, data, n.children, some parent, none⟩
      else s.nodes[i]? := by
  have hlt : parent < s.nodes.length := (List.getElem?_eq_some_iff.mp hn).1
  show (List.set _ _ _)[i]? = _
  by_cases hp : i = parent
  · subst hp
    rw [if_pos rfl, List.getElem?_set_self (by rw [List.length_append]; omega)]
  · rw [if_neg hp, List.getElem?_set_ne (Ne.symm hp)]
    by_cases hi : i = s.nodes.length
    · subst hi
      rw [if_pos rfl, List.getElem?_concat_length]
    · rw [if_neg hi]
      rcases Nat.lt_or_gt_of_ne hi with hlt' | hgt
      · rw [List.getElem?_append_left hlt']
      · rw [List.getElem?_eq_none (by simp; omega), List.getElem?_eq_none (by omega)]

/-- The new node. -/
theorem nodes_grow_new (hn : s.nodes[parent]? = some n) :
    (s.grow parent n f data pmm mem).nodes[s.nodes.length]? =
      some ⟨s.files.length, data, n.children, some parent, none⟩ := by
  have hlt : parent < s.nodes.length := (List.getElem?_eq_some_iff.mp hn).1
  rw [nodes_grow hn, if_neg hlt.ne', if_pos rfl]

theorem length_nodes_grow :
    (s.grow parent n f data pmm mem).nodes.length = s.nodes.length + 1 := by
  show (List.set _ _ _).length = _
  rw [List.length_set, List.length_append, List.length_singleton]

theorem files_grow_of_lt (hi : i < s.files.length) :
    (s.grow parent n f data pmm mem).files[i]? = s.files[i]? :=
  List.getElem?_append_left hi

theorem files_grow_self : (s.grow parent n f data pmm mem).files[s.files.length]? = some f :=
  List.getElem?_concat_length

/-- The file object a node refers to. -/
theorem Linked.fileOf_grow (h : s.Linked) (hn : s.nodes[parent]? = some n) (i : Nat) :
    ((s.grow parent n f data pmm mem).nodes[i]?.bind fun ni =>
      (s.grow parent n f data pmm mem).files[ni.file]?) =
    if i = s.nodes.length then some f
    else s.nodes[i]?.bind fun ni => s.files[ni.file]? := by
  have hlt : parent < s.nodes.length := (List.getElem?_eq_some_iff.mp hn).1
  rw [nodes_grow hn i]
  by_cases hp : i = parent
  · subst hp
    rw [if_pos rfl, if_neg (by omega), hn, Option.bind_some, Option.bind_some,
      files_grow_of_lt (h.file hn)]
  · rw [if_neg hp]
    by_cases hi : i = s.nodes.length
    · rw [if_pos hi, if_pos hi, Option.bind_some, files_grow_self]
    · rw [if_neg hi, if_neg hi]
      cases hni : s.nodes[i]? with
      | none => rfl
      | some ni => rw [Option.bind_some, Option.bind_some, files_grow_of_lt (h.file hni)]

theorem Linked.nameOf_grow (h : s.Linked) (hn : s.nodes[parent]? = some n) :
    (s.grow parent n f data pmm mem).nameOf = Function.update s.nameOf s.nodes.length f.name := by
  funext i
  unfold nameOf
  rw [h.fileOf_grow hn i]
  by_cases hi : i = s.nodes.length
  · subst hi
    rw [if_pos rfl, Function.update_self]
    rfl
  · rw [if_neg hi, Function.update_of_ne hi]

theorem Linked.typeOf_grow (h : s.Linked) (hn : s.nodes[parent]? = some n) :
    (s.grow parent n f data pmm mem).typeOf =
      Function.update s.typeOf s.nodes.length (some f.type) := by
  funext i
  unfold typeOf
  rw [h.fileOf_grow hn i]
  by_cases hi : i = s.nodes.length
  · subst hi
    rw [if_pos rfl, Function.update_self]
    rfl
  · rw [if_neg hi, Function.update_of_ne hi]

theorem parentOf_grow (hn : s.nodes[parent]? = some n) :
    (s.grow parent n f data pmm mem).parentOf =
      Function.update s.parentOf s.nodes.length (some parent) := by
  have hlt : parent < s.nodes.length := (List.getElem?_eq_some_iff.mp hn).1
  funext i
  unfold parentOf
  rw [nodes_grow hn i]
  by_cases hi : i = s.nodes.length
  · subst hi
    rw [if_neg (by omega), if_pos rfl, Function.update_self]
    rfl
  · rw [Function.update_of_ne hi, if_neg hi]
    by_cases hp : i = parent
    · rw [if_pos hp, hp, hn]
      rfl
    · rw [if_neg hp]

/-- Old nodes keep their `next`. -/
theorem nextOf_grow (hn : s.nodes[parent]? = some n) (hi : i < s.nodes.length) :
    (s.grow parent n f data pmm mem).nextOf (some i) = s.nextOf (some i) := by
  show (s.grow parent n f data pmm mem).nodes[i]?.bind (·.next) = s.nodes[i]?.bind (·.next)
  rw [nodes_grow hn i]
  by_cases hp : i = parent
  · rw [if_pos hp, hp, hn]
    rfl
  · rw [if_neg hp, if_neg (by omega)]

/-- The chains after `grow`. -/
theorem Linked.chain_grow (h : s.Linked) (hn : s.nodes[parent]? = some n) {ni : TmpfsNode}
    (hi : (s.grow parent n f data pmm mem).nodes[i]? = some ni) :
    (s.grow parent n f data pmm mem).Siblings ni.children
      ((s.tree.insert parent s.nodes.length f.name).kids i) := by
  have hlt : parent < s.nodes.length := (List.getElem?_eq_some_iff.mp hn).1
  -- an old chain is read as before
  have hold : ∀ {j : Nat} {nj : TmpfsNode}, s.nodes[j]? = some nj →
      (s.grow parent n f data pmm mem).Siblings nj.children (s.tree.kids j) := by
    intro j nj hj
    apply (h.chain hj).congr
    intro k hk
    exact nextOf_grow hn (h.inside hk)
  rw [nodes_grow hn i] at hi
  by_cases hp : i = parent
  · subst hp
    rw [if_pos rfl] at hi
    cases hi
    rw [NameTree.insert_kids_self, siblings_cons]
    refine ⟨rfl, ?_⟩
    have hnext : (s.grow i n f data pmm mem).nextOf (some s.nodes.length) = n.children := by
      show (s.grow i n f data pmm mem).nodes[s.nodes.length]?.bind (·.next) = n.children
      rw [nodes_grow_new hn]
      rfl
    rw [hnext]
    exact hold hn
  · rw [if_neg hp] at hi
    rw [NameTree.insert_kids_of_ne hp]
    by_cases hnew : i = s.nodes.length
    · subst hnew
      rw [if_pos rfl] at hi
      cases hi
      rw [kids_of_le (le_refl _)]
      rfl
    · rw [if_neg hnew] at hi
      exact hold hi

/-- `grow` inserts a leaf. -/
theorem Linked.tree_grow (h : s.Linked) (hn : s.nodes[parent]? = some n) :
    (s.grow parent n f data pmm mem).tree = s.tree.insert parent s.nodes.length f.name := by
  have hkids : (s.grow parent n f data pmm mem).tree.kids =
      (s.tree.insert parent s.nodes.length f.name).kids := by
    funext i
    show (s.grow parent n f data pmm mem).siblings _ _ = _
    cases hi : (s.grow parent n f data pmm mem).nodes[i]? with
    | none =>
        rw [nodes_grow hn i] at hi
        by_cases hp : i = parent
        · rw [if_pos hp] at hi
          cases hi
        · rw [if_neg hp] at hi
          by_cases hnew : i = s.nodes.length
          · rw [if_pos hnew] at hi
            cases hi
          · rw [if_neg hnew, List.getElem?_eq_none_iff] at hi
            rw [NameTree.insert_kids_of_ne hp, kids_of_le hi, length_nodes_grow]
            rfl
    | some ni =>
        apply (h.chain_grow hn hi).read
        rw [length_nodes_grow]
        by_cases hp : i = parent
        · subst hp
          rw [NameTree.insert_kids_self, List.length_cons]
          exact Nat.succ_le_succ (h.length_kids_le i)
        · rw [NameTree.insert_kids_of_ne hp]
          exact (h.length_kids_le i).trans (Nat.le_succ _)
  have hname : (s.grow parent n f data pmm mem).tree.name =
      (s.tree.insert parent s.nodes.length f.name).name := h.nameOf_grow hn
  exact congrArg₂ NameTree.mk hkids hname

/-- The children after `grow`. -/
theorem Linked.mem_kids_grow (h : s.Linked) (hn : s.nodes[parent]? = some n)
    (hj : j ∈ (s.grow parent n f data pmm mem).tree.kids i) :
    (i = parent ∧ j = s.nodes.length) ∨ j ∈ s.tree.kids i := by
  rw [h.tree_grow hn] at hj
  by_cases hp : i = parent
  · subst hp
    rw [NameTree.insert_kids_self, List.mem_cons] at hj
    exact hj.imp (fun hj => ⟨rfl, hj⟩) id
  · rw [NameTree.insert_kids_of_ne hp] at hj
    exact .inr hj

/-- `grow` keeps the links those of a tree. -/
theorem Linked.grow (h : s.Linked) (hn : s.nodes[parent]? = some n) (hf : 0 ∉ f.name) :
    (s.grow parent n f data pmm mem).Linked := by
  have hlt : parent < s.nodes.length := (List.getElem?_eq_some_iff.mp hn).1
  have htree : (s.grow parent n f data pmm mem).tree =
      s.tree.insert parent s.nodes.length f.name := h.tree_grow hn
  have hfiles : (s.grow parent n f data pmm mem).files.length = s.files.length + 1 :=
    List.length_append
  refine ⟨?_, ?_, ?_, ?_, ?_, ?_⟩
  · rw [length_nodes_grow]
    exact Nat.lt_succ_of_lt h.root
  · intro i ni hi
    rw [hfiles]
    rw [nodes_grow hn i] at hi
    split at hi
    · cases hi
      have hfile := h.file hn
      exact Nat.lt_succ_of_lt hfile
    · split at hi
      · cases hi
        exact Nat.lt_succ_self _
      · exact Nat.lt_succ_of_lt (h.file hi)
  · intro i ni hi
    rw [htree]
    exact h.chain_grow hn hi
  · intro i j hj
    rw [length_nodes_grow]
    rcases h.mem_kids_grow hn hj with ⟨_, rfl⟩ | hj
    · exact Nat.lt_succ_self _
    · exact Nat.lt_succ_of_lt (h.inside hj)
  · intro i
    rw [h.nameOf_grow hn]
    by_cases hi : i = s.nodes.length
    · rw [hi, Function.update_self]
      exact hf
    · rw [Function.update_of_ne hi]
      exact h.noNul i
  · rw [htree]
    exact h.isTree.insert h.fresh hlt.ne

/-- `grow` keeps the shape. -/
theorem Shape.grow (h : s.Shape) (hn : s.nodes[parent]? = some n)
    (hf : CStr.IsComponent f.name) : (s.grow parent n f data pmm mem).Shape := by
  apply (h.linked.grow hn hf.2.2).shape
  intro i j hj
  rw [h.linked.nameOf_grow hn]
  rcases h.linked.mem_kids_grow hn hj with ⟨_, rfl⟩ | hj
  · rw [Function.update_self]
    exact hf
  · rw [Function.update_of_ne (h.inside hj).ne]
    exact h.component hj

theorem kids_init (pmm : Pmm) (mem : ByteMem) (tmpfs i : Nat) :
    (init pmm mem tmpfs).tree.kids i = [] := by
  cases i with
  | zero => rfl
  | succ i => exact kids_of_le (Nat.succ_le_succ (Nat.zero_le i))

/-- The tree `tmpfs::tmpfs` builds. -/
theorem shape_init (pmm : Pmm) (mem : ByteMem) (tmpfs : Nat) : (init pmm mem tmpfs).Shape := by
  have hkids : ∀ i, (init pmm mem tmpfs).tree.kids i = [] := kids_init pmm mem tmpfs
  have hnode : ∀ {i : Nat} {n : TmpfsNode}, (init pmm mem tmpfs).nodes[i]? = some n →
      n = ⟨0, none, none, none, none⟩ := by
    intro i n hi
    exact List.mem_singleton.mp (List.mem_of_getElem? hi)
  refine ⟨Nat.one_pos, ?_, ?_, ?_, ?_, ?_, ⟨?_, ?_, fun _ => 0, ?_⟩⟩
  · intro i n hi
    rw [hnode hi]
    exact Nat.one_pos
  · intro i n hi
    rw [hnode hi, hkids i]
    rfl
  · intro i j hj
    rw [hkids i] at hj
    cases hj
  · intro i j hj
    rw [hkids i] at hj
    cases hj
  · intro i
    cases i with
    | zero => exact (by decide : (0 : UInt8) ∉ [CStr.slash])
    | succ i =>
        rw [nameOf_of_le (Nat.succ_le_succ (Nat.zero_le i))]
        exact List.not_mem_nil
  · intro i
    rw [hkids i]
    exact List.nodup_nil
  · intro i i' j hj
    rw [hkids i] at hj
    cases hj
  · intro i j hj
    rw [hkids i] at hj
    cases hj

end Tmpfs

end Toystar.Fs

import Mathlib.Data.List.Nodup
import Mathlib.Order.Interval.Finset.Nat

/-!
# Singly linked lists threaded through a store

A store is seen only through its link function `nxt`: the node after `x` is
`nxt x`, and `null` ends a list.  `Chain null nxt p xs` says that following
links from `p` visits exactly `xs`.  A program that relinks nodes changes
`nxt` at a few addresses; the lemmas here say which chains survive
(`Chain.congr`), how a chain is cut in two (`chain_append`) and what unlinking
one node does (`Chain.unlink`).
-/

namespace Toystar.Verified

variable {α : Type}

/-- Following `nxt` from `p` visits `xs` in order and then arrives at `q`. -/
def Seg (null : α) (nxt : α → α) : α → List α → α → Prop
  | p, [], q => p = q
  | p, x :: xs, q => p = x ∧ x ≠ null ∧ Seg null nxt (nxt x) xs q

/-- A segment that ends at the null link. -/
def Chain (null : α) (nxt : α → α) (p : α) (xs : List α) : Prop :=
  Seg null nxt p xs null

variable {null : α} {nxt nxt' : α → α}

@[simp] theorem seg_nil {p q : α} : Seg null nxt p [] q ↔ p = q := Iff.rfl

@[simp] theorem seg_cons {p q x : α} {xs : List α} :
    Seg null nxt p (x :: xs) q ↔
      p = x ∧ x ≠ null ∧ Seg null nxt (nxt x) xs q := Iff.rfl

@[simp] theorem chain_nil {p : α} : Chain null nxt p [] ↔ p = null := Iff.rfl

@[simp] theorem chain_cons {p x : α} {xs : List α} :
    Chain null nxt p (x :: xs) ↔
      p = x ∧ x ≠ null ∧ Chain null nxt (nxt x) xs := Iff.rfl

/-- Segments compose at the point where the first one ends. -/
theorem seg_append {p q : α} {xs ys : List α} :
    Seg null nxt p (xs ++ ys) q ↔
      ∃ r, Seg null nxt p xs r ∧ Seg null nxt r ys q := by
  induction xs generalizing p with
  | nil => simp
  | cons x xs ih =>
      simp only [List.cons_append, seg_cons, ih]
      constructor
      · rintro ⟨hp, hx, r, h₁, h₂⟩
        exact ⟨r, ⟨hp, hx, h₁⟩, h₂⟩
      · rintro ⟨r, ⟨hp, hx, h₁⟩, h₂⟩
        exact ⟨hp, hx, r, h₁, h₂⟩

theorem chain_append {p : α} {xs ys : List α} :
    Chain null nxt p (xs ++ ys) ↔
      ∃ q, Seg null nxt p xs q ∧ Chain null nxt q ys :=
  seg_append

/-- A segment only reads the links of its own nodes. -/
theorem Seg.congr {p q : α} {xs : List α} (h : Seg null nxt p xs q)
    (hag : ∀ x ∈ xs, nxt' x = nxt x) : Seg null nxt' p xs q := by
  induction xs generalizing p with
  | nil => exact h
  | cons x xs ih =>
      obtain ⟨hp, hx, hrest⟩ := h
      refine ⟨hp, hx, ?_⟩
      rw [hag x (by simp)]
      exact ih hrest fun y hy => hag y (by simp [hy])

theorem Chain.congr {p : α} {xs : List α} (h : Chain null nxt p xs)
    (hag : ∀ x ∈ xs, nxt' x = nxt x) : Chain null nxt' p xs :=
  Seg.congr h hag

/-- The first link of a chain is null exactly when the chain is empty. -/
theorem Chain.head_eq_null_iff {p : α} {xs : List α}
    (h : Chain null nxt p xs) : p = null ↔ xs = [] := by
  cases xs with
  | nil => simpa using h
  | cons x xs =>
      obtain ⟨rfl, hx, _⟩ := h
      simp [hx]

/-- The store and the first link determine the chain. -/
theorem Chain.unique {p : α} {xs ys : List α} (hx : Chain null nxt p xs)
    (hy : Chain null nxt p ys) : xs = ys := by
  induction xs generalizing p ys with
  | nil =>
      have hp : p = null := hx
      exact ((hy.head_eq_null_iff).mp hp).symm
  | cons x xs ih =>
      obtain ⟨rfl, hne, hrest⟩ := hx
      cases ys with
      | nil => exact absurd hy hne
      | cons y ys =>
          obtain ⟨rfl, _, hrest'⟩ := hy
          rw [ih hrest hrest']

/-- Redirecting the link of the node before `x` to the node after `x` takes
`x`, and nothing else, out of the chain. -/
theorem Chain.unlink {p w x : α} {pre post : List α}
    (h : Chain null nxt p (pre ++ w :: x :: post))
    (hnodup : (pre ++ w :: x :: post).Nodup)
    (hw : nxt' w = nxt x)
    (hag : ∀ y ∈ pre ++ post, nxt' y = nxt y) :
    Chain null nxt' p (pre ++ w :: post) := by
  obtain ⟨q, hpre, rfl, hwne, hx, _, hpost⟩ := chain_append.mp h
  refine chain_append.mpr ⟨q, hpre.congr fun y hy => hag y (by simp [hy]),
    rfl, hwne, ?_⟩
  rw [hw]
  exact hpost.congr fun y hy => hag y (by simp [hy])

end Toystar.Verified

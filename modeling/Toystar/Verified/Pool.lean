import Mathlib.Data.Finset.Card
import Mathlib.Order.Bounds.Basic

/-!
# Pools of names

A pool hands out the least name that is not in use and takes names back.
`Answers` is what it may return: the least free name, or nothing once no name is
free.  A pool that only looks at an initial part of the names finds the same
name as one that looks at all of them (`Answers.extend`), and it finds none
exactly when as many names are in use as the part has (`Answers.eq_none_iff`).
-/

namespace Toystar.Verified

variable {α : Type} [PartialOrder α]

/-- What a pool of `names` answers while those in `held` are in use. -/
def Answers (names held : Set α) : Option α → Prop
  | some a => IsLeast (names \ held) a
  | none => names ⊆ held

variable {part names held : Set α} {a : α} {r : Option α}

/-- A name found in an initial part is the least free one of all. -/
theorem Answers.extend (h : Answers part held (some a)) (hsub : part ⊆ names)
    (hinit : ∀ b ∈ part, ∀ c ∈ names, c ∉ part → b ≤ c) :
    Answers names held (some a) := by
  have hmem : a ∈ part \ held := h.1
  refine ⟨⟨hsub hmem.1, hmem.2⟩, ?_⟩
  intro c hc
  by_cases hpart : c ∈ part
  · exact h.2 ⟨hpart, hc.2⟩
  · exact hinit a hmem.1 c hc.1 hpart

/-- With distinct names in use, nothing is found exactly when they are as many as
the pool has. -/
theorem Answers.eq_none_iff [DecidableEq α] {pool : Finset α} {l : List α}
    (h : Answers (↑pool) {b | b ∈ l} r) (hnodup : l.Nodup)
    (hpool : ∀ b ∈ l, b ∈ pool) : r = none ↔ l.length = pool.card := by
  have hsub : l.toFinset ⊆ pool := by
    intro b hb
    exact hpool b (List.mem_toFinset.mp hb)
  rw [← List.toFinset_card_of_nodup hnodup]
  cases r with
  | none =>
      have hall : pool ⊆ l.toFinset := by
        intro b hb
        exact List.mem_toFinset.mpr (h (Finset.mem_coe.mpr hb))
      rw [Finset.Subset.antisymm hsub hall]
      exact iff_of_true rfl rfl
  | some b =>
      have hmem : b ∈ (↑pool : Set α) \ {b | b ∈ l} := h.1
      refine iff_of_false (by simp) ?_
      intro hcard
      have heq := Finset.eq_of_subset_of_card_le hsub hcard.ge
      rw [← heq] at hmem
      exact hmem.2 (List.mem_toFinset.mp (Finset.mem_coe.mp hmem.1))

end Toystar.Verified

import Mathlib.Data.Nat.Count
import Mathlib.Order.Interval.Finset.Nat

/-!
# First fit by run length

A single pass over a table of used cells that counts the current run of free
ones and stops as soon as the run is long enough.  `firstFit_eq_some` says that
what it finds is a free range and the lowest one; `firstFit_eq_none` that it
only gives up when there is none.  `freeCells_occupy` is the accounting: occupying
a free range lowers the number of free cells by its length.
-/

namespace Toystar.Verified

/-- Scan `n` cells from `i` on, `run` free cells having just been passed: the
start of the first range of `count` free cells. -/
def firstFit (used : Nat → Bool) (count : Nat) : Nat → Nat → Nat → Option Nat
  | 0, _, _ => none
  | n + 1, i, run =>
      if used i then firstFit used count n (i + 1) 0
      else if run + 1 = count then some (i + 1 - count)
      else firstFit used count n (i + 1) (run + 1)

/-- Every cell of `[start, start + count)` is free. -/
def FreeRange (used : Nat → Bool) (start count : Nat) : Prop :=
  ∀ j, start ≤ j → j < start + count → used j = false

variable {used : Nat → Bool} {count n i run start : Nat}

/-- The range found is free, within the cells scanned, and every lower start
meets a used cell. -/
theorem firstFit_eq_some (hrun : run ≤ i) (hlt : run < count)
    (hfree : ∀ j, i ≤ j + run → j < i → used j = false)
    (hfit : firstFit used count n i run = some start) :
    i ≤ start + run ∧ start + count ≤ i + n ∧ FreeRange used start count ∧
      ∀ q, i ≤ q + run → q < start → ¬FreeRange used q count := by
  induction n generalizing i run with
  | zero => simp [firstFit] at hfit
  | succ n ih =>
      rw [firstFit] at hfit
      by_cases hused : used i = true
      · rw [if_pos hused] at hfit
        obtain ⟨hlo, hhi, hrange, hmin⟩ :=
          ih (by omega) (by omega) (fun j _ _ => by omega) hfit
        refine ⟨by omega, by omega, hrange, fun q hq hqs hcontra => ?_⟩
        rcases Nat.lt_or_ge i q with hiq | hiq
        · exact hmin q (by omega) hqs hcontra
        · have := hcontra i hiq (by omega)
          simp [hused] at this
      · rw [if_neg hused] at hfit
        rw [Bool.not_eq_true] at hused
        have hfree' : ∀ j, i + 1 ≤ j + (run + 1) → j < i + 1 → used j = false := by
          intro j hj hji
          rcases Nat.eq_or_lt_of_le (Nat.le_of_lt_succ hji) with rfl | hlt'
          · exact hused
          · exact hfree j (by omega) hlt'
        by_cases hdone : run + 1 = count
        · rw [if_pos hdone, Option.some.injEq] at hfit
          subst hfit
          refine ⟨by omega, by omega, fun j _ _ => hfree' j (by omega) (by omega),
            fun q _ _ => by omega⟩
        · rw [if_neg hdone] at hfit
          obtain ⟨hlo, hhi, hrange, hmin⟩ :=
            ih (by omega) (by omega) hfree' hfit
          exact ⟨by omega, by omega, hrange, fun q hq => hmin q (by omega)⟩

/-- Without a result no range of the scanned cells is free. -/
theorem firstFit_eq_none (hlt : run < count)
    (hfit : firstFit used count n i run = none) :
    ∀ q, i ≤ q + run → q + count ≤ i + n → ¬FreeRange used q count := by
  induction n generalizing i run with
  | zero => intro q _ _; omega
  | succ n ih =>
      rw [firstFit] at hfit
      intro q hq hqn hcontra
      by_cases hused : used i = true
      · rw [if_pos hused] at hfit
        rcases Nat.lt_or_ge i q with hiq | hiq
        · exact ih (by omega) hfit q (by omega) (by omega) hcontra
        · have := hcontra i hiq (by omega)
          simp [hused] at this
      · rw [if_neg hused] at hfit
        by_cases hdone : run + 1 = count
        · simp [hdone] at hfit
        · rw [if_neg hdone] at hfit
          exact ih (by omega) hfit q (by omega) (by omega) hcontra

/-- No range is empty. -/
theorem firstFit_zero (used : Nat → Bool) (n i run : Nat) : firstFit used 0 n i run = none := by
  induction n generalizing i run with
  | zero => rfl
  | succ n ih =>
      rw [firstFit]
      split
      · exact ih (i + 1) 0
      · rw [if_neg (Nat.succ_ne_zero run)]
        exact ih (i + 1) (run + 1)

/-- The number of free cells below `n`. -/
def freeCells (used : Nat → Bool) (n : Nat) : Nat :=
  Nat.count (fun i => used i = false) n

theorem freeCells_lt (hzero : used 0 = true) (hn : 0 < n) :
    freeCells used n < n := by
  obtain ⟨m, rfl⟩ : ∃ m, n = m + 1 := ⟨n - 1, by omega⟩
  have hle := Nat.count_le (p := fun i => used (i + 1) = false) (n := m)
  unfold freeCells
  rw [Nat.count_succ', hzero]
  simp only [Bool.true_eq_false, if_false]
  omega

/-- Among free cells there is one. -/
theorem exists_free_of_pos (h : 0 < freeCells used n) : ∃ i < n, used i = false := by
  unfold freeCells at h
  rw [Nat.count_eq_card_filter_range, Finset.card_pos] at h
  rcases h with ⟨i, hi⟩
  rw [Finset.mem_filter, Finset.mem_range] at hi
  exact ⟨i, hi.1, hi.2⟩

/-- Occupying a free range costs its length. -/
theorem freeCells_occupy {used' : Nat → Bool} (hn : start + count ≤ n)
    (hfree : FreeRange used start count)
    (hused : ∀ i, used' i = (decide (start ≤ i ∧ i < start + count) || used i)) :
    freeCells used' n + count = freeCells used n := by
  have hfilter : (Finset.range n).filter (fun i => used' i = false) =
      (Finset.range n).filter (fun i => used i = false) \
        Finset.Ico start (start + count) := by
    ext i
    simp only [Finset.mem_filter, Finset.mem_range, Finset.mem_sdiff,
      Finset.mem_Ico, hused, Bool.or_eq_false_iff, decide_eq_false_iff_not]
    tauto
  have hsub : Finset.Ico start (start + count) ⊆
      (Finset.range n).filter (fun i => used i = false) := by
    intro i hi
    simp only [Finset.mem_Ico] at hi
    simp only [Finset.mem_filter, Finset.mem_range]
    exact ⟨by omega, hfree i hi.1 hi.2⟩
  have hle := Finset.card_le_card hsub
  unfold freeCells
  rw [Nat.count_eq_card_filter_range, Nat.count_eq_card_filter_range, hfilter,
    Finset.card_sdiff_of_subset hsub]
  rw [Nat.card_Ico] at hle ⊢
  omega

/-- Cells that are free now were free before or are in a range: their number grew by the
range's length at most. -/
theorem freeCells_le_add {used' : Nat → Bool} (start count : Nat)
    (h : ∀ i, used' i = false → used i = false ∨ (start ≤ i ∧ i < start + count)) :
    freeCells used' n ≤ freeCells used n + count := by
  have hsub : (Finset.range n).filter (fun i => used' i = false) ⊆
      (Finset.range n).filter (fun i => used i = false) ∪ Finset.Ico start (start + count) := by
    intro i hi
    rw [Finset.mem_filter] at hi
    rw [Finset.mem_union, Finset.mem_filter, Finset.mem_Ico]
    exact (h i hi.2).imp (fun hfree => ⟨hi.1, hfree⟩) id
  have hle := (Finset.card_le_card hsub).trans (Finset.card_union_le _ _)
  unfold freeCells
  rw [Nat.count_eq_card_filter_range, Nat.count_eq_card_filter_range]
  rw [Nat.card_Ico] at hle
  omega

end Toystar.Verified

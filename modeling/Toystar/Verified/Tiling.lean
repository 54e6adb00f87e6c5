import Mathlib.Data.Set.Lattice
import Mathlib.Data.Set.Pairwise.Basic
import Mathlib.Order.CompletePartialOrder
import Mathlib.Order.Interval.Finset.Nat

/-!
# Tilings of an interval of addresses

A block is a pair `(start, length)` and covers the addresses of its `span`.
`Tiles S lo hi` says that the blocks of `S` are nonempty, pairwise disjoint
and together cover exactly `[lo, hi)`.  The two moves of a block allocator
keep a tiling: cutting one block in two (`Tiles.split`) and joining two
neighbours (`Tiles.merge`).
-/

namespace Toystar.Verified

/-- The addresses a block covers. -/
def span (b : Nat × Nat) : Set Nat := Set.Ico b.1 (b.1 + b.2)

@[simp] theorem mem_span {b : Nat × Nat} {x : Nat} :
    x ∈ span b ↔ b.1 ≤ x ∧ x < b.1 + b.2 := Iff.rfl

/-- The blocks of `S` partition `[lo, hi)`. -/
structure Tiles (S : Set (Nat × Nat)) (lo hi : Nat) : Prop where
  pos : ∀ b ∈ S, 0 < b.2
  disjoint : S.PairwiseDisjoint span
  cover : ∀ x, (lo ≤ x ∧ x < hi) ↔ ∃ b ∈ S, x ∈ span b

variable {S : Set (Nat × Nat)} {lo hi : Nat}

/-- Distinct blocks of a tiling lie one after the other. -/
theorem Tiles.apart (h : Tiles S lo hi) {b c : Nat × Nat} (hb : b ∈ S)
    (hc : c ∈ S) (hne : b ≠ c) :
    b.1 + b.2 ≤ c.1 ∨ c.1 + c.2 ≤ b.1 := by
  by_contra hover
  have hbpos := h.pos b hb
  have hcpos := h.pos c hc
  have hdis := Set.disjoint_left.mp (h.disjoint hb hc hne)
  -- the larger of the two starts lies in both spans
  exact hdis (a := max b.1 c.1) (mem_span.mpr ⟨by omega, by omega⟩)
    (mem_span.mpr ⟨by omega, by omega⟩)

/-- Two blocks of a tiling with the same start are the same block. -/
theorem Tiles.eq_of_start_eq (h : Tiles S lo hi) {b c : Nat × Nat}
    (hb : b ∈ S) (hc : c ∈ S) (heq : b.1 = c.1) : b = c := by
  by_contra hne
  have hbpos := h.pos b hb
  have hcpos := h.pos c hc
  rcases h.apart hb hc hne with h' | h' <;> omega

theorem Tiles.bounds (h : Tiles S lo hi) {b : Nat × Nat} (hb : b ∈ S) :
    lo ≤ b.1 ∧ b.1 + b.2 ≤ hi := by
  have hpos := h.pos b hb
  have hfirst := (h.cover b.1).mpr ⟨b, hb, by simp [hpos]⟩
  have hlast := (h.cover (b.1 + b.2 - 1)).mpr
    ⟨b, hb, mem_span.mpr ⟨by omega, by omega⟩⟩
  omega

/-- When all lengths are multiples of `d`, so are the starts: a block that is not
the first one starts where another one ends. -/
theorem Tiles.dvd_start (h : Tiles S lo hi) {d : Nat} (hlo : d ∣ lo)
    (hlen : ∀ b ∈ S, d ∣ b.2) {b : Nat × Nat} (hb : b ∈ S) : d ∣ b.1 := by
  induction hstart : b.1 using Nat.strong_induction_on generalizing b with
  | _ n ih =>
      have hbounds := h.bounds hb
      have hpos := h.pos b hb
      rcases Nat.eq_or_lt_of_le hbounds.1 with hfirst | hlt
      · rwa [← hstart, ← hfirst]
      · obtain ⟨c, hc, hcover⟩ := (h.cover (b.1 - 1)).mp ⟨by omega, by omega⟩
        rw [mem_span] at hcover
        have hne : c ≠ b := by
          intro heq
          rw [heq] at hcover
          omega
        have hapart := h.apart hc hb hne
        have hend : c.1 + c.2 = n := by omega
        rw [← hend]
        exact Nat.dvd_add (ih c.1 (by omega) hc rfl) (hlen c hc)

/-- One block is a tiling of its own span. -/
theorem tiles_singleton (a n : Nat) (hn : 0 < n) :
    Tiles {(a, n)} a (a + n) where
  pos := by simp [hn]
  disjoint := Set.pairwiseDisjoint_singleton _ _
  cover := by simp

/-- Cutting one block in two keeps the tiling. -/
theorem Tiles.split (h : Tiles S lo hi) {a m n : Nat} (hm : 0 < m)
    (hn : 0 < n) (hb : (a, m + n) ∈ S) :
    Tiles (insert (a, m) (insert (a + m, n) (S \ {(a, m + n)}))) lo hi where
  pos := by
    rintro b (rfl | rfl | ⟨hS, _⟩)
    · exact hm
    · exact hn
    · exact h.pos b hS
  disjoint := by
    -- every kept block is apart from the old block, hence from both halves
    have hrest : ∀ b ∈ S \ {(a, m + n)}, b.1 + b.2 ≤ a ∨ a + (m + n) ≤ b.1 := by
      rintro b ⟨hS, hne⟩
      exact h.apart hS hb hne
    refine (Set.PairwiseDisjoint.insert ?_ ?_).insert ?_
    · exact h.disjoint.subset Set.sdiff_subset
    · intro b hbS _
      rw [Set.disjoint_left]
      intro x hx hxb
      have := hrest b hbS
      simp only [mem_span] at hx hxb
      omega
    · rintro b (rfl | hbS) _ <;> rw [Set.disjoint_left] <;>
        intro x hx hxb
      · simp only [mem_span] at hx hxb
        omega
      · have := hrest b hbS
        simp only [mem_span] at hx hxb
        omega
  cover := by
    intro x
    rw [h.cover x]
    constructor
    · rintro ⟨b, hS, hx⟩
      by_cases hbe : b = (a, m + n)
      · subst hbe
        simp only [mem_span] at hx
        rcases Nat.lt_or_ge x (a + m) with hlt | hge
        · exact ⟨(a, m), by simp, mem_span.mpr ⟨hx.1, hlt⟩⟩
        · exact ⟨(a + m, n), by simp, mem_span.mpr ⟨hge, by omega⟩⟩
      · exact ⟨b, .inr (.inr ⟨hS, hbe⟩), hx⟩
    · rintro ⟨b, rfl | rfl | ⟨hS, _⟩, hx⟩
      · simp only [mem_span] at hx
        exact ⟨(a, m + n), hb, mem_span.mpr ⟨hx.1, by omega⟩⟩
      · simp only [mem_span] at hx
        exact ⟨(a, m + n), hb, mem_span.mpr ⟨by omega, by omega⟩⟩
      · exact ⟨b, hS, hx⟩

/-- Joining two neighbouring blocks keeps the tiling. -/
theorem Tiles.merge (h : Tiles S lo hi) {a m n : Nat} (hb : (a, m) ∈ S)
    (hc : (a + m, n) ∈ S) :
    Tiles (insert (a, m + n) (S \ {(a, m), (a + m, n)})) lo hi where
  pos := by
    rintro b (rfl | ⟨hS, _⟩)
    · exact Nat.add_pos_left (h.pos _ hb) n
    · exact h.pos b hS
  disjoint := by
    refine Set.PairwiseDisjoint.insert (h.disjoint.subset Set.sdiff_subset) ?_
    rintro b ⟨hS, hne⟩ _
    simp only [Set.mem_insert_iff, Set.mem_singleton_iff, not_or] at hne
    have h₁ := h.apart hS hb hne.1
    have h₂ := h.apart hS hc hne.2
    have hbpos := h.pos b hS
    rw [Set.disjoint_left]
    intro x hx hxb
    simp only [mem_span] at hx hxb h₁ h₂
    omega
  cover := by
    intro x
    rw [h.cover x]
    constructor
    · rintro ⟨b, hS, hx⟩
      by_cases hbe : b = (a, m) ∨ b = (a + m, n)
      · refine ⟨(a, m + n), .inl rfl, ?_⟩
        rcases hbe with rfl | rfl <;> simp only [mem_span] at hx ⊢ <;> omega
      · exact ⟨b, .inr ⟨hS, by simpa using hbe⟩, hx⟩
    · rintro ⟨b, rfl | ⟨hS, _⟩, hx⟩
      · simp only [mem_span] at hx
        rcases Nat.lt_or_ge x (a + m) with hlt | hge
        · exact ⟨(a, m), hb, mem_span.mpr ⟨hx.1, hlt⟩⟩
        · exact ⟨(a + m, n), hc, mem_span.mpr ⟨hge, by omega⟩⟩
      · exact ⟨b, hS, hx⟩

end Toystar.Verified

import Mathlib.Data.Nat.Bitwise
import Mathlib.Data.Nat.Find
import Mathlib.Logic.Relation
import Toystar.Verified.Tiling

/-!
# Buddy systems

A buddy system cuts blocks of length `2 ^ (k + 1)` into halves and joins two
blocks of length `2 ^ k` whose addresses differ in bit `k` only.  `Move` says
what one cut or one join does to the set of the blocks, given as the relation
`B start order`; whatever an allocator does is a sequence of `Moves`.

Joining looks at absolute addresses, cutting does not.  Two invariants of
moves make the difference visible: aligned blocks stay aligned
(`Moves.aligned`), and a block that is off the grid of bit `j`, once there is
one, is there for ever (`Moves.offGrid`).  Aligned blocks of which no two are
buddies have all been joined (`whole_of_noBuddies`).
-/

namespace Toystar.Verified

/-! ## Flipping one bit -/

/-- Flipping one bit moves an address by that power of two, up when the bit was
clear and down when it was set. -/
theorem xor_two_pow_cases (a k : Nat) :
    (a.testBit k = false ∧ a ^^^ 2 ^ k = a + 2 ^ k) ∨
      (a.testBit k = true ∧ a = (a ^^^ 2 ^ k) + 2 ^ k) := by
  induction k generalizing a with
  | zero =>
      have hdiv : (a ^^^ 2 ^ 0) / 2 = a / 2 := by rw [Nat.xor_div_two]; simp
      have hmod : (a ^^^ 2 ^ 0) % 2 = (a + 2 ^ 0) % 2 := Nat.xor_mod_two_eq
      rw [Nat.testBit_zero, decide_eq_false_iff_not, decide_eq_true_eq]
      omega
  | succ k ih =>
      have hdiv : (a ^^^ 2 ^ (k + 1)) / 2 = a / 2 ^^^ 2 ^ k := by
        rw [Nat.xor_div_two, Nat.pow_succ, Nat.mul_div_cancel _ (by omega)]
      have hmod : (a ^^^ 2 ^ (k + 1)) % 2 = (a + 2 ^ (k + 1)) % 2 :=
        Nat.xor_mod_two_eq
      have hpow : 2 ^ (k + 1) = 2 * 2 ^ k := Nat.pow_succ'
      rw [← Nat.testBit_div_two]
      rcases ih (a / 2) with ⟨hbit, h'⟩ | ⟨hbit, h'⟩
      · exact .inl ⟨hbit, by omega⟩
      · exact .inr ⟨hbit, by omega⟩

theorem xor_two_pow (a k : Nat) :
    a ^^^ 2 ^ k = a + 2 ^ k ∨ a = (a ^^^ 2 ^ k) + 2 ^ k :=
  (xor_two_pow_cases a k).imp And.right And.right

theorem xor_two_pow_ne (a k : Nat) : a ^^^ 2 ^ k ≠ a := by
  have hpos := Nat.two_pow_pos k
  rcases xor_two_pow a k with h' | h' <;> omega

theorem xor_two_pow_eq_iff {a b k : Nat} : a ^^^ 2 ^ k = b ↔ b ^^^ 2 ^ k = a := by
  constructor <;> rintro rfl <;> exact Nat.xor_xor_cancel_right _ _

/-- Flipping bit `k` keeps the residue modulo the divisors of `2 ^ k`. -/
theorem dvd_xor_two_pow_iff {a d k : Nat} (hd : d ∣ 2 ^ k) : d ∣ a ^^^ 2 ^ k ↔ d ∣ a := by
  rcases xor_two_pow a k with hup | hdown
  · rw [hup]
    exact Nat.dvd_add_left hd
  · have hsum : d ∣ (a ^^^ 2 ^ k) + 2 ^ k ↔ d ∣ a ^^^ 2 ^ k := Nat.dvd_add_left hd
    rw [← hdown] at hsum
    exact hsum.symm

/-- A multiple of `2 ^ k` with bit `k` clear is a multiple of `2 ^ (k + 1)`. -/
theorem two_pow_succ_dvd {a k : Nat} (hdvd : 2 ^ k ∣ a)
    (hbit : a.testBit k = false) : 2 ^ (k + 1) ∣ a := by
  obtain ⟨q, rfl⟩ := hdvd
  have hq : q % 2 = 0 := by
    rw [Nat.testBit_eq_decide_div_mod_eq, Nat.mul_div_cancel_left _ (Nat.two_pow_pos k),
      decide_eq_false_iff_not] at hbit
    omega
  rw [Nat.pow_succ]
  exact Nat.mul_dvd_mul_left _ (Nat.dvd_of_mod_eq_zero hq)

/-! ## Moves -/

/-- One cut or one join, on the relation `B start order` of the blocks. -/
inductive Move : (Nat → Nat → Prop) → (Nat → Nat → Prop) → Prop
  | split {B B' : Nat → Nat → Prop} {a j : Nat} (hb : B a (j + 1))
      (hB' : ∀ x i, B' x i ↔
        (i = j ∧ (x = a ∨ x = a + 2 ^ j)) ∨
          (B x i ∧ ¬(i = j + 1 ∧ x = a))) : Move B B'
  | merge {B B' : Nat → Nat → Prop} {a k : Nat} (hbit : a.testBit k = false)
      (ha : B a k) (hb : B (a + 2 ^ k) k)
      (hB' : ∀ x i, B' x i ↔
        (i = k + 1 ∧ x = a) ∨
          (B x i ∧ ¬(i = k ∧ (x = a ∨ x = a + 2 ^ k)))) : Move B B'

/-- Any number of cuts and joins. -/
def Moves : (Nat → Nat → Prop) → (Nat → Nat → Prop) → Prop :=
  Relation.ReflTransGen Move

namespace Moves

variable {B B' C : Nat → Nat → Prop}

/-- No move at all, also when the blocks are listed in another way. -/
theorem of_iff (h : ∀ x i, B' x i ↔ B x i) : Moves B B' := by
  have heq : B' = B := by
    funext x i
    exact propext (h x i)
  rw [heq]
  exact .refl

theorem single (h : Move B B') : Moves B B' := Relation.ReflTransGen.single h

theorem trans (h₁ : Moves B B') (h₂ : Moves B' C) : Moves B C :=
  Relation.ReflTransGen.trans h₁ h₂

/-- What every cut and every join keeps, moves keep. -/
theorem invariant {Q : (Nat → Nat → Prop) → Prop}
    (hstep : ∀ {B B'}, Q B → Move B B' → Q B') (h : Moves B B') (hB : Q B) :
    Q B' := by
  induction h with
  | refl => exact hB
  | tail _ hmove ih => exact hstep ih hmove

/-- Every block starts at a multiple of its length. -/
def Aligned (B : Nat → Nat → Prop) : Prop := ∀ x k, B x k → 2 ^ k ∣ x

theorem aligned (h : Moves B B') (hB : Aligned B) : Aligned B' := by
  refine h.invariant ?_ hB
  intro B B' hal hmove
  cases hmove with
  | @split a j hb hB' =>
      have ha : 2 ^ j ∣ a := (Nat.pow_dvd_pow 2 (Nat.le_succ j)).trans (hal a _ hb)
      intro x i hx
      rcases (hB' x i).mp hx with ⟨rfl, rfl | rfl⟩ | ⟨hx, _⟩
      · exact ha
      · exact Nat.dvd_add ha (Nat.dvd_refl _)
      · exact hal x i hx
  | @merge a k hbit ha hb hB' =>
      intro x i hx
      rcases (hB' x i).mp hx with ⟨rfl, rfl⟩ | ⟨hx, _⟩
      · exact two_pow_succ_dvd (hal x k ha) hbit
      · exact hal x i hx

/-- Some block is too small to contain bit `j`, or starts where bit `j` is
clear. -/
def OffGrid (j : Nat) (B : Nat → Nat → Prop) : Prop :=
  ∃ x k, B x k ∧ (k ≤ j ∨ x.testBit j = false)

/-- A join that removes such a block makes another one: at order `j` it starts
where bit `j` is clear, and above it leaves bit `j` alone. -/
theorem offGrid {j : Nat} (h : Moves B B') (hB : OffGrid j B) : OffGrid j B' := by
  refine h.invariant ?_ hB
  rintro B B' ⟨x, k, hx, hoff⟩ hmove
  cases hmove with
  | @split a i hb hB' =>
      by_cases hcut : k = i + 1 ∧ x = a
      · obtain ⟨rfl, rfl⟩ := hcut
        refine ⟨x, i, (hB' x i).mpr (.inl ⟨rfl, .inl rfl⟩), ?_⟩
        exact hoff.imp_left fun hk => by omega
      · exact ⟨x, k, (hB' x k).mpr (.inr ⟨hx, hcut⟩), hoff⟩
  | @merge a i hbit ha hb hB' =>
      by_cases hjoin : k = i ∧ (x = a ∨ x = a + 2 ^ i)
      · obtain ⟨rfl, hxa⟩ := hjoin
        refine ⟨a, k + 1, (hB' a (k + 1)).mpr (.inl ⟨rfl, rfl⟩), ?_⟩
        rcases Nat.lt_trichotomy k j with hlt | rfl | hgt
        · exact .inl hlt
        · exact .inr hbit
        · right
          have hclear : x.testBit j = false := hoff.resolve_left (by omega)
          rcases hxa with rfl | rfl
          · exact hclear
          · rwa [Nat.add_comm, Nat.testBit_two_pow_add_gt hgt] at hclear
      · exact ⟨x, k, (hB' x k).mpr (.inr ⟨hx, hjoin⟩), hoff⟩

end Moves

/-! ## A rested system is one block -/

/-- A block on the grid of its length that meets an interval with ends on that
grid lies inside. -/
theorem grid_subset {P a lo hi y : Nat} (ha : P ∣ a) (hlo : P ∣ lo) (hhi : P ∣ hi)
    (hy : a ≤ y ∧ y < a + P) (hy' : lo ≤ y ∧ y < hi) : lo ≤ a ∧ a + P ≤ hi := by
  obtain ⟨q, rfl⟩ := ha
  obtain ⟨l, rfl⟩ := hlo
  obtain ⟨m, rfl⟩ := hhi
  have hl : P * l < P * (q + 1) := by rw [Nat.mul_succ]; omega
  have hm : P * q < P * m := by omega
  have hlq : l ≤ q := by have := Nat.lt_of_mul_lt_mul_left hl; omega
  have hqm : q + 1 ≤ m := Nat.lt_of_mul_lt_mul_left hm
  exact ⟨Nat.mul_le_mul_left P hlq, Nat.mul_le_mul_left P hqm⟩

/-- Aligned blocks that tile an aligned interval of length `2 ^ n`, no two of them
buddies, are one block: the buddy of a smallest block would be covered by a
block that is no smaller, which would be the buddy itself or reach back over
the smallest block. -/
theorem whole_of_noBuddies {B : Nat → Nat → Prop} {lo n : Nat}
    (htiles : Tiles {b | ∃ k, b.2 = 2 ^ k ∧ B b.1 k} lo (lo + 2 ^ n))
    (hlo : 2 ^ n ∣ lo) (hal : Moves.Aligned B)
    (hno : ∀ x k, k < n → B x k → ¬B (x ^^^ 2 ^ k) k) : B lo n := by
  classical
  have hmem : ∀ {x k}, B x k →
      (x, 2 ^ k) ∈ ({b | ∃ k, b.2 = 2 ^ k ∧ B b.1 k} : Set (Nat × Nat)) :=
    fun {x k} hx => ⟨k, rfl, hx⟩
  have hsome : ∃ k x, B x k := by
    have hin : lo ≤ lo ∧ lo < lo + 2 ^ n :=
      ⟨le_refl _, Nat.lt_add_of_pos_right (Nat.two_pow_pos n)⟩
    obtain ⟨b, ⟨k, _, hb⟩, _⟩ := (htiles.cover lo).mp hin
    exact ⟨k, b.1, hb⟩
  obtain ⟨x, hx⟩ := Nat.find_spec hsome
  have hmin : ∀ {y i}, B y i → Nat.find hsome ≤ i :=
    fun {y i} hy => Nat.find_min' hsome ⟨y, hy⟩
  generalize Nat.find hsome = k at hx hmin
  have hbounds := htiles.bounds (hmem hx)
  have hkn : k ≤ n := by
    have hle : 2 ^ k ≤ 2 ^ n := by dsimp only at hbounds; omega
    exact (Nat.pow_le_pow_iff_right (by omega)).mp hle
  rcases Nat.eq_or_lt_of_le hkn with rfl | hlt
  · obtain rfl : x = lo := by dsimp only at hbounds; omega
    exact hx
  exfalso
  have hpow : 2 ^ (k + 1) = 2 ^ k + 2 ^ k := by rw [Nat.pow_succ]; omega
  have hpos := Nat.two_pow_pos k
  -- `a` is the lower of the two, a multiple of the doubled length
  obtain ⟨a, hadvd, hxa, hba⟩ : ∃ a, 2 ^ (k + 1) ∣ a ∧ (x = a ∨ x = a + 2 ^ k) ∧
      ((x ^^^ 2 ^ k) = a ∨ (x ^^^ 2 ^ k) = a + 2 ^ k) := by
    rcases xor_two_pow_cases x k with ⟨hbit, hxor⟩ | ⟨hbit, hxor⟩
    · exact ⟨x, two_pow_succ_dvd (hal x k hx) hbit, .inl rfl, .inr hxor⟩
    · refine ⟨x ^^^ 2 ^ k, ?_, .inr hxor, .inl rfl⟩
      have hdvd : 2 ^ k ∣ x ^^^ 2 ^ k :=
        (Nat.dvd_add_left (Nat.dvd_refl _)).mp (hxor ▸ hal x k hx)
      refine two_pow_succ_dvd hdvd ?_
      simp [hbit]
  have hin : lo ≤ a ∧ a + 2 ^ (k + 1) ≤ lo + 2 ^ n := by
    have hgrid : 2 ^ (k + 1) ∣ 2 ^ n := Nat.pow_dvd_pow 2 hlt
    refine grid_subset hadvd (hgrid.trans hlo)
      (Nat.dvd_add (hgrid.trans hlo) hgrid) (y := x) (by omega) ?_
    dsimp only at hbounds
    omega
  obtain ⟨⟨c, len⟩, ⟨m, hlen, hc⟩, hcover⟩ :=
    (htiles.cover (x ^^^ 2 ^ k)).mp (by omega)
  dsimp only at hlen hc
  subst hlen
  rw [mem_span] at hcover
  dsimp only at hcover
  rcases Nat.eq_or_lt_of_le (hmin hc) with rfl | hkm
  · -- no smaller than the block itself: the buddy
    have hdvd : 2 ^ k ∣ x ^^^ 2 ^ k := by
      have hka : 2 ^ k ∣ a := (Nat.pow_dvd_pow 2 (Nat.le_succ k)).trans hadvd
      rcases hba with h' | h' <;> rw [h']
      · exact hka
      · exact Nat.dvd_add hka (Nat.dvd_refl _)
    have hback := grid_subset (hal c k hc) hdvd
      (Nat.dvd_add hdvd (Nat.dvd_refl (2 ^ k))) hcover ⟨le_refl _, by omega⟩
    obtain rfl : c = x ^^^ 2 ^ k := by omega
    exact hno x k hlt hx hc
  · -- larger: it reaches back over the block
    have hgrid : 2 ^ (k + 1) ∣ 2 ^ m := Nat.pow_dvd_pow 2 hkm
    have hcdvd : 2 ^ (k + 1) ∣ c := hgrid.trans (hal c m hc)
    have hover := grid_subset hadvd hcdvd (Nat.dvd_add hcdvd hgrid)
      (y := x ^^^ 2 ^ k) (by omega) hcover
    have hne : (x, 2 ^ k) ≠ (c, 2 ^ m) := by
      intro heq
      have := Nat.pow_right_injective (le_refl 2) (Prod.ext_iff.mp heq).2
      omega
    have hapart := htiles.apart (hmem hx) (hmem hc) hne
    dsimp only at hapart
    omega

end Toystar.Verified

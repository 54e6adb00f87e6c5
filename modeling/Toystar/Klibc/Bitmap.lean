import Mathlib.Data.Nat.Bitwise
import Mathlib.Order.Interval.Finset.Nat

/-!
# Bitmaps

`klibc/bitmap.hpp`: an array of bytes read as bits, the most significant bit of
each byte first.  Everything above uses only `isBitSet_setBit` and its
sibling, which say that a writer acts on one bit, and `allocate_cases`.
-/

namespace Toystar.Klibc

/-- The bytes behind a `uint8_t* bitmap`. -/
abbrev Bitmap := Nat → UInt8

namespace Bitmap

/-- `1 << (7 - bit%8)`, which fits a byte. -/
def mask (bit : Nat) : UInt8 := UInt8.ofNat (2 ^ (7 - bit % 8))

/-- `toys::set_bit`. -/
def setBit (bitmap : Bitmap) (bit : Nat) : Bitmap :=
  Function.update bitmap (bit / 8) (bitmap (bit / 8) ||| mask bit)

/-- `toys::clear_bit`. -/
def clearBit (bitmap : Bitmap) (bit : Nat) : Bitmap :=
  Function.update bitmap (bit / 8) (bitmap (bit / 8) &&& ~~~mask bit)

/-- `toys::is_bit_set`. -/
def isBitSet (bitmap : Bitmap) (bit : Nat) : Bool :=
  (bitmap (bit / 8) &&& mask bit) != 0

variable {bitmap : Bitmap} {b c : Nat}

theorem mask_toNat (b : Nat) : (mask b).toNat = 2 ^ (7 - b % 8) := by
  have hlt : 2 ^ (7 - b % 8) < 2 ^ 8 := Nat.pow_lt_pow_right (by omega) (by omega)
  rw [mask, UInt8.toNat_ofNat', Nat.mod_eq_of_lt hlt]

theorem isBitSet_eq_testBit :
    bitmap.isBitSet b = (bitmap (b / 8)).toNat.testBit (7 - b % 8) := by
  have hnat : (bitmap (b / 8) &&& mask b).toNat =
      ((bitmap (b / 8)).toNat.testBit (7 - b % 8)).toNat * 2 ^ (7 - b % 8) := by
    rw [UInt8.toNat_and, mask_toNat, Nat.and_two_pow]
  have hpos := Nat.two_pow_pos (7 - b % 8)
  unfold isBitSet
  cases htest : (bitmap (b / 8)).toNat.testBit (7 - b % 8) with
  | false =>
      rw [htest, Bool.toNat_false, Nat.zero_mul] at hnat
      rw [bne_eq_false_iff_eq]
      exact UInt8.toNat_inj.mp hnat
  | true =>
      rw [htest, Bool.toNat_true, Nat.one_mul] at hnat
      rw [bne_iff_ne]
      intro hzero
      rw [hzero] at hnat
      simp only [UInt8.toNat_zero] at hnat
      omega

/-- A byte write decides the bits of that byte. -/
theorem isBitSet_update {v : UInt8} :
    isBitSet (Function.update bitmap (b / 8) v) c =
      if c / 8 = b / 8 then v.toNat.testBit (7 - c % 8) else bitmap.isBitSet c := by
  rw [isBitSet_eq_testBit, isBitSet_eq_testBit]
  by_cases hbyte : c / 8 = b / 8
  · rw [hbyte, Function.update_self, if_pos rfl]
  · rw [Function.update_of_ne hbyte, if_neg hbyte]

theorem position_eq_iff (hbyte : c / 8 = b / 8) :
    7 - b % 8 = 7 - c % 8 ↔ c = b := by
  omega

@[simp] theorem isBitSet_setBit :
    (bitmap.setBit b).isBitSet c = (decide (c = b) || bitmap.isBitSet c) := by
  unfold setBit
  rw [isBitSet_update]
  split
  · rename_i hbyte
    rw [UInt8.toNat_or, mask_toNat, Nat.testBit_or, Nat.testBit_two_pow,
      isBitSet_eq_testBit, hbyte, Bool.or_comm]
    simp only [position_eq_iff hbyte]
  · rename_i hbyte
    have hne : c ≠ b := fun heq => hbyte (by rw [heq])
    simp [hne]

@[simp] theorem isBitSet_clearBit :
    (bitmap.clearBit b).isBitSet c = (!decide (c = b) && bitmap.isBitSet c) := by
  unfold clearBit
  rw [isBitSet_update]
  split
  · rename_i hbyte
    have hnot : (~~~mask b).toNat = 2 ^ 8 - (2 ^ (7 - b % 8) + 1) := by
      rw [UInt8.toNat_not, mask_toNat]
      show 2 ^ 8 - 1 - _ = _
      omega
    have hlt : 2 ^ (7 - b % 8) < 2 ^ 8 :=
      Nat.pow_lt_pow_right (by omega) (by omega)
    have hpos : 7 - c % 8 < 8 := by omega
    rw [UInt8.toNat_and, hnot, Nat.testBit_and,
      Nat.testBit_two_pow_sub_succ hlt, Nat.testBit_two_pow,
      isBitSet_eq_testBit, hbyte, Bool.and_comm]
    simp only [position_eq_iff hbyte, hpos, decide_true, Bool.true_and]
  · rename_i hbyte
    have hne : c ≠ b := fun heq => hbyte (by rw [heq])
    simp [hne]

/-! ## `toys::Bitmap::allocate` -/

/-- `sizeof(bitmap) * 8`: the bits of a pointer, not of the page it points to. -/
def capacity : Nat := 64

/-- The loop of `toys::Bitmap::allocate` from `i` on, with `n` rounds to go. -/
def allocateFrom (bitmap : Bitmap) : Nat → Nat → Option Nat × Bitmap
  | 0, _ => (none, bitmap)
  | n + 1, i =>
      if bitmap.isBitSet i then allocateFrom bitmap n (i + 1)
      else (some i, bitmap.setBit i)

/-- `toys::Bitmap::allocate`; `none` is `-1`. -/
def allocate (bitmap : Bitmap) : Option Nat × Bitmap :=
  allocateFrom bitmap capacity 0

theorem allocateFrom_cases (bitmap : Bitmap) (n i : Nat) :
    (∃ j, i ≤ j ∧ j < i + n ∧ bitmap.isBitSet j = false ∧
      (∀ k, i ≤ k → k < j → bitmap.isBitSet k = true) ∧
      allocateFrom bitmap n i = (some j, bitmap.setBit j)) ∨
    ((∀ k, i ≤ k → k < i + n → bitmap.isBitSet k = true) ∧
      allocateFrom bitmap n i = (none, bitmap)) := by
  induction n generalizing i with
  | zero => exact .inr ⟨fun k hk hk' => by omega, rfl⟩
  | succ n ih =>
      rw [allocateFrom]
      by_cases hset : bitmap.isBitSet i = true
      · rw [if_pos hset]
        have hbelow : ∀ {k j}, (∀ k, i + 1 ≤ k → k < j → bitmap.isBitSet k = true) →
            i ≤ k → k < j → bitmap.isBitSet k = true := by
          intro k j hall hk hkj
          rcases Nat.eq_or_lt_of_le hk with rfl | hlt
          · exact hset
          · exact hall k hlt hkj
        rcases ih (i + 1) with ⟨j, hj, hj', hfree, hall, hret⟩ | ⟨hall, hret⟩
        · exact .inl ⟨j, by omega, by omega, hfree, fun k => hbelow hall, hret⟩
        · refine .inr ⟨fun k hk hk' => hbelow hall hk (by omega), hret⟩
      · rw [if_neg hset]
        rw [Bool.not_eq_true] at hset
        exact .inl ⟨i, le_refl i, by omega, hset, fun k hk hk' => by omega, rfl⟩

/-- `allocate` takes the lowest clear bit among the first 64, or finds none. -/
theorem allocate_cases (bitmap : Bitmap) :
    (∃ j < capacity, bitmap.isBitSet j = false ∧
      (∀ k < j, bitmap.isBitSet k = true) ∧
      bitmap.allocate = (some j, bitmap.setBit j)) ∨
    ((∀ k < capacity, bitmap.isBitSet k = true) ∧
      bitmap.allocate = (none, bitmap)) := by
  rcases allocateFrom_cases bitmap capacity 0 with
    ⟨j, _, hj, hfree, hall, hret⟩ | ⟨hall, hret⟩
  · exact .inl ⟨j, by omega, hfree, fun k => hall k (Nat.zero_le k), hret⟩
  · exact .inr ⟨fun k hk => hall k (Nat.zero_le k) (by omega), hret⟩

/-- The bitmap stays as it is when no bit is found. -/
theorem allocate_same_iff {bitmap : Bitmap} :
    bitmap.allocate.2 = bitmap ↔ bitmap.allocate.1 = none := by
  rcases allocate_cases bitmap with ⟨j, _, hclear, _, hret⟩ | ⟨_, hret⟩
  · rw [hret]
    simp only [reduceCtorEq, iff_false]
    intro hsame
    have hset : (bitmap.setBit j).isBitSet j = true := by
      rw [isBitSet_setBit, decide_eq_true rfl, Bool.true_or]
    rw [hsame, hclear] at hset
    cases hset
  · rw [hret]
    exact iff_of_true rfl rfl

end Bitmap

end Toystar.Klibc

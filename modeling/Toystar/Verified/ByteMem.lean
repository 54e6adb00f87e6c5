import Mathlib.Data.Nat.Count
import Mathlib.Order.Interval.Finset.Nat
import Mathlib.Tactic.IntervalCases

/-!
# Byte-addressed memory with little-endian words

Memory is a function from addresses to bytes.  `read64` and `write64` are the
eight-byte little-endian accesses of a 64-bit machine; they meet in two facts,
`read64_write64_self` and `read64_write64_of_apart`, and every frame argument
over memory goes through `read64_congr`.
-/

namespace Toystar.Verified

/-- Memory contents, one byte per address. -/
abbrev ByteMem := Nat → UInt8

namespace ByteMem

/-- The 64-bit little-endian word at `a`. -/
def read64 (m : ByteMem) (a : Nat) : Nat :=
  (m a).toNat + (m (a + 1)).toNat * 2 ^ 8 + (m (a + 2)).toNat * 2 ^ 16
    + (m (a + 3)).toNat * 2 ^ 24 + (m (a + 4)).toNat * 2 ^ 32
    + (m (a + 5)).toNat * 2 ^ 40 + (m (a + 6)).toNat * 2 ^ 48
    + (m (a + 7)).toNat * 2 ^ 56

/-- Store the low 64 bits of `v` at `a`. -/
def write64 (m : ByteMem) (a v : Nat) : ByteMem := fun x =>
  if a ≤ x ∧ x < a + 8 then UInt8.ofNat (v / 2 ^ (8 * (x - a))) else m x

/-- Store one byte. -/
def write8 (m : ByteMem) (a : Nat) (v : UInt8) : ByteMem :=
  Function.update m a v

theorem read64_lt (m : ByteMem) (a : Nat) : m.read64 a < 2 ^ 64 := by
  have h := fun i => (m (a + i)).toNat_lt
  have h0 := (m a).toNat_lt
  have h1 := h 1; have h2 := h 2; have h3 := h 3; have h4 := h 4
  have h5 := h 5; have h6 := h 6; have h7 := h 7
  unfold read64
  omega

/-- A word only depends on its eight bytes. -/
theorem read64_congr {m m' : ByteMem} {a : Nat}
    (h : ∀ x, a ≤ x → x < a + 8 → m' x = m x) : m'.read64 a = m.read64 a := by
  unfold read64
  rw [h a (by omega) (by omega), h (a + 1) (by omega) (by omega),
    h (a + 2) (by omega) (by omega), h (a + 3) (by omega) (by omega),
    h (a + 4) (by omega) (by omega), h (a + 5) (by omega) (by omega),
    h (a + 6) (by omega) (by omega), h (a + 7) (by omega) (by omega)]

/-- Outside the written word nothing changes. -/
theorem write64_of_not_mem (m : ByteMem) {a v x : Nat}
    (h : x < a ∨ a + 8 ≤ x) : m.write64 a v x = m x := by
  unfold write64
  rw [if_neg (by omega)]

private theorem write64_byte (m : ByteMem) (a v i : Nat) (hi : i < 8) :
    (m.write64 a v (a + i)).toNat = v / 2 ^ (8 * i) % 2 ^ 8 := by
  unfold write64
  rw [if_pos (by omega), Nat.add_sub_cancel_left, UInt8.toNat_ofNat']

/-- A stored word reads back as its low 64 bits. -/
theorem read64_write64_self (m : ByteMem) (a v : Nat) :
    (m.write64 a v).read64 a = v % 2 ^ 64 := by
  have h0 := write64_byte m a v 0 (by omega)
  rw [Nat.add_zero] at h0
  unfold read64
  rw [h0, write64_byte m a v 1 (by omega), write64_byte m a v 2 (by omega),
    write64_byte m a v 3 (by omega), write64_byte m a v 4 (by omega),
    write64_byte m a v 5 (by omega), write64_byte m a v 6 (by omega),
    write64_byte m a v 7 (by omega)]
  omega

/-- The bytes of a word. -/
theorem ofNat_read64_div (m : ByteMem) (a i : Nat) (hi : i < 8) :
    UInt8.ofNat (m.read64 a / 2 ^ (8 * i)) = m (a + i) := by
  have h := fun j => (m (a + j)).toNat_lt
  have h0 := (m a).toNat_lt
  have h1 := h 1; have h2 := h 2; have h3 := h 3; have h4 := h 4
  have h5 := h 5; have h6 := h 6; have h7 := h 7
  apply UInt8.toNat_inj.mp
  rw [UInt8.toNat_ofNat']
  unfold read64
  cases Nat.eq_zero_or_pos i with
  | inl hzero =>
      subst hzero
      have hm : m (a + 0) = m a := rfl
      rw [hm]
      omega
  | inr hpos => interval_cases i <;> omega

/-- Copying a word copies its bytes. -/
theorem write64_read64 (m : ByteMem) (a b x : Nat) :
    m.write64 a (m.read64 b) x =
      if a ≤ x ∧ x < a + 8 then m (b + (x - a)) else m x := by
  unfold write64
  by_cases hx : a ≤ x ∧ x < a + 8
  · rw [if_pos hx, if_pos hx, ofNat_read64_div m b _ (by omega)]
  · rw [if_neg hx, if_neg hx]

/-- Words that do not overlap are independent. -/
theorem read64_write64_of_apart (m : ByteMem) {a b v : Nat}
    (h : a + 8 ≤ b ∨ b + 8 ≤ a) : (m.write64 a v).read64 b = m.read64 b :=
  read64_congr fun x _ _ => write64_of_not_mem m (by omega)

end ByteMem

end Toystar.Verified

import Toystar.Verified.ByteMem

/-!
# `klibc/memory.cpp`

`memset` and `memcpy` on a byte memory.  `memset` stores one value over a
range; `memcpy` copies upwards one byte at a time, which is a copy of the old
contents only when the ranges do not overlap.
-/

namespace Toystar.Klibc

open Toystar.Verified

/-- `memset(ptr, value, bytes)`. -/
def memset (m : ByteMem) (ptr : Nat) (value : UInt8) (bytes : Nat) : ByteMem :=
  fun x => if ptr ≤ x ∧ x < ptr + bytes then value else m x

/-- `memcpy(dest, src, bytes)`. -/
def memcpy (m : ByteMem) (dest src : Nat) : Nat → ByteMem
  | 0 => m
  | bytes + 1 =>
      let m := memcpy m dest src bytes
      m.write8 (dest + bytes) (m (src + bytes))

variable {m : ByteMem} {ptr dest src bytes x : Nat} {value : UInt8}

theorem memset_of_mem (hlo : ptr ≤ x) (hhi : x < ptr + bytes) :
    memset m ptr value bytes x = value := if_pos ⟨hlo, hhi⟩

theorem memset_of_not_mem (hx : x < ptr ∨ ptr + bytes ≤ x) :
    memset m ptr value bytes x = m x := if_neg (by omega)

/-- `memcpy` between ranges that do not overlap. -/
theorem memcpy_apply (hdis : dest + bytes ≤ src ∨ src + bytes ≤ dest) :
    memcpy m dest src bytes x =
      if dest ≤ x ∧ x < dest + bytes then m (src + (x - dest)) else m x := by
  induction bytes generalizing x with
  | zero => rw [memcpy, if_neg (by omega)]
  | succ bytes ih =>
      have hsrc : memcpy m dest src bytes (src + bytes) = m (src + bytes) := by
        rw [ih (by omega), if_neg (by omega)]
      simp only [memcpy, ByteMem.write8, hsrc]
      by_cases hx : x = dest + bytes
      · subst hx
        rw [Function.update_self, if_pos (by omega), Nat.add_sub_cancel_left]
      · rw [Function.update_of_ne hx, ih (by omega)]
        by_cases hin : dest ≤ x ∧ x < dest + bytes
        · rw [if_pos hin, if_pos (by omega)]
        · rw [if_neg hin, if_neg (by omega)]

end Toystar.Klibc

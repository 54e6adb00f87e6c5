import Toystar.Verified.ByteMem

/-!
# Little-endian numbers of any width

`BytesAt m a bs` says that the bytes from `a` on are `bs`.  A number laid out in `n` bytes
with `leBytes` reads back with `readLE` (`readLE_of_bytesAt`), and both split where the
number is cut into a low and a high part.
-/

namespace Toystar.Verified

/-- The `n` low bytes of a number, the lowest first. -/
def leBytes : Nat → Nat → List UInt8
  | 0, _ => []
  | n + 1, v => UInt8.ofNat v :: leBytes n (v / 256)

theorem length_leBytes (n v : Nat) : (leBytes n v).length = n := by
  induction n generalizing v with
  | zero => rfl
  | succ n ih => rw [leBytes, List.length_cons, ih]

theorem leBytes_add (n k v : Nat) :
    leBytes (n + k) v = leBytes n v ++ leBytes k (v / 256 ^ n) := by
  induction n generalizing v with
  | zero => rw [Nat.zero_add, Nat.pow_zero, Nat.div_one, leBytes, List.nil_append]
  | succ n ih =>
      rw [Nat.add_right_comm, leBytes, leBytes, ih, Nat.div_div_eq_div_mul, Nat.pow_succ',
        List.cons_append]

namespace ByteMem

/-- The bytes from `a` on are `bs`. -/
def BytesAt (m : ByteMem) : Nat → List UInt8 → Prop
  | _, [] => True
  | a, b :: bs => m a = b ∧ BytesAt m (a + 1) bs

instance decidableBytesAt : (m : ByteMem) → (a : Nat) → (bs : List UInt8) →
    Decidable (m.BytesAt a bs)
  | _, _, [] => isTrue trivial
  | m, a, _ :: bs => @instDecidableAnd _ _ _ (decidableBytesAt m (a + 1) bs)

/-- The number in the `n` bytes from `a` on. -/
def readLE (m : ByteMem) (a : Nat) : Nat → Nat
  | 0 => 0
  | n + 1 => (m a).toNat + 256 * readLE m (a + 1) n

variable {m : ByteMem} {a n v : Nat} {xs ys : List UInt8}

theorem bytesAt_append :
    m.BytesAt a (xs ++ ys) ↔ m.BytesAt a xs ∧ m.BytesAt (a + xs.length) ys := by
  induction xs generalizing a with
  | nil => simp [BytesAt]
  | cons x xs ih =>
      rw [List.cons_append, BytesAt, BytesAt, ih, List.length_cons, and_assoc]
      have hend : a + 1 + xs.length = a + (xs.length + 1) := by omega
      rw [hend]

theorem readLE_add (m : ByteMem) (a n k : Nat) :
    m.readLE a (n + k) = m.readLE a n + 256 ^ n * m.readLE (a + n) k := by
  induction n generalizing a with
  | zero => rw [Nat.zero_add, readLE, Nat.pow_zero, Nat.one_mul, Nat.zero_add, Nat.add_zero]
  | succ n ih =>
      have hend : a + 1 + n = a + (n + 1) := by omega
      rw [Nat.add_right_comm, readLE, readLE, ih, hend, Nat.pow_succ', Nat.mul_add,
        Nat.mul_assoc, Nat.add_assoc]

theorem readLE_lt (m : ByteMem) (a n : Nat) : m.readLE a n < 256 ^ n := by
  induction n generalizing a with
  | zero => exact Nat.one_pos
  | succ n ih =>
      have hlow := (m a).toNat_lt
      have hhigh := ih (a + 1)
      rw [readLE, Nat.pow_succ']
      omega

/-- A number reads back. -/
theorem readLE_of_bytesAt (h : m.BytesAt a (leBytes n v)) : m.readLE a n = v % 256 ^ n := by
  induction n generalizing a v with
  | zero => rw [readLE, Nat.pow_zero, Nat.mod_one]
  | succ n ih =>
      obtain ⟨hlow, hhigh⟩ := h
      rw [readLE, hlow, ih hhigh, Nat.pow_succ', Nat.mod_mul, UInt8.toNat_ofNat']

end ByteMem

end Toystar.Verified

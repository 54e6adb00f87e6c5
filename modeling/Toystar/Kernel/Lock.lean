import Mathlib.Data.Nat.Count
import Mathlib.Order.Interval.Finset.Nat

/-!
# Faults and spin locks

Kernel functions are modelled as `Except Fault`: a value is a return, an error
says why the function never returns normally.

`Lock::acquire` (`kernel/lock.hpp`) spins on an atomic test-and-set.  In a
sequential run nobody else can clear the byte, so acquiring a held lock is the
fault `spin`; the interleaved models of the scheduler let other cores move
instead.
-/

namespace Toystar.Kernel

/-- Why a kernel function does not return. -/
inductive Fault
  /-- a member of a null pointer is accessed -/
  | nullDeref
  /-- an array is indexed outside its allocation -/
  | outOfBounds
  /-- an object is accessed after `delete` -/
  | useAfterFree
  /-- a member that was never assigned is read -/
  | uninitialised
  /-- a shift by the width of `int` or more -/
  | undefinedShift
  /-- `Lock::acquire` on a lock that nobody will release -/
  | spin
  /-- `panic`, which halts the core -/
  | panic
  /-- a loop of the model ran out of its iteration bound -/
  | fuel
deriving DecidableEq, Repr

@[simp] theorem ok_bind {α β : Type} (a : α) (f : α → Except Fault β) :
    (Except.ok a >>= f) = f a := rfl

@[simp] theorem error_bind {α β : Type} (e : Fault) (f : α → Except Fault β) :
    ((Except.error e : Except Fault α) >>= f) = Except.error e := rfl

/-- A computation that returns has returned at each step. -/
theorem bind_eq_ok {α β : Type} {x : Except Fault α} {f : α → Except Fault β} {b : β} :
    (x >>= f) = .ok b ↔ ∃ a, x = .ok a ∧ f a = .ok b := by
  cases x with
  | error e => simp
  | ok a => simp

/-- A computation that fails has failed at one of its steps. -/
theorem bind_eq_error {α β : Type} {x : Except Fault α} {f : α → Except Fault β}
    {e : Fault} : (x >>= f) = .error e ↔
      x = .error e ∨ ∃ a, x = .ok a ∧ f a = .error e := by
  cases x with
  | error e' => simp
  | ok a => simp

/-- A guarded call as a partial function. -/
theorem guard_toOption {α : Type} {P : Prop} [Decidable P] {x : Except Fault α} {a : α} :
    (if P then x.toOption else none) = some a ↔ P ∧ x = .ok a := by
  by_cases hP : P
  · cases x with
    | error e => simp [hP, Except.toOption]
    | ok b => simp [hP, Except.toOption]
  · simp [hP]

namespace Lock

/-- `while (__atomic_test_and_set(lock))`: sets the byte, or spins. -/
def acquire : Bool → Except Fault Bool
  | false => .ok true
  | true => .error .spin

/-- `__atomic_clear(lock)`. -/
def release (_ : Bool) : Bool := false

end Lock

/-- `1 << order` on a 32-bit `int`, converted to `size_t` where the source
compares it with one.  At `order = 31` the shift gives the negative `int`
`-2 ^ 31`; from 32 on it is undefined. -/
def shiftOne (order : Nat) : Except Fault Nat :=
  if order < 31 then .ok (2 ^ order)
  else if order = 31 then .ok (2 ^ 64 - 2 ^ 31)
  else .error .undefinedShift

theorem shiftOne_of_lt {order : Nat} (h : order < 31) :
    shiftOne order = .ok (2 ^ order) := by
  simp [shiftOne, h]

theorem shiftOne_eq_error {order : Nat} {e : Fault} (herr : shiftOne order = .error e) :
    e = .undefinedShift := by
  unfold shiftOne at herr
  split at herr
  · cases herr
  · split at herr
    · cases herr
    · exact (Except.error.inj herr).symm

end Toystar.Kernel

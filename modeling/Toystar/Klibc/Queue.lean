import Toystar.Klibc.Vector

/-!
# `toys::queue`

`klibc/queue.hpp`: a queue is a vector that grows at the end and is popped at the front,
where `erase` moves every element that is left.  `optional` is the value or nothing.
-/

namespace Toystar.Klibc

open Toystar.Kernel

namespace Queue

variable {α : Type}

/-- `push`. -/
def push (q : ToysVector) (h : Arrays α) (value : α) :
    Except Fault (ToysVector × Arrays α) := q.pushBack h value

/-- `pop`; `beyond` lies behind the array when the front is erased. -/
def pop (q : ToysVector) (h : Arrays α) (beyond : Option α) :
    Except Fault (Option α × ToysVector × Arrays α) := do
  if q.size = 0 then return (none, q, h)
  let value ← q.get h 0
  let (q, h) ← ToysVector.erase q h beyond 0
  return (some value, q, h)

/-- `erase`. -/
def erase (q : ToysVector) (h : Arrays α) (beyond : Option α) (index : Nat) :
    Except Fault (ToysVector × Arrays α) := ToysVector.erase q h beyond index

/-- `push` of each value of a list. -/
def pushAll (q : ToysVector) (h : Arrays α) : List α → Except Fault (ToysVector × Arrays α)
  | [] => .ok (q, h)
  | value :: values => do
      let (q, h) ← push q h value
      pushAll q h values

variable {q : ToysVector} {h : Arrays α} {xs : List α}

/-- `pop` takes the first element, whatever lies behind the array. -/
theorem pop_of_holds (hq : q.Holds h xs) (beyond : Option α) :
    ∃ q' h', pop q h beyond = .ok (xs.head?, q', h') ∧ q'.Holds h' xs.tail := by
  cases xs with
  | nil =>
      have hsize : q.size = 0 := hq.size_eq
      refine ⟨q, h, ?_, hq⟩
      rw [pop, if_pos hsize]
      rfl
  | cons x xs =>
      have hpos : 0 < (x :: xs).length := Nat.zero_lt_succ _
      have hget : q.get h 0 = .ok x := hq.get hpos
      obtain ⟨q', h', herase, hholds⟩ := hq.erase beyond hpos
      refine ⟨q', h', ?_, hholds⟩
      have hsize : q.size ≠ 0 := by
        rw [hq.size_eq]
        exact hpos.ne'
      rw [pop, if_neg hsize]
      show (do
        let value ← q.get h 0
        let (q, h) ← ToysVector.erase q h beyond 0
        return (some value, q, h) : Except Fault (Option α × ToysVector × Arrays α)) = _
      rw [hget, ok_bind, herase, ok_bind]
      rfl

theorem pushAll_of_holds (hq : q.Holds h xs) (values : List α) :
    ∃ q' h', pushAll q h values = .ok (q', h') ∧ q'.Holds h' (xs ++ values) := by
  induction values generalizing q h xs with
  | nil =>
      refine ⟨q, h, rfl, ?_⟩
      rw [List.append_nil]
      exact hq
  | cons value values ih =>
      obtain ⟨q₁, h₁, hpush, hholds⟩ := hq.pushBack value
      obtain ⟨q', h', hall, hholds'⟩ := ih hholds
      refine ⟨q', h', ?_, ?_⟩
      · rw [pushAll, push, hpush, ok_bind]
        exact hall
      · rw [List.append_assoc, List.singleton_append] at hholds'
        exact hholds'

end Queue

end Toystar.Klibc

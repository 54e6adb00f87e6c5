import Mathlib.Data.List.Perm.Basic
import Mathlib.Data.List.ReduceOption
import Toystar.Klibc.Queue

/-!
# Runs of vectors and queues

Any sequence of operations on a new vector does to its elements what the operations of lists
do, and a queue hands them out in the order they came in (`vector_queue_refine`).  That is
so although `erase` reads one element behind the array: it goes to the last place, which
the `resize` behind the loop gives up.  So a run stays inside its arrays exactly when it
erases nothing (`in_bounds_iff`).
-/

namespace Toystar.Klibc

open Toystar.Kernel

/-! ## Vectors -/

/-- The operations that change a vector; `beyond` is what `erase` finds behind the array. -/
inductive VectorOp (α : Type)
  | pushBack (value : α)
  | popBack
  | erase (beyond : Option α) (index : Nat)
  | resize (elementAmount : Nat)

namespace VectorOp

variable {α : Type} {v : ToysVector} {h : Arrays α} {xs : List α}

def exec (v : ToysVector) (h : Arrays α) : VectorOp α → Except Fault (ToysVector × Arrays α)
  | .pushBack value => v.pushBack h value
  | .popBack => v.popBack h
  | .erase beyond index => v.erase h beyond index
  | .resize elementAmount => v.resize h elementAmount

/-- One operation after the other. -/
def execAll (v : ToysVector) (h : Arrays α) :
    List (VectorOp α) → Except Fault (ToysVector × Arrays α)
  | [] => .ok (v, h)
  | op :: ops => do
      let (v, h) ← op.exec v h
      execAll v h ops

/-- The operation on lists. -/
def onList (xs : List α) : VectorOp α → List α
  | .pushBack value => xs ++ [value]
  | .popBack => xs.dropLast
  | .erase _ index => xs.eraseIdx index
  | .resize elementAmount => xs.take elementAmount

/-- `resize` is to no more elements than there are. -/
def Shrinks (xs : List α) : VectorOp α → Prop
  | .resize elementAmount => elementAmount ≤ xs.length
  | _ => True

/-- It is so each time. -/
def AllShrink (xs : List α) : List (VectorOp α) → Prop
  | [] => True
  | op :: ops => op.Shrinks xs ∧ AllShrink (op.onList xs) ops

theorem exec_refines (hv : v.Holds h xs) (op : VectorOp α) (hop : op.Shrinks xs) :
    ∃ v' h', op.exec v h = .ok (v', h') ∧ v'.Holds h' (op.onList xs) := by
  cases op with
  | pushBack value => exact hv.pushBack value
  | popBack => exact hv.popBack
  | erase beyond index =>
      rcases Nat.lt_or_ge index xs.length with hlt | hge
      · exact hv.erase beyond hlt
      · refine ⟨v, h, hv.erase_of_le beyond hge, ?_⟩
        rw [onList, List.eraseIdx_of_length_le hge]
        exact hv
  | resize elementAmount => exact hv.shrink hop

theorem execAll_refines (hv : v.Holds h xs) (ops : List (VectorOp α))
    (hops : AllShrink xs ops) :
    ∃ v' h', execAll v h ops = .ok (v', h') ∧ v'.Holds h' (ops.foldl onList xs) := by
  induction ops generalizing v h xs with
  | nil => exact ⟨v, h, rfl, hv⟩
  | cons op ops ih =>
      obtain ⟨hop, hops⟩ := hops
      obtain ⟨v₁, h₁, hret, hv₁⟩ := exec_refines hv op hop
      obtain ⟨v', h', hall, hv'⟩ := ih hv₁ hops
      refine ⟨v', h', ?_, hv'⟩
      rw [execAll, hret, ok_bind]
      exact hall

end VectorOp

/-! ## Queues -/

/-- The operations of `toys::queue`. -/
inductive QueueOp (α : Type)
  | push (value : α)
  | pop (beyond : Option α)
  | erase (beyond : Option α) (index : Nat)

namespace QueueOp

variable {α : Type} {q : ToysVector} {h : Arrays α} {xs : List α}

/-- The results of `pop`, none for the others, and the queue. -/
def exec (q : ToysVector) (h : Arrays α) :
    QueueOp α → Except Fault (List (Option α) × ToysVector × Arrays α)
  | .push value => do
      let (q, h) ← Queue.push q h value
      return ([], q, h)
  | .pop beyond => do
      let (value, q, h) ← Queue.pop q h beyond
      return ([value], q, h)
  | .erase beyond index => do
      let (q, h) ← Queue.erase q h beyond index
      return ([], q, h)

/-- One operation after the other. -/
def execAll (q : ToysVector) (h : Arrays α) :
    List (QueueOp α) → Except Fault (List (Option α) × ToysVector × Arrays α)
  | [] => .ok ([], q, h)
  | op :: ops => do
      let (popped, q, h) ← op.exec q h
      let (more, q, h) ← execAll q h ops
      return (popped ++ more, q, h)

/-- The operation on lists. -/
def onList (xs : List α) : QueueOp α → List α
  | .push value => xs ++ [value]
  | .pop _ => xs.tail
  | .erase _ index => xs.eraseIdx index

/-- `pop` takes the front of the list, and nothing exactly when there is none. -/
def popped (xs : List α) : List (QueueOp α) → List (Option α)
  | [] => []
  | .pop beyond :: ops => xs.head? :: popped ((pop beyond).onList xs) ops
  | op :: ops => popped (op.onList xs) ops

/-- What `erase` takes out. -/
def erased (xs : List α) : List (QueueOp α) → List α
  | [] => []
  | .erase beyond index :: ops =>
      xs[index]?.toList ++ erased ((erase beyond index).onList xs) ops
  | op :: ops => erased (op.onList xs) ops

/-- What `push` brings in. -/
def pushed : List (QueueOp α) → List α
  | [] => []
  | .push value :: ops => value :: pushed ops
  | _ :: ops => pushed ops

theorem execAll_refines (hq : q.Holds h xs) (ops : List (QueueOp α)) :
    ∃ q' h', execAll q h ops = .ok (popped xs ops, q', h') ∧
      q'.Holds h' (ops.foldl onList xs) := by
  induction ops generalizing q h xs with
  | nil => exact ⟨q, h, rfl, hq⟩
  | cons op ops ih =>
      cases op with
      | push value =>
          obtain ⟨q₁, h₁, hpush, hq₁⟩ := hq.pushBack value
          obtain ⟨q', h', hall, hq'⟩ := ih hq₁
          refine ⟨q', h', ?_, hq'⟩
          rw [execAll, exec, Queue.push, hpush, ok_bind]
          show (do
            let (more, q, h) ← execAll q₁ h₁ ops
            return ([] ++ more, q, h)) = _
          rw [hall]
          rfl
      | pop beyond =>
          obtain ⟨q₁, h₁, hpop, hq₁⟩ := Queue.pop_of_holds hq beyond
          obtain ⟨q', h', hall, hq'⟩ := ih hq₁
          refine ⟨q', h', ?_, hq'⟩
          rw [execAll, exec, hpop, ok_bind]
          show (do
            let (more, q, h) ← execAll q₁ h₁ ops
            return ([xs.head?] ++ more, q, h)) = _
          rw [hall]
          rfl
      | erase beyond index =>
          obtain ⟨q₁, h₁, herase, hq₁⟩ :=
            VectorOp.exec_refines hq (.erase beyond index) trivial
          obtain ⟨q', h', hall, hq'⟩ := ih hq₁
          refine ⟨q', h', ?_, hq'⟩
          rw [execAll, exec, Queue.erase]
          rw [VectorOp.exec] at herase
          rw [herase, ok_bind]
          show (do
            let (more, q, h) ← execAll q₁ h₁ ops
            return ([] ++ more, q, h)) = _
          rw [hall]
          rfl

/-- What is popped, and then what is left, is in the order of the pushes. -/
theorem popped_sublist (xs : List α) (ops : List (QueueOp α)) :
    List.Sublist ((popped xs ops).reduceOption ++ ops.foldl onList xs) (xs ++ pushed ops) := by
  induction ops generalizing xs with
  | nil => simp [popped, pushed, List.reduceOption_nil]
  | cons op ops ih =>
      cases op with
      | push value =>
          have hrest := ih (xs ++ [value])
          rw [List.append_assoc, List.singleton_append] at hrest
          exact hrest
      | pop beyond =>
          have hrest := ih xs.tail
          cases xs with
          | nil =>
              rw [popped, List.head?_nil, List.reduceOption_cons_of_none]
              exact hrest
          | cons x xs =>
              rw [popped, List.head?_cons, List.reduceOption_cons_of_some, List.cons_append,
                List.cons_append]
              exact hrest.cons_cons x
      | erase beyond index =>
          exact (ih (xs.eraseIdx index)).trans
            ((List.eraseIdx_sublist xs index).append (List.Sublist.refl _))

/-- `erase` takes out one element, or none. -/
theorem perm_eraseIdx (xs : List α) (index : Nat) :
    List.Perm xs (xs[index]?.toList ++ xs.eraseIdx index) := by
  rcases Nat.lt_or_ge index xs.length with hlt | hge
  · rw [List.getElem?_eq_getElem hlt]
    exact (List.getElem_cons_eraseIdx_perm hlt).symm
  · rw [List.getElem?_eq_none hge, List.eraseIdx_of_length_le hge]
    exact List.Perm.refl _

/-- Every push is popped, erased or left, once. -/
theorem pushed_perm (xs : List α) (ops : List (QueueOp α)) :
    List.Perm (xs ++ pushed ops)
      ((popped xs ops).reduceOption ++ erased xs ops ++ ops.foldl onList xs) := by
  induction ops generalizing xs with
  | nil => simp [popped, pushed, erased, List.reduceOption_nil]
  | cons op ops ih =>
      cases op with
      | push value =>
          have hrest := ih (xs ++ [value])
          rw [List.append_assoc, List.singleton_append] at hrest
          exact hrest
      | pop beyond =>
          have hrest := ih xs.tail
          cases xs with
          | nil =>
              rw [popped, List.head?_nil, List.reduceOption_cons_of_none]
              exact hrest
          | cons x xs =>
              rw [popped, List.head?_cons, List.reduceOption_cons_of_some, List.cons_append,
                List.cons_append, List.cons_append]
              exact hrest.cons x
      | erase beyond index =>
          have hrest := ih (xs.eraseIdx index)
          have hfirst := ((perm_eraseIdx xs index).append_right (pushed ops)).trans
            (List.Perm.of_eq (List.append_assoc _ _ _))
          -- the erased element goes behind the popped ones
          have hmove := List.perm_append_comm_assoc xs[index]?.toList
            (popped (xs.eraseIdx index) ops).reduceOption
            (erased (xs.eraseIdx index) ops ++ ops.foldl onList (xs.eraseIdx index))
          rw [List.append_assoc] at hrest
          have hall := (hfirst.trans (hrest.append_left _)).trans hmove
          rw [← List.append_assoc xs[index]?.toList, ← List.append_assoc (popped _ _).reduceOption]
            at hall
          exact hall

end QueueOp

/-- From a new vector any sequence of operations returns, and size and elements are those
of the list; from a new queue too, and `pop` hands out in the order of the pushes what is
not erased, nothing lost and nothing twice, and nothing exactly when the list is empty. -/
theorem vector_queue_refine {α : Type} (h : Arrays α) :
    (∀ ops : List (VectorOp α), VectorOp.AllShrink [] ops →
      ∃ v h' xs, xs = ops.foldl VectorOp.onList [] ∧
        VectorOp.execAll .new h ops = .ok (v, h') ∧ v.size = xs.length ∧
        ∀ i (hi : i < xs.length), v.get h' i = .ok xs[i]) ∧
    ∀ ops : List (QueueOp α), ∃ q h' xs, xs = ops.foldl QueueOp.onList [] ∧
      QueueOp.execAll .new h ops = .ok (QueueOp.popped [] ops, q, h') ∧
      q.size = xs.length ∧ (∀ i (hi : i < xs.length), q.get h' i = .ok xs[i]) ∧
      List.Sublist ((QueueOp.popped [] ops).reduceOption ++ xs) (QueueOp.pushed ops) ∧
      List.Perm (QueueOp.pushed ops)
        ((QueueOp.popped [] ops).reduceOption ++ QueueOp.erased [] ops ++ xs) := by
  constructor
  · intro ops hops
    obtain ⟨v, h', hret, hv⟩ := VectorOp.execAll_refines (ToysVector.holds_new h) ops hops
    exact ⟨v, h', _, rfl, hret, hv.size_eq, fun i hi => hv.get hi⟩
  · intro ops
    obtain ⟨q, h', hret, hq⟩ := QueueOp.execAll_refines (ToysVector.holds_new h) ops
    exact ⟨q, h', _, rfl, hret, hq.size_eq, fun i hi => hq.get hi,
      QueueOp.popped_sublist [] ops, QueueOp.pushed_perm [] ops⟩

/-- Two of three elements are left, and the queue pops the first one. -/
theorem vector_queue_refine_three :
    (∃ v h', VectorOp.execAll .new [] [.pushBack 1, .pushBack 2, .pushBack 3,
        .erase none 1, .resize 2] = .ok (v, h') ∧ v.size = 2 ∧ v.get h' 1 = .ok 3) ∧
    ∃ q h', QueueOp.execAll .new [] [.pop none, .push 1, .push 2, .pop (some 9)] =
        .ok ([none, some 1], q, h') ∧ q.size = 1 := by
  obtain ⟨hvector, hqueue⟩ := @vector_queue_refine Nat []
  obtain ⟨v, h', xs, hxs, hret, hsize, hget⟩ := hvector
    [.pushBack 1, .pushBack 2, .pushBack 3, .erase none 1, .resize 2]
    (by simp [VectorOp.AllShrink, VectorOp.Shrinks, VectorOp.onList])
  obtain ⟨q, h'', ys, hys, hret', hsize', _⟩ := hqueue
    [.pop none, .push 1, .push 2, .pop (some 9)]
  have hthree : xs = [1, 3] := hxs
  have htwo : ys = [2] := hys
  subst hthree htwo
  exact ⟨⟨v, h', hret, hsize, hget 1 (by decide)⟩, q, h'', hret', hsize'⟩

/-! ## Indices -/

namespace ToysVector

variable {α : Type} {v : ToysVector} {h : Arrays α} {i n q : Nat} {ys : List (Option α)}

/-- The loop of `erase` for `n` rounds from `i` on, with a check of every index. -/
def shiftDownChecked (h : Arrays α) (data : Option Nat) :
    Nat → Nat → Except Fault (Arrays α)
  | 0, _ => .ok h
  | n + 1, i => do
      let next ← h.get data (i + 1)
      shiftDownChecked (← h.set data i next) data n (i + 1)

/-- `erase` with a check of every index. -/
def eraseChecked (v : ToysVector) (h : Arrays α) (index : Nat) :
    Except Fault (ToysVector × Arrays α) := do
  if index ≥ v.capacity then return (v, h)
  let h ← shiftDownChecked h v.data (v.capacity - index) index
  v.resize h (v.capacity - 1)

/-- `v[i]`, whatever is in there. -/
def read (v : ToysVector) (h : Arrays α) (i : Nat) : Except Fault (Option α) := do
  if i ≥ v.capacity then .error .panic
  h.get v.data i

/-- The vector has an array of `n` elements. -/
structure Sized (v : ToysVector) (h : Arrays α) (n : Nat) : Prop where
  capacity : v.capacity = n
  isEmpty : v.isEmpty = decide (n = 0)
  data_none : n = 0 → v.data = none
  data : n ≠ 0 → ∃ q ys, v.data = some q ∧ h.array (some q) = .ok ys ∧ ys.length = n

theorem sized_new (h : Arrays α) : new.Sized h 0 :=
  ⟨rfl, rfl, fun _ => rfl, fun hne => absurd rfl hne⟩

/-- As the loop reads one element ahead, its last round does not stay in the array. -/
theorem shiftDownChecked_outOfBounds (n : Nat) {h : Arrays α} {ys : List (Option α)}
    {i : Nat} (harray : h.array (some q) = .ok ys) (hlen : i + (n + 1) = ys.length) :
    shiftDownChecked h (some q) (n + 1) i = .error .outOfBounds := by
  induction n generalizing h ys i with
  | zero =>
      have hget : h.get (some q) (i + 1) = .error .outOfBounds := by
        rw [Arrays.get, harray, ok_bind, List.getElem?_eq_none (by omega)]
      rw [shiftDownChecked, hget, error_bind]
  | succ n ih =>
      have hi : i + 1 < ys.length := by omega
      have hget : h.get (some q) (i + 1) = .ok ys[i + 1] :=
        Arrays.get_of_array harray (List.getElem?_eq_getElem hi)
      have hset : h.set (some q) i ys[i + 1] =
          .ok (List.set h q (some (ys.set i ys[i + 1]))) :=
        Arrays.set_of_array harray (by omega)
      rw [shiftDownChecked, hget, ok_bind, hset, ok_bind]
      exact ih (Arrays.array_set harray _) (by rw [List.length_set]; omega)

namespace Sized

theorem resize (hv : v.Sized h n) (m : Nat) :
    ∃ v' h', v.resize h m = .ok (v', h') ∧ v'.Sized h' m := by
  by_cases hsame : m = v.capacity
  · refine ⟨v, h, ?_, ?_⟩
    · rw [ToysVector.resize, if_pos hsame]
      rfl
    · rw [hsame, hv.capacity]
      exact hv
  by_cases hzero : m = 0
  · have hn : n ≠ 0 := by
      rw [← hv.capacity, ← hzero]
      exact Ne.symm hsame
    obtain ⟨q, ys, hq, harray, _⟩ := hv.data hn
    refine ⟨⟨none, 0, true⟩, List.set h q none, ?_, ?_⟩
    · rw [ToysVector.resize, if_neg hsame, if_pos hzero, hq,
        Arrays.deleteArray_of_array harray]
      rfl
    · rw [hzero]
      exact sized_new _
  have hempty := hv.isEmpty
  by_cases hn : n = 0
  · rw [decide_eq_true hn] at hempty
    refine ⟨⟨some h.length, m, false⟩, h ++ [some (List.replicate m none)], ?_, rfl,
      (decide_eq_false hzero).symm, fun hm => absurd hm hzero,
      fun _ => ⟨h.length, _, rfl, Arrays.array_last h _, List.length_replicate⟩⟩
    rw [ToysVector.resize, if_neg hsame, if_neg hzero]
    simp only [Arrays.newArray, hempty, if_true]
    rfl
  · rw [decide_eq_false hn] at hempty
    obtain ⟨q, ys, hq, harray, hlen⟩ := hv.data hn
    obtain ⟨v', h', q', zs, hret, hcap, hempty', hq', harray', hzlen, _⟩ :=
      Holds.resize_array hempty hq harray (hv.capacity.trans hlen.symm) hzero hsame
    refine ⟨v', h', hret, hcap, ?_, fun hm => absurd hm hzero,
      fun _ => ⟨q', zs, hq', harray', hzlen⟩⟩
    rw [hempty', decide_eq_false hzero]

/-- Storing an element keeps the array and its length. -/
theorem set (hv : v.Sized h n) (hi : i < n) (x : Option α) :
    ∃ h', h.set v.data i x = .ok h' ∧ v.Sized h' n := by
  have hn : n ≠ 0 := by omega
  obtain ⟨q, ys, hq, harray, hlen⟩ := hv.data hn
  refine ⟨List.set h q (some (ys.set i x)), ?_, hv.capacity, hv.isEmpty,
    fun hzero => absurd hzero hn,
    fun _ => ⟨q, ys.set i x, hq, Arrays.array_set harray _, ?_⟩⟩
  · rw [hq]
    exact Arrays.set_of_array harray (by omega)
  · rw [List.length_set, hlen]

theorem pushBack (hv : v.Sized h n) (x : α) :
    ∃ v' h', v.pushBack h x = .ok (v', h') ∧ v'.Sized h' (n + 1) := by
  obtain ⟨v', h₁, hret, hv'⟩ := hv.resize (n + 1)
  obtain ⟨h', hset, hv''⟩ := hv'.set (Nat.lt_succ_self n) (some x)
  refine ⟨v', h', ?_, hv''⟩
  rw [ToysVector.pushBack, hv.capacity, hret, ok_bind]
  dsimp only
  rw [hv'.capacity, Nat.add_sub_cancel, hset]
  rfl

theorem popBack (hv : v.Sized h n) :
    ∃ v' h', v.popBack h = .ok (v', h') ∧ v'.Sized h' (n - 1) := by
  rw [ToysVector.popBack, hv.capacity]
  by_cases hn : n = 0
  · rw [if_pos hn]
    refine ⟨v, h, rfl, ?_⟩
    rw [hn]
    rw [hn] at hv
    exact hv
  · rw [if_neg hn]
    exact hv.resize (n - 1)

/-- `erase` of an element leaves the array. -/
theorem eraseChecked (hv : v.Sized h n) (hi : i < n) :
    v.eraseChecked h i = .error .outOfBounds := by
  obtain ⟨q, ys, hq, harray, hlen⟩ := hv.data (by omega)
  have hloop := shiftDownChecked_outOfBounds (n - i - 1) harray (i := i) (by omega)
  have hrounds : n - i - 1 + 1 = v.capacity - i := by
    rw [hv.capacity]
    omega
  rw [hrounds] at hloop
  rw [ToysVector.eraseChecked, if_neg (by rw [hv.capacity]; omega)]
  show (do
    let h ← shiftDownChecked h v.data (v.capacity - i) i
    v.resize h (v.capacity - 1)) = _
  rw [hq, hloop, error_bind]

theorem eraseChecked_of_le (hv : v.Sized h n) (hi : n ≤ i) :
    v.eraseChecked h i = .ok (v, h) := if_pos (by rw [hv.capacity]; exact hi)

theorem read (hv : v.Sized h n) (hi : i < n) : ∃ x, v.read h i = .ok x := by
  obtain ⟨q, ys, hq, harray, hlen⟩ := hv.data (by omega)
  refine ⟨ys[i], ?_⟩
  rw [ToysVector.read, if_neg (by rw [hv.capacity]; omega), hq]
  exact Arrays.get_of_array harray (List.getElem?_eq_getElem (by omega))

theorem read_of_le (hv : v.Sized h n) (hi : n ≤ i) : v.read h i = .error .panic := by
  rw [ToysVector.read, if_pos (by rw [hv.capacity]; exact hi)]
  rfl

theorem put (hv : v.Sized h n) (hi : i < n) (x : α) :
    ∃ h', v.put h i x = .ok h' ∧ v.Sized h' n := by
  obtain ⟨h', hset, hv'⟩ := hv.set hi (some x)
  refine ⟨h', ?_, hv'⟩
  rw [ToysVector.put, if_neg (by rw [hv.capacity]; omega)]
  exact hset

theorem put_of_le (hv : v.Sized h n) (hi : n ≤ i) (x : α) :
    v.put h i x = .error .panic := by
  rw [ToysVector.put, if_pos (by rw [hv.capacity]; exact hi)]
  rfl

end Sized

end ToysVector

/-- The operations of a vector, `operator[]` among them. -/
inductive CheckedOp (α : Type)
  | pushBack (value : α)
  | popBack
  | erase (index : Nat)
  | resize (elementAmount : Nat)
  | read (i : Nat)
  | write (i : Nat) (value : α)

namespace CheckedOp

variable {α : Type} {v : ToysVector} {h : Arrays α} {n : Nat}

def exec (v : ToysVector) (h : Arrays α) : CheckedOp α → Except Fault (ToysVector × Arrays α)
  | .pushBack value => v.pushBack h value
  | .popBack => v.popBack h
  | .erase index => v.eraseChecked h index
  | .resize elementAmount => v.resize h elementAmount
  | .read i => do
      let _ ← v.read h i
      return (v, h)
  | .write i value => return (v, ← v.put h i value)

/-- One operation after the other. -/
def execAll (v : ToysVector) (h : Arrays α) :
    List (CheckedOp α) → Except Fault (ToysVector × Arrays α)
  | [] => .ok (v, h)
  | op :: ops => do
      let (v, h) ← op.exec v h
      execAll v h ops

/-- The size after the operation. -/
def sizeAfter (n : Nat) : CheckedOp α → Nat
  | .pushBack _ => n + 1
  | .popBack => n - 1
  | .erase index => if index < n then n - 1 else n
  | .resize elementAmount => elementAmount
  | _ => n

/-- `operator[]` panics. -/
def Panics (n : Nat) : CheckedOp α → Prop
  | .read i => n ≤ i
  | .write i _ => n ≤ i
  | _ => False

/-- The operation is no `erase` of an element. -/
def NoErase (n : Nat) : CheckedOp α → Prop
  | .erase index => n ≤ index
  | _ => True

/-- None before a panic is. -/
def AllNoErase (n : Nat) : List (CheckedOp α) → Prop
  | [] => True
  | op :: ops => op.NoErase n ∧ (¬op.Panics n → AllNoErase (op.sizeAfter n) ops)

theorem exec_of_panics (hv : v.Sized h n) {op : CheckedOp α} (hop : op.Panics n) :
    op.exec v h = .error .panic := by
  cases op with
  | read i => rw [exec, hv.read_of_le hop, error_bind]
  | write i value => rw [exec, hv.put_of_le hop value, error_bind]
  | _ => exact hop.elim

theorem exec_of_noErase (hv : v.Sized h n) {op : CheckedOp α} (hpanic : ¬op.Panics n)
    (hop : op.NoErase n) :
    ∃ v' h', op.exec v h = .ok (v', h') ∧ v'.Sized h' (op.sizeAfter n) := by
  cases op with
  | pushBack value => exact hv.pushBack value
  | popBack => exact hv.popBack
  | erase index =>
      refine ⟨v, h, hv.eraseChecked_of_le hop, ?_⟩
      rw [sizeAfter, if_neg (Nat.not_lt.mpr hop)]
      exact hv
  | resize elementAmount => exact hv.resize elementAmount
  | read i =>
      obtain ⟨x, hread⟩ := hv.read (Nat.lt_of_not_le hpanic)
      refine ⟨v, h, ?_, hv⟩
      rw [exec, hread]
      rfl
  | write i value =>
      obtain ⟨h', hput, hv'⟩ := hv.put (Nat.lt_of_not_le hpanic) value
      refine ⟨v, h', ?_, hv'⟩
      rw [exec, hput]
      rfl

theorem exec_of_erase (hv : v.Sized h n) {op : CheckedOp α} (hop : ¬op.NoErase n) :
    op.exec v h = .error .outOfBounds := by
  cases op with
  | erase index => exact hv.eraseChecked (Nat.lt_of_not_le hop)
  | _ => exact absurd trivial hop

theorem execAll_iff (hv : v.Sized h n) (ops : List (CheckedOp α)) :
    execAll v h ops ≠ .error .outOfBounds ↔ AllNoErase n ops := by
  induction ops generalizing v h n with
  | nil => simp [execAll, AllNoErase]
  | cons op ops ih =>
      rw [execAll, AllNoErase]
      by_cases hop : op.NoErase n
      · by_cases hpanic : op.Panics n
        · rw [exec_of_panics hv hpanic, error_bind]
          exact iff_of_true (by simp) ⟨hop, fun hnot => absurd hpanic hnot⟩
        · obtain ⟨v', h', hret, hv'⟩ := exec_of_noErase hv hpanic hop
          rw [hret, ok_bind]
          exact (ih hv').trans ⟨fun hall => ⟨hop, fun _ => hall⟩, fun hall => hall.2 hpanic⟩
      · rw [exec_of_erase hv hop, error_bind]
        exact iff_of_false (fun hne => hne rfl) fun hall => hop hall.1

end CheckedOp

/-- The operations on a new vector stay inside its arrays exactly when none of them erases
an element: the indices of all the others are below the size. -/
theorem in_bounds_iff {α : Type} (h : Arrays α) (ops : List (CheckedOp α)) :
    CheckedOp.execAll .new h ops ≠ .error .outOfBounds ↔ CheckedOp.AllNoErase 0 ops :=
  CheckedOp.execAll_iff (ToysVector.sized_new h) ops

/-- Erasing the only element reads `m_data[1]`. -/
theorem erase_reads_beyond :
    CheckedOp.execAll .new [] [.pushBack 7, .erase 0] = .error .outOfBounds := rfl

end Toystar.Klibc

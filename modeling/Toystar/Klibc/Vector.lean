import Toystar.Kernel.Lock

/-!
# `toys::vector`

`klibc/vector.hpp` over the arrays that `new T[n]` makes.  The class has a
destructor and no copy constructor, so a copy of a vector is a second object with
the same `m_data`: what is pushed to the copy moves it to an array of its own, and
its destructor deletes whatever array it has by then.
-/

namespace Toystar.Klibc

open Toystar.Kernel

/-! ## Arrays -/

/-- The arrays made so far by address, `none` after `delete[]`.  An element is `none`
until it is assigned. -/
abbrev Arrays (α : Type) := List (Option (List (Option α)))

namespace Arrays

variable {α : Type}

/-- `new T[n]`. -/
def newArray (h : Arrays α) (n : Nat) : Nat × Arrays α :=
  (h.length, h ++ [some (List.replicate n none)])

/-- `delete[] p`. -/
def deleteArray (h : Arrays α) : Option Nat → Except Fault (Arrays α)
  | none => .ok h
  | some p =>
      match h[p]? with
      | some (some _) => .ok (h.set p none)
      | _ => .error .useAfterFree

/-- The array at a pointer. -/
def array (h : Arrays α) : Option Nat → Except Fault (List (Option α))
  | none => .error .nullDeref
  | some p =>
      match h[p]? with
      | some (some xs) => .ok xs
      | _ => .error .useAfterFree

/-- `p[i]`. -/
def get (h : Arrays α) (p : Option Nat) (i : Nat) : Except Fault (Option α) := do
  match (← h.array p)[i]? with
  | some x => return x
  | none => .error .outOfBounds

/-- `p[i] = x`. -/
def set (h : Arrays α) (p : Option Nat) (i : Nat) (x : Option α) :
    Except Fault (Arrays α) := do
  let xs ← h.array p
  if i < xs.length then return List.set h (p.getD 0) (some (xs.set i x))
  else .error .outOfBounds

end Arrays

/-! ## Vectors -/

/-- `toys::vector<T>`. -/
structure ToysVector where
  data : Option Nat
  capacity : Nat
  isEmpty : Bool
deriving DecidableEq

namespace ToysVector

variable {α : Type}

/-- `vector()`. -/
def new : ToysVector := ⟨none, 0, true⟩

/-- `~vector()`. -/
def destroy (v : ToysVector) (h : Arrays α) : Except Fault (Arrays α) :=
  h.deleteArray v.data

/-- `for (i = 0; i < t; i++) m_data[i] = oldData[i];` -/
def copyElements (h : Arrays α) (data oldData : Option Nat) :
    Nat → Except Fault (Arrays α)
  | 0 => .ok h
  | t + 1 => do
      let h ← copyElements h data oldData t
      h.set data t (← h.get oldData t)

/-- `resize`. -/
def resize (v : ToysVector) (h : Arrays α) (elementAmount : Nat) :
    Except Fault (ToysVector × Arrays α) := do
  if elementAmount = v.capacity then return (v, h)
  if elementAmount = 0 then return (⟨none, 0, true⟩, ← h.deleteArray v.data)
  let (data, h) := h.newArray elementAmount
  if v.isEmpty then return (⟨some data, elementAmount, false⟩, h)
  let t := if elementAmount > v.capacity then v.capacity else elementAmount
  let h ← copyElements h (some data) v.data t
  let h ← h.deleteArray v.data
  return ({ v with data := some data, capacity := elementAmount }, h)

/-- `push_back`. -/
def pushBack (v : ToysVector) (h : Arrays α) (value : α) :
    Except Fault (ToysVector × Arrays α) := do
  let (v, h) ← v.resize h (v.capacity + 1)
  return (v, ← h.set v.data (v.capacity - 1) (some value))

/-- `pop_back`. -/
def popBack (v : ToysVector) (h : Arrays α) : Except Fault (ToysVector × Arrays α) :=
  if v.capacity = 0 then .ok (v, h) else v.resize h (v.capacity - 1)

/-- `for (i = index; i < m_capacity; i++) m_data[i] = m_data[i+1];` for `n` rounds from
`i` on.  The last one reads what lies behind the array, `beyond`. -/
def shiftDown (h : Arrays α) (data : Option Nat) (beyond : Option α) :
    Nat → Nat → Except Fault (Arrays α)
  | 0, _ => .ok h
  | n + 1, i => do
      let next ← if n = 0 then .ok beyond else h.get data (i + 1)
      shiftDown (← h.set data i next) data beyond n (i + 1)

/-- `erase`, which returns nothing once it got past the bound. -/
def erase (v : ToysVector) (h : Arrays α) (beyond : Option α) (index : Nat) :
    Except Fault (ToysVector × Arrays α) := do
  if index ≥ v.capacity then return (v, h)
  let h ← shiftDown h v.data beyond (v.capacity - index) index
  v.resize h (v.capacity - 1)

/-- `size()`. -/
def size (v : ToysVector) : Nat := v.capacity

/-- `v[i]`. -/
def get (v : ToysVector) (h : Arrays α) (i : Nat) : Except Fault α := do
  if i ≥ v.capacity then .error .panic
  match ← h.get v.data i with
  | some x => return x
  | none => .error .uninitialised

/-- `v[i] = x`. -/
def put (v : ToysVector) (h : Arrays α) (i : Nat) (x : α) : Except Fault (Arrays α) := do
  if i ≥ v.capacity then .error .panic
  h.set v.data i (some x)

/-- The elements that were assigned. -/
def elements (v : ToysVector) (h : Arrays α) : List α :=
  match h.array v.data with
  | .ok xs => xs.reduceOption
  | .error _ => []

/-- `f().push_back(value)` where `f` returns the vector `v` by value: the element goes
to a copy, which is destroyed at the end of the statement. -/
def pushBackTemporary (v : ToysVector) (h : Arrays α) (value : α) :
    Except Fault (Arrays α) := do
  let (copy, h) ← v.pushBack h value
  copy.destroy h

/-- On an empty vector this makes an array and deletes it. -/
theorem pushBackTemporary_new (h : Arrays α) (value : α) :
    new.pushBackTemporary h value = .ok (h ++ [none]) := by
  have hresize : new.resize h 1 =
      .ok (⟨some h.length, 1, false⟩, h ++ [some [none]]) := rfl
  have hset : (h ++ [some [none]] : Arrays α).set (some h.length) 0 (some value) =
      .ok (h ++ [some [some value]]) := by
    simp only [Arrays.set, Arrays.array, List.getElem?_concat_length, ok_bind]
    rw [if_pos (by simp)]
    simp [pure, Except.pure]
  have hpush : new.pushBack h value =
      .ok (⟨some h.length, 1, false⟩, h ++ [some [some value]]) := by
    show (do
      let (v, h) ← new.resize h 1
      return (v, ← h.set v.data (v.capacity - 1) (some value))) = _
    rw [hresize, ok_bind]
    show (do return (_, ← (h ++ [some [none]] : Arrays α).set (some h.length) 0 (some value)))
      = _
    rw [hset]
    rfl
  rw [pushBackTemporary, hpush, ok_bind]
  simp [destroy, Arrays.deleteArray]

end ToysVector

/-! ## Vectors as lists -/

namespace Arrays

variable {α : Type} {h : Arrays α} {xs ys : List (Option α)} {p : Option Nat} {i n q : Nat}
  {x : Option α}

theorem array_last (h : Arrays α) (ys : List (Option α)) :
    array (h ++ [some ys]) (some h.length) = .ok ys := by
  rw [array, List.getElem?_concat_length]

theorem lt_of_array {q : Nat} (hxs : h.array (some q) = .ok xs) : q < h.length := by
  by_contra hge
  rw [array, List.getElem?_eq_none (by omega)] at hxs
  cases hxs

theorem array_concat (hxs : h.array (some q) = .ok xs) (a : Option (List (Option α))) :
    array (h ++ [a]) (some q) = .ok xs := by
  have hq := lt_of_array hxs
  rw [array] at hxs ⊢
  rw [List.getElem?_append_left hq]
  exact hxs

theorem get_of_array (hxs : h.array p = .ok xs) (hx : xs[i]? = some x) :
    h.get p i = .ok x := by
  rw [get, hxs, ok_bind, hx]
  rfl

theorem set_of_array {q : Nat} (hxs : h.array (some q) = .ok xs) (hi : i < xs.length) :
    h.set (some q) i x = .ok (List.set h q (some (xs.set i x))) := by
  rw [set, hxs, ok_bind, if_pos hi]
  rfl

theorem set_last (hi : i < ys.length) :
    set (h ++ [some ys]) (some h.length) i x = .ok (h ++ [some (ys.set i x)]) := by
  rw [set_of_array (array_last h ys) hi, List.set_append_right _ _ (le_refl _),
    Nat.sub_self, List.set_cons_zero]

theorem array_set_of_ne {r : Nat} {a : Option (List (Option α))} (hne : q ≠ r) :
    array (List.set h q a) (some r) = h.array (some r) := by
  rw [array, array, List.getElem?_set_ne hne]

/-- An array that is there can be deleted. -/
theorem deleteArray_of_array (hxs : h.array (some q) = .ok xs) :
    h.deleteArray (some q) = .ok (List.set h q none) := by
  rw [array] at hxs
  rw [deleteArray]
  split at hxs
  · rfl
  · cases hxs

/-- Storing in one array. -/
theorem array_set {q : Nat} (hxs : h.array (some q) = .ok xs) (zs : List (Option α)) :
    array (List.set h q (some zs)) (some q) = .ok zs := by
  rw [array, List.getElem?_set_self (lt_of_array hxs)]

end Arrays

namespace ToysVector

variable {α : Type} {v : ToysVector} {h : Arrays α} {xs : List α} {i : Nat} {x : α}

/-- The vector holds `xs`. -/
structure Holds (v : ToysVector) (h : Arrays α) (xs : List α) : Prop where
  capacity : v.capacity = xs.length
  isEmpty : v.isEmpty = xs.isEmpty
  data_none : xs = [] → v.data = none
  data : xs ≠ [] → ∃ q, v.data = some q ∧ h.array (some q) = .ok (xs.map some)

theorem holds_new (h : Arrays α) : new.Holds h [] :=
  ⟨rfl, rfl, fun _ => rfl, fun hne => absurd rfl hne⟩

namespace Holds

theorem ne_nil_of_lt (hi : i < xs.length) : xs ≠ [] := by
  rintro rfl
  exact absurd hi (Nat.not_lt_zero i)

theorem size_eq (hv : v.Holds h xs) : v.size = xs.length := hv.capacity

theorem get (hv : v.Holds h xs) (hi : i < xs.length) : v.get h i = .ok xs[i] := by
  obtain ⟨q, hq, harray⟩ := hv.data (ne_nil_of_lt hi)
  have helem : (xs.map some)[i]? = some (some xs[i]) := by
    rw [List.getElem?_map, List.getElem?_eq_getElem hi, Option.map_some]
  have hnot : ¬i ≥ v.capacity := by
    rw [hv.capacity]
    omega
  rw [ToysVector.get, if_neg hnot, hq, Arrays.get_of_array harray helem]
  rfl

theorem put (hv : v.Holds h xs) (hi : i < xs.length) (x : α) :
    ∃ h', v.put h i x = .ok h' ∧ v.Holds h' (xs.set i x) := by
  obtain ⟨q, hq, harray⟩ := hv.data (ne_nil_of_lt hi)
  have hnot : ¬i ≥ v.capacity := by
    rw [hv.capacity]
    omega
  refine ⟨List.set h q (some ((xs.map some).set i (some x))), ?_, ?_⟩
  · rw [ToysVector.put, if_neg hnot, hq]
    exact Arrays.set_of_array harray (by rw [List.length_map]; exact hi)
  · have hne : xs.set i x ≠ [] := by
      apply ne_nil_of_lt (i := i)
      rw [List.length_set]
      exact hi
    refine ⟨?_, ?_, fun hnil => absurd hnil hne, fun _ => ⟨q, hq, ?_⟩⟩
    · rw [List.length_set, hv.capacity]
    · rw [hv.isEmpty, List.isEmpty_eq_false_iff.mpr hne,
        List.isEmpty_eq_false_iff.mpr (ne_nil_of_lt hi)]
    · rw [List.map_set]
      exact Arrays.array_set harray _

theorem elements (hv : v.Holds h xs) : v.elements h = xs := by
  cases xs with
  | nil =>
      rw [ToysVector.elements, hv.data_none rfl]
      rfl
  | cons x xs =>
      obtain ⟨q, hq, harray⟩ := hv.data (List.cons_ne_nil x xs)
      rw [ToysVector.elements, hq, harray]
      show ((x :: xs).map some).filterMap id = x :: xs
      rw [List.filterMap_map]
      exact List.filterMap_some

/-- The loop of `resize` copies the elements to the array made last. -/
theorem copyElements {q : Nat} {src ys : List (Option α)}
    (harray : h.array (some q) = .ok src) (t : Nat) (ht : t ≤ src.length)
    (hys : t ≤ ys.length) :
    ∃ zs, ToysVector.copyElements (h ++ [some ys]) (some h.length) (some q) t =
        .ok (h ++ [some zs]) ∧ zs.length = ys.length ∧
      ∀ i < t, zs[i]? = src[i]? := by
  induction t with
  | zero => exact ⟨ys, rfl, rfl, fun i hi => absurd hi (Nat.not_lt_zero i)⟩
  | succ t ih =>
      obtain ⟨zs, hcopy, hlen, hsame⟩ := ih (by omega) (by omega)
      have hlt : t < src.length := by omega
      refine ⟨zs.set t src[t], ?_, ?_, ?_⟩
      · rw [ToysVector.copyElements, hcopy, ok_bind,
          Arrays.get_of_array (Arrays.array_concat harray _) (List.getElem?_eq_getElem hlt),
          ok_bind, Arrays.set_last (by omega)]
      · rw [List.length_set, hlen]
      · intro i hi
        rcases Nat.lt_succ_iff_lt_or_eq.mp hi with hlt' | rfl
        · rw [List.getElem?_set_ne (by omega), hsame i hlt']
        · rw [List.getElem?_set_self (by omega), List.getElem?_eq_getElem hlt]

/-- `resize` of an array to another length, not 0: the elements that fit. -/
theorem resize_array {q n : Nat} {src : List (Option α)} (hempty : v.isEmpty = false)
    (hq : v.data = some q) (harray : h.array (some q) = .ok src)
    (hcap : v.capacity = src.length) (hn : n ≠ 0) (hne : n ≠ v.capacity) :
    ∃ v' h' q' zs, v.resize h n = .ok (v', h') ∧ v'.capacity = n ∧ v'.isEmpty = false ∧
      v'.data = some q' ∧ h'.array (some q') = .ok zs ∧ zs.length = n ∧
      ∀ i < src.length, i < n → zs[i]? = src[i]? := by
  have hlen : (List.replicate n (none : Option α)).length = n := List.length_replicate
  obtain ⟨t, ht⟩ : ∃ t, t = if n > v.capacity then v.capacity else n := ⟨_, rfl⟩
  have htle : t ≤ src.length ∧ t ≤ n ∧ ∀ i < src.length, i < n → i < t := by
    rw [ht]
    split <;> exact ⟨by omega, by omega, by omega⟩
  have hfits : t ≤ (List.replicate n (none : Option α)).length := by
    rw [hlen]
    exact htle.2.1
  obtain ⟨zs, hcopy, hzlen, hsame⟩ := copyElements harray t htle.1 hfits
  have hold : Arrays.array (h ++ [some zs]) (some q) = .ok src :=
    Arrays.array_concat harray _
  have hqlt := Arrays.lt_of_array harray
  refine ⟨{ v with data := some h.length, capacity := n },
    List.set (h ++ [some zs]) q none, h.length, zs, ?_, rfl, hempty, rfl, ?_,
    hzlen.trans hlen, fun i hi hin => hsame i (htle.2.2 i hi hin)⟩
  · rw [resize, if_neg hne, if_neg hn]
    simp only [Arrays.newArray, hempty, Bool.false_eq_true, if_false, ← ht]
    rw [hq, hcopy, ok_bind, Arrays.deleteArray_of_array hold]
    rfl
  · rw [Arrays.array_set_of_ne (by omega)]
    exact Arrays.array_last h zs

/-- `resize` to one element more: the old elements, and one not assigned. -/
theorem resize_succ (hv : v.Holds h xs) :
    ∃ v' h' q zs, v.resize h (v.capacity + 1) = .ok (v', h') ∧
      v'.capacity = xs.length + 1 ∧ v'.isEmpty = false ∧ v'.data = some q ∧
      h'.array (some q) = .ok zs ∧ zs.length = xs.length + 1 ∧
      ∀ i < xs.length, zs[i]? = (xs.map some)[i]? := by
  have hgrow : ¬v.capacity + 1 = v.capacity := by omega
  have hpos : ¬v.capacity + 1 = 0 := by omega
  by_cases hne : xs = []
  · have hempty : v.isEmpty = true := by
      rw [hv.isEmpty, hne]
      rfl
    refine ⟨⟨some h.length, v.capacity + 1, false⟩, _, h.length, _, ?_, ?_, rfl, rfl,
      Arrays.array_last h (List.replicate (v.capacity + 1) none), ?_, ?_⟩
    · rw [resize, if_neg hgrow, if_neg hpos]
      simp only [Arrays.newArray, hempty, if_true]
      rfl
    · rw [hv.capacity]
    · rw [List.length_replicate, hv.capacity]
    · intro i hi
      rw [hne] at hi
      exact absurd hi (Nat.not_lt_zero i)
  · have hempty : v.isEmpty = false := by
      rw [hv.isEmpty]
      exact List.isEmpty_eq_false_iff.mpr hne
    obtain ⟨q, hq, harray⟩ := hv.data hne
    have hlen : v.capacity = (xs.map some).length := by
      rw [List.length_map]
      exact hv.capacity
    obtain ⟨v', h', q', zs, hresize, hcap, hempty', hq', harray', hzlen, hsame⟩ :=
      resize_array hempty hq harray hlen hpos hgrow
    rw [hv.capacity] at hcap hzlen
    refine ⟨v', h', q', zs, hresize, hcap, hempty', hq', harray', hzlen, ?_⟩
    intro i hi
    exact hsame i (by rw [List.length_map]; exact hi) (by rw [hv.capacity]; omega)

theorem pushBack (hv : v.Holds h xs) (x : α) :
    ∃ v' h', v.pushBack h x = .ok (v', h') ∧ v'.Holds h' (xs ++ [x]) := by
  obtain ⟨v', h', q, zs, hresize, hcap, hempty, hq, harray, hlen, hsame⟩ := hv.resize_succ
  have hlast : v'.capacity - 1 = xs.length := by omega
  have hlt : v'.capacity - 1 < zs.length := by omega
  have hzs : zs.set (v'.capacity - 1) (some x) = (xs ++ [x]).map some := by
    rw [hlast]
    apply List.ext_getElem?
    intro i
    rw [List.map_append]
    rcases Nat.lt_trichotomy i xs.length with hi | rfl | hi
    · rw [List.getElem?_set_ne (by omega), hsame i hi,
        List.getElem?_append_left (by rw [List.length_map]; exact hi)]
    · rw [List.getElem?_set_self (by omega),
        List.getElem?_append_right (by rw [List.length_map]), List.length_map, Nat.sub_self]
      rfl
    · rw [List.getElem?_eq_none (by rw [List.length_set]; omega),
        List.getElem?_eq_none (by simp; omega)]
  refine ⟨v', List.set h' q (some ((xs ++ [x]).map some)), ?_, ?_⟩
  · rw [ToysVector.pushBack, hresize, ok_bind]
    simp only [hq]
    rw [Arrays.set_of_array harray hlt, hzs]
    rfl
  · have hne : xs ++ [x] ≠ [] := by simp
    refine ⟨?_, ?_, fun hnil => absurd hnil hne, fun _ => ⟨q, hq, ?_⟩⟩
    · rw [hcap, List.length_append, List.length_singleton]
    · rw [hempty, List.isEmpty_eq_false_iff.mpr hne]
    · exact Arrays.array_set harray _

/-- Moving element `i + 1` to `i` and erasing element `i + 1` erases element `i`. -/
theorem eraseIdx_set {ys : List (Option α)} {i : Nat} (hi : i + 1 < ys.length) :
    (ys.set i ys[i + 1]).eraseIdx (i + 1) = ys.eraseIdx i := by
  apply List.ext_getElem?
  intro j
  rw [List.getElem?_eraseIdx, List.getElem?_eraseIdx]
  rcases Nat.lt_trichotomy j i with hj | rfl | hj
  · rw [if_pos (by omega), if_pos hj, List.getElem?_set_ne (by omega)]
  · rw [if_pos (by omega), if_neg (by omega), List.getElem?_set_self (by omega),
      List.getElem?_eq_getElem hi]
  · rw [if_neg (by omega), if_neg (by omega), List.getElem?_set_ne (by omega)]

/-- The loop of `erase`: the elements behind `i` move down, and the last place gets what
lies behind the array. -/
theorem shiftDown (beyond : Option α) (n : Nat) {h : Arrays α} {ys : List (Option α)}
    {i q : Nat} (harray : h.array (some q) = .ok ys) (hlen : i + (n + 1) = ys.length) :
    ∃ h', ToysVector.shiftDown h (some q) beyond (n + 1) i = .ok h' ∧
      h'.array (some q) = .ok (ys.eraseIdx i ++ [beyond]) := by
  induction n generalizing h ys i with
  | zero =>
      refine ⟨List.set h q (some (ys.set i beyond)), ?_, ?_⟩
      · have hset : h.set (some q) i beyond = .ok (List.set h q (some (ys.set i beyond))) :=
          Arrays.set_of_array harray (by omega)
        rw [ToysVector.shiftDown, if_pos rfl, ok_bind]
        dsimp only
        rw [hset, ok_bind, ToysVector.shiftDown]
      · rw [Arrays.array_set harray]
        have hlast : i = ys.length - 1 := by omega
        rw [List.set_eq_take_append_cons_drop, if_pos (by omega), List.eraseIdx_eq_take_drop_succ,
          List.drop_eq_nil_of_le (by omega), List.append_nil]
  | succ n ih =>
      have hi : i + 1 < ys.length := by omega
      have hget : h.get (some q) (i + 1) = .ok ys[i + 1] :=
        Arrays.get_of_array harray (List.getElem?_eq_getElem hi)
      have hset : h.set (some q) i ys[i + 1] =
          .ok (List.set h q (some (ys.set i ys[i + 1]))) :=
        Arrays.set_of_array harray (by omega)
      obtain ⟨h', hshift, harray'⟩ := ih (i := i + 1)
        (Arrays.array_set harray (ys.set i ys[i + 1])) (by rw [List.length_set]; omega)
      refine ⟨h', ?_, ?_⟩
      · rw [ToysVector.shiftDown, if_neg (by omega), hget, ok_bind]
        dsimp only
        rw [hset, ok_bind, hshift]
      · rw [harray', eraseIdx_set hi]

theorem erase (hv : v.Holds h xs) (beyond : Option α) (hi : i < xs.length) :
    ∃ v' h', v.erase h beyond i = .ok (v', h') ∧ v'.Holds h' (xs.eraseIdx i) := by
  obtain ⟨q, hq, harray⟩ := hv.data (ne_nil_of_lt hi)
  have hcap := hv.capacity
  have hempty : v.isEmpty = false := by
    rw [hv.isEmpty]
    exact List.isEmpty_eq_false_iff.mpr (ne_nil_of_lt hi)
  obtain ⟨h₁, hshift, harray₁⟩ := shiftDown beyond (xs.length - i - 1) harray
    (i := i) (by rw [List.length_map]; omega)
  have hrounds : xs.length - i - 1 + 1 = v.capacity - i := by omega
  rw [hrounds] at hshift
  have hlen : (xs.eraseIdx i).length = xs.length - 1 := List.length_eraseIdx_of_lt hi
  have herase : v.erase h beyond i = v.resize h₁ (v.capacity - 1) := by
    rw [ToysVector.erase, if_neg (by omega)]
    show (do
      let h ← ToysVector.shiftDown h v.data beyond (v.capacity - i) i
      v.resize h (v.capacity - 1)) = _
    rw [hq, hshift, ok_bind]
  rw [herase]
  by_cases hone : xs.length = 1
  · -- the last element: the array is deleted
    have hnil : xs.eraseIdx i = [] := List.eq_nil_of_length_eq_zero (by omega)
    refine ⟨⟨none, 0, true⟩, List.set h₁ q none, ?_, ?_⟩
    · rw [resize, if_neg (by omega), if_pos (by omega), hq, Arrays.deleteArray_of_array harray₁]
      rfl
    · rw [hnil]
      exact holds_new _
  · have hsrc : v.capacity = ((xs.map some).eraseIdx i ++ [beyond]).length := by
      rw [List.length_append, List.length_eraseIdx_of_lt (by rw [List.length_map]; exact hi),
        List.length_map, List.length_singleton]
      omega
    obtain ⟨v', h', q', zs, hresize, hcap', hempty', hq', harray', hzlen, hsame⟩ :=
      resize_array hempty hq harray₁ hsrc (n := v.capacity - 1) (by omega) (by omega)
    have hne : xs.eraseIdx i ≠ [] := List.ne_nil_of_length_pos (by omega)
    have hzs : zs = (xs.eraseIdx i).map some := by
      rw [← List.eraseIdx_map]
      apply List.ext_getElem?
      intro j
      rcases Nat.lt_or_ge j (xs.length - 1) with hj | hj
      · have hlt : j < ((xs.map some).eraseIdx i).length := by
          rw [List.length_eraseIdx_of_lt (by rw [List.length_map]; exact hi), List.length_map]
          exact hj
        rw [hsame j (by rw [List.length_append]; omega) (by omega),
          List.getElem?_append_left hlt]
      · rw [List.getElem?_eq_none (by omega), List.getElem?_eq_none]
        rw [List.length_eraseIdx_of_lt (by rw [List.length_map]; exact hi), List.length_map]
        exact hj
    rw [hzs] at harray'
    refine ⟨v', h', hresize, ?_, ?_, fun hnil => absurd hnil hne, fun _ => ⟨q', hq', harray'⟩⟩
    · rw [hcap', hlen, hcap]
    · rw [hempty', List.isEmpty_eq_false_iff.mpr hne]

/-- `erase` of an index behind the elements. -/
theorem erase_of_le (hv : v.Holds h xs) (beyond : Option α) (hi : xs.length ≤ i) :
    v.erase h beyond i = .ok (v, h) := if_pos (by rw [hv.capacity]; exact hi)

/-- `resize` to no more elements: the first ones. -/
theorem shrink {n : Nat} (hv : v.Holds h xs) (hn : n ≤ xs.length) :
    ∃ v' h', v.resize h n = .ok (v', h') ∧ v'.Holds h' (xs.take n) := by
  have hcap := hv.capacity
  by_cases hsame : n = v.capacity
  · refine ⟨v, h, ?_, ?_⟩
    · rw [resize, if_pos hsame]
      rfl
    · rw [List.take_of_length_le (by omega)]
      exact hv
  · have hne : xs ≠ [] := List.ne_nil_of_length_pos (by omega)
    obtain ⟨q, hq, harray⟩ := hv.data hne
    by_cases hzero : n = 0
    · refine ⟨⟨none, 0, true⟩, List.set h q none, ?_, ?_⟩
      · rw [resize, if_neg hsame, if_pos hzero, hq, Arrays.deleteArray_of_array harray]
        rfl
      · rw [hzero, List.take_zero]
        exact holds_new _
    · have hempty : v.isEmpty = false := by
        rw [hv.isEmpty]
        exact List.isEmpty_eq_false_iff.mpr hne
      obtain ⟨v', h', q', zs, hresize, hcap', hempty', hq', harray', hzlen, hfirst⟩ :=
        resize_array hempty hq harray (by rw [List.length_map]; exact hcap) hzero hsame
      have hlen : (xs.take n).length = n := List.length_take_of_le hn
      have hne' : xs.take n ≠ [] := List.ne_nil_of_length_pos (by omega)
      have hzs : zs = (xs.take n).map some := by
        apply List.ext_getElem?
        intro i
        rcases Nat.lt_or_ge i n with hi | hi
        · rw [hfirst i (by rw [List.length_map]; omega) hi, List.map_take,
            List.getElem?_take_of_lt hi]
        · rw [List.getElem?_eq_none (by omega),
            List.getElem?_eq_none (by rw [List.length_map]; omega)]
      rw [hzs] at harray'
      refine ⟨v', h', hresize, ?_, ?_, fun hnil => absurd hnil hne', fun _ => ⟨q', hq', harray'⟩⟩
      · rw [hcap', hlen]
      · rw [hempty', List.isEmpty_eq_false_iff.mpr hne']

theorem popBack (hv : v.Holds h xs) :
    ∃ v' h', v.popBack h = .ok (v', h') ∧ v'.Holds h' xs.dropLast := by
  rw [ToysVector.popBack, hv.capacity]
  by_cases hzero : xs.length = 0
  · rw [if_pos hzero, List.eq_nil_of_length_eq_zero hzero]
    rw [List.eq_nil_of_length_eq_zero hzero] at hv
    exact ⟨v, h, rfl, hv⟩
  · rw [if_neg hzero, List.dropLast_eq_take]
    exact hv.shrink (Nat.sub_le _ _)

end Holds

end ToysVector

/-! ## Other vectors -/

namespace Arrays

variable {α : Type} {h h' : Arrays α} {p : Option Nat} {i r : Nat} {x : Option α}

/-- Storing in an array leaves the others. -/
theorem array_of_set (hret : h.set p i x = .ok h') (hne : p ≠ some r) :
    h'.array (some r) = h.array (some r) := by
  rw [set, bind_eq_ok] at hret
  obtain ⟨xs, hxs, hret⟩ := hret
  split at hret
  · cases hret
    cases p with
    | none => cases hxs
    | some q => exact array_set_of_ne fun heq => hne (congrArg some heq)
  · cases hret

theorem array_of_deleteArray (hret : h.deleteArray p = .ok h') (hne : p ≠ some r) :
    h'.array (some r) = h.array (some r) := by
  cases p with
  | none =>
      cases hret
      rfl
  | some q =>
      rw [deleteArray] at hret
      split at hret
      · cases hret
        exact array_set_of_ne fun heq => hne (congrArg some heq)
      · cases hret

theorem array_of_copyElements {p' : Option Nat} {t : Nat}
    (hret : ToysVector.copyElements h p p' t = .ok h') (hne : p ≠ some r) :
    h'.array (some r) = h.array (some r) := by
  induction t generalizing h' with
  | zero =>
      cases hret
      rfl
  | succ t ih =>
      rw [ToysVector.copyElements] at hret
      simp only [bind_eq_ok] at hret
      obtain ⟨h₁, hcopy, x, _, hset⟩ := hret
      exact (array_of_set hset hne).trans (ih hcopy)

end Arrays

namespace ToysVector

variable {α : Type} {v v' v'' w : ToysVector} {h h' h'' : Arrays α} {xs ys : List α}
  {i n : Nat} {x : α}

/-- Two vectors have arrays of their own. -/
def Apart (v w : ToysVector) : Prop := ∀ r, w.data = some r → v.data ≠ some r

theorem Apart.symm (ha : Apart v w) : Apart w v := by
  intro r hv hw
  exact ha r hw hv

/-- Every array but that of `v` stays, and `v'` has another one. -/
structure Frame (v : ToysVector) (h : Arrays α) (v' : ToysVector) (h' : Arrays α) : Prop where
  arrays : ∀ {r ys}, v.data ≠ some r → h.array (some r) = .ok ys →
    h'.array (some r) = .ok ys
  apart : ∀ {r ys}, v.data ≠ some r → h.array (some r) = .ok ys → v'.data ≠ some r

namespace Frame

theorem refl (v : ToysVector) (h : Arrays α) : Frame v h v h :=
  ⟨fun _ harray => harray, fun hne _ => hne⟩

theorem trans (hf : Frame v h v' h') (hf' : Frame v' h' v'' h'') : Frame v h v'' h'' :=
  ⟨fun hne harray => hf'.arrays (hf.apart hne harray) (hf.arrays hne harray),
    fun hne harray => hf'.apart (hf.apart hne harray) (hf.arrays hne harray)⟩

/-- A vector apart from `v` holds what it held, and is apart from `v'`. -/
theorem holds (hf : Frame v h v' h') (hw : w.Holds h ys) (ha : Apart v w) :
    w.Holds h' ys ∧ Apart v' w := by
  constructor
  · refine ⟨hw.capacity, hw.isEmpty, hw.data_none, ?_⟩
    intro hne
    obtain ⟨r, hr, harray⟩ := hw.data hne
    exact ⟨r, hr, hf.arrays (ha r hr) harray⟩
  · intro r hr
    have hne : ys ≠ [] := by
      intro hnil
      rw [hw.data_none hnil] at hr
      cases hr
    obtain ⟨q, hq, harray⟩ := hw.data hne
    rw [hr] at hq
    cases hq
    exact hf.apart (ha r hr) harray

theorem resize (hret : v.resize h n = .ok (v', h')) : Frame v h v' h' := by
  rw [ToysVector.resize] at hret
  split at hret
  · cases hret
    exact refl v h
  · split at hret
    · rw [bind_eq_ok] at hret
      obtain ⟨h₁, hdelete, hret⟩ := hret
      cases hret
      exact ⟨fun hne harray => (Arrays.array_of_deleteArray hdelete hne).trans harray,
        fun _ _ hdata => by cases hdata⟩
    · simp only [Arrays.newArray] at hret
      -- the new array is behind all others
      have hnew : ∀ {r : Nat} {ys : List (Option α)}, h.array (some r) = .ok ys →
          some h.length ≠ some r := by
        intro r ys harray heq
        have hlt := Arrays.lt_of_array harray
        rw [Option.some.inj heq] at hlt
        exact absurd hlt (Nat.lt_irrefl r)
      split at hret
      · cases hret
        exact ⟨fun _ harray => Arrays.array_concat harray _, fun _ harray => hnew harray⟩
      · simp only [bind_eq_ok] at hret
        obtain ⟨h₁, hcopy, h₂, hdelete, hret⟩ := hret
        cases hret
        refine ⟨?_, fun _ harray => hnew harray⟩
        intro r ys hne harray
        rw [Arrays.array_of_deleteArray hdelete hne,
          Arrays.array_of_copyElements hcopy (hnew harray)]
        exact Arrays.array_concat harray _

/-- Storing in the array of a vector. -/
theorem set {y : Option α} (hret : h.set v.data i y = .ok h') : Frame v h v h' :=
  ⟨fun hne harray => (Arrays.array_of_set hret hne).trans harray, fun hne _ => hne⟩

theorem pushBack (hret : v.pushBack h x = .ok (v', h')) : Frame v h v' h' := by
  rw [ToysVector.pushBack, bind_eq_ok] at hret
  obtain ⟨⟨v₁, h₁⟩, hresize, hret⟩ := hret
  dsimp only at hret
  rw [bind_eq_ok] at hret
  obtain ⟨h₂, hset, hret⟩ := hret
  cases hret
  exact (resize hresize).trans (set hset)

theorem put (hret : v.put h i x = .ok h') : Frame v h v h' := by
  rw [ToysVector.put] at hret
  split at hret
  · cases hret
  · exact set hret

end Frame

end ToysVector

end Toystar.Klibc

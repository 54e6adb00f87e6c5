import Mathlib.Data.List.Basic
import Toystar.Klibc.Strings

/-!
# `toys::map`

`klibc/map.hpp`: chains of entries in `m_capacity` buckets, the newest entry of a bucket
first.  The map is a list of entries (`map_refines`) until a `size_t` key has all bits of the
capacity in its hash, which makes its bucket the one behind the last, or an `insert` grows
the array: the chains are copied to where they were, with what lies behind the old array,
while their keys now have other buckets (`map_loses_keys`).
-/

namespace Toystar.Klibc

open Toystar.Kernel

/-! ## Hashes -/

/-- `hash = ((hash << 5) + hash) + c;` -/
def djb2Step (hash c : UInt64) : UInt64 := ((hash <<< 5) + hash) + c

/-- The loop over the bytes of a `size_t`. -/
def djb2Size (key : UInt64) : UInt64 :=
  (List.range 8).foldl
    (fun hash i => djb2Step hash ((key >>> (UInt64.ofNat i * 8)) &&& 0xFF)) 5381

/-- The loop over the characters of a string, which are signed. -/
def djb2String (hash : UInt64) : CStr → UInt64
  | [] => hash
  | c :: key =>
      if c = 0 then hash else djb2String (djb2Step hash c.toInt8.toInt64.toUInt64) key

/-- `hash(size_t)`: the bucket is taken by `&`. -/
def hashSize (key : UInt64) (capacity : Nat) : Nat := (djb2Size key).toNat &&& capacity

/-- `hash(const char*)` of the string at a pointer: the bucket is taken by `%`. -/
def hashString (strings : Nat → CStr) (key capacity : Nat) : Nat :=
  (djb2String 5381 (strings key)).toNat % capacity

/-! ## Maps -/

/-- The entries that a bucket leads to, and whether the last `next` is null.  That is so
unless the bucket itself was read from behind an array. -/
structure MapBucket (K V : Type) where
  entries : List (K × V)
  ends : Bool
deriving DecidableEq

/-- The null pointer. -/
def MapBucket.null {K V : Type} : MapBucket K V := ⟨[], true⟩

/-- `toys::map<Key, T>`. -/
structure ToysMap (K V : Type) where
  capacity : Nat
  size : Nat
  data : List (MapBucket K V)
deriving DecidableEq

namespace ToysMap

variable {K V : Type} [DecidableEq K]

/-- `map()`. -/
def new : ToysMap K V := ⟨10, 0, List.replicate 10 .null⟩

/-- `m_data[index]`. -/
def bucket (m : ToysMap K V) (index : Nat) : Except Fault (MapBucket K V) :=
  match m.data[index]? with
  | some bucket => .ok bucket
  | none => .error .outOfBounds

/-- `m_data[index]` is given other entries. -/
def setEntries (m : ToysMap K V) (index : Nat) (bucket : MapBucket K V)
    (entries : List (K × V)) : ToysMap K V :=
  { m with data := m.data.set index { bucket with entries := entries } }

/-- `m_size * (m_size/2) > m_capacity`. -/
def Grows (size capacity : Nat) : Prop := size * (size / 2) % 2 ^ 64 > capacity

instance (size capacity : Nat) : Decidable (Grows size capacity) :=
  inferInstanceAs (Decidable (_ > _))

/-- `m_capacity += m_capacity / 2`. -/
def grown (capacity : Nat) : Nat := capacity + capacity / 2

/-- The new array has the buckets of the old one and then what `memcpy` finds behind it. -/
def grow (m : ToysMap K V) (beyond : Nat → MapBucket K V) : ToysMap K V :=
  { m with
    capacity := grown m.capacity
    data := m.data ++ (List.range (grown m.capacity - m.capacity)).map beyond }

/-- `insert`. -/
def insert (hash : K → Nat → Nat) (m : ToysMap K V) (beyond : Nat → MapBucket K V)
    (key : K) (value : V) : Except Fault (ToysMap K V) := do
  let index := hash key m.capacity
  let bucket ← m.bucket index
  let m := m.setEntries index bucket ((key, value) :: bucket.entries)
  let m := { m with size := m.size + 1 }
  if Grows m.size m.capacity then return m.grow beyond
  return m

/-- The loop of `erase`: the entries without the one it takes out, if there is one. -/
def eraseFrom (key : K) (ends : Bool) : List (K × V) → Except Fault (Option (List (K × V)))
  | [] => if ends then .ok none else .error .uninitialised
  | entry :: entries =>
      if entry.1 = key then .ok (some entries)
      else do
        let rest ← eraseFrom key ends entries
        return rest.map (entry :: ·)

/-- `erase`. -/
def erase (hash : K → Nat → Nat) (m : ToysMap K V) (key : K) :
    Except Fault (Bool × ToysMap K V) := do
  let index := hash key m.capacity
  let bucket ← m.bucket index
  match ← eraseFrom key bucket.ends bucket.entries with
  | none => return (false, m)
  | some entries =>
      let m := m.setEntries index bucket entries
      return (true, { m with size := m.size - 1 })

/-- The loop of `find`. -/
def findFrom (key : K) (ends : Bool) : List (K × V) → Except Fault (Option V)
  | [] => if ends then .ok none else .error .uninitialised
  | entry :: entries =>
      if entry.1 = key then .ok (some entry.2) else findFrom key ends entries

/-- `find`, and `operator[]`. -/
def find (hash : K → Nat → Nat) (m : ToysMap K V) (key : K) : Except Fault (Option V) := do
  let bucket ← m.bucket (hash key m.capacity)
  findFrom key bucket.ends bucket.entries

end ToysMap

namespace ToysMap

variable {K V : Type} {hash : K → Nat → Nat} {m : ToysMap K V}
  {xs : List (K × V)} {key : K} {value : V}

/-! ## Maps as lists -/

/-- The entries of bucket `i` of `n`. -/
def inBucket (hash : K → Nat → Nat) (n i : Nat) (xs : List (K × V)) : List (K × V) :=
  xs.filter fun entry => hash entry.1 n = i

/-- Each bucket has the entries of the list that hash to it. -/
structure Holds (hash : K → Nat → Nat) (m : ToysMap K V) (xs : List (K × V)) : Prop where
  pos : 0 < m.capacity
  length : m.data.length = m.capacity
  size : m.size = xs.length
  index : ∀ entry ∈ xs, hash entry.1 m.capacity < m.capacity
  data : ∀ i < m.capacity, m.data[i]? = some ⟨inBucket hash m.capacity i xs, true⟩

theorem holds_new (hash : K → Nat → Nat) : (new : ToysMap K V).Holds hash [] where
  pos := Nat.zero_lt_succ 9
  length := rfl
  size := rfl
  index := fun _ hmem => absurd hmem List.not_mem_nil
  data := by
    intro i hi
    exact List.getElem?_replicate_of_lt hi

namespace Holds

theorem bucket (hm : m.Holds hash xs) {i : Nat} (hi : i < m.capacity) :
    m.bucket i = .ok ⟨inBucket hash m.capacity i xs, true⟩ := by
  rw [ToysMap.bucket, hm.data i hi]

/-- Giving one bucket the entries of another list that agrees with the old one elsewhere. -/
theorem setEntries (hm : m.Holds hash xs) (ys : List (K × V)) {i : Nat}
    (entries : List (K × V))
    (hindex : ∀ entry ∈ ys, hash entry.1 m.capacity < m.capacity)
    (hentries : inBucket hash m.capacity i ys = entries)
    (hother : ∀ j, j ≠ i → inBucket hash m.capacity j ys = inBucket hash m.capacity j xs) :
    ({ m.setEntries i ⟨inBucket hash m.capacity i xs, true⟩ entries with
        size := ys.length } : ToysMap K V).Holds hash ys where
  pos := hm.pos
  length := (List.length_set ..).trans hm.length
  size := rfl
  index := hindex
  data := by
    intro j hj
    show (m.data.set i ⟨entries, true⟩)[j]? = some ⟨inBucket hash m.capacity j ys, true⟩
    by_cases heq : j = i
    · have hlt : i < m.data.length := by
        rw [hm.length, ← heq]
        exact hj
      rw [heq, List.getElem?_set_self hlt, hentries]
    · rw [List.getElem?_set_ne (Ne.symm heq), hother j heq]
      exact hm.data j hj

/-- Growing is harmless when the entries keep their buckets and nothing lies behind the
array. -/
theorem grow (hm : m.Holds hash xs) {beyond : Nat → MapBucket K V}
    (hkeep : ∀ entry ∈ xs, hash entry.1 (grown m.capacity) = hash entry.1 m.capacity)
    (hnull : ∀ i < grown m.capacity - m.capacity, beyond i = .null) :
    (m.grow beyond).Holds hash xs := by
  have hle : m.capacity ≤ grown m.capacity := Nat.le_add_right _ _
  -- no entry hashes behind the old array
  have hbucket : ∀ i, inBucket hash (grown m.capacity) i xs = inBucket hash m.capacity i xs := by
    intro i
    apply List.filter_congr
    intro entry hmem
    rw [hkeep entry hmem]
  refine ⟨lt_of_lt_of_le hm.pos hle, ?_, hm.size, ?_, ?_⟩
  · show (m.data ++ _).length = grown m.capacity
    rw [List.length_append, List.length_map, List.length_range, hm.length]
    omega
  · intro entry hmem
    show hash entry.1 (grown m.capacity) < grown m.capacity
    rw [hkeep entry hmem]
    exact lt_of_lt_of_le (hm.index entry hmem) hle
  · intro i hi
    have hi : i < grown m.capacity := hi
    show (m.data ++ _)[i]? = some ⟨inBucket hash (grown m.capacity) i xs, true⟩
    rw [hbucket]
    rcases Nat.lt_or_ge i m.capacity with hlt | hge
    · rw [List.getElem?_append_left (by rw [hm.length]; exact hlt)]
      exact hm.data i hlt
    · have hempty : inBucket hash m.capacity i xs = [] := by
        apply List.filter_eq_nil_iff.mpr
        intro entry hmem
        have hlt := hm.index entry hmem
        rw [decide_eq_true_eq]
        omega
      have hrange : i - m.capacity < grown m.capacity - m.capacity := by omega
      rw [List.getElem?_append_right (by rw [hm.length]; exact hge), hm.length,
        List.getElem?_map, List.getElem?_range hrange, Option.map_some, hnull _ hrange, hempty]
      rfl

theorem insert (hm : m.Holds hash xs) (beyond : Nat → MapBucket K V) (value : V)
    (hkey : hash key m.capacity < m.capacity)
    (hgrows : Grows (xs.length + 1) m.capacity →
      (∀ entry ∈ (key, value) :: xs, hash entry.1 (grown m.capacity) = hash entry.1 m.capacity) ∧
      ∀ i < grown m.capacity - m.capacity, beyond i = .null) :
    ∃ m', m.insert hash beyond key value = .ok m' ∧ m'.Holds hash ((key, value) :: xs) ∧
      m'.capacity =
        if Grows (xs.length + 1) m.capacity then grown m.capacity else m.capacity := by
  have hindex : ∀ entry ∈ (key, value) :: xs, hash entry.1 m.capacity < m.capacity := by
    intro entry hmem
    rcases List.mem_cons.mp hmem with rfl | hmem
    · exact hkey
    · exact hm.index entry hmem
  have hother : ∀ j, j ≠ hash key m.capacity →
      inBucket hash m.capacity j ((key, value) :: xs) = inBucket hash m.capacity j xs := by
    intro j hj
    exact List.filter_cons_of_neg (by simpa using Ne.symm hj)
  have hentries : inBucket hash m.capacity (hash key m.capacity) ((key, value) :: xs) =
      (key, value) :: inBucket hash m.capacity (hash key m.capacity) xs :=
    List.filter_cons_of_pos (decide_eq_true rfl)
  have hset := hm.setEntries _ _ hindex hentries hother
  rw [List.length_cons, ← hm.size] at hset
  rw [ToysMap.insert, hm.bucket hkey, ok_bind]
  show ∃ m', (if Grows (m.size + 1) m.capacity then Except.ok _ else Except.ok _) = _ ∧ _
  rw [hm.size]
  by_cases hgrow : Grows (xs.length + 1) m.capacity
  · rw [if_pos hgrow, if_pos hgrow]
    exact ⟨_, rfl, hset.grow (hgrows hgrow).1 (hgrows hgrow).2, rfl⟩
  · rw [if_neg hgrow, if_neg hgrow]
    exact ⟨_, rfl, hset, rfl⟩

end Holds

/-! ## Finding and erasing -/

variable [DecidableEq K]

/-- Two conditions that agree on a list find and erase the same. -/
theorem search_congr {α : Type} {xs : List α} {p q : α → Bool}
    (hsame : ∀ entry ∈ xs, p entry = q entry) :
    xs.any p = xs.any q ∧ xs.find? p = xs.find? q ∧ xs.eraseP p = xs.eraseP q := by
  induction xs with
  | nil => exact ⟨rfl, rfl, rfl⟩
  | cons x xs ih =>
      obtain ⟨hany, hfind, herase⟩ := ih fun entry hmem => hsame entry (List.mem_cons_of_mem x hmem)
      have hx := hsame x List.mem_cons_self
      rw [List.any_cons, List.any_cons, List.find?_cons, List.find?_cons, List.eraseP_cons,
        List.eraseP_cons, hx, hany, hfind, herase]
      exact ⟨rfl, rfl, rfl⟩

theorem findFrom_eq (key : K) (xs : List (K × V)) :
    findFrom key true xs = .ok ((xs.find? fun entry => entry.1 = key).map Prod.snd) := by
  induction xs with
  | nil => rfl
  | cons x xs ih =>
      rw [findFrom, List.find?_cons]
      by_cases hx : x.1 = key
      · rw [if_pos hx, decide_eq_true hx]
        rfl
      · rw [if_neg hx, decide_eq_false hx]
        exact ih

theorem eraseFrom_eq (key : K) (xs : List (K × V)) :
    eraseFrom key true xs = .ok (if xs.any (fun entry => entry.1 = key) then
      some (xs.eraseP fun entry => entry.1 = key) else none) := by
  induction xs with
  | nil => rfl
  | cons x xs ih =>
      rw [eraseFrom, List.any_cons, List.eraseP_cons]
      by_cases hx : x.1 = key
      · rw [if_pos hx, decide_eq_true hx]
        rfl
      · rw [if_neg hx, decide_eq_false hx, ih, ok_bind, Bool.false_or]
        by_cases hany : xs.any (fun entry => entry.1 = key) = true
        · rw [if_pos hany, if_pos hany]
          rfl
        · rw [if_neg hany, if_neg hany]
          rfl

/-- The entries of a key are all in its bucket. -/
theorem any_inBucket (n : Nat) (xs : List (K × V)) :
    (inBucket hash n (hash key n) xs).any (fun entry => entry.1 = key) =
      xs.any fun entry => entry.1 = key := by
  rw [inBucket, List.any_filter]
  congr 1
  funext entry
  by_cases hkey : entry.1 = key
  · simp [hkey]
  · simp [hkey]

theorem find_inBucket (n : Nat) (xs : List (K × V)) :
    (inBucket hash n (hash key n) xs).find? (fun entry => entry.1 = key) =
      xs.find? fun entry => entry.1 = key := by
  rw [inBucket, List.find?_filter]
  congr 1
  funext entry
  by_cases hkey : entry.1 = key
  · simp [hkey]
  · simp [hkey]

theorem inBucket_erase_self (n : Nat) (xs : List (K × V)) :
    inBucket hash n (hash key n) (xs.eraseP fun entry => entry.1 = key) =
      (inBucket hash n (hash key n) xs).eraseP fun entry => entry.1 = key := by
  rw [inBucket, inBucket, List.eraseP_filter]
  congr 2
  funext entry
  by_cases hkey : entry.1 = key
  · simp [hkey]
  · simp [hkey]

theorem inBucket_erase_other {n i : Nat} (hne : i ≠ hash key n) (xs : List (K × V)) :
    inBucket hash n i (xs.eraseP fun entry => entry.1 = key) = inBucket hash n i xs := by
  rcases List.exists_or_eq_self_of_eraseP (fun entry => decide (entry.1 = key)) xs with
    hself | ⟨entry, front, back, _, hkey, hxs, herase⟩
  · rw [hself]
  · have hhash : ¬hash entry.1 n = i := by
      rw [of_decide_eq_true hkey]
      exact Ne.symm hne
    rw [herase, hxs, inBucket, inBucket, List.filter_append, List.filter_append,
      List.filter_cons_of_neg (by simpa using hhash)]

namespace Holds

theorem erase (hm : m.Holds hash xs) (hkey : hash key m.capacity < m.capacity) :
    ∃ m', m.erase hash key = .ok (xs.any (fun entry => entry.1 = key), m') ∧
      m'.Holds hash (xs.eraseP fun entry => entry.1 = key) ∧ m'.capacity = m.capacity := by
  rw [ToysMap.erase]
  simp only [hm.bucket hkey, ok_bind, eraseFrom_eq, any_inBucket]
  by_cases hany : xs.any (fun entry => entry.1 = key) = true
  · have hlength : (xs.eraseP fun entry => entry.1 = key).length = m.size - 1 := by
      rw [List.length_eraseP, if_pos hany, hm.size]
    have hset := hm.setEntries (xs.eraseP fun entry => entry.1 = key) _
      (fun entry hmem => hm.index entry (List.mem_of_mem_eraseP hmem))
      (inBucket_erase_self m.capacity xs)
      (fun j hj => inBucket_erase_other hj xs)
    rw [hlength] at hset
    rw [if_pos hany, hany]
    exact ⟨_, rfl, hset, rfl⟩
  · have hnone : xs.eraseP (fun entry => entry.1 = key) = xs := by
      rw [List.eraseP_eq_self_iff]
      intro entry hmem heq
      exact hany (List.any_eq_true.mpr ⟨entry, hmem, heq⟩)
    rw [if_neg hany, hnone, Bool.eq_false_iff.mpr hany]
    exact ⟨m, rfl, hm, rfl⟩

theorem find (hm : m.Holds hash xs) (hkey : hash key m.capacity < m.capacity) :
    m.find hash key = .ok ((xs.find? fun entry => entry.1 = key).map Prod.snd) := by
  rw [ToysMap.find, hm.bucket hkey, ok_bind, findFrom_eq, find_inBucket]

end Holds

end ToysMap

/-! ## Runs -/

/-- The operations of a map; `beyond` is what `insert` finds behind the array. -/
inductive MapOp (K V : Type)
  | insert (beyond : Nat → MapBucket K V) (key : K) (value : V)
  | erase (key : K)
  | find (key : K)
  | size

/-- What an operation returns. -/
inductive MapResult (V : Type)
  | inserted
  | erased (present : Bool)
  | found (value : Option V)
  | size (n : Nat)
deriving DecidableEq

namespace MapOp

variable {K V : Type} [DecidableEq K]

def exec (hash : K → Nat → Nat) (m : ToysMap K V) :
    MapOp K V → Except Fault (MapResult V × ToysMap K V)
  | .insert beyond key value => do
      let m ← m.insert hash beyond key value
      return (.inserted, m)
  | .erase key => do
      let (present, m) ← m.erase hash key
      return (.erased present, m)
  | .find key => do
      let value ← m.find hash key
      return (.found value, m)
  | .size => .ok (.size m.size, m)

/-- One operation after the other. -/
def execAll (hash : K → Nat → Nat) (m : ToysMap K V) :
    List (MapOp K V) → Except Fault (List (MapResult V) × ToysMap K V)
  | [] => .ok ([], m)
  | op :: ops => do
      let (result, m) ← op.exec hash m
      let (results, m) ← execAll hash m ops
      return (result :: results, m)

/-- The operation on the list of the remaining entries, the latest first, where `same` says
which keys are one key. -/
def onList (same : K → K → Prop) [DecidableRel same] (xs : List (K × V)) :
    MapOp K V → List (K × V)
  | .insert _ key value => (key, value) :: xs
  | .erase key => xs.eraseP fun entry => same entry.1 key
  | _ => xs

/-- What it returns there. -/
def result (same : K → K → Prop) [DecidableRel same] (xs : List (K × V)) :
    MapOp K V → MapResult V
  | .insert _ _ _ => .inserted
  | .erase key => .erased (xs.any fun entry => same entry.1 key)
  | .find key => .found ((xs.find? fun entry => same entry.1 key).map Prod.snd)
  | .size => .size xs.length

/-- What one operation after the other returns. -/
def results (same : K → K → Prop) [DecidableRel same] (xs : List (K × V)) :
    List (MapOp K V) → List (MapResult V)
  | [] => []
  | op :: ops => op.result same xs :: results same (op.onList same xs) ops

/-- The capacity after the operation on a map of `n` entries. -/
def capacityAfter (capacity n : Nat) : MapOp K V → Nat
  | .insert _ _ _ => if ToysMap.Grows (n + 1) capacity then ToysMap.grown capacity else capacity
  | _ => capacity

/-- The key fits the capacity, an entry with the same key has it as it is, and when the array
grows every entry keeps its bucket and null pointers lie behind the array. -/
def Safe (hash : K → Nat → Nat) (fits : K → Nat → Prop) (same : K → K → Prop)
    (capacity : Nat) (xs : List (K × V)) : MapOp K V → Prop
  | .insert beyond key value =>
      fits key capacity ∧ (ToysMap.Grows (xs.length + 1) capacity →
        (∀ entry ∈ (key, value) :: xs,
          hash entry.1 (ToysMap.grown capacity) = hash entry.1 capacity) ∧
        ∀ i < ToysMap.grown capacity - capacity, beyond i = .null)
  | .erase key => fits key capacity ∧ ∀ entry ∈ xs, same entry.1 key → entry.1 = key
  | .find key => fits key capacity ∧ ∀ entry ∈ xs, same entry.1 key → entry.1 = key
  | .size => True

/-- Each operation is safe where it is run. -/
def AllSafe (hash : K → Nat → Nat) (fits : K → Nat → Prop) (same : K → K → Prop)
    [DecidableRel same] (capacity : Nat) (xs : List (K × V)) : List (MapOp K V) → Prop
  | [] => True
  | op :: ops => op.Safe hash fits same capacity xs ∧
      AllSafe hash fits same (op.capacityAfter capacity xs.length) (op.onList same xs) ops

variable {hash : K → Nat → Nat} {fits : K → Nat → Prop} {same : K → K → Prop}
  [DecidableRel same] {m : ToysMap K V} {xs : List (K × V)} {key : K}

/-- On entries that have the key as it is, `same` is equality. -/
theorem same_congr (hrefl : ∀ key, same key key)
    (hsame : ∀ entry ∈ xs, same entry.1 key → entry.1 = key) :
    ∀ entry ∈ xs, decide (entry.1 = key) = decide (same entry.1 key) := by
  intro entry hmem
  rw [decide_eq_decide]
  constructor
  · intro heq
    rw [heq]
    exact hrefl key
  · exact hsame entry hmem

theorem exec_refines (hfits : ∀ key n, 0 < n → fits key n → hash key n < n)
    (hrefl : ∀ key, same key key) (hm : m.Holds hash xs) (op : MapOp K V)
    (hop : op.Safe hash fits same m.capacity xs) :
    ∃ m', op.exec hash m = .ok (op.result same xs, m') ∧
      m'.Holds hash (op.onList same xs) ∧ m'.capacity = op.capacityAfter m.capacity xs.length := by
  cases op with
  | insert beyond key value =>
      obtain ⟨m', hret, hm', hcap⟩ :=
        hm.insert beyond value (hfits key _ hm.pos hop.1) hop.2
      refine ⟨m', ?_, hm', hcap⟩
      rw [exec, hret]
      rfl
  | erase key =>
      obtain ⟨m', hret, hm', hcap⟩ := hm.erase (hfits key _ hm.pos hop.1)
      obtain ⟨hany, _, herase⟩ := ToysMap.search_congr (same_congr hrefl hop.2)
      rw [hany] at hret
      rw [herase] at hm'
      refine ⟨m', ?_, hm', hcap⟩
      rw [exec, hret]
      rfl
  | find key =>
      obtain ⟨_, hfind, _⟩ := ToysMap.search_congr (same_congr hrefl hop.2)
      refine ⟨m, ?_, hm, rfl⟩
      rw [exec, hm.find (hfits key _ hm.pos hop.1), hfind]
      rfl
  | size =>
      refine ⟨m, ?_, hm, rfl⟩
      rw [exec, result, hm.size]

theorem execAll_refines (hfits : ∀ key n, 0 < n → fits key n → hash key n < n)
    (hrefl : ∀ key, same key key) (hm : m.Holds hash xs) (ops : List (MapOp K V))
    (hops : AllSafe hash fits same m.capacity xs ops) :
    ∃ m', execAll hash m ops = .ok (results same xs ops, m') ∧
      m'.Holds hash (ops.foldl (onList same) xs) := by
  induction ops generalizing m xs with
  | nil => exact ⟨m, rfl, hm⟩
  | cons op ops ih =>
      obtain ⟨hop, hops⟩ := hops
      obtain ⟨m₁, hret, hm₁, hcap⟩ := exec_refines hfits hrefl hm op hop
      rw [← hcap] at hops
      obtain ⟨m', hall, hm'⟩ := ih hm₁ hops
      refine ⟨m', ?_, hm'⟩
      rw [execAll, hret, ok_bind]
      show (do
        let (results, m) ← execAll hash m₁ ops
        return (op.result same xs :: results, m)) = _
      rw [hall]
      rfl

/-- A run of safe steps from the empty map. -/
theorem run_refines (hfits : ∀ key n, 0 < n → fits key n → hash key n < n)
    (hrefl : ∀ key, same key key) (ops : List (MapOp K V))
    (hops : AllSafe hash fits same 10 [] ops) :
    ∃ m, execAll hash .new ops = .ok (results same [] ops, m) ∧
      m.size = (ops.foldl (onList same) []).length := by
  obtain ⟨m, hret, hm⟩ := execAll_refines hfits hrefl (ToysMap.holds_new hash) ops hops
  exact ⟨m, hret, hm.size⟩

end MapOp

/-- Not all bits of the capacity are in the hash. -/
def FitsSize (key : UInt64) (capacity : Nat) : Prop :=
  (djb2Size key).toNat &&& capacity ≠ capacity

theorem hashSize_lt {key : UInt64} {capacity : Nat} (hkey : FitsSize key capacity) :
    hashSize key capacity < capacity := lt_of_le_of_ne Nat.and_le_right hkey

theorem hashString_lt (strings : Nat → CStr) (key : Nat) {capacity : Nat}
    (hpos : 0 < capacity) : hashString strings key capacity < capacity := Nat.mod_lt _ hpos

/-- A run from the empty map returns what the operations on the list of the remaining entries
do, with every bucket in the array, if each step is safe: with `size_t` keys, and with
strings, whether these are told apart by their pointers, as the comparison does, or by their
characters, as the hash does. -/
theorem map_refines {V : Type} :
    (∀ ops : List (MapOp UInt64 V), MapOp.AllSafe hashSize FitsSize (· = ·) 10 [] ops →
      ∃ m, MapOp.execAll hashSize .new ops = .ok (MapOp.results (· = ·) [] ops, m) ∧
        m.size = (ops.foldl (MapOp.onList (· = ·)) []).length) ∧
    ∀ strings : Nat → CStr,
      (∀ ops : List (MapOp Nat V),
        MapOp.AllSafe (hashString strings) (fun _ _ => True) (· = ·) 10 [] ops →
        ∃ m, MapOp.execAll (hashString strings) .new ops =
            .ok (MapOp.results (· = ·) [] ops, m) ∧
          m.size = (ops.foldl (MapOp.onList (· = ·)) []).length) ∧
      ∀ ops : List (MapOp Nat V),
        MapOp.AllSafe (hashString strings) (fun _ _ => True)
          (fun p q => strings p = strings q) 10 [] ops →
        ∃ m, MapOp.execAll (hashString strings) .new ops =
            .ok (MapOp.results (fun p q => strings p = strings q) [] ops, m) ∧
          m.size = (ops.foldl (MapOp.onList fun p q => strings p = strings q) []).length := by
  have hsize : ∀ key n, 0 < n → FitsSize key n → hashSize key n < n :=
    fun _ _ _ hkey => hashSize_lt hkey
  have hstring : ∀ (strings : Nat → CStr) key n, 0 < n → True → hashString strings key n < n :=
    fun strings key _ hpos _ => hashString_lt strings key hpos
  refine ⟨fun ops hops => ?_, fun strings => ⟨fun ops hops => ?_, fun ops hops => ?_⟩⟩
  · exact MapOp.run_refines hsize (fun _ => rfl) ops hops
  · exact MapOp.run_refines (hstring strings) (fun _ => rfl) ops hops
  · refine MapOp.run_refines (hstring strings) ?_ ops hops
    exact fun _ => rfl

/-- A key is inserted twice, found and erased twice. -/
theorem map_refines_twice :
    (∃ m, MapOp.execAll hashSize .new [.insert (fun _ => .null) 3 7, .insert (fun _ => .null) 3 8,
        .find 3, .erase 3, .find 3, .erase 3, .find 3, .erase 3, .size] =
      .ok ([.inserted, .inserted, .found (some 8), .erased true, .found (some 7), .erased true,
        .found none, .erased false, .size 0], m)) ∧
    (∃ m, MapOp.execAll (hashString fun _ => [72]) .new
        [.insert (fun _ => .null) 0 7, .find 1] = .ok ([.inserted, .found none], m)) ∧
    ∃ m, MapOp.execAll (hashString fun _ => [72]) .new
        [.insert (fun _ => .null) 0 7, .find 0] = .ok ([.inserted, .found (some 7)], m) := by
  obtain ⟨hsize, hstring⟩ := map_refines (V := Nat)
  obtain ⟨hpointers, hcharacters⟩ := hstring fun _ => [72]
  refine ⟨?_, ?_, ?_⟩
  · obtain ⟨m, hret, _⟩ := hsize [.insert (fun _ => .null) 3 7, .insert (fun _ => .null) 3 8,
      .find 3, .erase 3, .find 3, .erase 3, .find 3, .erase 3, .size] (by
        have hkey : FitsSize 3 10 := by
          rw [FitsSize]
          decide
        simp [MapOp.AllSafe, MapOp.Safe, MapOp.capacityAfter, MapOp.onList, ToysMap.Grows, hkey])
    exact ⟨m, hret⟩
  · obtain ⟨m, hret, _⟩ := hpointers [.insert (fun _ => .null) 0 7, .find 1] (by
      simp [MapOp.AllSafe, MapOp.Safe, ToysMap.Grows])
    exact ⟨m, hret⟩
  · obtain ⟨m, hret, _⟩ := hcharacters [.insert (fun _ => .null) 0 7, .find 0] (by
      simp [MapOp.AllSafe, MapOp.Safe, MapOp.onList, ToysMap.Grows])
    exact ⟨m, hret⟩

/-- The key 5 has bucket 10 of 10, and a string that was inserted six times is not found: its
bucket was 5 of 10 and is 0 of 15. -/
theorem map_loses_keys :
    MapOp.execAll hashSize .new [.insert (fun _ => .null) 5 0] = .error .outOfBounds ∧
    (MapOp.execAll (hashString fun _ => [72]) .new
      (List.replicate 6 (.insert (fun _ => .null) 0 7) ++ [.find 0])).map Prod.fst =
        .ok (List.replicate 6 .inserted ++ [.found none]) := by
  decide

end Toystar.Klibc

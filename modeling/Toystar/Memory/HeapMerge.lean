import Mathlib.Data.List.Perm.Subperm
import Toystar.Memory.HeapLists
import Toystar.Verified.Buddy

/-!
# `find_buddy` and `try_to_merge`

Buddies are found by flipping bit `k` of an absolute address, so the buddy of
a block is one of its two neighbours whatever the alignment of the heap
(`xor_two_pow`).  A bucket in which no two blocks are buddies is left alone by
the whole loop, also when the position counter `i` runs one ahead of `curr`
(`mergeLoop_of_noPair`): that is what makes the loop harmless after its first
merge, since the block that `kfree` has just put at the head is the only one
that can have a buddy on its list.
-/

namespace Toystar.Memory.Heap

open Toystar.Kernel
open Toystar.Verified
open BuddyAllocator

variable {h : BuddyAllocator} {free : Nat → List Nat} {live : Set (Nat × Nat)}
  {k : Nat}

/-! ## Lists fit the iteration bound -/

/-- A free list has at most one node per smallest block of the heap. -/
theorem Shape.length_le (hs : Shape h free live) (k : Nat) :
    (free k).length ≤ 2 ^ 15 := by
  let cell : Nat → Nat := fun a => (a - h.baseAddr) / 32
  have hinj : ((free k).map cell).Nodup := by
    refine List.Nodup.map_on ?_ (hs.nodup k)
    intro a ha b hb heq
    by_contra hne
    have hA : IsBlock free live a k := .inl ha
    have hB : IsBlock free live b k := .inl hb
    have h₁ := hs.pow_ge hA
    have h₂ := (hs.bounds hA).1
    have h₃ := (hs.bounds hB).1
    have hfar := hs.far hA hB hne
    simp only [cell] at heq
    omega
  have hsub : (free k).map cell ⊆ List.range (2 ^ 15) := by
    intro c hc
    obtain ⟨a, ha, rfl⟩ := List.mem_map.mp hc
    have hA : IsBlock free live a k := .inl ha
    have h₁ := hs.pow_ge hA
    have h₂ := hs.bounds hA
    rw [List.mem_range]
    simp only [cell]
    unfold MAX_POWER at h₂
    omega
  have hle := (hinj.subperm hsub).length_le
  rwa [List.length_map, List.length_range] at hle

theorem Shape.length_lt (hs : Shape h free live) (k : Nat) :
    (free k).length < listFuel := by
  have hle := hs.length_le k
  unfold listFuel
  omega

/-! ## `find_buddy` -/

/-- Advancing `i` positions along a list of at least `i` nodes follows no null
pointer and stops at the rest of the list. -/
theorem advance_chain {xs : List Nat} :
    ∀ {i p : Nat}, Chain 0 h.next p xs → i ≤ xs.length →
      ∃ q, advance h i p = .ok q ∧ Chain 0 h.next q (xs.drop i) := by
  intro i
  induction i generalizing xs with
  | zero =>
      intro p hc _
      exact ⟨p, rfl, by simpa using hc⟩
  | succ i ih =>
      intro p hc hi
      cases xs with
      | nil => simp at hi
      | cons x xs =>
          obtain ⟨rfl, hx, hrest⟩ := hc
          obtain ⟨q, hq, hchain⟩ := ih hrest (by simpa using hi)
          refine ⟨q, ?_, by simpa using hchain⟩
          rw [advance, loadNext_of_ne hx, ok_bind, hq]

/-- The search loop finds the position of `b`, or `-1` when it is absent. -/
theorem positionFrom_chain {b : Nat} {xs : List Nat} :
    ∀ {fuel p i : Nat}, Chain 0 h.next p xs → xs.length < fuel →
      positionFrom h b fuel p i =
        .ok (if b ∈ xs then ((i + xs.idxOf b : Nat) : Int) else -1) := by
  induction xs with
  | nil =>
      intro fuel p i hc hlen
      obtain ⟨fuel, rfl⟩ := Nat.exists_eq_succ_of_ne_zero (by omega : fuel ≠ 0)
      rw [chain_nil] at hc
      simp [positionFrom, hc]
  | cons x xs ih =>
      intro fuel p i hc hlen
      obtain ⟨fuel, rfl⟩ := Nat.exists_eq_succ_of_ne_zero
        (by simp only [List.length_cons] at hlen; omega : fuel ≠ 0)
      obtain ⟨rfl, hx, hrest⟩ := hc
      simp only [List.length_cons] at hlen
      rw [positionFrom, if_neg hx]
      by_cases hpb : p = b
      · subst hpb
        simp
      · rw [if_neg hpb, loadNext_of_ne hx, ok_bind, ih hrest (by omega)]
        have hbp : b ≠ p := Ne.symm hpb
        by_cases hmem : b ∈ xs
        · simp only [hmem, if_true, List.mem_cons, or_true,
            List.idxOf_cons_ne _ hpb]
          congr 1
          push_cast
          omega
        · simp [hmem, hbp]

/-- What `find_buddy` returns on the list `xs`, for every position up to its
length. -/
theorem findBuddy_chain {xs : List Nat}
    (hchain : Chain 0 h.next (h.bucketList (MAX_POWER - k)) xs)
    (hlen : xs.length < listFuel) (hk : 5 ≤ k) (hk' : k ≤ MAX_POWER) {i : Nat}
    (hi : i ≤ xs.length) :
    findBuddy h k i = .ok (match xs[i]? with
      | none => -1
      | some x =>
          if x ^^^ 2 ^ k ∈ xs then ((xs.idxOf (x ^^^ 2 ^ k) : Nat) : Int)
          else -1) := by
  unfold findBuddy
  rw [if_neg (by unfold MIN_POWER; omega), bucket_order hk', ok_bind]
  by_cases hnil : xs = []
  · rw [if_pos (hchain.head_eq_null_iff.mpr hnil), hnil]
    simp
  · rw [if_neg (fun hz => hnil (hchain.head_eq_null_iff.mp hz))]
    obtain ⟨q, hq, hqc⟩ := advance_chain hchain hi
    rw [hq, ok_bind]
    rcases Nat.lt_or_ge i xs.length with hlt | hge
    · rw [List.drop_eq_getElem_cons hlt] at hqc
      obtain ⟨rfl, hne, _⟩ := hqc
      rw [if_neg hne, shiftOne_of_lt (by unfold MAX_POWER at hk'; omega), ok_bind,
        positionFrom_chain hchain hlen, List.getElem?_eq_getElem hlt]
      simp
    · rw [List.drop_eq_nil_of_le hge, chain_nil] at hqc
      rw [if_pos hqc, List.getElem?_eq_none hge]

/-- No two blocks of the list are buddies. -/
def NoPair (k : Nat) (xs : List Nat) : Prop := ∀ a ∈ xs, a ^^^ 2 ^ k ∉ xs

/-- Blocks of the least order are not looked at, and others have no buddy on a
list without pairs. -/
theorem findBuddy_of_noPair {xs : List Nat}
    (hchain : Chain 0 h.next (h.bucketList (MAX_POWER - k)) xs)
    (hlen : xs.length < listFuel) (hk' : k ≤ MAX_POWER)
    (hpair : MIN_POWER < k → NoPair k xs) {i : Nat} (hi : i ≤ xs.length) :
    findBuddy h k i = .ok (-1) := by
  by_cases hk : k ≤ MIN_POWER
  · unfold findBuddy
    rw [if_pos hk]
  · have hk5 : 5 ≤ k := by unfold MIN_POWER at hk; omega
    rw [findBuddy_chain hchain hlen hk5 hk' hi]
    cases hx : xs[i]? with
    | none => rfl
    | some x => simp [hpair (by omega) x (List.mem_of_getElem? hx)]

/-! ## The loop on a list without buddies -/

/-- On a list without buddies the loop changes nothing, wherever it stands
and even if `i` is one ahead of the position of `curr`. -/
theorem mergeLoop_of_noPair {xs ys : List Nat}
    (hchain : Chain 0 h.next (h.bucketList (MAX_POWER - k)) xs)
    (hlen : xs.length < listFuel) (hk' : k ≤ MAX_POWER)
    (hpair : MIN_POWER < k → NoPair k xs) :
    ∀ {fuel i q : Nat} {merged : Bool}, Chain 0 h.next q ys →
      ys.length < fuel → i + ys.length ≤ xs.length + 1 →
      mergeLoop k (MAX_POWER - k) fuel h i q merged = .ok (merged, h) := by
  induction ys with
  | nil =>
      intro fuel i q merged hc hfuel _
      obtain ⟨fuel, rfl⟩ := Nat.exists_eq_succ_of_ne_zero (by omega : fuel ≠ 0)
      rw [chain_nil] at hc
      simp [mergeLoop, hc]
  | cons y ys ih =>
      intro fuel i q merged hc hfuel hi
      simp only [List.length_cons] at hfuel hi
      obtain ⟨fuel, rfl⟩ := Nat.exists_eq_succ_of_ne_zero (by omega : fuel ≠ 0)
      obtain ⟨rfl, hy, hrest⟩ := hc
      rw [mergeLoop, if_neg hy, findBuddy_of_noPair hchain hlen hk' hpair (by omega),
        ok_bind, if_neg (by decide), loadNext_of_ne hy, ok_bind]
      exact ih hrest (by omega) (by omega)

/-! ## Relinking -/

/-- Past the removal of `curr`, the `while (buddy--)` loop only moves the slot
pointer along. -/
theorem unlinkLoop_walk {x b : Nat} {l r : List Nat} :
    ∀ {p : Slot} {q : Nat}, h.load p = q →
      Chain 0 h.next q (l ++ b :: r) → x ∉ l →
      unlinkLoop x l.length h p q = .ok (h, slotAfter p l, b) := by
  induction l with
  | nil =>
      intro p q _ hc _
      obtain ⟨rfl, _, _⟩ := hc
      rfl
  | cons w l ih =>
      intro p q hload hc hx
      obtain ⟨rfl, hw, hrest⟩ := hc
      simp only [List.mem_cons, not_or] at hx
      rw [List.length_cons, unlinkLoop, loadNext_of_ne hw, ok_bind, hload,
        if_neg (Ne.symm hx.1)]
      exact ih rfl hrest hx.2

/-- The free lists after the head of bucket `k` and its buddy were merged
into the block `m`. -/
def mergeLists (free : Nat → List Nat) (k m : Nat) (rest : List Nat) :
    Nat → List Nat :=
  Function.update (Function.update free k rest) (k + 1) (m :: free (k + 1))

/-- Storing into the slot after `l` leaves the links of other headers alone. -/
theorem next_store_slotAfter {l : List Nat} {i v y : Nat}
    (hap : ∀ w ∈ l, HeaderApart w y) :
    (h.store (slotAfter (.bucket i) l) v).next y = h.next y := by
  rcases List.eq_nil_or_concat l with rfl | ⟨l, w, rfl⟩
  · rfl
  · rw [List.concat_eq_append, slotAfter_concat]
    exact next_setNext_of_apart (hap w (by simp))

@[simp] theorem store_heapLock (p : Slot) (v : Nat) :
    (h.store p v).heapLock = h.heapLock := by
  cases p <;> rfl

@[simp] theorem store_baseAddr (p : Slot) (v : Nat) :
    (h.store p v).baseAddr = h.baseAddr := by
  cases p <;> rfl

/-- Storing into the slot after `l` writes a header of a free block at most. -/
theorem Shape.keepsLive_store {l : List Nat} {i v : Nat} (hs : Shape h free live)
    (hl : ∀ w ∈ l, w ∈ free k) :
    KeepsLive live h (h.store (slotAfter (.bucket i) l) v) := by
  rcases List.eq_nil_or_concat l with hnil | ⟨l', w, hconcat⟩
  · rw [hnil]
    exact KeepsLive.refl live h
  · rw [hconcat, List.concat_eq_append, slotAfter_concat]
    have hw : w ∈ free k := hl w (by simp [hconcat])
    have hpow := hs.pow_ge (.inl hw)
    exact hs.keepsLive_free hw (writesIn_setNext (le_refl w) (by omega))

/-- `pushMerged` on two neighbouring blocks that are on no list: the lower
one, doubled, becomes the head of the bucket above. -/
theorem Shape.pushMerged {m : Nat} (hs : Shape h free live)
    (hk : k < MAX_POWER) (hm : (m, k) ∈ live) (hm' : (m + 2 ^ k, k) ∈ live) :
    ∃ h', pushMerged h k (MAX_POWER - k) m = .ok h' ∧
      Shape h' (Function.update free (k + 1) (m :: free (k + 1)))
        (live \ {(m, k), (m + 2 ^ k, k)}) ∧
      h'.bucketList (MAX_POWER - k) = h.bucketList (MAX_POWER - k) ∧
      WritesIn m (2 ^ k) h h' ∧
      h'.heapLock = h.heapLock ∧ h'.baseAddr = h.baseAddr := by
  have hpow := hs.pow_ge (.inr hm)
  have hpred : predIndex (MAX_POWER - k) = MAX_POWER - (k + 1) := by
    unfold predIndex MAX_POWER at *
    omega
  have hjoin := hs.join hk hm hm'
  have hpush := hjoin.push (Set.mem_insert (m, k + 1) _)
  have hlive : joinLive live m k \ {(m, k + 1)} =
      live \ {(m, k), (m + 2 ^ k, k)} := by
    refine Set.insert_sdiff_self_of_notMem ?_
    rintro ⟨hmem, _⟩
    have := hs.order_eq (.inr hmem) (.inr hm)
    omega
  rw [hlive] at hpush
  refine ⟨_, ?_, hpush, ?_, ?_, rfl, rfl⟩
  · unfold Heap.pushMerged
    simp only [shiftOne_of_lt (show k + 1 < 31 by unfold MAX_POWER at hk; omega),
      ok_bind, hpred, bucket_sub]
  · exact Function.update_of_ne (by omega) _ _
  · exact (writesIn_setSize (le_refl m) (by omega)).trans
      (writesIn_setNext (le_refl m) (by omega))

/-- A block and its buddy are the two halves of one block, which begins at the lower. -/
theorem lower_buddy (x k : Nat) : ∃ m, min x (x ^^^ 2 ^ k) = m ∧
    (if x ^^^ 2 ^ k > x then x else x ^^^ 2 ^ k) = m ∧ m.testBit k = false ∧
    ∀ y, (y = m ∨ y = m + 2 ^ k) ↔ (y = x ∨ y = x ^^^ 2 ^ k) := by
  have hpos := Nat.two_pow_pos k
  rcases xor_two_pow_cases x k with ⟨hbit, hxor⟩ | ⟨hbit, hxor⟩
  · exact ⟨x, by omega, if_pos (by omega), hbit, fun y => by omega⟩
  · exact ⟨x ^^^ 2 ^ k, by omega, if_neg (by omega), by simp [hbit], fun y => by omega⟩

section Pair

variable {x b y : Nat} {l r : List Nat}

/-- The allocator after the head `x` of bucket `k` and the node `b` behind `l` left it. -/
def unlinkPair (h : BuddyAllocator) (k x b : Nat) (l : List Nat) : BuddyAllocator :=
  (h.setBucket (MAX_POWER - k) (h.next x)).store (slotAfter (.bucket (MAX_POWER - k)) l) (h.next b)

theorem Shape.pair_notMem (hs : Shape h free live) (hfree : free k = x :: (l ++ b :: r)) :
    x ∉ l ∧ b ∉ l ∧ x ≠ b := by
  have hnodup := hs.nodup k
  rw [hfree, List.nodup_cons, List.nodup_middle, List.nodup_cons, List.mem_append, List.mem_append,
    List.mem_cons] at hnodup
  grind

/-- First the walk passes `x`, which is the head, and then its slot gets to `b`. -/
theorem Shape.unlinkLoop_pair (hs : Shape h free live) (hk : k ≤ MAX_POWER)
    (hfree : free k = x :: (l ++ b :: r)) :
    unlinkLoop x (l.length + 1) h (.bucket (MAX_POWER - k)) x =
      .ok (h.setBucket (MAX_POWER - k) (h.next x), slotAfter (.bucket (MAX_POWER - k)) l, b) := by
  have hx : IsBlock free live x k := .inl (by simp [hfree])
  have hchain := hs.chains k hk
  rw [hfree] at hchain
  obtain ⟨hhead, _, hrest⟩ := hchain
  rw [unlinkLoop, loadNext_of_ne (hs.ne_zero hx), ok_bind,
    if_pos (show h.load (.bucket (MAX_POWER - k)) = x from hhead)]
  exact unlinkLoop_walk (Function.update_self _ _ _) hrest (hs.pair_notMem hfree).1

/-- Both count as live then. -/
theorem Shape.unlinkPair (hs : Shape h free live) (hfree : free k = x :: (l ++ b :: r)) :
    Shape (Heap.unlinkPair h k x b l) (Function.update free k (l ++ r))
      (insert (b, k) (insert (x, k) live)) := by
  have hfirst : Shape (h.setBucket (MAX_POWER - k) (h.next x))
      (Function.update free k (l ++ b :: r)) (insert (x, k) live) := hs.unlink (l := []) hfree
  have hsecond := hfirst.unlink (k := k) (l := l) (b := b) (r := r) (by simp)
  rw [Function.update_idem] at hsecond
  exact hsecond

theorem Shape.keepsLive_unlinkPair (hs : Shape h free live)
    (hfree : free k = x :: (l ++ b :: r)) : KeepsLive live h (Heap.unlinkPair h k x b l) := by
  have hfirst : Shape (h.setBucket (MAX_POWER - k) (h.next x))
      (Function.update free k (l ++ b :: r)) (insert (x, k) live) := hs.unlink (l := []) hfree
  have hl : ∀ w ∈ l, w ∈ Function.update free k (l ++ b :: r) k := by
    intro w hw
    rw [Function.update_self]
    exact List.mem_append_left _ hw
  exact (hfirst.keepsLive_store hl).mono (Set.subset_insert _ _)

/-- The links of the two are still there. -/
theorem Shape.unlinkPair_next (hs : Shape h free live) (hfree : free k = x :: (l ++ b :: r))
    (hy : IsBlock free live y k) (hyl : y ∉ l) :
    (Heap.unlinkPair h k x b l).next y = h.next y := by
  refine next_store_slotAfter fun w hw => ?_
  refine hs.apart (.inl (by simp [hfree, hw]) : IsBlock free live w k) hy ?_
  rintro rfl
  exact hyl hw

/-- `curr` moves to what is now the head of the bucket. -/
theorem Shape.stepPast_unlinkPair (hs : Shape h free live) (hk : k ≤ MAX_POWER)
    (hfree : free k = x :: (l ++ b :: r)) :
    stepPast (Heap.unlinkPair h k x b l) x b =
      .ok ((Heap.unlinkPair h k x b l).bucketList (MAX_POWER - k)) := by
  have hx : IsBlock free live x k := .inl (by simp [hfree])
  have hb : IsBlock free live b k := .inl (by simp [hfree])
  obtain ⟨hxl, hbl, _⟩ := hs.pair_notMem hfree
  have hchain := hs.chains k hk
  rw [hfree] at hchain
  obtain ⟨_, _, hrest⟩ := hchain
  rw [stepPast, loadNext_of_ne (hs.ne_zero hx), ok_bind, hs.unlinkPair_next hfree hx hxl]
  cases l with
  | nil =>
      obtain ⟨hnext, hbne, _⟩ := hrest
      rw [if_pos hnext, hnext, loadNext_of_ne hbne, hs.unlinkPair_next hfree hb hbl]
      simp only [Heap.unlinkPair, slotAfter, store, setBucket_bucketList, Function.update_self]
  | cons w l =>
      obtain ⟨hnext, _, _⟩ := hrest
      have hwb : h.next x ≠ b := by
        rw [hnext]
        rintro rfl
        exact hbl (by simp)
      have hslot : ∃ u, slotAfter (.bucket (MAX_POWER - k)) (w :: l) = .nextOf u := by
        rcases List.eq_nil_or_concat (w :: l) with h' | ⟨l', u, h'⟩
        · simp at h'
        · exact ⟨u, by rw [h', List.concat_eq_append, slotAfter_concat]⟩
      obtain ⟨u, hu⟩ := hslot
      rw [if_neg hwb]
      simp only [Heap.unlinkPair, hu, store, setNext_bucketList, setBucket_bucketList,
        Function.update_self]

end Pair

/-- The merge branch for the head `x` of a bucket and its buddy further down:
both leave the list, their union enters the one above, and `curr` continues
at the rest of the list. -/
theorem Shape.mergeAt {x : Nat} {l r : List Nat} (hs : Shape h free live)
    (hk : k < MAX_POWER) (hfree : free k = x :: (l ++ (x ^^^ 2 ^ k) :: r)) :
    ∃ h' curr', mergeAt h k (MAX_POWER - k) x (l.length + 1) = .ok (h', curr') ∧
      Shape h' (mergeLists free k (min x (x ^^^ 2 ^ k)) (l ++ r)) live ∧
      Chain 0 h'.next curr' (l ++ r) ∧ KeepsLive live h h' ∧
      h'.heapLock = h.heapLock ∧ h'.baseAddr = h.baseAddr := by
  have hkle : k ≤ MAX_POWER := by omega
  have hx : x ∈ free k := by simp [hfree]
  have hb : x ^^^ 2 ^ k ∈ free k := by simp [hfree]
  have hhead := hs.chains k hkle
  rw [hfree] at hhead
  -- the two leave the list
  have hs₂ := hs.unlinkPair hfree
  -- the lower of the two is pushed
  obtain ⟨m, hmin, hif, _, hpair⟩ := lower_buddy x k
  have hmem : ∀ y, y = m ∨ y = m + 2 ^ k → y ∈ free k ∧
      (y, k) ∈ insert (x ^^^ 2 ^ k, k) (insert (x, k) live) := by
    intro y hy
    rcases (hpair y).mp hy with rfl | rfl
    · exact ⟨hx, by simp⟩
    · exact ⟨hb, by simp⟩
  obtain ⟨h', hret, hs', hheads', hwrites, hlock, hbase⟩ :=
    hs₂.pushMerged hk (hmem m (.inl rfl)).2 (hmem _ (.inr rfl)).2
  have hlive : insert (x ^^^ 2 ^ k, k) (insert (x, k) live) \ {(m, k), (m + 2 ^ k, k)} =
      live := by
    have hxlive : (x, k) ∉ live := hs.exclusive hx
    have hblive : (x ^^^ 2 ^ k, k) ∉ live := hs.exclusive hb
    ext ⟨y, j⟩
    have hy := hpair y
    simp only [Set.mem_sdiff, Set.mem_insert_iff, Set.mem_singleton_iff, Prod.mk.injEq, not_or]
    grind
  rw [hlive] at hs'
  refine ⟨h', (Heap.unlinkPair h k x (x ^^^ 2 ^ k) l).bucketList (MAX_POWER - k), ?_, ?_, ?_,
    (hs.keepsLive_unlinkPair hfree).trans
      (hs.keepsLive_free (hmem m (.inl rfl)).1 hwrites), ?_, ?_⟩
  · unfold Heap.mergeAt
    rw [bucket_sub, ok_bind, hhead.1, hs.unlinkLoop_pair hkle hfree, ok_bind]
    simp only [loadNext_of_ne (hs.ne_zero (.inl hb)), ok_bind, setBucket_next]
    rw [← Heap.unlinkPair, hs.stepPast_unlinkPair hkle hfree, ok_bind, hif, hret, ok_bind]
  · rw [mergeLists, hmin]
    simpa only [Function.update_of_ne (Nat.succ_ne_self k)] using hs'
  · have hc' := hs'.chains k hkle
    rw [hheads', Function.update_of_ne (by omega), Function.update_self] at hc'
    exact hc'
  · rw [hlock, Heap.unlinkPair, store_heapLock]
    rfl
  · rw [hbase, Heap.unlinkPair, store_baseAddr]
    rfl

/-- On the blocks, a merge is a join of two buddies. -/
theorem moves_merge {x : Nat} {l r : List Nat} (hs : Shape h free live)
    (hfree : free k = x :: (l ++ (x ^^^ 2 ^ k) :: r)) :
    Moves (IsBlock free live)
      (IsBlock (mergeLists free k (min x (x ^^^ 2 ^ k)) (l ++ r)) live) := by
  have hx : x ∈ free k := by simp [hfree]
  have hb : x ^^^ 2 ^ k ∈ free k := by simp [hfree]
  have hnodup := hs.nodup k
  rw [hfree, ← List.cons_append, List.nodup_middle, List.cons_append,
    List.nodup_cons, List.nodup_cons, List.mem_cons, not_or] at hnodup
  obtain ⟨m, hm, _, hbit, hpair⟩ := lower_buddy x k
  have hlower : m ∈ free k := by
    rcases (hpair m).mp (.inl rfl) with h' | h' <;> rw [h'] <;> assumption
  have hupper : m + 2 ^ k ∈ free k := by
    rcases (hpair (m + 2 ^ k)).mp (.inr rfl) with h' | h' <;> rw [h'] <;> assumption
  rw [hm]
  refine Moves.single (.merge hbit (.inl hlower) (.inl hupper) ?_)
  intro y i
  rw [hpair]
  unfold IsBlock mergeLists
  by_cases hik : i = k + 1
  · subst hik
    simp [or_assoc]
  · rw [Function.update_of_ne hik]
    by_cases hi : i = k
    · subst hi
      have hxl : (x, i) ∉ live := hs.exclusive hx
      have hbl : (x ^^^ 2 ^ i, i) ∉ live := hs.exclusive hb
      have hne : ∀ z, (z ∈ l ++ r ∨ (z, i) ∈ live) → z ≠ x ∧ z ≠ x ^^^ 2 ^ i := by
        rintro z (hz | hz)
        · exact ⟨fun heq => hnodup.2.1 (heq ▸ hz), fun heq => hnodup.1.2 (heq ▸ hz)⟩
        · exact ⟨fun heq => hxl (heq ▸ hz), fun heq => hbl (heq ▸ hz)⟩
      have hy := hne y
      simp only [Function.update_self, hfree, List.mem_cons, List.mem_append] at hy ⊢
      grind
    · simp [hik, hi]

/-! ## `try_to_merge` -/

/-- A block without a buddy on a buddy-free list leaves it buddy-free. -/
theorem noPair_cons {x : Nat} {xs : List Nat} (hxs : NoPair k xs)
    (hx : x ^^^ 2 ^ k ∉ xs) : NoPair k (x :: xs) := by
  intro a ha hbuddy
  rcases List.mem_cons.mp ha with rfl | ha
  · rcases List.mem_cons.mp hbuddy with heq | hmem
    · exact xor_two_pow_ne a k heq
    · exact hx hmem
  · rcases List.mem_cons.mp hbuddy with heq | hmem
    · exact hx (by rwa [xor_two_pow_eq_iff.mp heq])
    · exact hxs a ha hmem

theorem NoPair.sublist {xs ys : List Nat} (hxs : NoPair k xs)
    (hsub : ys.Sublist xs) : NoPair k ys :=
  fun a ha hb => hxs a (hsub.subset ha) (hsub.subset hb)

theorem tryToMerge_eq (hk' : k ≤ MAX_POWER) :
    tryToMerge h k = mergeLoop k (MAX_POWER - k) listFuel h 0
      (h.bucketList (MAX_POWER - k)) false := by
  unfold tryToMerge
  simp only [if_neg (show ¬k > MAX_POWER by omega), indexFromOrder_of_le hk',
    bucket_sub, ok_bind]

/-- `try_to_merge` on a list without buddies: nothing changes. -/
theorem tryToMerge_of_noPair {xs : List Nat}
    (hchain : Chain 0 h.next (h.bucketList (MAX_POWER - k)) xs)
    (hlen : xs.length < listFuel) (hk' : k ≤ MAX_POWER)
    (hpair : MIN_POWER < k → NoPair k xs) : tryToMerge h k = .ok (false, h) := by
  rw [tryToMerge_eq hk']
  exact mergeLoop_of_noPair hchain hlen hk' hpair hchain hlen (by omega)

/-- `try_to_merge` when the buddy of the head is on the list: the two become
one block of the next order, and the rest of the loop finds nothing more. -/
theorem Shape.tryToMerge {x : Nat} {l r : List Nat} (hs : Shape h free live)
    (hk : k < MAX_POWER) (hfree : free k = x :: (l ++ (x ^^^ 2 ^ k) :: r))
    (hpair : NoPair k (l ++ (x ^^^ 2 ^ k) :: r)) :
    ∃ h', tryToMerge h k = .ok (true, h') ∧
      Shape h' (mergeLists free k (min x (x ^^^ 2 ^ k)) (l ++ r)) live ∧
      KeepsLive live h h' ∧ h'.heapLock = h.heapLock ∧ h'.baseAddr = h.baseAddr := by
  have hblk : IsBlock free live x k := .inl (by simp [hfree])
  have hk5 := (hs.order hblk).1
  have hlen := hs.length_le k
  have hchain := hs.chains k (by omega)
  have hnodup := hs.nodup k
  rw [hfree] at hchain hnodup hlen
  obtain ⟨h', curr', hret, hs', hcurr', hkeep, hlock, hbase⟩ := hs.mergeAt hk hfree
  have hbl : x ^^^ 2 ^ k ∉ l := by
    intro hmem
    have := (List.nodup_cons.mp (List.nodup_middle.mp (List.nodup_cons.mp hnodup).2)).1
    simp [hmem] at this
  have hfind : findBuddy h k 0 = .ok ((l.length + 1 : Nat) : Int) := by
    rw [findBuddy_chain hchain (by unfold listFuel; omega) hk5 (by omega) (Nat.zero_le _)]
    simp only [List.getElem?_cons_zero, List.mem_cons, List.mem_append, true_or,
      or_true, if_true]
    rw [List.idxOf_cons_ne _ (Ne.symm (xor_two_pow_ne x k)),
      List.idxOf_append_of_notMem hbl, List.idxOf_cons_self, Nat.add_zero]
  refine ⟨h', ?_, hs', hkeep, hlock, hbase⟩
  have hrest : mergeLists free k (min x (x ^^^ 2 ^ k)) (l ++ r) k = l ++ r := by
    rw [mergeLists, Function.update_of_ne (by omega), Function.update_self]
  rw [tryToMerge_eq (by omega), hchain.1, show listFuel = (2 ^ 15 + 1) + 1 from rfl, mergeLoop,
    if_neg (hs.ne_zero hblk), hfind, ok_bind, if_pos (Int.natCast_nonneg _),
    Int.toNat_natCast, hret, ok_bind]
  have hlen' : (l ++ r).length < 2 ^ 15 + 1 := by
    simp only [List.length_cons, List.length_append] at hlen ⊢
    omega
  have hchain' := hs'.chains k (by omega)
  rw [hrest] at hchain'
  refine mergeLoop_of_noPair hchain' ?_ (by omega) ?_ hcurr' hlen' (by omega)
  · rw [← hrest]
    exact hs'.length_lt k
  · intro _
    exact hpair.sublist (by simp)

/-! ## The upward loop of `kfree` -/

/-- No order below the top has two free buddies. -/
def Rested (free : Nat → List Nat) : Prop :=
  ∀ k < MAX_POWER, NoPair k (free k)

/-- The loop ends at the top order and where nothing was merged. -/
theorem mergeUp_of_stuck {fuel : Nat}
    (hstuck : k < MAX_POWER → tryToMerge h k = .ok (false, h)) :
    mergeUp (fuel + 1) h k = .ok h := by
  rw [Heap.mergeUp]
  split
  · rename_i hk
    rw [hstuck hk, ok_bind]
    rfl
  · rfl

/-- `while (order < MAX_POWER && try_to_merge(order++))` from a heap in which
only the head of bucket `k` may have a buddy: it returns, and no buddies are
left. -/
theorem Shape.mergeUp {x : Nat} {xs : List Nat} (hs : Shape h free live)
    (fuel : Nat) (hfuel : MAX_POWER - k < fuel) (hfree : free k = x :: xs)
    (hxs : NoPair k xs)
    (hothers : ∀ j < MAX_POWER, j ≠ k → NoPair j (free j)) :
    ∃ h' free', mergeUp fuel h k = .ok h' ∧ Shape h' free' live ∧
      Rested free' ∧ Moves (IsBlock free live) (IsBlock free' live) ∧
      KeepsLive live h h' ∧ h'.heapLock = h.heapLock ∧ h'.baseAddr = h.baseAddr := by
  induction fuel generalizing h free k x xs with
  | zero => omega
  | succ fuel ih =>
      have hk' := (hs.order (.inl (by simp [hfree]) : IsBlock free live x k)).2
      by_cases hk : k < MAX_POWER
      · by_cases hx : x ^^^ 2 ^ k ∈ xs
        · obtain ⟨l, r, rfl⟩ := List.append_of_mem hx
          obtain ⟨h₁, hret, hs₁, hkeep₁, hlock₁, hbase₁⟩ := hs.tryToMerge hk hfree hxs
          have hup : mergeLists free k (min x (x ^^^ 2 ^ k)) (l ++ r) (k + 1) =
              min x (x ^^^ 2 ^ k) :: free (k + 1) := Function.update_self _ _ _
          have hkeep : ∀ j < MAX_POWER, j ≠ k + 1 → NoPair j
              (mergeLists free k (min x (x ^^^ 2 ^ k)) (l ++ r) j) := by
            intro j hj hjk
            rw [mergeLists, Function.update_of_ne hjk]
            by_cases hjk' : j = k
            · subst hjk'
              rw [Function.update_self]
              exact hxs.sublist (by simp)
            · rw [Function.update_of_ne hjk']
              exact hothers j hj hjk'
          have htail : NoPair (k + 1) (free (k + 1)) := by
            rcases Nat.lt_or_ge (k + 1) MAX_POWER with hlt | hge
            · exact hothers (k + 1) hlt (by omega)
            · -- the bucket of order 20 is empty: a block of that order would
              -- be the whole heap
              have hnil : free (k + 1) = [] := by
                rw [List.eq_nil_iff_forall_not_mem]
                intro y hy
                have hX : IsBlock free live x k := .inl (by simp [hfree])
                have htop : k + 1 = MAX_POWER := by omega
                rw [htop] at hy
                obtain rfl := hs.eq_of_top (.inl hy) hX
                have := hs.order_eq (.inl hy) hX
                omega
              rw [hnil]
              intro a ha
              simp at ha
          obtain ⟨h', free', hret', hs', hrest, hmoves, hkeep', hlock', hbase'⟩ :=
            ih hs₁ (by omega) hup htail hkeep
          refine ⟨h', free', ?_, hs', hrest, (moves_merge hs hfree).trans hmoves,
            hkeep₁.trans hkeep', hlock'.trans hlock₁, hbase'.trans hbase₁⟩
          rw [Heap.mergeUp, if_pos hk, hret, ok_bind]
          exact hret'
        · have hpair : NoPair k (free k) := by
            rw [hfree]
            exact noPair_cons hxs hx
          refine ⟨h, free, ?_, hs, ?_, .refl, .refl live h, rfl, rfl⟩
          · apply mergeUp_of_stuck
            intro _
            exact tryToMerge_of_noPair (hs.chains k hk') (hs.length_lt k) hk' fun _ => hpair
          · intro j hj
            by_cases hjk : j = k
            · rw [hjk]
              exact hpair
            · exact hothers j hj hjk
      · refine ⟨h, free, ?_, hs, ?_, .refl, .refl live h, rfl, rfl⟩
        · exact mergeUp_of_stuck fun hlt => absurd hlt hk
        · intro j hj
          exact hothers j hj (by omega)

end Toystar.Memory.Heap

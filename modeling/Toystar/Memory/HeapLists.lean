import Toystar.Memory.HeapShape

/-!
# Moving blocks between buckets and clients

One lemma for each way a block changes hands, stated on shapes: taken out of
the middle of a bucket (`Shape.unlink`), taken from its head (`Shape.pop`), put
back at the head (`Shape.push`), and joined with its neighbour while neither
is on a list (`Shape.join`).  A block that is on no list counts as live, so
`try_to_merge` is two unlinks, a join and a push.
-/

namespace Toystar.Memory.Heap

open Toystar.Kernel
open Toystar.Verified
open BuddyAllocator

variable {h : BuddyAllocator} {free : Nat → List Nat} {live : Set (Nat × Nat)}
  {a b k : Nat} {rest l r : List Nat}

/-- Bucket heads of other orders are other array entries. -/
theorem bucketIndex_ne {j k : Nat} (hj : j ≤ MAX_POWER)
    (hk : k ≤ MAX_POWER) (hne : j ≠ k) : MAX_POWER - j ≠ MAX_POWER - k := by
  omega

/-- The lock is not part of the shape. -/
theorem Shape.setLock (hs : Shape h free live) (locked : Bool) :
    Shape { h with heapLock := locked } free live :=
  { chains := hs.chains
    nodup := hs.nodup
    order := hs.order
    size := hs.size
    exclusive := hs.exclusive
    tiles := hs.tiles
    base_pos := hs.base_pos
    base_lt := hs.base_lt }

/-- The `next` word of a live block is nobody's link. -/
theorem Shape.setNext_live (hs : Shape h free live) (hlive : (a, k) ∈ live)
    (v : Nat) : Shape (h.setNext a v) free live := by
  have hblk : IsBlock free live a k := .inr hlive
  refine
    { chains := ?_
      nodup := hs.nodup
      order := hs.order
      size := ?_
      exclusive := hs.exclusive
      tiles := hs.tiles
      base_pos := hs.base_pos
      base_lt := hs.base_lt }
  · intro j hj
    refine (hs.chains j hj).congr fun x hx => ?_
    refine next_setNext_of_apart (hs.apart hblk (.inl hx) ?_)
    rintro rfl
    obtain rfl := hs.order_eq hblk (.inl hx)
    exact hs.exclusive hx hlive
  · intro x j hx
    rw [← hs.size hx]
    by_cases hxa : x = a
    · exact size_setNext (.inl hxa.symm)
    · exact size_setNext (.inr (hs.apart hblk hx (Ne.symm hxa)))

/-! ## Out of a bucket -/

/-- The slot that holds the link to the node after `l`, on a list whose first
link is in `p`. -/
def slotAfter (p : Slot) : List Nat → Slot
  | [] => p
  | w :: l => slotAfter (.nextOf w) l

@[simp] theorem slotAfter_concat (p : Slot) (l : List Nat) (w : Nat) :
    slotAfter p (l ++ [w]) = .nextOf w := by
  induction l generalizing p with
  | nil => rfl
  | cons x l ih => exact ih (.nextOf x)

theorem isBlock_unlink (hfree : free k = l ++ b :: r) {x j : Nat} :
    IsBlock (Function.update free k (l ++ r)) (insert (b, k) live) x j ↔
      IsBlock free live x j := by
  unfold IsBlock
  by_cases hj : j = k
  · subst hj
    simp only [Function.update_self, hfree, List.mem_append, List.mem_cons,
      Set.mem_insert_iff, Prod.mk.injEq, and_true]
    tauto
  · simp [hj]

theorem blockSet_congr {free' : Nat → List Nat} {live' : Set (Nat × Nat)}
    (hiff : ∀ {x j}, IsBlock free' live' x j ↔ IsBlock free live x j) :
    blockSet free' live' = blockSet free live := by
  ext x
  simp only [blockSet, Set.mem_ofPred_eq, hiff]

/-- Redirecting the slot before `b` to the node after `b` takes `b` off its
bucket. -/
theorem Shape.unlink (hs : Shape h free live) (hfree : free k = l ++ b :: r) :
    Shape (h.store (slotAfter (.bucket (MAX_POWER - k)) l) (h.next b))
      (Function.update free k (l ++ r)) (insert (b, k) live) := by
  have hmem : b ∈ free k := by simp [hfree]
  have hk := (hs.order (.inl hmem : IsBlock free live b k)).2
  have hnodup := hs.nodup k
  have hchain := hs.chains k hk
  rw [hfree] at hnodup hchain
  have hbnot : b ∉ l ++ r :=
    (List.nodup_cons.mp (List.nodup_middle.mp hnodup)).1
  refine
    { chains := ?_
      nodup := ?_
      order := fun hx => hs.order ((isBlock_unlink hfree).mp hx)
      size := ?_
      exclusive := ?_
      tiles := ?_
      base_pos := ?_
      base_lt := ?_ }
  · intro j hj
    rcases List.eq_nil_or_concat l with rfl | ⟨l', w, rfl⟩
    · simp only [slotAfter, store, setBucket_bucketList, setBucket_next]
      by_cases hjk : j = k
      · subst hjk
        obtain ⟨_, _, hrest⟩ := hchain
        simp only [Function.update_self]
        exact hrest
      · simpa only [Function.update_of_ne hjk,
          Function.update_of_ne (bucketIndex_ne hj hk hjk)] using hs.chains j hj
    · simp only [List.concat_eq_append, slotAfter_concat, store,
        setNext_bucketList] at *
      rw [List.append_assoc, List.singleton_append] at hchain hnodup
      have hw : IsBlock free live w k := .inl (by simp [hfree])
      have hag : ∀ {x i v}, IsBlock free live x i → x ≠ w →
          (h.setNext w v).next x = h.next x :=
        fun hx hne => next_setNext_of_apart (hs.apart hw hx (Ne.symm hne))
      by_cases hjk : j = k
      · subst hjk
        rw [Function.update_self, List.append_assoc, List.singleton_append]
        refine hchain.unlink hnodup (next_setNext_self (next_lt h b)) ?_
        intro y hy
        refine hag (i := j) (.inl ?_) ?_
        · rw [hfree]
          simp only [List.mem_append, List.mem_cons] at hy ⊢
          tauto
        · rintro rfl
          have hnd := List.nodup_middle.mp hnodup
          simp only [List.nodup_cons, List.mem_append, List.mem_cons,
            not_or] at hnd hy
          tauto
      · rw [Function.update_of_ne hjk]
        refine (hs.chains j hj).congr fun x hx => hag (.inl hx) ?_
        rintro rfl
        exact hjk (hs.order_eq (.inl hx) hw)
  · intro j
    by_cases hjk : j = k
    · subst hjk
      rw [Function.update_self]
      exact (List.nodup_cons.mp (List.nodup_middle.mp hnodup)).2
    · simpa [Function.update_of_ne hjk] using hs.nodup j
  · intro x j hx
    have hx' := (isBlock_unlink hfree).mp hx
    rw [← hs.size hx']
    rcases List.eq_nil_or_concat l with rfl | ⟨l', w, rfl⟩
    · rfl
    · rw [List.concat_eq_append, slotAfter_concat]
      have hw : IsBlock free live w k := .inl (by simp [hfree])
      by_cases hxw : x = w
      · exact size_setNext (.inl hxw.symm)
      · exact size_setNext (.inr (hs.apart hw hx' (Ne.symm hxw)))
  · intro x j hx
    by_cases hjk : j = k
    · subst hjk
      rw [Function.update_self] at hx
      have hne : x ≠ b := by
        rintro rfl
        exact hbnot hx
      have hxf : x ∈ free j := by
        rw [hfree]
        simp only [List.mem_append, List.mem_cons] at hx ⊢
        tauto
      simpa [hne] using hs.exclusive hxf
    · rw [Function.update_of_ne hjk] at hx
      simpa [hjk] using hs.exclusive hx
  · rw [blockSet_congr (isBlock_unlink hfree)]
    cases slotAfter (.bucket (MAX_POWER - k)) l <;> exact hs.tiles
  · cases slotAfter (.bucket (MAX_POWER - k)) l <;> exact hs.base_pos
  · cases slotAfter (.bucket (MAX_POWER - k)) l <;> exact hs.base_lt

/-- Taking the head of a bucket makes it a live block. -/
theorem Shape.pop (hs : Shape h free live) (hfree : free k = a :: rest) :
    ∃ h', popBucket h k = .ok (a, h') ∧
      Shape h' (Function.update free k rest) (insert (a, k) live) ∧
      KeepsLive live h h' ∧ h'.heapLock = h.heapLock ∧ h'.baseAddr = h.baseAddr := by
  have hblk : IsBlock free live a k := .inl (by simp [hfree])
  have hk := (hs.order hblk).2
  have hpow := hs.pow_ge hblk
  have hchain := hs.chains k hk
  rw [hfree] at hchain
  have hkeep : KeepsLive live h
      ((h.setBucket (MAX_POWER - k) (h.next a)).setNext a 0) := by
    refine hs.keepsLive_free (a := a) (k := k) (by simp [hfree]) ?_
    exact (writesIn_setNext (h := h.setBucket _ _) (le_refl a) (by omega))
  refine ⟨(h.setBucket (MAX_POWER - k) (h.next a)).setNext a 0, ?_, ?_, hkeep, rfl, rfl⟩
  · unfold popBucket
    simp only [bucket_order hk, ok_bind, hchain.1,
      loadNext_of_ne (hs.ne_zero hblk)]
    rw [indexFromOrder_of_le hk]
  · exact (hs.unlink (l := []) hfree).setNext_live (Set.mem_insert _ _) 0

/-! ## Back onto a bucket -/

theorem isBlock_push (hlive : (a, k) ∈ live) {b j : Nat} :
    IsBlock (Function.update free k (a :: free k)) (live \ {(a, k)}) b j ↔
      IsBlock free live b j := by
  unfold IsBlock
  by_cases hj : j = k
  · subst hj
    by_cases hb : b = a
    · subst hb
      simp [hlive]
    · simp [hb]
  · simp [hj]

/-- Returning a live block puts it at the head of its bucket. -/
theorem Shape.push (hs : Shape h free live) (hlive : (a, k) ∈ live) :
    Shape ((h.setNext a (h.bucketList (MAX_POWER - k))).setBucket
        (MAX_POWER - k) a)
      (Function.update free k (a :: free k)) (live \ {(a, k)}) := by
  have hblk : IsBlock free live a k := .inr hlive
  have hk := (hs.order hblk).2
  have hnotin : ∀ j, a ∉ free j := by
    intro j hj
    obtain rfl := hs.order_eq hblk (.inl hj)
    exact hs.exclusive hj hlive
  have hnext : ∀ {b j v}, b ∈ free j → (h.setNext a v).next b = h.next b := by
    intro b j v hb
    refine next_setNext_of_apart (hs.apart hblk (.inl hb) ?_)
    rintro rfl
    exact hnotin j hb
  refine
    { chains := ?_
      nodup := ?_
      order := fun hb => hs.order ((isBlock_push hlive).mp hb)
      size := ?_
      exclusive := ?_
      tiles := ?_
      base_pos := hs.base_pos
      base_lt := hs.base_lt }
  · intro j hj
    simp only [setBucket_bucketList, setNext_bucketList]
    by_cases hjk : j = k
    · subst hjk
      simp only [Function.update_self]
      refine ⟨rfl, hs.ne_zero hblk, ?_⟩
      simp only [setBucket_next, next_setNext_self (hs.head_lt hk)]
      exact (hs.chains j hj).congr fun x hx => hnext hx
    · simp only [Function.update_of_ne hjk,
        Function.update_of_ne (bucketIndex_ne hj hk hjk)]
      exact (hs.chains j hj).congr fun x hx => hnext hx
  · intro j
    by_cases hjk : j = k
    · subst hjk
      simpa using ⟨hnotin j, hs.nodup j⟩
    · simpa [Function.update_of_ne hjk] using hs.nodup j
  · intro b j hb
    have hb' := (isBlock_push hlive).mp hb
    rw [← hs.size hb', setBucket_size]
    by_cases hba : b = a
    · exact size_setNext (.inl hba.symm)
    · exact size_setNext (.inr (hs.apart hblk hb' (Ne.symm hba)))
  · rintro b j hb ⟨hbl, hbne⟩
    by_cases hjk : j = k
    · subst hjk
      simp only [Function.update_self, List.mem_cons] at hb
      rcases hb with rfl | hb
      · exact hbne rfl
      · exact hs.exclusive hb hbl
    · rw [Function.update_of_ne hjk] at hb
      exact hs.exclusive hb hbl
  · have hset : blockSet (Function.update free k (a :: free k))
        (live \ {(a, k)}) = blockSet free live := by
      ext x
      simp only [blockSet, Set.mem_ofPred_eq, isBlock_push hlive]
    rw [hset]
    exact hs.tiles

/-! ## Joining neighbours -/

/-- The live blocks after `a` and its upper neighbour became one. -/
def joinLive (live : Set (Nat × Nat)) (a k : Nat) : Set (Nat × Nat) :=
  insert (a, k + 1) (live \ {(a, k), (a + 2 ^ k, k)})

theorem isBlock_join (hs : Shape h free live) (ha : (a, k) ∈ live)
    (hb : (a + 2 ^ k, k) ∈ live) {x j : Nat} :
    IsBlock free (joinLive live a k) x j ↔
      (x = a ∧ j = k + 1) ∨
        (IsBlock free live x j ∧ x ≠ a ∧ x ≠ a + 2 ^ k) := by
  unfold IsBlock joinLive
  have hfree : ∀ {y i}, y ∈ free i → (y, k) ∉ live := by
    intro y i hy hyl
    obtain rfl := hs.order_eq (.inl hy) (.inr hyl)
    exact hs.exclusive hy hyl
  have hliveEq : ∀ {y i}, (y, i) ∈ live → (y, k) ∈ live → i = k :=
    fun h₁ h₂ => hs.order_eq (.inr h₁) (.inr h₂)
  simp only [Set.mem_insert_iff, Set.mem_sdiff, Set.mem_singleton_iff,
    Prod.mk.injEq, not_or, not_and]
  constructor
  · rintro (hx | hx | ⟨hx, h₁, h₂⟩)
    · refine .inr ⟨.inl hx, ?_, ?_⟩ <;> rintro rfl
      · exact hfree hx ha
      · exact hfree hx hb
    · exact .inl hx
    · refine .inr ⟨.inr hx, ?_, ?_⟩ <;> rintro rfl
      · exact h₁ rfl (hliveEq hx ha)
      · exact h₂ rfl (hliveEq hx hb)
  · rintro (hx | ⟨hx | hx, h₁, h₂⟩)
    · exact .inr (.inl hx)
    · exact .inl hx
    · exact .inr (.inr ⟨hx, fun hxa => absurd hxa h₁, fun hxb => absurd hxb h₂⟩)

/-- Two neighbouring blocks of order `k` that are on no list become one block
of order `k + 1` by one write to the lower header. -/
theorem Shape.join (hs : Shape h free live) (hk : k < MAX_POWER)
    (ha : (a, k) ∈ live) (hb : (a + 2 ^ k, k) ∈ live) :
    Shape (h.setSize a (2 ^ (k + 1))) free (joinLive live a k) := by
  have hblk : IsBlock free live a k := .inr ha
  have hpow : 2 ^ (k + 1) = 2 ^ k + 2 ^ k := by rw [Nat.pow_succ]; omega
  have hord := hs.order hblk
  have hnotFree : ∀ j, a ∉ free j := by
    intro j hj
    obtain rfl := hs.order_eq hblk (.inl hj)
    exact hs.exclusive hj ha
  refine
    { chains := ?_
      nodup := hs.nodup
      order := ?_
      size := ?_
      exclusive := ?_
      tiles := ?_
      base_pos := hs.base_pos
      base_lt := hs.base_lt }
  · intro j hj
    refine (hs.chains j hj).congr fun x hx => next_setSize (.inr ?_)
    refine hs.apart hblk (.inl hx) ?_
    rintro rfl
    exact hnotFree j hx
  · intro x j hx
    rcases (isBlock_join hs ha hb).mp hx with ⟨_, rfl⟩ | ⟨hx', _⟩
    · omega
    · exact hs.order hx'
  · intro x j hx
    rcases (isBlock_join hs ha hb).mp hx with ⟨rfl, rfl⟩ | ⟨hx', hne, _⟩
    · refine size_setSize_self (Nat.pow_lt_pow_right (by omega) ?_)
      unfold MAX_POWER at hk
      omega
    · rw [← hs.size hx']
      exact size_setSize_of_apart (hs.apart hblk hx' (Ne.symm hne))
  · rintro x j hx (hxa | ⟨hxl, _⟩)
    · obtain ⟨rfl, _⟩ := Prod.ext_iff.mp hxa
      exact hnotFree j hx
    · exact hs.exclusive hx hxl
  · have hset : blockSet free (joinLive live a k) =
        insert (a, 2 ^ k + 2 ^ k)
          (blockSet free live \ {(a, 2 ^ k), (a + 2 ^ k, 2 ^ k)}) := by
      ext ⟨x, n⟩
      simp only [blockSet, Set.mem_ofPred_eq, isBlock_join hs ha hb,
        Set.mem_insert_iff, Set.mem_sdiff, Set.mem_singleton_iff,
        Prod.mk.injEq, not_or, not_and]
      constructor
      · rintro ⟨j, hn, ⟨rfl, rfl⟩ | ⟨hx, h₁, h₂⟩⟩
        · exact .inl ⟨rfl, by rw [hn, hpow]⟩
        · exact .inr ⟨⟨j, hn, hx⟩, fun hxa => absurd hxa h₁,
            fun hxb => absurd hxb h₂⟩
      · rintro (⟨rfl, rfl⟩ | ⟨⟨j, hn, hx⟩, h₁, h₂⟩)
        · exact ⟨k + 1, hpow.symm, .inl ⟨rfl, rfl⟩⟩
        · refine ⟨j, hn, .inr ⟨hx, ?_, ?_⟩⟩ <;> rintro rfl
          · obtain rfl := hs.order_eq hblk hx
            exact h₁ rfl hn
          · obtain rfl := hs.order_eq (.inr hb) hx
            exact h₂ rfl hn
    rw [hset]
    exact hs.tiles.merge (mem_blockSet hblk) (mem_blockSet (.inr hb))

end Toystar.Memory.Heap

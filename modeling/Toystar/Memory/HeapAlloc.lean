import Mathlib.Data.Nat.Find
import Toystar.Memory.HeapMerge
import Toystar.Memory.HeapSplit

/-!
# `kmalloc` and `kfree` on shapes

What the two entry points do to a well-shaped heap whose buckets hold no
buddies (`Rested`): both return, keep the heap well shaped and rested, and
move exactly one block between the free lists and the clients.  A request that
no bucket can serve returns null and leaves the lock taken.
-/

namespace Toystar.Memory.Heap

open Toystar.Kernel
open Toystar.Verified
open BuddyAllocator

variable {h : BuddyAllocator} {free : Nat → List Nat} {live : Set (Nat × Nat)}
  {k : Nat}

/-! ## The order search -/

/-- The loop stops at the least order from `order` on whose block holds
`size`. -/
theorem orderLoop_eq {size K : Nat} (hK : K < 31) (hsize : size ≤ 2 ^ K) :
    ∀ fuel order : Nat, order ≤ K → K - order < fuel →
      ∃ k, orderLoop size fuel order = .ok k ∧ order ≤ k ∧ k ≤ K ∧
        size ≤ 2 ^ k ∧ ∀ j, order ≤ j → j < k → 2 ^ j < size := by
  intro fuel
  induction fuel with
  | zero => intro order _ hf; omega
  | succ fuel ih =>
      intro order ho hf
      rw [orderLoop, shiftOne_of_lt (by omega), ok_bind]
      by_cases hlt : 2 ^ order < size
      · have hne : order ≠ K := by rintro rfl; omega
        obtain ⟨k, hret, hok, hkK, hfit, hmin⟩ :=
          ih (order + 1) (by omega) (by omega)
        refine ⟨k, by rw [if_pos hlt, hret], by omega, hkK, hfit, ?_⟩
        intro j hj hjk
        rcases Nat.eq_or_lt_of_le hj with rfl | hj
        · exact hlt
        · exact hmin j hj hjk
      · exact ⟨order, by rw [if_neg hlt], le_refl _, ho, by omega,
          fun j hj hjk => by omega⟩

/-- The orders of blocks that hold a request. -/
def orders (bytes : Nat) : Set Nat := {k | 5 ≤ k ∧ bytes + sizeofBlock ≤ 2 ^ k}

/-- The order `kmalloc` computes for a request that the heap can hold. -/
theorem orderOf_request {bytes : Nat} (hb : bytes + sizeofBlock ≤ 2 ^ 20) :
    ∃ k, orderOf ((bytes + sizeofBlock) % 2 ^ 64) = .ok k ∧
      IsLeast (orders bytes) k ∧ k ≤ MAX_POWER := by
  rw [Nat.mod_eq_of_lt (by omega)]
  obtain ⟨k, hret, hk4, hk20, hfit, hmin⟩ :=
    orderLoop_eq (K := 20) (by omega) hb 29 4 (by omega) (by omega)
  have hk5 : 5 ≤ k := by
    rcases Nat.eq_or_lt_of_le hk4 with heq | hlt
    · rw [← heq] at hfit
      unfold sizeofBlock at hfit
      omega
    · exact hlt
  refine ⟨k, hret, ⟨⟨hk5, hfit⟩, fun j hj => ?_⟩, hk20⟩
  by_contra hlt
  have hsmall := hmin j (by have := hj.1; omega) (by omega)
  have hfits : bytes + sizeofBlock ≤ 2 ^ j := hj.2
  omega

/-- The least order of a small request is below the top. -/
theorem le_of_isLeast_orders {bytes k K : Nat} (hk : IsLeast (orders bytes) k)
    (hK : 5 ≤ K) (hb : bytes + sizeofBlock ≤ 2 ^ K) : k ≤ K :=
  hk.2 ⟨hK, hb⟩

/-- The order `kfree` computes from a header that carries a power of two. -/
theorem orderOf_pow (hk : 4 ≤ k) (hk' : k < 31) : orderOf (2 ^ k) = .ok k := by
  obtain ⟨j, hret, _, hjk, hfit, _⟩ :=
    orderLoop_eq (K := k) hk' (le_refl (2 ^ k)) 29 4 hk (by omega)
  have hkj : k ≤ j := (Nat.pow_le_pow_iff_right (by omega)).mp hfit
  rw [orderOf, hret, Nat.le_antisymm hjk hkj]

/-! ## The split cascade -/

/-- `s` is the least order from `k` up whose bucket holds a block, and `a` is
its head. -/
structure Source (free : Nat → List Nat) (k s a : Nat) : Prop where
  le : k ≤ s
  least : ∀ i, k ≤ i → i < s → free i = []
  head : ∃ rest, free s = a :: rest

/-- The free lists after `a` was taken from bucket `s` and cut down to order
`k`: one upper half is left on each bucket between. -/
def takenLists (free : Nat → List Nat) (k s a : Nat) : Nat → List Nat :=
  fun i =>
    if i = s then (free s).tail
    else if k ≤ i ∧ i < s then [a + 2 ^ i]
    else free i

/-- The same before the block of order `k` is taken off its bucket. -/
def cutLists (free : Nat → List Nat) (k s a : Nat) : Nat → List Nat :=
  Function.update (takenLists free k s a) k (a :: takenLists free k s a k)

section Cascade

variable {a j s : Nat}

theorem takenLists_self : takenLists free k s a s = (free s).tail := if_pos rfl

theorem takenLists_between {i : Nat} (hk : k ≤ i) (his : i < s) :
    takenLists free k s a i = [a + 2 ^ i] := by
  rw [takenLists, if_neg (by omega), if_pos ⟨hk, his⟩]

theorem takenLists_other {i : Nat} (hi : i < k ∨ s < i) (hks : k ≤ s) :
    takenLists free k s a i = free i := by
  rw [takenLists, if_neg (by omega), if_neg (by omega)]

theorem cutLists_self : cutLists free k s a k = a :: takenLists free k s a k :=
  Function.update_self _ _ _

/-- Nothing was cut yet. -/
theorem cutLists_source (hhead : ∃ rest, free s = a :: rest) :
    cutLists free s s a = free := by
  obtain ⟨rest, hfree⟩ := hhead
  funext i
  by_cases his : i = s
  · subst his
    rw [cutLists_self, takenLists_self, hfree, List.tail_cons]
  · rw [cutLists, Function.update_of_ne his, takenLists, if_neg his, if_neg (by omega)]

/-- One more cut moves the block one order down and leaves its upper half. -/
theorem splitLists_cutLists (hjs : j < s) (hnil : free j = []) :
    splitLists (cutLists free (j + 1) s a) j a (takenLists free (j + 1) s a (j + 1)) =
      cutLists free j s a := by
  funext i
  unfold splitLists
  by_cases hij : i = j
  · subst hij
    rw [Function.update_self, cutLists_self, takenLists_between (le_refl i) hjs,
      cutLists, Function.update_of_ne (by omega), takenLists_other (by omega) (by omega),
      hnil]
  · rw [Function.update_of_ne hij, cutLists, Function.update_idem,
      Function.update_eq_self]
    rw [cutLists, Function.update_of_ne hij]
    unfold takenLists
    by_cases his : i = s
    · rw [if_pos his, if_pos his]
    · rw [if_neg his, if_neg his]
      by_cases hbetween : j ≤ i ∧ i < s
      · rw [if_pos (by omega), if_pos hbetween]
      · rw [if_neg (by omega), if_neg hbetween]

/-- A list of one block holds no buddies. -/
theorem noPair_singleton (k a : Nat) : NoPair k [a] := by
  intro x hx hb
  rw [List.mem_singleton] at hx hb
  exact xor_two_pow_ne x k (hb.trans hx.symm)

/-- Taking a block leaves a rested heap rested. -/
theorem Rested.taken (hr : Rested free) (k s a : Nat) :
    Rested (takenLists free k s a) := by
  intro i hi
  unfold takenLists
  by_cases his : i = s
  · rw [if_pos his, ← his]
    exact (hr i hi).sublist (List.tail_sublist _)
  · rw [if_neg his]
    split
    · exact noPair_singleton i _
    · exact hr i hi

/-- `while (--t > order) split_block(t)` carries the block at the head of
bucket `j` down to `order` through empty buckets. -/
theorem Shape.splitDown {order : Nat} (hs : Shape h (cutLists free j s a) live)
    (horder : 5 ≤ order) (hj : order ≤ j) (hjs : j ≤ s)
    (hempty : ∀ i, order ≤ i → i < s → free i = []) :
    ∃ h', splitDown order (j + 1) h = .ok h' ∧
      Shape h' (cutLists free order s a) live ∧
      Moves (IsBlock (cutLists free j s a) live)
        (IsBlock (cutLists free order s a) live) ∧
      KeepsLive live h h' ∧ h'.heapLock = h.heapLock ∧ h'.baseAddr = h.baseAddr := by
  induction j generalizing h with
  | zero => omega
  | succ j ih =>
      rcases Nat.eq_or_lt_of_le hj with heq | hlt
      · subst heq
        refine ⟨h, ?_, hs, .refl, .refl live h, rfl, rfl⟩
        rw [Heap.splitDown, if_neg (by omega)]
      · have hhead : cutLists free (j + 1) s a (j + 1) =
            a :: takenLists free (j + 1) s a (j + 1) := cutLists_self
        obtain ⟨h₁, hret, hs₁, hkeep₁, hlock₁, hbase₁⟩ := hs.split (by omega) hhead
        have hmoves₁ := moves_split hs hhead
        rw [splitLists_cutLists (by omega) (hempty j (by omega) (by omega))]
          at hs₁ hmoves₁
        obtain ⟨h', hret', hs', hmoves, hkeep', hlock', hbase'⟩ :=
          ih hs₁ (by omega) (by omega)
        refine ⟨h', ?_, hs', hmoves₁.trans hmoves, hkeep₁.trans hkeep',
          hlock'.trans hlock₁, hbase'.trans hbase₁⟩
        rw [Heap.splitDown, if_pos (by omega), hret, ok_bind]
        exact hret'

end Cascade

/-- The search loop of `kmalloc` skips empty buckets and splits the first
nonempty one. -/
theorem splitSearch_of_nonempty {T : Nat} (hs : Shape h free live)
    (hT : T ≤ MAX_POWER) {h' : BuddyAllocator}
    (hsplit : splitBlock h T = .ok (true, h')) :
    ∀ {fuel t : Nat}, t ≤ T → T - t < fuel →
      (∀ i, t ≤ i → i < T → free i = []) →
      splitSearch fuel h t = .ok (some (T + 1, h')) := by
  intro fuel
  induction fuel with
  | zero => intro t _ hf; omega
  | succ fuel ih =>
      intro t ht hf hempty
      rw [splitSearch]
      rcases Nat.eq_or_lt_of_le ht with rfl | hlt
      · rw [hsplit, ok_bind]
        rfl
      · rw [splitBlock_of_nil hs (by omega) (hempty t (le_refl _) hlt), ok_bind]
        simp only [Bool.false_eq_true, if_false]
        rw [if_neg (by omega)]
        exact ih hlt (by omega) fun i hi hiT => hempty i (by omega) hiT

/-- With every bucket from `t` up empty the loop takes the early return. -/
theorem splitSearch_of_empty (hs : Shape h free live) :
    ∀ {fuel t : Nat}, t ≤ MAX_POWER → MAX_POWER - t < fuel →
      (∀ i, t ≤ i → free i = []) → splitSearch fuel h t = .ok none := by
  intro fuel
  induction fuel with
  | zero => intro t _ hf; omega
  | succ fuel ih =>
      intro t ht hf hempty
      rw [splitSearch, splitBlock_of_nil hs ht (hempty t (le_refl _)), ok_bind]
      simp only [Bool.false_eq_true, if_false]
      by_cases hlast : t + 1 > MAX_POWER
      · rw [if_pos hlast]
      · rw [if_neg hlast]
        exact ih (by omega) (by omega) fun i hi => hempty i (by omega)

/-- Either no bucket from `k` up holds a block, or one of them is the source. -/
theorem Shape.exists_source (hs : Shape h free live) (k : Nat) :
    (∀ i, k ≤ i → free i = []) ∨ ∃ s a, s ≤ MAX_POWER ∧ Source free k s a := by
  classical
  by_cases hall : ∀ i, k ≤ i → free i = []
  · exact .inl hall
  · push Not at hall
    have hspec := Nat.find_spec hall
    have hmin := fun i (hi : i < Nat.find hall) => Nat.find_min hall hi
    generalize Nat.find hall = s at hspec hmin
    obtain ⟨hks, hne⟩ := hspec
    obtain ⟨a, rest, hfree⟩ := List.exists_cons_of_ne_nil hne
    have hsm := (hs.order (.inl (by simp [hfree]) : IsBlock free live a s)).2
    refine .inr ⟨s, a, hsm, hks, fun i hi his => ?_, rest, hfree⟩
    by_contra hne'
    exact hmin i his ⟨hi, hne'⟩

/-- With every bucket from `k` up empty, `kmalloc`'s search finds nothing. -/
theorem refill_of_empty (hs : Shape h free live) (hk : k < MAX_POWER)
    (hall : ∀ i, k ≤ i → free i = []) : refill h k = .ok none := by
  have hhead := (hs.chains k (by omega)).head_eq_null_iff
  unfold Heap.refill
  rw [bucket_order (by omega), ok_bind, if_pos (hhead.mpr (hall k (le_refl k))),
    splitSearch_of_empty hs (by omega) (by omega) fun i hi => hall i (by omega), ok_bind]

/-- `kmalloc`'s search under the lock brings the head of the source down to
bucket `k`. -/
theorem Shape.refill {s a : Nat} (hs : Shape h free live) (hk : 5 ≤ k)
    (hsource : Source free k s a) :
    ∃ h', refill h k = .ok (some h') ∧ Shape h' (cutLists free k s a) live ∧
      Moves (IsBlock free live) (IsBlock (cutLists free k s a) live) ∧
      KeepsLive live h h' ∧ h'.heapLock = h.heapLock ∧ h'.baseAddr = h.baseAddr := by
  obtain ⟨hks, hempty, hcons⟩ := hsource
  obtain ⟨rest, hfree⟩ := hcons
  have hsm := (hs.order (.inl (by simp [hfree]) : IsBlock free live a s)).2
  have hhead := (hs.chains k (by omega)).head_eq_null_iff
  have hstart := cutLists_source ⟨rest, hfree⟩
  unfold Heap.refill
  rw [bucket_order (by omega), ok_bind]
  rcases Nat.eq_or_lt_of_le hks with heq | hlt
  · subst heq
    rw [hstart]
    refine ⟨h, ?_, hs, .refl, .refl live h, rfl, rfl⟩
    rw [if_neg (fun hz => by simp [hhead.mp hz] at hfree)]
  · rw [if_pos (hhead.mpr (hempty k (le_refl k) hlt))]
    obtain ⟨j, rfl⟩ : ∃ j, s = j + 1 := ⟨s - 1, by omega⟩
    -- the block that the search cuts, and the cuts of the loop behind it
    have hs₀ := hs
    rw [← hstart] at hs₀
    have hcut : cutLists free (j + 1) (j + 1) a (j + 1) =
        a :: takenLists free (j + 1) (j + 1) a (j + 1) := cutLists_self
    obtain ⟨h₁, hret, hs₁, hkeep₁, hlock₁, hbase₁⟩ := hs₀.split (by omega) hcut
    have hmoves₁ := moves_split hs₀ hcut
    rw [splitLists_cutLists (by omega) (hempty j (by omega) (by omega))] at hs₁ hmoves₁
    rw [hstart] at hmoves₁
    obtain ⟨h', hret', hs', hmoves, hkeep', hlock', hbase'⟩ :=
      hs₁.splitDown hk (by omega) (by omega) hempty
    refine ⟨h', ?_, hs', hmoves₁.trans hmoves, hkeep₁.trans hkeep',
      hlock'.trans hlock₁, hbase'.trans hbase₁⟩
    rw [splitSearch_of_nonempty hs hsm hret (by omega) (by omega)
      fun i hi his => hempty i (by omega) his, ok_bind]
    simp only [Nat.add_sub_cancel]
    rw [hret', ok_bind]

/-! ## The two entry points -/

/-- `kmalloc` while no bucket can serve the request: null, and the lock stays
taken. -/
theorem kmalloc_of_empty {bytes : Nat} (hs : Shape h free live)
    (hlock : h.heapLock = false) (hk : IsLeast (orders bytes) k)
    (hret : orderOf ((bytes + sizeofBlock) % 2 ^ 64) = .ok k) (hk' : k < MAX_POWER)
    (hempty : ∀ i, k ≤ i → free i = []) :
    kmalloc h bytes = .ok (0, { h with heapLock := true }) ∧
      ∀ j, bytes + sizeofBlock ≤ 2 ^ j → free j = [] := by
  have hacq : Lock.acquire h.heapLock = .ok true := by rw [hlock]; rfl
  constructor
  · unfold Heap.kmalloc
    simp only [hret, ok_bind, hacq, refill_of_empty (hs.setLock true) hk' hempty]
  · intro j hj
    rcases Nat.lt_or_ge j 5 with hj5 | hj5
    · exact hs.free_eq_nil (.inl hj5)
    · exact hempty j (hk.2 ⟨hj5, hj⟩)

/-- `kmalloc` while some bucket can serve the request: the head of the source is
cut down to the least order that holds the request and taken. -/
theorem Shape.kmalloc_of_source {bytes s a : Nat} (hs : Shape h free live)
    (hlock : h.heapLock = false) (hk : IsLeast (orders bytes) k)
    (hret : orderOf ((bytes + sizeofBlock) % 2 ^ 64) = .ok k)
    (hsource : Source free k s a) :
    ∃ h', kmalloc h bytes = .ok (a + sizeofBlock, h') ∧
      Shape h' (takenLists free k s a) (insert (a, k) live) ∧
      (∀ j, (a, j) ∉ live) ∧
      Moves (IsBlock free live) (IsBlock (takenLists free k s a) (insert (a, k) live)) ∧
      KeepsLive live h h' ∧ h'.heapLock = false ∧ h'.baseAddr = h.baseAddr := by
  have hacq : Lock.acquire h.heapLock = .ok true := by rw [hlock]; rfl
  obtain ⟨h₁, hrefill, hs₁, hmoves, hkeep₁, hlock₁, hbase₁⟩ :=
    (hs.setLock true).refill hk.1.1 hsource
  obtain ⟨h₂, hpop, hs₂, hkeep₂, hlock₂, hbase₂⟩ := hs₁.pop cutLists_self
  have htaken : Function.update (cutLists free k s a) k (takenLists free k s a k) =
      takenLists free k s a := by
    rw [cutLists, Function.update_idem, Function.update_eq_self]
  have hmem : a ∈ cutLists free k s a k := by rw [cutLists_self]; simp
  have hpops : Moves (IsBlock (cutLists free k s a) live)
      (IsBlock (takenLists free k s a) (insert (a, k) live)) := by
    rw [← htaken]
    exact Moves.of_iff fun x i => isBlock_unlink (l := []) cutLists_self
  rw [htaken] at hs₂
  refine ⟨{ h₂ with heapLock := false }, ?_, hs₂.setLock false, ?_,
    hmoves.trans hpops, hkeep₁.trans hkeep₂, rfl, hbase₂.trans hbase₁⟩
  · unfold Heap.kmalloc
    simp only [hret, ok_bind, hacq, hrefill, hpop]
    rfl
  · intro j hj
    have hkj := hs₁.order_eq (.inl hmem) (.inr hj)
    subst hkj
    exact hs₁.exclusive hmem hj

/-- A request the allocator can serve or refuse: at most half the heap, or the
whole heap while it is in one piece. -/
def Askable (h : BuddyAllocator) (bytes : Nat) : Prop :=
  bytes + sizeofBlock ≤ 2 ^ 19 ∨
    (bytes + sizeofBlock ≤ 2 ^ MAX_POWER ∧ h.bucketList 0 ≠ 0)

/-- `kmalloc` on a heap whose lock is free.  Either it takes a block of the least
order that holds the request out of the free lists, or no bucket can serve the
request and it returns null with the lock taken. -/
theorem Shape.kmalloc {bytes : Nat} (hs : Shape h free live)
    (hlock : h.heapLock = false) (hask : Askable h bytes) :
    (kmalloc h bytes = .ok (0, { h with heapLock := true }) ∧
      ∀ k, bytes + sizeofBlock ≤ 2 ^ k → free k = []) ∨
    ∃ k s a h', IsLeast (orders bytes) k ∧ Source free k s a ∧
      kmalloc h bytes = .ok (a + sizeofBlock, h') ∧
      Shape h' (takenLists free k s a) (insert (a, k) live) ∧
      (∀ j, (a, j) ∉ live) ∧
      Moves (IsBlock free live) (IsBlock (takenLists free k s a) (insert (a, k) live)) ∧
      KeepsLive live h h' ∧ h'.heapLock = false ∧ h'.baseAddr = h.baseAddr := by
  have hbytes : bytes + sizeofBlock ≤ 2 ^ 20 := by
    rcases hask with hsmall | hlarge
    · omega
    · exact hlarge.1
  obtain ⟨k, hret, hk, hkm⟩ := orderOf_request hbytes
  rcases hs.exists_source k with hempty | ⟨s, a, _, hsource⟩
  · refine .inl (kmalloc_of_empty hs hlock hk hret ?_ hempty)
    rcases hask with hsmall | ⟨_, htop⟩
    · have hk19 := le_of_isLeast_orders hk (by omega) hsmall
      unfold MAX_POWER
      omega
    · -- the bucket of the top order is not empty
      have hhead := (hs.chains MAX_POWER (le_refl _)).head_eq_null_iff
      rw [Nat.sub_self] at hhead
      exact absurd (hhead.mpr (hempty MAX_POWER hkm)) htop
  · obtain ⟨h', hkmalloc⟩ := hs.kmalloc_of_source hlock hk hret hsource
    exact .inr ⟨k, s, a, h', hk, hsource, hkmalloc⟩

/-- `kfree` of a live block on a heap whose lock is free. -/
theorem Shape.kfree {a : Nat} (hs : Shape h free live) (hr : Rested free)
    (hlock : h.heapLock = false) (hlive : (a, k) ∈ live) :
    ∃ h' free', kfree h (a + sizeofBlock) = .ok h' ∧
      Shape h' free' (live \ {(a, k)}) ∧ Rested free' ∧
      Moves (IsBlock free live) (IsBlock free' (live \ {(a, k)})) ∧
      KeepsLive (live \ {(a, k)}) h h' ∧
      h'.heapLock = false ∧ h'.baseAddr = h.baseAddr := by
  have hblk : IsBlock free live a k := .inr hlive
  have hk := (hs.order hblk).2
  have hk5 := (hs.order hblk).1
  have hbounds := hs.bounds hblk
  have hpow := hs.pow_ge hblk
  have hk31 : k < 31 := by unfold MAX_POWER at hk; omega
  have hacq : Lock.acquire h.heapLock = .ok true := by rw [hlock]; rfl
  have hrange : ¬(a + sizeofBlock < h.baseAddr ∨
      a + sizeofBlock > h.baseAddr + 2 ^ MAX_POWER) := by
    unfold sizeofBlock
    omega
  have hpush := (hs.setLock true).push hlive
  have hothers : ∀ j < MAX_POWER, j ≠ k →
      NoPair j (Function.update free k (a :: free k) j) := by
    intro j hj hjk
    rw [Function.update_of_ne hjk]
    exact hr j hj
  have htail : NoPair k (free k) := by
    rcases Nat.lt_or_ge k MAX_POWER with hlt | hge
    · exact hr k hlt
    · -- an allocated block of order 20 leaves nothing to be free
      obtain rfl : k = MAX_POWER := by omega
      intro x hx
      obtain rfl := hs.eq_of_top hblk (.inl hx)
      exact absurd hlive (hs.exclusive hx)
  obtain ⟨h', free', hret, hs', hr', hmoves, hkeep, hlock', hbase'⟩ :=
    hpush.mergeUp (MAX_POWER + 1) (by omega)
      (Function.update_self k _ free) htail hothers
  have hkeep' : KeepsLive (live \ {(a, k)}) h
      ((h.setNext a (h.bucketList (MAX_POWER - k))).setBucket (MAX_POWER - k) a) :=
    hs.keepsLive hblk (writesIn_setNext (le_refl a) (by omega))
  refine ⟨{ h' with heapLock := false }, free', ?_, hs'.setLock false, hr',
    (Moves.of_iff fun x i => isBlock_push hlive).trans hmoves, hkeep'.trans hkeep,
    rfl, hbase'⟩
  unfold Heap.kfree
  have horder : orderOf (2 ^ k) = .ok k := orderOf_pow (by omega) hk31
  rw [if_neg hrange]
  simp only [Nat.add_sub_cancel, loadSize_of_ne (hs.ne_zero hblk), hs.size hblk,
    ok_bind, horder, hacq, indexFromOrder_of_le hk, bucket_sub, hret]
  rfl

end Toystar.Memory.Heap

import Toystar.Memory.HeapRun

/-!
# Requests of every size

What `kmalloc` answers, in every state that served operations reach.  With the
lock free a small request takes the head of the least sufficient bucket, cut
down to the least sufficient order (`smallest_iff`).  A request that finds
nothing returns null and keeps the lock (`failure_never_atomic`).  The size is
not checked: `safe_iff` says for which requests `kmalloc` stays inside the 17
entries of `bucketList` that are in use, refuses what it cannot serve and never
hands out too small a block.
-/

namespace Toystar.Memory.Heap

open Toystar.Kernel
open Toystar.Verified

/-! ## The buckets of a state -/

/-- `free k` is what bucket `20 - k` links to. -/
def Buckets (h : BuddyAllocator) (free : Nat → List Nat) : Prop :=
  ∀ k ≤ MAX_POWER, Chain 0 h.next (h.bucketList (MAX_POWER - k)) (free k)

/-- Some bucket holds a block that is large enough for the request. -/
def HasBlock (h : BuddyAllocator) (bytes : Nat) : Prop :=
  ∃ k ≤ MAX_POWER, bytes + sizeofBlock ≤ 2 ^ k ∧ h.bucketList (MAX_POWER - k) ≠ 0

section Reading

variable {h : BuddyAllocator} {free free' : Nat → List Nat} {live : Set (Nat × Nat)}
  {bytes k s a : Nat}

theorem Shape.eq_of_buckets (hs : Shape h free live) (hb : Buckets h free')
    (hk : k ≤ MAX_POWER) : free' k = free k :=
  (hb k hk).unique (hs.chains k hk)

theorem Shape.hasBlock_iff (hs : Shape h free live) :
    HasBlock h bytes ↔ ∃ k ≤ MAX_POWER, bytes + sizeofBlock ≤ 2 ^ k ∧ free k ≠ [] := by
  constructor
  · intro hblock
    obtain ⟨k, hk, hfit, hne⟩ := hblock
    exact ⟨k, hk, hfit, fun hnil =>
      hne ((hs.chains k hk).head_eq_null_iff.mpr hnil)⟩
  · intro hblock
    obtain ⟨k, hk, hfit, hne⟩ := hblock
    exact ⟨k, hk, hfit, fun hnull =>
      hne ((hs.chains k hk).head_eq_null_iff.mp hnull)⟩

/-- A source for the least order of the request is a block for it. -/
theorem Shape.hasBlock_of_source (hs : Shape h free live)
    (hk : IsLeast (orders bytes) k) (hsource : Source free k s a) :
    HasBlock h bytes := by
  obtain ⟨rest, hfree⟩ := hsource.head
  have hsm := (hs.order (.inl (by simp [hfree]) : IsBlock free live a s)).2
  have hfit : bytes + sizeofBlock ≤ 2 ^ k := hk.1.2
  have hle : 2 ^ k ≤ 2 ^ s := Nat.pow_le_pow_right (by omega) hsource.le
  exact hs.hasBlock_iff.mpr ⟨s, hsm, by omega, by simp [hfree]⟩

/-- The lists after a block was taken, on the orders that have a bucket. -/
theorem takenLists_congr (heq : ∀ i ≤ MAX_POWER, free' i = free i)
    (hsm : s ≤ MAX_POWER) {i : Nat} (hi : i ≤ MAX_POWER) :
    takenLists free' k s a i = takenLists free k s a i := by
  unfold takenLists
  rw [heq s hsm, heq i hi]

end Reading

/-! ## A lock that is taken -/

section Locked

variable {h : BuddyAllocator} {bytes : Nat}

/-- Without the lock `kmalloc` returns nothing. -/
theorem kmalloc_of_locked (hlock : h.heapLock = true)
    (r : Nat × BuddyAllocator) : kmalloc h bytes ≠ .ok r := by
  intro hret
  unfold kmalloc at hret
  obtain ⟨k, _, hret⟩ := bind_eq_ok.mp hret
  rw [hlock] at hret
  cases hret

/-- A pointer in the range that `kfree` accepts waits for a taken lock. -/
theorem kfree_of_locked {ptr : Nat} (hlock : h.heapLock = true)
    (hrange : ¬(ptr < h.baseAddr ∨ ptr > h.baseAddr + 2 ^ MAX_POWER))
    (h' : BuddyAllocator) : kfree h ptr ≠ .ok h' := by
  intro hret
  unfold kfree at hret
  rw [if_neg hrange] at hret
  obtain ⟨size, _, hret⟩ := bind_eq_ok.mp hret
  obtain ⟨order, _, hret⟩ := bind_eq_ok.mp hret
  obtain ⟨locked, hacq, _⟩ := bind_eq_ok.mp hret
  rw [hlock] at hacq
  cases hacq

/-- A request whose order can be computed waits for a taken lock. -/
theorem kmalloc_spin (hlock : h.heapLock = true)
    (hbytes : bytes + sizeofBlock ≤ 2 ^ 20) : kmalloc h bytes = .error .spin := by
  obtain ⟨k, horder, _⟩ := orderOf_request hbytes
  simp only [kmalloc, horder, ok_bind, hlock, Lock.acquire, error_bind]

end Locked

/-! ## Smallest sufficient order -/

/-- `kmalloc` fails iff nothing from the least sufficient order `k` up is free;
otherwise it cuts the head of the least bucket that holds a block down to order
`k` and returns it, and the buckets are those of `takenLists`. -/
def SmallestSufficient (h : BuddyAllocator) (bytes : Nat) : Prop :=
  ∀ free, Buckets h free → ∀ k, IsLeast (orders bytes) k →
    ((∃ h', kmalloc h bytes = .ok (0, h')) ↔
      ∀ i, k ≤ i → i ≤ MAX_POWER → free i = []) ∧
    ∀ s a, s ≤ MAX_POWER → Source free k s a →
      ∃ h', kmalloc h bytes = .ok (a + sizeofBlock, h') ∧ h'.size a = 2 ^ k ∧
        Buckets h' (takenLists free k s a)

section Smallest

variable {h : BuddyAllocator} {free : Nat → List Nat} {live : Set (Nat × Nat)}
  {bytes : Nat}

theorem Shape.smallest (hs : Shape h free live) (hlock : h.heapLock = false)
    (hbytes : bytes + sizeofBlock ≤ 2 ^ 19) : SmallestSufficient h bytes := by
  intro lists hlists k hk
  have heq : ∀ i ≤ MAX_POWER, lists i = free i :=
    fun i hi => hs.eq_of_buckets hlists hi
  obtain ⟨k', horder, hk', _⟩ := orderOf_request (show bytes + sizeofBlock ≤ 2 ^ 20 by omega)
  have hkk : k' = k := hk'.unique hk
  subst hkk
  have hk19 : k' ≤ 19 := le_of_isLeast_orders hk (by omega) hbytes
  have hkm : k' < MAX_POWER := by unfold MAX_POWER; omega
  have hsource : ∀ {s a}, s ≤ MAX_POWER → Source lists k' s a → Source free k' s a := by
    intro s a hsm hsrc
    refine ⟨hsrc.le, fun i hi his => ?_, ?_⟩
    · rw [← heq i (by omega)]
      exact hsrc.least i hi his
    · rw [← heq s hsm]
      exact hsrc.head
  refine ⟨⟨fun hnull => ?_, fun hempty => ?_⟩, fun s a hsm hsrc => ?_⟩
  · obtain ⟨h', hret⟩ := hnull
    rcases hs.exists_source k' with hempty | ⟨s, a, _, hsrc⟩
    · intro i hi him
      rw [heq i him]
      exact hempty i hi
    · obtain ⟨h₂, hret₂, _⟩ := hs.kmalloc_of_source hlock hk horder hsrc
      rw [hret, Except.ok.injEq, Prod.mk.injEq] at hret₂
      unfold sizeofBlock at hret₂
      omega
  · have hall : ∀ i, k' ≤ i → free i = [] := by
      intro i hi
      rcases Nat.lt_or_ge MAX_POWER i with him | him
      · exact hs.free_eq_nil (.inr him)
      · rw [← heq i him]
        exact hempty i hi him
    exact ⟨_, (kmalloc_of_empty hs hlock hk horder hkm hall).1⟩
  · obtain ⟨h', hret, hs', _⟩ := hs.kmalloc_of_source hlock hk horder (hsource hsm hsrc)
    refine ⟨h', hret, hs'.size (.inr (Set.mem_insert _ _)), fun i hi => ?_⟩
    rw [takenLists_congr heq hsm hi]
    exact hs'.chains i hi

theorem Shape.not_smallest (hs : Shape h free live) (hlock : h.heapLock = true)
    (hbytes : bytes + sizeofBlock ≤ 2 ^ 19) : ¬SmallestSufficient h bytes := by
  intro hsmall
  obtain ⟨k, _, hk, _⟩ := orderOf_request (show bytes + sizeofBlock ≤ 2 ^ 20 by omega)
  obtain ⟨hnull, hserve⟩ := hsmall free hs.chains k hk
  rcases hs.exists_source k with hempty | ⟨s, a, hsm, hsource⟩
  · obtain ⟨h', hret⟩ := hnull.mpr fun i hi _ => hempty i hi
    exact kmalloc_of_locked hlock _ hret
  · obtain ⟨h', hret, _⟩ := hserve s a hsm hsource
    exact kmalloc_of_locked hlock _ hret

end Smallest

/-- In every reachable state a request of at most half the heap is answered
smallest-sufficient-first and completely, if and only if the lock is free: a
`kmalloc` that failed earlier leaves it taken. -/
theorem smallest_iff (mem : ByteMem) (base : HeapBase) {ops : List HeapOp}
    {s : HeapState} (hrun : Run ServeStep (.boot mem base) ops s) {bytes : Nat}
    (hbytes : bytes + sizeofBlock ≤ 2 ^ 19) :
    SmallestSufficient s.heap bytes ↔ s.heap.heapLock = false := by
  obtain ⟨free, live, hr, _⟩ := (represents_boot mem base).serveRun hrun
  constructor
  · intro hsmall
    by_contra hlock
    exact hr.shape.not_smallest (by simpa using hlock) hbytes hsmall
  · intro hlock
    exact hr.shape.smallest hlock hbytes

/-- A heap at `0x3000` from which one page was taken serves the next page. -/
theorem smallest_at_3000 : ∃ s : HeapState, s.clients = [⟨0x3018, 4000⟩] ∧
    s.heap.heapLock = false ∧ SmallestSufficient s.heap 4000 := by
  have hend : (([.kmalloc 4000] : List HeapOp).foldlM HeapState.attempt
      (.boot (fun _ => 0) ⟨0x3000, by decide, by decide, by decide⟩)).map
        (fun s => (s.clients, s.heap.heapLock)) =
      some ([⟨0x3018, 4000⟩], false) := by decide +kernel
  obtain ⟨s, hs, hc⟩ := Option.map_eq_some_iff.mp hend
  have hclients : s.clients = [⟨0x3018, 4000⟩] := (Prod.ext_iff.mp hc).1
  have hlock : s.heap.heapLock = false := (Prod.ext_iff.mp hc).2
  have hrun := (Run.of_foldlM heapStep_of_attempt hs).mono HeapStep.serve
  exact ⟨s, hclients, hlock, (smallest_iff _ _ hrun (by decide)).mpr hlock⟩

/-- Two halves are taken and a third request fails; after that nothing is
answered. -/
theorem third_half_blocks : ∃ s : HeapState,
    Run ServeStep (.boot (fun _ => 0) ⟨0x3000, by decide, by decide, by decide⟩)
      [.kmalloc 0x7FFE8, .kmalloc 0x7FFE8, .kmalloc 0x7FFE8] s ∧
    8 + sizeofBlock ≤ 2 ^ 19 ∧ ¬SmallestSufficient s.heap 8 := by
  have hend : (([.kmalloc 0x7FFE8, .kmalloc 0x7FFE8, .kmalloc 0x7FFE8] :
      List HeapOp).foldlM HeapState.attempt
      (.boot (fun _ => 0) ⟨0x3000, by decide, by decide, by decide⟩)).map
        (·.heap.heapLock) = some true := by decide +kernel
  obtain ⟨s, hs, hlock⟩ := Option.map_eq_some_iff.mp hend
  have hrun := (Run.of_foldlM heapStep_of_attempt hs).mono HeapStep.serve
  obtain ⟨free, live, hr, _⟩ := (represents_boot _ _).serveRun hrun
  exact ⟨s, hrun, by decide, hr.shape.not_smallest hlock (by decide)⟩

/-! ## A request that fails -/

/-- `kmalloc` returns null, every bucket is as before and the lock is free. -/
def AtomicFailure (h : BuddyAllocator) (bytes : Nat) : Prop :=
  ∃ h', kmalloc h bytes = .ok (0, h') ∧
    (∀ free, Buckets h free → Buckets h' free) ∧ h'.heapLock = false

/-- What a request for which no block is free does: it takes the lock and
returns null, or it waits for the lock that an earlier one took. -/
theorem Shape.kmalloc_of_noBlock {h : BuddyAllocator} {free : Nat → List Nat}
    {live : Set (Nat × Nat)} {bytes : Nat} (hs : Shape h free live)
    (hbytes : bytes + sizeofBlock ≤ 2 ^ 19) (hnone : ¬HasBlock h bytes) :
    Heap.kmalloc h bytes = if h.heapLock then .error .spin
      else .ok (0, { h with heapLock := true }) := by
  cases hlock : h.heapLock with
  | true =>
      rw [if_pos rfl]
      exact kmalloc_spin hlock (by omega)
  | false =>
      rw [if_neg (by decide)]
      rcases hs.kmalloc hlock (.inl hbytes) with
        ⟨hret, _⟩ | ⟨k, t, a, h', hk, hsource, _⟩
      · exact hret
      · exact absurd (hs.hasBlock_of_source hk hsource) hnone

/-- In no reachable state does a small request that cannot be served fail
atomically: the buckets stay as they are, but the lock stays taken. -/
theorem failure_never_atomic (mem : ByteMem) (base : HeapBase) {ops : List HeapOp}
    {s : HeapState} (hrun : Run ServeStep (.boot mem base) ops s) {bytes : Nat}
    (hbytes : bytes + sizeofBlock ≤ 2 ^ 19) (hnone : ¬HasBlock s.heap bytes) :
    ¬AtomicFailure s.heap bytes ∧
      kmalloc s.heap bytes = if s.heap.heapLock then .error .spin
        else .ok (0, { s.heap with heapLock := true }) := by
  obtain ⟨free, live, hr, _⟩ := (represents_boot mem base).serveRun hrun
  have hret := hr.shape.kmalloc_of_noBlock hbytes hnone
  refine ⟨fun hatomic => ?_, hret⟩
  obtain ⟨h', hret', _, hlock'⟩ := hatomic
  rw [hret] at hret'
  split at hret'
  · cases hret'
  · cases hret'
    cases hlock'

/-- With every block taken a request for 8 bytes fails. -/
theorem failure_at_full_heap : ∃ s : HeapState, s.clients.length = 2 ∧
    ¬HasBlock s.heap 8 ∧ ¬AtomicFailure s.heap 8 ∧
      kmalloc s.heap 8 = if s.heap.heapLock then .error .spin
        else .ok (0, { s.heap with heapLock := true }) := by
  have hend : (([.kmalloc 0x7FFE8, .kmalloc 0x7FFE8] : List HeapOp).foldlM
      HeapState.attempt
      (.boot (fun _ => 0) ⟨0x3000, by decide, by decide, by decide⟩)).map
        (fun s => (s.clients.length, (List.range 21).map s.heap.bucketList)) =
      some (2, List.replicate 21 0) := by decide +kernel
  obtain ⟨s, hs, hc⟩ := Option.map_eq_some_iff.mp hend
  have hclients : s.clients.length = 2 := (Prod.ext_iff.mp hc).1
  have hheads : (List.range 21).map s.heap.bucketList = List.replicate 21 0 :=
    (Prod.ext_iff.mp hc).2
  have hnone : ¬HasBlock s.heap 8 := by
    intro hblock
    obtain ⟨k, _, _, hne⟩ := hblock
    have hmem : s.heap.bucketList (MAX_POWER - k) ∈
        (List.range 21).map s.heap.bucketList :=
      List.mem_map_of_mem (List.mem_range.mpr (by unfold MAX_POWER; omega))
    rw [hheads] at hmem
    exact hne (List.eq_of_mem_replicate hmem)
  have hrun := (Run.of_foldlM heapStep_of_attempt hs).mono HeapStep.serve
  exact ⟨s, hclients, hnone, failure_never_atomic _ _ hrun (by decide) hnone⟩

/-- The third request for half the heap returns null and keeps the lock. -/
theorem third_half_keeps_lock : ∃ s : HeapState,
    Run ServeStep (.boot (fun _ => 0) ⟨0x3000, by decide, by decide, by decide⟩)
      [.kmalloc 0x7FFE8, .kmalloc 0x7FFE8] s ∧
    0x7FFE8 + sizeofBlock ≤ 2 ^ 19 ∧ ¬HasBlock s.heap 0x7FFE8 ∧
      ¬AtomicFailure s.heap 0x7FFE8 := by
  have hend : (([.kmalloc 0x7FFE8, .kmalloc 0x7FFE8] : List HeapOp).foldlM
      HeapState.attempt
      (.boot (fun _ => 0) ⟨0x3000, by decide, by decide, by decide⟩)).map
        (fun s => (s.heap.bucketList 0, s.heap.bucketList 1,
          (kmalloc s.heap 0x7FFE8).map fun r => (r.1, r.2.heapLock))) =
      some (0, 0, .ok (0, true)) := by decide +kernel
  obtain ⟨s, hs, hc⟩ := Option.map_eq_some_iff.mp hend
  obtain ⟨htop, hc⟩ := Prod.ext_iff.mp hc
  obtain ⟨hhalf, hret⟩ := Prod.ext_iff.mp hc
  have hrun := (Run.of_foldlM heapStep_of_attempt hs).mono HeapStep.serve
  refine ⟨s, hrun, by decide, fun hblock => ?_, fun hatomic => ?_⟩
  · obtain ⟨k, hk, hfit, hne⟩ := hblock
    have hk19 : 19 ≤ k := by
      by_contra hlt
      have hpow : 2 ^ k ≤ 2 ^ 18 := Nat.pow_le_pow_right (by omega) (by omega)
      unfold sizeofBlock at hfit
      omega
    obtain hk' | hk' : k = 19 ∨ k = 20 := by unfold MAX_POWER at hk; omega
    · rw [hk'] at hne
      exact hne hhalf
    · rw [hk'] at hne
      exact hne htop
  · obtain ⟨h', hret', _, hlock'⟩ := hatomic
    dsimp only at hret
    rw [hret'] at hret
    simp only [Except.map, Except.ok.injEq, Prod.mk.injEq, true_and] at hret
    rw [hret] at hlock'
    cases hlock'

/-! ## The entries of `bucketList` that a request uses -/

/-- Every `index` of `bucketList[index]` in one `split_block`, in order. -/
def splitBlockIndices (h : BuddyAllocator) (order : Nat) : List Nat :=
  if h.bucketList (indexFromOrder order) = 0 then [indexFromOrder order]
  else [indexFromOrder order, indexFromOrder order + 1]

/-- In `while (!split_block(t++)) { ... }`. -/
def splitSearchIndices : Nat → BuddyAllocator → Nat → List Nat
  | 0, _, _ => []
  | fuel + 1, h, t => splitBlockIndices h t ++
      match splitBlock h t with
      | .ok (false, h') =>
          if t + 1 > MAX_POWER then [] else splitSearchIndices fuel h' (t + 1)
      | _ => []

/-- In `while (--t > order) split_block(t);`. -/
def splitDownIndices (order : Nat) : Nat → BuddyAllocator → List Nat
  | 0, _ => []
  | t + 1, h =>
      if t > order then splitBlockIndices h t ++
        match splitBlock h t with
        | .ok (_, h') => splitDownIndices order t h'
        | .error _ => []
      else []

/-- In the block search of `kmalloc`. -/
def refillIndices (h : BuddyAllocator) (order : Nat) : List Nat :=
  indexFromOrder order ::
    if h.bucketList (indexFromOrder order) = 0 then
      splitSearchIndices (MAX_POWER + 1) h (order + 1) ++
        match splitSearch (MAX_POWER + 1) h (order + 1) with
        | .ok (some (t, h')) => splitDownIndices order (t - 1) h'
        | _ => []
    else []

/-- In `kmalloc`, which computes its `index` before it takes the lock but uses
it only afterwards. -/
def kmallocIndices (h : BuddyAllocator) (bytes : Nat) : List Nat :=
  match orderOf ((bytes + sizeofBlock) % 2 ^ 64) with
  | .error _ => []
  | .ok order =>
      if h.heapLock then []
      else refillIndices { h with heapLock := true } order ++
        match refill { h with heapLock := true } order with
        | .ok (some _) => [indexFromOrder order]
        | _ => []

section Indices

variable {h h' : BuddyAllocator} {order t i bytes k : Nat}

theorem bucket_eq_outOfBounds {e : Fault} (herr : h.bucket i = .error e) :
    bucketCount ≤ i := by
  unfold BuddyAllocator.bucket at herr
  split at herr
  · cases herr
  · omega

theorem bucket_eq_ok {v : Nat} (hret : h.bucket i = .ok v) : h.bucketList i = v := by
  unfold BuddyAllocator.bucket at hret
  split at hret
  · exact Except.ok.inj hret
  · cases hret

/-- The indices of `split_block` belong to the bucket of its order and the one
below. -/
theorem mem_splitBlockIndices (hi : i ∈ splitBlockIndices h order)
    (horder : order ≤ MAX_POWER) : i ≤ MAX_POWER - order + 1 := by
  unfold splitBlockIndices at hi
  rw [indexFromOrder_of_le horder] at hi
  split at hi
  · simp only [List.mem_cons, List.not_mem_nil, or_false] at hi
    omega
  · simp only [List.mem_cons, List.not_mem_nil, or_false] at hi
    omega

theorem mem_splitSearchIndices {fuel : Nat} (ht : 5 ≤ t) (htop : t ≤ MAX_POWER)
    (hi : i ∈ splitSearchIndices fuel h t) : i ≤ 16 := by
  induction fuel generalizing h t with
  | zero => cases hi
  | succ fuel ih =>
      rw [splitSearchIndices, List.mem_append] at hi
      rcases hi with hi | hi
      · have hle := mem_splitBlockIndices hi htop
        unfold MAX_POWER at hle
        omega
      · split at hi
        · split at hi
          · cases hi
          · exact ih (by omega) (by omega) hi
        · cases hi

theorem mem_splitDownIndices (horder : 4 ≤ order) (htop : t ≤ MAX_POWER + 1)
    (hi : i ∈ splitDownIndices order t h) : i ≤ 16 := by
  induction t generalizing h with
  | zero => cases hi
  | succ t ih =>
      rw [splitDownIndices] at hi
      split at hi
      · rw [List.mem_append] at hi
        rcases hi with hi | hi
        · have hle := mem_splitBlockIndices hi (by omega)
          unfold MAX_POWER at hle
          omega
        · split at hi
          · exact ih (by omega) hi
          · cases hi
      · cases hi

/-- The search loop hands on at most one more than the top order. -/
theorem splitSearch_le {fuel t' : Nat} (htop : t ≤ MAX_POWER)
    (hret : splitSearch fuel h t = .ok (some (t', h'))) : t' ≤ MAX_POWER + 1 := by
  induction fuel generalizing h t with
  | zero => cases hret
  | succ fuel ih =>
      rw [splitSearch] at hret
      obtain ⟨⟨split, h₁⟩, _, hret⟩ := bind_eq_ok.mp hret
      cases split with
      | true =>
          cases hret
          omega
      | false =>
          simp only [Bool.false_eq_true, if_false] at hret
          split at hret
          · cases hret
          · exact ih (by omega) hret

/-- From an order with a bucket the search stays inside the 17 entries, unless
it starts at the top with nothing there. -/
theorem mem_refillIndices (horder : 4 ≤ order) (htop : order ≤ MAX_POWER)
    (hsome : order = MAX_POWER → h.bucketList 0 ≠ 0)
    (hi : i ∈ refillIndices h order) : i ≤ 16 := by
  unfold refillIndices at hi
  rw [indexFromOrder_of_le htop, List.mem_cons] at hi
  rcases hi with hi | hi
  · unfold MAX_POWER at hi
    omega
  · split at hi
    · rename_i hnull
      have hlt : order < MAX_POWER := by
        rcases Nat.eq_or_lt_of_le htop with heq | hlt
        · rw [heq, Nat.sub_self] at hnull
          exact absurd hnull (hsome heq)
        · exact hlt
      rw [List.mem_append] at hi
      rcases hi with hi | hi
      · exact mem_splitSearchIndices (by omega) (by omega) hi
      · split at hi
        · rename_i hret
          have hle := splitSearch_le (by omega) hret
          exact mem_splitDownIndices horder (by omega) hi
        · cases hi
    · cases hi

/-! The indices account for the faults of the model: an access outside the page
of `bucketList` is one of them. -/

theorem orderOf_ne_outOfBounds (size : Nat) : orderOf size ≠ .error .outOfBounds := by
  have hloop : ∀ fuel order, orderLoop size fuel order ≠ .error .outOfBounds := by
    intro fuel
    induction fuel with
    | zero => intro order herr; cases herr
    | succ fuel ih =>
        intro order herr
        rw [orderLoop] at herr
        rcases bind_eq_error.mp herr with hbit | ⟨bit, _, herr⟩
        · exact absurd (shiftOne_eq_error hbit) (by decide)
        · split at herr
          · exact ih _ herr
          · cases herr
  exact hloop 29 4

theorem popBucket_outOfBounds (herr : popBucket h order = .error .outOfBounds) :
    bucketCount ≤ indexFromOrder order := by
  unfold popBucket at herr
  rcases bind_eq_error.mp herr with hhead | ⟨block, _, herr⟩
  · exact bucket_eq_outOfBounds hhead
  · rcases bind_eq_error.mp herr with hnext | ⟨after, _, herr⟩
    · unfold BuddyAllocator.loadNext at hnext
      split at hnext
      · cases hnext
      · cases hnext
    · cases herr

theorem splitBlock_outOfBounds (herr : splitBlock h order = .error .outOfBounds) :
    ∃ i ∈ splitBlockIndices h order, bucketCount ≤ i := by
  unfold splitBlock at herr
  split at herr
  · cases herr
  · rcases bind_eq_error.mp herr with hhead | ⟨block, hhead, herr⟩
    · refine ⟨_, ?_, bucket_eq_outOfBounds hhead⟩
      unfold splitBlockIndices
      split
      · exact List.mem_singleton_self _
      · exact List.mem_cons_self
    · split at herr
      · cases herr
      · rename_i hne
        rw [← bucket_eq_ok hhead] at hne
        have hmem : indexFromOrder order + 1 ∈ splitBlockIndices h order := by
          simp [splitBlockIndices, hne]
        rcases bind_eq_error.mp herr with hbit | ⟨bit, _, herr⟩
        · exact absurd (shiftOne_eq_error hbit) (by decide)
        · rcases bind_eq_error.mp herr with hbelow | ⟨below, _, herr⟩
          · exact ⟨_, hmem, bucket_eq_outOfBounds hbelow⟩
          · cases herr

theorem splitSearch_outOfBounds {fuel : Nat}
    (herr : splitSearch fuel h t = .error .outOfBounds) :
    ∃ i ∈ splitSearchIndices fuel h t, bucketCount ≤ i := by
  induction fuel generalizing h t with
  | zero => cases herr
  | succ fuel ih =>
      rw [splitSearch] at herr
      rw [splitSearchIndices]
      rcases bind_eq_error.mp herr with hsplit | ⟨⟨split, h₁⟩, hsplit, herr⟩
      · obtain ⟨i, hi, hge⟩ := splitBlock_outOfBounds hsplit
        exact ⟨i, List.mem_append_left _ hi, hge⟩
      · cases split with
        | true => cases herr
        | false =>
            simp only [Bool.false_eq_true, if_false] at herr
            split at herr
            · cases herr
            · rename_i htop
              obtain ⟨i, hi, hge⟩ := ih herr
              refine ⟨i, List.mem_append_right _ ?_, hge⟩
              rw [hsplit]
              simpa only [if_neg htop] using hi

theorem splitDown_outOfBounds (herr : splitDown order t h = .error .outOfBounds) :
    ∃ i ∈ splitDownIndices order t h, bucketCount ≤ i := by
  induction t generalizing h with
  | zero => cases herr
  | succ t ih =>
      rw [splitDown] at herr
      rw [splitDownIndices]
      split at herr
      · rename_i hgt
        rw [if_pos hgt]
        rcases bind_eq_error.mp herr with hsplit | ⟨⟨split, h₁⟩, hsplit, herr⟩
        · obtain ⟨i, hi, hge⟩ := splitBlock_outOfBounds hsplit
          exact ⟨i, List.mem_append_left _ hi, hge⟩
        · obtain ⟨i, hi, hge⟩ := ih herr
          refine ⟨i, List.mem_append_right _ ?_, hge⟩
          rw [hsplit]
          exact hi
      · cases herr

theorem refill_outOfBounds (herr : refill h order = .error .outOfBounds) :
    ∃ i ∈ refillIndices h order, bucketCount ≤ i := by
  unfold refill at herr
  unfold refillIndices
  rcases bind_eq_error.mp herr with hhead | ⟨head, hhead, herr⟩
  · exact ⟨_, List.mem_cons_self, bucket_eq_outOfBounds hhead⟩
  · split at herr
    · rename_i hnull
      rw [← bucket_eq_ok hhead] at hnull
      rw [if_pos hnull]
      rcases bind_eq_error.mp herr with hsearch | ⟨found, hsearch, herr⟩
      · obtain ⟨i, hi, hge⟩ := splitSearch_outOfBounds hsearch
        exact ⟨i, List.mem_cons_of_mem _ (List.mem_append_left _ hi), hge⟩
      · cases found with
        | none => cases herr
        | some found =>
            rcases bind_eq_error.mp herr with hdown | ⟨h₁, _, herr⟩
            · obtain ⟨i, hi, hge⟩ := splitDown_outOfBounds hdown
              refine ⟨i, List.mem_cons_of_mem _ (List.mem_append_right _ ?_), hge⟩
              rw [hsearch]
              exact hi
            · cases herr
    · cases herr

/-- Where `kmalloc` leaves the page of `bucketList`, one of its indices does. -/
theorem kmalloc_outOfBounds (herr : kmalloc h bytes = .error .outOfBounds) :
    ∃ i ∈ kmallocIndices h bytes, bucketCount ≤ i := by
  unfold kmalloc at herr
  unfold kmallocIndices
  rcases bind_eq_error.mp herr with horder | ⟨order, horder, herr⟩
  · exact absurd horder (orderOf_ne_outOfBounds _)
  · rw [horder]
    cases hlock : h.heapLock with
    | true =>
        rw [hlock] at herr
        cases herr
    | false =>
        rw [hlock] at herr
        simp only [Lock.acquire, ok_bind] at herr
        simp only [Bool.false_eq_true, if_false]
        rcases bind_eq_error.mp herr with hrefill | ⟨found, hrefill, herr⟩
        · obtain ⟨i, hi, hge⟩ := refill_outOfBounds hrefill
          exact ⟨i, List.mem_append_left _ hi, hge⟩
        · cases found with
          | none => cases herr
          | some h₁ =>
              rcases bind_eq_error.mp herr with hpop | ⟨r, _, herr⟩
              · refine ⟨indexFromOrder order, List.mem_append_right _ ?_, ?_⟩
                · rw [hrefill]
                  exact List.mem_singleton_self _
                · exact popBucket_outOfBounds hpop
              · cases herr

end Indices

/-! ## Which requests are safe -/

/-- `kmalloc` stays inside the entries of orders 4 to 20, returns null when no
block is large enough, and returns no block that is too small. -/
structure SafeRequest (h : BuddyAllocator) (bytes : Nat) : Prop where
  inside : ∀ i ∈ kmallocIndices h bytes, i ≤ 16
  refused : ¬HasBlock h bytes → ∃ h', kmalloc h bytes = .ok (0, h')
  holds : ∀ {ptr h'}, kmalloc h bytes = .ok (ptr, h') → ptr ≠ 0 →
    bytes + sizeofBlock ≤ h'.size (ptr - sizeofBlock)

/-- The request finds a block, or it is made with the lock free and is small, or
wraps while nothing is free. -/
def Harmless (h : BuddyAllocator) (bytes : Nat) : Prop :=
  HasBlock h bytes ∨ (h.heapLock = false ∧
    (bytes + sizeofBlock ≤ 2 ^ 19 ∨
      (2 ^ 64 ≤ bytes + sizeofBlock ∧ ∀ i ≤ MAX_POWER, h.bucketList i = 0)))

section Safe

variable {h : BuddyAllocator} {free : Nat → List Nat} {live : Set (Nat × Nat)}
  {bytes k : Nat}

theorem HasBlock.le (hblock : HasBlock h bytes) :
    bytes + sizeofBlock ≤ 2 ^ MAX_POWER := by
  obtain ⟨k, hk, hfit, _⟩ := hblock
  exact hfit.trans (Nat.pow_le_pow_right (by omega) hk)

/-- A request that finds a block is small or finds the whole heap. -/
theorem HasBlock.askable (hblock : HasBlock h bytes) : Askable h bytes := by
  by_cases hsmall : bytes + sizeofBlock ≤ 2 ^ 19
  · exact .inl hsmall
  · refine .inr ⟨hblock.le, ?_⟩
    obtain ⟨k, hk, hfit, hne⟩ := hblock
    have hk20 : k = MAX_POWER := by
      by_contra hlt
      have hpow : 2 ^ k ≤ 2 ^ 19 :=
        Nat.pow_le_pow_right (by omega) (by unfold MAX_POWER at *; omega)
      omega
    rwa [hk20, Nat.sub_self] at hne

/-- The order that `kmalloc` computes holds the size, unless it is past the
widths of `int`. -/
theorem orderOf_ok {size : Nat} (hret : orderOf size = .ok k) :
    4 ≤ k ∧ k ≤ 31 ∧ (k < 31 → size ≤ 2 ^ k) := by
  have hloop : ∀ fuel order, orderLoop size fuel order = .ok k →
      order ≤ k ∧ k ≤ 31 ∧ (k < 31 → size ≤ 2 ^ k) := by
    intro fuel
    induction fuel with
    | zero => intro order hret; cases hret
    | succ fuel ih =>
        intro order hret
        rw [orderLoop] at hret
        obtain ⟨bit, hbit, hret⟩ := bind_eq_ok.mp hret
        split at hret
        · obtain ⟨hle, hrest⟩ := ih _ hret
          exact ⟨by omega, hrest⟩
        · rename_i hfit
          cases hret
          unfold shiftOne at hbit
          split at hbit
          · cases hbit
            exact ⟨le_refl _, by omega, fun _ => by omega⟩
          · split at hbit
            · exact ⟨le_refl _, by omega, fun _ => by omega⟩
            · cases hbit
  exact hloop 29 4 hret

/-- The index of an order above the top has wrapped. -/
theorem bucket_of_large (hk : MAX_POWER < k) (hk' : k ≤ 31) :
    h.bucket (indexFromOrder k) = .error .outOfBounds := by
  unfold BuddyAllocator.bucket
  rw [if_neg]
  unfold indexFromOrder bucketCount MAX_POWER at *
  omega

/-- A request of more than half the heap that finds no block does not return. -/
theorem kmalloc_of_large (hlarge : 2 ^ 19 < bytes + sizeofBlock)
    (hlt : bytes + sizeofBlock < 2 ^ 64) (hnone : ¬HasBlock h bytes)
    (r : Nat × BuddyAllocator) : kmalloc h bytes ≠ .ok r := by
  intro hret
  unfold kmalloc at hret
  obtain ⟨k, horder, hret⟩ := bind_eq_ok.mp hret
  obtain ⟨locked, _, hret⟩ := bind_eq_ok.mp hret
  obtain ⟨found, hrefill, _⟩ := bind_eq_ok.mp hret
  rw [Nat.mod_eq_of_lt hlt] at horder
  obtain ⟨_, hk31, hfit⟩ := orderOf_ok horder
  have hk : MAX_POWER ≤ k := by
    by_contra hk
    have hfit' := hfit (by unfold MAX_POWER at hk; omega)
    have hpow : 2 ^ k ≤ 2 ^ 19 :=
      Nat.pow_le_pow_right (by omega) (by unfold MAX_POWER at hk; omega)
    omega
  unfold refill at hrefill
  obtain ⟨head, hhead, hrefill⟩ := bind_eq_ok.mp hrefill
  rcases Nat.eq_or_lt_of_le hk with heq | hgt
  · subst heq
    have hnull : h.bucketList 0 = 0 := by
      by_contra hne
      refine hnone ⟨MAX_POWER, le_refl _, hfit (by decide), ?_⟩
      rwa [Nat.sub_self]
    have hzero : head = 0 := by
      rw [← bucket_eq_ok hhead, indexFromOrder_of_le (le_refl _), Nat.sub_self]
      exact hnull
    rw [if_pos hzero] at hrefill
    obtain ⟨found', hsearch, _⟩ := bind_eq_ok.mp hrefill
    rw [splitSearch] at hsearch
    obtain ⟨split, hsplit, _⟩ := bind_eq_ok.mp hsearch
    unfold splitBlock at hsplit
    rw [if_neg (by decide)] at hsplit
    obtain ⟨block, hblock, _⟩ := bind_eq_ok.mp hsplit
    rw [bucket_of_large (Nat.lt_succ_self _) (by decide)] at hblock
    cases hblock
  · rw [bucket_of_large hgt hk31] at hhead
    cases hhead

/-- `kmalloc` returns null by the early return only, which keeps the lock and changes
nothing else. -/
theorem kmalloc_eq_null {h' : BuddyAllocator} (hret : kmalloc h bytes = .ok (0, h')) :
    h' = { h with heapLock := true } ∧
      ∃ k, orderOf ((bytes + sizeofBlock) % 2 ^ 64) = .ok k ∧
        refill { h with heapLock := true } k = .ok none := by
  unfold kmalloc at hret
  obtain ⟨k, horder, hret⟩ := bind_eq_ok.mp hret
  obtain ⟨locked, hacq, hret⟩ := bind_eq_ok.mp hret
  obtain ⟨found, hrefill, hret⟩ := bind_eq_ok.mp hret
  have hlocked : locked = true := by
    cases hlock : h.heapLock with
    | true => rw [hlock] at hacq; cases hacq
    | false => rw [hlock] at hacq; exact (Except.ok.inj hacq).symm
  rw [hlocked] at hrefill hret
  cases found with
  | none => exact ⟨(Prod.ext_iff.mp (Except.ok.inj hret)).2.symm, k, horder, hrefill⟩
  | some h₁ =>
      obtain ⟨r, _, hret⟩ := bind_eq_ok.mp hret
      have hptr := (Prod.ext_iff.mp (Except.ok.inj hret)).1
      dsimp only at hptr
      unfold sizeofBlock at hptr
      omega

/-- `split_block` on a bucket that holds a block reports success, also where the
halves are too small to be blocks. -/
theorem Shape.splitBlock_of_cons {t a : Nat} {rest : List Nat}
    (hs : Shape h free live) (hfree : free t = a :: rest) :
    ∃ h', splitBlock h t = .ok (true, h') := by
  have hblk : IsBlock free live a t := .inl (by simp [hfree])
  obtain ⟨ht5, htm⟩ := hs.order hblk
  have hchain := hs.chains t htm
  rw [hfree] at hchain
  have hbelow : ∀ g : BuddyAllocator, g.bucket (MAX_POWER - t + 1) =
      .ok (g.bucketList (MAX_POWER - t + 1)) :=
    fun g => bucket_of_lt (by unfold MAX_POWER bucketCount; omega)
  unfold splitBlock
  rw [if_neg (by unfold MIN_POWER; omega)]
  simp only [indexFromOrder_of_le htm, bucket_sub, ok_bind, hchain.1,
    if_neg (hs.ne_zero hblk), hbelow,
    shiftOne_of_lt (show t < 31 by unfold MAX_POWER at htm; omega)]
  exact ⟨_, rfl⟩

/-- A search that has a source does not end in the early return. -/
theorem Shape.refill_ne_none {s a : Nat} (hs : Shape h free live)
    (hsource : Source free k s a) : Heap.refill h k ≠ .ok none := by
  intro hret
  obtain ⟨hks, hempty, rest, hfree⟩ := hsource
  have hsm := (hs.order (.inl (by simp [hfree]) : IsBlock free live a s)).2
  unfold Heap.refill at hret
  obtain ⟨head, hhead, hret⟩ := bind_eq_ok.mp hret
  split at hret
  · rename_i hnull
    obtain ⟨found, hsearch, hret⟩ := bind_eq_ok.mp hret
    rcases Nat.eq_or_lt_of_le hks with heq | hlt
    · -- the head of bucket `k` itself is not null
      subst heq
      rw [bucket_order hsm, Except.ok.injEq] at hhead
      rw [← hhead] at hnull
      rw [(hs.chains k hsm).head_eq_null_iff.mp hnull] at hfree
      cases hfree
    · obtain ⟨h', hsplit⟩ := hs.splitBlock_of_cons hfree
      rw [splitSearch_of_nonempty hs hsm hsplit (by omega) (by omega)
        fun i hi his => hempty i (by omega) his] at hsearch
      cases hsearch
      obtain ⟨h₁, _, hret⟩ := bind_eq_ok.mp hret
      cases hret
  · cases hret

/-- A wrapped request is not refused while anything is free. -/
theorem Shape.kmalloc_wrap_ne_null (hs : Shape h free live) (hlt : bytes < 2 ^ 64)
    (hwrap : 2 ^ 64 ≤ bytes + sizeofBlock) {i : Nat} (hi : i ≤ MAX_POWER)
    (hne : h.bucketList i ≠ 0) (h' : BuddyAllocator) :
    Heap.kmalloc h bytes ≠ .ok (0, h') := by
  intro hret
  obtain ⟨_, k, horder, hrefill⟩ := kmalloc_eq_null hret
  obtain ⟨k', horder', _, hk5, _⟩ := orderLoop_eq (K := 5) (by omega)
    (show (bytes + sizeofBlock) % 2 ^ 64 ≤ 2 ^ 5 by unfold sizeofBlock at *; omega)
    29 4 (by omega) (by omega)
  have hkk : k' = k := Except.ok.inj (horder'.symm.trans horder)
  subst hkk
  rcases hs.exists_source k' with hempty | ⟨s, a, _, hsource⟩
  · have hchain := hs.chains (MAX_POWER - i) (Nat.sub_le _ _)
    rw [Nat.sub_sub_self hi] at hchain
    have hnil : free (MAX_POWER - i) = [] := by
      rcases Nat.lt_or_ge (MAX_POWER - i) 5 with hsmall | hlarge
      · exact hs.free_eq_nil (.inl hsmall)
      · exact hempty _ (by omega)
    exact hne (hchain.head_eq_null_iff.mpr hnil)
  · exact (hs.setLock true).refill_ne_none hsource hrefill

/-- A request that the allocator can serve or refuse is safe. -/
theorem Shape.safe_of_askable (hs : Shape h free live) (hlock : h.heapLock = false)
    (hask : Askable h bytes) : SafeRequest h bytes := by
  have hbytes : bytes + sizeofBlock ≤ 2 ^ 20 := by
    rcases hask with hsmall | hlarge
    · omega
    · exact hlarge.1
  obtain ⟨k, horder, hk, hkm⟩ := orderOf_request hbytes
  have hinside : ∀ i ∈ kmallocIndices h bytes, i ≤ 16 := by
    intro i hi
    unfold kmallocIndices at hi
    simp only [horder, hlock, Bool.false_eq_true, if_false, List.mem_append] at hi
    rcases hi with hi | hi
    · refine mem_refillIndices (by have := hk.1.1; omega) hkm (fun hktop => ?_) hi
      rcases hask with hsmall | hlarge
      · have hk19 := le_of_isLeast_orders hk (by omega) hsmall
        unfold MAX_POWER at hktop
        omega
      · exact hlarge.2
    · split at hi
      · rw [List.mem_singleton, indexFromOrder_of_le hkm] at hi
        have hk5 : 5 ≤ k := hk.1.1
        unfold MAX_POWER at hi
        omega
      · cases hi
  rcases hs.kmalloc hlock hask with
    ⟨hret, _⟩ | ⟨k', s, a, h', hk', hsource, hret, hs', _⟩
  · refine ⟨hinside, fun _ => ⟨_, hret⟩, fun hret' hne => ?_⟩
    rw [hret, Except.ok.injEq, Prod.mk.injEq] at hret'
    exact absurd hret'.1.symm hne
  · refine ⟨hinside, fun hnone => ?_, fun hret' _ => ?_⟩
    · exact absurd (hs.hasBlock_of_source hk' hsource) hnone
    · rw [hret, Except.ok.injEq, Prod.mk.injEq] at hret'
      rw [← hret'.1, ← hret'.2, Nat.add_sub_cancel,
        hs'.size (.inr (Set.mem_insert _ _))]
      exact hk'.1.2

/-- Waiting for the lock uses no bucket. -/
theorem HasBlock.safe_of_locked (hblock : HasBlock h bytes)
    (hlock : h.heapLock = true) : SafeRequest h bytes := by
  refine ⟨fun i hi => ?_, fun hnone => absurd hblock hnone, fun hret => ?_⟩
  · unfold kmallocIndices at hi
    split at hi
    · cases hi
    · simp only [hlock, if_true] at hi
      cases hi
  · exact absurd hret (kmalloc_of_locked hlock _)

/-- A wrapped request on an exhausted heap looks at its buckets and refuses. -/
theorem Represents.safe_of_wrap {base : HeapBase} {s : HeapState}
    (hr : Represents base s free live) (hlock : s.heap.heapLock = false)
    (hlt : bytes < 2 ^ 64) (hwrap : 2 ^ 64 ≤ bytes + sizeofBlock)
    (hnull : ∀ i ≤ MAX_POWER, s.heap.bucketList i = 0) : SafeRequest s.heap bytes := by
  have hret := hr.kmalloc_of_wrap hlock hlt hwrap hnull
  refine ⟨fun i hi => ?_, fun _ => ⟨_, hret⟩, fun hret' hne => ?_⟩
  · obtain ⟨_, k, horder, hrefill⟩ := kmalloc_eq_null hret
    obtain ⟨k', horder', hk4, hk5, _⟩ := orderLoop_eq (K := 5) (by omega)
      (show (bytes + sizeofBlock) % 2 ^ 64 ≤ 2 ^ 5 by unfold sizeofBlock at *; omega)
      29 4 (by omega) (by omega)
    have hkk : k' = k := Except.ok.inj (horder'.symm.trans horder)
    subst hkk
    unfold kmallocIndices at hi
    simp only [horder, hlock, hrefill, Bool.false_eq_true, if_false,
      List.append_nil] at hi
    exact mem_refillIndices hk4 (by unfold MAX_POWER; omega)
      (fun htop => by unfold MAX_POWER at htop; omega) hi
  · rw [hret, Except.ok.injEq, Prod.mk.injEq] at hret'
    exact absurd hret'.1.symm hne

theorem Represents.harmless_of_safe {base : HeapBase} {s : HeapState}
    (hr : Represents base s free live) (hlt : bytes < 2 ^ 64)
    (hsafe : SafeRequest s.heap bytes) : Harmless s.heap bytes := by
  by_contra hharm
  unfold Harmless at hharm
  push Not at hharm
  obtain ⟨hnone, hharm⟩ := hharm
  obtain ⟨h', hret⟩ := hsafe.refused hnone
  have hlock : s.heap.heapLock = false := by
    by_contra hlock
    exact kmalloc_of_locked (by simpa using hlock) _ hret
  obtain ⟨hlarge, hwrap⟩ := hharm hlock
  rcases Nat.lt_or_ge (bytes + sizeofBlock) (2 ^ 64) with hfits | hover
  · exact kmalloc_of_large hlarge hfits hnone _ hret
  · obtain ⟨i, hi, hne⟩ := hwrap hover
    exact hr.shape.kmalloc_wrap_ne_null hlt hover hi hne _ hret

end Safe

/-- In every state that served requests reach, and for every 64-bit size, a
request is safe if and only if it is harmless: larger ones leave `bucketList`,
and sizes that wrap get a block of 16 or 32 bytes. -/
theorem safe_iff (mem : ByteMem) (base : HeapBase) {ops : List HeapOp}
    {s : HeapState} (hrun : Run ServeStep (.boot mem base) ops s) {bytes : Nat}
    (hlt : bytes < 2 ^ 64) : SafeRequest s.heap bytes ↔ Harmless s.heap bytes := by
  obtain ⟨free, live, hr, _⟩ := (represents_boot mem base).serveRun hrun
  constructor
  · intro hsafe
    exact hr.harmless_of_safe hlt hsafe
  · intro hharm
    rcases hharm with hblock | ⟨hlock, hsmall | ⟨hwrap, hnull⟩⟩
    · cases hlock : s.heap.heapLock with
      | true => exact hblock.safe_of_locked hlock
      | false => exact hr.shape.safe_of_askable hlock hblock.askable
    · exact hr.shape.safe_of_askable hlock (.inl hsmall)
    · exact hr.safe_of_wrap hlock hlt hwrap hnull

/-- The whole heap, in one request to a fresh heap. -/
theorem safe_whole_heap :
    SafeRequest (HeapState.boot (fun _ => 0)
      ⟨0x3000, by decide, by decide, by decide⟩).heap 0xFFFE8 := by
  refine (safe_iff _ _ (.nil _) (by decide)).mpr (.inl ?_)
  exact ⟨MAX_POWER, le_refl _, by decide, by decide⟩

/-- On a fresh heap a request of `2 ^ 64 - 1` bytes gets a block of 32, and one of
`2 ^ 20` bytes reads `bucketList[2 ^ 64 - 1]`. -/
theorem unsafe_at_boot : ∃ s : HeapState,
    Run ServeStep (.boot (fun _ => 0) ⟨0x3000, by decide, by decide, by decide⟩) [] s ∧
    ¬SafeRequest s.heap (2 ^ 64 - 1) ∧ ¬SafeRequest s.heap (2 ^ 20) := by
  refine ⟨_, .nil _, fun hsafe => ?_, fun hsafe => ?_⟩
  · have hret : (kmalloc (HeapState.boot (fun _ => 0)
        ⟨0x3000, by decide, by decide, by decide⟩).heap (2 ^ 64 - 1)).map
          (fun r => (r.1, r.2.size (r.1 - sizeofBlock))) = .ok (0x3018, 32) := by
      decide +kernel
    cases hkmalloc : kmalloc (HeapState.boot (fun _ => 0)
        ⟨0x3000, by decide, by decide, by decide⟩).heap (2 ^ 64 - 1) with
    | error e =>
        rw [hkmalloc] at hret
        cases hret
    | ok r =>
        rw [hkmalloc] at hret
        simp only [Except.map, Except.ok.injEq, Prod.mk.injEq] at hret
        have hholds := hsafe.holds hkmalloc (by rw [hret.1]; decide)
        rw [hret.2] at hholds
        unfold sizeofBlock at hholds
        omega
  · have hused : 2 ^ 64 - 1 ∈ kmallocIndices (HeapState.boot (fun _ => 0)
        ⟨0x3000, by decide, by decide, by decide⟩).heap (2 ^ 20) := by
      decide +kernel
    have hle := hsafe.inside _ hused
    omega

end Toystar.Memory.Heap

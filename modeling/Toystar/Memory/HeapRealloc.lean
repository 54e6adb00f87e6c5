import Toystar.Memory.HeapRequest

/-!
# `krealloc`

The new block is a block of its own, so the copy meets neither the old payload
nor a header, and `kfree` of the old block leaves what was copied alone.  Two
things are not as they should be: the length of the copy is bounded by
`block->size`, which counts the header, and a null from `kmalloc` is neither
checked nor survivable, since `kfree` then waits for the lock that `kmalloc`
kept.  `krealloc_iff` says what is left.
-/

namespace Toystar.Memory.Heap

open Toystar.Kernel
open Toystar.Klibc
open Toystar.Verified

/-- `krealloc` of a client's pointer copies the payload as far as both requests
go, reads nothing behind it and frees the block; when no block is free for the
new request it returns null and the client keeps its block. -/
structure PreservesOrNothing (base : HeapBase) (s : HeapState) (c : Client)
    (bytes : Nat) : Prop where
  moved : HasBlock s.heap bytes → ∃ newPtr h',
    krealloc s.heap c.ptr bytes = .ok (newPtr, h') ∧ newPtr ≠ 0 ∧
    (∀ i < min bytes (s.heap.size c.block - sizeofBlock),
      h'.mem (newPtr + i) = s.heap.mem (c.ptr + i)) ∧
    Set.Ico c.ptr (c.ptr + copyLength bytes (s.heap.size c.block)) ⊆ s.payload c ∧
    ∃ free, Partition base
      ⟨h', ⟨newPtr, bytes⟩ :: s.clients.filter fun d => d.ptr ≠ c.ptr⟩ free
  kept : ¬HasBlock s.heap bytes → ∃ h',
    krealloc s.heap c.ptr bytes = .ok (0, h') ∧
    (∀ x ∈ s.payload c, h'.mem x = s.heap.mem x) ∧
    ∃ free, Partition base ⟨h', s.clients⟩ free

/-- After a null from `kmalloc`, `krealloc` of a pointer that it accepts does not
return: the copy follows the null, or `kfree` waits for the lock. -/
theorem krealloc_of_null {h h₁ : BuddyAllocator} {ptr bytes : Nat}
    (hrange : ¬(ptr < h.baseAddr ∨ ptr > h.baseAddr + 2 ^ MAX_POWER))
    (hnull : kmalloc h bytes = .ok (0, h₁)) (r : Nat × BuddyAllocator) :
    krealloc h ptr bytes ≠ .ok r := by
  intro hret
  have hheld := (kmalloc_eq_null hnull).1
  unfold krealloc at hret
  rw [if_neg hrange, hnull, ok_bind] at hret
  obtain ⟨size, _, hret⟩ := bind_eq_ok.mp hret
  split at hret
  · cases hret
  · obtain ⟨h', hfree, _⟩ := bind_eq_ok.mp hret
    refine kfree_of_locked ?_ ?_ h' hfree
    · rw [hheld]
    · rw [hheld]
      exact hrange

/-- With the lock taken `krealloc` waits in `kmalloc`. -/
theorem krealloc_of_locked {h : BuddyAllocator} {ptr bytes : Nat}
    (hrange : ¬(ptr < h.baseAddr ∨ ptr > h.baseAddr + 2 ^ MAX_POWER))
    (hlock : h.heapLock = true) (r : Nat × BuddyAllocator) :
    krealloc h ptr bytes ≠ .ok r := by
  intro hret
  unfold krealloc at hret
  rw [if_neg hrange] at hret
  obtain ⟨r', hkmalloc, _⟩ := bind_eq_ok.mp hret
  exact kmalloc_of_locked hlock r' hkmalloc

namespace Represents

variable {base : HeapBase} {s : HeapState} {free : Nat → List Nat}
  {live : Set (Nat × Nat)} {c : Client} {bytes : Nat}

/-- A client's pointer is in the range that `krealloc` and `kfree` accept. -/
theorem inRange (hr : Represents base s free live) (hc : c ∈ s.clients) :
    ¬(c.ptr < s.heap.baseAddr ∨ c.ptr > s.heap.baseAddr + 2 ^ MAX_POWER) := by
  obtain ⟨k, hlive, hptr, _, _⟩ := hr.block_live hc
  have hbounds := hr.shape.bounds (.inr hlive)
  have hpow := hr.shape.pow_ge (.inr hlive)
  rw [hptr]
  unfold sizeofBlock
  omega

/-- Stores into the payload of a client's block leave the heap as it was. -/
theorem setMem {mem : ByteMem} (hr : Represents base s free live)
    (hc : c ∈ s.clients) (hmem : ∀ y ∉ s.payload c, mem y = s.heap.mem y) :
    Represents base ⟨{ s.heap with mem := mem }, s.clients⟩ free live := by
  obtain ⟨k, hlive, hptr, _, hsize⟩ := hr.block_live hc
  have hshape : Shape { s.heap with mem := mem } free live := by
    refine hr.shape.setMem fun {x j} hx y hlo hhi => hmem y fun hy => ?_
    obtain ⟨hylo, hyhi⟩ := hy
    rw [hptr] at hylo
    rw [hsize] at hyhi
    unfold sizeofBlock at hylo
    by_cases hxc : x = c.block
    · omega
    · have hfar := hr.shape.far hx (.inr hlive) hxc
      have hpow := hr.shape.pow_ge hx
      omega
  exact
    { shape := hshape
      rested := hr.rested
      base_eq := hr.base_eq
      owned := hr.owned
      owner := hr.owner
      distinct := hr.distinct }

/-- Without a block for the new request `krealloc` does not return. -/
theorem krealloc_of_noBlock (hr : Represents base s free live)
    (hc : c ∈ s.clients) (hbytes : bytes + sizeofBlock ≤ 2 ^ 19)
    (hnone : ¬HasBlock s.heap bytes) (r : Nat × BuddyAllocator) :
    krealloc s.heap c.ptr bytes ≠ .ok r := by
  have hkmalloc := hr.shape.kmalloc_of_noBlock hbytes hnone
  cases hlock : s.heap.heapLock with
  | true => exact krealloc_of_locked (hr.inRange hc) hlock r
  | false =>
      rw [hlock, if_neg (by decide)] at hkmalloc
      exact krealloc_of_null (hr.inRange hc) hkmalloc r

/-- The copy stays in the payload exactly when the new request fits the old
block. -/
theorem copy_inside_iff (hr : Represents base s free live) (hc : c ∈ s.clients) :
    Set.Ico c.ptr (c.ptr + copyLength bytes (s.heap.size c.block)) ⊆ s.payload c ↔
      bytes + sizeofBlock ≤ s.heap.size c.block := by
  obtain ⟨k, hlive, hptr, _, hsize⟩ := hr.block_live hc
  have hpow := hr.shape.pow_ge (.inr hlive)
  unfold copyLength HeapState.payload
  rw [hptr, hsize]
  unfold sizeofBlock
  constructor
  · intro hsub
    by_contra hlarge
    split at hsub
    · have hlast : c.block + 24 + (2 ^ k - 1) ∈
          Set.Ico (c.block + 24) (c.block + 24 + 2 ^ k) := ⟨by omega, by omega⟩
      have hlt := (hsub hlast).2
      omega
    · have hlast : c.block + 24 + (bytes - 1) ∈
          Set.Ico (c.block + 24) (c.block + 24 + bytes) := ⟨by omega, by omega⟩
      have hlt := (hsub hlast).2
      omega
  · intro hfit x hx
    rw [if_neg (by omega)] at hx
    exact ⟨hx.1, by have := hx.2; omega⟩

/-- `krealloc` with the lock free and a block for the new request, which fits the
old block. -/
theorem krealloc_moves (hr : Represents base s free live) (hc : c ∈ s.clients)
    (hlock : s.heap.heapLock = false) (hblock : HasBlock s.heap bytes)
    (hfit : bytes + sizeofBlock ≤ s.heap.size c.block) :
    ∃ newPtr h', krealloc s.heap c.ptr bytes = .ok (newPtr, h') ∧ newPtr ≠ 0 ∧
      (∀ i < bytes, h'.mem (newPtr + i) = s.heap.mem (c.ptr + i)) ∧
      ∃ free, Partition base
        ⟨h', ⟨newPtr, bytes⟩ :: s.clients.filter fun d => d.ptr ≠ c.ptr⟩ free := by
  obtain ⟨j, hlive, hptr, _, hsize⟩ := hr.block_live hc
  rw [hsize] at hfit
  rcases hr.shape.kmalloc hlock hblock.askable with
    ⟨_, hempty⟩ | ⟨k, t, a, h₁, hk, _, hkmalloc, hs₁, hnew, _, hkeep₁, hlock₁, hbase₁⟩
  · obtain ⟨i, _, hfits, hne⟩ := hr.shape.hasBlock_iff.mp hblock
    exact absurd (hempty i hfits) hne
  have hfits : bytes + sizeofBlock ≤ 2 ^ k := hk.1.2
  -- the new block is the client's own, apart from the old one
  let d : Client := ⟨a + sizeofBlock, bytes⟩
  have hr₁ : Represents base ⟨h₁, d :: s.clients⟩ (takenLists free k t a)
      (insert (a, k) live) :=
    hr.kmalloc_some hs₁ (hr.rested.taken k t a) hnew hfits hbase₁
  have hne : a ≠ c.block := by
    intro heq
    rw [← heq] at hlive
    exact hnew j hlive
  have hfar := hs₁.far (.inr (Set.mem_insert _ _)) (.inr (Set.mem_insert_of_mem _ hlive)) hne
  have hsize₁ : h₁.size c.block = 2 ^ j :=
    hs₁.size (.inr (Set.mem_insert_of_mem _ hlive))
  have hblk : d.block = a := Nat.add_sub_cancel _ _
  have hsizeNew : h₁.size a = 2 ^ k := hs₁.size (.inr (Set.mem_insert _ _))
  -- the copy
  let mem : ByteMem := memcpy h₁.mem (a + sizeofBlock) c.ptr bytes
  have hcopy : ∀ x, mem x = if a + sizeofBlock ≤ x ∧ x < a + sizeofBlock + bytes
      then h₁.mem (c.ptr + (x - (a + sizeofBlock))) else h₁.mem x := by
    intro x
    refine memcpy_apply ?_
    rw [hptr]
    omega
  have hr₂ : Represents base ⟨{ h₁ with mem := mem }, d :: s.clients⟩
      (takenLists free k t a) (insert (a, k) live) := by
    refine hr₁.setMem (c := d) List.mem_cons_self fun y hy => ?_
    rw [hcopy, if_neg]
    intro hin
    refine hy ⟨hin.1, ?_⟩
    show y < d.block + h₁.size d.block
    rw [hblk, hsizeNew]
    omega
  obtain ⟨h₃, free₃, hfree, hs₃, hrest₃, _, hkeep₃, _, hbase₃⟩ :=
    hr₂.shape.kfree hr₂.rested hlock₁ (Set.mem_insert_of_mem _ hlive)
  have hr₃ := hr₂.kfree_client (Set.mem_insert_of_mem _ hlive) hs₃ hrest₃ hbase₃
  rw [← hptr] at hfree
  have hlength : copyLength bytes (h₁.size c.block) = bytes := by
    rw [hsize₁, copyLength, if_neg (by omega)]
  have hnull : a + sizeofBlock ≠ 0 := by simp [sizeofBlock]
  refine ⟨a + sizeofBlock, h₃, ?_, hnull, fun i hi => ?_, free₃, ?_⟩
  · unfold krealloc
    rw [if_neg (hr.inRange hc), hkmalloc, ok_bind]
    have hblock₁ : c.ptr - sizeofBlock = c.block := rfl
    simp only [hblock₁, loadSize_of_ne (hr.shape.ne_zero (.inr hlive)), ok_bind,
      hlength, hnull, false_and, if_false]
    rw [hfree, ok_bind]
  · have hkept : h₃.mem (a + sizeofBlock + i) = mem (a + sizeofBlock + i) := by
      refine hkeep₃ a k ⟨Set.mem_insert _ _, ?_⟩ _ (by omega) (by omega)
      intro heq
      exact hne (Prod.ext_iff.mp heq).1
    have hread : h₁.mem (c.ptr + i) = s.heap.mem (c.ptr + i) := by
      refine hkeep₁ c.block j hlive _ ?_ ?_
      · rw [hptr]
        omega
      · rw [hptr]
        omega
    rw [hkept, hcopy, if_pos ⟨by omega, by omega⟩, Nat.add_sub_cancel_left, hread]
  · have hd : d.ptr ≠ c.ptr := by
      show a + sizeofBlock ≠ c.ptr
      rw [hptr]
      omega
    have hpart := hr₃.partition
    rw [← hptr, List.filter_cons_of_pos (by simpa using hd)] at hpart
    exact hpart

end Represents

/-- In every reachable state `krealloc` to a size of order at most 19 preserves
the data or does nothing, if and only if the lock is free, a block for the new
size is free, and the new size fits the old block. -/
theorem krealloc_iff (mem : ByteMem) (base : HeapBase) {ops : List HeapOp}
    {s : HeapState} (hrun : Run ServeStep (.boot mem base) ops s) {c : Client}
    (hc : c ∈ s.clients) {bytes : Nat} (hbytes : bytes + sizeofBlock ≤ 2 ^ 19) :
    PreservesOrNothing base s c bytes ↔
      s.heap.heapLock = false ∧ HasBlock s.heap bytes ∧
        bytes + sizeofBlock ≤ s.heap.size c.block := by
  obtain ⟨free, live, hr, _⟩ := (represents_boot mem base).serveRun hrun
  constructor
  · intro hpres
    by_cases hblock : HasBlock s.heap bytes
    · obtain ⟨newPtr, h', hret, _, _, hinside, _⟩ := hpres.moved hblock
      refine ⟨?_, hblock, (hr.copy_inside_iff hc).mp hinside⟩
      by_contra hlock
      exact krealloc_of_locked (hr.inRange hc) (by simpa using hlock) _ hret
    · obtain ⟨h', hret, _⟩ := hpres.kept hblock
      exact absurd hret (hr.krealloc_of_noBlock hc hbytes hblock _)
  · intro hcond
    obtain ⟨hlock, hblock, hfit⟩ := hcond
    refine ⟨fun _ => ?_, fun hnone => absurd hblock hnone⟩
    obtain ⟨newPtr, h', hret, hnull, hcopy, hpart⟩ :=
      hr.krealloc_moves hc hlock hblock hfit
    refine ⟨newPtr, h', hret, hnull, fun i hi => hcopy i (by omega),
      (hr.copy_inside_iff hc).mpr hfit, hpart⟩

/-- A client of 100 bytes at `0x3018` shrinks to 50. -/
theorem krealloc_shrinks : ∃ s : HeapState, s.clients = [⟨0x3018, 100⟩] ∧
    PreservesOrNothing ⟨0x3000, by decide, by decide, by decide⟩ s ⟨0x3018, 100⟩ 50 := by
  have hend : (([.kmalloc 100] : List HeapOp).foldlM HeapState.attempt
      (.boot (fun _ => 0) ⟨0x3000, by decide, by decide, by decide⟩)).map
        (fun s => (s.clients, s.heap.heapLock, s.heap.bucketList 13,
          s.heap.size 0x3000)) =
      some ([⟨0x3018, 100⟩], false, 0x3080, 128) := by decide +kernel
  obtain ⟨s, hs, hc⟩ := Option.map_eq_some_iff.mp hend
  obtain ⟨hclients, hc⟩ := Prod.ext_iff.mp hc
  obtain ⟨hlock, hc⟩ := Prod.ext_iff.mp hc
  obtain ⟨hbucket, hsize⟩ := Prod.ext_iff.mp hc
  dsimp only at hclients hlock hbucket hsize
  have hrun := (Run.of_foldlM heapStep_of_attempt hs).mono HeapStep.serve
  refine ⟨s, hclients, (krealloc_iff _ _ hrun (by rw [hclients]; simp) (by decide)).mpr
    ⟨hlock, ⟨7, by decide, by decide, ?_⟩, ?_⟩⟩
  · show s.heap.bucketList 13 ≠ 0
    rw [hbucket]
    decide
  · show 50 + sizeofBlock ≤ s.heap.size 0x3000
    rw [hsize]
    decide

/-- The same client grows to 200 bytes: the copy reads 24 bytes of the block
behind. -/
theorem krealloc_reads_beyond : ∃ s : HeapState,
    Run ServeStep (.boot (fun _ => 0) ⟨0x3000, by decide, by decide, by decide⟩)
      [.kmalloc 100] s ∧ ⟨0x3018, 100⟩ ∈ s.clients ∧ 200 + sizeofBlock ≤ 2 ^ 19 ∧
    ¬PreservesOrNothing ⟨0x3000, by decide, by decide, by decide⟩ s ⟨0x3018, 100⟩
      200 := by
  have hend : (([.kmalloc 100] : List HeapOp).foldlM HeapState.attempt
      (.boot (fun _ => 0) ⟨0x3000, by decide, by decide, by decide⟩)).map
        (fun s => (s.clients, s.heap.bucketList 12, s.heap.size 0x3000)) =
      some ([⟨0x3018, 100⟩], 0x3100, 128) := by decide +kernel
  obtain ⟨s, hs, hc⟩ := Option.map_eq_some_iff.mp hend
  obtain ⟨hclients, hc⟩ := Prod.ext_iff.mp hc
  obtain ⟨hbucket, hsize⟩ := Prod.ext_iff.mp hc
  dsimp only at hclients hbucket hsize
  have hrun := (Run.of_foldlM heapStep_of_attempt hs).mono HeapStep.serve
  have hmem : ⟨0x3018, 100⟩ ∈ s.clients := by rw [hclients]; simp
  obtain ⟨free, live, hr, _⟩ := (represents_boot _ _).serveRun hrun
  refine ⟨s, hrun, hmem, by decide, fun hpres => ?_⟩
  have hblock : HasBlock s.heap 200 := by
    refine ⟨8, by decide, by decide, ?_⟩
    show s.heap.bucketList 12 ≠ 0
    rw [hbucket]
    decide
  obtain ⟨_, _, _, _, _, hinside, _⟩ := hpres.moved hblock
  have hfit := (hr.copy_inside_iff hmem).mp hinside
  change 200 + sizeofBlock ≤ s.heap.size 0x3000 at hfit
  rw [hsize] at hfit
  exact absurd hfit (by decide)

end Toystar.Memory.Heap

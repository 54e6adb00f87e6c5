import Toystar.Memory.HeapRealloc

/-!
# Pointers that are not the heap's

`kfree` and `krealloc` turn a pointer away when it is below `baseAddr` or above
`baseAddr + 2 ^ 20`.  A payload starts 24 bytes behind a header and ends before
that upper bound, so 25 addresses pass that no client can hold: the first 24
bytes of the heap, and the first byte behind it, where the next frame starts.
For these `krealloc` never returns null (`krealloc_null_iff`), and `kfree` reads
a header that nobody wrote and puts it on a bucket: its address is not a
multiple of 32, so it is no block, and it never gets off again by a merge
(`Represents.kfree_accepted`).
-/

namespace Toystar.Memory.Heap

open Toystar.Kernel
open Toystar.Verified

/-! ## What the guard turns away -/

/-- An address outside every payload that the heap can have. -/
def Foreign (base : HeapBase) (ptr : Nat) : Prop :=
  ptr < base.addr + sizeofBlock ∨ base.addr + 2 ^ MAX_POWER ≤ ptr

/-- `kfree` returns, with every bucket as it was. -/
def KfreeIgnores (h : BuddyAllocator) (ptr : Nat) : Prop :=
  ∃ h', kfree h ptr = .ok h' ∧ ∀ free, Buckets h free → Buckets h' free

/-- `krealloc` returns null, with every bucket as it was. -/
def KreallocIgnores (h : BuddyAllocator) (ptr bytes : Nat) : Prop :=
  ∃ h', krealloc h ptr bytes = .ok (0, h') ∧ ∀ free, Buckets h free → Buckets h' free

section Guard

variable {h h' : BuddyAllocator} {ptr bytes : Nat}

theorem kfreeIgnores_of_outside
    (hout : ptr < h.baseAddr ∨ ptr > h.baseAddr + 2 ^ MAX_POWER) : KfreeIgnores h ptr := by
  refine ⟨h, ?_, fun _ hb => hb⟩
  unfold kfree
  rw [if_pos hout]

/-- `krealloc` returns null for the pointers that it turns away, and for no other. -/
theorem krealloc_ne_null (hrange : ¬(ptr < h.baseAddr ∨ ptr > h.baseAddr + 2 ^ MAX_POWER)) :
    krealloc h ptr bytes ≠ .ok (0, h') := by
  intro hret
  have hopen := hret
  unfold krealloc at hopen
  rw [if_neg hrange] at hopen
  obtain ⟨⟨newPtr, h₁⟩, hkmalloc, hopen⟩ := bind_eq_ok.mp hopen
  obtain ⟨size, _, hopen⟩ := bind_eq_ok.mp hopen
  split at hopen
  · cases hopen
  · obtain ⟨h₂, _, hopen⟩ := bind_eq_ok.mp hopen
    cases hopen
    exact krealloc_of_null hrange hkmalloc _ hret

theorem kreallocIgnores_iff : KreallocIgnores h ptr bytes ↔
    ptr < h.baseAddr ∨ ptr > h.baseAddr + 2 ^ MAX_POWER := by
  constructor
  · intro hignores
    by_contra hrange
    obtain ⟨h', hret, _⟩ := hignores
    exact krealloc_ne_null hrange hret
  · intro hout
    refine ⟨h, ?_, fun _ hb => hb⟩
    unfold krealloc
    rw [if_pos hout]

end Guard

/-! ## What `kfree` does with a pointer that passes -/

section Forged

variable {base : HeapBase} {s : HeapState} {free : Nat → List Nat}
  {live : Set (Nat × Nat)} {a k ptr : Nat}

/-- Every block starts at a multiple of the smallest block. -/
theorem Represents.dvd_block (hr : Represents base s free live)
    (hblk : IsBlock free live a k) : 32 ∣ a := by
  have hbase : 32 ∣ s.heap.baseAddr := by
    rw [hr.base_eq]
    exact (by decide : 32 ∣ 4096).trans base.aligned
  refine hr.shape.tiles.dvd_start hbase ?_ (Shape.mem_blockSet hblk)
  intro b hb
  obtain ⟨j, hlen, hj⟩ := hb
  rw [hlen]
  exact Nat.pow_dvd_pow 2 (hr.shape.order hj).1

/-- The header in front of a pointer that passes the guard and is no payload is no
block. -/
theorem forged_not_dvd (hlo : base.addr ≤ ptr)
    (hptr : ptr ≤ base.addr + 16 ∨ ptr = base.addr + 2 ^ MAX_POWER) :
    ¬32 ∣ ptr - sizeofBlock := by
  have haligned := base.aligned
  have hpos := base.pos
  unfold sizeofBlock MAX_POWER at *
  omega

/-- Putting the forged header on bucket `k` touches no link of a free block. -/
theorem Represents.next_forged (hr : Represents base s free live)
    (hlo : base.addr ≤ ptr)
    (hptr : ptr ≤ base.addr + 16 ∨ ptr = base.addr + 2 ^ MAX_POWER) {v : Nat}
    (ha : a ∈ free k) :
    (s.heap.setNext (ptr - sizeofBlock) v).next a = s.heap.next a := by
  have hbounds := hr.shape.bounds (.inl ha)
  have hpow := hr.shape.pow_ge (.inl ha)
  have haligned := base.aligned
  have hpos := base.pos
  rw [hr.base_eq] at hbounds
  apply ByteMem.read64_write64_of_apart
  unfold sizeofBlock
  omega

/-- The list of bucket `k` with the forged header in front. -/
theorem Represents.chain_forged (hr : Represents base s free live)
    (hlo : base.addr ≤ ptr)
    (hptr : ptr ≤ base.addr + 16 ∨ ptr = base.addr + 2 ^ MAX_POWER)
    (hk : k ≤ MAX_POWER) :
    Chain 0 (s.heap.setNext (ptr - sizeofBlock) (s.heap.bucketList (MAX_POWER - k))).next
      (ptr - sizeofBlock) ((ptr - sizeofBlock) :: free k) := by
  refine ⟨rfl, ?_, ?_⟩
  · have haligned := base.aligned
    have hpos := base.pos
    unfold sizeofBlock
    omega
  · rw [next_setNext_self (hr.shape.head_lt hk)]
    exact (hr.shape.chains k hk).congr fun a ha => hr.next_forged hlo hptr ha

/-- A `kfree` that returns leaves the forged header at the head of a bucket: it has no
buddy on any list. -/
theorem Represents.kfree_accepted (hr : Represents base s free live)
    (hlo : base.addr ≤ ptr)
    (hptr : ptr ≤ base.addr + 16 ∨ ptr = base.addr + 2 ^ MAX_POWER)
    {h' : BuddyAllocator} (hret : kfree s.heap ptr = .ok h') :
    ∃ k ≤ MAX_POWER, h'.bucketList (MAX_POWER - k) = ptr - sizeofBlock := by
  have hrange : ¬(ptr < s.heap.baseAddr ∨ ptr > s.heap.baseAddr + 2 ^ MAX_POWER) := by
    rw [hr.base_eq]
    unfold MAX_POWER at *
    omega
  unfold kfree at hret
  rw [if_neg hrange] at hret
  obtain ⟨size, _, hret⟩ := bind_eq_ok.mp hret
  obtain ⟨k, horder, hret⟩ := bind_eq_ok.mp hret
  obtain ⟨locked, _, hret⟩ := bind_eq_ok.mp hret
  obtain ⟨head, hhead, hret⟩ := bind_eq_ok.mp hret
  obtain ⟨h₁, hmerge, hret⟩ := bind_eq_ok.mp hret
  have hk : k ≤ MAX_POWER := by
    by_contra hlarge
    rw [bucket_of_large (by omega) (orderOf_ok horder).2.1] at hhead
    cases hhead
  rw [bucket_order hk] at hhead
  rw [indexFromOrder_of_le hk, ← Except.ok.inj hhead] at hmerge
  have hchain := hr.chain_forged hlo hptr hk
  have hlen : ((ptr - sizeofBlock) :: free k).length < listFuel := by
    have hle := hr.shape.length_le k
    rw [List.length_cons]
    unfold listFuel
    omega
  -- nothing is merged, whatever the order that the forged header gave
  rw [mergeUp_of_stuck] at hmerge
  · refine ⟨k, hk, ?_⟩
    rw [← Except.ok.inj hret, ← Except.ok.inj hmerge]
    exact Function.update_self _ _ _
  · intro hlt
    refine tryToMerge_of_noPair ?_ hlen hk ?_
    · rw [setBucket_bucketList, Function.update_self]
      exact hchain
    · intro hmin
      refine noPair_cons (hr.rested k hlt) ?_
      intro hbuddy
      have hdvd : 32 ∣ 2 ^ k := Nat.pow_dvd_pow 2 (show 5 ≤ k from hmin)
      exact forged_not_dvd hlo hptr
        ((dvd_xor_two_pow_iff hdvd).mp (hr.dvd_block (.inl hbuddy)))

theorem Represents.kfreeIgnores_iff (hr : Represents base s free live)
    (hforeign : Foreign base ptr) (haligned : 8 ∣ ptr) :
    KfreeIgnores s.heap ptr ↔ ptr < base.addr ∨ ptr > base.addr + 2 ^ MAX_POWER := by
  constructor
  · intro hignores
    by_contra hrange
    have hlo : base.addr ≤ ptr := by omega
    have hptr : ptr ≤ base.addr + 16 ∨ ptr = base.addr + 2 ^ MAX_POWER := by
      have hbase := base.aligned
      unfold Foreign sizeofBlock at hforeign
      omega
    obtain ⟨h', hret, hsame⟩ := hignores
    obtain ⟨k, hk, hhead⟩ := hr.kfree_accepted hlo hptr hret
    have hchain := hsame free hr.shape.chains k hk
    rw [hhead] at hchain
    cases hfree : free k with
    | nil =>
        rw [hfree, chain_nil] at hchain
        exact forged_not_dvd hlo hptr (by rw [hchain]; exact Nat.dvd_zero 32)
    | cons a rest =>
        rw [hfree, chain_cons] at hchain
        have ha : a ∈ free k := by rw [hfree]; exact List.mem_cons_self
        rw [← hchain.1] at ha
        exact forged_not_dvd hlo hptr (hr.dvd_block (.inl ha))
  · intro hout
    rw [← hr.base_eq] at hout
    exact kfreeIgnores_of_outside hout

end Forged

/-- In every reachable state a foreign pointer is ignored by `kfree` and `krealloc` if
and only if it is below the heap or behind its first byte past the end.  For pointers
that are multiples of 8, as those of frames are, `kfree` alone decides that. -/
theorem foreign_ignored_iff (mem : ByteMem) (base : HeapBase) {ops : List HeapOp}
    {s : HeapState} (hrun : Run ServeStep (.boot mem base) ops s) {ptr : Nat}
    (hforeign : Foreign base ptr) (bytes : Nat) :
    (KfreeIgnores s.heap ptr ∧ KreallocIgnores s.heap ptr bytes ↔
      ptr < base.addr ∨ ptr > base.addr + 2 ^ MAX_POWER) ∧
    (8 ∣ ptr → (KfreeIgnores s.heap ptr ↔
      ptr < base.addr ∨ ptr > base.addr + 2 ^ MAX_POWER)) := by
  obtain ⟨free, live, hr, _⟩ := (represents_boot mem base).serveRun hrun
  refine ⟨?_, hr.kfreeIgnores_iff hforeign⟩
  rw [kreallocIgnores_iff, hr.base_eq]
  refine ⟨And.right, fun hout => ⟨?_, hout⟩⟩
  rw [← hr.base_eq] at hout
  exact kfreeIgnores_of_outside hout

/-- The null pointer, on a heap at `0x3000` with one client. -/
theorem foreign_ignored_null : ∃ s : HeapState, s.clients = [⟨0x3018, 100⟩] ∧
    KfreeIgnores s.heap 0 ∧ KreallocIgnores s.heap 0 64 := by
  have hend : (([.kmalloc 100] : List HeapOp).foldlM HeapState.attempt
      (.boot (fun _ => 0) ⟨0x3000, by decide, by decide, by decide⟩)).map (·.clients) =
      some [⟨0x3018, 100⟩] := by decide +kernel
  obtain ⟨s, hs, hclients⟩ := Option.map_eq_some_iff.mp hend
  have hrun := (Run.of_foldlM heapStep_of_attempt hs).mono HeapStep.serve
  exact ⟨s, hclients, (foreign_ignored_iff _ _ hrun (.inl (by decide)) 64).1.mpr
    (.inl (by decide))⟩

/-- Both halves of a heap at `0x3000` are taken, and 24 bytes before its end a client
has stored 128.  `kfree` of the frame behind the heap frees these bytes as a block of
order 7, and the next 100 bytes that are asked for are in that frame. -/
theorem frame_behind_heap_linked : ∃ s h',
    Run ServeStep (.boot (fun _ => 0) ⟨0x3000, by decide, by decide, by decide⟩)
      [.kmalloc 0x7FFE8, .kmalloc 0x7FFE8, .write 0x102FE8 128] s ∧
    Foreign ⟨0x3000, by decide, by decide, by decide⟩ 0x103000 ∧
    kfree s.heap 0x103000 = .ok h' ∧ (kmalloc h' 100).map (·.1) = .ok 0x103000 ∧
    ¬(KfreeIgnores s.heap 0x103000 ∧ KreallocIgnores s.heap 0x103000 64) := by
  have hend : (([.kmalloc 0x7FFE8, .kmalloc 0x7FFE8, .write 0x102FE8 128] :
      List HeapOp).foldlM HeapState.attempt
      (.boot (fun _ => 0) ⟨0x3000, by decide, by decide, by decide⟩)).map
        (fun s => (kfree s.heap 0x103000).bind fun h => (kmalloc h 100).map (·.1)) =
      some (.ok 0x103000) := by decide +kernel
  obtain ⟨s, hs, hret⟩ := Option.map_eq_some_iff.mp hend
  obtain ⟨h', hfree, hkmalloc⟩ := bind_eq_ok.mp hret
  have hrun := (Run.of_foldlM heapStep_of_attempt hs).mono HeapStep.serve
  have hforeign : Foreign ⟨0x3000, by decide, by decide, by decide⟩ 0x103000 :=
    .inr (by decide)
  obtain ⟨free, live, hr, _⟩ := (represents_boot _ _).serveRun hrun
  refine ⟨s, h', hrun, hforeign, hfree, hkmalloc, fun hignored => ?_⟩
  have hout := (hr.kfreeIgnores_iff hforeign (by decide)).mp hignored.1
  revert hout
  decide

/-! ## The destructor of a pagemap -/

/-- `vmm::~vmm`: `delete m_pml4`. -/
def vmmDestructor (h : BuddyAllocator) (m_pml4 : Nat) : Except Fault BuddyAllocator :=
  kfree h m_pml4

/-- The frame of a top table is none of the heap's.  Its destructor leaves the heap alone
exactly when it is not the frame directly behind it. -/
theorem destructor_ignored_iff (mem : ByteMem) (base : HeapBase) {ops : List HeapOp}
    {s : HeapState} (hrun : Run ServeStep (.boot mem base) ops s) {m_pml4 : Nat}
    (hframe : 4096 ∣ m_pml4)
    (hapart : m_pml4 < base.addr ∨ base.addr + 2 ^ MAX_POWER ≤ m_pml4) :
    (∃ h', vmmDestructor s.heap m_pml4 = .ok h' ∧
      ∀ free, Buckets s.heap free → Buckets h' free) ↔
    m_pml4 ≠ base.addr + 2 ^ MAX_POWER := by
  obtain ⟨free, live, hr, _⟩ := (represents_boot mem base).serveRun hrun
  have hforeign : Foreign base m_pml4 :=
    hapart.imp_left fun hlt => Nat.lt_add_right sizeofBlock hlt
  have hiff := hr.kfreeIgnores_iff hforeign ((by decide : 8 ∣ 4096).trans hframe)
  show KfreeIgnores s.heap m_pml4 ↔ _
  rw [hiff]
  unfold MAX_POWER at *
  omega

end Toystar.Memory.Heap

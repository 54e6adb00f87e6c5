import Toystar.Memory.HeapAlloc
import Toystar.Verified.Run

/-!
# Runs of the kernel heap

The heap together with its clients: every pointer `kmalloc` returned and
`kfree` has not taken back, with the size that was asked for.  A client may
ask for memory, return a pointer it holds, or store a byte into the payload of
a block it holds.  `Represents` ties such a state to the abstract heap of
`Shape`; it holds after the constructor, every operation keeps it, and what a
client can rely on (`Partition`) is read off it.
-/

namespace Toystar.Memory.Heap

open Toystar.Kernel
open Toystar.Verified

/-! ## The system -/

/-- Where the constructor can put the heap: a frame-aligned range of the
direct map, so neither null nor at the end of the address space. -/
structure HeapBase where
  addr : Nat
  aligned : 4096 ∣ addr
  pos : 0 < addr
  fits : addr + 2 ^ MAX_POWER < 2 ^ 64

/-- A pointer in use and the size it was requested with. -/
structure Client where
  ptr : Nat
  bytes : Nat
deriving DecidableEq, Repr

/-- `(Block*) (ptr - sizeof(Block))`. -/
def Client.block (c : Client) : Nat := c.ptr - sizeofBlock

/-- The allocator and the pointers in use. -/
structure HeapState where
  heap : BuddyAllocator
  clients : List Client

/-- What a client may write to: the rest of the block after its header. -/
def HeapState.payload (s : HeapState) (c : Client) : Set Nat :=
  Set.Ico c.ptr (c.block + s.heap.size c.block)

/-- The heap as the constructor leaves it. -/
def HeapState.boot (mem : ByteMem) (base : HeapBase) : HeapState :=
  ⟨buddyAllocator mem base.addr, []⟩

inductive HeapOp
  | kmalloc (bytes : Nat)
  | kfree (ptr : Nat)
  | write (addr : Nat) (value : UInt8)
deriving DecidableEq

/-- The obligations of the callers. -/
def HeapOp.Allowed (s : HeapState) : HeapOp → Prop
  | .kmalloc bytes => bytes + sizeofBlock ≤ 2 ^ 19
  | .kfree ptr => ∃ c ∈ s.clients, c.ptr = ptr
  | .write addr _ => ∃ c ∈ s.clients, addr ∈ s.payload c

instance HeapOp.decidableAllowed (s : HeapState) (op : HeapOp) :
    Decidable (op.Allowed s) :=
  match op with
  | .kmalloc bytes => inferInstanceAs (Decidable (bytes + sizeofBlock ≤ 2 ^ 19))
  | .kfree ptr => inferInstanceAs (Decidable (∃ c ∈ s.clients, c.ptr = ptr))
  | .write addr _ => inferInstanceAs (Decidable (∃ c ∈ s.clients,
      c.ptr ≤ addr ∧ addr < c.block + s.heap.size c.block))

/-- One operation. -/
def HeapState.exec (s : HeapState) : HeapOp → Except Fault HeapState
  | .kmalloc bytes => do
      let (ptr, h) ← kmalloc s.heap bytes
      .ok ⟨h, if ptr = 0 then s.clients else ⟨ptr, bytes⟩ :: s.clients⟩
  | .kfree ptr => do
      let h ← kfree s.heap ptr
      .ok ⟨h, s.clients.filter fun c => c.ptr ≠ ptr⟩
  | .write addr value =>
      .ok { s with heap := { s.heap with mem := s.heap.mem.write8 addr value } }

/-- A request that `kmalloc` answers without leaving its buckets: one that is
`Askable`, or one whose size wraps to a small one while nothing is free. -/
def Answerable (h : BuddyAllocator) (bytes : Nat) : Prop :=
  Askable h bytes ∨ (bytes < 2 ^ 64 ∧ 2 ^ 64 ≤ bytes + sizeofBlock ∧
    ∀ i ≤ MAX_POWER, h.bucketList i = 0)

/-- What the allocator can stand: its clients need not keep requests below half
the heap. -/
def HeapOp.Served (s : HeapState) : HeapOp → Prop
  | .kmalloc bytes => Answerable s.heap bytes
  | .kfree ptr => ∃ c ∈ s.clients, c.ptr = ptr
  | .write addr _ => ∃ c ∈ s.clients, addr ∈ s.payload c

theorem HeapOp.Allowed.served {s : HeapState} {op : HeapOp} (hop : op.Allowed s) :
    op.Served s := by
  cases op with
  | kmalloc bytes => exact .inl (.inl hop)
  | kfree ptr => exact hop
  | write addr value => exact hop

/-- An allowed operation that returns. -/
def HeapStep (s : HeapState) (op : HeapOp) (s' : HeapState) : Prop :=
  op.Allowed s ∧ s.exec op = .ok s'

/-- A served operation that returns. -/
def ServeStep (s : HeapState) (op : HeapOp) (s' : HeapState) : Prop :=
  op.Served s ∧ s.exec op = .ok s'

theorem HeapStep.serve {s s' : HeapState} {op : HeapOp} (hstep : HeapStep s op s') :
    ServeStep s op s' :=
  ⟨hstep.1.served, hstep.2⟩

/-- The step as a function. -/
def HeapState.attempt (s : HeapState) (op : HeapOp) : Option HeapState :=
  if op.Allowed s then (s.exec op).toOption else none

theorem heapStep_of_attempt {s s' : HeapState} {op : HeapOp}
    (h : s.attempt op = some s') : HeapStep s op s' :=
  guard_toOption.mp h

/-! ## Client stores -/

section Stores

variable {h : BuddyAllocator} {free : Nat → List Nat} {live : Set (Nat × Nat)}

/-- A shape only depends on the headers. -/
theorem Shape.setMem {mem : ByteMem} (hs : Shape h free live)
    (hmem : ∀ {x j}, IsBlock free live x j →
      ∀ y, x ≤ y → y < x + 16 → mem y = h.mem y) :
    Shape { h with mem := mem } free live := by
  refine
    { chains := ?_
      nodup := hs.nodup
      order := hs.order
      size := ?_
      exclusive := hs.exclusive
      tiles := hs.tiles
      base_pos := hs.base_pos
      base_lt := hs.base_lt }
  · intro k hk
    refine (hs.chains k hk).congr fun x hx => ?_
    exact ByteMem.read64_congr fun y hy hy' =>
      hmem (.inl hx) y (by omega) (by omega)
  · intro x k hx
    rw [← hs.size hx]
    exact ByteMem.read64_congr fun y hy hy' => hmem hx y (by omega) (by omega)

/-- A store behind the header of a live block touches no header. -/
theorem Shape.writePayload {a k addr : Nat} (hs : Shape h free live)
    (hlive : (a, k) ∈ live) (hlo : a + sizeofBlock ≤ addr)
    (hhi : addr < a + 2 ^ k) (v : UInt8) :
    Shape { h with mem := h.mem.write8 addr v } free live := by
  refine hs.setMem fun {x j} hx y hy hy' => ?_
  have hne : y ≠ addr := by
    have hpow := hs.pow_ge hx
    unfold sizeofBlock at hlo
    by_cases hxa : x = a
    · omega
    · have hfar := hs.far (.inr hlive) hx (Ne.symm hxa)
      omega
  exact Function.update_of_ne hne _ _

end Stores

/-! ## The invariant -/

/-- The state represents the abstract heap, and the live blocks are the
clients' blocks. -/
structure Represents (base : HeapBase) (s : HeapState) (free : Nat → List Nat)
    (live : Set (Nat × Nat)) : Prop where
  shape : Shape s.heap free live
  rested : Rested free
  base_eq : s.heap.baseAddr = base.addr
  owned : ∀ c ∈ s.clients, ∃ a k,
    (a, k) ∈ live ∧ c.ptr = a + sizeofBlock ∧ c.bytes + sizeofBlock ≤ 2 ^ k
  owner : ∀ {a k}, (a, k) ∈ live → ∃ c ∈ s.clients, c.ptr = a + sizeofBlock
  distinct : (s.clients.map (·.ptr)).Nodup

/-- The constructor makes one free block of the whole heap. -/
theorem represents_boot (mem : ByteMem) (base : HeapBase) :
    Represents base (.boot mem base)
      (fun k => if k = MAX_POWER then [base.addr] else []) ∅ := by
  have hblk : ∀ {a k}, IsBlock (fun k => if k = MAX_POWER then [base.addr] else [])
      ∅ a k ↔ a = base.addr ∧ k = MAX_POWER := by
    intro a k
    by_cases hk : k = MAX_POWER <;> simp [IsBlock, hk]
  have hpow : 2 ^ MAX_POWER < 2 ^ 64 := by decide
  have hshape : Shape (buddyAllocator mem base.addr)
      (fun k => if k = MAX_POWER then [base.addr] else []) ∅ := by
    refine
      { chains := ?_
        nodup := ?_
        order := ?_
        size := ?_
        exclusive := by simp
        tiles := ?_
        base_pos := base.pos
        base_lt := base.fits }
    · intro k hk
      by_cases hkm : k = MAX_POWER
      · subst hkm
        simp only [if_true]
        refine ⟨?_, base.pos.ne', ?_⟩
        · simp [buddyAllocator, setBucket_bucketList]
        · exact next_setNext_self (by decide)
      · simp only [hkm, if_false, chain_nil]
        show Function.update (fun _ => 0) 0 base.addr (MAX_POWER - k) = 0
        rw [Function.update_of_ne (by omega)]
    · intro k
      by_cases hk : k = MAX_POWER <;> simp [hk]
    · intro a k hb
      obtain ⟨_, rfl⟩ := hblk.mp hb
      decide
    · intro a k hb
      obtain ⟨rfl, rfl⟩ := hblk.mp hb
      show BuddyAllocator.size (BuddyAllocator.setNext _ _ _) _ = _
      rw [size_setNext (.inl rfl), size_setSize_self hpow]
    · have hset : blockSet (fun k => if k = MAX_POWER then [base.addr] else []) ∅ =
          {(base.addr, 2 ^ MAX_POWER)} := by
        ext ⟨a, n⟩
        simp only [blockSet, Set.mem_ofPred_eq, hblk, Set.mem_singleton_iff,
          Prod.mk.injEq]
        constructor
        · rintro ⟨k, hn, rfl, rfl⟩
          exact ⟨rfl, hn⟩
        · rintro ⟨rfl, rfl⟩
          exact ⟨MAX_POWER, rfl, rfl, rfl⟩
      rw [hset]
      exact tiles_singleton _ _ (Nat.two_pow_pos _)
  exact
    { shape := hshape
      rested := fun k hk => by simp [Nat.ne_of_lt hk, NoPair]
      base_eq := rfl
      owned := by simp [HeapState.boot]
      owner := by simp
      distinct := by simp [HeapState.boot] }

namespace Represents

variable {base : HeapBase} {s s' : HeapState} {free : Nat → List Nat}
  {live : Set (Nat × Nat)} {c d : Client}

/-- A client's block, read back from the pointer. -/
theorem block_live (hr : Represents base s free live) (hc : c ∈ s.clients) :
    ∃ k, (c.block, k) ∈ live ∧ c.ptr = c.block + sizeofBlock ∧
      c.bytes + sizeofBlock ≤ 2 ^ k ∧ s.heap.size c.block = 2 ^ k := by
  obtain ⟨a, k, hlive, hptr, hfit⟩ := hr.owned c hc
  have hblock : c.block = a := by rw [Client.block, hptr, Nat.add_sub_cancel]
  rw [hblock]
  exact ⟨k, hlive, hptr, hfit, hr.shape.size (.inr hlive)⟩

theorem kmalloc_null (hr : Represents base s free live) :
    Represents base ⟨{ s.heap with heapLock := true }, s.clients⟩ free live :=
  { shape := hr.shape.setLock true
    rested := hr.rested
    base_eq := hr.base_eq
    owned := hr.owned
    owner := hr.owner
    distinct := hr.distinct }

/-- The block that `kmalloc` took out is the new client's. -/
theorem kmalloc_some {a k bytes : Nat} {h' : BuddyAllocator}
    {free' : Nat → List Nat} (hr : Represents base s free live)
    (hs : Shape h' free' (insert (a, k) live)) (hrest : Rested free')
    (hnew : ∀ j, (a, j) ∉ live) (hfit : bytes + sizeofBlock ≤ 2 ^ k)
    (hbase : h'.baseAddr = s.heap.baseAddr) :
    Represents base ⟨h', ⟨a + sizeofBlock, bytes⟩ :: s.clients⟩ free'
      (insert (a, k) live) := by
  refine
    { shape := hs
      rested := hrest
      base_eq := hbase.trans hr.base_eq
      owned := ?_
      owner := ?_
      distinct := ?_ }
  · intro c hc
    rcases List.mem_cons.mp hc with rfl | hc
    · exact ⟨a, k, .inl rfl, rfl, hfit⟩
    · obtain ⟨b, j, hlive, hptr, hb⟩ := hr.owned c hc
      exact ⟨b, j, .inr hlive, hptr, hb⟩
  · rintro b j (heq | hlive)
    · obtain ⟨rfl, _⟩ := Prod.ext_iff.mp heq
      exact ⟨⟨b + sizeofBlock, bytes⟩, by simp, rfl⟩
    · obtain ⟨c, hc, hptr⟩ := hr.owner hlive
      exact ⟨c, List.mem_cons_of_mem _ hc, hptr⟩
  · rw [List.map_cons, List.nodup_cons]
    refine ⟨?_, hr.distinct⟩
    intro hmem
    obtain ⟨c, hc, hptr⟩ := List.mem_map.mp hmem
    obtain ⟨b, j, hlive, hcptr, _⟩ := hr.owned c hc
    obtain rfl : b = a := by
      dsimp only at hptr
      omega
    exact hnew j hlive

/-- `kfree` removes one client and its block. -/
theorem kfree_client {a k : Nat} {h' : BuddyAllocator} {free' : Nat → List Nat}
    (hr : Represents base s free live) (hlive : (a, k) ∈ live)
    (hs : Shape h' free' (live \ {(a, k)})) (hrest : Rested free')
    (hbase : h'.baseAddr = s.heap.baseAddr) :
    Represents base
      ⟨h', s.clients.filter fun c => c.ptr ≠ a + sizeofBlock⟩ free'
      (live \ {(a, k)}) := by
  refine
    { shape := hs
      rested := hrest
      base_eq := hbase.trans hr.base_eq
      owned := ?_
      owner := ?_
      distinct := ?_ }
  · intro c hc
    simp only [List.mem_filter, decide_eq_true_eq] at hc
    obtain ⟨b, j, hb, hptr, hfit⟩ := hr.owned c hc.1
    refine ⟨b, j, ⟨hb, ?_⟩, hptr, hfit⟩
    intro heq
    rw [Set.mem_singleton_iff, Prod.mk.injEq] at heq
    exact hc.2 (by rw [hptr, heq.1])
  · rintro b j ⟨hb, hne⟩
    obtain ⟨c, hc, hptr⟩ := hr.owner hb
    refine ⟨c, ?_, hptr⟩
    simp only [List.mem_filter, decide_eq_true_eq]
    refine ⟨hc, ?_⟩
    intro heq
    obtain rfl : b = a := by omega
    obtain rfl := hr.shape.order_eq (.inr hb) (.inr hlive)
    exact hne rfl
  · exact hr.distinct.sublist (List.filter_sublist.map _)

/-- A wrapped request on a heap without free blocks is refused. -/
theorem kmalloc_of_wrap {bytes : Nat} (hr : Represents base s free live)
    (hlock : s.heap.heapLock = false) (hlt : bytes < 2 ^ 64)
    (hwrap : 2 ^ 64 ≤ bytes + sizeofBlock)
    (hnull : ∀ i ≤ MAX_POWER, s.heap.bucketList i = 0) :
    Heap.kmalloc s.heap bytes = .ok (0, { s.heap with heapLock := true }) := by
  have hacq : Lock.acquire s.heap.heapLock = .ok true := by rw [hlock]; rfl
  obtain ⟨k, horder, _, hk5, _⟩ := orderLoop_eq (K := 5) (by omega)
    (show (bytes + sizeofBlock) % 2 ^ 64 ≤ 2 ^ 5 by unfold sizeofBlock at *; omega)
    29 4 (by omega) (by omega)
  have hempty : ∀ i, free i = [] := by
    intro i
    rcases Nat.lt_or_ge MAX_POWER i with hi | hi
    · exact hr.shape.free_eq_nil (.inr hi)
    · exact (hr.shape.chains i hi).head_eq_null_iff.mp (hnull _ (Nat.sub_le _ _))
  have hrefill := refill_of_empty (k := k) (hr.shape.setLock true)
    (by unfold MAX_POWER; omega) fun i _ => hempty i
  unfold Heap.kmalloc orderOf
  simp only [horder, ok_bind, hacq, hrefill]

/-- Whatever the request, a taken lock is waited for once the order is known. -/
theorem exec_kmalloc_spin {bytes k : Nat} (hlock : s.heap.heapLock = true)
    (horder : orderOf ((bytes + sizeofBlock) % 2 ^ 64) = .ok k) :
    s.exec (.kmalloc bytes) = .error .spin := by
  simp only [HeapState.exec, Heap.kmalloc, horder, ok_bind, hlock, Lock.acquire,
    error_bind]

/-- What one served operation does: it returns a state that again represents
an abstract heap, or it spins on the lock that a failed `kmalloc` kept. -/
theorem exec {op : HeapOp} (hr : Represents base s free live)
    (hop : op.Served s) :
    (∃ s' free' live', s.exec op = .ok s' ∧ Represents base s' free' live' ∧
        Moves (IsBlock free live) (IsBlock free' live')) ∨
      (s.exec op = .error .spin ∧ s.heap.heapLock = true) := by
  cases op with
  | kmalloc bytes =>
      by_cases hlock : s.heap.heapLock = true
      · refine .inr ⟨?_, hlock⟩
        rcases hop with hask | ⟨hlt, hwrap, _⟩
        · have hbytes : bytes + sizeofBlock ≤ 2 ^ 20 := by
            rcases hask with hsmall | hlarge
            · omega
            · exact hlarge.1
          obtain ⟨k, horder, _⟩ := orderOf_request hbytes
          exact exec_kmalloc_spin hlock horder
        · obtain ⟨k, horder, _⟩ := orderLoop_eq (K := 5) (by omega)
            (show (bytes + sizeofBlock) % 2 ^ 64 ≤ 2 ^ 5 by unfold sizeofBlock at *; omega)
            29 4 (by omega) (by omega)
          exact exec_kmalloc_spin hlock horder
      · rw [Bool.not_eq_true] at hlock
        rcases hop with hask | ⟨hlt, hwrap, hnull⟩
        · rcases hr.shape.kmalloc hlock hask with
            ⟨hret, _⟩ | ⟨k, t, a, h', hk, _, hret, hs, hnew, hmoves, _, _, hbase⟩
          · refine .inl ⟨_, free, live, ?_, hr.kmalloc_null, .refl⟩
            simp only [HeapState.exec, hret, ok_bind, if_true]
          · refine .inl ⟨_, _, _, ?_,
              hr.kmalloc_some hs (hr.rested.taken k t a) hnew hk.1.2 hbase, hmoves⟩
            have hne : a + sizeofBlock ≠ 0 := by simp [sizeofBlock]
            simp only [HeapState.exec, hret, ok_bind, if_neg hne]
        · refine .inl ⟨_, free, live, ?_, hr.kmalloc_null, .refl⟩
          simp only [HeapState.exec, hr.kmalloc_of_wrap hlock hlt hwrap hnull, ok_bind,
            if_true]
  | kfree ptr =>
      obtain ⟨c, hc, rfl⟩ := hop
      obtain ⟨k, hlive, hptr, _, hsize⟩ := hr.block_live hc
      rw [hptr]
      by_cases hlock : s.heap.heapLock = true
      · refine .inr ⟨?_, hlock⟩
        have hblk : IsBlock free live c.block k := .inr hlive
        have hbounds := hr.shape.bounds hblk
        have hpow := hr.shape.pow_ge hblk
        have hord := hr.shape.order hblk
        have horder : orderOf (2 ^ k) = .ok k :=
          orderOf_pow (by omega) (by unfold MAX_POWER at hord; omega)
        have hrange : ¬(c.block + sizeofBlock < s.heap.baseAddr ∨
            c.block + sizeofBlock > s.heap.baseAddr + 2 ^ MAX_POWER) := by
          unfold sizeofBlock
          omega
        simp only [HeapState.exec, Heap.kfree, if_neg hrange, Nat.add_sub_cancel,
          loadSize_of_ne (hr.shape.ne_zero hblk), hsize, ok_bind, horder, hlock,
          Lock.acquire, error_bind]
      · rw [Bool.not_eq_true] at hlock
        obtain ⟨h', free', hret, hs, hrest, hmoves, _, _, hbase⟩ :=
          hr.shape.kfree hr.rested hlock hlive
        refine .inl ⟨_, free', _, ?_, hr.kfree_client hlive hs hrest hbase, hmoves⟩
        simp only [HeapState.exec, hret, ok_bind]
  | write addr value =>
      obtain ⟨c, hc, hlo, hhi⟩ := hop
      obtain ⟨k, hlive, hptr, _, hsize⟩ := hr.block_live hc
      rw [hsize] at hhi
      rw [hptr] at hlo
      refine .inl ⟨_, free, live, rfl, ?_, .refl⟩
      exact
        { shape := hr.shape.writePayload hlive hlo hhi value
          rested := hr.rested
          base_eq := hr.base_eq
          owned := hr.owned
          owner := hr.owner
          distinct := hr.distinct }

theorem step {op : HeapOp} (hr : Represents base s free live)
    (hstep : ServeStep s op s') : ∃ free' live', Represents base s' free' live' ∧
      Moves (IsBlock free live) (IsBlock free' live') := by
  obtain ⟨hop, hret⟩ := hstep
  rcases hr.exec hop with ⟨s'', free', live', hret', hr', hmoves⟩ | ⟨herr, _⟩
  · obtain rfl := Except.ok.inj (hret.symm.trans hret')
    exact ⟨free', live', hr', hmoves⟩
  · rw [hret] at herr
    cases herr

end Represents

/-- Every state that served operations reach represents an abstract heap, whose
blocks come from the blocks of an earlier state by cuts and joins. -/
theorem Represents.serveRun {base : HeapBase} {s s' : HeapState}
    {free : Nat → List Nat} {live : Set (Nat × Nat)} {ops : List HeapOp}
    (hr : Represents base s free live) (hrun : Run ServeStep s ops s') :
    ∃ free' live', Represents base s' free' live' ∧
      Moves (IsBlock free live) (IsBlock free' live') := by
  refine hrun.invariant
    (I := fun t => ∃ free' live', Represents base t free' live' ∧
      Moves (IsBlock free live) (IsBlock free' live')) ?_ ⟨free, live, hr, .refl⟩
  rintro t op t' ⟨free', live', hr', hmoves⟩ hstep
  obtain ⟨free'', live'', hr'', hmoves'⟩ := hr'.step hstep
  exact ⟨free'', live'', hr'', hmoves.trans hmoves'⟩

theorem Represents.run {base : HeapBase} {s s' : HeapState} {free : Nat → List Nat}
    {live : Set (Nat × Nat)} {ops : List HeapOp} (hr : Represents base s free live)
    (hrun : Run HeapStep s ops s') : ∃ free' live', Represents base s' free' live' ∧
      Moves (IsBlock free live) (IsBlock free' live') :=
  hr.serveRun (hrun.mono fun hstep => hstep.serve)

/-! ## What the clients rely on -/

/-- The blocks of a state: those on a free list and those of the clients, with
the sizes their headers carry. -/
def HeapState.blocks (s : HeapState) (free : Nat → List Nat) : Set (Nat × Nat) :=
  {b | b.2 = s.heap.size b.1 ∧
    ((∃ k, b.1 ∈ free k) ∨ ∃ c ∈ s.clients, c.block = b.1)}

/-- The free lists and the clients' blocks partition the heap. -/
structure Partition (base : HeapBase) (s : HeapState)
    (free : Nat → List Nat) : Prop where
  /-- `free k` is what bucket `20 - k` links to -/
  lists : ∀ k ≤ MAX_POWER,
    Chain 0 s.heap.next (s.heap.bucketList (MAX_POWER - k)) (free k)
  once : ∀ k, (free k).Nodup
  one_list : ∀ {a j k}, a ∈ free j → a ∈ free k → j = k
  free_size : ∀ {a k}, a ∈ free k →
    5 ≤ k ∧ k ≤ MAX_POWER ∧ s.heap.size a = 2 ^ k
  live_size : ∀ c ∈ s.clients,
    ∃ k, 5 ≤ k ∧ k ≤ MAX_POWER ∧ s.heap.size c.block = 2 ^ k
  not_free : ∀ c ∈ s.clients, ∀ k, c.block ∉ free k
  tiles : Tiles (s.blocks free) base.addr (base.addr + 2 ^ MAX_POWER)
  /-- a payload starts behind its header and holds the request -/
  holds : ∀ c ∈ s.clients, c.ptr = c.block + sizeofBlock ∧
    Set.Ico c.ptr (c.ptr + c.bytes) ⊆ s.payload c
  disjoint : s.clients.Pairwise fun c d =>
    Disjoint (span (c.block, s.heap.size c.block))
        (span (d.block, s.heap.size d.block)) ∧
      Disjoint (s.payload c) (s.payload d)

namespace Represents

variable {base : HeapBase} {s : HeapState} {free : Nat → List Nat}
  {live : Set (Nat × Nat)} {c d : Client}

theorem blocks_eq (hr : Represents base s free live) :
    s.blocks free = blockSet free live := by
  ext ⟨a, n⟩
  simp only [HeapState.blocks, blockSet, Set.mem_ofPred_eq]
  constructor
  · rintro ⟨hn, ⟨k, hk⟩ | ⟨c, hc, rfl⟩⟩
    · exact ⟨k, by rw [hn, hr.shape.size (.inl hk)], .inl hk⟩
    · obtain ⟨k, hlive, _, _, hsize⟩ := hr.block_live hc
      exact ⟨k, by rw [hn, hsize], .inr hlive⟩
  · rintro ⟨k, hn, hblk⟩
    refine ⟨by rw [hn, hr.shape.size hblk], ?_⟩
    rcases hblk with hfree | hlive
    · exact .inl ⟨k, hfree⟩
    · obtain ⟨c, hc, hptr⟩ := hr.owner hlive
      exact .inr ⟨c, hc, by rw [Client.block, hptr, Nat.add_sub_cancel]⟩

/-- Different pointers are to disjoint blocks, hence to disjoint payloads. -/
theorem disjoint_of_ne (hr : Represents base s free live) (hc : c ∈ s.clients)
    (hd : d ∈ s.clients) (hne : c.ptr ≠ d.ptr) :
    Disjoint (span (c.block, s.heap.size c.block))
        (span (d.block, s.heap.size d.block)) ∧
      Disjoint (s.payload c) (s.payload d) := by
  obtain ⟨j, hcl, hcp, _, hcs⟩ := hr.block_live hc
  obtain ⟨k, hdl, hdp, _, hds⟩ := hr.block_live hd
  have hblock : c.block ≠ d.block := by
    intro heq
    exact hne (by rw [hcp, hdp, heq])
  have hfar := hr.shape.far (.inr hcl) (.inr hdl) hblock
  have hspan : Disjoint (span (c.block, s.heap.size c.block))
      (span (d.block, s.heap.size d.block)) := by
    rw [Set.disjoint_left, hcs, hds]
    intro x hx hx'
    simp only [mem_span] at hx hx'
    omega
  have hsub : ∀ e : Client, e.ptr = e.block + sizeofBlock →
      s.payload e ⊆ span (e.block, s.heap.size e.block) := by
    rintro e he x ⟨hlo, hhi⟩
    exact mem_span.mpr ⟨by omega, hhi⟩
  exact ⟨hspan, hspan.mono (hsub c hcp) (hsub d hdp)⟩

theorem partition (hr : Represents base s free live) : Partition base s free := by
  refine
    { lists := hr.shape.chains
      once := hr.shape.nodup
      one_list := fun hj hk => hr.shape.order_eq (.inl hj) (.inl hk)
      free_size := ?_
      live_size := ?_
      not_free := ?_
      tiles := ?_
      holds := ?_
      disjoint := ?_ }
  · intro a k ha
    have hord := hr.shape.order (.inl ha)
    exact ⟨hord.1, hord.2, hr.shape.size (.inl ha)⟩
  · intro c hc
    obtain ⟨k, hlive, _, _, hsize⟩ := hr.block_live hc
    have hord := hr.shape.order (.inr hlive)
    exact ⟨k, hord.1, hord.2, hsize⟩
  · intro c hc k hmem
    obtain ⟨j, hlive, _⟩ := hr.block_live hc
    obtain rfl := hr.shape.order_eq (.inl hmem) (.inr hlive)
    exact hr.shape.exclusive hmem hlive
  · rw [hr.blocks_eq, ← hr.base_eq]
    exact hr.shape.tiles
  · intro c hc
    obtain ⟨k, _, hptr, hfit, hsize⟩ := hr.block_live hc
    refine ⟨hptr, ?_⟩
    rintro x ⟨hlo, hhi⟩
    exact ⟨hlo, by omega⟩
  · have hpair : s.clients.Pairwise fun c d => c.ptr ≠ d.ptr :=
      List.pairwise_map.mp hr.distinct
    exact hpair.imp_of_mem fun hc hd hne => hr.disjoint_of_ne hc hd hne

end Represents

/-- After every sequence of allowed operations the free lists and the blocks in
use partition the heap, and the next operation returns.  The exception is a
`kmalloc` or `kfree` after a `kmalloc` that failed: it finds the lock taken. -/
theorem heap_partition (mem : ByteMem) (base : HeapBase) {ops : List HeapOp}
    {s : HeapState} (hrun : Run HeapStep (.boot mem base) ops s) :
    (∃ free, Partition base s free) ∧
      ∀ op : HeapOp, op.Allowed s → (∃ s', s.exec op = .ok s') ∨
        (s.exec op = .error .spin ∧ s.heap.heapLock = true) := by
  obtain ⟨free, live, hr, _⟩ := (represents_boot mem base).run hrun
  refine ⟨⟨free, hr.partition⟩, fun op hop => ?_⟩
  rcases hr.exec hop.served with ⟨s', _, _, hret, _⟩ | hspin
  · exact .inl ⟨s', hret⟩
  · exact .inr hspin

/-- Two allocations, a store and a free on a heap at `0x3000`, which is not
aligned to its own size. -/
theorem heap_partition_at_3000 :
    ∃ s : HeapState, s.clients = [⟨0x5018, 5000⟩] ∧
      (∃ free, Partition ⟨0x3000, by decide, by decide, by decide⟩ s free) ∧
      ∀ op : HeapOp, op.Allowed s → (∃ s', s.exec op = .ok s') ∨
        (s.exec op = .error .spin ∧ s.heap.heapLock = true) := by
  have hclients : (([.kmalloc 100, .kmalloc 5000, .write 0x3020 7, .kfree 0x3018] :
      List HeapOp).foldlM HeapState.attempt (.boot (fun _ => 0)
        ⟨0x3000, by decide, by decide, by decide⟩)).map (·.clients) =
      some [⟨0x5018, 5000⟩] := by decide +kernel
  obtain ⟨s, hs, hc⟩ := Option.map_eq_some_iff.mp hclients
  exact ⟨s, hc, heap_partition _ _ (Run.of_foldlM heapStep_of_attempt hs)⟩

end Toystar.Memory.Heap

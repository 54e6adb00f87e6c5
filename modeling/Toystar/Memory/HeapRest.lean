import Toystar.Memory.HeapRun

/-!
# The heap at rest

After every `kmalloc` and `kfree` no two free blocks are buddies
(`no_free_buddies`).  Whether a heap that got everything back is the heap of
the constructor again is another matter: blocks are cut relative to `baseAddr`
and joined by absolute addresses, so it is, in every run, exactly when
`baseAddr` is a multiple of the heap's size (`freed_heap_is_fresh_iff`).
`PMM::alloc` promises multiples of 4096.
-/

namespace Toystar.Memory.Heap

open Toystar.Kernel
open Toystar.Verified

/-! ## No free buddies -/

/-- In every reachable state no bucket below the top holds a block and its
buddy. -/
theorem no_free_buddies (mem : ByteMem) (base : HeapBase) {ops : List HeapOp}
    {s : HeapState} (hrun : Run HeapStep (.boot mem base) ops s) :
    ∃ free : Nat → List Nat,
      (∀ k ≤ MAX_POWER,
        Chain 0 s.heap.next (s.heap.bucketList (MAX_POWER - k)) (free k)) ∧
      ∀ k < MAX_POWER, ∀ a ∈ free k, ∀ b ∈ free k, b ≠ a ^^^ 2 ^ k := by
  obtain ⟨free, live, hr, _⟩ := (represents_boot mem base).run hrun
  refine ⟨free, hr.shape.chains, ?_⟩
  rintro k hk a ha b hb rfl
  exact hr.rested k hk a ha hb

/-- Two blocks of order 7 on a heap at `0x3000`, freed in the order of their
addresses. -/
theorem no_free_buddies_at_3000 :
    ∃ s : HeapState, s.clients = [] ∧ ∃ free : Nat → List Nat,
      (∀ k ≤ MAX_POWER,
        Chain 0 s.heap.next (s.heap.bucketList (MAX_POWER - k)) (free k)) ∧
      ∀ k < MAX_POWER, ∀ a ∈ free k, ∀ b ∈ free k, b ≠ a ^^^ 2 ^ k := by
  have hclients : (([.kmalloc 100, .kmalloc 100, .kfree 0x3018, .kfree 0x3098] :
      List HeapOp).foldlM HeapState.attempt (.boot (fun _ => 0)
        ⟨0x3000, by decide, by decide, by decide⟩)).map (·.clients) =
      some [] := by decide +kernel
  obtain ⟨s, hs, hc⟩ := Option.map_eq_some_iff.mp hclients
  exact ⟨s, hc, no_free_buddies _ _ (Run.of_foldlM heapStep_of_attempt hs)⟩

/-! ## Everything freed -/

/-- The free lists of the constructor: one block of order 20 at `baseAddr`. -/
def bootLists (base : HeapBase) : Nat → List Nat :=
  fun k => if k = MAX_POWER then [base.addr] else []

/-- The buckets hold what the constructor put there. -/
def HeapState.FreshLists (base : HeapBase) (s : HeapState) : Prop :=
  ∀ k ≤ MAX_POWER,
    Chain 0 s.heap.next (s.heap.bucketList (MAX_POWER - k)) (bootLists base k)

section Freed

variable {base : HeapBase} {s : HeapState} {free : Nat → List Nat}
  {live : Set (Nat × Nat)} {a k : Nat}

theorem mem_bootLists : a ∈ bootLists base k ↔ a = base.addr ∧ k = MAX_POWER := by
  unfold bootLists
  by_cases hk : k = MAX_POWER <;> simp [hk]

theorem isBlock_boot :
    IsBlock (bootLists base) ∅ a k ↔ a = base.addr ∧ k = MAX_POWER := by
  simp [IsBlock, mem_bootLists]

/-- With no pointer in use every block is free. -/
theorem Represents.isBlock_of_freed (hr : Represents base s free live)
    (hfreed : s.clients = []) : IsBlock free live a k ↔ a ∈ free k := by
  have hlive : (a, k) ∉ live := by
    intro hmem
    obtain ⟨c, hc, _⟩ := hr.owner hmem
    rw [hfreed] at hc
    cases hc
  simp [IsBlock, hlive]

/-- A free block of order 20 leaves room for nothing else. -/
theorem Represents.freshLists (hr : Represents base s free live)
    (htop : base.addr ∈ free MAX_POWER) : s.FreshLists base := by
  have honly : ∀ {x j}, x ∈ free j → x = base.addr ∧ j = MAX_POWER := by
    intro x j hx
    obtain rfl := hr.shape.eq_of_top (.inl htop) (.inl hx)
    exact ⟨rfl, hr.shape.order_eq (.inl hx) (.inl htop)⟩
  have hlists : ∀ j, free j = bootLists base j := by
    intro j
    unfold bootLists
    by_cases hj : j = MAX_POWER
    · subst hj
      rw [if_pos rfl]
      cases hf : free MAX_POWER with
      | nil => simp [hf] at htop
      | cons x xs =>
          have hnodup := hr.shape.nodup MAX_POWER
          rw [hf, List.nodup_cons] at hnodup
          have hx : x = base.addr := (honly (by rw [hf]; simp : x ∈ free MAX_POWER)).1
          have hxs : xs = [] := by
            rw [List.eq_nil_iff_forall_not_mem]
            intro y hy
            have hmem : y ∈ free MAX_POWER := by rw [hf]; simp [hy]
            exact hnodup.1 (by rwa [hx, ← (honly hmem).1])
          rw [hx, hxs]
    · rw [if_neg hj, List.eq_nil_iff_forall_not_mem]
      intro x hx
      exact hj (honly hx).2
  intro j hj
  rw [← hlists j]
  exact hr.shape.chains j hj

/-- On an aligned heap blocks stay aligned, so that free buddies would have been
joined: what is left is the whole heap. -/
theorem fresh_of_aligned {mem : ByteMem} {ops : List HeapOp}
    (hbase : 2 ^ MAX_POWER ∣ base.addr)
    (hrun : Run HeapStep (.boot mem base) ops s) (hfreed : s.clients = []) :
    s.FreshLists base := by
  obtain ⟨free, live, hr, hmoves⟩ := (represents_boot mem base).run hrun
  have hboot : Moves.Aligned (IsBlock (bootLists base) ∅) := by
    intro x j hx
    obtain ⟨rfl, rfl⟩ := isBlock_boot.mp hx
    exact hbase
  have hal := hmoves.aligned hboot
  have htiles := hr.shape.tiles
  rw [hr.base_eq] at htiles
  refine hr.freshLists ((hr.isBlock_of_freed hfreed).mp
    (whole_of_noBuddies htiles hbase hal ?_))
  intro x j hj hx hbuddy
  rw [hr.isBlock_of_freed hfreed] at hx hbuddy
  exact hr.rested j hj x hx hbuddy

/-- A base that is not aligned to the heap has a set bit between the frame size
and the heap size. -/
theorem exists_base_bit (hbase : ¬2 ^ MAX_POWER ∣ base.addr) :
    ∃ j, 12 ≤ j ∧ j ≤ 19 ∧ base.addr.testBit j = true := by
  have hmod : base.addr % 2 ^ MAX_POWER ≠ 0 :=
    fun h => hbase (Nat.dvd_of_mod_eq_zero h)
  obtain ⟨j, hj⟩ := Nat.exists_testBit_of_ne_zero hmod
  rw [Nat.testBit_mod_two_pow, Bool.and_eq_true, decide_eq_true_eq] at hj
  obtain ⟨hlt, hbit⟩ := hj
  refine ⟨j, ?_, by unfold MAX_POWER at hlt; omega, hbit⟩
  by_contra hj12
  obtain ⟨q, hq⟩ := base.aligned
  rw [hq, show 4096 = 2 ^ 12 from rfl, Nat.testBit_two_pow_mul] at hbit
  simp only [Bool.and_eq_true, decide_eq_true_eq] at hbit
  omega

/-- One allocation of order `j` and its return leave a block off the grid of bit
`j`, when that bit of the base is set. -/
theorem stranded_run (mem : ByteMem) {j : Nat} (hj : 12 ≤ j) (hj' : j ≤ 19)
    (hbit : base.addr.testBit j = true) :
    ∃ ops s, Run HeapStep (.boot mem base) ops s ∧ s.clients = [] ∧
      ¬s.FreshLists base := by
  have hr := represents_boot mem base
  have hpow : 2 ^ 12 ≤ 2 ^ j := Nat.pow_le_pow_right (by omega) hj
  have hpow' : 2 ^ j ≤ 2 ^ 19 := Nat.pow_le_pow_right (by omega) hj'
  have hbytes : 2 ^ j - sizeofBlock + sizeofBlock = 2 ^ j := by
    unfold sizeofBlock
    omega
  have hask : 2 ^ j - sizeofBlock + sizeofBlock ≤ 2 ^ 19 := by omega
  rcases hr.shape.kmalloc rfl (.inl hask) with
    ⟨_, hempty⟩ | ⟨k, t, a, h', hleast, _, hret, hs, hnew, _, _, hlock, hb⟩
  · -- the block of order 20 serves every request
    have htop : base.addr ∈ bootLists base MAX_POWER := mem_bootLists.mpr ⟨rfl, rfl⟩
    have hnil : bootLists base MAX_POWER = [] :=
      hempty MAX_POWER (by unfold MAX_POWER; omega)
    rw [hnil] at htop
    cases htop
  · have hkj : k ≤ j := le_of_isLeast_orders hleast (by omega) (by omega)
    have hr₁ := hr.kmalloc_some hs (hr.rested.taken k t a) hnew hleast.1.2 hb
    have hne : a + sizeofBlock ≠ 0 := by simp [sizeofBlock]
    have hstep₁ : HeapStep (.boot mem base) (.kmalloc (2 ^ j - sizeofBlock))
        ⟨h', [⟨a + sizeofBlock, 2 ^ j - sizeofBlock⟩]⟩ := by
      refine ⟨hask, ?_⟩
      simp only [HeapState.exec, hret, ok_bind, if_neg hne]
      rfl
    have hallowed : (HeapOp.kfree (a + sizeofBlock)).Allowed
        ⟨h', [⟨a + sizeofBlock, 2 ^ j - sizeofBlock⟩]⟩ :=
      ⟨⟨a + sizeofBlock, 2 ^ j - sizeofBlock⟩, by simp, rfl⟩
    rcases hr₁.exec hallowed.served with ⟨s₂, free₂, live₂, hret₂, hr₂, hmoves⟩ | ⟨_, hheld⟩
    · have hfreed : s₂.clients = [] := by
        simp only [HeapState.exec] at hret₂
        obtain ⟨h₂, _, hret₂⟩ := bind_eq_ok.mp hret₂
        rw [← Except.ok.inj hret₂]
        simp [HeapState.boot]
      refine ⟨_, s₂, .cons hstep₁ (.cons ⟨hallowed, hret₂⟩ (.nil _)), hfreed, ?_⟩
      intro hfresh
      obtain ⟨x, i, hx, hoff⟩ := hmoves.offGrid (j := j)
        ⟨a, k, .inr (Set.mem_insert _ _), .inl hkj⟩
      have hi := (hr₂.shape.order hx).2
      rw [hr₂.isBlock_of_freed hfreed,
        (hr₂.shape.chains i hi).unique (hfresh i hi), mem_bootLists] at hx
      obtain ⟨rfl, rfl⟩ := hx
      rcases hoff with h' | h'
      · unfold MAX_POWER at h'
        omega
      · rw [hbit] at h'
        cases h'
    · rw [hlock] at hheld
      cases hheld

end Freed

/-- Every run that gave everything back leaves the heap of the constructor, if and
only if the heap starts at a multiple of its own size. -/
theorem freed_heap_is_fresh_iff (base : HeapBase) :
    (∀ (mem : ByteMem) (ops : List HeapOp) (s : HeapState),
      Run HeapStep (.boot mem base) ops s → s.clients = [] → s.FreshLists base) ↔
    2 ^ 20 ∣ base.addr := by
  constructor
  · intro hall
    by_contra hbase
    obtain ⟨j, hj, hj', hbit⟩ := exists_base_bit hbase
    obtain ⟨ops, s, hrun, hfreed, hstale⟩ := stranded_run (fun _ => 0) hj hj' hbit
    exact hstale (hall _ ops s hrun hfreed)
  · intro hbase mem ops s hrun hfreed
    exact fresh_of_aligned hbase hrun hfreed

/-- One page taken from a heap at `0x3000` and returned: the bucket of order 20
stays empty. -/
theorem freed_heap_stays_cut :
    ∃ s : HeapState,
      Run HeapStep (.boot (fun _ => 0) ⟨0x3000, by decide, by decide, by decide⟩)
        [.kmalloc 4000, .kfree 0x3018] s ∧
      s.clients = [] ∧ s.heap.bucketList 0 = 0 ∧
      ¬s.FreshLists ⟨0x3000, by decide, by decide, by decide⟩ := by
  have hend : (([.kmalloc 4000, .kfree 0x3018] :
      List HeapOp).foldlM HeapState.attempt (.boot (fun _ => 0)
        ⟨0x3000, by decide, by decide, by decide⟩)).map
          (fun s => (s.clients, s.heap.bucketList 0)) =
      some ([], 0) := by decide +kernel
  obtain ⟨s, hs, hc⟩ := Option.map_eq_some_iff.mp hend
  have hclients : s.clients = [] := (Prod.ext_iff.mp hc).1
  have htop : s.heap.bucketList 0 = 0 := (Prod.ext_iff.mp hc).2
  refine ⟨s, Run.of_foldlM heapStep_of_attempt hs, hclients, htop, ?_⟩
  intro hfresh
  have hchain := hfresh MAX_POWER (le_refl _)
  rw [Nat.sub_self, htop] at hchain
  exact absurd hchain.1 (by decide)

end Toystar.Memory.Heap

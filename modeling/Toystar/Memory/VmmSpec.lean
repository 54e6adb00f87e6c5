import Toystar.Memory.PageTree

/-!
# What the pagemap operations do to the tree

One specification for each function of the walk.  The allocator enters through
`Supplies`: it can serve the next requests with zeroed frames outside those in
use.  A walk grows the tree without changing a translation (`Grows`); `map_page`
then changes the one it is asked to.  Both write to the pagemap's own tables
only, so that what another pagemap holds is not touched (`SameOutside`).
-/

namespace Toystar.Memory

open Toystar.Klibc
open Toystar.Verified

variable {σ : Type} {alloc : FrameAlloc σ}

/-- The allocator can serve `n` requests, each with a zeroed frame outside
`avoid` and outside the frames served before. -/
def Supplies (alloc : FrameAlloc σ) : Nat → σ → Set Nat → Prop
  | 0, _, _ => True
  | n + 1, pmm, avoid => ∃ f pmm',
      (∀ mem, alloc pmm mem = (f, pmm', memset mem f 0 PAGE_SIZE)) ∧
      IsFrame f ∧ f ∉ avoid ∧ Supplies alloc n pmm' (insert f avoid)

theorem Supplies.mono {n : Nat} {pmm : σ} {avoid avoid' : Set Nat}
    (h : Supplies alloc n pmm avoid) (hsub : avoid' ⊆ avoid) :
    Supplies alloc n pmm avoid' := by
  induction n generalizing pmm avoid avoid' with
  | zero => trivial
  | succ n ih =>
      obtain ⟨f, pmm', hret, hf, hnew, hrest⟩ := h
      exact ⟨f, pmm', hret, hf, fun hmem => hnew (hsub hmem),
        ih hrest (Set.insert_subset_insert hsub)⟩

theorem Supplies.of_succ {n : Nat} {pmm : σ} {avoid : Set Nat}
    (h : Supplies alloc (n + 1) pmm avoid) : Supplies alloc n pmm avoid := by
  induction n generalizing pmm avoid with
  | zero => trivial
  | succ n ih =>
      obtain ⟨f, pmm', hret, hf, hnew, hrest⟩ := h
      exact ⟨f, pmm', hret, hf, hnew, ih hrest⟩

theorem Supplies.of_le {m n : Nat} {pmm : σ} {avoid : Set Nat}
    (h : Supplies alloc n pmm avoid) (hle : m ≤ n) : Supplies alloc m pmm avoid := by
  induction hle with
  | refl => exact h
  | step _ ih => exact ih h.of_succ

/-- A rule of supply: while `S (n + 1) pmm avoid` holds, the next request gets a zeroed
frame outside `avoid` and leaves `n` more, or it is refused, which only some rules
admit. -/
structure Supply (alloc : FrameAlloc σ) (Refusable : Prop)
    (S : Nat → σ → Set Nat → Prop) : Prop where
  mono : ∀ {n pmm avoid avoid'}, S n pmm avoid → avoid' ⊆ avoid → S n pmm avoid'
  of_succ : ∀ {n pmm avoid}, S (n + 1) pmm avoid → S n pmm avoid
  take : ∀ {n pmm avoid}, S (n + 1) pmm avoid →
    (∃ f pmm', (∀ mem, alloc pmm mem = (f, pmm', memset mem f 0 PAGE_SIZE)) ∧
      IsFrame f ∧ f ∉ avoid ∧ S n pmm' (insert f avoid)) ∨
    (Refusable ∧ ∀ mem, alloc pmm mem = (0, pmm, mem))

theorem supply_supplies : Supply alloc False (Supplies alloc) :=
  { mono := Supplies.mono
    of_succ := Supplies.of_succ
    take := fun h => .inl h }

/-- The allocator answers `n` requests, each with a zeroed frame outside those in use
or with null, which changes nothing. -/
def Serves (alloc : FrameAlloc σ) : Nat → σ → Set Nat → Prop
  | 0, _, _ => True
  | n + 1, pmm, avoid =>
      (∃ f pmm', (∀ mem, alloc pmm mem = (f, pmm', memset mem f 0 PAGE_SIZE)) ∧
        IsFrame f ∧ f ∉ avoid ∧ Serves alloc n pmm' (insert f avoid)) ∨
      ∀ mem, alloc pmm mem = (0, pmm, mem)

theorem Serves.mono {n : Nat} {pmm : σ} {avoid avoid' : Set Nat}
    (h : Serves alloc n pmm avoid) (hsub : avoid' ⊆ avoid) :
    Serves alloc n pmm avoid' := by
  induction n generalizing pmm avoid avoid' with
  | zero => trivial
  | succ n ih =>
      rcases h with ⟨f, pmm', hret, hf, hnew, hrest⟩ | hnull
      · exact .inl ⟨f, pmm', hret, hf, fun hmem => hnew (hsub hmem),
          ih hrest (Set.insert_subset_insert hsub)⟩
      · exact .inr hnull

theorem Serves.of_succ {n : Nat} {pmm : σ} {avoid : Set Nat}
    (h : Serves alloc (n + 1) pmm avoid) : Serves alloc n pmm avoid := by
  induction n generalizing pmm avoid with
  | zero => trivial
  | succ n ih =>
      rcases h with ⟨f, pmm', hret, hf, hnew, hrest⟩ | hnull
      · exact .inl ⟨f, pmm', hret, hf, hnew, ih hrest⟩
      · exact .inr hnull

theorem supply_serves : Supply alloc True (Serves alloc) :=
  { mono := Serves.mono
    of_succ := Serves.of_succ
    take := fun h => h.imp id fun hnull => ⟨trivial, hnull⟩ }

/-- `PMM::alloc(1)`: the lowest free page, or null while there is none. -/
theorem allocFrame_first (p : Pmm) :
    ((∀ mem, Vmm.allocFrame p mem = (0, p, mem)) ∧
      freeCells p.bitmap.isBitSet p.pages = 0) ∨
    ∃ page, (∀ mem, Vmm.allocFrame p mem = (page * PAGE_SIZE,
        { p with bitmap := Pmm.setBits p.bitmap page 1 },
        memset mem (page * PAGE_SIZE) 0 PAGE_SIZE)) ∧
      page < p.pages ∧ p.bitmap.isBitSet page = false ∧
      (page ≠ 0 → p.bitmap.isBitSet 0 = true) ∧
      freeCells (Pmm.setBits p.bitmap page 1).isBitSet p.pages + 1 =
        freeCells p.bitmap.isBitSet p.pages := by
  cases hfit : firstFit p.bitmap.isBitSet 1 p.pages 0 0 with
  | none =>
      refine .inl ⟨fun mem => by simp only [Vmm.allocFrame, Pmm.alloc, hfit], ?_⟩
      by_contra hfree
      obtain ⟨i, hi, hibit⟩ := exists_free_of_pos (Nat.pos_of_ne_zero hfree)
      refine firstFit_eq_none (by omega) hfit i (by omega) (by omega) ?_
      intro j hlo hhi
      obtain rfl : j = i := by omega
      exact hibit
  | some page =>
      obtain ⟨_, hbelow, hrange, hmin⟩ :=
        firstFit_eq_some (le_refl 0) (by omega) (fun j _ hj => by omega) hfit
      refine .inr ⟨page, fun mem => ?_, by omega, hrange page (le_refl _) (by omega), ?_,
        freeCells_occupy (by omega) hrange (Pmm.isBitSet_setBits p.bitmap page 1)⟩
      · simp only [Vmm.allocFrame, Pmm.alloc, hfit, Nat.one_mul]
      · intro hne
        by_contra hzero
        refine hmin 0 (by omega) (by omega) fun j _ hj => ?_
        obtain rfl : j = 0 := by omega
        exact Bool.eq_false_of_not_eq_true hzero

/-- With page 0 in use the page is a frame that the direct map reaches. -/
theorem allocFrame_cases {pmm : Pmm} (hzero : pmm.bitmap.isBitSet 0 = true)
    (hpages : pmm.pages * PAGE_SIZE ≤ 2 ^ 47) :
    (∃ page, (∀ mem, Vmm.allocFrame pmm mem = (page * PAGE_SIZE,
        { pmm with bitmap := Pmm.setBits pmm.bitmap page 1 },
        memset mem (page * PAGE_SIZE) 0 PAGE_SIZE)) ∧
      IsFrame (page * PAGE_SIZE) ∧ pmm.bitmap.isBitSet page = false ∧
      freeCells (Pmm.setBits pmm.bitmap page 1).isBitSet pmm.pages + 1 =
        freeCells pmm.bitmap.isBitSet pmm.pages) ∨
    ((∀ mem, Vmm.allocFrame pmm mem = (0, pmm, mem)) ∧
      freeCells pmm.bitmap.isBitSet pmm.pages = 0) := by
  rcases allocFrame_first pmm with hnone | ⟨page, hret, hlt, hbit, _, hcells⟩
  · exact .inr hnone
  · have hpage : page ≠ 0 := by
      intro heq
      rw [heq, hzero] at hbit
      cases hbit
    have hmul : (page + 1) * PAGE_SIZE ≤ pmm.pages * PAGE_SIZE := Nat.mul_le_mul_right _ hlt
    refine .inl ⟨page, hret, ⟨Nat.dvd_mul_left _ _, ?_, ?_⟩, hbit, hcells⟩
    · unfold PAGE_SIZE
      omega
    · unfold PAGE_SIZE at *
      omega

/-- The page taken is in use from then on, like the pages of `avoid`. -/
theorem used_of_taken {pmm : Pmm} {avoid : Set Nat} {page : Nat}
    (havoid : ∀ i, i * PAGE_SIZE ∈ avoid → pmm.bitmap.isBitSet i = true) (i : Nat)
    (hi : i * PAGE_SIZE ∈ insert (page * PAGE_SIZE) avoid) :
    (Pmm.setBits pmm.bitmap page 1).isBitSet i = true := by
  rw [Pmm.isBitSet_setBits]
  rcases hi with hi | hi
  · have hip : i = page := by
      unfold PAGE_SIZE at hi
      omega
    rw [hip]
    simp
  · rw [havoid i hi, Bool.or_true]

/-- The frame allocator meets the contract as long as it has free frames: page 0 and the
pages of `avoid` are in use, and every page is one the direct map reaches. -/
theorem supplies_allocFrame {n : Nat} {pmm : Pmm} {avoid : Set Nat}
    (hzero : pmm.bitmap.isBitSet 0 = true) (hpages : pmm.pages * PAGE_SIZE ≤ 2 ^ 47)
    (havoid : ∀ i, i * PAGE_SIZE ∈ avoid → pmm.bitmap.isBitSet i = true)
    (hfree : n ≤ freeCells pmm.bitmap.isBitSet pmm.pages) :
    Supplies Vmm.allocFrame n pmm avoid := by
  induction n generalizing pmm avoid with
  | zero => trivial
  | succ n ih =>
      rcases allocFrame_cases hzero hpages with
        ⟨page, hret, hframe, hbit, hcells⟩ | ⟨_, hnone⟩
      · refine ⟨page * PAGE_SIZE, _, hret, hframe, fun hmem => ?_,
          ih ?_ hpages (used_of_taken havoid) ?_⟩
        · rw [havoid page hmem] at hbit
          cases hbit
        · rw [Pmm.isBitSet_setBits, hzero, Bool.or_true]
        · change n ≤ freeCells (Pmm.setBits pmm.bitmap page 1).isBitSet pmm.pages
          omega
      · omega

/-- However many frames it has left, it answers every request. -/
theorem serves_allocFrame (n : Nat) {pmm : Pmm} {avoid : Set Nat}
    (hzero : pmm.bitmap.isBitSet 0 = true) (hpages : pmm.pages * PAGE_SIZE ≤ 2 ^ 47)
    (havoid : ∀ i, i * PAGE_SIZE ∈ avoid → pmm.bitmap.isBitSet i = true) :
    Serves Vmm.allocFrame n pmm avoid := by
  induction n generalizing pmm avoid with
  | zero => trivial
  | succ n ih =>
      rcases allocFrame_cases hzero hpages with
        ⟨page, hret, hframe, hbit, _⟩ | ⟨hnull, _⟩
      · refine .inl ⟨page * PAGE_SIZE, _, hret, hframe, fun hmem => ?_,
          ih ?_ hpages (used_of_taken havoid)⟩
        · rw [havoid page hmem] at hbit
          cases hbit
        · rw [Pmm.isBitSet_setBits, hzero, Bool.or_true]
      · exact .inr hnull

/-! ## What memory keeps -/

/-- The frame of an address. -/
def frameOf (x : Nat) : Nat := x / PAGE_SIZE * PAGE_SIZE

theorem frameOf_add {f i : Nat} (hf : PAGE_SIZE ∣ f) (hi : i < PAGE_SIZE) :
    frameOf (f + i) = f := by
  obtain ⟨a, rfl⟩ := hf
  unfold frameOf PAGE_SIZE at *
  omega

/-- Memory differs inside the frames `W` at most. -/
def SameOutside (W : Set Nat) (mem mem' : ByteMem) : Prop :=
  ∀ x, frameOf x ∉ W → mem' x = mem x

theorem SameOutside.mono {W W' : Set Nat} {mem mem' : ByteMem}
    (h : SameOutside W mem mem') (hsub : W ⊆ W') : SameOutside W' mem mem' :=
  fun x hx => h x fun hmem => hx (hsub hmem)

theorem SameOutside.trans {W : Set Nat} {mem₁ mem₂ mem₃ : ByteMem}
    (h₁ : SameOutside W mem₁ mem₂) (h₂ : SameOutside W mem₂ mem₃) :
    SameOutside W mem₁ mem₃ :=
  fun x hx => (h₂ x hx).trans (h₁ x hx)

theorem sameOutside_setEntry {W : Set Nat} {t i : Nat} (ht : PAGE_SIZE ∣ t) (hi : i < 512)
    (hmem : t ∈ W) (mem : ByteMem) (v : Nat) :
    SameOutside W mem (setEntry mem t i v) := by
  intro x hx
  apply ByteMem.write64_of_not_mem
  by_contra hin
  have hxt : x = t + (x - t) := by omega
  rw [hxt, frameOf_add ht (by unfold PAGE_SIZE; omega)] at hx
  exact hx hmem

theorem sameOutside_memset {W : Set Nat} {f : Nat} (hf : PAGE_SIZE ∣ f) (hmem : f ∈ W)
    (mem : ByteMem) : SameOutside W mem (memset mem f 0 PAGE_SIZE) := by
  intro x hx
  apply memset_of_not_mem
  by_contra hin
  have hxf : x = f + (x - f) := by omega
  rw [hxf, frameOf_add hf (by omega)] at hx
  exact hx hmem

/-- `vmm(true)` writes to its table only. -/
theorem sameOutside_newTable {f : Nat} (hf : PAGE_SIZE ∣ f) (mem : ByteMem) (e₁ e₂ : Nat) :
    SameOutside {f} mem (setEntry (setEntry (memset mem f 0 PAGE_SIZE) f 256 e₁) f 511 e₂) := by
  have hself : f ∈ ({f} : Set Nat) := rfl
  exact ((sameOutside_memset hf hself _).trans
    (sameOutside_setEntry hf (by decide) hself _ _)).trans
    (sameOutside_setEntry hf (by decide) hself _ _)

/-- Its user entries are zero. -/
theorem entryAt_newTable {f i : Nat} (hf : PAGE_SIZE ∣ f) (hi : UserIndex [] i)
    (mem : ByteMem) (e₁ e₂ : Nat) :
    entryAt (setEntry (setEntry (memset mem f 0 PAGE_SIZE) f 256 e₁) f 511 e₂) f i = 0 := by
  have hkernel := hi.2 rfl
  rw [entryAt_setEntry_of_ne hf hf (by decide) hi.1 (.inr (Ne.symm hkernel.2)),
    entryAt_setEntry_of_ne hf hf (by decide) hi.1 (.inr (Ne.symm hkernel.1)),
    entryAt_memset_self hi.1]

/-! ## The walk -/

/-- An address whose top entry is not one the kernel shares. -/
def UserAddr (virt : Nat) : Prop := getPml4e virt ≠ 256 ∧ getPml4e virt ≠ 511

instance (virt : Nat) : Decidable (UserAddr virt) :=
  inferInstanceAs (Decidable (_ ∧ _))

/-- The pagemap after some calls of `get_next_level`: a larger tree with the
same translations, and no other memory written. -/
structure Grows (k : Machine σ) (vm : Vmm) (tab : List Nat → Option Nat)
    (k' : Machine σ) (vm' : Vmm) (tab' : List Nat → Option Nat) : Prop where
  tree : PageTree k'.mem vm' tab'
  leaf_eq : ∀ virt, leaf k'.mem tab' virt = leaf k.mem tab virt
  pml4_eq : vm'.pml4 = vm.pml4
  ranges_eq : vm'.ranges = vm.ranges
  tables_sub : vm.tables ⊆ vm'.tables
  same : SameOutside vm'.tables k.mem k'.mem

/-- The tables a pagemap gained come from outside `avoid`, and there are frames for
`n` more requests. -/
structure Gains (alloc : FrameAlloc σ) (avoid : Set Nat) (n : Nat) (vm : Vmm)
    (pmm' : σ) (vm' : Vmm) : Prop where
  fresh : ∀ t ∈ vm'.tables, t ∈ vm.tables ∨ t ∉ avoid
  supply : Supplies alloc n pmm' (avoid ∪ vm'.tables)

/-- The same for any rule of supply. -/
structure GainsBy (S : Nat → σ → Set Nat → Prop) (avoid : Set Nat) (n : Nat) (vm : Vmm)
    (pmm' : σ) (vm' : Vmm) : Prop where
  fresh : ∀ t ∈ vm'.tables, t ∈ vm.tables ∨ t ∉ avoid
  supply : S n pmm' (avoid ∪ vm'.tables)

variable {k k₁ k₂ : Machine σ} {vm vm₁ vm₂ : Vmm}
  {tab tab₁ tab₂ : List Nat → Option Nat} {path : List Nat} {t i n virt : Nat}
  {Refusable : Prop} {S : Nat → σ → Set Nat → Prop}

theorem Grows.refl (ht : PageTree k.mem vm tab) : Grows k vm tab k vm tab :=
  ⟨ht, fun _ => rfl, rfl, rfl, Set.Subset.refl _, fun _ _ => rfl⟩

theorem Grows.trans (h₁ : Grows k vm tab k₁ vm₁ tab₁)
    (h₂ : Grows k₁ vm₁ tab₁ k₂ vm₂ tab₂) : Grows k vm tab k₂ vm₂ tab₂ :=
  ⟨h₂.tree, fun virt => (h₂.leaf_eq virt).trans (h₁.leaf_eq virt),
    h₂.pml4_eq.trans h₁.pml4_eq, h₂.ranges_eq.trans h₁.ranges_eq,
    h₁.tables_sub.trans h₂.tables_sub, (h₁.same.mono h₂.tables_sub).trans h₂.same⟩

theorem GainsBy.gains {avoid : Set Nat} {pmm' : σ}
    (h : GainsBy (Supplies alloc) avoid n vm pmm' vm₁) : Gains alloc avoid n vm pmm' vm₁ :=
  ⟨h.fresh, h.supply⟩

/-- One call after another. -/
theorem GainsBy.trans (hS : Supply alloc Refusable S) {avoid : Set Nat} {n₁ n₂ : Nat}
    {pmm₁ pmm₂ : σ} (h₁ : GainsBy S avoid n₁ vm pmm₁ vm₁)
    (h₂ : GainsBy S (avoid ∪ vm₁.tables) n₂ vm₁ pmm₂ vm₂) :
    GainsBy S avoid n₂ vm pmm₂ vm₂ := by
  refine ⟨?_, hS.mono h₂.supply ?_⟩
  · intro t ht
    rcases h₂.fresh t ht with hold | hnew
    · exact h₁.fresh t hold
    · exact .inr fun hmem => hnew (.inl hmem)
  · exact Set.union_subset_union_left _ Set.subset_union_left

/-- The entries of the top table that the kernel shares are the same. -/
def KeepsKernel (pml4 : Nat) (mem mem' : ByteMem) : Prop :=
  ∀ j < 512, ¬UserIndex [] j → entryAt mem' pml4 j = entryAt mem pml4 j

theorem KeepsKernel.refl (pml4 : Nat) (mem : ByteMem) : KeepsKernel pml4 mem mem :=
  fun _ _ _ => rfl

theorem KeepsKernel.trans {pml4 : Nat} {mem₁ mem₂ mem₃ : ByteMem}
    (h₁ : KeepsKernel pml4 mem₁ mem₂) (h₂ : KeepsKernel pml4 mem₂ mem₃) :
    KeepsKernel pml4 mem₁ mem₃ :=
  fun j hj hk => (h₂ j hj hk).trans (h₁ j hj hk)

/-- A link or a page table's entry is none of them. -/
theorem PageTree.keepsKernel_setEntry {mem : ByteMem} (ht : PageTree mem vm tab)
    (hpath : tab path = some t) (hi : UserIndex path i) (v : Nat) (mem' : ByteMem) :
    KeepsKernel vm.pml4 mem' (setEntry mem' t i v) := by
  intro j hj hkernel
  refine entryAt_setEntry_of_ne (ht.frame hpath).1 (ht.frame ht.root).1 hi.1 hj ?_
  by_cases htop : t = vm.pml4
  · refine .inr fun hij => hkernel ?_
    rw [htop] at hpath
    rw [← ht.inj hpath ht.root, ← hij]
    exact hi
  · exact .inl htop

/-- `get_next_level` only adds to the recorded tables. -/
theorem mem_getNextLevel {a curr : Nat} (ha : a ∈ vm.pageTablesAddr) :
    a ∈ (Vmm.getNextLevel alloc k vm curr i).2.2.pageTablesAddr := by
  unfold Vmm.getNextLevel
  split
  · exact List.mem_append_left _ ha
  · exact ha

/-- `get_next_level` follows a link. -/
theorem getNextLevel_linked {vm : Vmm} {t i u : Nat} (hu : IsFrame u)
    (hlink : entryAt k.mem t i = u ||| 0b111) :
    Vmm.getNextLevel alloc k vm t i = (u, k, vm) := by
  have hlt := hu.2.2
  have hval : u ||| 0b111 = u + 7 := or_low hu.1 (by decide)
  have hne : entryAt k.mem t i ≠ 0 := by
    rw [hlink, hval]
    omega
  have hmask := or_and_frameMask (f := 0b111) hu.1 (by omega) (by decide)
  rw [Nat.mod_eq_of_lt (by omega)] at hmask
  rw [Vmm.getNextLevel, if_neg hne, hlink, hmask]

/-- `get_next_level` returns the table at the index, made if necessary; a request that
is refused leaves null among the recorded tables. -/
theorem Supply.getNextLevel (hS : Supply alloc Refusable S) (ht : PageTree k.mem vm tab)
    (hpath : tab path = some t) (hlen : path.length < 3) (hi : UserIndex path i)
    {avoid : Set Nat} (havoid : vm.tables ⊆ avoid) (hsup : S (n + 1) k.pmm avoid) :
    (∃ t' k' vm' tab', Vmm.getNextLevel alloc k vm t i = (t', k', vm') ∧
      Grows k vm tab k' vm' tab' ∧ tab' (i :: path) = some t' ∧
      KeepsKernel vm.pml4 k.mem k'.mem ∧ GainsBy S avoid n vm k'.pmm vm') ∨
    (Refusable ∧ 0 ∈ (Vmm.getNextLevel alloc k vm t i).2.2.pageTablesAddr) := by
  have hlink := ht.link hpath hlen hi
  cases hnext : tab (i :: path) with
  | none =>
      rw [hnext, Option.elim_none] at hlink
      rcases hS.take hsup with ⟨f, pmm', hret, hf, hnew, hrest⟩ | ⟨hrefuse, hnull⟩
      · have hfresh : f ∉ vm.tables := fun hmem => hnew (havoid hmem)
        have htables : Vmm.tables
            { vm with pageTablesAddr := vm.pageTablesAddr ++ [f] } =
            insert f vm.tables := by
          ext u
          simp only [Vmm.tables, List.mem_append, List.mem_singleton,
            Set.mem_ofPred_eq, Set.mem_insert_iff]
          tauto
        refine .inl ⟨f, ⟨setEntry (memset k.mem f 0 PAGE_SIZE) t i (f ||| 0b111), pmm'⟩,
          { vm with pageTablesAddr := vm.pageTablesAddr ++ [f] },
          Function.update tab (i :: path) (some f), ?_, ?_, ?_, ?_, ?_⟩
        · rw [Vmm.getNextLevel, if_pos hlink, hret]
        · refine ⟨ht.create hpath hlen hi hnext hf hfresh,
            ht.leaf_create hpath hlen hi hnext hf hfresh, rfl, rfl, ?_, ?_⟩
          · rw [htables]
            exact Set.subset_insert _ _
          · rw [htables]
            exact (sameOutside_memset hf.1 (Set.mem_insert _ _) _).trans
              (sameOutside_setEntry (ht.frame hpath).1 hi.1
                (Set.mem_insert_of_mem _ (ht.recorded hpath)) _ _)
        · rw [Function.update_self]
        · refine KeepsKernel.trans ?_ (ht.keepsKernel_setEntry hpath hi _ _)
          intro j hj _
          exact entryAt_memset_of_ne hf.1 (ht.frame ht.root).1 hj
            fun heq => hfresh (.inl heq.symm)
        · refine ⟨?_, hS.mono hrest ?_⟩
          · rw [htables]
            rintro u (rfl | hu)
            · exact .inr hnew
            · exact .inl hu
          · rw [htables, Set.union_insert, Set.union_eq_self_of_subset_right havoid]
      · refine .inr ⟨hrefuse, ?_⟩
        rw [Vmm.getNextLevel, if_pos hlink, hnull]
        exact List.mem_append_right _ (List.mem_singleton_self 0)
  | some u =>
      rw [hnext, Option.elim_some] at hlink
      refine .inl ⟨u, k, vm, tab, getNextLevel_linked (ht.frame hnext) hlink, Grows.refl ht,
        hnext, KeepsKernel.refl _ _, fun t ht => .inl ht, ?_⟩
      rw [Set.union_eq_self_of_subset_right havoid]
      exact hS.of_succ hsup

/-- The three levels of a walk end at the page table of the address. -/
theorem Supply.walk (hS : Supply alloc Refusable S) (ht : PageTree k.mem vm tab)
    (hvirt : UserAddr virt) {avoid : Set Nat} (havoid : vm.tables ⊆ avoid)
    (hsup : S (n + 3) k.pmm avoid) :
    (∃ pt k' vm' tab', Vmm.walk alloc k vm virt = (pt, k', vm') ∧
      Grows k vm tab k' vm' tab' ∧ tab' (pathOf virt) = some pt ∧
      KeepsKernel vm.pml4 k.mem k'.mem ∧ GainsBy S avoid n vm k'.pmm vm') ∨
    (Refusable ∧ 0 ∈ (Vmm.walk alloc k vm virt).2.2.pageTablesAddr) := by
  have hidx : ∀ {a : Nat} {path : List Nat}, path ≠ [] →
      UserIndex path (a % 512) := fun hne =>
    ⟨Nat.mod_lt _ (by decide), fun hnil => absurd hnil hne⟩
  rcases hS.getNextLevel (n := n + 2) (i := getPml4e virt) ht ht.root (by simp)
      ⟨Nat.mod_lt _ (by decide), fun _ => hvirt⟩ havoid hsup with
    ⟨pdp, k₁, vm₁, tab₁, hret₁, hg₁, htab₁, hk₁, hn₁⟩ | ⟨hrefuse, hnull⟩
  · rcases hS.getNextLevel (n := n + 1) (i := getPdpe virt) hg₁.tree htab₁ (by simp)
        (hidx (by simp)) Set.subset_union_right hn₁.supply with
      ⟨pd, k₂, vm₂, tab₂, hret₂, hg₂, htab₂, hk₂, hn₂⟩ | ⟨hrefuse, hnull⟩
    · have hn₁₂ := hn₁.trans hS hn₂
      rcases hS.getNextLevel (n := n) (i := getPde virt) hg₂.tree htab₂ (by simp)
          (hidx (by simp)) Set.subset_union_right hn₁₂.supply with
        ⟨pt, k₃, vm₃, tab₃, hret₃, hg₃, htab₃, hk₃, hn₃⟩ | ⟨hrefuse, hnull⟩
      · rw [hg₁.pml4_eq] at hk₂
        rw [hg₂.pml4_eq, hg₁.pml4_eq] at hk₃
        refine .inl ⟨pt, k₃, vm₃, tab₃, ?_, (hg₁.trans hg₂).trans hg₃, htab₃,
          (hk₁.trans hk₂).trans hk₃, hn₁₂.trans hS hn₃⟩
        simp only [Vmm.walk, hret₁, hret₂, hret₃]
      · refine .inr ⟨hrefuse, ?_⟩
        simpa only [Vmm.walk, hret₁, hret₂] using hnull
    · refine .inr ⟨hrefuse, ?_⟩
      simp only [Vmm.walk, hret₁]
      exact mem_getNextLevel hnull
  · refine .inr ⟨hrefuse, ?_⟩
    obtain ⟨r, hret₁⟩ : ∃ r,
        Vmm.getNextLevel alloc k vm vm.pml4 (getPml4e virt) = r := ⟨_, rfl⟩
    rw [hret₁] at hnull
    simp only [Vmm.walk, hret₁]
    exact mem_getNextLevel (mem_getNextLevel hnull)

/-! ## `map_page` and `virtual_to_physical` -/

/-- Bits 12 to 47 of an address. -/
def pageOf (virt : Nat) : Nat := virt / 2 ^ 12 % 2 ^ 36

theorem getPte_eq (v : Nat) : getPte v = pageOf v % 512 := by
  unfold getPte pageOf
  omega

theorem getPde_eq (v : Nat) : getPde v = pageOf v / 2 ^ 9 % 512 := by
  unfold getPde pageOf
  omega

theorem getPdpe_eq (v : Nat) : getPdpe v = pageOf v / 2 ^ 18 % 512 := by
  unfold getPdpe pageOf
  omega

theorem getPml4e_eq (v : Nat) : getPml4e v = pageOf v / 2 ^ 27 := by
  unfold getPml4e pageOf
  omega

/-- The four indices are the page. -/
theorem pageOf_eq_iff {v w : Nat} :
    pageOf v = pageOf w ↔ pathOf v = pathOf w ∧ getPte v = getPte w := by
  simp only [pathOf, List.cons.injEq, and_true, getPte_eq, getPde_eq, getPdpe_eq,
    getPml4e_eq]
  constructor
  · intro heq
    simp only [heq, and_self]
  · rintro ⟨⟨h₁, h₂, h₃⟩, h₄⟩
    have hsplit : ∀ x : Nat, x = x / 2 ^ 27 * 2 ^ 27 + x / 2 ^ 18 % 512 * 2 ^ 18 +
      x / 2 ^ 9 % 512 * 2 ^ 9 + x % 512 := by
      intro x
      omega
    rw [hsplit (pageOf v), hsplit (pageOf w), h₁, h₂, h₃, h₄]

/-- `map_page` replaces the entry of one page. -/
theorem Supply.mapPage (hS : Supply alloc Refusable S) (phys flags : Nat)
    (ht : PageTree k.mem vm tab) (hvirt : UserAddr virt) {avoid : Set Nat}
    (havoid : vm.tables ⊆ avoid) (hsup : S (n + 3) k.pmm avoid) :
    (∃ k' vm' tab', Vmm.mapPage alloc k vm virt phys flags = (k', vm') ∧
      PageTree k'.mem vm' tab' ∧ vm'.pml4 = vm.pml4 ∧ vm'.ranges = vm.ranges ∧
      (∀ w, leaf k'.mem tab' w =
        if pageOf w = pageOf virt then (phys ||| flags) % 2 ^ 64
        else leaf k.mem tab w) ∧
      SameOutside vm'.tables k.mem k'.mem ∧ KeepsKernel vm.pml4 k.mem k'.mem ∧
      GainsBy S avoid n vm k'.pmm vm') ∨
    (Refusable ∧ 0 ∈ (Vmm.mapPage alloc k vm virt phys flags).2.pageTablesAddr) := by
  rcases hS.walk ht hvirt havoid hsup with
    ⟨pt, k₁, vm₁, tab₁, hret, hg, htab, hkernel, hgains⟩ | ⟨hrefuse, hnull⟩
  · have hlen : (pathOf virt).length = 3 := rfl
    have hpte := getPte_lt virt
    refine .inl ⟨{ k₁ with mem := setEntry k₁.mem pt (getPte virt) (phys ||| flags) },
      vm₁, tab₁, ?_, hg.tree.setLeaf htab hlen hpte _, hg.pml4_eq, hg.ranges_eq, ?_,
      hg.same.trans (sameOutside_setEntry (hg.tree.frame htab).1 hpte
        (hg.tree.recorded htab) _ _), hkernel.trans ?_, hgains⟩
    · simp only [Vmm.mapPage, hret]
    · intro w
      have hpte' := getPte_lt w
      by_cases hpage : pageOf w = pageOf virt
      · obtain ⟨hpath, hidx⟩ := pageOf_eq_iff.mp hpage
        rw [if_pos hpage, leaf_of_some (by rw [hpath, htab]), hidx,
          entryAt_setEntry_self]
      · rw [if_neg hpage, ← hg.leaf_eq w]
        cases hw : tab₁ (pathOf w) with
        | none => rw [leaf_of_none hw, leaf_of_none hw]
        | some pw =>
            have hne : pt ≠ pw ∨ getPte virt ≠ getPte w := by
              by_contra hcontra
              push Not at hcontra
              obtain ⟨rfl, hidx⟩ := hcontra
              exact hpage (pageOf_eq_iff.mpr ⟨hg.tree.inj hw htab, hidx.symm⟩)
            rw [leaf_of_some hw, leaf_of_some hw, entryAt_setEntry_of_ne
              (hg.tree.frame htab).1 (hg.tree.frame hw).1 hpte hpte' hne]
    · rw [← hg.pml4_eq]
      exact hg.tree.keepsKernel_setEntry htab ⟨hpte, fun hnil => by cases hnil⟩ _ _
  · refine .inr ⟨hrefuse, ?_⟩
    obtain ⟨r, hret⟩ : ∃ r, Vmm.walk alloc k vm virt = r := ⟨_, rfl⟩
    rw [hret] at hnull
    simp only [Vmm.mapPage, hret]
    exact hnull

/-- `map_page` while the allocator can serve a walk. -/
theorem mapPage_spec (phys flags : Nat) (ht : PageTree k.mem vm tab)
    (hvirt : UserAddr virt) {avoid : Set Nat} (havoid : vm.tables ⊆ avoid)
    (hsup : Supplies alloc (n + 3) k.pmm avoid) :
    ∃ k' vm' tab', Vmm.mapPage alloc k vm virt phys flags = (k', vm') ∧
      PageTree k'.mem vm' tab' ∧ vm'.pml4 = vm.pml4 ∧ vm'.ranges = vm.ranges ∧
      (∀ w, leaf k'.mem tab' w =
        if pageOf w = pageOf virt then (phys ||| flags) % 2 ^ 64
        else leaf k.mem tab w) ∧
      SameOutside vm'.tables k.mem k'.mem ∧ Gains alloc avoid n vm k'.pmm vm' := by
  rcases supply_supplies.mapPage phys flags ht hvirt havoid hsup with
    ⟨k', vm', tab', hret, ht', hpml4, hranges, hleaf, hsame, _, hgains⟩ | ⟨hrefuse, _⟩
  · exact ⟨k', vm', tab', hret, ht', hpml4, hranges, hleaf, hsame, hgains.gains⟩
  · exact hrefuse.elim

/-- `virtual_to_physical` reads the entry of the page. -/
theorem virtualToPhysical_spec (ht : PageTree k.mem vm tab)
    (hvirt : UserAddr virt) {avoid : Set Nat} (havoid : vm.tables ⊆ avoid)
    (hsup : Supplies alloc (n + 3) k.pmm avoid) :
    ∃ k' vm' tab', Vmm.virtualToPhysical alloc k vm virt =
        (leaf k.mem tab virt &&& frameMask, k', vm') ∧
      Grows k vm tab k' vm' tab' ∧ Gains alloc avoid n vm k'.pmm vm' := by
  rcases supply_supplies.walk ht hvirt havoid hsup with
    ⟨pt, k₁, vm₁, tab₁, hret, hg, htab, _, hgains⟩ | ⟨hrefuse, _⟩
  · refine ⟨k₁, vm₁, tab₁, ?_, hg, hgains.gains⟩
    simp only [Vmm.virtualToPhysical, hret, ← hg.leaf_eq virt, leaf_of_some htab]
  · exact hrefuse.elim

end Toystar.Memory

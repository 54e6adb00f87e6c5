import Toystar.Memory.VmmCopy

/-!
# What `fork` makes of a pagemap

`vmm::duplicate` as a whole.  The new pagemap maps the recorded pages of the user half
to frames of its own with the parent's bytes (`duplicate_copies`); where ranges
overlap the last one decides the flags, as it does in the parent.  The tables of the
kernel's half belong to all pagemaps, so a page recorded there is moved in the parent
too (`duplicate_kernel_page`).  The copy's own list of
ranges stays empty, because `get_ranges` returns the vector by value and the new
entries go to temporaries: a copy cannot be copied again, and `destroy` finds no
data frame to free (`duplicates_repeatable_iff`).
-/

namespace Toystar.Memory

open Toystar.Klibc
open Toystar.Verified

variable {σ : Type} {alloc : FrameAlloc σ} {k k' : Machine σ} {p new : Vmm}
  {tab₀ : List Nat → Option Nat} {owned : Set Nat} {heap heap' : Arrays MemArea}

/-! ## One copy -/

theorem PageTree.setRanges {mem : ByteMem} {vm : Vmm} {tab : List Nat → Option Nat}
    (ht : PageTree mem vm tab) (ranges : List MemArea) :
    PageTree mem { vm with ranges } tab :=
  ⟨ht.root, ht.frame, ht.inj, ht.closed, ht.link, ht.recorded⟩

/-- The whole of `duplicate`. -/
theorem duplicate_spec {n : Nat} (kernelPml4 : Nat) (heap : Arrays MemArea)
    (htree : PageTree k.mem p tab₀) (howned : p.tables ⊆ owned)
    (hpages : ∀ range ∈ p.ranges, ∀ t < range.pageCount,
      ParentPage k.mem tab₀ owned (range.page t))
    (hsup : Supplies alloc (n + 4 * (p.ranges.map (·.pageCount)).sum + 1) k.pmm owned) :
    ∃ k' new heap' m, Vmm.duplicate alloc k kernelPml4 p heap = some (k', new, heap') ∧
      Copied alloc k.mem tab₀ owned k' new m n ∧
      ∀ q, (m q).map Prod.snd = MemArea.flagsAt p.ranges q none := by
  rcases (copied_new tab₀ kernelPml4 hsup).copyRanges heap htree howned
    hpages with ⟨k', vm, heap', m, hret, hc, hflags⟩
  refine ⟨k', { vm with ranges := [] }, heap', m, ?_, ?_, hflags⟩
  · rw [Vmm.duplicate]
    exact Option.bind_eq_some_iff.mpr ⟨_, hret, rfl⟩
  · rcases hc.tree with ⟨tab, ht, hleaf⟩
    exact ⟨⟨tab, ht.setRanges [], hleaf⟩, hc.tables, hc.frame, hc.inj, hc.contents, hc.same,
      hc.supply⟩

/-- A page that a range covers has flags, and no other. -/
theorem flagsAt_isSome_iff {ranges : List MemArea} {q : Nat} (before : Option Nat) :
    (MemArea.flagsAt ranges q before).isSome ↔
      before.isSome ∨ ∃ range ∈ ranges, range.Covers q := by
  induction ranges generalizing before with
  | nil => simp [MemArea.flagsAt]
  | cons range ranges ih =>
      rw [MemArea.flagsAt, List.foldl_cons]
      change (MemArea.flagsAt ranges q _).isSome ↔ _
      rw [ih]
      by_cases hq : range.Covers q
      · simp [hq]
      · simp [hq]

/-- `new` is a private copy of the recorded pages of `p`: `frame` is the frame of each
page, outside `owned` like the new tables, and `k` is the machine before. -/
structure PrivateCopy (k k' : Machine σ) (p new : Vmm) (tab₀ tab : List Nat → Option Nat)
    (owned : Set Nat) (frame : Nat → Nat) : Prop where
  tree : PageTree k'.mem new tab
  tables : ∀ t ∈ new.tables, t ∉ owned
  /-- a recorded page has its frame and the flags of the last range that covers it -/
  mapped : ∀ {virt flags}, UserAddr virt →
    MemArea.flagsAt p.ranges (pageOf virt) none = some flags →
    IsFrame (frame (pageOf virt)) ∧ frame (pageOf virt) ∉ owned ∧
      leaf k'.mem tab virt = (frame (pageOf virt) ||| flags) % 2 ^ 64 ∧
      (flags < PAGE_SIZE → leaf k'.mem tab virt &&& frameMask = frame (pageOf virt))
  distinct : ∀ {range range' t t'}, range ∈ p.ranges → range' ∈ p.ranges →
    t < range.pageCount → t' < range'.pageCount →
    frame (pageOf (range.page t)) = frame (pageOf (range'.page t')) →
    pageOf (range.page t) = pageOf (range'.page t')
  contents : ∀ {range t}, range ∈ p.ranges → t < range.pageCount → ∀ o < PAGE_SIZE,
    k'.mem (frame (pageOf (range.page t)) + o) =
      k.mem (frameIn (leaf k.mem tab₀ (range.page t)) + o)
  /-- no other user page is mapped -/
  unmapped : ∀ {virt}, UserAddr virt → (∀ range ∈ p.ranges, ¬range.Covers (pageOf virt)) →
    leaf k'.mem tab virt = 0
  /-- the parent is what it was -/
  parent : PageTree k'.mem p tab₀ ∧ (∀ virt, leaf k'.mem tab₀ virt = leaf k.mem tab₀ virt) ∧
    ∀ x, frameOf x ∈ owned → k'.mem x = k.mem x

/-- With the recorded pages mapped, all in the user half, and a frame for every request,
`duplicate` makes a private copy. -/
theorem duplicate_copies (kernelPml4 : Nat) (heap : Arrays MemArea)
    (htree : PageTree k.mem p tab₀) (howned : p.tables ⊆ owned)
    (hpages : ∀ range ∈ p.ranges, ∀ t < range.pageCount,
      ParentPage k.mem tab₀ owned (range.page t))
    (hsup : Supplies alloc (4 * (p.ranges.map (·.pageCount)).sum + 1) k.pmm owned) :
    ∃ k' new heap' tab frame,
      Vmm.duplicate alloc k kernelPml4 p heap = some (k', new, heap') ∧
      PrivateCopy k k' p new tab₀ tab owned frame := by
  have hsup₀ : Supplies alloc (0 + 4 * (p.ranges.map (·.pageCount)).sum + 1) k.pmm owned := by
    rwa [Nat.zero_add]
  rcases duplicate_spec kernelPml4 heap htree howned hpages hsup₀ with
    ⟨k', new, heap', m, hret, hc, hflags⟩
  rcases hc.tree with ⟨tab, ht, hleaf⟩
  refine ⟨k', new, heap', tab, fun q => ((m q).map Prod.fst).getD 0, hret, ?_⟩
  -- what the abstract map says of a page with flags, and of a covered one
  have hentry : ∀ {q flags}, MemArea.flagsAt p.ranges q none = some flags →
      ∃ f, m q = some (f, flags) := by
    intro q flags hq
    rw [← hflags q] at hq
    rcases Option.map_eq_some_iff.mp hq with ⟨⟨f, flags'⟩, hm, rfl⟩
    exact ⟨f, hm⟩
  have hcovered : ∀ {range : MemArea} {t}, range ∈ p.ranges → t < range.pageCount →
      ∃ f flags, m (pageOf (range.page t)) = some (f, flags) := by
    intro range t hrange ht
    have hsome := (flagsAt_isSome_iff none).mpr
      (.inr ⟨range, hrange, t, ht, rfl⟩)
    rcases Option.isSome_iff_exists.mp hsome with ⟨flags, hq⟩
    rcases hentry hq with ⟨f, hm⟩
    exact ⟨f, flags, hm⟩
  have hsame := sameOutside_compl.mpr hc.same
  have hno : ∀ t ∈ p.tables, t ∉ ownedᶜ := fun t htmem hnot => hnot (howned htmem)
  refine
    { tree := ht
      tables := hc.tables
      mapped := ?_
      distinct := ?_
      contents := ?_
      unmapped := ?_
      parent := ⟨htree.sameOutside hsame hno, htree.leaf_sameOutside hsame hno, hc.same⟩ }
  · intro virt flags huser hq
    rcases hentry hq with ⟨f, hm⟩
    rcases hc.frame hm with ⟨hf, hfo, _⟩
    have hvirt : leaf k'.mem tab virt = (f ||| flags) % 2 ^ 64 := by
      rw [hleaf virt huser, hm]
      rfl
    simp only [hm, Option.map_some, Option.getD_some]
    refine ⟨hf, hfo, hvirt, ?_⟩
    intro hlt
    have hf64 : f < 2 ^ 64 := lt_trans hf.2.2 (by decide)
    rw [hvirt, or_and_frameMask hf.1 hf64 hlt]
  · intro range range' t t' hrange hrange' ht ht' heq
    rcases hcovered hrange ht with ⟨f, flags, hm⟩
    rcases hcovered hrange' ht' with ⟨f', flags', hm'⟩
    simp only [hm, hm', Option.map_some, Option.getD_some] at heq
    subst heq
    exact hc.inj hm hm'
  · intro range t hrange ht o ho
    rcases hcovered hrange ht with ⟨f, flags, hm⟩
    simp only [hm, Option.map_some, Option.getD_some]
    exact hc.contents hm o ho
  · intro virt huser hnot
    rw [hleaf virt huser]
    cases hm : m (pageOf virt) with
    | none => rfl
    | some entry =>
        have hsome : (MemArea.flagsAt p.ranges (pageOf virt) none).isSome := by
          rw [← hflags, hm]
          rfl
        rcases (flagsAt_isSome_iff none).mp hsome with hbefore | ⟨range, hrange, hq⟩
        · cases hbefore
        · exact absurd hq (hnot range hrange)

/-! ### A pagemap to copy -/

/-- A pagemap with one page mapped and any ranges recorded, made when `n + 4` frames can
be had. -/
theorem exists_parent {n phys : Nat} (virt : Nat) (huser : UserAddr virt)
    (hphys : phys ∈ owned) (ranges : List MemArea)
    (hsup : Supplies alloc (n + 4) k.pmm owned) :
    ∃ (k' : Machine σ) (p : Vmm) (tab : List Nat → Option Nat) (owned' : Set Nat),
      p.ranges = ranges ∧ PageTree k'.mem p tab ∧ p.tables ⊆ owned' ∧
      phys ∈ owned' ∧ leaf k'.mem tab virt = (phys ||| 7) % 2 ^ 64 ∧
      Supplies alloc n k'.pmm owned' := by
  have hc := copied_new (fun _ => none) 0 hsup
  rcases hc.tree with ⟨tab, ht, _⟩
  rcases hc.supply with ⟨taken, hsup', hown, htab, _⟩
  obtain ⟨k', p, tab', _, ht', _, _, hleaf, _, hgains⟩ :=
    mapPage_spec phys 7 ht huser htab hsup'
  refine ⟨k', { p with ranges }, tab', taken ∪ p.tables, rfl, ht'.setRanges ranges,
    Set.subset_union_right, .inl (hown hphys), ?_, hgains.supply⟩
  rw [hleaf virt, if_pos rfl]

/-- 64 pages, of which pages 0 and 1 are used. -/
def sixtyFourPages : Pmm := ⟨fun i => if i = 0 then 0xc0 else 0, 8, by decide⟩

theorem supplies_sixtyFourPages : Supplies Vmm.allocFrame 62 sixtyFourPages {0x1000} := by
  apply supplies_allocFrame
  · decide
  · decide
  · intro i hi
    obtain rfl : i = 1 := by
      rw [Set.mem_singleton_iff] at hi
      unfold PAGE_SIZE at hi
      omega
    decide
  · decide +kernel

/-- A pagemap with the page at 0x400000 mapped to frame 0x1000 and recorded once for each
of `prots`, in memory that can serve its copy. -/
theorem exists_parent_0x400000 (prots : List Nat) (hlen : prots.length ≤ 10) :
    ∃ (k : Machine Pmm) (p : Vmm) (tab₀ : List Nat → Option Nat) (owned : Set Nat),
      p.ranges = (prots.map fun prot => ⟨0x400000, 4096, prot, 0⟩) ∧
      PageTree k.mem p tab₀ ∧ p.tables ⊆ owned ∧
      (∀ range ∈ p.ranges, ∀ t < range.pageCount,
        ParentPage k.mem tab₀ owned (range.page t)) ∧
      Supplies Vmm.allocFrame (4 * (p.ranges.map (·.pageCount)).sum + 1) k.pmm owned := by
  rcases exists_parent (k := ⟨fun _ => 0, sixtyFourPages⟩) (n := 58) 0x400000 (by decide)
    (Set.mem_singleton 0x1000) (prots.map fun prot => ⟨0x400000, 4096, prot, 0⟩)
    supplies_sixtyFourPages with ⟨k, p, tab₀, owned, hranges, ht, howned, hphys, hleaf, hsup⟩
  have hcount : ∀ prot, MemArea.pageCount ⟨0x400000, 4096, prot, 0⟩ = 1 := by
    intro prot
    simp [MemArea.pageCount, PAGE_SIZE]
  refine ⟨k, p, tab₀, owned, hranges, ht, howned, ?_, ?_⟩
  · intro range hrange t hlt
    rw [hranges, List.mem_map] at hrange
    rcases hrange with ⟨prot, _, rfl⟩
    obtain rfl : t = 0 := by
      rw [hcount] at hlt
      omega
    have hpage : MemArea.page ⟨0x400000, 4096, prot, 0⟩ 0 = 0x400000 :=
      (by decide : MemArea.page ⟨0x400000, 4096, 0, 0⟩ 0 = 0x400000)
    have hvalue : (0x1000 ||| 7) % 2 ^ 64 = 0x1007 := by decide
    rw [hvalue] at hleaf
    rw [hpage]
    exact ⟨by decide, by decide, by rw [hleaf], by rw [hleaf]; exact hphys⟩
  · have hsum : (p.ranges.map (·.pageCount)).sum = prots.length := by
      rw [hranges, List.map_map]
      simp [Function.comp_def, hcount]
    rw [hsum]
    exact hsup.of_le (by omega)

/-- A recorded page at 0x400000 is copied. -/
theorem duplicate_copies_page :
    ∃ (k : Machine Pmm) (p : Vmm) (tab₀ : List Nat → Option Nat) (owned : Set Nat),
      p.ranges = [⟨0x400000, 4096, 7, 0⟩] ∧ PageTree k.mem p tab₀ ∧
      ∃ k' new heap' tab frame,
        Vmm.duplicate Vmm.allocFrame k 0 p [] = some (k', new, heap') ∧
        PrivateCopy k k' p new tab₀ tab owned frame := by
  rcases exists_parent_0x400000 [7] (by decide) with
    ⟨k, p, tab₀, owned, hranges, ht, howned, hpages, hsup⟩
  exact ⟨k, p, tab₀, owned, hranges, ht, duplicate_copies 0 [] ht howned hpages hsup⟩

/-- A page recorded with prot 7 and again with prot 5: the copy's entry has not the first
range's prot. -/
theorem overlap_takes_last_prot :
    ∃ (k : Machine Pmm) (p : Vmm) (tab₀ : List Nat → Option Nat) (owned : Set Nat),
      p.ranges = [⟨0x400000, 4096, 7, 0⟩, ⟨0x400000, 4096, 5, 0⟩] ∧
      PageTree k.mem p tab₀ ∧ p.tables ⊆ owned ∧
      (∀ range ∈ p.ranges, ∀ t < range.pageCount,
        ParentPage k.mem tab₀ owned (range.page t)) ∧
      Supplies Vmm.allocFrame (4 * (p.ranges.map (·.pageCount)).sum + 1) k.pmm owned ∧
      ∃ k' new heap' tab, Vmm.duplicate Vmm.allocFrame k 0 p [] = some (k', new, heap') ∧
        PageTree k'.mem new tab ∧
        ¬∃ f, PAGE_SIZE ∣ f ∧ leaf k'.mem tab 0x400000 = (f ||| 7) % 2 ^ 64 := by
  rcases exists_parent_0x400000 [7, 5] (by decide) with
    ⟨k, p, tab₀, owned, hranges, ht, howned, hpages, hsup⟩
  have hsup₀ : Supplies Vmm.allocFrame (0 + 4 * (p.ranges.map (·.pageCount)).sum + 1) k.pmm
      owned := by
    rwa [Nat.zero_add]
  rcases duplicate_spec 0 [] ht howned hpages hsup₀ with
    ⟨k', new, heap', m, hret, hc, hflags⟩
  rcases hc.tree with ⟨tab, ht', hleaf⟩
  refine ⟨k, p, tab₀, owned, hranges, ht, howned, hpages, hsup, k', new, heap', tab, hret, ht',
    ?_⟩
  have hlast : (m (pageOf 0x400000)).map Prod.snd = some 5 := by
    rw [hflags, hranges]
    decide
  rcases Option.map_eq_some_iff.mp hlast with ⟨⟨f, flags⟩, hm, hflags'⟩
  change flags = 5 at hflags'
  subst hflags'
  rcases hc.frame hm with ⟨⟨⟨a, rfl⟩, _, hlt⟩, _⟩
  rw [hleaf 0x400000 (by decide), hm]
  rintro ⟨g, ⟨b, rfl⟩, heq⟩
  have h5 : PAGE_SIZE * a ||| 5 = PAGE_SIZE * a + 5 := or_low (Nat.dvd_mul_right _ _) (by decide)
  have h7 : PAGE_SIZE * b ||| 7 = PAGE_SIZE * b + 7 := or_low (Nat.dvd_mul_right _ _) (by decide)
  simp only [entryOf, h5, h7] at heq
  unfold PAGE_SIZE at *
  omega

/-! ### The kernel's half -/

/-- The tables that `get_next_level` links on the way to the page of `virt`, in whichever
half that lies, and the page's entry. -/
structure LeadsTo (mem : ByteMem) (pml4 pdp pd pt entry virt : Nat) : Prop where
  frames : PAGE_SIZE ∣ pml4 ∧ IsFrame pdp ∧ IsFrame pd ∧ IsFrame pt
  first : entryAt mem pml4 (getPml4e virt) = pdp ||| 0b111
  second : entryAt mem pdp (getPdpe virt) = pd ||| 0b111
  third : entryAt mem pd (getPde virt) = pt ||| 0b111
  last : entryAt mem pt (getPte virt) = entry

namespace LeadsTo

variable {mem mem' : ByteMem} {pml4 pdp pd pt entry virt : Nat} {W : Set Nat}

theorem access_eq (h : LeadsTo mem pml4 pdp pd pt entry virt) (hcanon : Vmm.Canonical virt)
    (hpresent : entry % 2 = 1) :
    Vmm.access mem pml4 virt = some (frameIn entry + virt % PAGE_SIZE) := by
  have hentry : Vmm.presentAt mem pt (getPte virt) = some (frameIn entry) := by
    rw [presentAt_eq, h.last, if_pos hpresent]
  exact (if_pos hcanon).trans (bind_steps (fun pdp => Vmm.presentAt mem pdp (getPdpe virt))
    (fun pd => Vmm.presentAt mem pd (getPde virt))
    (fun pt => Vmm.presentAt mem pt (getPte virt)) (virt % PAGE_SIZE)
    (presentAt_linked h.frames.2.1 h.first) (presentAt_linked h.frames.2.2.1 h.second)
    (presentAt_linked h.frames.2.2.2 h.third) hentry)

/-- The walk ends at the page's table and makes none. -/
theorem walk_eq {vm : Vmm} (h : LeadsTo k.mem vm.pml4 pdp pd pt entry virt) :
    Vmm.walk alloc k vm virt = (pt, k, vm) := by
  have h₁ : Vmm.getNextLevel alloc k vm vm.pml4 (getPml4e virt) = (pdp, k, vm) :=
    getNextLevel_linked h.frames.2.1 h.first
  have h₂ : Vmm.getNextLevel alloc k vm pdp (getPdpe virt) = (pd, k, vm) :=
    getNextLevel_linked h.frames.2.2.1 h.second
  have h₃ : Vmm.getNextLevel alloc k vm pd (getPde virt) = (pt, k, vm) :=
    getNextLevel_linked h.frames.2.2.2 h.third
  simp only [Vmm.walk, h₁, h₂, h₃]

/-- Every address of the page is reached the same way. -/
theorem add {o : Nat} (h : LeadsTo mem pml4 pdp pd pt entry virt) (hvirt : PAGE_SIZE ∣ virt)
    (ho : o < PAGE_SIZE) : LeadsTo mem pml4 pdp pd pt entry (virt + o) := by
  have hpage := (page_add hvirt ho).1
  constructor
  · exact h.frames
  · rw [getPml4e_eq, hpage, ← getPml4e_eq]
    exact h.first
  · rw [getPdpe_eq, hpage, ← getPdpe_eq]
    exact h.second
  · rw [getPde_eq, hpage, ← getPde_eq]
    exact h.third
  · rw [getPte_eq, hpage, ← getPte_eq]
    exact h.last

/-- Writes to other frames do not matter. -/
theorem sameOutside (h : LeadsTo mem pml4 pdp pd pt entry virt)
    (hsame : SameOutside W mem mem') (hW : ∀ t ∈ [pml4, pdp, pd, pt], t ∉ W) :
    LeadsTo mem' pml4 pdp pd pt entry virt := by
  have hentry : ∀ {t : Nat} (a : Nat), PAGE_SIZE ∣ t → t ∈ [pml4, pdp, pd, pt] →
      entryAt mem' t (a % 512) = entryAt mem t (a % 512) :=
    fun a ht hmem => entryAt_sameOutside hsame ht (Nat.mod_lt a (by decide)) (hW _ hmem)
  exact ⟨h.frames, (hentry _ h.frames.1 (by simp)).trans h.first,
    (hentry _ h.frames.2.1.1 (by simp)).trans h.second,
    (hentry _ h.frames.2.2.1.1 (by simp)).trans h.third,
    (hentry _ h.frames.2.2.2.1 (by simp)).trans h.last⟩

/-- A store to the page's entry. -/
theorem setLeaf (h : LeadsTo mem pml4 pdp pd pt entry virt)
    (hpt : ∀ t ∈ [pml4, pdp, pd], pt ≠ t) (v : Nat) :
    LeadsTo (setEntry mem pt (getPte virt) v) pml4 pdp pd pt (v % 2 ^ 64) virt := by
  have hentry : ∀ {t : Nat} (a : Nat), PAGE_SIZE ∣ t → t ∈ [pml4, pdp, pd] →
      entryAt (setEntry mem pt (getPte virt) v) t (a % 512) = entryAt mem t (a % 512) :=
    fun a ht hmem => entryAt_setEntry_of_ne h.frames.2.2.2.1 ht (getPte_lt virt)
      (Nat.mod_lt a (by decide)) (.inl (hpt _ hmem))
  exact ⟨h.frames, (hentry _ h.frames.1 (by simp)).trans h.first,
    (hentry _ h.frames.2.1.1 (by simp)).trans h.second,
    (hentry _ h.frames.2.2.1.1 (by simp)).trans h.third, entryAt_setEntry_self⟩

/-- A new pagemap reaches the page through the tables of the kernel's, which it shares
behind entry 511. -/
theorem of_new {kernelPml4 f : Nat} {pmm' : σ}
    (h : LeadsTo k.mem kernelPml4 pdp pd pt entry virt) (hindex : getPml4e virt = 511)
    (hf : IsFrame f) (hret : alloc k.pmm k.mem = (f, pmm', memset k.mem f 0 PAGE_SIZE))
    (hne : ∀ t ∈ [kernelPml4, pdp, pd, pt], t ∉ ({f} : Set Nat)) :
    ∃ mem', Vmm.new alloc k kernelPml4 = (⟨mem', pmm'⟩, ⟨f, [], []⟩) ∧
      SameOutside {f} k.mem mem' ∧ LeadsTo mem' f pdp pd pt entry virt := by
  have hself : f ∈ ({f} : Set Nat) := rfl
  set mem₁ := memset k.mem f 0 PAGE_SIZE
  set mem₂ := setEntry mem₁ f 256 (entryAt mem₁ kernelPml4 256)
  have hsame₂ : SameOutside {f} k.mem mem₂ :=
    (sameOutside_memset hf.1 hself _).trans
      (sameOutside_setEntry hf.1 (by decide) hself _ _)
  have hsame : SameOutside {f} k.mem (setEntry mem₂ f 511 (entryAt mem₂ kernelPml4 511)) :=
    sameOutside_newTable hf.1 _ _ _
  have hkept := h.sameOutside hsame hne
  have hfirst := (h.sameOutside hsame₂ hne).first
  rw [hindex] at hfirst
  refine ⟨_, by simp only [Vmm.new, hret]; rfl, hsame, ⟨hf.1, h.frames.2⟩, ?_, hkept.second,
    hkept.third, hkept.last⟩
  show entryAt (setEntry mem₂ f 511 (entryAt mem₂ kernelPml4 511)) f (getPml4e virt) = _
  have hlt : entryAt mem₂ kernelPml4 511 < 2 ^ 64 := ByteMem.read64_lt _ _
  rw [hindex, entryAt_setEntry_self, Nat.mod_eq_of_lt hlt, hfirst]

/-- One round of the inner loop, when both pagemaps reach the page through the same
tables: the copy takes the page's place in both. -/
theorem copyPage {vm : Vmm} {frame : Nat}
    (hvm : LeadsTo k.mem vm.pml4 pdp pd pt (frame + 7) virt)
    (hp : LeadsTo k.mem p.pml4 pdp pd pt (frame + 7) virt) (hvirt : PAGE_SIZE ∣ virt)
    (hcanon : Vmm.Canonical virt) (hframe : IsFrame frame)
    (hpt : ∀ t ∈ [p.pml4, pdp, pd], pt ≠ t) (hvmOwned : vm.pml4 ∈ owned)
    (howned : ∀ t ∈ [p.pml4, pdp, pd, pt], t ∈ owned) (hframeOwned : frame ∈ owned)
    (hsup : Supplies alloc 1 k.pmm owned) :
    ∃ k' g, Vmm.copyPage alloc p virt 7 (k, vm) = some (k', vm) ∧ g ∉ owned ∧
      Vmm.access k'.mem p.pml4 virt = some g := by
  obtain ⟨g, pmm', hret, hg, hnew, _⟩ := hsup
  have hout : ∀ {t}, t ∈ owned → t ∉ ({g} : Set Nat) := by
    rintro t ht rfl
    exact hnew ht
  have houtp : ∀ t ∈ [p.pml4, pdp, pd, pt], t ∉ ({g} : Set Nat) :=
    fun t ht => hout (howned t ht)
  have houtvm : ∀ t ∈ [vm.pml4, pdp, pd, pt], t ∉ ({g} : Set Nat) :=
    List.forall_mem_cons.mpr ⟨hout hvmOwned, fun t ht => houtp t (List.mem_cons_of_mem _ ht)⟩
  have hsame : SameOutside {g} k.mem (memset k.mem g 0 PAGE_SIZE) :=
    sameOutside_memset hg.1 (Set.mem_singleton g) _
  -- the parent's page is read as before, whatever is written to the new frame
  have hbits := frameIn_add hframe.1 hframe.2.2.le (.inr rfl)
  have hread : ∀ mem', SameOutside {g} (memset k.mem g 0 PAGE_SIZE) mem' →
      ∀ o < PAGE_SIZE, Vmm.access mem' p.pml4 (virt + o) = some (frame + o) := by
    intro mem' hsame' o ho
    have hp' := (hp.sameOutside (hsame.trans hsame') houtp).add hvirt ho
    rw [hp'.access_eq (hcanon.add hvirt ho) hbits.2, hbits.1, (page_add hvirt ho).2]
  obtain ⟨mem₁, hcopy, hbytes⟩ :=
    memcpy8_eq (le_refl _) hg.1 hframe.1 (hout hframeOwned) hread
  have hsame₁ : SameOutside {g} k.mem mem₁ := by
    refine hsame.trans (sameOutside_of_bytes (n := 8 * (PAGE_SIZE / 8)) hg.1 (by decide) ?_)
    intro x hx
    rw [hbytes, if_neg hx]
  have hwalk : Vmm.walk alloc ⟨mem₁, pmm'⟩ vm virt = (pt, ⟨mem₁, pmm'⟩, vm) :=
    walk_eq (k := ⟨mem₁, pmm'⟩) (hvm.sameOutside hsame₁ houtvm)
  have hval : (g ||| 7) % 2 ^ 64 = g + 7 := by
    have hlt := hg.2.2
    rw [or_low hg.1 (by decide), Nat.mod_eq_of_lt (by omega)]
  have hbits' := frameIn_add hg.1 hg.2.2.le (.inr rfl)
  -- the entry that `map_page` stores to is the parent's too
  have hp' := (hp.sameOutside hsame₁ houtp).setLeaf hpt (g ||| 7)
  rw [hval] at hp'
  refine ⟨⟨setEntry mem₁ pt (getPte virt) (g ||| 7), pmm'⟩, g, ?_, hnew, ?_⟩
  · rw [Vmm.copyPage, hret, hcopy]
    show some (Vmm.mapPage alloc ⟨mem₁, pmm'⟩ vm virt g 7) = _
    rw [Vmm.mapPage, hwalk]
  · rw [hp'.access_eq hcanon hbits'.2, hbits'.1, Nat.mod_eq_zero_of_dvd hvirt, Nat.add_zero]

end LeadsTo

/-- The copy of a recorded page behind the kernel's entry 511 takes the page's place in
the parent: `map_page` walks from the new top table into the tables that all share. -/
theorem duplicate_kernel_page {kernelPml4 pdp pd pt frame virt : Nat} (heap : Arrays MemArea)
    (hranges : p.ranges = [⟨virt, PAGE_SIZE, 7, 0⟩]) (hvirt : virt &&& frameMask = virt)
    (hcanon : Vmm.Canonical virt) (hindex : getPml4e virt = 511)
    (hkernel : LeadsTo k.mem kernelPml4 pdp pd pt (frame + 7) virt)
    (hp : LeadsTo k.mem p.pml4 pdp pd pt (frame + 7) virt)
    (hpt : ∀ t ∈ [p.pml4, pdp, pd], pt ≠ t) (hframe : IsFrame frame)
    (hkernelOwned : kernelPml4 ∈ owned) (howned : ∀ t ∈ [p.pml4, pdp, pd, pt], t ∈ owned)
    (hframeOwned : frame ∈ owned) (hsup : Supplies alloc 2 k.pmm owned) :
    ∃ k' new heap' g, Vmm.duplicate alloc k kernelPml4 p heap = some (k', new, heap') ∧
      g ∉ owned ∧ Vmm.access k'.mem p.pml4 virt = some g := by
  obtain ⟨f, pmm₁, hret, hf, hnew, hsup₁⟩ := hsup
  have hout : ∀ {t}, t ∈ owned → t ∉ ({f} : Set Nat) := by
    rintro t ht rfl
    exact hnew ht
  have houtp : ∀ t ∈ [p.pml4, pdp, pd, pt], t ∉ ({f} : Set Nat) :=
    fun t ht => hout (howned t ht)
  have houtkernel : ∀ t ∈ [kernelPml4, pdp, pd, pt], t ∉ ({f} : Set Nat) :=
    List.forall_mem_cons.mpr
      ⟨hout hkernelOwned, fun t ht => houtp t (List.mem_cons_of_mem _ ht)⟩
  obtain ⟨mem₁, hret₁, hsame, hvm⟩ := hkernel.of_new hindex hf (hret k.mem) houtkernel
  obtain ⟨k', g, hpage, hg, haccess⟩ :=
    LeadsTo.copyPage (k := ⟨mem₁, pmm₁⟩)
      (show LeadsTo mem₁ (Vmm.mk f [] []).pml4 pdp pd pt (frame + 7) virt from hvm)
      (hp.sameOutside hsame houtp) (hvirt ▸ and_frameMask_aligned virt) hcanon hframe hpt
      (Set.mem_insert f owned) (fun t ht => .inr (howned t ht)) (.inr hframeOwned) hsup₁
  refine ⟨k', ⟨f, [], []⟩, heap ++ [none], g, ?_, fun hmem => hg (.inr hmem), haccess⟩
  have hone : Vmm.pageAmount PAGE_SIZE = 1 := by decide
  have hzero : (virt + 0 * PAGE_SIZE) % 2 ^ 64 = virt := by
    unfold Vmm.Canonical at hcanon
    omega
  have hpages : Vmm.copyPages alloc p virt 7 1 (⟨mem₁, pmm₁⟩, ⟨f, [], []⟩) =
      some (k', ⟨f, [], []⟩) := by
    rw [Vmm.copyPages, Vmm.copyPages, Option.bind_eq_bind, Option.bind_some, hzero]
    exact hpage
  have hrange : Vmm.copyRange alloc p .new ((⟨mem₁, pmm₁⟩, ⟨f, [], []⟩), heap)
      ⟨virt, PAGE_SIZE, 7, 0⟩ = some ((k', ⟨f, [], []⟩), heap ++ [none]) := by
    rw [Vmm.copyRange, hvirt, hone, hpages, Option.bind_eq_bind, Option.bind_some,
      ToysVector.pushBackTemporary_new]
    rfl
  rw [Vmm.duplicate, hranges, hret₁, List.foldlM_cons, hrange]
  rfl

/-- A page at 0xffffff8000000000 that a pagemap at 0x2000 and the kernel's at 0x1000 reach
through the tables at 0x3000, 0x4000 and 0x5000. -/
def kernelTables : ByteMem :=
  [(0x1000, 511, 0x3007), (0x2000, 511, 0x3007), (0x3000, 0, 0x4007), (0x4000, 0, 0x5007),
    (0x5000, 0, 0x6007)].foldl (fun mem (e : Nat × Nat × Nat) => setEntry mem e.1 e.2.1 e.2.2)
    fun _ => 0

/-- 16 pages, of which pages 0 to 6 are used. -/
def aboveTables : Pmm := ⟨fun i => if i = 0 then 0xfe else 0, 2, by decide⟩

theorem supplies_aboveTables : Supplies Vmm.allocFrame 2 aboveTables {f | f ≤ 0x6000} := by
  apply supplies_allocFrame
  · decide
  · decide
  · intro i hi
    have hle : i ≤ 6 := by
      rw [Set.mem_ofPred_eq] at hi
      unfold PAGE_SIZE at hi
      omega
    interval_cases i <;> decide
  · decide +kernel

theorem leadsTo_kernelTables (pml4 : Nat) (h : pml4 = 0x1000 ∨ pml4 = 0x2000) :
    LeadsTo kernelTables pml4 0x3000 0x4000 0x5000 0x6007 0xffffff8000000000 := by
  rcases h with rfl | rfl
  · exact ⟨by decide, by decide +kernel, by decide +kernel, by decide +kernel, by decide +kernel⟩
  · exact ⟨by decide, by decide +kernel, by decide +kernel, by decide +kernel, by decide +kernel⟩

/-- Where ranges overlap the last prot stays, and the copy of a page behind the kernel's
entry 511 takes the page's place in the parent. -/
theorem duplicate_not_exact :
    (∃ (k : Machine Pmm) (p : Vmm) (tab₀ : List Nat → Option Nat) (owned : Set Nat),
      p.ranges = [⟨0x400000, 4096, 7, 0⟩, ⟨0x400000, 4096, 5, 0⟩] ∧
      PageTree k.mem p tab₀ ∧ p.tables ⊆ owned ∧
      (∀ range ∈ p.ranges, ∀ t < range.pageCount,
        ParentPage k.mem tab₀ owned (range.page t)) ∧
      Supplies Vmm.allocFrame (4 * (p.ranges.map (·.pageCount)).sum + 1) k.pmm owned ∧
      ∃ k' new heap' tab, Vmm.duplicate Vmm.allocFrame k 0 p [] = some (k', new, heap') ∧
        PageTree k'.mem new tab ∧
        ¬∃ f, PAGE_SIZE ∣ f ∧ leaf k'.mem tab 0x400000 = (f ||| 7) % 2 ^ 64) ∧
    ∃ (k : Machine Pmm) (p : Vmm) (kernelPml4 : Nat) (owned : Set Nat),
      p.ranges = [⟨0xffffff8000000000, 4096, 7, 0⟩] ∧
      (∀ j, j = 256 ∨ j = 511 → entryAt k.mem p.pml4 j = entryAt k.mem kernelPml4 j) ∧
      Vmm.access k.mem p.pml4 0xffffff8000000000 = some 0x6000 ∧ 0x6000 ∈ owned ∧
      Supplies Vmm.allocFrame 2 k.pmm owned ∧
      ∃ k' new heap' g, Vmm.duplicate Vmm.allocFrame k kernelPml4 p [] = some (k', new, heap') ∧
        g ∉ owned ∧ Vmm.access k'.mem p.pml4 0xffffff8000000000 = some g := by
  refine ⟨overlap_takes_last_prot, ⟨kernelTables, aboveTables⟩,
    ⟨0x2000, [⟨0xffffff8000000000, 4096, 7, 0⟩], [0x4000, 0x5000]⟩, 0x1000, {f | f ≤ 0x6000},
    rfl, ?_, ?_, by decide, supplies_aboveTables, ?_⟩
  · rintro j (rfl | rfl)
    · decide +kernel
    · decide +kernel
  · have hframe : frameIn 0x6007 + 0xffffff8000000000 % PAGE_SIZE = 0x6000 := by decide
    rw [(leadsTo_kernelTables 0x2000 (.inr rfl)).access_eq (by decide) (by decide), hframe]
  · exact duplicate_kernel_page (k := ⟨kernelTables, aboveTables⟩) [] rfl
      (by decide) (by decide) (by decide) (leadsTo_kernelTables 0x1000 (.inl rfl))
      (leadsTo_kernelTables 0x2000 (.inr rfl)) (by decide) (by decide) (by decide) (by decide)
      (by decide) supplies_aboveTables

/-! ## Copies of copies -/

/-- The pagemap after `n` calls of `duplicate`, each on the copy made before. -/
def duplicates (alloc : FrameAlloc σ) (kernelPml4 : Nat) :
    Nat → Machine σ → Vmm → Arrays MemArea → Option (Machine σ × Vmm × Arrays MemArea)
  | 0, k, p, heap => some (k, p, heap)
  | n + 1, k, p, heap => do
      let (k, p, heap) ← duplicates alloc kernelPml4 n k p heap
      Vmm.duplicate alloc k kernelPml4 p heap

/-- The copy's vector was never pushed to. -/
theorem duplicate_ranges {kernelPml4 : Nat}
    (hret : Vmm.duplicate alloc k kernelPml4 p heap = some (k', new, heap')) :
    new.ranges = [] := by
  rw [Vmm.duplicate] at hret
  rcases Option.bind_eq_some_iff.mp hret with ⟨⟨⟨k₁, vm⟩, heap₁⟩, _, hnew⟩
  cases hnew
  rfl

theorem duplicates_ranges {kernelPml4 n : Nat} (hn : 1 ≤ n)
    (hret : duplicates alloc kernelPml4 n k p heap = some (k', new, heap')) :
    new.ranges = [] := by
  cases n with
  | zero => omega
  | succ n =>
      rw [duplicates] at hret
      rcases Option.bind_eq_some_iff.mp hret with ⟨_, _, hlast⟩
      exact duplicate_ranges hlast

/-- `new` can be copied and destroyed as `p` can: it records the same ranges, it has
their pages, and `destroy` frees the frames of these. -/
structure Repeatable (k' : Machine Pmm) (p new : Vmm) : Prop where
  ranges : new.ranges = p.ranges
  mapped : ∀ range ∈ p.ranges, ∀ t < range.pageCount,
    (Vmm.access k'.mem new.pml4 (range.page t)).isSome
  freed : ∀ range ∈ p.ranges, ∀ t < range.pageCount,
    ∀ f ∈ Vmm.access k'.mem new.pml4 (range.page t),
      (Vmm.destroy k' new).pmm.bitmap.isBitSet (f / PAGE_SIZE) = false

/-- A pagemap's copies of any generation are what they should be exactly when it records
no range. -/
theorem duplicates_repeatable_iff {k k' : Machine Pmm} {kernelPml4 n : Nat} (hn : 1 ≤ n)
    (hret : duplicates Vmm.allocFrame kernelPml4 n k p heap = some (k', new, heap')) :
    Repeatable k' p new ↔ p.ranges = [] := by
  have hnew := duplicates_ranges hn hret
  constructor
  · intro h
    rw [← h.ranges, hnew]
  · intro hp
    refine ⟨by rw [hnew, hp], ?_, ?_⟩
    · intro range hrange
      rw [hp] at hrange
      cases hrange
    · intro range hrange
      rw [hp] at hrange
      cases hrange

/-- A copy of a copy of a pagemap with one recorded page. -/
theorem duplicates_repeatable_iff_page :
    ∃ (k k' : Machine Pmm) (p new : Vmm) (heap' : Arrays MemArea),
      p.ranges = [⟨0x400000, 4096, 7, 0⟩] ∧
      duplicates Vmm.allocFrame 0 2 k p [] = some (k', new, heap') ∧
      (Repeatable k' p new ↔ p.ranges = []) := by
  rcases exists_parent_0x400000 [7] (by decide) with
    ⟨k, p, tab₀, owned, hranges, ht, howned, hpages, hsup⟩
  rcases duplicate_spec (n := 0) 0 [] ht howned hpages (by rwa [Nat.zero_add]) with
    ⟨k₁, p₁, heap₁, m, hret₁, hc, _⟩
  -- the copy has no ranges, so its copy is a new pagemap
  have hempty := duplicate_ranges hret₁
  obtain ⟨k', new, heap', hret₂⟩ : ∃ k' new heap',
      Vmm.duplicate Vmm.allocFrame k₁ 0 p₁ heap₁ = some (k', new, heap') := by
    rw [Vmm.duplicate, hempty]
    exact ⟨_, _, _, rfl⟩
  have hret : duplicates Vmm.allocFrame 0 2 k p [] = some (k', new, heap') := by
    rw [duplicates]
    refine Option.bind_eq_some_iff.mpr ⟨(k₁, p₁, heap₁), ?_, hret₂⟩
    rw [duplicates]
    exact Option.bind_eq_some_iff.mpr ⟨(k, p, []), rfl, hret₁⟩
  exact ⟨k, k', p, new, heap', hranges, hret, duplicates_repeatable_iff (by decide) hret⟩

/-- The copy of a pagemap with one recorded page records none. -/
theorem copy_forgets_ranges :
    ∃ (k k' : Machine Pmm) (p new : Vmm) (heap' : Arrays MemArea),
      p.ranges = [⟨0x400000, 4096, 7, 0⟩] ∧
      duplicates Vmm.allocFrame 0 1 k p [] = some (k', new, heap') ∧
      new.ranges = [] ∧ ¬Repeatable k' p new := by
  rcases exists_parent_0x400000 [7] (by decide) with
    ⟨k, p, tab₀, owned, hranges, ht, howned, hpages, hsup⟩
  rcases duplicate_spec (n := 0) 0 [] ht howned hpages (by rwa [Nat.zero_add]) with
    ⟨k', new, heap', m, hret, _⟩
  have hempty := duplicate_ranges hret
  refine ⟨k, k', p, new, heap', hranges, ?_, hempty, ?_⟩
  · rw [duplicates]
    exact Option.bind_eq_some_iff.mpr ⟨(k, p, []), rfl, hret⟩
  · intro h
    have heq := h.ranges
    rw [hempty, hranges] at heq
    cases heq

end Toystar.Memory

import Toystar.Memory.SpaceCopies
import Toystar.Memory.SpaceRuns

/-!
# What `duplicate` makes of a space

The copy has a frame of its own for each page that a range records, with the bytes
that the parent reads there (`Forked`), and of every other space and of every
buffer nothing changes (`Spaces.Sound.fork`).
-/

namespace Toystar.Memory

open Toystar.Klibc
open Toystar.Verified

variable {mem mem' : ByteMem} {sp : Space} {a : Area} {kernelPml4 virt : Nat}

theorem exists_of_mem_right {α β : Type} {R : α → β → Prop} {l : List α} {l' : List β} {y : β}
    (h : List.Forall₂ R l l') (hy : y ∈ l') : ∃ x ∈ l, R x y := by
  induction h with
  | nil => cases hy
  | @cons x y' l l' hfirst _ ih =>
      rcases List.mem_cons.mp hy with rfl | hmem
      · exact ⟨x, List.mem_cons_self, hfirst⟩
      · obtain ⟨x', hx', hR⟩ := ih hmem
        exact ⟨x', List.mem_cons_of_mem _ hx', hR⟩

/-! ## The pages of a space -/

namespace Area

theorem mem_pages : virt ∈ a.pages ↔ ∃ j < a.frames.count, virt = a.base + j * PAGE_SIZE := by
  unfold pages
  rw [List.mem_map]
  constructor
  · intro hex
    obtain ⟨j, hj, heq⟩ := hex
    exact ⟨j, List.mem_range.mp hj, heq.symm⟩
  · intro hex
    obtain ⟨j, hj, heq⟩ := hex
    exact ⟨j, List.mem_range.mpr hj, heq.symm⟩

/-- The pages that `duplicate` copies of a range are those of its area. -/
theorem Placed.copied {range : MemArea} (hp : a.Placed) (hr : range.Records a) :
    range.copied = a.pages.map fun v => (v, range.prot) := by
  obtain ⟨hbase, hlimit, _⟩ := hr
  have huser := hp.user
  have hamount : Vmm.pageAmount range.limit = a.frames.count := by
    rw [hlimit]
    unfold Vmm.pageAmount PAGE_SIZE at *
    omega
  unfold MemArea.copied pages
  rw [hamount, List.map_map]
  apply List.map_congr_left
  intro j hj
  have hlt := hp.page_lt (List.mem_range.mp hj)
  have hround : range.base &&& frameMask = a.base := by
    rw [hbase, and_frameMask (by omega), Nat.div_mul_cancel hp.base]
  rw [MemArea.page, hround, Nat.mod_eq_of_lt (by omega)]
  rfl

end Area

namespace Space

/-- The pages of the recorded areas. -/
def pages (sp : Space) : List Nat := sp.recorded.flatMap Area.pages

theorem mem_pages_iff : virt ∈ sp.pages ↔
    ∃ a ∈ sp.recorded, ∃ j < a.frames.count, virt = a.base + j * PAGE_SIZE := by
  unfold pages
  rw [List.mem_flatMap]
  constructor
  · intro hex
    obtain ⟨a, ha, hmem⟩ := hex
    exact ⟨a, ha, Area.mem_pages.mp hmem⟩
  · intro hex
    obtain ⟨a, ha, hmem⟩ := hex
    exact ⟨a, ha, Area.mem_pages.mpr hmem⟩

theorem length_pages : sp.pages.length = (sp.recorded.map (·.frames.count)).sum := by
  unfold pages Area.pages
  simp only [List.length_flatMap, List.length_map, List.length_range]

namespace Sound

/-- What is copied of the ranges is the pages, with flags that make them present. -/
theorem copied (h : sp.Sound kernelPml4 mem) :
    (sp.vm.ranges.flatMap MemArea.copied).map Prod.fst = sp.pages ∧
      ∀ page ∈ sp.vm.ranges.flatMap MemArea.copied, page.2 % 2 = 1 ∧ page.2 < PAGE_SIZE := by
  have hplaced : ∀ a ∈ sp.recorded, a.Placed := fun a ha => h.placed a (mem_recorded ha)
  have hranges := h.ranges
  unfold pages
  generalize sp.vm.ranges = ranges at hranges ⊢
  generalize sp.recorded = areas at hranges hplaced ⊢
  induction hranges with
  | nil => exact ⟨rfl, fun page hpage => by cases hpage⟩
  | @cons range a ranges areas hrange _ ih =>
      obtain ⟨hp, hrest⟩ := List.forall_mem_cons.mp hplaced
      obtain ⟨hpages, hflags⟩ := ih hrest
      have hcopied := hp.copied hrange
      constructor
      · rw [List.flatMap_cons, List.flatMap_cons, List.map_append, hpages, hcopied,
          List.map_map]
        congr 1
        exact List.map_id _
      · intro page hpage
        rw [List.flatMap_cons, List.mem_append, hcopied] at hpage
        rcases hpage with hnew | hold
        · obtain ⟨v, _, rfl⟩ := List.mem_map.mp hnew
          exact ⟨hrange.2.2.1, hrange.2.2.2⟩
        · exact hflags page hold

/-- No page is recorded twice. -/
theorem nodup_pages (h : sp.Sound kernelPml4 mem) (hapart : sp.frames.Pairwise Frames.Apart) :
    (sp.pages.map pageOf).Nodup := by
  obtain ⟨tab, ht, hleads⟩ := h.tree
  have hpair := (List.pairwise_append.mp (List.pairwise_map.mp
    (List.pairwise_append.mp hapart).2.1)).1
  unfold pages
  rw [List.map_flatMap, List.nodup_flatMap]
  constructor
  · intro a ha
    have hp := h.placed a (mem_recorded ha)
    unfold Area.pages
    rw [List.map_map]
    refine List.Nodup.map_on ?_ List.nodup_range
    intro i hi j hj heq
    have hlt := hp.page_lt (List.mem_range.mp hi)
    have hlt' := hp.page_lt (List.mem_range.mp hj)
    simp only [Function.comp_apply, pageOf] at heq
    unfold PAGE_SIZE at *
    omega
  · refine hpair.imp_of_mem ?_
    intro a b ha hb hab q hqa hqb
    obtain ⟨v, hv, rfl⟩ := List.mem_map.mp hqa
    obtain ⟨w, hw, hpage⟩ := List.mem_map.mp hqb
    obtain ⟨i, hi, rfl⟩ := Area.mem_pages.mp hv
    obtain ⟨j, hj, rfl⟩ := Area.mem_pages.mp hw
    have hpa := h.placed a (mem_recorded ha)
    have hpb := h.placed b (mem_recorded hb)
    obtain ⟨flags, hflags, _, hleaf⟩ := hleads a (mem_recorded ha) i hi
    obtain ⟨flags', hflags', _, hleaf'⟩ := hleads b (mem_recorded hb) j hj
    rw [leaf_congr hpage, hleaf] at hleaf'
    -- one entry, so one frame
    have hsame : a.frames.ptr / PAGE_SIZE + i = b.frames.ptr / PAGE_SIZE + j := by
      obtain ⟨x, hx⟩ := hpa.ptr
      obtain ⟨y, hy⟩ := hpb.ptr
      rw [hx, hy] at hleaf' ⊢
      unfold PAGE_SIZE at *
      omega
    refine hab (a.frames.ptr / PAGE_SIZE + i) ⟨by omega, by omega⟩ ?_
    rw [hsame]
    exact ⟨by omega, by omega⟩

theorem page_le (h : sp.Sound kernelPml4 mem) (hvirt : virt ∈ sp.pages) :
    virt + PAGE_SIZE ≤ 2 ^ 47 := by
  obtain ⟨a, ha, j, hj, rfl⟩ := mem_pages_iff.mp hvirt
  have huser := (h.placed a (mem_recorded ha)).user
  unfold PAGE_SIZE at *
  omega

/-- The pages can be copied. -/
theorem parentPage {owned : Set Nat} {tab : List Nat → Option Nat}
    (h : sp.Sound kernelPml4 mem) (hleads : ∀ a ∈ sp.areas, a.Leads mem tab)
    (howned : ∀ a ∈ sp.areas, ∀ j < a.frames.count, a.frames.ptr + j * PAGE_SIZE ∈ owned)
    (hvirt : virt ∈ sp.pages) :
    PAGE_SIZE ∣ virt ∧ ParentPage mem tab owned virt := by
  obtain ⟨a, ha, j, hj, rfl⟩ := mem_pages_iff.mp hvirt
  have hmem := mem_recorded ha
  have hp := h.placed a hmem
  have hlt := hp.page_lt hj
  obtain ⟨flags, hflags, hodd, hleaf⟩ := hleads a hmem j hj
  have hdvd : PAGE_SIZE ∣ a.frames.ptr + j * PAGE_SIZE :=
    Nat.dvd_add hp.ptr (Nat.dvd_mul_left _ _)
  refine ⟨hp.page_dvd j, userAddr_of_lt hlt.1, .inl hlt.1, ?_, ?_⟩
  · obtain ⟨x, hx⟩ := hdvd
    rw [hleaf, hx]
    unfold PAGE_SIZE
    omega
  · rw [hleaf, frameIn_low hdvd hlt.2.le hflags]
    exact howned a hmem j hj

end Sound

end Space

/-! ## The copy -/

/-- One page of the copy: its frame has the bytes that the parent reads there. -/
structure CopiedPage (mem : ByteMem) (pml4 : Nat) (mem' : ByteMem)
    (tab' : List Nat → Option Nat) (virt f : Nat) : Prop where
  placed : Area.Placed ⟨virt, .one f⟩
  leads : Area.Leads mem' tab' ⟨virt, .one f⟩
  bytes : ∀ o < PAGE_SIZE, (Vmm.access mem pml4 (virt + o)).map mem = some (mem' (f + o))

/-- What `duplicate` makes of a space: `fs` are the frames of its pages, in their order. -/
structure Forked (k : Machine Pmm) (kernelPml4 : Nat) (sp : Space) (k' : Machine Pmm)
    (vm' : Vmm) (tab' : List Nat → Option Nat) (fs : List Nat) : Prop where
  ranges_eq : vm'.ranges = []
  tree : PageTree k'.mem vm' tab'
  pages : List.Forall₂ (CopiedPage k.mem sp.vm.pml4 k'.mem tab') sp.pages fs
  takes : ∃ us, Run Takes k.pmm us k'.pmm ∧ 0 ∉ us ∧
    us.Perm (vm'.pml4 :: vm'.pageTablesAddr ++ fs)
  same : SameOutside (vm'.tables ∪ {f | f ∈ fs}) k.mem k'.mem
  kernel : ∀ j, j = 256 ∨ j = 511 → entryAt k'.mem vm'.pml4 j = entryAt k.mem kernelPml4 j

namespace Forked

variable {k k' : Machine Pmm} {vm' : Vmm} {tab' : List Nat → Option Nat} {fs : List Nat} {f : Nat}

theorem access (h : Forked k kernelPml4 sp k' vm' tab' fs)
    (hp : CopiedPage k.mem sp.vm.pml4 k'.mem tab' virt f) :
    Vmm.access k'.mem vm'.pml4 virt = some f := by
  have hcover : Area.Covers ⟨virt, .one f⟩ virt := by
    change virt ≤ virt ∧ virt < virt + 1 * PAGE_SIZE
    unfold PAGE_SIZE
    omega
  have haccess := hp.leads.access h.tree hp.placed hcover
  rwa [Nat.sub_self, Nat.add_zero] at haccess

/-- Every page has its copy. -/
theorem copy_mem (h : Forked k kernelPml4 sp k' vm' tab' fs) (hvirt : virt ∈ sp.pages) :
    ∃ f, CopiedPage k.mem sp.vm.pml4 k'.mem tab' virt f ∧
      (⟨virt, .one f⟩ : Area) ∈ Spaces.copies k'.mem vm'.pml4 sp.recorded := by
  obtain ⟨f, _, hp⟩ := exists_of_mem_right h.pages.flip hvirt
  refine ⟨f, hp, List.mem_map.mpr ⟨virt, hvirt, ?_⟩⟩
  rw [h.access hp]
  rfl

/-- And there are no other copies. -/
theorem mem_copies (h : Forked k kernelPml4 sp k' vm' tab' fs)
    (ha : a ∈ Spaces.copies k'.mem vm'.pml4 sp.recorded) :
    ∃ virt ∈ sp.pages, ∃ f, CopiedPage k.mem sp.vm.pml4 k'.mem tab' virt f ∧
      a = ⟨virt, .one f⟩ := by
  obtain ⟨virt, hvirt, rfl⟩ := List.mem_map.mp ha
  obtain ⟨f, _, hp⟩ := exists_of_mem_right h.pages.flip hvirt
  refine ⟨virt, hvirt, f, hp, ?_⟩
  rw [h.access hp]
  rfl

theorem copies_frames (h : Forked k kernelPml4 sp k' vm' tab' fs) :
    (Spaces.copies k'.mem vm'.pml4 sp.recorded).map (·.frames) = fs.map Frames.one := by
  unfold Spaces.copies
  rw [List.map_map, ← List.forall₂_eq_eq_eq, List.forall₂_map_left_iff,
    List.forall₂_map_right_iff]
  refine h.pages.imp ?_
  intro virt f hp
  change Frames.one _ = Frames.one f
  rw [h.access hp]
  rfl

/-- What was taken is what the copy has. -/
theorem frames_perm (h : Forked k kernelPml4 sp k' vm' tab' fs) :
    ∃ us, Run Takes k.pmm us k'.pmm ∧ 0 ∉ us ∧ (us.map Frames.one).Perm
      (Space.frames ⟨vm', [], Spaces.copies k'.mem vm'.pml4 sp.recorded⟩) := by
  obtain ⟨us, hrun, hnull, hperm⟩ := h.takes
  refine ⟨us, hrun, hnull, (hperm.map Frames.one).trans (.of_eq ?_)⟩
  rw [Space.frames, Space.areas, List.nil_append, h.copies_frames, List.map_append]
  rfl

theorem aligned (h : Forked k kernelPml4 sp k' vm' tab' fs) :
    ∀ t ∈ vm'.tables, PAGE_SIZE ∣ t := by
  intro t ht
  obtain ⟨us, hrun, _, hperm⟩ := h.takes
  refine takes_aligned hrun t (hperm.mem_iff.mpr (List.mem_append_left _ ?_))
  rcases ht with hroot | hmem
  · exact hroot ▸ List.mem_cons_self
  · exact List.mem_cons_of_mem _ hmem

theorem sound (h : Forked k kernelPml4 sp k' vm' tab' fs)
    (hkernel : ∀ j, j = 256 ∨ j = 511 →
      entryAt k'.mem vm'.pml4 j = entryAt k'.mem kernelPml4 j) :
    Space.Sound kernelPml4 k'.mem ⟨vm', [], Spaces.copies k'.mem vm'.pml4 sp.recorded⟩ := by
  have hareas : ∀ a ∈ Space.areas ⟨vm', [], Spaces.copies k'.mem vm'.pml4 sp.recorded⟩,
      ∃ virt f, CopiedPage k.mem sp.vm.pml4 k'.mem tab' virt f ∧ a = ⟨virt, .one f⟩ := by
    intro a ha
    obtain ⟨virt, _, f, hp, heq⟩ := h.mem_copies ha
    exact ⟨virt, f, hp, heq⟩
  refine
    { tree := ⟨tab', h.tree, fun a ha => ?_⟩
      aligned := h.aligned
      placed := fun a ha => ?_
      ranges := by rw [h.ranges_eq]; exact .nil
      kernel := hkernel }
  · obtain ⟨virt, f, hp, rfl⟩ := hareas a ha
    exact hp.leads
  · obtain ⟨virt, f, hp, rfl⟩ := hareas a ha
    exact hp.placed

/-- The copy has the bytes of the recorded areas. -/
theorem bytes_eq (h : Forked k kernelPml4 sp k' vm' tab' fs)
    (hsp' : Space.Sound kernelPml4 k'.mem
      ⟨vm', [], Spaces.copies k'.mem vm'.pml4 sp.recorded⟩) :
    Space.bytes k'.mem vm'.pml4 (Spaces.copies k'.mem vm'.pml4 sp.recorded) =
      Space.bytes k.mem sp.vm.pml4 sp.recorded := by
  funext w
  by_cases hcover : ∃ a ∈ sp.recorded, a.Covers w
  · have hcovered := hcover
    obtain ⟨a, ha, hc⟩ := hcover
    obtain ⟨j, hj, o, ho, rfl⟩ := hc.page
    obtain ⟨f, hp, hcopy⟩ := h.copy_mem (Space.mem_pages_iff.mpr ⟨a, ha, j, hj, rfl⟩)
    have hc' : Area.Covers ⟨a.base + j * PAGE_SIZE, .one f⟩ (a.base + j * PAGE_SIZE + o) := by
      change a.base + j * PAGE_SIZE ≤ _ ∧ _ < a.base + j * PAGE_SIZE + 1 * PAGE_SIZE
      omega
    have hbytes : Space.bytes k'.mem vm'.pml4 (Spaces.copies k'.mem vm'.pml4 sp.recorded)
        (a.base + j * PAGE_SIZE + o) =
          some (k'.mem (f + (a.base + j * PAGE_SIZE + o - (a.base + j * PAGE_SIZE)))) :=
      hsp'.bytes_eq (List.subset_append_right _ _) hcopy hc'
    rw [hbytes, Space.bytes, if_pos hcovered, hp.bytes o ho, Nat.add_sub_cancel_left]
  · rw [Space.bytes, Space.bytes, if_neg hcover, if_neg]
    intro hex
    obtain ⟨b, hb, hc⟩ := hex
    obtain ⟨virt, hvirt, f, _, rfl⟩ := h.mem_copies hb
    obtain ⟨a, ha, j, hj, rfl⟩ := Space.mem_pages_iff.mp hvirt
    obtain ⟨hlo, hhi⟩ := hc
    refine hcover ⟨a, ha, ?_⟩
    change a.base + j * PAGE_SIZE ≤ w at hlo
    change w < a.base + j * PAGE_SIZE + 1 * PAGE_SIZE at hhi
    unfold Area.Covers PAGE_SIZE at *
    omega

end Forked

namespace Spaces

namespace Sound

variable {p₀ : Pmm} {mem₀ : ByteMem} {s s' : Spaces} {i : Nat}

theorem owned_tables (hb : Booted p₀ s.kernelPml4) (h : s.Sound p₀ mem₀)
    (hsp : sp ∈ s.spaces) : sp.vm.tables ⊆ usedFrames s.machine.pmm := by
  intro t ht
  have hdvd := (h.spaces sp hsp).aligned t ht
  refine ⟨t / PAGE_SIZE, (h.avoids hb hsp).used _ ?_, (Nat.div_mul_cancel hdvd).symm⟩
  rwa [Nat.div_mul_cancel hdvd]

theorem owned_pages (h : s.Sound p₀ mem₀) (hsp : sp ∈ s.spaces) (ha : a ∈ sp.areas) {j : Nat}
    (hj : j < a.frames.count) : a.frames.ptr + j * PAGE_SIZE ∈ usedFrames s.machine.pmm := by
  have hptr := ((h.spaces sp hsp).placed a ha).ptr
  refine ⟨a.frames.ptr / PAGE_SIZE + j, ?_, by rw [Nat.add_mul, Nat.div_mul_cancel hptr]⟩
  refine (h.tracks.used _).mpr (.inr ⟨_, frames_subset_live hsp (Space.frames_mem ha), ?_⟩)
  exact ⟨by omega, by omega⟩

theorem apart_of_mem (h : s.Sound p₀ mem₀) (hi : s.spaces[i]? = some sp) :
    sp.frames.Pairwise Frames.Apart :=
  (List.pairwise_append.mp (h.tracks.congr rfl (live_perm hi) :
    Tracks p₀ ⟨s.machine.pmm, s.machine.mem, sp.frames ++ s.rest i⟩).apart).1

/-- `duplicate` of a space, with a frame for every request. -/
theorem forked (hb : Booted p₀ s.kernelPml4) (h : s.Sound p₀ mem₀)
    (hi : s.spaces[i]? = some sp)
    (hfree : 4 * (sp.recorded.map (·.frames.count)).sum + 1 ≤
      freeCells s.machine.pmm.bitmap.isBitSet s.machine.pmm.pages) :
    ∃ k' vm' tab' fs heap', Vmm.duplicate Vmm.allocFrame s.machine s.kernelPml4 sp.vm s.arrays =
      some (k', vm', heap') ∧ Forked s.machine s.kernelPml4 sp k' vm' tab' fs := by
  have hmem := List.mem_of_getElem? hi
  have hsp := h.spaces sp hmem
  have havoids := h.avoids hb hmem
  have hzero : 0 ∈ usedFrames s.machine.pmm := ⟨0, havoids.zero, (Nat.zero_mul _).symm⟩
  obtain ⟨tab, ht, hleads⟩ := hsp.tree
  obtain ⟨hpages, hflags⟩ := hsp.copied
  have hparent : ∀ page ∈ sp.vm.ranges.flatMap MemArea.copied, page.1 + PAGE_SIZE ≤ 2 ^ 47 ∧
      PAGE_SIZE ∣ page.1 ∧
      ParentPage s.machine.mem tab (usedFrames s.machine.pmm) page.1 := by
    intro page hpage
    have hin : page.1 ∈ sp.pages := hpages ▸ List.mem_map_of_mem hpage
    exact ⟨hsp.page_le hin,
      hsp.parentPage hleads (fun a ha j hj => h.owned_pages hmem ha hj) hin⟩
  have hlength : (sp.vm.ranges.flatMap MemArea.copied).length =
      (sp.recorded.map (·.frames.count)).sum := by
    rw [← Space.length_pages, ← hpages, List.length_map]
  have hsup : Supplies Vmm.allocFrame (0 + 4 * (sp.vm.ranges.flatMap MemArea.copied).length + 1)
      s.machine.pmm (usedFrames s.machine.pmm) := by
    refine supplies_allocFrame havoids.zero havoids.reach (fun i hi => mem_usedFrames.mp hi) ?_
    rw [hlength]
    omega
  -- the new pagemap is not page 0
  have hcopied := copied_new tab s.kernelPml4 hsup
  have hne : (Vmm.new Vmm.allocFrame s.machine s.kernelPml4).2.pml4 ≠ 0 := by
    intro hnull
    exact hcopied.tables _ (.inl rfl) (hnull ▸ hzero)
  obtain ⟨f₀, k₁, hnew, htakes, hsame, _, hkernel⟩ := h.newPagemap hb hne
  rw [hnew] at hcopied
  obtain ⟨k', vm', m', fs, hret, hc, hacc, hframes, _⟩ := hcopied.copyAll ht
    (h.owned_tables hb hmem)
    (fun page hpage => ⟨(hparent page hpage).2.1, (hparent page hpage).2.2,
      (hflags page hpage).2⟩)
    (by
      have hnodup := hsp.nodup_pages (h.apart_of_mem hi)
      rwa [← hpages, List.map_map] at hnodup)
  rw [← hnew] at hret
  obtain ⟨heap', hdup⟩ := duplicate_eq s.kernelPml4 sp.vm s.arrays hret
  obtain ⟨tab', ht', hleaf'⟩ := hc.tree
  obtain ⟨ts, us, haddr, hrun, hperm⟩ := hacc.takes
  have hframes' := (List.forall₂_and_left _ _).mpr
    ⟨fun page hpage => And.intro (hparent page hpage) (hflags page hpage), hframes⟩
  refine ⟨k', { vm' with ranges := [] }, tab', fs, heap', hdup, ?_⟩
  refine
    { ranges_eq := rfl
      tree := ht'.setRanges []
      pages := ?_
      takes := ⟨f₀ :: us, htakes.append hrun, ?_, ?_⟩
      same := (hsame.mono ?_).trans hacc.same
      kernel := ?_ }
  · rw [← hpages, List.forall₂_map_left_iff]
    refine hframes'.imp ?_
    intro page f hpage
    obtain ⟨⟨⟨hle, hdvd, hpp⟩, hodd, hlt⟩, hm⟩ := hpage
    have hf := (hc.frame hm).1
    refine ⟨⟨hdvd, hf.1, Nat.one_pos, ?_, ?_⟩, fun j hj => ⟨page.2, hlt, hodd, ?_⟩, ?_⟩
    · exact (congrArg (page.1 + ·) (Nat.one_mul _)).trans_le hle
    · obtain ⟨⟨n, hn⟩, _, hreach⟩ := hf
      change f + 1 * PAGE_SIZE ≤ 2 ^ 47
      unfold PAGE_SIZE at *
      omega
    · obtain rfl : j = 0 := Nat.lt_one_iff.mp hj
      change leaf k'.mem tab' (page.1 + 0 * PAGE_SIZE) = f + 0 * PAGE_SIZE + page.2
      have hlow := or_low hf.1 hlt
      rw [Nat.zero_mul, Nat.add_zero, Nat.add_zero, hleaf' _ hpp.user, hm, entryOf, hlow]
      refine Nat.mod_eq_of_lt ?_
      have hreach := hf.2.2
      unfold PAGE_SIZE at hlt
      omega
    · intro o ho
      rw [hpp.access_eq ht hdvd ho, Option.map_some, hc.contents hm o ho]
  · intro hnull
    rw [List.mem_cons] at hnull
    rcases hnull with hroot | hnull
    · rw [hnew] at hne
      exact hne hroot.symm
    · rw [hperm.mem_iff, List.mem_append] at hnull
      rcases hnull with hframe | htable
      · obtain ⟨page, _, hm⟩ := exists_of_mem_right hframes hframe
        exact (hc.frame hm).2.1 hzero
      · exact hc.tables 0 (.inr (haddr ▸ List.mem_append_right _ htable)) hzero
  · rw [hacc.pml4_eq, haddr, List.nil_append]
    exact (hperm.trans List.perm_append_comm).cons f₀
  · exact fun t ht => .inl (.inl (ht.trans hacc.pml4_eq.symm))
  · intro j hj
    have hnot : ¬UserIndex [] j := by
      intro huser
      have hne := huser.2 rfl
      omega
    rw [← hkernel j hj, ← hacc.kernel j (by omega) hnot]
    exact congrArg (entryAt k'.mem · j) hacc.pml4_eq

/-- With frames for it `fork` is served. -/
theorem fork_served (hb : Booted p₀ s.kernelPml4) (h : s.Sound p₀ mem₀)
    (hi : s.spaces[i]? = some sp)
    (hfree : 4 * (sp.recorded.map (·.frames.count)).sum + 1 ≤
      freeCells s.machine.pmm.bitmap.isBitSet s.machine.pmm.pages) :
    ∃ s', s.exec (.fork i) = some s' := by
  obtain ⟨k', vm', _, _, heap', hdup, _⟩ := h.forked hb hi hfree
  simp only [exec, hi, Option.bind_eq_bind, Option.bind_some, guard, if_pos hfree, hdup]
  exact ⟨_, rfl⟩

theorem fork (hb : Booted p₀ s.kernelPml4) (h : s.Sound p₀ mem₀)
    (hexec : s.exec (.fork i) = some s') :
    s'.Sound p₀ mem₀ ∧ s'.view = s.view.apply (.fork i) := by
  rw [exec, Option.bind_eq_bind, Option.bind_eq_some_iff] at hexec
  obtain ⟨sp, hi, hret⟩ := hexec
  rw [guard_bind_eq_some] at hret
  obtain ⟨hfree, hret⟩ := hret
  obtain ⟨k', vm', tab', fs, heap', hdup, hforked⟩ := h.forked hb hi hfree
  rw [hdup] at hret
  obtain rfl := Option.some.inj hret
  dsimp only
  obtain ⟨us, hrun, hnull, hperm⟩ := hforked.frames_perm
  have htracks : Tracks p₀ ⟨k'.pmm, k'.mem,
      Space.frames ⟨vm', [], copies k'.mem vm'.pml4 sp.recorded⟩ ++ s.live⟩ :=
    (h.tracks.takes k'.mem hb.zero hrun hnull).congr rfl (hperm.append_right _)
  have hchange : ChangedIn (Space.frames ⟨vm', [], copies k'.mem vm'.pml4 sp.recorded⟩)
      s.machine.mem k'.mem := by
    refine .of_sameOutside hforked.same fun t ht => ?_
    rcases ht with htable | hframe
    · exact ⟨_, Space.tables_mem htable, Frames.has_one.mpr rfl⟩
    · refine ⟨.one t, List.mem_append_right _ ?_, Frames.has_one.mpr rfl⟩
      rw [Space.areas, List.nil_append, hforked.copies_frames]
      exact List.mem_map_of_mem hframe
  have hsp' := hforked.sound fun j hj => by
    rw [hforked.kernel j hj, kernel_entry hb htracks hchange (by omega)]
  obtain ⟨hsound, hbuffers, hspaces⟩ := h.extend heap' hb htracks hchange hsp'
  refine ⟨hsound, ?_⟩
  simp only [view, AbstractMemory.apply, AbstractMemory.mk.injEq]
  refine ⟨hbuffers, hspaces.trans ?_⟩
  rw [List.getElem?_map, hi, Option.map_some, Option.elim_some, Space.view,
    hforked.bytes_eq hsp']
  congr 1

end Sound

end Spaces

end Toystar.Memory

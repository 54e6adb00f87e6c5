import Toystar.Memory.AddressSpaces

/-!
# What holds of an address space

`Space.Sound` says that the pages of a space lead to its frames, and
`Spaces.Sound` that what is in use is in use once.  Memory that changes inside
some frames (`ChangedIn`) leaves alone every space and every buffer that is apart
from them (`Tracks.keeps`), so an operation has to be looked at in one space only.
-/

namespace Toystar.Memory

open Toystar.Klibc
open Toystar.Verified

variable {mem mem' : ByteMem} {vm : Vmm} {tab : List Nat → Option Nat} {a : Area}
  {virt kernelPml4 : Nat}

/-! ## Areas -/

/-- Whole pages of the user half, and frames the direct map reaches. -/
structure Area.Placed (a : Area) : Prop where
  base : PAGE_SIZE ∣ a.base
  ptr : PAGE_SIZE ∣ a.frames.ptr
  count : 0 < a.frames.count
  user : a.base + a.frames.count * PAGE_SIZE ≤ 2 ^ 47
  reach : a.frames.ptr + a.frames.count * PAGE_SIZE ≤ 2 ^ 47

/-- Every page of the area is present and has its frame. -/
def Area.Leads (mem : ByteMem) (tab : List Nat → Option Nat) (a : Area) : Prop :=
  ∀ j < a.frames.count, ∃ flags < PAGE_SIZE, flags % 2 = 1 ∧
    leaf mem tab (a.base + j * PAGE_SIZE) = a.frames.ptr + j * PAGE_SIZE + flags

/-- Frame and flags of an entry come apart. -/
theorem frameIn_low {t flags : Nat} (ht : PAGE_SIZE ∣ t) (hle : t ≤ 2 ^ 47)
    (hflags : flags < PAGE_SIZE) : frameIn (t + flags) = t := by
  obtain ⟨n, rfl⟩ := ht
  unfold frameIn PAGE_SIZE at *
  omega

/-- The address part of an entry. -/
theorem page_of_add {t flags : Nat} (ht : PAGE_SIZE ∣ t) (hflags : flags < PAGE_SIZE) :
    (t + flags) / PAGE_SIZE * PAGE_SIZE = t := by
  obtain ⟨n, rfl⟩ := ht
  unfold PAGE_SIZE at *
  omega

namespace Area

/-- An address of an area is in one of its pages. -/
theorem Covers.page (hc : a.Covers virt) : ∃ j < a.frames.count, ∃ o < PAGE_SIZE,
    virt = a.base + j * PAGE_SIZE + o := by
  unfold Covers at hc
  refine ⟨(virt - a.base) / PAGE_SIZE, ?_, (virt - a.base) % PAGE_SIZE, Nat.mod_lt _ (by decide),
    ?_⟩
  · rw [Nat.div_lt_iff_lt_mul (by decide)]
    omega
  · unfold PAGE_SIZE
    omega

theorem Placed.page_dvd (hp : a.Placed) (j : Nat) : PAGE_SIZE ∣ a.base + j * PAGE_SIZE :=
  Nat.dvd_add hp.base (Nat.dvd_mul_left _ _)

theorem Placed.page_lt (hp : a.Placed) {j : Nat} (hj : j < a.frames.count) :
    a.base + j * PAGE_SIZE < 2 ^ 47 ∧ a.frames.ptr + j * PAGE_SIZE < 2 ^ 47 := by
  have huser := hp.user
  have hreach := hp.reach
  unfold PAGE_SIZE at *
  omega

theorem canonical_of_lt (hvirt : virt < 2 ^ 47) : Vmm.Canonical virt := .inl hvirt

/-- The processor finds the frame of every address of the area. -/
theorem Leads.access (hl : a.Leads mem tab) (ht : PageTree mem vm tab) (hp : a.Placed)
    (hc : a.Covers virt) :
    Vmm.access mem vm.pml4 virt = some (a.frames.ptr + (virt - a.base)) := by
  obtain ⟨j, hj, o, ho, rfl⟩ := hc.page
  obtain ⟨flags, hflags, hodd, hleaf⟩ := hl j hj
  have hlt := hp.page_lt hj
  obtain ⟨hpage, hmod⟩ := page_add (hp.page_dvd j) ho
  have hdvd : PAGE_SIZE ∣ a.frames.ptr + j * PAGE_SIZE :=
    Nat.dvd_add hp.ptr (Nat.dvd_mul_left _ _)
  have hsame : leaf mem tab (a.base + j * PAGE_SIZE + o) =
      a.frames.ptr + j * PAGE_SIZE + flags := (leaf_congr hpage).trans hleaf
  have hpresent : leaf mem tab (a.base + j * PAGE_SIZE + o) % 2 = 1 := by
    obtain ⟨n, hn⟩ := hdvd
    rw [hsame, hn]
    unfold PAGE_SIZE
    omega
  have hcanon : Vmm.Canonical (a.base + j * PAGE_SIZE + o) :=
    (canonical_of_lt hlt.1).add (hp.page_dvd j) ho
  rw [ht.access_eq ((userAddr_of_lt hlt.1).congr hpage) hcanon hpresent, hsame,
    frameIn_low hdvd hlt.2.le hflags, hmod]
  congr 1
  omega

/-- Where an address of the area is in memory. -/
theorem Covers.has (hc : a.Covers virt) (hp : a.Placed) :
    a.frames.Has ((a.frames.ptr + (virt - a.base)) / PAGE_SIZE) := by
  obtain ⟨n, hn⟩ := hp.ptr
  unfold Covers at hc
  unfold Frames.Has
  rw [hn]
  unfold PAGE_SIZE at *
  omega

end Area

/-! ## Memory that changes in some frames -/

theorem Frames.has_one {t i : Nat} : (Frames.one t).Has i ↔ i = t / PAGE_SIZE := by
  change t / PAGE_SIZE ≤ i ∧ i < t / PAGE_SIZE + 1 ↔ _
  omega

namespace ChangedIn

variable {fs gs : List Frames} {f : Frames} {W : Set Nat} {mem'' : ByteMem}

/-- Frames as sets of addresses. -/
theorem of_sameOutside (h : SameOutside W mem mem')
    (hW : ∀ t ∈ W, ∃ f ∈ fs, f.Has (t / PAGE_SIZE)) : ChangedIn fs mem mem' := by
  intro x hx
  apply h
  intro hmem
  obtain ⟨f, hf, hhas⟩ := hW _ hmem
  rw [frameOf, Nat.mul_div_cancel _ (by decide)] at hhas
  exact hx f hf hhas

theorem sameOutside (h : ChangedIn fs mem mem') :
    SameOutside {t | ∃ f ∈ fs, f.Has (t / PAGE_SIZE)} mem mem' := by
  intro x hx
  apply h
  intro f hf hhas
  refine hx ⟨f, hf, ?_⟩
  rw [frameOf, Nat.mul_div_cancel _ (by decide)]
  exact hhas

end ChangedIn

theorem Vmm.mem_tableFrames {t : Nat} (ht : t ∈ vm.tables) :
    Frames.one t ∈ vm.tableFrames := by
  refine List.mem_map_of_mem ?_
  rcases ht with hroot | hmem
  · exact hroot ▸ List.mem_cons_self
  · exact List.mem_cons_of_mem _ hmem

/-- Only tables are written. -/
theorem changedIn_tables (h : SameOutside vm.tables mem mem') :
    ChangedIn vm.tableFrames mem mem' :=
  .of_sameOutside h fun _ ht => ⟨_, Vmm.mem_tableFrames ht, Frames.has_one.mpr rfl⟩

/-! ## One space -/

/-- A range and the area behind it. -/
def MemArea.Records (range : MemArea) (a : Area) : Prop :=
  range.base = a.base ∧ range.limit = a.frames.count * PAGE_SIZE ∧ range.prot % 2 = 1 ∧
    range.prot < PAGE_SIZE

/-- The pages of a space lead to its frames, its ranges are the recorded areas, and it
shares the kernel's half. -/
structure Space.Sound (kernelPml4 : Nat) (mem : ByteMem) (sp : Space) : Prop where
  tree : ∃ tab, PageTree mem sp.vm tab ∧ ∀ a ∈ sp.areas, a.Leads mem tab
  aligned : ∀ t ∈ sp.vm.tables, PAGE_SIZE ∣ t
  placed : ∀ a ∈ sp.areas, a.Placed
  ranges : List.Forall₂ MemArea.Records sp.vm.ranges sp.recorded
  kernel : ∀ j, j = 256 ∨ j = 511 → entryAt mem sp.vm.pml4 j = entryAt mem kernelPml4 j

namespace Space

variable {sp : Space}

theorem mem_recorded (ha : a ∈ sp.recorded) : a ∈ sp.areas := List.mem_append_left _ ha

theorem mem_inherited (ha : a ∈ sp.inherited) : a ∈ sp.areas := List.mem_append_right _ ha

theorem frames_mem (ha : a ∈ sp.areas) : a.frames ∈ sp.frames :=
  List.mem_append_right _ (List.mem_map_of_mem ha)

theorem tables_mem {t : Nat} (ht : t ∈ sp.vm.tables) : Frames.one t ∈ sp.frames :=
  List.mem_append_left _ (Vmm.mem_tableFrames ht)

namespace Sound

variable {fs : List Frames}

theorem access (h : sp.Sound kernelPml4 mem) (ha : a ∈ sp.areas) (hc : a.Covers virt) :
    Vmm.access mem sp.vm.pml4 virt = some (a.frames.ptr + (virt - a.base)) := by
  obtain ⟨tab, ht, hleads⟩ := h.tree
  exact (hleads a ha).access ht (h.placed a ha) hc

/-- What is written to other frames than its tables leaves a space what it is. -/
theorem change (h : sp.Sound kernelPml4 mem) (hchange : ChangedIn fs mem mem')
    (htables : ∀ f ∈ fs, ∀ t ∈ sp.vm.tables, ¬f.Has (t / PAGE_SIZE))
    (hkernel : ∀ f ∈ fs, ¬f.Has (kernelPml4 / PAGE_SIZE)) (hdvd : PAGE_SIZE ∣ kernelPml4) :
    sp.Sound kernelPml4 mem' := by
  obtain ⟨tab, ht, hleads⟩ := h.tree
  have hsame := hchange.sameOutside
  have hno : ∀ t ∈ sp.vm.tables, t ∉ {t | ∃ f ∈ fs, f.Has (t / PAGE_SIZE)} := by
    intro t htable hmem
    obtain ⟨f, hf, hhas⟩ := hmem
    exact htables f hf t htable hhas
  have hroot : sp.vm.pml4 ∈ sp.vm.tables := .inl rfl
  have hno' : kernelPml4 ∉ {t | ∃ f ∈ fs, f.Has (t / PAGE_SIZE)} := by
    intro hmem
    obtain ⟨f, hf, hhas⟩ := hmem
    exact hkernel f hf hhas
  refine
    { tree := ⟨tab, ht.sameOutside hsame hno, fun a ha j hj => ?_⟩
      aligned := h.aligned
      placed := h.placed
      ranges := h.ranges
      kernel := fun j hj => ?_ }
  · rw [ht.leaf_sameOutside hsame hno]
    exact hleads a ha j hj
  · have hlt : j < 512 := by omega
    rw [entryAt_sameOutside hsame (ht.frame ht.root).1 hlt (hno _ hroot),
      entryAt_sameOutside hsame hdvd hlt hno']
    exact h.kernel j hj

/-- The bytes of some areas, wherever their frames are. -/
theorem bytes_eq (h : sp.Sound kernelPml4 mem) {areas : List Area} (hsub : areas ⊆ sp.areas)
    (ha : a ∈ areas) (hc : a.Covers virt) :
    bytes mem sp.vm.pml4 areas virt = some (mem (a.frames.ptr + (virt - a.base))) := by
  rw [bytes, if_pos ⟨a, ha, hc⟩, h.access (hsub ha) hc, Option.map_some]

/-- And they stay when those frames do. -/
theorem bytes_congr {sp' : Space} (h : sp.Sound kernelPml4 mem) (h' : sp'.Sound kernelPml4 mem')
    {areas : List Area} (hsub : areas ⊆ sp.areas) (hsub' : areas ⊆ sp'.areas)
    (hsame : ∀ a ∈ areas, ∀ x, a.frames.Has (x / PAGE_SIZE) → mem' x = mem x) :
    bytes mem' sp'.vm.pml4 areas = bytes mem sp.vm.pml4 areas := by
  funext w
  by_cases hcover : ∃ a ∈ areas, a.Covers w
  · obtain ⟨a, ha, hc⟩ := hcover
    rw [h.bytes_eq hsub ha hc, h'.bytes_eq hsub' ha hc,
      hsame a ha _ (hc.has (h.placed a (hsub ha)))]
  · rw [bytes, bytes, if_neg hcover, if_neg hcover]

/-- The bytes with one area more. -/
theorem bytes_place (h : sp.Sound kernelPml4 mem) (areas : List Area)
    (hsub : areas ++ [a] ⊆ sp.areas) :
    bytes mem sp.vm.pml4 (areas ++ [a]) =
      (bytes mem sp.vm.pml4 areas).place a.base (a.frames.bytes mem) := by
  have hlast : a ∈ areas ++ [a] := List.mem_append_right _ (List.mem_singleton_self a)
  funext w
  unfold Bytes.place
  by_cases hc : a.Covers w
  · have hlt : w - a.base < a.frames.count * PAGE_SIZE := by
      unfold Area.Covers at hc
      omega
    rw [h.bytes_eq hsub hlast hc, if_pos hc.1, Frames.bytes, if_pos hlt, Option.some_or]
  · have hsame : bytes mem sp.vm.pml4 (areas ++ [a]) w = bytes mem sp.vm.pml4 areas w := by
      have hiff : (∃ b ∈ areas ++ [a], b.Covers w) ↔ ∃ b ∈ areas, b.Covers w := by
        constructor
        · intro hex
          obtain ⟨b, hb, hcover⟩ := hex
          rcases List.mem_append.mp hb with hb | hb
          · exact ⟨b, hb, hcover⟩
          · rw [List.mem_singleton.mp hb] at hcover
            exact absurd hcover hc
        · intro hex
          obtain ⟨b, hb, hcover⟩ := hex
          exact ⟨b, List.mem_append_left _ hb, hcover⟩
      unfold bytes
      simp only [hiff]
    rw [hsame]
    by_cases hlo : a.base ≤ w
    · have hge : ¬w - a.base < a.frames.count * PAGE_SIZE := by
        unfold Area.Covers at hc
        omega
      rw [if_pos hlo, Frames.bytes, if_neg hge, Option.none_or]
    · rw [if_neg hlo]

theorem view_congr {vm' : Vmm} (h : sp.Sound kernelPml4 mem)
    (h' : Sound kernelPml4 mem' { sp with vm := vm' })
    (hsame : ∀ a ∈ sp.areas, ∀ x, a.frames.Has (x / PAGE_SIZE) → mem' x = mem x) :
    view mem' { sp with vm := vm' } = sp.view mem := by
  rw [view, view]
  dsimp only
  rw [h.bytes_congr h' (List.subset_append_left _ _) (List.subset_append_left _ _)
      fun a ha => hsame a (mem_recorded ha),
    h.bytes_congr h' (List.subset_append_right _ _) (List.subset_append_right _ _)
      fun a ha => hsame a (mem_inherited ha)]

/-! ### What `destroy` gives back -/

/-- `virtual_to_physical` of an address of the space: nothing is allocated. -/
theorem virtualToPhysical {pmm : Pmm} (h : sp.Sound kernelPml4 mem) (ha : a ∈ sp.areas)
    (hc : a.Covers virt) :
    Vmm.virtualToPhysical Vmm.allocFrame ⟨mem, pmm⟩ sp.vm virt =
      (a.frames.ptr + (virt - a.base) / PAGE_SIZE * PAGE_SIZE, ⟨mem, pmm⟩, sp.vm) := by
  obtain ⟨tab, ht, hleads⟩ := h.tree
  obtain ⟨j, hj, o, ho, rfl⟩ := hc.page
  obtain ⟨flags, hflags, hodd, hleaf⟩ := hleads a ha j hj
  have hplaced := h.placed a ha
  have hlt := hplaced.page_lt hj
  have hpage := (page_add (hplaced.page_dvd j) ho).1
  have hdvd : PAGE_SIZE ∣ a.frames.ptr + j * PAGE_SIZE :=
    Nat.dvd_add hplaced.ptr (Nat.dvd_mul_left _ _)
  have huser : UserAddr (a.base + j * PAGE_SIZE + o) :=
    (userAddr_of_lt hlt.1).congr hpage
  have hsame : leaf mem tab (a.base + j * PAGE_SIZE + o) = _ := (leaf_congr hpage).trans hleaf
  rw [← ht.lookup_eq huser] at hsame
  have hoff : (a.base + j * PAGE_SIZE + o - a.base) / PAGE_SIZE * PAGE_SIZE = j * PAGE_SIZE := by
    unfold PAGE_SIZE at *
    omega
  cases htable : tableAt mem sp.vm.pml4 (a.base + j * PAGE_SIZE + o) 3 with
  | none =>
      rw [lookup_of_none htable] at hsame
      omega
  | some pt =>
      have hwalk : Vmm.walk Vmm.allocFrame ⟨mem, pmm⟩ sp.vm (a.base + j * PAGE_SIZE + o) =
          (pt, ⟨mem, pmm⟩, sp.vm) := walk_of_tableAt htable
      rw [lookup_of_some htable] at hsame
      have hentry : a.frames.ptr + j * PAGE_SIZE + flags < 2 ^ 64 := by
        unfold PAGE_SIZE at hflags hlt ⊢
        omega
      simp only [Vmm.virtualToPhysical, hwalk, hsame, and_frameMask hentry,
        page_of_add hdvd hflags, hoff]

/-- The data frames are those behind the ranges. -/
theorem freeRanges {ranges : List MemArea} {areas : List Area} {pmm : Pmm}
    (h : sp.Sound kernelPml4 mem) (hsub : areas ⊆ sp.areas)
    (hranges : List.Forall₂ MemArea.Records ranges areas) :
    ranges.foldl Vmm.freeRange (⟨mem, pmm⟩, sp.vm) =
      (⟨mem, pmm.frees (areas.map (·.frames))⟩, sp.vm) := by
  induction hranges generalizing pmm with
  | nil => rfl
  | @cons range a ranges areas hrange _ ih =>
      obtain ⟨hbase, hlimit, _⟩ := hrange
      have ha := hsub List.mem_cons_self
      have hplaced := h.placed a ha
      have hcover : a.Covers range.base := by
        have hcount := hplaced.count
        unfold Area.Covers PAGE_SIZE
        omega
      have hamount : Vmm.pageAmount range.limit = a.frames.count := by
        have hreach := hplaced.reach
        rw [hlimit]
        unfold Vmm.pageAmount PAGE_SIZE at *
        omega
      have hfirst : Vmm.freeRange (⟨mem, pmm⟩, sp.vm) range =
          (⟨mem, pmm.free a.frames.ptr a.frames.count⟩, sp.vm) := by
        have hphys : Vmm.virtualToPhysical Vmm.allocFrame ⟨mem, pmm⟩ sp.vm range.base = _ :=
          h.virtualToPhysical ha hcover
        rw [hbase, Nat.sub_self, Nat.zero_div, Nat.zero_mul, Nat.add_zero] at hphys
        simp only [Vmm.freeRange, hbase, hphys, hamount]
      rw [List.foldl_cons, hfirst, List.map_cons, Pmm.frees_cons]
      exact ih fun b hb => hsub (List.mem_cons_of_mem _ hb)

/-- `destroy` gives back the frames of the recorded areas and of the tables but the top
one. -/
theorem destroy {pmm : Pmm} (h : sp.Sound kernelPml4 mem) :
    Vmm.destroy ⟨mem, pmm⟩ sp.vm = ⟨mem, pmm.frees
      (sp.recorded.map (·.frames) ++ sp.vm.pageTablesAddr.map Frames.one)⟩ := by
  rw [Vmm.destroy, h.freeRanges (List.subset_append_left _ _) h.ranges, Pmm.frees_append,
    Pmm.frees_map_one]

/-! ### A store -/

/-- Different addresses of a space are different bytes of memory. -/
theorem phys_ne (h : sp.Sound kernelPml4 mem) (hapart : sp.frames.Pairwise Frames.Apart)
    {a' : Area} {w : Nat} (ha : a ∈ sp.areas) (hc : a.Covers virt) (ha' : a' ∈ sp.areas)
    (hc' : a'.Covers w) (hne : w ≠ virt) :
    a'.frames.ptr + (w - a'.base) ≠ a.frames.ptr + (virt - a.base) := by
  intro heq
  by_cases hsame : a' = a
  · rw [hsame] at hc' heq
    unfold Area.Covers at hc hc'
    omega
  · have hpair := List.pairwise_map.mp (List.pairwise_append.mp hapart).2.1
    have hsymm : Std.Symm fun x y : Area => x.frames.Apart y.frames :=
      ⟨fun _ _ hxy => hxy.symm⟩
    have hapart' : a'.frames.Apart a.frames := hpair.forall ha' ha hsame
    have hhas := hc.has (h.placed a ha)
    rw [← heq] at hhas
    exact hapart' _ (hc'.has (h.placed a' ha')) hhas

/-- What some areas hold after a store to an address of the space. -/
theorem bytes_store (h : sp.Sound kernelPml4 mem) (hapart : sp.frames.Pairwise Frames.Apart)
    {v : UInt8} (ha : a ∈ sp.areas) (hc : a.Covers virt)
    (h' : sp.Sound kernelPml4
      (Function.update mem (a.frames.ptr + (virt - a.base)) v))
    {areas : List Area} (hsub : areas ⊆ sp.areas) (w : Nat) :
    bytes (Function.update mem (a.frames.ptr + (virt - a.base)) v) sp.vm.pml4 areas w =
      if w = virt ∧ ∃ a' ∈ areas, a'.Covers w then some v
      else bytes mem sp.vm.pml4 areas w := by
  by_cases hcover : ∃ a' ∈ areas, a'.Covers w
  · obtain ⟨a', ha', hc'⟩ := hcover
    by_cases hw : w = virt
    · rw [if_pos ⟨hw, a', ha', hc'⟩, bytes, if_pos ⟨a', ha', hc'⟩, hw, h'.access ha hc,
        Option.map_some, Function.update_self]
    · rw [if_neg fun hand => hw hand.1, h.bytes_eq hsub ha' hc', h'.bytes_eq hsub ha' hc',
        Function.update_of_ne (h.phys_ne hapart ha hc (hsub ha') hc' hw)]
  · rw [if_neg fun hand => hcover hand.2, bytes, bytes, if_neg hcover, if_neg hcover]

theorem bytes_isSome (h : sp.Sound kernelPml4 mem) {areas : List Area} (hsub : areas ⊆ sp.areas)
    (w : Nat) : (bytes mem sp.vm.pml4 areas w).isSome ↔ ∃ a ∈ areas, a.Covers w := by
  constructor
  · intro hsome
    by_contra hnot
    rw [bytes, if_neg hnot] at hsome
    cases hsome
  · intro hcover
    obtain ⟨a, ha, hc⟩ := hcover
    rw [h.bytes_eq hsub ha hc]
    rfl

/-- No address is both recorded and inherited. -/
theorem not_both (h : sp.Sound kernelPml4 mem) (hapart : sp.frames.Pairwise Frames.Apart)
    (hrec : ∃ a ∈ sp.recorded, a.Covers virt) (hinh : ∃ a ∈ sp.inherited, a.Covers virt) :
    False := by
  obtain ⟨a, ha, hc⟩ := hrec
  obtain ⟨a', ha', hc'⟩ := hinh
  have hpair := List.pairwise_map.mp (List.pairwise_append.mp hapart).2.1
  have hapart' := (List.pairwise_append.mp hpair).2.2 a ha a' ha'
  -- both lead to the frame that the tables have for it
  have haccess := h.access (mem_recorded ha) hc
  rw [h.access (mem_inherited ha') hc', Option.some.injEq] at haccess
  have hhas := hc'.has (h.placed a' (mem_inherited ha'))
  rw [haccess] at hhas
  exact hapart' _ (hc.has (h.placed a (mem_recorded ha))) hhas

theorem view_store (h : sp.Sound kernelPml4 mem) (hapart : sp.frames.Pairwise Frames.Apart)
    {v : UInt8} (ha : a ∈ sp.areas) (hc : a.Covers virt)
    (h' : sp.Sound kernelPml4
      (Function.update mem (a.frames.ptr + (virt - a.base)) v)) :
    sp.view (Function.update mem (a.frames.ptr + (virt - a.base)) v) =
      (sp.view mem).store virt v := by
  have hrec := h.bytes_store hapart ha hc h' (List.subset_append_left sp.recorded sp.inherited)
  have hinh := h.bytes_store hapart ha hc h' (List.subset_append_right sp.recorded sp.inherited)
  have hsome := h.bytes_isSome (List.subset_append_left sp.recorded sp.inherited) virt
  unfold AbstractSpace.store view
  by_cases hin : ∃ a ∈ sp.recorded, a.Covers virt
  · have hnot : ¬∃ a ∈ sp.inherited, a.Covers virt := fun hinh => h.not_both hapart hin hinh
    rw [if_pos (hsome.mpr hin)]
    simp only [AbstractSpace.mk.injEq]
    constructor
    · funext w
      rw [hrec w, Function.update_apply]
      by_cases hw : w = virt
      · rw [if_pos ⟨hw, hw ▸ hin⟩, if_pos hw]
      · rw [if_neg fun hand => hw hand.1, if_neg hw]
    · funext w
      rw [hinh w, if_neg]
      intro hand
      exact hnot (hand.1 ▸ hand.2)
  · have hother : ∃ a ∈ sp.inherited, a.Covers virt := by
      rcases List.mem_append.mp ha with hmem | hmem
      · exact absurd ⟨a, hmem, hc⟩ hin
      · exact ⟨a, hmem, hc⟩
    rw [if_neg fun hs => hin (hsome.mp hs)]
    simp only [AbstractSpace.mk.injEq]
    constructor
    · funext w
      rw [hrec w, if_neg]
      intro hand
      exact hin (hand.1 ▸ hand.2)
    · funext w
      rw [hinh w, Function.update_apply]
      by_cases hw : w = virt
      · rw [if_pos ⟨hw, hw ▸ hother⟩, if_pos hw]
      · rw [if_neg fun hand => hw hand.1, if_neg hw]

end Sound

end Space

/-! ## All of them -/

/-- What is in use is in use once: the bitmap is that of the start and what is live, the
buffers are pages, nothing that was in use at the start was written, and every space is
sound. -/
structure Spaces.Sound (p₀ : Pmm) (mem₀ : ByteMem) (s : Spaces) : Prop where
  tracks : Tracks p₀ ⟨s.machine.pmm, s.machine.mem, s.live⟩
  pages : ∀ f ∈ s.buffers, PAGE_SIZE ∣ f.ptr ∧ 0 < f.count
  boot : ∀ x, p₀.bitmap.isBitSet (x / PAGE_SIZE) = true → s.machine.mem x = mem₀ x
  spaces : ∀ sp ∈ s.spaces, sp.Sound s.kernelPml4 s.machine.mem

section Rest

variable {p₀ pmm : Pmm} {A rest : List Frames} {f : Frames} {sq : Space}

/-- And so is a space of the others. -/
theorem Tracks.keeps (h : Tracks p₀ ⟨pmm, mem', A ++ rest⟩) (hchange : ChangedIn A mem mem')
    (hused : p₀.bitmap.isBitSet (kernelPml4 / PAGE_SIZE) = true) (hdvd : PAGE_SIZE ∣ kernelPml4)
    (hsub : sq.frames ⊆ rest) (hsq : sq.Sound kernelPml4 mem) :
    sq.Sound kernelPml4 mem' ∧ sq.view mem' = sq.view mem := by
  have hsq' : sq.Sound kernelPml4 mem' := by
    refine hsq.change hchange ?_ ?_ hdvd
    · intro f hf t ht hhas
      exact h.apart_of_mem hf (hsub (Space.tables_mem ht)) _ hhas (Frames.has_one.mpr rfl)
    · intro f hf hhas
      rw [h.fresh f (List.mem_append_left _ hf) _ hhas] at hused
      cases hused
  refine ⟨hsq', hsq.view_congr hsq' fun a ha x hx => ?_⟩
  exact h.mem_eq hchange (hsub (Space.frames_mem ha)) hx

end Rest

end Toystar.Memory

import Toystar.Loader.Image

/-!
# The contents of an image

What a program finds at the addresses of its segments is what the file says: its bytes,
and zeros behind them.  A segment is mapped with a page too many.  The headers are in
ascending order, so that page belongs to no segment loaded before, and if it is the
first of the next one then that segment maps it again.

A segment may end where the user half ends.  The page too many is then the first one of
the kernel's half, and the table it is entered in has to be there (`EndMapped`).
-/

namespace Toystar.Loader

open Toystar.Fs
open Toystar.Klibc
open Toystar.Memory
open Toystar.Verified

/-! ## The file -/

/-- `Vfs::read` returns -1, or stores the bytes of the file that are asked for. -/
def Reads (read : ReadFile) (file : ByteMem) : Prop :=
  ∀ offset size bytes, read offset size = some bytes → ∀ i < size, bytes i = file (offset + i)

/-- The program headers of a file. -/
def segment (file : ByteMem) (i : Nat) : ProgramHeader :=
  .ofBytes (fun j => file ((ElfHeader.ofBytes file).phoff + j)) i

theorem read16_congr {m m' : ByteMem} {i : Nat} (h : ∀ x, i ≤ x → x < i + 2 → m x = m' x) :
    read16 m i = read16 m' i := by
  rw [read16, read16, h i (le_refl i) (by omega), h (i + 1) (by omega) (by omega)]

theorem read32_congr {m m' : ByteMem} {i : Nat} (h : ∀ x, i ≤ x → x < i + 4 → m x = m' x) :
    read32 m i = read32 m' i := by
  rw [read32, read32, read16_congr fun x hlo hhi => h x hlo (by omega),
    read16_congr fun x hlo hhi => h x (by omega) (by omega)]

/-- The header that is read is the file's. -/
theorem header_congr {m m' : ByteMem} (h : ∀ x < ElfHeader.size, m x = m' x) :
    (ElfHeader.ofBytes m).entry = (ElfHeader.ofBytes m').entry ∧
      (ElfHeader.ofBytes m).phoff = (ElfHeader.ofBytes m').phoff ∧
      (ElfHeader.ofBytes m).phCount = (ElfHeader.ofBytes m').phCount := by
  unfold ElfHeader.size at h
  refine ⟨?_, ?_, ?_⟩
  · exact ByteMem.read64_congr fun x _ hhi => h x (by omega)
  · exact ByteMem.read64_congr fun x _ hhi => h x (by omega)
  · exact read16_congr fun x _ hhi => h x (by omega)

/-- So are the program headers. -/
theorem programHeader_congr {m m' : ByteMem} {i : Nat}
    (h : ∀ x < ProgramHeader.size * (i + 1), m x = m' x) :
    ProgramHeader.ofBytes m i = ProgramHeader.ofBytes m' i := by
  unfold ProgramHeader.ofBytes
  unfold ProgramHeader.size at *
  congr 1
  · exact read32_congr fun x _ hhi => h x (by omega)
  · exact read32_congr fun x _ hhi => h x (by omega)
  · exact ByteMem.read64_congr fun x _ hhi => h x (by omega)
  · exact ByteMem.read64_congr fun x _ hhi => h x (by omega)
  · exact ByteMem.read64_congr fun x _ hhi => h x (by omega)
  · exact ByteMem.read64_congr fun x _ hhi => h x (by omega)

/-! ## Segments in the user half -/

namespace ProgramHeader

/-- The first page of a segment. -/
def base (ph : ProgramHeader) : Nat := ph.vaddr / PAGE_SIZE * PAGE_SIZE

/-- A segment of the user half that has some bytes, and no more in the file than in
memory. -/
structure InUserHalf (ph : ProgramHeader) : Prop where
  memsz_pos : 0 < ph.memsz
  filesz_le : ph.filesz ≤ ph.memsz
  user : ph.vaddr + ph.memsz ≤ 2 ^ 47

/-- No page has bytes of both segments. -/
def Apart (ph ph' : ProgramHeader) : Prop :=
  ∀ k < ph.memsz, ∀ l < ph'.memsz, pageOf (ph.vaddr + k) ≠ pageOf (ph'.vaddr + l)

variable {ph ph' : ProgramHeader}

theorem base_add (ph : ProgramHeader) : ph.base + ph.alignment = ph.vaddr :=
  Nat.div_add_mod' ph.vaddr PAGE_SIZE

theorem base_dvd (ph : ProgramHeader) : PAGE_SIZE ∣ ph.base := Nat.dvd_mul_left _ _

theorem alignment_lt (ph : ProgramHeader) : ph.alignment < PAGE_SIZE :=
  Nat.mod_lt _ (by decide)

namespace InUserHalf

variable (h : ph.InUserHalf)
include h

/-- The pages are those that have bytes of the segment. -/
theorem pages : ph.alignment + ph.memsz ≤ ph.pageNumber * PAGE_SIZE ∧
    ph.pageNumber * PAGE_SIZE < ph.alignment + ph.memsz + PAGE_SIZE := by
  have halign := ph.alignment_lt
  have huser := h.user
  unfold pageNumber divCeil
  unfold PAGE_SIZE at *
  omega

theorem base_end : ph.base + ph.pageNumber * PAGE_SIZE ≤ 2 ^ 47 := by
  have hbase := ph.base_add
  have hpages := h.pages
  have huser := h.user
  obtain ⟨a, ha⟩ := ph.base_dvd
  unfold PAGE_SIZE at *
  omega

/-- In ascending order segments end before the next one. -/
theorem end_le (h' : ph'.InUserHalf) (hapart : ph.Apart ph') (hle : ph.vaddr ≤ ph'.vaddr) :
    ph.base + ph.pageNumber * PAGE_SIZE ≤ ph'.base := by
  have hbase := ph.base_add
  have hbase' := ph'.base_add
  have halign := ph.alignment_lt
  have halign' := ph'.alignment_lt
  have hpages := h.pages
  have hpos := h.memsz_pos
  have hpos' := h'.memsz_pos
  have huser := h.user
  have huser' := h'.user
  obtain ⟨a, ha⟩ := ph.base_dvd
  obtain ⟨b, hb⟩ := ph'.base_dvd
  by_contra hlt
  -- a byte of the first segment in the first page of the second
  by_cases hin : ph'.vaddr < ph.vaddr + ph.memsz
  · refine hapart (ph'.vaddr - ph.vaddr) (by omega) 0 hpos' ?_
    congr 1
    omega
  · refine hapart (ph.memsz - 1) (by omega) 0 hpos' ?_
    unfold pageOf
    unfold PAGE_SIZE at *
    omega

end InUserHalf

end ProgramHeader

/-! ## Mapping the pages -/

/-- The first page of the kernel's half has its tables, in frames that are in use and not
the pagemap's own. -/
def EndMapped (k : Machine Pmm) (vm : Vmm) : Prop :=
  (∃ pt, tableAt k.mem vm.pml4 (2 ^ 47) 3 = some pt) ∧
    ApartAt k.mem vm (usedFrames k.pmm) (2 ^ 47)

/-- `map_page` maps the page that its address is in. -/
theorem mapPage_page {σ : Type} {alloc : FrameAlloc σ} {v w : Nat} (h : pageOf v = pageOf w)
    (k : Machine σ) (vm : Vmm) (phys flags : Nat) :
    Vmm.mapPage alloc k vm v phys flags = Vmm.mapPage alloc k vm w phys flags := by
  obtain ⟨hpath, hpte⟩ := pageOf_eq_iff.mp h
  simp only [pathOf, List.cons.injEq, and_true] at hpath
  obtain ⟨hpde, hpdpe, hpml4e⟩ := hpath
  simp only [Vmm.mapPage, Vmm.walk, hpte, hpde, hpdpe, hpml4e]

theorem mapEach_page {σ : Type} {alloc : FrameAlloc σ} (virt : Nat) (phys flags : Nat → Nat)
    (n : Nat) (s : Machine σ × Vmm) :
    mapEach alloc virt phys flags n s =
      mapEach alloc (virt / PAGE_SIZE * PAGE_SIZE) phys flags n s := by
  induction n with
  | zero => rfl
  | succ n ih =>
      rw [mapEach_succ, mapEach_succ, ih]
      apply mapPage_page
      unfold pageOf PAGE_SIZE
      omega

/-- `k'`, `vm'` and `tab'` after a range of `n` pages from `base` on, and the page behind
it, have got the entries in `entry`. -/
structure Mapped (k : Machine Pmm) (vm : Vmm) (tab : List Nat → Option Nat) (base n : Nat)
    (entry : Nat → Nat) (k' : Machine Pmm) (vm' : Vmm) (tab' : List Nat → Option Nat) :
    Prop where
  tree : PageTree k'.mem vm' tab'
  inside : ∀ j < n, leaf k'.mem tab' (base + j * PAGE_SIZE) = entry j
  outside : ∀ w, (∀ j ≤ n, pageOf w ≠ pageOf (base + j * PAGE_SIZE)) →
    leaf k'.mem tab' w = leaf k.mem tab w
  used : KeepsUsed k.pmm k'.pmm
  same : ∃ W, SameOutside W k.mem k'.mem ∧ ∀ t ∈ W, t ∈ vm.tables ∨ t ∉ usedFrames k.pmm ∨
    base + n * PAGE_SIZE = 2 ^ 47 ∧ tableAt k.mem vm.pml4 (2 ^ 47) 3 = some t
  fresh : ∀ t ∈ vm'.tables, t ∈ vm.tables ∨ t ∉ usedFrames k.pmm
  rest : base + n * PAGE_SIZE < 2 ^ 47 →
    k'.pmm.Avoids vm'.tables ∧ vm'.pml4 = vm.pml4 ∧ (EndMapped k vm →
      EndMapped k' vm' ∧ tableAt k'.mem vm.pml4 (2 ^ 47) 3 = tableAt k.mem vm.pml4 (2 ^ 47) 3)

variable {k k' : Machine Pmm} {vm vm' : Vmm} {tab tab' : List Nat → Option Nat}
  {base n : Nat} {entry : Nat → Nat}

/-- What rounds over some pages keep. -/
theorem keepsUsed_of_ranged (h : Ranged (fun _ => Pmm.Avoids) (usedFrames k.pmm ∪ vm.tables)
    k vm tab base n 0 entry k' vm' tab') : KeepsUsed k.pmm k'.pmm := by
  intro i hi
  exact h.gains.supply.used i (.inl (.inl (mem_usedFrames.mpr hi)))

theorem fresh_of_ranged (h : Ranged (fun _ => Pmm.Avoids) (usedFrames k.pmm ∪ vm.tables)
    k vm tab base n 0 entry k' vm' tab') :
    ∀ t ∈ vm'.tables, t ∈ vm.tables ∨ t ∉ usedFrames k.pmm := by
  intro t ht
  cases h.gains.fresh t ht with
  | inl hold => exact .inl hold
  | inr hnew => exact .inr fun hused => hnew (.inl hused)

theorem apartAt_avoid {w : Nat} (h : ApartAt k.mem vm (usedFrames k.pmm) w) :
    ApartAt k.mem vm (usedFrames k.pmm ∪ vm.tables) w :=
  fun i hi t ht => ⟨.inl (h i hi t ht).1, (h i hi t ht).2⟩

/-- The kernel's tables stay there. -/
theorem endMapped_of_ranged (h : Ranged (fun _ => Pmm.Avoids)
    (usedFrames k.pmm ∪ vm.tables) k vm tab base n 0 entry k' vm' tab')
    (hend : EndMapped k vm) :
    EndMapped k' vm' ∧ ∀ i ≤ 3, tableAt k'.mem vm'.pml4 (2 ^ 47) i =
      tableAt k.mem vm.pml4 (2 ^ 47) i := by
  have htable : ∀ i ≤ 3, tableAt k'.mem vm'.pml4 (2 ^ 47) i =
      tableAt k.mem vm.pml4 (2 ^ 47) i := by
    intro i hi
    rw [h.pml4_eq]
    exact h.tableAt_kernel (apartAt_avoid hend.2) not_userAddr_end hi
  obtain ⟨⟨pt, hpt⟩, hapart⟩ := hend
  refine ⟨⟨⟨pt, (htable 3 (le_refl 3)).trans hpt⟩, ?_⟩, htable⟩
  intro i hi t ht
  rw [htable (i + 1) (by omega)] at ht
  obtain ⟨hused, hnot⟩ := hapart i hi t ht
  obtain ⟨j, hj, rfl⟩ := hused
  refine ⟨mem_usedFrames.mpr (keepsUsed_of_ranged h j hj), ?_⟩
  intro hmem
  cases fresh_of_ranged h _ hmem with
  | inl hold => exact hnot hold
  | inr hnew => exact hnew (mem_usedFrames.mpr hj)

/-- A range that ends before the end of the user half. -/
theorem mapped_inside (hpmm : k.pmm.Avoids vm.tables) (ht : PageTree k.mem vm tab)
    (hbase : PAGE_SIZE ∣ base) (hlt : base + n * PAGE_SIZE < 2 ^ 47) (phys flags : Nat → Nat) :
    (∃ k' vm' tab', mapEach Vmm.allocFrame base phys flags (n + 1) (k, vm) = (k', vm') ∧
      Mapped k vm tab base n (fun j => (phys j ||| flags j) % 2 ^ 64) k' vm' tab') ∨
    0 ∈ (mapEach Vmm.allocFrame base phys flags (n + 1) (k, vm)).2.pageTablesAddr := by
  rcases mapEach_cases hpmm ht (end_of_lt hbase hlt) phys flags with
    ⟨k', vm', tab', hret, hranged⟩ | hnull
  · refine .inl ⟨k', vm', tab', hret, ?_⟩
    have hfresh := fresh_of_ranged hranged
    exact
      { tree := hranged.tree
        inside := fun j hj => hranged.set.inside j (by omega)
        outside := fun w hw => hranged.set.outside w fun j hj => hw j (by omega)
        used := keepsUsed_of_ranged hranged
        same := ⟨vm'.tables, hranged.same, fun t ht => (hfresh t ht).imp_right .inl⟩
        fresh := hfresh
        rest := by
          intro _
          refine ⟨hranged.gains.supply.mono Set.subset_union_right, hranged.pml4_eq, ?_⟩
          intro hend
          obtain ⟨hend', htable⟩ := endMapped_of_ranged hranged hend
          rw [← hranged.pml4_eq, htable 3 (le_refl 3), hranged.pml4_eq]
          exact ⟨hend', rfl⟩ }
  · exact .inr hnull

/-- A range up to the end of the user half: the last round enters the page behind it in
the kernel's table. -/
theorem mapped_end (hpmm : k.pmm.Avoids vm.tables) (ht : PageTree k.mem vm tab)
    (heq : base + n * PAGE_SIZE = 2 ^ 47) (hend : EndMapped k vm) (phys flags : Nat → Nat) :
    (∃ k' vm' tab', mapEach Vmm.allocFrame base phys flags (n + 1) (k, vm) = (k', vm') ∧
      Mapped k vm tab base n (fun j => (phys j ||| flags j) % 2 ^ 64) k' vm' tab') ∨
    0 ∈ (mapEach Vmm.allocFrame base phys flags (n + 1) (k, vm)).2.pageTablesAddr := by
  rw [mapEach_succ]
  rcases mapEach_cases hpmm ht heq.le phys flags with
    ⟨k', vm', tab', hret, hranged⟩ | hnull
  · obtain ⟨⟨⟨pt, hpt'⟩, hapart'⟩, htable⟩ := endMapped_of_ranged hranged hend
    have hpt : tableAt k.mem vm.pml4 (2 ^ 47) 3 = some pt :=
      (htable 3 (le_refl 3)).symm.trans hpt'
    have hal := tableAt_aligned hpt'
    have hnot := (hapart' 2 (by omega) pt hpt').2
    have hfresh := fresh_of_ranged hranged
    have hkeep := keepsUsed_of_ranged hranged
    have hset := sameOutside_setEntry hal (getPte_lt (2 ^ 47)) (Set.mem_singleton pt) k'.mem
      (phys n ||| flags n)
    have hfree : ∀ t ∈ vm'.tables, t ∉ ({pt} : Set Nat) := by
      intro t hmem hsingle
      rw [Set.mem_singleton_iff.mp hsingle] at hmem
      exact hnot hmem
    refine .inl ⟨{ k' with mem := setEntry k'.mem pt (getPte (2 ^ 47)) (phys n ||| flags n) },
      vm', tab', ?_, ?_⟩
    · rw [hret, heq, mod_of_le (le_refl _)]
      simp only [Vmm.mapPage, walk_of_tableAt hpt']
    · exact
        { tree := hranged.tree.sameOutside hset hfree
          inside := by
            intro j hj
            rw [hranged.tree.leaf_sameOutside hset hfree]
            exact hranged.set.inside j hj
          outside := by
            intro w hw
            rw [hranged.tree.leaf_sameOutside hset hfree]
            exact hranged.set.outside w fun j hj => hw j hj.le
          used := hkeep
          same := by
            refine ⟨vm'.tables ∪ {pt}, (hranged.same.mono Set.subset_union_left).trans
              (hset.mono Set.subset_union_right), ?_⟩
            intro t ht
            cases ht with
            | inl htab => exact (hfresh t htab).imp_right .inl
            | inr hsingle =>
                rw [Set.mem_singleton_iff.mp hsingle]
                exact .inr (.inr ⟨heq, hpt⟩)
          fresh := hfresh
          rest := fun hlt => absurd heq hlt.ne }
  · exact .inr (mem_mapPage hnull)

/-- `map_range` from an address of the page at `base` on. -/
theorem mapRange_mapped {virt : Nat} (hpmm : k.pmm.Avoids vm.tables)
    (ht : PageTree k.mem vm tab) (hbase : virt / PAGE_SIZE * PAGE_SIZE = base)
    (hle : base + n * PAGE_SIZE ≤ 2 ^ 47)
    (hedge : base + n * PAGE_SIZE = 2 ^ 47 → EndMapped k vm) (phys prot flags : Nat) :
    (∃ k' vm' tab', Vmm.mapRange Vmm.allocFrame k vm virt phys (n * PAGE_SIZE) prot flags =
        (k', vm') ∧
      Mapped k vm tab base n
        (fun j => ((phys + j * PAGE_SIZE) % 2 ^ 64 ||| prot % 2 ^ 16) % 2 ^ 64) k' vm' tab') ∨
    0 ∈ (Vmm.mapRange Vmm.allocFrame k vm virt phys (n * PAGE_SIZE) prot
      flags).2.pageTablesAddr := by
  have hrounds : n * PAGE_SIZE / PAGE_SIZE = n := Nat.mul_div_cancel _ (by decide)
  have hdvd : PAGE_SIZE ∣ base := hbase ▸ Nat.dvd_mul_left _ _
  have ht' := ht.setRanges (vm.ranges ++ [⟨virt, n * PAGE_SIZE, prot, flags⟩])
  have hpmm' : k.pmm.Avoids (Vmm.tables
      { vm with ranges := vm.ranges ++ [⟨virt, n * PAGE_SIZE, prot, flags⟩] }) := hpmm
  rw [Vmm.mapRange, Vmm.mapRangeRaw, hrounds, mapPages_eq, mapEach_page, hbase]
  have hmapped := (Nat.lt_or_eq_of_le hle).elim
    (fun hlt => mapped_inside hpmm' ht' hdvd hlt (fun j => (phys + j * PAGE_SIZE) % 2 ^ 64)
      fun _ => prot % 2 ^ 16)
    (fun heq => mapped_end hpmm' ht' heq (hedge heq)
      (fun j => (phys + j * PAGE_SIZE) % 2 ^ 64) fun _ => prot % 2 ^ 16)
  cases hmapped with
  | inl hmapped =>
      obtain ⟨k', vm', tab', hret, hm⟩ := hmapped
      exact .inl ⟨k', vm', tab', hret, hm.tree, hm.inside, hm.outside, hm.used, hm.same,
        hm.fresh, hm.rest⟩
  | inr hnull => exact .inr hnull

/-! ## The areas of the segments -/

/-- A pagemap that the loader can map a segment in.  `E` says that a segment ends where the
user half does. -/
structure Ready (E : Prop) (k : Machine Pmm) (vm : Vmm) (tab : List Nat → Option Nat) : Prop where
  tree : PageTree k.mem vm tab
  avoids : k.pmm.Avoids vm.tables
  atEnd : E → EndMapped k vm

/-- The frames from `page` on are allocated to the segment and hold what the file says. -/
structure Area (E : Prop) (file : ByteMem) (k : Machine Pmm) (vm : Vmm) (ph : ProgramHeader)
    (page : Nat) : Prop where
  fits : ph.alignment + ph.memsz ≤ ph.pageNumber * PAGE_SIZE
  reach : (page + ph.pageNumber) * PAGE_SIZE ≤ 2 ^ 47
  used : ∀ t ∈ framesOf page ph.pageNumber, t ∈ usedFrames k.pmm
  tables : ∀ t ∈ vm.tables, t ∉ framesOf page ph.pageNumber
  atEnd : E → ∀ pt, tableAt k.mem vm.pml4 (2 ^ 47) 3 = some pt →
    pt ∉ framesOf page ph.pageNumber
  bytes : ∀ o < ph.memsz, k.mem (page * PAGE_SIZE + ph.alignment + o) =
    if o < ph.filesz then file (ph.offset + o) else 0

variable {E E' : Prop} {file bytes mem mem' : ByteMem} {pmm : Pmm} {ph ph' : ProgramHeader}
  {W : Set Nat} {page page' count addr : Nat}

theorem usedFrames_mono {pmm' : Pmm} (h : KeepsUsed pmm pmm') {t : Nat}
    (ht : t ∈ usedFrames pmm) : t ∈ usedFrames pmm' := by
  obtain ⟨i, hi, rfl⟩ := ht
  exact mem_usedFrames.mpr (h i hi)

/-- Memory outside the frames that were written. -/
theorem byte_sameOutside (h : SameOutside W mem mem') (hW : ∀ t ∈ W, t ∉ framesOf page count)
    {x : Nat} (hlo : page * PAGE_SIZE ≤ x) (hhi : x < (page + count) * PAGE_SIZE) :
    mem' x = mem x := by
  apply h
  intro hmem
  refine hW _ hmem ⟨x / PAGE_SIZE, ?_, ?_, rfl⟩
  all_goals
    unfold PAGE_SIZE at *
    omega

/-- An area stays while nothing is written to it. -/
theorem Area.keep (h : Area E file k vm ph page) (hkeep : KeepsUsed k.pmm k'.pmm)
    (hsame : SameOutside W k.mem k'.mem) (hW : ∀ t ∈ W, t ∉ framesOf page ph.pageNumber)
    (htables : ∀ t ∈ vm'.tables, t ∉ framesOf page ph.pageNumber)
    (hend : E' → ∀ pt, tableAt k'.mem vm'.pml4 (2 ^ 47) 3 = some pt →
      pt ∉ framesOf page ph.pageNumber) : Area E' file k' vm' ph page := by
  refine ⟨h.fits, h.reach, fun t ht => usedFrames_mono hkeep (h.used t ht), htables, hend, ?_⟩
  intro o ho
  rw [← h.bytes o ho]
  have hfits := h.fits
  apply byte_sameOutside hsame hW
  · omega
  · rw [Nat.add_mul]
    omega

/-- The kernel's tables, while none of the frames in use is written to. -/
theorem EndMapped.tableAt_eq (h : EndMapped k vm) (hal : PAGE_SIZE ∣ vm.pml4)
    (hsame : SameOutside W k.mem mem') (hroot : vm.pml4 ∉ W)
    (hW : ∀ t ∈ W, t ∉ usedFrames k.pmm) {i : Nat} (hi : i ≤ 3) :
    tableAt mem' vm.pml4 (2 ^ 47) i = tableAt k.mem vm.pml4 (2 ^ 47) i := by
  apply tableAt_congr
  intro j hj t ht
  cases j with
  | zero =>
      obtain rfl := Option.some.inj ht
      exact entryAt_sameOutside hsame hal (levelIndex_lt _ 0) hroot
  | succ j =>
      refine entryAt_sameOutside hsame (tableAt_aligned ht) (levelIndex_lt _ _) ?_
      intro hmem
      exact hW t hmem (h.2 j (by omega) t ht).1

/-- The area of a segment is allocated and filled: zeros, and the bytes of the file. -/
theorem Ready.alloc (h : Ready E k vm tab) (hseg : ph.InUserHalf)
    (halloc : k.pmm.alloc k.mem ph.pageNumber = (addr, pmm, mem)) (haddr : addr ≠ 0)
    (hbytes : ∀ i < ph.filesz, bytes i = file (ph.offset + i)) :
    ∃ page, addr = page * PAGE_SIZE ∧
      Ready E ⟨Tmpfs.copyIn mem (addr + ph.alignment) bytes ph.filesz, pmm⟩ vm tab ∧
      Area E file ⟨Tmpfs.copyIn mem (addr + ph.alignment) bytes ph.filesz, pmm⟩ vm ph page ∧
      (∀ {ph' page'}, Area E file k vm ph' page' →
        Area E file ⟨Tmpfs.copyIn mem (addr + ph.alignment) bytes ph.filesz, pmm⟩ vm ph' page') ∧
      ∀ virt, leaf (Tmpfs.copyIn mem (addr + ph.alignment) bytes ph.filesz) tab virt =
        leaf k.mem tab virt := by
  have hret : (k.pmm.alloc k.mem ph.pageNumber).1 ≠ 0 := by
    rw [halloc]
    exact haddr
  obtain ⟨page, hpage, hcount, hin, hfree, _, halloc'⟩ := Pmm.alloc_of_ne_zero h.avoids.zero hret
  rw [halloc, Prod.mk.injEq, Prod.mk.injEq] at halloc'
  obtain ⟨rfl, rfl, rfl⟩ := halloc'
  have hpages := hseg.pages
  have hfile := hseg.filesz_le
  have hreach : (page + ph.pageNumber) * PAGE_SIZE ≤ 2 ^ 47 :=
    (Nat.mul_le_mul_right _ hin).trans h.avoids.reach
  -- the frames that are written were free
  have hfresh := not_mem_usedFrames hfree
  have hsame : SameOutside (framesOf page ph.pageNumber) k.mem
      (Tmpfs.copyIn (memset k.mem (page * PAGE_SIZE) 0 (ph.pageNumber * PAGE_SIZE))
        (page * PAGE_SIZE + ph.alignment) bytes ph.filesz) :=
    (sameOutside_memset_range page ph.pageNumber k.mem).trans (sameOutside_copyIn (by omega))
  have hapart := h.avoids.not_mem_free hfree
  have hkeep := keepsUsed_setBits k.pmm page ph.pageNumber
  have hal : PAGE_SIZE ∣ vm.pml4 := (h.tree.frame h.tree.root).1
  have htable : ∀ {i}, EndMapped k vm → i ≤ 3 → tableAt
      (Tmpfs.copyIn (memset k.mem (page * PAGE_SIZE) 0 (ph.pageNumber * PAGE_SIZE))
        (page * PAGE_SIZE + ph.alignment) bytes ph.filesz) vm.pml4 (2 ^ 47) i =
      tableAt k.mem vm.pml4 (2 ^ 47) i :=
    fun hend hi => hend.tableAt_eq hal hsame (hapart _ (.inl rfl)) hfresh hi
  refine ⟨page, rfl, ⟨h.tree.sameOutside hsame hapart, ?_, ?_⟩,
    ⟨hpages.1, hreach, ?_, hapart, ?_, ?_⟩, ?_, h.tree.leaf_sameOutside hsame hapart⟩
  · exact (h.avoids.setBits page ph.pageNumber).mono Set.subset_union_left
  · intro hE
    have hend := h.atEnd hE
    obtain ⟨pt, hpt⟩ := hend.1
    refine ⟨⟨pt, (htable hend (le_refl 3)).trans hpt⟩, ?_⟩
    intro i hi t ht
    rw [htable hend (by omega)] at ht
    obtain ⟨hused, hnot⟩ := hend.2 i hi t ht
    exact ⟨usedFrames_mono hkeep hused, hnot⟩
  · intro t ht
    obtain ⟨i, hlo, hhi, rfl⟩ := ht
    rw [mem_usedFrames, Pmm.isBitSet_setBits, decide_eq_true ⟨hlo, hhi⟩, Bool.true_or]
  · intro hE pt hpt hmem
    have hend := h.atEnd hE
    rw [htable hend (le_refl 3)] at hpt
    exact hfresh pt hmem (hend.2 2 (by omega) pt hpt).1
  · intro o ho
    by_cases hread : o < ph.filesz
    · rw [if_pos hread, ← hbytes o hread]
      refine (if_pos ⟨by omega, by omega⟩).trans ?_
      rw [Nat.add_sub_cancel_left]
    · rw [if_neg hread]
      refine (if_neg (by omega)).trans ?_
      exact memset_of_mem (by omega) (by omega)
  · intro ph' page' harea
    refine harea.keep hkeep hsame (fun t ht hmem => hfresh t ht (harea.used t hmem)) harea.tables ?_
    intro hE pt hpt
    rw [htable (h.atEnd hE) (le_refl 3)] at hpt
    exact harea.atEnd hE pt hpt

/-- A range that is mapped leaves the areas alone. -/
theorem Area.mapped (harea : Area E file k vm ph page) (h : Ready E k vm tab)
    (hm : Mapped k vm tab base n entry k' vm' tab') (hE : base + n * PAGE_SIZE = 2 ^ 47 → E) :
    Area (E ∧ base + n * PAGE_SIZE < 2 ^ 47) file k' vm' ph page := by
  obtain ⟨W, hsame, hW⟩ := hm.same
  refine harea.keep hm.used hsame ?_ ?_ ?_
  · intro t ht hmem
    rcases hW t ht with htable | hfree | ⟨heq, hpt⟩
    · exact harea.tables t htable hmem
    · exact hfree (harea.used t hmem)
    · exact harea.atEnd (hE heq) t hpt hmem
  · intro t ht hmem
    cases hm.fresh t ht with
    | inl hold => exact harea.tables t hold hmem
    | inr hfree => exact hfree (harea.used t hmem)
  · intro hlt pt hpt
    obtain ⟨_, hpml4, hkept⟩ := hm.rest hlt.2
    rw [hpml4, (hkept (h.atEnd hlt.1)).2] at hpt
    exact harea.atEnd hlt.1 pt hpt

/-! ## What a program finds -/

/-- The pages of a segment show the frames from `page` on. -/
def Maps (mem : ByteMem) (tab : List Nat → Option Nat) (ph : ProgramHeader) (page : Nat) : Prop :=
  ∀ j < ph.pageNumber, leaf mem tab (ph.base + j * PAGE_SIZE) =
    (page + j) * PAGE_SIZE + ph.prot

/-- The byte at an address of the program, none when the access faults. -/
def byteAt (s : Image) (virt : Nat) : Option UInt8 :=
  (Vmm.access s.machine.mem s.pagemap.pml4 virt).map s.machine.mem

theorem ProgramHeader.prot_eq (ph : ProgramHeader) : ph.prot = 5 ∨ ph.prot = 7 := by
  unfold prot
  split
  · exact .inr rfl
  · exact .inl rfl

/-- The bytes of a segment at its addresses. -/
theorem byteAt_eq {s : Image} (ht : PageTree s.machine.mem s.pagemap tab)
    (hseg : ph.InUserHalf) (harea : Area E file s.machine s.pagemap ph page)
    (hmaps : Maps s.machine.mem tab ph page) {o : Nat} (ho : o < ph.memsz) :
    byteAt s (ph.vaddr + o) = some (if o < ph.filesz then file (ph.offset + o) else 0) := by
  have hbase := ph.base_add
  have hfits := harea.fits
  have hreach := harea.reach
  have huser := hseg.user
  -- the page that the byte is in
  have hj : (ph.alignment + o) / PAGE_SIZE < ph.pageNumber :=
    (Nat.div_lt_iff_lt_mul (by decide)).mpr (by omega)
  have hsplit := Nat.div_add_mod' (ph.alignment + o) PAGE_SIZE
  have hoffset : (ph.alignment + o) % PAGE_SIZE < PAGE_SIZE := Nat.mod_lt _ (by decide)
  have hvirt : ph.vaddr + o =
      ph.base + (ph.alignment + o) / PAGE_SIZE * PAGE_SIZE + (ph.alignment + o) % PAGE_SIZE := by
    omega
  have hdvd : PAGE_SIZE ∣ ph.base + (ph.alignment + o) / PAGE_SIZE * PAGE_SIZE :=
    Nat.dvd_add ph.base_dvd (Nat.dvd_mul_left _ _)
  have hpage := page_add hdvd hoffset
  rw [← hvirt] at hpage
  have hleaf : leaf s.machine.mem tab (ph.vaddr + o) =
      (page + (ph.alignment + o) / PAGE_SIZE) * PAGE_SIZE + ph.prot := by
    rw [leaf_congr hpage.1]
    exact hmaps _ hj
  have hframe : (page + (ph.alignment + o) / PAGE_SIZE) * PAGE_SIZE < 2 ^ 47 :=
    (Nat.mul_lt_mul_of_pos_right (by omega) (by decide)).trans_le hreach
  obtain ⟨hin, hodd⟩ := frameIn_add (Nat.dvd_mul_left _ _) hframe.le ph.prot_eq
  have hpresent : leaf s.machine.mem tab (ph.vaddr + o) % 2 = 1 := by
    rw [hleaf]
    exact hodd
  have haddr : (page + (ph.alignment + o) / PAGE_SIZE) * PAGE_SIZE +
      (ph.alignment + o) % PAGE_SIZE = page * PAGE_SIZE + ph.alignment + o := by
    rw [Nat.add_mul]
    omega
  have haccess := ht.access_eq (userAddr_of_lt (by omega)) (.inl (by omega)) hpresent
  rw [hleaf, hin, hpage.2, haddr] at haccess
  rw [byteAt, haccess, Option.map_some, harea.bytes o ho]

/-! ## One segment -/

/-- The segment has its frames, and its pages show them. -/
def Loaded (E : Prop) (file : ByteMem) (s : Image) (tab : List Nat → Option Nat)
    (ph : ProgramHeader) : Prop :=
  ∃ page, Area E file s.machine s.pagemap ph page ∧ Maps s.machine.mem tab ph page

variable {s s' : Image} {read : ReadFile} {table : ByteMem}

theorem Loaded.mono (h : Loaded E file s tab ph) (himp : E' → E) : Loaded E' file s tab ph := by
  obtain ⟨page, harea, hmaps⟩ := h
  exact ⟨page, { harea with atEnd := fun hE => harea.atEnd (himp hE) }, hmaps⟩

/-- A page that ends before an address of the user half, or before its end. -/
theorem pageOf_ne_of_le {v w : Nat} (hle : v + PAGE_SIZE ≤ w) (hw : w ≤ 2 ^ 47) :
    pageOf v ≠ pageOf w := by
  unfold pageOf PAGE_SIZE at *
  omega

/-- Loading a segment: its bytes are in place, and those of the segments in front of it
stay there. -/
theorem Ready.loadSegment (h : Ready E s.machine s.pagemap tab) (hread : Reads read file)
    (htype : ph.type = P_LOAD) (hseg : ph.InUserHalf)
    (hE : ph.base + ph.pageNumber * PAGE_SIZE = 2 ^ 47 → E)
    (hret : loadSegment read ph s = (true, s')) (hserved : 0 ∉ s'.pagemap.pageTablesAddr) :
    ∃ tab', PageTree s'.machine.mem s'.pagemap tab' ∧
      (ph.base + ph.pageNumber * PAGE_SIZE < 2 ^ 47 → Ready E s'.machine s'.pagemap tab') ∧
      Loaded (E ∧ ph.base + ph.pageNumber * PAGE_SIZE < 2 ^ 47) file s' tab' ph ∧
      ∀ {ph'}, ph'.base + ph'.pageNumber * PAGE_SIZE ≤ ph.base → Loaded E file s tab ph' →
        Loaded (E ∧ ph.base + ph.pageNumber * PAGE_SIZE < 2 ^ 47) file s' tab' ph' := by
  have hend := hseg.base_end
  rcases loadSegment_cases read ph s with
    ⟨hskip, _⟩ | ⟨_, _, hfail⟩ |
      ⟨addr, pmm, mem, bytes, k, vm, _, hbytes, halloc, haddr, hmap, hload⟩
  · exact absurd htype hskip
  · rw [hret] at hfail
    cases hfail
  · rw [hret] at hload
    cases hload
    obtain ⟨page, rfl, hready, harea, hareas, hleaf⟩ :=
      h.alloc hseg halloc haddr (hread _ _ _ hbytes)
    have hlength : ph.pageNumber * PAGE_SIZE % 2 ^ 64 = ph.pageNumber * PAGE_SIZE :=
      mod_of_le (by omega)
    rw [hlength] at hmap
    have hbase : ph.vaddr / PAGE_SIZE * PAGE_SIZE = ph.base := rfl
    rcases mapRange_mapped hready.avoids hready.tree hbase hend (fun heq => hready.atEnd (hE heq))
        (page * PAGE_SIZE) ph.prot 0 with ⟨k', vm', tab', hmap', hm⟩ | hnull
    · rw [show Vmm.mapRange Vmm.allocFrame _ _ _ _ _ _ _ = _ from hmap, Prod.mk.injEq] at hmap'
      obtain ⟨rfl, rfl⟩ := hmap'
      refine ⟨tab', hm.tree, ?_, ⟨page, harea.mapped hready hm hE, ?_⟩, ?_⟩
      · intro hlt
        obtain ⟨havoids, _, hkept⟩ := hm.rest hlt
        exact ⟨hm.tree, havoids, fun hE' => (hkept (hready.atEnd hE')).1⟩
      · intro j hj
        have hframe : (page + j) * PAGE_SIZE < 2 ^ 47 :=
          (Nat.mul_lt_mul_of_pos_right (by omega) (by decide)).trans_le harea.reach
        refine (hm.inside j hj).trans ?_
        rw [← Nat.add_mul]
        exact entry_eq hframe.le ph.prot_eq
      · intro ph' hle hloaded
        obtain ⟨page', harea', hmaps'⟩ := hloaded
        refine ⟨page', (hareas harea').mapped hready hm hE, ?_⟩
        intro j hj
        have hpages : (j + 1) * PAGE_SIZE ≤ ph'.pageNumber * PAGE_SIZE :=
          Nat.mul_le_mul_right _ hj
        refine (hm.outside _ ?_).trans ((hleaf _).trans (hmaps' j hj))
        intro i hi
        have hpages' : i * PAGE_SIZE ≤ ph.pageNumber * PAGE_SIZE := Nat.mul_le_mul_right _ hi
        rw [Nat.add_mul] at hpages
        exact pageOf_ne_of_le (by omega) (by omega)
    · rw [show Vmm.mapRange Vmm.allocFrame _ _ _ _ _ _ _ = _ from hmap] at hnull
      exact absurd hnull hserved

/-! ## All segments -/

/-- The program headers that are loaded. -/
def IsLoad (file : ByteMem) (i : Nat) : Prop :=
  i < (ElfHeader.ofBytes file).phCount ∧ (segment file i).type = P_LOAD

/-- The segments lie in the user half, in ascending order, and share no page. -/
structure Segments (file : ByteMem) : Prop where
  user : ∀ {i}, IsLoad file i → (segment file i).InUserHalf
  ascending : ∀ {i j}, IsLoad file i → IsLoad file j → i < j →
    (segment file i).vaddr ≤ (segment file j).vaddr
  apart : ∀ {i j}, IsLoad file i → IsLoad file j → i < j →
    (segment file i).Apart (segment file j)

/-- A segment has bytes in the last page of the user half. -/
def ReachesEnd (file : ByteMem) : Prop :=
  ∃ i, IsLoad file i ∧ 2 ^ 47 < (segment file i).vaddr + (segment file i).memsz + PAGE_SIZE

/-- None of the first `n` segments ends where the user half does. -/
def Below (file : ByteMem) (n : Nat) : Prop :=
  ∀ i < n, IsLoad file i →
    (segment file i).base + (segment file i).pageNumber * PAGE_SIZE < 2 ^ 47

/-- After `n` rounds of the loop. -/
structure Built (file : ByteMem) (s : Image) (tab : List Nat → Option Nat) (n : Nat) : Prop where
  tree : PageTree s.machine.mem s.pagemap tab
  ready : Below file n → Ready (ReachesEnd file) s.machine s.pagemap tab
  loaded : ∀ i < n, IsLoad file i →
    Loaded (ReachesEnd file ∧ Below file n) file s tab (segment file i)

/-- One round. -/
theorem Built.loadSegment (h : Built file s tab n) (hread : Reads read file)
    (hsegs : Segments file) (hn : n < (ElfHeader.ofBytes file).phCount)
    (hret : loadSegment read (segment file n) s = (true, s'))
    (hserved : 0 ∉ s'.pagemap.pageTablesAddr) : ∃ tab', Built file s' tab' (n + 1) := by
  by_cases htype : (segment file n).type = P_LOAD
  · have hload : IsLoad file n := ⟨hn, htype⟩
    have hseg := hsegs.user hload
    have hpages := hseg.pages
    have hbase := (segment file n).base_add
    have hfront : ∀ i < n, IsLoad file i →
        (segment file i).base + (segment file i).pageNumber * PAGE_SIZE ≤
          (segment file n).base := fun i hi hil =>
      (hsegs.user hil).end_le hseg (hsegs.apart hil hload hi) (hsegs.ascending hil hload hi)
    have hbelow : Below file n := by
      intro i hi hil
      have hle := hfront i hi hil
      have huser := hseg.user
      have hpos := hseg.memsz_pos
      omega
    have hends : (segment file n).base + (segment file n).pageNumber * PAGE_SIZE = 2 ^ 47 →
        ReachesEnd file := fun heq => ⟨n, hload, by omega⟩
    obtain ⟨tab', htree, hready, hself, hothers⟩ :=
      (h.ready hbelow).loadSegment hread htype hseg hends hret hserved
    have hlast : Below file (n + 1) →
        (segment file n).base + (segment file n).pageNumber * PAGE_SIZE < 2 ^ 47 :=
      fun hall => hall n (Nat.lt_succ_self n) hload
    refine ⟨tab', htree, fun hall => hready (hlast hall), ?_⟩
    intro i hi hil
    have himp : ReachesEnd file ∧ Below file (n + 1) → ReachesEnd file ∧
        (segment file n).base + (segment file n).pageNumber * PAGE_SIZE < 2 ^ 47 :=
      fun hboth => ⟨hboth.1, hlast hboth.2⟩
    cases Nat.lt_succ_iff_lt_or_eq.mp hi with
    | inl hold =>
        have hkept := (h.loaded i hold hil).mono fun hE => ⟨hE, hbelow⟩
        exact (hothers (hfront i hold hil) hkept).mono himp
    | inr hnew =>
        subst hnew
        exact hself.mono himp
  · rcases loadSegment_cases read (segment file n) s with
      ⟨_, hskip⟩ | ⟨_, _, hfail⟩ | ⟨_, _, _, _, _, _, hload, _⟩
    · rw [hret] at hskip
      cases hskip
      have hsub : Below file (n + 1) → Below file n :=
        fun hall i hi => hall i (by omega)
      refine ⟨tab, h.tree, fun hall => h.ready (hsub hall), ?_⟩
      intro i hi hil
      cases Nat.lt_succ_iff_lt_or_eq.mp hi with
      | inl hold => exact (h.loaded i hold hil).mono fun hboth => ⟨hboth.1, hsub hboth.2⟩
      | inr hnew =>
          subst hnew
          exact absurd hil.2 htype
    · rw [hret] at hfail
      cases hfail
    · exact absurd hload htype

/-- All rounds. -/
theorem Built.loadSegments (h : Built file s tab 0) (hread : Reads read file)
    (hsegs : Segments file) (hn : n ≤ (ElfHeader.ofBytes file).phCount)
    (htable : ∀ i < n, ProgramHeader.ofBytes table i = segment file i)
    (hret : loadSegments read table n s = (true, s'))
    (hserved : 0 ∉ s'.pagemap.pageTablesAddr) : ∃ tab', Built file s' tab' n := by
  induction n generalizing s' with
  | zero =>
      cases hret
      exact ⟨tab, h⟩
  | succ n ih =>
      obtain ⟨⟨ok, s₁⟩, hrest⟩ : ∃ r, Loader.loadSegments read table n s = r := ⟨_, rfl⟩
      simp only [Loader.loadSegments, hrest] at hret
      cases ok with
      | false => cases hret
      | true =>
          rw [if_pos rfl, htable n (Nat.lt_succ_self n)] at hret
          have hserved₁ : 0 ∉ s₁.pagemap.pageTablesAddr := by
            intro hnull
            have hlater :
                0 ∈ (Loader.loadSegment read (segment file n) s₁).2.pagemap.pageTablesAddr :=
              mem_loadSegment hnull
            rw [hret] at hlater
            exact hserved hlater
          obtain ⟨tab₁, hbuilt⟩ :=
            ih (by omega) (fun i hi => htable i (by omega)) hrest hserved₁
          exact hbuilt.loadSegment hread hsegs (by omega) hret hserved

/-- Whenever `load` runs to its end, no table having been refused, it returns the entry of
the header, and each segment is at its addresses: the bytes of the file, and zeros behind
them. -/
theorem load_builds_image {low : ByteMem} {entry : Nat} (hread : Reads read file)
    (hsegs : Segments file) (ht : PageTree s.machine.mem s.pagemap tab)
    (hpmm : s.machine.pmm.Avoids s.pagemap.tables)
    (hend : ReachesEnd file → EndMapped s.machine s.pagemap)
    (hret : load low read s = (some entry, s')) (hserved : 0 ∉ s'.pagemap.pageTablesAddr) :
    entry = (ElfHeader.ofBytes file).entry ∧
      ∀ i, IsLoad file i → ∀ k < (segment file i).memsz,
        byteAt s' ((segment file i).vaddr + k) =
          some (if k < (segment file i).filesz then file ((segment file i).offset + k) else 0) := by
  have hok : (load low read s).1 = some entry := by
    rw [hret]
  obtain ⟨bytes, table, hentry, hbytes, htable, hall, hloaded⟩ := load_cases hok
  rw [hret] at hloaded
  -- what was read is in the file
  have hstart : ∀ x < ElfHeader.size, bytes x = file x := by
    intro x hx
    rw [hread _ _ _ hbytes x hx, Nat.zero_add]
  obtain ⟨hentry', hphoff, hcount⟩ := header_congr hstart
  have hheaders : ∀ i < (ElfHeader.ofBytes bytes).phCount,
      ProgramHeader.ofBytes table i = segment file i := by
    intro i hi
    apply programHeader_congr
    intro x hx
    have hle : ProgramHeader.size * (i + 1) ≤
        ProgramHeader.size * (ElfHeader.ofBytes bytes).phCount := Nat.mul_le_mul_left _ hi
    rw [hread _ _ _ htable x (by omega), hphoff]
  have hbuilt₀ : Built file s tab 0 :=
    { tree := ht
      ready := fun _ => ⟨ht, hpmm, hend⟩
      loaded := fun i hi => absurd hi (Nat.not_lt_zero i) }
  obtain ⟨tab', hbuilt⟩ := hbuilt₀.loadSegments hread hsegs hcount.le hheaders
    (Prod.ext hall hloaded.symm) hserved
  refine ⟨hentry.trans hentry', ?_⟩
  intro i hi k hk
  obtain ⟨page, harea, hmaps⟩ := hbuilt.loaded i (hcount ▸ hi.1) hi
  exact byteAt_eq hbuilt.tree (hsegs.user hi) harea hmaps hk

/-! ### Two segments, the second on the page behind the first -/

/-- The bytes of a program other than zero: three at 0x400ffe with two zeros behind them,
and one at 0x402000. -/
def twoSegmentsBytes : List (Nat × UInt8) :=
  [(0, 0x7F), (1, 69), (2, 76), (3, 70), (4, 2), (5, 1), (24, 0xfe), (25, 0x0f), (26, 0x40),
    (32, 64), (56, 2),
    (64, 1), (72, 176), (80, 0xfe), (81, 0x0f), (82, 0x40), (96, 3), (104, 5),
    (120, 1), (128, 179), (137, 0x20), (138, 0x40), (152, 1), (160, 1),
    (176, 7), (177, 8), (178, 9), (179, 10)]

def twoSegments : ByteMem := fun x => (twoSegmentsBytes.lookup x).getD 0

def readTwoSegments : ReadFile := fun offset size =>
  if offset + size ≤ 180 then some fun i => twoSegments (offset + i) else none

theorem reads_twoSegments : Reads readTwoSegments twoSegments := by
  intro offset size bytes hbytes i _
  unfold readTwoSegments at hbytes
  split at hbytes
  · cases hbytes
    rfl
  · cases hbytes

theorem isLoad_twoSegments {i : Nat} (h : IsLoad twoSegments i) : i = 0 ∨ i = 1 := by
  have hcount : (ElfHeader.ofBytes twoSegments).phCount = 2 := by decide
  have hlt := h.1
  omega

theorem segments_twoSegments : Segments twoSegments := by
  refine ⟨?_, ?_, ?_⟩
  · intro i hi
    cases isLoad_twoSegments hi with
    | inl h =>
        subst h
        exact ⟨by decide, by decide, by decide⟩
    | inr h =>
        subst h
        exact ⟨by decide, by decide, by decide⟩
  · intro i j hi hj hlt
    rcases isLoad_twoSegments hi with rfl | rfl <;>
      rcases isLoad_twoSegments hj with rfl | rfl
    · omega
    · decide
    · omega
    · omega
  · intro i j hi hj hlt
    rcases isLoad_twoSegments hi with rfl | rfl <;>
      rcases isLoad_twoSegments hj with rfl | rfl
    · omega
    · unfold ProgramHeader.Apart
      decide
    · omega
    · omega

theorem not_reachesEnd_twoSegments : ¬ReachesEnd twoSegments := by
  intro h
  obtain ⟨i, hi, hend⟩ := h
  rcases isLoad_twoSegments hi with rfl | rfl
  · revert hend
    decide
  · revert hend
    decide

theorem avoids_newPagemap : zeroedMachine.pmm.Avoids newPagemap.tables := by
  refine ⟨by decide, by decide, ?_⟩
  intro i hi
  obtain rfl : i = 1 := by
    have htop := tables_newPagemap hi
    rw [Set.mem_singleton_iff] at htop
    unfold PAGE_SIZE at htop
    omega
  decide

/-- It is loaded into a new pagemap. -/
theorem load_builds_image_twoSegments :
    ∃ s', load (fun _ => 0) readTwoSegments ⟨zeroedMachine, newPagemap, []⟩ =
        (some 0x400ffe, s') ∧
      byteAt s' 0x400ffe = some 7 ∧ byteAt s' 0x401002 = some 0 ∧ byteAt s' 0x402000 = some 10 := by
  have hentry : (load (fun _ => 0) readTwoSegments ⟨zeroedMachine, newPagemap, []⟩).1 =
      some 0x400ffe := by
    decide +kernel
  have hserved : 0 ∉ (load (fun _ => 0) readTwoSegments
      ⟨zeroedMachine, newPagemap, []⟩).2.pagemap.pageTablesAddr := by
    decide +kernel
  obtain ⟨⟨entry, s'⟩, hret⟩ : ∃ r, load (fun _ => 0) readTwoSegments
      ⟨zeroedMachine, newPagemap, []⟩ = r := ⟨_, rfl⟩
  rw [hret] at hentry hserved
  obtain rfl := hentry
  have himage := (load_builds_image reads_twoSegments segments_twoSegments
    mappable_newPagemap.tree avoids_newPagemap
    (fun hend => absurd hend not_reachesEnd_twoSegments) hret hserved).2
  refine ⟨s', hret, ?_, ?_, ?_⟩
  · exact himage 0 ⟨by decide, by decide⟩ 0 (by decide)
  · exact himage 0 ⟨by decide, by decide⟩ 4 (by decide)
  · exact himage 1 ⟨by decide, by decide⟩ 0 (by decide)

end Toystar.Loader

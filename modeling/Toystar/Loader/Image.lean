import Toystar.Loader.Elf
import Toystar.Memory.Destroy
import Toystar.Memory.FramesInUse

/-!
# The frames of an image

What the loader keeps while the file behaves, that is, while no segment has more bytes
in the file than in memory and all lie in the user half: the tables of the new pagemap
are a tree of frames in use, so is each area allocated for the program, and the frame in
front of an area is in use as well, because `PMM::alloc` takes the lowest range that is
long enough.  Hence the frame behind the stack is in no area, and the stack's mapping,
which is a page too long, shows it to the process (`createProcess_maps_behind`).
-/

namespace Toystar.Loader

open Toystar.Fs
open Toystar.Klibc
open Toystar.Memory
open Toystar.Scheduler (USER_STACK USER_STACK_SIZE)
open Toystar.Verified

/-! ## What the loader keeps -/

/-- The pages of an area are in use, and so is the page in front of it. -/
def Taken (pmm : Pmm) (area : Nat × Nat) : Prop :=
  ∃ page, 0 < page ∧ area.1 = page * PAGE_SIZE ∧
    ∀ i, page - 1 ≤ i → i < page + area.2 → pmm.bitmap.isBitSet i = true

theorem Taken.mono {pmm pmm' : Pmm} {area : Nat × Nat} (h : Taken pmm area)
    (hkeep : KeepsUsed pmm pmm') : Taken pmm' area := by
  obtain ⟨page, hpage, haddr, hused⟩ := h
  exact ⟨page, hpage, haddr, fun i hlo hhi => hkeep i (hused i hlo hhi)⟩

/-- The frame behind a free range is in no area. -/
theorem Taken.not_behind {pmm : Pmm} {area : Nat × Nat} {page count : Nat}
    (h : Taken pmm area) (hcount : 0 < count)
    (hfree : FreeRange pmm.bitmap.isBitSet page count) {i : Nat}
    (hlo : area.1 ≤ i * PAGE_SIZE) (hhi : i * PAGE_SIZE < area.1 + area.2 * PAGE_SIZE) :
    i ≠ page + count := by
  obtain ⟨first, hfirst, haddr, hused⟩ := h
  intro heq
  have hlast := hfree (page + count - 1) (by omega) (by omega)
  have htaken : pmm.bitmap.isBitSet (page + count - 1) = true := by
    apply hused
    all_goals
      unfold PAGE_SIZE at *
      omega
  rw [hlast] at htaken
  cases htaken

/-- The tables of the new pagemap are a tree of frames in use, and the areas are taken. -/
structure Image.Sound (s : Image) (tab : List Nat → Option Nat) : Prop where
  tree : PageTree s.machine.mem s.pagemap tab
  avoids : s.machine.pmm.Avoids s.pagemap.tables
  areas : ∀ area ∈ s.areas, Taken s.machine.pmm area

variable {s : Image} {tab : List Nat → Option Nat} {count : Nat}

theorem keepsUsed_setBits (pmm : Pmm) (page count : Nat) :
    KeepsUsed pmm { pmm with bitmap := Pmm.setBits pmm.bitmap page count } := by
  intro i hi
  rw [Pmm.isBitSet_setBits, hi, Bool.or_true]

/-- An area more, whatever is written to it. -/
theorem Image.Sound.alloc (h : s.Sound tab)
    (hret : (s.machine.pmm.alloc s.machine.mem count).1 ≠ 0) :
    ∃ page pmm mem, s.machine.pmm.alloc s.machine.mem count = (page * PAGE_SIZE, pmm, mem) ∧
      0 < count ∧ page + count ≤ s.machine.pmm.pages ∧
      FreeRange s.machine.pmm.bitmap.isBitSet page count ∧
      ∀ mem', SameOutside (framesOf page count) mem mem' →
        Image.Sound ⟨⟨mem', pmm⟩, s.pagemap, s.areas ++ [(page * PAGE_SIZE, count)]⟩ tab := by
  obtain ⟨page, hpage, hcount, hin, hfree, hbefore, halloc⟩ :=
    Pmm.alloc_of_ne_zero h.avoids.zero hret
  refine ⟨page, _, _, halloc, hcount, hin, hfree, ?_⟩
  intro mem' hmem'
  have hapart := h.avoids.not_mem_free hfree
  constructor
  · exact h.tree.sameOutside ((sameOutside_memset_range page count _).trans hmem') hapart
  · exact (h.avoids.setBits page count).mono Set.subset_union_left
  · intro area harea
    rw [List.mem_append, List.mem_singleton] at harea
    cases harea with
    | inl hold => exact (h.areas area hold).mono (keepsUsed_setBits _ _ _)
    | inr hnew =>
        subst hnew
        refine ⟨page, hpage, rfl, ?_⟩
        intro i hlo hhi
        dsimp only at hhi ⊢
        rw [Pmm.isBitSet_setBits]
        by_cases hi : i = page - 1
        · rw [hi, hbefore, Bool.or_true]
        · rw [decide_eq_true ⟨by omega, hhi⟩, Bool.true_or]

/-- A range is mapped, unless a table is refused. -/
theorem Image.Sound.mapRange (h : s.Sound tab) {virt n : Nat}
    (hend : virt + (n + 1) * PAGE_SIZE ≤ 2 ^ 47) (phys prot flags : Nat) :
    (∃ k vm tab', Vmm.mapRange Vmm.allocFrame s.machine s.pagemap virt phys (n * PAGE_SIZE)
        prot flags = (k, vm) ∧
      Image.Sound ⟨k, vm, s.areas⟩ tab' ∧
      SetOnly (leaf s.machine.mem tab) (leaf k.mem tab') virt (n + 1)
        (fun j => ((phys + j * PAGE_SIZE) % 2 ^ 64 ||| prot % 2 ^ 16) % 2 ^ 64)) ∨
    0 ∈ (Vmm.mapRange Vmm.allocFrame s.machine s.pagemap virt phys (n * PAGE_SIZE) prot
      flags).2.pageTablesAddr := by
  rcases mapRange_cases h.avoids h.tree hend phys prot flags with
    ⟨k, vm, tab', hret, hranged⟩ | hnull
  · refine .inl ⟨k, vm, tab', hret, ?_, hranged.set⟩
    have hkeep : KeepsUsed s.machine.pmm k.pmm := by
      intro i hi
      exact hranged.gains.supply.used i (.inl (.inl (mem_usedFrames.mpr hi)))
    exact
      { tree := hranged.tree
        avoids := hranged.gains.supply.mono Set.subset_union_right
        areas := fun area harea => (h.areas area harea).mono hkeep }
  · exact .inr hnull

/-- The loader keeps an image sound until a table is refused. -/
def Image.Kept (s : Image) : Prop :=
  (∃ tab, s.Sound tab) ∨ 0 ∈ s.pagemap.pageTablesAddr

/-- The loader starts from a pagemap whose top table is a frame. -/
theorem Image.sound_new {k : Machine Pmm} {kernelPml4 : Nat}
    (hreach : k.pmm.pages * PAGE_SIZE ≤ 2 ^ 47)
    (htop : (Vmm.new Vmm.allocFrame k kernelPml4).2.pml4 ≠ 0) :
    ∃ tab, Image.Sound ⟨(Vmm.new Vmm.allocFrame k kernelPml4).1,
      (Vmm.new Vmm.allocFrame k kernelPml4).2, []⟩ tab := by
  have hzero : k.pmm.bitmap.isBitSet 0 = true := by
    rcases allocFrame_lowest k.pmm with ⟨hret, _⟩ | ⟨page, hret, _, _, hzero, _⟩
    · simp only [Vmm.new, hret] at htop
      exact absurd rfl htop
    · apply hzero
      rintro rfl
      simp only [Vmm.new, hret, Nat.zero_mul] at htop
      exact absurd rfl htop
  rcases allocFrame_cases hzero hreach with ⟨page, hret, hframe, _⟩ | ⟨hnull, _⟩
  · have hsup : Supplies Vmm.allocFrame (0 + 1) k.pmm ∅ :=
      ⟨page * PAGE_SIZE, _, hret, hframe, Set.notMem_empty _, trivial⟩
    obtain ⟨tab, ht, _⟩ := (copied_new (fun _ => none) kernelPml4 hsup).tree
    have hvm : (Vmm.new Vmm.allocFrame k kernelPml4).2 = ⟨page * PAGE_SIZE, [], []⟩ := by
      simp only [Vmm.new, hret]
    have hpmm : (Vmm.new Vmm.allocFrame k kernelPml4).1.pmm =
        { k.pmm with bitmap := Pmm.setBits k.pmm.bitmap page 1 } := by
      simp only [Vmm.new, hret]
    refine ⟨tab, ht, ?_, fun area harea => by cases harea⟩
    dsimp only
    rw [hvm, hpmm]
    refine ⟨?_, hreach, ?_⟩
    · rw [Pmm.isBitSet_setBits, hzero, Bool.or_true]
    · intro i hi
      rcases hi with hroot | hmem
      · exact used_of_taken (fun _ h => absurd h (Set.notMem_empty _)) i (.inl hroot)
      · cases hmem
  · simp only [Vmm.new, hnull] at htop
    exact absurd rfl htop

/-! ## Segments -/

/-- A segment that has no more bytes in the file than in memory, and that lies in the
user half with the page behind it. -/
structure ProgramHeader.Fits (ph : ProgramHeader) : Prop where
  filesz_le : ph.filesz ≤ ph.memsz
  memsz_le : ph.memsz ≤ 2 ^ 47
  user : ph.vaddr + (ph.pageNumber + 1) * PAGE_SIZE ≤ 2 ^ 47

/-- The pages hold the segment. -/
theorem ProgramHeader.Fits.le_pages {ph : ProgramHeader} (h : ph.Fits) :
    ph.alignment + ph.filesz ≤ ph.pageNumber * PAGE_SIZE := by
  have hfile := h.filesz_le
  have hmem := h.memsz_le
  have halign : ph.alignment < PAGE_SIZE := Nat.mod_lt _ (by decide)
  unfold ProgramHeader.pageNumber divCeil
  unfold PAGE_SIZE at *
  omega

theorem ProgramHeader.Fits.length_eq {ph : ProgramHeader} (h : ph.Fits) :
    ph.pageNumber * PAGE_SIZE % 2 ^ 64 = ph.pageNumber * PAGE_SIZE := by
  have huser := h.user
  apply Nat.mod_eq_of_lt
  rw [Nat.add_mul] at huser
  omega

/-- The file's bytes go to the area. -/
theorem sameOutside_copyIn {page count offset size : Nat} {mem bytes : ByteMem}
    (hsize : offset + size ≤ count * PAGE_SIZE) :
    SameOutside (framesOf page count) mem
      (Tmpfs.copyIn mem (page * PAGE_SIZE + offset) bytes size) := by
  apply sameOutside_range
  intro x hx
  rw [Nat.add_mul] at hx
  exact if_neg (by omega)

variable {read : ReadFile} {ph : ProgramHeader} {table : ByteMem} {n : Nat}

/-- What one round can do: skip the header, refuse it, or load the segment. -/
theorem loadSegment_cases (read : ReadFile) (ph : ProgramHeader) (s : Image) :
    (ph.type ≠ P_LOAD ∧ loadSegment read ph s = (true, s)) ∨
    (∃ s', s'.pagemap = s.pagemap ∧ loadSegment read ph s = (false, s')) ∨
    ∃ addr pmm mem bytes k vm, ph.type = P_LOAD ∧ read ph.offset ph.filesz = some bytes ∧
      s.machine.pmm.alloc s.machine.mem ph.pageNumber = (addr, pmm, mem) ∧ addr ≠ 0 ∧
      Vmm.mapRange Vmm.allocFrame
        ⟨Tmpfs.copyIn mem (addr + ph.alignment) bytes ph.filesz, pmm⟩ s.pagemap ph.vaddr
        addr (ph.pageNumber * PAGE_SIZE % 2 ^ 64) ph.prot 0 = (k, vm) ∧
      loadSegment read ph s = (true, ⟨k, vm, s.areas ++ [(addr, ph.pageNumber)]⟩) := by
  by_cases hskip : ph.type ≠ P_LOAD
  · exact .inl ⟨hskip, if_pos hskip⟩
  · obtain ⟨⟨addr, pmm, mem⟩, halloc⟩ : ∃ r,
        s.machine.pmm.alloc s.machine.mem ph.pageNumber = r := ⟨_, rfl⟩
    by_cases haddr : addr = 0
    · refine .inr (.inl ⟨{ s with machine := ⟨mem, pmm⟩ }, rfl, ?_⟩)
      rw [loadSegment, if_neg hskip, halloc]
      exact if_pos haddr
    · cases hread : read ph.offset ph.filesz with
      | none =>
          refine .inr (.inl ⟨{ s with machine := ⟨mem, pmm.free addr ph.pageNumber⟩ },
            rfl, ?_⟩)
          simp only [loadSegment, if_neg hskip, halloc, if_neg haddr, hread]
      | some bytes =>
          obtain ⟨⟨k, vm⟩, hmap⟩ : ∃ r, Vmm.mapRange Vmm.allocFrame
              ⟨Tmpfs.copyIn mem (addr + ph.alignment) bytes ph.filesz, pmm⟩ s.pagemap
              ph.vaddr addr (ph.pageNumber * PAGE_SIZE % 2 ^ 64) ph.prot 0 = r :=
            ⟨_, rfl⟩
          refine .inr (.inr ⟨addr, pmm, mem, bytes, k, vm, not_not.mp hskip, rfl, halloc,
            haddr, hmap, ?_⟩)
          simp only [loadSegment, if_neg hskip, halloc, if_neg haddr, hread, hmap]

theorem mem_loadSegment {a : Nat} (ha : a ∈ s.pagemap.pageTablesAddr) :
    a ∈ (loadSegment read ph s).2.pagemap.pageTablesAddr := by
  rcases loadSegment_cases read ph s with
    ⟨_, hret⟩ | ⟨s', hsame, hret⟩ | ⟨addr, pmm, mem, bytes, k, vm, _, _, _, _, hmap, hret⟩
  · rw [hret]
    exact ha
  · rw [hret, hsame]
    exact ha
  · have hmem : a ∈ (Vmm.mapRange Vmm.allocFrame
        ⟨Tmpfs.copyIn mem (addr + ph.alignment) bytes ph.filesz, pmm⟩ s.pagemap ph.vaddr
        addr (ph.pageNumber * PAGE_SIZE % 2 ^ 64) ph.prot 0).2.pageTablesAddr :=
      mem_mapRange ha
    rw [hmap] at hmem
    rw [hret]
    exact hmem

/-- One segment. -/
theorem Image.Sound.loadSegment (h : s.Sound tab) (hfits : ph.type = P_LOAD → ph.Fits)
    (hok : (loadSegment read ph s).1 = true) : (loadSegment read ph s).2.Kept := by
  rcases loadSegment_cases read ph s with
    ⟨_, hret⟩ | ⟨s', _, hret⟩ |
      ⟨addr, pmm, mem, bytes, k, vm, htype, _, halloc, haddr, hmap, hret⟩
  · rw [hret]
    exact .inl ⟨tab, h⟩
  · rw [hret] at hok
    cases hok
  · have hseg := hfits htype
    have harea : (s.machine.pmm.alloc s.machine.mem ph.pageNumber).1 ≠ 0 := by
      rw [halloc]
      exact haddr
    obtain ⟨page, pmm', mem', halloc', _, _, _, hsound⟩ := h.alloc harea
    rw [halloc, Prod.mk.injEq, Prod.mk.injEq] at halloc'
    obtain ⟨rfl, rfl, rfl⟩ := halloc'
    have hcopied := hsound (Tmpfs.copyIn mem (page * PAGE_SIZE + ph.alignment) bytes ph.filesz)
      (sameOutside_copyIn hseg.le_pages)
    rw [hseg.length_eq] at hmap
    rw [hret]
    rcases hcopied.mapRange hseg.user (page * PAGE_SIZE) ph.prot 0 with
      ⟨k', vm', tab', hmap', hsound', _⟩ | hnull
    · dsimp only at hmap'
      rw [hmap, Prod.mk.injEq] at hmap'
      obtain ⟨rfl, rfl⟩ := hmap'
      exact .inl ⟨tab', hsound'⟩
    · dsimp only at hnull
      rw [hmap] at hnull
      exact .inr hnull

/-- All of them. -/
theorem Image.Kept.loadSegments (h : s.Kept)
    (hfits : ∀ i < n, (ProgramHeader.ofBytes table i).type = P_LOAD →
      (ProgramHeader.ofBytes table i).Fits)
    (hok : (loadSegments read table n s).1 = true) :
    (loadSegments read table n s).2.Kept := by
  induction n with
  | zero => exact h
  | succ n ih =>
      obtain ⟨⟨ok, s'⟩, hret⟩ : ∃ r, Loader.loadSegments read table n s = r := ⟨_, rfl⟩
      simp only [Loader.loadSegments, hret] at ih hok ⊢
      cases ok with
      | false => cases hok
      | true =>
          rw [if_pos rfl] at hok ⊢
          have hkept := ih (fun i hi => hfits i (by omega)) rfl
          cases hkept with
          | inl hsound =>
              obtain ⟨tab, hsound⟩ := hsound
              exact hsound.loadSegment (hfits n (Nat.lt_succ_self n)) hok
          | inr hnull => exact .inr (mem_loadSegment hnull)

/-- A file whose segments fit. -/
def WellFormed (read : ReadFile) : Prop :=
  ∀ bytes table, read 0 ElfHeader.size = some bytes →
    read (ElfHeader.ofBytes bytes).phoff
      (ProgramHeader.size * (ElfHeader.ofBytes bytes).phCount) = some table →
    ∀ i < (ElfHeader.ofBytes bytes).phCount, (ProgramHeader.ofBytes table i).type = P_LOAD →
      (ProgramHeader.ofBytes table i).Fits

/-- `load` of a file that is accepted is its loop over the program headers. -/
theorem load_cases {low : ByteMem} {entry : Nat} (hok : (load low read s).1 = some entry) :
    ∃ bytes table, entry = (ElfHeader.ofBytes bytes).entry ∧
      read 0 ElfHeader.size = some bytes ∧ read (ElfHeader.ofBytes bytes).phoff
        (ProgramHeader.size * (ElfHeader.ofBytes bytes).phCount) = some table ∧
      (loadSegments read table (ElfHeader.ofBytes bytes).phCount s).1 = true ∧
      (load low read s).2 = (loadSegments read table (ElfHeader.ofBytes bytes).phCount s).2 := by
  unfold load at hok ⊢
  cases hbytes : read 0 ElfHeader.size with
  | none =>
      rw [hbytes] at hok
      cases hok
  | some bytes =>
      rw [hbytes] at hok
      dsimp only at hok ⊢
      refine ⟨bytes, ?_⟩
      by_cases haccepted : (ElfHeader.ofBytes bytes).Accepted low
      · rw [if_pos haccepted] at hok ⊢
        cases htable : read (ElfHeader.ofBytes bytes).phoff
            (ProgramHeader.size * (ElfHeader.ofBytes bytes).phCount) with
        | none =>
            rw [htable] at hok
            cases hok
        | some table =>
            rw [htable] at hok
            dsimp only at hok ⊢
            split at hok
            next hall => exact ⟨table, (Option.some.inj hok).symm, rfl, rfl, hall, rfl⟩
            next hall => cases hok
      · rw [if_neg haccepted] at hok
        cases hok

/-- A file that the loader accepts. -/
theorem Image.Kept.load (h : s.Kept) (hread : WellFormed read) {low : ByteMem} {entry : Nat}
    (hok : (load low read s).1 = some entry) : (load low read s).2.Kept := by
  obtain ⟨start, table, _, hstart, htable, hall, hret⟩ := load_cases hok
  rw [hret]
  exact h.loadSegments (hread start table hstart htable) hall

/-! ## The stack -/

theorem mapStack_eq {addr : Nat} {pmm : Pmm} {mem : ByteMem} {k : Machine Pmm} {vm : Vmm}
    (halloc : s.machine.pmm.alloc s.machine.mem (USER_STACK_SIZE / PAGE_SIZE) =
      (addr, pmm, mem))
    (hmap : Vmm.mapRange Vmm.allocFrame ⟨mem, pmm⟩ s.pagemap USER_STACK addr
      USER_STACK_SIZE 0b111 0 = (k, vm)) :
    mapStack s = ⟨k, vm, s.areas ++ [(addr, USER_STACK_SIZE / PAGE_SIZE)]⟩ := by
  simp only [mapStack, halloc, hmap]

theorem mem_mapStack {a : Nat} (ha : a ∈ s.pagemap.pageTablesAddr) :
    a ∈ (mapStack s).pagemap.pageTablesAddr := by
  obtain ⟨⟨addr, pmm, mem⟩, halloc⟩ : ∃ r,
      s.machine.pmm.alloc s.machine.mem (USER_STACK_SIZE / PAGE_SIZE) = r := ⟨_, rfl⟩
  obtain ⟨⟨k, vm⟩, hmap⟩ : ∃ r, Vmm.mapRange Vmm.allocFrame ⟨mem, pmm⟩ s.pagemap USER_STACK
      addr USER_STACK_SIZE 0b111 0 = r := ⟨_, rfl⟩
  have hmem : a ∈ (Vmm.mapRange Vmm.allocFrame ⟨mem, pmm⟩ s.pagemap USER_STACK addr
      USER_STACK_SIZE 0b111 0).2.pageTablesAddr := mem_mapRange ha
  rw [hmap] at hmem
  rw [mapStack_eq halloc hmap]
  exact hmem

/-- The entry that the loader stores. -/
theorem entry_eq {f prot : Nat} (hf : f * PAGE_SIZE ≤ 2 ^ 47) (hprot : prot = 5 ∨ prot = 7) :
    (f * PAGE_SIZE % 2 ^ 64 ||| prot % 2 ^ 16) % 2 ^ 64 = f * PAGE_SIZE + prot := by
  have hlow : prot % 2 ^ 16 < PAGE_SIZE := by
    unfold PAGE_SIZE
    omega
  rw [mod_of_le hf, or_low (Nat.dvd_mul_left _ _) hlow]
  omega

/-- The eight pages of a stack, and the one behind them, show the frames from `page` on. -/
theorem access_stack {k : Machine Pmm} {vm : Vmm} {tab : List Nat → Option Nat}
    {before : Nat → Nat} {page o : Nat} (htree : PageTree k.mem vm tab)
    (hset : SetOnly before (leaf k.mem tab) USER_STACK (8 + 1) fun j =>
      ((page * PAGE_SIZE + j * PAGE_SIZE) % 2 ^ 64 ||| 0b111 % 2 ^ 16) % 2 ^ 64)
    (hframe : (page + 8) * PAGE_SIZE ≤ 2 ^ 47) (ho : o < (8 + 1) * PAGE_SIZE) :
    Vmm.access k.mem vm.pml4 (USER_STACK + o) = some (page * PAGE_SIZE + o) := by
  have hend : USER_STACK + (8 + 1) * PAGE_SIZE ≤ 2 ^ 47 := by decide
  have hbound : USER_STACK + o < 2 ^ 47 := by omega
  -- the page that the byte is in
  have hj : o / PAGE_SIZE < 8 + 1 := (Nat.div_lt_iff_lt_mul (by decide)).mpr ho
  have hsplit := Nat.div_add_mod' o PAGE_SIZE
  have hvirt : USER_STACK + o = USER_STACK + o / PAGE_SIZE * PAGE_SIZE + o % PAGE_SIZE := by
    omega
  have hdvd : PAGE_SIZE ∣ USER_STACK + o / PAGE_SIZE * PAGE_SIZE :=
    Nat.dvd_add (by decide) (Nat.dvd_mul_left _ _)
  have hpage := page_add hdvd (Nat.mod_lt o (by decide))
  rw [← hvirt] at hpage
  have hle : (page + o / PAGE_SIZE) * PAGE_SIZE ≤ 2 ^ 47 :=
    (Nat.mul_le_mul_right _ (by omega)).trans hframe
  have hleaf : leaf k.mem tab (USER_STACK + o) = (page + o / PAGE_SIZE) * PAGE_SIZE + 7 := by
    rw [leaf_congr hpage.1, hset.inside _ hj, ← Nat.add_mul]
    exact entry_eq hle (.inr rfl)
  obtain ⟨hin, hodd⟩ := frameIn_add (Nat.dvd_mul_left _ _) hle (.inr rfl)
  have haccess := htree.access_eq (userAddr_of_lt hbound) (.inl hbound)
    (by rw [hleaf]; exact hodd)
  rw [hleaf, hin, hpage.2] at haccess
  have haddr : (page + o / PAGE_SIZE) * PAGE_SIZE + o % PAGE_SIZE = page * PAGE_SIZE + o := by
    rw [Nat.add_mul]
    omega
  rw [haccess, haddr]

/-- The frame behind the stack is mapped as well, and is in no area of the process. -/
theorem Image.Sound.mapStack (h : s.Sound tab)
    (hstack : (s.machine.pmm.alloc s.machine.mem (USER_STACK_SIZE / PAGE_SIZE)).1 ≠ 0) :
    (∃ i, Vmm.access (mapStack s).machine.mem (mapStack s).pagemap.pml4
        (USER_STACK + USER_STACK_SIZE) = some (i * PAGE_SIZE) ∧
      ∀ area ∈ (mapStack s).areas,
        ¬(area.1 ≤ i * PAGE_SIZE ∧ i * PAGE_SIZE < area.1 + area.2 * PAGE_SIZE)) ∨
    0 ∈ (mapStack s).pagemap.pageTablesAddr := by
  have hsize : USER_STACK_SIZE = 8 * PAGE_SIZE := by decide
  have hpages : USER_STACK_SIZE / PAGE_SIZE = 8 := by decide
  obtain ⟨page, pmm, mem, halloc, _, hin, hfree, hsound⟩ := h.alloc hstack
  have hs := hsound mem fun _ _ => rfl
  obtain ⟨⟨k, vm⟩, hmap⟩ : ∃ r, Vmm.mapRange Vmm.allocFrame ⟨mem, pmm⟩ s.pagemap USER_STACK
      (page * PAGE_SIZE) USER_STACK_SIZE 0b111 0 = r := ⟨_, rfl⟩
  rw [mapStack_eq halloc hmap]
  rw [hsize] at hmap
  rw [hpages] at hin hfree
  have hframe : (page + 8) * PAGE_SIZE ≤ 2 ^ 47 :=
    (Nat.mul_le_mul_right _ hin).trans h.avoids.reach
  rcases hs.mapRange (show USER_STACK + (8 + 1) * PAGE_SIZE ≤ 2 ^ 47 by decide)
      (page * PAGE_SIZE) 0b111 0 with
    ⟨k', vm', tab', hmap', hsound', hset⟩ | hnull
  · dsimp only at hmap'
    rw [hmap, Prod.mk.injEq] at hmap'
    obtain ⟨rfl, rfl⟩ := hmap'
    refine .inl ⟨page + 8, ?_, ?_⟩
    · -- the ninth round of the loop mapped it
      rw [hsize, Nat.add_mul]
      exact access_stack hsound'.tree hset hframe (by decide)
    · intro area harea hmem
      rw [List.mem_append, List.mem_singleton] at harea
      cases harea with
      | inl hold =>
          exact (h.areas area hold).not_behind (by decide) hfree hmem.1 hmem.2 rfl
      | inr hnew =>
          subst hnew
          rw [hpages, ← Nat.add_mul] at hmem
          exact absurd hmem.2 (Nat.lt_irrefl _)
  · dsimp only at hnull
    rw [hmap] at hnull
    exact .inr hnull

/-! ## A process -/

/-- Every request was served: for the top table, for the tables below it, and for the
areas. -/
def Served (k : Machine Pmm) (s : Image) : Prop :=
  (Vmm.allocFrame k.pmm k.mem).1 ≠ 0 ∧ 0 ∉ s.pagemap.pageTablesAddr ∧
    ∀ area ∈ s.areas, area.1 ≠ 0

instance (k : Machine Pmm) (s : Image) : Decidable (Served k s) :=
  inferInstanceAs (Decidable (_ ∧ _ ∧ _))

variable {k : Machine Pmm} {kernelPml4 : Nat} {low : ByteMem}

theorem createProcess_eq {new : Machine Pmm × Vmm} {l : Option Nat × Image}
    (hnew : Vmm.new Vmm.allocFrame k kernelPml4 = new)
    (hload : load low read ⟨new.1, new.2, []⟩ = l) :
    createProcess low read k kernelPml4 = (l.1, mapStack l.2) := by
  simp only [createProcess, hnew, hload]

/-- The image of a program maps the frame behind its stack, which was not allocated for
it. -/
theorem createProcess_maps_behind (hreach : k.pmm.pages * PAGE_SIZE ≤ 2 ^ 47)
    (hread : WellFormed read) {entry : Nat} {s : Image}
    (hret : createProcess low read k kernelPml4 = (some entry, s)) (hserved : Served k s) :
    ∃ i, Vmm.access s.machine.mem s.pagemap.pml4 (USER_STACK + USER_STACK_SIZE) =
        some (i * PAGE_SIZE) ∧
      ∀ area ∈ s.areas,
        ¬(area.1 ≤ i * PAGE_SIZE ∧ i * PAGE_SIZE < area.1 + area.2 * PAGE_SIZE) := by
  obtain ⟨htop, htables, hareas⟩ := hserved
  obtain ⟨new, hnew⟩ : ∃ r, Vmm.new Vmm.allocFrame k kernelPml4 = r := ⟨_, rfl⟩
  obtain ⟨l, hload⟩ : ∃ r, load low read ⟨new.1, new.2, []⟩ = r := ⟨_, rfl⟩
  rw [createProcess_eq hnew hload, Prod.mk.injEq] at hret
  obtain ⟨hentry, rfl⟩ := hret
  have hpml4 : (Vmm.new Vmm.allocFrame k kernelPml4).2.pml4 ≠ 0 := htop
  have hstart : Image.Kept ⟨new.1, new.2, []⟩ := by
    rw [← hnew]
    exact .inl (Image.sound_new hreach hpml4)
  have hkept : l.2.Kept := by
    rw [← hload] at hentry ⊢
    exact hstart.load hread hentry
  cases hkept with
  | inl hsound =>
      obtain ⟨tab, hsound⟩ := hsound
      have hstack : (l.2.machine.pmm.alloc l.2.machine.mem
          (USER_STACK_SIZE / PAGE_SIZE)).1 ≠ 0 :=
        hareas (_, _) (List.mem_append_right _ (List.mem_singleton_self _))
      cases hsound.mapStack hstack with
      | inl hbehind => exact hbehind
      | inr hnull => exact absurd hnull htables
  | inr hnull => exact absurd (mem_mapStack hnull) htables

/-! ## The size of memory -/

theorem pages_alloc (pmm : Pmm) (mem : ByteMem) (count : Nat) :
    (pmm.alloc mem count).2.1.pages = pmm.pages := by
  rcases Nat.eq_zero_or_pos count with rfl | hcount
  · rw [Pmm.alloc, firstFit_zero]
  · exact (Pmm.freePages_alloc hcount rfl).1

theorem pages_loadSegment (hok : (loadSegment read ph s).1 = true) :
    (loadSegment read ph s).2.machine.pmm.pages = s.machine.pmm.pages := by
  rcases loadSegment_cases read ph s with
    ⟨_, hret⟩ | ⟨s', _, hret⟩ | ⟨addr, pmm, mem, bytes, k, vm, _, _, halloc, _, hmap, hret⟩
  · rw [hret]
  · rw [hret] at hok
    cases hok
  · have halloced := pages_alloc s.machine.pmm s.machine.mem ph.pageNumber
    rw [halloc] at halloced
    rw [hret]
    exact (Vmm.mapRange_gives hmap).1.trans halloced

theorem pages_loadSegments (hok : (loadSegments read table n s).1 = true) :
    (loadSegments read table n s).2.machine.pmm.pages = s.machine.pmm.pages := by
  induction n with
  | zero => rfl
  | succ n ih =>
      obtain ⟨⟨ok, s'⟩, hret⟩ : ∃ r, loadSegments read table n s = r := ⟨_, rfl⟩
      simp only [loadSegments, hret] at ih hok ⊢
      cases ok with
      | false => cases hok
      | true =>
          rw [if_pos rfl] at hok ⊢
          exact (pages_loadSegment hok).trans (ih rfl)

theorem pages_mapStack (s : Image) :
    (mapStack s).machine.pmm.pages = s.machine.pmm.pages := by
  obtain ⟨⟨addr, pmm, mem⟩, halloc⟩ : ∃ r,
      s.machine.pmm.alloc s.machine.mem (USER_STACK_SIZE / PAGE_SIZE) = r := ⟨_, rfl⟩
  obtain ⟨⟨k, vm⟩, hmap⟩ : ∃ r, Vmm.mapRange Vmm.allocFrame ⟨mem, pmm⟩ s.pagemap USER_STACK
      addr USER_STACK_SIZE 0b111 0 = r := ⟨_, rfl⟩
  have halloced := pages_alloc s.machine.pmm s.machine.mem (USER_STACK_SIZE / PAGE_SIZE)
  rw [halloc] at halloced
  rw [mapStack_eq halloc hmap]
  exact (Vmm.mapRange_gives hmap).1.trans halloced

theorem pages_new (k : Machine Pmm) (kernelPml4 : Nat) :
    (Vmm.new Vmm.allocFrame k kernelPml4).1.pmm.pages = k.pmm.pages :=
  pages_alloc k.pmm k.mem 1

theorem pages_createProcess {entry : Nat} {s : Image}
    (hret : createProcess low read k kernelPml4 = (some entry, s)) :
    s.machine.pmm.pages = k.pmm.pages := by
  obtain ⟨new, hnew⟩ : ∃ r, Vmm.new Vmm.allocFrame k kernelPml4 = r := ⟨_, rfl⟩
  obtain ⟨l, hload⟩ : ∃ r, load low read ⟨new.1, new.2, []⟩ = r := ⟨_, rfl⟩
  rw [createProcess_eq hnew hload, Prod.mk.injEq] at hret
  obtain ⟨hentry, rfl⟩ := hret
  rw [← hload] at hentry
  obtain ⟨bytes, table, _, _, _, hall, hloaded⟩ := load_cases hentry
  have hpages := pages_loadSegments hall
  rw [← hloaded, hload] at hpages
  rw [pages_mapStack, hpages, ← hnew]
  exact pages_new k kernelPml4

end Toystar.Loader

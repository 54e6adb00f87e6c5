import Toystar.Loader.Contents
import Toystar.Scheduler.KernelStack

/-!
# What the loader asks the file to store

`load` sizes the area of a segment by `memsz` and asks `Vfs::read` for `filesz` bytes
behind `alignment`.  Nothing compares the two, and both the page count and the addresses
are computed modulo `2 ^ 64`.  Here the calls of `Vfs::read` are recorded with the areas
they were made for, whatever the file answers, and a call stays inside its area exactly
when the bytes of its header do.
-/

namespace Toystar.Loader

open Toystar.Fs
open Toystar.Memory
open Toystar.Scheduler (directMap)
open Toystar.Verified

/-! ## The calls -/

/-- A call of `Vfs::read` for a segment: the area allocated for it, where the bytes are to
go behind its first one, and how many are asked for. -/
structure SegmentRead where
  area : Nat
  pages : Nat
  alignment : Nat
  length : Nat
deriving DecidableEq

namespace SegmentRead

/-- Address of a byte of the area. -/
def address (q : SegmentRead) (k : Nat) : Nat := (directMap q.area + k) % 2 ^ 64

/-- Every byte asked for is a byte of the frames. -/
def Inside (q : SegmentRead) : Prop :=
  ∀ k < q.length, ∃ j < q.pages * PAGE_SIZE, q.address (q.alignment + k) = q.address j

/-- The frames hold a whole number of pages below `2 ^ 64`, so bytes past the last one
come round to none of them. -/
theorem inside_iff {q : SegmentRead} (hpages : q.pages * PAGE_SIZE < 2 ^ 64)
    (hoffset : q.alignment ≤ q.pages * PAGE_SIZE) :
    q.Inside ↔ q.length = 0 ∨ q.alignment + q.length ≤ q.pages * PAGE_SIZE := by
  constructor
  · intro h
    by_contra hnot
    obtain ⟨hlen, hlong⟩ := not_or.mp hnot
    obtain ⟨j, hj, hsame⟩ := h (q.pages * PAGE_SIZE - q.alignment) (by omega)
    unfold address at hsame
    omega
  · rintro hfits k hk
    exact ⟨q.alignment + k, by omega, rfl⟩

end SegmentRead

namespace ProgramHeader

variable {ph : ProgramHeader}

theorem pages_lt (ph : ProgramHeader) : ph.pageNumber * PAGE_SIZE < 2 ^ 64 := by
  unfold pageNumber divCeil PAGE_SIZE
  omega

/-- The bytes in the file fit in the pages of the segment. -/
def FileFits (ph : ProgramHeader) : Prop :=
  ph.filesz = 0 ∨ ph.alignment + ph.filesz ≤ ph.pageNumber * PAGE_SIZE

instance (ph : ProgramHeader) : Decidable ph.FileFits := inferInstanceAs (Decidable (_ ∨ _))

/-- They do when they are no more than those in memory and the page count does not wrap. -/
theorem fileFits_of_le (hsize : ph.filesz ≤ ph.memsz)
    (hwrap : ph.memsz + ph.alignment + PAGE_SIZE ≤ 2 ^ 64) : ph.FileFits := by
  right
  unfold pageNumber divCeil
  unfold PAGE_SIZE at *
  omega

end ProgramHeader

/-- The call of one round, if it comes to one. -/
def segmentRead (ph : ProgramHeader) (s : Image) : Option SegmentRead :=
  if ph.type ≠ P_LOAD then none
  else
    let area := s.machine.pmm.alloc s.machine.mem ph.pageNumber
    if area.1 = 0 then none
    else some ⟨area.1, ph.pageNumber, ph.alignment, ph.filesz⟩

/-- The calls of the first `n` rounds. -/
def segmentReads (read : ReadFile) (table : ByteMem) : Nat → Image → List SegmentRead
  | 0, _ => []
  | n + 1, s =>
      let r := loadSegments read table n s
      segmentReads read table n s ++
        if r.1 then (segmentRead (.ofBytes table n) r.2).toList else []

/-- The calls `Loader::Elf::load` makes for segments. -/
def loadReads (low : ByteMem) (read : ReadFile) (s : Image) : List SegmentRead :=
  match read 0 ElfHeader.size with
  | none => []
  | some bytes =>
      let start := ElfHeader.ofBytes bytes
      if start.Accepted low then
        match read start.phoff (ProgramHeader.size * start.phCount) with
        | none => []
        | some table => segmentReads read table start.phCount s
      else []

variable {low : ByteMem} {read : ReadFile} {table : ByteMem} {s : Image} {ph : ProgramHeader}
  {q : SegmentRead} {n : Nat}

/-- A round stores what the call asks for, and nothing else before the segment is mapped. -/
theorem loadSegment_segmentRead (hq : segmentRead ph s = some q) :
    loadSegment read ph s =
      let area := s.machine.pmm.alloc s.machine.mem ph.pageNumber
      match read ph.offset q.length with
      | none => (false, { s with machine := ⟨area.2.2, area.2.1.free q.area q.pages⟩ })
      | some bytes =>
          let r := Vmm.mapRange Vmm.allocFrame
            ⟨Tmpfs.copyIn area.2.2 (q.area + q.alignment) bytes q.length, area.2.1⟩ s.pagemap
            ph.vaddr q.area (q.pages * PAGE_SIZE % 2 ^ 64) ph.prot 0
          (true, ⟨r.1, r.2, s.areas ++ [(q.area, q.pages)]⟩) := by
  unfold segmentRead at hq
  split at hq
  · cases hq
  · rename_i htype
    dsimp only at hq
    split at hq
    · cases hq
    · rename_i harea
      cases hq
      rw [loadSegment, if_neg htype]
      exact if_neg harea

/-! ## The rounds -/

/-- The loop comes to header `ph` with the image `s'`. -/
def RoundAt (low : ByteMem) (read : ReadFile) (s : Image) (ph : ProgramHeader)
    (s' : Image) : Prop :=
  ∃ bytes table i, read 0 ElfHeader.size = some bytes ∧
    (ElfHeader.ofBytes bytes).Accepted low ∧
    read (ElfHeader.ofBytes bytes).phoff
      (ProgramHeader.size * (ElfHeader.ofBytes bytes).phCount) = some table ∧
    i < (ElfHeader.ofBytes bytes).phCount ∧ loadSegments read table i s = (true, s') ∧
    ph = .ofBytes table i

/-- The header is of a segment that gets its area. -/
def ProgramHeader.GetsArea (ph : ProgramHeader) (s : Image) : Prop :=
  ph.type = P_LOAD ∧ (s.machine.pmm.alloc s.machine.mem ph.pageNumber).1 ≠ 0

theorem segmentRead_eq_some : segmentRead ph s = some q ↔ ph.GetsArea s ∧
    q = ⟨(s.machine.pmm.alloc s.machine.mem ph.pageNumber).1, ph.pageNumber, ph.alignment,
      ph.filesz⟩ := by
  unfold segmentRead ProgramHeader.GetsArea
  by_cases htype : ph.type = P_LOAD
  · rw [if_neg (not_not.mpr htype)]
    dsimp only
    split
    · rename_i harea
      simp [harea]
    · rename_i harea
      simp [htype, harea, eq_comm]
  · rw [if_pos htype]
    simp [htype]

/-- The call of a segment stays inside its area when the header's bytes do. -/
theorem segmentRead_inside_iff (hq : segmentRead ph s = some q) : q.Inside ↔ ph.FileFits := by
  obtain ⟨⟨_, harea⟩, rfl⟩ := segmentRead_eq_some.mp hq
  refine SegmentRead.inside_iff ph.pages_lt ?_
  -- an area of no pages is never handed out
  have hpages : ph.pageNumber ≠ 0 := by
    intro hzero
    rw [hzero] at harea
    apply harea
    unfold Pmm.alloc
    rw [firstFit_zero]
  have halign : ph.alignment < PAGE_SIZE := Nat.mod_lt _ (by decide)
  dsimp only
  calc ph.alignment ≤ 1 * PAGE_SIZE := by omega
    _ ≤ ph.pageNumber * PAGE_SIZE := Nat.mul_le_mul_right _ (by omega)

theorem mem_segmentReads : q ∈ segmentReads read table n s ↔
    ∃ i < n, ∃ s', loadSegments read table i s = (true, s') ∧
      segmentRead (.ofBytes table i) s' = some q := by
  induction n with
  | zero => simp [segmentReads]
  | succ n ih =>
      have hlast : q ∈ (if (loadSegments read table n s).1 then
            (segmentRead (.ofBytes table n) (loadSegments read table n s).2).toList else []) ↔
          ∃ s', loadSegments read table n s = (true, s') ∧
            segmentRead (.ofBytes table n) s' = some q := by
        obtain ⟨⟨ok, s'⟩, hret⟩ : ∃ r, loadSegments read table n s = r := ⟨_, rfl⟩
        rw [hret]
        cases ok with
        | false => simp
        | true => simp
      rw [segmentReads, List.mem_append, ih, hlast]
      constructor
      · rintro (⟨i, hi, h⟩ | h)
        · exact ⟨i, by omega, h⟩
        · exact ⟨n, by omega, h⟩
      · rintro ⟨i, hi, h⟩
        by_cases hin : i < n
        · exact .inl ⟨i, hin, h⟩
        · obtain rfl : i = n := by omega
          exact .inr h

theorem mem_loadReads : q ∈ loadReads low read s ↔
    ∃ ph s', RoundAt low read s ph s' ∧ segmentRead ph s' = some q := by
  unfold loadReads RoundAt
  cases hbytes : read 0 ElfHeader.size with
  | none => simp
  | some bytes =>
      dsimp only
      by_cases haccepted : (ElfHeader.ofBytes bytes).Accepted low
      · rw [if_pos haccepted]
        cases htable : read (ElfHeader.ofBytes bytes).phoff
            (ProgramHeader.size * (ElfHeader.ofBytes bytes).phCount) with
        | none =>
            simp only [List.not_mem_nil, false_iff]
            rintro ⟨ph, s', ⟨bytes', table, i, hbytes', _, htable', _⟩, _⟩
            cases hbytes'
            rw [htable] at htable'
            cases htable'
        | some table =>
            dsimp only
            rw [mem_segmentReads]
            constructor
            · rintro ⟨i, hi, s', hret, hq⟩
              exact ⟨_, s', ⟨bytes, table, i, rfl, haccepted, htable, hi, hret, rfl⟩, hq⟩
            · rintro ⟨ph, s', ⟨bytes', table', i, hbytes', _, htable', hi, hret, rfl⟩, hq⟩
              cases hbytes'
              rw [htable] at htable'
              cases htable'
              exact ⟨i, hi, s', hret, hq⟩
      · rw [if_neg haccepted]
        simp only [List.not_mem_nil, false_iff]
        rintro ⟨ph, s', ⟨bytes', table, i, hbytes', haccepted', _⟩, _⟩
        cases hbytes'
        exact haccepted haccepted'

/-- Every byte that `load` asks to store for a segment is in the segment's frames exactly
when each header the loop comes to, of a segment that gets its area, has no more bytes in
the file than the area has behind the alignment. -/
theorem segment_reads_inside_iff (low : ByteMem) (read : ReadFile) (s : Image) :
    (∀ q ∈ loadReads low read s, q.Inside) ↔
      ∀ ph s', RoundAt low read s ph s' → ph.GetsArea s' → ph.FileFits := by
  constructor
  · intro h ph s' hround hserved
    have hq := segmentRead_eq_some.mpr ⟨hserved, rfl⟩
    exact (segmentRead_inside_iff hq).mp (h _ (mem_loadReads.mpr ⟨ph, s', hround, hq⟩))
  · intro h q hq
    obtain ⟨ph, s', hround, hread⟩ := mem_loadReads.mp hq
    exact (segmentRead_inside_iff hread).mpr
      (h ph s' hround (segmentRead_eq_some.mp hread).1)

/-- A program with one segment, of 8192 bytes in the file and one in memory. -/
def longSegmentBytes : List (Nat × UInt8) :=
  [(0, 0x7F), (1, 69), (2, 76), (3, 70), (4, 2), (5, 1), (26, 0x40), (32, 64), (56, 1),
    (64, 1), (82, 0x40), (97, 0x20), (104, 1)]

def longSegment : ByteMem := fun x => (longSegmentBytes.lookup x).getD 0

def readLongSegment : ReadFile := fun offset size =>
  if offset + size ≤ 8312 then some fun i => longSegment (offset + i) else none

/-- The page allocated for it gets two. -/
theorem long_segment_outside :
    ∃ q ∈ loadReads (fun _ => 0) readLongSegment ⟨zeroedMachine, newPagemap, []⟩,
      q.pages = 1 ∧ q.length = 8192 ∧ ¬q.Inside := by
  have hreads : loadReads (fun _ => 0) readLongSegment ⟨zeroedMachine, newPagemap, []⟩ =
      [⟨0x2000, 1, 0, 8192⟩] := by
    decide +kernel
  refine ⟨⟨0x2000, 1, 0, 8192⟩, by rw [hreads]; exact List.mem_cons_self, rfl, rfl, ?_⟩
  rw [SegmentRead.inside_iff (by decide) (by decide)]
  decide

end Toystar.Loader

import Toystar.Loader.Program

/-!
# Which files become processes

A file should become a process when it opens, is identified as a program and has its
segments loaded.  `load` checks all of that, with one slip: the string it compares with
`"ELF"` is at the address `ident[1]`, and equal strings are refused.  But `create_program`
goes on with the `-1` of `load` as the program counter, so the checks decide nothing, and
a process that could not be made is used.
-/

namespace Toystar.Loader

open Toystar.Fs
open Toystar.Kernel
open Toystar.Klibc
open Toystar.Memory
open Toystar.Scheduler
open Toystar.Verified

variable {κ : Type} {low : ByteMem} {read : ReadFile} {table : ByteMem} {s : Image}
  {ph : ProgramHeader} {n : Nat}

/-! ## The checks of the loader -/

/-- The identification of a program for this machine: `0x7F`, `"ELF"`, 64 bits, little
endian, System V. -/
structure ElfHeader.Valid (start : ElfHeader) : Prop where
  magic : start.ident 0 = 0x7F
  name : start.ident 1 = 69 ∧ start.ident 2 = 76 ∧ start.ident 3 = 70
  bits : start.ident 4 = 2
  order : start.ident 5 = 1
  abi : start.ident 7 = 0

/-- `"ELF"` at the address 69, the character `'E'`. -/
def LowElf (low : ByteMem) : Prop := low 69 = 69 ∧ low 70 = 76 ∧ low 71 = 70

/-- Of the valid identifications all or none is accepted. -/
theorem ElfHeader.Valid.accepted_iff {start : ElfHeader} (h : start.Valid) :
    start.Accepted low ↔ ¬LowElf low := by
  unfold ElfHeader.Accepted LowElf
  rw [h.name.1]
  simp only [h.magic, h.bits, h.order, h.abi, true_and, and_true]
  rfl

theorem loadSegment_true_iff : (loadSegment read ph s).1 = true ↔
    (ph.type = P_LOAD → ph.GetsArea s ∧ read ph.offset ph.filesz ≠ none) := by
  unfold loadSegment ProgramHeader.GetsArea
  by_cases htype : ph.type = P_LOAD
  · rw [if_neg (not_not.mpr htype)]
    dsimp only
    split
    · rename_i harea
      simp [htype, harea]
    · rename_i harea
      cases hread : read ph.offset ph.filesz with
      | none => simp [htype]
      | some bytes => simp [htype, harea]
  · rw [if_pos htype]
    simp [htype]

/-- The loop goes through when each round that it comes to does. -/
theorem loadSegments_true_iff : (loadSegments read table n s).1 = true ↔
    ∀ i < n, ∀ s', loadSegments read table i s = (true, s') →
      (loadSegment read (.ofBytes table i) s').1 = true := by
  induction n with
  | zero => simp [loadSegments]
  | succ n ih =>
      obtain ⟨⟨ok, s'⟩, hret⟩ : ∃ r, loadSegments read table n s = r := ⟨_, rfl⟩
      rw [loadSegments]
      rw [hret] at ih ⊢
      cases ok with
      | false =>
          simp only [Bool.false_eq_true, if_false, false_iff] at ih ⊢
          intro h
          exact ih fun i hi => h i (by omega)
      | true =>
          simp only [if_true, true_iff] at ih ⊢
          constructor
          · intro hlast i hi s'' hs''
            by_cases hin : i < n
            · exact ih i hin s'' hs''
            · obtain rfl : i = n := by omega
              rw [hret] at hs''
              cases hs''
              exact hlast
          · intro h
            exact h n (Nat.lt_succ_self n) s' hret

/-- The segments of a file, in the order of the loop, get their areas and are read. -/
def SegmentsLoaded (read : ReadFile) (start : ElfHeader) (s : Image) : Prop :=
  ∃ table, read start.phoff (ProgramHeader.size * start.phCount) = some table ∧
    ∀ i < start.phCount, ∀ s', loadSegments read table i s = (true, s') →
      (ProgramHeader.ofBytes table i).type = P_LOAD →
        (ProgramHeader.ofBytes table i).GetsArea s' ∧
          read (ProgramHeader.ofBytes table i).offset
            (ProgramHeader.ofBytes table i).filesz ≠ none

/-- When `load` returns an entry point. -/
theorem load_eq_some_iff {entry : Nat} : (load low read s).1 = some entry ↔
    ∃ bytes, read 0 ElfHeader.size = some bytes ∧ (ElfHeader.ofBytes bytes).Accepted low ∧
      SegmentsLoaded read (ElfHeader.ofBytes bytes) s ∧
      entry = (ElfHeader.ofBytes bytes).entry := by
  unfold load SegmentsLoaded
  cases hbytes : read 0 ElfHeader.size with
  | none => simp
  | some bytes =>
      simp only [Option.some.injEq, exists_eq_left']
      by_cases haccepted : (ElfHeader.ofBytes bytes).Accepted low
      · rw [if_pos haccepted]
        cases htable : read (ElfHeader.ofBytes bytes).phoff
            (ProgramHeader.size * (ElfHeader.ofBytes bytes).phCount) with
        | none => simp
        | some table =>
            simp only [Option.some.injEq, exists_eq_left']
            simp only [← loadSegment_true_iff, ← loadSegments_true_iff]
            by_cases hall : (loadSegments read table (ElfHeader.ofBytes bytes).phCount s).1 = true
            · simp only [hall, if_true, Option.some.injEq, haccepted, true_and]
              exact eq_comm
            · simp [hall]
      · rw [if_neg haccepted]
        simp [haccepted]

/-! ## Programs -/

namespace KernelState

variable {s : KernelState κ} {new : NewObjects} {kernelPml4 pagemap : Nat}
  {fd : Option OpenedFile} {argv : Option (List Nat)}

/-- The file is identified as a program, and `load` got through it. -/
structure LoadedFile (low : ByteMem) (s : KernelState κ) (kernelPml4 : Nat)
    (file : OpenedFile) (bytes : ByteMem) : Prop where
  header : file.read 0 ElfHeader.size = some bytes
  valid : (ElfHeader.ofBytes bytes).Valid
  loaded : (load low file.read (s.newImage kernelPml4)).1 =
    some (ElfHeader.ofBytes bytes).entry

/-- Which it does when the memory at 69 and the file are as they should be. -/
theorem loadedFile_iff {file : OpenedFile} {bytes : ByteMem} :
    LoadedFile low s kernelPml4 file bytes ↔
      file.read 0 ElfHeader.size = some bytes ∧ (ElfHeader.ofBytes bytes).Valid ∧
      ¬LowElf low ∧ SegmentsLoaded file.read (ElfHeader.ofBytes bytes)
        (s.newImage kernelPml4) := by
  constructor
  · rintro ⟨hheader, hvalid, hloaded⟩
    obtain ⟨bytes', hbytes', haccepted, hsegments, _⟩ := load_eq_some_iff.mp hloaded
    rw [hheader] at hbytes'
    cases hbytes'
    exact ⟨hheader, hvalid, hvalid.accepted_iff.mp haccepted, hsegments⟩
  · rintro ⟨hheader, hvalid, hlow, hsegments⟩
    exact ⟨hheader, hvalid,
      load_eq_some_iff.mpr ⟨bytes, hheader, hvalid.accepted_iff.mpr hlow, hsegments, rfl⟩⟩

/-- Only valid files become processes: one is returned for a file that is loaded, which
starts at the entry point and is the one new process in the list; otherwise null is
returned and the list is as before. -/
def OnlyValid (low : ByteMem) (kernelPml4 : Nat) (s : KernelState κ) (new : NewObjects)
    (pagemap : Nat) (fd : Option OpenedFile) (argv : Option (List Nat)) : Prop :=
  match s.createProgram low kernelPml4 new pagemap fd argv with
  | .ok (some (p, _), s') =>
      s'.procs.processList = s.procs.processList ++ [p] ∧
        ∃ file bytes th, fd = some file ∧ LoadedFile low s kernelPml4 file bytes ∧
          s'.procs.sched.threads new.thread = some th ∧
          th.regs.rip = UInt64.ofNat (ElfHeader.ofBytes bytes).entry
  | .ok (none, s') => s'.procs.processList = s.procs.processList
  | .error _ => False

/-- A file that opens becomes a process, whatever `load` returned. -/
theorem createProgram_of_idsLeft (h : s.IdsLeft) (low : ByteMem) (kernelPml4 : Nat)
    (new : NewObjects) (pagemap : Nat) (file : OpenedFile) (argv : Option (List Nat)) :
    ∃ vm s' th, s.createProgram low kernelPml4 new pagemap (some file) argv =
        .ok (some (new.process, vm), s') ∧
      s'.procs.processList = s.procs.processList ++ [new.process] ∧
      s'.procs.sched.threads new.thread = some th ∧
      th.regs.rip = ripOf (load low file.read (s.newImage kernelPml4)).1 := by
  obtain ⟨l, hl⟩ : ∃ l, load low file.read (s.newImage kernelPml4) = l := ⟨_, rfl⟩
  have hids : IdsLeft { s with machine := l.2.machine } := h
  obtain ⟨procs, th, hmade, hlist, hth, hregs⟩ :=
    createProcess_of_idsLeft hids new (ripOf l.1) 0x1b pagemap l.2.pagemap file.parent
  have hrip : th.regs.rip = ripOf l.1 := by
    rw [hregs]
    exact rip_initialRegs _ _ _
  have hthread : procs.sched.thread new.thread = .ok th := Sched.thread_of_some hth
  unfold createProgram
  simp only [hl, hmade, hthread]
  cases argv with
  | none => exact ⟨_, _, th, rfl, hlist, hth, hrip⟩
  | some argv =>
      exact ⟨_, _, _, rfl, hlist, update_eq_some.mpr (.inl ⟨rfl, rfl⟩), hrip⟩

/-- Without ids the null of `create_process` is dereferenced. -/
theorem createProgram_of_not_idsLeft (file : OpenedFile) (h : ¬s.IdsLeft) :
    s.createProgram low kernelPml4 new pagemap (some file) argv = .error .nullDeref := by
  obtain ⟨l, hl⟩ : ∃ l, load low file.read (s.newImage kernelPml4) = l := ⟨_, rfl⟩
  have hids : ¬IdsLeft { s with machine := l.2.machine } := h
  have hnone := createProcess_of_not_idsLeft hids new (ripOf l.1) 0x1b pagemap l.2.pagemap
    file.parent
  unfold createProgram
  simp only [hl]
  split
  · rfl
  · rename_i hsome
    rw [hsome] at hnone
    cases hnone

end KernelState

variable {s : KernelState κ}

/-- Only valid files become processes when the path does not open, or the file is valid and
gets through the loader with `"ELF"` not at the address 69, and both ids are left. -/
theorem only_valid_iff (low : ByteMem) (kernelPml4 : Nat) (s : KernelState κ)
    (new : NewObjects) (pagemap : Nat) (fd : Option OpenedFile) (argv : Option (List Nat)) :
    s.OnlyValid low kernelPml4 new pagemap fd argv ↔
      fd = none ∨ s.IdsLeft ∧ ∃ file bytes, fd = some file ∧
        file.read 0 ElfHeader.size = some bytes ∧ (ElfHeader.ofBytes bytes).Valid ∧
        ¬LowElf low ∧ SegmentsLoaded file.read (ElfHeader.ofBytes bytes)
          (s.newImage kernelPml4) := by
  unfold KernelState.OnlyValid
  cases fd with
  | none => exact iff_of_true rfl (.inl rfl)
  | some file =>
      by_cases hids : s.IdsLeft
      · obtain ⟨vm, s', th, hret, hlist, hth, hrip⟩ :=
          KernelState.createProgram_of_idsLeft hids low kernelPml4 new pagemap file argv
        rw [hret]
        constructor
        · rintro ⟨_, file', bytes, _, hfile, hloaded, _⟩
          cases hfile
          exact .inr ⟨hids, file, bytes, rfl, KernelState.loadedFile_iff.mp hloaded⟩
        · rintro (hnone | ⟨_, file', bytes, hfile, hvalid⟩)
          · cases hnone
          · cases hfile
            have hloaded := KernelState.loadedFile_iff.mpr hvalid
            refine ⟨hlist, file, bytes, th, rfl, hloaded, hth, ?_⟩
            rw [hrip, hloaded.loaded, ripOf, Option.getD_some]
      · rw [KernelState.createProgram_of_not_idsLeft file hids]
        simp [hids]

/-- No process, and every id left. -/
def noPrograms : KernelState Unit :=
  { procs :=
      { sched := ⟨fun _ => none, fun _ => none, [], fun _ => ⟨none, none, 0, 0⟩⟩
        processList := []
        pidBitmap := fun _ => 0
        tidBitmap := fun _ => 0 }
    machine := zeroedMachine }

/-- A file without contents becomes a process, which starts at -1. -/
theorem empty_file_becomes_process :
    (∃ vm s' th, noPrograms.createProgram (fun _ => 0) 0x1000 ⟨1, 2, 0, 3, 4, 5⟩ 6
        (some ⟨fun _ _ => none, 0⟩) none = .ok (some (1, vm), s') ∧
      s'.procs.processList = [1] ∧ s'.procs.sched.threads 2 = some th ∧
      th.regs.rip = ripOf none) ∧
    ¬noPrograms.OnlyValid (fun _ => 0) 0x1000 ⟨1, 2, 0, 3, 4, 5⟩ 6
      (some ⟨fun _ _ => none, 0⟩) none := by
  have hids : noPrograms.IdsLeft := by
    constructor <;> decide
  obtain ⟨vm, s', th, hret, hlist, hth, hrip⟩ := KernelState.createProgram_of_idsLeft hids
    (fun _ => 0) 0x1000 ⟨1, 2, 0, 3, 4, 5⟩ 6 ⟨fun _ _ => none, 0⟩ none
  have hload : (load (fun _ => 0) (fun _ _ => none) (noPrograms.newImage 0x1000)).1 = none := by
    rw [load]
  rw [hload] at hrip
  refine ⟨⟨vm, s', th, hret, hlist, hth, hrip⟩, ?_⟩
  unfold KernelState.OnlyValid
  rw [hret]
  rintro ⟨_, file, bytes, _, hfile, hloaded, _⟩
  cases hfile
  cases hloaded.header

end Toystar.Loader

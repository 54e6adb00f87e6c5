import Toystar.Fs.Tmpfs
import Toystar.Memory.Vmm
import Toystar.Scheduler.Lifecycle

/-!
# Loading a program

`Loader::Elf::load` of `kernel/loader/elf.cpp`, with the parts of
`Sched::create_process` and `Sched::create_program` that touch memory: the stack, and
the arguments on it.  The file is given by what `Vfs::read` answers.  Ids, descriptors
and the process list are modelled with the scheduler.

Memory is addressed by physical address as in the other modules.  The one access that
does not go through the direct map is the `strncmp` of the identification, whose second
argument is the character `ident[1]` taken for an address; `low` is what the active
pagemap shows there.  A page that is not mapped there would be a fault: the model is of
the calls with a page.
-/

namespace Toystar.Loader

open Toystar.Fs
open Toystar.Klibc
open Toystar.Memory
open Toystar.Scheduler (USER_STACK USER_STACK_SIZE)
open Toystar.Verified

/-! ## Files -/

/-- `Vfs::read` of an offset and a size: the bytes it stores, or -1. -/
abbrev ReadFile := Nat → Nat → Option ByteMem

def read16 (bytes : ByteMem) (i : Nat) : Nat :=
  (bytes i).toNat + (bytes (i + 1)).toNat * 2 ^ 8

def read32 (bytes : ByteMem) (i : Nat) : Nat :=
  read16 bytes i + read16 bytes (i + 2) * 2 ^ 16

/-- The fields of `elf_header` the loader reads. -/
structure ElfHeader where
  ident : ByteMem
  entry : Nat
  phoff : Nat
  phCount : Nat

/-- `sizeof(elf_header)`. -/
def ElfHeader.size : Nat := 64

def ElfHeader.ofBytes (bytes : ByteMem) : ElfHeader :=
  ⟨bytes, bytes.read64 24, bytes.read64 32, read16 bytes 56⟩

/-- The fields of `program_header` the loader reads. -/
structure ProgramHeader where
  type : Nat
  flags : Nat
  offset : Nat
  vaddr : Nat
  filesz : Nat
  memsz : Nat

/-- `sizeof(program_header)`. -/
def ProgramHeader.size : Nat := 56

/-- `phdr[i]`. -/
def ProgramHeader.ofBytes (bytes : ByteMem) (i : Nat) : ProgramHeader :=
  { type := read32 bytes (size * i)
    flags := read32 bytes (size * i + 4)
    offset := bytes.read64 (size * i + 8)
    vaddr := bytes.read64 (size * i + 16)
    filesz := bytes.read64 (size * i + 32)
    memsz := bytes.read64 (size * i + 40) }

/-- `PType::P_LOAD`. -/
def P_LOAD : Nat := 1

/-! ## Segments -/

/-- A program on its way into memory.  `areas` are the allocations made for it, address
and number of pages, which the code itself does not keep. -/
structure Image where
  machine : Machine Pmm
  pagemap : Vmm
  areas : List (Nat × Nat)

namespace ProgramHeader

variable (ph : ProgramHeader)

def alignment : Nat := ph.vaddr % PAGE_SIZE

def pageNumber : Nat := divCeil ((ph.memsz + ph.alignment) % 2 ^ 64) PAGE_SIZE

/-- The flags of the pages; `PT_WRITE` is 2. -/
def prot : Nat := if ph.flags / 2 % 2 = 1 then 0b111 else 0b101

end ProgramHeader

/-- One round of the loop over the program headers; `false` is `return -1`. -/
def loadSegment (read : ReadFile) (ph : ProgramHeader) (s : Image) : Bool × Image :=
  if ph.type ≠ P_LOAD then (true, s)
  else
    let area := s.machine.pmm.alloc s.machine.mem ph.pageNumber
    if area.1 = 0 then (false, { s with machine := ⟨area.2.2, area.2.1⟩ })
    else match read ph.offset ph.filesz with
    | none =>
        (false, { s with machine := ⟨area.2.2, area.2.1.free area.1 ph.pageNumber⟩ })
    | some bytes =>
        let mem := Tmpfs.copyIn area.2.2 (area.1 + ph.alignment) bytes ph.filesz
        let r := Vmm.mapRange Vmm.allocFrame ⟨mem, area.2.1⟩ s.pagemap ph.vaddr area.1
          (ph.pageNumber * PAGE_SIZE % 2 ^ 64) ph.prot 0
        (true, ⟨r.1, r.2, s.areas ++ [(area.1, ph.pageNumber)]⟩)

/-- The first `n` rounds. -/
def loadSegments (read : ReadFile) (table : ByteMem) : Nat → Image → Bool × Image
  | 0, s => (true, s)
  | n + 1, s =>
      let r := loadSegments read table n s
      if r.1 then loadSegment read (.ofBytes table n) r.2 else r

/-- What the identification is compared with: class, byte order and ABI, and, at the
address `ident[1]`, anything but `"ELF"`, since equal strings make `strncmp` true. -/
def ElfHeader.Accepted (low : ByteMem) (start : ElfHeader) : Prop :=
  start.ident 0 = 0x7F ∧
    ¬(low (start.ident 1).toNat = 69 ∧ low ((start.ident 1).toNat + 1) = 76 ∧
      low ((start.ident 1).toNat + 2) = 70) ∧
    start.ident 4 = 2 ∧ start.ident 5 = 1 ∧ start.ident 7 = 0

instance (low : ByteMem) (start : ElfHeader) : Decidable (start.Accepted low) :=
  inferInstanceAs (Decidable (_ ∧ _))

/-- `Loader::Elf::load`: the entry point, or -1. -/
def load (low : ByteMem) (read : ReadFile) (s : Image) : Option Nat × Image :=
  match read 0 ElfHeader.size with
  | none => (none, s)
  | some bytes =>
      let start := ElfHeader.ofBytes bytes
      if start.Accepted low then
        match read start.phoff (ProgramHeader.size * start.phCount) with
        | none => (none, s)
        | some table =>
            let r := loadSegments read table start.phCount s
            (if r.1 then some start.entry else none, r.2)
      else (none, s)

/-! ## The stack -/

/-- The stack of a user process in `create_process`. -/
def mapStack (s : Image) : Image :=
  let stack := s.machine.pmm.alloc s.machine.mem (USER_STACK_SIZE / PAGE_SIZE)
  let r := Vmm.mapRange Vmm.allocFrame ⟨stack.2.2, stack.2.1⟩ s.pagemap USER_STACK stack.1
    USER_STACK_SIZE 0b111 0
  ⟨r.1, r.2, s.areas ++ [(stack.1, USER_STACK_SIZE / PAGE_SIZE)]⟩

/-- `create_program` up to the return of `create_process`: what `load` returned, and the
image of the process, which is made in either case. -/
def createProcess (low : ByteMem) (read : ReadFile) (k : Machine Pmm) (kernelPml4 : Nat) :
    Option Nat × Image :=
  let new := Vmm.new Vmm.allocFrame k kernelPml4
  let l := load low read ⟨new.1, new.2, []⟩
  (l.1, mapStack l.2)

/-- `*(--rsp) = w` for each word. -/
def pushWords (mem : ByteMem) (rsp : Nat) : List Nat → ByteMem
  | [] => mem
  | w :: words => pushWords (mem.write64 (rsp - 8) w) (rsp - 8) words

/-- The words `create_program` pushes: `argv[argc]` down to `argv[1]`, and `argc`.
`argv` is listed without its null at the end. -/
def argumentWords (argv : List Nat) : List Nat :=
  ((argv ++ [0]).drop 1).reverse ++ [argv.length]

/-- The rest of `create_program`: the arguments, if any, go to the stack. -/
def pushArguments (argv : Option (List Nat)) (k : Machine Pmm) (vm : Vmm) :
    Machine Pmm × Vmm :=
  let old := Vmm.virtualToPhysical Vmm.allocFrame k vm (USER_STACK + USER_STACK_SIZE)
  let mem := match argv with
    | none => old.2.1.mem
    | some argv => pushWords old.2.1.mem old.1 (argumentWords argv)
  ({ old.2.1 with mem }, old.2.2)

end Toystar.Loader

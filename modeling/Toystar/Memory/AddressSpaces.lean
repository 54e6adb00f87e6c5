import Toystar.Memory.Duplicate
import Toystar.Memory.FramesTaken
import Toystar.Memory.LiveFrames

/-!
# Address spaces

Any number of pagemaps over one frame allocator: `vmm(true)`, `map_range`,
`virtual_to_physical`, `duplicate` and `destroy` on each of them, allocations of
others, and the stores that programs make through their own pagemap.  What this
is for is said by `AbstractMemory`, in which no frame, no table and no entry
occurs: every pagemap is a byte memory of its own, a buffer becomes part of one
when it is mapped, and a copy has the bytes that its original had.
-/

namespace Toystar.Memory

open Toystar.Klibc
open Toystar.Verified

/-! ## What it is for -/

/-- `b` from the address `base` on, over `s`. -/
def Bytes.place (s : Bytes) (base : Nat) (b : Bytes) : Bytes := fun w =>
  if base ≤ w then (b (w - base)).or (s w) else s w

/-- What was mapped into a space, and what it has from the space it was copied from.
`duplicate` copies the first only. -/
structure AbstractSpace where
  recorded : Bytes
  inherited : Bytes

namespace AbstractSpace

def load (a : AbstractSpace) (w : Nat) : Option UInt8 := (a.recorded w).or (a.inherited w)

def store (w : Nat) (v : UInt8) (a : AbstractSpace) : AbstractSpace :=
  if (a.recorded w).isSome then { a with recorded := Function.update a.recorded w (some v) }
  else { a with inherited := Function.update a.inherited w (some v) }

/-- A buffer becomes part of the space. -/
def map (base : Nat) (b : Bytes) (a : AbstractSpace) : AbstractSpace :=
  { a with recorded := a.recorded.place base b }

end AbstractSpace

/-- Buffers that are not mapped, and spaces. -/
structure AbstractMemory where
  buffers : List Bytes
  spaces : List AbstractSpace

inductive SpaceOp
  | alloc (count : Nat)
  | free (b : Nat)
  | poke (b offset : Nat) (v : UInt8)
  | create
  | mapRange (i b base prot flags : Nat)
  | translate (i virt : Nat)
  | store (i virt : Nat) (v : UInt8)
  | fork (i : Nat)
  | destroy (i : Nat)
deriving DecidableEq

namespace AbstractMemory

def apply (m : AbstractMemory) : SpaceOp → AbstractMemory
  | .alloc count =>
      { m with buffers := (fun o => if o < count * PAGE_SIZE then some 0 else none) :: m.buffers }
  | .free b => { m with buffers := m.buffers.eraseIdx b }
  | .poke b offset v =>
      { m with buffers := m.buffers.modify b fun f => Function.update f offset (some v) }
  | .create => { m with spaces := m.spaces ++ [⟨fun _ => none, fun _ => none⟩] }
  | .mapRange i b base _ _ =>
      { buffers := m.buffers.eraseIdx b
        spaces := m.spaces.modify i (.map base ((m.buffers[b]?).getD fun _ => none)) }
  | .translate _ _ => m
  | .store i virt v => { m with spaces := m.spaces.modify i (.store virt v) }
  | .fork i =>
      { m with spaces := m.spaces ++
        [⟨fun _ => none, (m.spaces[i]?).elim (fun _ => none) AbstractSpace.recorded⟩] }
  | .destroy i => { m with spaces := m.spaces.eraseIdx i }

end AbstractMemory

/-! ## What the code does -/

/-- Pages from the address `base` on, and the frames behind them. -/
structure Area where
  base : Nat
  frames : Frames
deriving DecidableEq

namespace Area

def Covers (a : Area) (virt : Nat) : Prop :=
  a.base ≤ virt ∧ virt < a.base + a.frames.count * PAGE_SIZE

instance (a : Area) (virt : Nat) : Decidable (a.Covers virt) :=
  inferInstanceAs (Decidable (_ ∧ _))

/-- The addresses of its pages. -/
def pages (a : Area) : List Nat :=
  (List.range a.frames.count).map fun j => a.base + j * PAGE_SIZE

end Area

/-- A pagemap in use.  `recorded` is what lies behind its ranges, `inherited` the pages
that `duplicate` gave it, for which there is no range. -/
structure Space where
  vm : Vmm
  recorded : List Area
  inherited : List Area

/-- The frames of the tables. -/
def Vmm.tableFrames (vm : Vmm) : List Frames := (vm.pml4 :: vm.pageTablesAddr).map .one

namespace Space

def areas (sp : Space) : List Area := sp.recorded ++ sp.inherited

def Covers (sp : Space) (virt : Nat) : Prop := ∃ a ∈ sp.areas, a.Covers virt

instance (sp : Space) (virt : Nat) : Decidable (sp.Covers virt) :=
  inferInstanceAs (Decidable (∃ a ∈ sp.areas, _))

/-- The frames that are in use because of a pagemap: its tables and those behind its
pages. -/
def frames (sp : Space) : List Frames :=
  sp.vm.tableFrames ++ sp.areas.map (·.frames)

end Space

/-- The machine, the allocations that are not mapped, the pagemaps, and what was in use
because of those that were destroyed and was not given back.  `arrays` are the arrays of
the kernel's vectors. -/
structure Spaces where
  machine : Machine Pmm
  kernelPml4 : Nat
  arrays : Arrays MemArea
  buffers : List Frames
  spaces : List Space
  lost : List Frames

namespace Spaces

/-- Everything that is in use and was not at the start. -/
def live (s : Spaces) : List Frames :=
  s.buffers ++ s.spaces.flatMap Space.frames ++ s.lost

/-- A mapping of `f` at `base`: whole pages of the user half, apart from those of the
space, the page behind included, which `map_range` maps too. -/
def Fits (sp : Space) (f : Frames) (base prot : Nat) : Prop :=
  PAGE_SIZE ∣ base ∧ base + (f.count + 1) * PAGE_SIZE ≤ 2 ^ 47 ∧ prot % 2 = 1 ∧
    prot < PAGE_SIZE ∧ ∀ a ∈ sp.areas, base + (f.count + 1) * PAGE_SIZE ≤ a.base ∨
      a.base + a.frames.count * PAGE_SIZE ≤ base

instance (sp : Space) (f : Frames) (base prot : Nat) : Decidable (Fits sp f base prot) :=
  inferInstanceAs (Decidable (_ ∧ _ ∧ _ ∧ _ ∧ _))

/-- The pages of the copies that `duplicate` made of `areas`. -/
def copies (mem : ByteMem) (pml4 : Nat) (areas : List Area) : List Area :=
  (areas.flatMap Area.pages).map fun virt =>
    ⟨virt, .one ((Vmm.access mem pml4 virt).getD 0)⟩

/-- One operation.  Requests to the frame allocator are served. -/
def exec (s : Spaces) : SpaceOp → Option Spaces
  | .alloc count => do
      let r := s.machine.pmm.alloc s.machine.mem count
      guard (r.1 ≠ 0)
      return { s with machine := ⟨r.2.2, r.2.1⟩, buffers := ⟨r.1, count⟩ :: s.buffers }
  | .free b => do
      let f ← s.buffers[b]?
      return { s with
        machine := { s.machine with pmm := s.machine.pmm.free f.ptr f.count }
        buffers := s.buffers.eraseIdx b }
  | .poke b offset v => do
      let f ← s.buffers[b]?
      guard (offset < f.count * PAGE_SIZE)
      return { s with
        machine := { s.machine with mem := Function.update s.machine.mem (f.ptr + offset) v } }
  | .create => do
      let r := Vmm.new Vmm.allocFrame s.machine s.kernelPml4
      guard (r.2.pml4 ≠ 0)
      return { s with machine := r.1, spaces := s.spaces ++ [⟨r.2, [], []⟩] }
  | .mapRange i b base prot flags => do
      let sp ← s.spaces[i]?
      let f ← s.buffers[b]?
      guard (Fits sp f base prot)
      let r := Vmm.mapRange Vmm.allocFrame s.machine sp.vm base f.ptr (f.count * PAGE_SIZE)
        prot flags
      guard (0 ∉ r.2.pageTablesAddr)
      return { s with
        machine := r.1
        buffers := s.buffers.eraseIdx b
        spaces := s.spaces.set i { sp with vm := r.2, recorded := sp.recorded ++ [⟨base, f⟩] } }
  | .translate i virt => do
      let sp ← s.spaces[i]?
      guard (UserAddr virt)
      let r := Vmm.virtualToPhysical Vmm.allocFrame s.machine sp.vm virt
      guard (0 ∉ r.2.2.pageTablesAddr)
      return { s with machine := r.2.1, spaces := s.spaces.set i { sp with vm := r.2.2 } }
  | .store i virt v => do
      let sp ← s.spaces[i]?
      guard (sp.Covers virt)
      let phys ← Vmm.access s.machine.mem sp.vm.pml4 virt
      return { s with
        machine := { s.machine with mem := Function.update s.machine.mem phys v } }
  | .fork i => do
      let sp ← s.spaces[i]?
      guard (4 * (sp.recorded.map (·.frames.count)).sum + 1 ≤
        freeCells s.machine.pmm.bitmap.isBitSet s.machine.pmm.pages)
      let r ← Vmm.duplicate Vmm.allocFrame s.machine s.kernelPml4 sp.vm s.arrays
      return { s with
        machine := r.1
        arrays := r.2.2
        spaces := s.spaces ++ [⟨r.2.1, [], copies r.1.mem r.2.1.pml4 sp.recorded⟩] }
  | .destroy i => do
      let sp ← s.spaces[i]?
      return { s with
        machine := Vmm.destroy s.machine sp.vm
        spaces := s.spaces.eraseIdx i
        lost := .one sp.vm.pml4 :: sp.inherited.map (·.frames) ++ s.lost }

def Step (s : Spaces) (op : SpaceOp) (s' : Spaces) : Prop := s.exec op = some s'

/-- Before the first operation. -/
def boot (p₀ : Pmm) (mem₀ : ByteMem) (kernelPml4 : Nat) : Spaces :=
  ⟨⟨mem₀, p₀⟩, kernelPml4, [], [], [], []⟩

end Spaces

/-! ## What the bytes of a space are -/

namespace Space

/-- What the processor reads at the pages of some areas. -/
def bytes (mem : ByteMem) (pml4 : Nat) (areas : List Area) : Bytes := fun w =>
  if ∃ a ∈ areas, a.Covers w then (Vmm.access mem pml4 w).map mem else none

def view (mem : ByteMem) (sp : Space) : AbstractSpace :=
  ⟨bytes mem sp.vm.pml4 sp.recorded, bytes mem sp.vm.pml4 sp.inherited⟩

end Space

/-- The abstract memory behind a state. -/
def Spaces.view (s : Spaces) : AbstractMemory :=
  ⟨s.buffers.map (Frames.bytes s.machine.mem), s.spaces.map (Space.view s.machine.mem)⟩

end Toystar.Memory

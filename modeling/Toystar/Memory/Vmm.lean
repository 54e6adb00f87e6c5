import Toystar.Klibc.Vector
import Toystar.Memory.Pmm

/-!
# Pagemaps

The embedding of `kernel/memory/vmm.cpp`: four levels of tables with 512
entries of eight bytes, created on demand by `get_next_level`.  Table pointers
are direct-map addresses of frames below `2 ^ 47`, so they are written here as
physical addresses and the first test of `get_next_level`, which adds
`PHYSICAL_BASE_ADDRESS` to a pointer that lacks it, never fires.

The functions are written over an arbitrary `PMM::alloc(1)`, so that they can
be run both against the real frame allocator and against any allocator that
meets its contract.
-/

namespace Toystar.Memory

open Toystar.Klibc
open Toystar.Verified

/-- `PMM::alloc(1)`: the frame, the allocator afterwards, memory afterwards. -/
abbrev FrameAlloc (σ : Type) := σ → ByteMem → Nat × σ × ByteMem

/-- Memory and the frame allocator. -/
structure Machine (σ : Type) where
  mem : ByteMem
  pmm : σ

/-- `VMM::MemArea`. -/
structure MemArea where
  base : Nat
  limit : Nat
  prot : Nat
  flags : Nat
deriving DecidableEq, Repr

/-- `VMM::vmm`. -/
structure Vmm where
  pml4 : Nat
  ranges : List MemArea
  pageTablesAddr : List Nat
deriving DecidableEq, Repr

/-! ## Addresses and entries -/

def getPml4e (virt : Nat) : Nat := virt / 2 ^ 39 % 512

def getPdpe (virt : Nat) : Nat := virt / 2 ^ 30 % 512

def getPde (virt : Nat) : Nat := virt / 2 ^ 21 % 512

def getPte (virt : Nat) : Nat := virt / 2 ^ 12 % 512

/-- `0xfffffffffffff000`, the address part of an entry. -/
def frameMask : Nat := 0xfffffffffffff000

/-- `table[index]`. -/
def entryAt (mem : ByteMem) (table index : Nat) : Nat :=
  mem.read64 (table + 8 * index)

/-- `table[index] = v`. -/
def setEntry (mem : ByteMem) (table index v : Nat) : ByteMem :=
  mem.write64 (table + 8 * index) v

namespace Vmm

variable {σ : Type} (alloc : FrameAlloc σ)

/-- `vmm::vmm(bool)`: a zeroed table with the two kernel entries of the
kernel's pagemap. -/
def new (k : Machine σ) (kernelPml4 : Nat) : Machine σ × Vmm :=
  let (pml4, pmm, mem) := alloc k.pmm k.mem
  let mem := setEntry mem pml4 256 (entryAt mem kernelPml4 256)
  let mem := setEntry mem pml4 511 (entryAt mem kernelPml4 511)
  (⟨mem, pmm⟩, ⟨pml4, [], []⟩)

/-- `vmm::get_next_level`.  The presence test `!entry & 1` is `entry == 0`. -/
def getNextLevel (k : Machine σ) (vm : Vmm) (curr entry : Nat) :
    Nat × Machine σ × Vmm :=
  if entryAt k.mem curr entry = 0 then
    let (allocated, pmm, mem) := alloc k.pmm k.mem
    (allocated, ⟨setEntry mem curr entry (allocated ||| 0b111), pmm⟩,
      { vm with pageTablesAddr := vm.pageTablesAddr ++ [allocated] })
  else (entryAt k.mem curr entry &&& frameMask, k, vm)

/-- The three calls of `get_next_level` that lead to the page table of
`virt`: the table, and the machine and pagemap afterwards. -/
def walk (k : Machine σ) (vm : Vmm) (virt : Nat) : Nat × Machine σ × Vmm :=
  let pdp := getNextLevel alloc k vm vm.pml4 (getPml4e virt)
  let pd := getNextLevel alloc pdp.2.1 pdp.2.2 pdp.1 (getPdpe virt)
  getNextLevel alloc pd.2.1 pd.2.2 pd.1 (getPde virt)

/-- `vmm::map_page`. -/
def mapPage (k : Machine σ) (vm : Vmm) (virt phys flags : Nat) :
    Machine σ × Vmm :=
  let pt := walk alloc k vm virt
  ({ pt.2.1 with mem := setEntry pt.2.1.mem pt.1 (getPte virt) (phys ||| flags) },
    pt.2.2)

/-- The first `n` rounds of the loop of `vmm::map_range_raw`. -/
def mapPages (virt phys prot : Nat) : Nat → Machine σ × Vmm → Machine σ × Vmm
  | 0, s => s
  | n + 1, s =>
      let s := mapPages virt phys prot n s
      mapPage alloc s.1 s.2 ((virt + n * PAGE_SIZE) % 2 ^ 64)
        ((phys + n * PAGE_SIZE) % 2 ^ 64) (prot % 2 ^ 16)

/-- `vmm::map_range_raw`: `i` runs up to and including `length`. -/
def mapRangeRaw (k : Machine σ) (vm : Vmm) (virt phys length prot : Nat) :
    Machine σ × Vmm :=
  mapPages alloc virt phys prot (length / PAGE_SIZE + 1) (k, vm)

/-- `vmm::unmap_page`, without the TLB shootdown. -/
def unmapPage (k : Machine σ) (vm : Vmm) (virt : Nat) : Machine σ × Vmm :=
  mapPage alloc k vm virt 0 0

/-- The first `n` rounds of the loop of `vmm::unmap_range_raw`. -/
def unmapPages (virt : Nat) : Nat → Machine σ × Vmm → Machine σ × Vmm
  | 0, s => s
  | n + 1, s =>
      let s := unmapPages virt n s
      unmapPage alloc s.1 s.2 ((virt + n * PAGE_SIZE) % 2 ^ 64)

/-- `vmm::unmap_range_raw`: `i` runs up to and including `length`. -/
def unmapRangeRaw (k : Machine σ) (vm : Vmm) (virt length : Nat) : Machine σ × Vmm :=
  unmapPages alloc virt (length / PAGE_SIZE + 1) (k, vm)

/-- `vmm::virtual_to_physical`. -/
def virtualToPhysical (k : Machine σ) (vm : Vmm) (virt : Nat) :
    Nat × Machine σ × Vmm :=
  let pt := walk alloc k vm virt
  (entryAt pt.2.1.mem pt.1 (getPte virt) &&& frameMask, pt.2)

/-- `vmm::map_range`. -/
def mapRange (k : Machine σ) (vm : Vmm) (virt phys length prot flags : Nat) :
    Machine σ × Vmm :=
  mapRangeRaw alloc k
    { vm with ranges := vm.ranges ++ [⟨virt, length, prot, flags⟩] }
    virt phys length prot

/-! ## Copying a pagemap -/

/-- The frame of a present entry. -/
def presentAt (mem : ByteMem) (table index : Nat) : Option Nat :=
  if entryAt mem table index % 2 = 1 then
    some (entryAt mem table index / PAGE_SIZE % 2 ^ 40 * PAGE_SIZE)
  else none

/-- Bits 47 to 63 of an address agree. -/
def Canonical (virt : Nat) : Prop :=
  virt < 2 ^ 47 ∨ (2 ^ 64 - 2 ^ 47 ≤ virt ∧ virt < 2 ^ 64)

instance (virt : Nat) : Decidable (Canonical virt) :=
  inferInstanceAs (Decidable (_ ∨ _))

/-- The physical address the processor accesses at `virt` when the pagemap at `pml4` is
active; `none` is a fault.  Every page below an entry that `get_next_level` made has
4096 bytes. -/
def access (mem : ByteMem) (pml4 virt : Nat) : Option Nat :=
  if Canonical virt then do
    let pdp ← presentAt mem pml4 (getPml4e virt)
    let pd ← presentAt mem pdp (getPdpe virt)
    let pt ← presentAt mem pd (getPde virt)
    let frame ← presentAt mem pt (getPte virt)
    return frame + virt % PAGE_SIZE
  else none

/-- The first `n` rounds of `memcpy8` from the virtual address `src` to the frame
`dest`. -/
def memcpy8 (pml4 dest src : Nat) : Nat → ByteMem → Option ByteMem
  | 0, mem => some mem
  | n + 1, mem => do
      let mem ← memcpy8 pml4 dest src n mem
      let phys ← access mem pml4 (src + 8 * n)
      return mem.write64 (dest + 8 * n) (mem.read64 phys)

/-- `page_amount`: `DIV_CEIL(limit, PAGE_SIZE)` on a `size_t`. -/
def pageAmount (limit : Nat) : Nat := (limit + PAGE_SIZE - 1) % 2 ^ 64 / PAGE_SIZE

/-- The inner loop's body: the page at `src` of the active pagemap `p` is copied for the
new pagemap. -/
def copyPage (p : Vmm) (src prot : Nat) (s : Machine σ × Vmm) :
    Option (Machine σ × Vmm) := do
  let addr := alloc s.1.pmm s.1.mem
  let mem ← memcpy8 p.pml4 addr.1 src (PAGE_SIZE / 8) addr.2.2
  return mapPage alloc ⟨mem, addr.2.1⟩ s.2 src addr.1 (prot % 2 ^ 16)

/-- The first `n` rounds of the inner loop of `vmm::duplicate`. -/
def copyPages (p : Vmm) (base prot : Nat) :
    Nat → Machine σ × Vmm → Option (Machine σ × Vmm)
  | 0, s => some s
  | n + 1, s => do
      copyPage alloc p ((base + n * PAGE_SIZE) % 2 ^ 64) prot
        (← copyPages p base prot n s)

/-- The outer loop's body.  `mRanges` is the new pagemap's vector, which `get_ranges`
returns by value. -/
def copyRange (p : Vmm) (mRanges : ToysVector)
    (s : (Machine σ × Vmm) × Arrays MemArea) (range : MemArea) :
    Option ((Machine σ × Vmm) × Arrays MemArea) := do
  let new ← copyPages alloc p (range.base &&& frameMask) range.prot
    (pageAmount range.limit) s.1
  let heap ← (mRanges.pushBackTemporary s.2 range).toOption
  return (new, heap)

/-- `vmm::duplicate` with `p` active; `none` is a fault. -/
def duplicate (k : Machine σ) (kernelPml4 : Nat) (p : Vmm) (heap : Arrays MemArea) :
    Option (Machine σ × Vmm × Arrays MemArea) := do
  let mRanges := ToysVector.new
  let ((k, vm), heap) ← p.ranges.foldlM (copyRange alloc p mRanges)
    (new alloc k kernelPml4, heap)
  return (k, { vm with ranges := mRanges.elements heap }, heap)

/-! ## Destroying a pagemap -/

/-- `PMM::alloc(1)` of the frame allocator. -/
def allocFrame : FrameAlloc Pmm := fun pmm mem => pmm.alloc mem 1

/-- The first loop's body of `vmm::destroy`. -/
def freeRange (s : Machine Pmm × Vmm) (range : MemArea) : Machine Pmm × Vmm :=
  let r := virtualToPhysical allocFrame s.1 s.2 range.base
  ({ r.2.1 with pmm := r.2.1.pmm.free r.1 (pageAmount range.limit) }, r.2.2)

/-- `vmm::destroy`.  The destructor passes `m_pml4`, a frame, to the kernel heap's
`delete`, which does nothing to the frame allocator. -/
def destroy (k : Machine Pmm) (vm : Vmm) : Machine Pmm :=
  let s := vm.ranges.foldl freeRange (k, vm)
  { s.1 with pmm := s.2.pageTablesAddr.foldl (fun pmm table => pmm.free table 1) s.1.pmm }

end Vmm

end Toystar.Memory

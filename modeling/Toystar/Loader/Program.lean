import Toystar.Loader.Bounds
import Toystar.Scheduler.Pids

/-!
# Processes and their memory

`create_process`, `create_program` and `syscall_fork` of `kernel/scheduler/scheduler.cpp`
over the scheduler and the machine together: the pages of the stack, the pagemap and the
tables come from the frame allocator, the ids from their bitmaps.

`create_program` looks at none of what the calls it makes return, but the descriptor: the
`-1` of `load` becomes the program counter, and the process that `create_process` could not
make is dereferenced.
-/

namespace Toystar.Loader

open Toystar.Fs
open Toystar.Kernel
open Toystar.Klibc
open Toystar.Memory
open Toystar.Scheduler
open Toystar.Verified

variable {κ : Type}

/-- The scheduler, its lists and bitmaps, and the machine. -/
structure KernelState (κ : Type) where
  procs : ProcessState κ
  machine : Machine Pmm

/-- What `Vfs::open` found: how the file is read, and its directory. -/
structure OpenedFile where
  read : ReadFile
  parent : Nat

/-- The stack in `create_process`, which a user process gets mapped: its address, and the
machine and the pagemap afterwards. -/
def allocStack (k : Machine Pmm) (vm : Vmm) (cs : UInt64) : Nat × Machine Pmm × Vmm :=
  let stack := k.pmm.alloc k.mem (USER_STACK_SIZE / PAGE_SIZE)
  if cs &&& 0x3 ≠ 0 then
    (stack.1, Vmm.mapRange Vmm.allocFrame ⟨stack.2.2, stack.2.1⟩ vm USER_STACK stack.1
      USER_STACK_SIZE 0b111 0)
  else (stack.1, ⟨stack.2.2, stack.2.1⟩, vm)

theorem allocStack_fst (k : Machine Pmm) (vm : Vmm) (cs : UInt64) :
    (allocStack k vm cs).1 = (k.pmm.alloc k.mem (USER_STACK_SIZE / PAGE_SIZE)).1 := by
  unfold allocStack
  dsimp only
  split <;> rfl

/-- The value of `rip` after `load`: the entry point, or -1. -/
def ripOf (entry : Option Nat) : UInt64 := UInt64.ofNat (entry.getD (2 ^ 64 - 1))

/-! ## The first registers -/

variable {cs : UInt64}

theorem rip_initialRegs (rip cs : UInt64) (stack : Nat) :
    (initialRegs rip cs stack).rip = rip := by
  unfold initialRegs
  split <;> rfl

theorem rsp_initialRegs_user (hcs : cs &&& 0x3 ≠ 0) (rip : UInt64) (stack : Nat) :
    (initialRegs rip cs stack).rsp = UInt64.ofNat (USER_STACK + USER_STACK_SIZE) := by
  unfold initialRegs
  rw [if_pos hcs]

theorem rsp_initialRegs_kernel (hcs : cs &&& 0x3 = 0) (rip : UInt64) (stack : Nat) :
    (initialRegs rip cs stack).rsp.toNat = directMap stack % 2 ^ 64 := by
  unfold initialRegs
  rw [if_neg (not_not.mpr hcs)]
  exact UInt64.toNat_ofNat'

/-! ## The calls -/

namespace KernelState

/-- `Sched::create_process` with pagemap `vm`, at the address `pagemap`. -/
def createProcess (s : KernelState κ) (new : NewObjects) (rip cs : UInt64)
    (pagemap : Nat) (vm : Vmm) (dir : Nat) : Option Nat × KernelState κ × Vmm :=
  let stack := allocStack s.machine vm cs
  let r := s.procs.createProcess { new with stack := stack.1 } rip cs pagemap dir
  (r.1, ⟨r.2, stack.2.1⟩, stack.2.2)

/-- The pagemap that `create_program` makes, and the machine with it. -/
def newImage (s : KernelState κ) (kernelPml4 : Nat) : Image :=
  let vm := Vmm.new Vmm.allocFrame s.machine kernelPml4
  ⟨vm.1, vm.2, []⟩

/-- `Sched::create_program`.  `fd` is what `Vfs::open` returned for the path, and `argv` is
listed without its null at the end. -/
def createProgram (low : ByteMem) (kernelPml4 : Nat) (s : KernelState κ) (new : NewObjects)
    (pagemap : Nat) (fd : Option OpenedFile) (argv : Option (List Nat)) :
    Except Fault (Option (Nat × Vmm) × KernelState κ) :=
  match fd with
  | none => .ok (none, s)
  | some fd =>
      let l := load low fd.read (s.newImage kernelPml4)
      let s := { s with machine := l.2.machine }
      match s.createProcess new (ripOf l.1) 0x1b pagemap l.2.pagemap fd.parent with
      | (none, _, _) => .error .nullDeref
      | (some p, s, vm) => do
          let th ← s.procs.sched.thread new.thread
          let old := Vmm.virtualToPhysical Vmm.allocFrame s.machine vm th.regs.rsp.toNat
          match argv with
          | none => return (some (p, old.2.2), { s with machine := old.2.1 })
          | some argv =>
              let words := argumentWords argv
              let regs := { th.regs with
                rsp := th.regs.rsp - UInt64.ofNat (8 * words.length) }
              let sched := s.procs.sched.setThread new.thread { th with regs := regs }
              return (some (p, old.2.2),
                { procs := { s.procs with sched := sched }
                  machine := { old.2.1 with mem := pushWords old.2.1.mem old.1 words } })

/-- `syscall_fork` on core `c`, of the process with pagemap `p`: the value of `rax` and the
pagemap of the child; `none` is a fault. -/
def fork (kernelPml4 : Nat) (s : KernelState κ) (c : κ) (regs : Context) (new : NewObjects)
    (pagemap : Nat) (p : Vmm) (heap : Arrays MemArea) (fdList : List Nat) :
    Option (UInt64 × Vmm × KernelState κ) := do
  let copy ← Vmm.duplicate Vmm.allocFrame s.machine kernelPml4 p heap
  let r ← (s.procs.fork c regs new pagemap fdList).toOption
  return (r.1, copy.2.1, ⟨r.2, copy.1⟩)

variable {s : KernelState κ}

/-- The ids a process and its thread need. -/
def IdsLeft (s : KernelState κ) : Prop :=
  s.procs.pidBitmap.allocate.1 ≠ none ∧ s.procs.tidBitmap.allocate.1 ≠ none

/-- With both ids left the process is made, with the thread that was asked for. -/
theorem createProcess_of_idsLeft (h : s.IdsLeft) (new : NewObjects) (rip cs : UInt64)
    (pagemap : Nat) (vm : Vmm) (dir : Nat) :
    ∃ procs th, s.createProcess new rip cs pagemap vm dir =
        (some new.process, ⟨procs, (allocStack s.machine vm cs).2.1⟩,
          (allocStack s.machine vm cs).2.2) ∧
      procs.processList = s.procs.processList ++ [new.process] ∧
      procs.sched.threads new.thread = some th ∧
      th.regs = initialRegs rip cs (allocStack s.machine vm cs).1 := by
  obtain ⟨pid, hpid⟩ := Option.ne_none_iff_exists'.mp h.1
  obtain ⟨tid, htid⟩ := Option.ne_none_iff_exists'.mp h.2
  unfold createProcess ProcessState.createProcess ProcessState.getNewTid
    ProcessState.getNewPid
  simp only [hpid, htid]
  exact ⟨_, _, rfl, rfl, update_eq_some.mpr (.inl ⟨rfl, rfl⟩), rfl⟩

/-- Otherwise it returns null. -/
theorem createProcess_of_not_idsLeft (h : ¬s.IdsLeft) (new : NewObjects) (rip cs : UInt64)
    (pagemap : Nat) (vm : Vmm) (dir : Nat) :
    (s.createProcess new rip cs pagemap vm dir).1 = none := by
  unfold createProcess ProcessState.createProcess ProcessState.getNewTid
    ProcessState.getNewPid
  dsimp only
  split
  · rename_i hpid htid
    exact absurd ⟨by simp [hpid], by simp [htid]⟩ h
  · rfl

end KernelState

end Toystar.Loader

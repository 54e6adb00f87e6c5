import Toystar.Scheduler.Exit
import Toystar.Scheduler.Tick

/-!
# Making and ending processes

`create_process`, `create_program`, `exit_process`, `syscall_fork` and
`syscall_execve` of `kernel/scheduler/scheduler.cpp`, each as one uninterrupted
call on any number of cores.  What the heap, the frame allocator, the loader
and the file layer return is an argument; pagemaps and descriptors are
pointers here.
-/

namespace Toystar.Scheduler

open Toystar.Kernel
open Toystar.Klibc
open Toystar.Verified

/-- `USER_STACK`. -/
def USER_STACK : Nat := 0x800000000

/-- `USER_STACK_SIZE`. -/
def USER_STACK_SIZE : Nat := 4096 * 8

/-- The scheduler, `process_list` and the bitmaps of the ids. -/
structure ProcessState (κ : Type) where
  sched : Sched κ
  processList : List Nat
  pidBitmap : Bitmap
  tidBitmap : Bitmap

/-- What a creator got before it takes the ids: two objects of the heap, the
frames of the stack, and three descriptors of `/dev/tty0`. -/
structure NewObjects where
  process : Nat
  thread : Nat
  stack : Nat
  stdin : Nat
  stdout : Nat
  stderr : Nat
deriving DecidableEq

/-- What `create_program` got from the file: the entry point, the pagemap with
its segments, and the directory of the file. -/
structure ProgramFile where
  rip : UInt64
  pagemap : Nat
  dir : Nat
deriving DecidableEq

/-- The registers of a new thread: a user stack is mapped at `USER_STACK`, a
kernel stack is used through the direct map. -/
def initialRegs (rip cs : UInt64) (stack : Nat) : Context :=
  if cs &&& 0x3 ≠ 0 then
    { (default : Context) with
      rsp := UInt64.ofNat (USER_STACK + USER_STACK_SIZE)
      ss := 0x20 ||| 0x3
      rip := rip
      rflags := 0x202
      cs := cs }
  else
    { (default : Context) with
      rsp := UInt64.ofNat (stack + 0xffff800000000000)
      ss := 0x10
      rip := rip
      rflags := 0x202
      cs := cs }

namespace ProcessState

variable {κ : Type}

/-- `get_new_pid`. -/
def getNewPid (s : ProcessState κ) : Option Nat × ProcessState κ :=
  (s.pidBitmap.allocate.1, { s with pidBitmap := s.pidBitmap.allocate.2 })

/-- `get_new_tid`. -/
def getNewTid (s : ProcessState κ) : Option Nat × ProcessState κ :=
  (s.tidBitmap.allocate.1, { s with tidBitmap := s.tidBitmap.allocate.2 })

/-- `Sched::create_process`.  Both ids are taken before either is checked, and
the objects of a failed call are on no list. -/
def createProcess (s : ProcessState κ) (new : NewObjects) (rip cs : UInt64)
    (pagemap dir : Nat) : Option Nat × ProcessState κ :=
  let newPid := s.getNewPid
  let newTid := newPid.2.getNewTid
  let s := newTid.2
  match newPid.1, newTid.1 with
  | some pid, some tid =>
      let pr : Process := ⟨pid, .waiting, dir, [new.thread],
        [new.stdin, new.stdout, new.stderr], pagemap⟩
      let th : Thread := ⟨tid, .waiting, new.process, initialRegs rip cs new.stack⟩
      (some new.process, { s with
        sched := (s.sched.setThread new.thread th).setProc new.process pr
        processList := s.processList ++ [new.process] })
  | _, _ => (none, s)

/-- `Sched::create_program`.  `file` is `none` when the path does not open; `argc`
is the number of arguments, or `none` for a null `argv`.  A process that could
not be made is dereferenced. -/
def createProgram (s : ProcessState κ) (new : NewObjects) (file : Option ProgramFile)
    (argc : Option Nat) : Except Fault (Option Nat × ProcessState κ) :=
  match file with
  | none => .ok (none, s)
  | some f =>
      match s.createProcess new f.rip 0x1b f.pagemap f.dir with
      | (none, _) => .error .nullDeref
      | (some p, s) =>
          match argc with
          | none => .ok (some p, s)
          | some n => do
              let th ← s.sched.thread new.thread
              let regs := { th.regs with rsp := th.regs.rsp - UInt64.ofNat (8 * (n + 1)) }
              return (some p,
                { s with sched := s.sched.setThread new.thread { th with regs := regs } })

/-! ## `exit_process` -/

/-- Clear the bit of a thread and delete it with its registers. -/
def deleteThread (s : ProcessState κ) (t : Nat) (th : Thread) : ProcessState κ :=
  { s with
    tidBitmap := s.tidBitmap.clearBit th.tid
    sched := { s.sched with threads := Function.update s.sched.threads t none } }

/-- The body of the loop over the threads.  A thread that another core runs is
waited for, and in an uninterrupted call no other core moves. -/
def freeThread (s : ProcessState κ) (c : κ) (t : Nat) :
    Except Fault (ProcessState κ) := do
  let th ← s.sched.thread t
  match (s.sched.core c).runningThread with
  | none => .error .nullDeref
  | some r => do
      let current ← s.sched.thread r
      if th.tid = current.tid then return s.deleteThread t th
      else if th.status = .running then .error .spin
      else
        let waiting ← eraseLoop
          (fun u => do return decide ((← s.sched.thread u).tid = th.tid))
          s.sched.waitingQueue
        return { s with
          sched := { s.sched with waitingQueue := waiting } }.deleteThread t th

/-- The loop over the threads of the process. -/
def freeThreads (c : κ) : List Nat → ProcessState κ → Except Fault (ProcessState κ)
  | [], s => .ok s
  | t :: ts, s => do
      let s ← s.freeThread c t
      freeThreads c ts s

/-- `Sched::exit_process` on core `c`. -/
def exitProcess [DecidableEq κ] (s : ProcessState κ) (c : κ) :
    Except Fault (ProcessState κ) :=
  match (s.sched.core c).runningProcess with
  | none => .error .nullDeref
  | some p => do
      let pr ← s.sched.proc p
      let list ← eraseLoop
        (fun q => do return decide ((← s.sched.proc q).pid = pr.pid)) s.processList
      let s ← freeThreads c pr.threads { s with processList := list }
      let core := { s.sched.core c with runningThread := none, runningProcess := none }
      return { s with
        pidBitmap := s.pidBitmap.clearBit pr.pid
        sched := { s.sched with
          procs := Function.update s.sched.procs p none
          core := Function.update s.sched.core c core } }

/-! ## The syscalls -/

/-- `syscall_fork` on core `c`: the value of `rax`, and the state.  The pid is not
checked, so `-1` becomes the pid of the child. -/
def fork (s : ProcessState κ) (c : κ) (regs : Context) (new : NewObjects)
    (pagemap : Nat) (fdList : List Nat) : Except Fault (UInt64 × ProcessState κ) :=
  match (s.sched.core c).runningProcess with
  | none => .error .nullDeref
  | some p => do
      let parent ← s.sched.proc p
      let newPid := s.getNewPid
      let s := newPid.2
      let child : Process := ⟨newPid.1.getD (2 ^ 64 - 1), .waiting,
        parent.processDirectory, [], fdList, pagemap⟩
      let s := { s with
        sched := s.sched.setProc new.process child
        processList := s.processList ++ [new.process] }
      let newTid := s.getNewTid
      let s := newTid.2
      match newTid.1 with
      | none => return (0 - 1, s)
      | some tid =>
          let th : Thread := ⟨tid, .waiting, new.process, { regs with rax := 0 }⟩
          let sched := (s.sched.setThread new.thread th).setProc new.process
            { child with threads := [new.thread] }
          return (UInt64.ofNat child.pid, { s with sched := sched.queue new.thread })

/-- `syscall_execve` on core `c`: `rax` when the call returns, which it does only on
failure.  The new process gets the pid of the old one, and then the old one
exits. -/
def execve [DecidableEq κ] (s : ProcessState κ) (c : κ) (new : NewObjects)
    (file : Option ProgramFile) (argc : Option Nat) :
    Except Fault (Option UInt64 × ProcessState κ) :=
  match (s.sched.core c).runningProcess with
  | none => .error .nullDeref
  | some p => do
      let pr ← s.sched.proc p
      let program ← s.createProgram new file argc
      let s := program.2
      match program.1 with
      | none => return (some (0 - 1), s)
      | some q => do
          let start ← s.sched.proc q
          let s := { s with sched := s.sched.setProc q { start with pid := pr.pid } }
          match start.threads with
          | [] => .error .outOfBounds
          | t :: _ => do
              let s ← { s with sched := s.sched.queue t }.exitProcess c
              return (none, s)

end ProcessState

end Toystar.Scheduler

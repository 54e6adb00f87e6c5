import Toystar.Kernel.Lock
import Toystar.Verified.Run

/-!
# Locks under interrupts

`sched_lock` and `heap_lock` are spin locks that do not mask interrupts.  A
kernel call is modelled by the sequence of its lock operations, `KernelCall.ops`,
and runs with interrupts enabled; the timer handler is the sequence that
`reschedule` performs, with interrupts disabled on its core.  Every core moves
one operation at a time and in any order with the others.

How many blocks a call allocates and deletes depends on data outside this
model, so those numbers are arguments of the call; `kmalloc` that finds no block
returns without releasing `heap_lock`.  The other locks (`pid_lock`, `tid_lock`,
`pmm_lock`, `vfs_lock`) are not taken by the handler.
-/

namespace Toystar.Scheduler

open Toystar.Verified

/-! ## Operations -/

inductive LockName
  | sched
  | heap
deriving DecidableEq, Repr

/-- One step of a context on a lock. -/
inductive LockOp
  /-- `Lock::acquire` -/
  | acquire (l : LockName)
  /-- `Lock::release` -/
  | release (l : LockName)
  /-- the end of `kmalloc`: a block was found and `heap_lock` is released, or
  none was and it is kept -/
  | take
deriving DecidableEq, Repr

/-- A call of the heap allocator. -/
inductive HeapCall
  /-- `new`: `kmalloc` -/
  | new
  /-- `delete`: `kfree` -/
  | delete
deriving DecidableEq, Repr

def HeapCall.ops : HeapCall → List LockOp
  | .new => [.acquire .heap, .take]
  | .delete => [.acquire .heap, .release .heap]

def heapOps (calls : List HeapCall) : List LockOp := calls.flatMap HeapCall.ops

/-- The allocator calls of `vector::resize` from `size` to `elementAmount`. -/
def resizeCalls (size elementAmount : Nat) : List HeapCall :=
  if elementAmount = size then []
  else if elementAmount = 0 then [.delete]
  else if size = 0 then [.new]
  else [.new, .delete]

/-- `vector::push_back`. -/
def pushBackCalls (size : Nat) : List HeapCall := resizeCalls size (size + 1)

/-- `queue::pop` of a queue that is not empty: `vector::erase`, then the
`optional` that carries the value is made and destroyed. -/
def popCalls (size : Nat) : List HeapCall :=
  resizeCalls size (size - 1) ++ [.new, .delete]

/-- What a kernel call does, as far as locks and the queue are concerned. -/
inductive CallOp
  | lock (op : LockOp)
  /-- `waiting_queue.push` of a new thread is called -/
  | push (t : Nat)
  /-- the new thread is stored -/
  | store (t : Nat)
  /-- `running_thread = nullptr` -/
  | leave
deriving DecidableEq

/-- What the timer handler does. -/
inductive HandlerOp
  | lock (op : LockOp)
  /-- the next thread is taken from the queue -/
  | pick
  /-- `waiting_queue.push` of the previous thread is called -/
  | push (t : Nat)
  /-- the previous thread is stored -/
  | store (t : Nat)
  /-- the core is filled in and `context_switch` loads the thread -/
  | switchTo (t : Nat)
deriving DecidableEq

/-! ## Kernel calls -/

/-- The syscalls of `syscall_list`, and the calls the first kernel thread makes.
The arguments are the allocator calls at each place. -/
inductive KernelCall
  | getpid
  | gettid
  | print
  | read
  | write
  | openFile (calls : List HeapCall)
  | close (bound : Bool)
  /-- `child` is none when no tid is left -/
  | fork (before : List HeapCall) (processes : Nat) (copy : List HeapCall)
      (child : Option Nat)
  /-- `handshakes`: for each thread on another core the lock is released and
  taken again -/
  | exit (erase : List HeapCall) (handshakes : List (List HeapCall))
      (after : List HeapCall)
  | createProgram (before : List HeapCall) (processes : Nat) (after : List HeapCall)
  | queue (t : Nat)
deriving DecidableEq

def heapCode (calls : List HeapCall) : List CallOp := (heapOps calls).map .lock

/-- A section under `sched_lock`. -/
def schedSection (body : List CallOp) : List CallOp :=
  .lock (.acquire .sched) :: (body ++ [.lock (.release .sched)])

def KernelCall.ops : KernelCall → List CallOp
  | .getpid | .gettid | .print | .read | .write => []
  | .openFile calls => heapCode calls
  | .close bound => if bound then heapCode [.delete] else []
  | .fork before processes copy child =>
      heapCode before ++ schedSection (heapCode (pushBackCalls processes)) ++
        heapCode copy ++ (match child with
          | none => []
          | some t => schedSection [.push t])
  | .exit erase handshakes after =>
      (erase :: handshakes).flatMap (fun calls => schedSection (heapCode calls)) ++
        heapCode after ++ [.leave]
  | .createProgram before processes after =>
      heapCode before ++ schedSection (heapCode (pushBackCalls processes)) ++
        heapCode after
  | .queue t => schedSection [.push t]

/-! ## Cores -/

/-- Who holds a lock. -/
inductive Owner (κ : Type)
  | thread (t : Nat)
  | handler (c : κ)
deriving DecidableEq

/-- `context` is the thread whose code a core executes, or interrupted; it stays
when the thread gave up `running` in `exit_process` and hangs.  `code` is what a
thread has left of its kernel call, `handler` what a core has left of its timer
handler; it is empty outside the handler. -/
structure LockState (κ : Type) where
  owner : LockName → Option (Owner κ)
  waitingQueue : List Nat
  running : κ → Option Nat
  context : κ → Option Nat
  code : Nat → List CallOp
  handler : κ → List HandlerOp

variable {κ : Type}

/-- The owners after an operation of `who`, or nothing while it spins. -/
def LockOp.exec (owner : LockName → Option (Owner κ)) (who : Owner κ) (found : Bool) :
    LockOp → Option (LockName → Option (Owner κ))
  | .acquire l =>
      if owner l = none then some (Function.update owner l (some who)) else none
  | .release l => some (Function.update owner l none)
  | .take => some (if found then Function.update owner .heap none else owner)

/-- What the handler does once it holds `sched_lock`. -/
def pickOps (s : LockState κ) (c : κ) : Option (List Nat × List HandlerOp) :=
  match s.waitingQueue, s.running c with
  | t :: rest, previous =>
      some (rest, (heapOps (popCalls (rest.length + 1))).map .lock ++
        (match previous with
          | none => []
          | some r => if r = t then [] else [.push r]) ++
        [.lock (.release .sched), .switchTo t])
  | [], some r => some ([], [.lock (.release .sched), .switchTo r])
  -- the null `running_thread` is read
  | [], none => none

inductive LockEvent (κ : Type)
  /-- the thread on a core makes a kernel call -/
  | call (c : κ) (k : KernelCall)
  /-- a kernel call goes on; `found` is what `kmalloc` finds -/
  | step (c : κ) (found : Bool)
  /-- the timer interrupts a core -/
  | tick (c : κ)
  /-- the handler goes on -/
  | handle (c : κ) (found : Bool)

namespace LockState

variable [DecidableEq κ]

/-- `t` is a new thread: no core, no queue and no lock knows it. -/
def Fresh (s : LockState κ) (t : Nat) : Prop :=
  t ∉ s.waitingQueue ∧ (∀ c, s.context c ≠ some t) ∧
    (∀ c, .switchTo t ∉ s.handler c) ∧ ∀ l, s.owner l ≠ some (.thread t)

/-- One operation of the kernel call of thread `t` on core `c`. -/
def stepCode (s : LockState κ) (c : κ) (t : Nat) (found : Bool) :
    List CallOp → Option (LockState κ)
  | [] => none
  | .lock op :: rest => do
      let owner ← op.exec s.owner (.thread t) found
      return { s with owner, code := Function.update s.code t rest }
  | .push u :: rest =>
      some { s with
        code := Function.update s.code t
          (heapCode (pushBackCalls s.waitingQueue.length) ++ .store u :: rest) }
  | .store u :: rest =>
      some { s with
        waitingQueue := s.waitingQueue ++ [u]
        code := Function.update s.code t rest }
  | .leave :: rest =>
      some { s with
        running := Function.update s.running c none
        code := Function.update s.code t rest }

/-- One operation of the handler on core `c`. -/
def stepHandler (s : LockState κ) (c : κ) (found : Bool) :
    List HandlerOp → Option (LockState κ)
  | [] => none
  | .lock op :: rest => do
      let owner ← op.exec s.owner (.handler c) found
      return { s with owner, handler := Function.update s.handler c rest }
  | .pick :: _ => do
      let (queue, ops) ← pickOps s c
      return { s with
        waitingQueue := queue
        handler := Function.update s.handler c ops }
  | .push r :: rest =>
      some { s with
        handler := Function.update s.handler c
          ((heapOps (pushBackCalls s.waitingQueue.length)).map .lock ++
            .store r :: rest) }
  | .store r :: rest =>
      some { s with
        waitingQueue := s.waitingQueue ++ [r]
        handler := Function.update s.handler c rest }
  | .switchTo t :: rest =>
      some { s with
        running := Function.update s.running c (some t)
        context := Function.update s.context c (some t)
        handler := Function.update s.handler c rest }

/-- A call starts in user mode, the thread that `Sched::queue` gets is new, and
the handler runs with interrupts disabled. -/
def Allowed (s : LockState κ) : LockEvent κ → Prop
  | .call c _ => s.handler c = [] ∧ ∃ t, s.running c = some t ∧ s.code t = []
  | .step c _ => s.handler c = [] ∧ ∃ t, s.context c = some t ∧
      ∀ u rest, s.code t = .store u :: rest → s.Fresh u
  | .tick c => s.handler c = []
  | .handle c _ => s.handler c ≠ []

def exec (s : LockState κ) : LockEvent κ → Option (LockState κ)
  | .call c k => do
      let t ← s.running c
      return { s with code := Function.update s.code t k.ops }
  | .step c found => do
      let t ← s.context c
      s.stepCode c t found (s.code t)
  | .tick c =>
      some { s with
        handler := Function.update s.handler c [.lock (.acquire .sched), .pick] }
  | .handle c found => s.stepHandler c found (s.handler c)

end LockState

def LockStep [DecidableEq κ] (s : LockState κ) (e : LockEvent κ) (s' : LockState κ) :
    Prop := s.Allowed e ∧ s.exec e = some s'

/-- Threads on cores and in the queue, nobody in the kernel, both locks free. -/
structure LockState.Initial (s : LockState κ) : Prop where
  free : ∀ l, s.owner l = none
  outside : ∀ t, s.code t = []
  enabled : ∀ c, s.handler c = []
  current : ∀ c, s.context c = s.running c
  apart : ∀ c d t, s.context c = some t → s.context d = some t → c = d
  waiting : ∀ c t, s.context c = some t → t ∉ s.waitingQueue
  nodup : s.waitingQueue.Nodup

end Toystar.Scheduler

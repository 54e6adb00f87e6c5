import Toystar.Klibc.Bitmap
import Toystar.Scheduler.Sched
import Toystar.Verified.Run

/-!
# Exiting a process

`Sched::exit_process` runs in a syscall with interrupts enabled, so it is
modelled as a program counter, `ExitPoint`, that a timer tick may find at any
value.  One core: the processes are made by `create_process` and `fork`, each
with one thread, and every syscall runs on the thread the core runs.

The deleted descriptors and the destroyed pagemap are not objects of this
model; their steps are there because a tick may come between them.
-/

namespace Toystar.Scheduler

open Toystar.Kernel
open Toystar.Klibc
open Toystar.Verified

/-- How far `exit_process` got, with its local `proc` and loop index. -/
inductive ExitPoint
  /-- `proc` was read -/
  | entered (p : Nat)
  /-- `sched_lock` is held -/
  | locked (p : Nat)
  /-- at the head of the loop that frees the threads -/
  | freeing (p i : Nat)
  /-- waiting for another core to give up thread `i`, without the lock -/
  | awaiting (p i : Nat)
  /-- the lock was released after the loop -/
  | released (p : Nat)
  /-- the descriptors were deleted -/
  | fdsFreed (p : Nat)
  /-- the bit in `pid_bitmap` was cleared -/
  | pidCleared (p : Nat)
  /-- the kernel's pagemap is loaded -/
  | pagemapSwitched (p : Nat)
  /-- the pagemap was destroyed -/
  | destroyed (p : Nat)
  /-- `delete proc` is done -/
  | procDeleted
  /-- `running_thread` is null -/
  | threadCleared
deriving DecidableEq

/-- The scheduler with what `exit_process` uses.  `point` is where the code on
the core is, `suspended` where the threads that are not on it were
interrupted. -/
structure ExitState where
  sched : Sched Unit
  processList : List Nat
  pidBitmap : Bitmap
  tidBitmap : Bitmap
  schedLock : Bool
  point : Option ExitPoint
  suspended : Nat → Option ExitPoint

/-- `for (i = 0; i < l.size(); i++) if (hit(l[i])) l.erase(i);` — the element
that moves into the place of an erased one is not looked at. -/
def eraseLoop (hit : Nat → Except Fault Bool) : List Nat → Except Fault (List Nat)
  | [] => .ok []
  | [x] => do
      if ← hit x then return [] else return [x]
  | x :: y :: rest => do
      if ← hit x then return y :: (← eraseLoop hit rest)
      else return x :: (← eraseLoop hit (y :: rest))

namespace ExitState

/-- The running thread of the core. -/
def running (s : ExitState) : Option Nat := (s.sched.core ()).runningThread

def setCore (s : ExitState) (core : Core) : ExitState :=
  { s with sched := { s.sched with core := fun _ => core } }

/-- Clear the bit of a thread and delete it with its registers. -/
def deleteThread (s : ExitState) (t : Nat) (th : Thread) : ExitState :=
  { s with
    tidBitmap := s.tidBitmap.clearBit th.tid
    sched := { s.sched with threads := Function.update s.sched.threads t none } }

/-- The pid read through an entry of `process_list`; an entry may outlive its
process, and `stale` is what its memory holds then. -/
def pidAt (s : ExitState) (stale : Nat → Nat) (q : Nat) : Nat :=
  match s.sched.procs q with
  | some pr => pr.pid
  | none => stale q

/-- The body of the loop over the threads. -/
def freeThread (s : ExitState) (p i t : Nat) : Except Fault ExitState := do
  let th ← s.sched.thread t
  match s.running with
  | none => .error .nullDeref
  | some r => do
      let current ← s.sched.thread r
      if th.tid = current.tid then
        return { s with point := some (.freeing p (i + 1)) }.deleteThread t th
      else if th.status = .running then
        return { s with
          sched := s.sched.setThread t { th with status := .dying }
          schedLock := Lock.release s.schedLock
          point := some (.awaiting p i) }
      else
        let waiting ← eraseLoop
          (fun u => do return decide ((← s.sched.thread u).tid = th.tid))
          s.sched.waitingQueue
        return { s with
          sched := { s.sched with waitingQueue := waiting }
          point := some (.freeing p (i + 1)) }.deleteThread t th

/-- The next step of `exit_process`. -/
def advance (s : ExitState) (stale : Nat → Nat) : Except Fault ExitState :=
  match s.point with
  | none => .ok s
  | some (.entered p) => do
      let lock ← Lock.acquire s.schedLock
      return { s with schedLock := lock, point := some (.locked p) }
  | some (.locked p) => do
      let pr ← s.sched.proc p
      let list ← eraseLoop (fun q => .ok (decide (s.pidAt stale q = pr.pid)))
        s.processList
      return { s with processList := list, point := some (.freeing p 0) }
  | some (.freeing p i) => do
      let pr ← s.sched.proc p
      match pr.threads[i]? with
      | none =>
          return { s with
            schedLock := Lock.release s.schedLock
            point := some (.released p) }
      | some t => s.freeThread p i t
  | some (.awaiting p i) => do
      let pr ← s.sched.proc p
      match pr.threads[i]? with
      | none => .error .outOfBounds
      | some t => do
          let th ← s.sched.thread t
          if th.status ≠ .dead then return s
          let lock ← Lock.acquire s.schedLock
          return { s with
            schedLock := lock
            point := some (.freeing p (i + 1)) }.deleteThread t th
  | some (.released p) => .ok { s with point := some (.fdsFreed p) }
  | some (.fdsFreed p) => do
      let pr ← s.sched.proc p
      return { s with
        pidBitmap := s.pidBitmap.clearBit pr.pid
        point := some (.pidCleared p) }
  | some (.pidCleared p) => .ok { s with point := some (.pagemapSwitched p) }
  | some (.pagemapSwitched p) => .ok { s with point := some (.destroyed p) }
  | some (.destroyed p) =>
      .ok { s with
        sched := { s.sched with procs := Function.update s.sched.procs p none }
        point := some .procDeleted }
  | some .procDeleted =>
      .ok { s.setCore { s.sched.core () with runningThread := none } with
        point := some .threadCleared }
  | some .threadCleared =>
      .ok { s.setCore { s.sched.core () with runningProcess := none } with
        point := none }

/-- The core after `reschedule` left the scheduler as `sched`: when the thread
changed, the old one keeps its place in the code and the new one goes on where
it was. -/
def resume (s : ExitState) (sched : Sched Unit) : ExitState :=
  let next := (sched.core ()).runningThread
  if next = s.running then { s with sched := sched }
  else { s with
    sched := sched
    point := next.bind s.suspended
    suspended := fun t =>
      if some t = s.running then s.point
      else if some t = next then none
      else s.suspended t }

end ExitState

/-! ## The system -/

inductive ExitEvent
  /-- a process with its thread, as `create_process` and `fork` make it -/
  | newProcess (t p tid pid dir pagemap : Nat) (fdList : List Nat) (regs : Context)
  /-- `Sched::queue` -/
  | queue (t : Nat)
  /-- the running thread calls `exit_process` -/
  | exit
  /-- `exit_process` goes on -/
  | advance (stale : Nat → Nat)
  /-- a timer tick -/
  | tick (regs : Context)

/-- New objects have new addresses; a thread is queued when it is neither
waiting nor running; a syscall other than the exit needs the core outside
`exit_process`; a tick needs `sched_lock` free. -/
def ExitEvent.Allowed (s : ExitState) : ExitEvent → Prop
  | .newProcess t p .. =>
      s.point = none ∧ s.sched.threads t = none ∧ s.sched.procs p = none
  | .queue t => s.point = none ∧ s.sched.threads t ≠ none ∧
      t ∉ s.sched.waitingQueue ∧ s.running ≠ some t
  | .exit => s.point = none ∧ s.running ≠ none
  | .advance _ => s.point ≠ none
  | .tick _ => s.schedLock = false

instance ExitEvent.decidableAllowed (s : ExitState) (e : ExitEvent) :
    Decidable (e.Allowed s) :=
  match e with
  | .newProcess t p .. => inferInstanceAs (Decidable
      (s.point = none ∧ s.sched.threads t = none ∧ s.sched.procs p = none))
  | .queue t => inferInstanceAs (Decidable
      (s.point = none ∧ s.sched.threads t ≠ none ∧ t ∉ s.sched.waitingQueue ∧
        s.running ≠ some t))
  | .exit => inferInstanceAs (Decidable (s.point = none ∧ s.running ≠ none))
  | .advance _ => inferInstanceAs (Decidable (s.point ≠ none))
  | .tick _ => inferInstanceAs (Decidable (s.schedLock = false))

namespace ExitState

def exec (s : ExitState) : ExitEvent → Except Fault ExitState
  | .newProcess t p tid pid dir pagemap fdList regs =>
      let pr : Process := ⟨pid, .waiting, dir, [t], fdList, pagemap⟩
      .ok { s with
        sched := (s.sched.setThread t ⟨tid, .waiting, p, regs⟩).setProc p pr
        processList := s.processList ++ [p]
        pidBitmap := s.pidBitmap.setBit pid
        tidBitmap := s.tidBitmap.setBit tid }
  | .queue t => .ok { s with sched := s.sched.queue t }
  | .exit =>
      match (s.sched.core ()).runningProcess with
      | none => .error .nullDeref
      | some p => .ok { s with point := some (.entered p) }
  | .advance stale => s.advance stale
  | .tick regs => do
      let (sched, _) ← s.sched.reschedule () regs
      return s.resume sched

/-- No thread, no process, an idle core. -/
def boot : ExitState :=
  ⟨⟨fun _ => none, fun _ => none, [], fun _ => ⟨none, none, 0, 0⟩⟩, [],
    fun _ => 0, fun _ => 0, false, none, fun _ => none⟩

end ExitState

def ExitStep (s : ExitState) (e : ExitEvent) (s' : ExitState) : Prop :=
  e.Allowed s ∧ s.exec e = .ok s'

/-- The step as a function. -/
def ExitState.attempt (s : ExitState) (e : ExitEvent) : Option ExitState :=
  if e.Allowed s then (s.exec e).toOption else none

theorem exitStep_of_attempt {s s' : ExitState} {e : ExitEvent}
    (h : s.attempt e = some s') : ExitStep s e s' := guard_toOption.mp h

end Toystar.Scheduler

import Toystar.Kernel.Lock

/-!
# The scheduler

`Sched::queue` and `Sched::reschedule` of `kernel/scheduler/scheduler.cpp`,
with the objects they work on: threads and processes behind pointers, the
`waiting_queue`, and the `cpu` structure of each core.  An object that was
deleted is absent from its table, and reading it is the fault `useAfterFree`.

`reschedule` is one step: it runs with interrupts disabled and holds
`sched_lock` up to the switch.  `waiting_queue.pop().value()` points into an
optional that is gone by then; it is taken to yield the popped thread.
-/

namespace Toystar.Scheduler

open Toystar.Kernel

/-! ## Objects -/

/-- `struct context`. -/
structure Context where
  rax : UInt64
  rbx : UInt64
  rcx : UInt64
  rdx : UInt64
  rsi : UInt64
  rdi : UInt64
  rbp : UInt64
  r8 : UInt64
  r9 : UInt64
  r10 : UInt64
  r11 : UInt64
  r12 : UInt64
  r13 : UInt64
  r14 : UInt64
  r15 : UInt64
  rip : UInt64
  cs : UInt64
  rflags : UInt64
  rsp : UInt64
  ss : UInt64
deriving DecidableEq, Repr, Inhabited

/-- `Sched::Status`. -/
inductive Status
  | waiting
  | running
  | dying
  | dead
deriving DecidableEq, Repr

/-- `Sched::thread`, with the `context` its `regs` points to. -/
structure Thread where
  tid : Nat
  status : Status
  parentProcess : Nat
  regs : Context
deriving DecidableEq

/-- `Sched::process`; the pagemap and the directory are pointers. -/
structure Process where
  pid : Nat
  status : Status
  processDirectory : Nat
  threads : List Nat
  fdList : List Nat
  pagemap : Nat
deriving DecidableEq

/-- `struct cpu`. -/
structure Core where
  runningProcess : Option Nat
  runningThread : Option Nat
  workingDir : Nat
  pagemap : Nat
deriving DecidableEq

/-- Threads and processes by address, the waiting queue and the cores. -/
structure Sched (κ : Type) where
  threads : Nat → Option Thread
  procs : Nat → Option Process
  waitingQueue : List Nat
  core : κ → Core

/-- What a table of objects holds after one was stored. -/
theorem update_eq_some {α : Type} {f : Nat → Option α} {a x : Nat} {v y : α} :
    Function.update f a (some v) x = some y ↔
      (x = a ∧ y = v) ∨ (x ≠ a ∧ f x = some y) := by
  by_cases hx : x = a
  · subst hx
    simp [eq_comm]
  · simp [hx]

namespace Sched

variable {κ : Type}

/-- `*t` for a thread pointer. -/
def thread (s : Sched κ) (t : Nat) : Except Fault Thread :=
  match s.threads t with
  | some th => .ok th
  | none => .error .useAfterFree

/-- `*p` for a process pointer. -/
def proc (s : Sched κ) (p : Nat) : Except Fault Process :=
  match s.procs p with
  | some pr => .ok pr
  | none => .error .useAfterFree

def setThread (s : Sched κ) (t : Nat) (th : Thread) : Sched κ :=
  { s with threads := Function.update s.threads t (some th) }

def setProc (s : Sched κ) (p : Nat) (pr : Process) : Sched κ :=
  { s with procs := Function.update s.procs p (some pr) }

/-! ## `Sched::queue` -/

/-- `Sched::queue`. -/
def queue (s : Sched κ) (t : Nat) : Sched κ :=
  { s with waitingQueue := s.waitingQueue ++ [t] }

/-! ## `Sched::reschedule` -/

/-- The log at the start reads every thread of a list. -/
def inspect (s : Sched κ) : List Nat → Except Fault Unit
  | [] => .ok ()
  | t :: ts => do
      let _ ← s.thread t
      s.inspect ts

/-- The thread to run next.  With an empty queue that is the running one,
whose registers are saved; a dying one is marked dead instead and the handler
returns (`none`); on an idle core the null pointer is read. -/
def pickNext (s : Sched κ) (c : κ) (regs : Context) :
    Except Fault (Option Nat × Sched κ) :=
  match s.waitingQueue with
  | t :: rest => .ok (some t, { s with waitingQueue := rest })
  | [] =>
      match (s.core c).runningThread with
      | none => .error .nullDeref
      | some r => do
          let th ← s.thread r
          if th.status ≠ .dying then .ok (some r, s.setThread r { th with regs := regs })
          else .ok (none, s.setThread r { th with status := .dead })

/-- Whether one of the threads of a list is running. -/
def anyRunning (s : Sched κ) : List Nat → Except Fault Bool
  | [] => .ok false
  | t :: ts => do
      let th ← s.thread t
      let rest ← s.anyRunning ts
      .ok (decide (th.status = .running) || rest)

/-- Put the previous thread back on the queue, with its registers saved and
the status of its process recomputed; a dying one is marked dead instead. -/
def preempt (s : Sched κ) (c : κ) (scheduled : Nat) (regs : Context) :
    Except Fault (Sched κ) :=
  match (s.core c).runningThread with
  | none => .ok s
  | some previous =>
      if previous = scheduled then .ok s
      else do
        let th ← s.thread previous
        if th.status ≠ .dying then
          let s := s.setThread previous { th with status := .waiting, regs := regs }
          match (s.core c).runningProcess with
          | none => .error .nullDeref
          | some p => do
              let pr ← s.proc p
              let running ← s.anyRunning pr.threads
              let s := s.setProc p
                { pr with status := if running then .running else .waiting }
              .ok (s.queue previous)
        else .ok (s.setThread previous { th with status := .dead })

/-- The switch: the thread and its process become running, the core's
structure is filled in, and the thread's registers are loaded. -/
def switchTo [DecidableEq κ] (s : Sched κ) (c : κ) (scheduled : Nat) :
    Except Fault (Sched κ × Option Context) := do
  let th ← s.thread scheduled
  let pr ← s.proc th.parentProcess
  let s := s.setProc th.parentProcess { pr with status := .running }
  let s := s.setThread scheduled { th with status := .running }
  let core : Core :=
    { runningThread := some scheduled
      runningProcess := some th.parentProcess
      pagemap := pr.pagemap
      workingDir := pr.processDirectory }
  .ok ({ s with core := Function.update s.core c core }, some th.regs)

/-- `Sched::reschedule` on core `c`: the state afterwards and the context that
`context_switch` loads, or `none` when the handler returns. -/
def reschedule [DecidableEq κ] (s : Sched κ) (c : κ) (regs : Context) :
    Except Fault (Sched κ × Option Context) := do
  s.inspect (s.core c).runningThread.toList
  s.inspect s.waitingQueue
  let (next, s) ← s.pickNext c regs
  match next with
  | none => .ok (s, none)
  | some scheduled => do
      let s ← s.preempt c scheduled regs
      s.switchTo c scheduled

/-! ## Lookups -/

section Lookup

variable {s : Sched κ} {t u p q : Nat} {th : Thread} {pr : Process}

theorem thread_of_some (h : s.threads t = some th) : s.thread t = .ok th := by
  simp [thread, h]

theorem proc_of_some (h : s.procs p = some pr) : s.proc p = .ok pr := by
  simp [proc, h]

@[simp] theorem setThread_procs : (s.setThread t th).procs = s.procs := rfl

@[simp] theorem setThread_core : (s.setThread t th).core = s.core := rfl

@[simp] theorem setThread_waitingQueue :
    (s.setThread t th).waitingQueue = s.waitingQueue := rfl

@[simp] theorem setProc_threads : (s.setProc p pr).threads = s.threads := rfl

@[simp] theorem setProc_core : (s.setProc p pr).core = s.core := rfl

@[simp] theorem setProc_waitingQueue :
    (s.setProc p pr).waitingQueue = s.waitingQueue := rfl

@[simp] theorem queue_threads : (s.queue t).threads = s.threads := rfl

@[simp] theorem queue_procs : (s.queue t).procs = s.procs := rfl

@[simp] theorem queue_core : (s.queue t).core = s.core := rfl

theorem inspect_ok {ts : List Nat} (h : ∀ t ∈ ts, ∃ th, s.threads t = some th) :
    s.inspect ts = .ok () := by
  induction ts with
  | nil => rfl
  | cons t ts ih =>
      rcases h t (by simp) with ⟨th, hth⟩
      rw [inspect, thread_of_some hth, ok_bind]
      apply ih
      intro u hu
      exact h u (by simp [hu])

/-- The recomputation reads the statuses of all threads of the process. -/
theorem anyRunning_ok {ts : List Nat}
    (h : ∀ t ∈ ts, ∃ th, s.threads t = some th) :
    ∃ b, s.anyRunning ts = .ok b ∧
      (b = true ↔ ∃ t ∈ ts, ∃ th, s.threads t = some th ∧ th.status = .running) := by
  induction ts with
  | nil => exact ⟨false, rfl, by simp⟩
  | cons t ts ih =>
      rcases h t (by simp) with ⟨th, hth⟩
      rcases ih (fun u hu => h u (by simp [hu])) with ⟨b, hb, hiff⟩
      refine ⟨decide (th.status = .running) || b, ?_, ?_⟩
      · rw [anyRunning, thread_of_some hth, ok_bind, hb, ok_bind]
      · simp only [Bool.or_eq_true, decide_eq_true_eq, hiff, List.mem_cons,
          exists_eq_or_imp, hth, Option.some.injEq, exists_eq_left']

end Lookup

end Sched

end Toystar.Scheduler

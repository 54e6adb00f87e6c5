import Toystar.Scheduler.Pids

/-!
# When a tick is safe

With an empty queue `reschedule` tests `running_thread` for null and then, in the
branch for null, reads its status.  So a tick on an idle core is safe only while
a thread waits: `exit_process` leaves its core idle, and if the queue is empty by
then the next tick reads through null, where the comment on `reschedule_handler`
has it return.  No other tick does, in any run of the calls that make and end
processes (`tick_defined_iff`); and if every thread is queued only while it
neither waits nor runs, no other tick fails at all.
-/

namespace Toystar.Scheduler

open Toystar.Kernel
open Toystar.Klibc
open Toystar.Verified

variable {κ : Type}

/-! ## Null pointers in a tick -/

namespace Sched

variable {s : Sched κ} {c : κ} {t : Nat} {regs : Context} {e : Fault}

theorem thread_eq_error (h : s.thread t = .error e) : e = .useAfterFree := by
  unfold thread at h
  split at h
  · cases h
  · exact (Except.error.inj h).symm

theorem proc_eq_error (h : s.proc t = .error e) : e = .useAfterFree := by
  unfold proc at h
  split at h
  · cases h
  · exact (Except.error.inj h).symm

theorem inspect_eq_error {ts : List Nat} (h : s.inspect ts = .error e) :
    e = .useAfterFree := by
  induction ts with
  | nil => cases h
  | cons t ts ih =>
      rw [inspect, bind_eq_error] at h
      rcases h with hread | ⟨_, _, hrest⟩
      · exact thread_eq_error hread
      · exact ih hrest

theorem anyRunning_eq_error {ts : List Nat} (h : s.anyRunning ts = .error e) :
    e = .useAfterFree := by
  induction ts with
  | nil => cases h
  | cons t ts ih =>
      rw [anyRunning, bind_eq_error] at h
      rcases h with hread | ⟨_, _, h⟩
      · exact thread_eq_error hread
      · rw [bind_eq_error] at h
        rcases h with hrest | ⟨_, _, hret⟩
        · exact ih hrest
        · cases hret

/-- Only the branch for an idle core and an empty queue reads through null. -/
theorem pickNext_nullDeref (h : s.pickNext c regs = .error .nullDeref) :
    (s.core c).runningThread = none ∧ s.waitingQueue = [] := by
  unfold pickNext at h
  cases hq : s.waitingQueue with
  | cons t rest =>
      simp only [hq] at h
      cases h
  | nil =>
      cases hrun : (s.core c).runningThread with
      | none => exact ⟨rfl, rfl⟩
      | some r =>
          simp only [hq, hrun, bind_eq_error] at h
          rcases h with hread | ⟨th, _, h⟩
          · cases thread_eq_error hread
          · split at h
            · cases h
            · cases h

/-- A thread that runs without a process would be read through null. -/
theorem preempt_nullDeref (h : s.preempt c t regs = .error .nullDeref) :
    (s.core c).runningThread ≠ none ∧ (s.core c).runningProcess = none := by
  unfold preempt at h
  cases hrun : (s.core c).runningThread with
  | none =>
      simp only [hrun] at h
      cases h
  | some r =>
      simp only [hrun] at h
      split at h
      · cases h
      · simp only [bind_eq_error] at h
        rcases h with hread | ⟨th, _, h⟩
        · cases thread_eq_error hread
        · split at h
          · cases hp : (s.core c).runningProcess with
            | none => exact ⟨by simp, rfl⟩
            | some p =>
                simp only [setThread_core, hp, bind_eq_error] at h
                rcases h with hread | ⟨pr, _, hany | ⟨b, _, h⟩⟩
                · cases proc_eq_error hread
                · cases anyRunning_eq_error hany
                · cases h
          · cases h

variable [DecidableEq κ]

theorem switchTo_eq_error (h : s.switchTo c t = .error e) : e = .useAfterFree := by
  simp only [switchTo, bind_eq_error] at h
  rcases h with hread | ⟨th, _, hread | ⟨pr, _, h⟩⟩
  · exact thread_eq_error hread
  · exact proc_eq_error hread
  · cases h

theorem reschedule_nullDeref (h : s.reschedule c regs = .error .nullDeref) :
    ((s.core c).runningThread = none ∧ s.waitingQueue = []) ∨
      ((s.core c).runningThread ≠ none ∧ (s.core c).runningProcess = none) := by
  simp only [reschedule, bind_eq_error] at h
  rcases h with hread | ⟨_, _, hread | ⟨_, _, hpick | ⟨⟨next, s₁⟩, hpick, h⟩⟩⟩
  · cases inspect_eq_error hread
  · cases inspect_eq_error hread
  · exact .inl (pickNext_nullDeref hpick)
  · cases next with
    | none => cases h
    | some t =>
        simp only [bind_eq_error] at h
        rcases h with hpre | ⟨s₂, _, hswitch⟩
        · rcases pickNext_cases hpick with ⟨_, hcore, _⟩
          rw [← hcore]
          exact .inr (preempt_nullDeref hpre)
        · cases switchTo_eq_error hswitch

/-- The tick on an idle core that nobody waits for. -/
theorem reschedule_idle_empty (hrun : (s.core c).runningThread = none)
    (hq : s.waitingQueue = []) : s.reschedule c regs = .error .nullDeref := by
  simp only [reschedule, hrun, hq, Option.toList_none, inspect, ok_bind, pickNext,
    error_bind]

/-- A tick on `c` reads no thread and no process through null, and where nobody runs or
waits it returns and changes nothing. -/
def TickDefined (s : Sched κ) (c : κ) : Prop :=
  ∀ regs, s.reschedule c regs ≠ .error .nullDeref ∧
    ((s.core c).runningThread = none → s.waitingQueue = [] →
      s.reschedule c regs = .ok (s, none))

/-- There is something to run on `c`. -/
def Busy (s : Sched κ) (c : κ) : Prop :=
  (s.core c).runningThread ≠ none ∨ s.waitingQueue ≠ []

omit [DecidableEq κ] in
theorem not_busy_iff : ¬s.Busy c ↔ (s.core c).runningThread = none ∧ s.waitingQueue = [] := by
  unfold Busy
  push Not
  rfl

/-- Where threads run with a process, a tick is defined if and only if there is something
to run. -/
theorem tickDefined_iff
    (hproc : (s.core c).runningThread ≠ none → (s.core c).runningProcess ≠ none) :
    s.TickDefined c ↔ s.Busy c := by
  constructor
  · intro h
    by_contra hidle
    rw [not_busy_iff] at hidle
    exact (h default).1 (reschedule_idle_empty hidle.1 hidle.2)
  · intro hbusy regs
    constructor
    · intro hnull
      rcases reschedule_nullDeref hnull with hidle | ⟨hrun, hnone⟩
      · exact not_busy_iff.mpr hidle hbusy
      · exact hproc hrun hnone
    · intro hrun hq
      exact absurd hbusy (not_busy_iff.mpr ⟨hrun, hq⟩)

/-- A tick on `c` leaves the other cores alone. -/
theorem reschedule_core {s' : Sched κ} {out : Option Context} {d : κ}
    (h : s.reschedule c regs = .ok (s', out)) (hd : d ≠ c) : s'.core d = s.core d := by
  simp only [reschedule, bind_eq_ok] at h
  rcases h with ⟨_, _, _, _, ⟨next, s₁⟩, hpick, h⟩
  rcases pickNext_cases hpick with ⟨_, hcore₁, _⟩
  cases next with
  | none =>
      cases h
      rw [hcore₁]
  | some t =>
      simp only [switchTo, bind_eq_ok] at h
      rcases h with ⟨s₂, hpre, th, _, pr, _, h⟩
      rcases preempt_cases hpre with ⟨_, hcore₂, _⟩
      cases h
      change Function.update s₂.core c _ d = _
      rw [Function.update_of_ne hd, hcore₂, hcore₁]

end Sched

/-! ## Any sequence of calls -/

section Runs

variable {s s' : ProcessState κ} {e : LifeEvent κ} {c : κ}

/-- On every core a thread runs if and only if a process does. -/
def Sched.Paired (s : Sched κ) : Prop :=
  ∀ c, (s.core c).runningThread = none ↔ (s.core c).runningProcess = none

namespace ProcessState

/-- The loop over the threads leaves the cores alone. -/
theorem freeThreads_core {ts : List Nat} (h : freeThreads c ts s = .ok s') :
    s'.sched.core = s.sched.core := by
  induction ts generalizing s with
  | nil =>
      cases h
      rfl
  | cons t ts ih =>
      rw [freeThreads, bind_eq_ok] at h
      rcases h with ⟨s₁, hone, hrest⟩
      rw [ih hrest]
      unfold freeThread at hone
      simp only [bind_eq_ok] at hone
      rcases hone with ⟨th, _, hone⟩
      split at hone
      · cases hone
      · simp only [bind_eq_ok] at hone
        rcases hone with ⟨current, _, hone⟩
        split at hone
        · cases hone
          rfl
        · split at hone
          · cases hone
          · simp only [bind_eq_ok] at hone
            rcases hone with ⟨waiting, _, hone⟩
            cases hone
            rfl

/-- What a call that makes a process adds to the scheduler: the thread and the
process. -/
def Spawned (s s' : Sched κ) (new : NewObjects) : Prop :=
  ∃ th pr, th.parentProcess = new.process ∧ pr.threads = [new.thread] ∧
    s' = (s.setThread new.thread th).setProc new.process pr

theorem createProcess_sched {new : NewObjects} {rip cs : UInt64} {pagemap dir : Nat}
    {r : Option Nat} (h : s.createProcess new rip cs pagemap dir = (r, s')) :
    (r = some new.process ∧ Spawned s.sched s'.sched new) ∨
      (r = none ∧ s'.sched = s.sched) := by
  unfold createProcess at h
  dsimp only at h
  split at h
  · cases h
    exact .inl ⟨rfl, _, _, rfl, rfl, rfl⟩
  · cases h
    exact .inr ⟨rfl, rfl⟩

/-- Storing the thread once more. -/
theorem Spawned.setThread {sched sched' : Sched κ} {new : NewObjects}
    (h : Spawned sched sched' new) {th : Thread} (hth : th.parentProcess = new.process) :
    Spawned sched (sched'.setThread new.thread th) new := by
  rcases h with ⟨th₀, pr, _, hpr, rfl⟩
  refine ⟨th, pr, hth, hpr, ?_⟩
  simp [Sched.setThread, Sched.setProc]

/-- Storing the process once more. -/
theorem Spawned.setProc {sched sched' : Sched κ} {new : NewObjects}
    (h : Spawned sched sched' new) {pr : Process} (hpr : pr.threads = [new.thread]) :
    Spawned sched (sched'.setProc new.process pr) new := by
  rcases h with ⟨th, pr₀, hth, _, rfl⟩
  refine ⟨th, pr, hth, hpr, ?_⟩
  simp [Sched.setProc]

theorem Spawned.thread {sched sched' : Sched κ} {new : NewObjects}
    (h : Spawned sched sched' new) :
    ∃ th, sched'.threads new.thread = some th ∧ th.parentProcess = new.process := by
  rcases h with ⟨th, pr, hth, _, rfl⟩
  exact ⟨th, Function.update_self _ _ _, hth⟩

theorem Spawned.proc {sched sched' : Sched κ} {new : NewObjects}
    (h : Spawned sched sched' new) :
    ∃ pr, sched'.procs new.process = some pr ∧ pr.threads = [new.thread] := by
  rcases h with ⟨th, pr, _, hpr, rfl⟩
  exact ⟨pr, Function.update_self _ _ _, hpr⟩

theorem createProgram_sched {new : NewObjects} {file : Option ProgramFile}
    {argc : Option Nat} {r : Option Nat} (h : s.createProgram new file argc = .ok (r, s')) :
    (r = some new.process ∧ Spawned s.sched s'.sched new) ∨ (r = none ∧ s' = s) := by
  unfold createProgram at h
  cases file with
  | none =>
      cases h
      exact .inr ⟨rfl, rfl⟩
  | some f =>
      dsimp only at h
      split at h
      · cases h
      · rename_i q s₁ hmade
        rcases createProcess_sched hmade with ⟨hq, hspawn⟩ | ⟨hq, _⟩
        · cases hq
          cases argc with
          | none =>
              cases h
              exact .inl ⟨rfl, hspawn⟩
          | some n =>
              simp only [bind_eq_ok, Sched.thread_eq_ok] at h
              rcases h with ⟨th, hth, h⟩
              cases h
              rcases hspawn.thread with ⟨th', hth', hparent⟩
              rw [hth'] at hth
              cases hth
              exact .inl ⟨rfl, hspawn.setThread hparent⟩
        · cases hq

theorem fork_sched {regs : Context} {new : NewObjects} {pagemap : Nat} {fdList : List Nat}
    {rax : UInt64} (h : s.fork c regs new pagemap fdList = .ok (rax, s')) :
    (∃ sched, Spawned s.sched sched new ∧ s'.sched = sched.queue new.thread) ∨
      ∃ pr, s'.sched = s.sched.setProc new.process pr := by
  unfold fork at h
  cases hp : (s.sched.core c).runningProcess with
  | none => simp [hp] at h
  | some p =>
      simp only [hp, bind_eq_ok] at h
      rcases h with ⟨parent, _, h⟩
      split at h
      · cases h
        exact .inr ⟨_, rfl⟩
      · rename_i tid _
        cases h
        refine .inl ⟨_, ⟨⟨tid, .waiting, new.process, { regs with rax := 0 }⟩,
          ⟨(s.getNewPid.1).getD (2 ^ 64 - 1), .waiting, parent.processDirectory,
            [new.thread], fdList, pagemap⟩, rfl, rfl, rfl⟩, ?_⟩
        simp [Sched.setThread, Sched.setProc, Sched.queue, getNewPid, getNewTid]

variable [DecidableEq κ]

/-- An `execve` that gets past the file makes a process, queues its thread and exits. -/
theorem execve_sched {new : NewObjects} {file : Option ProgramFile} {argc : Option Nat}
    {rax : Option UInt64} (h : s.execve c new file argc = .ok (rax, s')) :
    s' = s ∨ ∃ (s₁ : ProcessState κ) (sched : Sched κ), Spawned s.sched sched new ∧
      s₁.sched = sched.queue new.thread ∧ s₁.exitProcess c = .ok s' := by
  unfold execve at h
  cases hp : (s.sched.core c).runningProcess with
  | none => simp [hp] at h
  | some p =>
      simp only [hp, bind_eq_ok] at h
      rcases h with ⟨pr, _, ⟨r, s₁⟩, hprog, h⟩
      rcases createProgram_sched hprog with ⟨rfl, hspawn⟩ | ⟨rfl, hsame⟩
      · simp only [bind_eq_ok, Sched.proc_eq_ok] at h
        rcases h with ⟨start, hstart, h⟩
        rcases hspawn.proc with ⟨start', hstart', hthreads⟩
        rw [hstart'] at hstart
        cases hstart
        rw [hthreads] at h
        simp only [bind_eq_ok] at h
        rcases h with ⟨s₂, hexit, h⟩
        cases h
        refine .inr ⟨_, _, ?_, rfl, hexit⟩
        exact hspawn.setProc rfl
      · cases h
        exact .inl hsame

theorem exitProcess_core {d : κ} (h : s.exitProcess c = .ok s') :
    (s'.sched.core c).runningThread = none ∧ (s'.sched.core c).runningProcess = none ∧
      (d ≠ c → s'.sched.core d = s.sched.core d) := by
  unfold exitProcess at h
  cases hp : (s.sched.core c).runningProcess with
  | none => simp [hp] at h
  | some p =>
      simp only [hp, bind_eq_ok] at h
      rcases h with ⟨pr, _, list, _, s₁, hfree, h⟩
      have hcore := freeThreads_core hfree
      cases h
      dsimp only
      rw [Function.update_self]
      refine ⟨rfl, rfl, fun hd => ?_⟩
      rw [Function.update_of_ne hd, hcore]

end ProcessState

theorem Sched.Paired.of_core {sched sched' : Sched κ} (h : sched.Paired)
    (hcore : sched'.core = sched.core) : sched'.Paired := by
  intro c
  rw [hcore]
  exact h c

theorem ProcessState.Spawned.core {sched sched' : Sched κ} {new : NewObjects}
    (h : ProcessState.Spawned sched sched' new) : sched'.core = sched.core := by
  rcases h with ⟨th, pr, _, _, rfl⟩
  rfl

variable [DecidableEq κ]

theorem paired_exit (h : s.sched.Paired) (hret : s.exitProcess c = .ok s') :
    s'.sched.Paired := by
  intro d
  have hcore := ProcessState.exitProcess_core (d := d) hret
  by_cases hd : d = c
  · rw [hd, hcore.1, hcore.2.1]
  · rw [hcore.2.2 hd]
    exact h d

theorem paired_tick {sched sched' : Sched κ} {regs : Context} {out : Option Context}
    (h : sched.Paired) (hret : sched.reschedule c regs = .ok (sched', out)) :
    sched'.Paired := by
  intro d
  by_cases hd : d = c
  · subst hd
    rcases (Sched.reschedule_cases hret).2 with
      ⟨r, hrun, _, _, hrun', hproc | ⟨th, _, hproc⟩⟩ | ⟨t, _, th, _, _, hrun', hproc, _⟩
    · have hold := h d
      rw [hrun] at hold
      rw [hrun', hproc]
      exact hold
    · rw [hrun', hproc]
      simp
    · rw [hrun', hproc]
      simp
  · rw [Sched.reschedule_core hret hd]
    exact h d

/-- Every call keeps threads and processes paired. -/
theorem paired_step (h : s.sched.Paired) (hstep : LifeStep s e s') : s'.sched.Paired := by
  rcases hstep with ⟨_, hret⟩
  cases e with
  | createProcess new rip cs pagemap dir =>
      cases hret
      rcases ProcessState.createProcess_sched
          (Prod.eta (s.createProcess new rip cs pagemap dir)).symm with ⟨_, hspawn⟩ | ⟨_, hsame⟩
      · exact h.of_core hspawn.core
      · exact h.of_core (by rw [hsame])
  | fork c regs new pagemap fdList =>
      simp only [ProcessState.exec, bind_eq_ok] at hret
      rcases hret with ⟨⟨rax, s₁⟩, hfork, hret⟩
      cases hret
      rcases ProcessState.fork_sched hfork with ⟨sched, hspawn, hs₁⟩ | ⟨pr, hs₁⟩
      · refine h.of_core ?_
        rw [hs₁, Sched.queue_core, hspawn.core]
      · refine h.of_core ?_
        rw [hs₁, Sched.setProc_core]
  | execve c new file argc =>
      simp only [ProcessState.exec, bind_eq_ok] at hret
      rcases hret with ⟨⟨rax, s₁⟩, hexecve, hret⟩
      cases hret
      rcases ProcessState.execve_sched hexecve with hsame | ⟨s₂, sched, hspawn, hs₂, hexit⟩
      · rw [hsame]
        exact h
      · refine paired_exit (h.of_core ?_) hexit
        rw [hs₂, Sched.queue_core, hspawn.core]
  | exit c => exact paired_exit h hret
  | queue t =>
      cases hret
      exact h.of_core rfl
  | tick c regs =>
      simp only [ProcessState.exec, bind_eq_ok] at hret
      rcases hret with ⟨⟨sched, out⟩, htick, hret⟩
      cases hret
      exact paired_tick h htick

end Runs

/-! ## Threads queued once -/

/-- Every thread belongs to a process that has no other, waiting and running threads are
not deleted, and each of them waits or runs in one place only. -/
structure Sched.Sound (s : Sched κ) : Prop where
  parent : ∀ {t th}, s.threads t = some th →
    ∃ pr, s.procs th.parentProcess = some pr ∧ pr.threads = [t]
  running : ∀ {c r}, (s.core c).runningThread = some r →
    ∃ th, s.threads r = some th ∧ (s.core c).runningProcess = some th.parentProcess
  waiting : ∀ {t}, t ∈ s.waitingQueue → ∃ th, s.threads t = some th
  nodup : s.waitingQueue.Nodup
  apart : ∀ {c r}, (s.core c).runningThread = some r → r ∉ s.waitingQueue
  alone : ∀ {c d r}, (s.core c).runningThread = some r →
    (s.core d).runningThread = some r → c = d

/-- Nobody has queued the thread, and no core runs it. -/
def Sched.Free (s : Sched κ) (t : Nat) : Prop :=
  t ∉ s.waitingQueue ∧ ∀ c, (s.core c).runningThread ≠ some t

namespace Sched.Sound

variable {s s' : Sched κ} {c : κ} {t : Nat} {new : NewObjects}

theorem boot : (ProcessState.boot : ProcessState κ).sched.Sound :=
  { parent := fun h => by cases h
    running := fun h => by cases h
    waiting := fun h => by cases h
    nodup := List.nodup_nil
    apart := fun h => by cases h
    alone := fun h => by cases h }

/-- A new process at an address where there is none. -/
theorem addProc {p : Nat} (h : s.Sound) (hp : s.procs p = none) (pr : Process) :
    (s.setProc p pr).Sound :=
  { parent := by
      intro t th hth
      rcases h.parent hth with ⟨pr', hpr', hthreads⟩
      have hne : th.parentProcess ≠ p := by
        intro heq
        rw [heq, hp] at hpr'
        cases hpr'
      exact ⟨pr', update_eq_some.mpr (.inr ⟨hne, hpr'⟩), hthreads⟩
    running := h.running
    waiting := h.waiting
    nodup := h.nodup
    apart := h.apart
    alone := h.alone }

/-- A new process with its thread. -/
theorem spawn (h : s.Sound) (hp : s.procs new.process = none)
    (ht : s.threads new.thread = none) (hspawn : ProcessState.Spawned s s' new) :
    s'.Sound := by
  rcases hspawn with ⟨th, pr, hth, hpr, rfl⟩
  have hlive : ∀ {u thu}, s.threads u = some thu →
      (s.setThread new.thread th).threads u = some thu := by
    intro u thu hu
    refine update_eq_some.mpr (.inr ⟨?_, hu⟩)
    rintro rfl
    rw [ht] at hu
    cases hu
  refine
    { parent := ?_
      running := ?_
      waiting := ?_
      nodup := h.nodup
      apart := h.apart
      alone := h.alone }
  · intro u thu hu
    rcases update_eq_some.mp hu with ⟨rfl, rfl⟩ | ⟨_, hu⟩
    · exact ⟨pr, update_eq_some.mpr (.inl ⟨hth, rfl⟩), hpr⟩
    · rcases h.parent hu with ⟨pr', hpr', hthreads⟩
      refine ⟨pr', update_eq_some.mpr (.inr ⟨?_, hpr'⟩), hthreads⟩
      intro heq
      rw [heq, hp] at hpr'
      cases hpr'
  · intro d r hr
    rcases h.running hr with ⟨thr, hthr, hproc⟩
    exact ⟨thr, hlive hthr, hproc⟩
  · intro u hu
    rcases h.waiting hu with ⟨thu, hthu⟩
    exact ⟨thu, hlive hthu⟩

/-- The thread of a new process is free. -/
theorem free_of_spawned (h : s.Sound) (ht : s.threads new.thread = none)
    (hspawn : ProcessState.Spawned s s' new) : s'.Free new.thread := by
  rcases hspawn with ⟨th, pr, _, _, rfl⟩
  constructor
  · intro hmem
    rcases h.waiting hmem with ⟨thw, hthw⟩
    rw [ht] at hthw
    cases hthw
  · intro c hrun
    rcases h.running hrun with ⟨thr, hthr, _⟩
    rw [ht] at hthr
    cases hthr

theorem queue (h : s.Sound) (hlive : ∃ th, s.threads t = some th) (hfree : s.Free t) :
    (s.queue t).Sound :=
  { parent := h.parent
    running := h.running
    waiting := by
      intro u hu
      rcases List.mem_append.mp hu with hold | hnew
      · exact h.waiting hold
      · rw [List.mem_singleton.mp hnew]
        exact hlive
    nodup := by
      have hconcat := List.Nodup.concat hfree.1 h.nodup
      rwa [List.concat_eq_append] at hconcat
    apart := by
      intro d r hr hmem
      rcases List.mem_append.mp hmem with hold | hnew
      · exact h.apart hr hold
      · rw [List.mem_singleton.mp hnew] at hr
        exact hfree.2 d hr
    alone := h.alone }

variable [DecidableEq κ]

/-- The thread on `c` has its process there, and the other cores what they had. -/
theorem running_of_same {r : Nat} {th : Thread} (h : s.Sound) (hsame : SameObjects s s')
    (hother : ∀ d, d ≠ c → s'.core d = s.core d) (hr : (s'.core c).runningThread = some r)
    (hth : s.threads r = some th) (hproc : (s'.core c).runningProcess = some th.parentProcess)
    {d : κ} {u : Nat} (hu : (s'.core d).runningThread = some u) :
    ∃ th, s'.threads u = some th ∧ (s'.core d).runningProcess = some th.parentProcess := by
  by_cases hd : d = c
  · subst hd
    rw [hr] at hu
    obtain rfl := Option.some.inj hu
    rcases hsame.thread_some hth with ⟨th', hth', heq⟩
    exact ⟨th', hth', by rw [hproc, heq]⟩
  · rw [hother d hd] at hu ⊢
    rcases h.running hu with ⟨thu, hthu, hprocu⟩
    rcases hsame.thread_some hthu with ⟨thu', hthu', heq⟩
    exact ⟨thu', hthu', by rw [hprocu, heq]⟩

/-- The running thread stays, and nobody waits. -/
theorem tick_keep {r : Nat} (h : s.Sound) (hsame : SameObjects s s')
    (hother : ∀ d, d ≠ c → s'.core d = s.core d)
    (hrun : (s.core c).runningThread = some r) (hq' : s'.waitingQueue = [])
    (hrun' : (s'.core c).runningThread = some r)
    (hproc : (s'.core c).runningProcess = (s.core c).runningProcess ∨
      ∃ th, s.threads r = some th ∧ (s'.core c).runningProcess = some th.parentProcess) :
    s'.Sound := by
  have hcores : ∀ d, (s'.core d).runningThread = (s.core d).runningThread := by
    intro d
    by_cases hd : d = c
    · rw [hd, hrun', hrun]
    · rw [hother d hd]
  rcases h.running hrun with ⟨thr, hthr, hprocr⟩
  have hproc' : (s'.core c).runningProcess = some thr.parentProcess := by
    rcases hproc with hkept | ⟨thr', hthr', hnew⟩
    · rw [hkept, hprocr]
    · rw [hthr] at hthr'
      cases hthr'
      exact hnew
  refine
    { parent := hsame.owner fun _ _ => h.parent
      running := h.running_of_same hsame hother hrun' hthr hproc'
      waiting := ?_
      nodup := ?_
      apart := ?_
      alone := ?_ }
  · intro u hu
    rw [hq'] at hu
    cases hu
  · rw [hq']
    exact List.nodup_nil
  · intro d u _ hmem
    rw [hq'] at hmem
    cases hmem
  · intro d e u hd he
    rw [hcores] at hd he
    exact h.alone hd he

/-- The head of the queue gets the core. -/
theorem tick_switch {rest : List Nat} {th : Thread} (h : s.Sound) (hsame : SameObjects s s')
    (hother : ∀ d, d ≠ c → s'.core d = s.core d) (hq : s.waitingQueue = t :: rest)
    (hth : s.threads t = some th) (hrun' : (s'.core c).runningThread = some t)
    (hproc : (s'.core c).runningProcess = some th.parentProcess)
    (hq' : s'.waitingQueue = rest ∨ ∃ r, (s.core c).runningThread = some r ∧ r ≠ t ∧
      s'.waitingQueue = rest ++ [r]) : s'.Sound := by
  obtain ⟨hnodup, hhead, hmem⟩ := requeued hq h.nodup (fun _ hr => h.apart hr) hq'
  have hapart : ∀ {d u}, (s.core d).runningThread = some u → u ≠ t ∧ u ∉ rest := by
    intro d u hu
    have hnot := h.apart hu
    rw [hq, List.mem_cons, not_or] at hnot
    exact hnot
  refine
    { parent := hsame.owner fun _ _ => h.parent
      running := h.running_of_same hsame hother hrun' hth hproc
      waiting := ?_
      nodup := hnodup
      apart := ?_
      alone := ?_ }
  · intro u hu
    apply hsame.live
    rcases hmem u hu with hu | ⟨hu, _⟩
    · exact h.waiting (by rw [hq]; exact List.mem_cons_of_mem _ hu)
    · rcases h.running hu with ⟨thu, hthu, _⟩
      exact ⟨thu, hthu⟩
  · intro d u hu hw
    by_cases hd : d = c
    · subst hd
      rw [hrun'] at hu
      obtain rfl := Option.some.inj hu
      exact hhead hw
    · rw [hother d hd] at hu
      rcases hmem u hw with hw | ⟨hw, _⟩
      · exact (hapart hu).2 hw
      · exact hd (h.alone hu hw)
  · intro d e u hu hv
    by_cases hd : d = c <;> by_cases he : e = c
    · rw [hd, he]
    · rw [hd, hrun'] at hu
      rw [hother e he] at hv
      exact absurd (Option.some.inj hu).symm (hapart hv).1
    · rw [he, hrun'] at hv
      rw [hother d hd] at hu
      exact absurd (Option.some.inj hv).symm (hapart hu).1
    · rw [hother d hd] at hu
      rw [hother e he] at hv
      exact h.alone hu hv

/-- A tick moves the head of the queue to the core and the core's thread to its end. -/
theorem tick {regs : Context} {out : Option Context} (h : s.Sound)
    (hret : s.reschedule c regs = .ok (s', out)) : s'.Sound := by
  have hother : ∀ d, d ≠ c → s'.core d = s.core d :=
    fun d hd => reschedule_core hret hd
  rcases reschedule_cases hret with ⟨hsame, hmoved⟩
  rcases hmoved with ⟨r, hrun, _, hq', hrun', hproc⟩ | ⟨t, rest, th, hq, hth, hrun', hproc, hq'⟩
  · exact h.tick_keep hsame hother hrun hq' hrun' hproc
  · exact h.tick_switch hsame hother hq hth hrun' hproc hq'

end Sched.Sound

section Disciplined

variable [DecidableEq κ] {s s' : ProcessState κ} {e : LifeEvent κ} {c : κ}

/-- `exit_process` deletes the process of the core and its one thread. -/
theorem ProcessState.exitProcess_sound_cases (h : s.sched.Sound) (hpair : s.sched.Paired)
    (hret : s.exitProcess c = .ok s') :
    ∃ r th pr, (s.sched.core c).runningThread = some r ∧ s.sched.threads r = some th ∧
      s.sched.procs th.parentProcess = some pr ∧ pr.threads = [r] ∧
      s'.sched.threads = Function.update s.sched.threads r none ∧
      s'.sched.procs = Function.update s.sched.procs th.parentProcess none ∧
      s'.sched.waitingQueue = s.sched.waitingQueue := by
  unfold exitProcess at hret
  cases hp : (s.sched.core c).runningProcess with
  | none => simp [hp] at hret
  | some p =>
      cases hrun : (s.sched.core c).runningThread with
      | none =>
          rw [(hpair c).mp hrun] at hp
          cases hp
      | some r =>
          rcases h.running hrun with ⟨th, hth, hproc⟩
          rw [hp] at hproc
          obtain rfl := Option.some.inj hproc
          rcases h.parent hth with ⟨pr, hpr, hthreads⟩
          simp only [hp, bind_eq_ok, Sched.proc_of_some hpr] at hret
          rcases hret with ⟨pr', hpr', list, _, s₁, hfree, hret⟩
          obtain rfl := Except.ok.inj hpr'
          rw [hthreads] at hfree
          simp only [freeThreads, freeThread, bind_eq_ok, Sched.thread_eq_ok, hth, hrun] at hfree
          rcases hfree with ⟨s₂, ⟨th', hth', current, hcurrent, hone⟩, hfree⟩
          cases hth'
          cases hcurrent
          rw [if_pos rfl] at hone
          cases hone
          cases hfree
          cases hret
          exact ⟨r, th, pr, rfl, hth, hpr, hthreads, rfl, rfl, rfl⟩

/-- Of the others none is touched. -/
theorem Sched.Sound.exit (h : s.sched.Sound) (hpair : s.sched.Paired)
    (hret : s.exitProcess c = .ok s') : s'.sched.Sound := by
  have hcore := fun d => ProcessState.exitProcess_core (d := d) hret
  rcases ProcessState.exitProcess_sound_cases h hpair hret with
    ⟨r, th, pr, hrun, hth, hpr, hthreads, hthreads', hprocs', hq'⟩
  -- a thread of another core, or a waiting one, is another thread
  have hcores : ∀ {d u}, (s'.sched.core d).runningThread = some u →
      d ≠ c ∧ (s.sched.core d).runningThread = some u ∧ u ≠ r := by
    intro d u hu
    have hd : d ≠ c := by
      rintro rfl
      rw [(hcore d).1] at hu
      cases hu
    rw [(hcore d).2.2 hd] at hu
    refine ⟨hd, hu, ?_⟩
    rintro rfl
    exact hd (h.alone hu hrun)
  have hlive : ∀ {u thu}, u ≠ r → s.sched.threads u = some thu →
      s'.sched.threads u = some thu := by
    intro u thu hu hthu
    rw [hthreads', Function.update_of_ne hu, hthu]
  refine
    { parent := ?_
      running := ?_
      waiting := ?_
      nodup := by rw [hq']; exact h.nodup
      apart := ?_
      alone := ?_ }
  · intro u thu hu
    rw [hthreads'] at hu
    have hur : u ≠ r := by
      rintro rfl
      rw [Function.update_self] at hu
      cases hu
    rw [Function.update_of_ne hur] at hu
    rcases h.parent hu with ⟨pru, hpru, hsub⟩
    have hne : thu.parentProcess ≠ th.parentProcess := by
      intro heq
      rw [heq, hpr] at hpru
      obtain rfl := Option.some.inj hpru
      rw [hthreads] at hsub
      exact hur (List.singleton_inj.mp hsub).symm
    exact ⟨pru, by rw [hprocs', Function.update_of_ne hne, hpru], hsub⟩
  · intro d u hu
    rcases hcores hu with ⟨hd, hold, hur⟩
    rcases h.running hold with ⟨thu, hthu, hproc⟩
    refine ⟨thu, hlive hur hthu, ?_⟩
    rw [(hcore d).2.2 hd, hproc]
  · intro u hu
    rw [hq'] at hu
    rcases h.waiting hu with ⟨thu, hthu⟩
    refine ⟨thu, hlive ?_ hthu⟩
    rintro rfl
    exact h.apart hrun hu
  · intro d u hu
    rw [hq']
    exact h.apart (hcores hu).2.1
  · intro d e u hd he
    exact h.alone (hcores hd).2.1 (hcores he).2.1

omit [DecidableEq κ] in
/-- Everything a tick reads is there. -/
theorem Sched.Sound.readable {sched : Sched κ} (h : sched.Sound) (c : κ) :
    sched.Readable c := by
  constructor
  · intro t ht
    have hlive : ∃ th, sched.threads t = some th := by
      rcases List.mem_append.mp ht with hrun | hwait
      · rcases h.running (Option.mem_toList.mp hrun) with ⟨th, hth, _⟩
        exact ⟨th, hth⟩
      · exact h.waiting hwait
    rcases hlive with ⟨th, hth⟩
    rcases h.parent hth with ⟨pr, hpr, _⟩
    exact ⟨th, pr, hth, hpr⟩
  · intro r hr
    rcases h.running hr with ⟨th, hth, hproc⟩
    rcases h.parent hth with ⟨pr, hpr, hthreads⟩
    refine ⟨th.parentProcess, pr, hproc, hpr, ?_⟩
    intro u hu
    rw [hthreads, List.mem_singleton] at hu
    exact ⟨th, hu ▸ hth⟩

/-- A thread is queued only while it neither waits nor runs. -/
def LifeEvent.QueuesFree (s : ProcessState κ) : LifeEvent κ → Prop
  | .queue t => s.sched.Free t
  | _ => True

/-- A step that keeps to that. -/
def DisciplinedStep (s : ProcessState κ) (e : LifeEvent κ) (s' : ProcessState κ) : Prop :=
  LifeStep s e s' ∧ e.QueuesFree s

instance LifeEvent.decidableQueuesFree [Fintype κ] (s : ProcessState κ) (e : LifeEvent κ) :
    Decidable (e.QueuesFree s) :=
  match e with
  | .queue t => inferInstanceAs (Decidable
      (t ∉ s.sched.waitingQueue ∧ ∀ c, (s.sched.core c).runningThread ≠ some t))
  | .createProcess .. => inferInstanceAs (Decidable True)
  | .fork .. => inferInstanceAs (Decidable True)
  | .execve .. => inferInstanceAs (Decidable True)
  | .exit _ => inferInstanceAs (Decidable True)
  | .tick .. => inferInstanceAs (Decidable True)

/-- The step as a function. -/
def ProcessState.attemptDisciplined [Fintype κ] (s : ProcessState κ) (e : LifeEvent κ) :
    Option (ProcessState κ) :=
  if e.QueuesFree s then s.attempt e else none

theorem disciplinedStep_of_attempt [Fintype κ] (h : s.attemptDisciplined e = some s') :
    DisciplinedStep s e s' := by
  unfold ProcessState.attemptDisciplined at h
  split at h
  · exact ⟨lifeStep_of_attempt h, ‹_›⟩
  · cases h

theorem sound_step (h : s.sched.Sound) (hpair : s.sched.Paired)
    (hstep : DisciplinedStep s e s') : s'.sched.Sound := by
  rcases hstep with ⟨⟨hok, hret⟩, hfree⟩
  cases e with
  | createProcess new rip cs pagemap dir =>
      cases hret
      rcases ProcessState.createProcess_sched
          (Prod.eta (s.createProcess new rip cs pagemap dir)).symm with ⟨_, hspawn⟩ | ⟨_, hsame⟩
      · exact h.spawn hok.1 hok.2 hspawn
      · rw [hsame]
        exact h
  | fork c regs new pagemap fdList =>
      simp only [ProcessState.exec, bind_eq_ok] at hret
      rcases hret with ⟨⟨rax, s₁⟩, hfork, hret⟩
      cases hret
      rcases ProcessState.fork_sched hfork with ⟨sched, hspawn, hs₁⟩ | ⟨pr, hs₁⟩
      · rcases hspawn.thread with ⟨th, hth, _⟩
        rw [hs₁]
        exact (h.spawn hok.1 hok.2 hspawn).queue ⟨th, hth⟩
          (h.free_of_spawned hok.2 hspawn)
      · rw [hs₁]
        exact h.addProc hok.1 pr
  | execve c new file argc =>
      simp only [ProcessState.exec, bind_eq_ok] at hret
      rcases hret with ⟨⟨rax, s₁⟩, hexecve, hret⟩
      cases hret
      rcases ProcessState.execve_sched hexecve with hsame | ⟨s₂, sched, hspawn, hs₂, hexit⟩
      · rw [hsame]
        exact h
      · rcases hspawn.thread with ⟨th, hth, _⟩
        have hqueued := (h.spawn hok.1 hok.2 hspawn).queue ⟨th, hth⟩
          (h.free_of_spawned hok.2 hspawn)
        rw [← hs₂] at hqueued
        refine hqueued.exit (hpair.of_core ?_) hexit
        rw [hs₂, Sched.queue_core, hspawn.core]
  | exit c => exact h.exit hpair hret
  | queue t =>
      cases hret
      exact h.queue (Option.ne_none_iff_exists'.mp hok) hfree
  | tick c regs =>
      simp only [ProcessState.exec, bind_eq_ok] at hret
      rcases hret with ⟨⟨sched, out⟩, htick, hret⟩
      cases hret
      exact h.tick htick

/-- In every state that calls which make and end processes, `queue` and ticks on any core
lead to, a tick on a core is defined if and only if a thread runs there or one waits; and
if threads were queued only while free, it returns if and only if that is so. -/
theorem tick_defined_iff {es : List (LifeEvent κ)} (hrun : Run LifeStep .boot es s)
    (c : κ) :
    (s.sched.TickDefined c ↔ s.sched.Busy c) ∧
      (Run DisciplinedStep .boot es s →
        ((∀ regs, ∃ r, s.sched.reschedule c regs = .ok r) ↔ s.sched.Busy c)) := by
  have hboot : (ProcessState.boot : ProcessState κ).sched.Paired := fun _ => Iff.rfl
  have hpair : s.sched.Paired :=
    hrun.invariant (I := fun s => s.sched.Paired) paired_step hboot
  have hdefined : s.sched.TickDefined c ↔ s.sched.Busy c :=
    Sched.tickDefined_iff fun hrunning hnone => hrunning ((hpair c).mpr hnone)
  refine ⟨hdefined, fun hdisc => ?_⟩
  have hsound : s.sched.Sound ∧ s.sched.Paired :=
    hdisc.invariant (I := fun s => s.sched.Sound ∧ s.sched.Paired)
      (fun h hstep => ⟨sound_step h.1 h.2 hstep, paired_step h.2 hstep.1⟩)
      ⟨Sched.Sound.boot, hboot⟩
  constructor
  · intro hreturns
    by_contra hidle
    rw [Sched.not_busy_iff] at hidle
    rcases hreturns default with ⟨r, hret⟩
    rw [Sched.reschedule_idle_empty hidle.1 hidle.2] at hret
    cases hret
  · intro hbusy regs
    rcases Sched.reschedule_of_readable (hsound.1.readable c) regs with
      ⟨s', out, hret⟩ | hnull
    · exact ⟨_, hret⟩
    · exact absurd hnull (hdefined.mpr hbusy regs).1

end Disciplined

/-- A process that runs alone on its core: the tick is defined and returns. -/
theorem tick_defined_one_process :
    ∃ s : ProcessState Unit, s.sched.TickDefined () ∧
      ∀ regs, ∃ r, s.sched.reschedule () regs = .ok r := by
  have hend : (([.createProcess (objectsAt 10) 0x1000 0x1b 7 0, .queue 11,
      .tick () default] : List (LifeEvent Unit)).foldlM ProcessState.attemptDisciplined
        .boot).map (fun s => (s.sched.core ()).runningThread) = some (some 11) := by
    decide +kernel
  obtain ⟨s, hs, hc⟩ := Option.map_eq_some_iff.mp hend
  have hdisc := Run.of_foldlM disciplinedStep_of_attempt hs
  have hrun : Run LifeStep .boot _ s := hdisc.mono fun hstep => hstep.1
  have hbusy : s.sched.Busy () := by
    refine .inl ?_
    rw [hc]
    simp
  have h := tick_defined_iff hrun ()
  exact ⟨s, h.1.mpr hbusy, (h.2 hdisc).mpr hbusy⟩

/-- It exits, and the next tick on the core reads through null. -/
theorem tick_after_exit :
    ∃ s : ProcessState Unit,
      Run LifeStep .boot [.createProcess (objectsAt 10) 0x1000 0x1b 7 0, .queue 11,
        .tick () default, .exit ()] s ∧
      s.sched.reschedule () default = .error .nullDeref ∧ ¬s.sched.TickDefined () := by
  have hend : (([.createProcess (objectsAt 10) 0x1000 0x1b 7 0, .queue 11,
      .tick () default, .exit ()] :
        List (LifeEvent Unit)).foldlM ProcessState.attempt .boot).map
          (fun s => ((s.sched.core ()).runningThread, s.sched.waitingQueue)) =
      some (none, []) := by decide +kernel
  obtain ⟨s, hs, hc⟩ := Option.map_eq_some_iff.mp hend
  simp only [Prod.mk.injEq] at hc
  have hnull : s.sched.reschedule () default = .error .nullDeref :=
    Sched.reschedule_idle_empty hc.1 hc.2
  exact ⟨s, Run.of_foldlM lifeStep_of_attempt hs, hnull, fun h => (h default).1 hnull⟩

end Toystar.Scheduler

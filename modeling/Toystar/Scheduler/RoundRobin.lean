import Toystar.Klibc.Queue
import Toystar.Scheduler.Tick
import Toystar.Verified.Rotation

/-!
# Round robin

One core and nothing but its timer.  A tick gives the core to the head of `waiting_queue`
and puts the thread it takes it from at the end, so the running thread and the queue behind
it are a line that rotates by one place at each tick: every thread runs once in as many
ticks as there are threads.

The line is followed twice, with the queue as the list that `Sched.reschedule` has, and
with the queue as the vector it is in memory, which `pop` shifts by one place.
-/

namespace Toystar.Scheduler

open Toystar.Kernel
open Toystar.Klibc
open Toystar.Verified

variable {κ : Type}

/-! ## Threads that can run -/

namespace Sched

/-- The process exists, and so do its threads. -/
def LiveProcess (s : Sched κ) (p : Nat) : Prop :=
  ∃ pr, s.procs p = some pr ∧ ∀ t ∈ pr.threads, ∃ th, s.threads t = some th

/-- The thread exists, is not to die, and belongs to a process that exists. -/
def Runnable (s : Sched κ) (t : Nat) : Prop :=
  ∃ th, s.threads t = some th ∧ th.status ≠ .dying ∧ s.LiveProcess th.parentProcess

variable {s s' : Sched κ} {c : κ} {t u p q : Nat} {th th' : Thread} {pr pr' : Process}
  {regs : Context}

theorem LiveProcess.congr (h : s.LiveProcess p) (hthreads : s'.threads = s.threads)
    (hprocs : s'.procs = s.procs) : s'.LiveProcess p := by
  unfold LiveProcess
  rw [hthreads, hprocs]
  exact h

theorem LiveProcess.same (h : s.LiveProcess p) (hsame : SameObjects s s') :
    s'.LiveProcess p := by
  obtain ⟨pr, hpr, hlive⟩ := h
  obtain ⟨pr', hpr', hthreads⟩ := hsame.proc_some hpr
  refine ⟨pr', hpr', ?_⟩
  intro t ht
  rw [hthreads] at ht
  obtain ⟨th, hth⟩ := hlive t ht
  obtain ⟨th', hth', _⟩ := hsame.thread_some hth
  exact ⟨th', hth'⟩

theorem Runnable.congr (h : s.Runnable t) (hthreads : s'.threads = s.threads)
    (hprocs : s'.procs = s.procs) : s'.Runnable t := by
  obtain ⟨th, hth, hst, hlive⟩ := h
  exact ⟨th, by rw [hthreads, hth], hst, hlive.congr hthreads hprocs⟩

/-- A thread got another status or other registers, and was not marked. -/
theorem Runnable.setThread (h : s.Runnable t) (hu : s.threads u = some th)
    (hid : th'.identity = th.identity) (hst : th'.status ≠ .dying) :
    (s.setThread u th').Runnable t := by
  have hsame : SameObjects s (s.setThread u th') := .setThread hu hid
  obtain ⟨tht, htht, hstt, hlive⟩ := h
  by_cases htu : t = u
  · subst htu
    rw [hu] at htht
    cases htht
    have hparent : th'.parentProcess = th.parentProcess := congrArg Prod.snd hid
    refine ⟨th', update_eq_some.mpr (.inl ⟨rfl, rfl⟩), hst, ?_⟩
    rw [hparent]
    exact hlive.same hsame
  · exact ⟨tht, update_eq_some.mpr (.inr ⟨htu, htht⟩), hstt, hlive.same hsame⟩

theorem Runnable.setProc (h : s.Runnable t) (hp : s.procs p = some pr)
    (hid : pr'.identity = pr.identity) : (s.setProc p pr').Runnable t := by
  obtain ⟨th, hth, hst, hlive⟩ := h
  exact ⟨th, hth, hst, hlive.same (.setProc hp hid)⟩

/-! ## The line -/

/-- A core that runs the first thread of a line while the others wait. -/
structure InLine (s : Sched κ) (c : κ) (r : Nat) (q : List Nat) : Prop where
  running : (s.core c).runningThread = some r
  process : ∃ p, (s.core c).runningProcess = some p ∧ s.LiveProcess p
  waiting : s.waitingQueue = q
  distinct : (r :: q).Nodup
  runnable : ∀ t ∈ r :: q, s.Runnable t

/-- The log of a tick reads threads that are there. -/
theorem InLine.inspected {r : Nat} {q : List Nat} (h : s.InLine c r q) :
    s.inspect (s.core c).runningThread.toList = .ok () ∧
      s.inspect s.waitingQueue = .ok () := by
  have hlive : ∀ t ∈ r :: q, ∃ th, s.threads t = some th := by
    intro t ht
    obtain ⟨th, hth, _⟩ := h.runnable t ht
    exact ⟨th, hth⟩
  constructor
  · rw [h.running]
    exact inspect_ok fun t ht => hlive t (by simp_all)
  · rw [h.waiting]
    exact inspect_ok fun t ht => hlive t (List.mem_cons_of_mem r ht)

/-- The previous thread goes to the end of the queue, and no thread is marked. -/
theorem preempt_runnable (regs : Context) {r : Nat} (hrun : (s.core c).runningThread = some r)
    (hproc : ∃ p, (s.core c).runningProcess = some p ∧ s.LiveProcess p) (hne : r ≠ t)
    (hr : s.Runnable r) :
    ∃ s', s.preempt c t regs = .ok s' ∧ s'.core = s.core ∧
      s'.waitingQueue = s.waitingQueue ++ [r] ∧ SameObjects s s' ∧
      ∀ u, s.Runnable u → s'.Runnable u := by
  obtain ⟨p, hp, hlive⟩ := hproc
  obtain ⟨th, hth, hst, _⟩ := hr
  obtain ⟨saved, hsaved⟩ : ∃ x, x =
    s.setThread r { th with status := .waiting, regs := regs } := ⟨_, rfl⟩
  have hsame : SameObjects s saved := by
    rw [hsaved]
    exact .setThread hth rfl
  obtain ⟨pr, hpr, hthreads⟩ := hlive.same hsame
  obtain ⟨b, hb, _⟩ := anyRunning_ok hthreads
  have hstatus : SameObjects s (saved.setProc p
      { pr with status := if b then .running else .waiting }) :=
    hsame.trans (.setProc hpr rfl)
  refine ⟨(saved.setProc p { pr with status := if b then .running else .waiting }).queue r,
    ?_, ?_, ?_, ⟨hstatus.threads, hstatus.procs⟩, ?_⟩
  · unfold preempt
    simp only [hrun, if_neg hne, thread_of_some hth, ok_bind, if_pos hst,
      setThread_core, hp, ← hsaved, proc_of_some hpr, hb]
  · rw [hsaved]
    rfl
  · rw [hsaved]
    rfl
  · intro u hu
    have hmarked : saved.Runnable u := by
      rw [hsaved]
      exact hu.setThread hth rfl fun hcontra => by cases hcontra
    have hrecomputed : (saved.setProc p
        { pr with status := if b then .running else .waiting }).Runnable u :=
      hmarked.setProc hpr rfl
    exact hrecomputed.congr rfl rfl

variable [DecidableEq κ]

theorem switchTo_runnable (ht : s.Runnable t) :
    ∃ s' out, s.switchTo c t = .ok (s', some out) ∧ s'.waitingQueue = s.waitingQueue ∧
      (s'.core c).runningThread = some t ∧
      (∃ p, (s'.core c).runningProcess = some p ∧ s'.LiveProcess p) ∧
      ∀ u, s.Runnable u → s'.Runnable u := by
  obtain ⟨th, hth, hst, pr, hpr, hthreads⟩ := ht
  obtain ⟨s', hret, hthreads', hprocs'⟩ : ∃ s', s.switchTo c t = .ok (s', some th.regs) ∧
      s'.threads = ((s.setProc th.parentProcess { pr with status := .running }).setThread t
        { th with status := .running }).threads ∧
      s'.procs = (s.setProc th.parentProcess { pr with status := .running }).procs := by
    unfold switchTo
    rw [thread_of_some hth, ok_bind, proc_of_some hpr, ok_bind]
    exact ⟨_, rfl, rfl, rfl⟩
  obtain ⟨th', hth', hsame, hq, hrun, hproc⟩ := switchTo_cases hret
  rw [hth] at hth'
  cases hth'
  have hlive : s.LiveProcess th.parentProcess := ⟨pr, hpr, hthreads⟩
  refine ⟨s', th.regs, hret, hq, hrun, ⟨_, hproc, hlive.same hsame⟩, ?_⟩
  intro u hu
  have hproc' : (s.setProc th.parentProcess { pr with status := .running }).Runnable u :=
    hu.setProc hpr rfl
  have hstarted : ((s.setProc th.parentProcess { pr with status := .running }).setThread t
      { th with status := .running }).Runnable u :=
    hproc'.setThread hth rfl fun hcontra => by cases hcontra
  exact hstarted.congr hthreads' hprocs'

/-- Nobody waits: the running thread is taken again. -/
theorem InLine.tick_alone {r : Nat} (h : s.InLine c r []) (regs : Context) :
    ∃ s' out, s.reschedule c regs = .ok (s', some out) ∧ s'.InLine c r [] := by
  obtain ⟨th, hth, hst, hproc⟩ := h.runnable r List.mem_cons_self
  obtain ⟨saved, hsaved⟩ : ∃ x, x = s.setThread r { th with regs := regs } := ⟨_, rfl⟩
  have hpick : s.pickNext c regs = .ok (some r, saved) := by
    unfold pickNext
    simp only [h.waiting, h.running, thread_of_some hth, ok_bind, if_pos hst, hsaved]
  have hcore : saved.core = s.core := by
    rw [hsaved]
    rfl
  have hpre : saved.preempt c r regs = .ok saved := by
    unfold preempt
    simp only [hcore, h.running, if_pos]
  have hrunnable : saved.Runnable r := by
    rw [hsaved]
    exact (h.runnable r List.mem_cons_self).setThread hth rfl hst
  obtain ⟨s', out, hswitch, hq', hrun', hproc', hall⟩ := switchTo_runnable (c := c) hrunnable
  refine ⟨s', out, ?_, hrun', hproc', ?_, h.distinct, ?_⟩
  · simp only [reschedule, h.inspected.1, h.inspected.2, ok_bind, hpick, hpre, hswitch]
  · rw [hq', hsaved]
    exact h.waiting
  · intro t ht
    rw [List.mem_singleton] at ht
    rw [ht]
    exact hall r hrunnable

/-- The first of those who wait takes the core, and the running thread waits behind the
others. -/
theorem InLine.tick_next {r : Nat} {rest : List Nat} (h : s.InLine c r (t :: rest))
    (regs : Context) :
    ∃ s' out, s.reschedule c regs = .ok (s', some out) ∧ s'.InLine c t (rest ++ [r]) := by
  have hne : r ≠ t := by
    intro heq
    exact (List.nodup_cons.mp h.distinct).1 (heq ▸ List.mem_cons_self)
  obtain ⟨popped, hpopped⟩ : ∃ x : Sched κ, x = { s with waitingQueue := rest } := ⟨_, rfl⟩
  have hpick : s.pickNext c regs = .ok (some t, popped) := by
    unfold pickNext
    simp only [h.waiting, hpopped]
  have hsame : popped.threads = s.threads ∧ popped.procs = s.procs ∧
      popped.core = s.core := by
    rw [hpopped]
    exact ⟨rfl, rfl, rfl⟩
  obtain ⟨p, hp, hplive⟩ := h.process
  obtain ⟨s₂, hpre, hcore₂, hq₂, _, hall₂⟩ := preempt_runnable (s := popped) (c := c) (t := t)
    regs (r := r) (by rw [hsame.2.2]; exact h.running)
    ⟨p, by rw [hsame.2.2]; exact hp, hplive.congr hsame.1 hsame.2.1⟩ hne
    ((h.runnable r List.mem_cons_self).congr hsame.1 hsame.2.1)
  have hrunnable : ∀ u ∈ r :: t :: rest, s₂.Runnable u := fun u hu =>
    hall₂ u ((h.runnable u hu).congr hsame.1 hsame.2.1)
  obtain ⟨s', out, hswitch, hq', hrun', hproc', hall⟩ := switchTo_runnable (c := c)
    (hrunnable t (by simp))
  refine ⟨s', out, ?_, hrun', hproc', ?_, ?_, ?_⟩
  · simp only [reschedule, h.inspected.1, h.inspected.2, ok_bind, hpick, hpre, hswitch]
  · rw [hq', hq₂, hpopped]
  · have hperm : (t :: rest ++ [r]).Nodup := List.nodup_append_comm.mpr h.distinct
    exact hperm
  · intro u hu
    apply hall
    apply hrunnable
    simp only [List.mem_cons, List.mem_append, List.not_mem_nil, or_false] at hu ⊢
    tauto

/-- One tick: the line moves up by one place. -/
theorem InLine.tick {r : Nat} {q : List Nat} (h : s.InLine c r q) (regs : Context) :
    ∃ s' out r' q', s.reschedule c regs = .ok (s', some out) ∧ s'.InLine c r' q' ∧
      r' :: q' = (r :: q).rotate 1 := by
  cases q with
  | nil =>
      obtain ⟨s', out, hret, hline⟩ := h.tick_alone regs
      exact ⟨s', out, r, [], hret, hline, (List.rotate_singleton r 1).symm⟩
  | cons t rest =>
      obtain ⟨s', out, hret, hline⟩ := h.tick_next regs
      refine ⟨s', out, t, rest ++ [r], hret, hline, ?_⟩
      rw [List.rotate_cons_succ, List.rotate_zero]
      rfl

end Sched

/-! ## The queue in memory -/

/-- The scheduler with `waiting_queue` as the vector it is.  The list of `objects` is empty
between the steps: what `Sched::queue` puts there is pushed to the vector. -/
structure QueuedSched (κ : Type) where
  objects : Sched κ
  waitingQueue : ToysVector
  arrays : Arrays Nat

/-- The same objects with another queue. -/
def Sched.withQueue (s : Sched κ) (q : List Nat) : Sched κ := { s with waitingQueue := q }

namespace QueuedSched

/-- The log reads the threads at `n` indices of the queue, from `i` on. -/
def inspectQueue (s : QueuedSched κ) : Nat → Nat → Except Fault Unit
  | 0, _ => .ok ()
  | n + 1, i => do
      let t ← s.waitingQueue.get s.arrays i
      let _ ← s.objects.thread t
      s.inspectQueue n (i + 1)

/-- The thread to run next, popped from the vector; `beyond` lies behind its array. -/
def pickNext (s : QueuedSched κ) (c : κ) (beyond : Option Nat) (regs : Context) :
    Except Fault (Option Nat × QueuedSched κ) := do
  let (queueObj, waitingQueue, arrays) ← Queue.pop s.waitingQueue s.arrays beyond
  match queueObj with
  | some t => return (some t, { s with waitingQueue, arrays })
  | none => do
      let (next, objects) ← s.objects.pickNext c regs
      return (next, ⟨objects, waitingQueue, arrays⟩)

/-- The previous thread is pushed to the vector. -/
def preempt (s : QueuedSched κ) (c : κ) (scheduled : Nat) (regs : Context) :
    Except Fault (QueuedSched κ) := do
  let objects ← s.objects.preempt c scheduled regs
  let (waitingQueue, arrays) ← Queue.pushAll s.waitingQueue s.arrays objects.waitingQueue
  return ⟨objects.withQueue [], waitingQueue, arrays⟩

/-- `Sched::reschedule`. -/
def reschedule [DecidableEq κ] (s : QueuedSched κ) (c : κ) (beyond : Option Nat)
    (regs : Context) : Except Fault (QueuedSched κ × Option Context) := do
  s.objects.inspect (s.objects.core c).runningThread.toList
  s.inspectQueue s.waitingQueue.size 0
  let (next, s) ← s.pickNext c beyond regs
  match next with
  | none => return (s, none)
  | some scheduled => do
      let s ← s.preempt c scheduled regs
      let (objects, out) ← s.objects.switchTo c scheduled
      return ({ s with objects }, out)

/-- `m` ticks of core `c`; tick `i` finds `regs i` in the registers and `beyond i` behind
the array. -/
def ticks [DecidableEq κ] (c : κ) (beyond : Nat → Option Nat) (regs : Nat → Context) :
    Nat → QueuedSched κ → Except Fault (QueuedSched κ)
  | 0, s => .ok s
  | m + 1, s => do
      let s ← ticks c beyond regs m s
      return (← s.reschedule c (beyond m) (regs m)).1

/-- The vector holds the queue of `t`, and the objects are those of `t`. -/
structure Implements (s : QueuedSched κ) (t : Sched κ) : Prop where
  objects : s.objects = t.withQueue []
  queue : s.waitingQueue.Holds s.arrays t.waitingQueue

end QueuedSched

/-! ### The list and the vector -/

namespace Sched

variable {s : Sched κ} {c : κ} {t : Nat} {regs : Context}

@[simp] theorem withQueue_core (s : Sched κ) (q : List Nat) : (s.withQueue q).core = s.core :=
  rfl

@[simp] theorem withQueue_thread (s : Sched κ) (q : List Nat) (t : Nat) :
    (s.withQueue q).thread t = s.thread t := rfl

@[simp] theorem withQueue_proc (s : Sched κ) (q : List Nat) (p : Nat) :
    (s.withQueue q).proc p = s.proc p := rfl

@[simp] theorem withQueue_setThread (s : Sched κ) (q : List Nat) (t : Nat) (th : Thread) :
    (s.withQueue q).setThread t th = (s.setThread t th).withQueue q := rfl

@[simp] theorem withQueue_setProc (s : Sched κ) (q : List Nat) (p : Nat) (pr : Process) :
    (s.withQueue q).setProc p pr = (s.setProc p pr).withQueue q := rfl

@[simp] theorem withQueue_waitingQueue (s : Sched κ) (q : List Nat) :
    (s.withQueue q).waitingQueue = q := rfl

@[simp] theorem withQueue_withQueue (s : Sched κ) (q q' : List Nat) :
    (s.withQueue q).withQueue q' = s.withQueue q' := rfl

@[simp] theorem inspect_withQueue (s : Sched κ) (q ts : List Nat) :
    (s.withQueue q).inspect ts = s.inspect ts := by
  induction ts with
  | nil => rfl
  | cons t ts ih => simp only [inspect, withQueue_thread, ih]

@[simp] theorem anyRunning_withQueue (s : Sched κ) (q ts : List Nat) :
    (s.withQueue q).anyRunning ts = s.anyRunning ts := by
  induction ts with
  | nil => rfl
  | cons t ts ih => simp only [anyRunning, withQueue_thread, ih]

/-- `preempt` appends to the queue, whatever is in it. -/
theorem preempt_withQueue (s : Sched κ) (q : List Nat) (c : κ) (t : Nat) (regs : Context) :
    (s.withQueue q).preempt c t regs =
      ((s.withQueue []).preempt c t regs).map fun s' => s'.withQueue (q ++ s'.waitingQueue) := by
  unfold preempt
  simp only [withQueue_core, withQueue_thread, withQueue_setThread, withQueue_proc,
    anyRunning_withQueue, withQueue_setProc]
  cases (s.core c).runningThread with
  | none => simp [Except.map]
  | some r =>
      dsimp only
      by_cases hrt : r = t
      · simp [hrt, Except.map]
      · simp only [if_neg hrt]
        cases s.thread r with
        | error e => rfl
        | ok th =>
            simp only [ok_bind]
            by_cases hst : th.status ≠ .dying
            · simp only [if_pos hst]
              cases ((s.setThread r { th with status := .waiting, regs := regs }).core
                  c).runningProcess with
              | none => rfl
              | some p =>
                  dsimp only
                  cases (s.setThread r { th with status := .waiting, regs := regs }).proc p with
                  | error e => rfl
                  | ok pr =>
                      simp only [ok_bind]
                      cases (s.setThread r { th with
                          status := .waiting, regs := regs }).anyRunning pr.threads with
                      | error e => rfl
                      | ok running => rfl
            · simp [if_neg hst, Except.map]

theorem switchTo_withQueue [DecidableEq κ] (s : Sched κ) (q : List Nat) (c : κ) (t : Nat) :
    (s.withQueue q).switchTo c t =
      ((s.withQueue []).switchTo c t).map fun r => (r.1.withQueue q, r.2) := by
  unfold switchTo
  simp only [withQueue_thread, withQueue_proc]
  cases s.thread t with
  | error e => rfl
  | ok th =>
      simp only [ok_bind]
      cases s.proc th.parentProcess with
      | error e => rfl
      | ok pr => rfl

end Sched

namespace QueuedSched

variable {s : QueuedSched κ} {t t' : Sched κ} {c : κ} {regs : Context}

/-- The log reads the waiting threads. -/
theorem Implements.inspectQueue (h : s.Implements t) (n i : Nat)
    (hn : i + n = t.waitingQueue.length) :
    s.inspectQueue n i = t.inspect (t.waitingQueue.drop i) := by
  induction n generalizing i with
  | zero =>
      rw [List.drop_eq_nil_of_le (by omega)]
      rfl
  | succ n ih =>
      have hi : i < t.waitingQueue.length := by omega
      rw [QueuedSched.inspectQueue, h.queue.get hi, ok_bind, List.drop_eq_getElem_cons hi,
        Sched.inspect, ih (i + 1) (by omega), h.objects, Sched.withQueue_thread]

theorem Implements.pickNext (h : s.Implements t) {next : Option Nat}
    (hret : t.pickNext c regs = .ok (next, t')) (beyond : Option Nat) :
    ∃ s', s.pickNext c beyond regs = .ok (next, s') ∧ s'.Implements t' := by
  obtain ⟨q, arrays, hpop, hholds⟩ := Queue.pop_of_holds h.queue beyond
  unfold QueuedSched.pickNext
  rw [hpop, ok_bind]
  cases hq : t.waitingQueue with
  | cons u rest =>
      rw [hq] at hholds
      unfold Sched.pickNext at hret
      rw [hq] at hret
      cases hret
      exact ⟨_, rfl, h.objects, hholds⟩
  | nil =>
      rw [hq] at hholds
      have hobjects : s.objects = t := by
        rw [h.objects, Sched.withQueue, ← hq]
      have hempty := (Sched.pickNext_cases hret).2.2
      have hq' : t'.waitingQueue = [] := by
        rcases hempty with ⟨u, rest, hcons, _⟩ | ⟨_, _, _, _, hnil⟩
        · rw [hq] at hcons
          cases hcons
        · exact hnil
      refine ⟨⟨t', q, arrays⟩, ?_, ?_, ?_⟩
      · show (do
          let (next, objects) ← s.objects.pickNext c regs
          return (next, (⟨objects, q, arrays⟩ : QueuedSched κ))) = _
        rw [hobjects, hret, ok_bind]
        rfl
      · show t' = { t' with waitingQueue := [] }
        rw [← hq']
      · rw [hq']
        exact hholds

theorem Implements.preempt (h : s.Implements t) {scheduled : Nat}
    (hret : t.preempt c scheduled regs = .ok t') :
    ∃ s', s.preempt c scheduled regs = .ok s' ∧ s'.Implements t' := by
  have hsame : t = t.withQueue t.waitingQueue := rfl
  rw [hsame, Sched.preempt_withQueue] at hret
  unfold QueuedSched.preempt
  rw [h.objects]
  cases hobjects : (t.withQueue []).preempt c scheduled regs with
  | error e =>
      rw [hobjects] at hret
      cases hret
  | ok objects =>
      rw [hobjects] at hret
      cases hret
      obtain ⟨q, arrays, hpush, hholds⟩ := Queue.pushAll_of_holds h.queue objects.waitingQueue
      refine ⟨⟨objects.withQueue [], q, arrays⟩, ?_, rfl, hholds⟩
      rw [ok_bind, hpush]
      rfl

variable [DecidableEq κ]

/-- A tick on the vector does what the tick on the list does. -/
theorem Implements.reschedule (h : s.Implements t) {out : Option Context}
    (hret : t.reschedule c regs = .ok (t', out)) (beyond : Option Nat) :
    ∃ s', s.reschedule c beyond regs = .ok (s', out) ∧ s'.Implements t' := by
  simp only [Sched.reschedule, bind_eq_ok] at hret
  obtain ⟨_, hrunning, _, hwaiting, ⟨next, t₁⟩, hpick, hret⟩ := hret
  obtain ⟨s₁, hpick', h₁⟩ := h.pickNext hpick beyond
  have hinspect : s.inspectQueue s.waitingQueue.size 0 = .ok () := by
    rw [h.inspectQueue _ 0 (by rw [h.queue.size_eq, Nat.zero_add])]
    exact hwaiting
  unfold QueuedSched.reschedule
  rw [h.objects, Sched.withQueue_core, Sched.inspect_withQueue, hrunning, ok_bind, hinspect,
    ok_bind, hpick', ok_bind]
  cases next with
  | none =>
      cases hret
      exact ⟨s₁, rfl, h₁⟩
  | some scheduled =>
      rw [bind_eq_ok] at hret
      obtain ⟨t₂, hpre, hswitch⟩ := hret
      obtain ⟨s₂, hpre', h₂⟩ := h₁.preempt hpre
      have hsame : t₂ = t₂.withQueue t₂.waitingQueue := rfl
      rw [hsame, Sched.switchTo_withQueue] at hswitch
      dsimp only
      rw [hpre', ok_bind, h₂.objects]
      cases hobjects : (t₂.withQueue []).switchTo c scheduled with
      | error e =>
          rw [hobjects] at hswitch
          cases hswitch
      | ok r =>
          rw [hobjects] at hswitch
          cases hswitch
          obtain ⟨th, _, _, hq, _⟩ := Sched.switchTo_cases hobjects
          refine ⟨⟨r.1, s₂.waitingQueue, s₂.arrays⟩, rfl, ?_, h₂.queue⟩
          show r.1 = { r.1 with waitingQueue := [] }
          rw [Sched.withQueue_waitingQueue] at hq
          rw [← hq]

end QueuedSched

/-! ## Rounds -/

namespace QueuedSched

/-- `running_thread` of a core. -/
def running (s : QueuedSched κ) (c : κ) : Option Nat := (s.objects.core c).runningThread

/-- The running thread of a core and the queue behind it. -/
def line (s : QueuedSched κ) (c : κ) : List Nat :=
  (s.running c).toList ++ s.waitingQueue.elements s.arrays

variable {s : QueuedSched κ} {t : Sched κ} {c : κ} {r : Nat} {q : List Nat}

theorem Implements.line (h : s.Implements t) (hline : t.InLine c r q) :
    s.line c = r :: q := by
  rw [QueuedSched.line, running, h.objects, Sched.withQueue_core, hline.running,
    h.queue.elements, hline.waiting]
  rfl

variable [DecidableEq κ]

/-- The line after some ticks. -/
theorem ticks_line (h : s.Implements t) (hline : t.InLine c r q)
    (beyond : Nat → Option Nat) (regs : Nat → Context) (m : Nat) :
    ∃ s', ticks c beyond regs m s = .ok s' ∧ s'.line c = (r :: q).rotate m ∧
      s'.running c = ((r :: q).rotate m).head? := by
  have hticks : ∃ s' t' r' q', ticks c beyond regs m s = .ok s' ∧ s'.Implements t' ∧
      t'.InLine c r' q' ∧ r' :: q' = (r :: q).rotate m := by
    induction m with
    | zero => exact ⟨s, t, r, q, rfl, h, hline, (List.rotate_zero _).symm⟩
    | succ m ih =>
        obtain ⟨s₁, t₁, r₁, q₁, hticks, himp, hline₁, hrotate⟩ := ih
        obtain ⟨t₂, out, r₂, q₂, hret, hline₂, hstep⟩ := hline₁.tick (regs m)
        obtain ⟨s₂, hret', himp₂⟩ := himp.reschedule hret (beyond m)
        refine ⟨s₂, t₂, r₂, q₂, ?_, himp₂, hline₂, ?_⟩
        · rw [ticks, hticks, ok_bind, hret']
          rfl
        · rw [hstep, hrotate, List.rotate_rotate]
  obtain ⟨s', t', r', q', hret, himp, hline', hrotate⟩ := hticks
  refine ⟨s', hret, ?_, ?_⟩
  · rw [himp.line hline', hrotate]
  · rw [← hrotate, running, himp.objects, Sched.withQueue_core, hline'.running]
    rfl

end QueuedSched

variable [DecidableEq κ]

/-- With thread `r` running and the threads `q` waiting, all distinct and none marked, `m`
ticks rotate the line by `m`: thread `j` of the queue runs after `j + 1` ticks and not
before, and after as many ticks as there are threads the line is as it was, each thread
having run once. -/
theorem round_robin {s : QueuedSched κ} {t : Sched κ} {c : κ} {r : Nat} {q : List Nat}
    (h : s.Implements t) (hline : t.InLine c r q) (beyond : Nat → Option Nat)
    (regs : Nat → Context) :
    ∃ trace : Nat → QueuedSched κ, (∀ m, s.ticks c beyond regs m = .ok (trace m)) ∧
      (∀ m, (trace m).line c = (r :: q).rotate m) ∧
      (∀ j, ∀ hj : j < q.length, (trace (j + 1)).running c = some q[j] ∧
        ∀ k ≤ j, (trace k).running c ≠ some q[j]) ∧
      (trace (q.length + 1)).line c = r :: q ∧
      ∀ u ∈ r :: q, ∃! m, 1 ≤ m ∧ m ≤ q.length + 1 ∧ (trace m).running c = some u := by
  choose trace hticks hrotate hfirst using QueuedSched.ticks_line h hline beyond regs
  refine ⟨trace, hticks, hrotate, ?_, ?_, ?_⟩
  · intro j hj
    have hturn : ∀ m, (trace m).running c = some q[j] ↔ m % (r :: q).length = j + 1 := by
      intro m
      rw [hfirst m]
      exact head?_rotate_eq_iff hline.distinct (Nat.succ_lt_succ hj) m
    have hlen : (r :: q).length = q.length + 1 := rfl
    constructor
    · rw [hturn, Nat.mod_eq_of_lt (by omega)]
    · intro k hk
      rw [Ne, hturn, Nat.mod_eq_of_lt (by omega)]
      omega
  · rw [hrotate]
    exact List.rotate_length (r :: q)
  · intro u hu
    obtain ⟨m, ⟨hlo, hhi, hm⟩, honly⟩ := existsUnique_turn hline.distinct hu 1
    rw [List.length_cons] at hhi
    refine ⟨m, ⟨hlo, by omega, by rw [hfirst, hm]⟩, ?_⟩
    rintro k ⟨hklo, hkhi, hk⟩
    rw [hfirst] at hk
    exact honly k ⟨hklo, by rw [List.length_cons]; omega, hk⟩

/-- Three threads of three processes; the first runs. -/
def threeThreads : QueuedSched Unit :=
  { objects :=
      { threads := fun t => if t < 4 then
          some ⟨t, if t = 1 then .running else .waiting, t, default⟩ else none
        procs := fun p => if p < 4 then
          some ⟨p, if p = 1 then .running else .waiting, 0, [p], [], 0⟩ else none
        waitingQueue := []
        core := fun _ => ⟨some 1, some 1, 0, 0⟩ }
    waitingQueue := ⟨some 0, 2, false⟩
    arrays := [some [some 2, some 3]] }

/-- The third thread runs at the second tick. -/
theorem round_robin_three : ∃ s' : QueuedSched Unit, threeThreads.line () = [1, 2, 3] ∧
    threeThreads.ticks () (fun _ => none) (fun _ => default) 2 = .ok s' ∧
    s'.line () = [3, 1, 2] := by
  have hlive : ∀ t < 4, (threeThreads.objects.withQueue [2, 3]).LiveProcess t := by
    intro t ht
    refine ⟨_, if_pos ht, ?_⟩
    intro u hu
    rw [List.mem_singleton] at hu
    rw [hu]
    exact ⟨_, if_pos ht⟩
  have h : threeThreads.Implements (threeThreads.objects.withQueue [2, 3]) :=
    ⟨rfl, rfl, rfl, fun hnil => absurd hnil (List.cons_ne_nil _ _), fun _ => ⟨0, rfl, rfl⟩⟩
  have hline : (threeThreads.objects.withQueue [2, 3]).InLine () 1 [2, 3] := by
    refine ⟨rfl, ⟨1, rfl, hlive 1 (by decide)⟩, rfl, by decide, ?_⟩
    intro t ht
    have hlt : t < 4 := by
      simp only [List.mem_cons, List.not_mem_nil, or_false] at ht
      omega
    refine ⟨_, if_pos hlt, ?_, hlive t hlt⟩
    show (if t = 1 then Status.running else Status.waiting) ≠ .dying
    split <;> decide
  obtain ⟨trace, hticks, hrotate, _⟩ :=
    round_robin h hline (fun _ => none) (fun _ => default)
  exact ⟨trace 2, h.line hline, hticks 2, hrotate 2⟩

end Toystar.Scheduler

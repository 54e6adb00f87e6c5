import Toystar.Scheduler.Sched
import Toystar.Verified.Run

/-!
# Conservation of threads

The scheduler as a system: threads and processes are created, created threads
are queued, and timer ticks call `reschedule` on the cores, all as atomic
steps in any order.  Nothing exits.

A tick is proved to be two moves, `park` (the running thread leaves the core
for the end of the queue) and `dispatch` (the head of the queue takes the idle
core); the branch that keeps the running thread is the case in which the two
meet.  Each move keeps the invariant `SchedInv`, so no order of ticks loses a
thread, runs it twice or restores a stale context.
-/

namespace Toystar.Scheduler

open Toystar.Kernel
open Toystar.Verified

variable {κ : Type}

/-! ## The system -/

/-- The scheduler with two records of the past: the threads that were queued,
and for each thread the context it was last interrupted with, or created
with. -/
structure System (κ : Type) where
  sched : Sched κ
  queued : List Nat
  interrupted : Nat → Context

inductive SchedEvent (κ : Type)
  /-- a process with its main thread, as `create_process` and `fork` make it -/
  | newProcess (t p tid pid dir pagemap : Nat) (fdList : List Nat) (regs : Context)
  /-- a further thread of a process -/
  | newThread (t p tid : Nat) (regs : Context)
  /-- `Sched::queue` of a thread that was not queued before -/
  | queue (t : Nat)
  /-- a timer tick on a core -/
  | tick (c : κ) (regs : Context)

/-- New objects have new addresses, a thread is queued once, and the timer of
an idle core does not fire on an empty queue. -/
def SchedEvent.Allowed (s : System κ) : SchedEvent κ → Prop
  | .newProcess t p .. => s.sched.threads t = none ∧ s.sched.procs p = none
  | .newThread t p .. => s.sched.threads t = none ∧ s.sched.procs p ≠ none
  | .queue t => s.sched.threads t ≠ none ∧ t ∉ s.queued
  | .tick c _ => ¬((s.sched.core c).runningThread = none ∧ s.sched.waitingQueue = [])

/-- The context a tick interrupts is that of the core's running thread. -/
def System.interrupt (s : System κ) (c : κ) (regs : Context) : Nat → Context :=
  match (s.sched.core c).runningThread with
  | none => s.interrupted
  | some r => Function.update s.interrupted r regs

def System.exec [DecidableEq κ] (s : System κ) : SchedEvent κ → Except Fault (System κ)
  | .newProcess t p tid pid dir pagemap fdList regs =>
      let pr : Process := ⟨pid, .waiting, dir, [t], fdList, pagemap⟩
      let sched := (s.sched.setThread t ⟨tid, .waiting, p, regs⟩).setProc p pr
      .ok { s with
        sched := sched
        interrupted := Function.update s.interrupted t regs }
  | .newThread t p tid regs => do
      let pr ← s.sched.proc p
      let sched := (s.sched.setThread t ⟨tid, .waiting, p, regs⟩).setProc p
        { pr with threads := pr.threads ++ [t] }
      .ok { s with
        sched := sched
        interrupted := Function.update s.interrupted t regs }
  | .queue t => .ok { s with sched := s.sched.queue t, queued := t :: s.queued }
  | .tick c regs => do
      let (sched, _) ← s.sched.reschedule c regs
      .ok { s with sched := sched, interrupted := s.interrupt c regs }

def SchedStep [DecidableEq κ] (s : System κ) (e : SchedEvent κ) (s' : System κ) : Prop :=
  e.Allowed s ∧ s.exec e = .ok s'

instance SchedEvent.decidableAllowed (s : System κ) (e : SchedEvent κ) :
    Decidable (e.Allowed s) :=
  match e with
  | .newProcess t p .. => inferInstanceAs (Decidable
      (s.sched.threads t = none ∧ s.sched.procs p = none))
  | .newThread t p .. => inferInstanceAs (Decidable
      (s.sched.threads t = none ∧ s.sched.procs p ≠ none))
  | .queue t => inferInstanceAs (Decidable
      (s.sched.threads t ≠ none ∧ t ∉ s.queued))
  | .tick c _ => inferInstanceAs (Decidable
      (¬((s.sched.core c).runningThread = none ∧ s.sched.waitingQueue = [])))

/-- The step as a function. -/
def System.attempt [DecidableEq κ] (s : System κ) (e : SchedEvent κ) :
    Option (System κ) :=
  if e.Allowed s then (s.exec e).toOption else none

theorem schedStep_of_attempt [DecidableEq κ] {s s' : System κ} {e : SchedEvent κ}
    (h : s.attempt e = some s') : SchedStep s e s' :=
  guard_toOption.mp h

/-- No thread, no process, every core idle. -/
def System.boot : System κ :=
  ⟨⟨fun _ => none, fun _ => none, [], fun _ => ⟨none, none, 0, 0⟩⟩, [],
    fun _ => default⟩

/-! ## The invariant -/

/-- `t` is the running thread of core `c`. -/
def Sched.RunsOn (s : Sched κ) (c : κ) (t : Nat) : Prop :=
  (s.core c).runningThread = some t

structure SchedInv (s : System κ) : Prop where
  known : ∀ t ∈ s.queued, ∃ th, s.sched.threads t = some th
  queue_nodup : s.sched.waitingQueue.Nodup
  queue_queued : ∀ t ∈ s.sched.waitingQueue, t ∈ s.queued
  running_queued : ∀ {c t}, s.sched.RunsOn c t → t ∈ s.queued
  running_not_waiting : ∀ {c t}, s.sched.RunsOn c t → t ∉ s.sched.waitingQueue
  one_core : ∀ {c d t}, s.sched.RunsOn c t → s.sched.RunsOn d t → c = d
  placed : ∀ t ∈ s.queued, t ∈ s.sched.waitingQueue ∨ ∃ c, s.sched.RunsOn c t
  status_cases : ∀ {t th}, s.sched.threads t = some th →
    th.status = .running ∨ th.status = .waiting
  status_running : ∀ {t th}, s.sched.threads t = some th →
    (th.status = .running ↔ ∃ c, s.sched.RunsOn c t)
  parent : ∀ {t th}, s.sched.threads t = some th →
    ∃ pr, s.sched.procs th.parentProcess = some pr ∧ t ∈ pr.threads
  child : ∀ {p pr t}, s.sched.procs p = some pr → t ∈ pr.threads →
    ∃ th, s.sched.threads t = some th ∧ th.parentProcess = p
  proc_status : ∀ {p pr}, s.sched.procs p = some pr →
    (pr.status = .running ↔ ∃ t ∈ pr.threads, ∃ th,
      s.sched.threads t = some th ∧ th.status = .running)
  core_proc : ∀ {c t th}, s.sched.RunsOn c t → s.sched.threads t = some th →
    (s.sched.core c).runningProcess = some th.parentProcess
  saved : ∀ {t th}, s.sched.threads t = some th →
    (¬∃ c, s.sched.RunsOn c t) → th.regs = s.interrupted t

theorem schedInv_boot : SchedInv (System.boot : System κ) := by
  constructor <;> simp [System.boot, Sched.RunsOn]

/-- The running thread of a core is the only one on it. -/
theorem Sched.RunsOn.unique {s : Sched κ} {c : κ} {r t : Nat} (hr : s.RunsOn c r)
    (ht : s.RunsOn c t) : t = r := by
  unfold Sched.RunsOn at hr ht
  rw [hr] at ht
  exact (Option.some.inj ht).symm

namespace SchedInv

variable {s : System κ} {t : Nat} {th : Thread}

theorem inspect_running (hs : SchedInv s) (c : κ) :
    s.sched.inspect (s.sched.core c).runningThread.toList = .ok () := by
  apply Sched.inspect_ok
  intro t ht
  exact hs.known t (hs.running_queued (Option.mem_toList.mp ht))

theorem inspect_waiting (hs : SchedInv s) :
    s.sched.inspect s.sched.waitingQueue = .ok () := by
  apply Sched.inspect_ok
  intro t ht
  exact hs.known t (hs.queue_queued t ht)

/-- A waiting thread has the registers it was interrupted with. -/
theorem regs_of_waiting (hs : SchedInv s) (ht : t ∈ s.sched.waitingQueue)
    (hth : s.sched.threads t = some th) : th.regs = s.interrupted t := by
  apply hs.saved hth
  intro h
  rcases h with ⟨d, hd⟩
  exact hs.running_not_waiting hd ht

/-! One thread and its process get other contents, and who belongs to whom stays. -/

theorem known_update (hs : SchedInv s) (th' : Thread) {u : Nat} (hu : u ∈ s.queued) :
    ∃ thu, Function.update s.sched.threads t (some th') u = some thu := by
  obtain ⟨thu, hthu⟩ := hs.known u hu
  by_cases hut : u = t
  · exact ⟨_, update_eq_some.mpr (.inl ⟨hut, rfl⟩)⟩
  · exact ⟨thu, update_eq_some.mpr (.inr ⟨hut, hthu⟩)⟩

theorem parent_update {th' thu : Thread} {pr pr' : Process} {u : Nat} (hs : SchedInv s)
    (hth : s.sched.threads t = some th) (hpr : s.sched.procs th.parentProcess = some pr)
    (hparent : th'.parentProcess = th.parentProcess) (hthreads : pr'.threads = pr.threads)
    (hu : Function.update s.sched.threads t (some th') u = some thu) :
    ∃ pru, Function.update s.sched.procs th.parentProcess (some pr') thu.parentProcess =
      some pru ∧ u ∈ pru.threads := by
  have hold : ∃ pru, s.sched.procs thu.parentProcess = some pru ∧ u ∈ pru.threads := by
    rcases update_eq_some.mp hu with ⟨rfl, rfl⟩ | ⟨_, hu⟩
    · rw [hparent]
      exact hs.parent hth
    · exact hs.parent hu
  obtain ⟨pru, hpru, hmem⟩ := hold
  by_cases hp : thu.parentProcess = th.parentProcess
  · rw [hp, hpr] at hpru
    cases hpru
    exact ⟨pr', update_eq_some.mpr (.inl ⟨hp, rfl⟩), by rw [hthreads]; exact hmem⟩
  · exact ⟨pru, update_eq_some.mpr (.inr ⟨hp, hpru⟩), hmem⟩

theorem child_update {th' : Thread} {pr pr' prp : Process} {p u : Nat} (hs : SchedInv s)
    (hth : s.sched.threads t = some th) (hpr : s.sched.procs th.parentProcess = some pr)
    (hparent : th'.parentProcess = th.parentProcess) (hthreads : pr'.threads = pr.threads)
    (hp : Function.update s.sched.procs th.parentProcess (some pr') p = some prp)
    (hu : u ∈ prp.threads) :
    ∃ thu, Function.update s.sched.threads t (some th') u = some thu ∧
      thu.parentProcess = p := by
  have hold : ∃ thu, s.sched.threads u = some thu ∧ thu.parentProcess = p := by
    rcases update_eq_some.mp hp with ⟨rfl, rfl⟩ | ⟨_, hp⟩
    · exact hs.child hpr (by rw [← hthreads]; exact hu)
    · exact hs.child hp hu
  obtain ⟨thu, hthu, hold⟩ := hold
  by_cases hut : u = t
  · subst hut
    rw [hth] at hthu
    cases hthu
    exact ⟨th', update_eq_some.mpr (.inl ⟨rfl, rfl⟩), hparent.trans hold⟩
  · exact ⟨thu, update_eq_some.mpr (.inr ⟨hut, hthu⟩), hold⟩

/-- The status of a process that the thread is not of. -/
theorem proc_status_update {pr' : Process} {p : Nat} (hs : SchedInv s) (th' : Thread)
    (hth : s.sched.threads t = some th) (hne : p ≠ th.parentProcess)
    (hp : s.sched.procs p = some pr') :
    pr'.status = .running ↔ ∃ u ∈ pr'.threads, ∃ thu,
      Function.update s.sched.threads t (some th') u = some thu ∧ thu.status = .running := by
  have hnot : ∀ u ∈ pr'.threads, u ≠ t := by
    intro u hu heq
    subst heq
    obtain ⟨thu, hthu, hparent⟩ := hs.child hp hu
    rw [hth] at hthu
    cases hthu
    exact hne hparent.symm
  rw [hs.proc_status hp]
  constructor
  · intro h
    obtain ⟨u, hu, thu, hthu, hst⟩ := h
    exact ⟨u, hu, thu, update_eq_some.mpr (.inr ⟨hnot u hu, hthu⟩), hst⟩
  · intro h
    obtain ⟨u, hu, thu, hthu, hst⟩ := h
    rcases update_eq_some.mp hthu with ⟨heq, _⟩ | ⟨_, hthu⟩
    · exact absurd heq (hnot u hu)
    · exact ⟨u, hu, thu, hthu, hst⟩

end SchedInv

/-! ## The two moves of a tick -/

variable [DecidableEq κ]

/-- The running thread `r` of core `c` goes to the end of the queue. -/
def Sched.park (s : Sched κ) (c : κ) (r : Nat) (th : Thread) (pr : Process)
    (regs : Context) (running : Bool) : Sched κ :=
  { threads := Function.update s.threads r
      (some { th with status := .waiting, regs := regs })
    procs := Function.update s.procs th.parentProcess
      (some { pr with status := if running then .running else .waiting })
    waitingQueue := s.waitingQueue ++ [r]
    core := Function.update s.core c { s.core c with runningThread := none } }

/-- The head `t` of the queue takes core `c`. -/
def Sched.dispatch (s : Sched κ) (c : κ) (t : Nat) (th : Thread) (pr : Process) :
    Sched κ :=
  { threads := Function.update s.threads t (some { th with status := .running })
    procs := Function.update s.procs th.parentProcess
      (some { pr with status := .running })
    waitingQueue := s.waitingQueue.tail
    core := Function.update s.core c
      { runningThread := some t
        runningProcess := some th.parentProcess
        pagemap := pr.pagemap
        workingDir := pr.processDirectory } }

namespace SchedInv

variable {s : System κ} {c : κ} {r t : Nat} {th : Thread} {pr : Process}
  {regs : Context}

/-- Who runs where after a `park`. -/
theorem runsOn_park {x : Sched κ} {running : Bool} {d : κ} :
    (x.park c r th pr regs running).RunsOn d t ↔ d ≠ c ∧ x.RunsOn d t := by
  unfold Sched.RunsOn Sched.park
  by_cases hd : d = c
  · subst hd
    simp
  · simp [hd]

theorem runsOn_dispatch {x : Sched κ} {d : κ} {u : Nat} :
    (x.dispatch c t th pr).RunsOn d u ↔
      (d = c ∧ u = t) ∨ (d ≠ c ∧ x.RunsOn d u) := by
  unfold Sched.RunsOn Sched.dispatch
  by_cases hd : d = c
  · subst hd
    simp [eq_comm]
  · simp [hd]

/-- Parking the running thread. -/
theorem park {running : Bool} (hs : SchedInv s) (regs : Context)
    (hrun : s.sched.RunsOn c r) (hth : s.sched.threads r = some th)
    (hpr : s.sched.procs th.parentProcess = some pr)
    (hrunning : running = true ↔ ∃ t ∈ pr.threads, ∃ th', t ≠ r ∧
      s.sched.threads t = some th' ∧ th'.status = .running) :
    SchedInv { s with
      sched := s.sched.park c r th pr regs running
      interrupted := Function.update s.interrupted r regs } := by
  -- the other cores run what they ran, and never `r`
  have hother : ∀ {d t}, d ≠ c → s.sched.RunsOn d t → t ≠ r := by
    intro d t hd ht heq
    subst heq
    exact hd (hs.one_core ht hrun)
  have hstill : ∀ {t}, t ≠ r → (∃ d, s.sched.RunsOn d t) →
      ∃ d, d ≠ c ∧ s.sched.RunsOn d t := by
    intro t hne hd
    rcases hd with ⟨d, hd⟩
    refine ⟨d, ?_, hd⟩
    intro heq
    subst heq
    exact hne (hrun.unique hd)
  constructor
  case known => exact fun t ht => hs.known_update _ ht
  case queue_nodup =>
    show (s.sched.waitingQueue ++ [r]).Nodup
    rw [List.nodup_append_comm, List.singleton_append, List.nodup_cons]
    exact ⟨hs.running_not_waiting hrun, hs.queue_nodup⟩
  case queue_queued =>
    intro t ht
    rcases List.mem_append.mp ht with ht | ht
    · exact hs.queue_queued t ht
    · rw [List.mem_singleton.mp ht]
      exact hs.running_queued hrun
  case running_queued =>
    intro d t ht
    exact hs.running_queued (runsOn_park.mp ht).2
  case running_not_waiting =>
    intro d t ht hmem
    have hd := runsOn_park.mp ht
    rcases List.mem_append.mp hmem with hmem | hmem
    · exact hs.running_not_waiting hd.2 hmem
    · exact hother hd.1 hd.2 (List.mem_singleton.mp hmem)
  case one_core =>
    intro d e t hd he
    exact hs.one_core (runsOn_park.mp hd).2 (runsOn_park.mp he).2
  case placed =>
    intro t ht
    by_cases htr : t = r
    · exact .inl (List.mem_append.mpr (.inr (by simp [htr])))
    · rcases hs.placed t ht with hq | hd
      · exact .inl (List.mem_append.mpr (.inl hq))
      · rcases hstill htr hd with ⟨d, hd⟩
        exact .inr ⟨d, runsOn_park.mpr hd⟩
  case status_cases =>
    intro t th' ht
    rcases update_eq_some.mp ht with ⟨_, rfl⟩ | ⟨_, ht⟩
    · exact .inr rfl
    · exact hs.status_cases ht
  case status_running =>
    intro t th' ht
    rcases update_eq_some.mp ht with ⟨rfl, rfl⟩ | ⟨htr, ht⟩
    · constructor
      · intro hcontra
        cases hcontra
      · intro hd
        rcases hd with ⟨d, hd⟩
        have hd' := runsOn_park.mp hd
        exact absurd rfl (hother hd'.1 hd'.2)
    · rw [hs.status_running ht]
      constructor
      · intro hd
        rcases hstill htr hd with ⟨d, hd⟩
        exact ⟨d, runsOn_park.mpr hd⟩
      · intro hd
        rcases hd with ⟨d, hd⟩
        exact ⟨d, (runsOn_park.mp hd).2⟩
  case parent =>
    intro t th' ht
    exact hs.parent_update hth hpr (by rfl) (by rfl) ht
  case child =>
    intro p pr' t hp hmem
    exact hs.child_update hth hpr (by rfl) (by rfl) hp hmem
  case proc_status =>
    intro p pr' hp
    rcases update_eq_some.mp hp with ⟨rfl, rfl⟩ | ⟨hne, hold⟩
    · have hif : (if running then Status.running else .waiting) = .running ↔
          running = true := by
        cases running <;> simp
      apply Iff.trans hif
      apply Iff.trans hrunning
      constructor
      · intro h
        rcases h with ⟨t, ht, th', hne, hth', hst⟩
        exact ⟨t, ht, th', update_eq_some.mpr (.inr ⟨hne, hth'⟩), hst⟩
      · intro h
        rcases h with ⟨t, ht, th', hth', hst⟩
        rcases update_eq_some.mp hth' with ⟨_, rfl⟩ | ⟨hne, hth'⟩
        · cases hst
        · exact ⟨t, ht, th', hne, hth', hst⟩
    · exact hs.proc_status_update _ hth hne hold
  case core_proc =>
    intro d t th' hd ht
    have hd' := runsOn_park.mp hd
    rcases update_eq_some.mp ht with ⟨rfl, _⟩ | ⟨_, ht⟩
    · exact absurd rfl (hother hd'.1 hd'.2)
    · show (Function.update s.sched.core c _ d).runningProcess = _
      rw [Function.update_of_ne hd'.1]
      exact hs.core_proc hd'.2 ht
  case saved =>
    intro t th' ht hidle
    rcases update_eq_some.mp ht with ⟨rfl, rfl⟩ | ⟨htr, ht⟩
    · show regs = Function.update s.interrupted t regs t
      rw [Function.update_self]
    · show th'.regs = Function.update s.interrupted r regs t
      rw [Function.update_of_ne htr]
      apply hs.saved ht
      intro hd
      rcases hstill htr hd with ⟨d, hd⟩
      exact hidle ⟨d, runsOn_park.mpr hd⟩

/-- Dispatching the head of the queue to an idle core. -/
theorem dispatch {rest : List Nat} (hs : SchedInv s)
    (hidle : (s.sched.core c).runningThread = none)
    (hqueue : s.sched.waitingQueue = t :: rest)
    (hth : s.sched.threads t = some th)
    (hpr : s.sched.procs th.parentProcess = some pr) :
    SchedInv { s with sched := s.sched.dispatch c t th pr } := by
  have hmem : t ∈ s.sched.waitingQueue := by rw [hqueue]; simp
  have hnodup := hs.queue_nodup
  rw [hqueue, List.nodup_cons] at hnodup
  have htail : ∀ u, u ∈ s.sched.waitingQueue.tail ↔ u ∈ rest := by
    intro u
    rw [hqueue, List.tail_cons]
  have hfree : ∀ {d u}, s.sched.RunsOn d u → d ≠ c ∧ u ≠ t := by
    intro d u hd
    constructor
    · intro heq
      subst heq
      unfold Sched.RunsOn at hd
      rw [hidle] at hd
      cases hd
    · intro heq
      subst heq
      exact hs.running_not_waiting hd hmem
  have hruns : ∀ {u}, u ≠ t → ((∃ d, (s.sched.dispatch c t th pr).RunsOn d u) ↔
      ∃ d, s.sched.RunsOn d u) := by
    intro u hne
    constructor
    · intro h
      rcases h with ⟨d, hd⟩
      rcases runsOn_dispatch.mp hd with ⟨_, heq⟩ | ⟨_, hd⟩
      · exact absurd heq hne
      · exact ⟨d, hd⟩
    · intro h
      rcases h with ⟨d, hd⟩
      exact ⟨d, runsOn_dispatch.mpr (.inr ⟨(hfree hd).1, hd⟩)⟩
  constructor
  case known => exact fun u hu => hs.known_update _ hu
  case queue_nodup =>
    show s.sched.waitingQueue.tail.Nodup
    rw [hqueue]
    exact hnodup.2
  case queue_queued =>
    intro u hu
    exact hs.queue_queued u (List.mem_of_mem_tail hu)
  case running_queued =>
    intro d u hu
    rcases runsOn_dispatch.mp hu with ⟨_, rfl⟩ | ⟨_, hu⟩
    · exact hs.queue_queued u hmem
    · exact hs.running_queued hu
  case running_not_waiting =>
    intro d u hu hmem'
    rcases runsOn_dispatch.mp hu with ⟨_, rfl⟩ | ⟨_, hu⟩
    · exact hnodup.1 ((htail u).mp hmem')
    · exact hs.running_not_waiting hu (List.mem_of_mem_tail hmem')
  case one_core =>
    intro d e u hd he
    rcases runsOn_dispatch.mp hd with ⟨rfl, rfl⟩ | ⟨_, hd'⟩
    · rcases runsOn_dispatch.mp he with ⟨rfl, _⟩ | ⟨_, he'⟩
      · rfl
      · exact absurd rfl (hfree he').2
    · rcases runsOn_dispatch.mp he with ⟨_, rfl⟩ | ⟨_, he'⟩
      · exact absurd rfl (hfree hd').2
      · exact hs.one_core hd' he'
  case placed =>
    intro u hu
    by_cases hut : u = t
    · exact .inr ⟨c, runsOn_dispatch.mpr (.inl ⟨rfl, hut⟩)⟩
    · rcases hs.placed u hu with hq | hd
      · rw [hqueue, List.mem_cons] at hq
        rcases hq with heq | hq
        · exact absurd heq hut
        · exact .inl ((htail u).mpr hq)
      · exact .inr ((hruns hut).mpr hd)
  case status_cases =>
    intro u th' hu
    rcases update_eq_some.mp hu with ⟨_, rfl⟩ | ⟨_, hu⟩
    · exact .inl rfl
    · exact hs.status_cases hu
  case status_running =>
    intro u th' hu
    rcases update_eq_some.mp hu with ⟨rfl, rfl⟩ | ⟨hut, hu⟩
    · simp only [true_iff]
      exact ⟨c, runsOn_dispatch.mpr (.inl ⟨rfl, rfl⟩)⟩
    · rw [hs.status_running hu]
      exact (hruns hut).symm
  case parent =>
    intro u th' hu
    exact hs.parent_update hth hpr (by rfl) (by rfl) hu
  case child =>
    intro p pr' u hp hu
    exact hs.child_update hth hpr (by rfl) (by rfl) hp hu
  case proc_status =>
    intro p pr' hp
    rcases update_eq_some.mp hp with ⟨rfl, rfl⟩ | ⟨hne, hold⟩
    · simp only [true_iff]
      rcases hs.parent hth with ⟨pr'', hpr'', ht⟩
      rw [hpr] at hpr''
      cases hpr''
      exact ⟨t, ht, _, update_eq_some.mpr (.inl ⟨rfl, rfl⟩), rfl⟩
    · exact hs.proc_status_update _ hth hne hold
  case core_proc =>
    intro d u th' hd hu
    rcases runsOn_dispatch.mp hd with ⟨rfl, rfl⟩ | ⟨hdc, hd'⟩
    · rcases update_eq_some.mp hu with ⟨_, rfl⟩ | ⟨hne, _⟩
      · show (Function.update s.sched.core d _ d).runningProcess = _
        rw [Function.update_self]
      · exact absurd rfl hne
    · rcases update_eq_some.mp hu with ⟨rfl, _⟩ | ⟨_, hu'⟩
      · exact absurd rfl (hfree hd').2
      · show (Function.update s.sched.core c _ d).runningProcess = _
        rw [Function.update_of_ne hdc]
        exact hs.core_proc hd' hu'
  case saved =>
    intro u th' hu hnone
    rcases update_eq_some.mp hu with ⟨rfl, _⟩ | ⟨hut, hu⟩
    · exact absurd ⟨c, runsOn_dispatch.mpr (.inl ⟨rfl, rfl⟩)⟩ hnone
    · apply hs.saved hu
      intro hd
      exact hnone ((hruns hut).mpr hd)

/-- The tick of an idle core is a `dispatch`. -/
theorem reschedule_idle {rest : List Nat} (hs : SchedInv s)
    (hidle : (s.sched.core c).runningThread = none)
    (hqueue : s.sched.waitingQueue = t :: rest)
    (hth : s.sched.threads t = some th)
    (hpr : s.sched.procs th.parentProcess = some pr) :
    s.sched.reschedule c regs =
      .ok (s.sched.dispatch c t th pr, some th.regs) := by
  have hth' : Sched.thread { s.sched with waitingQueue := rest } t = .ok th :=
    Sched.thread_of_some hth
  have hpr' : Sched.proc { s.sched with waitingQueue := rest } th.parentProcess =
      .ok pr := Sched.proc_of_some hpr
  unfold Sched.reschedule
  rw [hs.inspect_running, ok_bind, hs.inspect_waiting, ok_bind]
  simp only [Sched.pickNext, hqueue, ok_bind, Sched.preempt, hidle, Sched.switchTo,
    hth', hpr', Sched.dispatch, List.tail_cons, Sched.setThread, Sched.setProc]

/-- Saving the previous thread leaves the parked state, apart from the core. -/
theorem preempt_eq (q : Nat) (rest : List Nat) (hs : SchedInv s)
    (hrun : s.sched.RunsOn c r) (hth : s.sched.threads r = some th)
    (hpr : s.sched.procs th.parentProcess = some pr) (hne : r ≠ q)
    (regs : Context) :
    ∃ b, (b = true ↔ ∃ t ∈ pr.threads, ∃ th', t ≠ r ∧
        s.sched.threads t = some th' ∧ th'.status = .running) ∧
      Sched.preempt { s.sched with waitingQueue := rest } c q regs =
        .ok { s.sched.park c r th pr regs b with
          waitingQueue := rest ++ [r]
          core := s.sched.core } := by
  let th₁ : Thread := { th with status := .waiting, regs := regs }
  let s₁ := Sched.setThread { s.sched with waitingQueue := rest } r th₁
  have hknown : ∀ t ∈ pr.threads, ∃ th', s₁.threads t = some th' := by
    intro t ht
    rcases hs.child hpr ht with ⟨th', hth', _⟩
    by_cases htr : t = r
    · exact ⟨th₁, update_eq_some.mpr (.inl ⟨htr, rfl⟩)⟩
    · exact ⟨th', update_eq_some.mpr (.inr ⟨htr, hth'⟩)⟩
  rcases Sched.anyRunning_ok hknown with ⟨b, hb, hiff⟩
  refine ⟨b, ?_, ?_⟩
  · rw [hiff]
    constructor
    · intro h
      rcases h with ⟨t, ht, th', hth', hst⟩
      rcases update_eq_some.mp hth' with ⟨_, rfl⟩ | ⟨htr, hth'⟩
      · cases hst
      · exact ⟨t, ht, th', htr, hth', hst⟩
    · intro h
      rcases h with ⟨t, ht, th', htr, hth', hst⟩
      exact ⟨t, ht, th', update_eq_some.mpr (.inr ⟨htr, hth'⟩), hst⟩
  · have hrun' : (s.sched.core c).runningThread = some r := hrun
    have hthread : Sched.thread { s.sched with waitingQueue := rest } r = .ok th :=
      Sched.thread_of_some hth
    have hproc : s₁.proc th.parentProcess = .ok pr := Sched.proc_of_some hpr
    have hdying : th.status ≠ .dying := by
      rw [(hs.status_running hth).mpr ⟨c, hrun⟩]
      decide
    simp only [Sched.preempt, hrun', if_neg hne, hthread, ok_bind, if_pos hdying,
      Sched.setThread_core, hs.core_proc hrun hth]
    rw [hproc, ok_bind, hb, ok_bind]
    rfl

/-- The tick of a busy core is a `park` and a `dispatch`.  With an empty queue
the parked thread is dispatched again. -/
theorem reschedule_busy (hs : SchedInv s) (hrun : s.sched.RunsOn c r)
    (hth : s.sched.threads r = some th)
    (hpr : s.sched.procs th.parentProcess = some pr) (regs : Context) :
    ∃ b t th' pr' rest,
      (b = true ↔ ∃ t ∈ pr.threads, ∃ th', t ≠ r ∧
        s.sched.threads t = some th' ∧ th'.status = .running) ∧
      s.sched.waitingQueue ++ [r] = t :: rest ∧
      (s.sched.park c r th pr regs b).threads t = some th' ∧
      (s.sched.park c r th pr regs b).procs th'.parentProcess = some pr' ∧
      s.sched.reschedule c regs =
        .ok ((s.sched.park c r th pr regs b).dispatch c t th' pr', some th'.regs) := by
  have hrun' : (s.sched.core c).runningThread = some r := hrun
  unfold Sched.reschedule
  rw [hs.inspect_running, ok_bind, hs.inspect_waiting, ok_bind]
  cases hqueue : s.sched.waitingQueue with
  | nil =>
      rcases hs.preempt_eq (r + 1) [] hrun hth hpr (by omega) regs with
        ⟨b, hb, _⟩
      have hdying : th.status ≠ .dying := by
        rw [(hs.status_running hth).mpr ⟨c, hrun⟩]
        decide
      let th₁ : Thread := { th with regs := regs }
      have hthread : (s.sched.setThread r th₁).thread r = .ok th₁ :=
        Sched.thread_of_some (update_eq_some.mpr (.inl ⟨rfl, rfl⟩))
      have hproc : (s.sched.setThread r th₁).proc th.parentProcess = .ok pr :=
        Sched.proc_of_some hpr
      refine ⟨b, r, _, _, [], hb, rfl, update_eq_some.mpr (.inl ⟨rfl, rfl⟩),
        update_eq_some.mpr (.inl ⟨rfl, rfl⟩), ?_⟩
      have hpick : s.sched.pickNext c regs =
          .ok (some r, s.sched.setThread r th₁) := by
        simp only [Sched.pickNext, hqueue, hrun', Sched.thread_of_some hth, ok_bind,
          if_pos hdying]
        rfl
      have hpre : (s.sched.setThread r th₁).preempt c r regs =
          .ok (s.sched.setThread r th₁) := by
        simp only [Sched.preempt, Sched.setThread_core, hrun', if_true]
      rw [hpick, ok_bind]
      dsimp only
      rw [hpre, ok_bind]
      simp only [Sched.switchTo, hthread, ok_bind]
      rw [show th₁.parentProcess = th.parentProcess from rfl, hproc, ok_bind]
      simp only [Sched.dispatch, Sched.park, Sched.setThread, Sched.setProc,
        Function.update_idem, hqueue, List.nil_append, List.tail_cons]
      rfl
  | cons q rest =>
      have hqmem : q ∈ s.sched.waitingQueue := by rw [hqueue]; simp
      have hne : r ≠ q := by
        intro heq
        subst heq
        exact hs.running_not_waiting hrun hqmem
      rcases hs.preempt_eq q rest hrun hth hpr hne regs with ⟨b, hb, hpre⟩
      rcases hs.known q (hs.queue_queued q hqmem) with ⟨thq, hthq⟩
      have hthq' : (s.sched.park c r th pr regs b).threads q = some thq :=
        update_eq_some.mpr (.inr ⟨Ne.symm hne, hthq⟩)
      have hprq : ∃ prq, (s.sched.park c r th pr regs b).procs thq.parentProcess =
          some prq := by
        by_cases hp : thq.parentProcess = th.parentProcess
        · exact ⟨_, update_eq_some.mpr (.inl ⟨hp, rfl⟩)⟩
        · rcases hs.parent hthq with ⟨prq, hprq, _⟩
          exact ⟨prq, update_eq_some.mpr (.inr ⟨hp, hprq⟩)⟩
      rcases hprq with ⟨prq, hprq⟩
      refine ⟨b, q, thq, prq, rest ++ [r], hb, rfl, hthq', hprq, ?_⟩
      have hpick : s.sched.pickNext c regs =
          .ok (some q, { s.sched with waitingQueue := rest }) := by
        simp only [Sched.pickNext, hqueue]
      have hthread : Sched.thread { s.sched.park c r th pr regs b with
          waitingQueue := rest ++ [r]
          core := s.sched.core } q = .ok thq := Sched.thread_of_some hthq'
      have hproc : Sched.proc { s.sched.park c r th pr regs b with
          waitingQueue := rest ++ [r]
          core := s.sched.core } thq.parentProcess = .ok prq :=
        Sched.proc_of_some hprq
      rw [hpick, ok_bind]
      dsimp only
      rw [hpre, ok_bind, Sched.switchTo, hthread, ok_bind, hproc, ok_bind]
      simp only [Sched.dispatch, Sched.park, Sched.setThread, Sched.setProc,
        Function.update_idem, hqueue, List.cons_append, List.tail_cons]

/-- A tick that is allowed returns, keeps the invariant and loads the context
its thread was last interrupted with. -/
theorem tick (hs : SchedInv s) (regs : Context)
    (hallowed : SchedEvent.Allowed s (.tick c regs)) :
    ∃ sched t ctx, s.sched.reschedule c regs = .ok (sched, some ctx) ∧
      SchedInv { s with sched := sched, interrupted := s.interrupt c regs } ∧
      sched.RunsOn c t ∧ ctx = s.interrupt c regs t := by
  cases hrun : (s.sched.core c).runningThread with
  | none =>
      have hinterrupt : s.interrupt c regs = s.interrupted := by
        simp only [System.interrupt, hrun]
      rw [hinterrupt]
      cases hqueue : s.sched.waitingQueue with
      | nil => exact absurd ⟨hrun, hqueue⟩ hallowed
      | cons t rest =>
          have htmem : t ∈ s.sched.waitingQueue := by rw [hqueue]; simp
          rcases hs.known t (hs.queue_queued t htmem) with ⟨th, hth⟩
          rcases hs.parent hth with ⟨pr, hpr, _⟩
          exact ⟨_, t, th.regs, hs.reschedule_idle hrun hqueue hth hpr,
            hs.dispatch hrun hqueue hth hpr,
            runsOn_dispatch.mpr (.inl ⟨rfl, rfl⟩), hs.regs_of_waiting htmem hth⟩
  | some r =>
      have hinterrupt : s.interrupt c regs = Function.update s.interrupted r regs := by
        simp only [System.interrupt, hrun]
      rw [hinterrupt]
      rcases hs.known r (hs.running_queued hrun) with ⟨th, hth⟩
      rcases hs.parent hth with ⟨pr, hpr, _⟩
      rcases hs.reschedule_busy hrun hth hpr regs with
        ⟨b, t, th', pr', rest, hb, hqueue, hth', hpr', hret⟩
      have hparked := hs.park regs hrun hth hpr hb
      have hidle : ((s.sched.park c r th pr regs b).core c).runningThread = none := by
        simp [Sched.park]
      have hmem : t ∈ (s.sched.park c r th pr regs b).waitingQueue := by
        show t ∈ s.sched.waitingQueue ++ [r]
        rw [hqueue]
        simp
      exact ⟨_, t, th'.regs, hret, hparked.dispatch hidle hqueue hth' hpr',
        runsOn_dispatch.mpr (.inl ⟨rfl, rfl⟩), hparked.regs_of_waiting hmem hth'⟩

/-! ## Creating and queueing -/

omit [DecidableEq κ] in
/-- A new waiting thread `t` in process `p`, which may be new itself: nothing
else changes. -/
theorem addThread {p tid : Nat} {pr' : Process} (hs : SchedInv s) (regs : Context)
    (ht : s.sched.threads t = none) (hnew : t ∈ pr'.threads)
    (hmem : ∀ u ∈ pr'.threads, u = t ∨ ∃ pr, s.sched.procs p = some pr ∧ u ∈ pr.threads)
    (hkeep : ∀ pr, s.sched.procs p = some pr →
      (∀ u ∈ pr.threads, u ∈ pr'.threads) ∧ pr'.status = pr.status)
    (hfresh : s.sched.procs p = none → pr'.status ≠ .running) :
    SchedInv { s with
      sched := (s.sched.setThread t ⟨tid, .waiting, p, regs⟩).setProc p pr'
      interrupted := Function.update s.interrupted t regs } := by
  have hne : ∀ {u th'}, s.sched.threads u = some th' → u ≠ t := by
    intro u th' hu heq
    subst heq
    rw [ht] at hu
    cases hu
  have hidle : ∀ d, ¬s.sched.RunsOn d t := by
    intro d hd
    rcases hs.known t (hs.running_queued hd) with ⟨th', hth'⟩
    exact hne hth' rfl
  constructor
  case known =>
    intro u hu
    rcases hs.known u hu with ⟨th', hth'⟩
    exact ⟨th', update_eq_some.mpr (.inr ⟨hne hth', hth'⟩)⟩
  case queue_nodup => exact hs.queue_nodup
  case queue_queued => exact hs.queue_queued
  case running_queued => exact hs.running_queued
  case running_not_waiting => exact hs.running_not_waiting
  case one_core => exact hs.one_core
  case placed => exact hs.placed
  case status_cases =>
    intro u th' hu
    rcases update_eq_some.mp hu with ⟨_, rfl⟩ | ⟨_, hu⟩
    · exact .inr rfl
    · exact hs.status_cases hu
  case status_running =>
    intro u th' hu
    rcases update_eq_some.mp hu with ⟨rfl, rfl⟩ | ⟨_, hu⟩
    · constructor
      · intro hcontra
        cases hcontra
      · intro hd
        rcases hd with ⟨d, hd⟩
        exact absurd hd (hidle d)
    · exact hs.status_running hu
  case parent =>
    intro u th' hu
    rcases update_eq_some.mp hu with ⟨rfl, rfl⟩ | ⟨_, hu⟩
    · exact ⟨pr', update_eq_some.mpr (.inl ⟨rfl, rfl⟩), hnew⟩
    · rcases hs.parent hu with ⟨pr, hpr, humem⟩
      by_cases hp : th'.parentProcess = p
      · rw [hp] at hpr
        exact ⟨pr', update_eq_some.mpr (.inl ⟨hp, rfl⟩), (hkeep pr hpr).1 u humem⟩
      · exact ⟨pr, update_eq_some.mpr (.inr ⟨hp, hpr⟩), humem⟩
  case child =>
    intro q prq u hq humem
    have hold : ∀ pr, s.sched.procs q = some pr → u ∈ pr.threads →
        ∃ th', Function.update s.sched.threads t (some ⟨tid, .waiting, p, regs⟩) u =
          some th' ∧ th'.parentProcess = q := by
      intro pr hpr hu
      rcases hs.child hpr hu with ⟨th', hth', hparent⟩
      exact ⟨th', update_eq_some.mpr (.inr ⟨hne hth', hth'⟩), hparent⟩
    rcases update_eq_some.mp hq with ⟨rfl, rfl⟩ | ⟨_, hq⟩
    · rcases hmem u humem with rfl | ⟨pr, hpr, hu⟩
      · exact ⟨_, update_eq_some.mpr (.inl ⟨rfl, rfl⟩), rfl⟩
      · exact hold pr hpr hu
    · exact hold prq hq humem
  case proc_status =>
    intro q prq hq
    -- running threads are old ones
    have hsame : ∀ {u}, (∃ th', Function.update s.sched.threads t
        (some ⟨tid, .waiting, p, regs⟩) u = some th' ∧ th'.status = .running) ↔
        ∃ th', s.sched.threads u = some th' ∧ th'.status = .running := by
      intro u
      constructor
      · intro h
        rcases h with ⟨th', hth', hst⟩
        rcases update_eq_some.mp hth' with ⟨_, rfl⟩ | ⟨_, hth'⟩
        · cases hst
        · exact ⟨th', hth', hst⟩
      · intro h
        rcases h with ⟨th', hth', hst⟩
        exact ⟨th', update_eq_some.mpr (.inr ⟨hne hth', hth'⟩), hst⟩
    show prq.status = .running ↔ ∃ u ∈ prq.threads, ∃ th', Function.update
      s.sched.threads t (some ⟨tid, .waiting, p, regs⟩) u = some th' ∧ _
    simp only [hsame]
    rcases update_eq_some.mp hq with ⟨rfl, rfl⟩ | ⟨_, hq⟩
    · cases hold : s.sched.procs q with
      | none =>
          constructor
          · intro hst
            exact absurd hst (hfresh hold)
          · intro h
            rcases h with ⟨u, hu, th', hth', _⟩
            rcases hmem u hu with heq | ⟨pr, hpr, _⟩
            · exact absurd heq (hne hth')
            · rw [hold] at hpr
              cases hpr
      | some pr =>
          rw [(hkeep pr hold).2, hs.proc_status hold]
          constructor
          · intro h
            rcases h with ⟨u, hu, hrest⟩
            exact ⟨u, (hkeep pr hold).1 u hu, hrest⟩
          · intro h
            rcases h with ⟨u, hu, th', hth', hst⟩
            rcases hmem u hu with heq | ⟨pr₁, hpr₁, hu₁⟩
            · exact absurd heq (hne hth')
            · rw [hold] at hpr₁
              cases hpr₁
              exact ⟨u, hu₁, th', hth', hst⟩
    · exact hs.proc_status hq
  case core_proc =>
    intro d u th' hd hu
    rcases update_eq_some.mp hu with ⟨rfl, _⟩ | ⟨_, hu⟩
    · exact absurd hd (hidle d)
    · exact hs.core_proc hd hu
  case saved =>
    intro u th' hu hnone
    rcases update_eq_some.mp hu with ⟨rfl, rfl⟩ | ⟨hut, hu⟩
    · show regs = Function.update s.interrupted u regs u
      rw [Function.update_self]
    · show th'.regs = Function.update s.interrupted t regs u
      rw [Function.update_of_ne hut]
      exact hs.saved hu hnone

omit [DecidableEq κ] in
theorem queue (hs : SchedInv s) (ht : s.sched.threads t ≠ none)
    (hnew : t ∉ s.queued) :
    SchedInv { s with sched := s.sched.queue t, queued := t :: s.queued } := by
  have hwaiting : t ∉ s.sched.waitingQueue := fun h => hnew (hs.queue_queued t h)
  constructor
  case known =>
    intro u hu
    rcases List.mem_cons.mp hu with rfl | hu
    · exact Option.ne_none_iff_exists'.mp ht
    · exact hs.known u hu
  case queue_nodup =>
    show (s.sched.waitingQueue ++ [t]).Nodup
    rw [List.nodup_append_comm, List.singleton_append, List.nodup_cons]
    exact ⟨hwaiting, hs.queue_nodup⟩
  case queue_queued =>
    intro u hu
    rcases List.mem_append.mp hu with hu | hu
    · exact List.mem_cons_of_mem t (hs.queue_queued u hu)
    · rw [List.mem_singleton.mp hu]
      exact List.mem_cons_self
  case running_queued =>
    intro d u hu
    exact List.mem_cons_of_mem t (hs.running_queued hu)
  case running_not_waiting =>
    intro d u hu hmem
    rcases List.mem_append.mp hmem with hmem | hmem
    · exact hs.running_not_waiting hu hmem
    · rw [List.mem_singleton.mp hmem] at hu
      exact hnew (hs.running_queued hu)
  case one_core => exact hs.one_core
  case placed =>
    intro u hu
    rcases List.mem_cons.mp hu with rfl | hu
    · exact .inl (List.mem_append.mpr (.inr (by simp)))
    · rcases hs.placed u hu with hq | hd
      · exact .inl (List.mem_append.mpr (.inl hq))
      · exact .inr hd
  case status_cases => exact hs.status_cases
  case status_running => exact hs.status_running
  case parent => exact hs.parent
  case child => exact hs.child
  case proc_status => exact hs.proc_status
  case core_proc => exact hs.core_proc
  case saved => exact hs.saved

/-! ## Whole runs -/

/-- One step. -/
theorem step {s' : System κ} {e : SchedEvent κ} (hs : SchedInv s)
    (hstep : SchedStep s e s') : SchedInv s' := by
  rcases hstep with ⟨hallowed, hret⟩
  cases e with
  | newProcess t p tid pid dir pagemap fdList regs =>
      cases hret
      apply hs.addThread regs hallowed.1
      · simp
      · simp
      · intro pr hpr
        rw [hallowed.2] at hpr
        cases hpr
      · intro _ hcontra
        cases hcontra
  | newThread t p tid regs =>
      rcases Option.ne_none_iff_exists'.mp hallowed.2 with ⟨pr, hpr⟩
      simp only [System.exec, Sched.proc_of_some hpr, ok_bind] at hret
      cases hret
      apply hs.addThread regs hallowed.1
      · simp
      · intro u hu
        rcases List.mem_append.mp hu with hu | hu
        · exact .inr ⟨pr, hpr, hu⟩
        · exact .inl (List.mem_singleton.mp hu)
      · intro pr' hpr'
        rw [hpr] at hpr'
        cases hpr'
        exact ⟨fun u hu => List.mem_append.mpr (.inl hu), rfl⟩
      · intro hnone
        rw [hpr] at hnone
        cases hnone
  | queue t =>
      cases hret
      exact hs.queue hallowed.1 hallowed.2
  | tick c regs =>
      rcases hs.tick regs hallowed with ⟨sched, t, ctx, hticked, hinv, _⟩
      simp only [System.exec, hticked, ok_bind] at hret
      cases hret
      exact hinv

end SchedInv

/-- In every reachable state a queued thread is on exactly one core or exactly
once in the queue, never both; its status says which; a process is running iff
one of its threads is; and the next tick loads the context its thread was last
interrupted with, or created with. -/
theorem threads_conserved {es : List (SchedEvent κ)} {s : System κ}
    (hrun : Run SchedStep (System.boot : System κ) es s) :
    (∀ t ∈ s.queued,
      ((∃! c, s.sched.RunsOn c t) ∧ t ∉ s.sched.waitingQueue) ∨
      ((∀ c, ¬s.sched.RunsOn c t) ∧ s.sched.waitingQueue.count t = 1)) ∧
    (∀ t ∈ s.queued, ∃ th, s.sched.threads t = some th ∧
      (th.status = .running ↔ ∃ c, s.sched.RunsOn c t) ∧
      (th.status = .waiting ↔ ¬∃ c, s.sched.RunsOn c t)) ∧
    (∀ p pr, s.sched.procs p = some pr → (pr.status = .running ↔
      ∃ t ∈ pr.threads, ∃ th, s.sched.threads t = some th ∧ th.status = .running)) ∧
    (∀ c regs, SchedEvent.Allowed s (.tick c regs) →
      ∃ sched t ctx, s.sched.reschedule c regs = .ok (sched, some ctx) ∧
        sched.RunsOn c t ∧ ctx = s.interrupt c regs t) := by
  have hs : SchedInv s :=
    hrun.invariant (fun hs hstep => hs.step hstep) schedInv_boot
  refine ⟨?_, ?_, fun p pr hp => hs.proc_status hp, ?_⟩
  · intro t ht
    rcases hs.placed t ht with hq | ⟨c, hc⟩
    · refine .inr ⟨fun c hc => hs.running_not_waiting hc hq, ?_⟩
      exact List.count_eq_one_of_mem hs.queue_nodup hq
    · refine .inl ⟨⟨c, hc, ?_⟩, hs.running_not_waiting hc⟩
      intro d hd
      exact hs.one_core hd hc
  · intro t ht
    rcases hs.known t ht with ⟨th, hth⟩
    refine ⟨th, hth, hs.status_running hth, ?_⟩
    rw [← hs.status_running hth]
    rcases hs.status_cases hth with hst | hst <;> simp [hst]
  · intro c regs hallowed
    rcases hs.tick regs hallowed with ⟨sched, t, ctx, hret, _, hruns, hctx⟩
    exact ⟨sched, t, ctx, hret, hruns, hctx⟩

/-- Two processes on one core: after two ticks the second runs and the first
waits with the context it was interrupted with. -/
theorem threads_conserved_two_ticks :
    ∃ s : System Unit, s.sched.waitingQueue = [1] ∧
      (∀ t ∈ s.queued,
        ((∃! c, s.sched.RunsOn c t) ∧ t ∉ s.sched.waitingQueue) ∨
        ((∀ c, ¬s.sched.RunsOn c t) ∧ s.sched.waitingQueue.count t = 1)) := by
  have hqueue : (([.newProcess 1 1 0 0 0 0 [] default, .queue 1,
      .newProcess 2 2 1 1 0 0 [] default, .queue 2, .tick () default,
      .tick () { (default : Context) with rip := 7 }] : List (SchedEvent Unit)).foldlM
        System.attempt System.boot).map (fun s => s.sched.waitingQueue) =
      some [1] := by decide +kernel
  rcases Option.map_eq_some_iff.mp hqueue with ⟨s, hs, hwait⟩
  have hcons := threads_conserved (Run.of_foldlM schedStep_of_attempt hs)
  exact ⟨s, hwait, hcons.1⟩

end Toystar.Scheduler

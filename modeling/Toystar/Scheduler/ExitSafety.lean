import Toystar.Scheduler.Exit
import Toystar.Scheduler.Tick

/-!
# Freed threads and the timer

`exit_process` deletes the thread it runs on, releases `sched_lock` and only
much later clears `running_thread`.  A tick in between finds the deleted thread
on the core and reads it.  `ExitInv` holds in every run whose ticks stay out of
that window; there the deleted thread is gone from the queue and no tick can
reach it.
-/

namespace Toystar.Scheduler

open Toystar.Kernel
open Toystar.Klibc
open Toystar.Verified

/-- Past the release of `sched_lock`, before `running_thread` is cleared. -/
def ExitPoint.inWindow : ExitPoint → Bool
  | .released _ | .fdsFreed _ | .pidCleared _ | .pagemapSwitched _ | .destroyed _
  | .procDeleted => true
  | _ => false

namespace ExitState

/-- The core executes `exit_process` between the release of `sched_lock` and
`running_thread = nullptr`. -/
def InWindow (s : ExitState) : Prop := s.point.any ExitPoint.inWindow = true

instance decidableInWindow (s : ExitState) : Decidable s.InWindow :=
  inferInstanceAs (Decidable (_ = true))

/-- The running thread is there and belongs to the running process `p`. -/
def Runs (s : ExitState) (p : Nat) : Prop :=
  ∃ r th, s.running = some r ∧ s.sched.threads r = some th ∧
    th.parentProcess = p ∧ (s.sched.core ()).runningProcess = some p

/-- The running thread, the only one of process `p`, is deleted. -/
def Orphaned (s : ExitState) (p : Nat) : Prop :=
  ∃ r pr, s.running = some r ∧ s.sched.threads r = none ∧
    s.sched.procs p = some pr ∧ pr.threads = [r]

/-- What holds of the running thread at each point of `exit_process`. -/
def AtPoint (s : ExitState) : Option ExitPoint → Prop
  | none => s.schedLock = false ∧ (s.running ≠ none → ∃ p, s.Runs p)
  | some (.entered p) => s.schedLock = false ∧ s.Runs p
  | some (.locked p) => s.schedLock = true ∧ s.Runs p
  | some (.freeing p 0) => s.schedLock = true ∧ s.Runs p
  | some (.freeing p 1) => s.schedLock = true ∧ s.Orphaned p
  | some (.freeing _ (_ + 2)) => False
  | some (.awaiting _ _) => False
  | some (.released p) | some (.fdsFreed p) | some (.pidCleared p)
  | some (.pagemapSwitched p) | some (.destroyed p) =>
      s.schedLock = false ∧ s.Orphaned p
  | some .procDeleted =>
      s.schedLock = false ∧ ∃ r, s.running = some r ∧ s.sched.threads r = none
  | some .threadCleared => s.schedLock = false ∧ s.running = none

end ExitState

/-- No waiting thread is deleted, every process has its one thread, and a
thread that was interrupted inside `exit_process` had not taken the lock. -/
structure ExitInv (s : ExitState) : Prop where
  queue_nodup : s.sched.waitingQueue.Nodup
  waiting : ∀ t ∈ s.sched.waitingQueue, ∃ th, s.sched.threads t = some th
  running_not_waiting : ∀ r, s.running = some r → r ∉ s.sched.waitingQueue
  owner : ∀ t th, s.sched.threads t = some th →
    ∃ pr, s.sched.procs th.parentProcess = some pr ∧ pr.threads = [t]
  suspended : ∀ t e, s.suspended t = some e → s.running ≠ some t ∧
    ∃ th, s.sched.threads t = some th ∧ e = .entered th.parentProcess
  at_point : s.AtPoint s.point

theorem exitInv_boot : ExitInv ExitState.boot := by
  constructor <;> simp [ExitState.boot, ExitState.running, ExitState.AtPoint]

namespace ExitInv

variable {s s' : ExitState} {t p : Nat} {regs : Context}

/-! ## Ticks -/

/-- Where a tick outside the window can find the core. -/
theorem point_cases (hs : ExitInv s) (hlock : s.schedLock = false)
    (hwin : ¬s.InWindow) :
    (s.point = none ∧ (s.running ≠ none → ∃ p, s.Runs p)) ∨
    (∃ p, s.point = some (.entered p) ∧ s.Runs p) ∨
    (s.point = some .threadCleared ∧ s.running = none) := by
  have hpoint := hs.at_point
  cases hp : s.point with
  | none =>
      rw [hp] at hpoint
      exact .inl ⟨rfl, hpoint.2⟩
  | some e =>
      rw [hp] at hpoint
      cases e with
      | entered p => exact .inr (.inl ⟨p, rfl, hpoint.2⟩)
      | threadCleared => exact .inr (.inr ⟨rfl, hpoint.2⟩)
      | locked p => simp [ExitState.AtPoint, hlock] at hpoint
      | freeing p i =>
          match i with
          | 0 => simp [ExitState.AtPoint, hlock] at hpoint
          | 1 => simp [ExitState.AtPoint, hlock] at hpoint
          | i + 2 => exact absurd hpoint (by simp [ExitState.AtPoint])
      | awaiting p i => exact absurd hpoint (by simp [ExitState.AtPoint])
      | released p | fdsFreed p | pidCleared p | pagemapSwitched p | destroyed p
      | procDeleted =>
          exact absurd (by simp [ExitState.InWindow, hp, ExitPoint.inWindow]) hwin

/-- Outside the window, without the lock, the running thread is not deleted. -/
theorem runs (hs : ExitInv s) (hlock : s.schedLock = false) (hwin : ¬s.InWindow)
    {r : Nat} (hr : s.running = some r) : ∃ p, s.Runs p := by
  rcases hs.point_cases hlock hwin with ⟨_, hruns⟩ | ⟨p, _, hruns⟩ | ⟨_, hidle⟩
  · exact hruns (by simp [hr])
  · exact ⟨p, hruns⟩
  · rw [hidle] at hr
    cases hr

/-- In the window the running thread is deleted. -/
theorem deleted (hs : ExitInv s) (hwin : s.InWindow) :
    ∃ r, s.running = some r ∧ s.sched.threads r = none := by
  have hpoint := hs.at_point
  have horphan : ∀ {p}, s.Orphaned p →
      ∃ r, s.running = some r ∧ s.sched.threads r = none := by
    intro p h
    rcases h with ⟨r, pr, hr, hdel, _⟩
    exact ⟨r, hr, hdel⟩
  cases hp : s.point with
  | none => simp [ExitState.InWindow, hp] at hwin
  | some e =>
      rw [hp] at hpoint
      cases e with
      | released p | fdsFreed p | pidCleared p | pagemapSwitched p | destroyed p =>
          exact horphan hpoint.2
      | procDeleted => exact hpoint.2
      | entered p | locked p | freeing p i | awaiting p i | threadCleared =>
          simp [ExitState.InWindow, hp, ExitPoint.inWindow] at hwin

/-- Outside the window everything a tick reads is there. -/
theorem readable (hs : ExitInv s) (hlock : s.schedLock = false) (hwin : ¬s.InWindow) :
    s.sched.Readable () := by
  constructor
  · intro t ht
    have hth : ∃ th, s.sched.threads t = some th := by
      rcases List.mem_append.mp ht with hr | hq
      · rcases hs.runs hlock hwin (Option.mem_toList.mp hr) with ⟨p, r, th, hr', hth, _⟩
        rw [ExitState.running, Option.mem_toList.mp hr] at hr'
        cases hr'
        exact ⟨th, hth⟩
      · exact hs.waiting t hq
    rcases hth with ⟨th, hth⟩
    rcases hs.owner t th hth with ⟨pr, hpr, _⟩
    exact ⟨th, pr, hth, hpr⟩
  · intro r hr
    rcases hs.runs hlock hwin hr with ⟨p, r', th, hr', hth, hparent, hproc⟩
    rw [ExitState.running, hr] at hr'
    cases hr'
    rcases hs.owner r th hth with ⟨pr, hpr, hthreads⟩
    rw [hparent] at hpr
    refine ⟨p, pr, hproc, hpr, ?_⟩
    intro u hu
    rw [hthreads, List.mem_singleton] at hu
    exact ⟨th, by rw [hu, hth]⟩

/-- A tick reads a deleted thread exactly in the window. -/
theorem reads_deleted_iff (hs : ExitInv s) (hlock : s.schedLock = false)
    (regs : Context) :
    s.sched.reschedule () regs = .error .useAfterFree ↔ s.InWindow := by
  constructor
  · intro hret
    by_contra hwin
    rcases Sched.reschedule_of_readable (hs.readable hlock hwin) regs with
      ⟨s', out, hok⟩ | hnull
    · rw [hret] at hok
      cases hok
    · rw [hret] at hnull
      cases hnull
  · intro hwin
    rcases hs.deleted hwin with ⟨r, hr, hdel⟩
    exact Sched.reschedule_of_deleted hr hdel

section Tick

variable {sched : Sched Unit}

/-- Nobody waits: the running thread goes on where it was. -/
theorem tick_keep (hs : ExitInv s) (hlock : s.schedLock = false) (hwin : ¬s.InWindow)
    (hsame : Sched.SameObjects s.sched sched) {r : Nat} (hr : s.running = some r)
    (hq' : sched.waitingQueue = []) (hr' : (sched.core ()).runningThread = some r)
    (hproc' : (sched.core ()).runningProcess = (s.sched.core ()).runningProcess ∨
      ∃ th, s.sched.threads r = some th ∧
        (sched.core ()).runningProcess = some th.parentProcess) :
    ExitInv { s with sched := sched } := by
  have hruns : ∀ {p}, s.Runs p → ({ s with sched := sched } : ExitState).Runs p := by
    intro p h
    rcases h with ⟨r', th, hr₀, hth, hparent, hproc⟩
    rw [hr] at hr₀
    cases hr₀
    rcases hsame.thread_some hth with ⟨th', hth', hparent'⟩
    refine ⟨r, th', hr', hth', by rw [hparent', hparent], ?_⟩
    rcases hproc' with hproc' | ⟨th₁, hth₁, hproc'⟩
    · exact hproc'.trans hproc
    · rw [hth] at hth₁
      cases hth₁
      show (sched.core ()).runningProcess = some p
      rw [hproc', hparent]
  constructor
  case queue_nodup =>
    show sched.waitingQueue.Nodup
    simp [hq']
  case waiting =>
    show ∀ t ∈ sched.waitingQueue, _
    simp [hq']
  case running_not_waiting =>
    show ∀ r, _ → r ∉ sched.waitingQueue
    simp [hq']
  case owner => exact fun _ _ => hsame.owner hs.owner
  case suspended =>
    intro t e hte
    rcases hs.suspended t e hte with ⟨hne, th, hth, he⟩
    rcases hsame.thread_some hth with ⟨th', hth', hparent⟩
    refine ⟨?_, th', hth', by rw [hparent, he]⟩
    rw [hr] at hne
    exact fun h => hne (hr'.symm.trans h)
  case at_point =>
    show ExitState.AtPoint _ s.point
    rcases hs.point_cases hlock hwin with ⟨hp, h⟩ | ⟨p, hp, h⟩ | ⟨_, hidle⟩
    · rw [hp]
      refine ⟨hlock, fun _ => ?_⟩
      rcases h (by simp [hr]) with ⟨p, h⟩
      exact ⟨p, hruns h⟩
    · rw [hp]
      exact ⟨hlock, hruns h⟩
    · rw [hr] at hidle
      cases hidle

/-- The head of the queue takes the core and goes on where it was. -/
theorem tick_switch (hs : ExitInv s) (hlock : s.schedLock = false)
    (hwin : ¬s.InWindow) (hsame : Sched.SameObjects s.sched sched)
    {rest : List Nat} {th : Thread} (hq : s.sched.waitingQueue = t :: rest)
    (hth : s.sched.threads t = some th)
    (hr' : (sched.core ()).runningThread = some t)
    (hproc' : (sched.core ()).runningProcess = some th.parentProcess)
    (hq' : sched.waitingQueue = rest ∨ ∃ r, s.running = some r ∧ r ≠ t ∧
      sched.waitingQueue = rest ++ [r]) :
    ExitInv (s.resume sched) := by
  obtain ⟨hnodup, hhead, hmem⟩ := Sched.requeued hq hs.queue_nodup hs.running_not_waiting hq'
  have hold : s.running ≠ some t := by
    intro hr
    exact hs.running_not_waiting t hr (by simp [hq])
  have hresume : s.resume sched = { s with
      sched := sched
      point := s.suspended t
      suspended := fun u =>
        if some u = s.running then s.point
        else if some u = some t then none
        else s.suspended u } := by
    unfold ExitState.resume
    rw [hr', if_neg (Ne.symm hold)]
    rfl
  rcases hsame.thread_some hth with ⟨th', hth', hparent⟩
  have hruns : (s.resume sched).Runs th.parentProcess := by
    rw [hresume]
    exact ⟨t, th', hr', hth', hparent, hproc'⟩
  constructor
  case queue_nodup =>
    rw [hresume]
    exact hnodup
  case waiting =>
    intro u hu
    rw [hresume] at hu ⊢
    have hlive : ∃ thu, s.sched.threads u = some thu := by
      rcases hmem u hu with hu | ⟨hr, _⟩
      · exact hs.waiting u (by simp [hq, hu])
      · rcases hs.runs hlock hwin hr with ⟨p, r, thr, hr₀, hthr, _⟩
        rw [hr] at hr₀
        cases hr₀
        exact ⟨thr, hthr⟩
    exact hsame.live hlive
  case running_not_waiting =>
    intro r hr hcontra
    rw [hresume] at hr hcontra
    have htr : t = r := Option.some.inj (hr'.symm.trans hr)
    subst htr
    exact hhead hcontra
  case owner =>
    rw [hresume]
    exact fun _ _ => hsame.owner hs.owner
  case suspended =>
    intro u e hue
    rw [hresume] at hue ⊢
    simp only at hue
    have hsusp : s.running ≠ some t ∧ u ≠ t ∧
        ∃ thu, s.sched.threads u = some thu ∧ e = .entered thu.parentProcess := by
      refine ⟨hold, ?_⟩
      split at hue
      · -- the thread that left the core
        rename_i hru
        have hne : u ≠ t := fun h => hold (by rw [← hru, h])
        refine ⟨hne, ?_⟩
        rcases hs.point_cases hlock hwin with ⟨hp, _⟩ | ⟨p, hp, h⟩ | ⟨_, hidle⟩
        · rw [hp] at hue
          cases hue
        · rw [hp] at hue
          cases hue
          rcases h with ⟨r, thr, hr, hthr, hparentr, _⟩
          rw [← hru] at hr
          cases hr
          exact ⟨thr, hthr, by rw [hparentr]⟩
        · rw [hidle] at hru
          cases hru
      · split at hue
        · cases hue
        · rename_i hne
          have hne' : u ≠ t := fun h => hne (by rw [h])
          exact ⟨hne', (hs.suspended u e hue).2⟩
    rcases hsusp with ⟨_, hne, thu, hthu, he⟩
    rcases hsame.thread_some hthu with ⟨thu', hthu', hparentu⟩
    refine ⟨?_, thu', hthu', by rw [hparentu, he]⟩
    intro hcontra
    exact hne (Option.some.inj (hcontra.symm.trans hr'))
  case at_point =>
    have hpoint : (s.resume sched).point = s.suspended t := by rw [hresume]
    have hlock' : (s.resume sched).schedLock = false := by rw [hresume]; exact hlock
    rw [hpoint]
    cases hsusp : s.suspended t with
    | none => exact ⟨hlock', fun _ => ⟨_, hruns⟩⟩
    | some e =>
        rcases hs.suspended t e hsusp with ⟨_, th₀, hth₀, he⟩
        rw [hth] at hth₀
        cases hth₀
        rw [he]
        exact ⟨hlock', hruns⟩

/-- A tick outside the window. -/
theorem tick (hs : ExitInv s) (hlock : s.schedLock = false) (hwin : ¬s.InWindow)
    {out : Option Context} (hret : s.sched.reschedule () regs = .ok (sched, out)) :
    ExitInv (s.resume sched) := by
  rcases Sched.reschedule_cases hret with ⟨hsame, hcases⟩
  rcases hcases with ⟨r, hr, _, hq', hr', hproc'⟩ |
    ⟨t, rest, th, hq, hth, hr', hproc', hq'⟩
  · have hresume : s.resume sched = { s with sched := sched } := by
      simp [ExitState.resume, ExitState.running, hr, hr']
    rw [hresume]
    exact hs.tick_keep hlock hwin hsame hr hq' hr' hproc'
  · exact hs.tick_switch hlock hwin hsame hq hth hr' hproc' hq'

end Tick

/-! ## Syscalls -/

/-- A process with its thread, both at new addresses. -/
theorem newProcess (hs : ExitInv s) (hpoint : s.point = none)
    (ht : s.sched.threads t = none) (hp : s.sched.procs p = none) {th : Thread}
    {pr : Process} (hparent : th.parentProcess = p) (hthreads : pr.threads = [t])
    {list : List Nat} {pids tids : Bitmap} :
    ExitInv { s with
      sched := (s.sched.setThread t th).setProc p pr
      processList := list
      pidBitmap := pids
      tidBitmap := tids } := by
  have hkeep : ∀ {u thu}, s.sched.threads u = some thu →
      Function.update s.sched.threads t (some th) u = some thu := by
    intro u thu hu
    refine update_eq_some.mpr (.inr ⟨?_, hu⟩)
    intro heq
    rw [heq, ht] at hu
    cases hu
  constructor
  case queue_nodup => exact hs.queue_nodup
  case waiting =>
    intro u hu
    rcases hs.waiting u hu with ⟨thu, hthu⟩
    exact ⟨thu, hkeep hthu⟩
  case running_not_waiting => exact hs.running_not_waiting
  case owner =>
    intro u thu hu
    rcases update_eq_some.mp hu with ⟨rfl, rfl⟩ | ⟨_, hu⟩
    · exact ⟨pr, update_eq_some.mpr (.inl ⟨hparent, rfl⟩), hthreads⟩
    · rcases hs.owner u thu hu with ⟨pru, hpru, hone⟩
      refine ⟨pru, update_eq_some.mpr (.inr ⟨?_, hpru⟩), hone⟩
      intro heq
      rw [heq, hp] at hpru
      cases hpru
  case suspended =>
    intro u e hue
    rcases hs.suspended u e hue with ⟨hne, thu, hthu, he⟩
    exact ⟨hne, thu, hkeep hthu, he⟩
  case at_point =>
    have h := hs.at_point
    rw [hpoint] at h
    show ExitState.AtPoint _ s.point
    rw [hpoint]
    refine ⟨h.1, ?_⟩
    intro hrun
    rcases h.2 hrun with ⟨q, r, thr, hr, hthr, hq, hproc⟩
    exact ⟨q, r, thr, hr, hkeep hthr, hq, hproc⟩

theorem queue (hs : ExitInv s) (hpoint : s.point = none)
    (ht : s.sched.threads t ≠ none) (hnew : t ∉ s.sched.waitingQueue)
    (hidle : s.running ≠ some t) :
    ExitInv { s with sched := s.sched.queue t } := by
  constructor
  case queue_nodup =>
    show (s.sched.waitingQueue ++ [t]).Nodup
    rw [List.nodup_append_comm, List.singleton_append, List.nodup_cons]
    exact ⟨hnew, hs.queue_nodup⟩
  case waiting =>
    intro u hu
    rcases List.mem_append.mp hu with hu | hu
    · exact hs.waiting u hu
    · rw [List.mem_singleton.mp hu]
      exact Option.ne_none_iff_exists'.mp ht
  case running_not_waiting =>
    intro r hr hmem
    rcases List.mem_append.mp hmem with hmem | hmem
    · exact hs.running_not_waiting r hr hmem
    · rw [List.mem_singleton.mp hmem] at hr
      exact hidle hr
  case owner => exact hs.owner
  case suspended => exact hs.suspended
  case at_point =>
    have h := hs.at_point
    show ExitState.AtPoint _ s.point
    rw [hpoint] at h ⊢
    exact h

/-- `exit_process` is called. -/
theorem exit (hs : ExitInv s) (hpoint : s.point = none) (hrun : s.running ≠ none)
    (hproc : (s.sched.core ()).runningProcess = some p) :
    ExitInv { s with point := some (.entered p) } := by
  have h := hs.at_point
  rw [hpoint] at h
  rcases h.2 hrun with ⟨q, hruns⟩
  have hqp : q = p := by
    rcases hruns with ⟨_, _, _, _, _, hq⟩
    rw [hproc] at hq
    exact (Option.some.inj hq).symm
  subst hqp
  exact ⟨hs.queue_nodup, hs.waiting, hs.running_not_waiting, hs.owner, hs.suspended,
    h.1, hruns⟩

/-! ## The steps of `exit_process` -/

/-- A step that only moves on, or touches what the invariant does not name. -/
theorem move (hs : ExitInv s) {point : Option ExitPoint} {lock : Bool}
    {list : List Nat} {pids : Bitmap}
    (hpoint : ({ s with schedLock := lock } : ExitState).AtPoint point) :
    ExitInv { s with
      schedLock := lock, point := point, processList := list, pidBitmap := pids } := by
  refine ⟨hs.queue_nodup, hs.waiting, hs.running_not_waiting, hs.owner, hs.suspended, ?_⟩
  cases point with
  | none => exact hpoint
  | some e =>
      cases e with
      | freeing p i =>
          match i with
          | 0 => exact hpoint
          | 1 => exact hpoint
          | _ + 2 => exact hpoint
      | entered p | locked p | awaiting p i | released p | fdsFreed p | pidCleared p
      | pagemapSwitched p | destroyed p | procDeleted | threadCleared => exact hpoint

/-- The loop deletes the running thread, the only one of its process. -/
theorem deleteRunning (hs : ExitInv s) (hlock : s.schedLock = true) {r : Nat}
    {th : Thread} {pr : Process} (hr : s.running = some r)
    (hpr : s.sched.procs p = some pr) (hthreads : pr.threads = [r]) :
    ExitInv ({ s with point := some (.freeing p 1) }.deleteThread r th) := by
  have hne : ∀ {u}, u ≠ r → Function.update s.sched.threads r none u =
      s.sched.threads u := fun hur => Function.update_of_ne hur _ _
  constructor
  case queue_nodup => exact hs.queue_nodup
  case waiting =>
    intro u hu
    have hur : u ≠ r := by
      intro heq
      rw [heq] at hu
      exact hs.running_not_waiting r hr hu
    rcases hs.waiting u hu with ⟨thu, hthu⟩
    exact ⟨thu, (hne hur).trans hthu⟩
  case running_not_waiting => exact hs.running_not_waiting
  case owner =>
    intro u thu hu
    have hur : u ≠ r := by
      intro heq
      subst heq
      simp [ExitState.deleteThread] at hu
    exact hs.owner u thu ((hne hur).symm.trans hu)
  case suspended =>
    intro u e hue
    rcases hs.suspended u e hue with ⟨hrun, thu, hthu, he⟩
    have hur : u ≠ r := by
      intro heq
      rw [heq] at hrun
      exact hrun hr
    exact ⟨hrun, thu, (hne hur).trans hthu, he⟩
  case at_point =>
    refine ⟨hlock, r, pr, hr, ?_, hpr, hthreads⟩
    show Function.update s.sched.threads r none r = none
    exact Function.update_self r none s.sched.threads

/-- `delete proc`, whose thread is deleted already. -/
theorem deleteProc (hs : ExitInv s) (hlock : s.schedLock = false)
    (horphan : s.Orphaned p) :
    ExitInv { s with
      sched := { s.sched with procs := Function.update s.sched.procs p none }
      point := some .procDeleted } := by
  rcases horphan with ⟨r, pr, hr, hdel, hpr, hthreads⟩
  refine ⟨hs.queue_nodup, hs.waiting, hs.running_not_waiting, ?_, hs.suspended,
    hlock, r, hr, hdel⟩
  intro u thu hu
  rcases hs.owner u thu hu with ⟨pru, hpru, hone⟩
  refine ⟨pru, ?_, hone⟩
  have hup : thu.parentProcess ≠ p := by
    intro heq
    rw [heq, hpr] at hpru
    cases hpru
    rw [hthreads] at hone
    have hru : r = u := (List.cons.inj hone).1
    rw [hru, show s.sched.threads u = some thu from hu] at hdel
    cases hdel
  exact (Function.update_of_ne hup _ _).trans hpru

/-- The core is given up. -/
theorem setCore (hs : ExitInv s) (hlock : s.schedLock = false) {core : Core}
    (hcore : core.runningThread = none) {point : Option ExitPoint}
    (hpoint : point = none ∨ point = some .threadCleared) :
    ExitInv { s.setCore core with point := point } := by
  refine ⟨hs.queue_nodup, hs.waiting, ?_, hs.owner, ?_, ?_⟩
  · intro r hr
    rw [show core.runningThread = some r from hr] at hcore
    cases hcore
  · intro u e hue
    refine ⟨?_, (hs.suspended u e hue).2⟩
    intro hr
    rw [show core.runningThread = some u from hr] at hcore
    cases hcore
  · rcases hpoint with rfl | rfl
    · exact ⟨hlock, fun h => absurd hcore h⟩
    · exact ⟨hlock, hcore⟩

/-- Every step of `exit_process`. -/
theorem advance (hs : ExitInv s) {stale : Nat → Nat}
    (hret : s.advance stale = .ok s') : ExitInv s' := by
  have hpoint := hs.at_point
  unfold ExitState.advance at hret
  cases hp : s.point with
  | none =>
      simp only [hp] at hret
      cases hret
      exact hs
  | some e =>
      rw [hp] at hpoint
      simp only [hp] at hret
      cases e with
      | entered p =>
          rw [hpoint.1] at hret
          cases hret
          exact hs.move ⟨rfl, hpoint.2⟩
      | locked p =>
          simp only [bind_eq_ok] at hret
          rcases hret with ⟨pr, _, list, _, hret⟩
          cases hret
          exact hs.move ⟨hpoint.1, hpoint.2⟩
      | freeing p i =>
          simp only [bind_eq_ok, Sched.proc_eq_ok] at hret
          rcases hret with ⟨pr, hpr, hret⟩
          match i with
          | 0 =>
              rcases hpoint with ⟨hlock, r, th, hr, hth, hparent, _⟩
              rcases hs.owner r th hth with ⟨pr', hpr', hthreads⟩
              rw [hparent, hpr] at hpr'
              cases hpr'
              simp only [hthreads, List.getElem?_cons_zero, ExitState.freeThread, hr,
                Sched.thread_of_some hth, ok_bind, if_true] at hret
              cases hret
              exact hs.deleteRunning hlock hr hpr hthreads
          | 1 =>
              rcases hpoint with ⟨hlock, r, pr', hr, hdel, hpr', hthreads⟩
              rw [hpr] at hpr'
              cases hpr'
              simp only [hthreads] at hret
              cases hret
              exact hs.move ⟨rfl, r, pr, hr, hdel, hpr, hthreads⟩
          | i + 2 => exact absurd hpoint (by simp [ExitState.AtPoint])
      | awaiting p i => exact absurd hpoint (by simp [ExitState.AtPoint])
      | fdsFreed p =>
          simp only [bind_eq_ok] at hret
          rcases hret with ⟨pr, _, hret⟩
          cases hret
          exact hs.move ⟨hpoint.1, hpoint.2⟩
      | released p | pidCleared p | pagemapSwitched p =>
          cases hret
          exact hs.move ⟨hpoint.1, hpoint.2⟩
      | destroyed p =>
          cases hret
          exact hs.deleteProc hpoint.1 hpoint.2
      | procDeleted =>
          cases hret
          exact hs.setCore hpoint.1 rfl (.inr rfl)
      | threadCleared =>
          cases hret
          have hcore : { s.sched.core () with runningProcess := none }.runningThread =
              none := hpoint.2
          exact hs.setCore hpoint.1 hcore (.inl rfl)

end ExitInv

/-! ## Whole runs -/

def ExitEvent.isTick : ExitEvent → Bool
  | .tick _ => true
  | _ => false

/-- A step that, if it is a tick, does not fall into the window. -/
def QuietStep (s : ExitState) (e : ExitEvent) (s' : ExitState) : Prop :=
  ExitStep s e s' ∧ ¬(e.isTick = true ∧ s.InWindow)

/-- The quiet step as a function. -/
def ExitState.attemptQuiet (s : ExitState) (e : ExitEvent) : Option ExitState :=
  if e.isTick = true ∧ s.InWindow then none else s.attempt e

theorem quietStep_of_attempt {s s' : ExitState} {e : ExitEvent}
    (h : s.attemptQuiet e = some s') : QuietStep s e s' := by
  unfold ExitState.attemptQuiet at h
  split at h
  · cases h
  · exact ⟨exitStep_of_attempt h, ‹_›⟩

theorem ExitInv.step {s s' : ExitState} {e : ExitEvent} (hs : ExitInv s)
    (hstep : QuietStep s e s') : ExitInv s' := by
  rcases hstep with ⟨⟨hallowed, hret⟩, hquiet⟩
  cases e with
  | newProcess t p tid pid dir pagemap fdList regs =>
      cases hret
      exact hs.newProcess hallowed.1 hallowed.2.1 hallowed.2.2 rfl rfl
  | queue t =>
      cases hret
      exact hs.queue hallowed.1 hallowed.2.1 hallowed.2.2.1 hallowed.2.2.2
  | exit =>
      simp only [ExitState.exec] at hret
      cases hproc : (s.sched.core ()).runningProcess with
      | none => simp [hproc] at hret
      | some p =>
          simp only [hproc] at hret
          cases hret
          exact hs.exit hallowed.1 hallowed.2 hproc
  | advance stale => exact hs.advance hret
  | tick regs =>
      simp only [ExitState.exec, bind_eq_ok] at hret
      rcases hret with ⟨⟨sched, out⟩, hresched, hret⟩
      cases hret
      have hwin : ¬s.InWindow := fun hwin => hquiet ⟨rfl, hwin⟩
      exact hs.tick hallowed hwin hresched

/-- In every run whose ticks stay out of the window between the release of
`sched_lock` and `running_thread = nullptr`, no deleted thread waits, and the
states in which a tick would read one are exactly those of the window. -/
theorem freed_threads_not_scheduled {es : List ExitEvent} {s : ExitState}
    (hrun : Run QuietStep ExitState.boot es s) :
    (∀ t ∈ s.sched.waitingQueue, s.sched.threads t ≠ none) ∧
    ∀ regs, s.schedLock = false →
      (s.sched.reschedule () regs = .error .useAfterFree ↔ s.InWindow) := by
  have hs : ExitInv s := hrun.invariant (fun hs hstep => hs.step hstep) exitInv_boot
  constructor
  · intro t ht
    exact Option.ne_none_iff_exists'.mpr (hs.waiting t ht)
  · intro regs hlock
    exact hs.reads_deleted_iff hlock regs

/-- Of two processes the first runs, exits without a tick in the window, and the
next tick gives the core to the second. -/
theorem freed_threads_not_scheduled_two :
    ∃ s : ExitState, s.running = some 3 ∧ s.sched.threads 1 = none ∧
      (∀ t ∈ s.sched.waitingQueue, s.sched.threads t ≠ none) ∧
      ∀ regs, s.schedLock = false →
        (s.sched.reschedule () regs = .error .useAfterFree ↔ s.InWindow) := by
  have hs : (([.newProcess 1 2 0 0 0 0 [] default, .queue 1,
      .newProcess 3 4 1 1 0 0 [] default, .queue 3, .tick default, .exit] ++
      List.replicate 11 (.advance id) ++ [.tick default] : List ExitEvent).foldlM
        ExitState.attemptQuiet ExitState.boot).map
          (fun s => (s.running, s.sched.threads 1)) = some (some 3, none) := by
    decide +kernel
  rcases Option.map_eq_some_iff.mp hs with ⟨s, hs, hview⟩
  have hsafe := freed_threads_not_scheduled (Run.of_foldlM quietStep_of_attempt hs)
  exact ⟨s, congrArg (·.1) hview, congrArg (·.2) hview, hsafe⟩

/-- One process runs, calls `exit_process` and has its thread freed. -/
def exitTrace : List ExitEvent :=
  [.newProcess 1 2 0 0 0 0 [] default, .queue 1, .tick default, .exit,
    .advance id, .advance id, .advance id, .advance id]

/-- A tick right after the lock was released reads the deleted thread. -/
theorem tick_reads_deleted_thread :
    ∃ s, Run ExitStep ExitState.boot exitTrace s ∧ s.schedLock = false ∧
      s.running = some 1 ∧ s.sched.threads 1 = none ∧
      s.sched.reschedule () default = .error .useAfterFree := by
  have hs : (exitTrace.foldlM ExitState.attempt ExitState.boot).map
      (fun s => (s.schedLock, s.running, s.sched.threads 1)) =
        some (false, some 1, none) := by decide +kernel
  rcases Option.map_eq_some_iff.mp hs with ⟨s, hs, hview⟩
  have hrun : s.running = some 1 := congrArg (·.2.1) hview
  have hdel : s.sched.threads 1 = none := congrArg (·.2.2) hview
  exact ⟨s, Run.of_foldlM exitStep_of_attempt hs, congrArg (·.1) hview, hrun, hdel,
    Sched.reschedule_of_deleted hrun hdel⟩

end Toystar.Scheduler

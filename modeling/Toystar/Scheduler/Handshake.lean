import Toystar.Scheduler.Tick

/-!
# Giving up a thread that is to die

`exit_process` marks a thread that another core runs `Dying` and frees it, and at the end
its process, as soon as it reads `Dead`.  So the tick that stores `Dead` must be the last
that the core has to do with them.  It is when another thread takes the core, as long as
that thread is of another process.  With an empty queue the handler stores `Dead` and
returns into the thread.
-/

namespace Toystar.Scheduler

open Toystar.Kernel

namespace Sched

variable {κ : Type} {s s' : Sched κ} {c : κ} {t : Nat} {th : Thread} {regs : Context}
  {out : Option Context}

/-- The core goes on with another thread, and `cpu` names neither thread `t` nor process
`p`. -/
structure GaveUp (s : Sched κ) (c : κ) (out : Option Context) (t p : Nat) : Prop where
  switched : out ≠ none
  thread : (s.core c).runningThread ≠ some t
  process : (s.core c).runningProcess ≠ some p

/-- Thread `t` was marked `Dead`. -/
def Dead (s : Sched κ) (t : Nat) : Prop := ∃ th, s.threads t = some th ∧ th.status = .dead

/-- Somebody of another process waits in front.  The second case is for completeness: a
running thread is on no queue. -/
def Relieved (s : Sched κ) (t p : Nat) : Prop :=
  ∃ u rest thu, s.waitingQueue = u :: rest ∧ s.threads u = some thu ∧
    (thu.parentProcess ≠ p ∨ u = t)

variable [DecidableEq κ]

/-- A tick on a core whose thread is to die, with an empty queue: it is marked, and the
handler returns. -/
theorem reschedule_dying_nil (hrun : (s.core c).runningThread = some t)
    (hth : s.threads t = some th) (hdying : th.status = .dying) (hq : s.waitingQueue = []) :
    s.reschedule c regs = .ok (s.setThread t { th with status := .dead }, none) := by
  have hpick : s.pickNext c regs = .ok (none, s.setThread t { th with status := .dead }) := by
    unfold pickNext
    simp [hq, hrun, thread_of_some hth, hdying]
  unfold reschedule
  simp only [hrun, hq, Option.toList_some, inspect, thread_of_some hth, ok_bind, hpick]

/-- With another thread in front it is marked and the other takes the core. -/
theorem reschedule_dying_cons (hrun : (s.core c).runningThread = some t)
    (hth : s.threads t = some th) (hdying : th.status = .dying) {u : Nat} {rest : List Nat}
    (hq : s.waitingQueue = u :: rest) (hne : u ≠ t)
    (hret : s.reschedule c regs = .ok (s', out)) :
    s'.Dead t ∧ out ≠ none ∧ (s'.core c).runningThread = some u ∧
      ∃ thu, s.threads u = some thu ∧ (s'.core c).runningProcess = some thu.parentProcess := by
  obtain ⟨marked, hmarked⟩ : ∃ x : Sched κ, x = Sched.setThread
    { s with waitingQueue := rest } t { th with status := .dead } := ⟨_, rfl⟩
  have hpick : s.pickNext c regs = .ok (some u, { s with waitingQueue := rest }) := by
    unfold pickNext
    simp only [hq]
  have hthread : thread { s with waitingQueue := rest } t = .ok th := thread_of_some hth
  have hpre : preempt { s with waitingQueue := rest } c u regs = .ok marked := by
    unfold preempt
    simp only [hrun, if_neg (Ne.symm hne), hthread, ok_bind, hdying, ne_eq,
      not_true_eq_false, if_false, hmarked]
  simp only [reschedule, bind_eq_ok, hpick] at hret
  obtain ⟨_, _, _, _, _, hnext, hret⟩ := hret
  cases hnext
  simp only [hpre, bind_eq_ok] at hret
  obtain ⟨_, hsame, hswitch⟩ := hret
  cases hsame
  simp only [switchTo, bind_eq_ok, thread_eq_ok, proc_eq_ok] at hswitch
  obtain ⟨thu, hthu, pr, _, hswitch⟩ := hswitch
  cases hswitch
  have hthu' : s.threads u = some thu := by
    rw [hmarked] at hthu
    rcases update_eq_some.mp hthu with ⟨heq, _⟩ | ⟨_, hold⟩
    · exact absurd heq hne
    · exact hold
  refine ⟨⟨{ th with status := .dead }, ?_, rfl⟩, by simp, ?_, thu, hthu', ?_⟩
  · refine update_eq_some.mpr (.inr ⟨Ne.symm hne, ?_⟩)
    rw [hmarked]
    exact update_eq_some.mpr (.inl ⟨rfl, rfl⟩)
  · simp
  · simp

/-- With itself in front it goes on running. -/
theorem reschedule_dying_self (hrun : (s.core c).runningThread = some t)
    {rest : List Nat} (hq : s.waitingQueue = t :: rest)
    (hret : s.reschedule c regs = .ok (s', out)) : ¬s'.Dead t := by
  have hpick : s.pickNext c regs = .ok (some t, { s with waitingQueue := rest }) := by
    unfold pickNext
    simp only [hq]
  have hpre : preempt { s with waitingQueue := rest } c t regs =
      .ok { s with waitingQueue := rest } := by
    unfold preempt
    simp only [hrun, if_true]
  simp only [reschedule, bind_eq_ok, hpick] at hret
  obtain ⟨_, _, _, _, _, hnext, hret⟩ := hret
  cases hnext
  simp only [hpre, bind_eq_ok] at hret
  obtain ⟨_, hsame, hswitch⟩ := hret
  cases hsame
  simp only [switchTo, bind_eq_ok, thread_eq_ok, proc_eq_ok] at hswitch
  obtain ⟨th, hth, pr, _, hswitch⟩ := hswitch
  cases hswitch
  rintro ⟨th', hth', hdead⟩
  rcases update_eq_some.mp hth' with ⟨_, rfl⟩ | ⟨hne, _⟩
  · cases hdead
  · exact hne rfl

end Sched

variable {κ : Type} [DecidableEq κ] {s s' : Sched κ} {c : κ} {t : Nat} {th : Thread}
  {regs : Context} {out : Option Context}

/-- Core `c` runs a thread that is to die.  A tick that marks it `Dead` takes it and its
process off the core exactly when a thread of another process is in front of the queue. -/
theorem dead_gave_up_iff (hrun : (s.core c).runningThread = some t)
    (hth : s.threads t = some th) (hdying : th.status = .dying)
    (hret : s.reschedule c regs = .ok (s', out)) :
    (s'.Dead t → s'.GaveUp c out t th.parentProcess) ↔ s.Relieved t th.parentProcess := by
  cases hq : s.waitingQueue with
  | nil =>
      rw [Sched.reschedule_dying_nil hrun hth hdying hq] at hret
      cases hret
      constructor
      · intro h
        have hdead : (s.setThread t { th with status := .dead }).Dead t :=
          ⟨_, update_eq_some.mpr (.inl ⟨rfl, rfl⟩), rfl⟩
        exact absurd hrun (h hdead).thread
      · rintro ⟨u, rest, thu, hcons, _⟩
        rw [hq] at hcons
        cases hcons
  | cons u rest =>
      by_cases hne : u = t
      · subst hne
        constructor
        · intro _
          exact ⟨u, rest, th, hq, hth, .inr rfl⟩
        · intro _ hdead
          exact absurd hdead (Sched.reschedule_dying_self hrun hq hret)
      · obtain ⟨hdead, hout, hthread, thu, hthu, hprocess⟩ :=
          Sched.reschedule_dying_cons hrun hth hdying hq hne hret
        constructor
        · intro h
          refine ⟨u, rest, thu, hq, hthu, .inl ?_⟩
          intro heq
          rw [heq] at hprocess
          exact (h hdead).process hprocess
        · rintro ⟨u', rest', thu', hcons, hthu', hcases⟩ _
          rw [hq] at hcons
          cases hcons
          rw [hthu] at hthu'
          cases hthu'
          refine ⟨hout, ?_, ?_⟩
          · rw [hthread]
            simpa using hne
          · rw [hprocess]
            rcases hcases with hother | hself
            · simpa using hother
            · exact absurd hself hne

/-- Core `false` exits process 1 with thread 0, and waits for core `true` to give up thread
1 of this process; thread 2 of process 2 may wait. -/
def exiting (q : List Nat) : Sched Bool :=
  { threads := fun t =>
      if t = 0 then some ⟨0, .running, 1, default⟩
      else if t = 1 then some ⟨1, .dying, 1, default⟩
      else if t = 2 then some ⟨2, .waiting, 2, default⟩ else none
    procs := fun p =>
      if p = 1 then some ⟨1, .running, 0, [0, 1], [], 0⟩
      else if p = 2 then some ⟨2, .waiting, 0, [2], [], 0⟩ else none
    waitingQueue := q
    core := fun c => ⟨some 1, some (if c then 1 else 0), 0, 0⟩ }

/-- Core `true` takes thread 2. -/
theorem dead_gave_up_iff_other : ∃ s' out, (exiting [2]).reschedule true default = .ok (s', out) ∧
    s'.Dead 1 ∧ s'.GaveUp true out 1 1 := by
  have hret : ∃ s' out, (exiting [2]).reschedule true default = .ok (s', out) ∧ s'.Dead 1 :=
    ⟨_, _, rfl, ⟨1, .dead, 1, default⟩, rfl, rfl⟩
  obtain ⟨s', out, hret, hdead⟩ := hret
  have hiff := dead_gave_up_iff (t := 1) rfl rfl rfl hret
  exact ⟨s', out, hret, hdead, hiff.mpr ⟨2, [], ⟨2, .waiting, 2, default⟩, rfl, rfl,
    .inl (by decide)⟩ hdead⟩

/-- With an empty queue the handler returns into the thread it marked. -/
theorem dead_goes_on : ∃ s', (exiting []).reschedule true default = .ok (s', none) ∧
    s'.Dead 1 ∧ (s'.core true).runningThread = some 1 ∧
    ¬s'.GaveUp true none 1 1 :=
  ⟨_, rfl, ⟨⟨1, .dead, 1, default⟩, rfl, rfl⟩, rfl, fun h => h.switched rfl⟩

end Toystar.Scheduler

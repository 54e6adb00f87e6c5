import Toystar.Scheduler.Sched

/-!
# What a tick can do

`reschedule` moves threads between the core and the queue and changes statuses
and saved registers; it never makes, deletes or re-parents an object.  This
holds of every call that returns, whatever the statuses are.  A call reads a
deleted object only if the running thread, a waiting thread or one of their
processes is deleted.
-/

namespace Toystar.Scheduler

open Toystar.Kernel

/-- A thread without the status and the registers, which ticks change. -/
def Thread.identity (th : Thread) : Nat × Nat := (th.tid, th.parentProcess)

/-- A process without the status. -/
def Process.identity (pr : Process) : Process := { pr with status := .waiting }

namespace Sched

variable {κ : Type} {s s' s'' : Sched κ} {c : κ} {t u p : Nat} {th : Thread}
  {pr : Process} {regs : Context}

/-- The same objects at the same addresses, up to statuses and registers. -/
structure SameObjects (s s' : Sched κ) : Prop where
  threads : ∀ t, (s'.threads t).map Thread.identity = (s.threads t).map Thread.identity
  procs : ∀ p, (s'.procs p).map Process.identity = (s.procs p).map Process.identity

namespace SameObjects

theorem refl (s : Sched κ) : SameObjects s s := ⟨fun _ => rfl, fun _ => rfl⟩

theorem symm (h : SameObjects s s') : SameObjects s' s :=
  ⟨fun t => (h.threads t).symm, fun p => (h.procs p).symm⟩

theorem trans (h₁ : SameObjects s s') (h₂ : SameObjects s' s'') : SameObjects s s'' :=
  ⟨fun t => (h₂.threads t).trans (h₁.threads t),
    fun p => (h₂.procs p).trans (h₁.procs p)⟩

theorem setThread {th' : Thread} (ht : s.threads t = some th)
    (hid : th'.identity = th.identity) : SameObjects s (s.setThread t th') := by
  refine ⟨?_, fun _ => rfl⟩
  intro u
  by_cases hu : u = t
  · subst hu
    simp [Sched.setThread, ht, hid]
  · simp [Sched.setThread, hu]

theorem setProc {pr' : Process} (hp : s.procs p = some pr)
    (hid : pr'.identity = pr.identity) : SameObjects s (s.setProc p pr') := by
  refine ⟨fun _ => rfl, ?_⟩
  intro q
  by_cases hq : q = p
  · subst hq
    simp [Sched.setProc, hp, hid]
  · simp [Sched.setProc, hq]

theorem thread_some (h : SameObjects s s') (ht : s.threads t = some th) :
    ∃ th', s'.threads t = some th' ∧ th'.parentProcess = th.parentProcess := by
  have hmap := h.threads t
  rw [ht, Option.map_some, Option.map_eq_some_iff] at hmap
  rcases hmap with ⟨th', hth', hid⟩
  exact ⟨th', hth', congrArg Prod.snd hid⟩

theorem proc_some (h : SameObjects s s') (hp : s.procs p = some pr) :
    ∃ pr', s'.procs p = some pr' ∧ pr'.threads = pr.threads := by
  have hmap := h.procs p
  rw [hp, Option.map_some, Option.map_eq_some_iff] at hmap
  rcases hmap with ⟨pr', hpr', hid⟩
  have hthreads : pr'.identity.threads = pr.identity.threads := by rw [hid]
  exact ⟨pr', hpr', hthreads⟩

theorem live (h : SameObjects s s') (ht : ∃ th, s.threads t = some th) :
    ∃ th, s'.threads t = some th := by
  rcases ht with ⟨th, hth⟩
  rcases h.thread_some hth with ⟨th', hth', _⟩
  exact ⟨th', hth'⟩

/-- Every thread still is the only one of its process. -/
theorem owner (h : SameObjects s s')
    (howner : ∀ t th, s.threads t = some th →
      ∃ pr, s.procs th.parentProcess = some pr ∧ pr.threads = [t])
    (ht : s'.threads t = some th) :
    ∃ pr, s'.procs th.parentProcess = some pr ∧ pr.threads = [t] := by
  rcases h.symm.thread_some ht with ⟨th₀, hth₀, hparent⟩
  rcases howner t th₀ hth₀ with ⟨pr, hpr, hthreads⟩
  rcases h.proc_some hpr with ⟨pr', hpr', hthreads'⟩
  rw [hparent] at hpr'
  exact ⟨pr', hpr', hthreads'.trans hthreads⟩

end SameObjects

/-- The queue behind its head `t`, with the thread that left the core at its end or not. -/
theorem requeued {waiting rest queue : List Nat} {running : Option Nat}
    (hq : waiting = t :: rest) (hnodup : waiting.Nodup)
    (hrun : ∀ r, running = some r → r ∉ waiting)
    (hmoved : queue = rest ∨ ∃ r, running = some r ∧ r ≠ t ∧ queue = rest ++ [r]) :
    queue.Nodup ∧ t ∉ queue ∧ ∀ u ∈ queue, u ∈ rest ∨ (running = some u ∧ u ≠ t) := by
  subst hq
  rw [List.nodup_cons] at hnodup
  rcases hmoved with rfl | ⟨r, hr, hne, rfl⟩
  · exact ⟨hnodup.2, hnodup.1, fun u hu => .inl hu⟩
  · have hrest : r ∉ rest := fun hmem => hrun r hr (List.mem_cons_of_mem t hmem)
    refine ⟨?_, ?_, fun u hu => ?_⟩
    · rw [List.nodup_append_comm, List.singleton_append, List.nodup_cons]
      exact ⟨hrest, hnodup.2⟩
    · rw [List.mem_append, List.mem_singleton, not_or]
      exact ⟨hnodup.1, Ne.symm hne⟩
    · rcases List.mem_append.mp hu with hu | hu
      · exact .inl hu
      · rw [List.mem_singleton.mp hu]
        exact .inr ⟨hr, hne⟩

theorem thread_eq_ok : s.thread t = .ok th ↔ s.threads t = some th := by
  unfold thread
  cases s.threads t with
  | none => simp
  | some th' => simp

theorem proc_eq_ok : s.proc p = .ok pr ↔ s.procs p = some pr := by
  unfold proc
  cases s.procs p with
  | none => simp
  | some pr' => simp

/-! ## Calls that return -/

/-- The head of the queue leaves it, or the running thread is kept. -/
theorem pickNext_cases {next : Option Nat} (h : s.pickNext c regs = .ok (next, s')) :
    SameObjects s s' ∧ s'.core = s.core ∧
    ((∃ t rest, s.waitingQueue = t :: rest ∧ next = some t ∧ s'.waitingQueue = rest) ∨
      ∃ r, (s.core c).runningThread = some r ∧ s.waitingQueue = [] ∧
        (next = some r ∨ next = none) ∧ s'.waitingQueue = []) := by
  unfold pickNext at h
  cases hq : s.waitingQueue with
  | cons t rest =>
      simp only [hq] at h
      cases h
      exact ⟨⟨fun _ => rfl, fun _ => rfl⟩, rfl, .inl ⟨t, rest, rfl, rfl, rfl⟩⟩
  | nil =>
      cases hrun : (s.core c).runningThread with
      | none => simp [hq, hrun] at h
      | some r =>
          simp only [hq, hrun, bind_eq_ok, thread_eq_ok] at h
          rcases h with ⟨th, hth, h⟩
          split at h
          · cases h
            exact ⟨.setThread hth rfl, rfl, .inr ⟨r, rfl, rfl, .inl rfl, hq⟩⟩
          · cases h
            exact ⟨.setThread hth rfl, rfl, .inr ⟨r, rfl, rfl, .inr rfl, hq⟩⟩

/-- The previous thread goes to the end of the queue, or nowhere. -/
theorem preempt_cases (h : s.preempt c t regs = .ok s') :
    SameObjects s s' ∧ s'.core = s.core ∧
    (s'.waitingQueue = s.waitingQueue ∨
      ∃ r, (s.core c).runningThread = some r ∧ r ≠ t ∧
        s'.waitingQueue = s.waitingQueue ++ [r]) := by
  unfold preempt at h
  cases hrun : (s.core c).runningThread with
  | none =>
      simp only [hrun] at h
      cases h
      exact ⟨.refl s, rfl, .inl rfl⟩
  | some r =>
      simp only [hrun] at h
      split at h
      · cases h
        exact ⟨.refl s, rfl, .inl rfl⟩
      · rename_i hne
        simp only [bind_eq_ok, thread_eq_ok] at h
        rcases h with ⟨th, hth, h⟩
        split at h
        · split at h
          · cases h
          · rename_i q _
            simp only [bind_eq_ok, proc_eq_ok, setThread_procs] at h
            rcases h with ⟨pr, hpr, running, _, h⟩
            cases h
            have hsaved : SameObjects s
                (s.setThread r { th with status := .waiting, regs := regs }) :=
              .setThread hth rfl
            have hpr' : (s.setThread r { th with status := .waiting, regs := regs }).procs
                q = some pr := hpr
            have hstatus := hsaved.trans (SameObjects.setProc hpr'
              (rfl : { pr with status :=
                if running then .running else .waiting }.identity = pr.identity))
            exact ⟨⟨hstatus.threads, hstatus.procs⟩, rfl, .inr ⟨r, rfl, hne, rfl⟩⟩
        · cases h
          exact ⟨.setThread hth rfl, rfl, .inl rfl⟩

variable [DecidableEq κ]

theorem switchTo_cases {out : Option Context} (h : s.switchTo c t = .ok (s', out)) :
    ∃ th, s.threads t = some th ∧ SameObjects s s' ∧
      s'.waitingQueue = s.waitingQueue ∧ (s'.core c).runningThread = some t ∧
      (s'.core c).runningProcess = some th.parentProcess := by
  simp only [switchTo, bind_eq_ok, thread_eq_ok, proc_eq_ok] at h
  rcases h with ⟨th, hth, pr, hpr, h⟩
  cases h
  refine ⟨th, hth, ?_, rfl, ?_, ?_⟩
  · have hproc : SameObjects s
        (s.setProc th.parentProcess { pr with status := .running }) := .setProc hpr rfl
    have hth' : (s.setProc th.parentProcess { pr with status := .running }).threads t =
        some th := hth
    have hboth := hproc.trans (SameObjects.setThread hth'
      (rfl : { th with status := .running }.identity = th.identity))
    exact ⟨hboth.threads, hboth.procs⟩
  · simp
  · simp

/-- What a tick that returns has done: it kept the running thread because
nobody waits, or it gave the core to the head of the queue, behind whose rest
the previous thread may have been put. -/
theorem reschedule_cases {out : Option Context}
    (h : s.reschedule c regs = .ok (s', out)) :
    SameObjects s s' ∧
    ((∃ r, (s.core c).runningThread = some r ∧ s.waitingQueue = [] ∧
        s'.waitingQueue = [] ∧ (s'.core c).runningThread = some r ∧
        ((s'.core c).runningProcess = (s.core c).runningProcess ∨
          ∃ th, s.threads r = some th ∧
            (s'.core c).runningProcess = some th.parentProcess)) ∨
      ∃ t rest th, s.waitingQueue = t :: rest ∧ s.threads t = some th ∧
        (s'.core c).runningThread = some t ∧
        (s'.core c).runningProcess = some th.parentProcess ∧
        (s'.waitingQueue = rest ∨
          ∃ r, (s.core c).runningThread = some r ∧ r ≠ t ∧
            s'.waitingQueue = rest ++ [r])) := by
  simp only [reschedule, bind_eq_ok] at h
  rcases h with ⟨_, _, _, _, ⟨next, s₁⟩, hpick, h⟩
  rcases pickNext_cases hpick with ⟨hsame₁, hcore₁, hnext⟩
  cases next with
  | none =>
      cases h
      rcases hnext with ⟨_, _, _, hcontra, _⟩ | ⟨r, hrun, hq, _, hq₁⟩
      · cases hcontra
      · refine ⟨hsame₁, .inl ⟨r, hrun, hq, hq₁, ?_, .inl ?_⟩⟩
        · rw [hcore₁, hrun]
        · rw [hcore₁]
  | some t =>
      rw [bind_eq_ok] at h
      rcases h with ⟨s₂, hpre, hswitch⟩
      rcases preempt_cases hpre with ⟨hsame₂, hcore₂, hq₂⟩
      rcases switchTo_cases hswitch with ⟨th, hth, hsame₃, hq₃, hrun', hproc'⟩
      have hsame := hsame₁.trans hsame₂
      rcases hsame.symm.thread_some hth with ⟨th₀, hth₀, hparent⟩
      rw [← hparent] at hproc'
      rw [hcore₁] at hq₂
      refine ⟨hsame.trans hsame₃, ?_⟩
      rcases hnext with ⟨u, rest, hq, hu, hq₁⟩ | ⟨r, hrun, hq, hr, hq₁⟩
      · cases hu
        refine .inr ⟨t, rest, th₀, hq, hth₀, hrun', hproc', ?_⟩
        rw [hq₃]
        rcases hq₂ with hq₂ | ⟨r, hr, hne, hq₂⟩
        · exact .inl (by rw [hq₂, hq₁])
        · exact .inr ⟨r, hr, hne, by rw [hq₂, hq₁]⟩
      · have htr : t = r := by simpa using hr
        subst htr
        refine .inl ⟨t, hrun, hq, ?_, hrun', .inr ⟨th₀, hth₀, hproc'⟩⟩
        rw [hq₃]
        rcases hq₂ with hq₂ | ⟨r, hr, hne, _⟩
        · rw [hq₂, hq₁]
        · rw [hrun] at hr
          exact absurd (Option.some.inj hr).symm hne

/-! ## Calls that read a deleted object -/

/-- Everything that a tick on `c` may read is there. -/
structure Readable (s : Sched κ) (c : κ) : Prop where
  thread : ∀ t ∈ (s.core c).runningThread.toList ++ s.waitingQueue,
    ∃ th pr, s.threads t = some th ∧ s.procs th.parentProcess = some pr
  proc : ∀ r, (s.core c).runningThread = some r → ∃ p pr,
    (s.core c).runningProcess = some p ∧ s.procs p = some pr ∧
      ∀ u ∈ pr.threads, ∃ th, s.threads u = some th

omit [DecidableEq κ] in
theorem preempt_ok (hrun : ∀ r, (s.core c).runningThread = some r → ∃ th p pr,
    s.threads r = some th ∧ (s.core c).runningProcess = some p ∧
      s.procs p = some pr ∧ ∀ u ∈ pr.threads, ∃ th, s.threads u = some th) :
    ∃ s', s.preempt c t regs = .ok s' := by
  unfold preempt
  cases hr : (s.core c).runningThread with
  | none => exact ⟨s, rfl⟩
  | some r =>
      rcases hrun r hr with ⟨th, p, pr, hth, hp, hpr, hlive⟩
      by_cases hrt : r = t
      · exact ⟨s, by simp only [if_pos hrt]⟩
      · simp only [if_neg hrt, thread_of_some hth, ok_bind]
        split
        · rename_i hdying
          have hlive' : ∀ u ∈ pr.threads, ∃ th',
              (s.setThread r { th with status := .waiting, regs := regs }).threads u =
                some th' := by
            intro u hu
            rcases hlive u hu with ⟨thu, hthu⟩
            by_cases hur : u = r
            · exact ⟨_, update_eq_some.mpr (.inl ⟨hur, rfl⟩)⟩
            · exact ⟨thu, update_eq_some.mpr (.inr ⟨hur, hthu⟩)⟩
          rcases anyRunning_ok hlive' with ⟨b, hb, _⟩
          have hpr' : (s.setThread r { th with status := .waiting, regs := regs }).proc
              p = .ok pr := proc_of_some hpr
          simp only [setThread_core, hp, hpr', ok_bind, hb]
          exact ⟨_, rfl⟩
        · exact ⟨_, rfl⟩

/-- With everything readable a tick only fails on an idle core that nobody
waits for. -/
theorem reschedule_of_readable (h : s.Readable c) (regs : Context) :
    (∃ s' out, s.reschedule c regs = .ok (s', out)) ∨
      s.reschedule c regs = .error .nullDeref := by
  have hlive : ∀ t ∈ (s.core c).runningThread.toList ++ s.waitingQueue,
      ∃ th, s.threads t = some th := by
    intro t ht
    rcases h.thread t ht with ⟨th, _, hth, _⟩
    exact ⟨th, hth⟩
  have hrunning : s.inspect (s.core c).runningThread.toList = .ok () :=
    inspect_ok fun t ht => hlive t (List.mem_append.mpr (.inl ht))
  have hwaiting : s.inspect s.waitingQueue = .ok () :=
    inspect_ok fun t ht => hlive t (List.mem_append.mpr (.inr ht))
  simp only [reschedule, hrunning, hwaiting, ok_bind]
  cases hpick : s.pickNext c regs with
  | error e =>
      refine .inr ?_
      unfold pickNext at hpick
      split at hpick
      · cases hpick
      · split at hpick
        · cases hpick
          rfl
        · rename_i r hr
          rcases hlive r (by simp [hr]) with ⟨th, hth⟩
          simp only [thread_of_some hth, ok_bind] at hpick
          split at hpick <;> cases hpick
  | ok out =>
      rcases out with ⟨next, s₁⟩
      rw [ok_bind]
      rcases pickNext_cases hpick with ⟨hsame₁, hcore₁, hnext⟩
      cases next with
      | none => exact .inl ⟨_, _, rfl⟩
      | some t =>
          refine .inl ?_
          have htmem : t ∈ (s.core c).runningThread.toList ++ s.waitingQueue := by
            rcases hnext with ⟨u, rest, hq, hu, _⟩ | ⟨r, hrun, _, hr, _⟩
            · cases hu
              simp [hq]
            · have htr : t = r := by simpa using hr
              simp [hrun, htr]
          have hpre : ∃ s₂, s₁.preempt c t regs = .ok s₂ := by
            apply preempt_ok
            intro r hr
            rw [hcore₁] at hr ⊢
            rcases h.proc r hr with ⟨p, pr, hp, hpr, hall⟩
            rcases hlive r (by simp [hr]) with ⟨th, hth⟩
            rcases hsame₁.thread_some hth with ⟨th', hth', _⟩
            rcases hsame₁.proc_some hpr with ⟨pr', hpr', hthreads⟩
            refine ⟨th', p, pr', hth', hp, hpr', ?_⟩
            intro u hu
            rw [hthreads] at hu
            rcases hall u hu with ⟨thu, hthu⟩
            rcases hsame₁.thread_some hthu with ⟨thu', hthu', _⟩
            exact ⟨thu', hthu'⟩
          rcases hpre with ⟨s₂, hpre⟩
          rcases preempt_cases hpre with ⟨hsame₂, _, _⟩
          rcases h.thread t htmem with ⟨th, pr, hth, hpr⟩
          rcases (hsame₁.trans hsame₂).thread_some hth with ⟨th', hth', hparent⟩
          rw [← hparent] at hpr
          rcases (hsame₁.trans hsame₂).proc_some hpr with ⟨pr', hpr', _⟩
          simp only [hpre, ok_bind, switchTo, thread_of_some hth', proc_of_some hpr']
          exact ⟨_, _, rfl⟩

/-- A tick whose running thread is deleted reads it. -/
theorem reschedule_of_deleted {r : Nat} (hrun : (s.core c).runningThread = some r)
    (hdel : s.threads r = none) : s.reschedule c regs = .error .useAfterFree := by
  simp [reschedule, hrun, inspect, thread, hdel]

end Sched

end Toystar.Scheduler

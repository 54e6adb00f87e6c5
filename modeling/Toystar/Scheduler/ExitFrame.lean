import Toystar.Scheduler.Pids

/-!
# What an exit removes

The loops of `exit_process` erase from a list while they walk it and look for ids, not for
pointers.  With distinct ids each loop erases one entry, so the exit removes its process and
the threads of it and nothing else (`exit_exact_iff`), with one exception: the thread that
exits is deleted when its turn comes, and every turn behind it reads its tid.
-/

namespace Toystar.Scheduler

open Toystar.Kernel
open Toystar.Klibc

variable {κ : Type}

namespace ProcessState

/-- Core `c` runs thread `r` of a process, and every thread is in one place: the others of
the process are in the queue.  Threads have tids of their own. -/
structure ThreadsPlaced (s : Sched κ) (c : κ) (r : Nat) (pr : Process) : Prop where
  thread : (s.core c).runningThread = some r
  caller : r ∈ pr.threads
  threads_once : pr.threads.Nodup
  others : ∀ t ∈ pr.threads, t ≠ r → t ∈ s.waitingQueue
  live : ∀ t ∈ r :: s.waitingQueue, ∃ th, s.threads t = some th
  placed_once : (r :: s.waitingQueue).Nodup
  tids : ∀ {t u th thu}, s.threads t = some th → s.threads u = some thu →
    th.tid = thu.tid → t = u

/-- Core `c` is about to exit process `p` with thread `r`.  Processes have pids of their
own. -/
structure Exiting (s : ProcessState κ) (c : κ) (r p : Nat) (pr : Process) : Prop where
  process : (s.sched.core c).runningProcess = some p
  proc : s.sched.procs p = some pr
  member : p ∈ s.processList
  listed : ∀ q ∈ s.processList, ∃ qr, s.sched.procs q = some qr
  listed_once : s.processList.Nodup
  pids : ∀ {q q' qr qr'}, q ∈ s.processList → q' ∈ s.processList →
    s.sched.procs q = some qr → s.sched.procs q' = some qr' → qr.pid = qr'.pid → q = q'
  threads : ThreadsPlaced s.sched c r pr

/-- Process `p` is gone with its threads and its ids, and nothing else changed. -/
structure ExitedExactly (s s' : ProcessState κ) (c : κ) (p : Nat) (pr : Process) : Prop where
  list : s'.processList = s.processList.filter (· ≠ p)
  queue : s'.sched.waitingQueue = s.sched.waitingQueue.filter (· ∉ pr.threads)
  pid : ∀ i, s'.pidBitmap.isBitSet i = (!decide (i = pr.pid) && s.pidBitmap.isBitSet i)
  tid : ∀ i, s'.tidBitmap.isBitSet i = true ↔ s.tidBitmap.isBitSet i = true ∧
    ∀ t ∈ pr.threads, ∀ th, s.sched.threads t = some th → th.tid ≠ i
  core : (s'.sched.core c).runningThread = none ∧ (s'.sched.core c).runningProcess = none
  cores : ∀ d, d ≠ c → s'.sched.core d = s.sched.core d
  threads : ∀ t, t ∉ pr.threads → s'.sched.threads t = s.sched.threads t
  procs : ∀ q, q ≠ p → s'.sched.procs q = s.sched.procs q

/-- The thread is marked as running. -/
def MarkedRunning (s : ProcessState κ) (t : Nat) : Prop :=
  ∃ th, s.sched.threads t = some th ∧ th.status = .running

/-! ## The loop over the threads -/

/-- The bits of the threads of a list cleared. -/
def clearTids (s : Sched κ) : List Nat → Bitmap → Bitmap
  | [], bitmap => bitmap
  | t :: ts, bitmap =>
      clearTids s ts (match s.threads t with
        | some th => bitmap.clearBit th.tid
        | none => bitmap)

/-- The threads of a list freed and off the queue. -/
def freed (s : ProcessState κ) (ts : List Nat) : ProcessState κ :=
  { s with
    tidBitmap := clearTids s.sched ts s.tidBitmap
    sched := { s.sched with
      threads := fun t => if t ∈ ts then none else s.sched.threads t
      waitingQueue := s.sched.waitingQueue.filter (· ∉ ts) } }

variable {s s' : ProcessState κ} {c : κ} {r p t : Nat} {pr : Process} {pre ts : List Nat}
  {th : Thread}

theorem freed_nil (s : ProcessState κ) : s.freed [] = s := by
  simp [freed, clearTids]

theorem clearTids_append (bitmap : Bitmap) (ts : List Nat) (ht : s.sched.threads t = some th) :
    clearTids s.sched (ts ++ [t]) bitmap = (clearTids s.sched ts bitmap).clearBit th.tid := by
  induction ts generalizing bitmap with
  | nil => simp [clearTids, ht]
  | cons u ts ih => rw [List.cons_append, clearTids, ih, clearTids]

/-- Exactly the bits of the threads are cleared. -/
theorem isBitSet_clearTids (ts : List Nat) (bitmap : Bitmap) (i : Nat) :
    (clearTids s.sched ts bitmap).isBitSet i = true ↔ bitmap.isBitSet i = true ∧
      ∀ t ∈ ts, ∀ th, s.sched.threads t = some th → th.tid ≠ i := by
  induction ts generalizing bitmap with
  | nil => simp [clearTids]
  | cons t ts ih =>
      rw [clearTids, ih, List.forall_mem_cons, ← and_assoc]
      apply and_congr_left
      intro _
      cases ht : s.sched.threads t with
      | none => simp
      | some th =>
          simp only [Bitmap.isBitSet_clearBit, Option.some.injEq, forall_eq', Bool.and_eq_true,
            Bool.not_eq_true', decide_eq_false_iff_not]
          rw [and_comm, ne_comm]

/-- A thread deleted from a state in which it is not queued any more. -/
theorem freed_append (s : ProcessState κ) (ts : List Nat) (ht : s.sched.threads t = some th) :
    deleteThread { s.freed ts with sched := { (s.freed ts).sched with
      waitingQueue := (s.freed ts).sched.waitingQueue.filter (· ≠ t) } } t th =
      s.freed (ts ++ [t]) := by
  have hthreads : Function.update (fun u => if u ∈ ts then none else s.sched.threads u) t none =
      fun u => if u ∈ ts ++ [t] then none else s.sched.threads u := by
    funext u
    by_cases hu : u = t
    · simp [hu]
    · simp [hu]
  have hqueue : (s.sched.waitingQueue.filter (· ∉ ts)).filter (· ≠ t) =
      s.sched.waitingQueue.filter (· ∉ ts ++ [t]) := by
    rw [List.filter_filter]
    apply List.filter_congr
    intro u _
    simp only [List.mem_append, List.mem_singleton, not_or, Bool.decide_and, Bool.and_comm, ne_eq]
  simp only [deleteThread, freed, hthreads, hqueue, clearTids_append _ _ ht]

/-! ### One turn -/

namespace ThreadsPlaced

theorem thread_live (h : ThreadsPlaced s.sched c r pr) (ht : t ∈ pr.threads) :
    ∃ th, s.sched.threads t = some th := by
  by_cases htr : t = r
  · exact h.live t (by simp [htr])
  · exact h.live t (List.mem_cons_of_mem r (h.others t ht htr))

theorem caller_not_waiting (h : ThreadsPlaced s.sched c r pr) : r ∉ s.sched.waitingQueue :=
  (List.nodup_cons.mp h.placed_once).1

/-- The turn of the caller. -/
theorem freeThread_self (h : ThreadsPlaced s.sched c r pr) (hr : r ∉ pre) :
    (s.freed pre).freeThread c r = .ok (s.freed (pre ++ [r])) := by
  obtain ⟨th, hth⟩ := h.thread_live h.caller
  have hthread : (s.freed pre).sched.thread r = .ok th := by
    apply Sched.thread_of_some
    show (if r ∈ pre then none else s.sched.threads r) = some th
    rw [if_neg hr, hth]
  have hrun : ((s.freed pre).sched.core c).runningThread = some r := h.thread
  have hqueue : (s.freed pre).sched.waitingQueue.filter (· ≠ r) =
      (s.freed pre).sched.waitingQueue := by
    rw [List.filter_eq_self]
    intro u hu
    have hne : u ≠ r := by
      rintro rfl
      exact h.caller_not_waiting (List.mem_of_mem_filter hu)
    simpa using hne
  have hfreed := s.freed_append pre hth
  rw [hqueue] at hfreed
  unfold freeThread
  rw [hthread, ok_bind]
  simp only [hrun, hthread, ok_bind, if_true]
  rw [← hfreed]
  rfl

/-- The turn of another thread, before that of the caller: a running one is waited for, and
any other is taken from the queue. -/
theorem freeThread_other (h : ThreadsPlaced s.sched c r pr) (hr : r ∉ pre) (ht : t ∈ pr.threads)
    (htpre : t ∉ pre) (hne : t ≠ r) :
    (s.MarkedRunning t → (s.freed pre).freeThread c t = .error .spin) ∧
    (¬s.MarkedRunning t → (s.freed pre).freeThread c t = .ok (s.freed (pre ++ [t]))) := by
  obtain ⟨thr, hthr⟩ := h.thread_live h.caller
  obtain ⟨th, hth⟩ := h.thread_live ht
  have hfree : ∀ {u thu}, u ∉ pre → s.sched.threads u = some thu →
      (s.freed pre).sched.thread u = .ok thu := by
    intro u thu hu hthu
    apply Sched.thread_of_some
    show (if u ∈ pre then none else s.sched.threads u) = some thu
    rw [if_neg hu, hthu]
  have hrun : ((s.freed pre).sched.core c).runningThread = some r := h.thread
  have htid : th.tid ≠ thr.tid := fun heq => hne (h.tids hth hthr heq)
  have hstep : (s.freed pre).freeThread c t =
      if th.status = .running then .error .spin
      else do
        let waiting ← eraseLoop
          (fun u => do return decide ((← (s.freed pre).sched.thread u).tid = th.tid))
          (s.freed pre).sched.waitingQueue
        return { s.freed pre with
          sched := { (s.freed pre).sched with waitingQueue := waiting } }.deleteThread t th := by
    unfold freeThread
    rw [hfree htpre hth, ok_bind]
    simp only [hrun, hfree hr hthr, ok_bind, if_neg htid]
  rw [hstep]
  constructor
  · rintro ⟨th', hth', hst⟩
    rw [hth] at hth'
    cases hth'
    rw [if_pos hst]
  · intro hnot
    have hst : th.status ≠ .running := fun hst => hnot ⟨th, hth, hst⟩
    -- the queue holds live threads, and one of them has this tid
    have htest : ∀ u ∈ (s.freed pre).sched.waitingQueue,
        (do return decide ((← (s.freed pre).sched.thread u).tid = th.tid) :
          Except Fault Bool) = .ok (decide (u = t)) := by
      intro u hu
      obtain ⟨hmem, hupre⟩ := List.mem_filter.mp hu
      obtain ⟨thu, hthu⟩ := h.live u (List.mem_cons_of_mem r hmem)
      rw [hfree (by simpa using hupre) hthu, ok_bind]
      have hiff : thu.tid = th.tid ↔ u = t := by
        constructor
        · exact h.tids hthu hth
        · rintro rfl
          rw [hth] at hthu
          cases hthu
          rfl
      simp only [hiff]
      rfl
    have honce : AtMostOne (fun u => decide (u = t)) (s.freed pre).sched.waitingQueue := by
      have hnodup := (List.nodup_cons.mp h.placed_once).2.filter (· ∉ pre)
      refine List.Pairwise.imp ?_ hnodup
      intro x y hxy hx
      simp only [decide_eq_true_eq, decide_eq_false_iff_not] at hx ⊢
      rintro rfl
      exact hxy hx
    have hfreed := s.freed_append pre hth
    rw [if_neg hst, eraseLoop_ok htest, ok_bind, eraseSkip_of_one honce, ← hfreed]
    simp only [ne_eq, decide_not]
    rfl

/-- A turn behind that of the caller reads the tid of a deleted thread. -/
theorem freeThread_behind (h : ThreadsPlaced s.sched c r pr) (hr : r ∈ pre) (t : Nat) :
    (s.freed pre).freeThread c t = .error .useAfterFree := by
  have hrun : ((s.freed pre).sched.core c).runningThread = some r := h.thread
  have hdeleted : (s.freed pre).sched.thread r = .error .useAfterFree := by
    unfold Sched.thread
    show (match (if r ∈ pre then none else s.sched.threads r) with
      | some th => .ok th
      | none => .error .useAfterFree : Except Fault Thread) = _
    rw [if_pos hr]
  unfold freeThread
  cases hthread : (s.freed pre).sched.thread t with
  | error e =>
      unfold Sched.thread at hthread
      split at hthread
      · cases hthread
      · cases hthread
        rfl
  | ok th =>
      rw [ok_bind]
      simp only [hrun, hdeleted, error_bind]

/-! ### All turns -/

/-- The loop returns exactly when the caller comes last and no other thread is running. -/
theorem freeThreads_iff (h : ThreadsPlaced s.sched c r pr) (hsplit : pr.threads = pre ++ ts)
    (hr : r ∉ pre) : freeThreads c ts (s.freed pre) = .ok s' ↔
      s' = s.freed pr.threads ∧ ts.getLast? = some r ∧
        ∀ t ∈ ts, t ≠ r → ¬s.MarkedRunning t := by
  induction ts generalizing pre with
  | nil =>
      rw [List.append_nil] at hsplit
      exact absurd (hsplit ▸ h.caller) hr
  | cons t ts ih =>
      have hnext : pr.threads = (pre ++ [t]) ++ ts := by rw [hsplit, List.append_assoc]; rfl
      rw [freeThreads]
      by_cases htr : t = r
      · subst htr
        rw [h.freeThread_self hr, ok_bind]
        cases ts with
        | nil =>
            rw [freeThreads, hnext, List.append_nil]
            constructor
            · intro hret
              refine ⟨(Except.ok.inj hret).symm, rfl, ?_⟩
              intro u hu hne
              exact absurd (List.mem_singleton.mp hu) hne
            · rintro ⟨rfl, _⟩
              rfl
        | cons u ts =>
            rw [freeThreads, h.freeThread_behind (by simp) u, error_bind]
            constructor
            · intro hret
              cases hret
            · -- the caller is in the list once
              rintro ⟨_, hlast, _⟩
              rw [List.getLast?_cons_cons] at hlast
              have hmem := List.mem_of_getLast? hlast
              have honce := h.threads_once
              rw [hsplit, List.nodup_append] at honce
              exact absurd hmem (List.nodup_cons.mp honce.2.1).1
      · have hmem : t ∈ pr.threads := by
          rw [hsplit]
          simp
        have hpre : t ∉ pre := by
          have honce := h.threads_once
          rw [hsplit, List.nodup_append] at honce
          intro hin
          exact honce.2.2 t hin t List.mem_cons_self rfl
        have hturn := h.freeThread_other hr hmem hpre htr
        have hrest := ih hnext (by
          rw [List.mem_append, List.mem_singleton, not_or]
          exact ⟨hr, Ne.symm htr⟩)
        -- the caller is behind
        have hts : ts ≠ [] := by
          rintro rfl
          have hcaller := h.caller
          rw [hsplit, List.mem_append, List.mem_singleton] at hcaller
          exact hcaller.elim hr (fun heq => htr heq.symm)
        by_cases hst : s.MarkedRunning t
        · rw [hturn.1 hst, error_bind]
          constructor
          · intro hret
            cases hret
          · rintro ⟨_, _, hall⟩
            exact absurd hst (hall t List.mem_cons_self htr)
        · rw [hturn.2 hst, ok_bind, hrest, List.forall_mem_cons, List.getLast?_cons]
          obtain ⟨u, hu⟩ : ∃ u, ts.getLast? = some u :=
            ⟨_, List.getLast?_eq_some_getLast hts⟩
          rw [hu, Option.getD_some]
          simp only [htr, hst, not_false_eq_true, forall_const, true_and, ne_eq]

end ThreadsPlaced

/-! ## The exit -/

namespace Exiting

/-- The list without the process. -/
theorem eraseLoop_list (h : s.Exiting c r p pr) :
    eraseLoop (fun q => do return decide ((← s.sched.proc q).pid = pr.pid)) s.processList =
      .ok (s.processList.filter (· ≠ p)) := by
  have htest : ∀ q ∈ s.processList,
      (do return decide ((← s.sched.proc q).pid = pr.pid) : Except Fault Bool) =
        .ok (decide (q = p)) := by
    intro q hq
    obtain ⟨qr, hqr⟩ := h.listed q hq
    rw [Sched.proc_of_some hqr, ok_bind]
    have hiff : qr.pid = pr.pid ↔ q = p := by
      constructor
      · exact h.pids hq h.member hqr h.proc
      · rintro rfl
        rw [h.proc] at hqr
        cases hqr
        rfl
    simp only [hiff]
    rfl
  have honce : AtMostOne (fun q => decide (q = p)) s.processList := by
    refine List.Pairwise.imp ?_ h.listed_once
    intro x y hxy hx
    simp only [decide_eq_true_eq, decide_eq_false_iff_not] at hx ⊢
    rintro rfl
    exact hxy hx
  rw [eraseLoop_ok htest, eraseSkip_of_one honce]
  simp only [ne_eq, decide_not]

variable [DecidableEq κ]

/-- What the exit leaves, once the loops are through. -/
theorem exitProcess_iff (h : s.Exiting c r p pr) : s.exitProcess c = .ok s' ↔
    (s' = { s.freed pr.threads with
      processList := s.processList.filter (· ≠ p)
      pidBitmap := s.pidBitmap.clearBit pr.pid
      sched := { (s.freed pr.threads).sched with
        procs := Function.update s.sched.procs p none
        core := Function.update s.sched.core c
          { s.sched.core c with runningThread := none, runningProcess := none } } }) ∧
    pr.threads.getLast? = some r ∧ ∀ t ∈ pr.threads, t ≠ r → ¬s.MarkedRunning t := by
  obtain ⟨listed, hlisted⟩ : ∃ x : ProcessState κ, x =
    { s with processList := s.processList.filter (· ≠ p) } := ⟨_, rfl⟩
  have hthreads : ThreadsPlaced listed.sched c r pr := by
    rw [hlisted]
    exact h.threads
  have hloop : ∀ s₁, freeThreads c pr.threads listed = .ok s₁ ↔
      s₁ = listed.freed pr.threads ∧ pr.threads.getLast? = some r ∧
        ∀ t ∈ pr.threads, t ≠ r → ¬listed.MarkedRunning t := by
    intro s₁
    have hall : freeThreads c pr.threads (listed.freed []) = .ok s₁ ↔
        s₁ = listed.freed pr.threads ∧ pr.threads.getLast? = some r ∧
          ∀ t ∈ pr.threads, t ≠ r → ¬listed.MarkedRunning t :=
      hthreads.freeThreads_iff (List.nil_append _).symm List.not_mem_nil
    rw [freed_nil] at hall
    exact hall
  have hmarked : ∀ t, listed.MarkedRunning t ↔ s.MarkedRunning t := by
    intro t
    rw [hlisted]
    rfl
  unfold exitProcess
  rw [h.process]
  dsimp only
  rw [Sched.proc_of_some h.proc, ok_bind, h.eraseLoop_list, ok_bind, ← hlisted, bind_eq_ok]
  simp only [hloop, hmarked]
  constructor
  · rintro ⟨s₁, ⟨rfl, hlast, hall⟩, hret⟩
    cases hret
    rw [hlisted]
    exact ⟨rfl, hlast, hall⟩
  · rintro ⟨rfl, hlast, hall⟩
    refine ⟨_, ⟨rfl, hlast, hall⟩, ?_⟩
    rw [hlisted]
    rfl

/-- Which is what the exit is to leave. -/
theorem exitedExactly (h : s.Exiting c r p pr) (hret : s.exitProcess c = .ok s') :
    s.ExitedExactly s' c p pr := by
  obtain ⟨rfl, _⟩ := h.exitProcess_iff.mp hret
  refine
    { list := rfl
      queue := rfl
      pid := fun i => Bitmap.isBitSet_clearBit
      tid := fun i => isBitSet_clearTids _ _ i
      core := ?_
      cores := ?_
      threads := ?_
      procs := ?_ }
  · simp
  · intro d hd
    exact Function.update_of_ne hd _ _
  · intro t ht
    exact if_neg ht
  · intro q hq
    exact Function.update_of_ne hq _ _

end Exiting

end ProcessState

variable [DecidableEq κ] {s : ProcessState κ} {c : κ} {r p : Nat} {pr : Process}

/-- The exit returns and removes exactly its process when the thread that exits is the last
in the process, and no other thread of it is running; otherwise it does not return. -/
theorem exit_exact_iff (h : s.Exiting c r p pr) :
    (∃ s', s.exitProcess c = .ok s' ∧ s.ExitedExactly s' c p pr) ↔
      pr.threads.getLast? = some r ∧ ∀ t ∈ pr.threads, t ≠ r → ¬s.MarkedRunning t := by
  constructor
  · rintro ⟨s', hret, _⟩
    exact (h.exitProcess_iff.mp hret).2
  · intro hcond
    have hret := h.exitProcess_iff.mpr ⟨rfl, hcond⟩
    exact ⟨_, hret, h.exitedExactly hret⟩

/-- Process 1 has the threads of a list, of which thread 0 runs; process 2 has thread 3. -/
def exitingWith (threads : List Nat) : ProcessState Unit :=
  { sched :=
      { threads := fun t =>
          if t < 4 then some ⟨t, if t = 0 then .running else .waiting, if t = 3 then 2 else 1,
            default⟩ else none
        procs := fun p =>
          if p = 1 then some ⟨1, .running, 0, threads, [], 0⟩
          else if p = 2 then some ⟨2, .waiting, 0, [3], [], 0⟩ else none
        waitingQueue := [1, 3, 2]
        core := fun _ => ⟨some 1, some 0, 0, 0⟩ }
    processList := [1, 2]
    pidBitmap := fun _ => 255
    tidBitmap := fun _ => 255 }

theorem exiting_exitingWith {threads : List Nat} (h : threads.Perm [0, 1, 2]) :
    ∃ pr, (exitingWith threads).Exiting () 0 1 pr ∧ pr.threads = threads := by
  have hmem : ∀ t, t ∈ threads ↔ t = 0 ∨ t = 1 ∨ t = 2 := by
    intro t
    rw [h.mem_iff]
    simp
  refine ⟨⟨1, .running, 0, threads, [], 0⟩, ⟨rfl, rfl, (by decide : 1 ∈ [1, 2]), ?_,
    (by decide : [1, 2].Nodup), ?_, ?_⟩, rfl⟩
  · intro q hq
    simp only [exitingWith, List.mem_cons, List.not_mem_nil, or_false] at hq
    rcases hq with rfl | rfl <;> exact ⟨_, rfl⟩
  · intro q q' qr qr' hq hq' hqr hqr' hpid
    simp only [exitingWith, List.mem_cons, List.not_mem_nil, or_false] at hq hq'
    rcases hq with rfl | rfl <;> rcases hq' with rfl | rfl <;> cases hqr <;> cases hqr' <;>
      first | rfl | cases hpid
  · refine ⟨rfl, (hmem 0).mpr (.inl rfl), h.nodup_iff.mpr (by decide), ?_, ?_,
      (by decide : [0, 1, 3, 2].Nodup), ?_⟩
    · intro t ht hne
      have hcases := (hmem t).mp ht
      simp only [exitingWith, List.mem_cons, List.not_mem_nil, or_false]
      omega
    · intro t ht
      simp only [exitingWith, List.mem_cons, List.not_mem_nil, or_false] at ht
      exact ⟨_, if_pos (by omega)⟩
    · intro t u th thu hth hthu htid
      simp only [exitingWith, Option.ite_none_right_eq_some] at hth hthu
      obtain ⟨_, hth⟩ := hth
      obtain ⟨_, hthu⟩ := hthu
      cases hth
      cases hthu
      exact htid

/-- The thread that exits is the last: threads 1 and 2 leave the queue, and thread 3 stays. -/
theorem exit_exact_iff_last : ∃ s', (exitingWith [1, 2, 0]).exitProcess () = .ok s' ∧
    s'.processList = [2] ∧ s'.sched.waitingQueue = [3] := by
  obtain ⟨pr, h, hthreads⟩ := exiting_exitingWith (by decide : [1, 2, 0].Perm [0, 1, 2])
  have hcond : pr.threads.getLast? = some 0 ∧
      ∀ t ∈ pr.threads, t ≠ 0 → ¬(exitingWith [1, 2, 0]).MarkedRunning t := by
    rw [hthreads]
    refine ⟨rfl, ?_⟩
    rintro t _ hne ⟨th, hth, hst⟩
    simp only [exitingWith, Option.ite_none_right_eq_some] at hth
    obtain ⟨_, hth⟩ := hth
    cases hth
    rw [if_neg hne] at hst
    cases hst
  obtain ⟨s', hret, hexact⟩ := (exit_exact_iff h).mpr hcond
  refine ⟨s', hret, hexact.list, ?_⟩
  rw [hexact.queue, hthreads]
  rfl

/-- The thread that exits is the first: the turn of thread 1 reads it after it was deleted. -/
theorem exit_reads_caller : ∃ pr, (exitingWith [0, 1, 2]).Exiting () 0 1 pr ∧
    (exitingWith [0, 1, 2]).exitProcess () = .error .useAfterFree ∧
    ¬∃ s', (exitingWith [0, 1, 2]).exitProcess () = .ok s' := by
  obtain ⟨pr, h, _⟩ := exiting_exitingWith (List.Perm.refl [0, 1, 2])
  exact ⟨pr, h, rfl, fun hex => by
    obtain ⟨s', hret⟩ := hex
    cases hret⟩

end Toystar.Scheduler

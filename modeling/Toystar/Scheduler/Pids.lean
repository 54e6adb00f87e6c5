import Toystar.Scheduler.Lifecycle

/-!
# Pids

`exit_process` removes processes by pid, so the entries of `process_list` must
have distinct pids whose bits are set.  Two operations can break that.  `fork`
stores the pid without looking at it, so with all 64 pids taken the child gets
`-1`.  `execve` gives the new process the caller's pid and then exits, which
removes every process with that pid from the list and clears its bit; the loop
skips the entry after a removed one, so the new process stays on the list,
without its bit, when it stands right behind the caller.

`pids_distinct`: the pids stay distinct and marked as long as neither happens,
and each of the two breaks them at once.
-/

namespace Toystar.Scheduler

open Toystar.Kernel
open Toystar.Klibc
open Toystar.Verified

/-! ## The erasing loop -/

/-- What `eraseLoop` leaves when every test returns. -/
def eraseSkip (hit : Nat → Bool) : List Nat → List Nat
  | [] => []
  | [x] => if hit x then [] else [x]
  | x :: y :: rest =>
      if hit x then y :: eraseSkip hit rest else x :: eraseSkip hit (y :: rest)

section EraseSkip

variable {hit : Nat → Bool}

theorem eraseLoop_ok {test : Nat → Except Fault Bool} {l : List Nat}
    (h : ∀ x ∈ l, test x = .ok (hit x)) : eraseLoop test l = .ok (eraseSkip hit l) := by
  fun_induction eraseSkip hit l with
  | case1 => rfl
  | case2 x hx => simp [eraseLoop, h x (by simp), hx, pure, Except.pure]
  | case3 x hx => simp [eraseLoop, h x (by simp), hx, pure, Except.pure]
  | case4 x y rest hx ih =>
      have hrest := ih fun z hz => h z (by simp [hz])
      simp [eraseLoop, h x (by simp), hx, hrest, pure, Except.pure]
  | case5 x y rest hx ih =>
      have hrest := ih fun z hz => h z (List.mem_cons_of_mem x hz)
      simp [eraseLoop, h x (by simp), hx, hrest, pure, Except.pure]

theorem eraseSkip_of_none {l : List Nat} (h : ∀ x ∈ l, hit x = false) :
    eraseSkip hit l = l := by
  fun_induction eraseSkip hit l with
  | case1 => rfl
  | case2 x hx => simp [h x (by simp)] at hx
  | case3 x hx => rfl
  | case4 x y rest hx ih => simp [h x (by simp)] at hx
  | case5 x y rest hx ih => rw [ih fun z hz => h z (List.mem_cons_of_mem x hz)]

/-- At most one entry passes the test. -/
def AtMostOne (hit : Nat → Bool) (l : List Nat) : Prop :=
  l.Pairwise fun x y => hit x = true → hit y = false

theorem filter_of_none {l : List Nat} (h : ∀ x ∈ l, hit x = false) :
    l.filter (fun x => !hit x) = l := by
  rw [List.filter_eq_self]
  intro x hx
  rw [h x hx]
  rfl

/-- With at most one hit the loop removes exactly that entry. -/
theorem eraseSkip_of_one {l : List Nat} (h : AtMostOne hit l) :
    eraseSkip hit l = l.filter fun x => !hit x := by
  fun_induction eraseSkip hit l with
  | case1 => rfl
  | case2 x hx => simp [hx]
  | case3 x hx => simp [hx]
  | case4 x y rest hx ih =>
      have hnone : ∀ z ∈ y :: rest, hit z = false := fun z hz =>
        (List.pairwise_cons.mp h).1 z hz hx
      rw [eraseSkip_of_none fun z hz => hnone z (by simp [hz]),
        List.filter_cons_of_neg (by simp [hx]), filter_of_none hnone]
  | case5 x y rest hx ih =>
      rw [ih (List.pairwise_cons.mp h).2]
      simp [hx]

theorem eraseSkip_concat_of_none {l : List Nat} {q : Nat}
    (h : ∀ x ∈ l, hit x = false) (hq : hit q = true) :
    eraseSkip hit (l ++ [q]) = l := by
  induction l with
  | nil => simp [eraseSkip, hq]
  | cons x l ih =>
      have hx := h x (by simp)
      have hrest := ih fun z hz => h z (by simp [hz])
      cases l with
      | nil => simp [eraseSkip, hx, hq]
      | cons y rest =>
          simp only [List.cons_append] at hrest ⊢
          simp [eraseSkip, hx, hrest]

/-- A further hit at the end survives exactly when the entry before it is the other
one. -/
theorem eraseSkip_concat {l : List Nat} {q : Nat} (h : AtMostOne hit l)
    (hq : hit q = true) :
    eraseSkip hit (l ++ [q]) = (l.filter fun x => !hit x) ++
      (if l.getLast?.any hit then [q] else []) := by
  induction l with
  | nil => simp [eraseSkip, hq]
  | cons x l ih =>
      have hrest := ih (List.pairwise_cons.mp h).2
      cases l with
      | nil =>
          by_cases hx : hit x = true
          · simp [eraseSkip, hx]
          · simp [eraseSkip, hx, hq]
      | cons y rest =>
          rw [List.getLast?_cons_cons]
          by_cases hx : hit x = true
          · have hnone : ∀ z ∈ y :: rest, hit z = false := fun z hz =>
              (List.pairwise_cons.mp h).1 z hz hx
            -- the entry behind `x` is skipped, the rest has no hit but `q`
            have hlast : (y :: rest).getLast?.any hit = false := by
              rw [List.getLast?_eq_some_getLast (by simp), Option.any_some]
              exact hnone _ (List.getLast_mem _)
            have hskip : eraseSkip hit (rest ++ [q]) = rest :=
              eraseSkip_concat_of_none (fun z hz => hnone z (by simp [hz])) hq
            rw [hlast, List.filter_cons_of_neg (by simp [hx]), filter_of_none hnone]
            simp [eraseSkip, hx, hskip]
          · simp only [List.cons_append] at hrest ⊢
            rw [List.filter_cons_of_pos (by simp [hx]), List.cons_append, ← hrest]
            simp [eraseSkip, hx]

end EraseSkip

namespace ProcessState

variable {κ : Type} {s s' : ProcessState κ} {new : NewObjects}

/-- The pid an entry of `process_list` is found by. -/
def pidOf (s : ProcessState κ) (q : Nat) : Option Nat :=
  (s.sched.procs q).map (·.pid)

/-- The entries of `process_list` have pids below the capacity of the bitmap, with
their bits set, and no two have the same. -/
structure DistinctPids (s : ProcessState κ) : Prop where
  marked : ∀ q ∈ s.processList, ∃ pid, s.pidOf q = some pid ∧
    pid < Bitmap.capacity ∧ s.pidBitmap.isBitSet pid = true
  distinct : (s.processList.map s.pidOf).Nodup

namespace DistinctPids

/-- Entries may go and bits may be set; what stays keeps its pid and its bit. -/
theorem of_sublist (h : DistinctPids s) (hsub : s'.processList.Sublist s.processList)
    (hpid : ∀ q ∈ s'.processList, s'.pidOf q = s.pidOf q)
    (hbit : ∀ q ∈ s'.processList, ∀ pid, s.pidOf q = some pid →
      s.pidBitmap.isBitSet pid = true → s'.pidBitmap.isBitSet pid = true) :
    DistinctPids s' := by
  refine ⟨?_, ?_⟩
  · intro q hq
    rcases h.marked q (hsub.subset hq) with ⟨pid, hpid', hlt, hset⟩
    exact ⟨pid, (hpid q hq).trans hpid', hlt, hbit q hq pid hpid' hset⟩
  · rw [List.map_congr_left hpid]
    exact h.distinct.sublist (hsub.map _)

/-- A new entry takes a pid whose bit was clear. -/
theorem push {q pid : Nat} (h : DistinctPids s)
    (hlist : s'.processList = s.processList ++ [q])
    (hpids : s'.pidOf = Function.update s.pidOf q (some pid))
    (hbits : s'.pidBitmap = s.pidBitmap.setBit pid) (hnew : s.pidOf q = none)
    (hlt : pid < Bitmap.capacity) (hclear : s.pidBitmap.isBitSet pid = false) :
    DistinctPids s' := by
  have hold : ∀ x ∈ s.processList, s'.pidOf x = s.pidOf x := by
    intro x hx
    have hne : x ≠ q := by
      rintro rfl
      rcases h.marked x hx with ⟨_, hpid, _⟩
      rw [hnew] at hpid
      cases hpid
    rw [hpids, Function.update_of_ne hne]
  have hself : s'.pidOf q = some pid := by rw [hpids, Function.update_self]
  refine ⟨?_, ?_⟩
  · intro x hx
    rw [hlist, List.mem_append, List.mem_singleton] at hx
    rcases hx with hx | rfl
    · rcases h.marked x hx with ⟨old, hpid, hold', hset⟩
      refine ⟨old, (hold x hx).trans hpid, hold', ?_⟩
      rw [hbits, Bitmap.isBitSet_setBit, hset, Bool.or_true]
    · refine ⟨pid, hself, hlt, ?_⟩
      simp [hbits]
  · rw [hlist, List.map_append, List.map_congr_left hold, List.nodup_append]
    refine ⟨h.distinct, by simp, ?_⟩
    intro a ha b hb
    rcases List.mem_map.mp ha with ⟨x, hx, rfl⟩
    have hbq : b = some pid := by simpa [hself] using hb
    rcases h.marked x hx with ⟨old, hpid, _, hset⟩
    rw [hbq, hpid]
    intro heq
    rw [Option.some.inj heq, hclear] at hset
    cases hset

/-- At most one entry has a given pid. -/
theorem atMostOne (h : DistinctPids s) (pid : Nat) :
    AtMostOne (fun q => decide (s.pidOf q = some pid)) s.processList := by
  have hpair : s.processList.Pairwise fun a b => s.pidOf a ≠ s.pidOf b :=
    List.pairwise_map.mp h.distinct
  refine hpair.imp ?_
  intro a b hne ha
  simp only [decide_eq_true_eq, decide_eq_false_iff_not] at ha ⊢
  intro hb
  exact hne (ha.trans hb.symm)

end DistinctPids

/-! ## What the operations do to the pids -/

/-- `get_new_pid` takes a clear bit, or all are taken. -/
theorem getNewPid_cases (s : ProcessState κ) :
    (∃ pid < Bitmap.capacity, s.pidBitmap.isBitSet pid = false ∧
      s.getNewPid = (some pid, { s with pidBitmap := s.pidBitmap.setBit pid })) ∨
    ((∀ pid < Bitmap.capacity, s.pidBitmap.isBitSet pid = true) ∧
      s.getNewPid = (none, s)) := by
  unfold getNewPid
  rcases s.pidBitmap.allocate_cases with ⟨pid, hlt, hclear, _, hret⟩ | ⟨hall, hret⟩
  · exact .inl ⟨pid, hlt, hclear, by rw [hret]⟩
  · exact .inr ⟨hall, by rw [hret]⟩

/-- A successful creation appends an entry with a pid whose bit was clear. -/
structure Created (s s' : ProcessState κ) (new : NewObjects) (pid : Nat) : Prop where
  lt : pid < Bitmap.capacity
  clear : s.pidBitmap.isBitSet pid = false
  list : s'.processList = s.processList ++ [new.process]
  bits : s'.pidBitmap = s.pidBitmap.setBit pid
  proc : ∃ pr, s'.sched.procs = Function.update s.sched.procs new.process (some pr) ∧
    pr.pid = pid ∧ pr.threads = [new.thread]
  core : s'.sched.core = s.sched.core

theorem createProcess_cases {rip cs : UInt64} {pagemap dir : Nat} {r : Option Nat}
    (h : s.createProcess new rip cs pagemap dir = (r, s')) :
    (r = some new.process ∧ ∃ pid, Created s s' new pid) ∨
    (r = none ∧ s'.processList = s.processList ∧ s'.sched = s.sched ∧
      ∀ pid, s.pidBitmap.isBitSet pid = true → s'.pidBitmap.isBitSet pid = true) := by
  unfold createProcess at h
  rcases s.getNewPid_cases with ⟨pid, hlt, hclear, hret⟩ | ⟨_, hret⟩
  · rw [hret] at h
    dsimp only at h
    split at h
    · rename_i pid' tid hpid htid
      cases hpid
      cases h
      exact .inl ⟨rfl, pid, hlt, hclear, rfl, rfl, ⟨_, rfl, rfl, rfl⟩, rfl⟩
    · cases h
      refine .inr ⟨rfl, rfl, rfl, ?_⟩
      intro old hold
      show (s.pidBitmap.setBit pid).isBitSet old = true
      rw [Bitmap.isBitSet_setBit, hold, Bool.or_true]
  · rw [hret] at h
    cases h
    exact .inr ⟨rfl, rfl, rfl, fun _ hold => hold⟩

theorem createProgram_cases {file : Option ProgramFile} {argc : Option Nat}
    {r : Option Nat} (h : s.createProgram new file argc = .ok (r, s')) :
    (file = none ∧ r = none ∧ s' = s) ∨
    (file ≠ none ∧ r = some new.process ∧ ∃ pid, Created s s' new pid) := by
  unfold createProgram at h
  cases file with
  | none =>
      cases h
      exact .inl ⟨rfl, rfl, rfl⟩
  | some f =>
      refine .inr ⟨by simp, ?_⟩
      dsimp only at h
      split at h
      · cases h
      · rename_i q s₁ hmade
        rcases createProcess_cases hmade with ⟨hq, pid, hc⟩ | ⟨hq, _⟩
        · cases hq
          cases argc with
          | none =>
              cases h
              exact ⟨rfl, pid, hc⟩
          | some n =>
              simp only [bind_eq_ok] at h
              rcases h with ⟨th, _, h⟩
              cases h
              exact ⟨rfl, pid, hc.lt, hc.clear, hc.list, hc.bits, hc.proc, hc.core⟩
        · cases hq

/-- The loop over the threads leaves processes, their list and their bits alone. -/
theorem freeThreads_keeps {c : κ} {ts : List Nat} (h : freeThreads c ts s = .ok s') :
    s'.processList = s.processList ∧ s'.pidBitmap = s.pidBitmap ∧
      s'.sched.procs = s.sched.procs := by
  induction ts generalizing s with
  | nil =>
      cases h
      exact ⟨rfl, rfl, rfl⟩
  | cons t ts ih =>
      rw [freeThreads, bind_eq_ok] at h
      rcases h with ⟨s₁, hone, hrest⟩
      have hkeep : s₁.processList = s.processList ∧ s₁.pidBitmap = s.pidBitmap ∧
          s₁.sched.procs = s.sched.procs := by
        unfold freeThread at hone
        simp only [bind_eq_ok] at hone
        rcases hone with ⟨th, _, hone⟩
        split at hone
        · cases hone
        · simp only [bind_eq_ok] at hone
          rcases hone with ⟨current, _, hone⟩
          split at hone
          · cases hone
            exact ⟨rfl, rfl, rfl⟩
          · split at hone
            · cases hone
            · simp only [bind_eq_ok] at hone
              rcases hone with ⟨waiting, _, hone⟩
              cases hone
              exact ⟨rfl, rfl, rfl⟩
      rcases ih hrest with ⟨hlist, hbits, hprocs⟩
      exact ⟨hlist.trans hkeep.1, hbits.trans hkeep.2.1, hprocs.trans hkeep.2.2⟩

variable [DecidableEq κ]

/-- What an exit does when every entry of the list can be read. -/
theorem exitProcess_cases {c : κ} (h : s.exitProcess c = .ok s')
    (hlive : ∀ q ∈ s.processList, ∃ pid, s.pidOf q = some pid) :
    ∃ p pid, (s.sched.core c).runningProcess = some p ∧ s.pidOf p = some pid ∧
      s'.processList =
        eraseSkip (fun q => decide (s.pidOf q = some pid)) s.processList ∧
      s'.pidBitmap = s.pidBitmap.clearBit pid ∧
      s'.pidOf = Function.update s.pidOf p none := by
  unfold exitProcess at h
  cases hp : (s.sched.core c).runningProcess with
  | none => simp [hp] at h
  | some p =>
      simp only [hp, bind_eq_ok, Sched.proc_eq_ok] at h
      rcases h with ⟨pr, hpr, list, hlist, s₁, hfree, h⟩
      rcases freeThreads_keeps hfree with ⟨hlist₁, hbits₁, hprocs₁⟩
      have htest : ∀ q ∈ s.processList,
          (do return decide ((← s.sched.proc q).pid = pr.pid) : Except Fault Bool) =
            .ok (decide (s.pidOf q = some pr.pid)) := by
        intro q hq
        rcases hlive q hq with ⟨pid, hpid⟩
        unfold pidOf at hpid ⊢
        rcases Option.map_eq_some_iff.mp hpid with ⟨qr, hqr, rfl⟩
        rw [Sched.proc_of_some hqr, hqr]
        simp [pure, Except.pure]
      rw [eraseLoop_ok htest] at hlist
      cases h
      refine ⟨p, pr.pid, rfl, by simp [pidOf, hpr], ?_, ?_, ?_⟩
      · exact hlist₁.trans (Except.ok.inj hlist).symm
      · show s₁.pidBitmap.clearBit pr.pid = _
        rw [hbits₁]
      · funext q
        show (Function.update s₁.sched.procs p none q).map (·.pid) = _
        rw [hprocs₁]
        by_cases hq : q = p
        · subst hq
          simp
        · simp [hq, pidOf]

omit [DecidableEq κ] in
theorem fork_cases {c : κ} {regs : Context} {pagemap : Nat} {fdList : List Nat}
    {rax : UInt64} (h : s.fork c regs new pagemap fdList = .ok (rax, s')) :
    s'.processList = s.processList ++ [new.process] ∧
      s'.pidBitmap = s.getNewPid.2.pidBitmap ∧
      s'.pidOf = Function.update s.pidOf new.process
        (some (s.getNewPid.1.getD (2 ^ 64 - 1))) := by
  unfold fork at h
  cases hp : (s.sched.core c).runningProcess with
  | none => simp [hp] at h
  | some p =>
      simp only [hp, bind_eq_ok] at h
      rcases h with ⟨parent, _, h⟩
      split at h
      · cases h
        refine ⟨rfl, rfl, ?_⟩
        funext q
        by_cases hq : q = new.process
        · subst hq
          simp [pidOf, Sched.setProc, getNewTid, getNewPid]
        · simp [pidOf, Sched.setProc, getNewTid, getNewPid, hq]
      · cases h
        refine ⟨rfl, rfl, ?_⟩
        funext q
        by_cases hq : q = new.process
        · subst hq
          simp [pidOf, Sched.setProc, Sched.setThread, Sched.queue, getNewTid, getNewPid]
        · simp [pidOf, Sched.setProc, Sched.setThread, Sched.queue, getNewTid, getNewPid,
            hq]

end ProcessState

/-! ## The system -/

/-- The calls that make and end processes, and what lets a process run. -/
inductive LifeEvent (κ : Type)
  | createProcess (new : NewObjects) (rip cs : UInt64) (pagemap dir : Nat)
  | fork (c : κ) (regs : Context) (new : NewObjects) (pagemap : Nat) (fdList : List Nat)
  | execve (c : κ) (new : NewObjects) (file : Option ProgramFile) (argc : Option Nat)
  | exit (c : κ)
  | queue (t : Nat)
  | tick (c : κ) (regs : Context)

section System

variable {κ : Type} {s s' : ProcessState κ} {e : LifeEvent κ}

namespace ProcessState

/-- The heap hands out addresses at which there is no object. -/
def Fresh (s : ProcessState κ) (new : NewObjects) : Prop :=
  s.sched.procs new.process = none ∧ s.sched.threads new.thread = none

instance decidableFresh (s : ProcessState κ) (new : NewObjects) :
    Decidable (s.Fresh new) :=
  inferInstanceAs (Decidable (_ ∧ _))

end ProcessState

def LifeEvent.Allowed (s : ProcessState κ) : LifeEvent κ → Prop
  | .createProcess new .. => s.Fresh new
  | .fork _ _ new .. => s.Fresh new
  | .execve _ new .. => s.Fresh new
  | .exit _ => True
  | .queue t => s.sched.threads t ≠ none
  | .tick .. => True

instance LifeEvent.decidableAllowed (s : ProcessState κ) (e : LifeEvent κ) :
    Decidable (e.Allowed s) :=
  match e with
  | .createProcess new .. => inferInstanceAs (Decidable (s.Fresh new))
  | .fork _ _ new .. => inferInstanceAs (Decidable (s.Fresh new))
  | .execve _ new .. => inferInstanceAs (Decidable (s.Fresh new))
  | .exit _ => inferInstanceAs (Decidable True)
  | .queue t => inferInstanceAs (Decidable (s.sched.threads t ≠ none))
  | .tick .. => inferInstanceAs (Decidable True)

namespace ProcessState

/-- One call, whether it reports failure or not. -/
def exec [DecidableEq κ] (s : ProcessState κ) : LifeEvent κ → Except Fault (ProcessState κ)
  | .createProcess new rip cs pagemap dir =>
      .ok (s.createProcess new rip cs pagemap dir).2
  | .fork c regs new pagemap fdList => do
      let (_, s) ← s.fork c regs new pagemap fdList
      return s
  | .execve c new file argc => do
      let (_, s) ← s.execve c new file argc
      return s
  | .exit c => s.exitProcess c
  | .queue t => .ok { s with sched := s.sched.queue t }
  | .tick c regs => do
      let (sched, _) ← s.sched.reschedule c regs
      return { s with sched := sched }

/-- No process, zeroed bitmaps, idle cores. -/
def boot : ProcessState κ :=
  ⟨⟨fun _ => none, fun _ => none, [], fun _ => ⟨none, none, 0, 0⟩⟩, [],
    fun _ => 0, fun _ => 0⟩

end ProcessState

def LifeStep [DecidableEq κ] (s : ProcessState κ) (e : LifeEvent κ) (s' : ProcessState κ) : Prop :=
  e.Allowed s ∧ s.exec e = .ok s'

/-- The step as a function. -/
def ProcessState.attempt [DecidableEq κ] (s : ProcessState κ) (e : LifeEvent κ) :
    Option (ProcessState κ) :=
  if e.Allowed s then (s.exec e).toOption else none

theorem lifeStep_of_attempt [DecidableEq κ] (h : s.attempt e = some s') : LifeStep s e s' :=
  guard_toOption.mp h

/-- The pid of the process that runs on a core. -/
def ProcessState.callerPid (s : ProcessState κ) (c : κ) : Option Nat :=
  (s.sched.core c).runningProcess.bind s.pidOf

/-- The pid of the last entry of `process_list`. -/
def ProcessState.lastPid (s : ProcessState κ) : Option Nat :=
  s.processList.getLast?.bind s.pidOf

/-- A `fork` finds a free pid; an `execve` whose file opens is not called by the
process of the last entry. -/
def LifeEvent.Harmless (s : ProcessState κ) : LifeEvent κ → Prop
  | .fork .. => ∃ pid < Bitmap.capacity, s.pidBitmap.isBitSet pid = false
  | .execve c _ file _ => file = none ∨ s.lastPid ≠ s.callerPid c
  | _ => True

instance LifeEvent.decidableHarmless (s : ProcessState κ) (e : LifeEvent κ) :
    Decidable (e.Harmless s) :=
  match e with
  | .fork .. => inferInstanceAs (Decidable
      (∃ pid < Bitmap.capacity, s.pidBitmap.isBitSet pid = false))
  | .execve c _ file _ => inferInstanceAs (Decidable
      (file = none ∨ s.lastPid ≠ s.callerPid c))
  | .createProcess .. => inferInstanceAs (Decidable True)
  | .exit _ => inferInstanceAs (Decidable True)
  | .queue _ => inferInstanceAs (Decidable True)
  | .tick .. => inferInstanceAs (Decidable True)

/-! ## One step -/

namespace ProcessState

theorem Fresh.pidOf_eq {new : NewObjects} (h : s.Fresh new) :
    s.pidOf new.process = none := by
  simp [pidOf, h.1]

theorem Created.pidOf_eq {new : NewObjects} {pid : Nat} (h : Created s s' new pid) :
    s'.pidOf = Function.update s.pidOf new.process (some pid) := by
  rcases h.proc with ⟨pr, hprocs, rfl, _⟩
  funext q
  by_cases hq : q = new.process
  · subst hq
    simp [pidOf, hprocs]
  · simp [pidOf, hprocs, hq]

theorem Created.distinctPids {new : NewObjects} {pid : Nat}
    (hc : Created s s' new pid) (h : DistinctPids s) (hnew : s.Fresh new) :
    DistinctPids s' :=
  h.push hc.list hc.pidOf_eq hc.bits hnew.pidOf_eq hc.lt hc.clear

theorem createProcess_distinct {new : NewObjects} {rip cs : UInt64} {pagemap dir : Nat}
    (h : DistinctPids s) (hnew : s.Fresh new) :
    DistinctPids (s.createProcess new rip cs pagemap dir).2 := by
  rcases createProcess_cases (Prod.eta (s.createProcess new rip cs pagemap dir)).symm with
    ⟨_, pid, hc⟩ | ⟨_, hlist, hsched, hbits⟩
  · exact hc.distinctPids h hnew
  · refine h.of_sublist (by rw [hlist]) ?_ fun _ _ pid _ => hbits pid
    intro q _
    unfold pidOf
    rw [hsched]

/-- A child gets a pid of its own exactly when there is one left. -/
theorem fork_distinct_iff {c : κ} {regs : Context} {new : NewObjects} {pagemap : Nat}
    {fdList : List Nat} {rax : UInt64} (h : DistinctPids s) (hnew : s.Fresh new)
    (hret : s.fork c regs new pagemap fdList = .ok (rax, s')) :
    DistinctPids s' ↔ ∃ pid < Bitmap.capacity, s.pidBitmap.isBitSet pid = false := by
  rcases fork_cases hret with ⟨hlist, hbits, hpids⟩
  rcases s.getNewPid_cases with ⟨pid, hlt, hclear, hget⟩ | ⟨hall, hget⟩
  · rw [hget] at hbits hpids
    exact iff_of_true (h.push hlist hpids hbits hnew.pidOf_eq hlt hclear)
      ⟨pid, hlt, hclear⟩
  · rw [hget] at hpids
    refine iff_of_false ?_ ?_
    · intro h'
      rcases h'.marked new.process (by simp [hlist]) with ⟨pid, hpid, hlt, _⟩
      rw [hpids, Function.update_self] at hpid
      have hminus : 2 ^ 64 - 1 = pid := Option.some.inj hpid
      rw [← hminus] at hlt
      exact absurd hlt (by decide)
    · rintro ⟨pid, hlt, hclear⟩
      rw [hall pid hlt] at hclear
      cases hclear

variable [DecidableEq κ]

theorem exit_distinct {c : κ} (h : DistinctPids s) (hret : s.exitProcess c = .ok s') :
    DistinctPids s' := by
  have hlive : ∀ q ∈ s.processList, ∃ pid, s.pidOf q = some pid := by
    intro q hq
    rcases h.marked q hq with ⟨pid, hpid, _⟩
    exact ⟨pid, hpid⟩
  rcases exitProcess_cases hret hlive with ⟨p, pid, _, hp, hlist, hbits, hpids⟩
  rw [eraseSkip_of_one (h.atMostOne pid)] at hlist
  have hkept : ∀ q ∈ s'.processList, s.pidOf q ≠ some pid := by
    intro q hq
    rw [hlist, List.mem_filter] at hq
    simpa using hq.2
  refine h.of_sublist (by rw [hlist]; exact List.filter_sublist) ?_ ?_
  · intro q hq
    have hne : q ≠ p := by
      rintro rfl
      exact hkept q hq hp
    rw [hpids, Function.update_of_ne hne]
  · intro q hq other hother hset
    have hne : other ≠ pid := by
      rintro rfl
      exact hkept q hq hother
    rw [hbits, Bitmap.isBitSet_clearBit]
    simp [hne, hset]

/-- The exit at the end of an `execve`: the list ends in the new process, which
carries the caller's pid by now. -/
theorem execve_exit {c : κ} {new : NewObjects} {file : Option ProgramFile}
    {s₁ : ProcessState κ} {p t pid : Nat} {pr start : Process} (h : DistinctPids s)
    (hstart : start.pid = pr.pid) (hnew : s.Fresh new)
    (hp : (s.sched.core c).runningProcess = some p)
    (hpr : s.sched.procs p = some pr) (hc : Created s s₁ new pid)
    (hexit : exitProcess { s₁ with
      sched := (s₁.sched.setProc new.process start).queue t } c = .ok s')
    (hfile : file ≠ none) :
    DistinctPids s' ↔ (file = none ∨ s.lastPid ≠ s.callerPid c) := by
  -- the state in which the exit begins
  set s₂ : ProcessState κ :=
    { s₁ with sched := (s₁.sched.setProc new.process start).queue t } with hs₂
  have hlist₂ : s₂.processList = s.processList ++ [new.process] := hc.list
  have hpids₂ : s₂.pidOf = Function.update s.pidOf new.process (some pr.pid) := by
    funext q
    by_cases hq : q = new.process
    · subst hq
      simp [pidOf, hs₂, Sched.setProc, hstart]
    · have hold : s₁.pidOf q = s.pidOf q := by
        rw [hc.pidOf_eq, Function.update_of_ne hq]
      rw [Function.update_of_ne hq, ← hold]
      simp [pidOf, hs₂, Sched.setProc, hq]
  have hpid : s.pidOf p = some pr.pid := by simp [pidOf, hpr]
  have hpne : p ≠ new.process := by
    rintro rfl
    rw [hnew.pidOf_eq] at hpid
    cases hpid
  have hold : ∀ x ∈ s.processList, s₂.pidOf x = s.pidOf x := by
    intro x hx
    have hne : x ≠ new.process := by
      rintro rfl
      rcases h.marked _ hx with ⟨_, hx', _⟩
      rw [hnew.pidOf_eq] at hx'
      cases hx'
    rw [hpids₂, Function.update_of_ne hne]
  have hlive : ∀ q ∈ s₂.processList, ∃ pid, s₂.pidOf q = some pid := by
    intro q hq
    rw [hlist₂, List.mem_append, List.mem_singleton] at hq
    rcases hq with hq | rfl
    · rcases h.marked q hq with ⟨old, hq', _⟩
      exact ⟨old, (hold q hq).trans hq'⟩
    · exact ⟨pr.pid, by rw [hpids₂, Function.update_self]⟩
  rcases exitProcess_cases hexit hlive with ⟨p', pid', hp', hpid', hlist, hbits, hpids⟩
  have hcore : s₂.sched.core = s.sched.core := hc.core
  obtain rfl : p = p' := by
    rw [hcore, hp] at hp'
    exact Option.some.inj hp'
  obtain rfl : pr.pid = pid' := by
    rw [hpids₂, Function.update_of_ne hpne, hpid] at hpid'
    exact Option.some.inj hpid'
  have hone : AtMostOne (fun q => decide (s₂.pidOf q = some pr.pid)) s.processList := by
    refine (h.atMostOne pr.pid).imp_of_mem ?_
    intro a b ha hb himp
    simpa only [hold a ha, hold b hb] using himp
  have hself : s₂.pidOf new.process = some pr.pid := by rw [hpids₂, Function.update_self]
  rw [hlist₂, eraseSkip_concat hone (by simp [hself])] at hlist
  have hlast : s.processList.getLast?.any (fun q => decide (s₂.pidOf q = some pr.pid)) =
      decide (s.lastPid = s.callerPid c) := by
    unfold lastPid callerPid
    rw [hp, Option.bind_some, hpid]
    cases hl : s.processList.getLast? with
    | none => simp
    | some x => simp [hold x (List.mem_of_getLast? hl)]
  rw [hlast] at hlist
  by_cases hsame : s.lastPid = s.callerPid c
  · -- the new process is skipped, and its bit is cleared
    refine iff_of_false ?_ (by simp [hfile, hsame])
    intro h'
    have hmem : new.process ∈ s'.processList := by simp [hlist, hsame]
    rcases h'.marked new.process hmem with ⟨q, hq, _, hset⟩
    rw [hpids, Function.update_of_ne (Ne.symm hpne), hself] at hq
    rw [hbits, ← Option.some.inj hq, Bitmap.isBitSet_clearBit] at hset
    simp at hset
  · refine iff_of_true ?_ (.inr hsame)
    simp only [hsame, decide_false, Bool.false_eq_true, if_false, List.append_nil] at hlist
    have hkept : ∀ q ∈ s'.processList, q ∈ s.processList ∧ s.pidOf q ≠ some pr.pid := by
      intro q hq
      rw [hlist, List.mem_filter] at hq
      refine ⟨hq.1, ?_⟩
      rw [← hold q hq.1]
      simpa using hq.2
    refine h.of_sublist (by rw [hlist]; exact List.filter_sublist) ?_ ?_
    · intro q hq
      have hne : q ≠ p := by
        rintro rfl
        exact (hkept q hq).2 hpid
      rw [hpids, Function.update_of_ne hne, hold q (hkept q hq).1]
    · intro q hq other hother hset
      have hne : other ≠ pr.pid := by
        rintro rfl
        exact (hkept q hq).2 hother
      have hbits₂ : s₂.pidBitmap = s.pidBitmap.setBit pid := hc.bits
      rw [hbits, hbits₂, Bitmap.isBitSet_clearBit, Bitmap.isBitSet_setBit]
      simp [hne, hset]

/-- The new process stays on the list, without its bit, exactly when it was put right
behind an entry with the caller's pid. -/
theorem execve_distinct_iff {c : κ} {new : NewObjects} {file : Option ProgramFile}
    {argc : Option Nat} {rax : Option UInt64} (h : DistinctPids s) (hnew : s.Fresh new)
    (hret : s.execve c new file argc = .ok (rax, s')) :
    DistinctPids s' ↔ (file = none ∨ s.lastPid ≠ s.callerPid c) := by
  unfold execve at hret
  cases hp : (s.sched.core c).runningProcess with
  | none => simp [hp] at hret
  | some p =>
      simp only [hp, bind_eq_ok, Sched.proc_eq_ok] at hret
      rcases hret with ⟨pr, hpr, ⟨r, s₁⟩, hprog, hret⟩
      rcases createProgram_cases hprog with ⟨hfile, rfl, rfl⟩ | ⟨hfile, rfl, pid, hc⟩
      · cases hret
        exact iff_of_true h (.inl hfile)
      · rcases hc.proc with ⟨start, hprocs, _, hthreads⟩
        have hstart : s₁.sched.procs new.process = some start := by
          rw [hprocs, Function.update_self]
        simp only [bind_eq_ok, Sched.proc_eq_ok, hstart] at hret
        rcases hret with ⟨start', hstart', hret⟩
        cases hstart'
        rw [hthreads] at hret
        simp only [bind_eq_ok] at hret
        rcases hret with ⟨s₃, hexit, hret⟩
        cases hret
        refine execve_exit h ?_ hnew hp hpr hc hexit hfile
        rfl

/-- A tick moves no process. -/
theorem tick_distinct {c : κ} {regs : Context} {sched : Sched κ} {out : Option Context}
    (h : DistinctPids s) (hret : s.sched.reschedule c regs = .ok (sched, out)) :
    DistinctPids { s with sched := sched } := by
  have hpids : ∀ q, ({ s with sched := sched } : ProcessState κ).pidOf q = s.pidOf q := by
    intro q
    have hsame := congrArg (Option.map (·.pid)) ((Sched.reschedule_cases hret).1.procs q)
    rw [Option.map_map, Option.map_map] at hsame
    exact hsame
  exact h.of_sublist (List.Sublist.refl _) (fun q _ => hpids q) fun _ _ _ _ hset => hset

/-- A step keeps the pids distinct and marked exactly when it is harmless. -/
theorem distinctPids_step_iff (h : DistinctPids s) (hstep : LifeStep s e s') :
    DistinctPids s' ↔ e.Harmless s := by
  rcases hstep with ⟨hok, hret⟩
  cases e with
  | createProcess new rip cs pagemap dir =>
      cases hret
      exact iff_of_true (createProcess_distinct h hok) trivial
  | fork c regs new pagemap fdList =>
      simp only [exec, bind_eq_ok] at hret
      rcases hret with ⟨⟨rax, s₁⟩, hfork, hret⟩
      cases hret
      exact fork_distinct_iff h hok hfork
  | execve c new file argc =>
      simp only [exec, bind_eq_ok] at hret
      rcases hret with ⟨⟨rax, s₁⟩, hexecve, hret⟩
      cases hret
      exact execve_distinct_iff h hok hexecve
  | exit c => exact iff_of_true (exit_distinct h hret) trivial
  | queue t =>
      cases hret
      exact iff_of_true ⟨h.marked, h.distinct⟩ trivial
  | tick c regs =>
      simp only [exec, bind_eq_ok] at hret
      rcases hret with ⟨⟨sched, out⟩, htick, hret⟩
      cases hret
      exact iff_of_true (tick_distinct h htick) trivial

end ProcessState

variable [DecidableEq κ]

/-- A step that the pids survive. -/
def HarmlessStep (s : ProcessState κ) (e : LifeEvent κ) (s' : ProcessState κ) : Prop :=
  LifeStep s e s' ∧ e.Harmless s

/-- The harmless step as a function. -/
def ProcessState.attemptHarmless (s : ProcessState κ) (e : LifeEvent κ) :
    Option (ProcessState κ) :=
  if e.Harmless s then s.attempt e else none

theorem harmlessStep_of_attempt (h : s.attemptHarmless e = some s') :
    HarmlessStep s e s' := by
  unfold ProcessState.attemptHarmless at h
  split at h
  · exact ⟨lifeStep_of_attempt h, ‹_›⟩
  · cases h

/-- In every run without a `fork` that finds no pid and without an `execve` by the
process of the last entry, the pids on the list are distinct, below the capacity
and marked; from each state of such a run, a step of either kind ends that. -/
theorem pids_distinct {es : List (LifeEvent κ)} (hrun : Run HarmlessStep .boot es s) :
    s.DistinctPids ∧
      ∀ e s', LifeStep s e s' → (s'.DistinctPids ↔ LifeEvent.Harmless s e) := by
  have hpids : s.DistinctPids := by
    refine hrun.invariant (I := ProcessState.DistinctPids) ?_ ⟨by simp [ProcessState.boot],
      by simp [ProcessState.boot]⟩
    intro s e s' h hstep
    exact (ProcessState.distinctPids_step_iff h hstep.1).mpr hstep.2
  exact ⟨hpids, fun e s' hstep => ProcessState.distinctPids_step_iff hpids hstep⟩

end System

/-- The objects of a process at `p`, with its thread at `p + 1`. -/
def objectsAt (p : Nat) : NewObjects := ⟨p, p + 1, 0x9000, 0, 0, 0⟩

/-- One process forks and exits; the child stays. -/
theorem pids_distinct_fork_exit :
    ∃ s : ProcessState Unit, s.processList = [20] ∧ s.DistinctPids ∧
      ∀ e s', LifeStep s e s' → (s'.DistinctPids ↔ LifeEvent.Harmless s e) := by
  have hlist : (([.createProcess (objectsAt 10) 0x1000 0x1b 7 0, .queue 11,
      .tick () default, .fork () default (objectsAt 20) 8 [], .exit ()] :
        List (LifeEvent Unit)).foldlM ProcessState.attemptHarmless .boot).map
          (·.processList) = some [20] := by decide +kernel
  obtain ⟨s, hs, hc⟩ := Option.map_eq_some_iff.mp hlist
  exact ⟨s, hc, pids_distinct (Run.of_foldlM harmlessStep_of_attempt hs)⟩

/-- A process that is last on the list replaces itself: the new one stays on the list
with pid 0, and bit 0 is clear. -/
theorem execve_loses_pid_bit :
    ∃ s : ProcessState Unit,
      Run LifeStep .boot
        [.createProcess (objectsAt 10) 0x1000 0x1b 7 0, .queue 11, .tick () default,
          .execve () (objectsAt 20) (some ⟨0x1000, 8, 0⟩) none] s ∧
      s.processList = [20] ∧ s.pidOf 20 = some 0 ∧ s.pidBitmap.isBitSet 0 = false ∧
      ¬s.DistinctPids := by
  have hend : (([.createProcess (objectsAt 10) 0x1000 0x1b 7 0, .queue 11,
      .tick () default, .execve () (objectsAt 20) (some ⟨0x1000, 8, 0⟩) none] :
        List (LifeEvent Unit)).foldlM ProcessState.attempt .boot).map
          (fun s => (s.processList, s.pidOf 20, s.pidBitmap.isBitSet 0)) =
      some ([20], some 0, false) := by decide +kernel
  obtain ⟨s, hs, hc⟩ := Option.map_eq_some_iff.mp hend
  simp only [Prod.mk.injEq] at hc
  rcases hc with ⟨hlist, hpid, hbit⟩
  refine ⟨s, Run.of_foldlM lifeStep_of_attempt hs, hlist, hpid, hbit, ?_⟩
  intro h
  rcases h.marked 20 (by simp [hlist]) with ⟨pid, hpid', _, hset⟩
  rw [hpid] at hpid'
  rw [← Option.some.inj hpid', hbit] at hset
  cases hset

end Toystar.Scheduler

import Toystar.Memory.Pmm
import Toystar.Scheduler.Sched
import Toystar.Verified.Run

/-!
# Kernel stacks

A syscall comes from ring 3 through a gate without an IST stack, so the
processor starts it at `TSS.rsp0` of the core.  `bootstrap_cores` sets `rsp0`
once and `reschedule` never changes it: whichever thread enters, its frames
start at the same address.  A thread that is preempted inside a syscall keeps its
frames there, and the next thread that enters one writes over them.

The timer uses the stack `IST1`; `reschedule` copies the registers it pushed
there into the thread, so it keeps nothing on it.
-/

namespace Toystar.Scheduler

open Toystar.Kernel
open Toystar.Memory
open Toystar.Verified

/-! ## The task state segment -/

/-- `TSS`, with the two fields that are used. -/
structure Tss where
  rsp0 : Nat
  ist1 : Nat
deriving DecidableEq

/-- `PHYSICAL_BASE_ADDRESS`: frames are addressed through the direct map. -/
def directMap (frame : Nat) : Nat := frame + 0xffff800000000000

/-- The part of `bootstrap_cores` for the core that boots: two areas of four
frames, of which the TSS gets the addresses. -/
def bootstrapTss (pmm : Pmm) (mem : ByteMem) : Tss :=
  let (stack, pmm, mem) := pmm.alloc mem 4
  { rsp0 := directMap stack
    ist1 := directMap (pmm.alloc mem 4).1 }

/-- The `ist` argument that `init_idt` registers for a vector. -/
def istOf (vector : Nat) : Nat := if vector = 0x20 then 1 else 0

/-- Where the processor starts the handler of an interrupt from ring 3. -/
def Tss.entryStack (tss : Tss) (vector : Nat) : Nat :=
  if istOf vector = 0 then tss.rsp0 else tss.ist1

/-- The bytes of a kernel stack that a thread uses. -/
structure StackRegion where
  low : Nat
  top : Nat
deriving DecidableEq

def StackRegion.Has (r : StackRegion) (a : Nat) : Prop := r.low ≤ a ∧ a < r.top

def StackRegion.Disjoint (r r' : StackRegion) : Prop := ∀ a, r.Has a → ¬r'.Has a

/-- The five words the processor pushes on entry; they stay until `iretq`. -/
def frameBytes : Nat := 40

/-! ## The system -/

/-- A core: its scheduler, its TSS and, for each thread inside a syscall, the
part of the kernel stack it uses. -/
structure StackState where
  tss : Tss
  sched : Sched Unit
  stack : Nat → Option StackRegion

inductive StackEvent
  /-- a process with its thread -/
  | newProcess (t p tid pid dir pagemap : Nat) (fdList : List Nat) (regs : Context)
  /-- `Sched::queue` -/
  | queue (t : Nat)
  /-- `int 0x80` in the running thread -/
  | enter
  /-- the syscall calls and returns: its stack pointer moves -/
  | move (low : Nat)
  /-- `iretq` -/
  | leave
  /-- `exit_process` -/
  | exit
  /-- a timer tick -/
  | tick (regs : Context)

namespace StackState

def running (s : StackState) : Option Nat := (s.sched.core ()).runningThread

/-- Replace what the running thread uses of the kernel stack. -/
def setStack (s : StackState) (t : Nat) (r : Option StackRegion) : StackState :=
  { s with stack := Function.update s.stack t r }

/-- A thread enters from user mode; inside, the stack pointer stays below the
processor's frame. -/
def Allowed (s : StackState) : StackEvent → Prop
  | .newProcess t p .. => s.sched.threads t = none ∧ s.sched.procs p = none
  | .queue t => s.sched.threads t ≠ none
  | .enter => ∃ t, s.running = some t ∧ s.stack t = none
  | .move low => ∃ t r, s.running = some t ∧ s.stack t = some r ∧ low + frameBytes ≤ r.top
  | .leave => ∃ t, s.running = some t ∧ s.stack t ≠ none
  | .exit => ∃ t, s.running = some t ∧ s.stack t ≠ none
  | .tick _ => True

def exec (s : StackState) : StackEvent → Except Fault StackState
  | .newProcess t p tid pid dir pagemap fdList regs =>
      let pr : Process := ⟨pid, .waiting, dir, [t], fdList, pagemap⟩
      .ok { s with
        sched := (s.sched.setThread t ⟨tid, .waiting, p, regs⟩).setProc p pr }
  | .queue t => .ok { s with sched := s.sched.queue t }
  | .enter =>
      match s.running with
      | none => .error .nullDeref
      | some t =>
          let top := s.tss.entryStack 0x80
          .ok (s.setStack t (some ⟨top - frameBytes, top⟩))
  | .move low =>
      match s.running with
      | none => .error .nullDeref
      | some t => .ok (s.setStack t ((s.stack t).map fun r => { r with low }))
  | .leave =>
      match s.running with
      | none => .error .nullDeref
      | some t => .ok (s.setStack t none)
  | .exit =>
      match s.running with
      | none => .error .nullDeref
      | some t =>
          let core := { s.sched.core () with runningThread := none, runningProcess := none }
          .ok { s.setStack t none with
            sched := { s.sched with
              threads := Function.update s.sched.threads t none
              core := fun _ => core } }
  | .tick regs => do
      let (sched, _) ← s.sched.reschedule () regs
      return { s with sched := sched }

/-- After `bootstrap_cores`: no thread, nothing on the stack. -/
def boot (pmm : Pmm) (mem : ByteMem) : StackState :=
  ⟨bootstrapTss pmm mem,
    ⟨fun _ => none, fun _ => none, [], fun _ => ⟨none, none, 0, 0⟩⟩, fun _ => none⟩

/-- Two threads inside a syscall use common bytes of the kernel stack. -/
def Shared (s : StackState) : Prop :=
  ∃ t u r r', t ≠ u ∧ s.stack t = some r ∧ s.stack u = some r' ∧ ¬r.Disjoint r'

/-- No thread enters a syscall while another one is inside one. -/
def Quiet (s : StackState) : StackEvent → Prop
  | .enter => ∀ t u, s.running = some t → u ≠ t → s.stack u = none
  | _ => True

end StackState

def StackStep (s : StackState) (e : StackEvent) (s' : StackState) : Prop :=
  s.Allowed e ∧ s.exec e = .ok s'

/-- A step that meets the condition. -/
def QuietStackStep (s : StackState) (e : StackEvent) (s' : StackState) : Prop :=
  StackStep s e s' ∧ s.Quiet e

/-! ## The invariants -/

/-- Every stack starts at the one entry address, which a frame fits below. -/
structure StackInv (s : StackState) : Prop where
  room : frameBytes ≤ s.tss.rsp0
  top : ∀ t r, s.stack t = some r → r.top = s.tss.rsp0
  frame : ∀ t r, s.stack t = some r → r.low + frameBytes ≤ r.top

/-- At most one thread is inside a syscall. -/
def StackState.Single (s : StackState) : Prop :=
  ∀ t u, s.stack t ≠ none → s.stack u ≠ none → t = u

theorem stackInv_boot (pmm : Pmm) (mem : ByteMem) : StackInv (StackState.boot pmm mem) := by
  constructor
  · show frameBytes ≤ directMap _
    unfold frameBytes directMap
    omega
  · intro t r h
    cases h
  · intro t r h
    cases h

namespace StackInv

variable {s s' : StackState} {t : Nat}

theorem setStack (hs : StackInv s) {r : Option StackRegion}
    (hr : ∀ x, r = some x → x.top = s.tss.rsp0 ∧ x.low + frameBytes ≤ x.top) :
    StackInv (s.setStack t r) := by
  have hcases : ∀ u x, (s.setStack t r).stack u = some x →
      x.top = s.tss.rsp0 ∧ x.low + frameBytes ≤ x.top := by
    intro u x hx
    by_cases hut : u = t
    · subst hut
      apply hr x
      rw [← hx]
      exact (Function.update_self u r s.stack).symm
    · have hold : s.stack u = some x := by
        rw [← hx]
        exact (Function.update_of_ne hut r s.stack).symm
      exact ⟨hs.top u x hold, hs.frame u x hold⟩
  exact ⟨hs.room, fun u x hx => (hcases u x hx).1, fun u x hx => (hcases u x hx).2⟩

theorem setSched (hs : StackInv s) (sched : Sched Unit) :
    StackInv { s with sched := sched } := ⟨hs.room, hs.top, hs.frame⟩

theorem step {e : StackEvent} (hs : StackInv s) (hstep : StackStep s e s') :
    StackInv s' := by
  rcases hstep with ⟨hallowed, hret⟩
  cases e with
  | newProcess t p tid pid dir pagemap fdList regs =>
      cases hret
      exact hs.setSched _
  | queue t =>
      cases hret
      exact hs.setSched _
  | enter =>
      rcases hallowed with ⟨t, hrun, _⟩
      simp only [StackState.exec, hrun] at hret
      cases hret
      apply hs.setStack
      intro x hx
      cases hx
      have hroom := hs.room
      refine ⟨rfl, ?_⟩
      show s.tss.rsp0 - frameBytes + frameBytes ≤ s.tss.rsp0
      omega
  | move low =>
      rcases hallowed with ⟨t, r, hrun, hr, hlow⟩
      simp only [StackState.exec, hrun, hr, Option.map_some] at hret
      cases hret
      apply hs.setStack
      intro x hx
      cases hx
      exact ⟨hs.top t r hr, hlow⟩
  | leave =>
      rcases hallowed with ⟨t, hrun, _⟩
      simp only [StackState.exec, hrun] at hret
      cases hret
      exact hs.setStack fun x hx => by cases hx
  | exit =>
      rcases hallowed with ⟨t, hrun, _⟩
      simp only [StackState.exec, hrun] at hret
      cases hret
      exact (hs.setStack fun x hx => by cases hx).setSched _
  | tick regs =>
      simp only [StackState.exec, bind_eq_ok] at hret
      rcases hret with ⟨⟨sched, out⟩, _, hret⟩
      cases hret
      exact hs.setSched _

/-- Two threads inside a syscall always share the bytes below `rsp0`. -/
theorem shared_iff (hs : StackInv s) : s.Shared ↔ ¬s.Single := by
  constructor
  · intro hshared hsingle
    rcases hshared with ⟨t, u, r, r', hne, ht, hu, _⟩
    exact hne (hsingle t u (by simp [ht]) (by simp [hu]))
  · intro hsingle
    unfold StackState.Single at hsingle
    push Not at hsingle
    rcases hsingle with ⟨t, u, ht, hu, hne⟩
    rcases Option.ne_none_iff_exists'.mp ht with ⟨r, hr⟩
    rcases Option.ne_none_iff_exists'.mp hu with ⟨r', hr'⟩
    refine ⟨t, u, r, r', hne, hr, hr', ?_⟩
    intro hdis
    have htop := hs.top t r hr
    have htop' := hs.top u r' hr'
    have hframe := hs.frame t r hr
    have hframe' := hs.frame u r' hr'
    unfold frameBytes at hframe hframe'
    apply hdis (s.tss.rsp0 - 1)
    · exact ⟨by omega, by omega⟩
    · exact ⟨by omega, by omega⟩

end StackInv

namespace StackState

variable {s s' : StackState} {t : Nat}

/-- Nobody new is inside a syscall, so nobody shares a stack. -/
theorem Single.of_le (hs : s.Single) (h : ∀ u, s'.stack u ≠ none → s.stack u ≠ none) :
    s'.Single := fun t u ht hu => hs t u (h t ht) (h u hu)

theorem setStack_ne_none {r : Option StackRegion} (h : r ≠ none → s.stack t ≠ none) :
    ∀ u, (s.setStack t r).stack u ≠ none → s.stack u ≠ none := by
  intro u hu
  by_cases hut : u = t
  · subst hut
    apply h
    rwa [show (s.setStack u r).stack u = r from Function.update_self ..] at hu
  · rwa [show (s.setStack t r).stack u = s.stack u from Function.update_of_ne hut ..] at hu

theorem Single.step {e : StackEvent} (hs : s.Single) (hstep : QuietStackStep s e s') :
    s'.Single := by
  rcases hstep with ⟨⟨hallowed, hret⟩, hquiet⟩
  cases e with
  | newProcess t p tid pid dir pagemap fdList regs =>
      cases hret
      exact hs
  | queue t =>
      cases hret
      exact hs
  | enter =>
      rcases hallowed with ⟨t, hrun, _⟩
      simp only [exec, hrun] at hret
      cases hret
      -- everybody else is outside
      have honly : ∀ r u, (s.setStack t r).stack u ≠ none → u = t := by
        intro r u hu
        by_contra hut
        apply hu
        rw [show (s.setStack t r).stack u = s.stack u from Function.update_of_ne hut ..]
        exact hquiet t u hrun hut
      intro u v hu hv
      rw [honly _ u hu, honly _ v hv]
  | move low =>
      rcases hallowed with ⟨t, r, hrun, hr, _⟩
      simp only [exec, hrun] at hret
      cases hret
      exact hs.of_le (setStack_ne_none fun _ => by simp [hr])
  | leave =>
      rcases hallowed with ⟨t, hrun, _⟩
      simp only [exec, hrun] at hret
      cases hret
      exact hs.of_le (setStack_ne_none fun h => absurd rfl h)
  | exit =>
      rcases hallowed with ⟨t, hrun, _⟩
      simp only [exec, hrun] at hret
      cases hret
      exact hs.of_le (setStack_ne_none fun h => absurd rfl h)
  | tick regs =>
      simp only [exec, bind_eq_ok] at hret
      rcases hret with ⟨⟨sched, out⟩, _, hret⟩
      cases hret
      exact hs

/-- An entry over somebody else's syscall makes a second user of the stack. -/
theorem not_single_of_not_quiet {e : StackEvent} (hstep : StackStep s e s')
    (hquiet : ¬s.Quiet e) : ¬s'.Single := by
  rcases hstep with ⟨_, hret⟩
  cases e with
  | enter =>
      simp only [Quiet] at hquiet
      push Not at hquiet
      rcases hquiet with ⟨t, u, hrun, hne, hu⟩
      simp only [exec, hrun] at hret
      cases hret
      intro hsingle
      apply hne
      apply hsingle u t
      · rw [show (s.setStack t (some _)).stack u = s.stack u from
          Function.update_of_ne hne ..]
        exact hu
      · rw [show (s.setStack t (some _)).stack t = some _ from Function.update_self ..]
        simp
  | newProcess | queue | move | leave | exit | tick => exact absurd trivial hquiet

end StackState

/-! ## Whole runs -/

/-- In every run in which no thread enters a syscall while another one is inside
one, no two threads share bytes of the kernel stack; an entry that breaks this,
and nothing else, makes two threads share them. -/
theorem kernel_stacks_disjoint (pmm : Pmm) (mem : ByteMem) {es : List StackEvent}
    {s : StackState} (hrun : Run QuietStackStep (StackState.boot pmm mem) es s) :
    (∀ t u r r', t ≠ u → s.stack t = some r → s.stack u = some r' → r.Disjoint r') ∧
    ∀ e s', StackStep s e s' → (s'.Shared ↔ ¬s.Quiet e) := by
  have hboot : (StackState.boot pmm mem).Single := fun t u ht _ => absurd rfl ht
  have hinv : StackInv s ∧ s.Single :=
    hrun.invariant (I := fun s => StackInv s ∧ s.Single)
      (fun hs hstep => ⟨hs.1.step hstep.1, hs.2.step hstep⟩)
      ⟨stackInv_boot pmm mem, hboot⟩
  constructor
  · intro t u r r' hne ht hu
    exact absurd (hinv.2 t u (by simp [ht]) (by simp [hu])) hne
  · intro e s' hstep
    rw [(hinv.1.step hstep).shared_iff]
    constructor
    · intro hshared hquiet
      exact hshared (hinv.2.step ⟨hstep, hquiet⟩)
    · exact StackState.not_single_of_not_quiet hstep

/-- Two processes, the first of which runs and is inside a syscall. -/
def syscallTrace : List StackEvent :=
  [.newProcess 1 3 0 0 0 0 [] default, .queue 1, .newProcess 2 4 1 1 0 0 [] default,
    .queue 2, .tick default, .enter]

/-- Sixteen pages of which page 0 is used. -/
def sixteenPages : Pmm := ⟨fun i => if i = 0 then 0x80 else 0, 2, Pmm.fits_two⟩

/-- The first thread alone in a syscall. -/
theorem kernel_stacks_disjoint_one :
    ∃ s : StackState, s.running = some 1 ∧ s.stack 1 ≠ none ∧
      (∀ t u r r', t ≠ u → s.stack t = some r → s.stack u = some r' → r.Disjoint r') ∧
      ∀ e s', StackStep s e s' → (s'.Shared ↔ ¬s.Quiet e) := by
  have hrun : ∃ s : StackState,
      Run QuietStackStep (StackState.boot sixteenPages fun _ => 0) syscallTrace s ∧
        s.running = some 1 ∧ s.stack 1 ≠ none := by
    refine ⟨_, .cons ⟨⟨⟨rfl, rfl⟩, rfl⟩, trivial⟩ (.cons ⟨⟨?_, rfl⟩, trivial⟩
      (.cons ⟨⟨⟨rfl, rfl⟩, rfl⟩, trivial⟩ (.cons ⟨⟨?_, rfl⟩, trivial⟩
      (.cons ⟨⟨trivial, rfl⟩, trivial⟩ (.cons ⟨⟨⟨1, rfl, rfl⟩, rfl⟩, ?_⟩
      (.nil _)))))), rfl, ?_⟩
    · exact Option.some_ne_none _
    · exact Option.some_ne_none _
    · exact fun t u _ _ => rfl
    · exact Option.some_ne_none _
  rcases hrun with ⟨s, hrun, hone, hin⟩
  exact ⟨s, hone, hin, kernel_stacks_disjoint _ _ hrun⟩

/-- The first thread is preempted inside its syscall and the second enters one:
both have the words below `rsp0`. -/
theorem preempted_syscall_overwritten :
    ∃ s : StackState, Run StackStep (StackState.boot sixteenPages fun _ => 0)
        (syscallTrace ++ [.tick default, .enter]) s ∧
      s.running = some 2 ∧ s.stack 1 = s.stack 2 ∧ s.Shared := by
  have hrun : ∃ s : StackState,
      Run StackStep (StackState.boot sixteenPages fun _ => 0)
        (syscallTrace ++ [.tick default, .enter]) s ∧
      s.running = some 2 ∧ s.stack 1 = s.stack 2 ∧ s.stack 2 ≠ none := by
    refine ⟨_, .cons ⟨⟨rfl, rfl⟩, rfl⟩ (.cons ⟨?_, rfl⟩ (.cons ⟨⟨rfl, rfl⟩, rfl⟩
      (.cons ⟨?_, rfl⟩ (.cons ⟨trivial, rfl⟩ (.cons ⟨⟨1, rfl, rfl⟩, rfl⟩
      (.cons ⟨trivial, rfl⟩ (.cons ⟨⟨2, rfl, rfl⟩, rfl⟩ (.nil _)))))))), rfl, rfl, ?_⟩
    · exact Option.some_ne_none _
    · exact Option.some_ne_none _
    · exact Option.some_ne_none _
  rcases hrun with ⟨s, hrun, hrunning, hsame, hin⟩
  have hs : StackInv s :=
    hrun.invariant (fun hs hstep => hs.step hstep) (stackInv_boot _ _)
  refine ⟨s, hrun, hrunning, hsame, hs.shared_iff.mpr ?_⟩
  intro hsingle
  have := hsingle 1 2 (by rwa [hsame]) hin
  omega

end Toystar.Scheduler

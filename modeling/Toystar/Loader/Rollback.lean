import Toystar.Loader.Validity
import Toystar.Memory.VmmFrames

/-!
# What a failed creation leaves behind

`create_process` takes the stack, the tables that map it, a pid and a tid, in this order,
and looks at the ids at the end; `syscall_fork` lists the child first.  Neither gives
anything back when an id is missing.
-/

namespace Toystar.Loader

open Toystar.Kernel
open Toystar.Klibc
open Toystar.Memory
open Toystar.Scheduler
open Toystar.Verified

variable {κ : Type}

/-- The lists, the ids and the frames are as they were. -/
structure KernelState.NoTrace (s s' : KernelState κ) : Prop where
  list : s'.procs.processList = s.procs.processList
  queue : s'.procs.sched.waitingQueue = s.procs.sched.waitingQueue
  pids : s'.procs.pidBitmap = s.procs.pidBitmap
  tids : s'.procs.tidBitmap = s.procs.tidBitmap
  frames : s'.machine.pmm.bitmap = s.machine.pmm.bitmap

/-! ## The stack -/

/-- No table is missing in any round of mapping the stack that was refused. -/
def StackTables (k : Machine Pmm) (vm : Vmm) : Prop :=
  ∀ i < USER_STACK_SIZE / PAGE_SIZE + 1, roundMissing USER_STACK 0 0b111
    (k, { vm with ranges := vm.ranges ++ [⟨USER_STACK, USER_STACK_SIZE, 0b111, 0⟩] }) i = 0

/-- The stack takes no frame when there are none for it, and none for the tables or no
table is needed. -/
theorem allocStack_bitmap_iff (k : Machine Pmm) (vm : Vmm) (cs : UInt64) :
    (allocStack k vm cs).2.1.pmm.bitmap = k.pmm.bitmap ↔
      k.pmm.refuses (USER_STACK_SIZE / PAGE_SIZE) = true ∧
        (cs &&& 0x3 = 0 ∨ k.pmm.refuses 1 = true ∨ StackTables k vm) := by
  obtain ⟨⟨addr, pmm, mem⟩, halloc⟩ : ∃ r,
      k.pmm.alloc k.mem (USER_STACK_SIZE / PAGE_SIZE) = r := ⟨_, rfl⟩
  unfold allocStack
  rw [halloc]
  cases hfree : k.pmm.refuses (USER_STACK_SIZE / PAGE_SIZE) with
  | false =>
      have htook : Took k.pmm pmm := by
        have h := Pmm.took_alloc hfree k.mem
        rw [halloc] at h
        exact h
      simp only [Bool.false_eq_true, false_and, iff_false]
      by_cases hcs : cs &&& 0x3 = 0
      · rw [if_neg (not_not.mpr hcs)]
        exact htook.ne
      · rw [if_pos hcs]
        have hkeep := keepsUsed_mapRange ⟨mem, pmm⟩ vm USER_STACK addr USER_STACK_SIZE 0b111 0
        exact (htook.keep hkeep).ne
  | true =>
      rw [Pmm.alloc_of_refuses hfree k.mem] at halloc
      cases halloc
      simp only [true_and]
      by_cases hcs : cs &&& 0x3 = 0
      · rw [if_neg (not_not.mpr hcs)]
        exact iff_of_true rfl (.inl hcs)
      · rw [if_pos hcs]
        rw [or_iff_right hcs]
        have heta : (⟨k.mem, k.pmm⟩ : Machine Pmm) = k := rfl
        dsimp only
        rw [heta]
        exact mapRange_bitmap_iff k vm USER_STACK 0 USER_STACK_SIZE 0b111 0

namespace KernelState

variable {s s' : KernelState κ} {c : κ} {new : NewObjects} {rip cs : UInt64}
  {pagemap dir kernelPml4 : Nat} {vm p copy : Vmm} {regs : Context} {heap : Arrays MemArea}
  {fdList : List Nat} {rax : UInt64}

/-- A call of `create_process` that returns null takes what ids there are. -/
theorem createProcess_null (h : (s.createProcess new rip cs pagemap vm dir).1 = none) :
    ¬s.IdsLeft ∧ (s.createProcess new rip cs pagemap vm dir).2.1 =
      ⟨{ s.procs with
          pidBitmap := s.procs.pidBitmap.allocate.2
          tidBitmap := s.procs.tidBitmap.allocate.2 },
        (allocStack s.machine vm cs).2.1⟩ := by
  unfold createProcess ProcessState.createProcess ProcessState.getNewTid
    ProcessState.getNewPid at h ⊢
  dsimp only at h ⊢
  split at h
  · cases h
  · rename_i hnone
    constructor
    · intro hids
      obtain ⟨pid, hpid⟩ := Option.ne_none_iff_exists'.mp hids.1
      obtain ⟨tid, htid⟩ := Option.ne_none_iff_exists'.mp hids.2
      exact hnone pid tid hpid htid
    · rfl

/-- What there is to take when `create_process` fails: nothing. -/
structure Exhausted (s : KernelState κ) (vm : Vmm) (cs : UInt64) : Prop where
  pids : s.procs.pidBitmap.allocate.1 = none
  tids : s.procs.tidBitmap.allocate.1 = none
  stack : s.machine.pmm.refuses (USER_STACK_SIZE / PAGE_SIZE) = true
  tables : cs &&& 0x3 = 0 ∨ s.machine.pmm.refuses 1 = true ∨ StackTables s.machine vm

theorem noTrace_iff (h : (s.createProcess new rip cs pagemap vm dir).1 = none) :
    s.NoTrace (s.createProcess new rip cs pagemap vm dir).2.1 ↔ s.Exhausted vm cs := by
  rw [(createProcess_null h).2]
  constructor
  · intro hsame
    obtain ⟨hstack, htables⟩ := (allocStack_bitmap_iff _ _ _).mp hsame.frames
    exact
      { pids := Bitmap.allocate_same_iff.mp hsame.pids
        tids := Bitmap.allocate_same_iff.mp hsame.tids
        stack := hstack
        tables := htables }
  · intro hnone
    exact
      { list := rfl
        queue := rfl
        pids := Bitmap.allocate_same_iff.mpr hnone.pids
        tids := Bitmap.allocate_same_iff.mpr hnone.tids
        frames := (allocStack_bitmap_iff _ _ _).mpr ⟨hnone.stack, hnone.tables⟩ }

/-- `fork` without an id answers -1, with the child in the list. -/
theorem fork_of_not_idsLeft (hids : ¬s.IdsLeft)
    (h : s.fork kernelPml4 c regs new pagemap p heap fdList = some (rax, copy, s')) :
    rax = 0 - 1 ∧ s'.procs.processList = s.procs.processList ++ [new.process] := by
  unfold fork at h
  simp only [Option.bind_eq_bind, Option.bind_eq_some_iff, Option.pure_def,
    Option.some.injEq] at h
  obtain ⟨_, _, ⟨rax', procs⟩, hfork, hret⟩ := h
  cases hret
  have hforked : s.procs.fork c regs new pagemap fdList = .ok (rax', procs) := by
    cases hres : s.procs.fork c regs new pagemap fdList with
    | error e =>
        rw [hres] at hfork
        cases hfork
    | ok r =>
        rw [hres] at hfork
        cases hfork
        rfl
  refine ⟨?_, (ProcessState.fork_cases hforked).1⟩
  unfold ProcessState.fork at hforked
  split at hforked
  · cases hforked
  · simp only [bind_eq_ok] at hforked
    obtain ⟨_, _, hforked⟩ := hforked
    split at hforked
    · cases hforked
      rfl
    · rename_i tid htid
      have hpid : s.procs.getNewPid.1 = none := by
        by_contra hpid
        refine hids ⟨hpid, ?_⟩
        intro hnone
        rw [ProcessState.getNewTid] at htid
        dsimp only [ProcessState.getNewPid] at htid
        rw [hnone] at htid
        cases htid
      cases hforked
      simp only [hpid]
      rfl

end KernelState

variable {s s' : KernelState κ} {c : κ} {new : NewObjects} {rip cs : UInt64}
  {pagemap dir kernelPml4 : Nat} {vm p copy : Vmm} {regs : Context} {heap : Arrays MemArea}
  {fdList : List Nat} {rax : UInt64}

/-- A `create_process` that returns null leaves no trace exactly when there was nothing for
it to take; a `fork` without an id always leaves one. -/
theorem failed_creation_traceless_iff (s : KernelState κ) (c : κ) (new : NewObjects)
    (rip cs : UInt64) (pagemap : Nat) (vm : Vmm) (dir kernelPml4 : Nat) (regs : Context)
    (heap : Arrays MemArea) (fdList : List Nat) :
    ((s.createProcess new rip cs pagemap vm dir).1 = none →
      (s.NoTrace (s.createProcess new rip cs pagemap vm dir).2.1 ↔ s.Exhausted vm cs)) ∧
    (¬s.IdsLeft → ∀ rax copy s',
      s.fork kernelPml4 c regs new pagemap vm heap fdList = some (rax, copy, s') →
        rax = 0 - 1 ∧ ¬s.NoTrace s') := by
  refine ⟨KernelState.noTrace_iff, ?_⟩
  intro hids rax copy s' hret
  obtain ⟨hrax, hlist⟩ := KernelState.fork_of_not_idsLeft hids hret
  refine ⟨hrax, ?_⟩
  intro hsame
  have hlen := congrArg List.length (hlist.symm.trans hsame.list)
  simp at hlen

/-- Process 1 runs, and ids are left as given. -/
def oneProgram (pids tids : Bitmap) (pmm : Pmm) : KernelState Unit :=
  { procs :=
      { sched :=
          { threads := fun _ => none
            procs := fun p => if p = 1 then some ⟨0, .running, 0, [], [], 0⟩ else none
            waitingQueue := []
            core := fun _ => ⟨some 1, none, 0, 0⟩ }
        processList := [1]
        pidBitmap := pids
        tidBitmap := tids }
    machine := ⟨fun _ => 0, pmm⟩ }

/-- Without ids and frames `create_process` has nothing to take, and `fork` lists its
child. -/
theorem failed_creation_traceless_iff_full :
    let s := oneProgram (fun _ => 0xff) (fun _ => 0xff) noPages
    s.NoTrace (s.createProcess ⟨2, 3, 0, 4, 5, 6⟩ 0 0x1b 7 newPagemap 0).2.1 ∧
    ∃ rax copy s', s.fork 0x1000 () default ⟨2, 3, 0, 4, 5, 6⟩ 7 newPagemap [] [] =
      some (rax, copy, s') ∧ rax = 0 - 1 ∧ ¬s.NoTrace s' := by
  intro s
  have hnone : ¬s.IdsLeft := fun h => h.1 (by decide)
  have hiff := failed_creation_traceless_iff s () ⟨2, 3, 0, 4, 5, 6⟩ 0 0x1b 7 newPagemap 0 0x1000
    default [] []
  have hnull : (s.createProcess ⟨2, 3, 0, 4, 5, 6⟩ 0 0x1b 7 newPagemap 0).1 = none :=
    KernelState.createProcess_of_not_idsLeft hnone _ _ _ _ _ _
  refine ⟨(hiff.1 hnull).mpr ⟨by decide, by decide, by decide, .inr (.inl (by decide))⟩, ?_⟩
  have hfork : (s.fork 0x1000 () default ⟨2, 3, 0, 4, 5, 6⟩ 7 newPagemap [] []).isSome := by
    decide +kernel
  obtain ⟨⟨rax, copy, s'⟩, hret⟩ := Option.isSome_iff_exists.mp hfork
  exact ⟨rax, copy, s', hret, hiff.2 hnone rax copy s' hret⟩

/-- With a pid left and no tid, `create_process` returns null and keeps the pid. -/
theorem failed_creation_keeps_pid :
    let s := oneProgram (fun _ => 0) (fun _ => 0xff) sixtyFourPages
    let r := s.createProcess ⟨2, 3, 0, 4, 5, 6⟩ 0 0x1b 7 newPagemap 0
    r.1 = none ∧ s.procs.pidBitmap.isBitSet 0 = false ∧
      r.2.1.procs.pidBitmap.isBitSet 0 = true ∧ ¬s.NoTrace r.2.1 := by
  intro s r
  have hnone : ¬s.IdsLeft := fun h => h.2 (by decide)
  have hnull : r.1 = none := KernelState.createProcess_of_not_idsLeft hnone _ _ _ _ _ _
  have hset : r.2.1.procs.pidBitmap.isBitSet 0 = true := by
    rw [(KernelState.createProcess_null hnull).2]
    decide
  refine ⟨hnull, by decide, hset, ?_⟩
  intro h
  rw [h.pids] at hset
  revert hset
  decide

end Toystar.Loader

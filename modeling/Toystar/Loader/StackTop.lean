import Toystar.Loader.Contents
import Toystar.Loader.Validity
import Toystar.Memory.VmmFrames

/-!
# Where stack pointers start

A stack grows down, so a stack pointer starts at the end of the area allocated for the
stack, as its user addresses it.  `create_process` maps the area of a user thread at
`USER_STACK` and gives it the end of that range.  A kernel thread gets the address of the
area in the direct map, which is its start, and `bootstrap_cores` does the same for the
stacks of the cores.
-/

namespace Toystar.Loader

open Toystar.Fs
open Toystar.Kernel
open Toystar.Klibc
open Toystar.Memory
open Toystar.Scheduler
open Toystar.Verified

/-! ## The property -/

/-- The bytes below the stack pointer are those of the area, which was allocated. -/
structure StackAtTop (see : Nat → Option Nat) (area size rsp : Nat) : Prop where
  allocated : area ≠ 0
  below : ∀ o < size, see (rsp - size + o) = some (area + o)

/-- The physical address at an address of the direct map. -/
def directAccess (virt : Nat) : Option Nat :=
  if directMap 0 ≤ virt then some (virt - directMap 0) else none

/-- What a thread with a code selector addresses: its pagemap, or the direct map. -/
def threadAccess (cs : UInt64) (mem : ByteMem) (vm : Vmm) (virt : Nat) : Option Nat :=
  if cs &&& 0x3 ≠ 0 then Vmm.access mem vm.pml4 virt else directAccess virt

theorem threadAccess_kernel {cs : UInt64} (hcs : cs &&& 0x3 = 0) (mem : ByteMem) (vm : Vmm) :
    threadAccess cs mem vm = directAccess := by
  funext virt
  exact if_neg (not_not.mpr hcs)

/-- The start of an area in the direct map is not its end. -/
theorem not_stackAtTop_direct {area size rsp : Nat} (hsize : 0 < size)
    (hrsp : rsp ≤ directMap area) : ¬StackAtTop directAccess area size rsp := by
  intro h
  have hfirst := h.below 0 hsize
  unfold directAccess at hfirst
  split at hfirst
  · rename_i hlow
    have harea := Option.some.inj hfirst
    unfold directMap at *
    omega
  · cases hfirst

/-! ## The cores -/

/-- The fields that `bootstrap_cores` sets. -/
inductive StackField
  | rsp0
  | ist1
  | targetStack
deriving DecidableEq

/-- A stack of a core: the field, its value, and the area allocated for it. -/
structure CoreStack where
  lapicId : Nat
  field : StackField
  pointer : Nat
  area : Nat
deriving DecidableEq

/-- `PMM::alloc(4) + PHYSICAL_BASE_ADDRESS`. -/
def allocCoreStack (lapicId : Nat) (field : StackField) (k : Machine Pmm) :
    CoreStack × Machine Pmm :=
  let stack := k.pmm.alloc k.mem 4
  (⟨lapicId, field, directMap stack.1 % 2 ^ 64, stack.1⟩, ⟨stack.2.2, stack.2.1⟩)

/-- The loop of `bootstrap_cores` over the `lapic_id`s of the cores. -/
def bootstrapCores (bspLapicId : Nat) : List Nat → Machine Pmm → List CoreStack
  | [], _ => []
  | id :: ids, k =>
      if id = bspLapicId then
        let rsp0 := allocCoreStack id .rsp0 k
        let ist1 := allocCoreStack id .ist1 rsp0.2
        rsp0.1 :: ist1.1 :: bootstrapCores bspLapicId ids ist1.2
      else
        let target := allocCoreStack id .targetStack k
        target.1 :: bootstrapCores bspLapicId ids target.2

/-- The core that boots gets the TSS of `bootstrapTss`. -/
theorem bootstrapTss_eq (id : Nat) (k : Machine Pmm) :
    let rsp0 := allocCoreStack id .rsp0 k
    (bootstrapTss k.pmm k.mem).rsp0 % 2 ^ 64 = rsp0.1.pointer ∧
      (bootstrapTss k.pmm k.mem).ist1 % 2 ^ 64 =
        (allocCoreStack id .ist1 rsp0.2).1.pointer :=
  ⟨rfl, rfl⟩

/-- Every one of them is set to the start of its area. -/
theorem pointer_bootstrapCores {bspLapicId : Nat} {ids : List Nat} {k : Machine Pmm}
    {stack : CoreStack} (h : stack ∈ bootstrapCores bspLapicId ids k) :
    stack.pointer = directMap stack.area % 2 ^ 64 := by
  induction ids generalizing k with
  | nil => cases h
  | cons id ids ih =>
      rw [bootstrapCores] at h
      split at h
      · rw [List.mem_cons, List.mem_cons] at h
        rcases h with rfl | rfl | h
        · rfl
        · rfl
        · exact ih h
      · rw [List.mem_cons] at h
        rcases h with rfl | h
        · rfl
        · exact ih h

/-! ## The thread of a process -/

section User

variable {k k' : Machine Pmm} {vm vm' : Vmm} {tab : List Nat → Option Nat} {cs : UInt64}
  {area : Nat}

/-- The pages of a user stack show the area. -/
theorem allocStack_access (htree : PageTree k.mem vm tab) (hpmm : k.pmm.Avoids vm.tables)
    (hcs : cs &&& 0x3 ≠ 0) (hret : allocStack k vm cs = (area, k', vm'))
    (harea : area ≠ 0) (hserved : 0 ∉ vm'.pageTablesAddr) {o : Nat}
    (ho : o < USER_STACK_SIZE) :
    Vmm.access k'.mem vm'.pml4 (USER_STACK + o) = some (area + o) := by
  have hsize : USER_STACK_SIZE = 8 * PAGE_SIZE := by decide
  have hpages : USER_STACK_SIZE / PAGE_SIZE = 8 := by decide
  have hsound : Image.Sound ⟨k, vm, []⟩ tab := ⟨htree, hpmm, fun _ h => by cases h⟩
  unfold allocStack at hret
  dsimp only at hret
  rw [if_pos hcs, Prod.mk.injEq] at hret
  obtain ⟨rfl, hmap⟩ := hret
  obtain ⟨page, pmm, mem, halloc, _, hin, hfree, hkept⟩ := hsound.alloc harea
  dsimp only at halloc
  rw [halloc] at hmap ⊢
  dsimp only at hmap ⊢
  have hs := hkept mem fun _ _ => rfl
  rw [hsize] at hmap
  rw [hpages] at hin
  have hframe : (page + 8) * PAGE_SIZE ≤ 2 ^ 47 :=
    (Nat.mul_le_mul_right _ hin).trans hpmm.reach
  rcases hs.mapRange (show USER_STACK + (8 + 1) * PAGE_SIZE ≤ 2 ^ 47 by decide)
      (page * PAGE_SIZE) 0b111 0 with
    ⟨k₁, vm₁, tab₁, hmap₁, hsound₁, hset⟩ | hnull
  · dsimp only at hmap₁
    rw [hmap, Prod.mk.injEq] at hmap₁
    obtain ⟨rfl, rfl⟩ := hmap₁
    exact access_stack hsound₁.tree hset hframe (by omega)
  · dsimp only at hnull
    rw [hmap] at hnull
    exact absurd hnull hserved

end User

variable {κ : Type} {s s' : KernelState κ} {new : NewObjects} {rip cs : UInt64}
  {pagemap dir p : Nat} {vm vm' : Vmm} {th : Thread} {tab : List Nat → Option Nat}

namespace KernelState

/-- A process that is made has the thread that was asked for. -/
theorem regs_of_createProcess
    (hret : s.createProcess new rip cs pagemap vm dir = (some p, s', vm'))
    (hth : s'.procs.sched.threads new.thread = some th) :
    s'.machine = (allocStack s.machine vm cs).2.1 ∧ vm' = (allocStack s.machine vm cs).2.2 ∧
      th.regs = initialRegs rip cs (allocStack s.machine vm cs).1 := by
  by_cases hids : s.IdsLeft
  · obtain ⟨procs, th', hmade, _, hth', hregs⟩ :=
      createProcess_of_idsLeft hids new rip cs pagemap vm dir
    have hsame := hmade.symm.trans hret
    rw [Prod.mk.injEq, Prod.mk.injEq] at hsame
    obtain ⟨_, rfl, rfl⟩ := hsame
    rw [hth, Option.some.injEq] at hth'
    rw [hth']
    exact ⟨rfl, rfl, hregs⟩
  · have hnone := createProcess_of_not_idsLeft hids new rip cs pagemap vm dir
    have hsome := congrArg Prod.fst hret
    rw [hnone] at hsome
    cases hsome

end KernelState

/-- A thread starts at the top of its stack exactly when it is a user thread that got one;
a core never does.  For a user thread, its pagemap is a tree of frames in use, and gets the
tables it needs. -/
theorem stack_at_top_iff
    (hret : s.createProcess new rip cs pagemap vm dir = (some p, s', vm'))
    (hth : s'.procs.sched.threads new.thread = some th)
    (htree : cs &&& 0x3 ≠ 0 → PageTree s.machine.mem vm tab)
    (hpmm : cs &&& 0x3 ≠ 0 → s.machine.pmm.Avoids vm.tables)
    (hserved : cs &&& 0x3 ≠ 0 → 0 ∉ vm'.pageTablesAddr)
    (bspLapicId : Nat) (ids : List Nat) (k : Machine Pmm) :
    (StackAtTop (threadAccess cs s'.machine.mem vm') (allocStack s.machine vm cs).1
        USER_STACK_SIZE th.regs.rsp.toNat ↔
      cs &&& 0x3 ≠ 0 ∧ s.machine.pmm.refuses (USER_STACK_SIZE / PAGE_SIZE) = false) ∧
    ∀ stack ∈ bootstrapCores bspLapicId ids k,
      ¬StackAtTop directAccess stack.area (4 * PAGE_SIZE) stack.pointer := by
  obtain ⟨hmachine, hvm, hregs⟩ := KernelState.regs_of_createProcess hret hth
  obtain ⟨⟨area, k', vm₁⟩, hstack⟩ : ∃ r, allocStack s.machine vm cs = r := ⟨_, rfl⟩
  rw [hstack] at hmachine hvm hregs ⊢
  dsimp only at hmachine hvm hregs ⊢
  subst hmachine hvm
  have hfirst : (s.machine.pmm.alloc s.machine.mem (USER_STACK_SIZE / PAGE_SIZE)).1 = area := by
    rw [← allocStack_fst s.machine vm cs, hstack]
  constructor
  · constructor
    · intro htop
      have hcs : cs &&& 0x3 ≠ 0 := by
        intro hcs
        rw [threadAccess_kernel hcs] at htop
        refine not_stackAtTop_direct (by decide) ?_ htop
        rw [hregs, rsp_initialRegs_kernel hcs]
        exact Nat.mod_le _ _
      refine ⟨hcs, ?_⟩
      by_contra hrefused
      rw [Bool.not_eq_false] at hrefused
      rw [Pmm.alloc_of_refuses hrefused] at hfirst
      exact htop.allocated hfirst.symm
    · rintro ⟨hcs, hfree⟩
      have harea : area ≠ 0 := by
        obtain ⟨page, hcount, _, hrange, halloc⟩ :=
          Pmm.alloc_of_not_refuses hfree s.machine.mem
        rw [halloc] at hfirst
        rintro rfl
        have hpage : page = 0 := by
          rcases Nat.mul_eq_zero.mp hfirst with hpage | hsize
          · exact hpage
          · cases hsize
        have hbit := hrange 0 (by omega) (by omega)
        rw [(hpmm hcs).zero] at hbit
        cases hbit
      refine ⟨harea, ?_⟩
      intro o ho
      have hrsp : th.regs.rsp.toNat = USER_STACK + USER_STACK_SIZE := by
        rw [hregs, rsp_initialRegs_user hcs]
        rfl
      rw [hrsp, Nat.add_sub_cancel, threadAccess, if_pos hcs]
      exact allocStack_access (htree hcs) (hpmm hcs) hcs hstack harea (hserved hcs) ho
  · intro stack hmem
    refine not_stackAtTop_direct (by decide) ?_
    rw [pointer_bootstrapCores hmem]
    exact Nat.mod_le _ _

/-- A user process with a new pagemap, and the stacks of two cores. -/
theorem stack_at_top_iff_user : ∃ s' vm' th,
    noPrograms.createProcess ⟨1, 2, 0, 3, 4, 5⟩ 0x400000 0x1b 6 newPagemap 0 =
      (some 1, s', vm') ∧ s'.procs.sched.threads 2 = some th ∧
    StackAtTop (threadAccess 0x1b s'.machine.mem vm') 0x2000 USER_STACK_SIZE
      th.regs.rsp.toNat ∧
    ∀ stack ∈ bootstrapCores 0 [0, 1] zeroedMachine,
      ¬StackAtTop directAccess stack.area (4 * PAGE_SIZE) stack.pointer := by
  have hids : noPrograms.IdsLeft := by
    constructor <;> decide
  obtain ⟨procs, th, hret, _, hth, _⟩ := KernelState.createProcess_of_idsLeft hids
    ⟨1, 2, 0, 3, 4, 5⟩ 0x400000 0x1b 6 newPagemap 0
  have hserved : 0 ∉ (allocStack noPrograms.machine newPagemap 0x1b).2.2.pageTablesAddr := by
    decide +kernel
  have harea : (allocStack noPrograms.machine newPagemap 0x1b).1 = 0x2000 := by
    decide +kernel
  have hfree : noPrograms.machine.pmm.refuses (USER_STACK_SIZE / PAGE_SIZE) = false := by
    decide
  have htree : PageTree noPrograms.machine.mem newPagemap _ := mappable_newPagemap.tree
  have hpmm : noPrograms.machine.pmm.Avoids newPagemap.tables := avoids_newPagemap
  obtain ⟨hthread, hcores⟩ := stack_at_top_iff hret hth (fun _ => htree) (fun _ => hpmm)
    (fun _ => hserved) 0 [0, 1] zeroedMachine
  have htop := hthread.mpr ⟨by decide, hfree⟩
  rw [harea] at htop
  exact ⟨_, _, th, hret, hth, htop, hcores⟩

/-- A kernel thread starts at the bottom, and so do a handler on either stack of the first
core and the second core. -/
theorem stacks_at_bottom :
    (∃ s' vm' th, noPrograms.createProcess ⟨1, 2, 0, 3, 4, 5⟩ 0x400000 0x08 6 newPagemap 0 =
        (some 1, s', vm') ∧ s'.procs.sched.threads 2 = some th ∧
      th.regs.rsp.toNat = directMap 0x2000 ∧
      ¬StackAtTop (threadAccess 0x08 s'.machine.mem vm') 0x2000 USER_STACK_SIZE
        th.regs.rsp.toNat) ∧
    bootstrapCores 0 [0, 1] zeroedMachine =
      [⟨0, .rsp0, directMap 0x2000, 0x2000⟩, ⟨0, .ist1, directMap 0x6000, 0x6000⟩,
        ⟨1, .targetStack, directMap 0xa000, 0xa000⟩] := by
  have hids : noPrograms.IdsLeft := by
    constructor <;> decide
  obtain ⟨procs, th, hret, _, hth, hregs⟩ := KernelState.createProcess_of_idsLeft hids
    ⟨1, 2, 0, 3, 4, 5⟩ 0x400000 0x08 6 newPagemap 0
  have harea : (allocStack noPrograms.machine newPagemap 0x08).1 = 0x2000 := by
    decide +kernel
  have hrsp : th.regs.rsp.toNat = directMap 0x2000 := by
    rw [hregs, harea, rsp_initialRegs_kernel (by decide)]
    decide
  refine ⟨⟨_, _, th, hret, hth, hrsp, ?_⟩, by decide +kernel⟩
  intro htop
  rw [threadAccess_kernel (by decide), hrsp] at htop
  exact not_stackAtTop_direct (by decide) (le_refl _) htop

end Toystar.Loader

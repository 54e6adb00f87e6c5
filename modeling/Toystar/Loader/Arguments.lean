import Toystar.Loader.Validity

/-!
# The arguments on the stack

A program should find `argc` at its stack pointer, `argv[0]` to `argv[argc - 1]` and a null
above it, and above these the top of the stack.  `create_program` pushes `argv[argc]` down
to `argv[1]` and then `argc`: one word too few, so that the null ends right under the top
and `argv[0]` is nowhere.
-/

namespace Toystar.Loader

open Toystar.Fs
open Toystar.Kernel
open Toystar.Klibc
open Toystar.Memory
open Toystar.Scheduler
open Toystar.Verified

/-! ## What is pushed -/

section Push

variable {mem : ByteMem} {rsp x : Nat} {words : List Nat}

/-- A push writes below the pointer. -/
theorem pushWords_above (hfits : 8 * words.length ≤ rsp) (hx : rsp ≤ x) :
    pushWords mem rsp words x = mem x := by
  induction words generalizing mem rsp with
  | nil => rfl
  | cons w words ih =>
      rw [List.length_cons] at hfits
      rw [pushWords, ih (by omega) (by omega)]
      exact ByteMem.write64_of_not_mem mem (by omega)

/-- The words stand below the old pointer, the first one on top. -/
theorem read64_pushWords (hfits : 8 * words.length ≤ rsp) {i : Nat} (hi : i < words.length) :
    (pushWords mem rsp words).read64 (rsp - 8 * (i + 1)) = words[i] % 2 ^ 64 := by
  induction words generalizing mem rsp i with
  | nil => cases hi
  | cons w words ih =>
      rw [List.length_cons] at hfits hi
      rw [pushWords]
      cases i with
      | zero =>
          rw [List.getElem_cons_zero, ← ByteMem.read64_write64_self mem (rsp - 8) w]
          exact ByteMem.read64_congr fun x hlo _ => pushWords_above (by omega) (by omega)
      | succ i =>
          have hnext : (pushWords (mem.write64 (rsp - 8) w) (rsp - 8) words).read64
              (rsp - 8 - 8 * (i + 1)) = words[i] % 2 ^ 64 :=
            ih (by omega) (by omega)
          rw [List.getElem_cons_succ, ← hnext, show rsp - 8 * (i + 1 + 1) =
            rsp - 8 - 8 * (i + 1) by omega]

theorem length_argumentWords (argv : List Nat) :
    (argumentWords argv).length = argv.length + 1 := by
  simp [argumentWords]

/-- From the new stack pointer up: `argc`, `argv[1]` to `argv[argc - 1]`, and a null if there
was an argument. -/
theorem reverse_argumentWords (argv : List Nat) :
    (argumentWords argv).reverse = argv.length :: (argv ++ [0]).drop 1 := by
  simp [argumentWords]

end Push

/-! ## What is to be there -/

/-- The word that the process finds at an address. -/
def wordAt (mem : ByteMem) (vm : Vmm) (virt : Nat) : Option Nat :=
  (Vmm.access mem vm.pml4 virt).map mem.read64

/-- `argc`, the arguments and a null from the stack pointer up to the top. -/
structure ArgumentsAt (mem : ByteMem) (vm : Vmm) (rsp top : Nat) (argv : List Nat) :
    Prop where
  argc : wordAt mem vm rsp = some argv.length
  args : ∀ i (hi : i < argv.length), wordAt mem vm (rsp + 8 * (i + 1)) = some argv[i]
  null : wordAt mem vm (rsp + 8 * (argv.length + 1)) = some 0
  top : rsp + 8 * (argv.length + 2) = top

variable {κ : Type}

namespace KernelState

variable {s s' : KernelState κ} {low : ByteMem} {kernelPml4 pagemap p : Nat}
  {new : NewObjects} {fd : Option OpenedFile} {argv : List Nat} {vm : Vmm} {th : Thread}

/-- A program with arguments: the words go below the alias of the top, and the stack
pointer goes down with them. -/
theorem createProgram_pushed
    (hret : s.createProgram low kernelPml4 new pagemap fd (some argv) =
      .ok (some (p, vm), s')) :
    ∃ k vm₀ th old, Vmm.virtualToPhysical Vmm.allocFrame k vm₀
        (USER_STACK + USER_STACK_SIZE) = old ∧ vm = old.2.2 ∧
      s'.machine = { old.2.1 with mem := pushWords old.2.1.mem old.1 (argumentWords argv) } ∧
      s'.procs.sched.threads new.thread = some th ∧
      th.regs.rsp = UInt64.ofNat (USER_STACK + USER_STACK_SIZE) -
        UInt64.ofNat (8 * (argv.length + 1)) := by
  cases fd with
  | none => cases hret
  | some file =>
      by_cases hids : s.IdsLeft
      · obtain ⟨l, hl⟩ : ∃ l, load low file.read (s.newImage kernelPml4) = l := ⟨_, rfl⟩
        have hids' : IdsLeft { s with machine := l.2.machine } := hids
        obtain ⟨procs, th, hmade, _, hth, hregs⟩ :=
          createProcess_of_idsLeft hids' new (ripOf l.1) 0x1b pagemap l.2.pagemap file.parent
        have hthread : procs.sched.thread new.thread = .ok th := Sched.thread_of_some hth
        have hrsp : th.regs.rsp = UInt64.ofNat (USER_STACK + USER_STACK_SIZE) := by
          rw [hregs]
          exact rsp_initialRegs_user (by decide) _ _
        have htop : th.regs.rsp.toNat = USER_STACK + USER_STACK_SIZE := by
          rw [hrsp]
          rfl
        unfold createProgram at hret
        simp only [hl, hmade, hthread, ok_bind, htop] at hret
        cases hret
        refine ⟨_, _, _, _, rfl, rfl, rfl, update_eq_some.mpr (.inl ⟨rfl, rfl⟩), ?_⟩
        rw [hrsp, length_argumentWords]
      · rw [createProgram_of_not_idsLeft file hids] at hret
        cases hret

/-- What stands below the alias of the top, from the lowest word up. -/
theorem createProgram_words
    (hret : s.createProgram low kernelPml4 new pagemap fd (some argv) =
      .ok (some (p, vm), s')) :
    ∃ k vm₀ old, Vmm.virtualToPhysical Vmm.allocFrame k vm₀ (USER_STACK + USER_STACK_SIZE) =
        old ∧ (8 * (argv.length + 1) ≤ old.1 →
      ∀ i (hi : i < (argv.length :: (argv ++ [0]).drop 1).length),
        s'.machine.mem.read64 (old.1 - 8 * (argv.length + 1) + 8 * i) =
          (argv.length :: (argv ++ [0]).drop 1)[i] % 2 ^ 64) := by
  obtain ⟨k, vm₀, _, old, hold, _, hmachine, _⟩ := createProgram_pushed hret
  refine ⟨k, vm₀, old, hold, ?_⟩
  intro hfits i hi
  have hlen : (argv.length :: (argv ++ [0]).drop 1).length = argv.length + 1 := by
    simp
  have hwordlen := length_argumentWords argv
  have hwords : (pushWords old.2.1.mem old.1 (argumentWords argv)).read64
      (old.1 - 8 * (argv.length - i + 1)) = (argumentWords argv)[argv.length - i] % 2 ^ 64 :=
    read64_pushWords (by omega) (by omega)
  rw [hmachine]
  dsimp only
  rw [show old.1 - 8 * (argv.length + 1) + 8 * i = old.1 - 8 * (argv.length - i + 1) by omega,
    hwords]
  congr 1
  simp only [← reverse_argumentWords]
  rw [List.getElem_reverse]
  congr 1
  rw [length_argumentWords]
  omega

end KernelState

variable {s s' : KernelState κ} {low : ByteMem} {kernelPml4 pagemap p : Nat}
  {new : NewObjects} {fd : Option OpenedFile} {argv : List Nat} {vm : Vmm} {th : Thread}

/-- The arguments are never on the stack of a program as it is to find them: there is no
room for them between its stack pointer and the top. -/
theorem arguments_never_at
    (hret : s.createProgram low kernelPml4 new pagemap fd (some argv) =
      .ok (some (p, vm), s'))
    (hth : s'.procs.sched.threads new.thread = some th)
    (hfits : 8 * (argv.length + 2) ≤ USER_STACK_SIZE) :
    ¬ArgumentsAt s'.machine.mem vm th.regs.rsp.toNat (USER_STACK + USER_STACK_SIZE) argv := by
  intro h
  have htop := h.top
  obtain ⟨_, _, th', _, _, _, _, hth', hrsp⟩ := KernelState.createProgram_pushed hret
  rw [hth] at hth'
  cases hth'
  have hdown : th.regs.rsp.toNat = USER_STACK + USER_STACK_SIZE - 8 * (argv.length + 1) := by
    rw [hrsp, UInt64.toNat_sub, UInt64.toNat_ofNat', UInt64.toNat_ofNat']
    unfold USER_STACK USER_STACK_SIZE at *
    omega
  rw [hdown] at htop
  unfold USER_STACK USER_STACK_SIZE at *
  omega

/-- The stack pointer of a new program whose thread is 2, and the two words it finds
there. -/
def firstWords (r : Except Fault (Option (Nat × Vmm) × KernelState Unit)) :
    Option (Nat × Option Nat × Option Nat) :=
  match r with
  | .ok (some (_, vm), s') =>
      (s'.procs.sched.threads 2).map fun th =>
        let rsp := th.regs.rsp.toNat
        (rsp, wordAt s'.machine.mem vm rsp, wordAt s'.machine.mem vm (rsp + 8))
  | _ => none

/-- `create_program` of a file without contents, with arguments. -/
def programWith (argv : List Nat) : Except Fault (Option (Nat × Vmm) × KernelState Unit) :=
  noPrograms.createProgram (fun _ => 0) 0x1000 ⟨1, 2, 0, 3, 4, 5⟩ 6
    (some ⟨fun _ _ => none, 0⟩) (some argv)

theorem exists_programWith {argv : List Nat} {x : Nat × Option Nat × Option Nat}
    (h : firstWords (programWith argv) = some x) :
    ∃ p vm s' th, programWith argv = .ok (some (p, vm), s') ∧
      s'.procs.sched.threads 2 = some th ∧ th.regs.rsp.toNat = x.1 ∧
      wordAt s'.machine.mem vm th.regs.rsp.toNat = x.2.1 ∧
      wordAt s'.machine.mem vm (th.regs.rsp.toNat + 8) = x.2.2 := by
  unfold firstWords at h
  split at h
  · rename_i p vm s' hret
    obtain ⟨th, hth, rfl⟩ := Option.map_eq_some_iff.mp h
    exact ⟨p, vm, s', th, hret, hth, rfl, rfl, rfl⟩
  · cases h

/-- Two arguments, which are not there. -/
theorem arguments_never_at_two : ∃ p vm s' th, programWith [100, 200] =
      .ok (some (p, vm), s') ∧ s'.procs.sched.threads 2 = some th ∧
    ¬ArgumentsAt s'.machine.mem vm th.regs.rsp.toNat (USER_STACK + USER_STACK_SIZE)
      [100, 200] := by
  have hwords : firstWords (programWith [100, 200]) =
      some (0x800007fe8, some 2, some 200) := by
    decide +kernel
  obtain ⟨p, vm, s', th, hret, hth, _⟩ := exists_programWith hwords
  exact ⟨p, vm, s', th, hret, hth, arguments_never_at hret hth (by decide)⟩

/-- Of one argument the stack has the number, and then the null. -/
theorem one_argument_missing : ∃ p vm s' th, programWith [100] = .ok (some (p, vm), s') ∧
    s'.procs.sched.threads 2 = some th ∧
    wordAt s'.machine.mem vm th.regs.rsp.toNat = some 1 ∧
    wordAt s'.machine.mem vm (th.regs.rsp.toNat + 8) = some 0 ∧
    ¬ArgumentsAt s'.machine.mem vm th.regs.rsp.toNat (USER_STACK + USER_STACK_SIZE) [100] := by
  have hwords : firstWords (programWith [100]) = some (0x800007ff0, some 1, some 0) := by
    decide +kernel
  obtain ⟨p, vm, s', th, hret, hth, _, hfirst, hsecond⟩ := exists_programWith hwords
  refine ⟨p, vm, s', th, hret, hth, hfirst, hsecond, ?_⟩
  intro h
  have harg := h.args 0 (by decide)
  rw [show th.regs.rsp.toNat + 8 * (0 + 1) = th.regs.rsp.toNat + 8 by omega, hsecond] at harg
  cases harg

end Toystar.Loader

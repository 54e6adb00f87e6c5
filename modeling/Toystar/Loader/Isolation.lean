import Toystar.Loader.Image

/-!
# The memory of processes

Runs of `create_program`, `syscall_fork` and `exit_process` on one machine, with what
each process can reach through its pagemap.  `create_program` is two events, because the
process is in `process_list` before its arguments are pushed.  The stack that every
program gets is mapped with a ninth page, whose frame belongs to something else, so no
state right after the first of them is isolated.
-/

namespace Toystar.Loader

open Toystar.Klibc
open Toystar.Memory
open Toystar.Scheduler (USER_STACK USER_STACK_SIZE)
open Toystar.Verified

/-! ## Processes -/

/-- The memory of a process.  `areas` are the allocations made for it, address and number
of pages, which the code does not keep; `starting` until its arguments are pushed. -/
structure Process where
  pagemap : Vmm
  areas : List (Nat × Nat)
  starting : Bool

/-- The machine and the live processes.  `arrays` are the arrays of the kernel's
vectors. -/
structure System where
  machine : Machine Pmm
  kernelPml4 : Nat
  arrays : Arrays MemArea
  processes : List Process

/-- The frame is mapped in the user half of the process. -/
def Process.Maps (p : Process) (mem : ByteMem) (frame : Nat) : Prop :=
  ∃ virt, PAGE_SIZE ∣ virt ∧ UserAddr virt ∧
    Vmm.access mem p.pagemap.pml4 virt = some frame

/-- The frame lies in an allocation made for the process. -/
def Process.Owns (p : Process) (frame : Nat) : Prop :=
  ∃ area ∈ p.areas, area.1 ≤ frame ∧ frame < area.1 + area.2 * PAGE_SIZE

instance (p : Process) (frame : Nat) : Decidable (p.Owns frame) :=
  inferInstanceAs (Decidable (∃ area ∈ p.areas, _))

/-- Processes reach their own memory only. -/
structure System.Isolated (s : System) : Prop where
  owned : ∀ p ∈ s.processes, ∀ frame, p.Maps s.machine.mem frame → p.Owns frame
  apart : s.processes.Pairwise fun p q =>
    ∀ frame, ¬(p.Maps s.machine.mem frame ∧ q.Maps s.machine.mem frame)

/-! ## Steps -/

inductive Event
  | createProcess (low : ByteMem) (read : ReadFile)
  | pushArguments (i : Nat) (argv : Option (List Nat))
  | fork (i : Nat)
  | exit (i : Nat)

/-- The pages `duplicate` took for the copy, its tables apart. -/
def copiedPages (old new : Pmm) (vm : Vmm) : List (Nat × Nat) :=
  ((List.range old.pages).filter fun i =>
    !old.bitmap.isBitSet i && new.bitmap.isBitSet i && i * PAGE_SIZE != vm.pml4 &&
      !vm.pageTablesAddr.contains (i * PAGE_SIZE)).map fun i => (i * PAGE_SIZE, 1)

namespace System

variable (s : System)

/-- `create_program` until the process is in `process_list`, of a file that the loader
accepts and with every request served. -/
def createProcess (low : ByteMem) (read : ReadFile) : Option System :=
  let r := Loader.createProcess low read s.machine s.kernelPml4
  if r.1.isSome ∧ Served s.machine r.2 then
    some { s with
      machine := r.2.machine
      processes := s.processes ++ [⟨r.2.pagemap, r.2.areas, true⟩] }
  else none

/-- The rest of `create_program`. -/
def pushArguments (i : Nat) (argv : Option (List Nat)) : Option System := do
  let p ← s.processes[i]?
  guard p.starting
  let r := Loader.pushArguments argv s.machine p.pagemap
  return { s with
    machine := r.1
    processes := s.processes.set i { p with pagemap := r.2, starting := false } }

/-- `syscall_fork`. -/
def fork (i : Nat) : Option System := do
  let p ← s.processes[i]?
  guard (!p.starting)
  let r ← Vmm.duplicate Vmm.allocFrame s.machine s.kernelPml4 p.pagemap s.arrays
  return { s with
    machine := r.1
    arrays := r.2.2
    processes := s.processes ++
      [⟨r.2.1, copiedPages s.machine.pmm r.1.pmm r.2.1, false⟩] }

/-- `exit_process`. -/
def exit (i : Nat) : Option System := do
  let p ← s.processes[i]?
  guard (!p.starting)
  return { s with
    machine := Vmm.destroy s.machine p.pagemap
    processes := s.processes.eraseIdx i }

/-- One event; whether the requests of `fork` and `exit` are served is left open. -/
def step : Event → Option System
  | .createProcess low read => s.createProcess low read
  | .pushArguments i argv => s.pushArguments i argv
  | .fork i => s.fork i
  | .exit i => s.exit i

/-- The step relation of the runs. -/
def Step (s : System) (e : Event) (t : System) : Prop := s.step e = some t

end System

/-! ## The size of memory -/

theorem pages_virtualToPhysical (k : Machine Pmm) (vm : Vmm) (virt : Nat) :
    (Vmm.virtualToPhysical Vmm.allocFrame k vm virt).2.1.pmm.pages = k.pmm.pages := by
  obtain ⟨⟨pt, k', vm'⟩, hwalk⟩ : ∃ r, Vmm.walk Vmm.allocFrame k vm virt = r := ⟨_, rfl⟩
  rw [Vmm.virtualToPhysical, hwalk]
  exact (Vmm.walk_gives hwalk).pages

theorem pmm_pushArguments {k : Machine Pmm} {vm : Vmm} {old : Nat × Machine Pmm × Vmm}
    (hold : Vmm.virtualToPhysical Vmm.allocFrame k vm (USER_STACK + USER_STACK_SIZE) = old)
    (argv : Option (List Nat)) : (pushArguments argv k vm).1.pmm = old.2.1.pmm := by
  unfold pushArguments
  rw [hold]

theorem pages_pushArguments (argv : Option (List Nat)) (k : Machine Pmm) (vm : Vmm) :
    (pushArguments argv k vm).1.pmm.pages = k.pmm.pages := by
  rw [pmm_pushArguments rfl argv]
  exact pages_virtualToPhysical k vm _

theorem pages_copyPage {p : Vmm} {src prot : Nat} {s t : Machine Pmm × Vmm}
    (h : Vmm.copyPage Vmm.allocFrame p src prot s = some t) :
    t.1.pmm.pages = s.1.pmm.pages := by
  rw [Vmm.copyPage, Option.bind_eq_bind, Option.bind_eq_some_iff] at h
  obtain ⟨mem, _, hmap⟩ := h
  rw [Option.pure_def, Option.some.injEq] at hmap
  have hgives := (Vmm.mapPage_gives hmap).pages
  exact hgives.trans (pages_alloc s.1.pmm s.1.mem 1)

theorem pages_copyPages {p : Vmm} {base prot n : Nat} {s t : Machine Pmm × Vmm}
    (h : Vmm.copyPages Vmm.allocFrame p base prot n s = some t) :
    t.1.pmm.pages = s.1.pmm.pages := by
  induction n generalizing t with
  | zero =>
      obtain rfl := Option.some.inj h
      rfl
  | succ n ih =>
      rw [Vmm.copyPages, Option.bind_eq_bind, Option.bind_eq_some_iff] at h
      obtain ⟨u, hrest, hlast⟩ := h
      exact (pages_copyPage hlast).trans (ih hrest)

theorem pages_copyRanges {p : Vmm} {mRanges : ToysVector} {ranges : List MemArea}
    {s t : (Machine Pmm × Vmm) × Arrays MemArea}
    (h : ranges.foldlM (Vmm.copyRange Vmm.allocFrame p mRanges) s = some t) :
    t.1.1.pmm.pages = s.1.1.pmm.pages := by
  induction ranges generalizing s with
  | nil =>
      obtain rfl := Option.some.inj h
      rfl
  | cons range ranges ih =>
      rw [List.foldlM_cons, Option.bind_eq_bind, Option.bind_eq_some_iff] at h
      obtain ⟨u, hfirst, hrest⟩ := h
      rw [Vmm.copyRange, Option.bind_eq_bind, Option.bind_eq_some_iff] at hfirst
      obtain ⟨new, hpages, hheap⟩ := hfirst
      rw [Option.bind_eq_bind, Option.bind_eq_some_iff] at hheap
      obtain ⟨heap, _, hu⟩ := hheap
      obtain rfl := Option.some.inj hu
      exact (ih hrest).trans (pages_copyPages hpages)

theorem pages_duplicate {k k' : Machine Pmm} {kernelPml4 : Nat} {p vm : Vmm}
    {heap heap' : Arrays MemArea}
    (h : Vmm.duplicate Vmm.allocFrame k kernelPml4 p heap = some (k', vm, heap')) :
    k'.pmm.pages = k.pmm.pages := by
  rw [Vmm.duplicate, Option.bind_eq_bind, Option.bind_eq_some_iff] at h
  obtain ⟨⟨⟨k₁, vm₁⟩, heap₁⟩, hranges, hret⟩ := h
  rw [Option.pure_def, Option.some.injEq, Prod.mk.injEq] at hret
  obtain ⟨rfl, _⟩ := hret
  exact (pages_copyRanges hranges).trans (pages_new k kernelPml4)

/-! ## What a step can do -/

section Steps

variable {s t : System} {e : Event}

/-- A new process, or something that takes a live one. -/
theorem System.step_cases (h : s.Step e t) :
    (∃ low read entry image, e = .createProcess low read ∧
      Loader.createProcess low read s.machine s.kernelPml4 = (some entry, image) ∧
      Served s.machine image ∧
      t = { s with
        machine := image.machine
        processes := s.processes ++ [⟨image.pagemap, image.areas, true⟩] }) ∨
    (∀ low read, e ≠ .createProcess low read) ∧ s.processes ≠ [] ∧
      t.machine.pmm.pages = s.machine.pmm.pages := by
  have hlive : ∀ {i : Nat} {p}, s.processes[i]? = some p → s.processes ≠ [] := by
    intro i p hp hnil
    rw [hnil] at hp
    cases hp
  cases e with
  | createProcess low read =>
      obtain ⟨⟨entry, image⟩, hret⟩ : ∃ r,
          Loader.createProcess low read s.machine s.kernelPml4 = r := ⟨_, rfl⟩
      simp only [System.Step, System.step, System.createProcess, hret] at h
      split at h
      next hok =>
        obtain ⟨entry, rfl⟩ := Option.isSome_iff_exists.mp hok.1
        exact .inl ⟨low, read, entry, image, rfl, hret, hok.2, (Option.some.inj h).symm⟩
      next => cases h
  | pushArguments i argv =>
      simp only [System.Step, System.step, System.pushArguments, Option.bind_eq_bind,
        Option.bind_eq_some_iff] at h
      obtain ⟨p, hp, _, _, ht⟩ := h
      obtain rfl := Option.some.inj ht
      exact .inr ⟨fun _ _ => by simp, hlive hp, pages_pushArguments _ _ _⟩
  | fork i =>
      simp only [System.Step, System.step, System.fork, Option.bind_eq_bind,
        Option.bind_eq_some_iff] at h
      obtain ⟨p, hp, _, _, ⟨k, vm, heap⟩, hdup, ht⟩ := h
      obtain rfl := Option.some.inj ht
      exact .inr ⟨fun _ _ => by simp, hlive hp, pages_duplicate hdup⟩
  | exit i =>
      simp only [System.Step, System.step, System.exit, Option.bind_eq_bind,
        Option.bind_eq_some_iff] at h
      obtain ⟨p, hp, _, _, ht⟩ := h
      obtain rfl := Option.some.inj ht
      exact .inr ⟨fun _ _ => by simp, hlive hp, (Vmm.destroy_gives _ _).1⟩

theorem System.pages_step (h : s.Step e t) :
    t.machine.pmm.pages = s.machine.pmm.pages := by
  rcases s.step_cases h with ⟨low, read, entry, image, _, hret, _, rfl⟩ | ⟨_, _, hpages⟩
  · exact pages_createProcess hret
  · exact hpages

/-- The frame behind the new stack is mapped and not owned. -/
theorem System.not_isolated_of_create (hreach : s.machine.pmm.pages * PAGE_SIZE ≤ 2 ^ 47)
    {low : ByteMem} {read : ReadFile} (hread : WellFormed read)
    (h : s.Step (.createProcess low read) t) : ¬t.Isolated := by
  intro hisolated
  rcases System.step_cases h with
    ⟨low', read', entry, image, hevent, hret, hserved, rfl⟩ | ⟨hother, _, _⟩
  · obtain ⟨rfl, rfl⟩ := Event.createProcess.inj hevent
    obtain ⟨i, haccess, hnot⟩ := createProcess_maps_behind hreach hread hret hserved
    have hlive : (⟨image.pagemap, image.areas, true⟩ : Process) ∈
        s.processes ++ [⟨image.pagemap, image.areas, true⟩] :=
      List.mem_append_right _ (List.mem_singleton_self _)
    have hmaps : Process.Maps ⟨image.pagemap, image.areas, true⟩ image.machine.mem
        (i * PAGE_SIZE) :=
      ⟨USER_STACK + USER_STACK_SIZE, by decide, by decide, haccess⟩
    obtain ⟨area, harea, hin⟩ := hisolated.owned _ hlive _ hmaps
    exact hnot area harea hin
  · exact absurd rfl (hother low read)

end Steps

/-! ## Runs -/

section Runs

variable {boot s t : System} {es : List Event}

theorem pages_run (h : Run System.Step s es t) :
    t.machine.pmm.pages = s.machine.pmm.pages := by
  induction h with
  | nil s => rfl
  | cons hstep _ ih => exact ih.trans (System.pages_step hstep)

/-- From a machine without processes the first event makes one. -/
theorem run_eq_nil (hnone : boot.processes = []) (h : Run System.Step boot es t)
    (hnew : ∀ low read, .createProcess low read ∉ es) : t = boot := by
  cases h with
  | nil _ => rfl
  | cons hstep _ =>
      exfalso
      rcases System.step_cases hstep with
        ⟨low, read, entry, image, rfl, _, _, _⟩ | ⟨_, hlive, _⟩
      · exact hnew low read List.mem_cons_self
      · exact hlive hnone

/-- Memory is isolated all along a run exactly when the run makes no process; it is not
right after any `create_program`. -/
theorem isolated_iff (hnone : boot.processes = [])
    (hreach : boot.machine.pmm.pages * PAGE_SIZE ≤ 2 ^ 47)
    (hrun : Run System.Step boot es s)
    (hfiles : ∀ low read, .createProcess low read ∈ es → WellFormed read) :
    ((∀ fs t, fs <+: es → Run System.Step boot fs t → t.Isolated) ↔
      ∀ low read, .createProcess low read ∉ es) ∧
    ∀ fs low read t, fs ++ [.createProcess low read] <+: es →
      Run System.Step boot (fs ++ [.createProcess low read]) t → ¬t.Isolated := by
  have hafter : ∀ fs low read t, fs ++ [.createProcess low read] <+: es →
      Run System.Step boot (fs ++ [.createProcess low read]) t → ¬t.Isolated := by
    intro fs low read t hinit hto
    obtain ⟨u, hbefore, hlast⟩ := hto.of_append
    have hreach' : u.machine.pmm.pages * PAGE_SIZE ≤ 2 ^ 47 := by
      rw [pages_run hbefore]
      exact hreach
    have hmem : .createProcess low read ∈ es :=
      hinit.subset (List.mem_append_right _ (List.mem_singleton_self _))
    cases hlast with
    | cons hstep hrest =>
        cases hrest with
        | nil _ => exact System.not_isolated_of_create hreach' (hfiles low read hmem) hstep
  refine ⟨⟨?_, ?_⟩, hafter⟩
  · intro hall low read hmem
    obtain ⟨fs, gs, hsplit⟩ := List.append_of_mem hmem
    have hsplit' : es = (fs ++ [.createProcess low read]) ++ gs := by
      rw [hsplit, List.append_assoc, List.singleton_append]
    rw [hsplit'] at hrun
    obtain ⟨t, hto, _⟩ := hrun.of_append
    have hinit : fs ++ [.createProcess low read] <+: es := ⟨gs, hsplit'.symm⟩
    exact hafter fs low read t hinit hto (hall _ t hinit hto)
  · intro hnew fs t hinit hto
    have hboot : t = boot :=
      run_eq_nil hnone hto fun low read hmem => hnew low read (hinit.subset hmem)
    subst hboot
    constructor
    · intro p hp
      rw [hnone] at hp
      cases hp
    · rw [hnone]
      exact List.Pairwise.nil

/-! ### One program -/

/-- A machine without processes. -/
def noProcesses : System := ⟨zeroedMachine, 0, [], []⟩

/-- A file that has the header of a program without segments. -/
def noSegments : ReadFile := fun _ _ =>
  some fun x => if x = 0 then 0x7F else if x = 4 then 2 else if x = 5 then 1 else 0

theorem wellFormed_noSegments : WellFormed noSegments := by
  intro bytes table hbytes _ i hi
  obtain rfl := Option.some.inj hbytes
  exact absurd hi (Nat.not_lt_zero i)

theorem isSome_noSegments :
    (noProcesses.step (.createProcess (fun _ => 0) noSegments)).isSome := by
  decide +kernel

/-- A run that makes one program is not isolated all along. -/
theorem isolated_iff_noSegments :
    ¬∀ fs t, fs <+: [Event.createProcess (fun _ => 0) noSegments] →
      Run System.Step noProcesses fs t → t.Isolated := by
  obtain ⟨s, hs⟩ := Option.isSome_iff_exists.mp isSome_noSegments
  have hfiles : ∀ low read, Event.createProcess low read ∈
      [Event.createProcess (fun _ => 0) noSegments] → WellFormed read := by
    intro low read hmem
    obtain ⟨_, rfl⟩ := Event.createProcess.inj (List.mem_singleton.mp hmem)
    exact wellFormed_noSegments
  have h := isolated_iff rfl (by decide) (.cons hs (.nil s)) hfiles
  intro hall
  exact h.1.mp hall _ _ (List.mem_singleton_self _)

/-- Its stack is on pages 3 to 10, and page 11, mapped behind it, holds a table of its own
pagemap. -/
theorem noSegments_maps_table :
    ∃ s p, Run System.Step noProcesses [.createProcess (fun _ => 0) noSegments] s ∧
      s.processes = [p] ∧ p.Maps s.machine.mem 0xb000 ∧ ¬p.Owns 0xb000 ∧
      0xb000 ∈ p.pagemap.pageTablesAddr ∧ ¬s.Isolated := by
  obtain ⟨s, hs⟩ := Option.isSome_iff_exists.mp isSome_noSegments
  have hisolated : ¬s.Isolated :=
    System.not_isolated_of_create (by decide) wellFormed_noSegments hs
  rcases System.step_cases hs with
    ⟨low, read, entry, image, hevent, hret, _, rfl⟩ | ⟨hother, _, _⟩
  · obtain ⟨rfl, rfl⟩ := Event.createProcess.inj hevent
    obtain rfl : (Loader.createProcess (fun _ => 0) noSegments zeroedMachine 0).2 = image :=
      congrArg Prod.snd hret
    refine ⟨_, _, .cons hs (.nil _), rfl, ⟨USER_STACK + USER_STACK_SIZE, ?_, ?_, ?_⟩, ?_, ?_,
      hisolated⟩
    all_goals decide +kernel
  · exact absurd rfl (hother _ _)

end Runs

end Toystar.Loader

import Toystar.Memory.VmmSpec
import Toystar.Verified.Run

/-!
# A pagemap is a finite map

Runs of `map_page`, `unmap_page` and `virtual_to_physical` on one pagemap.
What `PMM::alloc(1)` returns during a call is up to the environment: each event
offers three frames, as many as a walk can ask for, of which nothing is known
but that they are frames and hold no table of this pagemap.  Over any such run
the four-level tables behave as a map from pages to frames.
-/

namespace Toystar.Memory

open Toystar.Klibc
open Toystar.Verified

/-! ## The system -/

/-- `PMM::alloc(1)` when the frames it will return are known. -/
def allocOffered : FrameAlloc (List Nat)
  | [], mem => (0, [], mem)
  | f :: frames, mem => (f, frames, memset mem f 0 PAGE_SIZE)

/-- Memory and the pagemap object. -/
structure VmState where
  mem : ByteMem
  vm : Vmm

inductive VmOp
  | mapPage (virt phys flags : Nat)
  | unmapPage (virt : Nat)
  | virtualToPhysical (virt : Nat)
deriving DecidableEq

/-- An operation and the frames the allocator has for it. -/
structure VmEvent where
  op : VmOp
  frames : List Nat
deriving DecidableEq

/-- The arguments the pagemap is used with. -/
def VmOp.Allowed : VmOp → Prop
  | .mapPage virt phys flags =>
      UserAddr virt ∧ PAGE_SIZE ∣ phys ∧ phys < 2 ^ 64 ∧ flags < 4096
  | .unmapPage virt => UserAddr virt
  | .virtualToPhysical virt => UserAddr virt

/-- Three frames that hold no table of the pagemap. -/
structure Offer (s : VmState) (frames : List Nat) : Prop where
  length_eq : frames.length = 3
  nodup : frames.Nodup
  frame : ∀ f ∈ frames, IsFrame f
  fresh : ∀ f ∈ frames, f ∉ s.vm.tables

/-- The pagemap that `new vmm(true)` makes when the allocator returns
`pml4`. -/
def VmState.boot (mem : ByteMem) (pml4 kernelPml4 : Nat) : VmState :=
  let r := Vmm.new allocOffered ⟨mem, [pml4]⟩ kernelPml4
  ⟨r.1.mem, r.2⟩

/-- What `virtual_to_physical` returns. -/
def VmState.translate (s : VmState) (frames : List Nat) (virt : Nat) : Nat :=
  (Vmm.virtualToPhysical allocOffered ⟨s.mem, frames⟩ s.vm virt).1

def VmState.exec (s : VmState) (e : VmEvent) : VmState :=
  match e.op with
  | .mapPage virt phys flags =>
      let r := Vmm.mapPage allocOffered ⟨s.mem, e.frames⟩ s.vm virt phys flags
      ⟨r.1.mem, r.2⟩
  | .unmapPage virt =>
      let r := Vmm.unmapPage allocOffered ⟨s.mem, e.frames⟩ s.vm virt
      ⟨r.1.mem, r.2⟩
  | .virtualToPhysical virt =>
      let r := Vmm.virtualToPhysical allocOffered ⟨s.mem, e.frames⟩ s.vm virt
      ⟨r.2.1.mem, r.2.2⟩

instance VmOp.decidableAllowed (op : VmOp) : Decidable op.Allowed :=
  match op with
  | .mapPage virt phys flags => inferInstanceAs (Decidable
      (UserAddr virt ∧ PAGE_SIZE ∣ phys ∧ phys < 2 ^ 64 ∧ flags < 4096))
  | .unmapPage virt => inferInstanceAs (Decidable (UserAddr virt))
  | .virtualToPhysical virt => inferInstanceAs (Decidable (UserAddr virt))

instance Offer.decidable (s : VmState) (frames : List Nat) :
    Decidable (Offer s frames) :=
  decidable_of_iff (frames.length = 3 ∧ frames.Nodup ∧ (∀ f ∈ frames, IsFrame f) ∧
      ∀ f ∈ frames, ¬(f = s.vm.pml4 ∨ f ∈ s.vm.pageTablesAddr))
    ⟨fun ⟨h₁, h₂, h₃, h₄⟩ => ⟨h₁, h₂, h₃, h₄⟩,
      fun ⟨h₁, h₂, h₃, h₄⟩ => ⟨h₁, h₂, h₃, h₄⟩⟩

def VmStep (s : VmState) (e : VmEvent) (s' : VmState) : Prop :=
  e.op.Allowed ∧ Offer s e.frames ∧ s' = s.exec e

/-- The step as a function. -/
def VmState.attempt (s : VmState) (e : VmEvent) : Option VmState :=
  if e.op.Allowed ∧ Offer s e.frames then some (s.exec e) else none

theorem vmStep_of_attempt {s s' : VmState} {e : VmEvent}
    (h : s.attempt e = some s') : VmStep s e s' := by
  unfold VmState.attempt at h
  split at h
  · rename_i hok
    exact ⟨hok.1, hok.2, (Option.some.inj h).symm⟩
  · cases h

/-! ## The abstract map -/

/-- What an operation does to the map from pages to frames. -/
def VmOp.apply (m : Nat → Nat) : VmOp → Nat → Nat
  | .mapPage virt phys _ => Function.update m (pageOf virt) phys
  | .unmapPage virt => Function.update m (pageOf virt) 0
  | .virtualToPhysical _ => m

/-- The frame of each page after some operations: that of the last `map_page`
to it, 0 when there was none or it was unmapped since. -/
def mappedFrame (es : List VmEvent) : Nat → Nat :=
  es.foldl (fun m e => e.op.apply m) fun _ => 0

/-- The tables represent the map `m`. -/
def Maps (s : VmState) (m : Nat → Nat) : Prop :=
  ∃ tab, PageTree s.mem s.vm tab ∧
    ∀ virt, UserAddr virt → leaf s.mem tab virt &&& frameMask = m (pageOf virt)

/-! ## Refinement -/

theorem supplies_of_nodup {frames : List Nat} {avoid : Set Nat}
    (hnodup : frames.Nodup) (hframe : ∀ f ∈ frames, IsFrame f)
    (hfresh : ∀ f ∈ frames, f ∉ avoid) :
    Supplies allocOffered frames.length frames avoid := by
  induction frames generalizing avoid with
  | nil => trivial
  | cons f frames ih =>
      obtain ⟨hnot, hnodup⟩ := List.nodup_cons.mp hnodup
      refine ⟨f, frames, fun _ => rfl, hframe f (by simp), hfresh f (by simp),
        ih hnodup (fun g hg => hframe g (by simp [hg])) ?_⟩
      rintro g hg (rfl | hmem)
      · exact hnot hg
      · exact hfresh g (by simp [hg]) hmem

theorem Offer.supplies {s : VmState} {frames : List Nat} (h : Offer s frames) :
    Supplies allocOffered (0 + 3) frames s.vm.tables := by
  have hsup := supplies_of_nodup h.nodup h.frame h.fresh
  rw [h.length_eq] at hsup
  exact hsup

/-- A new pagemap has no user table and maps nothing. -/
theorem maps_boot {pml4 : Nat} (mem : ByteMem) (kernelPml4 : Nat)
    (hpml4 : IsFrame pml4) : Maps (.boot mem pml4 kernelPml4) fun _ => 0 := by
  have hzero : ∀ {i}, UserIndex [] i →
      entryAt (VmState.boot mem pml4 kernelPml4).mem pml4 i = 0 :=
    fun hi => entryAt_newTable hpml4.1 hi _ _ _
  refine ⟨_, PageTree.root_only hpml4 [] hzero, ?_⟩
  intro virt _
  rw [leaf_of_none (by simp [pathOf])]
  exact Nat.zero_and _

namespace Maps

variable {s s' : VmState} {m : Nat → Nat} {frames : List Nat} {virt : Nat}

theorem mapPage {phys flags : Nat} (hm : Maps s m) (hvirt : UserAddr virt)
    (hphys : PAGE_SIZE ∣ phys) (hlt : phys < 2 ^ 64) (hflags : flags < 4096)
    (hoffer : Offer s frames) :
    Maps (s.exec ⟨.mapPage virt phys flags, frames⟩)
      (Function.update m (pageOf virt) phys) := by
  obtain ⟨tab, htree, hleaf⟩ := hm
  obtain ⟨k', vm', tab', hret, htree', _, _, hleaf', _⟩ :=
    mapPage_spec (k := ⟨s.mem, frames⟩) phys flags htree hvirt (Set.Subset.refl _)
      hoffer.supplies
  have hexec : s.exec ⟨.mapPage virt phys flags, frames⟩ = ⟨k'.mem, vm'⟩ := by
    simp only [VmState.exec, hret]
  rw [hexec]
  refine ⟨tab', htree', fun w hw => ?_⟩
  rw [hleaf' w]
  by_cases hpage : pageOf w = pageOf virt
  · rw [if_pos hpage, hpage, Function.update_self,
      or_and_frameMask hphys hlt hflags]
  · rw [if_neg hpage, Function.update_of_ne hpage]
    exact hleaf w hw

/-- A translation returns the map's value and leaves the map alone. -/
theorem virtualToPhysical (hm : Maps s m) (hvirt : UserAddr virt)
    (hoffer : Offer s frames) :
    s.translate frames virt = m (pageOf virt) ∧
      Maps (s.exec ⟨.virtualToPhysical virt, frames⟩) m := by
  obtain ⟨tab, htree, hleaf⟩ := hm
  obtain ⟨k', vm', tab', hret, hg, _⟩ :=
    virtualToPhysical_spec (k := ⟨s.mem, frames⟩) htree hvirt (Set.Subset.refl _)
      hoffer.supplies
  have hexec : s.exec ⟨.virtualToPhysical virt, frames⟩ = ⟨k'.mem, vm'⟩ := by
    simp only [VmState.exec, hret]
  refine ⟨?_, ?_⟩
  · simp only [VmState.translate, hret]
    exact hleaf virt hvirt
  · rw [hexec]
    refine ⟨tab', hg.tree, fun w hw => ?_⟩
    rw [hg.leaf_eq w]
    exact hleaf w hw

theorem step {e : VmEvent} (hm : Maps s m) (hstep : VmStep s e s') :
    Maps s' (e.op.apply m) := by
  obtain ⟨hop, hoffer, rfl⟩ := hstep
  obtain ⟨op, frames⟩ := e
  cases op with
  | mapPage virt phys flags =>
      obtain ⟨hvirt, hphys, hlt, hflags⟩ := hop
      exact hm.mapPage hvirt hphys hlt hflags hoffer
  | unmapPage virt =>
      have hexec : s.exec ⟨.unmapPage virt, frames⟩ = s.exec ⟨.mapPage virt 0 0, frames⟩ := by
        simp only [VmState.exec, Vmm.unmapPage]
      rw [hexec]
      exact hm.mapPage hop (Nat.dvd_zero _) (by decide) (by decide) hoffer
  | virtualToPhysical virt => exact (hm.virtualToPhysical hop hoffer).2

theorem run {es : List VmEvent} (hm : Maps s m) (hrun : Run VmStep s es s') :
    Maps s' (es.foldl (fun m e => e.op.apply m) m) := by
  induction hrun generalizing m with
  | nil _ => exact hm
  | cons hstep _ ih => exact ih (hm.step hstep)

end Maps

/-- From a new pagemap, after any sequence of operations on user addresses,
`virtual_to_physical` returns the frame the page was last mapped to, and 0
when it was not mapped or was unmapped since. -/
theorem pagemap_refines_map (mem : ByteMem) {pml4 : Nat} (kernelPml4 : Nat)
    (hpml4 : IsFrame pml4) {es : List VmEvent} {s : VmState}
    (hrun : Run VmStep (.boot mem pml4 kernelPml4) es s) {virt : Nat}
    (hvirt : UserAddr virt) {frames : List Nat} (hoffer : Offer s frames) :
    s.translate frames virt = mappedFrame es (pageOf virt) :=
  (((maps_boot mem kernelPml4 hpml4).run hrun).virtualToPhysical hvirt hoffer).1

/-- A page mapped at `0x400000`, then a translation elsewhere that makes three
tables of its own. -/
theorem pagemap_refines_map_0x400000 :
    ∃ s : VmState, s.vm.pageTablesAddr =
        [0x2000, 0x3000, 0x4000, 0x5000, 0x6000, 0x7000] ∧
      s.translate [0x8000, 0x9000, 0xa000] 0x400123 = 0x9000 := by
  have htables : (([⟨.mapPage 0x400000 0x9000 7, [0x2000, 0x3000, 0x4000]⟩,
      ⟨.virtualToPhysical 0x8000000000, [0x5000, 0x6000, 0x7000]⟩] :
      List VmEvent).foldlM VmState.attempt (.boot (fun _ => 0) 0x1000 0)).map
        (fun s => (s.vm.pageTablesAddr, decide (Offer s [0x8000, 0x9000, 0xa000]))) =
      some ([0x2000, 0x3000, 0x4000, 0x5000, 0x6000, 0x7000], true) := by
    decide +kernel
  obtain ⟨s, hs, heq⟩ := Option.map_eq_some_iff.mp htables
  rw [Prod.mk.injEq, decide_eq_true_eq] at heq
  refine ⟨s, heq.1, ?_⟩
  rw [pagemap_refines_map _ _ (by decide) (Run.of_foldlM vmStep_of_attempt hs)
    (by decide) heq.2]
  decide +kernel

end Toystar.Memory

import Toystar.Memory.Pmm
import Toystar.Verified.Run

/-!
# Runs of the physical memory manager

The frame allocator and its live allocations.  `Tracks` says that the bitmap is
the initial bitmap plus the live ranges; every call keeps it, so frames are
neither handed out twice nor lost.
-/

namespace Toystar.Memory

open Toystar.Klibc
open Toystar.Verified

/-! ## The system -/

/-- What `alloc` returned and the count it was asked for. -/
structure Frames where
  ptr : Nat
  count : Nat
deriving DecidableEq, Repr

/-- Page `i` is one of the frames. -/
def Frames.Has (f : Frames) (i : Nat) : Prop :=
  f.ptr / PAGE_SIZE ≤ i ∧ i < f.ptr / PAGE_SIZE + f.count

/-- The allocator, memory, and the allocations not yet freed. -/
structure PmmState where
  pmm : Pmm
  mem : ByteMem
  live : List Frames

inductive PmmOp
  | alloc (count : Nat)
  | free (ptr count : Nat)
deriving DecidableEq

/-- `alloc` asks for at least one frame, `free` returns a live allocation. -/
def PmmOp.Allowed (s : PmmState) : PmmOp → Prop
  | .alloc count => 1 ≤ count
  | .free ptr count => ⟨ptr, count⟩ ∈ s.live

instance PmmOp.decidableAllowed (s : PmmState) (op : PmmOp) :
    Decidable (op.Allowed s) :=
  match op with
  | .alloc count => inferInstanceAs (Decidable (1 ≤ count))
  | .free ptr count => inferInstanceAs (Decidable (⟨ptr, count⟩ ∈ s.live))

def PmmState.exec (s : PmmState) : PmmOp → PmmState
  | .alloc count =>
      let (ptr, pmm, mem) := s.pmm.alloc s.mem count
      ⟨pmm, mem, if ptr = 0 then s.live else ⟨ptr, count⟩ :: s.live⟩
  | .free ptr count =>
      { s with
        pmm := s.pmm.free ptr count
        live := s.live.erase ⟨ptr, count⟩ }

def PmmStep (s : PmmState) (op : PmmOp) (s' : PmmState) : Prop :=
  op.Allowed s ∧ s' = s.exec op

/-- The step as a function. -/
def PmmState.attempt (s : PmmState) (op : PmmOp) : Option PmmState :=
  if op.Allowed s then some (s.exec op) else none

theorem pmmStep_of_attempt {s s' : PmmState} {op : PmmOp}
    (h : s.attempt op = some s') : PmmStep s op s' := by
  unfold PmmState.attempt at h
  split at h
  · exact ⟨‹_›, (Option.some.inj h).symm⟩
  · cases h

/-! ## The invariant -/

/-- The frames of two allocations do not meet. -/
def Frames.Apart (f g : Frames) : Prop := ∀ i, f.Has i → ¬g.Has i

theorem Frames.Apart.symm {f g : Frames} (h : f.Apart g) : g.Apart f :=
  fun i hg hf => h i hf hg

/-- The bitmap is the initial one plus the live allocations, which are
disjoint, and the frames add up. -/
structure Tracks (p₀ : Pmm) (s : PmmState) : Prop where
  pages_eq : s.pmm.pages = p₀.pages
  used : ∀ i, s.pmm.bitmap.isBitSet i = true ↔
    p₀.bitmap.isBitSet i = true ∨ ∃ f ∈ s.live, f.Has i
  below : ∀ f ∈ s.live, f.ptr / PAGE_SIZE + f.count ≤ p₀.pages
  fresh : ∀ f ∈ s.live, ∀ i, f.Has i → p₀.bitmap.isBitSet i = false
  apart : s.live.Pairwise Frames.Apart
  balance : freeCells s.pmm.bitmap.isBitSet p₀.pages + (s.live.map (·.count)).sum =
    freeCells p₀.bitmap.isBitSet p₀.pages

theorem tracks_init (p₀ : Pmm) (mem : ByteMem) : Tracks p₀ ⟨p₀, mem, []⟩ :=
  { pages_eq := rfl
    used := by simp
    below := by simp
    fresh := by simp
    apart := List.Pairwise.nil
    balance := by simp }

namespace Tracks

variable {p₀ : Pmm} {s s' : PmmState}

/-- A page that is free now was free at the start and is in no allocation. -/
theorem of_free (hs : Tracks p₀ s) {i : Nat}
    (hi : s.pmm.bitmap.isBitSet i = false) :
    p₀.bitmap.isBitSet i = false ∧ ∀ f ∈ s.live, ¬f.Has i := by
  have hnot : ¬(p₀.bitmap.isBitSet i = true ∨ ∃ f ∈ s.live, f.Has i) := by
    rw [← hs.used i, hi]
    simp
  push Not at hnot
  exact ⟨by simpa using hnot.1, hnot.2⟩

theorem alloc (hs : Tracks p₀ s) (hzero : p₀.bitmap.isBitSet 0 = true)
    {count : Nat} (hcount : 1 ≤ count) : Tracks p₀ (s.exec (.alloc count)) := by
  rcases s.pmm.alloc_cases hcount s.mem with
    ⟨hret, _⟩ | ⟨page, hbelow, hfree, _, hret⟩
  · simpa only [PmmState.exec, hret, if_true] using hs
  · -- page 0 is used, so a range that was found does not start at null
    have hpage : page ≠ 0 := by
      rintro rfl
      have := (hs.of_free (hfree 0 (le_refl 0) (by omega))).1
      simp [hzero] at this
    have hptr : page * PAGE_SIZE ≠ 0 := by
      unfold PAGE_SIZE
      omega
    have hhas : ∀ i, Frames.Has ⟨page * PAGE_SIZE, count⟩ i ↔
        page ≤ i ∧ i < page + count := by
      intro i
      simp only [Frames.Has, PAGE_SIZE, Nat.mul_div_cancel _ (by decide : 0 < 4096)]
    rw [hs.pages_eq] at hbelow
    simp only [PmmState.exec, hret, if_neg hptr]
    refine
      { pages_eq := hs.pages_eq
        used := ?_
        below := ?_
        fresh := ?_
        apart := ?_
        balance := ?_ }
    · intro i
      simp only [Pmm.isBitSet_setBits, Bool.or_eq_true, decide_eq_true_eq, hs.used,
        List.mem_cons, exists_eq_or_imp, hhas]
      tauto
    · intro f hf
      rcases List.mem_cons.mp hf with rfl | hf
      · simpa only [PAGE_SIZE, Nat.mul_div_cancel _ (by decide : 0 < 4096)]
          using hbelow
      · exact hs.below f hf
    · intro f hf i hi
      rcases List.mem_cons.mp hf with rfl | hf
      · have hi' := (hhas i).mp hi
        exact (hs.of_free (hfree i hi'.1 hi'.2)).1
      · exact hs.fresh f hf i hi
    · refine List.pairwise_cons.mpr ⟨?_, hs.apart⟩
      intro f hf i hi
      have hi' := (hhas i).mp hi
      exact (hs.of_free (hfree i hi'.1 hi'.2)).2 f hf
    · have hocc := freeCells_occupy hbelow hfree
        (Pmm.isBitSet_setBits s.pmm.bitmap page count)
      have hbal := hs.balance
      simp only [List.map_cons, List.sum_cons]
      omega

theorem free (hs : Tracks p₀ s) {f : Frames} (hf : f ∈ s.live) :
    Tracks p₀ (s.exec (.free f.ptr f.count)) := by
  have hperm : s.live.Perm (f :: s.live.erase f) := List.perm_cons_erase hf
  have hpair : (f :: s.live.erase f).Pairwise Frames.Apart :=
    (hperm.pairwise_iff fun h => h.symm).mp hs.apart
  obtain ⟨hapart, hrest⟩ := List.pairwise_cons.mp hpair
  have hmem : ∀ {g}, g ∈ s.live.erase f → g ∈ s.live := fun hg =>
    List.mem_of_mem_erase hg
  have hlive : ∀ g, g ∈ s.live ↔ g = f ∨ g ∈ s.live.erase f := by
    intro g
    rw [hperm.mem_iff, List.mem_cons]
  refine
    { pages_eq := hs.pages_eq
      used := ?_
      below := fun g hg => hs.below g (hmem hg)
      fresh := fun g hg => hs.fresh g (hmem hg)
      apart := hrest
      balance := ?_ }
  · intro i
    show (Pmm.clearBits s.pmm.bitmap _ _).isBitSet i = true ↔ _
    simp only [Pmm.isBitSet_clearBits, Bool.and_eq_true, Bool.not_eq_true',
      decide_eq_false_iff_not, hs.used, hlive, exists_eq_or_imp]
    change ¬f.Has i ∧ _ ↔ _
    constructor
    · rintro ⟨hnot, hi | hi | hi⟩
      · exact .inl hi
      · exact absurd hi hnot
      · exact .inr hi
    · rintro (hi | ⟨g, hg, hi⟩)
      · refine ⟨fun hcontra => ?_, .inl hi⟩
        simp [hs.fresh f hf i hcontra] at hi
      · exact ⟨fun hcontra => hapart g hg i hcontra hi, .inr (.inr ⟨g, hg, hi⟩)⟩
  · -- read backwards, freeing is occupying
    have hcells : freeCells s.pmm.bitmap.isBitSet p₀.pages + f.count =
        freeCells (Pmm.clearBits s.pmm.bitmap (f.ptr / PAGE_SIZE) f.count).isBitSet
          p₀.pages := by
      refine freeCells_occupy (hs.below f hf) ?_ ?_
      · intro i hlo hhi
        simp [Pmm.isBitSet_clearBits, hlo, hhi]
      · intro i
        rw [Pmm.isBitSet_clearBits]
        by_cases hi : f.ptr / PAGE_SIZE ≤ i ∧ i < f.ptr / PAGE_SIZE + f.count
        · simp only [hi, and_self, decide_true, Bool.true_or]
          exact (hs.used i).mpr (.inr ⟨f, hf, hi⟩)
        · simp [hi]
    have hsum := (hperm.map (·.count)).sum_eq
    have hbal := hs.balance
    rw [List.map_cons, List.sum_cons] at hsum
    change freeCells (Pmm.clearBits s.pmm.bitmap (f.ptr / PAGE_SIZE) f.count).isBitSet
      p₀.pages + ((s.live.erase f).map (·.count)).sum = _
    omega

/-- An allocation that succeeds. -/
theorem alloc_of_eq {pmm pmm' : Pmm} {mem mem' : ByteMem} {live : List Frames} {ptr count : Nat}
    (hs : Tracks p₀ ⟨pmm, mem, live⟩) (hzero : p₀.bitmap.isBitSet 0 = true)
    (hcount : 1 ≤ count) (hret : pmm.alloc mem count = (ptr, pmm', mem')) (hptr : ptr ≠ 0) :
    Tracks p₀ ⟨pmm', mem', ⟨ptr, count⟩ :: live⟩ := by
  have hnext := hs.alloc hzero hcount
  simp only [PmmState.exec, hret, if_neg hptr] at hnext
  exact hnext

/-- Only the bitmap and what is live count, in any order. -/
theorem congr (h : Tracks p₀ s) (hpmm : s'.pmm = s.pmm)
    (hperm : s.live.Perm s'.live) : Tracks p₀ s' := by
  have hmem : ∀ f, f ∈ s'.live ↔ f ∈ s.live := fun f => hperm.mem_iff.symm
  exact
    { pages_eq := by rw [hpmm]; exact h.pages_eq
      used := fun i => by simp only [hpmm, hmem]; exact h.used i
      below := fun f hf => h.below f ((hmem f).mp hf)
      fresh := fun f hf => h.fresh f ((hmem f).mp hf)
      apart := (hperm.pairwise_iff fun h => h.symm).mp h.apart
      balance := by rw [hpmm, ← (hperm.map (·.count)).sum_eq]; exact h.balance }

theorem step (hs : Tracks p₀ s) (hzero : p₀.bitmap.isBitSet 0 = true)
    {op : PmmOp} (hstep : PmmStep s op s') : Tracks p₀ s' := by
  obtain ⟨hop, rfl⟩ := hstep
  cases op with
  | alloc count => exact hs.alloc hzero hop
  | free ptr count => exact hs.free hop

end Tracks

/-! ## Where frames come from -/

/-- What holds of every page that is free at the start holds of every page of a
live allocation. -/
theorem live_of_free {p₀ : Pmm} {mem : ByteMem} {U : Nat → Prop}
    (hU : ∀ i < p₀.pages, p₀.bitmap.isBitSet i = false → U i)
    {ops : List PmmOp} {s : PmmState} (hrun : Run PmmStep ⟨p₀, mem, []⟩ ops s) :
    ∀ f ∈ s.live, ∀ i, f.Has i → U i := by
  have hinv := hrun.invariant
    (I := fun s => (∀ i < s.pmm.pages, s.pmm.bitmap.isBitSet i = false → U i) ∧
      ∀ f ∈ s.live, ∀ i, f.Has i → U i) ?_ ⟨hU, by simp⟩
  · exact hinv.2
  · rintro s op s' ⟨hfree, hlive⟩ ⟨hop, rfl⟩
    cases op with
    | alloc count =>
        rcases s.pmm.alloc_cases hop s.mem with
          ⟨hret, _⟩ | ⟨page, hbelow, hrange, _, hret⟩
        · simpa only [PmmState.exec, hret, if_true] using ⟨hfree, hlive⟩
        · simp only [PmmState.exec, hret]
          refine ⟨fun i hi hbit => hfree i hi ?_, fun f hf i hi => ?_⟩
          · rw [Pmm.isBitSet_setBits, Bool.or_eq_false_iff] at hbit
            exact hbit.2
          · split at hf
            · exact hlive f hf i hi
            · rcases List.mem_cons.mp hf with rfl | hf
              · simp only [Frames.Has, PAGE_SIZE,
                  Nat.mul_div_cancel _ (by decide : 0 < 4096)] at hi
                exact hfree i (by omega) (hrange i hi.1 hi.2)
              · exact hlive f hf i hi
    | free ptr count =>
        refine ⟨fun i hi hbit => ?_, fun f hf => hlive f (List.mem_of_mem_erase hf)⟩
        change (Pmm.clearBits s.pmm.bitmap (ptr / PAGE_SIZE) count).isBitSet i = false
          at hbit
        rw [Pmm.isBitSet_clearBits, Bool.and_eq_false_iff] at hbit
        rcases hbit with hin | hbit
        · exact hlive ⟨ptr, count⟩ hop i (by simpa [Frames.Has] using hin)
        · exact hfree i hi hbit

/-! ## Conservation of frames -/

/-- From a bitmap whose page 0 is used, after any calls of `alloc` and `free`
that free exactly what was allocated: live ranges are disjoint and inside the
bitmap, a page is used iff it was at the start or is live, and the available
memory is short by exactly the live frames. -/
theorem frames_conserved (p₀ : Pmm) (mem : ByteMem)
    (hzero : p₀.bitmap.isBitSet 0 = true) {ops : List PmmOp} {s : PmmState}
    (hrun : Run PmmStep ⟨p₀, mem, []⟩ ops s) :
    s.live.Pairwise Frames.Apart ∧
    (∀ f ∈ s.live, f.ptr / PAGE_SIZE + f.count ≤ 8 * s.pmm.bitmapSize) ∧
    (∀ i, s.pmm.bitmap.isBitSet i = true ↔
      p₀.bitmap.isBitSet i = true ∨ ∃ f ∈ s.live, f.Has i) ∧
    s.pmm.getAvailableMemory + PAGE_SIZE * (s.live.map (·.count)).sum =
      p₀.getAvailableMemory := by
  have hs : Tracks p₀ s :=
    hrun.invariant (fun hs hstep => hs.step hzero hstep) (tracks_init p₀ mem)
  refine ⟨hs.apart, ?_, hs.used, ?_⟩
  · intro f hf
    have hbelow := hs.below f hf
    rw [← hs.pages_eq, Pmm.pages] at hbelow
    omega
  · have hzero' : s.pmm.bitmap.isBitSet 0 = true := (hs.used 0).mpr (.inl hzero)
    have hbal := hs.balance
    rw [Pmm.getAvailableMemory_eq hzero', Pmm.getAvailableMemory_eq hzero,
      hs.pages_eq, ← hbal, Nat.add_mul, Nat.mul_comm PAGE_SIZE]

/-- Two allocations and a free in sixteen pages of which page 0 is used. -/
theorem frames_conserved_sixteen :
    ∃ s : PmmState, s.live = [⟨0x3000, 3⟩] ∧ s.live.Pairwise Frames.Apart ∧
      (∀ f ∈ s.live, f.ptr / PAGE_SIZE + f.count ≤ 8 * s.pmm.bitmapSize) ∧
      (∀ i, s.pmm.bitmap.isBitSet i = true ↔
        Bitmap.isBitSet (fun i => if i = 0 then 0x80 else 0) i = true ∨
          ∃ f ∈ s.live, f.Has i) ∧
      s.pmm.getAvailableMemory + PAGE_SIZE * (s.live.map (·.count)).sum =
        15 * PAGE_SIZE := by
  have hlive : (([.alloc 2, .alloc 3, .free 0x1000 2] : List PmmOp).foldlM
      PmmState.attempt ⟨⟨fun i => if i = 0 then 0x80 else 0, 2, by decide⟩,
        fun _ => 0, []⟩).map (·.live) = some [⟨0x3000, 3⟩] := by decide +kernel
  obtain ⟨s, hs, hlive⟩ := Option.map_eq_some_iff.mp hlive
  have hcons := frames_conserved _ _ (by decide)
    (Run.of_foldlM pmmStep_of_attempt hs)
  exact ⟨s, hlive, hcons⟩

end Toystar.Memory

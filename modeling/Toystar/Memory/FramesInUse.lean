import Toystar.Memory.VmmExhaustion

/-!
# Frames in use

`map_range` against the real frame allocator.  The bitmap is the account of what must
not be handed out again: while page 0 and the tables of a pagemap are in use
(`Pmm.Avoids`), an allocation takes frames outside the tables and a range of pages can
be mapped without any of them running into another (`mapRange_cases`).
-/

namespace Toystar.Memory

open Toystar.Klibc
open Toystar.Verified

variable {pmm : Pmm} {mem : ByteMem} {count : Nat}

/-! ## Ranges of frames -/

/-- The frames of `count` pages from `page` on. -/
def framesOf (page count : Nat) : Set Nat :=
  {f | ∃ i, page ≤ i ∧ i < page + count ∧ f = i * PAGE_SIZE}

/-- An allocation that succeeds, with page 0 in use: its range was free, the page in
front of it was not, and it is zeroed. -/
theorem Pmm.alloc_of_ne_zero (hzero : pmm.bitmap.isBitSet 0 = true)
    (hret : (pmm.alloc mem count).1 ≠ 0) :
    ∃ page, 0 < page ∧ 0 < count ∧ page + count ≤ pmm.pages ∧
      FreeRange pmm.bitmap.isBitSet page count ∧
      pmm.bitmap.isBitSet (page - 1) = true ∧
      pmm.alloc mem count = (page * PAGE_SIZE,
        { pmm with bitmap := Pmm.setBits pmm.bitmap page count },
        memset mem (page * PAGE_SIZE) 0 (count * PAGE_SIZE)) := by
  rcases Nat.eq_zero_or_pos count with rfl | hcount
  · exfalso
    apply hret
    rw [Pmm.alloc, firstFit_zero]
  · rcases pmm.alloc_cases hcount mem with ⟨halloc, _⟩ | ⟨page, hin, hfree, hmin, halloc⟩
    · rw [halloc] at hret
      exact absurd rfl hret
    · have hpage : 0 < page := by
        by_contra hzero'
        obtain rfl : page = 0 := by omega
        rw [hfree 0 (le_refl 0) (by omega)] at hzero
        cases hzero
      refine ⟨page, hpage, hcount, hin, hfree, ?_, halloc⟩
      by_contra hbit
      rw [Bool.not_eq_true] at hbit
      refine hmin (page - 1) (by omega) ?_
      intro j hlo hhi
      by_cases hj : j = page - 1
      · rw [hj]
        exact hbit
      · exact hfree j (by omega) (by omega)

/-- Writing in a range of frames. -/
theorem sameOutside_range {page : Nat} {mem' : ByteMem}
    (h : ∀ x, x < page * PAGE_SIZE ∨ (page + count) * PAGE_SIZE ≤ x → mem' x = mem x) :
    SameOutside (framesOf page count) mem mem' := by
  intro x hx
  apply h
  by_contra hin
  refine hx ⟨x / PAGE_SIZE, ?_, ?_, rfl⟩
  all_goals
    unfold PAGE_SIZE at *
    omega

/-- Zeroing a range of frames. -/
theorem sameOutside_memset_range (page count : Nat) (mem : ByteMem) :
    SameOutside (framesOf page count) mem
      (memset mem (page * PAGE_SIZE) 0 (count * PAGE_SIZE)) := by
  apply sameOutside_range
  intro x hx
  rw [Nat.add_mul] at hx
  exact memset_of_not_mem hx

/-! ## Allocating from a bitmap -/

/-- Page 0 and the frames of `avoid` are in use, and the direct map reaches all pages. -/
structure Pmm.Avoids (pmm : Pmm) (avoid : Set Nat) : Prop where
  zero : pmm.bitmap.isBitSet 0 = true
  reach : pmm.pages * PAGE_SIZE ≤ 2 ^ 47
  used : ∀ i, i * PAGE_SIZE ∈ avoid → pmm.bitmap.isBitSet i = true

theorem Pmm.Avoids.mono {avoid avoid' : Set Nat} (h : pmm.Avoids avoid)
    (hsub : avoid' ⊆ avoid) : pmm.Avoids avoid' :=
  ⟨h.zero, h.reach, fun i hi => h.used i (hsub hi)⟩

theorem supply_avoids : Supply Vmm.allocFrame True fun _ => Pmm.Avoids :=
  { mono := Pmm.Avoids.mono
    of_succ := id
    take := by
      intro _ pmm avoid h
      rcases allocFrame_cases h.zero h.reach with ⟨page, hret, hframe, hbit, _⟩ | ⟨hnull, _⟩
      · refine .inl ⟨page * PAGE_SIZE, _, hret, hframe, ?_, ?_, h.reach,
          used_of_taken h.used⟩
        · intro hmem
          rw [h.used page hmem] at hbit
          cases hbit
        · rw [Pmm.isBitSet_setBits, h.zero, Bool.or_true]
      · exact .inr ⟨trivial, hnull⟩ }

/-- The frames in use. -/
def usedFrames (pmm : Pmm) : Set Nat :=
  {f | ∃ i, pmm.bitmap.isBitSet i = true ∧ f = i * PAGE_SIZE}

theorem mem_usedFrames {i : Nat} :
    i * PAGE_SIZE ∈ usedFrames pmm ↔ pmm.bitmap.isBitSet i = true := by
  constructor
  · rintro ⟨j, hj, heq⟩
    obtain rfl : i = j := by
      unfold PAGE_SIZE at heq
      omega
    exact hj
  · exact fun hi => ⟨i, hi, rfl⟩

/-- Free frames are not in use. -/
theorem not_mem_usedFrames {page : Nat} (hfree : FreeRange pmm.bitmap.isBitSet page count) :
    ∀ t ∈ framesOf page count, t ∉ usedFrames pmm := by
  intro t ht hused
  obtain ⟨i, hlo, hhi, rfl⟩ := ht
  have hbit := mem_usedFrames.mp hused
  rw [hfree i hlo hhi] at hbit
  cases hbit

theorem Pmm.Avoids.not_mem_free {avoid : Set Nat} {page : Nat} (h : pmm.Avoids avoid)
    (hfree : FreeRange pmm.bitmap.isBitSet page count) :
    ∀ t ∈ avoid, t ∉ framesOf page count := by
  intro t ht hmem
  refine not_mem_usedFrames hfree t hmem ?_
  obtain ⟨i, _, _, rfl⟩ := hmem
  exact mem_usedFrames.mpr (h.used i ht)

/-- An allocation of some pages. -/
theorem Pmm.Avoids.setBits {avoid : Set Nat} (h : pmm.Avoids avoid) (page count : Nat) :
    Pmm.Avoids { pmm with bitmap := Pmm.setBits pmm.bitmap page count }
      (avoid ∪ framesOf page count) := by
  refine ⟨?_, h.reach, ?_⟩
  · rw [Pmm.isBitSet_setBits, h.zero, Bool.or_true]
  · intro i hi
    rw [Pmm.isBitSet_setBits]
    rcases hi with hold | ⟨j, hlo, hhi, heq⟩
    · rw [h.used i hold, Bool.or_true]
    · obtain rfl : i = j := by
        unfold PAGE_SIZE at heq
        omega
      rw [decide_eq_true ⟨hlo, hhi⟩, Bool.true_or]

/-! ## Mapping a range -/

variable {k : Machine Pmm} {vm : Vmm} {tab : List Nat → Option Nat} {virt n : Nat}

theorem mem_mapRange {a phys length prot flags : Nat} (ha : a ∈ vm.pageTablesAddr) :
    a ∈ (Vmm.mapRange Vmm.allocFrame k vm virt phys length prot flags).2.pageTablesAddr := by
  rw [Vmm.mapRange, Vmm.mapRangeRaw, mapPages_eq]
  generalize length / PAGE_SIZE + 1 = rounds
  induction rounds with
  | zero => exact ha
  | succ rounds ih =>
      rw [mapEach_succ]
      exact mem_mapPage ih

/-- Some rounds of `map_page` store an entry each, unless a request is refused. -/
theorem mapEach_cases (hpmm : k.pmm.Avoids vm.tables) (ht : PageTree k.mem vm tab)
    (hend : virt + n * PAGE_SIZE ≤ 2 ^ 47) (phys flags : Nat → Nat) :
    (∃ k' vm' tab', mapEach Vmm.allocFrame virt phys flags n (k, vm) = (k', vm') ∧
      Ranged (fun _ => Pmm.Avoids) (usedFrames k.pmm ∪ vm.tables) k vm tab virt n 0
        (fun j => (phys j ||| flags j) % 2 ^ 64) k' vm' tab') ∨
    0 ∈ (mapEach Vmm.allocFrame virt phys flags n (k, vm)).2.pageTablesAddr := by
  have havoids : k.pmm.Avoids (usedFrames k.pmm ∪ vm.tables) := by
    refine ⟨hpmm.zero, hpmm.reach, ?_⟩
    intro i hi
    cases hi with
    | inl hused => exact mem_usedFrames.mp hused
    | inr htable => exact hpmm.used i htable
  rcases mapEach_spec (m := 0) supply_avoids ht Set.subset_union_right phys flags n hend
      havoids with hmapped | ⟨_, hnull⟩
  · exact .inl hmapped
  · exact .inr hnull

/-- `map_range` of `n` pages stores `n + 1` entries, unless a request is refused. -/
theorem mapRange_cases (hpmm : k.pmm.Avoids vm.tables) (ht : PageTree k.mem vm tab)
    (hend : virt + (n + 1) * PAGE_SIZE ≤ 2 ^ 47) (phys prot flags : Nat) :
    (∃ k' vm' tab', Vmm.mapRange Vmm.allocFrame k vm virt phys (n * PAGE_SIZE) prot flags =
        (k', vm') ∧
      Ranged (fun _ => Pmm.Avoids) (usedFrames k.pmm ∪ vm.tables) k vm tab virt (n + 1) 0
        (fun j => ((phys + j * PAGE_SIZE) % 2 ^ 64 ||| prot % 2 ^ 16) % 2 ^ 64) k' vm' tab') ∨
    0 ∈ (Vmm.mapRange Vmm.allocFrame k vm virt phys (n * PAGE_SIZE) prot
      flags).2.pageTablesAddr := by
  have hrounds : n * PAGE_SIZE / PAGE_SIZE = n := Nat.mul_div_cancel _ (by decide)
  have ht' := ht.setRanges (vm.ranges ++ [⟨virt, n * PAGE_SIZE, prot, flags⟩])
  have hpmm' : k.pmm.Avoids (Vmm.tables
      { vm with ranges := vm.ranges ++ [⟨virt, n * PAGE_SIZE, prot, flags⟩] }) := hpmm
  rw [Vmm.mapRange, Vmm.mapRangeRaw, hrounds, mapPages_eq]
  rcases mapEach_cases hpmm' ht' hend (fun j => (phys + j * PAGE_SIZE) % 2 ^ 64)
      (fun _ => prot % 2 ^ 16) with
    ⟨k', vm', tab', hret, hranged⟩ | hnull
  · refine .inl ⟨k', vm', tab', hret, ?_⟩
    exact
      { tree := hranged.tree
        pml4_eq := hranged.pml4_eq
        set := hranged.set
        same := hranged.same
        kernel := hranged.kernel
        gains := ⟨hranged.gains.fresh, hranged.gains.supply⟩ }
  · exact .inr hnull

end Toystar.Memory

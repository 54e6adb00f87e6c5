import Toystar.Memory.VmmExhaustion

/-!
# The frames that a mapping takes

`map_range` asks for a frame for each table that is missing on the way to one of its pages.
It leaves the frame allocator as it was exactly when no frame is free or no table is
missing, in any of its rounds; what the tables hold does not matter.
-/

namespace Toystar.Memory

open Toystar.Klibc
open Toystar.Verified

/-- A frame was taken between two states of the allocator, and is in use since. -/
def Took (p p' : Pmm) : Prop :=
  ∃ i, p.bitmap.isBitSet i = false ∧ p'.bitmap.isBitSet i = true

variable {p p' p'' : Pmm} {count : Nat}

theorem Took.ne (h : Took p p') : p'.bitmap ≠ p.bitmap := by
  obtain ⟨i, hfree, hset⟩ := h
  intro hsame
  rw [hsame, hfree] at hset
  cases hset

theorem Took.keep (h : Took p p') (hkeep : KeepsUsed p' p'') : Took p p'' := by
  obtain ⟨i, hfree, hset⟩ := h
  exact ⟨i, hfree, hkeep i hset⟩

namespace Pmm

theorem alloc_of_refuses (h : p.refuses count = true) (mem : ByteMem) :
    p.alloc mem count = (0, p, mem) := by
  unfold refuses at h
  unfold alloc
  rw [Option.isNone_iff_eq_none.mp h]

/-- A request takes frames unless it is refused. -/
theorem took_alloc (h : p.refuses count = false) (mem : ByteMem) :
    Took p (p.alloc mem count).2.1 := by
  obtain ⟨page, hcount, _, hfree, hret⟩ := alloc_of_not_refuses h mem
  refine ⟨page, hfree page (le_refl page) (by omega), ?_⟩
  rw [hret, isBitSet_setBits, decide_eq_true ⟨le_refl page, by omega⟩, Bool.true_or]

end Pmm

/-! ## A walk -/

variable {is : List Nat} {s : Level Pmm}

/-- With no frame free a walk takes none. -/
theorem foldl_of_refuses (h : s.2.1.pmm.refuses 1 = true) :
    (is.foldl (nextLevel Vmm.allocFrame) s).2.1.pmm = s.2.1.pmm := by
  induction is generalizing s with
  | nil => rfl
  | cons i is ih =>
      rw [List.foldl_cons]
      cases hnext : nextTable s.2.1.mem s.1 i with
      | some t =>
          rw [(nextLevel_of_nextTable hnext).1]
          exact ih h
      | none =>
          rw [(nextLevel_of_missing hnext (Pmm.alloc_of_refuses h s.2.1.mem)).1]
          exact ih h

/-- Nor with every table there. -/
theorem foldl_of_found (h : missingTables s.2.1.mem is s.1 = 0) :
    (is.foldl (nextLevel Vmm.allocFrame) s).2.1.pmm = s.2.1.pmm := by
  induction is generalizing s with
  | nil => rfl
  | cons i is ih =>
      rw [List.foldl_cons]
      rw [missingTables] at h
      cases hnext : nextTable s.2.1.mem s.1 i with
      | some t =>
          rw [hnext, Option.elim_some] at h
          rw [(nextLevel_of_nextTable hnext).1]
          exact ih h
      | none =>
          rw [hnext, Option.elim_none] at h
          omega

/-- Otherwise the first table that is missing gets one. -/
theorem took_foldl (hfree : s.2.1.pmm.refuses 1 = false)
    (h : missingTables s.2.1.mem is s.1 ≠ 0) :
    Took s.2.1.pmm (is.foldl (nextLevel Vmm.allocFrame) s).2.1.pmm := by
  induction is generalizing s with
  | nil => exact absurd rfl h
  | cons i is ih =>
      rw [List.foldl_cons]
      cases hnext : nextTable s.2.1.mem s.1 i with
      | some t =>
          rw [missingTables, hnext, Option.elim_some] at h
          rw [(nextLevel_of_nextTable hnext).1]
          exact ih (s := (t, s.2.1, s.2.2)) hfree h
      | none =>
          have htook : Took s.2.1.pmm (nextLevel Vmm.allocFrame s i).2.1.pmm := by
            rw [(nextLevel_of_missing hnext rfl).1]
            exact Pmm.took_alloc hfree s.2.1.mem
          exact htook.keep (keepsUsed_foldl is _)

/-! ## A range -/

variable {virt phys prot n : Nat} {k : Machine Pmm × Vmm}

theorem pmm_mapPage (k : Machine Pmm) (vm : Vmm) (virt phys flags : Nat) :
    (Vmm.mapPage Vmm.allocFrame k vm virt phys flags).1.pmm =
      ((indices virt).foldl (nextLevel Vmm.allocFrame) (vm.pml4, k, vm)).2.1.pmm := by
  obtain ⟨pt, hwalk⟩ : ∃ r, Vmm.walk Vmm.allocFrame k vm virt = r := ⟨_, rfl⟩
  rw [← walk_eq_foldl]
  simp only [Vmm.mapPage, hwalk]

theorem keepsUsed_mapPage (k : Machine Pmm) (vm : Vmm) (virt phys flags : Nat) :
    KeepsUsed k.pmm (Vmm.mapPage Vmm.allocFrame k vm virt phys flags).1.pmm := by
  rw [pmm_mapPage]
  exact keepsUsed_foldl (indices virt) (vm.pml4, k, vm)

theorem took_mapPage {k : Machine Pmm} {vm : Vmm} (hfree : k.pmm.refuses 1 = false)
    (h : missing k vm virt ≠ 0) (phys flags : Nat) :
    Took k.pmm (Vmm.mapPage Vmm.allocFrame k vm virt phys flags).1.pmm := by
  rw [pmm_mapPage]
  exact took_foldl (s := (vm.pml4, k, vm)) hfree h

theorem mapPage_of_found {k : Machine Pmm} {vm : Vmm} (h : missing k vm virt = 0)
    (phys flags : Nat) : (Vmm.mapPage Vmm.allocFrame k vm virt phys flags).1.pmm = k.pmm := by
  rw [pmm_mapPage]
  exact foldl_of_found (s := (vm.pml4, k, vm)) h

/-- The tables that are missing in round `i`. -/
def roundMissing (virt phys prot : Nat) (k : Machine Pmm × Vmm) (i : Nat) : Nat :=
  let r := Vmm.mapPages Vmm.allocFrame virt phys prot i k
  missing r.1 r.2 ((virt + i * PAGE_SIZE) % 2 ^ 64)

theorem keepsUsed_mapPages :
    KeepsUsed k.1.pmm (Vmm.mapPages Vmm.allocFrame virt phys prot n k).1.pmm := by
  induction n with
  | zero => exact fun _ hi => hi
  | succ n ih =>
      intro i hi
      rw [Vmm.mapPages]
      exact keepsUsed_mapPage _ _ _ _ _ i (ih i hi)

theorem mapPages_of_refuses (h : k.1.pmm.refuses 1 = true) :
    (Vmm.mapPages Vmm.allocFrame virt phys prot n k).1.pmm = k.1.pmm := by
  induction n with
  | zero => rfl
  | succ n ih =>
      rw [Vmm.mapPages, pmm_mapPage, foldl_of_refuses]
      · exact ih
      · dsimp only
        rw [ih]
        exact h

/-- While no table is missing the rounds take no frame. -/
theorem mapPages_of_found (h : ∀ i < n, roundMissing virt phys prot k i = 0) :
    (Vmm.mapPages Vmm.allocFrame virt phys prot n k).1.pmm = k.1.pmm := by
  induction n with
  | zero => rfl
  | succ n ih =>
      have hlast := h n (Nat.lt_succ_self n)
      rw [Vmm.mapPages, mapPage_of_found hlast]
      exact ih fun i hi => h i (by omega)

/-- With a frame free the first round where one is missing takes it. -/
theorem took_mapPages (hfree : k.1.pmm.refuses 1 = false)
    (h : ¬∀ i < n, roundMissing virt phys prot k i = 0) :
    Took k.1.pmm (Vmm.mapPages Vmm.allocFrame virt phys prot n k).1.pmm := by
  induction n with
  | zero => exact absurd (fun i hi => absurd hi (Nat.not_lt_zero i)) h
  | succ n ih =>
      by_cases hfound : ∀ i < n, roundMissing virt phys prot k i = 0
      · have hlast : roundMissing virt phys prot k n ≠ 0 := by
          intro hlast
          refine h fun i hi => ?_
          by_cases hin : i < n
          · exact hfound i hin
          · obtain rfl : i = n := by omega
            exact hlast
        have hsame := mapPages_of_found hfound
        rw [Vmm.mapPages, ← hsame]
        exact took_mapPage (by rw [hsame]; exact hfree) hlast _ _
      · rw [Vmm.mapPages]
        exact (ih hfound).keep (keepsUsed_mapPage _ _ _ _ _)

/-- The rounds leave the bitmap as it was when no frame is free, or no table missing. -/
theorem mapPages_bitmap_iff (virt phys prot n : Nat) (k : Machine Pmm × Vmm) :
    (Vmm.mapPages Vmm.allocFrame virt phys prot n k).1.pmm.bitmap = k.1.pmm.bitmap ↔
      k.1.pmm.refuses 1 = true ∨ ∀ i < n, roundMissing virt phys prot k i = 0 := by
  cases hfree : k.1.pmm.refuses 1 with
  | true =>
      rw [mapPages_of_refuses hfree]
      exact iff_of_true rfl (.inl rfl)
  | false =>
      constructor
      · intro hsame
        by_contra hnot
        exact (took_mapPages hfree fun hall => hnot (.inr hall)).ne hsame
      · rintro (hcontra | hall)
        · cases hcontra
        · rw [mapPages_of_found hall]

theorem mapRange_bitmap_iff (k : Machine Pmm) (vm : Vmm) (virt phys length prot flags : Nat) :
    (Vmm.mapRange Vmm.allocFrame k vm virt phys length prot flags).1.pmm.bitmap =
        k.pmm.bitmap ↔
      k.pmm.refuses 1 = true ∨ ∀ i < length / PAGE_SIZE + 1, roundMissing virt phys prot
        (k, { vm with ranges := vm.ranges ++ [⟨virt, length, prot, flags⟩] }) i = 0 := by
  unfold Vmm.mapRange Vmm.mapRangeRaw
  exact mapPages_bitmap_iff _ _ _ _ _

theorem keepsUsed_mapRange (k : Machine Pmm) (vm : Vmm) (virt phys length prot flags : Nat) :
    KeepsUsed k.pmm (Vmm.mapRange Vmm.allocFrame k vm virt phys length prot flags).1.pmm := by
  unfold Vmm.mapRange Vmm.mapRangeRaw
  exact keepsUsed_mapPages (k := (k, _))

end Toystar.Memory

import Toystar.Klibc.Bitmap
import Toystar.Klibc.Memory
import Toystar.Verified.FirstFit

/-!
# The physical memory manager

`PMM::alloc`, `PMM::free` and `PMM::get_available_memory` of
`kernel/memory/pmm.cpp` over the static `bitmap` (1 = used, 0 = free) and
`bitmapSize`.  Every kernel access to a frame goes through the direct map at
`PHYSICAL_BASE_ADDRESS`, so memory is addressed by physical address and the
offset does not appear.  The array behind `bitmap` is a value of its own: the
frames that hold it are not frames that `alloc` hands out.

`pmm_lock` is taken and released inside each function on every path, so it is
not part of the state between calls.
-/

namespace Toystar.Memory

open Toystar.Klibc
open Toystar.Verified

/-- `PAGE_SIZE`. -/
def PAGE_SIZE : Nat := 4096

/-- The statics of `pmm.cpp`.  `PMM::init` computes `bitmapSize` from a 64-bit
top address, so the pages it covers are below `2 ^ 64`. -/
structure Pmm where
  bitmap : Bitmap
  bitmapSize : Nat
  fits : 8 * bitmapSize * PAGE_SIZE ≤ 2 ^ 64

namespace Pmm

/-- A bitmap of two bytes fits. -/
theorem fits_two : 8 * 2 * PAGE_SIZE ≤ 2 ^ 64 := by decide

/-- Number of pages the bitmap covers. -/
def pages (p : Pmm) : Nat := p.bitmapSize * 8

/-- `for (c = page; c < page + count; c++) set_bit(bitmap, c);` -/
def setBits (bitmap : Bitmap) (page : Nat) : Nat → Bitmap
  | 0 => bitmap
  | count + 1 => setBits (bitmap.setBit page) (page + 1) count

/-- `for (i = page; i < page + count; i++) clear_bit(bitmap, i);` -/
def clearBits (bitmap : Bitmap) (page : Nat) : Nat → Bitmap
  | 0 => bitmap
  | count + 1 => clearBits (bitmap.clearBit page) (page + 1) count

/-- `PMM::alloc`: the address of the first free range of `count` frames, which
are marked and zeroed, or null. -/
def alloc (p : Pmm) (mem : ByteMem) (count : Nat) : Nat × Pmm × ByteMem :=
  match firstFit p.bitmap.isBitSet count p.pages 0 0 with
  | none => (0, p, mem)
  | some page =>
      (page * PAGE_SIZE, { p with bitmap := setBits p.bitmap page count },
        memset mem (page * PAGE_SIZE) 0 (count * PAGE_SIZE))

/-- `PMM::free`. -/
def free (p : Pmm) (ptr count : Nat) : Pmm :=
  { p with bitmap := clearBits p.bitmap (ptr / PAGE_SIZE) count }

/-- `PMM::get_available_memory`. -/
def getAvailableMemory (p : Pmm) : Nat :=
  freeCells p.bitmap.isBitSet p.pages * PAGE_SIZE % 2 ^ 64

/-! ## The bits after a call -/

theorem isBitSet_setBits (bitmap : Bitmap) (page count i : Nat) :
    (setBits bitmap page count).isBitSet i =
      (decide (page ≤ i ∧ i < page + count) || bitmap.isBitSet i) := by
  induction count generalizing bitmap page with
  | zero =>
      have hnot : ¬(page ≤ i ∧ i < page + 0) := by omega
      simp only [setBits, hnot, decide_false, Bool.false_or]
  | succ count ih =>
      rw [setBits, ih, Bitmap.isBitSet_setBit, ← Bool.or_assoc]
      congr 1
      rw [← Bool.decide_or, decide_eq_decide]
      omega

theorem isBitSet_clearBits (bitmap : Bitmap) (page count i : Nat) :
    (clearBits bitmap page count).isBitSet i =
      (!decide (page ≤ i ∧ i < page + count) && bitmap.isBitSet i) := by
  induction count generalizing bitmap page with
  | zero =>
      have hnot : ¬(page ≤ i ∧ i < page + 0) := by omega
      simp only [clearBits, hnot, decide_false, Bool.not_false, Bool.true_and]
  | succ count ih =>
      rw [clearBits, ih, Bitmap.isBitSet_clearBit, ← Bool.and_assoc,
        ← Bool.not_or]
      congr 2
      rw [← Bool.decide_or, decide_eq_decide]
      omega

variable {p : Pmm} {mem : ByteMem} {count ptr i : Nat}

/-- What `alloc` does: nothing, when no free range is long enough, or it takes
the lowest one. -/
theorem alloc_cases (hcount : 1 ≤ count) (mem : ByteMem) :
    (p.alloc mem count = (0, p, mem) ∧
      ∀ q, q + count ≤ p.pages → ¬FreeRange p.bitmap.isBitSet q count) ∨
    ∃ page, page + count ≤ p.pages ∧
      FreeRange p.bitmap.isBitSet page count ∧
      (∀ q < page, ¬FreeRange p.bitmap.isBitSet q count) ∧
      p.alloc mem count = (page * PAGE_SIZE,
        { p with bitmap := setBits p.bitmap page count },
        memset mem (page * PAGE_SIZE) 0 (count * PAGE_SIZE)) := by
  cases hfit : firstFit p.bitmap.isBitSet count p.pages 0 0 with
  | none =>
      refine .inl ⟨by simp only [alloc, hfit], fun q hq => ?_⟩
      exact firstFit_eq_none (by omega) hfit q (by omega) (by omega)
  | some page =>
      obtain ⟨_, hhi, hfree, hmin⟩ :=
        firstFit_eq_some (le_refl 0) (by omega) (fun j _ hj => by omega) hfit
      refine .inr ⟨page, by omega, hfree, fun q hq => hmin q (by omega) hq, ?_⟩
      simp only [alloc, hfit]

/-- No `count` free pages are found. -/
def refuses (p : Pmm) (count : Nat) : Bool :=
  (firstFit p.bitmap.isBitSet count p.pages 0 0).isNone

/-- Any other call takes the free pages it found. -/
theorem alloc_of_not_refuses (h : p.refuses count = false) (mem : ByteMem) :
    ∃ page, 1 ≤ count ∧ page + count ≤ p.pages ∧ FreeRange p.bitmap.isBitSet page count ∧
      p.alloc mem count = (page * PAGE_SIZE,
        { p with bitmap := setBits p.bitmap page count },
        memset mem (page * PAGE_SIZE) 0 (count * PAGE_SIZE)) := by
  unfold refuses at h
  cases hfit : firstFit p.bitmap.isBitSet count p.pages 0 0 with
  | none =>
      rw [hfit] at h
      cases h
  | some page =>
      have hcount : 1 ≤ count := by
        by_contra hzero
        obtain rfl : count = 0 := by omega
        rw [firstFit_zero] at hfit
        cases hfit
      obtain ⟨_, hhi, hfree, _⟩ :=
        firstFit_eq_some (le_refl 0) (by omega) (fun j _ hj => by omega) hfit
      refine ⟨page, hcount, by omega, hfree, ?_⟩
      simp only [alloc, hfit]

@[simp] theorem free_pages : (p.free ptr count).pages = p.pages := rfl

/-- Page addresses below the end of the bitmap are 64-bit values. -/
theorem page_lt (p : Pmm) (hi : i < p.pages) : i * PAGE_SIZE < 2 ^ 64 := by
  have hfits := p.fits
  unfold pages at hi
  unfold PAGE_SIZE at *
  omega

/-- With page 0 in use the free memory is a 64-bit value. -/
theorem getAvailableMemory_eq (hzero : p.bitmap.isBitSet 0 = true) :
    p.getAvailableMemory = freeCells p.bitmap.isBitSet p.pages * PAGE_SIZE := by
  refine Nat.mod_eq_of_lt ?_
  rcases Nat.eq_zero_or_pos p.pages with hpages | hpages
  · simp [hpages, freeCells]
  · exact p.page_lt (freeCells_lt hzero hpages)

/-! ## First fit -/

/-- `count` free pages start at `page`, all of them inside the bitmap. -/
def Fits (p : Pmm) (count page : Nat) : Prop :=
  page + count ≤ 8 * p.bitmapSize ∧ FreeRange p.bitmap.isBitSet page count

theorem fits_iff {page : Nat} : p.Fits count page ↔
    page + count ≤ p.pages ∧ FreeRange p.bitmap.isBitSet page count := by
  rw [Fits, pages, Nat.mul_comm]

/-- A call that finds no range found none because there is none. -/
theorem not_fits_of_null (hnone : ∀ q, q + count ≤ p.pages →
    ¬FreeRange p.bitmap.isBitSet q count) : ¬∃ q, p.Fits count q := by
  intro hex
  obtain ⟨q, hq⟩ := hex
  have hrange := fits_iff.mp hq
  exact hnone q hrange.1 hrange.2

/-- `alloc` is first fit and complete: while some range of `count` free pages
lies in the bitmap it takes the lowest one, whose address it returns, whose bits
it sets and whose frames it zeroes; otherwise it returns null and changes
nothing. -/
theorem alloc_first_fit (p : Pmm) (mem : ByteMem)
    (hzero : p.bitmap.isBitSet 0 = true) (hcount : 1 ≤ count) :
    ((∃ q, p.Fits count q) → ∃ page, IsLeast {q | p.Fits count q} page ∧
      ∃ p' mem', p.alloc mem count = (page * PAGE_SIZE, p', mem') ∧
        page * PAGE_SIZE ≠ 0 ∧ p'.bitmapSize = p.bitmapSize ∧
        (∀ i, p'.bitmap.isBitSet i = true ↔
          p.bitmap.isBitSet i = true ∨ (page ≤ i ∧ i < page + count)) ∧
        (∀ x, page * PAGE_SIZE ≤ x → x < (page + count) * PAGE_SIZE → mem' x = 0) ∧
        ∀ x, x < page * PAGE_SIZE ∨ (page + count) * PAGE_SIZE ≤ x → mem' x = mem x) ∧
    ((¬∃ q, p.Fits count q) → p.alloc mem count = (0, p, mem)) := by
  rcases p.alloc_cases hcount mem with ⟨hret, hnone⟩ | ⟨page, hbelow, hfree, hmin, hret⟩
  · exact ⟨fun hex => absurd hex (not_fits_of_null hnone), fun _ => hret⟩
  · have hfits : p.Fits count page := fits_iff.mpr ⟨hbelow, hfree⟩
    have hleast : IsLeast {q | p.Fits count q} page := by
      refine ⟨hfits, fun q hq => Nat.le_of_not_lt fun hlt => ?_⟩
      exact hmin q hlt (fits_iff.mp hq).2
    -- page 0 is used, so the range found does not start at null
    have hpage : page ≠ 0 := by
      intro hpage
      subst hpage
      have hbit := hfree 0 (le_refl 0) (by omega)
      rw [hzero] at hbit
      exact absurd hbit (by decide)
    have hnull : page * PAGE_SIZE ≠ 0 := by
      unfold PAGE_SIZE
      omega
    constructor
    · intro _
      refine ⟨page, hleast, _, _, hret, hnull, rfl, fun i => ?_, fun x hlo hhi => ?_,
        fun x hx => ?_⟩
      · show (setBits p.bitmap page count).isBitSet i = true ↔ _
        rw [isBitSet_setBits, Bool.or_eq_true, decide_eq_true_eq, or_comm]
      · rw [Nat.add_mul] at hhi
        exact memset_of_mem hlo hhi
      · rw [Nat.add_mul] at hx
        exact memset_of_not_mem hx
    · intro hnone
      exact absurd ⟨page, hfits⟩ hnone

/-- Sixteen pages of which pages 0 and 2 are used: two pages are found behind
the hole that is too short. -/
theorem alloc_first_fit_sixteen : ∃ p : Pmm, p.bitmapSize = 2 ∧
    p.bitmap.isBitSet 0 = true ∧ p.Fits 2 3 ∧
    ∃ page, IsLeast {q | p.Fits 2 q} page ∧
      (p.alloc (fun _ => 1) 2).1 = page * PAGE_SIZE := by
  have hfits : Fits ⟨fun i => if i = 0 then 0xA0 else 0, 2, fits_two⟩ 2 3 := by
    refine ⟨by decide, fun j hlo hhi => ?_⟩
    obtain hj | hj : j = 3 ∨ j = 4 := by omega
    · rw [hj]
      decide
    · rw [hj]
      decide
  refine ⟨⟨fun i => if i = 0 then 0xA0 else 0, 2, fits_two⟩, rfl, by decide, hfits, ?_⟩
  obtain ⟨page, hleast, p', mem', hret, _⟩ :=
    (alloc_first_fit _ (fun _ => 1) (by decide) (by decide)).1 ⟨3, hfits⟩
  exact ⟨page, hleast, by rw [hret]⟩

end Pmm

end Toystar.Memory

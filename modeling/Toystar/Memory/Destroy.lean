import Toystar.Memory.PmmRun
import Toystar.Memory.Vmm

/-!
# What `destroy` gives back

An account of frames over the life of a pagemap.  Every frame it takes is paid for
with a free page: the top table, the tables `get_next_level` records, the data
frames of its ranges.  `destroy` frees at most the data frames and the recorded
tables.  The top table goes to the kernel heap's `delete`, which ignores it, so one
page is short at the end, whatever was mapped.

Page 0 is left out of the account: its address is the null that a failed
allocation returns, so a table recorded at 0 may or may not have cost a page.
-/

namespace Toystar.Memory

open Toystar.Klibc
open Toystar.Verified

/-! ## Free pages -/

namespace Pmm

/-- The free pages other than page 0. -/
def freePages (p : Pmm) : Nat :=
  freeCells (fun i => decide (i = 0) || p.bitmap.isBitSet i) p.pages

variable {p p' : Pmm} {mem mem' : ByteMem} {ptr count : Nat}

/-- What an allocation costs. -/
theorem freePages_alloc (hcount : 1 ≤ count)
    (hret : p.alloc mem count = (ptr, p', mem')) :
    p'.pages = p.pages ∧ (ptr ≠ 0 → p'.freePages + count = p.freePages) ∧
      (ptr = 0 → count = 1 → p'.freePages = p.freePages) := by
  rcases p.alloc_cases hcount mem with ⟨hfail, _⟩ | ⟨page, hbelow, hrange, _, hok⟩
  · rw [hret] at hfail
    cases hfail
    exact ⟨rfl, fun hne => absurd rfl hne, fun _ _ => rfl⟩
  · rw [hret] at hok
    cases hok
    have hpages : Pmm.pages { p with bitmap := setBits p.bitmap page count } = p.pages := rfl
    refine ⟨hpages, ?_, ?_⟩
    · intro hne
      have hpage : page ≠ 0 := by
        rintro rfl
        exact hne (Nat.zero_mul _)
      unfold freePages
      rw [hpages]
      refine freeCells_occupy hbelow ?_ ?_
      · intro j hlo hhi
        have hj : j ≠ 0 := by omega
        simp [hj, hrange j hlo hhi]
      · intro i
        rw [isBitSet_setBits]
        cases decide (i = 0) <;> cases decide (page ≤ i ∧ i < page + count) <;> simp
    · rintro hzero rfl
      have hpage : page = 0 := by
        unfold PAGE_SIZE at hzero
        omega
      unfold freePages
      rw [hpages]
      congr 1
      funext i
      rw [isBitSet_setBits, hpage]
      by_cases hi : i = 0
      · simp [hi]
      · simp [hi]

/-- What a release brings at most. -/
theorem freePages_free_le : (p.free ptr count).freePages ≤ p.freePages + count := by
  refine freeCells_le_add (ptr / PAGE_SIZE) count ?_
  intro i hi
  rw [Bool.or_eq_false_iff] at hi
  have hbit := hi.2
  rw [free, isBitSet_clearBits, Bool.and_eq_false_iff] at hbit
  rcases hbit with hin | hbit
  · exact .inr (by simpa using hin)
  · exact .inl (by rw [hi.1, hbit, Bool.or_false])

/-- Releasing page 0 brings nothing. -/
theorem freePages_free_zero : (p.free 0 1).freePages ≤ p.freePages := by
  unfold freePages
  refine freeCells_le_add 0 0 ?_
  intro i hi
  rw [Bool.or_eq_false_iff, decide_eq_false_iff_not] at hi
  have hbit := hi.2
  rw [free, isBitSet_clearBits] at hbit
  have hnot : ¬(0 / PAGE_SIZE ≤ i ∧ i < 0 / PAGE_SIZE + 1) := by
    have := hi.1
    unfold PAGE_SIZE
    omega
  rw [decide_eq_false hnot, Bool.not_false, Bool.true_and] at hbit
  exact .inl (by simp [hi.1, hbit])

/-- Releasing a table brings a page unless it is null. -/
theorem freePages_free_tables (p : Pmm) (tables : List Nat) :
    (tables.foldl (fun p table => p.free table 1) p).freePages ≤
      p.freePages + tables.countP (· ≠ 0) := by
  induction tables generalizing p with
  | nil => simp
  | cons table tables ih =>
      have hrest := ih (p.free table 1)
      rw [List.foldl_cons, List.countP_cons]
      by_cases hzero : table = 0
      · subst hzero
        have hfree := p.freePages_free_zero
        rw [if_neg (by simp)]
        omega
      · have hfree : (p.free table 1).freePages ≤ p.freePages + 1 := freePages_free_le
        rw [if_pos (by simpa using hzero)]
        omega

theorem pages_free_tables (p : Pmm) (tables : List Nat) :
    (tables.foldl (fun p table => p.free table 1) p).pages = p.pages := by
  induction tables generalizing p with
  | nil => rfl
  | cons table tables ih => rw [List.foldl_cons, ih, free_pages]

end Pmm

/-! ## The account of a pagemap -/

namespace Vmm

/-- The recorded tables that are frames: a failed allocation is recorded as null. -/
def framesRecorded (vm : Vmm) : Nat := vm.pageTablesAddr.countP (· ≠ 0)

/-- Free pages and recorded tables together grow by `d` at most. -/
structure Gives (d : Nat) (k : Machine Pmm) (vm : Vmm) (k' : Machine Pmm) (vm' : Vmm) :
    Prop where
  pages : k'.pmm.pages = k.pmm.pages
  ranges : vm'.ranges = vm.ranges
  balance : k'.pmm.freePages + vm'.framesRecorded ≤
    k.pmm.freePages + vm.framesRecorded + d

variable {k k₁ k₂ : Machine Pmm} {vm vm₁ vm₂ : Vmm} {d d₁ d₂ : Nat}

theorem Gives.refl (k : Machine Pmm) (vm : Vmm) : Gives 0 k vm k vm :=
  ⟨rfl, rfl, le_refl _⟩

theorem Gives.trans (h₁ : Gives d₁ k vm k₁ vm₁) (h₂ : Gives d₂ k₁ vm₁ k₂ vm₂) :
    Gives (d₁ + d₂) k vm k₂ vm₂ := by
  refine ⟨h₂.pages.trans h₁.pages, h₂.ranges.trans h₁.ranges, ?_⟩
  have hfirst := h₁.balance
  have hsecond := h₂.balance
  omega

/-- Memory is not part of the account. -/
theorem Gives.setMem (h : Gives d k vm k₁ vm₁) (mem : ByteMem) :
    Gives d k vm { k₁ with mem } vm₁ :=
  ⟨h.pages, h.ranges, h.balance⟩

/-- A table made is recorded. -/
theorem getNextLevel_gives {curr entry t : Nat}
    (hret : getNextLevel allocFrame k vm curr entry = (t, k₁, vm₁)) : Gives 0 k vm k₁ vm₁ := by
  rcases halloc : allocFrame k.pmm k.mem with ⟨ptr, pmm, mem⟩
  rcases Pmm.freePages_alloc (le_refl 1) halloc with ⟨hpages, hsome, hnull⟩
  rw [getNextLevel] at hret
  split at hret
  · rw [halloc] at hret
    cases hret
    refine ⟨hpages, rfl, ?_⟩
    rw [framesRecorded, framesRecorded, List.countP_append, List.countP_singleton]
    change pmm.freePages + _ ≤ _
    by_cases hzero : t = 0
    · have hfree := hnull hzero rfl
      rw [if_neg (by simpa using hzero)]
      omega
    · have hfree := hsome hzero
      rw [if_pos (by simpa using hzero)]
      omega
  · cases hret
    exact Gives.refl k vm

theorem walk_gives {virt t : Nat} (hret : walk allocFrame k vm virt = (t, k₁, vm₁)) :
    Gives 0 k vm k₁ vm₁ := by
  rcases hpdp : getNextLevel allocFrame k vm vm.pml4 (getPml4e virt) with ⟨pdp, ka, vma⟩
  rcases hpd : getNextLevel allocFrame ka vma pdp (getPdpe virt) with ⟨pd, kb, vmb⟩
  rw [walk, hpdp] at hret
  dsimp only at hret
  rw [hpd] at hret
  have hupper := (getNextLevel_gives hpdp).trans (getNextLevel_gives hpd)
  exact hupper.trans (getNextLevel_gives hret)

theorem mapPage_gives {virt phys flags : Nat}
    (hret : mapPage allocFrame k vm virt phys flags = (k₁, vm₁)) : Gives 0 k vm k₁ vm₁ := by
  rcases hwalk : walk allocFrame k vm virt with ⟨t, ka, vma⟩
  rw [mapPage, hwalk] at hret
  cases hret
  exact (walk_gives hwalk).setMem _

theorem mapPages_gives {virt phys prot n : Nat} {s : Machine Pmm × Vmm}
    (hret : mapPages allocFrame virt phys prot n s = (k₁, vm₁)) :
    Gives 0 s.1 s.2 k₁ vm₁ := by
  induction n generalizing k₁ vm₁ with
  | zero =>
      cases hret
      exact Gives.refl _ _
  | succ n ih =>
      rcases hrest : mapPages allocFrame virt phys prot n s with ⟨ka, vma⟩
      rw [mapPages, hrest] at hret
      exact (ih hrest).trans (mapPage_gives hret)

/-- What one range brings. -/
theorem freeRange_gives {range : MemArea} {s : Machine Pmm × Vmm}
    (hret : freeRange s range = (k₁, vm₁)) :
    Gives (pageAmount range.limit) s.1 s.2 k₁ vm₁ := by
  rcases hwalk : walk allocFrame s.1 s.2 range.base with ⟨t, ka, vma⟩
  have hgives := walk_gives hwalk
  rw [freeRange, virtualToPhysical, hwalk] at hret
  cases hret
  refine ⟨hgives.pages, hgives.ranges, ?_⟩
  have hbalance := hgives.balance
  have hfree : ∀ ptr, (ka.pmm.free ptr (pageAmount range.limit)).freePages ≤
      ka.pmm.freePages + pageAmount range.limit := fun _ => Pmm.freePages_free_le
  have hdata := hfree (entryAt ka.mem t (getPte range.base) &&& frameMask)
  dsimp only
  omega

theorem freeRanges_gives {ranges : List MemArea} {s : Machine Pmm × Vmm}
    (hret : ranges.foldl freeRange s = (k₁, vm₁)) :
    Gives (ranges.map fun range => pageAmount range.limit).sum s.1 s.2 k₁ vm₁ := by
  induction ranges generalizing s with
  | nil =>
      cases hret
      exact Gives.refl _ _
  | cons range ranges ih =>
      rcases hfirst : freeRange s range with ⟨ka, vma⟩
      rw [List.foldl_cons, hfirst] at hret
      rw [List.map_cons, List.sum_cons]
      exact (freeRange_gives hfirst).trans (ih hret)

/-- `destroy` gives back the data frames and the recorded tables at most. -/
theorem destroy_gives (k : Machine Pmm) (vm : Vmm) :
    (destroy k vm).pmm.pages = k.pmm.pages ∧
      (destroy k vm).pmm.freePages ≤ k.pmm.freePages + vm.framesRecorded +
        (vm.ranges.map fun range => pageAmount range.limit).sum := by
  rcases hdata : vm.ranges.foldl freeRange (k, vm) with ⟨ka, vma⟩
  have hgives := freeRanges_gives hdata
  have hbalance := hgives.balance
  have htables := ka.pmm.freePages_free_tables vma.pageTablesAddr
  have hpages := ka.pmm.pages_free_tables vma.pageTablesAddr
  rw [destroy, hdata]
  unfold framesRecorded at hbalance ⊢
  exact ⟨hpages.trans hgives.pages, le_trans htables hbalance⟩

/-- The pages of a range of whole pages. -/
theorem pageAmount_le (limit : Nat) (hlimit : PAGE_SIZE ∣ limit) :
    pageAmount limit ≤ limit / PAGE_SIZE := by
  obtain ⟨n, rfl⟩ := hlimit
  have hmod := Nat.mod_le (PAGE_SIZE * n + PAGE_SIZE - 1) (2 ^ 64)
  unfold pageAmount
  unfold PAGE_SIZE at *
  omega

/-- `map_range` records its range and pays for its tables. -/
theorem mapRange_gives {virt phys length prot flags : Nat}
    (hret : mapRange allocFrame k vm virt phys length prot flags = (k₁, vm₁)) :
    k₁.pmm.pages = k.pmm.pages ∧ vm₁.ranges = vm.ranges ++ [⟨virt, length, prot, flags⟩] ∧
      k₁.pmm.freePages + vm₁.framesRecorded ≤ k.pmm.freePages + vm.framesRecorded := by
  rw [mapRange, mapRangeRaw] at hret
  have hgives := mapPages_gives hret
  exact ⟨hgives.pages, hgives.ranges, hgives.balance⟩

end Vmm

/-! ## From `vmm(true)` to `destroy` -/

/-- The machine, the pagemap once it is made, and the allocations that are still to be
mapped. -/
structure PagemapState where
  machine : Machine Pmm
  vm : Option Vmm
  pending : List Frames

inductive PagemapOp
  | alloc (count : Nat)
  | new
  | mapRange (virt phys length prot flags : Nat)

/-- Allocations that succeed, one `vmm(true)`, and `map_range` over page-aligned user
ranges apart from those before, each backed by an allocation of its own. -/
inductive PagemapStep (kernelPml4 : Nat) : PagemapState → PagemapOp → PagemapState → Prop
  | alloc {k : Machine Pmm} {vm : Option Vmm} {pending : List Frames} {count ptr : Nat}
      {pmm : Pmm} {mem : ByteMem} :
      1 ≤ count → k.pmm.alloc k.mem count = (ptr, pmm, mem) → ptr ≠ 0 →
      PagemapStep kernelPml4 ⟨k, vm, pending⟩ (.alloc count)
        ⟨⟨mem, pmm⟩, vm, ⟨ptr, count⟩ :: pending⟩
  | new {k k' : Machine Pmm} {vm : Vmm} {pending : List Frames} :
      Vmm.new Vmm.allocFrame k kernelPml4 = (k', vm) → vm.pml4 ≠ 0 →
      PagemapStep kernelPml4 ⟨k, none, pending⟩ .new ⟨k', some vm, pending⟩
  | mapRange {k k' : Machine Pmm} {vm vm' : Vmm} {pending : List Frames}
      {virt phys length prot flags : Nat} :
      PAGE_SIZE ∣ virt → 0 < length → PAGE_SIZE ∣ length → virt + length ≤ 2 ^ 47 →
      (∀ range ∈ vm.ranges, virt + length ≤ range.base ∨ range.base + range.limit ≤ virt) →
      ⟨phys, length / PAGE_SIZE⟩ ∈ pending →
      Vmm.mapRange Vmm.allocFrame k vm virt phys length prot flags = (k', vm') →
      PagemapStep kernelPml4 ⟨k, some vm, pending⟩ (.mapRange virt phys length prot flags)
        ⟨k', some vm', pending.erase ⟨phys, length / PAGE_SIZE⟩⟩

/-- The frames `destroy` will give back, and the top table. -/
def Vmm.held (vm : Vmm) : Nat :=
  vm.framesRecorded + (vm.ranges.map fun range => Vmm.pageAmount range.limit).sum + 1

/-- Every frame held was a free page of `p₀`. -/
structure Balanced (p₀ : Pmm) (s : PagemapState) : Prop where
  pages : s.machine.pmm.pages = p₀.pages
  balance : s.machine.pmm.freePages + s.vm.elim 0 Vmm.held +
    (s.pending.map (·.count)).sum ≤ p₀.freePages

theorem Balanced.step {p₀ : Pmm} {s s' : PagemapState} {op : PagemapOp} {kernelPml4 : Nat}
    (hs : Balanced p₀ s) (hstep : PagemapStep kernelPml4 s op s') : Balanced p₀ s' := by
  rcases hs with ⟨hpages, hbalance⟩
  cases hstep with
  | alloc hcount hret hptr =>
      rcases Pmm.freePages_alloc hcount hret with ⟨hpages', hpaid, _⟩
      have hcost := hpaid hptr
      refine ⟨hpages'.trans hpages, ?_⟩
      simp only [List.map_cons, List.sum_cons] at hbalance ⊢
      omega
  | @new k k' vm pending hret hpml4 =>
      rcases halloc : Vmm.allocFrame k.pmm k.mem with ⟨ptr, pmm, mem⟩
      rw [Vmm.new, halloc] at hret
      cases hret
      rcases Pmm.freePages_alloc (le_refl 1) halloc with ⟨hpages', hpaid, _⟩
      have hcost := hpaid hpml4
      refine ⟨hpages'.trans hpages, ?_⟩
      simp only [Option.elim, Vmm.held, Vmm.framesRecorded, List.countP_nil, List.map_nil,
        List.sum_nil] at hbalance ⊢
      omega
  | @mapRange k k' vm vm' pending virt phys length _ _ _ _ hlength _ _ hmem hret =>
      rcases Vmm.mapRange_gives hret with ⟨hpages', hranges, hpaid⟩
      have hamount := Vmm.pageAmount_le length hlength
      have hsum := ((List.perm_cons_erase hmem).map (·.count)).sum_eq
      rw [List.map_cons, List.sum_cons] at hsum
      dsimp only at hsum
      refine ⟨hpages'.trans hpages, ?_⟩
      simp only [Option.elim, Vmm.held, hranges, List.map_append, List.sum_append,
        List.map_cons, List.map_nil, List.sum_cons, List.sum_nil] at hbalance ⊢
      omega

/-- After all allocations were mapped `destroy` never leaves the bitmap as it was: the
top table is still in use. -/
theorem destroy_never_exact (p₀ : Pmm) (mem : ByteMem) (kernelPml4 : Nat)
    {ops : List PagemapOp} {s : PagemapState} {vm : Vmm}
    (hrun : Run (PagemapStep kernelPml4) ⟨⟨mem, p₀⟩, none, []⟩ ops s)
    (hvm : s.vm = some vm) (hpending : s.pending = []) :
    ¬∀ i, (Vmm.destroy s.machine vm).pmm.bitmap.isBitSet i = p₀.bitmap.isBitSet i := by
  intro hexact
  have hs : Balanced p₀ s := hrun.invariant (I := Balanced p₀) Balanced.step ⟨rfl, by simp⟩
  rcases Vmm.destroy_gives s.machine vm with ⟨hpages, hgives⟩
  have hbalance := hs.balance
  rw [hvm, hpending, Option.elim_some, List.map_nil, List.sum_nil, Vmm.held] at hbalance
  have hsame : (Vmm.destroy s.machine vm).pmm.freePages = p₀.freePages := by
    unfold Pmm.freePages
    rw [hpages, hs.pages, funext hexact]
  omega

/-- Sixteen pages of which page 0 is used. -/
def sixteenPages : Pmm := ⟨fun i => if i = 0 then 0x80 else 0, 2, Pmm.fits_two⟩

/-- One page allocated, mapped at 0x400000 and given back with its tables. -/
theorem destroy_never_exact_page :
    ∃ (s : PagemapState) (vm : Vmm),
      Run (PagemapStep 0) ⟨⟨fun _ => 0, sixteenPages⟩, none, []⟩
        [.alloc 1, .new, .mapRange 0x400000 0x1000 4096 7 0] s ∧
      s.vm = some vm ∧
      ¬∀ i, (Vmm.destroy s.machine vm).pmm.bitmap.isBitSet i =
        sixteenPages.bitmap.isBitSet i := by
  have hrun : ∃ s vm, Run (PagemapStep 0) ⟨⟨fun _ => 0, sixteenPages⟩, none, []⟩
      [.alloc 1, .new, .mapRange 0x400000 0x1000 4096 7 0] s ∧ s.vm = some vm ∧
      s.pending = [] := by
    refine ⟨_, _, .cons (.alloc (le_refl 1) rfl (by decide))
      (.cons (.new rfl (by decide)) (.cons (.mapRange (by decide) (by decide) (by decide)
        (by decide) ?_ (by decide) rfl) (.nil _))), rfl, by decide⟩
    intro range hrange
    cases hrange
  rcases hrun with ⟨s, vm, hrun, hvm, hpending⟩
  exact ⟨s, vm, hrun, hvm, destroy_never_exact _ _ 0 hrun hvm hpending⟩

/-- `vmm(true)` and `destroy` alone: page 1, the top table, stays in use. -/
theorem destroy_keeps_pml4 :
    ∃ (s : PagemapState) (vm : Vmm),
      Run (PagemapStep 0) ⟨⟨fun _ => 0, sixteenPages⟩, none, []⟩ [.new] s ∧
      s.vm = some vm ∧ s.pending = [] ∧ vm.pml4 = 0x1000 ∧
      sixteenPages.bitmap.isBitSet 1 = false ∧
      (Vmm.destroy s.machine vm).pmm.bitmap.isBitSet 1 = true := by
  refine ⟨_, _, .cons (.new rfl (by decide)) (.nil _), rfl, rfl, by decide, by decide, ?_⟩
  decide

end Toystar.Memory

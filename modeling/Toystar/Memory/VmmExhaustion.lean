import Toystar.Memory.VmmRange

/-!
# Page tables when frames run out

`get_next_level` stores and records whatever `PMM::alloc` returns, null included.
For a walk over any memory, whatever its tables hold, the frames it links are
listed (`walkLinked`) and compared with the frames the allocator really handed
out: they are the same exactly when the allocator has a frame for every table
that is missing on the way (`exhaustion_iff`).
-/

namespace Toystar.Memory

open Toystar.Klibc
open Toystar.Verified

variable {σ : Type}

/-! ## The walk, level by level -/

/-- A table, and the machine and the pagemap with it. -/
abbrev Level (σ : Type) := Nat × Machine σ × Vmm

/-- A call of `get_next_level` on the table at hand. -/
def nextLevel (alloc : FrameAlloc σ) (s : Level σ) (i : Nat) : Level σ :=
  Vmm.getNextLevel alloc s.2.1 s.2.2 s.1 i

/-- The frame it links into the table, if any. -/
def linkedAt (alloc : FrameAlloc σ) (s : Level σ) (i : Nat) : List Nat :=
  if entryAt s.2.1.mem s.1 i = 0 then [(alloc s.2.1.pmm s.2.1.mem).1] else []

/-- What the steps of `List.foldl step` put out. -/
def collect {S ι β : Type} (step : S → ι → S) (out : S → ι → List β) :
    List ι → S → List β
  | [], _ => []
  | i :: is, s => out s i ++ collect step out is (step s i)

/-- The indices of an address from the top table down. -/
def indices (virt : Nat) : List Nat := [getPml4e virt, getPdpe virt, getPde virt]

/-- The frames that a walk to `virt` links into tables. -/
def walkLinked (alloc : FrameAlloc σ) (k : Machine σ) (vm : Vmm) (virt : Nat) : List Nat :=
  collect (nextLevel alloc) (linkedAt alloc) (indices virt) (vm.pml4, k, vm)

theorem walk_eq_foldl (alloc : FrameAlloc σ) (k : Machine σ) (vm : Vmm) (virt : Nat) :
    Vmm.walk alloc k vm virt =
      (indices virt).foldl (nextLevel alloc) (vm.pml4, k, vm) := by
  obtain ⟨pdp, h₁⟩ : ∃ r,
      Vmm.getNextLevel alloc k vm vm.pml4 (getPml4e virt) = r := ⟨_, rfl⟩
  obtain ⟨pd, h₂⟩ : ∃ r,
      Vmm.getNextLevel alloc pdp.2.1 pdp.2.2 pdp.1 (getPdpe virt) = r := ⟨_, rfl⟩
  obtain ⟨pt, h₃⟩ : ∃ r,
      Vmm.getNextLevel alloc pd.2.1 pd.2.2 pd.1 (getPde virt) = r := ⟨_, rfl⟩
  simp only [Vmm.walk, indices, List.foldl_cons, List.foldl_nil, nextLevel, h₁, h₂, h₃]

theorem indices_lt {virt i : Nat} (hi : i ∈ indices virt) : i < 512 := by
  simp only [indices, List.mem_cons, List.not_mem_nil, or_false] at hi
  rcases hi with rfl | rfl | rfl
  all_goals exact Nat.mod_lt _ (by decide)

theorem recorded_nextLevel (alloc : FrameAlloc σ) (s : Level σ) (i : Nat) :
    (nextLevel alloc s i).2.2.pageTablesAddr =
      s.2.2.pageTablesAddr ++ linkedAt alloc s i := by
  rw [nextLevel, linkedAt, Vmm.getNextLevel]
  split
  · rfl
  · rw [List.append_nil]

/-- What is linked is recorded, in this order. -/
theorem recorded_foldl (alloc : FrameAlloc σ) (is : List Nat) (s : Level σ) :
    (is.foldl (nextLevel alloc) s).2.2.pageTablesAddr =
      s.2.2.pageTablesAddr ++ collect (nextLevel alloc) (linkedAt alloc) is s := by
  induction is generalizing s with
  | nil => rw [List.foldl_nil, collect, List.append_nil]
  | cons i is ih =>
      rw [List.foldl_cons, collect, ih, recorded_nextLevel, List.append_assoc]

/-- How many tables are missing on the way from table `t`. -/
def missingTables (mem : ByteMem) : List Nat → Nat → Nat
  | [], _ => 0
  | i :: is, t => (nextTable mem t i).elim (is.length + 1) (missingTables mem is)

/-- The tables that exist on the way, but the last. -/
def upperTables (mem : ByteMem) : List Nat → Nat → List Nat
  | [], _ => []
  | i :: is, t => t :: (nextTable mem t i).elim [] (upperTables mem is)

/-! ## Frames handed out -/

/-- Frame `t` was handed out between two states of the allocator. -/
def Handed (p p' : Pmm) (t : Nat) : Prop :=
  t ≠ 0 ∧ ∃ page, t = page * PAGE_SIZE ∧ p.bitmap.isBitSet page = false ∧
    p'.bitmap.isBitSet page = true

/-- The frame of a table is not free. -/
def InUse (p : Pmm) (t : Nat) : Prop :=
  PAGE_SIZE ∣ t ∧ (t / PAGE_SIZE < p.pages → p.bitmap.isBitSet (t / PAGE_SIZE) = true)

instance (p : Pmm) (t : Nat) : Decidable (InUse p t) :=
  inferInstanceAs (Decidable (_ ∧ (_ → _)))

/-- `m` requests for a frame can be served; page 0 is as good as none, its address
being null. -/
def Enough (m : Nat) (p : Pmm) : Prop :=
  m = 0 ∨ p.bitmap.isBitSet 0 = true ∧ m ≤ freeCells p.bitmap.isBitSet p.pages

instance (m : Nat) (p : Pmm) : Decidable (Enough m p) :=
  inferInstanceAs (Decidable (_ ∨ _ ∧ _))

/-- No frame in use becomes free. -/
def KeepsUsed (p p' : Pmm) : Prop :=
  ∀ i, p.bitmap.isBitSet i = true → p'.bitmap.isBitSet i = true

theorem Handed.of_keepsUsed {p₀ p p' : Pmm} {t : Nat} (h : Handed p p' t)
    (hkeep : KeepsUsed p₀ p) : Handed p₀ p' t := by
  obtain ⟨hne, page, heq, hfree, hused⟩ := h
  refine ⟨hne, page, heq, ?_, hused⟩
  by_contra hset
  rw [hkeep page (Bool.eq_true_of_not_eq_false hset)] at hfree
  cases hfree

/-- The allocator once page `page` is taken. -/
def Pmm.take (p : Pmm) (page : Nat) : Pmm :=
  { p with bitmap := Pmm.setBits p.bitmap page 1 }

theorem Pmm.isBitSet_take (p : Pmm) (page i : Nat) :
    (p.take page).bitmap.isBitSet i = (decide (i = page) || p.bitmap.isBitSet i) := by
  rw [take, isBitSet_setBits]
  congr 1
  rw [decide_eq_decide]
  omega

theorem keepsUsed_take (p : Pmm) (page : Nat) : KeepsUsed p (p.take page) := by
  intro i hi
  rw [Pmm.isBitSet_take, hi, Bool.or_true]

/-- A request for one frame: null, or the lowest free page. -/
theorem allocFrame_lowest (p : Pmm) :
    ((∀ mem, Vmm.allocFrame p mem = (0, p, mem)) ∧
      freeCells p.bitmap.isBitSet p.pages = 0) ∨
    ∃ page, (∀ mem, Vmm.allocFrame p mem = (page * PAGE_SIZE, p.take page,
        memset mem (page * PAGE_SIZE) 0 PAGE_SIZE)) ∧
      page < p.pages ∧ p.bitmap.isBitSet page = false ∧
      (page ≠ 0 → p.bitmap.isBitSet 0 = true) ∧
      freeCells (p.take page).bitmap.isBitSet p.pages + 1 =
        freeCells p.bitmap.isBitSet p.pages :=
  allocFrame_first p

/-- Taking a page while page 0 is in use serves one of the requests. -/
theorem enough_take_iff {p : Pmm} {page m : Nat} (hzero : p.bitmap.isBitSet 0 = true)
    (hcells : freeCells (p.take page).bitmap.isBitSet p.pages + 1 =
      freeCells p.bitmap.isBitSet p.pages) :
    Enough m (p.take page) ↔ Enough (m + 1) p := by
  have hkept : (p.take page).bitmap.isBitSet 0 = true := keepsUsed_take p page 0 hzero
  have hpages : (p.take page).pages = p.pages := rfl
  rw [Enough, Enough, hkept, hzero, hpages]
  constructor
  · rintro (rfl | ⟨_, hle⟩)
    · exact .inr ⟨rfl, by omega⟩
    · exact .inr ⟨rfl, by omega⟩
  · rintro (hcontra | ⟨_, hle⟩)
    · omega
    · exact .inr ⟨rfl, by omega⟩

/-! ## A walk with and without frames -/

/-- The calls below a level link frames that were handed out, if there are enough, and
null among others if not. -/
structure Served (is : List Nat) (s : Level Pmm) (need : Nat) : Prop where
  handed : Enough need s.2.1.pmm →
    ∀ t ∈ collect (nextLevel Vmm.allocFrame) (linkedAt Vmm.allocFrame) is s,
      Handed s.2.1.pmm (is.foldl (nextLevel Vmm.allocFrame) s).2.1.pmm t
  null : ¬Enough need s.2.1.pmm →
    0 ∈ collect (nextLevel Vmm.allocFrame) (linkedAt Vmm.allocFrame) is s

/-- A call that finds the table. -/
theorem nextLevel_of_nextTable {s : Level Pmm} {i t : Nat}
    (h : nextTable s.2.1.mem s.1 i = some t) :
    nextLevel Vmm.allocFrame s i = (t, s.2.1, s.2.2) ∧
      linkedAt Vmm.allocFrame s i = [] := by
  constructor
  · exact getNextLevel_of_nextTable h
  · rw [nextTable] at h
    split at h
    · cases h
    · rename_i hne
      rw [linkedAt, if_neg hne]

theorem entryAt_of_nextTable_none {mem : ByteMem} {t i : Nat}
    (h : nextTable mem t i = none) : entryAt mem t i = 0 := by
  rw [nextTable] at h
  split at h
  · assumption
  · cases h

/-- A call that does not. -/
theorem nextLevel_of_missing {s : Level Pmm} {i f : Nat} {p' : Pmm} {mem' : ByteMem}
    (h : nextTable s.2.1.mem s.1 i = none)
    (hret : Vmm.allocFrame s.2.1.pmm s.2.1.mem = (f, p', mem')) :
    nextLevel Vmm.allocFrame s i =
        (f, ⟨setEntry mem' s.1 i (f ||| 0b111), p'⟩,
          { s.2.2 with pageTablesAddr := s.2.2.pageTablesAddr ++ [f] }) ∧
      linkedAt Vmm.allocFrame s i = [f] := by
  have hzero := entryAt_of_nextTable_none h
  constructor
  · rw [nextLevel, Vmm.getNextLevel, if_pos hzero, hret]
  · rw [linkedAt, if_pos hzero, hret]

theorem keepsUsed_allocFrame (p : Pmm) (mem : ByteMem) :
    KeepsUsed p (Vmm.allocFrame p mem).2.1 := by
  rcases allocFrame_lowest p with ⟨hret, _⟩ | ⟨page, hret, _⟩
  · rw [hret]
    exact fun _ hi => hi
  · rw [hret]
    exact keepsUsed_take p page

theorem keepsUsed_nextLevel (s : Level Pmm) (i : Nat) :
    KeepsUsed s.2.1.pmm (nextLevel Vmm.allocFrame s i).2.1.pmm := by
  cases hnext : nextTable s.2.1.mem s.1 i with
  | some t =>
      rw [(nextLevel_of_nextTable hnext).1]
      exact fun _ hi => hi
  | none =>
      rw [(nextLevel_of_missing hnext rfl).1]
      exact keepsUsed_allocFrame _ _

theorem keepsUsed_foldl (is : List Nat) (s : Level Pmm) :
    KeepsUsed s.2.1.pmm (is.foldl (nextLevel Vmm.allocFrame) s).2.1.pmm := by
  induction is generalizing s with
  | nil => exact fun _ hi => hi
  | cons i is ih =>
      rw [List.foldl_cons]
      exact fun j hj => ih _ j (keepsUsed_nextLevel s i j hj)

/-- Below a zeroed table all are missing. -/
theorem missingTables_zeroed {mem : ByteMem} {is : List Nat} {t : Nat}
    (hzero : ∀ i ∈ is, entryAt mem t i = 0) :
    missingTables mem is t = is.length ∧ ∀ u ∈ upperTables mem is t, u = t := by
  cases is with
  | nil => exact ⟨rfl, fun u hu => by cases hu⟩
  | cons i is =>
      have hnone : nextTable mem t i = none := if_pos (hzero i List.mem_cons_self)
      rw [missingTables, upperTables, hnone]
      exact ⟨rfl, fun u hu => List.mem_singleton.mp hu⟩

/-- A table that is in use is not the frame that is taken. -/
theorem InUse.ne_of_free {p : Pmm} {t page : Nat} (h : InUse p t) (hlt : page < p.pages)
    (hfree : p.bitmap.isBitSet page = false) : t ≠ page * PAGE_SIZE := by
  rintro rfl
  have hpage : page * PAGE_SIZE / PAGE_SIZE = page := Nat.mul_div_cancel _ (by decide)
  have hset := h.2
  rw [hpage, hfree] at hset
  cases hset hlt

theorem inUse_take (p : Pmm) (page : Nat) : InUse (p.take page) (page * PAGE_SIZE) := by
  have hpage : page * PAGE_SIZE / PAGE_SIZE = page := Nat.mul_div_cancel _ (by decide)
  refine ⟨Nat.dvd_mul_left _ _, fun _ => ?_⟩
  rw [hpage, Pmm.isBitSet_take, decide_eq_true rfl, Bool.true_or]

/-- Linking it leaves a new table zero. -/
theorem entryAt_taken {mem : ByteMem} {t f i j : Nat} (ht : PAGE_SIZE ∣ t)
    (hf : PAGE_SIZE ∣ f) (hi : i < 512) (hj : j < 512) (hne : t ≠ f) (v : Nat) :
    entryAt (setEntry (memset mem f 0 PAGE_SIZE) t i v) f j = 0 := by
  rw [entryAt_setEntry_of_ne ht hf hi hj (.inl hne), entryAt_memset_self hj]

/-- From a zeroed table on, a walk needs a frame for every level. -/
theorem served_zeroed {is : List Nat} {s : Level Pmm}
    (hserved : ∀ s : Level Pmm, (∀ t ∈ upperTables s.2.1.mem is s.1, InUse s.2.1.pmm t) →
      Served is s (missingTables s.2.1.mem is s.1))
    (hzero : ∀ i ∈ is, entryAt s.2.1.mem s.1 i = 0) (hused : InUse s.2.1.pmm s.1) :
    Served is s is.length := by
  obtain ⟨hmissing, hupper⟩ := missingTables_zeroed hzero
  have h := hserved s fun u hu => by
    rw [hupper u hu]
    exact hused
  rwa [hmissing] at h

/-- A walk through tables that are in use. -/
theorem served_foldl (is : List Nat) (his : ∀ i ∈ is, i < 512) (s : Level Pmm)
    (hused : ∀ t ∈ upperTables s.2.1.mem is s.1, InUse s.2.1.pmm t) :
    Served is s (missingTables s.2.1.mem is s.1) := by
  induction is generalizing s with
  | nil =>
      constructor
      · intro _ t ht
        cases ht
      · intro hcontra
        exact absurd (Or.inl rfl) hcontra
  | cons i is ih =>
      have his' : ∀ j ∈ is, j < 512 := fun j hj => his j (List.mem_cons_of_mem _ hj)
      cases hnext : nextTable s.2.1.mem s.1 i with
      | some t =>
          -- the table exists: nothing is linked here
          obtain ⟨hstep, hlinked⟩ := nextLevel_of_nextTable hnext
          rw [upperTables, hnext, Option.elim_some] at hused
          have hrest := ih his' (t, s.2.1, s.2.2) fun u hu =>
            hused u (List.mem_cons_of_mem _ hu)
          rw [missingTables, hnext, Option.elim_some]
          constructor
          · rw [collect, hlinked, hstep, List.nil_append, List.foldl_cons, hstep]
            exact hrest.handed
          · rw [collect, hlinked, hstep, List.nil_append]
            exact hrest.null
      | none =>
          rw [upperTables, hnext, Option.elim_none] at hused
          have ht := hused s.1 (List.mem_singleton_self _)
          rw [missingTables, hnext, Option.elim_none]
          rcases allocFrame_lowest s.2.1.pmm with
            ⟨hret, hnone⟩ | ⟨page, hret, hlt, hfree, hlowest, hcells⟩
          · -- no frame: null is linked
            obtain ⟨_, hlinked⟩ := nextLevel_of_missing hnext (hret _)
            constructor
            · rintro (hcontra | ⟨_, hle⟩)
              · omega
              · omega
            · intro _
              rw [collect, hlinked]
              exact List.mem_cons_self
          · obtain ⟨hstep, hlinked⟩ := nextLevel_of_missing hnext (hret _)
            by_cases hpage : page = 0
            · -- page 0, whose address is null
              subst hpage
              constructor
              · rintro (hcontra | ⟨hzero, _⟩)
                · omega
                · rw [hzero] at hfree
                  cases hfree
              · intro _
                rw [collect, hlinked, Nat.zero_mul]
                exact List.mem_cons_self
            · -- a frame: the new table is zero, and there is one frame less
              have hzero := hlowest hpage
              have hne := ht.ne_of_free hlt hfree
              have hal : PAGE_SIZE ∣ page * PAGE_SIZE := Nat.dvd_mul_left _ _
              have hi := his i List.mem_cons_self
              have hrest : Served is (nextLevel Vmm.allocFrame s i) is.length := by
                rw [hstep]
                apply served_zeroed (ih his')
                · exact fun j hj => entryAt_taken ht.1 hal hi (his' j hj) hne _
                · exact inUse_take s.2.1.pmm page
              have hpmm : (nextLevel Vmm.allocFrame s i).2.1.pmm = s.2.1.pmm.take page := by
                rw [hstep]
              have henough := enough_take_iff (m := is.length) hzero hcells
              rw [← hpmm] at henough
              constructor
              · intro hserve t hmem
                rw [List.foldl_cons]
                rw [collect, hlinked, List.mem_append, List.mem_singleton] at hmem
                rcases hmem with rfl | hmem
                · refine ⟨Nat.mul_ne_zero hpage (by decide), page, rfl, hfree, ?_⟩
                  refine keepsUsed_foldl is _ page ?_
                  rw [hpmm, Pmm.isBitSet_take, decide_eq_true rfl, Bool.true_or]
                · exact (hrest.handed (henough.mpr hserve) t hmem).of_keepsUsed
                    (keepsUsed_nextLevel s i)
              · intro hserve
                rw [collect]
                exact List.mem_append_right _
                  (hrest.null fun hcontra => hserve (henough.mp hcontra))

/-! ## `map_page` and `virtual_to_physical` -/

/-- The tables that a walk to `virt` needs and does not find. -/
def missing (k : Machine Pmm) (vm : Vmm) (virt : Nat) : Nat :=
  missingTables k.mem (indices virt) vm.pml4

/-- Every table frame that a call for `virt` installs or records was handed out by the
allocator during the call, and when it has not got enough of them what the pagemap maps
stays mapped. -/
structure Survives (virt : Nat) (k k' : Machine Pmm) (vm vm' : Vmm) : Prop where
  installed : ∀ t ∈ walkLinked Vmm.allocFrame k vm virt, Handed k.pmm k'.pmm t
  recorded : ∃ new, vm'.pageTablesAddr = vm.pageTablesAddr ++ new ∧
    ∀ t ∈ new, Handed k.pmm k'.pmm t
  kept : ¬Enough (missing k vm virt) k.pmm → ∀ w, lookup k.mem vm.pml4 w ≠ 0 →
    lookup k'.mem vm'.pml4 w = lookup k.mem vm.pml4 w

/-- A call that allocates as a walk does. -/
theorem survives_iff {k k' : Machine Pmm} {vm vm' : Vmm} {virt : Nat}
    (hused : ∀ t ∈ upperTables k.mem (indices virt) vm.pml4, InUse k.pmm t)
    (hpmm : k'.pmm = (Vmm.walk Vmm.allocFrame k vm virt).2.1.pmm)
    (hvm : vm' = (Vmm.walk Vmm.allocFrame k vm virt).2.2) :
    Survives virt k k' vm vm' ↔ Enough (missing k vm virt) k.pmm := by
  have hserved := served_foldl (indices virt) (fun _ => indices_lt) (vm.pml4, k, vm) hused
  rw [walk_eq_foldl] at hpmm hvm
  constructor
  · intro h
    by_contra hfew
    exact (h.installed 0 (hserved.null hfew)).1 rfl
  · intro henough
    have hhanded := hserved.handed henough
    rw [← hpmm] at hhanded
    refine ⟨hhanded, ⟨_, ?_, hhanded⟩, fun hcontra => absurd henough hcontra⟩
    rw [hvm, recorded_foldl]

/-- For every memory and every address: the frames that `map_page` and
`virtual_to_physical` install and record are frames the allocator handed out, and nothing
is lost without them, if and only if it has a frame for each table that is missing. -/
theorem exhaustion_iff (k : Machine Pmm) (vm : Vmm) (virt phys flags : Nat)
    (hused : ∀ t ∈ upperTables k.mem (indices virt) vm.pml4, InUse k.pmm t) :
    (Survives virt k (Vmm.mapPage Vmm.allocFrame k vm virt phys flags).1 vm
        (Vmm.mapPage Vmm.allocFrame k vm virt phys flags).2 ↔
      Enough (missing k vm virt) k.pmm) ∧
    (Survives virt k (Vmm.virtualToPhysical Vmm.allocFrame k vm virt).2.1 vm
        (Vmm.virtualToPhysical Vmm.allocFrame k vm virt).2.2 ↔
      Enough (missing k vm virt) k.pmm) := by
  obtain ⟨pt, hwalk⟩ : ∃ r, Vmm.walk Vmm.allocFrame k vm virt = r := ⟨_, rfl⟩
  constructor
  · simp only [Vmm.mapPage, hwalk]
    exact survives_iff hused (by rw [hwalk]) (by rw [hwalk])
  · simp only [Vmm.virtualToPhysical, hwalk]
    exact survives_iff hused (by rw [hwalk]) (by rw [hwalk])

/-- 64 pages, all in use. -/
def noPages : Pmm := ⟨fun _ => 0xff, 8, sixtyFourPages.fits⟩

/-- A new pagemap survives the first call while there are three frames. -/
theorem exhaustion_iff_newPagemap :
    let r := Vmm.mapPage Vmm.allocFrame zeroedMachine newPagemap 0x401000 0x8000 7
    Survives 0x401000 zeroedMachine r.1 newPagemap r.2 := by
  have h := exhaustion_iff zeroedMachine newPagemap 0x401000 0x8000 7 (by decide +kernel)
  exact h.1.mpr (by decide +kernel)

/-- Without frames `map_page` makes frame 0 the table at all levels; a second call, for
another entry of the top table, writes to it again and takes the first translation
away. -/
theorem mapPage_without_frames :
    let k : Machine Pmm := ⟨fun _ => 0, noPages⟩
    let r := Vmm.mapPage Vmm.allocFrame k newPagemap 0x401000 0x8000 7
    let r' := Vmm.mapPage Vmm.allocFrame r.1 r.2 0x8000401000 0x9000 7
    ¬Survives 0x401000 k r.1 newPagemap r.2 ∧ r.2.pageTablesAddr = [0, 0, 0] ∧
      translation r.1.mem r.2.pml4 0x401000 = (0x8000, 7) ∧
      translation r'.1.mem r'.2.pml4 0x401000 = (0x9000, 7) := by
  intro k r r'
  refine ⟨fun h => ?_, by decide +kernel, by decide +kernel, by decide +kernel⟩
  exact (h.installed 0 (by decide +kernel)).1 rfl

end Toystar.Memory

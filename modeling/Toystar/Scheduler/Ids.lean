import Toystar.Memory.Pmm
import Toystar.Scheduler.Lifecycle
import Toystar.Verified.Pool
import Toystar.Verified.Run

/-!
# Process and thread ids

`pid_bitmap` and `tid_bitmap` are pages from `PMM::alloc(1)`; `get_new_pid` and
`get_new_tid` allocate from them and `exit_process` clears the bits again.  The
loop of `Bitmap::allocate` runs to `sizeof(bitmap) * 8`, which is the size of
the pointer: of the page's 32768 bits it sees 64.  Up to there it is the pool
that it should be.  `ids_use_page_iff` says that in every run an allocation is
right if and only if it is made with fewer than 64 ids in use.
-/

namespace Toystar.Scheduler

open Toystar.Klibc
open Toystar.Memory
open Toystar.Verified

/-! ## The system -/

/-- A page of zeroes; what lies behind it is arbitrary. -/
def ZeroPage (bitmap : Bitmap) : Prop := ∀ i < PAGE_SIZE, bitmap i = 0

/-- The page at `page` as a bitmap. -/
def pageBitmap (mem : ByteMem) (page : Nat) : Bitmap := fun i => mem (page + i)

/-- One of the two bitmaps, and the ids in use: those that `allocate` returned
and that were not cleared since. -/
structure IdState where
  bitmap : Bitmap
  held : List Nat

/-- No id is in use. -/
def IdState.init (bitmap : Bitmap) : IdState := ⟨bitmap, []⟩

inductive IdOp
  | allocate
  | clearBit (id : Nat)
deriving DecidableEq

/-- Only an id in use is cleared. -/
def IdOp.Allowed (s : IdState) : IdOp → Prop
  | .allocate => True
  | .clearBit id => id ∈ s.held

instance IdOp.decidableAllowed (s : IdState) (op : IdOp) : Decidable (op.Allowed s) :=
  match op with
  | .allocate => inferInstanceAs (Decidable True)
  | .clearBit id => inferInstanceAs (Decidable (id ∈ s.held))

/-- One call. -/
def IdState.exec (s : IdState) : IdOp → IdState
  | .allocate => ⟨s.bitmap.allocate.2, s.bitmap.allocate.1.toList ++ s.held⟩
  | .clearBit id => ⟨s.bitmap.clearBit id, s.held.erase id⟩

def IdStep (s : IdState) (op : IdOp) (s' : IdState) : Prop :=
  op.Allowed s ∧ s.exec op = s'

/-- The step as a function. -/
def IdState.attempt (s : IdState) (op : IdOp) : Option IdState :=
  if op.Allowed s then some (s.exec op) else none

theorem idStep_of_attempt {s s' : IdState} {op : IdOp} (h : s.attempt op = some s') :
    IdStep s op s' := by
  unfold IdState.attempt at h
  split at h
  · rename_i hop
    exact ⟨hop, Option.some.inj h⟩
  · cases h

/-- `get_new_pid` and `get_new_tid` are allocations from their bitmaps. -/
theorem getNewIds_step {κ : Type} (s : ProcessState κ) (held : List Nat) :
    IdStep ⟨s.pidBitmap, held⟩ .allocate
        ⟨s.getNewPid.2.pidBitmap, s.getNewPid.1.toList ++ held⟩ ∧
      IdStep ⟨s.tidBitmap, held⟩ .allocate
        ⟨s.getNewTid.2.tidBitmap, s.getNewTid.1.toList ++ held⟩ :=
  ⟨⟨trivial, rfl⟩, ⟨trivial, rfl⟩⟩

/-- `Sched::init` starts from a page of zeroes. -/
theorem zeroPage_alloc {p p' : Pmm} {mem mem' : ByteMem} {page : Nat}
    (h : p.alloc mem 1 = (page, p', mem')) (hpage : page ≠ 0) :
    ZeroPage (pageBitmap mem' page) := by
  rcases Pmm.alloc_cases (p := p) (le_refl 1) mem with ⟨hnull, _⟩ | ⟨start, _, _, _, hret⟩
  · rw [hnull] at h
    exact absurd (congrArg Prod.fst h).symm hpage
  · rw [hret] at h
    cases h
    intro i hi
    apply memset_of_mem
    · omega
    · omega

/-! ## The invariant -/

/-- The ids in use are distinct, the loop reaches them, and the bits set in the
page are theirs. -/
structure Tracks (s : IdState) : Prop where
  distinct : s.held.Nodup
  below : ∀ id ∈ s.held, id < Bitmap.capacity
  marked : ∀ i < 8 * PAGE_SIZE, s.bitmap.isBitSet i = true ↔ i ∈ s.held

/-- The loop stays in the page. -/
theorem capacity_le : Bitmap.capacity ≤ 8 * PAGE_SIZE := by decide

theorem tracks_init {bitmap : Bitmap} (hzero : ZeroPage bitmap) :
    Tracks (.init bitmap) := by
  refine ⟨List.nodup_nil, by simp [IdState.init], ?_⟩
  intro i hi
  have hbyte : bitmap (i / 8) = 0 := hzero (i / 8) (by omega)
  have hclear : bitmap.isBitSet i = false := by
    rw [Bitmap.isBitSet_eq_testBit, hbyte]
    exact Nat.zero_testBit _
  simp [IdState.init, hclear]

namespace Tracks

variable {s s' : IdState} {op : IdOp} {id : Nat}

theorem isBitSet_iff (h : Tracks s) (hid : id < Bitmap.capacity) :
    s.bitmap.isBitSet id = true ↔ id ∈ s.held :=
  h.marked id (Nat.lt_of_lt_of_le hid capacity_le)

/-- The loop is a pool of 64 ids. -/
theorem answers (h : Tracks s) :
    Answers (↑(Finset.range Bitmap.capacity)) {i | i ∈ s.held} s.bitmap.allocate.1 := by
  rcases s.bitmap.allocate_cases with ⟨id, hid, hclear, hlower, hret⟩ | ⟨hall, hret⟩
  · rw [hret]
    have hfree : id ∉ s.held := by
      rw [← h.isBitSet_iff hid, hclear]
      exact Bool.false_ne_true
    refine ⟨⟨Finset.mem_coe.mpr (Finset.mem_range.mpr hid), hfree⟩, ?_⟩
    intro i hi
    have hlt : i < Bitmap.capacity := Finset.mem_range.mp (Finset.mem_coe.mp hi.1)
    by_contra hle
    exact hi.2 ((h.isBitSet_iff hlt).mp (hlower i (by omega)))
  · rw [hret]
    intro i hi
    have hlt : i < Bitmap.capacity := Finset.mem_range.mp (Finset.mem_coe.mp hi)
    exact (h.isBitSet_iff hlt).mp (hall i hlt)

/-- Nothing is found exactly when 64 ids are in use. -/
theorem allocate_eq_none_iff (h : Tracks s) :
    s.bitmap.allocate.1 = none ↔ s.held.length = Bitmap.capacity := by
  have hcount := h.answers.eq_none_iff h.distinct fun id hid =>
    Finset.mem_range.mpr (h.below id hid)
  rwa [Finset.card_range] at hcount

theorem length_le (h : Tracks s) : s.held.length ≤ Bitmap.capacity := by
  have hsub : s.held ⊆ List.range Bitmap.capacity := by
    intro id hid
    exact List.mem_range.mpr (h.below id hid)
  have hle := (h.distinct.subperm hsub).length_le
  rwa [List.length_range] at hle

/-- What was found is the lowest id that is not in use. -/
theorem isLeast (h : Tracks s) (hret : s.bitmap.allocate.1 = some id) :
    IsLeast {i | i ∉ s.held} id := by
  have hpart := h.answers
  rw [hret] at hpart
  have hall : Answers Set.univ {i | i ∈ s.held} (some id) := by
    apply hpart.extend (Set.subset_univ _)
    intro i hi j _ hj
    simp only [Finset.coe_range, Set.mem_Iio] at hi hj
    omega
  have hfree : Set.univ \ {i | i ∈ s.held} = {i | i ∉ s.held} := by
    ext i
    simp
  rw [← hfree]
  exact hall

theorem allocate (h : Tracks s) : Tracks (s.exec .allocate) := by
  rcases s.bitmap.allocate_cases with ⟨id, hid, hclear, _, hret⟩ | ⟨_, hret⟩
  · have hfree : id ∉ s.held := by
      rw [← h.isBitSet_iff hid, hclear]
      exact Bool.false_ne_true
    simp only [IdState.exec, hret, Option.toList_some, List.singleton_append]
    refine ⟨List.nodup_cons.mpr ⟨hfree, h.distinct⟩, ?_, ?_⟩
    · exact List.forall_mem_cons.mpr ⟨hid, h.below⟩
    · intro i hi
      rw [Bitmap.isBitSet_setBit, Bool.or_eq_true, decide_eq_true_eq, h.marked i hi,
        List.mem_cons]
  · simp only [IdState.exec, hret, Option.toList_none, List.nil_append]
    exact h

theorem clearBit (h : Tracks s) : Tracks (s.exec (.clearBit id)) := by
  refine ⟨h.distinct.erase id, ?_, ?_⟩
  · intro i hi
    exact h.below i (List.mem_of_mem_erase hi)
  · intro i hi
    show (s.bitmap.clearBit id).isBitSet i = true ↔ i ∈ s.held.erase id
    rw [Bitmap.isBitSet_clearBit, h.distinct.mem_erase_iff, Bool.and_eq_true, h.marked i hi]
    simp

theorem step (h : Tracks s) (hstep : IdStep s op s') : Tracks s' := by
  rw [← hstep.2]
  cases op with
  | allocate => exact h.allocate
  | clearBit id => exact h.clearBit

theorem run (h : Tracks s) {ops : List IdOp} (hrun : Run IdStep s ops s') : Tracks s' :=
  hrun.invariant (fun h hstep => h.step hstep) h

end Tracks

/-! ## Which allocations are right -/

/-- `allocate` takes the lowest id that is not in use and marks it, and returns `-1`
only if every bit of the page is set. -/
structure UsesPage (s : IdState) : Prop where
  lowest : ∀ {id bitmap}, s.bitmap.allocate = (some id, bitmap) → IsLeast {i | i ∉ s.held} id
  marks : ∀ {id bitmap}, s.bitmap.allocate = (some id, bitmap) →
    ∀ i, bitmap.isBitSet i = true ↔ i = id ∨ s.bitmap.isBitSet i = true
  exhausted : s.bitmap.allocate.1 = none → ∀ i < 8 * PAGE_SIZE, s.bitmap.isBitSet i = true

theorem Tracks.usesPage_iff {s : IdState} (h : Tracks s) :
    UsesPage s ↔ s.held.length < Bitmap.capacity := by
  constructor
  · intro hpage
    by_contra hfull
    have hnone := h.allocate_eq_none_iff.mpr (Nat.le_antisymm h.length_le (by omega))
    -- the first bit behind those that the loop sees
    have hlt : Bitmap.capacity < 8 * PAGE_SIZE := by decide
    have hset := hpage.exhausted hnone Bitmap.capacity hlt
    exact absurd (h.below _ ((h.marked _ hlt).mp hset)) (Nat.lt_irrefl _)
  · intro hroom
    refine ⟨fun hret => h.isLeast (by rw [hret]), ?_, ?_⟩
    · intro id bitmap hret i
      rcases s.bitmap.allocate_cases with ⟨j, _, _, _, hfound⟩ | ⟨_, hfound⟩
      · rw [hfound] at hret
        cases hret
        rw [Bitmap.isBitSet_setBit, Bool.or_eq_true, decide_eq_true_eq]
      · rw [hfound] at hret
        cases hret
    · intro hnone
      have hfull := h.allocate_eq_none_iff.mp hnone
      omega

/-- After every sequence of allocations and releases the ids in use are distinct, and
the next allocation uses the page as it should if and only if fewer than 64 ids are
in use. -/
theorem ids_use_page_iff {bitmap : Bitmap} (hzero : ZeroPage bitmap) {ops : List IdOp}
    {s : IdState} (hrun : Run IdStep (.init bitmap) ops s) :
    s.held.Nodup ∧ (UsesPage s ↔ s.held.length < Bitmap.capacity) := by
  have h := (tracks_init hzero).run hrun
  exact ⟨h.distinct, h.usesPage_iff⟩

/-- Three ids are taken, the first is given back, and the next one is taken. -/
theorem ids_use_page_reused : ∃ s : IdState, s.held = [0, 2, 1] ∧ s.held.Nodup ∧
    (UsesPage s ↔ s.held.length < Bitmap.capacity) := by
  have hend : (([.allocate, .allocate, .allocate, .clearBit 0, .allocate] :
      List IdOp).foldlM IdState.attempt (.init fun _ => 0)).map (·.held) =
      some [0, 2, 1] := by decide +kernel
  obtain ⟨s, hs, hheld⟩ := Option.map_eq_some_iff.mp hend
  exact ⟨s, hheld, ids_use_page_iff (fun _ _ => rfl) (Run.of_foldlM idStep_of_attempt hs)⟩

/-- As many allocations as there is room for can be made one after the other. -/
theorem exists_run_allocate {n : Nat} {s : IdState} (h : Tracks s)
    (hroom : s.held.length + n ≤ Bitmap.capacity) :
    ∃ s', Run IdStep s (List.replicate n .allocate) s' ∧
      s'.held.length = s.held.length + n := by
  induction n generalizing s with
  | zero => exact ⟨s, .nil s, rfl⟩
  | succ n ih =>
      have hsome : s.bitmap.allocate.1 ≠ none := by
        rw [Ne, h.allocate_eq_none_iff]
        omega
      obtain ⟨id, hid⟩ := Option.ne_none_iff_exists'.mp hsome
      have hlength : (s.exec .allocate).held.length = s.held.length + 1 := by
        simp [IdState.exec, hid]
      obtain ⟨s', hrun, hlength'⟩ := ih h.allocate (by omega)
      refine ⟨s', .cons ⟨trivial, rfl⟩ hrun, ?_⟩
      omega

/-- With 64 ids in use the next allocation finds none, while bit 64 is clear. -/
theorem sixty_four_ids_exhaust : ∃ s : IdState,
    Run IdStep (.init fun _ => 0) (List.replicate 64 .allocate) s ∧
      s.bitmap.allocate.1 = none ∧ s.bitmap.isBitSet 64 = false ∧ ¬UsesPage s := by
  have hinit : Tracks (.init fun _ => 0) := tracks_init fun _ _ => rfl
  obtain ⟨s, hrun, hlength⟩ := exists_run_allocate (n := 64) hinit (by decide)
  have h := hinit.run hrun
  have hfull : s.held.length = Bitmap.capacity := by
    rw [hlength]
    rfl
  have hclear : s.bitmap.isBitSet 64 = false := by
    rw [← Bool.not_eq_true, h.marked 64 (by decide)]
    intro hheld
    exact absurd (h.below 64 hheld) (by decide)
  refine ⟨s, hrun, h.allocate_eq_none_iff.mpr hfull, hclear, ?_⟩
  rw [h.usesPage_iff, hfull]
  exact Nat.lt_irrefl _

end Toystar.Scheduler

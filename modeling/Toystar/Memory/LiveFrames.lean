import Toystar.Memory.FramesInUse
import Toystar.Memory.PmmRun

/-!
# Memory behind live frames

Several parties have frames of one allocator: pagemaps, files, drivers.  `Tracks`
keeps their frames apart.  Here is what follows for the bytes: memory that changes
in some of the live frames (`ChangedIn`) is as before in the others
(`Tracks.mem_eq`) and in what was in use at the start (`Tracks.boot_eq`).
-/

namespace Toystar.Memory

open Toystar.Klibc
open Toystar.Verified

/-! ## Bytes -/

/-- A byte memory: some addresses hold a byte. -/
abbrev Bytes := Nat → Option UInt8

def Frames.bytes (mem : ByteMem) (f : Frames) : Bytes := fun o =>
  if o < f.count * PAGE_SIZE then some (mem (f.ptr + o)) else none

/-- Nothing changes outside the frames. -/
def ChangedIn (fs : List Frames) (mem mem' : ByteMem) : Prop :=
  ∀ x, (∀ f ∈ fs, ¬f.Has (x / PAGE_SIZE)) → mem' x = mem x

variable {mem mem' mem'' : ByteMem} {fs gs : List Frames} {f : Frames}

theorem Frames.has_offset {o : Nat} (hf : PAGE_SIZE ∣ f.ptr) (ho : o < f.count * PAGE_SIZE) :
    f.Has ((f.ptr + o) / PAGE_SIZE) := by
  obtain ⟨n, hn⟩ := hf
  unfold Frames.Has
  rw [hn]
  unfold PAGE_SIZE at *
  omega

theorem Frames.has_iff {x : Nat} (hf : PAGE_SIZE ∣ f.ptr) :
    f.Has (x / PAGE_SIZE) ↔ f.ptr ≤ x ∧ x < f.ptr + f.count * PAGE_SIZE := by
  obtain ⟨n, hn⟩ := hf
  unfold Frames.Has
  rw [hn]
  unfold PAGE_SIZE
  omega

/-- Frames that are apart are ranges that are. -/
theorem Frames.Apart.range {g : Frames} (h : f.Apart g) (hf : PAGE_SIZE ∣ f.ptr)
    (hg : PAGE_SIZE ∣ g.ptr) (hcount : 0 < f.count) (hcount' : 0 < g.count) :
    f.ptr + f.count * PAGE_SIZE ≤ g.ptr ∨ g.ptr + g.count * PAGE_SIZE ≤ f.ptr := by
  obtain ⟨i, hi⟩ := hf
  obtain ⟨j, hj⟩ := hg
  have hfirst := h i
  have hsecond := h j
  unfold Frames.Has at hfirst hsecond
  rw [hi, hj] at hfirst hsecond ⊢
  unfold PAGE_SIZE at *
  omega

theorem Frames.bytes_congr (hf : PAGE_SIZE ∣ f.ptr)
    (hsame : ∀ x, f.Has (x / PAGE_SIZE) → mem' x = mem x) : f.bytes mem' = f.bytes mem := by
  funext o
  unfold Frames.bytes
  by_cases ho : o < f.count * PAGE_SIZE
  · rw [if_pos ho, if_pos ho, hsame _ (Frames.has_offset hf ho)]
  · rw [if_neg ho, if_neg ho]

/-- A store to frames, seen from their start. -/
theorem Frames.bytes_update (mem : ByteMem) {o : Nat} (ho : o < f.count * PAGE_SIZE)
    (v : UInt8) : f.bytes (Function.update mem (f.ptr + o) v) =
      Function.update (f.bytes mem) o (some v) := by
  funext o'
  by_cases heq : o' = o
  · rw [heq, Function.update_self, Frames.bytes, if_pos ho, Function.update_self]
  · have hne : f.ptr + o' ≠ f.ptr + o := by omega
    rw [Function.update_of_ne heq, Frames.bytes, Frames.bytes, Function.update_of_ne hne]

namespace ChangedIn

theorem refl (fs : List Frames) (mem : ByteMem) : ChangedIn fs mem mem := fun _ _ => rfl

theorem mono (h : ChangedIn fs mem mem') (hsub : fs ⊆ gs) : ChangedIn gs mem mem' :=
  fun x hx => h x fun f hf => hx f (hsub hf)

theorem trans (h : ChangedIn fs mem mem') (h' : ChangedIn fs mem' mem'') :
    ChangedIn fs mem mem'' :=
  fun x hx => (h' x hx).trans (h x hx)

theorem update {x : Nat} (hx : f.Has (x / PAGE_SIZE)) (mem : ByteMem) (v : UInt8) :
    ChangedIn [f] mem (Function.update mem x v) := by
  intro y hy
  apply Function.update_of_ne
  intro hxy
  rw [hxy] at hy
  exact hy f List.mem_cons_self hx

/-- One allocation as a range of addresses. -/
theorem of_range (hf : PAGE_SIZE ∣ f.ptr)
    (h : ∀ x, x < f.ptr ∨ f.ptr + f.count * PAGE_SIZE ≤ x → mem' x = mem x) :
    ChangedIn [f] mem mem' := by
  intro x hx
  apply h
  have hnot := (Frames.has_iff hf).not.mp (hx f List.mem_cons_self)
  omega

end ChangedIn

/-! ## What is live -/

namespace Tracks

variable {p₀ pmm : Pmm} {A rest live : List Frames} {count : Nat}

theorem apart_of_mem {g : Frames} (h : Tracks p₀ ⟨pmm, mem', A ++ rest⟩) (hf : f ∈ A)
    (hg : g ∈ rest) : f.Apart g :=
  (List.pairwise_append.mp h.apart).2.2 f hf g hg

/-- Memory changes in some of the live frames: the others are as before. -/
theorem mem_eq (h : Tracks p₀ ⟨pmm, mem', A ++ rest⟩) (hchange : ChangedIn A mem mem')
    (hf : f ∈ rest) {x : Nat} (hx : f.Has (x / PAGE_SIZE)) : mem' x = mem x :=
  hchange x fun _ hg hhas => h.apart_of_mem hg hf _ hhas hx

/-- And so is what was in use at the start. -/
theorem boot_eq (h : Tracks p₀ ⟨pmm, mem', A ++ rest⟩) (hchange : ChangedIn A mem mem')
    {x : Nat} (hx : p₀.bitmap.isBitSet (x / PAGE_SIZE) = true) : mem' x = mem x := by
  apply hchange
  intro f hf hhas
  rw [h.fresh f (List.mem_append_left _ hf) _ hhas] at hx
  cases hx

/-- What is live ends below the end of the bitmap. -/
theorem end_le (h : Tracks p₀ ⟨pmm, mem, live⟩) (hmem : f ∈ live) (hdvd : PAGE_SIZE ∣ f.ptr) :
    f.ptr + f.count * PAGE_SIZE ≤ p₀.pages * PAGE_SIZE := by
  have hbelow := h.below f hmem
  obtain ⟨page, hpage⟩ := hdvd
  rw [hpage] at hbelow ⊢
  unfold PAGE_SIZE at *
  omega

/-- The first page of an allocation and the others. -/
theorem split {d q : Nat} (h : Tracks p₀ ⟨pmm, mem, ⟨d, q + 1⟩ :: live⟩) :
    Tracks p₀ ⟨pmm, mem, ⟨d, 1⟩ :: ⟨d + PAGE_SIZE, q⟩ :: live⟩ := by
  have hnext : (d + PAGE_SIZE) / PAGE_SIZE = d / PAGE_SIZE + 1 :=
    Nat.add_div_right d (by decide)
  have hhas : ∀ i, Frames.Has ⟨d, q + 1⟩ i ↔
      Frames.Has ⟨d, 1⟩ i ∨ Frames.Has ⟨d + PAGE_SIZE, q⟩ i := by
    intro i
    unfold Frames.Has
    dsimp only
    rw [hnext]
    omega
  obtain ⟨hfirst, hlive⟩ := List.pairwise_cons.mp h.apart
  have hbelow := h.below _ List.mem_cons_self
  have hfresh := h.fresh _ List.mem_cons_self
  refine
    { pages_eq := h.pages_eq
      used := fun i => ?_
      below := ?_
      fresh := ?_
      apart := ?_
      balance := ?_ }
  · rw [h.used i]
    simp only [List.exists_mem_cons_iff, hhas, or_assoc]
  · refine List.forall_mem_cons.mpr ⟨?_, List.forall_mem_cons.mpr ⟨?_, ?_⟩⟩
    · dsimp only at hbelow ⊢
      omega
    · dsimp only at hbelow ⊢
      rw [hnext]
      omega
    · exact fun f hf => h.below f (List.mem_cons_of_mem _ hf)
  · refine List.forall_mem_cons.mpr ⟨?_, List.forall_mem_cons.mpr ⟨?_, ?_⟩⟩
    · exact fun i hi => hfresh i ((hhas i).mpr (.inl hi))
    · exact fun i hi => hfresh i ((hhas i).mpr (.inr hi))
    · exact fun f hf => h.fresh f (List.mem_cons_of_mem _ hf)
  · refine List.pairwise_cons.mpr ⟨List.forall_mem_cons.mpr ⟨?_, ?_⟩,
      List.pairwise_cons.mpr ⟨?_, hlive⟩⟩
    · intro i hi hi'
      unfold Frames.Has at hi hi'
      dsimp only at hi hi'
      omega
    · exact fun f hf i hi => hfirst f hf i ((hhas i).mpr (.inl hi))
    · exact fun f hf i hi => hfirst f hf i ((hhas i).mpr (.inr hi))
  · have hbalance := h.balance
    simp only [List.map_cons, List.sum_cons] at hbalance ⊢
    omega

/-- A request that is served: zeroed frames that nobody has. -/
theorem alloc_bytes (h : Tracks p₀ ⟨pmm, mem, live⟩) (hzero : p₀.bitmap.isBitSet 0 = true)
    (hne : (pmm.alloc mem count).1 ≠ 0) :
    let f : Frames := ⟨(pmm.alloc mem count).1, count⟩
    Tracks p₀ ⟨(pmm.alloc mem count).2.1, (pmm.alloc mem count).2.2, [f] ++ live⟩ ∧
      ChangedIn [f] mem (pmm.alloc mem count).2.2 ∧ PAGE_SIZE ∣ f.ptr ∧ 0 < count ∧
      f.bytes (pmm.alloc mem count).2.2 =
        fun o => if o < count * PAGE_SIZE then some 0 else none := by
  have hzero' : pmm.bitmap.isBitSet 0 = true := (h.used 0).mpr (.inl hzero)
  obtain ⟨page, _, hcount, _, _, _, halloc⟩ := Pmm.alloc_of_ne_zero hzero' hne
  rw [halloc] at hne ⊢
  refine ⟨h.alloc_of_eq hzero hcount halloc hne, ?_, Nat.dvd_mul_left _ _, hcount, ?_⟩
  · exact ChangedIn.of_range (Nat.dvd_mul_left _ _) fun x hx => memset_of_not_mem hx
  · funext o
    unfold Frames.bytes
    dsimp only
    by_cases ho : o < count * PAGE_SIZE
    · rw [if_pos ho, if_pos ho, memset_of_mem (by omega) (by omega)]
    · rw [if_neg ho, if_neg ho]

end Tracks

end Toystar.Memory

import Toystar.Memory.Heap
import Toystar.Verified.Chain
import Toystar.Verified.Tiling

/-!
# The shape of the buddy heap

`Shape h free live` relates the memory of the allocator to two abstract
objects: `free k`, the list of the free blocks of order `k` in the order of
its bucket, and `live`, the set of the allocated blocks with their orders.
Together they tile the heap, and every header carries its block's size.

The abstract side is what `split_block`, `try_to_merge`, `kmalloc` and `kfree`
are about; the lemmas of this file say which header writes a shape survives.
-/

namespace Toystar.Memory.Heap

open Toystar.Kernel
open Toystar.Verified

/-! ## Header fields under stores -/

section Fields

variable {h : BuddyAllocator} {b c v i : Nat}

/-- The headers (both words) of two blocks do not overlap. -/
def HeaderApart (b c : Nat) : Prop := b + 16 ≤ c ∨ c + 16 ≤ b

@[simp] theorem setNext_bucketList :
    (h.setNext b v).bucketList = h.bucketList := rfl

@[simp] theorem setSize_bucketList :
    (h.setSize b v).bucketList = h.bucketList := rfl

@[simp] theorem setBucket_next : (h.setBucket i v).next = h.next := rfl

@[simp] theorem setBucket_size : (h.setBucket i v).size = h.size := rfl

@[simp] theorem setNext_baseAddr : (h.setNext b v).baseAddr = h.baseAddr := rfl

@[simp] theorem setSize_baseAddr : (h.setSize b v).baseAddr = h.baseAddr := rfl

@[simp] theorem setBucket_baseAddr :
    (h.setBucket i v).baseAddr = h.baseAddr := rfl

@[simp] theorem setNext_heapLock : (h.setNext b v).heapLock = h.heapLock := rfl

@[simp] theorem setSize_heapLock : (h.setSize b v).heapLock = h.heapLock := rfl

@[simp] theorem setBucket_heapLock :
    (h.setBucket i v).heapLock = h.heapLock := rfl

theorem setBucket_bucketList :
    (h.setBucket i v).bucketList = Function.update h.bucketList i v := rfl

theorem next_setNext_self (hv : v < 2 ^ 64) : (h.setNext b v).next b = v := by
  show (h.mem.write64 (b + 8) v).read64 (b + 8) = v
  rw [ByteMem.read64_write64_self, Nat.mod_eq_of_lt hv]

theorem next_setNext_of_apart (hbc : HeaderApart b c) :
    (h.setNext b v).next c = h.next c :=
  ByteMem.read64_write64_of_apart _ (by unfold HeaderApart at hbc; omega)

theorem next_setSize (hbc : b = c ∨ HeaderApart b c) :
    (h.setSize b v).next c = h.next c :=
  ByteMem.read64_write64_of_apart _ (by unfold HeaderApart at hbc; omega)

theorem size_setSize_self (hv : v < 2 ^ 64) : (h.setSize b v).size b = v := by
  show (h.mem.write64 b v).read64 b = v
  rw [ByteMem.read64_write64_self, Nat.mod_eq_of_lt hv]

theorem size_setSize_of_apart (hbc : HeaderApart b c) :
    (h.setSize b v).size c = h.size c :=
  ByteMem.read64_write64_of_apart _ (by unfold HeaderApart at hbc; omega)

theorem size_setNext (hbc : b = c ∨ HeaderApart b c) :
    (h.setNext b v).size c = h.size c :=
  ByteMem.read64_write64_of_apart _ (by unfold HeaderApart at hbc; omega)

theorem next_lt (h : BuddyAllocator) (b : Nat) : h.next b < 2 ^ 64 :=
  ByteMem.read64_lt _ _

theorem loadNext_of_ne (hb : b ≠ 0) : h.loadNext b = .ok (h.next b) := by
  simp [BuddyAllocator.loadNext, hb]

theorem loadSize_of_ne (hb : b ≠ 0) : h.loadSize b = .ok (h.size b) := by
  simp [BuddyAllocator.loadSize, hb]

theorem indexFromOrder_of_le {order : Nat} (ho : order ≤ MAX_POWER) :
    indexFromOrder order = MAX_POWER - order := by
  unfold indexFromOrder MAX_POWER at *
  omega

theorem bucket_of_lt (hi : i < bucketCount) :
    h.bucket i = .ok (h.bucketList i) := by
  simp [BuddyAllocator.bucket, hi]

@[simp] theorem bucket_sub (order : Nat) :
    h.bucket (MAX_POWER - order) = .ok (h.bucketList (MAX_POWER - order)) :=
  bucket_of_lt (by unfold MAX_POWER bucketCount; omega)

theorem bucket_order {order : Nat} (ho : order ≤ MAX_POWER) :
    h.bucket (indexFromOrder order) = .ok (h.bucketList (MAX_POWER - order)) := by
  rw [indexFromOrder_of_le ho, bucket_sub]

end Fields

/-! ## The abstract heap -/

/-- `a` is the start of a block of order `k`. -/
def IsBlock (free : Nat → List Nat) (live : Set (Nat × Nat)) (a k : Nat) :
    Prop := a ∈ free k ∨ (a, k) ∈ live

/-- The blocks as address ranges. -/
def blockSet (free : Nat → List Nat) (live : Set (Nat × Nat)) :
    Set (Nat × Nat) :=
  {b | ∃ k, b.2 = 2 ^ k ∧ IsBlock free live b.1 k}

/-- The memory of the allocator represents the free lists `free` and the live
blocks `live`, which partition the heap. -/
structure Shape (h : BuddyAllocator) (free : Nat → List Nat)
    (live : Set (Nat × Nat)) : Prop where
  chains : ∀ k ≤ MAX_POWER,
    Chain 0 h.next (h.bucketList (MAX_POWER - k)) (free k)
  nodup : ∀ k, (free k).Nodup
  order : ∀ {a k}, IsBlock free live a k → 5 ≤ k ∧ k ≤ MAX_POWER
  size : ∀ {a k}, IsBlock free live a k → h.size a = 2 ^ k
  exclusive : ∀ {a k}, a ∈ free k → (a, k) ∉ live
  tiles : Tiles (blockSet free live) h.baseAddr (h.baseAddr + 2 ^ MAX_POWER)
  base_pos : 0 < h.baseAddr
  base_lt : h.baseAddr + 2 ^ MAX_POWER < 2 ^ 64

namespace Shape

variable {h : BuddyAllocator} {free : Nat → List Nat} {live : Set (Nat × Nat)}
  {a b j k : Nat}

theorem mem_blockSet (hb : IsBlock free live a k) :
    (a, 2 ^ k) ∈ blockSet free live := ⟨k, rfl, hb⟩

theorem pow_ge (hs : Shape h free live) (hb : IsBlock free live a k) :
    32 ≤ 2 ^ k :=
  show 2 ^ 5 ≤ 2 ^ k from Nat.pow_le_pow_right (by omega) (hs.order hb).1

theorem bounds (hs : Shape h free live) (hb : IsBlock free live a k) :
    h.baseAddr ≤ a ∧ a + 2 ^ k ≤ h.baseAddr + 2 ^ MAX_POWER :=
  hs.tiles.bounds (mem_blockSet hb)

theorem ne_zero (hs : Shape h free live) (hb : IsBlock free live a k) :
    a ≠ 0 := by
  have := hs.bounds hb
  have := hs.base_pos
  omega

theorem lt_word (hs : Shape h free live) (hb : IsBlock free live a k) :
    a < 2 ^ 64 := by
  have := hs.bounds hb
  have := hs.base_lt
  have := hs.pow_ge hb
  omega

/-- A block start has one order. -/
theorem order_eq (hs : Shape h free live) (hk : IsBlock free live a k)
    (hj : IsBlock free live a j) : k = j := by
  have heq := hs.tiles.eq_of_start_eq (mem_blockSet hk) (mem_blockSet hj) rfl
  exact Nat.pow_right_injective (le_refl 2) (Prod.ext_iff.mp heq).2

/-- Distinct block starts are at least the smallest block apart. -/
theorem far (hs : Shape h free live) (ha : IsBlock free live a k)
    (hb : IsBlock free live b j) (hne : a ≠ b) :
    a + 2 ^ k ≤ b ∨ b + 2 ^ j ≤ a :=
  hs.tiles.apart (mem_blockSet ha) (mem_blockSet hb)
    fun heq => hne (Prod.ext_iff.mp heq).1

theorem apart (hs : Shape h free live) (ha : IsBlock free live a k)
    (hb : IsBlock free live b j) (hne : a ≠ b) : HeaderApart a b := by
  have h₁ := hs.pow_ge ha
  have h₂ := hs.pow_ge hb
  rcases hs.far ha hb hne with h' | h'
  · exact .inl (by omega)
  · exact .inr (by omega)

/-- A block of the top order is the whole heap. -/
theorem eq_of_top (hs : Shape h free live) (ha : IsBlock free live a MAX_POWER)
    (hb : IsBlock free live b j) : a = b := by
  by_contra hne
  have hA := hs.bounds ha
  have hB := hs.bounds hb
  have hpos := hs.pow_ge hb
  have hfar := hs.far ha hb hne
  omega

/-- Bucket heads are pointers. -/
theorem head_lt (hs : Shape h free live) (hk : k ≤ MAX_POWER) :
    h.bucketList (MAX_POWER - k) < 2 ^ 64 := by
  have hchain := hs.chains k hk
  cases hf : free k with
  | nil =>
      rw [hf, chain_nil] at hchain
      rw [hchain]
      decide
  | cons x xs =>
      rw [hf, chain_cons] at hchain
      rw [hchain.1]
      exact hs.lt_word (.inl (by rw [hf]; simp) : IsBlock free live x k)

/-- A free block is on no other list and not allocated. -/
theorem not_mem_of_ne (hs : Shape h free live) (ha : a ∈ free k)
    (hne : j ≠ k) : a ∉ free j :=
  fun haj => hne (hs.order_eq (.inl haj) (.inl ha))

theorem free_eq_nil (hs : Shape h free live) (hk : k < 5 ∨ MAX_POWER < k) :
    free k = [] := by
  rw [List.eq_nil_iff_forall_not_mem]
  intro a ha
  have := hs.order (.inl ha)
  omega

end Shape

/-! ## What the clients' bytes survive -/

/-- Only bytes of `[a, a + n)` differ. -/
def WritesIn (a n : Nat) (h h' : BuddyAllocator) : Prop :=
  ∀ y, y < a ∨ a + n ≤ y → h'.mem y = h.mem y

/-- Every byte of the live blocks is the same. -/
def KeepsLive (live : Set (Nat × Nat)) (h h' : BuddyAllocator) : Prop :=
  ∀ x j, (x, j) ∈ live → ∀ y, x ≤ y → y < x + 2 ^ j → h'.mem y = h.mem y

section Keeps

variable {h h₁ h₂ : BuddyAllocator} {free : Nat → List Nat} {live : Set (Nat × Nat)}
  {a b k n v : Nat}

theorem WritesIn.trans (h₁₂ : WritesIn a n h h₁) (h₂₃ : WritesIn a n h₁ h₂) :
    WritesIn a n h h₂ :=
  fun y hy => (h₂₃ y hy).trans (h₁₂ y hy)

theorem writesIn_of_mem_eq (hmem : h₁.mem = h.mem) : WritesIn a n h h₁ :=
  fun y _ => by rw [hmem]

theorem writesIn_setNext (hlo : a ≤ b) (hhi : b + 16 ≤ a + n) :
    WritesIn a n h (h.setNext b v) :=
  fun _ hy => ByteMem.write64_of_not_mem _ (by omega)

theorem writesIn_setSize (hlo : a ≤ b) (hhi : b + 16 ≤ a + n) :
    WritesIn a n h (h.setSize b v) :=
  fun _ hy => ByteMem.write64_of_not_mem _ (by omega)

theorem KeepsLive.refl (live : Set (Nat × Nat)) (h : BuddyAllocator) :
    KeepsLive live h h :=
  fun _ _ _ _ _ _ => rfl

theorem KeepsLive.trans (h₁₂ : KeepsLive live h h₁) (h₂₃ : KeepsLive live h₁ h₂) :
    KeepsLive live h h₂ :=
  fun x j hx y hlo hhi => (h₂₃ x j hx y hlo hhi).trans (h₁₂ x j hx y hlo hhi)

theorem KeepsLive.mono {live' : Set (Nat × Nat)} (hkeep : KeepsLive live h h₁)
    (hsub : live' ⊆ live) : KeepsLive live' h h₁ :=
  fun x j hx => hkeep x j (hsub hx)

/-- What is written inside one block is outside every other. -/
theorem Shape.keepsLive (hs : Shape h free live) (hblk : IsBlock free live a k)
    (hw : WritesIn a (2 ^ k) h₁ h₂) : KeepsLive (live \ {(a, k)}) h₁ h₂ := by
  intro x j hx y hlo hhi
  have hne : a ≠ x := by
    intro hax
    subst hax
    have hkj := hs.order_eq hblk (.inr hx.1)
    exact hx.2 (by rw [hkj]; rfl)
  have hfar := hs.far hblk (.inr hx.1) hne
  exact hw y (by omega)

theorem Shape.keepsLive_free (hs : Shape h free live) (hfree : a ∈ free k)
    (hw : WritesIn a (2 ^ k) h₁ h₂) : KeepsLive live h₁ h₂ := by
  have hkeep := hs.keepsLive (.inl hfree) hw
  rwa [Set.sdiff_singleton_eq_self (hs.exclusive hfree)] at hkeep

end Keeps

end Toystar.Memory.Heap

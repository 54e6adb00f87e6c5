import Toystar.Memory.Vmm

/-!
# The tables of a pagemap form a tree

`PageTree mem vm tab` says that the tables below `vm.pml4` are a tree of
distinct frames: `tab` gives the table at each path of indices (last index
first), every entry of an upper table is the link to the table one index
further or zero, and every frame in the tree is one the pagemap recorded.

`get_next_level` grows the tree by at most one zeroed frame.  Because the
frames are distinct that touches no other entry, and because a new page table
is zero it changes no translation (`PageTree.create`).  Storing into a page
table changes one (`PageTree.setLeaf`).  The specifications of `map_page` and
`virtual_to_physical` follow.
-/

namespace Toystar.Memory

open Toystar.Klibc
open Toystar.Verified

/-! ## Words of frames -/

/-- A frame the direct map reaches, other than the one at null. -/
def IsFrame (t : Nat) : Prop := PAGE_SIZE ∣ t ∧ 0 < t ∧ t < 2 ^ 47

instance (t : Nat) : Decidable (IsFrame t) :=
  inferInstanceAs (Decidable (_ ∧ _ ∧ _))

section Entries

variable {mem : ByteMem} {s t f i j v p : Nat}

theorem entryAt_setEntry_self : entryAt (setEntry mem t i v) t i = v % 2 ^ 64 :=
  ByteMem.read64_write64_self _ _ _

/-- Entries of aligned tables overlap only when they are the same entry. -/
theorem entryAt_setEntry_of_ne (hs : PAGE_SIZE ∣ s) (ht : PAGE_SIZE ∣ t)
    (hi : i < 512) (hj : j < 512) (hne : s ≠ t ∨ i ≠ j) :
    entryAt (setEntry mem s i v) t j = entryAt mem t j := by
  refine ByteMem.read64_write64_of_apart _ ?_
  obtain ⟨a, rfl⟩ := hs
  obtain ⟨b, rfl⟩ := ht
  unfold PAGE_SIZE at *
  omega

theorem entryAt_memset_self (hj : j < 512) :
    entryAt (memset mem f 0 PAGE_SIZE) f j = 0 := by
  have hbyte : ∀ x, f + 8 * j ≤ x → x < f + 8 * j + 8 →
      memset mem f 0 PAGE_SIZE x = 0 := by
    intro x hlo hhi
    exact memset_of_mem (by omega) (by unfold PAGE_SIZE; omega)
  unfold entryAt
  rw [ByteMem.read64_congr (m := fun _ => 0) hbyte]
  simp [ByteMem.read64]

theorem entryAt_memset_of_ne (hf : PAGE_SIZE ∣ f) (ht : PAGE_SIZE ∣ t)
    (hj : j < 512) (hne : t ≠ f) :
    entryAt (memset mem f 0 PAGE_SIZE) t j = entryAt mem t j := by
  refine ByteMem.read64_congr fun x hlo hhi => memset_of_not_mem ?_
  obtain ⟨a, rfl⟩ := hf
  obtain ⟨b, rfl⟩ := ht
  unfold PAGE_SIZE at *
  omega

/-- An aligned address and low bits do not interfere. -/
theorem or_low (hp : PAGE_SIZE ∣ p) (hf : f < PAGE_SIZE) : p ||| f = p + f := by
  obtain ⟨a, rfl⟩ := hp
  exact (Nat.two_pow_add_eq_or_of_lt (i := 12) hf a).symm

/-- The mask clears the low twelve bits. -/
theorem and_frameMask (hv : v < 2 ^ 64) : v &&& frameMask = v / PAGE_SIZE * PAGE_SIZE := by
  refine Nat.eq_of_testBit_eq fun b => ?_
  have hmask : frameMask = 2 ^ 64 - ((2 ^ 12 - 1) + 1) := by decide
  rw [Nat.testBit_and, hmask, Nat.testBit_two_pow_sub_succ (by decide),
    Nat.testBit_two_pow_sub_one, show PAGE_SIZE = 2 ^ 12 from rfl,
    Nat.testBit_mul_two_pow, Nat.testBit_div_two_pow]
  by_cases hlow : b < 12
  · have hnot : ¬12 ≤ b := by omega
    simp [hlow, hnot]
  · have hle : 12 ≤ b := by omega
    rw [Nat.sub_add_cancel hle]
    simp only [hlow, decide_false, Bool.not_false, Bool.and_true, hle, decide_true,
      Bool.true_and]
    by_cases hb : b < 64
    · simp [hb]
    · have hz : v.testBit b = false :=
        Nat.testBit_eq_false_of_lt (lt_of_lt_of_le hv
          (Nat.pow_le_pow_right (by omega) (by omega)))
      simp [hz]

/-- Address and flags of an entry come apart again. -/
theorem or_and_frameMask (hp : PAGE_SIZE ∣ p) (hpv : p < 2 ^ 64)
    (hf : f < PAGE_SIZE) : (p ||| f) % 2 ^ 64 &&& frameMask = p := by
  rw [or_low hp hf]
  obtain ⟨a, rfl⟩ := hp
  unfold PAGE_SIZE at *
  rw [Nat.mod_eq_of_lt (by omega), and_frameMask (by omega)]
  unfold PAGE_SIZE
  omega

end Entries

/-! ## The tree -/

/-- The paths that belong to user space: the kernel shares the tables behind
entries 256 and 511 of every top table. -/
def UserIndex (path : List Nat) (i : Nat) : Prop :=
  i < 512 ∧ (path = [] → i ≠ 256 ∧ i ≠ 511)

/-- The frames a pagemap holds its tables in. -/
def Vmm.tables (vm : Vmm) : Set Nat := {t | t = vm.pml4 ∨ t ∈ vm.pageTablesAddr}

/-- The tables of `vm` in `mem`, by path. -/
structure PageTree (mem : ByteMem) (vm : Vmm) (tab : List Nat → Option Nat) :
    Prop where
  root : tab [] = some vm.pml4
  frame : ∀ {path t}, tab path = some t → IsFrame t
  inj : ∀ {p q t}, tab p = some t → tab q = some t → p = q
  closed : ∀ {i path t}, tab (i :: path) = some t → ∃ u, tab path = some u
  link : ∀ {path t i}, tab path = some t → path.length < 3 → UserIndex path i →
    entryAt mem t i = (tab (i :: path)).elim 0 (· ||| 0b111)
  recorded : ∀ {path t}, tab path = some t → t ∈ vm.tables

/-- The path to the page table of `virt`. -/
def pathOf (virt : Nat) : List Nat := [getPde virt, getPdpe virt, getPml4e virt]

/-- The entry that decides the translation of `virt`. -/
def leaf (mem : ByteMem) (tab : List Nat → Option Nat) (virt : Nat) : Nat :=
  (tab (pathOf virt)).elim 0 fun pt => entryAt mem pt (getPte virt)

theorem leaf_of_some {mem : ByteMem} {tab : List Nat → Option Nat} {virt pt : Nat}
    (h : tab (pathOf virt) = some pt) :
    leaf mem tab virt = entryAt mem pt (getPte virt) := by
  rw [leaf, h, Option.elim_some]

theorem leaf_of_none {mem : ByteMem} {tab : List Nat → Option Nat} {virt : Nat}
    (h : tab (pathOf virt) = none) : leaf mem tab virt = 0 := by
  rw [leaf, h, Option.elim_none]

theorem getPte_lt (virt : Nat) : getPte virt < 512 := Nat.mod_lt _ (by decide)

namespace PageTree

variable {mem : ByteMem} {vm : Vmm} {tab : List Nat → Option Nat}
  {path : List Nat} {t f i v : Nat}

/-- A top table whose user entries are zero. -/
theorem root_only {pml4 : Nat} (hf : IsFrame pml4) (ranges : List MemArea)
    (hzero : ∀ {i}, UserIndex [] i → entryAt mem pml4 i = 0) :
    PageTree mem ⟨pml4, ranges, []⟩ fun path => if path = [] then some pml4 else none := by
  refine
    { root := rfl
      frame := ?_
      inj := ?_
      closed := by simp
      link := ?_
      recorded := ?_ }
  · intro path t h
    split at h
    · exact Option.some.inj h ▸ hf
    · cases h
  · intro p q t hp hq
    split at hp
    · split at hq
      · rw [‹p = []›, ‹q = []›]
      · cases hq
    · cases hp
  · intro path t i h _ hi
    split at h
    · subst path
      obtain rfl := Option.some.inj h
      simpa using hzero hi
    · cases h
  · intro path t h
    split at h
    · exact .inl (Option.some.inj h).symm
    · cases h

/-- A path without a table has none below it. -/
theorem none_of_none (ht : PageTree mem vm tab) (hpath : tab path = none)
    (i : Nat) : tab (i :: path) = none := by
  cases hi : tab (i :: path) with
  | none => rfl
  | some u =>
      obtain ⟨w, hw⟩ := ht.closed hi
      rw [hpath] at hw
      cases hw

/-- Linking a zeroed frame that is in no table of the pagemap into an empty
entry. -/
theorem create (ht : PageTree mem vm tab) (hpath : tab path = some t)
    (hlen : path.length < 3) (hi : UserIndex path i)
    (hnone : tab (i :: path) = none) (hf : IsFrame f) (hfresh : f ∉ vm.tables) :
    PageTree (setEntry (memset mem f 0 PAGE_SIZE) t i (f ||| 0b111))
      { vm with pageTablesAddr := vm.pageTablesAddr ++ [f] }
      (Function.update tab (i :: path) (some f)) := by
  have hnew : ∀ {q u}, tab q = some u → u ≠ f := by
    rintro q u hq rfl
    exact hfresh (ht.recorded hq)
  have htf : t ≠ f := hnew hpath
  have hval : f ||| 0b111 < 2 ^ 64 := by
    obtain ⟨hal, _, hlt⟩ := hf
    rw [or_low hal (by decide)]
    omega
  refine
    { root := ?_
      frame := ?_
      inj := ?_
      closed := ?_
      link := ?_
      recorded := ?_ }
  · rw [Function.update_of_ne (by simp)]
    exact ht.root
  · intro q u hq
    by_cases hqi : q = i :: path
    · subst hqi
      rw [Function.update_self, Option.some.injEq] at hq
      exact hq ▸ hf
    · rw [Function.update_of_ne hqi] at hq
      exact ht.frame hq
  · intro p q u hp hq
    by_cases hpi : p = i :: path <;> by_cases hqi : q = i :: path
    · rw [hpi, hqi]
    · subst hpi
      rw [Function.update_self, Option.some.injEq] at hp
      rw [Function.update_of_ne hqi] at hq
      exact absurd hp.symm (hnew hq)
    · subst hqi
      rw [Function.update_self, Option.some.injEq] at hq
      rw [Function.update_of_ne hpi] at hp
      exact absurd hq.symm (hnew hp)
    · rw [Function.update_of_ne hpi] at hp
      rw [Function.update_of_ne hqi] at hq
      exact ht.inj hp hq
  · intro j q u hq
    by_cases hpar : q = i :: path
    · exact ⟨f, by rw [hpar, Function.update_self]⟩
    · rw [Function.update_of_ne hpar]
      by_cases hjq : j :: q = i :: path
      · obtain ⟨_, rfl⟩ := List.cons_eq_cons.mp hjq
        exact ⟨t, hpath⟩
      · rw [Function.update_of_ne hjq] at hq
        exact ht.closed hq
  · intro q u j hq hql hj
    by_cases hqi : q = i :: path
    · -- the new table: zero entries and no tables below
      subst hqi
      rw [Function.update_self, Option.some.injEq] at hq
      subst hq
      rw [Function.update_of_ne (by simp), ht.none_of_none hnone,
        entryAt_setEntry_of_ne (ht.frame hpath).1 hf.1 hi.1 hj.1 (.inl htf),
        entryAt_memset_self hj.1]
      rfl
    · rw [Function.update_of_ne hqi] at hq
      by_cases hjq : j :: q = i :: path
      · -- the entry that was written
        obtain ⟨rfl, rfl⟩ := List.cons_eq_cons.mp hjq
        rw [hpath, Option.some.injEq] at hq
        subst hq
        rw [Function.update_self, entryAt_setEntry_self, Nat.mod_eq_of_lt hval]
        rfl
      · have hne : t ≠ u ∨ i ≠ j := by
          by_contra hcontra
          push Not at hcontra
          obtain ⟨rfl, rfl⟩ := hcontra
          exact hjq (by rw [ht.inj hq hpath])
        rw [Function.update_of_ne hjq,
          entryAt_setEntry_of_ne (ht.frame hpath).1 (ht.frame hq).1 hi.1 hj.1 hne,
          entryAt_memset_of_ne hf.1 (ht.frame hq).1 hj.1 (hnew hq)]
        exact ht.link hq hql hj
  · intro q u hq
    by_cases hqi : q = i :: path
    · subst hqi
      rw [Function.update_self, Option.some.injEq] at hq
      exact .inr (by simp [hq])
    · rw [Function.update_of_ne hqi] at hq
      rcases ht.recorded hq with hroot | hmem
      · exact .inl hroot
      · exact .inr (by simp [hmem])

/-- A new table translates nothing, and the link is not in a page table. -/
theorem leaf_create (ht : PageTree mem vm tab) (hpath : tab path = some t)
    (hlen : path.length < 3) (hi : UserIndex path i)
    (hnone : tab (i :: path) = none) (hf : IsFrame f) (hfresh : f ∉ vm.tables)
    (virt : Nat) :
    leaf (setEntry (memset mem f 0 PAGE_SIZE) t i (f ||| 0b111))
      (Function.update tab (i :: path) (some f)) virt = leaf mem tab virt := by
  have hnew : ∀ {q u}, tab q = some u → u ≠ f := by
    rintro q u hq rfl
    exact hfresh (ht.recorded hq)
  have hpte := getPte_lt virt
  by_cases hq : pathOf virt = i :: path
  · have hold : tab (pathOf virt) = none := hq ▸ hnone
    rw [leaf_of_none hold, leaf_of_some (by rw [hq, Function.update_self]),
      entryAt_setEntry_of_ne (ht.frame hpath).1 hf.1 hi.1 hpte
        (.inl (hnew hpath)), entryAt_memset_self hpte]
  · cases hpt : tab (pathOf virt) with
    | none =>
        rw [leaf_of_none hpt,
          leaf_of_none (by rw [Function.update_of_ne hq, hpt])]
    | some pt =>
        have hne : t ≠ pt := by
          rintro rfl
          rw [ht.inj hpath hpt] at hlen
          simp [pathOf] at hlen
        rw [leaf_of_some hpt,
          leaf_of_some (by rw [Function.update_of_ne hq, hpt]),
          entryAt_setEntry_of_ne (ht.frame hpath).1 (ht.frame hpt).1 hi.1 hpte
            (.inl hne),
          entryAt_memset_of_ne hf.1 (ht.frame hpt).1 hpte (hnew hpt)]

/-- Page tables hold no links. -/
theorem setLeaf (ht : PageTree mem vm tab) (hpath : tab path = some t)
    (hlen : path.length = 3) (hi : i < 512) (v : Nat) :
    PageTree (setEntry mem t i v) vm tab :=
  { root := ht.root
    frame := ht.frame
    inj := ht.inj
    closed := ht.closed
    link := by
      intro q u j hq hql hj
      have hne : t ≠ u := by
        rintro rfl
        rw [ht.inj hq hpath] at hql
        omega
      rw [entryAt_setEntry_of_ne (ht.frame hpath).1 (ht.frame hq).1 hi hj.1
        (.inl hne)]
      exact ht.link hq hql hj
    recorded := ht.recorded }

end PageTree

end Toystar.Memory

import Toystar.Memory.Duplicate

/-!
# Mapping a range

`map_range_raw` and `unmap_range_raw` call `map_page` once a page, from the first
page of the range up to and including the one at `virt + length`.  Below, the
translations are read out of the tables themselves (`translation`), the loop is
shown to set the entries of `length / PAGE_SIZE + 1` pages and no other, and it
follows that a call covers exactly its range only where the page behind the range
already has the translation that the last round stores.
-/

namespace Toystar.Memory

open Toystar.Klibc
open Toystar.Verified

variable {σ : Type} {alloc : FrameAlloc σ} {k : Machine σ} {vm : Vmm}
  {tab : List Nat → Option Nat} {mem mem' : ByteMem} {pml4 virt n : Nat}

/-! ## Translations -/

/-- The table that `table[index]` links to. -/
def nextTable (mem : ByteMem) (table index : Nat) : Option Nat :=
  if entryAt mem table index = 0 then none
  else some (entryAt mem table index &&& frameMask)

/-- The index of `virt` in the tables of a level. -/
def levelIndex (virt : Nat) : Nat → Nat
  | 0 => getPml4e virt
  | 1 => getPdpe virt
  | _ => getPde virt

/-- The table of `virt` at a level, if it exists. -/
def tableAt (mem : ByteMem) (pml4 virt : Nat) : Nat → Option Nat
  | 0 => some pml4
  | n + 1 => do nextTable mem (← tableAt mem pml4 virt n) (levelIndex virt n)

/-- The entry of the page of `virt`, zero while it has no page table. -/
def lookup (mem : ByteMem) (pml4 virt : Nat) : Nat :=
  (tableAt mem pml4 virt 3).elim 0 fun pt => entryAt mem pt (getPte virt)

/-- The frame and the flags of a page. -/
def translation (mem : ByteMem) (pml4 virt : Nat) : Nat × Nat :=
  (lookup mem pml4 virt &&& frameMask, lookup mem pml4 virt % PAGE_SIZE)

theorem levelIndex_lt (virt n : Nat) : levelIndex virt n < 512 := by
  unfold levelIndex
  split
  all_goals exact Nat.mod_lt _ (by decide)

theorem levelIndex_congr {v w : Nat} (h : pathOf v = pathOf w) (n : Nat) :
    levelIndex v n = levelIndex w n := by
  simp only [pathOf, List.cons.injEq, and_true] at h
  unfold levelIndex
  split
  · exact h.2.2
  · exact h.2.1
  · exact h.1

theorem tableAt_succ {t : Nat} (h : tableAt mem pml4 virt n = some t) :
    tableAt mem pml4 virt (n + 1) = nextTable mem t (levelIndex virt n) := by
  rw [tableAt, h, Option.bind_eq_bind, Option.bind_some]

theorem tableAt_succ_of_none (h : tableAt mem pml4 virt n = none) :
    tableAt mem pml4 virt (n + 1) = none := by
  rw [tableAt, h, Option.bind_eq_bind, Option.bind_none]

theorem lookup_of_some {pt : Nat} (h : tableAt mem pml4 virt 3 = some pt) :
    lookup mem pml4 virt = entryAt mem pt (getPte virt) := by
  rw [lookup, h, Option.elim_some]

theorem lookup_of_none (h : tableAt mem pml4 virt 3 = none) :
    lookup mem pml4 virt = 0 := by
  rw [lookup, h, Option.elim_none]

/-- Tables below the top one are frames. -/
theorem tableAt_aligned {t : Nat} (h : tableAt mem pml4 virt (n + 1) = some t) :
    PAGE_SIZE ∣ t := by
  cases hup : tableAt mem pml4 virt n with
  | none =>
      rw [tableAt_succ_of_none hup] at h
      cases h
  | some u =>
      rw [tableAt_succ hup, nextTable] at h
      split at h
      · cases h
      · exact Option.some.inj h ▸ and_frameMask_aligned _

/-- The tables stay when the links on the way do. -/
theorem tableAt_congr
    (h : ∀ i < n, ∀ t, tableAt mem pml4 virt i = some t →
      entryAt mem' t (levelIndex virt i) = entryAt mem t (levelIndex virt i)) :
    tableAt mem' pml4 virt n = tableAt mem pml4 virt n := by
  induction n with
  | zero => rfl
  | succ n ih =>
      have hup := ih fun i hi => h i (by omega)
      cases ht : tableAt mem pml4 virt n with
      | none => rw [tableAt_succ_of_none ht, tableAt_succ_of_none (hup.trans ht)]
      | some t =>
          rw [tableAt_succ ht, tableAt_succ (hup.trans ht), nextTable, nextTable,
            h n (by omega) t ht]

/-- And so does the entry of the page. -/
theorem lookup_congr
    (h : ∀ i < 3, ∀ t, tableAt mem pml4 virt i = some t →
      entryAt mem' t (levelIndex virt i) = entryAt mem t (levelIndex virt i))
    (hpte : ∀ pt, tableAt mem pml4 virt 3 = some pt →
      entryAt mem' pt (getPte virt) = entryAt mem pt (getPte virt)) :
    lookup mem' pml4 virt = lookup mem pml4 virt := by
  have htable := tableAt_congr h
  cases hpt : tableAt mem pml4 virt 3 with
  | none => rw [lookup_of_none hpt, lookup_of_none (htable.trans hpt)]
  | some pt => rw [lookup_of_some hpt, lookup_of_some (htable.trans hpt), hpte pt hpt]

theorem tableAt_page {v w : Nat} (h : pathOf v = pathOf w) (n : Nat) :
    tableAt mem pml4 v n = tableAt mem pml4 w n := by
  induction n with
  | zero => rfl
  | succ n ih => rw [tableAt, tableAt, ih, levelIndex_congr h n]

/-- Addresses of one page have one entry. -/
theorem lookup_page {v w : Nat} (h : pageOf v = pageOf w) :
    lookup mem pml4 v = lookup mem pml4 w := by
  have hsplit := pageOf_eq_iff.mp h
  rw [lookup, lookup, tableAt_page hsplit.1, hsplit.2]

/-- In a tree the links are what `tab` says. -/
theorem PageTree.nextTable_link (ht : PageTree mem vm tab) {path : List Nat} {t i : Nat}
    (hpath : tab path = some t) (hlen : path.length < 3) (hi : UserIndex path i) :
    nextTable mem t i = tab (i :: path) := by
  have hlink := ht.link hpath hlen hi
  rw [nextTable, hlink]
  cases hnext : tab (i :: path) with
  | none => rfl
  | some u =>
      have hframe := ht.frame hnext
      have hval : u ||| 0b111 = u + 7 := or_low hframe.1 (by decide)
      have hlt : u + 7 < 2 ^ 64 := by
        have := hframe.2.2
        omega
      have hmask := or_and_frameMask (f := 0b111) hframe.1 (by omega) (by decide)
      rw [hval, Nat.mod_eq_of_lt hlt] at hmask
      rw [Option.elim_some, hval, if_neg (by omega), hmask]

/-- The path of `virt` down to a level. -/
def pathTo (virt : Nat) : Nat → List Nat
  | 0 => []
  | n + 1 => levelIndex virt n :: pathTo virt n

theorem length_pathTo (virt n : Nat) : (pathTo virt n).length = n := by
  induction n with
  | zero => rfl
  | succ n ih => rw [pathTo, List.length_cons, ih]

theorem userIndex_pathTo (huser : UserAddr virt) (n : Nat) :
    UserIndex (pathTo virt n) (levelIndex virt n) := by
  cases n with
  | zero => exact ⟨levelIndex_lt virt 0, fun _ => huser⟩
  | succ n => exact ⟨levelIndex_lt virt _, fun hnil => by cases hnil⟩

theorem PageTree.tableAt_eq (ht : PageTree mem vm tab) (huser : UserAddr virt)
    (hn : n ≤ 3) : tableAt mem vm.pml4 virt n = tab (pathTo virt n) := by
  induction n with
  | zero => exact ht.root.symm
  | succ n ih =>
      have hup := ih (by omega)
      cases htab : tab (pathTo virt n) with
      | none => rw [tableAt_succ_of_none (hup.trans htab), pathTo, ht.none_of_none htab]
      | some t =>
          have hlen : (pathTo virt n).length < 3 := by
            rw [length_pathTo]
            omega
          rw [tableAt_succ (hup.trans htab), pathTo,
            ht.nextTable_link htab hlen (userIndex_pathTo huser n)]

/-- Reading the tables gives the entry of the tree. -/
theorem PageTree.lookup_eq (ht : PageTree mem vm tab) (huser : UserAddr virt) :
    lookup mem vm.pml4 virt = leaf mem tab virt := by
  rw [lookup, ht.tableAt_eq huser (le_refl 3)]
  rfl

/-! ## Setting the pages of a range -/

section SetOnly

variable {β : Type} {see see' see'' : Nat → β} {new : Nat → β}

/-- What is seen at the `n` pages from `virt` on is `new`, and elsewhere it is what it
was. -/
structure SetOnly (see see' : Nat → β) (virt n : Nat) (new : Nat → β) : Prop where
  inside : ∀ j < n, see' (virt + j * PAGE_SIZE) = new j
  outside : ∀ w, (∀ j < n, pageOf w ≠ pageOf (virt + j * PAGE_SIZE)) → see' w = see w

/-- Two pages of the user half differ, and the page at its end from all of them. -/
theorem pageOf_ne {i j : Nat} (hij : i < j) (hj : virt + j * PAGE_SIZE ≤ 2 ^ 47) :
    pageOf (virt + i * PAGE_SIZE) ≠ pageOf (virt + j * PAGE_SIZE) := by
  unfold pageOf PAGE_SIZE at *
  omega

/-- One page more. -/
theorem SetOnly.succ (h : SetOnly see see' virt n new)
    (hend : virt + n * PAGE_SIZE ≤ 2 ^ 47)
    (hself : see'' (virt + n * PAGE_SIZE) = new n)
    (hother : ∀ w, pageOf w ≠ pageOf (virt + n * PAGE_SIZE) → see'' w = see' w) :
    SetOnly see see'' virt (n + 1) new := by
  constructor
  · intro j hj
    rcases Nat.lt_succ_iff_lt_or_eq.mp hj with hlt | rfl
    · rw [hother _ (pageOf_ne hlt hend), h.inside j hlt]
    · exact hself
  · intro w hw
    rw [hother w (hw n (by omega)), h.outside w fun j hj => hw j (by omega)]

/-- A page too many goes unnoticed only where it already showed the new value. -/
theorem SetOnly.dropLast_iff (h : SetOnly see see' virt (n + 1) new)
    (hend : virt + n * PAGE_SIZE ≤ 2 ^ 47)
    (hsee : ∀ {v w}, pageOf v = pageOf w → see v = see w)
    (hsee' : ∀ {v w}, pageOf v = pageOf w → see' v = see' w) :
    SetOnly see see' virt n new ↔ see (virt + n * PAGE_SIZE) = new n := by
  have hlast : see' (virt + n * PAGE_SIZE) = new n := h.inside n (by omega)
  constructor
  · intro honly
    rw [← honly.outside _ fun j hj => (pageOf_ne hj hend).symm]
    exact hlast
  · intro hbehind
    refine ⟨fun j hj => h.inside j (by omega), fun w hw => ?_⟩
    by_cases hpage : pageOf w = pageOf (virt + n * PAGE_SIZE)
    · rw [hsee' hpage, hlast, hsee hpage, hbehind]
    · refine h.outside w fun j hj => ?_
      rcases Nat.lt_succ_iff_lt_or_eq.mp hj with hlt | rfl
      · exact hw j hlt
      · exact hpage

end SetOnly

/-! ## The loop -/

variable {Refusable : Prop} {S : Nat → σ → Set Nat → Prop} {avoid : Set Nat}
  {k' : Machine σ} {vm' : Vmm} {tab' : List Nat → Option Nat} {m : Nat}

/-- `n` rounds of a loop over `map_page`. -/
def mapEach (alloc : FrameAlloc σ) (virt : Nat) (phys flags : Nat → Nat) :
    Nat → Machine σ × Vmm → Machine σ × Vmm
  | 0, s => s
  | n + 1, s =>
      let s := mapEach alloc virt phys flags n s
      Vmm.mapPage alloc s.1 s.2 ((virt + n * PAGE_SIZE) % 2 ^ 64) (phys n) (flags n)

theorem mapEach_succ (virt : Nat) (phys flags : Nat → Nat) (n : Nat)
    (s : Machine σ × Vmm) :
    mapEach alloc virt phys flags (n + 1) s =
      Vmm.mapPage alloc (mapEach alloc virt phys flags n s).1
        (mapEach alloc virt phys flags n s).2 ((virt + n * PAGE_SIZE) % 2 ^ 64)
        (phys n) (flags n) := by
  rw [mapEach]

theorem mapPages_eq (virt phys prot n : Nat) (s : Machine σ × Vmm) :
    Vmm.mapPages alloc virt phys prot n s =
      mapEach alloc virt (fun j => (phys + j * PAGE_SIZE) % 2 ^ 64)
        (fun _ => prot % 2 ^ 16) n s := by
  induction n with
  | zero => rfl
  | succ n ih => rw [Vmm.mapPages, mapEach, ih]

theorem unmapPages_eq (virt n : Nat) (s : Machine σ × Vmm) :
    Vmm.unmapPages alloc virt n s =
      mapEach alloc virt (fun _ => 0) (fun _ => 0) n s := by
  induction n with
  | zero => rfl
  | succ n ih => rw [Vmm.unmapPages, mapEach, ih, Vmm.unmapPage]

theorem mem_walk {a : Nat} (ha : a ∈ vm.pageTablesAddr) :
    a ∈ (Vmm.walk alloc k vm virt).2.2.pageTablesAddr := by
  simp only [Vmm.walk]
  exact mem_getNextLevel (mem_getNextLevel (mem_getNextLevel ha))

/-- `map_page` only adds to the recorded tables. -/
theorem mem_mapPage {a phys flags : Nat} (ha : a ∈ vm.pageTablesAddr) :
    a ∈ (Vmm.mapPage alloc k vm virt phys flags).2.pageTablesAddr := by
  have hwalk : a ∈ (Vmm.walk alloc k vm virt).2.2.pageTablesAddr := mem_walk ha
  obtain ⟨r, hret⟩ : ∃ r, Vmm.walk alloc k vm virt = r := ⟨_, rfl⟩
  rw [hret] at hwalk
  simp only [Vmm.mapPage, hret]
  exact hwalk

/-- The pagemap after some rounds that store `entry j` for page `j`. -/
structure Ranged (S : Nat → σ → Set Nat → Prop) (avoid : Set Nat) (k : Machine σ)
    (vm : Vmm) (tab : List Nat → Option Nat) (virt n m : Nat) (entry : Nat → Nat)
    (k' : Machine σ) (vm' : Vmm) (tab' : List Nat → Option Nat) : Prop where
  tree : PageTree k'.mem vm' tab'
  pml4_eq : vm'.pml4 = vm.pml4
  set : SetOnly (leaf k.mem tab) (leaf k'.mem tab') virt n entry
  same : SameOutside vm'.tables k.mem k'.mem
  kernel : KeepsKernel vm.pml4 k.mem k'.mem
  gains : GainsBy S avoid m vm k'.pmm vm'

theorem userAddr_of_lt (hvirt : virt < 2 ^ 47) : UserAddr virt := by
  unfold UserAddr getPml4e
  omega

theorem mod_of_le {v : Nat} (h : v ≤ 2 ^ 47) : v % 2 ^ 64 = v :=
  Nat.mod_eq_of_lt (by omega)

theorem Ranged.zero (hS : Supply alloc Refusable S) (ht : PageTree k.mem vm tab)
    (havoid : vm.tables ⊆ avoid) (entry : Nat → Nat) (hsup : S m k.pmm avoid) :
    Ranged S avoid k vm tab virt 0 m entry k vm tab :=
  { tree := ht
    pml4_eq := rfl
    set := ⟨fun j hj => by omega, fun _ _ => rfl⟩
    same := fun _ _ => rfl
    kernel := KeepsKernel.refl _ _
    gains := ⟨fun _ ht => .inl ht, hS.mono hsup (by
      rw [Set.union_eq_self_of_subset_right havoid])⟩ }

/-- One round in the user half. -/
theorem Ranged.succ (hS : Supply alloc Refusable S) {entry : Nat → Nat}
    (h : Ranged S avoid k vm tab virt n (m + 3) entry k' vm' tab')
    (hend : virt + n * PAGE_SIZE < 2 ^ 47) (phys flags : Nat)
    (hentry : entry n = (phys ||| flags) % 2 ^ 64) :
    (∃ k'' vm'' tab'', Vmm.mapPage alloc k' vm' ((virt + n * PAGE_SIZE) % 2 ^ 64)
        phys flags = (k'', vm'') ∧
      Ranged S avoid k vm tab virt (n + 1) m entry k'' vm'' tab'') ∨
    (Refusable ∧ 0 ∈ (Vmm.mapPage alloc k' vm' ((virt + n * PAGE_SIZE) % 2 ^ 64)
        phys flags).2.pageTablesAddr) := by
  have hround : (virt + n * PAGE_SIZE) % 2 ^ 64 = virt + n * PAGE_SIZE :=
    mod_of_le hend.le
  rw [hround]
  have huser : UserAddr (virt + n * PAGE_SIZE) := userAddr_of_lt hend
  rcases hS.mapPage phys flags h.tree huser Set.subset_union_right h.gains.supply with
    ⟨k'', vm'', tab'', hret, ht, hpml4, _, hleaf, hsame, hkernel, hgains⟩ | hrefused
  · have hsub : vm'.tables ⊆ vm''.tables := by
      intro t ht
      rcases ht with hroot | hmem
      · exact .inl (hroot.trans hpml4.symm)
      · have hkept : t ∈ (Vmm.mapPage alloc k' vm' (virt + n * PAGE_SIZE) phys
            flags).2.pageTablesAddr := mem_mapPage hmem
        rw [hret] at hkept
        exact .inr hkept
    refine .inl ⟨k'', vm'', tab'', hret, ?_⟩
    exact
      { tree := ht
        pml4_eq := hpml4.trans h.pml4_eq
        set := h.set.succ hend.le
          (by rw [hleaf, if_pos rfl, hentry])
          (fun w hw => by rw [hleaf, if_neg hw])
        same := (h.same.mono hsub).trans hsame
        kernel := h.kernel.trans (h.pml4_eq ▸ hkernel)
        gains := h.gains.trans hS hgains }
  · exact .inr hrefused

/-- `n` rounds in the user half store one entry each, unless a request is refused. -/
theorem mapEach_spec (hS : Supply alloc Refusable S) (ht : PageTree k.mem vm tab)
    (havoid : vm.tables ⊆ avoid) (phys flags : Nat → Nat) (n : Nat)
    (hend : virt + n * PAGE_SIZE ≤ 2 ^ 47) (hsup : S (m + 3 * n) k.pmm avoid) :
    (∃ k' vm' tab', mapEach alloc virt phys flags n (k, vm) = (k', vm') ∧
      Ranged S avoid k vm tab virt n m (fun j => (phys j ||| flags j) % 2 ^ 64)
        k' vm' tab') ∨
    (Refusable ∧ 0 ∈ (mapEach alloc virt phys flags n (k, vm)).2.pageTablesAddr) := by
  induction n generalizing m with
  | zero =>
      exact .inl ⟨k, vm, tab, rfl, Ranged.zero hS ht havoid _ hsup⟩
  | succ n ih =>
      have hlast : virt + n * PAGE_SIZE < 2 ^ 47 := by
        unfold PAGE_SIZE at *
        omega
      have hsup' : S (m + 3 + 3 * n) k.pmm avoid := by
        rwa [show m + 3 + 3 * n = m + 3 * (n + 1) by omega]
      rw [mapEach_succ]
      rcases ih hlast.le hsup' with ⟨k', vm', tab', hret, hranged⟩ | ⟨hrefuse, hnull⟩
      · rw [hret]
        dsimp only
        exact hranged.succ hS hlast (phys n) (flags n) rfl
      · exact .inr ⟨hrefuse, mem_mapPage hnull⟩

/-! ## The kernel's half -/

/-- The kernel's tables are in use, and not by the pagemap for its own. -/
def KernelApart (mem : ByteMem) (vm : Vmm) (avoid : Set Nat) : Prop :=
  ∀ w, ¬UserAddr w → ∀ i < 3, ∀ t, tableAt mem vm.pml4 w (i + 1) = some t →
    t ∈ avoid ∧ t ∉ vm.tables

/-- `pt` is the page table of the first address behind the user half, and leads to
other pages only by its own entries. -/
structure EndTable (mem : ByteMem) (pml4 pt : Nat) : Prop where
  table : tableAt mem pml4 (2 ^ 47) 3 = some pt
  only : ∀ w, ¬UserAddr w → ∀ i ≤ 3, tableAt mem pml4 w i = some pt →
    i = 3 ∧ pathOf w = pathOf (2 ^ 47)

theorem not_userAddr_end : ¬UserAddr (2 ^ 47) := by decide

/-- The tables of one address are in use, and not by the pagemap for its own. -/
def ApartAt (mem : ByteMem) (vm : Vmm) (avoid : Set Nat) (w : Nat) : Prop :=
  ∀ i < 3, ∀ t, tableAt mem vm.pml4 w (i + 1) = some t → t ∈ avoid ∧ t ∉ vm.tables

/-- The rounds write to no table of the kernel. -/
theorem Ranged.entry_kernel {entry : Nat → Nat}
    (h : Ranged S avoid k vm tab virt n m entry k' vm' tab') {w i t j : Nat}
    (hk : ApartAt k.mem vm avoid w) (hi : i < 3)
    (ht : tableAt k.mem vm.pml4 w (i + 1) = some t) (hj : j < 512) :
    entryAt k'.mem t j = entryAt k.mem t j := by
  have hapart := hk i hi t ht
  refine entryAt_sameOutside h.same (tableAt_aligned ht) hj fun hmem => ?_
  rcases h.gains.fresh t hmem with hold | hnew
  · exact hapart.2 hold
  · exact hnew hapart.1

theorem Ranged.link_kernel {entry : Nat → Nat}
    (h : Ranged S avoid k vm tab virt n m entry k' vm' tab') {w i t : Nat}
    (hk : ApartAt k.mem vm avoid w) (hw : ¬UserAddr w) (hi : i < 3)
    (ht : tableAt k.mem vm.pml4 w i = some t) :
    entryAt k'.mem t (levelIndex w i) = entryAt k.mem t (levelIndex w i) := by
  cases i with
  | zero =>
      obtain rfl := Option.some.inj ht
      exact h.kernel _ (levelIndex_lt w 0) fun huser => hw (huser.2 rfl)
  | succ i => exact h.entry_kernel hk (by omega) ht (levelIndex_lt w _)

theorem Ranged.tableAt_kernel {entry : Nat → Nat}
    (h : Ranged S avoid k vm tab virt n m entry k' vm' tab') {w i : Nat}
    (hk : ApartAt k.mem vm avoid w) (hw : ¬UserAddr w) (hi : i ≤ 3) :
    tableAt k'.mem vm.pml4 w i = tableAt k.mem vm.pml4 w i :=
  tableAt_congr fun _ hlt _ ht => h.link_kernel hk hw (by omega) ht

/-- Rounds in the user half, as the tables of all addresses show them. -/
theorem Ranged.lookups {entry : Nat → Nat} (ht : PageTree k.mem vm tab)
    (hk : KernelApart k.mem vm avoid)
    (h : Ranged S avoid k vm tab virt n m entry k' vm' tab')
    (hend : virt + n * PAGE_SIZE ≤ 2 ^ 47) :
    SetOnly (lookup k.mem vm.pml4) (lookup k'.mem vm'.pml4) virt n entry := by
  constructor
  · intro j hj
    have huser : UserAddr (virt + j * PAGE_SIZE) := by
      apply userAddr_of_lt
      unfold PAGE_SIZE at *
      omega
    rw [h.tree.lookup_eq huser, h.set.inside j hj]
  · intro w hw
    by_cases huser : UserAddr w
    · rw [h.tree.lookup_eq huser, ht.lookup_eq huser, h.set.outside w hw]
    · rw [h.pml4_eq]
      exact lookup_congr (fun i hi t ht => h.link_kernel (hk w huser) huser hi ht)
        fun pt hpt => h.entry_kernel (hk w huser) (by omega) hpt (getPte_lt w)

/-- A walk down existing tables changes nothing. -/
theorem getNextLevel_of_nextTable {t t' i : Nat} (h : nextTable k.mem t i = some t') :
    Vmm.getNextLevel alloc k vm t i = (t', k, vm) := by
  rw [nextTable] at h
  split at h
  · cases h
  · rename_i hne
    rw [Vmm.getNextLevel, if_neg hne, Option.some.inj h]

theorem tableAt_of_succ {t : Nat} (h : tableAt mem pml4 virt (n + 1) = some t) :
    ∃ u, tableAt mem pml4 virt n = some u ∧ nextTable mem u (levelIndex virt n) = some t := by
  cases hup : tableAt mem pml4 virt n with
  | none =>
      rw [tableAt_succ_of_none hup] at h
      cases h
  | some u => exact ⟨u, rfl, (tableAt_succ hup).symm.trans h⟩

theorem walk_of_tableAt {pt : Nat} (h : tableAt k.mem vm.pml4 virt 3 = some pt) :
    Vmm.walk alloc k vm virt = (pt, k, vm) := by
  obtain ⟨pd, hpd, hpt⟩ := tableAt_of_succ h
  obtain ⟨pdp, hpdp, hnext⟩ := tableAt_of_succ hpd
  obtain ⟨root, hroot, htop⟩ := tableAt_of_succ hpdp
  obtain rfl := Option.some.inj hroot
  have h₁ : Vmm.getNextLevel alloc k vm vm.pml4 _ = (pdp, k, vm) :=
    getNextLevel_of_nextTable htop
  have h₂ : Vmm.getNextLevel alloc k vm pdp _ = (pd, k, vm) :=
    getNextLevel_of_nextTable hnext
  have h₃ : Vmm.getNextLevel alloc k vm pd _ = (pt, k, vm) :=
    getNextLevel_of_nextTable hpt
  simp only [levelIndex] at h₁ h₂ h₃
  simp only [Vmm.walk, h₁, h₂, h₃]

namespace EndTable

variable {pt w v : Nat}

theorem link_set (h : EndTable mem pml4 pt) (hal : PAGE_SIZE ∣ pml4) (hw : ¬UserAddr w)
    {i t : Nat} (hi : i < 3) (ht : tableAt mem pml4 w i = some t) (v : Nat) :
    entryAt (setEntry mem pt (getPte (2 ^ 47)) v) t (levelIndex w i) =
      entryAt mem t (levelIndex w i) := by
  have htal : PAGE_SIZE ∣ t := by
    cases i with
    | zero => exact Option.some.inj ht ▸ hal
    | succ i => exact tableAt_aligned ht
  refine entryAt_setEntry_of_ne (tableAt_aligned h.table) htal (getPte_lt _)
    (levelIndex_lt w i) (.inl ?_)
  rintro rfl
  have hlast := (h.only w hw i (by omega) ht).1
  omega

/-- The page of the entry gets it. -/
theorem lookup_set_self (h : EndTable mem pml4 pt) (hal : PAGE_SIZE ∣ pml4) (v : Nat) :
    lookup (setEntry mem pt (getPte (2 ^ 47)) v) pml4 (2 ^ 47) = v % 2 ^ 64 := by
  have htable : tableAt (setEntry mem pt (getPte (2 ^ 47)) v) pml4 (2 ^ 47) 3 = some pt :=
    (tableAt_congr fun i hi t ht => h.link_set hal not_userAddr_end hi ht v).trans h.table
  rw [lookup_of_some htable, entryAt_setEntry_self]

/-- No other page of the kernel does. -/
theorem lookup_set_of_ne (h : EndTable mem pml4 pt) (hal : PAGE_SIZE ∣ pml4)
    (hw : ¬UserAddr w) (hne : pageOf w ≠ pageOf (2 ^ 47)) (v : Nat) :
    lookup (setEntry mem pt (getPte (2 ^ 47)) v) pml4 w = lookup mem pml4 w := by
  refine lookup_congr (fun i hi t ht => h.link_set hal hw hi ht v) fun pw hpw => ?_
  refine entryAt_setEntry_of_ne (tableAt_aligned h.table) (tableAt_aligned hpw)
    (getPte_lt _) (getPte_lt w) ?_
  by_contra hcontra
  push Not at hcontra
  obtain ⟨rfl, hpte⟩ := hcontra
  exact hne (pageOf_eq_iff.mpr ⟨(h.only w hw 3 (le_refl 3) hpw).2, hpte.symm⟩)

end EndTable

/-- The round at the end of the user half finds the kernel's page table. -/
theorem Ranged.lookups_end {entry : Nat → Nat} {pt : Nat} (ht : PageTree k.mem vm tab)
    (hk : KernelApart k.mem vm avoid)
    (h : Ranged S avoid k vm tab virt n m entry k' vm' tab')
    (hend : virt + n * PAGE_SIZE = 2 ^ 47) (hpt : EndTable k.mem vm.pml4 pt)
    (phys flags : Nat) (hentry : entry n = (phys ||| flags) % 2 ^ 64) :
    ∃ k'', Vmm.mapPage alloc k' vm' ((virt + n * PAGE_SIZE) % 2 ^ 64) phys flags =
        (k'', vm') ∧
      SetOnly (lookup k.mem vm.pml4) (lookup k''.mem vm'.pml4) virt (n + 1) entry := by
  have hpt' : EndTable k'.mem vm'.pml4 pt := by
    rw [h.pml4_eq]
    constructor
    · rw [h.tableAt_kernel (hk _ not_userAddr_end) not_userAddr_end (le_refl 3)]
      exact hpt.table
    · intro w hw i hi htable
      rw [h.tableAt_kernel (hk w hw) hw hi] at htable
      exact hpt.only w hw i hi htable
  have hal := (h.tree.frame h.tree.root).1
  have hfree : ∀ t ∈ vm'.tables, t ∉ ({pt} : Set Nat) := by
    rintro t hmem rfl
    have hapart := hk _ not_userAddr_end 2 (by omega) _ hpt.table
    rcases h.gains.fresh t hmem with hold | hnew
    · exact hapart.2 hold
    · exact hnew hapart.1
  have hsame := sameOutside_setEntry (tableAt_aligned hpt.table) (getPte_lt (2 ^ 47))
    (Set.mem_singleton pt) k'.mem (phys ||| flags)
  have htree := h.tree.sameOutside hsame hfree
  have hset := h.lookups ht hk hend.le
  refine ⟨{ k' with mem := setEntry k'.mem pt (getPte (2 ^ 47)) (phys ||| flags) }, ?_,
    hset.succ hend.le ?_ ?_⟩
  · rw [hend, mod_of_le (le_refl _)]
    simp only [Vmm.mapPage, walk_of_tableAt hpt'.table]
  · rw [hend, hentry]
    exact hpt'.lookup_set_self hal _
  · intro w hw
    rw [hend] at hw
    by_cases huser : UserAddr w
    · change lookup (setEntry _ _ _ _) _ w = _
      rw [htree.lookup_eq huser, h.tree.lookup_eq huser,
        h.tree.leaf_sameOutside hsame hfree]
    · exact hpt'.lookup_set_of_ne hal huser hw _

/-! ## A range and the page behind it -/

/-- A pagemap in a machine whose allocator keeps away from its tables and the
kernel's. -/
structure Mappable (alloc : FrameAlloc σ) (k : Machine σ) (vm : Vmm)
    (tab : List Nat → Option Nat) (avoid : Set Nat) : Prop where
  tree : PageTree k.mem vm tab
  in_use : vm.tables ⊆ avoid
  serves : ∀ m, Serves alloc m k.pmm avoid
  kernel : KernelApart k.mem vm avoid

theorem end_of_lt (hvirt : PAGE_SIZE ∣ virt) (hlt : virt + n * PAGE_SIZE < 2 ^ 47) :
    virt + (n + 1) * PAGE_SIZE ≤ 2 ^ 47 := by
  obtain ⟨a, rfl⟩ := hvirt
  unfold PAGE_SIZE at *
  omega

/-- `n + 1` rounds from a page of the user half on, of which the last may be for the
page at its end: while no request was refused they store one entry each. -/
theorem Mappable.mapEach_lookups (h : Mappable alloc k vm tab avoid)
    (hvirt : PAGE_SIZE ∣ virt) (hend : virt + n * PAGE_SIZE ≤ 2 ^ 47)
    (hedge : virt + n * PAGE_SIZE = 2 ^ 47 → ∃ pt, EndTable k.mem vm.pml4 pt)
    (phys flags : Nat → Nat)
    (hok : 0 ∉ (mapEach alloc virt phys flags (n + 1) (k, vm)).2.pageTablesAddr) :
    SetOnly (lookup k.mem vm.pml4)
      (lookup (mapEach alloc virt phys flags (n + 1) (k, vm)).1.mem
        (mapEach alloc virt phys flags (n + 1) (k, vm)).2.pml4)
      virt (n + 1) fun j => (phys j ||| flags j) % 2 ^ 64 := by
  rcases mapEach_spec supply_serves h.tree h.in_use phys flags n hend
      (h.serves (0 + 3 + 3 * n)) with ⟨k', vm', tab', hret, hranged⟩ | ⟨_, hnull⟩
  · rw [mapEach_succ, hret] at hok ⊢
    dsimp only at hok ⊢
    rcases Nat.lt_or_eq_of_le hend with hlt | heq
    · rcases hranged.succ supply_serves hlt (phys n) (flags n) rfl with
        ⟨k'', vm'', tab'', hret', hranged'⟩ | ⟨_, hnull⟩
      · rw [hret']
        exact hranged'.lookups h.tree h.kernel (end_of_lt hvirt hlt)
      · exact absurd hnull hok
    · obtain ⟨pt, hpt⟩ := hedge heq
      obtain ⟨k'', hret', hset⟩ := hranged.lookups_end h.tree h.kernel heq hpt
        (phys n) (flags n) rfl
      rw [hret']
      exact hset
  · rw [mapEach_succ] at hok
    exact absurd (mem_mapPage hnull) hok

/-- Frame and flags of an entry that `map_page` stored. -/
theorem translation_of_or {p f : Nat} (hp : PAGE_SIZE ∣ p) (hlt : p < 2 ^ 64)
    (hf : f < PAGE_SIZE) (h : lookup mem pml4 virt = (p ||| f) % 2 ^ 64) :
    translation mem pml4 virt = (p, f) := by
  have hframe : (p ||| f) % 2 ^ 64 &&& frameMask = p := or_and_frameMask hp hlt hf
  have hflags : (p ||| f) % 2 ^ 64 % PAGE_SIZE = f := by
    rw [or_low hp hf]
    obtain ⟨a, rfl⟩ := hp
    unfold PAGE_SIZE at *
    omega
  rw [translation, h, hframe, hflags]

theorem translation_page {v w : Nat} (h : pageOf v = pageOf w) :
    translation mem pml4 v = translation mem pml4 w := by
  rw [translation, translation, lookup_page h]

theorem pageAligned_wrap {phys : Nat} (hphys : PAGE_SIZE ∣ phys) (j : Nat) :
    PAGE_SIZE ∣ (phys + j * PAGE_SIZE) % 2 ^ 64 := by
  obtain ⟨a, rfl⟩ := hphys
  unfold PAGE_SIZE
  omega

/-- `map_range_raw` and `unmap_range_raw` over `n` pages of the user half, no request
refused, for whatever one looks at in a translation (its frame, its frame and flags):
they set the translations of the `n` pages and of no other page, the kernel's included,
if and only if the page behind the range had the new value before. -/
theorem map_range_exact_iff {β : Type} (view : Nat × Nat → β) {phys prot : Nat}
    (h : Mappable alloc k vm tab avoid)
    (hvirt : PAGE_SIZE ∣ virt) (hend : virt + n * PAGE_SIZE ≤ 2 ^ 47)
    (hedge : virt + n * PAGE_SIZE = 2 ^ 47 → ∃ pt, EndTable k.mem vm.pml4 pt)
    (hphys : PAGE_SIZE ∣ phys) (hprot : prot < PAGE_SIZE) :
    (0 ∉ (Vmm.mapRangeRaw alloc k vm virt phys (n * PAGE_SIZE) prot).2.pageTablesAddr →
      (SetOnly (fun w => view (translation k.mem vm.pml4 w))
          (fun w => view (translation
            (Vmm.mapRangeRaw alloc k vm virt phys (n * PAGE_SIZE) prot).1.mem
            (Vmm.mapRangeRaw alloc k vm virt phys (n * PAGE_SIZE) prot).2.pml4 w))
          virt n (fun j => view ((phys + j * PAGE_SIZE) % 2 ^ 64, prot)) ↔
        view (translation k.mem vm.pml4 (virt + n * PAGE_SIZE)) =
          view ((phys + n * PAGE_SIZE) % 2 ^ 64, prot))) ∧
    (0 ∉ (Vmm.unmapRangeRaw alloc k vm virt (n * PAGE_SIZE)).2.pageTablesAddr →
      (SetOnly (fun w => view (translation k.mem vm.pml4 w))
          (fun w => view (translation
            (Vmm.unmapRangeRaw alloc k vm virt (n * PAGE_SIZE)).1.mem
            (Vmm.unmapRangeRaw alloc k vm virt (n * PAGE_SIZE)).2.pml4 w))
          virt n (fun _ => view (0, 0)) ↔
        view (translation k.mem vm.pml4 (virt + n * PAGE_SIZE)) = view (0, 0))) := by
  have hrounds : n * PAGE_SIZE / PAGE_SIZE = n := Nat.mul_div_cancel _ (by decide)
  have hsee : ∀ {mem : ByteMem} {pml4 v w}, pageOf v = pageOf w →
      view (translation mem pml4 v) = view (translation mem pml4 w) :=
    fun hpage => congrArg view (translation_page hpage)
  have hprot16 : prot % 2 ^ 16 = prot := by
    unfold PAGE_SIZE at hprot
    omega
  constructor
  · rw [Vmm.mapRangeRaw, hrounds, mapPages_eq, hprot16]
    intro hok
    have hset := h.mapEach_lookups hvirt hend hedge _ _ hok
    refine SetOnly.dropLast_iff ⟨fun j hj => ?_, fun w hw => ?_⟩ hend hsee hsee
    · exact congrArg view (translation_of_or (pageAligned_wrap hphys j)
        (Nat.mod_lt _ (by decide)) hprot (hset.inside j hj))
    · have hkept := hset.outside w hw
      rw [translation, translation, hkept]
  · rw [Vmm.unmapRangeRaw, hrounds, unmapPages_eq]
    intro hok
    have hset := h.mapEach_lookups hvirt hend hedge _ _ hok
    refine SetOnly.dropLast_iff ⟨fun j hj => ?_, fun w hw => ?_⟩ hend hsee hsee
    · exact congrArg view (translation_of_or (Nat.dvd_zero _) (by decide) (by decide)
        (hset.inside j hj))
    · have hkept := hset.outside w hw
      rw [translation, translation, hkept]

/-! ### A new pagemap -/

/-- Zeroed memory of 64 pages, with a new pagemap at 0x1000. -/
def zeroedMachine : Machine Pmm := ⟨fun _ => 0, sixtyFourPages⟩

def newPagemap : Vmm := ⟨0x1000, [], []⟩

theorem tables_newPagemap : newPagemap.tables ⊆ {0x1000} := by
  intro t ht
  rcases ht with hroot | hmem
  · exact hroot
  · cases hmem

theorem entryAt_zeroed (t i : Nat) : entryAt (fun _ => 0) t i = 0 := by
  simp [entryAt, ByteMem.read64]

/-- No address has a table yet. -/
theorem tableAt_zeroed (w i : Nat) : tableAt (fun _ => 0) pml4 w (i + 1) = none := by
  induction i with
  | zero => rw [tableAt_succ rfl, nextTable, if_pos (entryAt_zeroed _ _)]
  | succ i ih => exact tableAt_succ_of_none ih

theorem mappable_newPagemap :
    Mappable Vmm.allocFrame zeroedMachine newPagemap
      (fun path => if path = [] then some 0x1000 else none) {0x1000} := by
  have hused : ∀ i, i * PAGE_SIZE ∈ ({0x1000} : Set Nat) →
      sixtyFourPages.bitmap.isBitSet i = true := by
    intro i hi
    obtain rfl : i = 1 := by
      rw [Set.mem_singleton_iff] at hi
      unfold PAGE_SIZE at hi
      omega
    decide
  refine
    { tree := PageTree.root_only (by decide) [] fun _ => entryAt_zeroed _ _
      in_use := tables_newPagemap
      serves := fun m => serves_allocFrame m (by decide) (by decide) hused
      kernel := ?_ }
  intro w _ i _ t ht
  rw [show zeroedMachine.mem = fun _ => 0 from rfl, tableAt_zeroed] at ht
  cases ht

theorem lookup_zeroed (w : Nat) : lookup (fun _ => 0) pml4 w = 0 :=
  lookup_of_none (tableAt_zeroed w 2)

/-- Unmapping one page of it touches no other, because none is mapped. -/
theorem map_range_exact_iff_newPagemap :
    let r := Vmm.unmapRangeRaw Vmm.allocFrame zeroedMachine newPagemap 0x400000 4096
    SetOnly (fun w => translation zeroedMachine.mem 0x1000 w)
      (fun w => translation r.1.mem r.2.pml4 w) 0x400000 1 fun _ => (0, 0) := by
  have h := map_range_exact_iff id mappable_newPagemap
    (show PAGE_SIZE ∣ 0x400000 by decide)
    (show 0x400000 + 1 * PAGE_SIZE ≤ 2 ^ 47 by decide)
    (fun hend => absurd hend (by decide))
    (show PAGE_SIZE ∣ 0 by decide) (show 0 < PAGE_SIZE by decide)
  refine (h.2 (by decide +kernel)).mpr ?_
  rw [translation, show zeroedMachine.mem = fun _ => 0 from rfl, lookup_zeroed]
  rfl

/-- Mapping one page at 0x400000 to 0x8000 also maps the page at 0x401000. -/
theorem mapRangeRaw_one_page :
    let r := Vmm.mapRangeRaw Vmm.allocFrame zeroedMachine newPagemap 0x400000 0x8000 4096 7
    0 ∉ r.2.pageTablesAddr ∧ translation r.1.mem r.2.pml4 0x401000 = (0x9000, 7) ∧
      ¬SetOnly (fun w => translation zeroedMachine.mem 0x1000 w)
        (fun w => translation r.1.mem r.2.pml4 w) 0x400000 1
        fun j => (0x8000 + j * PAGE_SIZE, 7) := by
  intro r
  have hmapped : translation r.1.mem r.2.pml4 0x401000 = (0x9000, 7) := by decide +kernel
  refine ⟨by decide +kernel, hmapped, fun honly => ?_⟩
  have hkept := honly.outside 0x401000 (by decide)
  rw [hmapped] at hkept
  revert hkept
  decide +kernel

end Toystar.Memory

import Toystar.Memory.SpaceSound

/-!
# The frames of a copy

`duplicate` page by page, with an account of the frames: each page takes one for
its bytes, whatever tables are missing on the way take one each, and there is no
other request (`Copied.copyAll`).
-/

namespace Toystar.Memory

open Toystar.Klibc
open Toystar.Verified

variable {mem₀ : ByteMem} {tab₀ : List Nat → Option Nat} {owned : Set Nat} {p vm : Vmm}
  {k : Machine Pmm} {m : Nat → Option (Nat × Nat)} {n virt prot : Nat}

/-- A page and its flags, copied. -/
def copyOne (p : Vmm) (s : Machine Pmm × Vmm) (page : Nat × Nat) : Option (Machine Pmm × Vmm) :=
  Vmm.copyPage Vmm.allocFrame p page.1 page.2 s

/-- The pages that are copied of a range, and their flags. -/
def MemArea.copied (range : MemArea) : List (Nat × Nat) :=
  (List.range (Vmm.pageAmount range.limit)).map fun t => (range.page t, range.prot)

theorem copyPages_eq (p : Vmm) (base prot n : Nat) (s : Machine Pmm × Vmm) :
    Vmm.copyPages Vmm.allocFrame p base prot n s =
      ((List.range n).map fun t => ((base + t * PAGE_SIZE) % 2 ^ 64, prot)).foldlM
        (copyOne p) s := by
  induction n with
  | zero => rfl
  | succ n ih =>
      rw [List.range_succ, List.map_append, List.foldlM_append, ← ih]
      simp only [List.map_singleton, List.foldlM_cons, List.foldlM_nil, bind_pure, copyOne,
        Vmm.copyPages]

/-- The whole of `duplicate` is the new pagemap and the pages. -/
theorem duplicate_eq {k k' : Machine Pmm} {vm : Vmm} (kernelPml4 : Nat) (p : Vmm)
    (heap : Arrays MemArea)
    (h : (p.ranges.flatMap MemArea.copied).foldlM (copyOne p)
      (Vmm.new Vmm.allocFrame k kernelPml4) = some (k', vm)) :
    ∃ heap', Vmm.duplicate Vmm.allocFrame k kernelPml4 p heap =
      some (k', { vm with ranges := [] }, heap') := by
  have hranges : ∀ (ranges : List MemArea) (s t : Machine Pmm × Vmm) (heap : Arrays MemArea),
      (ranges.flatMap MemArea.copied).foldlM (copyOne p) s = some t →
      ∃ heap', ranges.foldlM (Vmm.copyRange Vmm.allocFrame p .new) (s, heap) =
        some (t, heap') := by
    intro ranges
    induction ranges with
    | nil =>
        intro s t heap hs
        exact ⟨heap, congrArg (Option.map fun s => (s, heap)) hs⟩
    | cons range ranges ih =>
        intro s t heap hs
        rw [List.flatMap_cons, List.foldlM_append, Option.bind_eq_bind,
          Option.bind_eq_some_iff] at hs
        obtain ⟨u, hfirst, hrest⟩ := hs
        have hpages : Vmm.copyPages Vmm.allocFrame p (range.base &&& frameMask) range.prot
            (Vmm.pageAmount range.limit) s = some u := (copyPages_eq _ _ _ _ _).trans hfirst
        have hone : Vmm.copyRange Vmm.allocFrame p .new (s, heap) range =
            some (u, heap ++ [none]) := by
          rw [Vmm.copyRange, hpages, Option.bind_eq_bind, Option.bind_some,
            ToysVector.pushBackTemporary_new]
          rfl
        obtain ⟨heap', hret⟩ := ih u t (heap ++ [none]) hrest
        exact ⟨heap', by rw [List.foldlM_cons, hone]; exact hret⟩
  obtain ⟨heap', hret⟩ := hranges p.ranges _ _ heap h
  refine ⟨heap', ?_⟩
  rw [Vmm.duplicate]
  exact Option.bind_eq_some_iff.mpr ⟨_, hret, rfl⟩

/-! ## One page -/

/-- What copying did to the machine and the new pagemap: `fs` are the frames of the pages,
in the order of the pages. -/
structure CopyAccount (k : Machine Pmm) (vm : Vmm) (fs : List Nat) (k' : Machine Pmm)
    (vm' : Vmm) : Prop where
  pml4_eq : vm'.pml4 = vm.pml4
  kernel : KeepsKernel vm.pml4 k.mem k'.mem
  same : SameOutside (vm'.tables ∪ {f | f ∈ fs}) k.mem k'.mem
  takes : ∃ ts us, vm'.pageTablesAddr = vm.pageTablesAddr ++ ts ∧
    Run Takes k.pmm us k'.pmm ∧ us.Perm (fs ++ ts)

namespace CopyAccount

variable {k' k'' : Machine Pmm} {vm' vm'' : Vmm} {fs gs : List Nat}

theorem refl (k : Machine Pmm) (vm : Vmm) : CopyAccount k vm [] k vm :=
  { pml4_eq := rfl
    kernel := KeepsKernel.refl _ _
    same := fun _ _ => rfl
    takes := ⟨[], [], (List.append_nil _).symm, .nil _, .refl _⟩ }

theorem tables_sub (h : CopyAccount k vm fs k' vm') : vm.tables ⊆ vm'.tables := by
  intro t ht
  obtain ⟨ts, _, haddr, _⟩ := h.takes
  rcases ht with hroot | hmem
  · exact .inl (hroot.trans h.pml4_eq.symm)
  · exact .inr (haddr ▸ List.mem_append_left _ hmem)

theorem trans (h : CopyAccount k vm fs k' vm') (h' : CopyAccount k' vm' gs k'' vm'') :
    CopyAccount k vm (fs ++ gs) k'' vm'' := by
  obtain ⟨ts, us, haddr, hrun, hperm⟩ := h.takes
  obtain ⟨ts', us', haddr', hrun', hperm'⟩ := h'.takes
  refine
    { pml4_eq := h'.pml4_eq.trans h.pml4_eq
      kernel := h.kernel.trans (h.pml4_eq ▸ h'.kernel)
      same := (h.same.mono ?_).trans (h'.same.mono ?_)
      takes := ⟨ts ++ ts', us ++ us', ?_, hrun.append hrun', ?_⟩ }
  · refine Set.union_subset_union h'.tables_sub fun f hf => ?_
    exact List.mem_append_left _ hf
  · exact Set.union_subset_union_right _ fun f hf => List.mem_append_right _ hf
  · rw [haddr', haddr, List.append_assoc]
  · rw [List.perm_iff_count]
    intro t
    have hcount := hperm.count_eq t
    have hcount' := hperm'.count_eq t
    simp only [List.count_append] at hcount hcount' ⊢
    omega

end CopyAccount

/-- A page that is copied: its frame is the one that was asked for first. -/
theorem Copied.copyOne (h : Copied Vmm.allocFrame mem₀ tab₀ owned k vm m (n + 4))
    (htree : PageTree mem₀ p tab₀) (howned : p.tables ⊆ owned) (hvirt : PAGE_SIZE ∣ virt)
    (hpage : ParentPage mem₀ tab₀ owned virt) (hprot : prot < PAGE_SIZE) :
    ∃ k' vm' f, Memory.copyOne p (k, vm) (virt, prot) = some (k', vm') ∧
      Copied Vmm.allocFrame mem₀ tab₀ owned k' vm'
        (Function.update m (pageOf virt) (some (f, prot))) n ∧
      CopyAccount k vm [f] k' vm' := by
  have hprot' : prot % 2 ^ 16 = prot := Nat.mod_eq_of_lt (by unfold PAGE_SIZE at hprot; omega)
  obtain ⟨k', vm', f, hret, hc⟩ := h.copyPage htree howned hvirt hpage prot
  have h' : Copied Vmm.allocFrame mem₀ tab₀ owned k vm m (n + 3 + 1) := h
  obtain ⟨f₀, pmm', mem', halloc, hcopy, hf₀, _, hft, _, hsame, _, taken, hsup, _, htab, _⟩ :=
    h'.frame_copied htree howned hvirt hpage
  obtain ⟨tab, ht, _⟩ := h.tree
  have hft' : ∀ t ∈ vm.tables, t ∉ ({f₀} : Set Nat) := by
    intro t htmem heq
    rw [Set.mem_singleton_iff.mp heq] at htmem
    exact hft htmem
  have ht' : PageTree mem' vm tab := ht.sameOutside hsame hft'
  have htakes := takesTables_mapPage ⟨mem', pmm'⟩ vm virt f₀ prot
  rcases supply_supplies.mapPage (k := ⟨mem', pmm'⟩) f₀ prot ht' hpage.user htab hsup with
    ⟨k'', vm'', tab'', hmap, ht'', hpml4, _, hleaf, hsame', hkernel, _⟩ | ⟨hfalse, _⟩
  · have heq : (k', vm') = (k'', vm'') := by
      rw [Vmm.copyPage, halloc, hcopy, hprot'] at hret
      exact (Option.some.inj hret).symm.trans hmap
    cases heq
    rw [hmap] at htakes
    obtain ⟨ts, haddr, hrun⟩ := htakes
    have hfirst : Takes k.pmm f₀ pmm' := by
      have htake := takes_allocFrame k.pmm k.mem
      rw [halloc] at htake
      exact htake
    rw [hprot'] at hc
    -- both trees have the entry that `map_page` stored
    have hf : f = f₀ := by
      obtain ⟨tab', hct, hcleaf⟩ := hc.tree
      have hentry := hcleaf virt hpage.user
      rw [← hct.lookup_eq hpage.user, ht''.lookup_eq hpage.user, hleaf virt, if_pos rfl,
        Function.update_self] at hentry
      have hframe := (hc.frame (Function.update_self (pageOf virt) _ m)).1
      have hlt : f₀ < 2 ^ 64 := lt_trans hf₀.2.2 (by decide)
      have hlt' : f < 2 ^ 64 := lt_trans hframe.2.2 (by decide)
      rw [← or_and_frameMask hframe.1 hlt' hprot, ← or_and_frameMask hf₀.1 hlt hprot, hentry]
      rfl
    subst hf
    refine ⟨k', vm', f, hret, hc, ?_⟩
    refine
      { pml4_eq := hpml4
        kernel := KeepsKernel.trans ?_ hkernel
        same := (hsame.mono ?_).trans (hsame'.mono Set.subset_union_left)
        takes := ⟨ts, f :: ts, haddr, .cons hfirst hrun, .refl _⟩ }
    · intro j hj _
      exact entryAt_sameOutside hsame (ht.frame ht.root).1 hj (hft' _ (.inl rfl))
    · intro t htmem
      rw [Set.mem_singleton_iff.mp htmem]
      exact .inr (List.mem_singleton_self _)
  · exact hfalse.elim

/-! ## All pages -/

/-- Pages that differ, one after the other. -/
theorem Copied.copyAll {pages : List (Nat × Nat)}
    (h : Copied Vmm.allocFrame mem₀ tab₀ owned k vm m (n + 4 * pages.length))
    (htree : PageTree mem₀ p tab₀) (howned : p.tables ⊆ owned)
    (hpages : ∀ page ∈ pages, PAGE_SIZE ∣ page.1 ∧ ParentPage mem₀ tab₀ owned page.1 ∧
      page.2 < PAGE_SIZE)
    (hnodup : (pages.map fun page => pageOf page.1).Nodup) :
    ∃ k' vm' m' fs, pages.foldlM (Memory.copyOne p) (k, vm) = some (k', vm') ∧
      Copied Vmm.allocFrame mem₀ tab₀ owned k' vm' m' n ∧ CopyAccount k vm fs k' vm' ∧
      List.Forall₂ (fun page f => m' (pageOf page.1) = some (f, page.2)) pages fs ∧
      ∀ q, q ∉ pages.map (fun page => pageOf page.1) → m' q = m q := by
  induction pages generalizing k vm m with
  | nil => exact ⟨k, vm, m, [], rfl, h, .refl k vm, .nil, fun _ _ => rfl⟩
  | cons page pages ih =>
      obtain ⟨hfirst, hrest⟩ := List.forall_mem_cons.mp hpages
      obtain ⟨hnot, hnodup'⟩ := List.nodup_cons.mp hnodup
      have h' : Copied Vmm.allocFrame mem₀ tab₀ owned k vm m (n + 4 * pages.length + 4) := by
        rwa [show n + 4 * pages.length + 4 = n + 4 * (page :: pages).length by
          rw [List.length_cons]; omega]
      obtain ⟨k₁, vm₁, f, hret₁, hc₁, hacc₁⟩ :=
        h'.copyOne htree howned hfirst.1 hfirst.2.1 hfirst.2.2
      obtain ⟨k₂, vm₂, m₂, fs, hret₂, hc₂, hacc₂, hframes, hother⟩ := ih hc₁ hrest hnodup'
      refine ⟨k₂, vm₂, m₂, f :: fs, ?_, hc₂, hacc₁.trans hacc₂, .cons ?_ hframes, ?_⟩
      · rw [List.foldlM_cons, hret₁]
        exact hret₂
      · rw [hother _ hnot, Function.update_self]
      · intro q hq
        rw [List.map_cons, List.mem_cons, not_or] at hq
        rw [hother q hq.2, Function.update_of_ne hq.1]

end Toystar.Memory

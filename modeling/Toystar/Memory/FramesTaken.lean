import Toystar.Memory.Destroy
import Toystar.Memory.VmmExhaustion

/-!
# Which frames a pagemap takes

The operations of a pagemap ask the frame allocator for one frame at a time.
`Takes` is such a request and a run of them an account of what was handed out:
`map_page` and `virtual_to_physical` record every frame they take
(`TakesTables`).  What is live afterwards follows from what was live before
(`Tracks.takes`), and likewise when frames are given back (`Tracks.frees`).
-/

namespace Toystar.Memory

open Toystar.Klibc
open Toystar.Verified

/-! ## Requests for one frame -/

/-- `PMM::alloc(1)` returns `t`. -/
def Takes (p : Pmm) (t : Nat) (p' : Pmm) : Prop :=
  ∀ mem, (Vmm.allocFrame p mem).1 = t ∧ (Vmm.allocFrame p mem).2.1 = p'

/-- What is returned does not depend on memory. -/
theorem takes_allocFrame (p : Pmm) (mem : ByteMem) :
    Takes p (Vmm.allocFrame p mem).1 (Vmm.allocFrame p mem).2.1 := by
  intro mem'
  unfold Vmm.allocFrame Pmm.alloc
  cases firstFit p.bitmap.isBitSet 1 p.pages 0 0 with
  | none => exact ⟨rfl, rfl⟩
  | some page => exact ⟨rfl, rfl⟩

/-- One frame. -/
def Frames.one (t : Nat) : Frames := ⟨t, 1⟩

variable {p p' p₀ : Pmm} {t : Nat} {ts : List Nat} {mem : ByteMem} {live : List Frames}

/-- A frame that was taken is aligned. -/
theorem Takes.aligned (h : Takes p t p') : PAGE_SIZE ∣ t := by
  have hret := (h fun _ => 0).1
  rcases allocFrame_first p with ⟨hnull, _⟩ | ⟨page, hpage, _⟩
  · rw [hnull] at hret
    rw [← hret]
    exact Nat.dvd_zero _
  · rw [hpage] at hret
    rw [← hret]
    exact Nat.dvd_mul_left _ _

theorem takes_aligned (h : Run Takes p ts p') : ∀ t ∈ ts, PAGE_SIZE ∣ t :=
  h.forall_events fun hstep => hstep.aligned

/-- What was taken is live, unless a request was refused. -/
theorem Tracks.takes (hs : Tracks p₀ ⟨p, mem, live⟩) (mem' : ByteMem)
    (hzero : p₀.bitmap.isBitSet 0 = true) (hrun : Run Takes p ts p') (hnull : 0 ∉ ts) :
    Tracks p₀ ⟨p', mem', ts.map Frames.one ++ live⟩ := by
  induction hrun generalizing live mem with
  | nil p => exact hs.congr rfl (List.Perm.refl _)
  | @cons p q p' t ts hstep _ ih =>
      have hne : t ≠ 0 := fun ht => hnull (ht ▸ List.mem_cons_self)
      obtain ⟨hptr, hpmm⟩ := hstep mem
      have hret : p.alloc mem 1 = (t, q, (p.alloc mem 1).2.2) :=
        Prod.ext hptr (Prod.ext hpmm rfl)
      have hone := hs.alloc_of_eq hzero (le_refl 1) hret hne
      have hrest := ih hone fun hmem => hnull (List.mem_cons_of_mem _ hmem)
      exact hrest.congr rfl List.perm_middle

/-- Some calls of `PMM::free`. -/
def Pmm.frees (p : Pmm) (fs : List Frames) : Pmm := fs.foldl (fun p f => p.free f.ptr f.count) p

theorem Pmm.frees_cons (p : Pmm) (f : Frames) (fs : List Frames) :
    p.frees (f :: fs) = (p.free f.ptr f.count).frees fs := rfl

theorem Pmm.frees_append (p : Pmm) (fs gs : List Frames) :
    p.frees (fs ++ gs) = (p.frees fs).frees gs := List.foldl_append

theorem Pmm.frees_map_one (p : Pmm) (ts : List Nat) :
    p.frees (ts.map Frames.one) = ts.foldl (fun p t => p.free t 1) p := List.foldl_map

/-- Giving back some of what is live. -/
theorem Tracks.frees (fs : List Frames) (hs : Tracks p₀ ⟨p, mem, fs ++ live⟩) :
    Tracks p₀ ⟨p.frees fs, mem, live⟩ := by
  induction fs generalizing p with
  | nil => exact hs
  | cons f fs ih =>
      have hone := hs.free (f := f) List.mem_cons_self
      have hexec : PmmState.exec ⟨p, mem, f :: fs ++ live⟩ (.free f.ptr f.count) =
          ⟨p.free f.ptr f.count, mem, fs ++ live⟩ := by
        rw [PmmState.exec, List.cons_append, List.erase_cons_head]
      rw [hexec] at hone
      exact ih hone

/-! ## Tables -/

/-- The frames that were taken are recorded as tables. -/
def TakesTables (k : Machine Pmm) (vm : Vmm) (k' : Machine Pmm) (vm' : Vmm) : Prop :=
  ∃ ts, vm'.pageTablesAddr = vm.pageTablesAddr ++ ts ∧ Run Takes k.pmm ts k'.pmm

variable {k k' k'' : Machine Pmm} {vm vm' vm'' : Vmm} {virt phys flags prot n : Nat}

theorem TakesTables.refl (k : Machine Pmm) (vm : Vmm) : TakesTables k vm k vm :=
  ⟨[], (List.append_nil _).symm, .nil _⟩

theorem TakesTables.trans (h : TakesTables k vm k' vm') (h' : TakesTables k' vm' k'' vm'') :
    TakesTables k vm k'' vm'' := by
  obtain ⟨ts, haddr, hrun⟩ := h
  obtain ⟨us, haddr', hrun'⟩ := h'
  refine ⟨ts ++ us, ?_, hrun.append hrun'⟩
  rw [haddr', haddr, List.append_assoc]

/-- Every table is a frame. -/
theorem TakesTables.aligned (h : TakesTables k vm k' vm') (hpml4 : vm'.pml4 = vm.pml4)
    (hdvd : ∀ t ∈ vm.tables, PAGE_SIZE ∣ t) : ∀ t ∈ vm'.tables, PAGE_SIZE ∣ t := by
  obtain ⟨ts, haddr, hrun⟩ := h
  intro t ht
  rcases ht with hroot | hmem
  · exact hdvd t (.inl (hroot.trans hpml4))
  · rw [haddr, List.mem_append] at hmem
    rcases hmem with hold | hnew
    · exact hdvd t (.inr hold)
    · exact takes_aligned hrun t hnew

theorem takes_nextLevel (s : Level Pmm) (i : Nat) :
    Run Takes s.2.1.pmm (linkedAt Vmm.allocFrame s i)
      (nextLevel Vmm.allocFrame s i).2.1.pmm := by
  rw [nextLevel, linkedAt, Vmm.getNextLevel]
  split
  · exact .cons (takes_allocFrame _ _) (.nil _)
  · exact .nil _

theorem takes_foldl (is : List Nat) (s : Level Pmm) :
    Run Takes s.2.1.pmm (collect (nextLevel Vmm.allocFrame) (linkedAt Vmm.allocFrame) is s)
      (is.foldl (nextLevel Vmm.allocFrame) s).2.1.pmm := by
  induction is generalizing s with
  | nil => exact .nil _
  | cons i is ih =>
      rw [collect, List.foldl_cons]
      exact (takes_nextLevel s i).append (ih _)

theorem takesTables_walk (k : Machine Pmm) (vm : Vmm) (virt : Nat) :
    TakesTables k vm (Vmm.walk Vmm.allocFrame k vm virt).2.1
      (Vmm.walk Vmm.allocFrame k vm virt).2.2 := by
  rw [walk_eq_foldl]
  exact ⟨_, recorded_foldl Vmm.allocFrame _ _, takes_foldl _ (vm.pml4, k, vm)⟩

theorem takesTables_mapPage (k : Machine Pmm) (vm : Vmm) (virt phys flags : Nat) :
    TakesTables k vm (Vmm.mapPage Vmm.allocFrame k vm virt phys flags).1
      (Vmm.mapPage Vmm.allocFrame k vm virt phys flags).2 := by
  have hwalk := takesTables_walk k vm virt
  obtain ⟨r, hret⟩ : ∃ r, Vmm.walk Vmm.allocFrame k vm virt = r := ⟨_, rfl⟩
  rw [hret] at hwalk
  simp only [Vmm.mapPage, hret]
  exact hwalk

theorem takesTables_mapPages (virt phys prot n : Nat) (s : Machine Pmm × Vmm) :
    TakesTables s.1 s.2 (Vmm.mapPages Vmm.allocFrame virt phys prot n s).1
      (Vmm.mapPages Vmm.allocFrame virt phys prot n s).2 := by
  induction n with
  | zero => exact .refl _ _
  | succ n ih =>
      rw [Vmm.mapPages]
      exact ih.trans (takesTables_mapPage _ _ _ _ _)

theorem takesTables_mapRange (k : Machine Pmm) (vm : Vmm)
    (virt phys length prot flags : Nat) :
    TakesTables k vm (Vmm.mapRange Vmm.allocFrame k vm virt phys length prot flags).1
      (Vmm.mapRange Vmm.allocFrame k vm virt phys length prot flags).2 :=
  takesTables_mapPages virt phys prot (length / PAGE_SIZE + 1)
    (k, { vm with ranges := vm.ranges ++ [⟨virt, length, prot, flags⟩] })

end Toystar.Memory

import Toystar.Memory.SpaceSound

/-!
# What one operation does to the spaces

Every operation but `duplicate`: it keeps `Spaces.Sound`, and what it does to the
bytes is what `AbstractMemory.apply` says.  Most of them change the frames of one
space, which is `Sound.replace`; a pagemap that is new is `Sound.extend`.
-/

namespace Toystar.Memory

open Toystar.Klibc
open Toystar.Verified

/-! ## Lists with one entry singled out -/

section Lists

variable {α β : Type} {l : List α} {i : Nat} {x y : α}

/-- What all entries bring is what one brings and what the others do. -/
theorem flatMap_perm_eraseIdx (f : α → List β) (h : l[i]? = some x) :
    (l.flatMap f).Perm (f x ++ (l.eraseIdx i).flatMap f) := by
  obtain ⟨hi, rfl⟩ := List.getElem?_eq_some_iff.mp h
  exact ((List.getElem_cons_eraseIdx_perm hi).flatMap_right f).symm

theorem flatMap_set_perm (f : α → List β) (h : l[i]? = some x) (y : α) :
    ((l.set i y).flatMap f).Perm (f y ++ (l.eraseIdx i).flatMap f) := by
  obtain ⟨hi, _⟩ := List.getElem?_eq_some_iff.mp h
  have hset : (l.set i y)[i]? = some y := List.getElem?_set_self hi
  have hperm := flatMap_perm_eraseIdx f hset
  rwa [List.eraseIdx_set_eq] at hperm

theorem set_of_getElem? (h : l[i]? = some x) : l.set i x = l := by
  obtain ⟨hi, rfl⟩ := List.getElem?_eq_some_iff.mp h
  exact List.set_getElem_self hi

/-- An entry after one was set. -/
theorem mem_set_cases (h : y ∈ l.set i x) : y = x ∨ y ∈ l.eraseIdx i := by
  obtain ⟨j, hj, hy⟩ := List.mem_iff_getElem.mp h
  rw [List.getElem_set] at hy
  by_cases hij : i = j
  · rw [if_pos hij] at hy
    exact .inl hy.symm
  · rw [if_neg hij] at hy
    refine .inr (List.mem_eraseIdx_iff_getElem?.mpr ⟨j, Ne.symm hij, ?_⟩)
    rw [List.length_set] at hj
    rw [List.getElem?_eq_getElem hj, hy]

/-- Setting an entry is changing the one entry of what is seen of the list. -/
theorem map_set_eq_modify {see see' : α → β} (change : β → β) (h : l[i]? = some x)
    (hself : see' y = change (see x)) (hother : ∀ z ∈ l.eraseIdx i, see' z = see z) :
    (l.set i y).map see' = (l.map see).modify i change := by
  apply List.ext_getElem?
  intro j
  rw [List.getElem?_modify, List.getElem?_map, List.getElem?_map, List.getElem?_set]
  by_cases hij : i = j
  · subst hij
    obtain ⟨hi, _⟩ := List.getElem?_eq_some_iff.mp h
    simp only [if_true, if_pos hi, h, Option.map_some, hself, Option.map_eq_map]
  · simp only [if_neg hij]
    cases hz : l[j]? with
    | none => rfl
    | some z =>
        have hmem : z ∈ l.eraseIdx i := List.mem_eraseIdx_iff_getElem?.mpr ⟨j, Ne.symm hij, hz⟩
        simp only [Option.map_some, hother z hmem, Option.map_eq_map]

theorem guard_bind_eq_some {P : Prop} [Decidable P] {a : Option α} :
    ((guard P : Option Unit) >>= fun _ => a) = some x ↔ P ∧ a = some x := by
  by_cases hP : P
  · simp [guard, hP]
  · simp [guard, hP]

end Lists

/-! ## The parts of what is live -/

/-- The kernel's tables are in use from the start, like page 0, and the direct map reaches
every page. -/
structure Booted (p₀ : Pmm) (kernelPml4 : Nat) : Prop where
  zero : p₀.bitmap.isBitSet 0 = true
  reach : p₀.pages * PAGE_SIZE ≤ 2 ^ 47
  dvd : PAGE_SIZE ∣ kernelPml4
  used : p₀.bitmap.isBitSet (kernelPml4 / PAGE_SIZE) = true

namespace Spaces

variable {p₀ : Pmm} {mem₀ : ByteMem} {s s' : Spaces} {sp sp' : Space} {i b : Nat} {f : Frames}

/-- What is live apart from space `i`. -/
def rest (s : Spaces) (i : Nat) : List Frames :=
  s.buffers ++ (s.spaces.eraseIdx i).flatMap Space.frames ++ s.lost

theorem live_perm (h : s.spaces[i]? = some sp) : s.live.Perm (sp.frames ++ s.rest i) := by
  rw [List.perm_iff_count]
  intro f
  have hcount := (flatMap_perm_eraseIdx Space.frames h).count_eq f
  simp only [live, rest, List.count_append] at hcount ⊢
  omega

/-- What is live apart from buffer `b`. -/
def restBuffer (s : Spaces) (b : Nat) : List Frames :=
  s.buffers.eraseIdx b ++ s.spaces.flatMap Space.frames ++ s.lost

theorem live_perm_buffer (h : s.buffers[b]? = some f) :
    s.live.Perm (f :: s.restBuffer b) := by
  obtain ⟨hb, rfl⟩ := List.getElem?_eq_some_iff.mp h
  have hperm := (List.getElem_cons_eraseIdx_perm hb).symm
  exact (hperm.append_right _).append_right _

theorem frames_subset_live (h : sp ∈ s.spaces) : sp.frames ⊆ s.live := by
  intro f hf
  refine List.mem_append_left _ (List.mem_append_right _ ?_)
  exact List.mem_flatMap.mpr ⟨sp, h, hf⟩

theorem frames_subset_restBuffer (h : sp ∈ s.spaces) : sp.frames ⊆ s.restBuffer b := by
  intro f hf
  refine List.mem_append_left _ (List.mem_append_right _ ?_)
  exact List.mem_flatMap.mpr ⟨sp, h, hf⟩

namespace Sound

variable {mem' : ByteMem} {pmm' : Pmm} {A : List Frames}

theorem placed_of_mem (hb : Booted p₀ s.kernelPml4) (h : s.Sound p₀ mem₀) {f : Frames}
    (hf : f ∈ s.live) : f.ptr / PAGE_SIZE * PAGE_SIZE + f.count * PAGE_SIZE ≤ 2 ^ 47 := by
  have hbelow := h.tracks.below f hf
  have hreach := hb.reach
  have hmul := Nat.mul_le_mul_right PAGE_SIZE hbelow
  rw [Nat.add_mul] at hmul
  omega

/-- The frame allocator and the tables of a space. -/
theorem avoids (hb : Booted p₀ s.kernelPml4) (h : s.Sound p₀ mem₀) (hsp : sp ∈ s.spaces) :
    s.machine.pmm.Avoids sp.vm.tables := by
  refine ⟨(h.tracks.used 0).mpr (.inl hb.zero), ?_, ?_⟩
  · have hpages : s.machine.pmm.pages = p₀.pages := h.tracks.pages_eq
    rw [hpages]
    exact hb.reach
  · intro j hj
    refine (h.tracks.used j).mpr (.inr ⟨_, frames_subset_live hsp (Space.tables_mem hj), ?_⟩)
    rw [Frames.has_one, Nat.mul_div_cancel _ (by decide)]

/-- Memory changes in frames `A` that are live afterwards; what else is live stays. -/
theorem others {rest : List Frames} (hb : Booted p₀ s.kernelPml4) (h : s.Sound p₀ mem₀)
    (htracks : Tracks p₀ ⟨pmm', mem', A ++ rest⟩) (hchange : ChangedIn A s.machine.mem mem') :
    (∀ sq ∈ s.spaces, sq.frames ⊆ rest →
      sq.Sound s.kernelPml4 mem' ∧ sq.view mem' = sq.view s.machine.mem) ∧
    (∀ f ∈ s.buffers, f ∈ rest → f.bytes mem' = f.bytes s.machine.mem) ∧
    ∀ x, p₀.bitmap.isBitSet (x / PAGE_SIZE) = true → mem' x = mem₀ x := by
  refine ⟨fun sq hsq hsub => ?_, fun f hf hrest => ?_, fun x hx => ?_⟩
  · exact htracks.keeps hchange hb.used hb.dvd hsub (h.spaces sq hsq)
  · exact Frames.bytes_congr (h.pages f hf).1 fun x hx => htracks.mem_eq hchange hrest hx
  · rw [htracks.boot_eq hchange hx]
    exact h.boot x hx

/-! ## Buffers -/

theorem alloc {count : Nat} (hb : Booted p₀ s.kernelPml4) (h : s.Sound p₀ mem₀)
    (hexec : s.exec (.alloc count) = some s') :
    s'.Sound p₀ mem₀ ∧ s'.view = s.view.apply (.alloc count) := by
  rw [exec, guard_bind_eq_some] at hexec
  obtain ⟨hne, hret⟩ := hexec
  obtain rfl := Option.some.inj hret
  obtain ⟨htracks, hchange, hdvd, hcount, hbytes⟩ := h.tracks.alloc_bytes hb.zero hne
  obtain ⟨hspaces, hbuffers, hboot⟩ := h.others hb htracks hchange
  have hview : ∀ sq ∈ s.spaces, sq.Sound s.kernelPml4 _ ∧ sq.view _ = sq.view s.machine.mem :=
    fun sq hsq => hspaces sq hsq (frames_subset_live hsq)
  constructor
  · exact
      { tracks := htracks
        pages := List.forall_mem_cons.mpr ⟨⟨hdvd, hcount⟩, h.pages⟩
        boot := hboot
        spaces := fun sq hsq => (hview sq hsq).1 }
  · unfold view AbstractMemory.apply
    simp only [List.map_cons, AbstractMemory.mk.injEq, List.cons.injEq]
    refine ⟨⟨hbytes, ?_⟩, ?_⟩
    · apply List.map_congr_left
      intro f hf
      exact hbuffers f hf (List.mem_append_left _ (List.mem_append_left _ hf))
    · apply List.map_congr_left
      intro sq hsq
      exact (hview sq hsq).2

theorem free (h : s.Sound p₀ mem₀)
    (hexec : s.exec (.free b) = some s') :
    s'.Sound p₀ mem₀ ∧ s'.view = s.view.apply (.free b) := by
  rw [exec, Option.bind_eq_bind, Option.bind_eq_some_iff] at hexec
  obtain ⟨f, hf, hret⟩ := hexec
  obtain rfl := Option.some.inj hret
  have htracks := (h.tracks.congr rfl (live_perm_buffer hf) :
    Tracks p₀ ⟨s.machine.pmm, s.machine.mem, [f] ++ s.restBuffer b⟩).frees [f]
  constructor
  · exact
      { tracks := htracks
        pages := fun f hf => h.pages f (List.mem_of_mem_eraseIdx hf)
        boot := h.boot
        spaces := h.spaces }
  · simp only [view, AbstractMemory.apply, List.eraseIdx_map]

theorem poke {offset : Nat} {v : UInt8} (hb : Booted p₀ s.kernelPml4) (h : s.Sound p₀ mem₀)
    (hexec : s.exec (.poke b offset v) = some s') :
    s'.Sound p₀ mem₀ ∧ s'.view = s.view.apply (.poke b offset v) := by
  rw [exec, Option.bind_eq_bind, Option.bind_eq_some_iff] at hexec
  obtain ⟨f, hf, hret⟩ := hexec
  rw [guard_bind_eq_some] at hret
  obtain ⟨hoffset, hret⟩ := hret
  obtain rfl := Option.some.inj hret
  have hhas := Frames.has_offset (h.pages f (List.mem_of_getElem? hf)).1 hoffset
  have hchange := ChangedIn.update hhas s.machine.mem v
  have htracks : Tracks p₀ ⟨s.machine.pmm, Function.update s.machine.mem (f.ptr + offset) v,
      [f] ++ s.restBuffer b⟩ := h.tracks.congr rfl (live_perm_buffer hf)
  obtain ⟨hspaces, hbuffers, hboot⟩ := h.others hb htracks hchange
  have hview : ∀ sq ∈ s.spaces, sq.Sound s.kernelPml4 _ ∧ sq.view _ = sq.view s.machine.mem :=
    fun sq hsq => hspaces sq hsq (frames_subset_restBuffer hsq)
  constructor
  · exact
      { tracks := h.tracks.congr rfl (List.Perm.refl _)
        pages := h.pages
        boot := hboot
        spaces := fun sq hsq => (hview sq hsq).1 }
  · unfold view AbstractMemory.apply
    simp only [AbstractMemory.mk.injEq]
    constructor
    · have hself := Frames.bytes_update s.machine.mem hoffset v
      have hother : ∀ g ∈ s.buffers.eraseIdx b,
          g.bytes (Function.update s.machine.mem (f.ptr + offset) v) =
            g.bytes s.machine.mem := fun g hg =>
        hbuffers g (List.mem_of_mem_eraseIdx hg)
          (List.mem_append_left _ (List.mem_append_left _ hg))
      have hmodify := map_set_eq_modify (fun g : Bytes => Function.update g offset (some v))
        hf hself hother
      rwa [set_of_getElem? hf] at hmodify
    · apply List.map_congr_left
      intro sq hsq
      exact (hview sq hsq).2

/-! ## One space -/

/-- A space changes, with its own frames only, and perhaps a buffer goes into it. -/
theorem replace {buffers' : List Frames} (hb : Booted p₀ s.kernelPml4) (h : s.Sound p₀ mem₀)
    (hi : s.spaces[i]? = some sp) (hsub : buffers' ⊆ s.buffers)
    (htracks : Tracks p₀ ⟨pmm', mem', sp'.frames ++
      (buffers' ++ (s.spaces.eraseIdx i).flatMap Space.frames ++ s.lost)⟩)
    (hchange : ChangedIn sp'.frames s.machine.mem mem')
    (hsp' : sp'.Sound s.kernelPml4 mem') :
    Sound p₀ mem₀ { s with
      machine := ⟨mem', pmm'⟩
      buffers := buffers'
      spaces := s.spaces.set i sp' } ∧
    buffers'.map (Frames.bytes mem') = buffers'.map (Frames.bytes s.machine.mem) ∧
    ∀ change, sp'.view mem' = change (sp.view s.machine.mem) →
      (s.spaces.set i sp').map (Space.view mem') =
        (s.spaces.map (Space.view s.machine.mem)).modify i change := by
  obtain ⟨hspaces, hbuffers, hboot⟩ := h.others hb htracks hchange
  have hview : ∀ sq ∈ s.spaces.eraseIdx i,
      sq.Sound s.kernelPml4 mem' ∧ sq.view mem' = sq.view s.machine.mem := by
    intro sq hsq
    refine hspaces sq (List.mem_of_mem_eraseIdx hsq) fun f hf => ?_
    refine List.mem_append_left _ (List.mem_append_right _ ?_)
    exact List.mem_flatMap.mpr ⟨sq, hsq, hf⟩
  refine ⟨?_, ?_, fun _ hself => map_set_eq_modify _ hi hself fun sq hsq => (hview sq hsq).2⟩
  · refine
      { tracks := htracks.congr rfl ?_
        pages := fun f hf => h.pages f (hsub hf)
        boot := hboot
        spaces := ?_ }
    · rw [List.perm_iff_count]
      intro f
      have hcount := (flatMap_set_perm Space.frames hi sp').count_eq f
      simp only [live, List.count_append] at hcount ⊢
      omega
    · intro sq hsq
      rcases mem_set_cases hsq with rfl | hother
      · exact hsp'
      · exact (hview sq hother).1
  · apply List.map_congr_left
    intro f hf
    exact hbuffers f (hsub hf) (List.mem_append_left _ (List.mem_append_left _ hf))

/-- The kernel's top table is not written. -/
theorem kernel_entry {rest : List Frames} (hb : Booted p₀ s.kernelPml4)
    (htracks : Tracks p₀ ⟨pmm', mem', A ++ rest⟩) (hchange : ChangedIn A s.machine.mem mem')
    {j : Nat} (hj : j < 512) :
    entryAt mem' s.kernelPml4 j = entryAt s.machine.mem s.kernelPml4 j := by
  refine entryAt_sameOutside hchange.sameOutside hb.dvd hj ?_
  intro hmem
  obtain ⟨f, hf, hhas⟩ := hmem
  have hfresh := htracks.fresh f (List.mem_append_left _ hf) _ hhas
  rw [hb.used] at hfresh
  cases hfresh

/-- Tables are written, and more are taken: what is live then. -/
theorem tracks_tables {vm' : Vmm} {k' : Machine Pmm} (hb : Booted p₀ s.kernelPml4)
    (h : s.Sound p₀ mem₀) (hi : s.spaces[i]? = some sp)
    (htakes : TakesTables s.machine sp.vm k' vm') (hpml4 : vm'.pml4 = sp.vm.pml4)
    (hnull : 0 ∉ vm'.pageTablesAddr) :
    Tracks p₀ ⟨k'.pmm, k'.mem, Space.frames { sp with vm := vm' } ++ s.rest i⟩ := by
  obtain ⟨ts, haddr, hrun⟩ := htakes
  have hnew : 0 ∉ ts := fun hmem => hnull (haddr ▸ List.mem_append_right _ hmem)
  refine (h.tracks.takes k'.mem hb.zero hrun hnew).congr rfl ?_
  rw [List.perm_iff_count]
  intro f
  have hcount := (live_perm hi).count_eq f
  simp only [Space.frames, Vmm.tableFrames, Space.areas, hpml4, haddr, List.map_append,
    List.map_cons, List.count_append, List.count_cons] at hcount ⊢
  omega

/-- A space whose tables were written still shares the kernel's half. -/
theorem kernel_kept {vm' : Vmm} {rest : List Frames} (hb : Booted p₀ s.kernelPml4)
    (h : s.Sound p₀ mem₀) (hi : s.spaces[i]? = some sp)
    (htracks : Tracks p₀ ⟨pmm', mem', vm'.tableFrames ++ rest⟩)
    (hsame : SameOutside vm'.tables s.machine.mem mem') (hpml4 : vm'.pml4 = sp.vm.pml4)
    (hkernel : KeepsKernel sp.vm.pml4 s.machine.mem mem') (j : Nat) (hj : j = 256 ∨ j = 511) :
    entryAt mem' vm'.pml4 j = entryAt mem' s.kernelPml4 j := by
  have hlt : j < 512 := by omega
  have hnot : ¬UserIndex [] j := by
    intro huser
    have hne := huser.2 rfl
    omega
  rw [kernel_entry hb htracks (changedIn_tables hsame) hlt, hpml4, hkernel j hlt hnot]
  exact (h.spaces sp (List.mem_of_getElem? hi)).kernel j hj

theorem translate {virt : Nat} (hb : Booted p₀ s.kernelPml4) (h : s.Sound p₀ mem₀)
    (hexec : s.exec (.translate i virt) = some s') :
    s'.Sound p₀ mem₀ ∧ s'.view = s.view.apply (.translate i virt) := by
  rw [exec, Option.bind_eq_bind, Option.bind_eq_some_iff] at hexec
  obtain ⟨sp, hi, hret⟩ := hexec
  rw [guard_bind_eq_some] at hret
  obtain ⟨huser, hret⟩ := hret
  rw [guard_bind_eq_some] at hret
  obtain ⟨hnull, hret⟩ := hret
  obtain rfl := Option.some.inj hret
  have hsp := h.spaces sp (List.mem_of_getElem? hi)
  obtain ⟨tab, ht, hleads⟩ := hsp.tree
  have htakes := takesTables_walk s.machine sp.vm virt
  have hwalk := supply_avoids.walk (n := 0) ht huser (Set.Subset.refl _)
    (h.avoids hb (List.mem_of_getElem? hi))
  obtain ⟨⟨pt, k', vm'⟩, hret⟩ :
    ∃ r, Vmm.walk Vmm.allocFrame s.machine sp.vm virt = r := ⟨_, rfl⟩
  have hvm : (Vmm.virtualToPhysical Vmm.allocFrame s.machine sp.vm virt).2 = (k', vm') := by
    rw [Vmm.virtualToPhysical, hret]
  rw [hvm] at hnull ⊢
  rw [hret] at htakes hwalk
  rcases hwalk with ⟨_, _, _, tab', heq, hg, _, hkernel, _⟩ | ⟨_, hrefused⟩
  · cases heq
    have htracks := h.tracks_tables hb hi htakes hg.pml4_eq hnull
    have htables : Tracks p₀ ⟨k'.pmm, k'.mem,
        vm'.tableFrames ++ (sp.areas.map (·.frames) ++ s.rest i)⟩ := by
      rw [← List.append_assoc]
      exact htracks
    have hchange := changedIn_tables hg.same
    have hsp' : Space.Sound s.kernelPml4 k'.mem { sp with vm := vm' } :=
      { tree := ⟨tab', hg.tree, fun a ha j hj => by rw [hg.leaf_eq]; exact hleads a ha j hj⟩
        aligned := htakes.aligned hg.pml4_eq hsp.aligned
        placed := hsp.placed
        ranges := by rw [hg.ranges_eq]; exact hsp.ranges
        kernel := h.kernel_kept hb hi htables hg.same hg.pml4_eq hkernel }
    have hview : Space.view k'.mem { sp with vm := vm' } = id (sp.view s.machine.mem) :=
      hsp.view_congr hsp' fun a ha x hx => htables.mem_eq hchange
        (List.mem_append_left _ (List.mem_map_of_mem ha)) hx
    obtain ⟨hsound, hbuffers, hspaces⟩ := h.replace hb hi (List.Subset.refl _) htracks
      (hchange.mono (List.subset_append_left _ _)) hsp'
    refine ⟨hsound, ?_⟩
    unfold view AbstractMemory.apply
    simp only [AbstractMemory.mk.injEq]
    refine ⟨hbuffers, (hspaces id hview).trans ?_⟩
    exact List.modify_id _ _
  · exact absurd hrefused hnull

/-- What `map_range` makes of a space. -/
theorem mapRange_space {base prot flags : Nat} {k' : Machine Pmm} {vm' : Vmm}
    {tab tab' : List Nat → Option Nat} {S : Nat → Pmm → Set Nat → Prop} {avoid : Set Nat}
    (hb : Booted p₀ s.kernelPml4) (h : s.Sound p₀ mem₀) (hi : s.spaces[i]? = some sp)
    (hf : s.buffers[b]? = some f) (hfits : Fits sp f base prot)
    (hleads : ∀ a ∈ sp.areas, a.Leads s.machine.mem tab)
    (hranged : Ranged S avoid s.machine sp.vm tab base (f.count + 1) 0
      (fun j => ((f.ptr + j * PAGE_SIZE) % 2 ^ 64 ||| prot % 2 ^ 16) % 2 ^ 64) k' vm' tab')
    (hranges : vm'.ranges = sp.vm.ranges ++ [⟨base, f.count * PAGE_SIZE, prot, flags⟩])
    (haligned : ∀ t ∈ vm'.tables, PAGE_SIZE ∣ t)
    (hkernel : ∀ j, j = 256 ∨ j = 511 →
      entryAt k'.mem vm'.pml4 j = entryAt k'.mem s.kernelPml4 j) :
    Space.Sound s.kernelPml4 k'.mem
      { sp with vm := vm', recorded := sp.recorded ++ [⟨base, f⟩] } := by
  obtain ⟨hbase, hend, hodd, hprot, hapart⟩ := hfits
  have hsp := h.spaces sp (List.mem_of_getElem? hi)
  have hmem := List.mem_of_getElem? hf
  obtain ⟨hptr, hcount⟩ := h.pages f hmem
  have hreach := h.placed_of_mem hb (f := f)
    (List.mem_append_left _ (List.mem_append_left _ hmem))
  rw [Nat.div_mul_cancel hptr] at hreach
  have hareas : ∀ a ∈ Space.areas ⟨vm', sp.recorded ++ [⟨base, f⟩], sp.inherited⟩,
      a ∈ sp.areas ∨ a = ⟨base, f⟩ := by
    intro a ha
    simp only [Space.areas, List.mem_append, List.mem_singleton] at ha ⊢
    tauto
  refine
    { tree := ⟨tab', hranged.tree, fun a ha j hj => ?_⟩
      aligned := haligned
      placed := fun a ha => ?_
      ranges := ?_
      kernel := hkernel }
  · rcases hareas a ha with hold | rfl
    · -- the pages of the other areas are not among those that were mapped
      have hplaced := hsp.placed a hold
      have hsep := hapart a hold
      rw [hranged.set.outside]
      · exact hleads a hold j hj
      · intro m hm
        have hlt := hplaced.page_lt hj
        obtain ⟨x, hx⟩ := hplaced.base
        obtain ⟨y, hy⟩ := hbase
        unfold pageOf PAGE_SIZE at *
        omega
    · refine ⟨prot, hprot, hodd, ?_⟩
      have hdvd : PAGE_SIZE ∣ f.ptr + j * PAGE_SIZE := Nat.dvd_add hptr (Nat.dvd_mul_left _ _)
      have hjf : j < f.count := hj
      have hlt : f.ptr + j * PAGE_SIZE < 2 ^ 47 := by
        unfold PAGE_SIZE at *
        omega
      have hin := hranged.set.inside j (Nat.lt_succ_of_lt hj)
      rw [hin, Nat.mod_eq_of_lt (by omega : f.ptr + j * PAGE_SIZE < 2 ^ 64),
        Nat.mod_eq_of_lt (by unfold PAGE_SIZE at *; omega : prot < 2 ^ 16), or_low hdvd hprot,
        Nat.mod_eq_of_lt (by unfold PAGE_SIZE at *; omega)]
  · rcases hareas a ha with hold | rfl
    · exact hsp.placed a hold
    · refine ⟨hbase, hptr, hcount, ?_, hreach⟩
      rw [Nat.add_mul] at hend
      dsimp only
      omega
  · rw [hranges]
    exact List.rel_append hsp.ranges (.cons ⟨rfl, rfl, hodd, hprot⟩ .nil)

theorem mapRange {base prot flags : Nat} (hb : Booted p₀ s.kernelPml4) (h : s.Sound p₀ mem₀)
    (hexec : s.exec (.mapRange i b base prot flags) = some s') :
    s'.Sound p₀ mem₀ ∧ s'.view = s.view.apply (.mapRange i b base prot flags) := by
  rw [exec, Option.bind_eq_bind, Option.bind_eq_some_iff] at hexec
  obtain ⟨sp, hi, hret⟩ := hexec
  rw [Option.bind_eq_bind, Option.bind_eq_some_iff] at hret
  obtain ⟨f, hf, hret⟩ := hret
  rw [guard_bind_eq_some] at hret
  obtain ⟨hfits, hret⟩ := hret
  rw [guard_bind_eq_some] at hret
  obtain ⟨hnull, hret⟩ := hret
  obtain rfl := Option.some.inj hret
  have hsp := h.spaces sp (List.mem_of_getElem? hi)
  obtain ⟨tab, ht, hleads⟩ := hsp.tree
  have htakes := takesTables_mapRange s.machine sp.vm base f.ptr (f.count * PAGE_SIZE) prot flags
  have hcases := mapRange_cases (h.avoids hb (List.mem_of_getElem? hi)) ht hfits.2.1 f.ptr prot
    flags
  obtain ⟨⟨k', vm'⟩, hret⟩ : ∃ r, Vmm.mapRange Vmm.allocFrame s.machine sp.vm base f.ptr
    (f.count * PAGE_SIZE) prot flags = r := ⟨_, rfl⟩
  have hranges := (Vmm.mapRange_gives hret).2.1
  rw [hret] at hnull htakes hcases ⊢
  rcases hcases with ⟨_, _, tab', heq, hranged⟩ | hrefused
  · cases heq
    have hold := h.tracks_tables hb hi htakes hranged.pml4_eq hnull
    have htracks : Tracks p₀ ⟨k'.pmm, k'.mem,
        Space.frames { sp with vm := vm', recorded := sp.recorded ++ [⟨base, f⟩] } ++
          (s.buffers.eraseIdx b ++ (s.spaces.eraseIdx i).flatMap Space.frames ++ s.lost)⟩ := by
      refine hold.congr rfl ?_
      rw [List.perm_iff_count]
      intro g
      obtain ⟨hlt, rfl⟩ := List.getElem?_eq_some_iff.mp hf
      have hcount := (List.getElem_cons_eraseIdx_perm hlt).count_eq g
      simp only [Space.frames, Space.areas, rest, List.map_append, List.map_cons, List.map_nil,
        List.count_append, List.count_cons, List.count_nil] at hcount ⊢
      omega
    have htables : Tracks p₀ ⟨k'.pmm, k'.mem, vm'.tableFrames ++
        (sp.areas.map (·.frames) ++ s.rest i)⟩ := by
      rw [← List.append_assoc]
      exact hold
    have hchange := changedIn_tables hranged.same
    have hsp' := h.mapRange_space hb hi hf hfits hleads hranged hranges
      (htakes.aligned hranged.pml4_eq hsp.aligned)
      (h.kernel_kept hb hi htables hranged.same hranged.pml4_eq hranged.kernel)
    have hdata : ∀ a ∈ sp.areas, ∀ x, a.frames.Has (x / PAGE_SIZE) →
        k'.mem x = s.machine.mem x := fun a ha x hx =>
      htables.mem_eq hchange (List.mem_append_left _ (List.mem_map_of_mem ha)) hx
    have hbuffer : f.bytes k'.mem = f.bytes s.machine.mem := by
      refine Frames.bytes_congr (h.pages f (List.mem_of_getElem? hf)).1 fun x hx => ?_
      refine htables.mem_eq hchange ?_ hx
      exact List.mem_append_right _ (List.mem_append_left _ (List.mem_append_left _
        (List.mem_of_getElem? hf)))
    have hview : Space.view k'.mem { sp with
        vm := vm'
        recorded := sp.recorded ++ [⟨base, f⟩] } =
        (sp.view s.machine.mem).map base (f.bytes s.machine.mem) := by
      have hplace := hsp'.bytes_place sp.recorded (a := ⟨base, f⟩)
        (List.subset_append_left _ _)
      have hold : sp.recorded ⊆ Space.areas ⟨vm', sp.recorded ++ [⟨base, f⟩], sp.inherited⟩ :=
        fun a ha => List.mem_append_left _ (List.mem_append_left _ ha)
      have hrecorded := hsp.bytes_congr hsp' (List.subset_append_left _ _) hold
        fun a ha => hdata a (Space.mem_recorded ha)
      have hinherited := hsp.bytes_congr hsp' (List.subset_append_right _ _)
        (List.subset_append_right _ _) fun a ha => hdata a (Space.mem_inherited ha)
      dsimp only at hplace hrecorded hinherited
      rw [hrecorded, hbuffer] at hplace
      simp only [Space.view, AbstractSpace.map, hplace, hinherited]
    obtain ⟨hsound, hbuffers, hspaces⟩ := h.replace hb hi
      (fun g hg => List.mem_of_mem_eraseIdx hg) htracks
      (hchange.mono (List.subset_append_left _ _)) hsp'
    refine ⟨hsound, ?_⟩
    simp only [view, AbstractMemory.apply, AbstractMemory.mk.injEq]
    rw [List.getElem?_map, hf, Option.map_some, Option.getD_some, List.eraseIdx_map]
    exact ⟨hbuffers, hspaces (.map base (f.bytes s.machine.mem)) hview⟩
  · exact absurd hrefused hnull

theorem store {virt : Nat} {v : UInt8} (hb : Booted p₀ s.kernelPml4) (h : s.Sound p₀ mem₀)
    (hexec : s.exec (.store i virt v) = some s') :
    s'.Sound p₀ mem₀ ∧ s'.view = s.view.apply (.store i virt v) := by
  rw [exec, Option.bind_eq_bind, Option.bind_eq_some_iff] at hexec
  obtain ⟨sp, hi, hret⟩ := hexec
  rw [guard_bind_eq_some] at hret
  obtain ⟨⟨a, ha, hc⟩, hret⟩ := hret
  have hsp := h.spaces sp (List.mem_of_getElem? hi)
  rw [hsp.access ha hc, Option.bind_eq_bind, Option.bind_some] at hret
  obtain rfl := Option.some.inj hret
  have hhas := hc.has (hsp.placed a ha)
  have hchange := ChangedIn.update hhas s.machine.mem v
  have htracks : Tracks p₀ ⟨s.machine.pmm,
      Function.update s.machine.mem (a.frames.ptr + (virt - a.base)) v, sp.frames ++ s.rest i⟩ :=
    h.tracks.congr rfl (live_perm hi)
  have hapart := (List.pairwise_append.mp htracks.apart).1
  have hsp' : sp.Sound s.kernelPml4
      (Function.update s.machine.mem (a.frames.ptr + (virt - a.base)) v) := by
    have hfresh := htracks.fresh _ (List.mem_append_left _ (Space.frames_mem ha))
    refine hsp.change hchange ?_ ?_ hb.dvd
    · intro g hg t ht hin
      rw [List.mem_singleton.mp hg] at hin
      refine (List.pairwise_append.mp hapart).2.2 _ (Vmm.mem_tableFrames ht) _
        (List.mem_map_of_mem ha) _ (Frames.has_one.mpr rfl) hin
    · intro g hg hin
      rw [List.mem_singleton.mp hg] at hin
      have hused := hb.used
      rw [hfresh _ hin] at hused
      cases hused
  obtain ⟨hsound, hbuffers, hspaces⟩ := h.replace hb hi (List.Subset.refl _) htracks
    (hchange.mono (List.cons_subset.mpr ⟨Space.frames_mem ha, List.nil_subset _⟩)) hsp'
  rw [set_of_getElem? hi] at hsound hspaces
  refine ⟨hsound, ?_⟩
  simp only [view, AbstractMemory.apply, AbstractMemory.mk.injEq]
  exact ⟨hbuffers, hspaces (.store virt v) (hsp.view_store hapart ha hc hsp')⟩

/-! ## Spaces that come and go -/

/-- A space is added; what it writes is its own. -/
theorem extend (arrays : Arrays MemArea) (hb : Booted p₀ s.kernelPml4) (h : s.Sound p₀ mem₀)
    (htracks : Tracks p₀ ⟨pmm', mem', sp'.frames ++ s.live⟩)
    (hchange : ChangedIn sp'.frames s.machine.mem mem') (hsp' : sp'.Sound s.kernelPml4 mem') :
    Sound p₀ mem₀ { s with
      machine := ⟨mem', pmm'⟩
      arrays := arrays
      spaces := s.spaces ++ [sp'] } ∧
    s.buffers.map (Frames.bytes mem') = s.buffers.map (Frames.bytes s.machine.mem) ∧
    (s.spaces ++ [sp']).map (Space.view mem') =
      s.spaces.map (Space.view s.machine.mem) ++ [sp'.view mem'] := by
  obtain ⟨hspaces, hbuffers, hboot⟩ := h.others hb htracks hchange
  have hview : ∀ sq ∈ s.spaces,
      sq.Sound s.kernelPml4 mem' ∧ sq.view mem' = sq.view s.machine.mem :=
    fun sq hsq => hspaces sq hsq (frames_subset_live hsq)
  refine ⟨?_, ?_, ?_⟩
  · refine
      { tracks := htracks.congr rfl ?_
        pages := h.pages
        boot := hboot
        spaces := ?_ }
    · rw [List.perm_iff_count]
      intro f
      simp only [live, List.flatMap_append, List.flatMap_singleton, List.count_append]
      omega
    · intro sq hsq
      rcases List.mem_append.mp hsq with hold | hnew
      · exact (hview sq hold).1
      · rw [List.mem_singleton.mp hnew]
        exact hsp'
  · apply List.map_congr_left
    intro f hf
    exact hbuffers f hf (List.mem_append_left _ (List.mem_append_left _ hf))
  · rw [List.map_append, List.map_singleton]
    congr 1
    apply List.map_congr_left
    intro sq hsq
    exact (hview sq hsq).2

/-- A new pagemap is one frame, and shares the kernel's half. -/
theorem newPagemap (hb : Booted p₀ s.kernelPml4) (h : s.Sound p₀ mem₀)
    (hne : (Vmm.new Vmm.allocFrame s.machine s.kernelPml4).2.pml4 ≠ 0) :
    ∃ f k', Vmm.new Vmm.allocFrame s.machine s.kernelPml4 = (k', ⟨f, [], []⟩) ∧
      Run Takes s.machine.pmm [f] k'.pmm ∧ SameOutside {f} s.machine.mem k'.mem ∧
      (∃ tab, PageTree k'.mem ⟨f, [], []⟩ tab) ∧
      ∀ j, j = 256 ∨ j = 511 → entryAt k'.mem f j = entryAt s.machine.mem s.kernelPml4 j := by
  have hzero : s.machine.pmm.bitmap.isBitSet 0 = true := (h.tracks.used 0).mpr (.inl hb.zero)
  have hreach : s.machine.pmm.pages * PAGE_SIZE ≤ 2 ^ 47 := by
    have hpages : s.machine.pmm.pages = p₀.pages := h.tracks.pages_eq
    rw [hpages]
    exact hb.reach
  rcases allocFrame_cases hzero hreach with ⟨page, hret, hframe, hbit, _⟩ | ⟨hnull, _⟩
  · have hK : s.kernelPml4 ≠ page * PAGE_SIZE := by
      intro heq
      have hused := (h.tracks.used (s.kernelPml4 / PAGE_SIZE)).mpr (.inl hb.used)
      rw [heq, Nat.mul_div_cancel _ (by decide)] at hused
      rw [hbit] at hused
      cases hused
    have htakes := takes_allocFrame s.machine.pmm s.machine.mem
    rw [hret] at htakes
    have hother : ∀ (m : ByteMem) (j v : Nat), j < 512 → ∀ l < 512,
        entryAt (setEntry m (page * PAGE_SIZE) j v) s.kernelPml4 l =
          entryAt m s.kernelPml4 l := fun m j v hj l hl =>
      entryAt_setEntry_of_ne hframe.1 hb.dvd hj hl (.inl (Ne.symm hK))
    have hread : ∀ l < 512, entryAt (memset s.machine.mem (page * PAGE_SIZE) 0 PAGE_SIZE)
        s.kernelPml4 l = entryAt s.machine.mem s.kernelPml4 l := fun l hl =>
      entryAt_memset_of_ne hframe.1 hb.dvd hl hK
    simp only [Vmm.new, hret]
    refine ⟨_, _, rfl, .cons htakes (.nil _), ?_, ⟨_, PageTree.root_only hframe [] ?_⟩, ?_⟩
    · exact sameOutside_newTable hframe.1 _ _ _
    · intro j hj
      exact entryAt_newTable hframe.1 hj _ _ _
    · intro j hj
      have hlt : ∀ l, entryAt s.machine.mem s.kernelPml4 l < 2 ^ 64 :=
        fun l => ByteMem.read64_lt _ _
      rcases hj with rfl | rfl
      · rw [entryAt_setEntry_of_ne hframe.1 hframe.1 (by decide) (by decide) (.inr (by decide)),
          entryAt_setEntry_self, hread _ (by decide), Nat.mod_eq_of_lt (hlt _)]
      · rw [entryAt_setEntry_self, hother _ _ _ (by decide) _ (by decide),
          hread _ (by decide), Nat.mod_eq_of_lt (hlt _)]
  · exfalso
    apply hne
    simp only [Vmm.new, hnull]

theorem create (hb : Booted p₀ s.kernelPml4) (h : s.Sound p₀ mem₀)
    (hexec : s.exec .create = some s') :
    s'.Sound p₀ mem₀ ∧ s'.view = s.view.apply .create := by
  rw [exec, guard_bind_eq_some] at hexec
  obtain ⟨hne, hret⟩ := hexec
  obtain rfl := Option.some.inj hret
  obtain ⟨f, k', hnew, htakes, hsame, ⟨tab, ht⟩, hkernel⟩ := h.newPagemap hb hne
  rw [hnew] at hne ⊢
  have hnull : 0 ∉ [f] := fun hmem => hne (List.mem_singleton.mp hmem).symm
  have htracks : Tracks p₀ ⟨k'.pmm, k'.mem, Space.frames ⟨⟨f, [], []⟩, [], []⟩ ++ s.live⟩ :=
    h.tracks.takes k'.mem hb.zero htakes hnull
  have hchange : ChangedIn (Space.frames ⟨⟨f, [], []⟩, [], []⟩) s.machine.mem k'.mem := by
    refine .of_sameOutside hsame fun t ht => ⟨.one f, List.mem_cons_self, ?_⟩
    rw [Set.mem_singleton_iff.mp ht]
    exact Frames.has_one.mpr rfl
  have hsp' : Space.Sound s.kernelPml4 k'.mem ⟨⟨f, [], []⟩, [], []⟩ :=
    { tree := ⟨tab, ht, fun a ha => by cases ha⟩
      aligned := fun t ht => by
        rcases ht with hroot | hmem
        · rw [hroot]
          exact takes_aligned htakes f List.mem_cons_self
        · cases hmem
      placed := fun a ha => by cases ha
      ranges := .nil
      kernel := fun j hj => by
        rw [hkernel j hj, kernel_entry hb htracks hchange (by omega)] }
  obtain ⟨hsound, hbuffers, hspaces⟩ := h.extend s.arrays hb htracks hchange hsp'
  refine ⟨hsound, ?_⟩
  simp only [view, AbstractMemory.apply, AbstractMemory.mk.injEq]
  refine ⟨hbuffers, hspaces.trans ?_⟩
  congr 1

theorem destroy (h : s.Sound p₀ mem₀) (hexec : s.exec (.destroy i) = some s') :
    s'.Sound p₀ mem₀ ∧ s'.view = s.view.apply (.destroy i) := by
  rw [exec, Option.bind_eq_bind, Option.bind_eq_some_iff] at hexec
  obtain ⟨sp, hi, hret⟩ := hexec
  obtain rfl := Option.some.inj hret
  have hsp := h.spaces sp (List.mem_of_getElem? hi)
  have hdestroy : Vmm.destroy s.machine sp.vm = ⟨s.machine.mem, s.machine.pmm.frees
      (sp.recorded.map (·.frames) ++ sp.vm.pageTablesAddr.map Frames.one)⟩ := hsp.destroy
  rw [hdestroy]
  have htracks : Tracks p₀ ⟨s.machine.pmm, s.machine.mem,
      (sp.recorded.map (·.frames) ++ sp.vm.pageTablesAddr.map Frames.one) ++
        (s.buffers ++ (s.spaces.eraseIdx i).flatMap Space.frames ++
          (.one sp.vm.pml4 :: sp.inherited.map (·.frames) ++ s.lost))⟩ := by
    refine h.tracks.congr rfl ?_
    rw [List.perm_iff_count]
    intro f
    have hcount := (live_perm hi).count_eq f
    simp only [Space.frames, Vmm.tableFrames, Space.areas, rest, List.map_append, List.map_cons,
      List.count_append, List.count_cons, List.cons_append] at hcount ⊢
    omega
  constructor
  · exact
      { tracks := htracks.frees _
        pages := h.pages
        boot := h.boot
        spaces := fun sq hsq => h.spaces sq (List.mem_of_mem_eraseIdx hsq) }
  · simp only [view, AbstractMemory.apply, List.eraseIdx_map]

end Sound

end Spaces

end Toystar.Memory

import Toystar.Memory.SpaceFork

/-!
# Address spaces are private memories

Whatever programs, kernel and `fork` do, in whatever order: a load through a pagemap
returns the byte that the abstract memory has for it (`address_spaces_private`).  Of
the frames that pagemaps take, those stay in use for good that no pagemap has recorded
when it is destroyed: its top table, and what `duplicate` copied into it
(`address_spaces_account`).
-/

namespace Toystar.Memory

open Toystar.Klibc
open Toystar.Verified

/-- The operations that make a pagemap. -/
def SpaceOp.makes : SpaceOp → Bool
  | .create => true
  | .fork _ => true
  | _ => false

namespace Spaces

variable {p₀ : Pmm} {mem₀ : ByteMem} {kernelPml4 : Nat} {s s' : Spaces} {op : SpaceOp}
  {ops : List SpaceOp} {sp : Space} {virt : Nat}

/-! ## Every step, and every run -/

theorem sound_boot (p₀ : Pmm) (mem₀ : ByteMem) (kernelPml4 : Nat) :
    (boot p₀ mem₀ kernelPml4).Sound p₀ mem₀ :=
  { tracks := tracks_init p₀ mem₀
    pages := fun f hf => by cases hf
    boot := fun _ _ => rfl
    spaces := fun sp hsp => by cases hsp }

theorem Sound.step (hb : Booted p₀ s.kernelPml4) (h : s.Sound p₀ mem₀)
    (hexec : s.exec op = some s') : s'.Sound p₀ mem₀ ∧ s'.view = s.view.apply op := by
  cases op with
  | alloc count => exact h.alloc hb hexec
  | free b => exact h.free hexec
  | poke b offset v => exact h.poke hb hexec
  | create => exact h.create hb hexec
  | mapRange i b base prot flags => exact h.mapRange hb hexec
  | translate i virt => exact h.translate hb hexec
  | store i virt v => exact h.store hb hexec
  | fork i => exact h.fork hb hexec
  | destroy i => exact h.destroy hexec

/-- What an operation does to the list of the pagemaps. -/
theorem exec_cases (h : s.exec op = some s') : s'.kernelPml4 = s.kernelPml4 ∧
    ((op.makes = false ∧ s'.lost = s.lost ∧
        s'.spaces.map Space.inherited = s.spaces.map Space.inherited) ∨
      (op.makes = true ∧ s'.lost = s.lost ∧
        ∃ sp, s'.spaces = s.spaces ++ [sp] ∧ (op = .create → sp.inherited = [])) ∨
      (op.makes = false ∧ ∃ i sp, s.spaces[i]? = some sp ∧ s'.spaces = s.spaces.eraseIdx i ∧
        s'.lost = .one sp.vm.pml4 :: sp.inherited.map (·.frames) ++ s.lost)) := by
  have hset : ∀ {i : Nat} {sp sp' : Space}, s.spaces[i]? = some sp →
      sp'.inherited = sp.inherited →
      (s.spaces.set i sp').map Space.inherited = s.spaces.map Space.inherited := by
    intro i sp sp' hi hsame
    rw [List.map_set, hsame]
    apply set_of_getElem?
    rw [List.getElem?_map, hi, Option.map_some]
  cases op with
  | alloc count =>
      obtain ⟨_, hret⟩ := guard_bind_eq_some.mp h
      obtain rfl := Option.some.inj hret
      exact ⟨rfl, .inl ⟨rfl, rfl, rfl⟩⟩
  | free b =>
      obtain ⟨f, _, hret⟩ := Option.bind_eq_some_iff.mp h
      obtain rfl := Option.some.inj hret
      exact ⟨rfl, .inl ⟨rfl, rfl, rfl⟩⟩
  | poke b offset v =>
      obtain ⟨f, _, hret⟩ := Option.bind_eq_some_iff.mp h
      obtain ⟨_, hret⟩ := guard_bind_eq_some.mp hret
      obtain rfl := Option.some.inj hret
      exact ⟨rfl, .inl ⟨rfl, rfl, rfl⟩⟩
  | create =>
      obtain ⟨_, hret⟩ := guard_bind_eq_some.mp h
      obtain rfl := Option.some.inj hret
      exact ⟨rfl, .inr (.inl ⟨rfl, rfl, _, rfl, fun _ => rfl⟩)⟩
  | mapRange i b base prot flags =>
      obtain ⟨sp, hi, hret⟩ := Option.bind_eq_some_iff.mp h
      obtain ⟨f, _, hret⟩ := Option.bind_eq_some_iff.mp hret
      obtain ⟨_, hret⟩ := guard_bind_eq_some.mp hret
      obtain ⟨_, hret⟩ := guard_bind_eq_some.mp hret
      obtain rfl := Option.some.inj hret
      exact ⟨rfl, .inl ⟨rfl, rfl, hset hi rfl⟩⟩
  | translate i virt =>
      obtain ⟨sp, hi, hret⟩ := Option.bind_eq_some_iff.mp h
      obtain ⟨_, hret⟩ := guard_bind_eq_some.mp hret
      obtain ⟨_, hret⟩ := guard_bind_eq_some.mp hret
      obtain rfl := Option.some.inj hret
      exact ⟨rfl, .inl ⟨rfl, rfl, hset hi rfl⟩⟩
  | store i virt v =>
      obtain ⟨sp, _, hret⟩ := Option.bind_eq_some_iff.mp h
      obtain ⟨_, hret⟩ := guard_bind_eq_some.mp hret
      obtain ⟨phys, _, hret⟩ := Option.bind_eq_some_iff.mp hret
      obtain rfl := Option.some.inj hret
      exact ⟨rfl, .inl ⟨rfl, rfl, rfl⟩⟩
  | fork i =>
      obtain ⟨sp, _, hret⟩ := Option.bind_eq_some_iff.mp h
      obtain ⟨_, hret⟩ := guard_bind_eq_some.mp hret
      obtain ⟨r, _, hret⟩ := Option.bind_eq_some_iff.mp hret
      obtain rfl := Option.some.inj hret
      exact ⟨rfl, .inr (.inl ⟨rfl, rfl, _, rfl, fun hcreate => by cases hcreate⟩)⟩
  | destroy i =>
      obtain ⟨sp, hi, hret⟩ := Option.bind_eq_some_iff.mp h
      obtain rfl := Option.some.inj hret
      exact ⟨rfl, .inr (.inr ⟨rfl, i, sp, hi, rfl, rfl⟩)⟩

/-- Every run keeps the spaces sound, and what is seen of them follows the abstract
memory. -/
theorem run_sound (hb : Booted p₀ kernelPml4)
    (hrun : Run Step (boot p₀ mem₀ kernelPml4) ops s) :
    (s.kernelPml4 = kernelPml4 ∧ s.Sound p₀ mem₀) ∧
      s.view = ops.foldl AbstractMemory.apply ⟨[], []⟩ := by
  refine hrun.follows (R := fun s m => (s.kernelPml4 = kernelPml4 ∧ s.Sound p₀ mem₀) ∧
    s.view = m) ?_ ⟨⟨rfl, sound_boot p₀ mem₀ kernelPml4⟩, rfl⟩
  intro s m op s' hR hexec
  obtain ⟨⟨rfl, hsound⟩, rfl⟩ := hR
  obtain ⟨hsound', hview⟩ := hsound.step hb hexec
  exact ⟨⟨(exec_cases hexec).1, hsound'⟩, hview⟩

/-! ## What a pagemap reads -/

/-- A load reads what is behind the areas of the space. -/
theorem load_view (mem : ByteMem) (sp : Space) (w : Nat) : (sp.view mem).load w =
    if sp.Covers w then (Vmm.access mem sp.vm.pml4 w).map mem else none := by
  have hor : ∀ (P Q : Prop) [Decidable P] [Decidable Q] (x : Option UInt8),
      (if P then x else none).or (if Q then x else none) = if P ∨ Q then x else none := by
    intro P Q _ _ x
    by_cases hP : P
    · cases x with
      | none => simp
      | some v => simp [hP]
    · simp [hP]
  have hiff : sp.Covers w ↔
      (∃ a ∈ sp.recorded, a.Covers w) ∨ ∃ a ∈ sp.inherited, a.Covers w := by
    unfold Space.Covers Space.areas
    simp only [List.mem_append, or_and_right, exists_or]
  unfold AbstractSpace.load Space.view Space.bytes
  rw [hor]
  simp only [hiff]

/-- The kernel's half of the addresses is the same everywhere. -/
theorem access_kernel {mem : ByteMem} (hsp : sp.Sound kernelPml4 mem) (hkernel : ¬UserAddr virt) :
    Vmm.access mem sp.vm.pml4 virt = Vmm.access mem kernelPml4 virt := by
  have hindex : getPml4e virt = 256 ∨ getPml4e virt = 511 := by
    unfold UserAddr at hkernel
    omega
  have hpresent : Vmm.presentAt mem sp.vm.pml4 (getPml4e virt) =
      Vmm.presentAt mem kernelPml4 (getPml4e virt) := by
    unfold Vmm.presentAt
    rw [hsp.kernel _ hindex]
  unfold Vmm.access
  rw [hpresent]

/-- `virtual_to_physical` of an address of the space is what the processor finds. -/
theorem translate_covers {k : Machine Pmm} (hsp : sp.Sound kernelPml4 k.mem)
    (hc : sp.Covers virt) : ∃ phys, Vmm.access k.mem sp.vm.pml4 virt = some phys ∧
      Vmm.virtualToPhysical Vmm.allocFrame k sp.vm virt =
        (phys / PAGE_SIZE * PAGE_SIZE, k, sp.vm) := by
  obtain ⟨a, ha, hc⟩ := hc
  refine ⟨_, hsp.access ha hc, (hsp.virtualToPhysical ha hc).trans ?_⟩
  obtain ⟨n, hn⟩ := (hsp.placed a ha).ptr
  have hpage : a.frames.ptr + (virt - a.base) / PAGE_SIZE * PAGE_SIZE =
      (a.frames.ptr + (virt - a.base)) / PAGE_SIZE * PAGE_SIZE := by
    rw [hn]
    unfold PAGE_SIZE
    omega
  rw [hpage]

/-- In every run of pagemaps that are made, mapped, translated, copied and destroyed,
with stores of programs at the pages they were given and of the kernel to its buffers:
what a pagemap reads at its pages is what the abstract memory says, `virtual_to_physical`
agrees with the processor, the kernel's half is the kernel's, and nothing that was in use
at the start is written. -/
theorem address_spaces_private (hb : Booted p₀ kernelPml4)
    (hrun : Run Step (boot p₀ mem₀ kernelPml4) ops s) :
    let m := ops.foldl AbstractMemory.apply ⟨[], []⟩
    m.buffers = s.buffers.map (Frames.bytes s.machine.mem) ∧
    m.spaces.length = s.spaces.length ∧
    (∀ (i : Nat) (sp : Space) (a : AbstractSpace), s.spaces[i]? = some sp →
      m.spaces[i]? = some a → ∀ w, a.load w =
      if sp.Covers w then (Vmm.access s.machine.mem sp.vm.pml4 w).map s.machine.mem
      else none) ∧
    (∀ sp ∈ s.spaces, ∀ w, sp.Covers w → ∃ phys,
      Vmm.access s.machine.mem sp.vm.pml4 w = some phys ∧
      Vmm.virtualToPhysical Vmm.allocFrame s.machine sp.vm w =
        (phys / PAGE_SIZE * PAGE_SIZE, s.machine, sp.vm)) ∧
    (∀ sp ∈ s.spaces, ∀ w, ¬UserAddr w → Vmm.access s.machine.mem sp.vm.pml4 w =
      Vmm.access s.machine.mem kernelPml4 w) ∧
    ∀ x, p₀.bitmap.isBitSet (x / PAGE_SIZE) = true → s.machine.mem x = mem₀ x := by
  obtain ⟨⟨rfl, hsound⟩, hview⟩ := run_sound hb hrun
  intro m
  have hm : m = s.view := hview.symm
  clear_value m
  subst hm
  refine ⟨rfl, List.length_map _, ?_, ?_, ?_, hsound.boot⟩
  · intro i sp a hi ha w
    rw [view, List.getElem?_map, hi, Option.map_some, Option.some.injEq] at ha
    rw [← ha, load_view]
  · exact fun sp hsp w hc => translate_covers (hsound.spaces sp hsp) hc
  · exact fun sp hsp w hw => access_kernel (hsound.spaces sp hsp) hw

theorem booted_sixtyFourPages : Booted sixtyFourPages 0x1000 :=
  ⟨by decide, by decide, by decide, by decide⟩

/-- A pagemap with one page, and a copy of it: the copy has what was stored. -/
theorem address_spaces_private_fork : ∃ (s : Spaces) (sp : Space), s.spaces[1]? = some sp ∧
    (Vmm.access s.machine.mem sp.vm.pml4 0x400006).map s.machine.mem = some 9 := by
  have hprefix : (([.alloc 1, .poke 0 5 7, .create, .mapRange 0 0 0x400000 7 0,
      .store 0 0x400006 9] : List SpaceOp).foldlM exec
      (boot sixtyFourPages (fun _ => 0) 0x1000)).map (fun s =>
        s.spaces.map fun sp => decide (4 * (sp.recorded.map (·.frames.count)).sum + 1 ≤
          freeCells s.machine.pmm.bitmap.isBitSet s.machine.pmm.pages)) = some [true] := by
    decide +kernel
  obtain ⟨s, hs, hspaces⟩ := Option.map_eq_some_iff.mp hprefix
  have hrun : Run Step _ _ s := Run.of_foldlM (fun hstep => hstep) hs
  obtain ⟨⟨hkernel, hsound⟩, _⟩ := run_sound booted_sixtyFourPages hrun
  obtain ⟨sp, hone, hfree⟩ := List.map_eq_singleton_iff.mp hspaces
  have hi : s.spaces[0]? = some sp := by rw [hone]; rfl
  obtain ⟨s', hfork⟩ := hsound.fork_served (hkernel ▸ booted_sixtyFourPages) hi
    (of_decide_eq_true hfree)
  obtain ⟨_, hlength, hload, _⟩ :=
    address_spaces_private booted_sixtyFourPages (hrun.concat hfork)
  have htwo : 1 < s'.spaces.length := hlength ▸ (by decide)
  obtain ⟨child, hi'⟩ : ∃ child, s'.spaces[1]? = some child :=
    ⟨_, List.getElem?_eq_getElem htwo⟩
  refine ⟨s', child, hi', ?_⟩
  have hbyte := hload 1 _ _ hi' rfl 0x400006
  have hnine : some (9 : UInt8) = _ := hbyte
  by_cases hc : child.Covers 0x400006
  · rw [if_pos hc] at hnine
    exact hnine.symm
  · rw [if_neg hc] at hnine
    cases hnine

/-! ## What stays in use -/

/-- The pagemaps there are, and the frames of those that are gone. -/
def made (s : Spaces) : Nat := s.spaces.length + (s.lost.map (·.count)).sum

/-- Every pagemap that was made is in use, or has left its top table. -/
theorem made_step (hexec : s.exec op = some s') : [op].countP SpaceOp.makes + s.made ≤ s'.made := by
  unfold made
  rcases (exec_cases hexec).2 with ⟨hop, hlost, hsame⟩ | ⟨hop, hlost, sp, hspaces, _⟩ |
    ⟨hop, i, sp, hi, hspaces, hlost⟩
  · have hlength := congrArg List.length hsame
    rw [List.length_map, List.length_map] at hlength
    rw [List.countP_singleton, hop, hlost, hlength, if_neg Bool.false_ne_true]
    omega
  · rw [List.countP_singleton, hop, hlost, hspaces, List.length_append, if_pos rfl,
      List.length_singleton]
    omega
  · obtain ⟨hlt, _⟩ := List.getElem?_eq_some_iff.mp hi
    rw [List.countP_singleton, hop, hspaces, hlost, if_neg Bool.false_ne_true,
      List.length_eraseIdx_of_lt hlt]
    simp only [List.cons_append, List.map_cons, List.map_append, List.sum_cons, List.sum_append,
      Frames.one]
    omega

theorem made_run (hrun : Run Step s ops s') : ops.countP SpaceOp.makes + s.made ≤ s'.made := by
  induction hrun with
  | nil s => exact (Nat.zero_add _).le
  | @cons s t u op ops hfirst _ ih =>
      have hstep := made_step hfirst
      rw [← List.singleton_append, List.countP_append]
      omega

/-- Without copies nothing but the top tables is left. -/
theorem made_step_eq (hnone : ∀ sp ∈ s.spaces, sp.inherited = []) (hfork : ∀ i, op ≠ .fork i)
    (hexec : s.exec op = some s') :
    [op].countP SpaceOp.makes + s.made = s'.made ∧ ∀ sp ∈ s'.spaces, sp.inherited = [] := by
  unfold made
  rcases (exec_cases hexec).2 with ⟨hop, hlost, hsame⟩ | ⟨hop, hlost, sp, hspaces, hnew⟩ |
    ⟨hop, i, sp, hi, hspaces, hlost⟩
  · have hlength := congrArg List.length hsame
    rw [List.length_map, List.length_map] at hlength
    rw [List.countP_singleton, hop, hlost, hlength, if_neg Bool.false_ne_true]
    refine ⟨Nat.zero_add _, fun sp hsp => ?_⟩
    have hmem : sp.inherited ∈ s.spaces.map Space.inherited := hsame ▸ List.mem_map_of_mem hsp
    obtain ⟨sq, hsq, heq⟩ := List.mem_map.mp hmem
    rw [← heq, hnone sq hsq]
  · rw [List.countP_singleton, hop, hlost, hspaces, List.length_append, if_pos rfl,
      List.length_singleton]
    refine ⟨by omega, fun sq hsq => ?_⟩
    rcases List.mem_append.mp hsq with hold | hlast
    · exact hnone sq hold
    · rw [List.mem_singleton.mp hlast]
      cases op with
      | create => exact hnew rfl
      | fork i => exact absurd rfl (hfork i)
      | _ => cases hop
  · obtain ⟨hlt, _⟩ := List.getElem?_eq_some_iff.mp hi
    rw [List.countP_singleton, hop, hspaces, hlost, if_neg Bool.false_ne_true,
      List.length_eraseIdx_of_lt hlt, hnone sp (List.mem_of_getElem? hi)]
    simp only [List.map_nil, List.cons_append, List.nil_append, List.map_cons, List.sum_cons,
      Frames.one]
    exact ⟨by omega, fun sq hsq => hnone sq (List.mem_of_mem_eraseIdx hsq)⟩

theorem made_run_eq (hrun : Run Step s ops s') (hnone : ∀ sp ∈ s.spaces, sp.inherited = [])
    (hfork : ∀ i, .fork i ∉ ops) : ops.countP SpaceOp.makes + s.made = s'.made := by
  induction hrun with
  | nil s => exact Nat.zero_add _
  | @cons s t u op ops hfirst _ ih =>
      obtain ⟨hstep, hnone'⟩ := made_step_eq hnone
        (fun i heq => hfork i (heq ▸ List.mem_cons_self)) hfirst
      have hrest := ih hnone' fun i hmem => hfork i (List.mem_cons_of_mem _ hmem)
      rw [← List.singleton_append, List.countP_append]
      omega

/-- In every run: a frame is in use if and only if it was at the start or is live, no frame
is live twice, and no frame is missing in the balance.  Every pagemap that `vmm` or
`duplicate` made has at least its top table in use for good, once it is destroyed, and
without copies not a frame more. -/
theorem address_spaces_account (hb : Booted p₀ kernelPml4)
    (hrun : Run Step (boot p₀ mem₀ kernelPml4) ops s) :
    (∀ i, s.machine.pmm.bitmap.isBitSet i = true ↔
      p₀.bitmap.isBitSet i = true ∨ ∃ f ∈ s.live, f.Has i) ∧
    s.live.Pairwise Frames.Apart ∧
    freeCells s.machine.pmm.bitmap.isBitSet p₀.pages + (s.live.map (·.count)).sum =
      freeCells p₀.bitmap.isBitSet p₀.pages ∧
    ops.countP SpaceOp.makes ≤ s.spaces.length + (s.lost.map (·.count)).sum ∧
    ((∀ i, .fork i ∉ ops) →
      ops.countP SpaceOp.makes = s.spaces.length + (s.lost.map (·.count)).sum) := by
  obtain ⟨⟨_, hsound⟩, _⟩ := run_sound hb hrun
  refine ⟨hsound.tracks.used, hsound.tracks.apart, hsound.tracks.balance, made_run hrun, ?_⟩
  intro hfork
  exact made_run_eq hrun (fun sp hsp => by cases hsp) hfork

/-- Two pagemaps, one with a page, made and destroyed: two frames are missing. -/
theorem address_spaces_account_two : ∃ s : Spaces, s.spaces.length = 0 ∧
    freeCells s.machine.pmm.bitmap.isBitSet 64 + 2 = 62 := by
  have hend : (([.alloc 1, .create, .mapRange 0 0 0x400000 7 0, .create, .destroy 0,
      .destroy 0] : List SpaceOp).foldlM exec
      (boot sixtyFourPages (fun _ => 0) 0x1000)).map (fun s => (s.spaces.length,
        s.buffers.length)) = some (0, 0) := by
    decide +kernel
  obtain ⟨s, hs, hlengths⟩ := Option.map_eq_some_iff.mp hend
  obtain ⟨hspaces, hbuffers⟩ := Prod.mk.inj hlengths
  have hrun : Run Step _ _ s := Run.of_foldlM (fun hstep => hstep) hs
  obtain ⟨_, _, hbalance, _, hmade⟩ := address_spaces_account booted_sixtyFourPages hrun
  refine ⟨s, hspaces, ?_⟩
  have hlost := hmade fun i hmem => by simp at hmem
  rw [hspaces, Nat.zero_add] at hlost
  rw [live, List.eq_nil_of_length_eq_zero hspaces, List.eq_nil_of_length_eq_zero hbuffers,
    List.flatMap_nil, List.nil_append, List.nil_append, ← hlost] at hbalance
  exact hbalance

end Spaces

end Toystar.Memory

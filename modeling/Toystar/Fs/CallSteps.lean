import Toystar.Fs.CallTables

/-!
# One call of a program

A call of one process changes the entry that it names, in the table of the process and in
its list of handles, and the files that stand behind the handle.  What the other processes
have stays (`Refines.put`).
-/

namespace Toystar.Fs

open Toystar.Kernel
open Toystar.Klibc
open Toystar.Memory
open Toystar.Verified

/-! ## What a call is made on -/

namespace FdState

variable {t : FdState} {rdi rdx result : Nat} {mode : UInt16} {d : FileDescription}

theorem permitted_eq_some : t.permitted rdi mode = some d ↔
    ∃ fd, t.Bound rdi fd ∧ t.descs fd = some d ∧ d.mode &&& mode ≠ 0 := by
  unfold permitted Bound
  rw [Option.filter_eq_some_iff, decide_eq_true_eq]
  simp only [Option.bind_eq_bind, Option.bind_eq_some_iff]
  constructor
  · rintro ⟨⟨x, hx, fd, rfl, hd⟩, hmode⟩
    exact ⟨fd, hx, hd, hmode⟩
  · rintro ⟨fd, hbound, hd, hmode⟩
    exact ⟨⟨_, hbound, fd, rfl, hd⟩, hmode⟩

theorem WellFormed.transfer_none (h : t.WellFormed) (hnone : t.permitted rdi mode = none)
    (rdx result : Nat) : t.transfer mode rdi rdx result = .ok (minusOne, t) := by
  rcases h.transfer_cases mode rdi rdx result with ⟨hret, _⟩ | ⟨fd, d, hbound, hd, hmode, _⟩
  · exact hret
  · rw [permitted_eq_some.mpr ⟨fd, hbound, hd, hmode⟩] at hnone
    cases hnone

theorem WellFormed.transfer_bound {fd : Nat} (h : t.WellFormed) (hbound : t.Bound rdi fd)
    (hd : t.descs fd = some d) (hmode : d.mode &&& mode ≠ 0) (rdx result : Nat) :
    t.transfer mode rdi rdx result =
      .ok (result, t.setDesc fd (some { d with offset := (d.offset + rdx) % 2 ^ 64 })) := by
  rcases h.transfer_cases mode rdi rdx result with ⟨_, hnot⟩ | ⟨fd', d', hbound', hd', _, hret⟩
  · exact absurd (hnot fd d hbound hd) hmode
  · obtain rfl : fd' = fd := by
      rw [Bound, hbound, Option.some.injEq, Option.some.injEq] at hbound'
      exact hbound'.symm
    obtain rfl : d' = d := Option.some.inj (hd'.symm.trans hd)
    exact hret

/-- A list filled with new descriptions. -/
theorem WellFormed.fill_some (h : t.WellFormed) (news : List (Nat × FileDescription))
    (hfresh : FreshAll t.descs (news.map some)) :
    ∃ t', t.fill (news.map some) = .ok t' ∧
      t'.table = t.table ++ news.map (fun x => some x.1) ∧
      (∀ x ∈ news, t'.descs x.1 = some x.2) ∧
      ∀ b, t.descs b ≠ none → t'.descs b = t.descs b := by
  induction news generalizing t with
  | nil => exact ⟨t, rfl, (List.append_nil _).symm, by simp, fun _ _ => rfl⟩
  | cons x news ih =>
      obtain ⟨fd, d⟩ := x
      obtain ⟨hfree, hrest⟩ := hfresh
      obtain ⟨t₁, hpush, hformed, htable, hdescs⟩ := h.push_new hfree d
      rw [← hdescs] at hrest
      obtain ⟨t', hfill, htable', hnew, hold⟩ := ih hformed hrest
      refine ⟨t', ?_, ?_, ?_, ?_⟩
      · rw [List.map_cons, FdState.fill, hpush, ok_bind, hfill]
      · rw [htable', htable, List.map_cons, List.append_assoc, List.singleton_append]
      · refine List.forall_mem_cons.mpr ⟨?_, hnew⟩
        have hself : t₁.descs fd = some d := by rw [hdescs, Function.update_self]
        rw [hold fd (by rw [hself]; exact Option.some_ne_none d), hself]
      · intro b hb
        have hne : b ≠ fd := by
          rintro rfl
          exact hb hfree
        have hkept : t₁.descs b = t.descs b := by rw [hdescs, Function.update_of_ne hne]
        rw [hold b (by rw [hkept]; exact hb), hkept]

/-- The loop of `exit_process` deletes what the rest of the list names. -/
theorem WellFormed.deleteFrom (h : t.WellFormed) (n : Nat) {i : Nat}
    {descs : Nat → Option FileDescription} (hn : i + n = t.table.length)
    (hrest : ∀ {j a}, i ≤ j → t.Bound j a → descs a = t.descs a) :
    ∃ descs', FdState.deleteFrom { t with descs } n i = .ok { t with descs := descs' } ∧
      ∀ a, (∀ j, ¬t.Bound j a) → descs' a = descs a := by
  induction n generalizing i descs with
  | zero => exact ⟨descs, rfl, fun _ _ => rfl⟩
  | succ n ih =>
      have hi : i < t.table.length := by omega
      have hget : t.fdList.get t.arrays i = .ok t.table[i] := h.get_entry hi
      rw [FdState.deleteFrom, hget, ok_bind]
      cases hentry : t.table[i] with
      | none => exact ih (by omega) fun hj => hrest (Nat.le_of_succ_le hj)
      | some fd =>
          have hbound : t.Bound i fd := by
            rw [Bound, List.getElem?_eq_getElem hi, hentry]
          obtain ⟨d, hd⟩ := h.live hbound
          have hkept : descs fd = some d := (hrest (le_refl i) hbound).trans hd
          have hdesc : FdState.desc { t with descs } fd = .ok d := by
            unfold FdState.desc
            dsimp only
            rw [hkept]
          dsimp only
          rw [hdesc, ok_bind]
          have hrest' : ∀ {j a}, i + 1 ≤ j → t.Bound j a →
              Function.update descs fd none a = t.descs a := by
            intro j a hj ha
            have hne : a ≠ fd := by
              rintro rfl
              exact absurd (h.distinct ha hbound) (by omega)
            rw [Function.update_of_ne hne]
            exact hrest (Nat.le_of_succ_le hj) ha
          obtain ⟨descs', hret, hkeep⟩ := ih (by omega) hrest'
          refine ⟨descs', hret, fun a ha => ?_⟩
          have hne : a ≠ fd := by
            rintro rfl
            exact ha i hbound
          rw [hkeep a ha, Function.update_of_ne hne]

/-- `exit_process` leaves an empty list and touches no other. -/
theorem WellFormed.exit (h : t.WellFormed) :
    ∃ t', t.exit = .ok t' ∧ t'.WellFormed ∧ CallFrame t t' := by
  have hsize : t.fdList.size = t.table.length := h.holds.size_eq
  obtain ⟨descs, hret, hkeep⟩ := h.deleteFrom t.fdList.size (i := 0) (by omega)
    fun {j a} _ _ => rfl
  have hdelete : ∃ arrays, t.fdList.destroy t.arrays = .ok arrays := by
    by_cases hnil : t.table = []
    · refine ⟨t.arrays, ?_⟩
      rw [ToysVector.destroy, h.holds.data_none hnil]
      rfl
    · obtain ⟨q, hq, harray⟩ := h.holds.data hnil
      refine ⟨List.set t.arrays q none, ?_⟩
      rw [ToysVector.destroy, hq]
      exact Arrays.deleteArray_of_array harray
  obtain ⟨arrays, harrays⟩ := hdelete
  refine ⟨⟨.new, arrays, descs⟩, ?_, FdState.wellFormed_new arrays descs, ?_⟩
  · rw [FdState.exit, hret, ok_bind]
    dsimp only
    rw [harrays]
    rfl
  · refine ⟨⟨fun hne harray => ?_, fun _ _ hnone => by cases hnone⟩,
      fun _ ha => hkeep _ ha, fun {i a} hi => ?_⟩
    · exact (Arrays.array_of_deleteArray harrays hne).trans harray
    · rw [FdState.Bound, (FdState.WellFormed.of_holds (s := ⟨.new, arrays, descs⟩)
        (ToysVector.holds_new arrays) (fun h => by cases h) (fun h => by cases h)).2] at hi
      cases hi

/-- Closing an entry that names nothing. -/
theorem WellFormed.syscallClose_none (h : t.WellFormed) (hnone : t.table[rdi]? = some none) :
    t.syscallClose rdi = .ok (0, t) := by
  obtain ⟨hlt, hentry⟩ := List.getElem?_eq_some_iff.mp hnone
  have hsize := h.holds.size_eq
  rw [FdState.syscallClose, if_neg (by omega), h.get_entry hlt, hentry]
  rfl

theorem WellFormed.syscallClose_end (h : t.WellFormed) (hge : t.table.length ≤ rdi) :
    t.syscallClose rdi = .ok (minusOne, t) := by
  have hsize := h.holds.size_eq
  rw [FdState.syscallClose, if_pos (by omega)]

end FdState

/-- Without one process the others are as far apart as before. -/
theorem FdSystem.Separate.remove {fds : FdSystem} (h : fds.Separate) (p : Nat) :
    (fds.remove p).Separate := by
  have hlists : ∀ {q v}, (fds.remove p).lists q = some v → fds.lists q = some v := by
    intro q v hq
    have hself : (fds.remove p).lists p = none := Function.update_self _ _ _
    by_cases hqp : q = p
    · rw [hqp, hself] at hq
      cases hq
    · exact (Function.update_of_ne hqp _ _).symm.trans hq
  exact ⟨fun hp => h.formed (hlists hp),
    fun hne hp hq => h.arrays hne (hlists hp) (hlists hq),
    fun hne hp hq => h.descs hne (hlists hp) (hlists hq)⟩

namespace Calls

variable {p₀ : Pmm} {mem₀ : ByteMem} {s s' : Calls} {a : Programs} {p rdi rdx : Nat}
  {v : ToysVector} {t : FdState} {handles handles' : List (Option Handle)} {mode : UInt16}
  {store' : FileStore} {st' : Store} {output : List UInt8}

/-! ## The relation -/

/-- The files are as they should be, and the processes have nothing in common. -/
structure Sound (p₀ : Pmm) (mem₀ : ByteMem) (s : Calls) : Prop where
  store : s.store.Sound p₀ mem₀
  fds : s.fds.Separate

/-- The state is what the programs are to see. -/
structure Refines (s : Calls) (a : Programs) : Prop where
  store : s.store.Refines a.store
  tables : ∀ p, Option.Rel (fun v handles =>
    TableRel (Holds s.fds.descs s.store.handles a.store.handles) (s.fds.view v).table handles)
    (s.fds.lists p) (a.tables p)
  output : s.output = a.output

namespace Refines

variable (h : s.Refines a)
include h

theorem table (hv : s.fds.lists p = some v) : ∃ handles, a.tables p = some handles ∧
    TableRel (Holds s.fds.descs s.store.handles a.store.handles) (s.fds.view v).table handles := by
  have hp := h.tables p
  rw [hv] at hp
  generalize a.tables p = y at *
  cases hp with
  | some hrel => exact ⟨_, rfl, hrel⟩

/-- Work on the table of one process, be it new or not. -/
theorem put (hstore : store'.Refines st') (hopened : s.store.handles <+: store'.handles)
    (hpaths : a.store.handles <+: st'.handles)
    (hkeep : ∀ q, q ≠ p → s.fds.Keeps (s.fds.put p t) q)
    (htable : TableRel (Holds t.descs store'.handles st'.handles) t.table handles) :
    Refines ⟨store', s.fds.put p t, output⟩
      ⟨st', Function.update a.tables p (some handles), output⟩ := by
  refine ⟨hstore, fun q => ?_, rfl⟩
  by_cases hq : q = p
  · subst hq
    dsimp only [FdSystem.put]
    rw [Function.update_self, Function.update_self]
    exact .some htable
  · have hlists : (s.fds.put p t).lists q = s.fds.lists q := Function.update_of_ne hq _ _
    have hold := h.tables q
    dsimp only
    rw [hlists, Function.update_of_ne hq]
    cases hw : s.fds.lists q with
    | none =>
        rw [hw] at hold
        generalize a.tables q = y at *
        cases hold
        exact .none
    | some w =>
        obtain ⟨_, hview, hdescs⟩ := hkeep q hq w hw
        obtain ⟨handles, hhandles, hrel⟩ := h.table hw
        rw [hhandles, Option.rel_some_some, hview]
        refine hrel.imp fun ha _ hh => hh.mono (hdescs ha) hopened hpaths

/-- The handle that a call is made on, and its description. -/
theorem permitted_cases (hv : s.fds.lists p = some v) (mode : UInt16) (rdi : Nat) :
    ((s.fds.view v).permitted rdi mode = none ∧ a.permitted p rdi mode = none) ∨
    ∃ fd d h, (s.fds.view v).permitted rdi mode = some d ∧ a.permitted p rdi mode = some h ∧
      (s.fds.view v).Bound rdi fd ∧ s.fds.descs fd = some d ∧ d.mode &&& mode ≠ 0 ∧
      d.mode = h.mode ∧ d.offset = h.offset ∧
      Stands s.store.handles a.store.handles d.file h.file := by
  obtain ⟨handles, hhandles, hrel⟩ := h.table hv
  unfold FdState.permitted Programs.permitted
  simp only [Option.bind_eq_bind, hhandles, Option.bind_some]
  have hi := hrel rdi
  generalize hentry : (s.fds.view v).table[rdi]? = x at *
  generalize handles[rdi]? = y at *
  cases hi with
  | none => exact .inl ⟨rfl, rfl⟩
  | some hentries =>
      cases hentries with
      | none => exact .inl ⟨rfl, rfl⟩
      | @some fd h hh =>
          obtain ⟨d, hd, hmode, hoffset, hstands⟩ := hh
          have hdescs : (s.fds.view v).descs fd = some d := hd
          simp only [Option.bind_some, hdescs]
          by_cases hallowed : d.mode &&& mode ≠ 0
          · right
            refine ⟨fd, d, h, ?_, ?_, hentry, hd, hallowed, hmode, hoffset, hstands⟩
            · rw [Option.filter_some, if_pos (decide_eq_true hallowed)]
            · rw [Option.filter_some, if_pos (decide_eq_true (hmode ▸ hallowed))]
          · left
            refine ⟨?_, ?_⟩
            · rw [Option.filter_some, if_neg (by simpa using hallowed)]
            · rw [Option.filter_some, if_neg (by simpa [← hmode] using hallowed)]

/-! ## Transfers -/

/-- The offset of one handle moves, and the files may change. -/
theorem advance (hformed : (s.fds.view v).WellFormed) (hv : s.fds.lists p = some v)
    {fd : Nat} {d : FileDescription} {hd : Handle} (hbound : (s.fds.view v).Bound rdi fd)
    (hmode : d.mode = hd.mode) (hoffset : d.offset = hd.offset)
    (hstands : Stands s.store.handles a.store.handles d.file hd.file)
    (hstore : store'.Refines st') (hopened : s.store.handles <+: store'.handles)
    (hpaths : a.store.handles <+: st'.handles)
    (ht : t = (s.fds.view v).setDesc fd (some { d with offset := (d.offset + rdx) % 2 ^ 64 }))
    (hkeep : ∀ q, q ≠ p → s.fds.Keeps (s.fds.put p t) q) :
    Refines ⟨store', s.fds.put p t, output⟩
      { a.advance p rdi rdx hd with store := st', output } := by
  subst ht
  obtain ⟨handles, hhandles, hrel⟩ := h.table hv
  have hlt : rdi < handles.length := by
    rw [← hrel.length_eq]
    exact (List.getElem?_eq_some_iff.mp hbound).1
  unfold Programs.advance
  rw [hhandles, Option.map_some]
  refine h.put hstore hopened hpaths hkeep ?_
  refine hrel.update (.some ?_) hbound (List.getElem?_set_self hlt) (fun _ _ => rfl)
    (fun i hi => List.getElem?_set_ne hi.symm) fun {i b hb} hi ha hh => ?_
  · refine ⟨_, FdState.setDesc_descs_self _ _ _, hmode, ?_, hstands.mono hopened hpaths⟩
    rw [hoffset]
  · have hne : b ≠ fd := by
      rintro rfl
      exact hi (hformed.distinct ha hbound)
    exact hh.mono (FdState.setDesc_descs_of_ne _ hne _) hopened hpaths

end Refines

theorem put_view (hv : s.fds.lists p = some v) : s.fds.put p (s.fds.view v) = s.fds := by
  have hlists : Function.update s.fds.lists p (some v) = s.fds.lists := by
    rw [← hv]
    exact Function.update_eq_self p s.fds.lists
  unfold FdSystem.put FdSystem.view
  rw [hlists]

/-- A call on descriptors keeps the processes apart. -/
theorem Sound.call {e : FdCall} {rax : Nat} (hs : s.Sound p₀ mem₀)
    (hv : s.fds.lists p = some v) (hok : e.Allowed (s.fds.view v))
    (hret : (s.fds.view v).exec e = .ok (rax, t)) :
    (s.fds.put p t).Separate ∧ ∀ q, q ≠ p → s.fds.Keeps (s.fds.put p t) q :=
  hs.fds.step (e := .call p e) ⟨v, rax, t, hv, hok, hret, rfl⟩

/-- What `Vfs::read` returns. -/
theorem vfsRead_eq (hreach : p₀.pages * PAGE_SIZE ≤ 2 ^ 47) (hs : s.Sound p₀ mem₀)
    (h : s.Refines a) {d : FileDescription} {hd : Handle} (hoffset : d.offset = hd.offset)
    (hstands : Stands s.store.handles a.store.handles d.file hd.file) (answer : Nat)
    (hlt : d.file ≠ 0 → d.offset + rdx < 2 ^ 64) :
    vfsRead s.store.fs answer d rdx = .ok (a.readReply answer hd rdx) := by
  unfold vfsRead Programs.readReply
  cases hfile : hd.file with
  | none =>
      rw [hfile] at hstands
      have hzero : d.file = 0 := hstands
      rw [hzero]
  | some path =>
      rw [hfile] at hstands
      obtain ⟨j, fd, hfd, hpath, hnode⟩ := hstands
      obtain ⟨path', m, n, hpath', hm, hn, htype, hown, hentry⟩ := h.store.handle hfd
      obtain rfl : path = path' := Option.some.inj (hpath.symm.trans hpath')
      have hread := hs.store.read_eq hreach hn htype (hlt (by omega))
      rw [hown] at hread
      have hcontents : a.contents path = s.store.fs.contents m := by
        rw [Programs.contents, hentry]
      rw [hnode, ← hoffset]
      dsimp only
      rw [hread, hcontents]
      rfl

theorem read {answer : Nat} (hreach : p₀.pages * PAGE_SIZE ≤ 2 ^ 47) (hs : s.Sound p₀ mem₀)
    (h : s.Refines a) (hallowed : s.Allowed (.read p rdi rdx answer)) :
    ∃ s', s.exec (.read p rdi rdx answer) = some ((a.apply (.read p rdi rdx answer)).1, s') ∧
      s'.Sound p₀ mem₀ ∧ s'.Refines (a.apply (.read p rdi rdx answer)).2 := by
  obtain ⟨v, hv, hbound⟩ := hallowed
  have hformed := hs.fds.formed hv
  rcases h.permitted_cases hv READ rdi with
    ⟨hnone, hnone'⟩ |
    ⟨fd, d, hd, hsome, hsome', hfd, hdesc, hpermits, hmode, hoffset, hstands⟩
  · have hret : (s.fds.view v).syscallRead rdi rdx minusOne = .ok (minusOne, s.fds.view v) :=
      hformed.transfer_none hnone rdx minusOne
    rw [Programs.apply, hnone']
    refine ⟨s, ?_, hs, h⟩
    simp only [exec, Option.mem_def.mp hv, Option.bind_eq_bind, Option.bind_some, hnone, hret,
      Except.toOption, put_view hv]
    rfl
  · have hread := vfsRead_eq hreach hs h hoffset hstands answer (hbound d hsome)
    have hret := hformed.transfer_bound hfd hdesc hpermits rdx (a.readReply answer hd rdx).rax
    obtain ⟨hsep, hkeep⟩ := hs.call (e := .syscallRead rdi rdx _) hv trivial hret
    rw [Programs.apply, hsome']
    refine ⟨{ s with fds := s.fds.put p _ }, ?_, ⟨hs.store, hsep⟩, ?_⟩
    · simp only [exec, Option.mem_def.mp hv, Option.bind_eq_bind, Option.bind_some, hsome, hread,
        Except.toOption, FdState.syscallRead, hret]
      rfl
    · rw [h.output]
      exact h.advance hformed hv hfd hmode hoffset hstands h.store
        List.prefix_rfl List.prefix_rfl rfl hkeep

/-- What `Vfs::write` does. -/
theorem vfsWrite_eq (hzero : p₀.bitmap.isBitSet 0 = true)
    (hreach : p₀.pages * PAGE_SIZE ≤ 2 ^ 47) (hs : s.Sound p₀ mem₀) (h : s.Refines a)
    {d : FileDescription} {hd : Handle} (hoffset : d.offset = hd.offset)
    (hstands : Stands s.store.handles a.store.handles d.file hd.file) (buffer : Nat → UInt8)
    (hlt : d.file ≠ 0 → d.offset + rdx < 2 ^ 64 ∧
      (4096 < d.offset + rdx → s.store.Served (divCeil (d.offset + rdx) PAGE_SIZE))) :
    ∃ fs, vfsWrite s.store.fs d rdx buffer = .ok (0, fs, (a.written hd rdx buffer).2) ∧
      { s.store with fs }.Sound p₀ mem₀ ∧
      { s.store with fs }.Refines (a.written hd rdx buffer).1 ∧
      (a.written hd rdx buffer).1.handles = a.store.handles := by
  unfold vfsWrite Programs.written
  cases hfile : hd.file with
  | none =>
      rw [hfile] at hstands
      have hnode : d.file = 0 := hstands
      rw [hnode]
      exact ⟨_, rfl, hs.store, h.store, rfl⟩
  | some path =>
      rw [hfile] at hstands
      obtain ⟨j, fd, hfd, hpath, hnode⟩ := hstands
      obtain ⟨path', m, n, hpath', hm, hn, htype, hown, hentry⟩ := h.store.handle hfd
      obtain rfl : path = path' := Option.some.inj (hpath.symm.trans hpath')
      have hcontents : a.contents path = s.store.fs.contents m := by
        rw [Programs.contents, hentry]
      obtain ⟨hsmall, hserved⟩ := hlt (by omega)
      obtain ⟨fs, hret, hsound, hrefines⟩ := hs.store.write_file (w := ⟨d.offset, rdx, buffer⟩)
        hzero hreach h.store hm hn htype hsmall hserved
      refine ⟨fs, ?_, hsound, ?_, rfl⟩
      · rw [hnode]
        dsimp only at hret ⊢
        rw [← hown, hret]
        rfl
      · dsimp only
        rw [hcontents, ← hoffset]
        exact hrefines

theorem write {buffer : Nat → UInt8} (hzero : p₀.bitmap.isBitSet 0 = true)
    (hreach : p₀.pages * PAGE_SIZE ≤ 2 ^ 47) (hs : s.Sound p₀ mem₀) (h : s.Refines a)
    (hallowed : s.Allowed (.write p rdi rdx buffer)) :
    ∃ s', s.exec (.write p rdi rdx buffer) = some ((a.apply (.write p rdi rdx buffer)).1, s') ∧
      s'.Sound p₀ mem₀ ∧ s'.Refines (a.apply (.write p rdi rdx buffer)).2 := by
  obtain ⟨v, hv, hbound⟩ := hallowed
  have hformed := hs.fds.formed hv
  rcases h.permitted_cases hv WRITE rdi with
    ⟨hnone, hnone'⟩ |
    ⟨fd, d, hd, hsome, hsome', hfd, hdesc, hpermits, hmode, hoffset, hstands⟩
  · have hret : (s.fds.view v).syscallWrite rdi rdx minusOne = .ok (minusOne, s.fds.view v) :=
      hformed.transfer_none hnone rdx minusOne
    rw [Programs.apply, hnone']
    refine ⟨s, ?_, hs, h⟩
    simp only [exec, Option.mem_def.mp hv, Option.bind_eq_bind, Option.bind_some, hnone, hret,
      Except.toOption, put_view hv, List.append_nil]
    rfl
  · obtain ⟨fs, hwrite, hstore, hrefines, hhandles⟩ :=
      vfsWrite_eq hzero hreach hs h hoffset hstands buffer (hbound d hsome)
    have hret := hformed.transfer_bound hfd hdesc hpermits rdx 0
    obtain ⟨hsep, hkeep⟩ := hs.call (e := .syscallWrite rdi rdx 0) hv trivial hret
    rw [Programs.apply, hsome']
    refine ⟨⟨{ s.store with fs }, s.fds.put p _, s.output ++ (a.written hd rdx buffer).2⟩, ?_,
      ⟨hstore, hsep⟩, ?_⟩
    · simp only [exec, Option.mem_def.mp hv, Option.bind_eq_bind, Option.bind_some, hsome,
        hwrite, Except.toOption, FdState.syscallWrite, hret]
      rfl
    · rw [h.output]
      exact h.advance hformed hv hfd hmode hoffset hstands hrefines List.prefix_rfl
        (by rw [hhandles]) rfl hkeep

/-! ## Closing and forking -/

theorem close (hs : s.Sound p₀ mem₀) (h : s.Refines a)
    (hallowed : s.Allowed (.close p rdi)) :
    ∃ s', s.exec (.close p rdi) = some ((a.apply (.close p rdi)).1, s') ∧
      s'.Sound p₀ mem₀ ∧ s'.Refines (a.apply (.close p rdi)).2 := by
  obtain ⟨v, hv⟩ := Option.isSome_iff_exists.mp hallowed
  have hformed := hs.fds.formed hv
  obtain ⟨handles, hhandles, hrel⟩ := h.table hv
  have hlength := hrel.length_eq
  rw [Programs.apply, hhandles]
  dsimp only
  rcases Nat.lt_or_ge rdi handles.length with hlt | hge
  · rw [if_pos hlt]
    cases hentry : (s.fds.view v).table[rdi]? with
    | none =>
        rw [List.getElem?_eq_none_iff] at hentry
        omega
    | some x =>
        cases x with
        | none =>
            have hret := hformed.syscallClose_none hentry
            have hsame : a.setTable p (handles.set rdi none) = a := by
              rw [set_of_getElem? ((hrel.none_iff rdi).mp hentry), Programs.setTable, ← hhandles,
                Function.update_eq_self]
            rw [hsame]
            refine ⟨s, ?_, hs, h⟩
            simp only [exec, hv, Option.bind_eq_bind, Option.bind_some, hret, Except.toOption,
              put_view hv]
            rfl
        | some fd =>
            rcases hformed.syscallClose_cases rdi with
              ⟨_, _, hnot⟩ | ⟨fd', t, hfd', hret, _, htable, hdescs⟩
            · exact absurd hentry (hnot fd)
            · obtain ⟨hsep, hkeep⟩ := hs.call (e := .syscallClose rdi) hv trivial hret
              have hlt' := (List.getElem?_eq_some_iff.mp hentry).1
              refine ⟨{ s with fds := s.fds.put p t }, ?_, ⟨hs.store, hsep⟩, ?_⟩
              · simp only [exec, hv, Option.bind_eq_bind, Option.bind_some, hret,
                  Except.toOption]
                rfl
              · rw [h.output]
                refine h.put h.store List.prefix_rfl List.prefix_rfl hkeep ?_
                refine hrel.update .none (by rw [htable, List.getElem?_set_self hlt'])
                  (List.getElem?_set_self hlt)
                  (fun i hi => by rw [htable, List.getElem?_set_ne hi.symm])
                  (fun i hi => List.getElem?_set_ne hi.symm) fun {i b hb} hi hbound hh => ?_
                have hne : b ≠ fd' := by
                  rintro rfl
                  exact hi (hformed.distinct hbound hfd')
                refine hh.mono ?_ List.prefix_rfl List.prefix_rfl
                rw [hdescs, Function.update_of_ne hne]
                rfl
  · rw [if_neg (Nat.not_lt.mpr hge)]
    have hret : (s.fds.view v).syscallClose rdi = .ok (minusOne, s.fds.view v) :=
      hformed.syscallClose_end (by omega)
    refine ⟨s, ?_, hs, h⟩
    simp only [exec, hv, Option.bind_eq_bind, Option.bind_some, hret, Except.toOption,
      put_view hv]
    rfl

theorem fork {q : Nat} {news : Nat → Nat} {tid : Option Nat} (hs : s.Sound p₀ mem₀) (h : s.Refines a)
    (hallowed : s.Allowed (.fork p q news tid)) :
    ∃ s', s.exec (.fork p q news tid) = some ((a.apply (.fork p q news tid)).1, s') ∧
      s'.Sound p₀ mem₀ ∧ s'.Refines (a.apply (.fork p q news tid)).2 := by
  obtain ⟨_, v, hv, hnew, hnull⟩ := hallowed
  obtain ⟨handles, hhandles, hrel⟩ := h.table hv
  obtain ⟨t, hret, hformed, hframe, htable, hcopied⟩ := hs.fds.fork_spec q none hv hnew (.inr hnull)
  obtain ⟨hsep, hkeep⟩ := hs.fds.put_new (p := q) hformed hframe
  have hsize : v.size = (s.fds.view v).table.length := (hs.fds.formed hv).holds.size_eq
  rw [Programs.apply, hhandles]
  refine ⟨{ s with fds := s.fds.put q t }, ?_, ⟨hs.store, hsep⟩, ?_⟩
  · simp only [exec, Option.mem_def.mp hv, Option.bind_eq_bind, Option.bind_some, hret,
      Except.toOption]
    rfl
  · rw [h.output]
    refine h.put h.store List.prefix_rfl List.prefix_rfl hkeep fun i => ?_
    have hi := hrel i
    rw [htable, List.getElem?_map]
    rcases Nat.lt_or_ge i v.size with hlt | hge
    · rw [List.getElem?_range' (by simpa using hlt)]
      simp only [Nat.zero_add, Nat.one_mul, Option.map_some]
      cases hentry : (s.fds.view v).table[i]? with
      | none =>
          rw [List.getElem?_eq_none_iff] at hentry
          omega
      | some x =>
          cases x with
          | none => exact absurd hentry (hnull i)
          | some fd =>
              rw [hentry] at hi
              generalize handles[i]? = y at *
              cases hi with
              | some hentries =>
                  cases hentries with
                  | some hh =>
                      obtain ⟨d, hd, hmode, hoffset, hstands⟩ := hh
                      refine .some (.some ⟨d, ?_, hmode, hoffset, hstands⟩)
                      exact (hcopied i fd hentry).trans hd
    · have hend : handles[i]? = none := by
        rw [List.getElem?_eq_none_iff, ← hrel.length_eq]
        omega
      rw [hend, List.getElem?_eq_none (by simpa using hge)]
      exact .none

theorem exit (hs : s.Sound p₀ mem₀) (h : s.Refines a) (hallowed : s.Allowed (.exit p)) :
    ∃ s', s.exec (.exit p) = some ((a.apply (.exit p)).1, s') ∧
      s'.Sound p₀ mem₀ ∧ s'.Refines (a.apply (.exit p)).2 := by
  obtain ⟨v, hv⟩ := Option.isSome_iff_exists.mp hallowed
  obtain ⟨t, hret, hformed, hframe⟩ := (hs.fds.formed hv).exit
  obtain ⟨hsep, hkeep⟩ := hs.fds.put (p := p) (fun hne hw => hs.fds.arrays hne.symm hv hw)
    (fun hne hw hi => hs.fds.descs hne.symm hv hw hi) hformed hframe
  refine ⟨{ s with fds := (s.fds.put p t).remove p }, ?_, ⟨hs.store, hsep.remove p⟩, ?_⟩
  · simp only [exec, hv, Option.bind_eq_bind, Option.bind_some, hret, Except.toOption]
    rfl
  · refine ⟨h.store, fun q => ?_, h.output⟩
    dsimp only [Programs.apply, FdSystem.remove]
    by_cases hq : q = p
    · rw [hq, Function.update_self, Function.update_self]
      exact .none
    · have hold := h.tables q
      have hlists : (s.fds.put p t).lists q = s.fds.lists q := Function.update_of_ne hq _ _
      rw [Function.update_of_ne hq, Function.update_of_ne hq, hlists]
      cases hw : s.fds.lists q with
      | none =>
          rw [hw] at hold
          generalize a.tables q = y at *
          cases hold
          exact .none
      | some w =>
          obtain ⟨_, hview, hdescs⟩ := hkeep q hq w hw
          obtain ⟨handles, hhandles, hrel⟩ := h.table hw
          rw [hhandles, Option.rel_some_some]
          rw [← hview] at hrel
          refine hrel.imp fun ha _ hh =>
            hh.mono (hdescs (hview ▸ ha)) List.prefix_rfl List.prefix_rfl

/-- `create_process` opens the terminal three times. -/
theorem create {stdin stdout stderr : Nat} (hs : s.Sound p₀ mem₀) (h : s.Refines a)
    (hallowed : s.Allowed (.create p stdin stdout stderr)) :
    ∃ s', s.exec (.create p stdin stdout stderr) =
        some ((a.apply (.create p stdin stdout stderr)).1, s') ∧
      s'.Sound p₀ mem₀ ∧ s'.Refines (a.apply (.create p stdin stdout stderr)).2 := by
  obtain ⟨_, hfresh⟩ := hallowed
  have hempty : (s.fds.view .new).WellFormed := FdState.wellFormed_new s.fds.arrays s.fds.descs
  obtain ⟨t, hret, htable, hnew, _⟩ := hempty.fill_some [(stdin, ⟨0, WRITE, 0⟩),
    (stdout, ⟨0, READ, 0⟩), (stderr, ⟨0, WRITE, 0⟩)] hfresh
  obtain ⟨t', hret', hformed, hframe⟩ := hempty.frame_fill hfresh
  obtain rfl : t = t' := Except.ok.inj (hret.symm.trans hret')
  obtain ⟨hsep, hkeep⟩ := hs.fds.put_new (p := p) hformed hframe
  refine ⟨{ s with fds := s.fds.put p t }, ?_, ⟨hs.store, hsep⟩, ?_⟩
  · rw [exec, hret']
    rfl
  · rw [Programs.apply, h.output]
    refine h.put h.store List.prefix_rfl List.prefix_rfl hkeep ?_
    rw [htable]
    refine TableRel.map (g := fun x : Nat × FileDescription => ⟨none, x.2.mode, x.2.offset⟩)
      fun x hx => ?_
    refine ⟨x.2, hnew x hx, rfl, rfl, ?_⟩
    simp only [List.mem_cons, List.not_mem_nil, or_false] at hx
    rcases hx with rfl | rfl | rfl
    all_goals rfl

/-! ## Opening -/

/-- No descriptor that `tmpfs` returned is forgotten. -/
theorem prefix_exec {t t' : FileStore} {op : FileOp} (h : t.exec op = some t') :
    t.handles <+: t'.handles := by
  cases op with
  | create dir ds b mode =>
      obtain ⟨r, _, hret⟩ := Option.bind_eq_some_iff.mp h
      obtain rfl := Option.some.inj hret
      exact List.prefix_append _ _
  | openFile dir ds b mode =>
      obtain ⟨r, _, hret⟩ := Option.bind_eq_some_iff.mp h
      obtain rfl := Option.some.inj hret
      exact List.prefix_append _ _
  | mkdir dir ds b =>
      obtain ⟨r, _, hret⟩ := Option.bind_eq_some_iff.mp h
      obtain rfl := Option.some.inj hret
      exact List.prefix_rfl
  | write i w =>
      obtain ⟨fd, _, h⟩ := Option.bind_eq_some_iff.mp h
      obtain ⟨r, _, hret⟩ := Option.bind_eq_some_iff.mp h
      obtain rfl := Option.some.inj hret
      exact List.prefix_rfl
  | alloc count =>
      obtain rfl := Option.some.inj h
      exact List.prefix_rfl
  | free b =>
      obtain ⟨f, _, hret⟩ := Option.bind_eq_some_iff.mp h
      obtain rfl := Option.some.inj hret
      exact List.prefix_rfl
  | poke b offset v =>
      obtain ⟨f, _, hret⟩ := Option.bind_eq_some_iff.mp h
      obtain rfl := Option.some.inj hret
      exact List.prefix_rfl

theorem handles_of_make {a a' : Store} {ds : List CStr} {b : CStr} {x : PathEntry}
    (h : a.make ds b x = some a') : a'.handles = a.handles := by
  unfold Store.make at h
  split at h
  · rw [← Option.some.inj h]
  · cases h

/-- What an open adds to the store's handles. -/
theorem handles_opening (a : Store) (ds : List CStr) (b : CStr) (mode : UInt16) :
    (a.apply (Store.opening ds b mode)).handles =
      a.handles ++ if a.finds ds b mode then [ds ++ [b]] else [] := by
  unfold Store.opening Store.finds
  by_cases hmode : mode &&& CREATE ≠ 0
  · rw [if_pos hmode, if_pos hmode, Store.apply]
    cases hmake : a.make ds b (.file fun _ => 0) with
    | none => exact (List.append_nil _).symm
    | some a' =>
        show a'.handles ++ [ds ++ [b]] = _
        rw [handles_of_make hmake]
        rfl
  · rw [if_neg hmode, if_neg hmode, Store.apply]
    cases a.entry (ds ++ [b]) with
    | none => exact (List.append_nil _).symm
    | some x =>
        cases x with
        | directory => exact (List.append_nil _).symm
        | file bytes => rfl

theorem prefix_apply (a : Store) (op : FileOp) : a.handles <+: (a.apply op).handles := by
  cases op with
  | create dir ds b mode =>
      rw [Store.apply]
      cases hmake : a.make ds b (.file fun _ => 0) with
      | none => exact List.prefix_rfl
      | some a' =>
          rw [← handles_of_make hmake]
          exact List.prefix_append _ _
  | openFile dir ds b mode =>
      rw [Store.apply]
      split
      · exact List.prefix_append _ _
      · exact List.prefix_rfl
  | mkdir dir ds b =>
      rw [Store.apply]
      cases hmake : a.make ds b .directory with
      | none => exact List.prefix_rfl
      | some a' => rw [← handles_of_make hmake, Option.getD_some]
  | write i w =>
      rw [Store.apply]
      repeat' split
      all_goals exact List.prefix_rfl
  | _ => exact List.prefix_rfl

/-- Work on the files alone. -/
theorem Refines.files (h : s.Refines a) (hstore : store'.Refines st')
    (hopened : s.store.handles <+: store'.handles) (hpaths : a.store.handles <+: st'.handles) :
    Refines { s with store := store' } { a with store := st' } := by
  refine ⟨hstore, fun q => ?_, h.output⟩
  have hold := h.tables q
  dsimp only
  cases hw : s.fds.lists q with
  | none =>
      rw [hw] at hold
      generalize a.tables q = y at *
      cases hold
      exact .none
  | some w =>
      obtain ⟨handles, hhandles, hrel⟩ := h.table hw
      rw [hhandles, Option.rel_some_some]
      exact hrel.imp fun _ _ hh => hh.mono rfl hopened hpaths

theorem kernel {op : FileOp} (hzero : p₀.bitmap.isBitSet 0 = true)
    (hreach : p₀.pages * PAGE_SIZE ≤ 2 ^ 47) (hs : s.Sound p₀ mem₀) (h : s.Refines a)
    (hallowed : s.Allowed (.kernel op)) :
    ∃ s', s.exec (.kernel op) = some ((a.apply (.kernel op)).1, s') ∧
      s'.Sound p₀ mem₀ ∧ s'.Refines (a.apply (.kernel op)).2 := by
  obtain ⟨store', hexec, hsound, hrefines⟩ := hs.store.step hzero hreach h.store hallowed
  refine ⟨{ s with store := store' }, ?_, ⟨hsound, hs.fds⟩,
    h.files hrefines (prefix_exec hexec) (prefix_apply a.store op)⟩
  rw [exec, hexec]
  rfl

end Calls

end Toystar.Fs

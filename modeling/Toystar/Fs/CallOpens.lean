import Toystar.Fs.CallSteps

/-!
# Opening a file or a device

Below `/dev` a path is looked up in `devfs`, which knows the terminal, any other path is
one of `tmpfs` and stays as it is.  What is found gets the first free descriptor.
-/

namespace Toystar.Fs

open Toystar.Kernel
open Toystar.Klibc
open Toystar.Memory
open Toystar.Verified

variable {ds : List CStr} {b : CStr} {fs : Tmpfs} {mode : UInt16}

/-! ## Where a path leads -/

theorem isComponent_devDir : CStr.IsComponent devDir := by decide

/-- Being below `/dev` is decided by the first component. -/
theorem below_devDir_iff (hcs : ∀ c ∈ ds ++ [b], CStr.IsComponent c) :
    Below CStr.slash (CStr.slash :: devDir) (CStr.joinPath (ds ++ [b])) ↔
      ds.head? = some devDir := by
  cases ds with
  | nil =>
      have hpath : CStr.joinPath ([] ++ [b]) = CStr.slash :: b := by
        rw [List.nil_append, CStr.joinPath_cons]
        exact congrArg _ (List.append_nil b)
      rw [hpath]
      refine iff_of_false ?_ (by simp)
      rintro ⟨rest, hrest⟩
      have hb : b = devDir ++ CStr.slash :: rest := List.cons_inj_right _ |>.mp hrest
      refine (hcs b (by simp)).2.1 ?_
      rw [hb]
      simp
  | cons d ds =>
      have hd := hcs d (by simp)
      rw [List.cons_append, CStr.joinPath_cons, List.head?_cons, Option.some.injEq]
      constructor
      · rintro ⟨rest, hrest⟩
        have hpath : d ++ CStr.joinPath (ds ++ [b]) = devDir ++ CStr.slash :: rest :=
          List.cons_inj_right _ |>.mp hrest
        rcases CStr.next_of_prefix isComponent_devDir hd (CStr.head_joinPath _)
            ⟨_, hpath.symm⟩ with heq | ⟨x, hx, hslash, _⟩
        · exact heq.symm
        · rw [hpath, List.getElem?_append_right (le_refl _), Nat.sub_self] at hx
          exact absurd (Option.some.inj hx).symm hslash
      · rintro rfl
        obtain ⟨c, cs, hne⟩ := List.exists_cons_of_ne_nil (l := ds ++ [b]) (by simp)
        rw [hne, CStr.joinPath_cons]
        exact ⟨_, rfl⟩

theorem nulFree_kernelVfs : NulFree (.node [CStr.slash] 0 [.node (CStr.slash :: devDir) 1 []]) :=
  .node (by decide) (List.forall_mem_singleton.mpr (.node (by decide) (by simp)))

/-- An absolute path, whatever the working directory. -/
theorem target_absolute (fs : Tmpfs) (hcs : ∀ c ∈ ds ++ [b], CStr.IsComponent c) :
    kernelVfs.target fs none (CStr.joinPath (ds ++ [b])) =
      .ok (if ds.head? = some devDir then ⟨1, none, CStr.joinPath (ds.tail ++ [b])⟩
        else ⟨0, none, CStr.joinPath (ds ++ [b])⟩) := by
  have hslash : (CStr.joinPath (ds ++ [b])).headD 0 = CStr.slash := by
    obtain ⟨c, cs, hne⟩ := List.exists_cons_of_ne_nil (l := ds ++ [b]) (by simp)
    rw [hne, CStr.joinPath_cons, List.headD_cons]
  unfold Vfs.target
  rw [if_neg (not_not_intro hslash)]
  unfold Vfs.getAbsolutePath kernelVfs
  dsimp only
  rw [Vfs.pathBelow_eq nulFree_kernelVfs, ok_bind]
  dsimp only [pure, Except.pure]
  rw [PathTree.lookup, PathTree.lookupList,
    show (PathTree.node (CStr.slash :: devDir) 1 [] : MountNode).name =
      CStr.slash :: devDir from rfl]
  by_cases hdev : ds.head? = some devDir
  · rw [if_pos (isBelow_iff.mpr ((below_devDir_iff hcs).mpr hdev)), if_pos hdev]
    obtain ⟨rest, rfl⟩ := List.head?_eq_some_iff.mp hdev
    rfl
  · rw [if_neg (fun h => hdev ((below_devDir_iff hcs).mp (isBelow_iff.mp h))), if_neg hdev]
    rfl

/-- `devfs` knows the terminal. -/
theorem openFile_kernelDevfs (hcs : ∀ c ∈ ds ++ [b], CStr.IsComponent c) (mode : UInt16) :
    kernelDevfs.openFile (CStr.joinPath (ds ++ [b])) mode =
      .ok (if ds = [] ∧ b = tty0 then some ⟨0, mode, 0⟩ else none) := by
  obtain ⟨c, cs, hne⟩ := List.exists_cons_of_ne_nil (l := ds ++ [b]) (by simp)
  have hfree : 0 ∉ c ++ CStr.joinPath cs := by
    have hjoin := CStr.zero_notMem_joinPath hcs
    rw [hne, CStr.joinPath_cons] at hjoin
    exact fun hzero => hjoin (List.mem_cons_of_mem _ hzero)
  have hname : c ++ CStr.joinPath cs = tty0 ↔ ds = [] ∧ b = tty0 := by
    cases ds with
    | nil =>
        obtain ⟨rfl, rfl⟩ := List.cons.inj hne
        show b ++ [] = tty0 ↔ _
        rw [List.append_nil]
        simp
    | cons d ds =>
        obtain ⟨rfl, rfl⟩ := List.cons.inj hne
        refine iff_of_false ?_ (by simp)
        obtain ⟨e, es, hrest⟩ := List.exists_cons_of_ne_nil (l := ds ++ [b]) (by simp)
        show ¬d ++ CStr.joinPath (ds ++ [b]) = tty0
        rw [hrest, CStr.joinPath_cons]
        intro heq
        have hslash : CStr.slash ∈ tty0 := by
          rw [← heq]
          simp
        exact absurd hslash (by decide)
  rw [hne, CStr.joinPath_cons]
  show (do return (← Devfs.findDevice (c ++ CStr.joinPath cs) [⟨0, tty0⟩]).map _) = _
  rw [Devfs.findDevice, CStr.strcmp_eq hfree (by decide), ok_bind]
  by_cases htty : c ++ CStr.joinPath cs = tty0
  · rw [if_pos (decide_eq_true htty), if_pos (hname.mp htty)]
    rfl
  · rw [if_neg (by simpa using htty), if_neg (fun h => htty (hname.mpr h))]
    rfl

namespace Calls

variable {p₀ : Pmm} {mem₀ : ByteMem} {s : Calls} {a : Programs} {p rsi fdAt : Nat}
  {v : ToysVector} {store' : FileStore} {st' : Store}

theorem exec_opening (t : FileStore) (ds : List CStr) (b : CStr) (mode : UInt16) :
    t.exec (Store.opening ds b mode) =
      (t.fs.openFile none (CStr.joinPath (ds ++ [b])) mode).toOption.bind fun r =>
        some { t with fs := r.2, handles := t.handles ++ r.1.toList } := by
  unfold Store.opening
  split
  all_goals rfl

/-- `Vfs::open` below `/dev`. -/
theorem vfsOpen_dev (fs : Tmpfs) (hcs : ∀ c ∈ ds ++ [b], CStr.IsComponent c)
    (hdev : ds.head? = some devDir) (mode : UInt16) :
    vfsOpen fs (CStr.joinPath (ds ++ [b])) mode =
      .ok (if ds = [devDir] ∧ b = tty0 then some ⟨0, mode, 0⟩ else none, fs) := by
  obtain ⟨rest, rfl⟩ := List.head?_eq_some_iff.mp hdev
  have hrest : ∀ c ∈ rest ++ [b], CStr.IsComponent c := fun c hc =>
    hcs c (List.mem_cons_of_mem _ hc)
  unfold vfsOpen
  rw [target_absolute fs hcs, if_pos hdev, ok_bind, if_neg Nat.one_ne_zero, List.tail_cons,
    openFile_kernelDevfs hrest, ok_bind]
  simp only [List.cons_eq_cons, true_and]
  rfl

/-- `Vfs::open` of any other absolute path. -/
theorem vfsOpen_tmpfs {r : Option FileDescription × Tmpfs}
    (hcs : ∀ c ∈ ds ++ [b], CStr.IsComponent c) (hdev : ds.head? ≠ some devDir)
    (hret : fs.openFile none (CStr.joinPath (ds ++ [b])) mode = .ok r) :
    vfsOpen fs (CStr.joinPath (ds ++ [b])) mode =
      .ok (r.1.map fun d => { d with file := d.file + 1 }, r.2) := by
  unfold vfsOpen
  rw [target_absolute fs hcs, if_neg hdev, ok_bind, if_pos rfl, hret]
  rfl

/-- What an open adds to both lists of what was opened. -/
theorem opened_eq {r : Option FileDescription} (hrel : s.store.Refines a.store)
    (hrefines : store'.Refines (a.store.apply (Store.opening ds b mode)))
    (hhandles : store'.handles = s.store.handles ++ r.toList) :
    r.isSome = a.store.finds ds b mode := by
  have hold := hrel.handles.length_eq
  have hnew := hrefines.handles.length_eq
  rw [hhandles, handles_opening, List.length_append, List.length_append, hold] at hnew
  cases r with
  | none =>
      cases hfinds : a.store.finds ds b mode with
      | false => rfl
      | true => simp [hfinds] at hnew
  | some d =>
      cases hfinds : a.store.finds ds b mode with
      | false => simp [hfinds] at hnew
      | true => rfl

/-- The new descriptor of a process. -/
theorem Refines.bindFirst {file : Nat} {path : Option (List CStr)} (hs : s.Sound p₀ mem₀)
    (h : s.Refines a) (hv : s.fds.lists p = some v) (hfresh : s.fds.descs fdAt = none)
    (hstore : store'.Refines st') (hopened : s.store.handles <+: store'.handles)
    (hpaths : a.store.handles <+: st'.handles)
    (hstands : Stands store'.handles st'.handles file path) :
    ∃ handles rax t, a.tables p = some handles ∧
      (s.fds.view v).syscallOpen rsi (some (fdAt, file)) = .ok (rax, t) ∧
      rax = (Programs.bindFirst handles ⟨path, UInt16.ofNat rsi, 0⟩).1 ∧
      (s.fds.put p t).Separate ∧
      Refines ⟨store', s.fds.put p t, s.output⟩ (({ a with store := st' } : Programs).setTable p
        (Programs.bindFirst handles ⟨path, UInt16.ofNat rsi, 0⟩).2) := by
  have hformed := hs.fds.formed hv
  obtain ⟨handles, hhandles, hrel⟩ := h.table hv
  obtain ⟨k, t, hret, hfirst, _, hbound, hdescs, hothers⟩ := hformed.syscallOpen rsi file hfresh
  obtain ⟨hsep, hkeep⟩ :=
    hs.call (e := .syscallOpen rsi (some (fdAt, file))) hv hfresh hret
  obtain ⟨hnew, hkept⟩ := Programs.getElem?_bindFirst handles ⟨path, UInt16.ofNat rsi, 0⟩
  have hk : k = (Programs.bindFirst handles ⟨path, UInt16.ofNat rsi, 0⟩).1 :=
    hrel.first_eq hfirst
  refine ⟨handles, k, t, hhandles, hret, hk, hsep, ?_⟩
  rw [h.output]
  refine h.put hstore hopened hpaths hkeep ?_
  rw [← hk] at hnew hkept
  refine hrel.update (.some ?_) hbound hnew hothers hkept fun {i c hd} _ hc hh => ?_
  · exact ⟨_, by rw [hdescs, Function.update_self], rfl, rfl, hstands⟩
  · have hne : c ≠ fdAt := by
      rintro rfl
      exact hformed.not_bound_of_fresh hfresh hc
    refine hh.mono ?_ hopened hpaths
    rw [hdescs, Function.update_of_ne hne]
    rfl

/-- An open that finds something. -/
theorem open_found {d : FileDescription} {file : Option (List CStr)} (hs : s.Sound p₀ mem₀)
    (h : s.Refines a) (hv : s.fds.lists p = some v) (hfresh : s.fds.descs fdAt = none)
    (hret : vfsOpen s.store.fs (CStr.joinPath (ds ++ [b])) (UInt16.ofNat rsi) =
      .ok (some d, fs))
    (hfind : a.find ds b (UInt16.ofNat rsi) = (some file, st'))
    (hstore' : { s.store with fs, handles := s.store.handles ++ tmpfsHandle (some d) } = store')
    (hsound : store'.Sound p₀ mem₀) (hstore : store'.Refines st')
    (hpaths : a.store.handles <+: st'.handles)
    (hstands : Stands store'.handles st'.handles d.file file) :
    ∃ s', s.exec (.openFile p ds b rsi fdAt) =
        some ((a.apply (.openFile p ds b rsi fdAt)).1, s') ∧
      s'.Sound p₀ mem₀ ∧ s'.Refines (a.apply (.openFile p ds b rsi fdAt)).2 := by
  have hopened : s.store.handles <+: store'.handles := by
    rw [← hstore']
    exact List.prefix_append _ _
  obtain ⟨handles, rax, t, hhandles, hcall, hrax, hsep, hrefines⟩ :=
    h.bindFirst hs hv hfresh hstore hopened hpaths hstands
  rw [Programs.apply, hfind, hhandles]
  refine ⟨⟨store', s.fds.put p t, s.output⟩, ?_, ⟨hsound, hsep⟩, hrefines⟩
  simp only [exec, hv, hret, Except.toOption, Option.bind_eq_bind, Option.bind_some,
    Option.map_some, hcall, hstore', hrax]
  rfl

/-- An open that finds nothing. -/
theorem open_missing (hs : s.Sound p₀ mem₀) (h : s.Refines a) (hv : s.fds.lists p = some v)
    (hret : vfsOpen s.store.fs (CStr.joinPath (ds ++ [b])) (UInt16.ofNat rsi) = .ok (none, fs))
    (hfind : a.find ds b (UInt16.ofNat rsi) = (none, st'))
    (hstore' : { s.store with fs } = store') (hsound : store'.Sound p₀ mem₀)
    (hstore : store'.Refines st') (hpaths : a.store.handles <+: st'.handles) :
    ∃ s', s.exec (.openFile p ds b rsi fdAt) =
        some ((a.apply (.openFile p ds b rsi fdAt)).1, s') ∧
      s'.Sound p₀ mem₀ ∧ s'.Refines (a.apply (.openFile p ds b rsi fdAt)).2 := by
  have hopened : s.store.handles <+: store'.handles := by rw [← hstore']
  have hsame : { s.store with fs, handles := s.store.handles ++ tmpfsHandle none } = store' := by
    rw [← hstore']
    exact congrArg (FileStore.mk fs · s.store.buffers) (List.append_nil _)
  rw [Programs.apply, hfind]
  refine ⟨{ s with store := store' }, ?_, ⟨hsound, hs.fds⟩, h.files hstore hopened hpaths⟩
  simp only [exec, hv, hret, Except.toOption, Option.bind_eq_bind, Option.bind_some,
    Option.map_none, FdState.syscallOpen, put_view hv, hsame]
  rfl

theorem openFile (hzero : p₀.bitmap.isBitSet 0 = true)
    (hreach : p₀.pages * PAGE_SIZE ≤ 2 ^ 47) (hs : s.Sound p₀ mem₀) (h : s.Refines a)
    (hallowed : s.Allowed (.openFile p ds b rsi fdAt)) :
    ∃ s', s.exec (.openFile p ds b rsi fdAt) =
        some ((a.apply (.openFile p ds b rsi fdAt)).1, s') ∧
      s'.Sound p₀ mem₀ ∧ s'.Refines (a.apply (.openFile p ds b rsi fdAt)).2 := by
  obtain ⟨hsome, hfresh, hcs, hlegal⟩ := hallowed
  obtain ⟨v, hv⟩ := Option.isSome_iff_exists.mp hsome
  by_cases hdev : ds.head? = some devDir
  · have hret := vfsOpen_dev s.store.fs hcs hdev (UInt16.ofNat rsi)
    have hfind : a.find ds b (UInt16.ofNat rsi) =
        (if ds = [devDir] ∧ b = tty0 then some none else none, a.store) := by
      rw [Programs.find, if_pos hdev]
    by_cases htty : ds = [devDir] ∧ b = tty0
    · rw [if_pos htty] at hret hfind
      refine open_found hs h hv hfresh hret hfind ?_ hs.store h.store List.prefix_rfl rfl
      exact congrArg (FileStore.mk s.store.fs · s.store.buffers) (List.append_nil _)
    · rw [if_neg htty] at hret hfind
      exact open_missing hs h hv hret hfind rfl hs.store h.store List.prefix_rfl
  · obtain ⟨store', hexec, hsound, hrefines⟩ :=
      hs.store.step hzero hreach h.store (hlegal hdev)
    rw [exec_opening] at hexec
    obtain ⟨r, hr, hstore'⟩ := Option.bind_eq_some_iff.mp hexec
    have hopen := (guard_toOption.mp ((if_pos trivial).trans hr)).2
    have hstored := Option.some.inj hstore'
    have hret := vfsOpen_tmpfs hcs hdev hopen
    have hfinds := opened_eq h.store hrefines (congrArg FileStore.handles hstored).symm
    have hfind : a.find ds b (UInt16.ofNat rsi) =
        (if a.store.finds ds b (UInt16.ofNat rsi) then some (some (ds ++ [b])) else none,
          a.store.apply (Store.opening ds b (UInt16.ofNat rsi))) := by
      rw [Programs.find, if_neg hdev]
    obtain ⟨found, fs⟩ := r
    have hpaths := prefix_apply a.store (Store.opening ds b (UInt16.ofNat rsi))
    cases found with
    | none =>
        rw [← hfinds] at hfind
        refine open_missing hs h hv hret hfind ?_ hsound hrefines hpaths
        rw [← hstored]
        exact (congrArg (FileStore.mk fs · s.store.buffers) (List.append_nil _)).symm
    | some d =>
        rw [← hfinds] at hfind
        refine open_found hs h hv hfresh hret hfind hstored hsound hrefines hpaths ?_
        refine ⟨s.store.handles.length, d, ?_, ?_, rfl⟩
        · rw [← hstored]
          exact List.getElem?_concat_length
        · rw [handles_opening, ← hfinds, h.store.handles.length_eq]
          exact List.getElem?_concat_length

end Calls

end Toystar.Fs

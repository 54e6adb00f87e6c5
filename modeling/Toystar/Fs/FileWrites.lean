import Toystar.Fs.FileSound

/-!
# Writes to a store of files

A `write` inside the first page is a copy into the data of the file.  Any other moves
the file to new frames and frees one of the old ones; the rest of what was written is
there, and `read` never gets at it.  Either way the file is what `WriteCall.store` says
and no other entry changes (`Sound.write`).
-/

namespace Toystar.Fs

open Toystar.Kernel
open Toystar.Klibc
open Toystar.Memory
open Toystar.Verified

variable {p₀ pmm : Pmm} {mem mem₀ : ByteMem} {live : List Frames} {w : WriteCall}
  {d k bound : Nat}

/-! ## Copies -/

theorem WriteCall.update_of_le {pos : Nat} (h : w.stop ≤ pos) (old : UInt8) :
    w.update pos old = old := by
  unfold WriteCall.update
  rw [if_neg (by omega)]

/-- A copy into a buffer that is long enough. -/
theorem Tmpfs.copyIn_data (hd : d + bound ≤ 2 ^ 64) (hw : w.stop ≤ bound) (x : Nat) :
    copyIn mem ((d + w.offset) % 2 ^ 64) w.buffer w.size x =
      if d ≤ x then w.update (x - d) (mem x) else mem x := by
  have hcopy : ((d + w.offset) % 2 ^ 64 ≤ x ∧ x < (d + w.offset) % 2 ^ 64 + w.size) ↔
      d ≤ x ∧ w.offset ≤ x - d ∧ x - d < w.stop := by
    unfold WriteCall.stop at *
    rcases Nat.eq_zero_or_pos w.size with hsize | hsize
    · omega
    · rw [Nat.mod_eq_of_lt (by omega)]
      omega
  unfold copyIn WriteCall.update
  by_cases hx : d ≤ x
  · rw [if_pos hx]
    by_cases hin : w.offset ≤ x - d ∧ x - d < w.stop
    · rw [if_pos hin, if_pos (hcopy.mpr ⟨hx, hin⟩)]
      congr 1
      have := hcopy.mpr ⟨hx, hin⟩
      unfold WriteCall.stop at *
      rw [Nat.mod_eq_of_lt (by omega)]
      omega
    · rw [if_neg hin, if_neg fun h => hin (hcopy.mp h).2]
  · rw [if_neg hx, if_neg fun h => hx (hcopy.mp h).1]

theorem Tmpfs.changedIn_copyIn (hdvd : PAGE_SIZE ∣ d) (hd : d + k * PAGE_SIZE ≤ 2 ^ 64)
    (hw : w.stop ≤ k * PAGE_SIZE) (mem : ByteMem) :
    ChangedIn [⟨d, k⟩] mem (copyIn mem ((d + w.offset) % 2 ^ 64) w.buffer w.size) := by
  refine ChangedIn.of_range hdvd fun x hx => ?_
  dsimp only at hx
  rw [copyIn_data hd hw]
  by_cases hlo : d ≤ x
  · rw [if_pos hlo, WriteCall.update_of_le (by omega)]
  · rw [if_neg hlo]

/-! ## Frames -/

/-- A number of pages that did not overflow. -/
theorem le_divCeil {size : Nat} (hsize : size < 2 ^ 64) (hpos : 0 < divCeil size PAGE_SIZE) :
    size ≤ divCeil size PAGE_SIZE * PAGE_SIZE := by
  unfold divCeil PAGE_SIZE at *
  omega

/-- No other path has the same node. -/
theorem Tmpfs.Loading.lookup_inj {s : Tmpfs} {path path' : List CStr} {m : Nat}
    (h : s.Loading) (hpath : s.lookup path = some m) (hpath' : s.lookup path' = some m) :
    path' = path :=
  h.linked.isTree.walk_unique h.rooted.top (lookup_eq_some.mp hpath')
    (lookup_eq_some.mp hpath)

theorem Tmpfs.dataFrames_written {s s' : Tmpfs} {m data' : Nat} {n : TmpfsNode}
    (pages : Nat → Nat) (k : Nat) (hn' : s'.nodes[m]? = some { n with data := some data' })
    (hlength : s'.nodes.length = s.nodes.length)
    (hother : ∀ i, i ≠ m → s'.nodes[i]? = s.nodes[i]?) :
    (s'.dataFrames (Function.update pages m k)).Perm
      (⟨data', k⟩ :: s.otherFrames pages m) := by
  have hperm : (s'.dataFrames (Function.update pages m k)).Perm
      (⟨data', Function.update pages m k m⟩ :: s'.otherFrames (Function.update pages m k) m) :=
    dataFrames_perm hn' rfl
  rw [Function.update_self] at hperm
  rwa [otherFrames_congr hlength fun i hi => ?_] at hperm
  unfold dataAt
  rw [hother i hi, Function.update_of_ne hi]

/-- The first page is what it was, with the bytes written. -/
theorem Tmpfs.contents_written {s s' : Tmpfs} {m data data' : Nat} {n : TmpfsNode}
    (hn : s.nodes[m]? = some n) (hdata : n.data = some data)
    (hn' : s'.nodes[m]? = some { n with data := some data' })
    (hmem : ∀ pos < 4096, s'.mem (data' + pos) = w.update pos (s.mem (data + pos))) :
    s'.contents m = w.store (s.contents m) := by
  funext pos
  unfold contents WriteCall.store
  simp only [hn, hn', hdata, Option.bind_some, Option.getD_some]
  by_cases hlt : pos < 4096
  · rw [if_pos hlt, if_pos hlt, if_pos hlt]
    exact hmem pos hlt
  · rw [if_neg hlt, if_neg hlt]

/-- A descriptor and the file of its path. -/
theorem FileStore.Refines.handle {t : FileStore} {a : Store} {i : Nat} (ha : t.Refines a)
    {fd : FileDescription} (hfd : t.handles[i]? = some fd) :
    ∃ path m n, a.handles[i]? = some path ∧ t.fs.lookup path = some m ∧
      t.fs.nodes[m]? = some n ∧ t.fs.typeOf m = some .file ∧ n.file = fd.file ∧
      a.entry path = some (.file (t.fs.contents m)) := by
  obtain ⟨hi, rfl⟩ := List.getElem?_eq_some_iff.mp hfd
  have hi' : i < a.handles.length := ha.handles.length_eq ▸ hi
  obtain ⟨m, hm, htype, hown⟩ := ha.handles.get hi hi'
  obtain ⟨n, hn⟩ := Tmpfs.node_of_typeOf htype
  rw [hn, Option.bind_some] at hown
  refine ⟨_, m, n, List.getElem?_eq_getElem hi', hm, hn, htype, Option.some.inj hown, ?_⟩
  rw [← ha.entry]
  exact (Tmpfs.entry_eq hm).trans (Tmpfs.entryAt_file htype)

namespace FileStore.Sound

variable {t : FileStore} {a : Store} {m data data' : Nat} {n : TmpfsNode} {path : List CStr}
  {pages : Nat → Nat} {left : List Frames} {s' : Tmpfs}

/-! ## The file that is written -/

theorem kind_written (h : t.Sound p₀ mem₀) (hn : t.fs.nodes[m]? = some n)
    (htype : t.fs.typeOf m = some .file) (hs : t.fs.SameLinks s')
    (hn' : s'.nodes[m]? = some { n with data := some data' })
    (hother : ∀ i, i ≠ m → s'.nodes[i]? = t.fs.nodes[i]?) (hdvd : PAGE_SIZE ∣ data')
    {i : Nat} {n' : TmpfsNode} (hi : s'.nodes[i]? = some n') :
    (s'.typeOf i = some .directory ∧ n'.data = none) ∨
      (s'.typeOf i = some .file ∧ ∃ d, s'.IsFile n'.file i d ∧ PAGE_SIZE ∣ d) := by
  rw [hs.typeOf]
  by_cases him : i = m
  · subst him
    have heq := Option.some.inj (hi.symm.trans hn')
    obtain ⟨d, hisFile, _⟩ := h.isFile hn htype
    have hfile := hisFile.file_eq
    rw [← hs.files] at hfile
    refine .inr ⟨htype, data', ?_, hdvd⟩
    rw [heq]
    exact ⟨hfile, _, hn', rfl, rfl⟩
  · have hold := (hother i him).symm.trans hi
    rcases h.kind hold with hdir | ⟨hfile, d, hisFile, hd⟩
    · exact .inl hdir
    · have hfiles := hisFile.file_eq
      rw [← hs.files] at hfiles
      exact .inr ⟨hfile, d, ⟨hfiles, n', hi, rfl, hisFile.data_eq hold⟩, hd⟩

/-- A file with other data, which nobody else has. -/
theorem written (h : t.Sound p₀ mem₀) (ha : t.Refines a) (hm : t.fs.lookup path = some m)
    (hn : t.fs.nodes[m]? = some n) (htype : t.fs.typeOf m = some .file)
    (hs : t.fs.SameLinks s') (hn' : s'.nodes[m]? = some { n with data := some data' })
    (hother : ∀ i, i ≠ m → s'.nodes[i]? = t.fs.nodes[i]?) (hdvd : PAGE_SIZE ∣ data')
    (hk : 0 < k) (hpos : ∀ i, 0 < pages i)
    (htracks : Tracks p₀ ⟨s'.pmm, s'.mem,
      [⟨data', k⟩] ++ (t.buffers ++ t.fs.otherFrames pages m ++ left)⟩)
    (hchange : ChangedIn [⟨data', k⟩] t.fs.mem s'.mem)
    (hcontents : s'.contents m = w.store (t.fs.contents m)) :
    let t' := { t with fs := s' }
    t'.Sound p₀ mem₀ ∧ t'.Refines { a with
      entry := Function.update a.entry path (some (.file (w.store (t.fs.contents m)))) } := by
  obtain ⟨hloading, hcomponent, hform⟩ := h.sameLinks hs
  have hothers : ∀ i, i ≠ m → s'.entryAt i = t.fs.entryAt i := by
    intro i hi
    unfold Tmpfs.entryAt
    rw [hs.typeOf]
    cases hfile : t.fs.typeOf i with
    | none => rfl
    | some type =>
        cases type with
        | file =>
            obtain ⟨n', hni⟩ := Tmpfs.node_of_typeOf hfile
            obtain ⟨d, hisFile, hd⟩ := h.isFile hni hfile
            have hdata := hisFile.data_eq hni
            have hsame : s'.contents i = t.fs.contents i := by
              refine contents_eq htracks hchange hni hdata hd ?_ (hpos i) ?_
              · rw [hother i hi, hni, Option.bind_some, hdata]
              · exact List.mem_append_left _ (List.mem_append_right _
                  (Tmpfs.mem_otherFrames hni hdata hi))
            dsimp only
            rw [hsame]
        | _ => rfl
  have hself : s'.entryAt m = some (.file (w.store (t.fs.contents m))) := by
    rw [Tmpfs.entryAt_file (hs.typeOf ▸ htype), hcontents]
  refine ⟨?_, ?_, ?_, ?_⟩
  · refine
      { loading := hloading
        component := hcomponent
        form := hform
        kind := h.kind_written hn htype hs hn' hother hdvd
        tracks := ⟨Function.update pages m k, left, fun i => ?_, ?_⟩
        pages := h.pages
        boot := fun x hx => (htracks.boot_eq hchange hx).trans (h.boot x hx) }
    · by_cases hi : i = m
      · rw [hi, Function.update_self]
        exact hk
      · rw [Function.update_of_ne hi]
        exact hpos i
    · refine htracks.congr rfl ?_
      rw [List.append_assoc, List.append_assoc t.buffers]
      have hdata := Tmpfs.dataFrames_written pages k hn' hs.length hother
      exact (((hdata.append_right left).append_left t.buffers).trans List.perm_middle).symm
  · funext path'
    dsimp only
    by_cases hpath : path' = path
    · rw [hpath, Function.update_self, Tmpfs.entry, hs.lookup, hm, Option.bind_some, hself]
    · rw [Function.update_of_ne hpath, ← ha.entry, Tmpfs.entry, Tmpfs.entry, hs.lookup]
      cases hi : t.fs.lookup path' with
      | none => rfl
      | some i =>
          refine hothers i fun him => hpath ?_
          exact h.loading.lookup_inj hm (him ▸ hi)
  · dsimp only
    rw [hs.describes]
    exact ha.handles
  · rw [← ha.buffers]
    apply List.map_congr_left
    intro g hg
    exact Frames.bytes_congr (h.pages g hg).1 fun x hx =>
      htracks.mem_eq hchange (List.mem_append_left _ (List.mem_append_left _ hg)) hx

/-! ## `write` -/

/-- The frames of a file and of everything else. -/
theorem frames_perm (left : List Frames) (hn : t.fs.nodes[m]? = some n)
    (hdata : n.data = some data) : (t.buffers ++ t.fs.dataFrames pages ++ left).Perm
      (⟨data, pages m⟩ :: (t.buffers ++ t.fs.otherFrames pages m ++ left)) := by
  rw [List.append_assoc, List.append_assoc t.buffers]
  have hperm : (t.fs.dataFrames pages).Perm (⟨data, pages m⟩ :: t.fs.otherFrames pages m) :=
    Tmpfs.dataFrames_perm hn hdata
  exact ((hperm.append_right left).append_left t.buffers).trans List.perm_middle

/-- A `write` inside the first page. -/
theorem write_of_le (hreach : p₀.pages * PAGE_SIZE ≤ 2 ^ 47)
    (h : t.Sound p₀ mem₀) (ha : t.Refines a)
    (hm : t.fs.lookup path = some m) (hn : t.fs.nodes[m]? = some n)
    (htype : t.fs.typeOf m = some .file) (hle : w.stop ≤ 4096) :
    ∃ s', t.fs.write n.file w.offset w.size w.buffer = .ok (0, s') ∧
      { t with fs := s' }.Sound p₀ mem₀ ∧ { t with fs := s' }.Refines { a with
        entry := Function.update a.entry path (some (.file (w.store (t.fs.contents m)))) } := by
  obtain ⟨data, hisFile, hdvd⟩ := h.isFile hn htype
  have hdata := hisFile.data_eq hn
  obtain ⟨pages, left, hpos, htracks⟩ := h.tracks
  have hmem : (⟨data, pages m⟩ : Frames) ∈ t.fs.dataFrames pages :=
    Tmpfs.mem_dataFrames hn hdata
  have hend : data + pages m * PAGE_SIZE ≤ p₀.pages * PAGE_SIZE :=
    htracks.end_le (List.mem_append_left _ (List.mem_append_right _ hmem)) hdvd
  have hone := hpos m
  have hpage : 4096 ≤ pages m * PAGE_SIZE := by
    unfold PAGE_SIZE
    omega
  refine ⟨_, hisFile.write_of_le hle, ?_⟩
  have hn' : t.fs.nodes[m]? = some { n with data := some data } := by rw [hn, ← hdata]
  refine h.written ha hm hn htype ⟨rfl, rfl, rfl⟩ hn' (fun _ _ => rfl) hdvd (hpos m) hpos
    (htracks.congr rfl (frames_perm left hn hdata)) ?_ ?_
  · exact Tmpfs.changedIn_copyIn hdvd (by omega) (hle.trans hpage) t.fs.mem
  · exact Tmpfs.contents_written hn hdata hn' fun pos _ => Tmpfs.copyIn_apply (by omega) hle pos

/-- The frames after a move: the first of the old ones is free, the others are nobody's. -/
theorem tracks_moved {pmm' : Pmm} (mem' : ByteMem)
    (hlive : Tracks p₀ ⟨pmm, mem, [⟨data', k⟩] ++ (t.buffers ++ t.fs.dataFrames pages ++ left)⟩)
    (hn : t.fs.nodes[m]? = some n) (hdata : n.data = some data) (hpos : 0 < pages m)
    (hpmm : pmm' = pmm.free data 1) :
    ∃ left', Tracks p₀ ⟨pmm', mem',
      [⟨data', k⟩] ++ (t.buffers ++ t.fs.otherFrames pages m ++ left')⟩ := by
  obtain ⟨q, hq⟩ := Nat.exists_eq_add_of_lt hpos
  rw [Nat.zero_add] at hq
  have hperm : (t.buffers ++ t.fs.dataFrames pages ++ left).Perm
      (⟨data, pages m⟩ :: (t.buffers ++ t.fs.otherFrames pages m ++ left)) :=
    frames_perm left hn hdata
  rw [hq] at hperm
  have hfile : Tracks p₀ ⟨pmm, mem, ⟨data, q + 1⟩ ::
      ([⟨data', k⟩] ++ (t.buffers ++ t.fs.otherFrames pages m ++ left))⟩ :=
    hlive.congr rfl ((hperm.append_left _).trans List.perm_middle)
  refine ⟨⟨data + PAGE_SIZE, q⟩ :: left, (hfile.split.frees [⟨data, 1⟩]).congr hpmm ?_⟩
  rw [List.perm_iff_count]
  intro g
  simp only [List.count_append, List.count_cons]
  omega

/-- Any other moves the file. -/
theorem write_of_gt (hzero : p₀.bitmap.isBitSet 0 = true)
    (hreach : p₀.pages * PAGE_SIZE ≤ 2 ^ 47) (h : t.Sound p₀ mem₀) (ha : t.Refines a)
    (hm : t.fs.lookup path = some m) (hn : t.fs.nodes[m]? = some n)
    (htype : t.fs.typeOf m = some .file) (hgt : 4096 < w.stop) (hlt : w.stop < 2 ^ 64)
    (hserved : t.Served (divCeil w.stop PAGE_SIZE)) :
    ∃ s', t.fs.write n.file w.offset w.size w.buffer = .ok (0, s') ∧
      { t with fs := s' }.Sound p₀ mem₀ ∧ { t with fs := s' }.Refines { a with
        entry := Function.update a.entry path (some (.file (w.store (t.fs.contents m)))) } := by
  obtain ⟨data, hisFile, hdvd⟩ := h.isFile hn htype
  have hdata := hisFile.data_eq hn
  obtain ⟨f, hobjects, rfl, hsize⟩ := hisFile.objects hn
  obtain ⟨pages, left, hpos, htracks⟩ := h.tracks
  have hmem : (⟨data, pages f.deviceNode⟩ : Frames) ∈ t.buffers ++ t.fs.dataFrames pages ++ left :=
    List.mem_append_left _ (List.mem_append_right _ (Tmpfs.mem_dataFrames hn hdata))
  have halloc := htracks.alloc_bytes hzero hserved
  rcases hret : t.fs.pmm.alloc t.fs.mem (divCeil w.stop PAGE_SIZE) with ⟨data', pmm', mem'⟩
  rw [hret] at halloc
  obtain ⟨hlive, hchange, hdvd', hcount, _⟩ := halloc
  dsimp only at hlive hchange hdvd'
  have hwords := le_divCeil hlt hcount
  generalize hk : divCeil w.stop PAGE_SIZE = k at *
  have hend : data' + k * PAGE_SIZE ≤ p₀.pages * PAGE_SIZE :=
    hlive.end_le List.mem_cons_self hdvd'
  have hapart := (hlive.apart_of_mem List.mem_cons_self hmem).range hdvd' hdvd hcount (hpos _)
  dsimp only at hapart
  have hnonnull : (data' + PHYSICAL_BASE_ADDRESS) % 2 ^ 64 ≠ 0 := by
    unfold PHYSICAL_BASE_ADDRESS
    unfold PAGE_SIZE at *
    omega
  have hmod : (w.offset + w.size) % 2 ^ 64 = w.stop := Nat.mod_eq_of_lt hlt
  have hwrite : t.fs.write n.file w.offset w.size w.buffer = .ok (0, _) :=
    hobjects.write_of_gt (by rw [hmod, hsize]; exact hgt) (by rw [hmod, hk]; exact hret) hnonnull
  have hs := Tmpfs.sameLinks_of_write hwrite
  have hone : divCeil f.size PAGE_SIZE = 1 := by
    rw [hsize]
    decide
  have hbound : data' + k * PAGE_SIZE ≤ 2 ^ 64 := by omega
  have hfirst := hpos f.deviceNode
  have hmemcpy : ∀ x, (t.fs.moved f n data data' pmm' mem').mem x =
      if data' ≤ x ∧ x < data' + 4096 then mem' (data + (x - data')) else mem' x := by
    intro x
    unfold Tmpfs.moved
    rw [hsize]
    refine memcpy_apply ?_
    unfold PAGE_SIZE at hapart
    omega
  obtain ⟨left', htracks'⟩ := tracks_moved mem' hlive hn hdata (hpos _)
    (congrArg (pmm'.free data) hone)
  refine ⟨_, hwrite, h.written ha hm hn htype hs (List.getElem?_set_self hobjects.lt)
    (fun i hi => List.getElem?_set_ne hi.symm) hdvd' hcount hpos
    (htracks'.congr rfl (.refl _)) ?_ ?_⟩
  · refine (hchange.trans ?_).trans (Tmpfs.changedIn_copyIn hdvd' hbound hwords _)
    refine ChangedIn.of_range hdvd' fun x hx => ?_
    dsimp only at hx
    rw [hmemcpy, if_neg (by unfold PAGE_SIZE at hx; omega)]
  · refine Tmpfs.contents_written hn hdata (List.getElem?_set_self hobjects.lt) fun pos hpage => ?_
    show Tmpfs.copyIn _ _ _ _ (data' + pos) = _
    rw [Tmpfs.copyIn_data hbound hwords, if_pos (Nat.le_add_right _ _), Nat.add_sub_cancel_left,
      hmemcpy, if_pos (by omega), Nat.add_sub_cancel_left]
    have hhas : Frames.Has ⟨data, pages f.deviceNode⟩ ((data + pos) / PAGE_SIZE) := by
      refine Frames.has_offset hdvd ?_
      show pos < pages f.deviceNode * PAGE_SIZE
      unfold PAGE_SIZE
      omega
    rw [hlive.mem_eq hchange hmem hhas]

/-- A `write` with any offset and size. -/
theorem write_file (hzero : p₀.bitmap.isBitSet 0 = true)
    (hreach : p₀.pages * PAGE_SIZE ≤ 2 ^ 47) (h : t.Sound p₀ mem₀) (ha : t.Refines a)
    (hm : t.fs.lookup path = some m) (hn : t.fs.nodes[m]? = some n)
    (htype : t.fs.typeOf m = some .file) (hlt : w.stop < 2 ^ 64)
    (hserved : 4096 < w.stop → t.Served (divCeil w.stop PAGE_SIZE)) :
    ∃ s', t.fs.write n.file w.offset w.size w.buffer = .ok (0, s') ∧
      { t with fs := s' }.Sound p₀ mem₀ ∧ { t with fs := s' }.Refines { a with
        entry := Function.update a.entry path (some (.file (w.store (t.fs.contents m)))) } := by
  by_cases hle : w.stop ≤ 4096
  · exact h.write_of_le hreach ha hm hn htype hle
  · have hgt := Nat.lt_of_not_le hle
    exact h.write_of_gt hzero hreach ha hm hn htype hgt hlt (hserved hgt)

theorem write {i : Nat} (hzero : p₀.bitmap.isBitSet 0 = true)
    (hreach : p₀.pages * PAGE_SIZE ≤ 2 ^ 47) (h : t.Sound p₀ mem₀) (ha : t.Refines a)
    (hi : i < t.handles.length) (hlt : w.stop < 2 ^ 64)
    (hserved : 4096 < w.stop → t.Served (divCeil w.stop PAGE_SIZE)) :
    ∃ t', t.exec (.write i w) = some t' ∧ t'.Sound p₀ mem₀ ∧
      t'.Refines (a.apply (.write i w)) := by
  have hfd := List.getElem?_eq_getElem hi
  obtain ⟨path, m, n, hpath, hm, hn, htype, hfile, hentry⟩ := ha.handle hfd
  obtain ⟨s', hret, hkeeps⟩ := h.write_file hzero hreach ha hm hn htype hlt hserved
  rw [Store.apply, hpath]
  dsimp only
  rw [hentry]
  refine ⟨_, ?_, hkeeps⟩
  rw [exec, hfd, Option.bind_eq_bind, Option.bind_some, ← hfile, hret]
  rfl

end FileStore.Sound

end Toystar.Fs

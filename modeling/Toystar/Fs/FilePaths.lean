import Toystar.Fs.FileSound

/-!
# Entries of a store of files

`open` and `mkdir` with a path below a directory do to the entries and the descriptors
what `Store.apply` says, and never fault.  A new node is one more entry and changes no
other (`Sound.grown`).
-/

namespace Toystar.Fs

open Toystar.Kernel
open Toystar.Klibc
open Toystar.Memory
open Toystar.Verified

namespace Tmpfs

variable {s : Tmpfs} {ds path : List CStr} {b : CStr} {p m : Nat} {n : TmpfsNode} {f : FsNode}
  {data : Option Nat} {pmm : Pmm} {mem : ByteMem} {fd : FileDescription}

theorem lookup_concat (hp : s.lookup ds = some p) : s.lookup (ds ++ [b]) = s.tree.child p b := by
  unfold lookup
  rw [NameTree.walk_append (lookup_eq_some.mp hp)]
  cases hb : s.tree.child p b with
  | none => rw [NameTree.walk_of_none hb]
  | some m => rw [NameTree.walk_of_some hb]; rfl

/-- The name of the directory is the last one of its path. -/
theorem Rooted.name_iff (h : s.Rooted) (hp : s.lookup ds = some p) (hb : CStr.IsComponent b) :
    b = s.nameOf p ↔ ds.getLast? = some b := by
  rw [lookup_eq_some] at hp
  cases ds using List.reverseRecOn with
  | nil =>
      obtain rfl : s.rootTmpfsNode = p := congrArg Prod.fst hp
      rw [h.name]
      refine iff_of_false ?_ (by simp)
      intro heq
      exact hb.2.1 (heq ▸ List.mem_singleton_self _)
  | append_singleton ds d =>
      obtain ⟨q, _, hchild⟩ := NameTree.walk_concat hp
      have hname : s.nameOf p = d := NameTree.name_of_child hchild
      rw [hname, List.getLast?_concat, Option.some.injEq]
      exact eq_comm

/-! ## A new node -/

section Grow

variable (h : s.Shape) (hroot : s.Rooted) (hn : s.nodes[p]? = some n)
  (hp : s.lookup ds = some p) (hnone : s.tree.child p f.name = none)
include h hroot hn hp hnone

omit hroot in
theorem lookup_grow_self :
    (s.grow p n f data pmm mem).lookup (ds ++ [f.name]) = some s.nodes.length := by
  rw [lookup_eq_some, h.linked.tree_grow hn]
  exact h.linked.fresh.walk_insert_self hnone (lookup_eq_some.mp hp)

theorem lookup_grow_of_ne (hne : path ≠ ds ++ [f.name]) :
    (s.grow p n f data pmm mem).lookup path = s.lookup path := by
  have hlt : p < s.nodes.length := (List.getElem?_eq_some_iff.mp hn).1
  have hgrown : (s.grow p n f data pmm mem).Rooted := hroot.grow h.linked hn
  have htree := h.linked.isTree.insert (b := f.name) h.linked.fresh hlt.ne
  have hself : (s.grow p n f data pmm mem).lookup (ds ++ [f.name]) = some s.nodes.length :=
    lookup_grow_self h hn hp hnone
  ext m
  rw [lookup_eq_some, lookup_eq_some]
  rw [lookup_eq_some] at hself
  have htop := hgrown.top
  rw [h.linked.tree_grow hn] at hself htop ⊢
  constructor
  · intro hwalk
    rcases h.linked.fresh.walk_of_insert hlt.ne hwalk with hold | rfl
    · exact hold
    · exact absurd (htree.walk_unique htop hwalk hself) hne
  · intro hwalk
    exact h.linked.fresh.walk_insert hnone hwalk

end Grow

end Tmpfs

namespace FileStore

/-- What a path below a directory names. -/
theorem Legal.parent {t : FileStore} {dir : Option Nat} {ds : List CStr} {b : CStr}
    (hlegal : t.Legal dir ds b) :
    ∃ p, t.fs.lookup ds = some p ∧ t.fs.typeOf p = some .directory ∧
      (∀ c ∈ ds, CStr.IsComponent c) ∧ CStr.IsComponent b := by
  obtain ⟨_, hcs, hdir⟩ := hlegal
  obtain ⟨p, hp, htype⟩ := Option.bind_eq_some_iff.mp hdir
  rw [List.forall_mem_append, List.forall_mem_singleton] at hcs
  exact ⟨p, hp, htype, hcs⟩

namespace Sound

variable {p₀ pmm' : Pmm} {mem₀ mem' : ByteMem} {t t' : FileStore} {a : Store} {p m : Nat}
  {ds : List CStr} {b : CStr} {n : TmpfsNode} {f : FsNode} {x : PathEntry}

/-- What a new node has: nothing, or a zeroed frame of its own. -/
def NewData (t : FileStore) (f : FsNode) (mem' : ByteMem) (x : PathEntry)
    (data : Option Nat) : Prop :=
  (f.type = .directory ∧ data = none ∧ x = .directory) ∨
    (f.type = .file ∧ f.size = 4096 ∧ f.deviceNode = t.fs.nodes.length ∧
      x = .file (fun _ => 0) ∧
      ∃ d, data = some d ∧ PAGE_SIZE ∣ d ∧ ∀ pos < 4096, mem' (d + pos) = 0)

section Grown

variable {data : Option Nat} (h : t.Sound p₀ mem₀) (hn : t.fs.nodes[p]? = some n)
  (htype : t.fs.typeOf p = some .directory) (hdata : NewData t f mem' x data)
include h hn htype hdata

/-- Each node is of a kind. -/
theorem kind_grown {i : Nat} {n' : TmpfsNode}
    (hn' : (t.fs.grow p n f data pmm' mem').nodes[i]? = some n') :
    ((t.fs.grow p n f data pmm' mem').typeOf i = some .directory ∧ n'.data = none) ∨
      ((t.fs.grow p n f data pmm' mem').typeOf i = some .file ∧
        ∃ d, (t.fs.grow p n f data pmm' mem').IsFile n'.file i d ∧ PAGE_SIZE ∣ d) := by
  have hlt : p < t.fs.nodes.length := (List.getElem?_eq_some_iff.mp hn).1
  have hget := hn'
  rw [Tmpfs.nodes_grow hn] at hn'
  rw [h.loading.linked.typeOf_grow hn]
  by_cases hip : i = p
  · rw [if_pos hip] at hn'
    obtain rfl := Option.some.inj hn'
    rw [hip, Function.update_of_ne hlt.ne]
    rcases h.kind hn with hdir | ⟨hfile, _⟩
    · exact .inl hdir
    · rw [htype] at hfile
      cases hfile
  · rw [if_neg hip] at hn'
    by_cases hi : i = t.fs.nodes.length
    · rw [if_pos hi] at hn'
      obtain rfl := Option.some.inj hn'
      rw [hi, Function.update_self]
      rcases hdata with ⟨hdir, hnone, _⟩ | ⟨hfile, hsize, hdev, _, d, hd, hdvd, _⟩
      · exact .inl ⟨congrArg some hdir, hnone⟩
      · rw [hi] at hget
        exact .inr ⟨congrArg some hfile, d,
          ⟨⟨f, Tmpfs.files_grow_self, hdev, hsize⟩, ⟨_, hget, rfl, hd⟩⟩, hdvd⟩
    · rw [if_neg hi] at hn'
      rw [Function.update_of_ne hi]
      rcases h.kind hn' with hdir | ⟨hfile, d, hisFile, hdvd⟩
      · exact .inl hdir
      · obtain ⟨g, hg, hdev, hsize⟩ := hisFile.file_eq
        have hg' : (t.fs.grow p n f data pmm' mem').files[n'.file]? = some g := by
          rw [Tmpfs.files_grow_of_lt (List.getElem?_eq_some_iff.mp hg).1, hg]
        exact .inr ⟨hfile, d,
          ⟨⟨g, hg', hdev, hsize⟩, ⟨n', hget, rfl, hisFile.data_eq hn'⟩⟩, hdvd⟩

omit htype in
/-- The new node has its entry. -/
theorem entryAt_grown_self :
    (t.fs.grow p n f data pmm' mem').entryAt t.fs.nodes.length = some x := by
  have htype' : (t.fs.grow p n f data pmm' mem').typeOf t.fs.nodes.length = some f.type := by
    rw [h.loading.linked.typeOf_grow hn, Function.update_self]
  rcases hdata with ⟨hdir, _, rfl⟩ | ⟨hfile, _, _, rfl, d, rfl, _, hzeroed⟩
  · rw [Tmpfs.entryAt_directory (htype'.trans (congrArg some hdir))]
  · rw [Tmpfs.entryAt_file (htype'.trans (congrArg some hfile))]
    congr 2
    funext pos
    unfold Tmpfs.contents
    rw [Tmpfs.nodes_grow_new hn, Option.bind_some, Option.getD_some]
    split
    · exact hzeroed pos ‹_›
    · rfl

omit hdata in
/-- The others keep theirs. -/
theorem entryAt_grown {A rest : List Frames} {pages : Nat → Nat} {m : Nat}
    (hpos : ∀ m, 0 < pages m) (htracks : Tracks p₀ ⟨pmm', mem', A ++ rest⟩)
    (hchange : ChangedIn A t.fs.mem mem') (hsub : t.fs.dataFrames pages ⊆ rest)
    (hm : m < t.fs.nodes.length) :
    (t.fs.grow p n f data pmm' mem').entryAt m = t.fs.entryAt m := by
  unfold Tmpfs.entryAt
  rw [h.loading.linked.typeOf_grow hn, Function.update_of_ne hm.ne]
  cases hfile : t.fs.typeOf m with
  | none => rfl
  | some type =>
      cases type with
      | file =>
          have hmp : m ≠ p := by
            intro heq
            rw [heq, htype] at hfile
            cases hfile
          obtain ⟨n', hn'⟩ := Tmpfs.node_of_typeOf hfile
          obtain ⟨d, hisFile, hdvd⟩ := h.isFile hn' hfile
          have hd := hisFile.data_eq hn'
          have hcontents : (t.fs.grow p n f data pmm' mem').contents m = t.fs.contents m := by
            refine contents_eq htracks hchange hn' hd hdvd ?_ (hpos m)
              (hsub (Tmpfs.mem_dataFrames hn' hd))
            rw [Tmpfs.nodes_grow hn, if_neg hmp, if_neg hm.ne, hn', Option.bind_some, hd]
          dsimp only
          rw [hcontents]
      | _ => rfl

omit hdata in
theorem describes_grown {fd : FileDescription} {path : List CStr}
    (hp : t.fs.lookup ds = some p) (hnone : t.fs.tree.child p f.name = none)
    (hd : t.fs.Describes fd path) : (t.fs.grow p n f data pmm' mem').Describes fd path := by
  obtain ⟨m, hm, hfile, hown⟩ := hd
  have hmp : m ≠ p := by
    intro heq
    rw [heq, htype] at hfile
    cases hfile
  have hlt : m < t.fs.nodes.length := by
    obtain ⟨n', hn'⟩ := Tmpfs.node_of_typeOf hfile
    exact (List.getElem?_eq_some_iff.mp hn').1
  have hne : path ≠ ds ++ [f.name] := by
    intro heq
    rw [heq, Tmpfs.lookup_concat hp, hnone] at hm
    cases hm
  refine ⟨m, ?_, ?_, ?_⟩
  · rw [Tmpfs.lookup_grow_of_ne h.shape h.loading.rooted hn hp hnone hne, hm]
  · rw [h.loading.linked.typeOf_grow hn, Function.update_of_ne hlt.ne, hfile]
  · rw [Tmpfs.nodes_grow hn, if_neg hmp, if_neg hlt.ne, hown]

/-- A new node below a directory. -/
theorem grown (ha : t.Refines a) (hp : t.fs.lookup ds = some p)
    (hnone : t.fs.tree.child p f.name = none) (hname : f.name ≠ t.fs.nameOf p)
    (hf : CStr.IsComponent f.name) (hsize : f.size ≤ 4096)
    (htracks : ∀ live, Tracks p₀ ⟨t.fs.pmm, t.fs.mem, live⟩ →
      Tracks p₀ ⟨pmm', mem', (data.map fun d => ⟨d, 1⟩).toList ++ live⟩)
    (hchange : ChangedIn (data.map fun d => ⟨d, 1⟩).toList t.fs.mem mem') :
    let t' := { t with fs := t.fs.grow p n f data pmm' mem' }
    t'.Sound p₀ mem₀ ∧
      t'.Refines { a with entry := Function.update a.entry (ds ++ [f.name]) (some x) } := by
  have hshape : (t.fs.grow p n f data pmm' mem').Shape := h.shape.grow hn hf
  obtain ⟨pages, left, hpos, hlive⟩ := h.tracks
  have hlive' := htracks _ hlive
  have hsub : t.fs.dataFrames pages ⊆ t.buffers ++ t.fs.dataFrames pages ++ left := fun f hf =>
    List.mem_append_left _ (List.mem_append_right _ hf)
  have hbuffers : t.buffers ⊆ t.buffers ++ t.fs.dataFrames pages ++ left := fun f hf =>
    List.mem_append_left _ (List.mem_append_left _ hf)
  refine ⟨?_, ?_, ?_, ?_⟩
  · refine
      { loading := h.loading.grow hn hf.2.2 hname hsize
        component := hshape.component
        form := (h.shape.wellFormed_grow_iff h.form hn hf).mpr ⟨hnone, htype⟩
        kind := h.kind_grown hn htype hdata
        tracks := ⟨Function.update pages t.fs.nodes.length 1, left, ?_, ?_⟩
        pages := h.pages
        boot := fun x hx => (hlive'.boot_eq hchange hx).trans (h.boot x hx) }
    · intro m
      by_cases hm : m = t.fs.nodes.length
      · rw [hm, Function.update_self]
        exact Nat.one_pos
      · rw [Function.update_of_ne hm]
        exact hpos m
    · rw [Tmpfs.dataFrames_grow hn]
      refine hlive'.congr rfl ?_
      rw [List.perm_iff_count]
      intro g
      simp only [List.count_append]
      omega
  · funext path
    dsimp only
    by_cases hpath : path = ds ++ [f.name]
    · rw [hpath, Function.update_self,
        Tmpfs.entry_eq (Tmpfs.lookup_grow_self h.shape hn hp hnone),
        h.entryAt_grown_self hn hdata]
    · rw [Function.update_of_ne hpath, ← ha.entry, Tmpfs.entry, Tmpfs.entry,
        Tmpfs.lookup_grow_of_ne h.shape h.loading.rooted hn hp hnone hpath]
      cases hm : t.fs.lookup path with
      | none => rfl
      | some m =>
          obtain ⟨n', hn'⟩ := h.lt_of_lookup hm
          exact h.entryAt_grown hn htype hpos hlive' hchange hsub
            (List.getElem?_eq_some_iff.mp hn').1
  · exact ha.handles.imp fun fd path hd => h.describes_grown hn htype hp hnone hd
  · rw [← ha.buffers]
    apply List.map_congr_left
    intro g hg
    exact Frames.bytes_congr (h.pages g hg).1 fun x hx =>
      hlive'.mem_eq hchange (hbuffers hg) hx

end Grown

/-! ## Paths -/

section Paths

variable {dir : Option Nat} {mode : UInt16}

variable (h : t.Sound p₀ mem₀) (ha : t.Refines a)
include h ha

theorem openFile (hlegal : t.Legal dir ds b) (hmode : mode &&& CREATE = 0) :
    ∃ t', t.exec (.openFile dir ds b mode) = some t' ∧ t'.Sound p₀ mem₀ ∧
      t'.Refines (a.apply (.openFile dir ds b mode)) := by
  obtain ⟨p, hp, htype, hds, hb⟩ := hlegal.parent
  have hwalk := Tmpfs.lookup_eq_some.mp hp
  have hchild := Tmpfs.lookup_concat (b := b) hp
  rw [Store.apply, ← ha.entry, Tmpfs.entry, hchild, exec]
  cases hc : t.fs.tree.child p b with
  | none =>
      -- the directory itself is found, and is no file
      obtain ⟨n, hn⟩ := h.lt_of_lookup hp
      rw [h.shape.openFile_existing hlegal.1 hds hb (Tmpfs.nearest_of_vacant hwalk hc) hn hmode,
        if_neg fun hand => by rw [htype] at hand; cases hand.2]
      refine ⟨_, rfl, ?_⟩
      simp only [Option.toList, List.append_nil]
      exact ⟨h, ha⟩
  | some m =>
      obtain ⟨n, hn⟩ := h.lt_of_lookup (hchild.trans hc)
      have hname : t.fs.nameOf m = b := NameTree.name_of_child hc
      rw [h.shape.openFile_existing hlegal.1 hds hb (Tmpfs.nearest_of_child hwalk hc) hn hmode,
        Option.bind_some]
      rcases h.kind hn with ⟨hdir, _⟩ | ⟨hfile, _⟩
      · rw [if_neg (fun hand => by rw [hdir] at hand; cases hand.2),
          Tmpfs.entryAt_directory hdir]
        refine ⟨_, rfl, ?_⟩
        simp only [Option.toList, List.append_nil]
        exact ⟨h, ha⟩
      · rw [if_pos ⟨hname.symm, hfile⟩, Tmpfs.entryAt_file hfile]
        refine ⟨_, rfl, ⟨h.loading, h.component, h.form, h.kind, h.tracks, h.pages, h.boot⟩,
          ha.entry, ?_, ha.buffers⟩
        refine List.rel_append ha.handles (.cons ⟨m, hchild.trans hc, hfile, ?_⟩ .nil)
        rw [hn]
        rfl

/-- A name that is there, or that the directory has, is not made. -/
theorem make_eq_none (hp : t.fs.lookup ds = some p) (hb : CStr.IsComponent b)
    (hno : t.fs.tree.child p b ≠ none ∨ b = t.fs.nameOf p) : a.make ds b x = none := by
  unfold Store.make
  rw [if_neg]
  intro hand
  obtain ⟨hvacant, hlast⟩ := hand
  rcases hno with hchild | hname
  · obtain ⟨m, hm⟩ := Option.ne_none_iff_exists'.mp hchild
    have hlookup := (Tmpfs.lookup_concat hp).trans hm
    obtain ⟨n, hn⟩ := h.lt_of_lookup hlookup
    have hsome := h.entryAt_isSome hn
    rw [← ha.entry, Tmpfs.entry_eq hlookup] at hvacant
    rw [Option.isNone_iff_eq_none.mp hvacant] at hsome
    cases hsome
  · exact hlast ((h.loading.rooted.name_iff hp hb).mp hname)

/-- And any other is. -/
theorem make_eq_some (hp : t.fs.lookup ds = some p) (hb : CStr.IsComponent b)
    (hnone : t.fs.tree.child p b = none) (hname : b ≠ t.fs.nameOf p) :
    a.make ds b x = some { a with entry := Function.update a.entry (ds ++ [b]) (some x) } := by
  unfold Store.make
  rw [if_pos]
  refine ⟨?_, fun hlast => hname ((h.loading.rooted.name_iff hp hb).mpr hlast)⟩
  rw [← ha.entry, Tmpfs.entry, Tmpfs.lookup_concat hp, hnone]
  rfl

theorem mkdir (hlegal : t.Legal dir ds b) :
    ∃ t', t.exec (.mkdir dir ds b) = some t' ∧ t'.Sound p₀ mem₀ ∧
      t'.Refines (a.apply (.mkdir dir ds b)) := by
  obtain ⟨p, hp, htype, hds, hb⟩ := hlegal.parent
  have hwalk := Tmpfs.lookup_eq_some.mp hp
  rw [Store.apply, exec]
  cases hc : t.fs.tree.child p b with
  | some m =>
      obtain ⟨n, hn⟩ := h.lt_of_lookup ((Tmpfs.lookup_concat hp).trans hc)
      have hname : t.fs.nameOf m = b := NameTree.name_of_child hc
      rw [h.shape.mkdir_some hlegal.1 hds hb (Tmpfs.nearest_of_child hwalk hc) hn,
        if_pos hname.symm,
        h.make_eq_none ha hp hb (.inl (by rw [hc]; exact Option.some_ne_none m))]
      exact ⟨_, rfl, h, ha⟩
  | none =>
      obtain ⟨n, hn⟩ := h.lt_of_lookup hp
      rw [h.shape.mkdir_some hlegal.1 hds hb (Tmpfs.nearest_of_vacant hwalk hc) hn]
      by_cases hname : b = t.fs.nameOf p
      · rw [if_pos hname, h.make_eq_none ha hp hb (.inr hname)]
        exact ⟨_, rfl, h, ha⟩
      · rw [if_neg hname, h.make_eq_some ha hp hb hc hname]
        exact ⟨_, rfl, h.grown hn htype (f := t.fs.newDirectory n b) (.inl ⟨rfl, rfl, rfl⟩) ha hp
          hc hname hb (Nat.zero_le _) (fun _ hlive => hlive) (ChangedIn.refl _ _)⟩

theorem create (hzero : p₀.bitmap.isBitSet 0 = true) (hlegal : t.Legal dir ds b)
    (hmode : mode &&& CREATE ≠ 0) (hserved : t.Served 1) :
    ∃ t', t.exec (.create dir ds b mode) = some t' ∧ t'.Sound p₀ mem₀ ∧
      t'.Refines (a.apply (.create dir ds b mode)) := by
  obtain ⟨p, hp, htype, hds, hb⟩ := hlegal.parent
  have hwalk := Tmpfs.lookup_eq_some.mp hp
  rw [Store.apply, exec]
  cases hc : t.fs.tree.child p b with
  | some m =>
      obtain ⟨n, hn⟩ := h.lt_of_lookup ((Tmpfs.lookup_concat hp).trans hc)
      rw [h.shape.openFile_create hlegal.1 hds hb (Tmpfs.nearest_of_child hwalk hc) hn hmode,
        if_pos (.inl (NameTree.name_of_child hc).symm),
        h.make_eq_none ha hp hb (.inl (by rw [hc]; exact Option.some_ne_none m))]
      refine ⟨_, rfl, ?_⟩
      simp only [Option.toList, List.append_nil]
      exact ⟨h, ha⟩
  | none =>
      obtain ⟨n, hn⟩ := h.lt_of_lookup hp
      rw [h.shape.openFile_create hlegal.1 hds hb (Tmpfs.nearest_of_vacant hwalk hc) hn hmode]
      by_cases hname : b = t.fs.nameOf p
      · rw [if_pos (.inl hname), h.make_eq_none ha hp hb (.inr hname)]
        refine ⟨_, rfl, ?_⟩
        simp only [Option.toList, List.append_nil]
        exact ⟨h, ha⟩
      · rw [if_neg (by rw [htype]; simpa using hname), h.make_eq_some ha hp hb hc hname]
        obtain ⟨_, _, _, hlive⟩ := h.tracks
        obtain ⟨_, hchange, hdvd, _, hbytes⟩ := hlive.alloc_bytes hzero hserved
        have hdata : NewData t (t.fs.newFile n b) (t.fs.pmm.alloc t.fs.mem 1).2.2
            (.file fun _ => 0) (some (t.fs.pmm.alloc t.fs.mem 1).1) := by
          refine .inr ⟨rfl, rfl, rfl, rfl, _, rfl, hdvd, fun pos hpos => ?_⟩
          have hbyte := congrFun hbytes pos
          have hlt : pos < 1 * PAGE_SIZE := by
            unfold PAGE_SIZE
            omega
          rw [Frames.bytes, if_pos hlt, if_pos hlt] at hbyte
          exact Option.some.inj hbyte
        obtain ⟨hsound, hrefines⟩ := h.grown hn htype hdata ha hp hc hname hb (le_refl _)
          (fun live hlive => (hlive.alloc_bytes hzero hserved).1) hchange
        refine ⟨_, rfl, ⟨hsound.loading, hsound.component, hsound.form, hsound.kind,
          hsound.tracks, hsound.pages, hsound.boot⟩, hrefines.entry, ?_, hrefines.buffers⟩
        refine List.rel_append hrefines.handles (.cons ⟨t.fs.nodes.length, ?_, ?_, ?_⟩ .nil)
        · exact Tmpfs.lookup_grow_self h.shape hn hp hc
        · exact (congrFun (h.loading.linked.typeOf_grow hn) _).trans (Function.update_self ..)
        · exact congrArg (Option.bind · _) (Tmpfs.nodes_grow_new hn)

end Paths

end Sound

end FileStore

end Toystar.Fs

import Toystar.Fs.FileStore
import Toystar.Fs.Initrd
import Toystar.Fs.OutOfMemory
import Toystar.Memory.SpaceRuns

/-!
# What holds of a store of files

The tree is well formed, every file has its two objects, and the frames of all files
are live and apart (`FileStore.Sound`).  What others do with their own frames changes
no file (`Sound.others`).
-/

namespace Toystar.Fs

open Toystar.Kernel
open Toystar.Klibc
open Toystar.Memory
open Toystar.Verified

namespace Tmpfs

variable {s s' : Tmpfs} {m : Nat} {n : TmpfsNode} {data : Nat} {path : List CStr}
  {pages : Nat → Nat} {fd : FileDescription}

/-! ## The frames of the files -/

/-- The frames at the data of a node, `pages m` of them. -/
def dataAt (s : Tmpfs) (pages : Nat → Nat) (m : Nat) : Option Frames :=
  (s.nodes[m]?.bind (·.data)).map fun data => ⟨data, pages m⟩

def dataFrames (s : Tmpfs) (pages : Nat → Nat) : List Frames :=
  (List.range s.nodes.length).filterMap (s.dataAt pages)

/-- The frames of the other nodes. -/
def otherFrames (s : Tmpfs) (pages : Nat → Nat) (m : Nat) : List Frames :=
  ((List.range s.nodes.length).erase m).filterMap (s.dataAt pages)

theorem dataAt_eq (hn : s.nodes[m]? = some n) (hdata : n.data = some data) :
    s.dataAt pages m = some ⟨data, pages m⟩ := by
  rw [dataAt, hn, Option.bind_some, hdata, Option.map_some]

theorem dataFrames_perm (hn : s.nodes[m]? = some n) (hdata : n.data = some data) :
    (s.dataFrames pages).Perm (⟨data, pages m⟩ :: s.otherFrames pages m) := by
  have hlt : m < s.nodes.length := (List.getElem?_eq_some_iff.mp hn).1
  have hperm := (List.perm_cons_erase (List.mem_range.mpr hlt)).filterMap (s.dataAt pages)
  rwa [List.filterMap_cons_some (dataAt_eq hn hdata)] at hperm

theorem mem_otherFrames {m' : Nat} (hn : s.nodes[m']? = some n) (hdata : n.data = some data)
    (hne : m' ≠ m) : (⟨data, pages m'⟩ : Frames) ∈ s.otherFrames pages m := by
  have hlt : m' < s.nodes.length := (List.getElem?_eq_some_iff.mp hn).1
  refine List.mem_filterMap.mpr ⟨m', ?_, dataAt_eq hn hdata⟩
  exact (List.mem_erase_of_ne hne).mpr (List.mem_range.mpr hlt)

theorem mem_dataFrames (hn : s.nodes[m]? = some n) (hdata : n.data = some data) :
    (⟨data, pages m⟩ : Frames) ∈ s.dataFrames pages :=
  (dataFrames_perm hn hdata).mem_iff.mpr List.mem_cons_self

/-- Other nodes keep their frames when one has others. -/
theorem otherFrames_congr {pages' : Nat → Nat} (hlength : s'.nodes.length = s.nodes.length)
    (hsame : ∀ m', m' ≠ m → s'.dataAt pages' m' = s.dataAt pages m') :
    s'.otherFrames pages' m = s.otherFrames pages m := by
  unfold otherFrames
  rw [hlength]
  apply List.filterMap_congr
  intro m' hm'
  exact hsame m' ((List.nodup_range.mem_erase_iff).mp hm').1

/-- A new node has its data beside the others. -/
theorem dataFrames_grow {p : Nat} {f : FsNode} {data : Option Nat} {pmm : Pmm} {mem : ByteMem}
    (hn : s.nodes[p]? = some n) :
    (s.grow p n f data pmm mem).dataFrames (Function.update pages s.nodes.length 1) =
      s.dataFrames pages ++ (data.map fun d => ⟨d, 1⟩).toList := by
  have hlt : p < s.nodes.length := (List.getElem?_eq_some_iff.mp hn).1
  have hold : ∀ m ∈ List.range s.nodes.length,
      (s.grow p n f data pmm mem).dataAt (Function.update pages s.nodes.length 1) m =
        s.dataAt pages m := by
    intro m hm
    have hne : m ≠ s.nodes.length := (List.mem_range.mp hm).ne
    unfold dataAt
    rw [nodes_grow hn, if_neg hne, Function.update_of_ne hne]
    by_cases hp : m = p
    · rw [if_pos hp, hp, hn]
      rfl
    · rw [if_neg hp]
  have hnew : (s.grow p n f data pmm mem).dataAt (Function.update pages s.nodes.length 1)
      s.nodes.length = data.map fun d => ⟨d, 1⟩ := by
    rw [dataAt, nodes_grow_new hn, Option.bind_some, Function.update_self]
  unfold dataFrames
  rw [length_nodes_grow, List.range_succ, List.filterMap_append, List.filterMap_congr hold]
  congr 1
  cases data with
  | none => rw [List.filterMap_cons_none hnew]; rfl
  | some d => rw [List.filterMap_cons_some hnew]; rfl

/-! ## Entries -/

theorem lookup_eq_some : s.lookup path = some m ↔
    s.tree.walk s.rootTmpfsNode path = (m, []) := by
  unfold lookup
  cases hwalk : s.tree.walk s.rootTmpfsNode path with
  | mk i rest =>
      cases rest with
      | nil => simp
      | cons c rest => simp

theorem entryAt_file (h : s.typeOf m = some .file) :
    s.entryAt m = some (.file (s.contents m)) := by
  rw [entryAt, h]

theorem entryAt_directory (h : s.typeOf m = some .directory) :
    s.entryAt m = some .directory := by
  rw [entryAt, h]

theorem entry_eq (h : s.lookup path = some m) : s.entry path = s.entryAt m := by
  rw [entry, h, Option.bind_some]

namespace SameLinks

variable (h : s.SameLinks s')
include h

theorem lookup : s'.lookup = s.lookup := by
  funext path
  unfold Tmpfs.lookup
  rw [h.tree, h.root]

/-- The entries follow the contents of the files. -/
theorem entry (hcontents : ∀ m, s.typeOf m = some .file → s'.contents m = s.contents m) :
    s'.entry = s.entry := by
  funext path
  unfold Tmpfs.entry
  rw [h.lookup]
  cases s.lookup path with
  | none => rfl
  | some m =>
      rw [Option.bind_some, Option.bind_some, entryAt, entryAt, h.typeOf]
      cases htype : s.typeOf m with
      | none => rfl
      | some type =>
          cases type with
          | file => rw [hcontents m htype]
          | _ => rfl

theorem describes : s'.Describes = s.Describes := by
  funext fd path
  unfold Describes
  rw [h.lookup, h.typeOf]
  simp only [h.field (g := fun n => some n.file) fun _ => rfl]

theorem parentOf : s'.parentOf = s.parentOf := by
  funext i
  exact h.field (fun _ => rfl) i

end SameLinks

theorem node_of_typeOf {type : FileType} (h : s.typeOf m = some type) :
    ∃ n, s.nodes[m]? = some n := by
  unfold typeOf at h
  cases hn : s.nodes[m]? with
  | none =>
      rw [hn] at h
      cases h
  | some n => exact ⟨n, rfl⟩

theorem IsFile.data_eq {file : Nat} (h : s.IsFile file m data) (hn : s.nodes[m]? = some n) :
    n.data = some data := by
  obtain ⟨n', hn', _, hdata⟩ := h.node_eq
  rw [hn] at hn'
  rw [Option.some.inj hn']
  exact hdata

theorem IsFile.objects {file : Nat} (h : s.IsFile file m data) (hn : s.nodes[m]? = some n) :
    ∃ f, s.Objects file f n data ∧ f.deviceNode = m ∧ f.size = 4096 := by
  obtain ⟨f, hf, hdev, hsize⟩ := h.file_eq
  obtain ⟨n', hn', hown, hdata⟩ := h.node_eq
  obtain rfl : n' = n := Option.some.inj (hn'.symm.trans hn)
  exact ⟨f, ⟨file_eq_ok.mpr hf, node_eq_ok.mpr (hdev ▸ hn), hown, hdata⟩, hdev, hsize⟩

end Tmpfs

/-! ## The invariant -/

namespace FileStore

/-- The tree is well formed and no node has the name of its parent; a node is a directory
without data or a file with its two objects; what is in use is in use once; and nothing
that was in use at the start was written. -/
structure Sound (p₀ : Pmm) (mem₀ : ByteMem) (t : FileStore) : Prop where
  loading : t.fs.Loading
  component : ∀ {i j}, j ∈ t.fs.tree.kids i → CStr.IsComponent (t.fs.nameOf j)
  form : t.fs.WellFormed
  kind : ∀ {m n}, t.fs.nodes[m]? = some n →
    (t.fs.typeOf m = some .directory ∧ n.data = none) ∨
      (t.fs.typeOf m = some .file ∧ ∃ data, t.fs.IsFile n.file m data ∧ PAGE_SIZE ∣ data)
  tracks : ∃ pages left, (∀ m, 0 < pages m) ∧
    Tracks p₀ ⟨t.fs.pmm, t.fs.mem, t.buffers ++ t.fs.dataFrames pages ++ left⟩
  pages : ∀ f ∈ t.buffers, PAGE_SIZE ∣ f.ptr ∧ 0 < f.count
  boot : ∀ x, p₀.bitmap.isBitSet (x / PAGE_SIZE) = true → t.fs.mem x = mem₀ x

namespace Sound

variable {p₀ pmm' : Pmm} {mem₀ mem' : ByteMem} {t t' : FileStore} {a : Store} {m b : Nat}
  {n : TmpfsNode} {pages : Nat → Nat}

theorem shape (h : t.Sound p₀ mem₀) : t.fs.Shape := h.loading.linked.shape h.component

theorem lt_of_lookup {path : List CStr} (h : t.Sound p₀ mem₀)
    (hm : t.fs.lookup path = some m) : ∃ n, t.fs.nodes[m]? = some n :=
  ⟨_, List.getElem?_eq_getElem (h.shape.lt_of_walk (Tmpfs.lookup_eq_some.mp hm))⟩

/-- A node is a file when its type says so. -/
theorem isFile (h : t.Sound p₀ mem₀) (hn : t.fs.nodes[m]? = some n)
    (htype : t.fs.typeOf m = some .file) :
    ∃ data, t.fs.IsFile n.file m data ∧ PAGE_SIZE ∣ data := by
  rcases h.kind hn with ⟨hdir, _⟩ | ⟨_, hfile⟩
  · rw [hdir] at htype
    cases htype
  · exact hfile

/-- Every node has an entry. -/
theorem entryAt_isSome (h : t.Sound p₀ mem₀) (hn : t.fs.nodes[m]? = some n) :
    (t.fs.entryAt m).isSome := by
  rcases h.kind hn with ⟨hdir, _⟩ | ⟨hfile, _⟩
  · rw [Tmpfs.entryAt_directory hdir]
    rfl
  · rw [Tmpfs.entryAt_file hfile]
    rfl

/-- Nothing is read but the first page of the file. -/
theorem contents_eq {A rest : List Frames} {s' : Tmpfs} {data : Nat}
    (htracks : Tracks p₀ ⟨pmm', s'.mem, A ++ rest⟩) (hchange : ChangedIn A t.fs.mem s'.mem)
    (hn : t.fs.nodes[m]? = some n) (hdata : n.data = some data) (hdvd : PAGE_SIZE ∣ data)
    (hn' : s'.nodes[m]?.bind (·.data) = some data) (hpos : 0 < pages m)
    (hmem : (⟨data, pages m⟩ : Frames) ∈ rest) : s'.contents m = t.fs.contents m := by
  funext pos
  unfold Tmpfs.contents
  rw [hn', hn, Option.bind_some, hdata, Option.getD_some]
  by_cases hlt : pos < 4096
  · rw [if_pos hlt, if_pos hlt]
    refine htracks.mem_eq hchange hmem (Frames.has_offset hdvd ?_)
    change pos < pages m * PAGE_SIZE
    unfold PAGE_SIZE
    omega
  · rw [if_neg hlt, if_neg hlt]

/-- The tree is well formed whatever becomes of the data. -/
theorem sameLinks {s' : Tmpfs} (h : t.Sound p₀ mem₀) (hs : t.fs.SameLinks s') :
    s'.Loading ∧ (∀ {i j}, j ∈ s'.tree.kids i → CStr.IsComponent (s'.nameOf j)) ∧
      s'.WellFormed := by
  have hloading := hs.loading h.loading
  have hcomponent : ∀ {i j}, j ∈ s'.tree.kids i → CStr.IsComponent (s'.nameOf j) := by
    rw [hs.tree, hs.nameOf]
    exact h.component
  refine ⟨hloading, hcomponent, ?_⟩
  rw [(hloading.linked.shape hcomponent).wellFormed_iff, hs.tree, hs.typeOf, hs.parentOf]
  exact h.shape.wellFormed_iff.mp h.form

/-- Frames of others change hands, or what is in them changes. -/
theorem others {buffers' left : List Frames} (h : t.Sound p₀ mem₀) (ha : t.Refines a)
    (hpos : ∀ m, 0 < pages m)
    (htracks : Tracks p₀ ⟨pmm', mem', buffers' ++ (t.fs.dataFrames pages ++ left)⟩)
    (hchange : ChangedIn buffers' t.fs.mem mem')
    (hpages : ∀ f ∈ buffers', PAGE_SIZE ∣ f.ptr ∧ 0 < f.count) :
    let t' := { t with fs := { t.fs with pmm := pmm', mem := mem' }, buffers := buffers' }
    t'.Sound p₀ mem₀ ∧ t'.Refines { a with buffers := buffers'.map (Frames.bytes mem') } := by
  have hs : t.fs.SameLinks { t.fs with pmm := pmm', mem := mem' } := ⟨rfl, rfl, rfl⟩
  obtain ⟨hloading, hcomponent, hform⟩ := h.sameLinks hs
  have hentry := hs.entry fun m htype => by
    obtain ⟨n, hn⟩ := Tmpfs.node_of_typeOf htype
    obtain ⟨data, hfile, hdvd⟩ := h.isFile hn htype
    have hdata := hfile.data_eq hn
    refine contents_eq htracks hchange hn hdata hdvd ?_ (hpos m) ?_
    · rw [hn, Option.bind_some, hdata]
    · exact List.mem_append_left _ (Tmpfs.mem_dataFrames hn hdata)
  refine ⟨?_, ⟨hentry.trans ha.entry, ?_, rfl⟩⟩
  · refine
      { loading := hloading
        component := hcomponent
        form := hform
        kind := fun {m n} hn => ?_
        tracks := ⟨pages, left, hpos, by rw [List.append_assoc]; exact htracks⟩
        pages := hpages
        boot := fun x hx => (htracks.boot_eq hchange hx).trans (h.boot x hx) }
    rcases h.kind hn with hdir | ⟨htype, data, hfile, hdvd⟩
    · exact .inl hdir
    · exact .inr ⟨htype, data, ⟨hfile.file_eq, hfile.node_eq⟩, hdvd⟩
  · dsimp only
    rw [hs.describes]
    exact ha.handles

/-! ## Frames of others -/

theorem alloc {count : Nat} (hzero : p₀.bitmap.isBitSet 0 = true) (h : t.Sound p₀ mem₀)
    (ha : t.Refines a) (hserved : t.Served count) :
    ∃ t', t.exec (.alloc count) = some t' ∧ t'.Sound p₀ mem₀ ∧
      t'.Refines (a.apply (.alloc count)) := by
  obtain ⟨pages, left, hpos, htracks⟩ := h.tracks
  obtain ⟨htracks', hchange, hdvd, hcount, hbytes⟩ := htracks.alloc_bytes hzero hserved
  have hkept : t.buffers.map (Frames.bytes (t.fs.pmm.alloc t.fs.mem count).2.2) =
      t.buffers.map (Frames.bytes t.fs.mem) := by
    apply List.map_congr_left
    intro f hf
    refine Frames.bytes_congr (h.pages f hf).1 fun x hx => htracks'.mem_eq hchange ?_ hx
    exact List.mem_append_left _ (List.mem_append_left _ hf)
  rw [List.append_assoc t.buffers, ← List.append_assoc] at htracks'
  have hothers := h.others ha hpos htracks' (hchange.mono (List.subset_append_left _ _))
    (List.forall_mem_cons.mpr ⟨⟨hdvd, hcount⟩, h.pages⟩)
  rw [List.singleton_append, List.map_cons, hbytes, hkept, ha.buffers] at hothers
  exact ⟨_, rfl, hothers⟩

theorem tracks_buffer {f : Frames} {pmm : Pmm} {rest : List Frames}
    (htracks : Tracks p₀ ⟨pmm, mem', t.buffers ++ rest⟩) (hf : t.buffers[b]? = some f) :
    Tracks p₀ ⟨pmm, mem', [f] ++ (t.buffers.eraseIdx b ++ rest)⟩ := by
  obtain ⟨hlt, rfl⟩ := List.getElem?_eq_some_iff.mp hf
  exact htracks.congr rfl ((List.getElem_cons_eraseIdx_perm hlt).symm.append_right rest)

theorem free (h : t.Sound p₀ mem₀) (ha : t.Refines a) (hb : b < t.buffers.length) :
    ∃ t', t.exec (.free b) = some t' ∧ t'.Sound p₀ mem₀ ∧ t'.Refines (a.apply (.free b)) := by
  have hf := List.getElem?_eq_getElem hb
  obtain ⟨pages, left, hpos, htracks⟩ := h.tracks
  rw [List.append_assoc] at htracks
  have hothers := h.others ha hpos ((tracks_buffer htracks hf).frees [t.buffers[b]])
    (ChangedIn.refl _ _) fun f hf => h.pages f (List.mem_of_mem_eraseIdx hf)
  rw [← List.eraseIdx_map, ha.buffers] at hothers
  refine ⟨_, ?_, hothers⟩
  rw [exec, hf]
  rfl

theorem poke {offset : Nat} {v : UInt8} {f : Frames} (h : t.Sound p₀ mem₀)
    (ha : t.Refines a) (hf : t.buffers[b]? = some f) (hoffset : offset < f.count * PAGE_SIZE) :
    ∃ t', t.exec (.poke b offset v) = some t' ∧ t'.Sound p₀ mem₀ ∧
      t'.Refines (a.apply (.poke b offset v)) := by
  obtain ⟨pages, left, hpos, htracks⟩ := h.tracks
  rw [List.append_assoc] at htracks
  have hmem := List.mem_of_getElem? hf
  have hchange := ChangedIn.update (Frames.has_offset (h.pages f hmem).1 hoffset) t.fs.mem v
  have hsplit : Tracks p₀ ⟨t.fs.pmm, Function.update t.fs.mem (f.ptr + offset) v,
      t.buffers ++ (t.fs.dataFrames pages ++ left)⟩ := htracks.congr rfl (.refl _)
  have hother : ∀ g ∈ t.buffers.eraseIdx b,
      g.bytes (Function.update t.fs.mem (f.ptr + offset) v) = g.bytes t.fs.mem := fun g hg =>
    Frames.bytes_congr (h.pages g (List.mem_of_mem_eraseIdx hg)).1 fun x hx =>
      (tracks_buffer hsplit hf).mem_eq hchange (List.mem_append_left _ hg) hx
  have hmodify := map_set_eq_modify (fun g : Bytes => Function.update g offset (some v))
    hf (Frames.bytes_update t.fs.mem hoffset v) hother
  rw [set_of_getElem? hf] at hmodify
  have hothers := h.others ha hpos hsplit
    (hchange.mono (List.cons_subset.mpr ⟨hmem, List.nil_subset _⟩)) h.pages
  rw [hmodify, ha.buffers] at hothers
  refine ⟨_, ?_, hothers⟩
  rw [exec, hf]
  rfl

end Sound

end FileStore

end Toystar.Fs

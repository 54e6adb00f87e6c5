import Toystar.Fs.InitTmpfs

/-!
# What a load leaves

Loading an archive should leave a node at the path of each entry, the contents in the
files, and nothing else.  It does exactly when no file is longer than the page that
`open` gives it, and no entry has the name of the directory it is in: `open` and
`mkdir` take that directory for the entry itself.

One direction follows the entries one after the other (`Holds`).  The other cannot,
since the loop reads on in the contents of a file that it could not make; it rests on
what every load keeps, whatever the bytes are (`Loading`).
-/

namespace Toystar.Fs

open Toystar.Kernel
open Toystar.Klibc
open Toystar.Memory
open Toystar.Verified

namespace Tmpfs

/-- The names `cs` lead from the root to `i`. -/
def At (s : Tmpfs) (cs : List CStr) (i : Nat) : Prop :=
  s.tree.walk s.rootTmpfsNode cs = (i, [])

end Tmpfs

namespace Archive

/-- Each file opens and reads back as its contents, each directory is where its path
leads, and each node is the root or at the path of an entry. -/
structure LoadedIn (a : Archive) (s : Tmpfs) : Prop where
  file : ∀ e ∈ a.entries, ∀ c ∈ e.contents, ∀ mode : UInt16, mode &&& CREATE = 0 →
    ∃ fd, s.openFile none (CStr.joinPath e.path) mode = .ok (some fd, s) ∧
      s.read fd.file 0 c.length = .ok (0, c)
  directory : ∀ e ∈ a.entries, e.contents = none →
    ∃ i, s.pathToNode (CStr.joinPath e.path) none = .ok (some i) ∧ s.At e.path i ∧
      s.typeOf i = some .directory
  nothingElse : ∀ i < s.nodes.length, ∃ cs, s.At cs i ∧
    (cs = [] ∨ ∃ e ∈ a.entries, e.path = cs)

/-- Each file fits a page, and no entry has the name of its directory. -/
structure Fits (a : Archive) : Prop where
  page : ∀ c ∈ a.files, c.length ≤ 4096
  name : ∀ e ∈ a.entries, ∀ ds b, e.path ≠ ds ++ [b, b]

end Archive

namespace Tmpfs

variable {s s' : Tmpfs} {i j m : Nat} {n : TmpfsNode} {f : FsNode} {data : Option Nat}
  {pmm : Pmm} {mem : ByteMem}

/-! ## The root -/

/-- The root is a directory with the name `/`, and no child of any node. -/
structure Rooted (s : Tmpfs) : Prop where
  name : s.nameOf s.rootTmpfsNode = [CStr.slash]
  type : s.typeOf s.rootTmpfsNode = some .directory
  top : ∀ i, s.rootTmpfsNode ∉ s.tree.kids i

theorem Rooted.grow (h : s.Rooted) (hl : s.Linked) (hn : s.nodes[m]? = some n) :
    (s.grow m n f data pmm mem).Rooted := by
  have hne : s.rootTmpfsNode ≠ s.nodes.length := hl.root.ne
  refine ⟨?_, ?_, ?_⟩
  · show (s.grow m n f data pmm mem).nameOf s.rootTmpfsNode = _
    rw [hl.nameOf_grow hn, Function.update_of_ne hne]
    exact h.name
  · show (s.grow m n f data pmm mem).typeOf s.rootTmpfsNode = _
    rw [hl.typeOf_grow hn, Function.update_of_ne hne]
    exact h.type
  · intro i hi
    cases hl.mem_kids_grow hn hi with
    | inl hnew => exact hne hnew.2
    | inr hold => exact h.top i hold

theorem rooted_init (pmm : Pmm) (mem : ByteMem) (tmpfs : Nat) : (init pmm mem tmpfs).Rooted := by
  refine ⟨rfl, rfl, ?_⟩
  intro i hi
  rw [kids_init] at hi
  cases hi

/-! ## What every load keeps -/

/-- The links are a tree in which no node has the name of its parent, and no file has
more than a page. -/
structure Loading (s : Tmpfs) : Prop where
  linked : s.Linked
  rooted : s.Rooted
  apart : ∀ {i j}, j ∈ s.tree.kids i → s.nameOf j ≠ s.nameOf i
  small : ∀ f ∈ s.files, f.size ≤ 4096

theorem Loading.grow (h : s.Loading) (hn : s.nodes[m]? = some n) (hnul : 0 ∉ f.name)
    (hname : f.name ≠ s.nameOf m) (hsize : f.size ≤ 4096) :
    (s.grow m n f data pmm mem).Loading := by
  have hlt : m < s.nodes.length := (List.getElem?_eq_some_iff.mp hn).1
  refine ⟨h.linked.grow hn hnul, h.rooted.grow h.linked hn, ?_, ?_⟩
  · intro i j hj
    rw [h.linked.nameOf_grow hn]
    rcases h.linked.mem_kids_grow hn hj with ⟨rfl, rfl⟩ | hold
    · rw [Function.update_self, Function.update_of_ne hlt.ne]
      exact hname
    · have hi : i ≠ s.nodes.length := by
        rintro rfl
        rw [kids_of_le (le_refl _)] at hold
        cases hold
      rw [Function.update_of_ne (h.linked.inside hold).ne, Function.update_of_ne hi]
      exact h.apart hold
  · intro g hg
    have hfiles : g ∈ s.files ++ [f] := hg
    rw [List.mem_append, List.mem_singleton] at hfiles
    cases hfiles with
    | inl hold => exact h.small g hold
    | inr hnew =>
        rw [hnew]
        exact hsize

theorem loading_init (pmm : Pmm) (mem : ByteMem) (tmpfs : Nat) :
    (init pmm mem tmpfs).Loading := by
  refine ⟨(shape_init pmm mem tmpfs).linked, rooted_init pmm mem tmpfs, ?_, ?_⟩
  · intro i j hj
    rw [kids_init] at hj
    cases hj
  · intro f hf
    obtain rfl := List.mem_singleton.mp hf
    exact Nat.zero_le _

/-- What `open` with `CREATE` and `mkdir` do for any path: they add a node below one of
another name, or nothing. -/
def Grown (s s' : Tmpfs) : Prop :=
  s' = s ∨ ∃ m n f data pmm mem, s.nodes[m]? = some n ∧ 0 ∉ f.name ∧
    f.name ≠ s.nameOf m ∧ f.size ≤ 4096 ∧ s' = s.grow m n f data pmm mem

theorem Loading.grown (h : s.Loading) (hgrown : s.Grown s') : s'.Loading := by
  rcases hgrown with rfl | ⟨m, n, f, data, pmm, mem, hn, hnul, hname, hsize, rfl⟩
  · exact h
  · exact h.grow hn hnul hname hsize

section Calls

variable (h : s.Linked) {path : CStr} (hpath : 0 ∉ path)
include h hpath

/-- The comparison with a node both calls make. -/
theorem Linked.name_ne {p : Nat} (hn : s.nodes[p]? = some n) (hf : s.file n.file = .ok f)
    (hcmp : CStr.strcmp (getNameFromPath path) f.name = .ok false) :
    0 ∉ getNameFromPath path ∧ getNameFromPath path ≠ s.nameOf p := by
  have hlt : p < s.nodes.length := (List.getElem?_eq_some_iff.mp hn).1
  obtain ⟨n', f', _, hf', hget, hname, _⟩ := h.objects hlt
  rw [hn] at hget
  cases hget
  rw [hf] at hf'
  cases hf'
  have hnul : 0 ∉ getNameFromPath path := fun hmem => hpath (List.mem_of_mem_drop hmem)
  rw [CStr.strcmp_eq hnul (hname ▸ h.noNul p), hname] at hcmp
  exact ⟨hnul, of_decide_eq_false (Except.ok.inj hcmp)⟩

theorem Linked.openFile_grown {fd : Option FileDescription}
    (hopen : s.openFile none path CREATE = .ok (fd, s')) : s.Grown s' := by
  cases openFile_create_cases (by decide) hopen with
  | inl hsame => exact .inl hsame.2.1
  | inr hmade =>
      obtain ⟨m, n, f, haccepts, _, rfl⟩ := hmade
      obtain ⟨hnul, hname⟩ := h.name_ne hpath haccepts.node haccepts.file haccepts.name
      exact .inr ⟨m, n, s.newFile n (getNameFromPath path), _, _, _, haccepts.node, hnul, hname,
        le_refl _, rfl⟩

theorem Linked.mkdir_grown {r : Int} (hmkdir : s.mkdir none path = .ok (r, s')) :
    s.Grown s' := by
  cases mkdir_cases hmkdir with
  | inl hsame => exact .inl hsame.2
  | inr hmade =>
      obtain ⟨m, n, f, hn, hf, hcmp, _, rfl⟩ := hmade
      obtain ⟨hnul, hname⟩ := h.name_ne hpath hn hf hcmp
      exact .inr ⟨m, n, s.newDirectory n (getNameFromPath path), _, _, _, hn, hnul, hname,
        Nat.zero_le _, rfl⟩

end Calls

/-! ## Data -/

/-- A node without its data. -/
def links (n : TmpfsNode) : TmpfsNode := { n with data := none }

/-- The same files, and the same links. -/
structure SameLinks (s s' : Tmpfs) : Prop where
  files : s'.files = s.files
  root : s'.rootTmpfsNode = s.rootTmpfsNode
  nodes : s'.nodes.map links = s.nodes.map links

namespace SameLinks

theorem refl (s : Tmpfs) : s.SameLinks s := ⟨rfl, rfl, rfl⟩

variable (h : s.SameLinks s')
include h

theorem length : s'.nodes.length = s.nodes.length := by
  have hlen := congrArg List.length h.nodes
  rwa [List.length_map, List.length_map] at hlen

/-- A field other than `data`. -/
theorem field {β : Type} {g : TmpfsNode → Option β} (hg : ∀ n, g (links n) = g n) (i : Nat) :
    s'.nodes[i]?.bind g = s.nodes[i]?.bind g := by
  have hi := congrArg (fun ns => ns[i]?.bind g) h.nodes
  simpa only [List.getElem?_map, Option.bind_map, Function.comp_def, hg] using hi

theorem nextOf : s'.nextOf = s.nextOf := by
  funext p
  cases p with
  | none => rfl
  | some i => exact h.field (fun _ => rfl) i

theorem siblings (fuel : Nat) (p : Option Nat) :
    s'.siblings fuel p = s.siblings fuel p := by
  induction fuel generalizing p with
  | zero => rfl
  | succ fuel ih =>
      cases p with
      | none => rfl
      | some i => rw [Tmpfs.siblings, Tmpfs.siblings, h.nextOf, ih]

theorem nameOf : s'.nameOf = s.nameOf := by
  funext i
  have hfile := h.field (g := fun n => s.files[n.file]?) (fun _ => rfl) i
  rw [Tmpfs.nameOf, Tmpfs.nameOf, h.files, hfile]

theorem typeOf : s'.typeOf = s.typeOf := by
  funext i
  have hfile := h.field (g := fun n => s.files[n.file]?) (fun _ => rfl) i
  rw [Tmpfs.typeOf, Tmpfs.typeOf, h.files, hfile]

theorem tree : s'.tree = s.tree := by
  have hkids : s'.tree.kids = s.tree.kids := by
    funext i
    show s'.siblings s'.nodes.length (s'.nodes[i]?.bind (·.children)) = _
    rw [h.siblings, h.length, h.field (fun _ => rfl) i]
    rfl
  exact congrArg₂ NameTree.mk hkids h.nameOf

theorem loading (hs : s.Loading) : s'.Loading := by
  have hget : ∀ {i : Nat} {n' : TmpfsNode}, s'.nodes[i]? = some n' →
      ∃ n, s.nodes[i]? = some n ∧ n.file = n'.file ∧ n.children = n'.children := by
    intro i n' hn'
    have hi := congrArg (·[i]?) h.nodes
    simp only [List.getElem?_map, hn', Option.map_some] at hi
    obtain ⟨n, hn, hlinks⟩ := Option.map_eq_some_iff.mp hi.symm
    have hfile : (links n).file = (links n').file := congrArg TmpfsNode.file hlinks
    have hchildren : (links n).children = (links n').children :=
      congrArg TmpfsNode.children hlinks
    exact ⟨n, hn, hfile, hchildren⟩
  refine ⟨⟨?_, ?_, ?_, ?_, ?_, ?_⟩, ⟨?_, ?_, ?_⟩, ?_, ?_⟩
  · rw [h.root, h.length]
    exact hs.linked.root
  · intro i n' hn'
    obtain ⟨n, hn, hfile, _⟩ := hget hn'
    rw [h.files, ← hfile]
    exact hs.linked.file hn
  · intro i n' hn'
    obtain ⟨n, hn, _, hchildren⟩ := hget hn'
    rw [h.tree, ← hchildren, Siblings, h.nextOf]
    exact hs.linked.chain hn
  · rw [h.tree, h.length]
    exact hs.linked.inside
  · rw [h.nameOf]
    exact hs.linked.noNul
  · rw [h.tree]
    exact hs.linked.isTree
  · rw [h.nameOf, h.root]
    exact hs.rooted.name
  · rw [h.typeOf, h.root]
    exact hs.rooted.type
  · rw [h.tree, h.root]
    exact hs.rooted.top
  · rw [h.tree, h.nameOf]
    exact hs.apart
  · rw [h.files]
    exact hs.small

end SameLinks

/-- Storing other data at a node. -/
theorem sameLinks_setNode {p : Nat} (hn : s.nodes[p]? = some n) (data : Option Nat) :
    s.SameLinks { s.setNode p { n with data } with pmm, mem } := by
  refine ⟨rfl, rfl, ?_⟩
  show (s.nodes.set p { n with data }).map links = s.nodes.map links
  have hp : (s.nodes.map links)[p]? = some (links n) := by
    rw [List.getElem?_map, hn, Option.map_some]
  obtain ⟨hlt, heq⟩ := List.getElem?_eq_some_iff.mp hp
  rw [List.map_set]
  show (s.nodes.map links).set p (links n) = s.nodes.map links
  rw [← heq, List.set_getElem_self hlt]

theorem sameLinks_of_resize {p newSize : Nat} {room : Bool}
    (hresize : s.resize p newSize true = .ok (room, s')) : s.SameLinks s' := by
  unfold resize at hresize
  dsimp only at hresize
  split at hresize
  · cases hresize
    exact ⟨rfl, rfl, rfl⟩
  · obtain ⟨n, hn, hresize⟩ := bind_eq_ok.mp hresize
    obtain ⟨f, _, hresize⟩ := bind_eq_ok.mp hresize
    obtain ⟨d, _, hresize⟩ := bind_eq_ok.mp hresize
    have hget : s.nodes[p]? = some n := by
      unfold Tmpfs.node at hn
      split at hn
      · rename_i hsome
        cases hn
        exact hsome
      · cases hn
    cases hresize
    exact sameLinks_setNode hget _

theorem sameLinks_of_write {file offset size : Nat} {buffer : Nat → UInt8} {r : Int}
    (hwrite : s.write file offset size buffer = .ok (r, s')) : s.SameLinks s' := by
  unfold write at hwrite
  obtain ⟨f, _, hwrite⟩ := bind_eq_ok.mp hwrite
  obtain ⟨⟨room, t⟩, hroom, hwrite⟩ := bind_eq_ok.mp hwrite
  have ht : s.SameLinks t := by
    unfold makeRoom at hroom
    obtain ⟨n, _, hroom⟩ := bind_eq_ok.mp hroom
    obtain ⟨g, _, hroom⟩ := bind_eq_ok.mp hroom
    split at hroom
    · exact sameLinks_of_resize hroom
    · cases hroom
      exact .refl s
  dsimp only at hwrite
  split at hwrite
  · obtain ⟨n, _, hwrite⟩ := bind_eq_ok.mp hwrite
    obtain ⟨d, _, hret⟩ := bind_eq_ok.mp hwrite
    cases hret
    exact ⟨ht.files, ht.root, ht.nodes⟩
  · cases hwrite
    exact ht

/-- Every load keeps it. -/
theorem Loading.loadFrom (h : s.Loading) {fuel i : Nat} {bytes bytes' : List UInt8}
    (hload : Tmpfs.loadFrom fuel i bytes s = .ok (bytes', s')) : s'.Loading := by
  refine loadFrom_keeps ?_ ?_ ?_ h hload
  · intro s s' path fd hs hpath hopen
    exact hs.grown (hs.linked.openFile_grown hpath hopen)
  · intro s s' file size buffer r hs hwrite
    exact (sameLinks_of_write hwrite).loading hs
  · intro s s' path r hs hpath hmkdir
    exact hs.grown (hs.linked.mkdir_grown hpath hmkdir)

/-- No node is where a path repeats its last name. -/
theorem Loading.not_at (h : s.Loading) {ds : List CStr} {b : CStr} :
    ¬s.At (ds ++ [b, b]) i := by
  intro hat
  have hsplit : ds ++ [b, b] = (ds ++ [b]) ++ [b] := by simp
  rw [At, hsplit] at hat
  obtain ⟨p, hp, hchild⟩ := NameTree.walk_concat hat
  obtain ⟨q, _, hparent⟩ := NameTree.walk_concat hp
  have hname : s.nameOf i = b := NameTree.name_of_child hchild
  have hname' : s.nameOf p = b := NameTree.name_of_child hparent
  exact h.apart (NameTree.mem_kids_of_child hchild) (hname.trans hname'.symm)

end Tmpfs

/-! ## The condition is needed -/

namespace Archive

variable {a : Archive} {s : Tmpfs} {e : Entry} {c : List UInt8} {ds : List CStr} {b : CStr}

theorem mem_files : c ∈ a.files ↔ ∃ e ∈ a.entries, e.contents = some c := by
  rw [files, List.mem_filterMap]

/-- The contents of a file are in the archive. -/
theorem length_lt (he : e ∈ a.entries) (hc : e.contents = some c) :
    c.length + 512 < 2 ^ 64 := by
  obtain ⟨before, after, hsplit⟩ := List.append_of_mem he
  have hfits := a.fits
  have hdata : e.data.length = c.length + e.padding.length := by
    rw [Entry.data, hc, Option.getD_some, List.length_append]
  rw [hsplit, List.flatMap_append, List.flatMap_cons] at hfits
  simp only [List.length_append, e.length_bytes, hdata] at hfits
  omega

/-- The entry before the last name of a path is a directory of the archive. -/
theorem exists_parent (he : e ∈ a.entries) (hpath : e.path = ds ++ [b]) (hne : ds ≠ []) :
    ∃ d ∈ a.entries, d.contents = none ∧ d.path = ds := by
  obtain ⟨before, after, hsplit⟩ := List.append_of_mem he
  cases a.parents hsplit hpath with
  | inl hnil => exact absurd hnil hne
  | inr hdir =>
      obtain ⟨d, hd, hfacts⟩ := hdir
      exact ⟨d, by simp [hsplit, hd], hfacts⟩

namespace LoadedIn

variable (hl : a.LoadedIn s) (h : s.Loading)
include hl

/-- The nodes have the names of the entries. -/
theorem shape (hlinked : s.Linked) (hroot : s.Rooted) : s.Shape := by
  apply hlinked.shape
  intro i j hj
  obtain ⟨cs, hat, hcs⟩ := hl.nothingElse j (hlinked.inside hj)
  cases cs using List.reverseRecOn with
  | nil =>
      obtain rfl : s.rootTmpfsNode = j := congrArg Prod.fst hat
      exact absurd hj (hroot.top i)
  | append_singleton ds b =>
      rcases hcs with hnil | ⟨e, _, hpath⟩
      · exact absurd hnil (by simp)
      · obtain ⟨p, _, hchild⟩ := NameTree.walk_concat hat
        have hname : s.nameOf j = b := NameTree.name_of_child hchild
        rw [hname]
        exact e.components b (by simp [hpath])

include h

theorem page (hc : c ∈ a.files) : c.length ≤ 4096 := by
  obtain ⟨e, he, hfile⟩ := mem_files.mp hc
  have hlen := length_lt he hfile
  obtain ⟨fd, _, hread⟩ := hl.file e he c hfile 0 (by decide)
  unfold Tmpfs.read at hread
  obtain ⟨f, _, hread⟩ := bind_eq_ok.mp hread
  obtain ⟨n, _, hread⟩ := bind_eq_ok.mp hread
  obtain ⟨g, hg, hread⟩ := bind_eq_ok.mp hread
  have hsize : g.size ≤ 4096 := by
    unfold Tmpfs.file at hg
    split at hg
    · rename_i hsome
      cases hg
      exact h.small _ (List.mem_of_getElem? hsome)
    · cases hg
  by_contra hlong
  rw [Nat.zero_add, Nat.mod_eq_of_lt (by omega), if_pos (by omega)] at hread
  cases hread

/-- A directory where an entry should find its parent is none of its own. -/
theorem not_file {i : Nat} (he : e ∈ a.entries) (hpath : e.path = ds ++ [b])
    (hat : s.At ds i) : s.typeOf i ≠ some .file := by
  intro hfile
  cases ds with
  | nil =>
      obtain rfl : s.rootTmpfsNode = i := congrArg Prod.fst hat
      rw [h.rooted.type] at hfile
      cases hfile
  | cons d ds =>
      obtain ⟨p, hp, hdir, hpath'⟩ := exists_parent he hpath (List.cons_ne_nil d ds)
      obtain ⟨j, _, hj, htype⟩ := hl.directory p hp hdir
      rw [hpath'] at hj
      obtain rfl : i = j := congrArg Prod.fst (hat.symm.trans hj)
      rw [htype] at hfile
      cases hfile

theorem name (he : e ∈ a.entries) : e.path ≠ ds ++ [b, b] := by
  intro hpath
  have hsplit : ds ++ [b, b] = (ds ++ [b]) ++ [b] := by simp
  cases hc : e.contents with
  | none =>
      obtain ⟨i, _, hat, _⟩ := hl.directory e he hc
      rw [hpath] at hat
      exact h.not_at hat
  | some c =>
      have hshape := hl.shape h.linked h.rooted
      have hcomp := e.components
      rw [hpath, hsplit, List.forall_mem_append, List.forall_mem_singleton] at hcomp
      obtain ⟨fd, hopen, _⟩ := hl.file e he c hc 0 (by decide)
      rw [hpath, hsplit] at hopen
      cases hm : s.nearest s.rootTmpfsNode ((ds ++ [b]) ++ [b]) with
      | none =>
          rw [hshape.openFile_none (by simp) hcomp.1 hcomp.2 hm] at hopen
          cases hopen
      | some m =>
          obtain ⟨n, _, _, _, hn, _⟩ := hshape.linked.objects (hshape.nearest_lt hm)
          rw [hshape.openFile_existing (by simp) hcomp.1 hcomp.2 hm hn (by decide)] at hopen
          split at hopen
          · rename_i hfound
            -- the file that was found: the entry, or above it where directories are
            obtain ⟨es, rest, hes, hat, hrest⟩ := Tmpfs.nearest_cases hm
            rw [← hsplit] at hes
            cases rest with
            | nil =>
                rw [List.append_nil] at hes
                rw [← hes] at hat
                exact h.not_at hat
            | cons x rest =>
                cases rest with
                | nil =>
                    rw [hsplit] at hes
                    have hparent : ds ++ [b] = es := (List.append_inj' hes rfl).1
                    rw [← hparent] at hat
                    exact hl.not_file h he (hpath.trans hsplit) hat hfound.2
                | cons y rest =>
                    obtain rfl : rest = [] := List.eq_nil_of_length_eq_zero (by simpa using hrest)
                    have habove : ds = es := (List.append_inj' hes rfl).1
                    obtain ⟨d, hd, _, hdpath⟩ :=
                      exists_parent he (hpath.trans hsplit) (by simp)
                    rw [← habove] at hat
                    exact hl.not_file h hd hdpath hat hfound.2
          · cases hopen

end LoadedIn

theorem LoadedIn.fits (hl : a.LoadedIn s) (h : s.Loading) : a.Fits :=
  ⟨fun _ hc => hl.page h hc, fun _ he _ _ => hl.name h he⟩

end Archive

/-! ## Following the entries -/

namespace Tmpfs

variable {s s' : Tmpfs} {i m page : Nat} {n : TmpfsNode} {f : FsNode} {data : Option Nat}
  {pmm : Pmm} {mem : ByteMem} {c : List UInt8} {done : List Entry} {e : Entry}
  {ds : List CStr} {b : CStr}

/-- Node `i` is a file over a frame that starts with the bytes `c`. -/
def Stores (s : Tmpfs) (i : Nat) (c : List UInt8) : Prop :=
  ∃ file page, s.IsFile file i (page * PAGE_SIZE) ∧ page < s.pmm.pages ∧
    s.pmm.bitmap.isBitSet page = true ∧
    ∀ j < c.length, s.mem (page * PAGE_SIZE + j) = c.getD j 0

/-- Frames in use stay in use, and keep their bytes. -/
structure FramesKept (s : Tmpfs) (pmm : Pmm) (mem : ByteMem) : Prop where
  pages : pmm.pages = s.pmm.pages
  used : ∀ page < s.pmm.pages, s.pmm.bitmap.isBitSet page = true →
    pmm.bitmap.isBitSet page = true
  bytes : ∀ page < s.pmm.pages, s.pmm.bitmap.isBitSet page = true →
    ∀ j < PAGE_SIZE, mem (page * PAGE_SIZE + j) = s.mem (page * PAGE_SIZE + j)

theorem framesKept_refl (s : Tmpfs) : s.FramesKept s.pmm s.mem :=
  ⟨rfl, fun _ _ hused => hused, fun _ _ _ _ _ => rfl⟩

theorem IsFile.grow {file d : Nat} (h : s.IsFile file i d) (hn : s.nodes[m]? = some n) :
    (s.grow m n f data pmm mem).IsFile file i d := by
  obtain ⟨g, hg, hfacts⟩ := h.file_eq
  obtain ⟨k, hk, hfile, hdata⟩ := h.node_eq
  have hfilelt : file < s.files.length := (List.getElem?_eq_some_iff.mp hg).1
  have hlt : i < s.nodes.length := (List.getElem?_eq_some_iff.mp hk).1
  refine ⟨⟨g, ?_, hfacts⟩, ?_⟩
  · rw [files_grow_of_lt hfilelt]
    exact hg
  · rw [nodes_grow hn i]
    by_cases hi : i = m
    · rw [if_pos hi]
      rw [hi, hn] at hk
      cases hk
      exact ⟨_, rfl, hfile, hdata⟩
    · rw [if_neg hi, if_neg hlt.ne]
      exact ⟨k, hk, hfile, hdata⟩

/-- The file of a new node. -/
theorem isFile_grow_self (hn : s.nodes[m]? = some n) (hdev : f.deviceNode = s.nodes.length)
    (hsize : f.size = 4096) (d : Nat) :
    (s.grow m n f (some d) pmm mem).IsFile s.files.length s.nodes.length d := by
  have hlt : m < s.nodes.length := (List.getElem?_eq_some_iff.mp hn).1
  refine ⟨⟨f, files_grow_self, hdev, hsize⟩, ?_⟩
  rw [nodes_grow hn, if_neg hlt.ne', if_pos rfl]
  exact ⟨_, rfl, rfl, rfl⟩

theorem Stores.grow (h : s.Stores i c) (hc : c.length ≤ 4096) (hn : s.nodes[m]? = some n)
    (hkept : s.FramesKept pmm mem) : (s.grow m n f data pmm mem).Stores i c := by
  obtain ⟨file, page, hfile, hpage, hused, hbytes⟩ := h
  refine ⟨file, page, hfile.grow hn, ?_, hkept.used page hpage hused, ?_⟩
  · show page < pmm.pages
    rw [hkept.pages]
    exact hpage
  · intro j hj
    have hin : j < PAGE_SIZE := by
      unfold PAGE_SIZE
      omega
    show mem (page * PAGE_SIZE + j) = c.getD j 0
    rw [hkept.bytes page hpage hused j hin, hbytes j hj]

/-- The tree after the entries `done`. -/
structure Holds (s : Tmpfs) (done : List Entry) : Prop where
  shape : s.Shape
  rooted : s.Rooted
  found : ∀ e ∈ done, ∃ i, s.At e.path i ∧ s.typeOf i = some e.fileType ∧
    ∀ c ∈ e.contents, c.length ≤ 4096 ∧ s.Stores i c
  nothingElse : ∀ i < s.nodes.length, ∃ cs, s.At cs i ∧
    (cs = [] ∨ ∃ e ∈ done, e.path = cs)

theorem holds_init (pmm : Pmm) (mem : ByteMem) (tmpfs : Nat) :
    (init pmm mem tmpfs).Holds [] := by
  refine ⟨shape_init pmm mem tmpfs, rooted_init pmm mem tmpfs, nofun, ?_⟩
  intro i hi
  obtain rfl : i = 0 := Nat.lt_one_iff.mp hi
  exact ⟨[], rfl, .inl rfl⟩

theorem at_lt (h : s.Linked) {cs : List CStr} (hat : s.At cs i) : i < s.nodes.length := by
  rcases NameTree.walk_mem hat with rfl | ⟨p, hp⟩
  · exact h.root
  · exact h.inside hp

namespace Holds

variable (h : s.Holds done)
include h

/-- A node for the next entry. -/
theorem add (hpath : e.path = ds ++ [b]) (hat : s.At ds m) (hn : s.nodes[m]? = some n)
    (hnew : s.tree.child m b = none) (hname : f.name = b) (htype : f.type = e.fileType)
    (hkept : s.FramesKept pmm mem)
    (hstores : ∀ c ∈ e.contents, c.length ≤ 4096 ∧
      (s.grow m n f data pmm mem).Stores s.nodes.length c) :
    (s.grow m n f data pmm mem).Holds (done ++ [e]) := by
  subst hname
  have hl := h.shape.linked
  have hcomp : CStr.IsComponent f.name := e.components _ (by simp [hpath])
  have hold : ∀ {cs i}, s.At cs i → (s.grow m n f data pmm mem).At cs i := by
    intro cs i hcs
    rw [At, hl.tree_grow hn]
    exact hl.fresh.walk_insert hnew hcs
  have hself : (s.grow m n f data pmm mem).At e.path s.nodes.length := by
    rw [At, hl.tree_grow hn, hpath]
    exact hl.fresh.walk_insert_self hnew hat
  refine ⟨h.shape.grow hn hcomp, h.rooted.grow hl hn, ?_, ?_⟩
  · intro d hd
    rw [hl.typeOf_grow hn]
    rcases List.mem_append.mp hd with hd | hd
    · obtain ⟨i, hi, hitype, hcontents⟩ := h.found d hd
      refine ⟨i, hold hi, ?_, ?_⟩
      · rw [Function.update_of_ne (at_lt hl hi).ne]
        exact hitype
      · intro c hc
        obtain ⟨hlen, hsto⟩ := hcontents c hc
        exact ⟨hlen, hsto.grow hlen hn hkept⟩
    · obtain rfl := List.mem_singleton.mp hd
      refine ⟨s.nodes.length, hself, ?_, hstores⟩
      rw [Function.update_self, htype]
  · intro i hi
    rw [length_nodes_grow] at hi
    rcases Nat.lt_succ_iff_lt_or_eq.mp hi with hlt | rfl
    · obtain ⟨cs, hcs, hwhere⟩ := h.nothingElse i hlt
      refine ⟨cs, hold hcs, hwhere.imp_right ?_⟩
      intro hex
      obtain ⟨d, hd, hdpath⟩ := hex
      exact ⟨d, List.mem_append_left _ hd, hdpath⟩
    · exact ⟨e.path, hself, .inr ⟨e, by simp, rfl⟩⟩

/-- The directory of the next entry is there, and has no node of its name. -/
theorem parent (hpath : e.path = ds ++ [b])
    (hdir : ds = [] ∨ ∃ d ∈ done, d.contents = none ∧ d.path = ds)
    (hnew : ∀ d ∈ done, d.path ≠ e.path) (hrepeat : ∀ ds b, e.path ≠ ds ++ [b, b]) :
    ∃ p n, s.At ds p ∧ s.nodes[p]? = some n ∧ s.typeOf p = some .directory ∧
      b ≠ s.nameOf p ∧ s.tree.child p b = none ∧
      s.nearest s.rootTmpfsNode (ds ++ [b]) = some p := by
  have hl := h.shape.linked
  have hcomp : CStr.IsComponent b := e.components b (by simp [hpath])
  obtain ⟨p, hat, htype, hname⟩ :
      ∃ p, s.At ds p ∧ s.typeOf p = some .directory ∧ b ≠ s.nameOf p := by
    rcases hdir with rfl | ⟨d, hd, hcontents, rfl⟩
    · refine ⟨s.rootTmpfsNode, rfl, h.rooted.type, ?_⟩
      rw [h.rooted.name]
      rintro rfl
      exact hcomp.2.1 List.mem_cons_self
    · obtain ⟨p, hat, htype, _⟩ := h.found d hd
      rw [Entry.fileType, hcontents] at htype
      refine ⟨p, hat, htype, ?_⟩
      obtain ⟨ds', b', hlast⟩ : ∃ ds' b', d.path = ds' ++ [b'] :=
        ⟨_, _, (List.dropLast_append_getLast d.path_ne).symm⟩
      rw [hlast] at hat hpath
      obtain ⟨q, _, hchild⟩ := NameTree.walk_concat hat
      have hb' : s.nameOf p = b' := NameTree.name_of_child hchild
      rw [hb']
      rintro rfl
      refine hrepeat ds' b ?_
      rw [hpath, List.append_assoc]
      rfl
  obtain ⟨n, _, _, _, hn, _⟩ := hl.objects (at_lt hl hat)
  have hnone : s.tree.child p b = none := by
    cases hchild : s.tree.child p b with
    | none => rfl
    | some j =>
        have hj : s.At (ds ++ [b]) j := by
          rw [At, NameTree.walk_append hat, NameTree.walk_of_some hchild, NameTree.walk]
        obtain ⟨cs, hcs, hwhere⟩ :=
          h.nothingElse j (hl.inside (NameTree.mem_kids_of_child hchild))
        have hsame := hl.isTree.walk_unique h.rooted.top hcs hj
        rcases hwhere with rfl | ⟨d, hd, rfl⟩
        · exact absurd hsame (by simp)
        · exact absurd (hsame.trans hpath.symm) (hnew d hd)
  refine ⟨p, n, hat, hn, htype, hname, hnone, ?_⟩
  have hwalk : s.tree.walk s.rootTmpfsNode (ds ++ [b]) = (p, [b]) := by
    rw [NameTree.walk_append hat, NameTree.walk_of_none hnone]
  rw [nearest, hwalk]
  rfl

end Holds

/-- The frame of a new file with its contents written: the other frames in use keep
theirs. -/
theorem framesKept_write (hpage : page + 1 ≤ s.pmm.pages)
    (hfree : FreeRange s.pmm.bitmap.isBitSet page 1) (buffer : Nat → UInt8)
    (hc : c.length ≤ 4096) :
    s.FramesKept { s.pmm with bitmap := Pmm.setBits s.pmm.bitmap page 1 }
      (copyIn (memset s.mem (page * PAGE_SIZE) 0 (1 * PAGE_SIZE)) (page * PAGE_SIZE) buffer
        c.length) := by
  refine ⟨rfl, ?_, ?_⟩
  · intro q _ hused
    show (Pmm.setBits s.pmm.bitmap page 1).isBitSet q = true
    rw [Pmm.isBitSet_setBits, hused, Bool.or_true]
  · intro q _ hused j hj
    have hne : q ≠ page := by
      rintro rfl
      rw [hfree q (le_refl q) (Nat.lt_succ_self q)] at hused
      cases hused
    unfold PAGE_SIZE at hj ⊢
    rw [copyIn, if_neg (by omega)]
    exact memset_of_not_mem (by omega)

namespace Holds

variable (h : s.Holds done)
include h

/-- `open` makes the file of the next entry, and `write` fills it. -/
theorem openFile (hpath : e.path = ds ++ [b]) (hc : e.contents = some c)
    (hlen : c.length ≤ 4096) (hat : s.At ds m) (hn : s.nodes[m]? = some n)
    (htype : s.typeOf m = some .directory) (hname : b ≠ s.nameOf m)
    (hnew : s.tree.child m b = none) (hm : s.nearest s.rootTmpfsNode (ds ++ [b]) = some m)
    (hfree : 0 < freeCells s.pmm.bitmap.isBitSet s.pmm.pages) :
    ∃ fd s₁ s', s.openFile none (CStr.joinPath e.path) CREATE = .ok (some fd, s₁) ∧
      s₁.write fd.file 0 c.length (fun j => c.getD j 0) = .ok (0, s') ∧
      s'.Holds (done ++ [e]) ∧
      freeCells s'.pmm.bitmap.isBitSet s'.pmm.pages + 1 =
        freeCells s.pmm.bitmap.isBitSet s.pmm.pages := by
  have hcomp := e.components
  rw [hpath, List.forall_mem_append, List.forall_mem_singleton] at hcomp
  rcases s.pmm.alloc_cases (le_refl 1) s.mem with
    ⟨_, hnone⟩ | ⟨page, hpage, hrange, _, halloc⟩
  · obtain ⟨q, hq, hqfree⟩ := exists_free_of_pos hfree
    refine absurd ?_ (hnone q hq)
    intro j hlo hhi
    obtain rfl : j = q := by omega
    exact hqfree
  · have hfile : (s.grow m n (s.newFile n b) (some (page * PAGE_SIZE))
        { s.pmm with bitmap := Pmm.setBits s.pmm.bitmap page 1 }
        (memset s.mem (page * PAGE_SIZE) 0 (1 * PAGE_SIZE))).IsFile
        s.files.length s.nodes.length (page * PAGE_SIZE) := isFile_grow_self hn rfl rfl _
    have hlow : (page * PAGE_SIZE + 0) % 2 ^ 64 = page * PAGE_SIZE := by
      rw [Nat.add_zero]
      exact Nat.mod_eq_of_lt (s.pmm.page_lt (by omega))
    have hopen : s.openFile none (CStr.joinPath (ds ++ [b])) CREATE = .ok _ :=
      h.shape.openFile_create (by simp) hcomp.1 hcomp.2 hm hn (by decide)
    rw [if_neg (by simp [hname, htype]), halloc, ← hpath] at hopen
    have hwrite : Tmpfs.write _ s.files.length 0 c.length (fun j => c.getD j 0) = .ok _ :=
      hfile.write_of_le (by omega)
    rw [hlow] at hwrite
    refine ⟨_, _, _, hopen, hwrite, ?_, ?_⟩
    · refine h.add hpath hat hn hnew rfl ?_ (framesKept_write hpage hrange _ hlen) ?_
      · rw [Entry.fileType, hc]
        rfl
      · intro c' hc'
        obtain rfl : c = c' := Option.some.inj (hc.symm.trans hc')
        refine ⟨hlen, s.files.length, page, isFile_grow_self hn rfl rfl _, hpage, ?_, ?_⟩
        · show (Pmm.setBits s.pmm.bitmap page 1).isBitSet page = true
          rw [Pmm.isBitSet_setBits, decide_eq_true (by omega), Bool.true_or]
        · intro j hj
          show copyIn (memset s.mem (page * PAGE_SIZE) 0 (1 * PAGE_SIZE)) (page * PAGE_SIZE)
            (fun j => c.getD j 0) c.length (page * PAGE_SIZE + j) = c.getD j 0
          rw [copyIn, if_pos (by omega), Nat.add_sub_cancel_left]
    · exact freeCells_occupy hpage hrange fun q => Pmm.isBitSet_setBits s.pmm.bitmap page 1 q

/-- `mkdir` makes the directory of the next entry. -/
theorem mkdir (hpath : e.path = ds ++ [b]) (hc : e.contents = none)
    (hat : s.At ds m) (hn : s.nodes[m]? = some n) (hname : b ≠ s.nameOf m)
    (hnew : s.tree.child m b = none) (hm : s.nearest s.rootTmpfsNode (ds ++ [b]) = some m) :
    ∃ s', s.mkdir none (CStr.joinPath e.path) = .ok (0, s') ∧ s'.Holds (done ++ [e]) ∧
      s'.pmm = s.pmm := by
  have hcomp := e.components
  rw [hpath, List.forall_mem_append, List.forall_mem_singleton] at hcomp
  have hmkdir : s.mkdir none (CStr.joinPath (ds ++ [b])) = .ok _ :=
    h.shape.mkdir_some (by simp) hcomp.1 hcomp.2 hm hn
  rw [if_neg hname, ← hpath] at hmkdir
  refine ⟨_, hmkdir, ?_, rfl⟩
  refine h.add hpath hat hn hnew rfl ?_ s.framesKept_refl ?_
  · rw [Entry.fileType, hc]
    rfl
  · intro c hc'
    rw [hc] at hc'
    cases hc'

end Holds

end Tmpfs

/-! ## The condition suffices -/

namespace Archive

variable {a : Archive} {s : Tmpfs} {e : Entry} {es done : List Entry}
  {before after : List UInt8}

/-- The round over the entry behind `done`. -/
theorem Fits.round (hfits : a.Fits) (hsplit : a.entries = done ++ e :: es)
    (h : s.Holds done) (hlen : (before ++ (e.bytes ++ after)).length < 2 ^ 64)
    (hfree : ((e :: es).filterMap Entry.contents).length ≤
      freeCells s.pmm.bitmap.isBitSet s.pmm.pages) (fuel : Nat) :
    ∃ before' s', before'.length = (before ++ e.bytes).length ∧
      Tmpfs.loadFrom (fuel + 1) before.length (before ++ (e.bytes ++ after)) s =
        Tmpfs.loadFrom fuel before'.length (before' ++ after) s' ∧
      s'.Holds (done ++ [e]) ∧
      (es.filterMap Entry.contents).length ≤
        freeCells s'.pmm.bitmap.isBitSet s'.pmm.pages := by
  have he : e ∈ a.entries := by simp [hsplit]
  obtain ⟨ds, b, hpath⟩ : ∃ ds b, e.path = ds ++ [b] :=
    ⟨_, _, (List.dropLast_append_getLast e.path_ne).symm⟩
  have hother : ∀ d ∈ done, d.path ≠ e.path := by
    intro d hd heq
    have hdistinct := a.distinct
    rw [hsplit, List.map_append, List.map_cons, List.nodup_append] at hdistinct
    exact hdistinct.2.2 d.path (List.mem_map_of_mem hd) e.path List.mem_cons_self heq
  obtain ⟨p, n, hat, hn, htype, hname, hnew, hm⟩ :=
    h.parent hpath (a.parents hsplit hpath) hother (hfits.name e he)
  cases hc : e.contents with
  | none =>
      rw [List.filterMap_cons_none hc] at hfree
      obtain ⟨s', hmkdir, hholds, hpmm⟩ := h.mkdir hpath hc hat hn hname hnew hm
      obtain ⟨before', hbefore', hload⟩ := Tmpfs.loadFrom_directory hc hlen hmkdir
      refine ⟨before', s', hbefore', hload, hholds, ?_⟩
      rw [hpmm]
      exact hfree
  | some c =>
      rw [List.filterMap_cons_some hc, List.length_cons] at hfree
      have hpage : c.length ≤ 4096 := hfits.page c (mem_files.mpr ⟨e, he, hc⟩)
      obtain ⟨fd, s₁, s', hopen, hwrite, hholds, hcount⟩ :=
        h.openFile hpath hc hpage hat hn htype hname hnew hm (by omega)
      refine ⟨before ++ e.bytes, s', rfl, ?_, hholds, by omega⟩
      exact Tmpfs.loadFrom_file hc hlen hopen hwrite

/-- The rounds over all entries. -/
theorem Fits.loadFrom (hfits : a.Fits) (hsplit : a.entries = done ++ es)
    (h : s.Holds done)
    (hlen : (before ++ (es.flatMap Entry.bytes ++ a.ending)).length < 2 ^ 64)
    (hfree : (es.filterMap Entry.contents).length ≤
      freeCells s.pmm.bitmap.isBitSet s.pmm.pages) :
    ∃ bytes s', Tmpfs.loadFrom (es.length + 1) before.length
        (before ++ (es.flatMap Entry.bytes ++ a.ending)) s = .ok (bytes, s') ∧
      s'.Holds a.entries := by
  induction es generalizing done before s with
  | nil =>
      rw [List.append_nil] at hsplit
      rw [hsplit]
      exact ⟨_, s, Tmpfs.loadFrom_zeros a.rest, h⟩
  | cons e es ih =>
      rw [List.flatMap_cons, List.append_assoc] at hlen ⊢
      obtain ⟨before', s', hbefore', hload, hholds, hcount⟩ :=
        hfits.round hsplit h hlen hfree (es.length + 1)
      have hlen' : (before' ++ (es.flatMap Entry.bytes ++ a.ending)).length < 2 ^ 64 := by
        rw [List.length_append, hbefore', ← List.length_append, List.append_assoc]
        exact hlen
      have hrest := ih (by rw [hsplit, List.append_assoc]; rfl) hholds hlen' hcount
      rw [List.length_cons, hload]
      exact hrest

/-- Behind all entries the archive is loaded. -/
theorem loadedIn_of_holds (h : s.Holds a.entries) : a.LoadedIn s := by
  have hl := h.shape.linked
  have hnear : ∀ {cs i}, s.At cs i → s.nearest s.rootTmpfsNode cs = some i := by
    intro cs i hat
    rw [Tmpfs.nearest, hat]
    rfl
  refine ⟨?_, ?_, h.nothingElse⟩
  · intro e he c hc mode hmode
    obtain ⟨i, hat, htype, hcontents⟩ := h.found e he
    obtain ⟨hlen, file, page, hfile, hpage, _, hbytes⟩ := hcontents c hc
    obtain ⟨ds, b, hpath⟩ : ∃ ds b, e.path = ds ++ [b] :=
      ⟨_, _, (List.dropLast_append_getLast e.path_ne).symm⟩
    obtain ⟨n, hn, hnfile, _⟩ := hfile.node_eq
    have hcomp := e.components
    rw [hpath, List.forall_mem_append, List.forall_mem_singleton] at hcomp
    rw [hpath] at hat
    obtain ⟨p, _, hchild⟩ := NameTree.walk_concat hat
    have hname : s.nameOf i = b := NameTree.name_of_child hchild
    have hfileType : s.typeOf i = some .file := by
      rw [htype, Entry.fileType, hc]
      rfl
    have hopen : s.openFile none (CStr.joinPath (ds ++ [b])) mode = .ok _ :=
      h.shape.openFile_existing (by simp) hcomp.1 hcomp.2 (hnear hat) hn hmode
    rw [if_pos ⟨hname.symm, hfileType⟩, hnfile, ← hpath] at hopen
    refine ⟨_, hopen, ?_⟩
    have hread : s.read file 0 c.length = .ok _ := hfile.read_of_le (by omega)
    have hlow : (page * PAGE_SIZE + 0) % 2 ^ 64 = page * PAGE_SIZE := by
      rw [Nat.add_zero]
      exact Nat.mod_eq_of_lt (s.pmm.page_lt hpage)
    have hcopy : Tmpfs.copyOut s.mem (page * PAGE_SIZE) c.length = c := by
      apply List.ext_getElem
      · rw [Tmpfs.copyOut, List.length_map, List.length_range]
      · intro j _ hj
        simp only [Tmpfs.copyOut, List.getElem_map, List.getElem_range]
        rw [hbytes j hj, List.getD_eq_getElem _ _ hj]
    rw [hlow, hcopy] at hread
    exact hread
  · intro e he hc
    obtain ⟨i, hat, htype, _⟩ := h.found e he
    refine ⟨i, ?_, hat, ?_⟩
    · rw [h.shape.pathToNode_eq e.path_ne e.components, hnear hat]
    · rw [htype, Entry.fileType, hc]
      rfl

theorem fits_of_load {more : List (List UInt8)} {pmm : Pmm} {mem : ByteMem} {tmpfs fuel : Nat}
    {bytes : List UInt8}
    (hload : Tmpfs.load fuel (a.bytes :: more) (Tmpfs.init pmm mem tmpfs) = .ok (bytes, s))
    (hl : a.LoadedIn s) : a.Fits :=
  hl.fits ((Tmpfs.loading_init pmm mem tmpfs).loadFrom hload)

/-- With a frame for each file, an archive is loaded as it should be exactly when each
file fits a page and no entry has the name of its directory. -/
theorem load_faithful_iff (a : Archive) (more : List (List UInt8)) (pmm : Pmm)
    (mem : ByteMem) (tmpfs : Nat)
    (hfree : a.files.length ≤ freeCells pmm.bitmap.isBitSet pmm.pages) :
    (∃ fuel bytes s, Tmpfs.load fuel (a.bytes :: more) (Tmpfs.init pmm mem tmpfs) =
        .ok (bytes, s) ∧ a.LoadedIn s) ↔ a.Fits := by
  constructor
  · intro hex
    obtain ⟨fuel, bytes, s, hload, hl⟩ := hex
    exact fits_of_load hload hl
  · intro hfits
    have hinit := Tmpfs.holds_init pmm mem tmpfs
    obtain ⟨bytes, s, hload, hholds⟩ :=
      hfits.loadFrom (List.nil_append a.entries).symm hinit a.fits hfree
    rw [a.length_first] at hload
    exact ⟨a.entries.length + 1, bytes, s, hload, loadedIn_of_holds hholds⟩

/-! ## A directory with a file -/

/-- A header: ten bytes, a name, the digits of a size, and the type. -/
def headerOf (name digits : CStr) (type : UInt8) : List UInt8 :=
  List.replicate 10 46 ++ (name ++ 0 :: (List.replicate (113 - name.length) 0 ++
    (digits ++ 0 :: (List.replicate (31 - digits.length) 0 ++ type :: List.replicate 355 0))))

variable {name digits : CStr} {type : UInt8}

theorem length_headerOf (hname : name.length ≤ 113) (hdigits : digits.length ≤ 31) :
    (headerOf name digits type).length = 512 := by
  simp only [headerOf, List.length_append, List.length_cons, List.length_replicate]
  omega

theorem name_headerOf (hname : 0 ∉ name) :
    CStr.ofBytes ((headerOf name digits type).drop 10) = .ok name := by
  rw [headerOf, List.drop_left' List.length_replicate]
  exact CStr.ofBytes_append hname _

theorem isComponent_singleton {b : UInt8} (h0 : b ≠ 0) (hslash : b ≠ CStr.slash) :
    CStr.IsComponent [b] := by
  refine ⟨List.cons_ne_nil b [], ?_, ?_⟩
  · rw [List.mem_singleton]
    exact hslash.symm
  · rw [List.mem_singleton]
    exact h0.symm

/-- The directory `/a`. -/
def directoryA : Entry where
  path := [[97]]
  contents := none
  header := headerOf [47, 97, 47] [48] UType.directory
  padding := []
  path_ne := List.cons_ne_nil _ _
  components := by
    intro c hc
    rw [List.mem_singleton.mp hc]
    exact isComponent_singleton (by decide) (by decide)
  length_header := length_headerOf (by decide) (by decide)
  name := name_headerOf (by decide)
  type := rfl
  size := nofun
  length_padding := Nat.zero_lt_succ 511
  padded := Nat.dvd_zero 512

/-- A file in it with the byte 7. -/
def fileBelowA (b : UInt8) (hb : CStr.IsComponent [b]) : Entry where
  path := [[97], [b]]
  contents := some [7]
  header := headerOf (47 :: 97 :: 47 :: [b]) [49] UType.file
  padding := List.replicate 511 0
  path_ne := List.cons_ne_nil _ _
  components := by
    intro c hc
    rcases List.mem_cons.mp hc with rfl | hc
    · exact isComponent_singleton (by decide) (by decide)
    · rw [List.mem_singleton.mp hc]
      exact hb
  length_header := length_headerOf (Nat.le_add_right 4 109) (by decide)
  name := by
    refine name_headerOf ?_
    simp only [List.mem_cons, not_or]
    exact ⟨by decide, by decide, by decide, fun h => hb.2.2 (h ▸ List.mem_cons_self), nofun⟩
  type := rfl
  size := by
    intro c hc
    cases hc
    refine ⟨[49], rfl, ?_, rfl⟩
    intro d hd
    rw [List.mem_singleton.mp hd]
    exact ⟨by decide, by decide⟩
  length_padding := by
    rw [List.length_replicate]
    exact Nat.lt_succ_self 511
  padded := by
    rw [List.length_replicate]
    exact Nat.dvd_refl 512

/-- Both of them. -/
def aAndFile (b : UInt8) (hb : CStr.IsComponent [b]) : Archive where
  first := List.replicate 512 0
  entries := [directoryA, fileBelowA b hb]
  rest := []
  length_first := List.length_replicate
  distinct := by
    show ([[[97]], [[97], [b]]] : List (List CStr)).Nodup
    simp
  parents := by
    intro before e after ds b' hsplit hpath
    cases before with
    | nil =>
        -- the directory, which is in the root
        cases hsplit
        have hends : [] ++ [[97]] = ds ++ [b'] := hpath
        exact .inl (List.append_inj_left' hends rfl).symm
    | cons d before =>
        obtain ⟨rfl, hrest⟩ := List.cons.inj hsplit
        cases before with
        | nil =>
            cases hrest
            have hends : [[97]] ++ [[b]] = ds ++ [b'] := hpath
            exact .inr ⟨directoryA, List.mem_cons_self, rfl, List.append_inj_left' hends rfl⟩
        | cons d before => simp at hrest
  fits := by
    have hdir : directoryA.data = [] := rfl
    have hfile : (fileBelowA b hb).data = 7 :: List.replicate 511 0 := rfl
    simp only [List.flatMap_cons, List.flatMap_nil, List.length_append, Entry.length_bytes,
      hdir, hfile, List.length_replicate, List.length_cons, List.length_nil]
    decide

/-- They fit when they have different names. -/
theorem fits_aAndFile {b : UInt8} (hb : CStr.IsComponent [b]) :
    (aAndFile b hb).Fits ↔ b ≠ 97 := by
  constructor
  · intro hfits hb97
    subst hb97
    exact hfits.name (fileBelowA 97 hb) (List.mem_cons_of_mem _ List.mem_cons_self) [] [97] rfl
  · intro hne
    refine ⟨?_, ?_⟩
    · intro c hc
      obtain rfl := List.mem_singleton.mp (show c ∈ [[7]] from hc)
      decide
    · intro e he ds x hpath
      rcases List.mem_cons.mp he with rfl | he
      · have hlen := congrArg List.length hpath
        rw [List.length_append] at hlen
        exact absurd hlen (show 1 ≠ ds.length + 2 by omega)
      · obtain rfl := List.mem_singleton.mp he
        have hends : [] ++ [[97], [b]] = ds ++ [x, x] := hpath
        obtain ⟨hfirst, hlast⟩ := List.cons.inj (List.append_inj' hends rfl).2
        have hsame : [b] = [97] := (List.cons.inj hlast).1.trans hfirst.symm
        exact hne (List.cons.inj hsame).1

/-- The directory `/a` and the file `/a/b` are loaded. -/
theorem load_faithful_iff_a_b :
    let a := aAndFile 98 (isComponent_singleton (by decide) (by decide))
    ∃ fuel bytes s, Tmpfs.load fuel [a.bytes] Tmpfs.sixteenPages = .ok (bytes, s) ∧
      a.LoadedIn s := by
  have hfits := (fits_aAndFile (isComponent_singleton (b := 98) (by decide) (by decide))).mpr
    (by decide)
  exact (load_faithful_iff _ [] _ _ _ (by decide)).mpr hfits

/-- The directory `/a` and the file `/a/a` are not, with 15 frames for its one byte. -/
theorem load_a_a_unfaithful :
    let a := aAndFile 97 (isComponent_singleton (by decide) (by decide))
    a.files = [[7]] ∧
      freeCells Tmpfs.sixteenPages.pmm.bitmap.isBitSet Tmpfs.sixteenPages.pmm.pages = 15 ∧
      ¬∃ fuel bytes s, Tmpfs.load fuel [a.bytes] Tmpfs.sixteenPages = .ok (bytes, s) ∧
        a.LoadedIn s := by
  intro a
  refine ⟨rfl, by decide, ?_⟩
  intro hex
  obtain ⟨fuel, bytes, s, hload, hl⟩ := hex
  exact (fits_aAndFile _).mp (fits_of_load hload hl) rfl

end Archive

end Toystar.Fs

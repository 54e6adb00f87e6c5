import Toystar.Fs.TmpfsFile
import Toystar.Fs.TmpfsPath

/-!
# The initial files

`Tmpfs::load` of `kernel/fs/inittmpfs.cpp` walks the headers of the first module, a
`ustar` archive, and makes a file or a directory for each.  A module is the list of
its bytes: an offset is the distance from `begin`, and what lies behind `end` is not
read.  The frames of the module are not frames that `PMM::alloc` hands out, so the
files do not alias it.

An `Archive` is what the loop is written for: 512 bytes that it skips, the entries, a
block of zeros, and then anything.
-/

namespace Toystar.Fs

open Toystar.Kernel
open Toystar.Klibc
open Toystar.Memory
open Toystar.Verified

/-! ## The loader -/

namespace UType

/-- `'0'` -/
def file : UInt8 := 48

/-- `'2'` -/
def symlink : UInt8 := 50

/-- `'5'` -/
def directory : UInt8 := 53

end UType

namespace Tmpfs

/-- `*(begin + i)`. -/
def byteAt (bytes : List UInt8) (i : Nat) : Except Fault UInt8 :=
  match bytes[i]? with
  | some c => .ok c
  | none => .error .outOfBounds

/-- The string at `begin + i`. -/
def stringAt (bytes : List UInt8) (i : Nat) : Except Fault CStr := CStr.ofBytes (bytes.drop i)

/-- The case of a file: the offset to go on from.  `continue` leaves it. -/
def loadFile (i : Nat) (bytes : List UInt8) (s : Tmpfs) : Except Fault (Nat × Tmpfs) := do
  let (fd, s) ← s.openFile none (← stringAt bytes (i + 10)) CREATE
  match fd with
  | none => return (i, s)
  | some fd =>
      let fileSize := CStr.octalToInt (← stringAt bytes (i + 124))
      let (r, s) ← s.write fd.file 0 fileSize fun j => bytes.getD (i + 512 + j) 0
      -- the copy has read the contents
      if r = 0 ∧ 0 < fileSize ∧ bytes.length < i + 512 + fileSize then .error .outOfBounds
      else return ((i + divCeil fileSize 512 * 512) % 2 ^ 64, s)

/-- The case of a directory.  The last character of the name is overwritten in the
archive; the inner `i` is the length of the name. -/
def loadDirectory (i : Nat) (bytes : List UInt8) (s : Tmpfs) :
    Except Fault (List UInt8 × Tmpfs) := do
  let name ← stringAt bytes (i + 10)
  let bytes := bytes.set (i + 10 + name.length - 1) 0
  let (_, s) ← s.mkdir none (← stringAt bytes (i + 10))
  return (bytes, s)

/-- The `switch` over the type of a header. -/
def loadEntry (type : UInt8) (i : Nat) (bytes : List UInt8) (s : Tmpfs) :
    Except Fault (Nat × List UInt8 × Tmpfs) :=
  if type = UType.file then do
    let (i, s) ← loadFile i bytes s
    return (i, bytes, s)
  else if type = UType.symlink then return (i, bytes, s)
  else if type = UType.directory then do
    let (bytes, s) ← loadDirectory i bytes s
    return (i, bytes, s)
  else .error .panic

/-- The loop over the headers. -/
def loadFrom : Nat → Nat → List UInt8 → Tmpfs → Except Fault (List UInt8 × Tmpfs)
  | 0, _, _, _ => .error .fuel
  | fuel + 1, i, bytes, s =>
      if i < bytes.length then do
        let type ← byteAt bytes (i + 156)
        if type = 0 then return (bytes, s)
        let (i, bytes, s) ← loadEntry type i bytes s
        loadFrom fuel ((i + 512) % 2 ^ 64) bytes s
      else return (bytes, s)

/-- `Tmpfs::load`: the bytes of the first module, and the files. -/
def load (fuel : Nat) (modules : List (List UInt8)) (s : Tmpfs) :
    Except Fault (List UInt8 × Tmpfs) :=
  match modules with
  | [] => .error .panic
  | bytes :: _ => loadFrom fuel 512 bytes s

end Tmpfs

/-! ## Archives -/

/-- An entry of an archive: a file with its contents and their padding, or, without
contents, a directory. -/
structure Entry where
  path : List CStr
  contents : Option (List UInt8)
  header : List UInt8
  padding : List UInt8
  path_ne : path ≠ []
  components : ∀ c ∈ path, CStr.IsComponent c
  length_header : header.length = 512
  name : CStr.ofBytes (header.drop 10) =
    .ok (CStr.joinPath path ++ if contents.isSome then [] else [CStr.slash])
  type : header[156]? = some (if contents.isSome then UType.file else UType.directory)
  size : ∀ c ∈ contents, ∃ digits, CStr.ofBytes (header.drop 124) = .ok digits ∧
    (∀ d ∈ digits, CStr.IsOctal d) ∧ CStr.octal digits = c.length
  length_padding : padding.length < 512
  padded : 512 ∣ (contents.getD []).length + padding.length

namespace Entry

/-- What follows the header. -/
def data (e : Entry) : List UInt8 := e.contents.getD [] ++ e.padding

def bytes (e : Entry) : List UInt8 := e.header ++ e.data

/-- The type of the node the entry stands for. -/
def fileType (e : Entry) : FileType := if e.contents.isSome then .file else .directory

end Entry

/-- A `ustar` archive in memory: a header to skip, entries of different paths, each
behind the directory it is in, a block of zeros and a rest. -/
structure Archive where
  first : List UInt8
  entries : List Entry
  rest : List UInt8
  length_first : first.length = 512
  distinct : (entries.map Entry.path).Nodup
  parents : ∀ {before e after ds b}, entries = before ++ e :: after → e.path = ds ++ [b] →
    ds = [] ∨ ∃ d ∈ before, d.contents = none ∧ d.path = ds
  fits : (first ++ (entries.flatMap Entry.bytes ++ (List.replicate 512 0 ++ rest))).length <
    2 ^ 64

namespace Archive

/-- The block of zeros and what is behind it. -/
def ending (a : Archive) : List UInt8 := List.replicate 512 0 ++ a.rest

def bytes (a : Archive) : List UInt8 := a.first ++ (a.entries.flatMap Entry.bytes ++ a.ending)

/-- The contents of the files. -/
def files (a : Archive) : List (List UInt8) := a.entries.filterMap Entry.contents

end Archive

/-! ## Reading a header -/

namespace Tmpfs

section Blocks

variable {block : List UInt8} {k : Nat}

/-- The bytes from a place in a block on. -/
theorem drop_block (hk : k ≤ block.length) (before after : List UInt8) :
    (before ++ (block ++ after)).drop (before.length + k) = block.drop k ++ after := by
  rw [← List.drop_drop, List.drop_left, List.drop_append_of_le_length hk]

/-- A string that ends in the block. -/
theorem stringAt_block {str : CStr} (hk : k ≤ block.length)
    (hstr : CStr.ofBytes (block.drop k) = .ok str) (before after : List UInt8) :
    stringAt (before ++ (block ++ after)) (before.length + k) = .ok str := by
  rw [stringAt, drop_block hk]
  exact CStr.ofBytes_of_append hstr _

theorem byteAt_block {c : UInt8} (hc : block[k]? = some c) (before after : List UInt8) :
    byteAt (before ++ (block ++ after)) (before.length + k) = .ok c := by
  have hk : k < block.length := (List.getElem?_eq_some_iff.mp hc).1
  rw [byteAt, List.getElem?_append_right (Nat.le_add_right _ _), Nat.add_sub_cancel_left,
    List.getElem?_append_left hk, hc]

/-- The type byte of the block of zeros. -/
theorem byteAt_zeros (before rest : List UInt8) :
    byteAt (before ++ (List.replicate 512 0 ++ rest)) (before.length + 156) = .ok 0 := by
  apply byteAt_block
  rw [List.getElem?_replicate, if_pos (by decide)]

/-- Contents and padding fill the blocks. -/
theorem divCeil_blocks {size padding : Nat} (hsize : size < 2 ^ 64 - 511)
    (hpad : padding < 512) (hdvd : 512 ∣ size + padding) :
    divCeil size 512 * 512 = size + padding := by
  obtain ⟨n, hn⟩ := hdvd
  have hmod : (size + 512 - 1) % 2 ^ 64 = size + 511 := Nat.mod_eq_of_lt (by omega)
  rw [divCeil, hmod]
  omega

end Blocks

end Tmpfs

namespace Entry

variable {e : Entry} {c before after : List UInt8}

theorem data_directory (hdir : e.contents = none) : e.data = [] := by
  have hpad := e.padded
  have hlen := e.length_padding
  rw [hdir] at hpad
  have hzero : e.padding.length = 0 := by
    rw [Option.getD_none, List.length_nil, Nat.zero_add] at hpad
    exact Nat.eq_zero_of_dvd_of_lt hpad hlen
  rw [data, hdir, List.eq_nil_of_length_eq_zero hzero]
  rfl

/-- The loop goes on behind the padding. -/
theorem length_data (hfile : e.contents = some c) (hc : c.length < 2 ^ 64 - 511) :
    divCeil c.length 512 * 512 = e.data.length := by
  have hpad := e.padded
  rw [hfile, Option.getD_some] at hpad
  rw [Tmpfs.divCeil_blocks hc e.length_padding hpad, data, hfile, Option.getD_some,
    List.length_append]

theorem length_bytes : e.bytes.length = 512 + e.data.length := by
  rw [bytes, List.length_append, e.length_header]

theorem stringAt_header {str : CStr} (k : Nat) (hk : k ≤ 512)
    (hstr : CStr.ofBytes (e.header.drop k) = .ok str) :
    Tmpfs.stringAt (before ++ (e.bytes ++ after)) (before.length + k) = .ok str := by
  rw [← e.length_header] at hk
  rw [bytes, List.append_assoc]
  exact Tmpfs.stringAt_block hk hstr _ _

theorem byteAt_type (before after : List UInt8) :
    Tmpfs.byteAt (before ++ (e.bytes ++ after)) (before.length + 156) =
      .ok (if e.contents.isSome then UType.file else UType.directory) := by
  rw [bytes, List.append_assoc]
  exact Tmpfs.byteAt_block e.type _ _

/-- The name of a file is its path. -/
theorem name_file (hfile : e.contents = some c) :
    Tmpfs.stringAt (before ++ (e.bytes ++ after)) (before.length + 10) =
      .ok (CStr.joinPath e.path) := by
  have hname := e.name
  rw [hfile, Option.isSome_some, if_pos rfl, List.append_nil] at hname
  exact stringAt_header 10 (by decide) hname

theorem size_file (hfile : e.contents = some c) (hc : c.length < 2 ^ 64)
    (before after : List UInt8) :
    ∃ digits, Tmpfs.stringAt (before ++ (e.bytes ++ after)) (before.length + 124) =
        .ok digits ∧ CStr.octalToInt digits = c.length := by
  obtain ⟨digits, hread, hoctal, hsize⟩ := e.size c hfile
  refine ⟨digits, stringAt_header 124 (by decide) hread, ?_⟩
  rw [CStr.octalToInt_eq hoctal, hsize, Nat.mod_eq_of_lt hc]

/-- The contents follow the header. -/
theorem contents_at (hfile : e.contents = some c) {j : Nat} (hj : j < c.length) :
    (before ++ (e.bytes ++ after)).getD (before.length + 512 + j) 0 = c.getD j 0 := by
  have hdrop : before.length + 512 + j = before.length + (e.header.length + j) := by
    rw [e.length_header, Nat.add_assoc]
  rw [List.getD_eq_getElem?_getD, List.getD_eq_getElem?_getD, hdrop,
    List.getElem?_append_right (Nat.le_add_right _ _), Nat.add_sub_cancel_left, bytes,
    List.append_assoc, List.getElem?_append_right (Nat.le_add_right _ _),
    Nat.add_sub_cancel_left, data, hfile, Option.getD_some, List.append_assoc,
    List.getElem?_append_left hj]

/-- The name of a directory is its path once the last character is overwritten. -/
theorem name_directory (hdir : e.contents = none) (before after : List UInt8) :
    ∃ name header', Tmpfs.stringAt (before ++ (e.bytes ++ after)) (before.length + 10) =
        .ok name ∧ header'.length = 512 ∧
      (before ++ (e.bytes ++ after)).set (before.length + 10 + name.length - 1) 0 =
        before ++ (header' ++ after) ∧
      Tmpfs.stringAt (before ++ (header' ++ after)) (before.length + 10) =
        .ok (CStr.joinPath e.path) := by
  have hname := e.name
  rw [hdir, Option.isSome_none, if_neg (by decide)] at hname
  obtain ⟨_, rest, hrest⟩ := CStr.ofBytes_cases hname
  have hsplit : e.header = e.header.take 10 ++
      (CStr.joinPath e.path ++ CStr.slash :: 0 :: rest) := by
    have htake := List.take_append_drop 10 e.header
    rw [hrest, List.append_assoc] at htake
    exact htake.symm
  have hten : (e.header.take 10).length = 10 := by
    rw [List.length_take, e.length_header]
    decide
  -- the byte before the NUL
  have hset : (before ++ (e.bytes ++ after)).set
      (before.length + 10 + (CStr.joinPath e.path ++ [CStr.slash]).length - 1) 0 =
      before ++ ((e.header.take 10 ++ (CStr.joinPath e.path ++ 0 :: 0 :: rest)) ++ after) := by
    have hpos : before.length + 10 + (CStr.joinPath e.path ++ [CStr.slash]).length - 1 =
        (before ++ (e.header.take 10 ++ CStr.joinPath e.path)).length := by
      simp only [List.length_append, hten, List.length_singleton]
      omega
    have hall : before ++ (e.bytes ++ after) =
        (before ++ (e.header.take 10 ++ CStr.joinPath e.path)) ++
          (CStr.slash :: 0 :: rest ++ after) := by
      conv_lhs => rw [bytes, data_directory hdir, List.append_nil, hsplit]
      simp only [List.append_assoc]
    rw [hpos, hall, List.set_append_right _ _ (le_refl _), Nat.sub_self]
    simp
  refine ⟨_, e.header.take 10 ++ (CStr.joinPath e.path ++ 0 :: 0 :: rest),
    stringAt_header 10 (by decide) hname, ?_, hset, ?_⟩
  · have hlen := congrArg List.length hsplit
    rw [e.length_header] at hlen
    simp only [List.length_append, List.length_cons] at hlen ⊢
    omega
  · have hdrop : (before ++ ((e.header.take 10 ++ (CStr.joinPath e.path ++ 0 :: 0 :: rest)) ++
        after)).drop (before.length + 10) = CStr.joinPath e.path ++ 0 :: (0 :: rest ++ after) := by
      have hpre : before.length + 10 = (before ++ e.header.take 10).length := by
        rw [List.length_append, hten]
      rw [hpre, List.append_assoc, ← List.append_assoc before, List.drop_left]
      simp
    rw [Tmpfs.stringAt, hdrop]
    exact CStr.ofBytes_append (CStr.zero_notMem_joinPath e.components) _

end Entry

/-! ## Rounds of the loop -/

namespace Tmpfs

variable {s s' s₁ : Tmpfs} {e : Entry} {c before after bytes bytes' : List UInt8}
  {fuel i i' : Nat} {r : Int}

/-- A round over a header of another type than 0. -/
theorem loadFrom_succ {type : UInt8} (hi : i < bytes.length)
    (htype : byteAt bytes (i + 156) = .ok type) (hne : type ≠ 0)
    (hentry : loadEntry type i bytes s = .ok (i', bytes', s')) :
    loadFrom (fuel + 1) i bytes s = loadFrom fuel ((i' + 512) % 2 ^ 64) bytes' s' := by
  rw [loadFrom, if_pos hi, htype, ok_bind]
  dsimp only
  rw [if_neg hne]
  simp only [hentry, ok_bind]

/-- The block of zeros ends the loop. -/
theorem loadFrom_zeros (rest : List UInt8) :
    loadFrom (fuel + 1) before.length (before ++ (List.replicate 512 0 ++ rest)) s =
      .ok (before ++ (List.replicate 512 0 ++ rest), s) := by
  have hi : before.length < (before ++ (List.replicate 512 0 ++ rest)).length := by
    simp only [List.length_append, List.length_replicate]
    omega
  rw [loadFrom, if_pos hi, byteAt_zeros, ok_bind]
  rfl

theorem length_entry (before after : List UInt8) (e : Entry) :
    (before ++ (e.bytes ++ after)).length =
      before.length + 512 + e.data.length + after.length := by
  rw [List.length_append, List.length_append, e.length_bytes]
  omega

/-- A round over a directory. -/
theorem loadFrom_directory (hdir : e.contents = none)
    (hfits : (before ++ (e.bytes ++ after)).length < 2 ^ 64)
    (hmkdir : s.mkdir none (CStr.joinPath e.path) = .ok (r, s')) :
    ∃ before', before'.length = (before ++ e.bytes).length ∧
      loadFrom (fuel + 1) before.length (before ++ (e.bytes ++ after)) s =
        loadFrom fuel before'.length (before' ++ after) s' := by
  obtain ⟨name, header', hname, hheader', hset, hpath⟩ := e.name_directory hdir before after
  have hbefore' : (before ++ header').length = before.length + 512 := by
    rw [List.length_append, hheader']
  have hlen := length_entry before after e
  have hdata := congrArg List.length (e.data_directory hdir)
  rw [List.length_nil] at hdata
  have htype := e.byteAt_type before after
  rw [hdir, Option.isSome_none, if_neg (by decide)] at htype
  have hentry : loadEntry UType.directory before.length (before ++ (e.bytes ++ after)) s =
      .ok (before.length, before ++ (header' ++ after), s') := by
    rw [loadEntry, if_neg (by decide), if_neg (by decide), if_pos rfl, loadDirectory, hname,
      ok_bind]
    dsimp only
    rw [hset, hpath, ok_bind, hmkdir]
    rfl
  refine ⟨before ++ header', ?_, ?_⟩
  · rw [hbefore', List.length_append, e.length_bytes, hdata]
  · rw [loadFrom_succ (by omega) htype (by decide) hentry, Nat.mod_eq_of_lt (by omega),
      hbefore', List.append_assoc]

theorem copyIn_congr {mem : ByteMem} {dest size : Nat} {buffer buffer' : Nat → UInt8}
    (h : ∀ j < size, buffer j = buffer' j) :
    copyIn mem dest buffer size = copyIn mem dest buffer' size := by
  funext x
  unfold copyIn
  by_cases hx : dest ≤ x ∧ x < dest + size
  · rw [if_pos hx, if_pos hx, h (x - dest) (by omega)]
  · rw [if_neg hx, if_neg hx]

/-- A `write` reads its buffer up to `size`. -/
theorem write_congr {file offset size : Nat} {buffer buffer' : Nat → UInt8}
    (h : ∀ j < size, buffer j = buffer' j) :
    s.write file offset size buffer = s.write file offset size buffer' := by
  unfold write
  simp only [copyIn_congr h]

/-- A round over a file that `open` makes. -/
theorem loadFrom_file (hfile : e.contents = some c)
    (hfits : (before ++ (e.bytes ++ after)).length < 2 ^ 64) {fd : FileDescription}
    (hopen : s.openFile none (CStr.joinPath e.path) CREATE = .ok (some fd, s₁))
    (hwrite : s₁.write fd.file 0 c.length (fun j => c.getD j 0) = .ok (r, s')) :
    loadFrom (fuel + 1) before.length (before ++ (e.bytes ++ after)) s =
      loadFrom fuel (before ++ e.bytes).length ((before ++ e.bytes) ++ after) s' := by
  have hlen := length_entry before after e
  have hc : c.length ≤ e.data.length := by
    rw [Entry.data, hfile, Option.getD_some, List.length_append]
    exact Nat.le_add_right _ _
  have htype := e.byteAt_type before after
  rw [hfile, Option.isSome_some, if_pos rfl] at htype
  obtain ⟨digits, hdigits, hsize⟩ := e.size_file hfile (by omega) before after
  have hsame : s₁.write fd.file 0 c.length
      (fun j => (before ++ (e.bytes ++ after)).getD (before.length + 512 + j) 0) =
        .ok (r, s') := by
    rw [← hwrite]
    exact write_congr fun j hj => e.contents_at hfile hj
  have hentry : loadEntry UType.file before.length (before ++ (e.bytes ++ after)) s =
      .ok (before.length + e.data.length, before ++ (e.bytes ++ after), s') := by
    rw [loadEntry, if_pos rfl, loadFile, e.name_file hfile, ok_bind, hopen, ok_bind]
    dsimp only
    rw [hdigits, ok_bind, hsize, hsame, ok_bind]
    dsimp only
    rw [if_neg (by omega), e.length_data hfile (by omega), Nat.mod_eq_of_lt (by omega)]
    rfl
  rw [loadFrom_succ (by omega) htype (by decide) hentry, Nat.mod_eq_of_lt (by omega),
    List.length_append, e.length_bytes, List.append_assoc]
  congr 1
  omega

/-! ## What every load keeps -/

section Keeps

variable {P : Tmpfs → Prop}
  (hopen : ∀ {s s' path fd}, P s → 0 ∉ path → s.openFile none path CREATE = .ok (fd, s') → P s')
  (hwrite : ∀ {s s' file size buffer r}, P s →
    s.write file 0 size buffer = .ok (r, s') → P s')
  (hmkdir : ∀ {s s' path r}, P s → 0 ∉ path → s.mkdir none path = .ok (r, s') → P s')
include hopen hwrite hmkdir

theorem loadEntry_keeps {type : UInt8} (hs : P s)
    (h : loadEntry type i bytes s = .ok (i', bytes', s')) : P s' := by
  unfold loadEntry at h
  split at h
  · obtain ⟨⟨j, t⟩, hload, hret⟩ := bind_eq_ok.mp h
    cases hret
    unfold loadFile at hload
    obtain ⟨path, hpath, hload⟩ := bind_eq_ok.mp hload
    obtain ⟨⟨fd, s₁⟩, hfd, hload⟩ := bind_eq_ok.mp hload
    have hs₁ : P s₁ := hopen hs (CStr.zero_notMem_of_ofBytes hpath) hfd
    cases fd with
    | none =>
        cases hload
        exact hs₁
    | some fd =>
        obtain ⟨digits, _, hload⟩ := bind_eq_ok.mp hload
        obtain ⟨⟨r, s₂⟩, hw, hload⟩ := bind_eq_ok.mp hload
        have hs₂ : P s₂ := hwrite hs₁ hw
        dsimp only at hload
        split at hload
        · cases hload
        · cases hload
          exact hs₂
  · split at h
    · cases h
      exact hs
    · split at h
      · obtain ⟨⟨b, t⟩, hload, hret⟩ := bind_eq_ok.mp h
        cases hret
        unfold loadDirectory at hload
        obtain ⟨name, _, hload⟩ := bind_eq_ok.mp hload
        obtain ⟨path, hpath, hload⟩ := bind_eq_ok.mp hload
        obtain ⟨⟨r, s₁⟩, hdir, hret⟩ := bind_eq_ok.mp hload
        cases hret
        exact hmkdir hs (CStr.zero_notMem_of_ofBytes hpath) hdir
      · cases h

/-- What the calls of a load keep, the load keeps, whatever the bytes are. -/
theorem loadFrom_keeps (hs : P s) (h : loadFrom fuel i bytes s = .ok (bytes', s')) :
    P s' := by
  induction fuel generalizing i bytes s with
  | zero => cases h
  | succ fuel ih =>
      unfold loadFrom at h
      split at h
      · obtain ⟨type, _, h⟩ := bind_eq_ok.mp h
        dsimp only at h
        split at h
        · cases h
          exact hs
        · obtain ⟨⟨j, b, t⟩, hentry, h⟩ := bind_eq_ok.mp h
          exact ih (loadEntry_keeps hopen hwrite hmkdir hs hentry) h
      · cases h
        exact hs

end Keeps

end Tmpfs

end Toystar.Fs

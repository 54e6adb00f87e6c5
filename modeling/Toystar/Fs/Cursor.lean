import Toystar.Fs.Initrd

/-!
# The cursor of `Tmpfs::load`

The loop goes from header to header: by one block at its end, and in the case of a file by
the blocks of the contents before.  When `open` fails, `continue` skips that advance, and
the contents of the file are read as headers.  So the cursor stays on the headers exactly
when each file that has contents is made (`cursor_on_headers_iff`).

What the filesystem answers is an argument of `cursor`.  `Tmpfs.loadTrace` is the loop over
the filesystem, which is the cursor on the answers it got.
-/

namespace Toystar.Fs

open Toystar.Kernel
open Toystar.Klibc
open Toystar.Memory
open Toystar.Verified

/-! ## The loop -/

/-- A round of `Tmpfs::load` over a header: where the cursor goes on from, before the step of
the loop, and the bytes of the module.  The answer is none when `open` returns null, and
else the result of `write`. -/
def cursorEntry (answer : Option Int) (type : UInt8) (i : Nat) (bytes : List UInt8) :
    Except Fault (Nat × List UInt8) :=
  if type = UType.file then do
    let _ ← Tmpfs.stringAt bytes (i + 10)
    match answer with
    | none => return (i, bytes)
    | some r =>
        let fileSize := CStr.octalToInt (← Tmpfs.stringAt bytes (i + 124))
        if r = 0 ∧ 0 < fileSize ∧ bytes.length < i + 512 + fileSize then .error .outOfBounds
        else return ((i + divCeil fileSize 512 * 512) % 2 ^ 64, bytes)
  else if type = UType.symlink then return (i, bytes)
  else if type = UType.directory then do
    let name ← Tmpfs.stringAt bytes (i + 10)
    let bytes := bytes.set (i + 10 + name.length - 1) 0
    let _ ← Tmpfs.stringAt bytes (i + 10)
    return (i, bytes)
  else .error .panic

/-- The offsets that `Tmpfs::load` interprets as headers, from `i` on, with the answers to
this round and the next ones. -/
def cursor (answers : Nat → Option Int) : Nat → Nat → List UInt8 → Except Fault (List Nat)
  | 0, _, _ => .error .fuel
  | fuel + 1, i, bytes =>
      if i < bytes.length then do
        let type ← Tmpfs.byteAt bytes (i + 156)
        if type = 0 then return [i]
        let (next, bytes) ← cursorEntry (answers 0) type i bytes
        return i :: (← cursor (fun j => answers (j + 1)) fuel ((next + 512) % 2 ^ 64) bytes)
      else return []

namespace Tmpfs

/-- What the filesystem answers to a header: none when `open` returns null or is not called,
and else the result of `write`. -/
def answer (type : UInt8) (i : Nat) (bytes : List UInt8) (s : Tmpfs) :
    Except Fault (Option Int) :=
  if type = UType.file then do
    let (fd, s) ← s.openFile none (← stringAt bytes (i + 10)) CREATE
    match fd with
    | none => return none
    | some fd =>
        let fileSize := CStr.octalToInt (← stringAt bytes (i + 124))
        let (r, _) ← s.write fd.file 0 fileSize fun j => bytes.getD (i + 512 + j) 0
        return some r
  else return none

/-- The loop of `Tmpfs::load`: the offsets that it interprets as headers, with the answers
that it gets there. -/
def loadTrace : Nat → Nat → List UInt8 → Tmpfs → Except Fault (List (Nat × Option Int))
  | 0, _, _, _ => .error .fuel
  | fuel + 1, i, bytes, s =>
      if i < bytes.length then do
        let type ← byteAt bytes (i + 156)
        if type = 0 then return [(i, none)]
        let r ← answer type i bytes s
        let (next, bytes, s) ← loadEntry type i bytes s
        return (i, r) :: (← loadTrace fuel ((next + 512) % 2 ^ 64) bytes s)
      else return []

variable {s s' : Tmpfs} {bytes bytes' : List UInt8} {type : UInt8} {i i' fuel : Nat}
  {trace : List (Nat × Option Int)}

/-- A round over the filesystem is one over its answer. -/
theorem cursorEntry_of_loadEntry (h : loadEntry type i bytes s = .ok (i', bytes', s')) :
    ∃ r, answer type i bytes s = .ok r ∧ cursorEntry r type i bytes = .ok (i', bytes') := by
  unfold loadEntry at h
  split at h
  next hfile =>
    obtain ⟨⟨j, t⟩, hload, hret⟩ := bind_eq_ok.mp h
    cases hret
    unfold loadFile at hload
    obtain ⟨path, hpath, hload⟩ := bind_eq_ok.mp hload
    obtain ⟨⟨fd, s₁⟩, hopen, hload⟩ := bind_eq_ok.mp hload
    rw [answer, if_pos hfile, hpath, ok_bind, hopen]
    cases fd with
    | none =>
        cases hload
        refine ⟨none, rfl, ?_⟩
        rw [cursorEntry, if_pos hfile, hpath]
        rfl
    | some fd =>
        obtain ⟨digits, hdigits, hload⟩ := bind_eq_ok.mp hload
        obtain ⟨⟨r, s₂⟩, hwrite, hload⟩ := bind_eq_ok.mp hload
        refine ⟨some r, ?_, ?_⟩
        · rw [ok_bind]
          dsimp only
          rw [hdigits, ok_bind, hwrite]
          rfl
        · rw [cursorEntry, if_pos hfile, hpath, ok_bind, hdigits, ok_bind]
          dsimp only at hload ⊢
          split at hload
          next hout => cases hload
          next hin =>
            cases hload
            rw [if_neg hin]
            rfl
  next hfile =>
    rw [answer, if_neg hfile]
    refine ⟨none, rfl, ?_⟩
    rw [cursorEntry, if_neg hfile]
    split at h
    next hlink =>
      cases h
      rw [if_pos hlink]
      rfl
    next hlink =>
      rw [if_neg hlink]
      split at h
      next hdir =>
        obtain ⟨⟨b, t⟩, hload, hret⟩ := bind_eq_ok.mp h
        cases hret
        unfold loadDirectory at hload
        obtain ⟨name, hname, hload⟩ := bind_eq_ok.mp hload
        obtain ⟨path, hpath, hload⟩ := bind_eq_ok.mp hload
        obtain ⟨⟨r, s₁⟩, _, hret⟩ := bind_eq_ok.mp hload
        cases hret
        rw [if_pos hdir, hname, ok_bind]
        dsimp only
        rw [hpath]
        rfl
      next hdir => cases h

/-- A run of `load` has a trace. -/
theorem exists_loadTrace {r : List UInt8 × Tmpfs} (h : loadFrom fuel i bytes s = .ok r) :
    ∃ trace, loadTrace fuel i bytes s = .ok trace := by
  induction fuel generalizing i bytes s with
  | zero => cases h
  | succ fuel ih =>
      unfold loadFrom at h
      by_cases hi : i < bytes.length
      · rw [if_pos hi] at h
        obtain ⟨type, htype, h⟩ := bind_eq_ok.mp h
        rw [loadTrace, if_pos hi, htype, ok_bind]
        by_cases hzero : type = 0
        · exact ⟨[(i, none)], if_pos hzero⟩
        · rw [if_neg hzero] at h ⊢
          obtain ⟨⟨next, bytes', s'⟩, hentry, hrest⟩ := bind_eq_ok.mp h
          obtain ⟨r, hanswer, _⟩ := cursorEntry_of_loadEntry hentry
          obtain ⟨trace, htrace⟩ := ih hrest
          refine ⟨(i, r) :: trace, ?_⟩
          rw [hanswer, ok_bind, hentry, ok_bind]
          dsimp only
          rw [htrace]
          rfl
      · rw [loadTrace, if_neg hi]
        exact ⟨[], rfl⟩

/-- The trace is a run of the cursor on its answers. -/
theorem cursor_of_loadTrace (h : loadTrace fuel i bytes s = .ok trace) :
    cursor (fun j => (trace.map Prod.snd).getD j none) fuel i bytes =
      .ok (trace.map Prod.fst) := by
  induction fuel generalizing i bytes s trace with
  | zero => cases h
  | succ fuel ih =>
      unfold loadTrace at h
      by_cases hi : i < bytes.length
      · rw [if_pos hi] at h
        obtain ⟨type, htype, h⟩ := bind_eq_ok.mp h
        rw [cursor, if_pos hi, htype, ok_bind]
        by_cases hzero : type = 0
        · rw [if_pos hzero] at h ⊢
          cases h
          rfl
        · rw [if_neg hzero] at h ⊢
          obtain ⟨r, hanswer, h⟩ := bind_eq_ok.mp h
          obtain ⟨⟨next, bytes', s'⟩, hentry, h⟩ := bind_eq_ok.mp h
          obtain ⟨trace', hrest, hret⟩ := bind_eq_ok.mp h
          cases hret
          obtain ⟨r', hanswer', hround⟩ := cursorEntry_of_loadEntry hentry
          rw [hanswer] at hanswer'
          obtain rfl := Except.ok.inj hanswer'
          rw [show (List.map Prod.snd ((i, r) :: trace')).getD 0 none = r from rfl, hround,
            ok_bind]
          dsimp only
          rw [show cursor (fun j => (List.map Prod.snd ((i, r) :: trace')).getD (j + 1) none)
            fuel ((next + 512) % 2 ^ 64) bytes' = _ from ih hrest]
          rfl
      · rw [if_neg hi] at h
        cases h
        rw [cursor, if_neg hi]
        rfl

end Tmpfs

/-! ## Archives -/

/-- An entry of a `ustar` archive: a file with its contents and their padding, or a link or a
directory without any. -/
structure UstarEntry where
  header : List UInt8
  type : UInt8
  contents : List UInt8
  padding : List UInt8
  length_header : header.length = 512
  type_eq : header[156]? = some type
  known : type = UType.file ∨ type = UType.symlink ∨ type = UType.directory
  named : ∃ name, CStr.ofBytes (header.drop 10) = .ok name
  size : type = UType.file → ∃ digits, CStr.ofBytes (header.drop 124) = .ok digits ∧
    (∀ d ∈ digits, CStr.IsOctal d) ∧ CStr.octal digits = contents.length
  bare : type ≠ UType.file → contents = []
  length_padding : padding.length < 512
  padded : 512 ∣ contents.length + padding.length

namespace UstarEntry

/-- What follows the header. -/
def data (e : UstarEntry) : List UInt8 := e.contents ++ e.padding

def bytes (e : UstarEntry) : List UInt8 := e.header ++ e.data

/-- The answer does not skip contents: a file that has any is made. -/
def Kept (e : UstarEntry) (answer : Option Int) : Prop :=
  e.type = UType.file → e.contents ≠ [] → answer ≠ none

end UstarEntry

/-- A `ustar` archive in memory: a header to skip, entries, a block of zeros and a rest. -/
structure Ustar where
  first : List UInt8
  entries : List UstarEntry
  rest : List UInt8
  length_first : first.length = 512
  fits : (first ++ (entries.flatMap UstarEntry.bytes ++
    (List.replicate 512 0 ++ rest))).length < 2 ^ 64

namespace Ustar

/-- The headers of `entries` from the offset `i` on, and the block of zeros. -/
def offsets (i : Nat) : List UstarEntry → List Nat
  | [] => [i]
  | e :: entries => i :: offsets (i + e.bytes.length) entries

def bytes (a : Ustar) : List UInt8 :=
  a.first ++ (a.entries.flatMap UstarEntry.bytes ++ (List.replicate 512 0 ++ a.rest))

/-- The headers after the first. -/
def headers (a : Ustar) : List Nat := offsets 512 a.entries

end Ustar

/-! ## Reading an entry -/

/-- A string ends at the first NUL there is. -/
theorem exists_ofBytes {bytes : List UInt8} (h : 0 ∈ bytes) :
    ∃ str, CStr.ofBytes bytes = .ok str := by
  induction bytes with
  | nil => cases h
  | cons c bytes ih =>
      rw [CStr.ofBytes]
      by_cases hc : c = 0
      · exact ⟨[], if_pos hc⟩
      · obtain ⟨str, hstr⟩ := ih ((List.mem_cons.mp h).resolve_left (Ne.symm hc))
        rw [if_neg hc, hstr]
        exact ⟨c :: str, rfl⟩

namespace UstarEntry

variable {e : UstarEntry} {before after : List UInt8} {answer : Option Int}

theorem length_bytes : e.bytes.length = 512 + e.data.length := by
  rw [bytes, List.length_append, e.length_header]

/-- A string of the header. -/
theorem stringAt_header {str : CStr} {k : Nat} (hk : k ≤ 512)
    (hstr : CStr.ofBytes (e.header.drop k) = .ok str) :
    Tmpfs.stringAt (before ++ (e.bytes ++ after)) (before.length + k) = .ok str := by
  rw [← e.length_header] at hk
  rw [bytes, List.append_assoc]
  exact Tmpfs.stringAt_block hk hstr _ _

theorem byteAt_type : Tmpfs.byteAt (before ++ (e.bytes ++ after)) (before.length + 156) =
    .ok e.type := by
  rw [bytes, List.append_assoc]
  exact Tmpfs.byteAt_block e.type_eq _ _

/-- Without contents there is no padding either. -/
theorem data_of_empty (h : e.contents = []) : e.data = [] := by
  have hpad := e.padded
  have hlen := e.length_padding
  rw [h, List.length_nil, Nat.zero_add] at hpad
  have hzero := Nat.eq_zero_of_dvd_of_lt hpad hlen
  rw [data, h, List.eq_nil_of_length_eq_zero hzero]
  rfl

/-- Links and directories have no data. -/
theorem data_of_bare (h : e.type ≠ UType.file) : e.data = [] := e.data_of_empty (e.bare h)

/-- The blocks of the contents end with the padding. -/
theorem length_data (h : e.contents.length < 2 ^ 64 - 511) :
    divCeil e.contents.length 512 * 512 = e.data.length := by
  rw [Tmpfs.divCeil_blocks h e.length_padding e.padded, data, List.length_append]

/-- Overwriting the last character of a name changes the header only. -/
theorem set_name (before after : List UInt8) {name : CStr}
    (hname : CStr.ofBytes (e.header.drop 10) = .ok name) :
    ∃ header', header'.length = 512 ∧
      (before ++ (e.bytes ++ after)).set (before.length + 10 + name.length - 1) 0 =
        before ++ (header' ++ (e.data ++ after)) ∧
      ∃ path, CStr.ofBytes (header'.drop 10) = .ok path := by
  obtain ⟨_, rest, hrest⟩ := CStr.ofBytes_cases hname
  have hlen : e.header.length = 512 := e.length_header
  have hend : 10 + name.length < 512 := by
    have hdrop := congrArg List.length hrest
    rw [List.length_drop, hlen, List.length_append, List.length_cons] at hdrop
    omega
  have hnul : e.header[10 + name.length]? = some 0 := by
    rw [← List.getElem?_drop, hrest, List.getElem?_append_right (le_refl _), Nat.sub_self]
    rfl
  refine ⟨e.header.set (9 + name.length) 0, by rw [List.length_set, hlen], ?_, ?_⟩
  · have hpos : before.length + 10 + name.length - 1 = before.length + (9 + name.length) := by
      omega
    rw [hpos, List.set_append_right _ _ (Nat.le_add_right _ _), Nat.add_sub_cancel_left, bytes,
      List.append_assoc, List.set_append_left _ _ (by omega)]
  · apply exists_ofBytes
    have hkept : (e.header.set (9 + name.length) 0)[10 + name.length]? = some 0 := by
      rw [List.getElem?_set_ne (by omega)]
      exact hnul
    rw [← List.getElem?_drop] at hkept
    exact List.mem_of_getElem? hkept

theorem length_around (e : UstarEntry) (before after : List UInt8) :
    (before ++ (e.bytes ++ after)).length =
      before.length + 512 + e.data.length + after.length := by
  rw [List.length_append, List.length_append, e.length_bytes]
  omega

/-- A file that is not made: the cursor stays where it is. -/
theorem cursorEntry_failed (hfile : e.type = UType.file) :
    cursorEntry none e.type before.length (before ++ (e.bytes ++ after)) =
      .ok (before.length, before ++ (e.bytes ++ after)) := by
  obtain ⟨name, hname⟩ := e.named
  have hstring : Tmpfs.stringAt (before ++ (e.bytes ++ after)) (before.length + 10) =
      .ok name := stringAt_header (by decide) hname
  rw [cursorEntry, if_pos hfile, hstring]
  rfl

/-- A file that is made: the cursor goes over its contents. -/
theorem cursorEntry_made (hfile : e.type = UType.file) (r : Int)
    (hfits : (before ++ (e.bytes ++ after)).length < 2 ^ 64) :
    cursorEntry (some r) e.type before.length (before ++ (e.bytes ++ after)) =
      .ok (before.length + e.data.length, before ++ (e.bytes ++ after)) := by
  obtain ⟨name, hname⟩ := e.named
  obtain ⟨digits, hdigits, hoctal, hsize⟩ := e.size hfile
  have hstring : Tmpfs.stringAt (before ++ (e.bytes ++ after)) (before.length + 10) =
      .ok name := stringAt_header (by decide) hname
  have hread : Tmpfs.stringAt (before ++ (e.bytes ++ after)) (before.length + 124) =
      .ok digits := stringAt_header (by decide) hdigits
  have hlen := e.length_around before after
  have hc : e.contents.length ≤ e.data.length := by
    rw [data, List.length_append]
    exact Nat.le_add_right _ _
  rw [cursorEntry, if_pos hfile, hstring, ok_bind]
  rw [hread, ok_bind]
  dsimp only
  rw [CStr.octalToInt_eq hoctal, hsize, Nat.mod_eq_of_lt (by omega), if_neg (by omega),
    e.length_data (by omega), Nat.mod_eq_of_lt (by omega)]
  rfl

/-- A directory: the name in the header loses its last character. -/
theorem cursorEntry_directory (answer : Option Int) (before after : List UInt8)
    (hdir : e.type = UType.directory) :
    ∃ header', header'.length = 512 ∧
      cursorEntry answer e.type before.length (before ++ (e.bytes ++ after)) =
        .ok (before.length, before ++ (header' ++ (e.data ++ after))) := by
  obtain ⟨name, hname⟩ := e.named
  obtain ⟨header', hheader', hset, path, hpath⟩ := set_name before after hname
  have hstring : Tmpfs.stringAt (before ++ (e.bytes ++ after)) (before.length + 10) =
      .ok name := stringAt_header (by decide) hname
  have hagain : Tmpfs.stringAt (before ++ (header' ++ (e.data ++ after)))
      (before.length + 10) = .ok path :=
    Tmpfs.stringAt_block (by omega) hpath _ _
  refine ⟨header', hheader', ?_⟩
  unfold cursorEntry
  rw [hdir, if_neg (by decide), if_neg (by decide), if_pos rfl, hstring, ok_bind]
  dsimp only
  rw [hset, hagain]
  rfl

/-- A round that skips no contents goes on behind the entry. -/
theorem cursorEntry_of_kept (h : e.Kept answer)
    (hfits : (before ++ (e.bytes ++ after)).length < 2 ^ 64) :
    ∃ next before', cursorEntry answer e.type before.length (before ++ (e.bytes ++ after)) =
        .ok (next, before' ++ after) ∧ before'.length = (before ++ e.bytes).length ∧
      (next + 512) % 2 ^ 64 = before'.length := by
  have hlen : (before ++ e.bytes).length = before.length + 512 + e.data.length := by
    rw [List.length_append, e.length_bytes]
    omega
  have hall := e.length_around before after
  rcases e.known with hfile | hlink | hdir
  · cases answer with
    | none =>
        have hempty : e.contents = [] := by
          by_contra hne
          exact h hfile hne rfl
        refine ⟨before.length, before ++ e.bytes, ?_, rfl, ?_⟩
        · rw [List.append_assoc]
          exact cursorEntry_failed hfile
        · rw [hlen, e.data_of_empty hempty, List.length_nil, Nat.mod_eq_of_lt (by omega)]
    | some r =>
        refine ⟨before.length + e.data.length, before ++ e.bytes, ?_, rfl, ?_⟩
        · rw [List.append_assoc]
          exact cursorEntry_made hfile r hfits
        · rw [hlen, Nat.mod_eq_of_lt (by omega)]
          omega
  · have hbare : e.type ≠ UType.file := by
      rw [hlink]
      decide
    refine ⟨before.length, before ++ e.bytes, ?_, rfl, ?_⟩
    · unfold cursorEntry
      rw [if_neg hbare, if_pos hlink, List.append_assoc]
      rfl
    · rw [hlen, e.data_of_bare hbare, List.length_nil, Nat.mod_eq_of_lt (by omega)]
  · have hbare : e.type ≠ UType.file := by
      rw [hdir]
      decide
    have hdata := e.data_of_bare hbare
    obtain ⟨header', hheader', hentry⟩ := cursorEntry_directory answer before after hdir
    refine ⟨before.length, before ++ header', ?_, ?_, ?_⟩
    · rw [hentry, hdata, List.nil_append, List.append_assoc]
    · rw [List.length_append, hheader', hlen, hdata, List.length_nil]
    · rw [List.length_append, hheader', Nat.mod_eq_of_lt (by omega)]

end UstarEntry

/-! ## The run over an archive -/

variable {answers : Nat → Option Int} {fuel i next : Nat} {bytes bytes' : List UInt8}
  {type : UInt8} {is : List Nat}

theorem map_eq_ok {α β : Type} {x : Except Fault α} {f : α → β} {b : β} :
    x.map f = .ok b ↔ ∃ a, x = .ok a ∧ f a = b := by
  cases x with
  | error e => simp [Except.map]
  | ok a => simp [Except.map]

/-- A round over a header of another type than 0. -/
theorem cursor_succ (hi : i < bytes.length) (htype : Tmpfs.byteAt bytes (i + 156) = .ok type)
    (hne : type ≠ 0) (hentry : cursorEntry (answers 0) type i bytes = .ok (next, bytes')) :
    cursor answers (fuel + 1) i bytes =
      (cursor (fun j => answers (j + 1)) fuel ((next + 512) % 2 ^ 64) bytes').map (i :: ·) := by
  rw [cursor, if_pos hi, htype, ok_bind]
  dsimp only
  rw [if_neg hne, hentry, ok_bind]
  rfl

/-- The first offset is the one the loop starts from. -/
theorem cursor_head (hi : i < bytes.length) (h : cursor answers fuel i bytes = .ok is) :
    ∃ is', is = i :: is' := by
  cases fuel with
  | zero => cases h
  | succ fuel =>
      rw [cursor, if_pos hi] at h
      obtain ⟨type, _, h⟩ := bind_eq_ok.mp h
      split at h
      · exact ⟨[], (Except.ok.inj h).symm⟩
      · obtain ⟨⟨next, bytes'⟩, _, h⟩ := bind_eq_ok.mp h
        obtain ⟨is', _, hret⟩ := bind_eq_ok.mp h
        exact ⟨is', (Except.ok.inj hret).symm⟩

theorem cursor_zeros (before rest : List UInt8) :
    cursor answers (fuel + 1) before.length (before ++ (List.replicate 512 0 ++ rest)) =
      .ok [before.length] := by
  have hi : before.length < (before ++ (List.replicate 512 0 ++ rest)).length := by
    simp only [List.length_append, List.length_replicate]
    omega
  rw [cursor, if_pos hi, Tmpfs.byteAt_zeros, ok_bind, if_pos rfl]
  rfl

namespace UstarEntry

variable {e : UstarEntry} {before after : List UInt8}

theorem type_ne_zero (e : UstarEntry) : e.type ≠ 0 := by
  rcases e.known with h | h | h <;> rw [h] <;> decide

/-- Over an entry that is kept, the cursor goes on behind it. -/
theorem cursor_kept_iff (h : e.Kept (answers 0))
    (hfits : (before ++ (e.bytes ++ after)).length < 2 ^ 64) :
    ∃ before', before'.length = before.length + e.bytes.length ∧ ∀ is,
      (∃ fuel, cursor answers fuel before.length (before ++ (e.bytes ++ after)) =
        .ok (before.length :: is)) ↔
      ∃ fuel, cursor (fun j => answers (j + 1)) fuel before'.length (before' ++ after) =
        .ok is := by
  obtain ⟨next, before', hentry, hbefore', hnext⟩ := cursorEntry_of_kept h hfits
  rw [List.length_append] at hbefore'
  have hall := e.length_around before after
  have hround : ∀ fuel, cursor answers (fuel + 1) before.length (before ++ (e.bytes ++ after)) =
      (cursor (fun j => answers (j + 1)) fuel before'.length (before' ++ after)).map
        (before.length :: ·) := by
    intro fuel
    rw [cursor_succ (by omega) byteAt_type e.type_ne_zero hentry, hnext]
  refine ⟨before', hbefore', fun is => ?_⟩
  constructor
  · intro hrun
    obtain ⟨fuel, hrun⟩ := hrun
    cases fuel with
    | zero => cases hrun
    | succ fuel =>
        rw [hround] at hrun
        obtain ⟨is', his', hcons⟩ := map_eq_ok.mp hrun
        rw [(List.cons.inj hcons).2] at his'
        exact ⟨fuel, his'⟩
  · intro hrun
    obtain ⟨fuel, hrun⟩ := hrun
    refine ⟨fuel + 1, ?_⟩
    rw [hround, hrun]
    rfl

/-- Over a file that is not made, it goes on with the contents. -/
theorem cursor_astray (h : ¬e.Kept (answers 0))
    (hfits : (before ++ (e.bytes ++ after)).length < 2 ^ 64)
    (hrun : cursor answers fuel before.length (before ++ (e.bytes ++ after)) = .ok is) :
    e.data ≠ [] ∧ ∃ is', is = before.length :: (before.length + 512) :: is' := by
  simp only [Kept, not_forall, not_not] at h
  obtain ⟨hfile, hne, hanswer⟩ := h
  have hdata : e.data ≠ [] := by
    rw [data]
    exact List.append_ne_nil_of_left_ne_nil hne _
  have hpos := List.length_pos_iff.mpr hdata
  have hall := e.length_around before after
  have hentry : cursorEntry (answers 0) e.type before.length (before ++ (e.bytes ++ after)) =
      .ok (before.length, before ++ (e.bytes ++ after)) := by
    rw [hanswer]
    exact cursorEntry_failed hfile
  refine ⟨hdata, ?_⟩
  cases fuel with
  | zero => cases hrun
  | succ fuel =>
      rw [cursor_succ (by omega) byteAt_type e.type_ne_zero hentry,
        Nat.mod_eq_of_lt (by omega : before.length + 512 < 2 ^ 64)] at hrun
      obtain ⟨is', his', hcons⟩ := map_eq_ok.mp hrun
      obtain ⟨is'', rfl⟩ := cursor_head (by omega) his'
      exact ⟨is'', hcons.symm⟩

end UstarEntry

namespace Ustar

theorem offsets_head (i : Nat) (entries : List UstarEntry) :
    ∃ is, offsets i entries = i :: is := by
  cases entries with
  | nil => exact ⟨[], rfl⟩
  | cons e entries => exact ⟨_, rfl⟩

/-- The cursor visits the headers of the entries exactly when each is kept. -/
theorem cursor_entries_iff (rest : List UInt8) (entries : List UstarEntry)
    (before : List UInt8) (answers : Nat → Option Int)
    (hfits : (before ++ (entries.flatMap UstarEntry.bytes ++
      (List.replicate 512 0 ++ rest))).length < 2 ^ 64) :
    (∃ fuel, cursor answers fuel before.length (before ++ (entries.flatMap UstarEntry.bytes ++
      (List.replicate 512 0 ++ rest))) = .ok (offsets before.length entries)) ↔
      ∀ (j : Nat) (e : UstarEntry), entries[j]? = some e → e.Kept (answers j) := by
  induction entries generalizing before answers with
  | nil =>
      refine iff_of_true ⟨1, cursor_zeros before rest⟩ ?_
      intro j e hnone
      cases hnone
  | cons e entries ih =>
      rw [List.flatMap_cons, List.append_assoc] at hfits ⊢
      by_cases h : e.Kept (answers 0)
      · obtain ⟨before', hbefore', hround⟩ := UstarEntry.cursor_kept_iff h hfits
        have hfits' : (before' ++ (entries.flatMap UstarEntry.bytes ++
            (List.replicate 512 0 ++ rest))).length < 2 ^ 64 := by
          rw [← List.append_assoc, List.length_append, List.length_append] at hfits
          rwa [List.length_append, hbefore']
        rw [offsets, hround, ← hbefore', ih before' _ hfits']
        constructor
        · intro hkept j e' he'
          cases j with
          | zero =>
              obtain rfl := Option.some.inj he'
              exact h
          | succ j => exact hkept j e' he'
        · intro hkept j e' he'
          exact hkept (j + 1) e' he'
      · refine iff_of_false ?_ fun hkept => h (hkept 0 e rfl)
        intro hrun
        obtain ⟨fuel, hrun⟩ := hrun
        obtain ⟨hdata, is, hastray⟩ := UstarEntry.cursor_astray h hfits hrun
        obtain ⟨is', hhead⟩ := offsets_head (before.length + e.bytes.length) entries
        rw [offsets, hhead] at hastray
        have hpos := List.length_pos_iff.mpr hdata
        have hnext := (List.cons.inj (List.cons.inj hastray).2).1
        rw [e.length_bytes] at hnext
        omega

end Ustar

/-- More fuel changes nothing. -/
theorem cursor_fuel {more : Nat} (hle : fuel ≤ more)
    (h : cursor answers fuel i bytes = .ok is) : cursor answers more i bytes = .ok is := by
  induction fuel generalizing answers more i bytes is with
  | zero => cases h
  | succ fuel ih =>
      obtain ⟨more, rfl⟩ := Nat.exists_eq_add_one_of_ne_zero (by omega : more ≠ 0)
      rw [cursor] at h ⊢
      by_cases hi : i < bytes.length
      · rw [if_pos hi] at h ⊢
        obtain ⟨type, htype, h⟩ := bind_eq_ok.mp h
        rw [htype, ok_bind]
        by_cases hzero : type = 0
        · rw [if_pos hzero] at h ⊢
          exact h
        · rw [if_neg hzero] at h ⊢
          obtain ⟨⟨next, bytes'⟩, hentry, h⟩ := bind_eq_ok.mp h
          obtain ⟨is', hrest, hret⟩ := bind_eq_ok.mp h
          rw [hentry, ok_bind]
          dsimp only
          rw [ih (by omega) hrest]
          exact hret
      · rw [if_neg hi] at h ⊢
        exact h

/-- So all runs that end visit the same offsets. -/
theorem cursor_unique {fuel' : Nat} {is' : List Nat} (h : cursor answers fuel i bytes = .ok is)
    (h' : cursor answers fuel' i bytes = .ok is') : is = is' := by
  have hmore := cursor_fuel (Nat.le_max_left fuel fuel') h
  rw [cursor_fuel (Nat.le_max_right fuel fuel') h'] at hmore
  exact (Except.ok.inj hmore).symm

/-- Whatever the filesystem answers, the cursor visits the headers of an archive, in their
order and up to the block of zeros, if and only if each file with contents is made.  So does
`Tmpfs::load` with the answers that it gets. -/
theorem cursor_on_headers_iff (a : Ustar) :
    (∀ answers, (∃ fuel, cursor answers fuel 512 a.bytes = .ok a.headers) ↔
      ∀ (j : Nat) (e : UstarEntry), a.entries[j]? = some e → e.Kept (answers j)) ∧
    ∀ s fuel r, Tmpfs.loadFrom fuel 512 a.bytes s = .ok r →
      ∃ trace, Tmpfs.loadTrace fuel 512 a.bytes s = .ok trace ∧
        (trace.map Prod.fst = a.headers ↔
          ∀ (j : Nat) (e : UstarEntry), a.entries[j]? = some e →
            e.Kept ((trace.map Prod.snd).getD j none)) := by
  have hiff : ∀ answers, (∃ fuel, cursor answers fuel 512 a.bytes = .ok a.headers) ↔
      ∀ (j : Nat) (e : UstarEntry), a.entries[j]? = some e → e.Kept (answers j) := by
    intro answers
    have hrun := Ustar.cursor_entries_iff a.rest a.entries a.first answers a.fits
    rw [a.length_first] at hrun
    exact hrun
  refine ⟨hiff, fun s fuel r hload => ?_⟩
  obtain ⟨trace, htrace⟩ := Tmpfs.exists_loadTrace hload
  have hcursor := Tmpfs.cursor_of_loadTrace htrace
  refine ⟨trace, htrace, ?_⟩
  rw [← hiff]
  constructor
  · intro hvisits
    rw [hvisits] at hcursor
    exact ⟨fuel, hcursor⟩
  · intro hruns
    obtain ⟨fuel', hruns⟩ := hruns
    exact cursor_unique hcursor hruns

/-! ## The same file twice -/

namespace Tmpfs

/-- A round over a header of another type than 0. -/
theorem loadTrace_succ {r : Option Int} {s s' : Tmpfs} (hi : i < bytes.length)
    (htype : byteAt bytes (i + 156) = .ok type) (hne : type ≠ 0)
    (hanswer : answer type i bytes s = .ok r)
    (hentry : loadEntry type i bytes s = .ok (next, bytes', s')) :
    loadTrace (fuel + 1) i bytes s =
      (loadTrace fuel ((next + 512) % 2 ^ 64) bytes' s').map ((i, r) :: ·) := by
  rw [loadTrace, if_pos hi, htype, ok_bind]
  dsimp only
  rw [if_neg hne, hanswer, ok_bind, hentry, ok_bind]
  rfl

end Tmpfs

namespace UstarEntry

variable {e : UstarEntry} {before after : List UInt8} {s s₁ s₂ : Tmpfs} {path : CStr}
  (hfile : e.type = UType.file) (hname : CStr.ofBytes (e.header.drop 10) = .ok path)
  (hfits : (before ++ (e.bytes ++ after)).length < 2 ^ 64)
include hfile hname hfits

/-- The round over a file that `open` refuses. -/
theorem loadTrace_failed (fuel : Nat) (hnext : before.length + 512 < 2 ^ 64)
    (hopen : s.openFile none path CREATE = .ok (none, s)) :
    Tmpfs.loadTrace (fuel + 1) before.length (before ++ (e.bytes ++ after)) s =
      (Tmpfs.loadTrace fuel (before.length + 512) (before ++ (e.bytes ++ after)) s).map
        ((before.length, none) :: ·) := by
  have hall := e.length_around before after
  have hstring : Tmpfs.stringAt (before ++ (e.bytes ++ after)) (before.length + 10) =
      .ok path := stringAt_header (by decide) hname
  have hanswer : Tmpfs.answer e.type before.length (before ++ (e.bytes ++ after)) s =
      .ok none := by
    rw [Tmpfs.answer, if_pos hfile, hstring, ok_bind, hopen]
    rfl
  have hentry : Tmpfs.loadEntry e.type before.length (before ++ (e.bytes ++ after)) s =
      .ok (before.length, before ++ (e.bytes ++ after), s) := by
    rw [Tmpfs.loadEntry, if_pos hfile, Tmpfs.loadFile, hstring, ok_bind, hopen]
    rfl
  rw [Tmpfs.loadTrace_succ (by omega) byteAt_type e.type_ne_zero hanswer hentry,
    Nat.mod_eq_of_lt hnext]

/-- The round over a file that is made. -/
theorem loadTrace_made (fuel : Nat) {fd : FileDescription} {r : Int}
    (hopen : s.openFile none path CREATE = .ok (some fd, s₁))
    (hwrite : s₁.write fd.file 0 e.contents.length (fun j =>
      (before ++ (e.bytes ++ after)).getD (before.length + 512 + j) 0) = .ok (r, s₂)) :
    Tmpfs.loadTrace (fuel + 1) before.length (before ++ (e.bytes ++ after)) s =
      (Tmpfs.loadTrace fuel ((before.length + e.data.length + 512) % 2 ^ 64)
        (before ++ (e.bytes ++ after)) s₂).map ((before.length, some r) :: ·) := by
  have hall := e.length_around before after
  obtain ⟨digits, hdigits, hoctal, hsize⟩ := e.size hfile
  have hstring : Tmpfs.stringAt (before ++ (e.bytes ++ after)) (before.length + 10) =
      .ok path := stringAt_header (by decide) hname
  have hread : Tmpfs.stringAt (before ++ (e.bytes ++ after)) (before.length + 124) =
      .ok digits := stringAt_header (by decide) hdigits
  have hc : e.contents.length ≤ e.data.length := by
    rw [data, List.length_append]
    exact Nat.le_add_right _ _
  have hoctet : CStr.octalToInt digits = e.contents.length := by
    rw [CStr.octalToInt_eq hoctal, hsize, Nat.mod_eq_of_lt (by omega)]
  have hanswer : Tmpfs.answer e.type before.length (before ++ (e.bytes ++ after)) s =
      .ok (some r) := by
    rw [Tmpfs.answer, if_pos hfile, hstring, ok_bind, hopen, ok_bind]
    dsimp only
    rw [hread, ok_bind, hoctet, hwrite]
    rfl
  have hentry : Tmpfs.loadEntry e.type before.length (before ++ (e.bytes ++ after)) s =
      .ok (before.length + e.data.length, before ++ (e.bytes ++ after), s₂) := by
    rw [Tmpfs.loadEntry, if_pos hfile, Tmpfs.loadFile, hstring, ok_bind, hopen, ok_bind]
    dsimp only
    rw [hread, ok_bind, hoctet, hwrite, ok_bind]
    dsimp only
    rw [if_neg (by omega), e.length_data (by omega), Nat.mod_eq_of_lt (by omega)]
    rfl
  rw [Tmpfs.loadTrace_succ (by omega) byteAt_type e.type_ne_zero hanswer hentry]

end UstarEntry

/-- The file `/a` with the bytes 7 and 8. -/
def fileA : UstarEntry where
  header := Archive.headerOf [CStr.slash, 97] [50] UType.file
  type := UType.file
  contents := [7, 8]
  padding := List.replicate 510 0
  length_header := Archive.length_headerOf (by decide) (by decide)
  type_eq := rfl
  known := .inl rfl
  named := ⟨_, Archive.name_headerOf (by decide)⟩
  size := by
    intro _
    refine ⟨[50], rfl, ?_, rfl⟩
    intro d hd
    rw [List.mem_singleton.mp hd]
    exact ⟨by decide, by decide⟩
  bare := fun h => absurd rfl h
  length_padding := by
    rw [List.length_replicate]
    exact (by decide : 510 < 512)
  padded := by
    rw [List.length_replicate]
    exact Nat.dvd_refl 512

theorem length_fileA : fileA.bytes.length = 1024 := by
  have hdata : fileA.data = 7 :: 8 :: List.replicate 510 0 := rfl
  rw [UstarEntry.length_bytes, hdata, List.length_cons, List.length_cons, List.length_replicate]

def twiceA : Ustar where
  first := fileA.header
  entries := [fileA, fileA]
  rest := []
  length_first := fileA.length_header
  fits := by
    simp only [List.flatMap_cons, List.flatMap_nil, List.length_append, length_fileA,
      fileA.length_header, List.length_replicate, List.length_nil]
    decide

theorem headers_twiceA : twiceA.headers = [512, 1536, 2560] := by
  show [512, 512 + fileA.bytes.length, 512 + fileA.bytes.length + fileA.bytes.length] = _
  rw [length_fileA]

/-- When both are made the cursor visits their headers. -/
theorem cursor_on_headers_iff_twice :
    ∃ fuel, cursor (fun _ => some 0) fuel 512 twiceA.bytes = .ok [512, 1536, 2560] := by
  have hruns := ((cursor_on_headers_iff twiceA).1 fun _ => some 0).mpr
    fun _ _ _ _ _ hnone => by cases hnone
  rwa [headers_twiceA] at hruns

/-- The second is not made, and its contents are read as a header. -/
theorem cursor_in_contents :
    Tmpfs.loadTrace 4 512 twiceA.bytes Tmpfs.sixteenPages =
        .ok [(512, some 0), (1536, none), (2048, none)] ∧
      twiceA.headers = [512, 1536, 2560] ∧ twiceA.bytes[2048]? = some 7 := by
  have hname : CStr.ofBytes (fileA.header.drop 10) = .ok [CStr.slash, 97] :=
    Archive.name_headerOf (by decide)
  have hopen : ∀ buffer : Nat → UInt8, ∃ s₁ s₂,
      Tmpfs.sixteenPages.openFile none [CStr.slash, 97] CREATE =
        .ok (some ⟨1, CREATE, 0⟩, s₁) ∧ s₁.write 1 0 2 buffer = .ok (0, s₂) ∧
      s₂.openFile none [CStr.slash, 97] CREATE = .ok (none, s₂) :=
    fun buffer => ⟨_, _, rfl, rfl, rfl⟩
  have hfirst : twiceA.first.length = 512 := twiceA.length_first
  have hsplit : twiceA.bytes =
      twiceA.first ++ (fileA.bytes ++ (fileA.bytes ++ List.replicate 512 0)) := by
    show twiceA.first ++ ([fileA, fileA].flatMap UstarEntry.bytes ++
      (List.replicate 512 0 ++ [])) = _
    rw [List.flatMap_cons, List.flatMap_cons, List.flatMap_nil, List.append_nil, List.append_nil,
      List.append_assoc]
  have hagain : twiceA.bytes =
      (twiceA.first ++ fileA.bytes) ++ (fileA.bytes ++ List.replicate 512 0) := by
    rw [hsplit, List.append_assoc]
  have hbehind : (twiceA.first ++ fileA.bytes).length = 1536 := by
    rw [List.length_append, hfirst, length_fileA]
  have hlen : fileA.data.length = 512 := by
    have hall := length_fileA
    rw [UstarEntry.length_bytes] at hall
    omega
  have hdata : ∀ n k, n = 2048 + k → k < 512 → twiceA.bytes[n]? = fileA.data[k]? := by
    intro n k hn hk
    have hk' : n - 1536 - 512 = k := by omega
    rw [hagain, List.getElem?_append_right (by omega), hbehind,
      List.getElem?_append_left (by rw [length_fileA]; omega), UstarEntry.bytes,
      List.getElem?_append_right (by rw [fileA.length_header]; omega), fileA.length_header, hk']
  obtain ⟨s₁, s₂, hfresh, hwrite, hexists⟩ :=
    hopen fun j => twiceA.bytes.getD (twiceA.first.length + 512 + j) 0
  refine ⟨?_, headers_twiceA, ?_⟩
  swap
  · rw [hdata 2048 0 rfl (by decide)]
    rfl
  have hfits : twiceA.bytes.length < 2 ^ 64 := twiceA.fits
  have hround₁ := UstarEntry.loadTrace_made (e := fileA) rfl hname
    (by rwa [← hsplit]) 3 hfresh (by rwa [← hsplit])
  rw [← hsplit, hfirst, hlen, show (512 + 512 + 512) % 2 ^ 64 = 1536 from rfl] at hround₁
  have hround₂ := UstarEntry.loadTrace_failed (e := fileA) (s := s₂) rfl hname
    (by rwa [← hagain]) 2 (by rw [hbehind]; decide) hexists
  rw [← hagain, hbehind] at hround₂
  have hround₃ : Tmpfs.loadTrace 2 2048 twiceA.bytes s₂ = .ok [(2048, none)] := by
    have htype : Tmpfs.byteAt twiceA.bytes (2048 + 156) = .ok 0 := by
      rw [Tmpfs.byteAt, hdata (2048 + 156) 156 rfl (by decide)]
      rfl
    have hi : 2048 < twiceA.bytes.length := by
      rw [hagain, List.length_append, hbehind, List.length_append, length_fileA]
      omega
    rw [Tmpfs.loadTrace, if_pos hi, htype, ok_bind, if_pos rfl]
    rfl
  rw [hround₁, hround₂, hround₃]
  rfl

end Toystar.Fs

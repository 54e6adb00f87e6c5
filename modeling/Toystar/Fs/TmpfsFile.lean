import Toystar.Fs.Tmpfs
import Toystar.Verified.Run

/-!
# The contents of a file

What a file should be is a byte array that writes update; what `tmpfs` keeps is
the `size` it was created with.  `resize` moves the data and never touches
`node->file->size`, so the limit `read` compares with stays at 4096 whatever was
written: a file is a byte array exactly as long as it fits its first page.
-/

namespace Toystar.Fs

open Toystar.Kernel
open Toystar.Klibc
open Toystar.Memory
open Toystar.Verified

/-! ## Byte arrays -/

/-- The arguments of a `write`. -/
structure WriteCall where
  offset : Nat
  size : Nat
  buffer : Nat → UInt8

namespace WriteCall

/-- The end offset of a write. -/
def stop (w : WriteCall) : Nat := w.offset + w.size

/-- The byte at `pos` after the write, `old` before it. -/
def update (w : WriteCall) (pos : Nat) (old : UInt8) : UInt8 :=
  if w.offset ≤ pos ∧ pos < w.stop then w.buffer (pos - w.offset) else old

end WriteCall

/-- The byte most recently written at `pos`, 0 if none was. -/
def lastWritten (ws : List WriteCall) (pos : Nat) : UInt8 :=
  ws.foldl (fun old w => w.update pos old) 0

/-- The highest end offset written. -/
def highestEnd (ws : List WriteCall) : Nat := (ws.map (·.stop)).foldr max 0

theorem stop_le_highestEnd {ws : List WriteCall} {w : WriteCall} (hw : w ∈ ws) :
    w.stop ≤ highestEnd ws := by
  induction ws with
  | nil => cases hw
  | cons v ws ih =>
      have hcons : highestEnd (v :: ws) = max v.stop (highestEnd ws) := rfl
      rw [hcons]
      rcases List.mem_cons.mp hw with rfl | hw
      · exact Nat.le_max_left _ _
      · exact (ih hw).trans (Nat.le_max_right _ _)

/-- A bound on every end is a bound on the highest. -/
theorem highestEnd_le {ws : List WriteCall} {b : Nat} (h : ∀ w ∈ ws, w.stop ≤ b) :
    highestEnd ws ≤ b := by
  induction ws with
  | nil => exact Nat.zero_le b
  | cons w ws ih =>
      have hws := ih fun v hv => h v (List.mem_cons_of_mem _ hv)
      exact Nat.max_le.mpr ⟨h w List.mem_cons_self, hws⟩

namespace Tmpfs

/-! ## One file of the filesystem -/

/-- `file` and `node` are the two objects of a file of size 4096 whose contents
are at `data`. -/
structure IsFile (s : Tmpfs) (file node data : Nat) : Prop where
  file_eq : ∃ f, s.files[file]? = some f ∧ f.deviceNode = node ∧ f.size = 4096
  node_eq : ∃ n, s.nodes[node]? = some n ∧ n.file = file ∧ n.data = some data

/-- One `write` to `file` that returns 0. -/
def WriteStep (file : Nat) (s : Tmpfs) (w : WriteCall) (s' : Tmpfs) : Prop :=
  w.stop < 2 ^ 64 ∧ s.write file w.offset w.size w.buffer = .ok (0, s')

variable {s s' : Tmpfs} {file node data offset size : Nat} {buffer : Nat → UInt8}

/-- The contents do not matter for what the objects are. -/
theorem IsFile.setMem (h : s.IsFile file node data) (mem : ByteMem) :
    { s with mem }.IsFile file node data := ⟨h.file_eq, h.node_eq⟩

/-- `resize` replaces the data and keeps the size. -/
theorem IsFile.resize (h : s.IsFile file node data) {newSize : Nat} {room : Bool}
    (hresize : s.resize node newSize true = .ok (room, s')) :
    ∃ data', s'.IsFile file node data' := by
  obtain ⟨f, hf, hdev, hsize⟩ := h.file_eq
  obtain ⟨n, hn, hfile, hdata⟩ := h.node_eq
  have hlt : node < s.nodes.length := (List.getElem?_eq_some_iff.mp hn).1
  subst hfile
  simp only [Tmpfs.resize, Tmpfs.node, Tmpfs.file, hn, hf, dataOf, hdata, ok_bind]
    at hresize
  split at hresize
  · cases hresize
    exact ⟨data, ⟨f, hf, hdev, hsize⟩, ⟨n, hn, rfl, hdata⟩⟩
  · cases hresize
    exact ⟨_, ⟨f, hf, hdev, hsize⟩, ⟨_, List.getElem?_set_self hlt, rfl, rfl⟩⟩

/-- A request inside the size needs no room. -/
theorem IsFile.makeRoom_of_le (h : s.IsFile file node data)
    (hle : offset + size ≤ 4096) : s.makeRoom node offset size = .ok (true, s) := by
  obtain ⟨f, hf, hdev, hsize⟩ := h.file_eq
  obtain ⟨n, hn, hfile, hdata⟩ := h.node_eq
  have hmod : (offset + size) % 2 ^ 64 = offset + size := Nat.mod_eq_of_lt (by omega)
  simp only [makeRoom, Tmpfs.node, Tmpfs.file, hn, hfile, hf, hsize, ok_bind, hmod]
  rw [if_neg (by omega)]
  rfl

theorem IsFile.makeRoom (h : s.IsFile file node data) {room : Bool}
    (hroom : s.makeRoom node offset size = .ok (room, s')) :
    ∃ data', s'.IsFile file node data' := by
  obtain ⟨f, hf, hdev, hsize⟩ := h.file_eq
  obtain ⟨n, hn, hfile, hdata⟩ := h.node_eq
  simp only [Tmpfs.makeRoom, Tmpfs.node, Tmpfs.file, hn, hfile, hf, ok_bind] at hroom
  split at hroom
  · exact h.resize hroom
  · cases hroom
    exact ⟨data, h⟩

/-- What `write` does once there is room. -/
theorem IsFile.write_eq (h : s.IsFile file node data) :
    s.write file offset size buffer = (do
      let (room, s) ← s.makeRoom node offset size
      if room then
        let data ← dataOf (← s.node node)
        return (0, { s with
          mem := copyIn s.mem ((data + offset) % 2 ^ 64) buffer size })
      else return (-1, s)) := by
  obtain ⟨f, hf, hdev, hsize⟩ := h.file_eq
  simp only [Tmpfs.write, Tmpfs.file, hf, ok_bind, hdev]

/-- A write inside the size is a copy into the data. -/
theorem IsFile.write_of_le (h : s.IsFile file node data)
    (hle : offset + size ≤ 4096) :
    s.write file offset size buffer =
      .ok (0, { s with mem := copyIn s.mem ((data + offset) % 2 ^ 64) buffer size }) := by
  obtain ⟨n, hn, hfile, hdata⟩ := h.node_eq
  simp only [h.write_eq, h.makeRoom_of_le hle, ok_bind, if_true, Tmpfs.node, hn,
    dataOf, hdata]
  rfl

/-- Whatever a write does, the file keeps its two objects and its size. -/
theorem IsFile.write (h : s.IsFile file node data) {r : Int}
    (hwrite : s.write file offset size buffer = .ok (r, s')) :
    ∃ data', s'.IsFile file node data' := by
  rw [h.write_eq] at hwrite
  cases hroom : s.makeRoom node offset size with
  | error e => simp [hroom] at hwrite
  | ok out =>
      obtain ⟨room, t⟩ := out
      obtain ⟨data', ht⟩ := h.makeRoom hroom
      obtain ⟨n, hn, hfile, hdata⟩ := ht.node_eq
      simp only [hroom, ok_bind, Tmpfs.node, hn, dataOf, hdata] at hwrite
      split at hwrite
      · cases hwrite
        exact ⟨data', ht.setMem _⟩
      · cases hwrite
        exact ⟨data', ht⟩

/-- `read` past the size fails. -/
theorem IsFile.read_of_gt (h : s.IsFile file node data) (hlt : offset + size < 2 ^ 64)
    (hgt : 4096 < offset + size) : s.read file offset size = .ok (-1, []) := by
  obtain ⟨f, hf, hdev, hsize⟩ := h.file_eq
  obtain ⟨n, hn, hfile, hdata⟩ := h.node_eq
  simp only [Tmpfs.read, Tmpfs.node, Tmpfs.file, hf, hdev, hn, hfile, hsize, ok_bind,
    Nat.mod_eq_of_lt hlt]
  rw [if_pos (by omega)]
  rfl

/-- `read` inside the size copies out of the data. -/
theorem IsFile.read_of_le (h : s.IsFile file node data) (hle : offset + size ≤ 4096) :
    s.read file offset size = .ok (0, copyOut s.mem ((data + offset) % 2 ^ 64) size) := by
  obtain ⟨f, hf, hdev, hsize⟩ := h.file_eq
  obtain ⟨n, hn, hfile, hdata⟩ := h.node_eq
  have hmod : (offset + size) % 2 ^ 64 = offset + size := Nat.mod_eq_of_lt (by omega)
  simp only [Tmpfs.read, Tmpfs.node, Tmpfs.file, hf, hdev, hn, hfile, hsize, ok_bind,
    hmod]
  rw [if_neg (by omega)]
  simp only [dataOf, hdata, ok_bind]
  rfl

/-! ## A new file -/

/-- `create` makes the two objects over a zeroed frame. -/
theorem create_isFile {path : CStr} {mode : UInt16} {dir : Nat} {fd : FileDescription}
    (hcreate : s.create path mode dir = .ok (fd, s'))
    (halloc : (s.pmm.alloc s.mem 1).1 ≠ 0) :
    ∃ node data, s'.IsFile fd.file node data ∧ data + 4096 ≤ 2 ^ 64 ∧
      ∀ i < 4096, s'.mem (data + i) = 0 := by
  cases hdir : s.nodes[dir]? with
  | none => simp [create, Tmpfs.node, hdir] at hcreate
  | some n =>
      have hlt : dir < s.nodes.length := (List.getElem?_eq_some_iff.mp hdir).1
      rcases s.pmm.alloc_cases (le_refl 1) s.mem with
        ⟨hret, _⟩ | ⟨page, hbelow, _, _, hret⟩
      · rw [hret] at halloc
        exact absurd rfl halloc
      · simp only [create, Tmpfs.node, hdir, ok_bind, newFsNode, hret] at hcreate
        cases hcreate
        refine ⟨s.nodes.length, page * PAGE_SIZE, ⟨?_, ?_⟩, ?_, ?_⟩
        · exact ⟨_, List.getElem?_concat_length, rfl, rfl⟩
        · refine ⟨⟨s.files.length, some (page * PAGE_SIZE), n.children, some dir, none⟩,
            ?_, rfl, rfl⟩
          show (List.set _ _ _)[_]? = _
          rw [List.getElem?_set_ne (by omega), List.getElem?_concat_length]
        · have hpage := s.pmm.page_lt (i := page) (by omega)
          unfold PAGE_SIZE at *
          omega
        · intro i hi
          refine memset_of_mem (Nat.le_add_right _ _) ?_
          unfold PAGE_SIZE
          omega

/-- `open` with `CREATE` returns a file, or nothing. -/
theorem openFile_isFile {workingDir : Option Nat} {path : CStr} {mode : UInt16}
    {fd : FileDescription} (hmode : mode &&& CREATE ≠ 0)
    (hopen : s.openFile workingDir path mode = .ok (some fd, s'))
    (halloc : (s.pmm.alloc s.mem 1).1 ≠ 0) :
    ∃ node data, s'.IsFile fd.file node data ∧ data + 4096 ≤ 2 ^ 64 ∧
      ∀ i < 4096, s'.mem (data + i) = 0 := by
  rw [openFile, bind_eq_ok] at hopen
  rcases hopen with ⟨wdir, _, hopen⟩
  rw [bind_eq_ok] at hopen
  rcases hopen with ⟨dir, _, hopen⟩
  cases dir with
  | none => cases hopen
  | some dir =>
      simp only [bind_eq_ok] at hopen
      rcases hopen with ⟨n, _, f, _, same, _, hopen⟩
      rw [if_pos hmode] at hopen
      split at hopen
      · cases hopen
      · rw [bind_eq_ok] at hopen
        rcases hopen with ⟨⟨fd', t⟩, hcreate, hret⟩
        cases hret
        exact create_isFile hcreate halloc

/-! ## Runs of writes -/

theorem IsFile.run (h : s.IsFile file node data) {ws : List WriteCall}
    (hrun : Run (WriteStep file) s ws s') : ∃ data', s'.IsFile file node data' :=
  hrun.invariant (I := fun s => ∃ data, s.IsFile file node data)
    (fun hs hstep => by
      obtain ⟨data, hs⟩ := hs
      exact hs.write hstep.2) ⟨data, h⟩

/-- A write inside the size updates the bytes as it should. -/
theorem copyIn_apply {mem : ByteMem} {w : WriteCall} (hdata : data + 4096 ≤ 2 ^ 64)
    (hw : w.stop ≤ 4096) (i : Nat) :
    copyIn mem ((data + w.offset) % 2 ^ 64) w.buffer w.size (data + i) =
      w.update i (mem (data + i)) := by
  unfold copyIn WriteCall.update
  unfold WriteCall.stop at *
  by_cases hsize : w.size = 0
  · rw [if_neg (by omega), if_neg (by omega)]
  · rw [Nat.mod_eq_of_lt (by omega)]
    by_cases hin : w.offset ≤ i ∧ i < w.offset + w.size
    · rw [if_pos (by omega), if_pos hin]
      congr 1
      omega
    · rw [if_neg (by omega), if_neg hin]

/-- As long as no write leaves the first page, the data are the bytes written. -/
theorem IsFile.contents (h : s.IsFile file node data) (hdata : data + 4096 ≤ 2 ^ 64)
    {ws : List WriteCall} (hws : ∀ w ∈ ws, w.stop ≤ 4096)
    (hrun : Run (WriteStep file) s ws s') :
    s'.IsFile file node data ∧ ∀ i < 4096, s'.mem (data + i) =
      ws.foldl (fun old w => w.update i old) (s.mem (data + i)) := by
  induction hrun with
  | nil s => exact ⟨h, fun i _ => rfl⟩
  | @cons s t u w ws hstep _ ih =>
      have hw : w.stop ≤ 4096 := hws w List.mem_cons_self
      have ht := hstep.2
      rw [h.write_of_le hw] at ht
      cases ht
      rcases ih (h.setMem _) fun v hv => hws v (List.mem_cons_of_mem _ hv) with
        ⟨hu, hmem⟩
      apply And.intro hu
      intro i hi
      rw [hmem i hi, List.foldl_cons]
      exact congrArg (ws.foldl _) (copyIn_apply hdata hw i)

/-! ## Byte arrays -/

/-- A file made by `open` reads back as a byte array exactly when no write ends
past its first page. -/
theorem byte_array_iff {s₁ : Tmpfs} {workingDir : Option Nat} {path : CStr}
    {mode : UInt16} {fd : FileDescription} (hmode : mode &&& CREATE ≠ 0)
    (halloc : (s.pmm.alloc s.mem 1).1 ≠ 0)
    (hopen : s.openFile workingDir path mode = .ok (some fd, s₁))
    {ws : List WriteCall} (hrun : Run (WriteStep fd.file) s₁ ws s') :
    (∀ o n, o + n ≤ highestEnd ws → s'.read fd.file o n =
      .ok (0, (List.range n).map fun i => lastWritten ws (o + i))) ↔
    ∀ w ∈ ws, w.stop ≤ 4096 := by
  rcases openFile_isFile hmode hopen halloc with ⟨node, data, hfile, hdata, hzero⟩
  constructor
  · intro hread
    by_contra hlong
    push Not at hlong
    rcases hlong with ⟨w, hw, hstop⟩
    have hhigh := stop_le_highestEnd hw
    have hhigh' : highestEnd ws ≤ 2 ^ 64 - 1 := by
      apply highestEnd_le
      intro v hv
      have := hrun.forall_events (fun hstep => hstep.1) v hv
      omega
    rcases hfile.run hrun with ⟨data', hfile'⟩
    have hout := hread 0 (highestEnd ws) (by omega)
    rw [hfile'.read_of_gt (by omega) (by omega)] at hout
    cases hout
  · intro hws o n hon
    have hle : o + n ≤ 4096 := hon.trans (highestEnd_le hws)
    rcases hfile.contents hdata hws hrun with ⟨hfile', hmem⟩
    rw [hfile'.read_of_le hle, copyOut]
    congr 2
    apply List.map_congr_left
    intro i hi
    rw [List.mem_range] at hi
    rw [Nat.mod_eq_of_lt (by omega), Nat.add_assoc, hmem (o + i) (by omega),
      hzero (o + i) (by omega)]
    rfl

/-- An empty filesystem over sixteen pages of which page 0 is used. -/
def sixteenPages : Tmpfs :=
  init ⟨fun i => if i = 0 then 0x80 else 0, 2, Pmm.fits_two⟩ (fun _ => 0) 0

/-- The file `/a`, into which two bytes are written at offset 10. -/
theorem byte_array_iff_two_bytes :
    ∃ s₁ s' fd, sixteenPages.openFile none [CStr.slash, 97] CREATE =
        .ok (some fd, s₁) ∧
      Run (WriteStep fd.file) s₁ [⟨10, 2, fun _ => 7⟩] s' ∧
      ((∀ o n, o + n ≤ highestEnd [⟨10, 2, fun _ => 7⟩] → s'.read fd.file o n =
        .ok (0, (List.range n).map fun i =>
          lastWritten [⟨10, 2, fun _ => 7⟩] (o + i))) ↔
        ∀ w ∈ [(⟨10, 2, fun _ => 7⟩ : WriteCall)], w.stop ≤ 4096) := by
  have hrun : ∃ s₁ s' fd, sixteenPages.openFile none [CStr.slash, 97] CREATE =
      .ok (some fd, s₁) ∧ Run (WriteStep fd.file) s₁ [⟨10, 2, fun _ => 7⟩] s' :=
    ⟨_, _, _, rfl, .cons ⟨by decide, rfl⟩ (.nil _)⟩
  rcases hrun with ⟨s₁, s', fd, hopen, hrun⟩
  exact ⟨s₁, s', fd, hopen, hrun,
    byte_array_iff (by decide) (by decide) hopen hrun⟩

/-- A file of 4097 bytes, every allocation having succeeded, cannot be read. -/
theorem long_file_unreadable :
    ∃ s₁ s' fd, sixteenPages.openFile none [CStr.slash, 97] CREATE =
        .ok (some fd, s₁) ∧
      (sixteenPages.pmm.alloc sixteenPages.mem 1).1 = 0x1000 ∧
      (s₁.pmm.alloc s₁.mem 2).1 = 0x2000 ∧
      Run (WriteStep fd.file) s₁ [⟨0, 4097, fun _ => 7⟩] s' ∧
      0 + 4097 ≤ highestEnd [⟨0, 4097, fun _ => 7⟩] ∧
      s'.read fd.file 0 4097 = .ok (-1, []) :=
  ⟨_, _, _, rfl, by decide, by decide, .cons ⟨by decide, rfl⟩ (.nil _), by decide, rfl⟩

end Tmpfs

end Toystar.Fs

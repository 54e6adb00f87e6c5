import Toystar.Fs.TmpfsForm

/-!
# `tmpfs` without memory

`resize` tests the new data for null after it added `PHYSICAL_BASE_ADDRESS`, so a refused
allocation passes for frames at physical address 0: `write` copies the file there, frees
its frames and returns 0.  `open` with `CREATE` does not test at all, and makes the file
over these frames too.
-/

namespace Toystar.Fs

open Toystar.Kernel
open Toystar.Klibc
open Toystar.Memory
open Toystar.Verified

namespace Tmpfs

/-! ## `write`, with the objects of the file -/

/-- `path` is the `fs_node` `f` of the `tmpfs_node` `n`, whose contents are at `data`. -/
structure Objects (s : Tmpfs) (path : Nat) (f : FsNode) (n : TmpfsNode) (data : Nat) : Prop where
  file : s.file path = .ok f
  node : s.node f.deviceNode = .ok n
  own : n.file = path
  data : n.data = some data

variable {s s' : Tmpfs} {path offset size newSize data newData : Nat} {f : FsNode}
  {n : TmpfsNode} {pmm : Pmm} {mem : ByteMem} {buffer : Nat → UInt8}

/-- The frames at `newData` are the file's, and its own are free. -/
def moved (s : Tmpfs) (f : FsNode) (n : TmpfsNode) (data newData : Nat) (pmm : Pmm)
    (mem : ByteMem) : Tmpfs :=
  { s with
    nodes := s.nodes.set f.deviceNode { n with data := some newData }
    pmm := pmm.free data (divCeil f.size PAGE_SIZE)
    mem := memcpy mem newData data f.size }

namespace Objects

variable (h : s.Objects path f n data)
include h

theorem lt : f.deviceNode < s.nodes.length :=
  (List.getElem?_eq_some_iff.mp (node_eq_ok.mp h.node)).1

theorem moved : (s.moved f n data newData pmm mem).Objects path f
    { n with data := some newData } newData :=
  { file := h.file
    node := node_eq_ok.mpr (List.getElem?_set_self h.lt)
    own := h.own
    data := rfl }

omit h in
/-- A file has one `fs_node`, one `tmpfs_node` and one place. -/
theorem unique {f' : FsNode} {n' : TmpfsNode} {data' : Nat} (h : s.Objects path f n data)
    (h' : s.Objects path f' n' data') : f' = f ∧ n' = n ∧ data' = data := by
  have hfile := h'.file
  rw [h.file] at hfile
  obtain rfl := Except.ok.inj hfile
  have hnode := h'.node
  rw [h.node] at hnode
  obtain rfl := Except.ok.inj hnode
  have hdata := h'.data
  rw [h.data] at hdata
  exact ⟨rfl, rfl, (Option.some.inj hdata).symm⟩

/-- The contents do not matter. -/
theorem setMem (mem : ByteMem) : { s with mem }.Objects path f n data :=
  ⟨h.file, h.node, h.own, h.data⟩

/-- `resize` moves the contents, whatever `alloc` returns. -/
theorem resize_eq
    (halloc : s.pmm.alloc s.mem (divCeil newSize PAGE_SIZE) = (newData, pmm, mem))
    (hnonnull : (newData + PHYSICAL_BASE_ADDRESS) % 2 ^ 64 ≠ 0) :
    s.resize f.deviceNode newSize true = .ok (true, s.moved f n data newData pmm mem) := by
  have hn := node_eq_ok.mp h.node
  have hf : s.files[n.file]? = some f := by
    rw [h.own]
    exact file_eq_ok.mp h.file
  simp only [Tmpfs.resize, halloc, if_neg hnonnull, Tmpfs.node, hn, ok_bind, Tmpfs.file, hf,
    dataOf, h.data, if_true]
  rfl

/-- A `write` inside the size copies into the data. -/
theorem write_of_le (hle : (offset + size) % 2 ^ 64 ≤ f.size) :
    s.write path offset size buffer =
      .ok (0, { s with mem := copyIn s.mem ((data + offset) % 2 ^ 64) buffer size }) := by
  have hroom : s.makeRoom f.deviceNode offset size = .ok (true, s) := by
    unfold makeRoom
    rw [h.node, ok_bind, h.own, h.file, ok_bind, if_neg (Nat.not_lt.mpr hle)]
    rfl
  unfold write
  rw [h.file, ok_bind]
  dsimp only
  rw [hroom, ok_bind]
  dsimp only
  rw [if_pos rfl, h.node, ok_bind, dataOf, h.data]
  rfl

/-- A `write` past the size copies into the new data. -/
theorem write_of_gt (hgt : f.size < (offset + size) % 2 ^ 64)
    (halloc : s.pmm.alloc s.mem (divCeil ((offset + size) % 2 ^ 64) PAGE_SIZE) =
      (newData, pmm, mem))
    (hnonnull : (newData + PHYSICAL_BASE_ADDRESS) % 2 ^ 64 ≠ 0) :
    s.write path offset size buffer = .ok (0, { s.moved f n data newData pmm mem with
      mem := copyIn (s.moved f n data newData pmm mem).mem ((newData + offset) % 2 ^ 64)
        buffer size }) := by
  have hroom : s.makeRoom f.deviceNode offset size =
      .ok (true, s.moved f n data newData pmm mem) := by
    unfold makeRoom
    rw [h.node, ok_bind, h.own, h.file, ok_bind, if_pos hgt]
    exact h.resize_eq halloc hnonnull
  unfold write
  rw [h.file, ok_bind]
  dsimp only
  rw [hroom, ok_bind]
  dsimp only
  rw [if_pos rfl, h.moved.node, ok_bind]
  rfl

/-- Where the new data are null with the base added, `write` fails and keeps them. -/
theorem write_of_null (hgt : f.size < (offset + size) % 2 ^ 64)
    (halloc : s.pmm.alloc s.mem (divCeil ((offset + size) % 2 ^ 64) PAGE_SIZE) =
      (newData, pmm, mem))
    (hnull : (newData + PHYSICAL_BASE_ADDRESS) % 2 ^ 64 = 0) :
    s.write path offset size buffer = .ok (-1, { s with pmm, mem }) := by
  have hroom : s.makeRoom f.deviceNode offset size = .ok (false, { s with pmm, mem }) := by
    unfold makeRoom
    rw [h.node, ok_bind, h.own, h.file, ok_bind, if_pos hgt]
    simp only [Tmpfs.resize, halloc, if_pos hnull]
    rfl
  unfold write
  rw [h.file, ok_bind]
  dsimp only
  rw [hroom, ok_bind]
  rfl

/-- A `read` past the size fails. -/
theorem read_of_gt (hgt : f.size < (offset + size) % 2 ^ 64) :
    s.read path offset size = .ok (-1, []) := by
  unfold read
  rw [h.file, ok_bind, h.node, ok_bind, h.own, h.file, ok_bind, if_pos hgt]
  rfl

/-- A `read` inside the size copies out of the data. -/
theorem read_of_le (hle : (offset + size) % 2 ^ 64 ≤ f.size) :
    s.read path offset size = .ok (0, copyOut s.mem ((data + offset) % 2 ^ 64) size) := by
  unfold read
  rw [h.file, ok_bind, h.node, ok_bind, h.own, h.file, ok_bind,
    if_neg (Nat.not_lt.mpr hle), dataOf, h.data]
  rfl

end Objects

/-! ## Refusals -/

/-- `PMM::alloc` has no `count` frames: it returns null and changes nothing. -/
def NoFrames (s : Tmpfs) (count : Nat) : Prop := s.pmm.alloc s.mem count = (0, s.pmm, s.mem)

/-- A request to the file ends past its size, and there are no frames for the size it
needs. -/
structure WriteRefused (s : Tmpfs) (path offset size : Nat) (f : FsNode) : Prop where
  objects : ∃ n data, s.Objects path f n data
  grows : f.size < (offset + size) % 2 ^ 64
  noFrames : s.NoFrames (divCeil ((offset + size) % 2 ^ 64) PAGE_SIZE)

/-- `write` returns -1 and leaves the data of all files, their frames and the bitmap. -/
def WriteFailsCleanly (s : Tmpfs) (path offset size : Nat) (buffer : Nat → UInt8) : Prop :=
  ∃ s', s.write path offset size buffer = .ok (-1, s') ∧ s'.nodes = s.nodes ∧
    s'.mem = s.mem ∧ s'.pmm = s.pmm

/-- `open` returns null and leaves the tree. -/
def OpenFailsCleanly (s : Tmpfs) (workingDir : Option Nat) (path : CStr) (mode : UInt16) :
    Prop :=
  ∃ s', s.openFile workingDir path mode = .ok (none, s') ∧ s'.nodes = s.nodes ∧
    s'.files = s.files

/-- Null is not null once the base is added. -/
theorem base_nonnull : (0 + PHYSICAL_BASE_ADDRESS) % 2 ^ 64 ≠ 0 := by decide

/-- The refused `write` moves the file to address 0, gives its frames back, and
succeeds. -/
theorem WriteRefused.write_eq (h : s.WriteRefused path offset size f)
    (hobjects : s.Objects path f n data) (buffer : Nat → UInt8) :
    s.write path offset size buffer = .ok (0, { s.moved f n data 0 s.pmm s.mem with
      mem := copyIn (s.moved f n data 0 s.pmm s.mem).mem ((0 + offset) % 2 ^ 64)
        buffer size }) :=
  hobjects.write_of_gt h.grows h.noFrames base_nonnull

/-- Without frames `write` never fails cleanly, but returns 0 with the contents at address
0.  `open` with `CREATE` does exactly where the path leads to no directory it could make
the file in. -/
theorem out_of_memory_iff (s : Tmpfs) :
    (∀ path offset size f buffer, s.WriteRefused path offset size f →
      ¬s.WriteFailsCleanly path offset size buffer ∧
        ∃ s' n, s.write path offset size buffer = .ok (0, s') ∧ s'.Objects path f n 0) ∧
    ∀ workingDir path mode r s', mode &&& CREATE ≠ 0 → s.NoFrames 1 →
      s.openFile workingDir path mode = .ok (r, s') →
      (s.OpenFailsCleanly workingDir path mode ↔
        ∀ m n f, ¬s.Accepts workingDir path m n f) := by
  constructor
  · intro path offset size f buffer hrefused
    obtain ⟨n, data, hobjects⟩ := hrefused.objects
    have hwrite := hrefused.write_eq hobjects buffer
    refine ⟨?_, _, _, hwrite, hobjects.moved.setMem _⟩
    intro hclean
    obtain ⟨s', hfails, _⟩ := hclean
    rw [hwrite] at hfails
    have hret : (0 : Int) = -1 := congrArg Prod.fst (Except.ok.inj hfails)
    exact absurd hret (by decide)
  · intro workingDir path mode r s' hmode _ hopen
    cases openFile_create_cases hmode hopen with
    | inl hnone =>
        obtain ⟨rfl, rfl, hrefuses⟩ := hnone
        exact iff_of_true ⟨s', hopen, rfl, rfl⟩ hrefuses
    | inr hmade =>
        obtain ⟨m, n, f, haccepts, rfl, _⟩ := hmade
        refine iff_of_false ?_ (fun hrefuses => hrefuses m n f haccepts)
        intro hclean
        obtain ⟨t, hnone, _⟩ := hclean
        rw [hopen] at hnone
        have hret : some _ = none := congrArg Prod.fst (Except.ok.inj hnone)
        cases hret

/-- An empty filesystem over sixteen pages of which only the last is free. -/
def onePage : Tmpfs :=
  init ⟨fun i => if i = 0 then 0xff else 0xfe, 2, Pmm.fits_two⟩ (fun _ => 0) 0

/-- Once the file `/a` has the last page, `open` with `CREATE` fails cleanly for `/a`, which
is there, and a `write` past the page does not. -/
theorem out_of_memory_iff_one_page :
    ∃ s f, onePage.openFile none [CStr.slash, 97] CREATE = .ok (some ⟨1, CREATE, 0⟩, s) ∧
      s.WriteRefused 1 4096 1 f ∧ ¬s.WriteFailsCleanly 1 4096 1 (fun _ => 7) ∧
      (s.OpenFailsCleanly none [CStr.slash, 97] CREATE ↔
        ∀ m n f, ¬s.Accepts none [CStr.slash, 97] m n f) := by
  have hrun : ∃ s f, onePage.openFile none [CStr.slash, 97] CREATE =
      .ok (some ⟨1, CREATE, 0⟩, s) ∧ s.WriteRefused 1 4096 1 f ∧ s.NoFrames 1 ∧
      s.openFile none [CStr.slash, 97] CREATE = .ok (none, s) :=
    ⟨_, _, rfl, ⟨⟨_, _, rfl, rfl, rfl, rfl⟩, by decide, rfl⟩, rfl, rfl⟩
  obtain ⟨s, f, hopen, hrefused, hnone, hagain⟩ := hrun
  obtain ⟨hwrite, hcreate⟩ := out_of_memory_iff s
  exact ⟨s, f, hopen, hrefused, (hwrite 1 4096 1 f _ hrefused).1,
    hcreate none [CStr.slash, 97] CREATE none s (by decide) hnone hagain⟩

/-- Then a `write` to `/a` past its page returns 0 with the contents moved to address 0, and
`/b` is made over the same address. -/
theorem refused_write_succeeds :
    ∃ s f s', onePage.openFile none [CStr.slash, 97] CREATE = .ok (some ⟨1, CREATE, 0⟩, s) ∧
      s.WriteRefused 1 4096 1 f ∧ s.NoFrames 1 ∧
      s.write 1 4096 1 (fun _ => 7) = .ok (0, s') ∧
      (∃ n, s.node 1 = .ok n ∧ n.data = some 0xf000) ∧
      (∃ n, s'.node 1 = .ok n ∧ n.data = some 0) ∧
      ∃ fd t, s.openFile none [CStr.slash, 98] CREATE = .ok (some fd, t) ∧
        ∃ n, t.node 2 = .ok n ∧ n.data = some 0 :=
  ⟨_, _, _, rfl, ⟨⟨_, _, rfl, rfl, rfl, rfl⟩, by decide, rfl⟩, rfl, rfl, ⟨_, rfl, rfl⟩,
    ⟨_, rfl, rfl⟩, _, _, rfl, _, rfl, rfl⟩

end Tmpfs

end Toystar.Fs

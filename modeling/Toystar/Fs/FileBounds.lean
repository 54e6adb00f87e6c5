import Toystar.Fs.Files
import Toystar.Fs.OutOfMemory

/-!
# The frames of a file and the requests to it

`read` and `write` test `offset + size` against the size of the file, a sum of two 64-bit
values that a process controls: the size is an argument of the call, and the offset is the
sum of those of the calls before.  As long as the sum does not wrap, a request is served
inside the frames of the file, or not at all.  One that wraps and passes the test copies
past them (`accesses_in_frames_iff`).
-/

namespace Toystar.Fs

open Toystar.Kernel
open Toystar.Klibc
open Toystar.Memory
open Toystar.Verified

/-! ## Requests -/

/-- A filesystem, the open descriptions of one of its files, and the number of frames
that `PMM::alloc` last gave the file. -/
structure OpenFile where
  fs : Tmpfs
  descs : Nat → FileDescription
  frames : Nat

/-- `syscall_read` and `syscall_write` of a descriptor, with `rdx` and for a write the
caller's bytes. -/
inductive Request
  | read (fd size : Nat)
  | write (fd size : Nat) (buffer : Nat → UInt8)

namespace Request

def fd : Request → Nat
  | read fd _ => fd
  | write fd _ _ => fd

def size : Request → Nat
  | read _ size => size
  | write _ size _ => size

/-- The mode the call asks for. -/
def mode : Request → UInt16
  | read _ _ => READ
  | write _ _ _ => WRITE

end Request

namespace Tmpfs

/-- The sum that `read` and `write` compare with the size of the file is larger. -/
def PastEnd (s : Tmpfs) (path offset size : Nat) : Prop :=
  ∃ f, s.files[path]? = some f ∧ f.size < (offset + size) % 2 ^ 64

instance (s : Tmpfs) (path offset size : Nat) : Decidable (s.PastEnd path offset size) :=
  match hf : s.files[path]? with
  | none => isFalse (by simp [PastEnd, hf])
  | some f => decidable_of_iff (f.size < (offset + size) % 2 ^ 64) (by simp [PastEnd, hf])

/-- The frames that `resize` asks for. -/
def growth (offset size : Nat) : Nat := divCeil ((offset + size) % 2 ^ 64) PAGE_SIZE

/-- `resize` gets no frames to move to: `PMM::alloc` refuses, or returns the one address
that is null with `PHYSICAL_BASE_ADDRESS` added. -/
def NoRoom (s : Tmpfs) (count : Nat) : Prop :=
  s.pmm.refuses count = true ∨
    ((s.pmm.alloc s.mem count).1 + PHYSICAL_BASE_ADDRESS) % 2 ^ 64 = 0

/-- `write`, where an allocation succeeds or fails cleanly. -/
def writeClean (s : Tmpfs) (path offset size : Nat) (buffer : Nat → UInt8) :
    Except Fault (Int × Tmpfs) :=
  if s.PastEnd path offset size ∧ s.pmm.refuses (growth offset size) = true then .ok (-1, s)
  else s.write path offset size buffer

end Tmpfs

namespace OpenFile

/-- `fd->offset += regs->rdx`. -/
def advance (t : OpenFile) (fd size : Nat) : OpenFile :=
  let d := t.descs fd
  { t with descs := Function.update t.descs fd { d with offset := (d.offset + size) % 2 ^ 64 } }

/-- The call, once `fd_list` gave the description: -1 or what `Vfs` returned. -/
def exec (t : OpenFile) (e : Request) : Except Fault (Int × OpenFile) :=
  let d := t.descs e.fd
  if d.mode &&& e.mode = 0 then .ok (-1, t)
  else
    match e with
    | .read fd size => do
        let (r, _) ← t.fs.read d.file d.offset size
        return (r, t.advance fd size)
    | .write fd size buffer => do
        let (r, fs) ← t.fs.writeClean d.file d.offset size buffer
        let frames := if r = 0 ∧ t.fs.PastEnd d.file d.offset size then
          Tmpfs.growth d.offset size else t.frames
        return (r, { t.advance fd size with fs, frames })

end OpenFile

/-! ## Bounds -/

namespace Tmpfs

/-- The bytes from `start` on lie in the `frames` frames at `data`, which are in use. -/
def InFrames (s : Tmpfs) (data frames start size : Nat) : Prop :=
  ∀ a, start ≤ a → a < start + size → data ≤ a ∧ a < data + frames * PAGE_SIZE ∧
    s.pmm.bitmap.isBitSet (a / PAGE_SIZE) = true

/-- A read returns -1 and copies nothing, or copies from the file's frames. -/
def SafeRead (s : Tmpfs) (frames path offset size : Nat) : Prop :=
  ∃ f n data r out, s.Objects path f n data ∧ s.read path offset size = .ok (r, out) ∧
    (r = -1 ∧ out = [] ∨ r = 0 ∧ s.InFrames data frames ((data + offset) % 2 ^ 64) size)

/-- A write returns -1 and leaves the file's frames, or copies into the file's frames, and
before into new ones from the old if it has to. -/
def SafeWrite (s : Tmpfs) (frames path offset size : Nat) (buffer : Nat → UInt8) : Prop :=
  ∃ f n data r s', s.Objects path f n data ∧
    s.writeClean path offset size buffer = .ok (r, s') ∧
    (r = -1 ∧ s'.Objects path f n data ∧
        (∀ a, data ≤ a → a < data + frames * PAGE_SIZE → s'.mem a = s.mem a) ∨
      r = 0 ∧ ∃ n' data', s'.Objects path f n' data' ∧
        if s.PastEnd path offset size then
          s.InFrames data frames data f.size ∧
            s'.InFrames data' (growth offset size) data' f.size ∧
            s'.InFrames data' (growth offset size) ((data' + offset) % 2 ^ 64) size
        else s'.InFrames data' frames ((data' + offset) % 2 ^ 64) size)

/-- The file `path` with the objects `f` and `n` has `frames` frames from `page` on, which
are in use and hold its size. -/
structure Framed (s : Tmpfs) (path frames : Nat) (f : FsNode) (n : TmpfsNode) (page : Nat) :
    Prop where
  objects : s.Objects path f n (page * PAGE_SIZE)
  size : f.size ≤ frames * PAGE_SIZE
  below : frames * PAGE_SIZE < 2 ^ 64
  inside : page + frames ≤ s.pmm.pages
  used : ∀ i, page ≤ i → i < page + frames → s.pmm.bitmap.isBitSet i = true

end Tmpfs

namespace OpenFile

/-- Every byte the call copies from or to the file lies in the file's frames. -/
def Safe (t : OpenFile) (e : Request) : Prop :=
  let d := t.descs e.fd
  d.mode &&& e.mode ≠ 0 →
    match e with
    | .read _ size => t.fs.SafeRead t.frames d.file d.offset size
    | .write _ size buffer => t.fs.SafeWrite t.frames d.file d.offset size buffer

/-- The sum does not wrap, or the call fails all the same: for want of the mode, past the
end of the file, or for want of frames. -/
def Bounded (t : OpenFile) (e : Request) : Prop :=
  let d := t.descs e.fd
  d.mode &&& e.mode ≠ 0 → d.offset + e.size < 2 ^ 64 ∨
    t.fs.PastEnd d.file d.offset e.size ∧
      match e with
      | .read _ _ => True
      | .write _ size _ => t.fs.NoRoom (Tmpfs.growth d.offset size)

end OpenFile

/-! ## Ranges -/

namespace Tmpfs

variable {s : Tmpfs} {path offset size page frames data start : Nat} {f : FsNode}
  {n : TmpfsNode} {buffer : Nat → UInt8}

theorem pastEnd_iff (hf : s.file path = .ok f) :
    s.PastEnd path offset size ↔ f.size < (offset + size) % 2 ^ 64 := by
  unfold PastEnd
  rw [file_eq_ok.mp hf]
  simp

/-- Frames that are asked for and found are enough, and not all there could be. -/
theorem growth_bounds (h : 1 ≤ growth offset size) :
    (offset + size) % 2 ^ 64 ≤ growth offset size * PAGE_SIZE ∧
      growth offset size * PAGE_SIZE < 2 ^ 64 := by
  unfold growth divCeil PAGE_SIZE at *
  omega

namespace Framed

variable (h : s.Framed path frames f n page)
include h

/-- The frames are below the end of the address space. -/
theorem end_le : page * PAGE_SIZE + frames * PAGE_SIZE ≤ 2 ^ 64 := by
  have hfits := s.pmm.fits
  have hin := h.inside
  rw [← Nat.add_mul]
  unfold Pmm.pages at hin
  exact (Nat.mul_le_mul_right _ (by omega)).trans hfits

/-- A range between the ends of the frames lies in them. -/
theorem inFrames_of_le (hlo : page * PAGE_SIZE ≤ start)
    (hhi : start + size ≤ page * PAGE_SIZE + frames * PAGE_SIZE) :
    s.InFrames (page * PAGE_SIZE) frames start size := by
  intro a hfirst hlast
  have hend : a < (page + frames) * PAGE_SIZE := by
    rw [Nat.add_mul]
    omega
  refine ⟨by omega, by omega, h.used _ ?_ ?_⟩
  · exact (Nat.le_div_iff_mul_le (by decide)).mpr (by omega)
  · exact (Nat.div_lt_iff_lt_mul (by decide)).mpr hend

/-- So does a request that ends in them. -/
theorem inFrames_of_request (hle : offset + size ≤ frames * PAGE_SIZE) :
    s.InFrames (page * PAGE_SIZE) frames ((page * PAGE_SIZE + offset) % 2 ^ 64) size := by
  have hend := h.end_le
  cases Nat.eq_zero_or_pos size with
  | inl hzero =>
      subst hzero
      intro a hfirst hlast
      omega
  | inr hpos =>
      rw [Nat.mod_eq_of_lt (by omega)]
      exact h.inFrames_of_le (by omega) (by omega)

/-- One that wraps leaves them, in front or behind. -/
theorem not_inFrames_of_wrap (hoffset : offset < 2 ^ 64) (hwrap : 2 ^ 64 ≤ offset + size) :
    ¬s.InFrames (page * PAGE_SIZE) frames ((page * PAGE_SIZE + offset) % 2 ^ 64) size := by
  intro hin
  have hbelow := h.below
  have hend := h.end_le
  by_cases hfront : 2 ^ 64 ≤ page * PAGE_SIZE + offset
  · have hfirst := hin ((page * PAGE_SIZE + offset) % 2 ^ 64) (le_refl _) (by omega)
    omega
  · rw [Nat.mod_eq_of_lt (by omega)] at hin
    by_cases hbehind : frames * PAGE_SIZE ≤ offset
    · have hfirst := hin (page * PAGE_SIZE + offset) (le_refl _) (by omega)
      omega
    · have hnext := hin (page * PAGE_SIZE + frames * PAGE_SIZE) (by omega) (by omega)
      omega

theorem inFrames_request_iff (hoffset : offset < 2 ^ 64)
    (hle : offset + size < 2 ^ 64 → offset + size ≤ frames * PAGE_SIZE) :
    s.InFrames (page * PAGE_SIZE) frames ((page * PAGE_SIZE + offset) % 2 ^ 64) size ↔
      offset + size < 2 ^ 64 := by
  by_cases hwrap : offset + size < 2 ^ 64
  · exact iff_of_true (h.inFrames_of_request (hle hwrap)) hwrap
  · exact iff_of_false (h.not_inFrames_of_wrap hoffset (Nat.not_lt.mp hwrap)) hwrap

/-- Pages that were free are not the file's. -/
theorem disjoint {page' count : Nat} (hfree : FreeRange s.pmm.bitmap.isBitSet page' count)
    {i : Nat} (hi : page ≤ i ∧ i < page + frames) : ¬(page' ≤ i ∧ i < page' + count) := by
  intro hnew
  have hused := h.used i hi.1 hi.2
  rw [hfree i hnew.1 hnew.2] at hused
  cases hused

theorem disjoint_bytes {page' count a : Nat}
    (hfree : FreeRange s.pmm.bitmap.isBitSet page' count) (hlo : page * PAGE_SIZE ≤ a)
    (hhi : a < page * PAGE_SIZE + frames * PAGE_SIZE) :
    a < page' * PAGE_SIZE ∨ page' * PAGE_SIZE + count * PAGE_SIZE ≤ a := by
  by_contra hnew
  rw [not_or, Nat.not_lt, Nat.not_le, ← Nat.add_mul] at hnew
  rw [← Nat.add_mul] at hhi
  have hpos : 0 < PAGE_SIZE := by decide
  refine h.disjoint hfree (i := a / PAGE_SIZE) ⟨?_, ?_⟩ ⟨?_, ?_⟩
  · exact (Nat.le_div_iff_mul_le hpos).mpr hlo
  · exact (Nat.div_lt_iff_lt_mul hpos).mpr hhi
  · exact (Nat.le_div_iff_mul_le hpos).mpr hnew.1
  · exact (Nat.div_lt_iff_lt_mul hpos).mpr hnew.2

/-- `PMM::free` takes back frames of the file only. -/
theorem freed_le : divCeil f.size PAGE_SIZE ≤ frames := by
  have hsize := h.size
  have hbelow := h.below
  unfold divCeil PAGE_SIZE at *
  omega

/-- The file after it moved to free frames that hold it. -/
theorem moved {page' count : Nat} (hsize : f.size ≤ count * PAGE_SIZE)
    (hbelow : count * PAGE_SIZE < 2 ^ 64) (hin : page' + count ≤ s.pmm.pages)
    (hfree : FreeRange s.pmm.bitmap.isBitSet page' count) (mem : ByteMem) :
    (s.moved f n (page * PAGE_SIZE) (page' * PAGE_SIZE)
      { s.pmm with bitmap := Pmm.setBits s.pmm.bitmap page' count } mem).Framed path count f
        { n with data := some (page' * PAGE_SIZE) } page' where
  objects := h.objects.moved
  size := hsize
  below := hbelow
  inside := hin
  used := by
    intro i hlo hhi
    show (Pmm.clearBits (Pmm.setBits s.pmm.bitmap page' count)
      (page * PAGE_SIZE / PAGE_SIZE) (divCeil f.size PAGE_SIZE)).isBitSet i = true
    have hfreed := h.freed_le
    have hkept : ¬(page ≤ i ∧ i < page + divCeil f.size PAGE_SIZE) := by
      intro hold
      exact h.disjoint hfree ⟨hold.1, by omega⟩ ⟨hlo, hhi⟩
    rw [Nat.mul_div_cancel _ (by decide), Pmm.isBitSet_clearBits, Pmm.isBitSet_setBits,
      decide_eq_false hkept, decide_eq_true ⟨hlo, hhi⟩]
    rfl

/-- The contents do not matter. -/
theorem setMem (mem : ByteMem) : { s with mem }.Framed path frames f n page :=
  ⟨h.objects.setMem mem, h.size, h.below, h.inside, h.used⟩

/-- Frames of others do not matter. -/
theorem setBits (page' count : Nat) (mem : ByteMem) :
    { s with pmm := { s.pmm with bitmap := Pmm.setBits s.pmm.bitmap page' count }, mem }.Framed
      path frames f n page where
  objects := ⟨h.objects.file, h.objects.node, h.objects.own, h.objects.data⟩
  size := h.size
  below := h.below
  inside := h.inside
  used := by
    intro i hlo hhi
    show (Pmm.setBits s.pmm.bitmap page' count).isBitSet i = true
    rw [Pmm.isBitSet_setBits, h.used i hlo hhi, Bool.or_true]

/-- What `write` does: a request past the end that gets no room fails and leaves the file's
frames, one that gets room moves the file, and any other stays in place. -/
theorem writeClean_cases (offset size : Nat) (buffer : Nat → UInt8) :
    (s.PastEnd path offset size ∧ s.NoRoom (growth offset size) ∧ ∃ s',
      s.writeClean path offset size buffer = .ok (-1, s') ∧ s'.Framed path frames f n page ∧
      ∀ a, page * PAGE_SIZE ≤ a → a < page * PAGE_SIZE + frames * PAGE_SIZE →
        s'.mem a = s.mem a) ∨
    (s.PastEnd path offset size ∧ ¬s.NoRoom (growth offset size) ∧
      1 ≤ growth offset size ∧ ∃ s' n' page',
      s.writeClean path offset size buffer = .ok (0, s') ∧
      s'.Framed path (growth offset size) f n' page') ∨
    (¬s.PastEnd path offset size ∧ ∃ s',
      s.writeClean path offset size buffer = .ok (0, s') ∧ s'.Framed path frames f n page) := by
  have hf := h.objects.file
  by_cases hpast : s.PastEnd path offset size
  · have hgt := (pastEnd_iff hf).mp hpast
    cases hrefuses : s.pmm.refuses (growth offset size) with
    | true =>
        refine .inl ⟨hpast, .inl hrefuses, s, ?_, h, fun _ _ _ => rfl⟩
        rw [writeClean, if_pos ⟨hpast, hrefuses⟩]
    | false =>
        obtain ⟨page', hcount, hin, hfree, halloc⟩ :=
          s.pmm.alloc_of_not_refuses hrefuses s.mem
        have hclean : s.writeClean path offset size buffer =
            s.write path offset size buffer := by
          rw [writeClean, if_neg]
          intro hboth
          rw [hrefuses] at hboth
          exact absurd hboth.2 (by decide)
        by_cases hnull : (page' * PAGE_SIZE + PHYSICAL_BASE_ADDRESS) % 2 ^ 64 = 0
        · -- the frames it got are lost
          refine .inl ⟨hpast, .inr ?_, _, hclean.trans
            (h.objects.write_of_null hgt halloc hnull), h.setBits _ _ _, ?_⟩
          · rw [halloc]
            exact hnull
          · intro a hlo hhi
            exact memset_of_not_mem (h.disjoint_bytes hfree hlo hhi)
        · have hbounds := growth_bounds hcount
          refine .inr (.inl ⟨hpast, ?_, hcount, _, _, page', hclean.trans
            (h.objects.write_of_gt hgt halloc hnull),
            (h.moved (by omega) hbounds.2 hin hfree _).setMem _⟩)
          intro hnone
          cases hnone with
          | inl hrefused =>
              rw [hrefuses] at hrefused
              cases hrefused
          | inr hzero =>
              rw [halloc] at hzero
              exact hnull hzero
  · have hle : (offset + size) % 2 ^ 64 ≤ f.size :=
      Nat.not_lt.mp fun hgt => hpast ((pastEnd_iff hf).mpr hgt)
    have hclean : s.writeClean path offset size buffer = s.write path offset size buffer := by
      rw [writeClean, if_neg (fun hboth => hpast hboth.1)]
    exact .inr (.inr ⟨hpast, _, hclean.trans (h.objects.write_of_le hle), h.setMem _⟩)

/-- A read is safe exactly when its sum does not wrap or is past the end. -/
theorem safeRead_iff (hoffset : offset < 2 ^ 64) :
    s.SafeRead frames path offset size ↔
      offset + size < 2 ^ 64 ∨ s.PastEnd path offset size := by
  have hf := h.objects.file
  by_cases hpast : s.PastEnd path offset size
  · have hread := h.objects.read_of_gt ((pastEnd_iff hf).mp hpast)
    exact iff_of_true ⟨f, n, _, -1, [], h.objects, hread, .inl ⟨rfl, rfl⟩⟩ (.inr hpast)
  · have hle : (offset + size) % 2 ^ 64 ≤ f.size :=
      Nat.not_lt.mp fun hgt => hpast ((pastEnd_iff hf).mpr hgt)
    have hread := h.objects.read_of_le hle
    have hframes : s.InFrames (page * PAGE_SIZE) frames
        ((page * PAGE_SIZE + offset) % 2 ^ 64) size ↔ offset + size < 2 ^ 64 := by
      refine h.inFrames_request_iff hoffset fun hlt => ?_
      rw [Nat.mod_eq_of_lt hlt] at hle
      exact hle.trans h.size
    rw [or_iff_left hpast, ← hframes]
    constructor
    · intro hsafe
      obtain ⟨f', n', data', r, out, hobjects, hret, hcases⟩ := hsafe
      obtain ⟨_, _, rfl⟩ := h.objects.unique hobjects
      rw [hread] at hret
      have hzero : 0 = r := congrArg Prod.fst (Except.ok.inj hret)
      cases hcases with
      | inl hfail =>
          rw [← hzero] at hfail
          exact absurd hfail.1 (by decide)
      | inr hcopied => exact hcopied.2
    · intro hin
      exact ⟨f, n, _, 0, _, h.objects, hread, .inr ⟨rfl, hin⟩⟩

/-- A write is safe exactly when its sum does not wrap, or is past the end and there is no
room for it. -/
theorem safeWrite_iff (hoffset : offset < 2 ^ 64) :
    s.SafeWrite frames path offset size buffer ↔ offset + size < 2 ^ 64 ∨
      s.PastEnd path offset size ∧ s.NoRoom (growth offset size) := by
  -- the outcome of a write that returns 0
  have hout : ∀ {s' : Tmpfs} {n' : TmpfsNode} {data' : Nat},
      s.writeClean path offset size buffer = .ok (0, s') → s'.Objects path f n' data' →
      (s.SafeWrite frames path offset size buffer ↔
        if s.PastEnd path offset size then
          s.InFrames (page * PAGE_SIZE) frames (page * PAGE_SIZE) f.size ∧
            s'.InFrames data' (growth offset size) data' f.size ∧
            s'.InFrames data' (growth offset size) ((data' + offset) % 2 ^ 64) size
        else s'.InFrames data' frames ((data' + offset) % 2 ^ 64) size) := by
    intro s' n' data' hwrite hobjects'
    constructor
    · intro hsafe
      obtain ⟨f₁, n₁, data₁, r, s₁, hobjects, hret, hcases⟩ := hsafe
      obtain ⟨rfl, rfl, rfl⟩ := h.objects.unique hobjects
      rw [hwrite] at hret
      have hzero : 0 = r := congrArg Prod.fst (Except.ok.inj hret)
      obtain rfl : s' = s₁ := congrArg Prod.snd (Except.ok.inj hret)
      cases hcases with
      | inl hfail =>
          rw [← hzero] at hfail
          exact absurd hfail.1 (by decide)
      | inr hcopied =>
          obtain ⟨_, n₂, data₂, hobjects₂, hin⟩ := hcopied
          obtain ⟨_, rfl, rfl⟩ := hobjects'.unique hobjects₂
          exact hin
    · intro hin
      exact ⟨f, n, _, 0, s', h.objects, hwrite, .inr ⟨rfl, n', data', hobjects', hin⟩⟩
  cases h.writeClean_cases offset size buffer with
  | inl hfails =>
      obtain ⟨hpast, hnone, s', hwrite, hframed, hmem⟩ := hfails
      exact iff_of_true ⟨f, n, _, -1, s', h.objects, hwrite, .inl ⟨rfl, hframed.objects, hmem⟩⟩
        (.inr ⟨hpast, hnone⟩)
  | inr hcopies =>
      cases hcopies with
      | inl hmoves =>
          obtain ⟨hpast, hroom, hcount, s', n', page', hwrite, hframed⟩ := hmoves
          rw [hout hwrite hframed.objects, if_pos hpast, or_iff_left fun hboth => hroom hboth.2]
          have hframes : s'.InFrames (page' * PAGE_SIZE) (growth offset size)
              ((page' * PAGE_SIZE + offset) % 2 ^ 64) size ↔ offset + size < 2 ^ 64 := by
            refine hframed.inFrames_request_iff hoffset fun hlt => ?_
            have hbounds := (growth_bounds hcount).1
            rwa [Nat.mod_eq_of_lt hlt] at hbounds
          rw [← hframes]
          constructor
          · intro hin
            exact hin.2.2
          · intro hin
            have hold := h.size
            have hnew := hframed.size
            exact ⟨h.inFrames_of_le (le_refl _) (by omega),
              hframed.inFrames_of_le (le_refl _) (by omega), hin⟩
      | inr hstays =>
          obtain ⟨hpast, s', hwrite, hframed⟩ := hstays
          rw [hout hwrite hframed.objects, if_neg hpast, or_iff_left fun hboth => hpast hboth.1]
          refine hframed.inFrames_request_iff hoffset fun hlt => ?_
          have hle : (offset + size) % 2 ^ 64 ≤ f.size :=
            Nat.not_lt.mp fun hgt => hpast ((pastEnd_iff h.objects.file).mpr hgt)
          rw [Nat.mod_eq_of_lt hlt] at hle
          exact hle.trans h.size

end Framed

end Tmpfs

/-! ## Runs -/

/-- A call that returns; its size is a register. -/
def RequestStep (t : OpenFile) (e : Request) (t' : OpenFile) : Prop :=
  e.size < 2 ^ 64 ∧ ∃ r, t.exec e = .ok (r, t')

/-- A call within the bounds that returns. -/
def BoundedStep (t : OpenFile) (e : Request) (t' : OpenFile) : Prop :=
  RequestStep t e t' ∧ t.Bounded e

namespace OpenFile

variable {t t' : OpenFile} {e : Request} {path : Nat}

/-- The descriptions are of the file `path`, which has its frames. -/
structure Sound (t : OpenFile) (path : Nat) : Prop where
  framed : ∃ f n page, t.fs.Framed path t.frames f n page
  file : ∀ i, (t.descs i).file = path
  offset : ∀ i, (t.descs i).offset < 2 ^ 64

theorem Sound.advance (h : t.Sound path) (fd size : Nat) : (t.advance fd size).Sound path := by
  refine ⟨h.framed, ?_, ?_⟩
  · intro i
    show (Function.update t.descs fd _ i).file = path
    by_cases hi : i = fd
    · subst hi
      rw [Function.update_self]
      exact h.file i
    · rw [Function.update_of_ne hi]
      exact h.file i
  · intro i
    show (Function.update t.descs fd _ i).offset < 2 ^ 64
    by_cases hi : i = fd
    · subst hi
      rw [Function.update_self]
      exact Nat.mod_lt _ (by decide)
    · rw [Function.update_of_ne hi]
      exact h.offset i

/-- A request is safe exactly when it is within the bounds. -/
theorem Sound.bounded_iff (h : t.Sound path) (e : Request) : t.Safe e ↔ t.Bounded e := by
  obtain ⟨f, n, page, hframed⟩ := h.framed
  have hfile := h.file e.fd
  have hoffset := h.offset e.fd
  unfold Safe Bounded
  dsimp only
  rw [hfile]
  refine imp_congr Iff.rfl ?_
  cases e with
  | read fd size =>
      rw [and_true]
      exact hframed.safeRead_iff hoffset
  | write fd size buffer => exact hframed.safeWrite_iff hoffset

theorem Sound.step (h : t.Sound path) (hstep : RequestStep t e t') : t'.Sound path := by
  obtain ⟨_, r, hexec⟩ := hstep
  obtain ⟨f, n, page, hframed⟩ := h.framed
  unfold exec at hexec
  dsimp only at hexec
  split at hexec
  next hmode =>
    cases hexec
    exact h
  next hmode =>
    cases e with
    | read fd size =>
        obtain ⟨⟨r', out⟩, _, hret⟩ := bind_eq_ok.mp hexec
        cases hret
        exact h.advance fd size
    | write fd size buffer =>
        obtain ⟨⟨r', s'⟩, hwrite, hret⟩ := bind_eq_ok.mp hexec
        have hadv := h.advance fd size
        rw [Request.fd, h.file fd] at hwrite hret
        cases hret
        refine ⟨?_, hadv.file, hadv.offset⟩
        cases hframed.writeClean_cases (t.descs fd).offset size buffer with
        | inl hfails =>
            obtain ⟨_, _, s₁, hwrite₁, hframed₁, _⟩ := hfails
            rw [hwrite] at hwrite₁
            cases hwrite₁
            rw [if_neg (fun hboth => absurd hboth.1 (by decide : (-1 : Int) ≠ 0))]
            exact ⟨f, n, page, hframed₁⟩
        | inr hcopies =>
            cases hcopies with
            | inl hmoves =>
                obtain ⟨hpast, _, _, s₁, n', page', hwrite₁, hframed₁⟩ := hmoves
                rw [hwrite] at hwrite₁
                cases hwrite₁
                rw [if_pos ⟨rfl, hpast⟩]
                exact ⟨f, n', page', hframed₁⟩
            | inr hstays =>
                obtain ⟨hpast, s₁, hwrite₁, hframed₁⟩ := hstays
                rw [hwrite] at hwrite₁
                cases hwrite₁
                rw [if_neg (fun hboth => hpast hboth.2)]
                exact ⟨f, n, page, hframed₁⟩

theorem Sound.run (h : t.Sound path) {es : List Request} (hrun : Run BoundedStep t es t') :
    t'.Sound path :=
  hrun.invariant (I := fun t => t.Sound path)
    (fun hinv hstep => Sound.step hinv hstep.1) h

end OpenFile

namespace Tmpfs

/-- A file that `open` makes has one frame. -/
theorem framed_of_create {s s₁ : Tmpfs} {workingDir : Option Nat} {path : CStr}
    {mode : UInt16} {fd : FileDescription} (hmode : mode &&& CREATE ≠ 0)
    (halloc : s.pmm.refuses 1 = false)
    (hopen : s.openFile workingDir path mode = .ok (some fd, s₁)) :
    ∃ f n page, s₁.Framed fd.file 1 f n page := by
  cases openFile_create_cases hmode hopen with
  | inl hnone => cases hnone.1
  | inr hmade =>
      obtain ⟨m, n, f, haccepts, hfd, rfl⟩ := hmade
      obtain rfl := Option.some.inj hfd
      obtain ⟨page, _, hin, hfree, hret⟩ := s.pmm.alloc_of_not_refuses halloc s.mem
      rw [hret]
      refine ⟨_, _, page, ⟨file_eq_ok.mpr files_grow_self,
        node_eq_ok.mpr (nodes_grow_new haccepts.node), rfl, rfl⟩, ?_, ?_, hin, ?_⟩
      · show 4096 ≤ 1 * PAGE_SIZE
        decide
      · show 1 * PAGE_SIZE < 2 ^ 64
        decide
      · intro i hlo hhi
        show (Pmm.setBits s.pmm.bitmap page 1).isBitSet i = true
        rw [Pmm.isBitSet_setBits, decide_eq_true ⟨hlo, hhi⟩, Bool.true_or]

end Tmpfs

/-- A file that `open` made, after any sequence of calls within the bounds: the bytes of a
call lie in the frames of the file exactly when it is within the bounds too. -/
theorem accesses_in_frames_iff {s s₁ : Tmpfs} {workingDir : Option Nat} {path : CStr}
    {mode : UInt16} {fd : FileDescription} (hmode : mode &&& CREATE ≠ 0)
    (halloc : s.pmm.refuses 1 = false)
    (hopen : s.openFile workingDir path mode = .ok (some fd, s₁))
    {descs : Nat → FileDescription}
    (hdescs : ∀ i, (descs i).file = fd.file ∧ (descs i).offset < 2 ^ 64)
    {es : List Request} {t : OpenFile} (hrun : Run BoundedStep ⟨s₁, descs, 1⟩ es t) :
    ∀ e, t.Safe e ↔ t.Bounded e := by
  have hsound : OpenFile.Sound ⟨s₁, descs, 1⟩ fd.file :=
    ⟨Tmpfs.framed_of_create hmode halloc hopen, fun i => (hdescs i).1, fun i => (hdescs i).2⟩
  exact (hsound.run hrun).bounded_iff

/-- The file `/a`, after a write of 100 bytes through a description that may read too. -/
theorem write_hundred_run :
    ∃ s t, Tmpfs.sixteenPages.openFile none [CStr.slash, 97] 7 = .ok (some ⟨1, 7, 0⟩, s) ∧
      Run BoundedStep ⟨s, fun _ => ⟨1, 7, 0⟩, 1⟩ [.write 0 100 fun _ => 7] t ∧
      t.descs 0 = ⟨1, 7, 100⟩ := by
  refine ⟨_, _, rfl, .cons ⟨⟨by decide, 0, rfl⟩, ?_⟩ (.nil _), rfl⟩
  intro _
  exact .inl (by decide)

/-- Then a read of 100 bytes more is safe. -/
theorem accesses_in_frames_iff_hundred :
    ∃ s t, Tmpfs.sixteenPages.openFile none [CStr.slash, 97] 7 = .ok (some ⟨1, 7, 0⟩, s) ∧
      Run BoundedStep ⟨s, fun _ => ⟨1, 7, 0⟩, 1⟩ [.write 0 100 fun _ => 7] t ∧
      t.Safe (.read 0 100) := by
  obtain ⟨s, t, hopen, hrun, hdesc⟩ := write_hundred_run
  refine ⟨s, t, hopen, hrun, (accesses_in_frames_iff (by decide) (by decide) hopen
    (fun _ => ⟨rfl, by decide⟩) hrun (.read 0 100)).mpr ?_⟩
  intro _
  left
  show (t.descs 0).offset + 100 < 2 ^ 64
  rw [hdesc]
  decide

/-- And a read of 2⁶⁴ - 100 bytes, whose end wraps to 0, returns 0 and copies from far behind
the frame. -/
theorem wrapped_read_succeeds :
    ∃ s t, Tmpfs.sixteenPages.openFile none [CStr.slash, 97] 7 = .ok (some ⟨1, 7, 0⟩, s) ∧
      Run RequestStep ⟨s, fun _ => ⟨1, 7, 0⟩, 1⟩ [.write 0 100 fun _ => 7] t ∧
      (t.descs 0).offset = 100 ∧ (∃ out, t.fs.read 1 100 (2 ^ 64 - 100) = .ok (0, out)) ∧
      ¬t.Safe (.read 0 (2 ^ 64 - 100)) := by
  obtain ⟨s, t, hopen, hrun, hdesc⟩ := write_hundred_run
  have hsound : OpenFile.Sound ⟨s, fun _ => ⟨1, 7, 0⟩, 1⟩ 1 :=
    ⟨Tmpfs.framed_of_create (by decide) (by decide) hopen, fun _ => rfl,
      fun _ => (by decide : 0 < 2 ^ 64)⟩
  have ht := hsound.run hrun
  obtain ⟨f, n, page, hframed⟩ := ht.framed
  have hzero : (100 + (2 ^ 64 - 100)) % 2 ^ 64 = 0 := by decide
  have hpast : ¬t.fs.PastEnd 1 100 (2 ^ 64 - 100) := by
    rw [Tmpfs.pastEnd_iff hframed.objects.file, hzero]
    exact Nat.not_lt_zero _
  refine ⟨s, t, hopen, hrun.mono fun hstep => hstep.1, by rw [hdesc],
    ⟨_, hframed.objects.read_of_le (by rw [hzero]; exact Nat.zero_le _)⟩, ?_⟩
  rw [ht.bounded_iff]
  unfold OpenFile.Bounded
  dsimp only [Request.fd]
  rw [hdesc]
  intro hbounded
  cases hbounded (by decide) with
  | inl hlt => exact absurd hlt (by decide)
  | inr hend => exact hpast hend.1

end Toystar.Fs

import Toystar.Fs.TmpfsOps
import Toystar.Memory.LiveFrames

/-!
# A store of files

What the temporary filesystem is for is said by `Store`: a path names a directory
or a file, a file is 4096 bytes, and a descriptor is the path it was opened for.
`FileStore` is the code, over one frame allocator that others use too.  The
operations are those of `kernel/fs/tmpfs.cpp` in any order, `open` and `mkdir` for
paths whose parent is a directory, `write` with any offset and size below 2 ^ 64 in all.
A path is a value: what the name of a node points to does not change.
-/

namespace Toystar.Fs

open Toystar.Kernel
open Toystar.Klibc
open Toystar.Memory
open Toystar.Verified

/-! ## What it is for -/

/-- What a path names. -/
inductive PathEntry
  | directory
  | file (bytes : Nat → UInt8)

/-- A file after a write: what is written behind its 4096 bytes is not kept. -/
def WriteCall.store (w : WriteCall) (bytes : Nat → UInt8) : Nat → UInt8 := fun pos =>
  if pos < 4096 then w.update pos (bytes pos) else 0

/-- The entries by their paths, the paths of the open descriptors, and the frames of
others. -/
structure Store where
  entry : List CStr → Option PathEntry
  handles : List (List CStr)
  buffers : List Bytes

/-- `dir` is a valid pointer or null, `ds` the path of the parent and `b` the name. -/
inductive FileOp
  | create (dir : Option Nat) (ds : List CStr) (b : CStr) (mode : UInt16)
  | mkdir (dir : Option Nat) (ds : List CStr) (b : CStr)
  | openFile (dir : Option Nat) (ds : List CStr) (b : CStr) (mode : UInt16)
  | write (i : Nat) (w : WriteCall)
  | alloc (count : Nat)
  | free (b : Nat)
  | poke (b offset : Nat) (v : UInt8)

namespace Store

/-- Only the root. -/
def empty : Store := ⟨fun path => if path = [] then some .directory else none, [], []⟩

/-- A new entry, unless there is one or the directory has the name itself. -/
def make (a : Store) (ds : List CStr) (b : CStr) (x : PathEntry) : Option Store :=
  if (a.entry (ds ++ [b])).isNone ∧ ds.getLast? ≠ some b then
    some { a with entry := Function.update a.entry (ds ++ [b]) (some x) }
  else none

/-- A new descriptor. -/
def opened (a : Store) (path : List CStr) : Store := { a with handles := a.handles ++ [path] }

def apply (a : Store) : FileOp → Store
  | .create _ ds b _ =>
      match a.make ds b (.file fun _ => 0) with
      | some a => a.opened (ds ++ [b])
      | none => a
  | .mkdir _ ds b => (a.make ds b .directory).getD a
  | .openFile _ ds b _ =>
      match a.entry (ds ++ [b]) with
      | some (.file _) => a.opened (ds ++ [b])
      | _ => a
  | .write i w =>
      match a.handles[i]? with
      | none => a
      | some path =>
          match a.entry path with
          | some (.file bytes) =>
              { a with entry := Function.update a.entry path (some (.file (w.store bytes))) }
          | _ => a
  | .alloc count =>
      { a with buffers := (fun o => if o < count * PAGE_SIZE then some 0 else none) :: a.buffers }
  | .free b => { a with buffers := a.buffers.eraseIdx b }
  | .poke b offset v =>
      { a with buffers := a.buffers.modify b fun f => Function.update f offset (some v) }

/-- What `read` returns for a file. -/
def readResult (bytes : Nat → UInt8) (offset size : Nat) : Int × List UInt8 :=
  if offset + size ≤ 4096 then (0, (List.range size).map fun i => bytes (offset + i))
  else (-1, [])

end Store

/-! ## What the code does -/

namespace Tmpfs

/-- The node of a path. -/
def lookup (s : Tmpfs) (path : List CStr) : Option Nat :=
  match s.tree.walk s.rootTmpfsNode path with
  | (m, []) => some m
  | _ => none

/-- The first page of a file. -/
def contents (s : Tmpfs) (m : Nat) : Nat → UInt8 := fun pos =>
  if pos < 4096 then s.mem (((s.nodes[m]?.bind (·.data)).getD 0) + pos) else 0

def entryAt (s : Tmpfs) (m : Nat) : Option PathEntry :=
  match s.typeOf m with
  | some .directory => some .directory
  | some .file => some (.file (s.contents m))
  | _ => none

def entry (s : Tmpfs) (path : List CStr) : Option PathEntry := (s.lookup path).bind s.entryAt

/-- `path` names a directory. -/
def IsDirectory (s : Tmpfs) (path : List CStr) : Prop :=
  (s.lookup path).bind s.typeOf = some .directory

instance (s : Tmpfs) (path : List CStr) : Decidable (s.IsDirectory path) :=
  inferInstanceAs (Decidable (_ = _))

end Tmpfs

instance (c : CStr) : Decidable (CStr.IsComponent c) :=
  inferInstanceAs (Decidable (_ ∧ _ ∧ _))

/-- The filesystem, the descriptors that `open` returned, and allocations of others. -/
structure FileStore where
  fs : Tmpfs
  handles : List FileDescription
  buffers : List Frames

namespace FileStore

/-- The frame allocator has `count` frames in a row. -/
def Served (t : FileStore) (count : Nat) : Prop := (t.fs.pmm.alloc t.fs.mem count).1 ≠ 0

instance (t : FileStore) (count : Nat) : Decidable (t.Served count) :=
  inferInstanceAs (Decidable (_ ≠ _))

/-- A working directory that is null or an object, and an absolute path below a
directory. -/
def Legal (t : FileStore) (dir : Option Nat) (ds : List CStr) (b : CStr) : Prop :=
  (∀ d ∈ dir, d < t.fs.files.length) ∧ (∀ c ∈ ds ++ [b], CStr.IsComponent c) ∧
    t.fs.IsDirectory ds

instance (t : FileStore) (dir : Option Nat) (ds : List CStr) (b : CStr) :
    Decidable (t.Legal dir ds b) :=
  inferInstanceAs (Decidable (_ ∧ _ ∧ _))

/-- What an operation asks for.  Requests to the frame allocator are served. -/
def Allowed (t : FileStore) : FileOp → Prop
  | .create dir ds b mode => t.Legal dir ds b ∧ mode &&& CREATE ≠ 0 ∧ t.Served 1
  | .mkdir dir ds b => t.Legal dir ds b
  | .openFile dir ds b mode => t.Legal dir ds b ∧ mode &&& CREATE = 0
  | .write i w => i < t.handles.length ∧ w.stop < 2 ^ 64 ∧
      (4096 < w.stop → t.Served (divCeil w.stop PAGE_SIZE))
  | .alloc count => t.Served count
  | .free b => b < t.buffers.length
  | .poke b offset _ => ∃ f ∈ t.buffers[b]?, offset < f.count * PAGE_SIZE

instance (t : FileStore) : (op : FileOp) → Decidable (t.Allowed op)
  | .create .. => inferInstanceAs (Decidable (_ ∧ _ ∧ _))
  | .mkdir dir ds b => inferInstanceAs (Decidable (t.Legal dir ds b))
  | .openFile .. => inferInstanceAs (Decidable (_ ∧ _))
  | .write .. => inferInstanceAs (Decidable (_ ∧ _ ∧ (_ → _)))
  | .alloc count => inferInstanceAs (Decidable (t.Served count))
  | .free _ => inferInstanceAs (Decidable (_ < _))
  | .poke b offset _ =>
      match hb : t.buffers[b]? with
      | none => isFalse (by simp [Allowed, hb])
      | some f => decidable_of_iff (offset < f.count * PAGE_SIZE) (by simp [Allowed, hb])

/-- One operation, unless it faults. -/
def exec (t : FileStore) : FileOp → Option FileStore
  | .create dir ds b mode | .openFile dir ds b mode => do
      let r ← (t.fs.openFile dir (CStr.joinPath (ds ++ [b])) mode).toOption
      return { t with fs := r.2, handles := t.handles ++ r.1.toList }
  | .mkdir dir ds b => do
      let r ← (t.fs.mkdir dir (CStr.joinPath (ds ++ [b]))).toOption
      return { t with fs := r.2 }
  | .write i w => do
      let fd ← t.handles[i]?
      let r ← (t.fs.write fd.file w.offset w.size w.buffer).toOption
      return { t with fs := r.2 }
  | .alloc count =>
      let r := t.fs.pmm.alloc t.fs.mem count
      some { t with
        fs := { t.fs with pmm := r.2.1, mem := r.2.2 }
        buffers := ⟨r.1, count⟩ :: t.buffers }
  | .free b => do
      let f ← t.buffers[b]?
      return { t with
        fs := { t.fs with pmm := t.fs.pmm.free f.ptr f.count }
        buffers := t.buffers.eraseIdx b }
  | .poke b offset v => do
      let f ← t.buffers[b]?
      return { t with fs := { t.fs with mem := Function.update t.fs.mem (f.ptr + offset) v } }

def Step (t : FileStore) (op : FileOp) (t' : FileStore) : Prop :=
  t.Allowed op ∧ t.exec op = some t'

/-- The step as a function. -/
def attempt (t : FileStore) (op : FileOp) : Option FileStore :=
  if t.Allowed op then t.exec op else none

theorem step_of_attempt {t t' : FileStore} {op : FileOp} (h : t.attempt op = some t') :
    t.Step op t' := by
  unfold attempt at h
  split at h
  · exact ⟨‹_›, h⟩
  · cases h

/-- After `Tmpfs::init`. -/
def boot (p₀ : Pmm) (mem₀ : ByteMem) (tmpfs : Nat) : FileStore :=
  ⟨.init p₀ mem₀ tmpfs, [], []⟩

end FileStore

/-- `fd` is a descriptor of the file at `path`. -/
def Tmpfs.Describes (s : Tmpfs) (fd : FileDescription) (path : List CStr) : Prop :=
  ∃ m, s.lookup path = some m ∧ s.typeOf m = some .file ∧
    s.nodes[m]?.bind (fun n => some n.file) = some fd.file

/-- The state is what the store says: the entries, the path of each descriptor, and the
frames of others. -/
structure FileStore.Refines (t : FileStore) (a : Store) : Prop where
  entry : t.fs.entry = a.entry
  handles : List.Forall₂ t.fs.Describes t.handles a.handles
  buffers : t.buffers.map (Frames.bytes t.fs.mem) = a.buffers

end Toystar.Fs

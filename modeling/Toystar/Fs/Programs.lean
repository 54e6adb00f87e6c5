import Toystar.Fs.FileRuns
import Toystar.Fs.Fork
import Toystar.Fs.Mounts
import Toystar.Fs.OpenLeak

/-!
# The file calls of programs

`syscall_open`, `syscall_read`, `syscall_write`, `syscall_close` and the descriptor parts
of `create_process`, `syscall_fork` and `exit_process`, down to the filesystems: the
descriptor tables of all processes, the mount table of `_start`, `tmpfs`, `devfs` with the
terminal, and one frame allocator that others use too (`Calls`).

What a program is to see of all this is said by `Programs`: each process has a table of
handles, a handle is a path or the terminal with a mode and an offset of its own, and the
files are a store.

Paths are values here.  `new_fs_node` keeps the pointer into the path that `open` was
given, and later lookups compare with what is there then, through the pagemap that is
active then.  So the model is of programs that leave the path of a file they made as it
is, at an address where every pagemap has it: a program that overwrites it renames its
file.
-/

namespace Toystar.Fs

open Toystar.Kernel
open Toystar.Klibc
open Toystar.Memory
open Toystar.Verified

/-- `"dev"`. -/
def devDir : CStr := [100, 101, 118]

/-- `"tty0"`. -/
def tty0 : CStr := [116, 116, 121, 48]

/-- `rax` after `regs->rax = r`. -/
def raxOf (r : Int) : Nat := (r % 2 ^ 64).toNat

/-- What a call leaves in `rax`, and what it copied to the buffer of the program. -/
structure Reply where
  rax : Nat
  bytes : List UInt8
deriving DecidableEq

/-- Where no program waits for a reply. -/
def Reply.nothing : Reply := ⟨0, []⟩

/-- `rax` after `syscall_fork` with the child's pid and what `get_new_tid` gave. -/
def forkRax (pid : Nat) : Option Nat → Nat
  | none => minusOne
  | some _ => pid

/-- Processes are named by their pids.  `ds` is the path of the parent and `b` the name.
The addresses are those that `new` returns; `answer` is what `devfs::read` leaves in
`rax`, which returns nothing; `tid` is the new thread's number, or `none` for -1. -/
inductive FileCall
  /-- `create_process`, which gets its ids -/
  | create (p stdin stdout stderr : Nat)
  | openFile (p : Nat) (ds : List CStr) (b : CStr) (rsi fdAt : Nat)
  | read (p rdi rdx answer : Nat)
  | write (p rdi rdx : Nat) (buffer : Nat → UInt8)
  | close (p rdi : Nat)
  | fork (p q : Nat) (news : Nat → Nat) (tid : Option Nat)
  | exit (p : Nat)
  /-- the kernel itself -/
  | kernel (op : FileOp)

/-! ## What it is for -/

/-- `none` is the terminal. -/
structure Handle where
  file : Option (List CStr)
  mode : UInt16
  offset : Nat

/-- The files, the handles of each process, and what was written to the terminal. -/
structure Programs where
  store : Store
  tables : Nat → Option (List (Option Handle))
  output : List UInt8

namespace Store

/-- The operation on the store that an open is. -/
def opening (ds : List CStr) (b : CStr) (mode : UInt16) : FileOp :=
  if mode &&& CREATE ≠ 0 then .create none ds b mode else .openFile none ds b mode

/-- Whether it gives a file. -/
def finds (a : Store) (ds : List CStr) (b : CStr) (mode : UInt16) : Bool :=
  if mode &&& CREATE ≠ 0 then (a.make ds b (.file fun _ => 0)).isSome
  else match a.entry (ds ++ [b]) with
    | some (.file _) => true
    | _ => false

end Store

namespace Programs

/-- No process, no file. -/
def empty : Programs := ⟨.empty, fun _ => none, []⟩

def setTable (a : Programs) (p : Nat) (table : List (Option Handle)) : Programs :=
  { a with tables := Function.update a.tables p (some table) }

/-- The handle of process `p` at `rdi`, if it has the mode. -/
def permitted (a : Programs) (p rdi : Nat) (mode : UInt16) : Option Handle :=
  (do (← (← a.tables p)[rdi]?) : Option Handle).filter fun h => h.mode &&& mode ≠ 0

/-- The offset moves behind the bytes, whatever became of them. -/
def advance (a : Programs) (p rdi rdx : Nat) (h : Handle) : Programs :=
  { a with tables := Function.update a.tables p ((a.tables p).map fun table =>
      table.set rdi (some { h with offset := (h.offset + rdx) % 2 ^ 64 })) }

/-- A new handle goes to the first free place. -/
def bindFirst (table : List (Option Handle)) (h : Handle) : Nat × List (Option Handle) :=
  let k := table.findIdx (·.isNone)
  (k, if k < table.length then table.set k (some h) else table ++ [some h])

/-- The file that a path leads to, and the store behind the open. -/
def find (a : Programs) (ds : List CStr) (b : CStr) (mode : UInt16) :
    Option (Option (List CStr)) × Store :=
  if ds.head? = some devDir then
    (if ds = [devDir] ∧ b = tty0 then some none else none, a.store)
  else (if a.store.finds ds b mode then some (some (ds ++ [b])) else none,
    a.store.apply (Store.opening ds b mode))

def contents (a : Programs) (path : List CStr) : Nat → UInt8 :=
  match a.store.entry path with
  | some (.file bytes) => bytes
  | _ => fun _ => 0

/-- What a read leaves and copies. -/
def readReply (a : Programs) (answer : Nat) (h : Handle) (rdx : Nat) : Reply :=
  match h.file with
  | none => ⟨answer, []⟩
  | some path =>
      let r := Store.readResult (a.contents path) h.offset rdx
      ⟨raxOf r.1, r.2⟩

/-- The files and what is printed after a write. -/
def written (a : Programs) (h : Handle) (rdx : Nat) (buffer : Nat → UInt8) :
    Store × List UInt8 :=
  match h.file with
  | none => (a.store, (List.range rdx).map buffer)
  | some path =>
      let bytes := WriteCall.store ⟨h.offset, rdx, buffer⟩ (a.contents path)
      ({ a.store with entry := Function.update a.store.entry path (some (.file bytes)) }, [])

def apply (a : Programs) : FileCall → Reply × Programs
  | .create p _ _ _ =>
      (.nothing, a.setTable p [some ⟨none, WRITE, 0⟩, some ⟨none, READ, 0⟩, some ⟨none, WRITE, 0⟩])
  | .openFile p ds b rsi _ =>
      match a.find ds b (UInt16.ofNat rsi), a.tables p with
      | (some file, store), some table =>
          let bound := bindFirst table ⟨file, UInt16.ofNat rsi, 0⟩
          (⟨bound.1, []⟩, { a with store }.setTable p bound.2)
      | (_, store), _ => (⟨minusOne, []⟩, { a with store })
  | .read p rdi rdx answer =>
      match a.permitted p rdi READ with
      | none => (⟨minusOne, []⟩, a)
      | some h => (a.readReply answer h rdx, a.advance p rdi rdx h)
  | .write p rdi rdx buffer =>
      match a.permitted p rdi WRITE with
      | none => (⟨minusOne, []⟩, a)
      | some h =>
          let w := a.written h rdx buffer
          (⟨0, []⟩, { a.advance p rdi rdx h with store := w.1, output := a.output ++ w.2 })
  | .close p rdi =>
      match a.tables p with
      | none => (⟨minusOne, []⟩, a)
      | some table =>
          if rdi < table.length then (⟨0, []⟩, a.setTable p (table.set rdi none))
          else (⟨minusOne, []⟩, a)
  | .fork p q _ tid =>
      (⟨forkRax q tid, []⟩, { a with tables := Function.update a.tables q (a.tables p) })
  | .exit p => (.nothing, { a with tables := Function.update a.tables p none })
  | .kernel op => (.nothing, { a with store := a.store.apply op })

end Programs

/-! ## What the code does -/

/-- The mount table after the two calls of `mount` in `_start`. -/
def kernelVfs : Vfs :=
  ⟨[[116, 109, 112, 102, 115], [100, 101, 118, 102, 115]],
    some (.node [CStr.slash] 0 [.node (CStr.slash :: devDir) 1 []])⟩

/-- The calls of `Tmpfs::init`, `Devfs::init` and `_start` make it. -/
example :
    (do
      let v : Vfs := ⟨[], none⟩
      let v := (v.addFs [116, 109, 112, 102, 115]).addFs [100, 101, 118, 102, 115]
      let r ← v.mount [116, 109, 112, 102, 115] [CStr.slash]
      r.2.mount [100, 101, 118, 102, 115] (CStr.slash :: devDir)) = .ok (true, kernelVfs) :=
  rfl

/-- An `fs_node`: number 0 is that of the terminal, and number `i + 1` is `files[i]` of
`tmpfs`. -/
def kernelDevfs : Devfs := .addDevice ⟨[], some 1⟩ tty0 0

/-- The filesystem with all descriptors that it returned, the tables of the processes, and
what `tty::write` was given. -/
structure Calls where
  store : FileStore
  fds : FdSystem
  output : List UInt8

namespace FdState

/-- What a call of `Vfs::read` or `Vfs::write` is given, when `rdi` passes the tests. -/
def permitted (t : FdState) (rdi : Nat) (mode : UInt16) : Option FileDescription :=
  (do t.descs (← (← t.table[rdi]?)) : Option FileDescription).filter fun d =>
    d.mode &&& mode ≠ 0

/-- The loop of `exit_process` over `fd_list`, for `n` rounds from `i` on. -/
def deleteFrom (t : FdState) : Nat → Nat → Except Fault FdState
  | 0, _ => .ok t
  | n + 1, i => do
      match ← t.fdList.get t.arrays i with
      | none => deleteFrom t n (i + 1)
      | some fd => do
          let _ ← t.desc fd
          deleteFrom (t.setDesc fd none) n (i + 1)

/-- That loop, and the destructor of `fd_list` behind it. -/
def exit (t : FdState) : Except Fault FdState := do
  let t ← t.deleteFrom t.fdList.size 0
  return ⟨.new, ← t.fdList.destroy t.arrays, t.descs⟩

end FdState

/-- Process `p` is gone. -/
def FdSystem.remove (s : FdSystem) (p : Nat) : FdSystem :=
  { s with lists := Function.update s.lists p none }

namespace Calls

/-- `Vfs::open` of an absolute path. -/
def vfsOpen (fs : Tmpfs) (path : CStr) (mode : UInt16) :
    Except Fault (Option FileDescription × Tmpfs) := do
  let t ← kernelVfs.target fs none path
  if t.fs = 0 then do
    let r ← fs.openFile t.workingDir t.path mode
    return (r.1.map fun d => { d with file := d.file + 1 }, r.2)
  else return (← kernelDevfs.openFile t.path mode, fs)

/-- `Vfs::read`. -/
def vfsRead (fs : Tmpfs) (answer : Nat) (d : FileDescription) (rdx : Nat) :
    Except Fault Reply :=
  match d.file with
  | 0 => .ok ⟨answer, []⟩
  | i + 1 => do
      let r ← fs.read i d.offset rdx
      return ⟨raxOf r.1, r.2⟩

/-- `Vfs::write`, and what `tty::write` printed. -/
def vfsWrite (fs : Tmpfs) (d : FileDescription) (rdx : Nat) (buffer : Nat → UInt8) :
    Except Fault (Nat × Tmpfs × List UInt8) :=
  match d.file with
  | 0 => .ok (0, fs, (List.range rdx).map buffer)
  | i + 1 => do
      let r ← fs.write i d.offset rdx buffer
      return (raxOf r.1, r.2, [])

/-- A descriptor that `tmpfs` returned. -/
def tmpfsHandle : Option FileDescription → List FileDescription
  | some ⟨i + 1, mode, offset⟩ => [⟨i, mode, offset⟩]
  | _ => []

/-- The descriptors of `create_process`. -/
def standard (stdin stdout stderr : Nat) : List (Option (Nat × FileDescription)) :=
  [some (stdin, ⟨0, WRITE, 0⟩), some (stdout, ⟨0, READ, 0⟩), some (stderr, ⟨0, WRITE, 0⟩)]

/-- One call, unless it faults.  What `rdi` of an open points to is taken as a value. -/
def exec (s : Calls) : FileCall → Option (Reply × Calls)
  | .create p stdin stdout stderr => do
      let t ← ((s.fds.view .new).fill (standard stdin stdout stderr)).toOption
      return (.nothing, { s with fds := s.fds.put p t })
  | .openFile p ds b rsi fdAt => do
      let v ← s.fds.lists p
      let (d, fs) ← (vfsOpen s.store.fs (CStr.joinPath (ds ++ [b])) (UInt16.ofNat rsi)).toOption
      let (rax, t) ← ((s.fds.view v).syscallOpen rsi (d.map fun d => (fdAt, d.file))).toOption
      return (⟨rax, []⟩, { s with
        store := { s.store with fs, handles := s.store.handles ++ tmpfsHandle d }
        fds := s.fds.put p t })
  | .read p rdi rdx answer => do
      let v ← s.fds.lists p
      let r ← match (s.fds.view v).permitted rdi READ with
        | none => some ⟨minusOne, []⟩
        | some d => (vfsRead s.store.fs answer d rdx).toOption
      let (rax, t) ← ((s.fds.view v).syscallRead rdi rdx r.rax).toOption
      return (⟨rax, r.bytes⟩, { s with fds := s.fds.put p t })
  | .write p rdi rdx buffer => do
      let v ← s.fds.lists p
      let (result, fs, printed) ← match (s.fds.view v).permitted rdi WRITE with
        | none => some (minusOne, s.store.fs, [])
        | some d => (vfsWrite s.store.fs d rdx buffer).toOption
      let (rax, t) ← ((s.fds.view v).syscallWrite rdi rdx result).toOption
      return (⟨rax, []⟩,
        { store := { s.store with fs }, fds := s.fds.put p t, output := s.output ++ printed })
  | .close p rdi => do
      let v ← s.fds.lists p
      let (rax, t) ← ((s.fds.view v).syscallClose rdi).toOption
      return (⟨rax, []⟩, { s with fds := s.fds.put p t })
  | .fork p q news tid => do
      let v ← s.fds.lists p
      let fds ← (s.fds.fork q v news none).toOption
      -- without a thread the child stays in `process_list` with its descriptors
      return (⟨forkRax q tid, []⟩, { s with fds })
  | .exit p => do
      let v ← s.fds.lists p
      let t ← (s.fds.view v).exit.toOption
      return (.nothing, { s with fds := (s.fds.put p t).remove p })
  | .kernel op => do
      let store ← s.store.exec op
      return (.nothing, { s with store })

/-- What a call asks for: a process that exists or does not, addresses that are not in
use, and of the filesystem what an operation on it does (`FileStore.Allowed`). -/
def Allowed (s : Calls) : FileCall → Prop
  | .create p stdin stdout stderr => s.fds.lists p = none ∧
      FdState.FreshAll s.fds.descs (standard stdin stdout stderr)
  | .openFile p ds b rsi fdAt => (s.fds.lists p).isSome ∧ s.fds.descs fdAt = none ∧
      (∀ c ∈ ds ++ [b], CStr.IsComponent c) ∧
      (ds.head? ≠ some devDir → s.store.Allowed (Store.opening ds b (UInt16.ofNat rsi)))
  | .read p rdi rdx _ => ∃ v ∈ s.fds.lists p, ∀ d ∈ (s.fds.view v).permitted rdi READ,
      d.file ≠ 0 → d.offset + rdx < 2 ^ 64
  | .write p rdi rdx _ => ∃ v ∈ s.fds.lists p, ∀ d ∈ (s.fds.view v).permitted rdi WRITE,
      d.file ≠ 0 → d.offset + rdx < 2 ^ 64 ∧
        (4096 < d.offset + rdx → s.store.Served (divCeil (d.offset + rdx) PAGE_SIZE))
  | .close p _ => (s.fds.lists p).isSome
  | .fork p q news _ => s.fds.lists q = none ∧ ∃ v ∈ s.fds.lists p, s.fds.NewAt v news ∧
      ∀ i : Nat, (s.fds.view v).table[i]? ≠ some none
  | .exit p => (s.fds.lists p).isSome
  | .kernel op => s.store.Allowed op

def Step (s : Calls) (e : FileCall × Reply) (s' : Calls) : Prop :=
  s.Allowed e.1 ∧ s.exec e.1 = some (e.2, s')

/-- Before the first process. -/
def boot (p₀ : Pmm) (mem₀ : ByteMem) : Calls :=
  ⟨.boot p₀ mem₀ 0, .boot [] fun _ => none, []⟩

end Calls

end Toystar.Fs

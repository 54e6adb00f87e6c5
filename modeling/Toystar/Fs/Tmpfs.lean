import Toystar.Klibc.Strings
import Toystar.Memory.Pmm

/-!
# The temporary filesystem

`kernel/fs/tmpfs.cpp` with `Vfs::new_fs_node`.  A file is two heap objects that
point at each other, the `fs_node` the rest of the kernel sees and the
`tmpfs_node` with the contents and the tree links.  Neither is ever deleted, so
a pointer is an index into the list of the objects made so far.

`data` is a physical address, as everywhere in the memory modules: the test of
`resize` for a null `new_data` comes after `PHYSICAL_BASE_ADDRESS` was added,
and is modelled so.  A caller's buffer is the bytes in it: it is memory of the
caller, not frames of the file.
-/

namespace Toystar.Fs

open Toystar.Kernel
open Toystar.Klibc
open Toystar.Memory
open Toystar.Verified

/-! ## Objects -/

/-- `Vfs::FileType`. -/
inductive FileType
  | file
  | directory
  | symlink
  | device
deriving DecidableEq, Repr

/-- `Vfs::fs_node`; `link` is never set. -/
structure FsNode where
  name : CStr
  size : Nat
  permissions : UInt8
  type : FileType
  deviceNode : Nat
  parent : Option Nat
  fs : Option Nat
deriving DecidableEq

/-- `Tmpfs::tmpfs_node`; `data` is assigned for files only. -/
structure TmpfsNode where
  file : Nat
  data : Option Nat
  next : Option Nat
  parent : Option Nat
  children : Option Nat
deriving DecidableEq

/-- `Vfs::file_description`. -/
structure FileDescription where
  file : Nat
  mode : UInt16
  offset : Nat
deriving DecidableEq

/-- `Vfs::Modes::CREATE`. -/
def CREATE : UInt16 := 1

/-- `PHYSICAL_BASE_ADDRESS`. -/
def PHYSICAL_BASE_ADDRESS : Nat := 0xffff800000000000

/-- `DIV_CEIL` on a `size_t`. -/
def divCeil (y x : Nat) : Nat := (y + x - 1) % 2 ^ 64 / x

/-- The objects made so far, `root_tmpfs_node`, what `tmp_filesystem` holds, and
the frames below. -/
structure Tmpfs where
  files : List FsNode
  nodes : List TmpfsNode
  rootTmpfsNode : Nat
  tmpFilesystem : Option Nat
  pmm : Pmm
  mem : ByteMem

namespace Tmpfs

/-- Read a `fs_node*`. -/
def file (s : Tmpfs) (p : Nat) : Except Fault FsNode :=
  match s.files[p]? with
  | some f => .ok f
  | none => .error .nullDeref

/-- Read a `tmpfs_node*`. -/
def node (s : Tmpfs) (p : Nat) : Except Fault TmpfsNode :=
  match s.nodes[p]? with
  | some n => .ok n
  | none => .error .nullDeref

def setNode (s : Tmpfs) (p : Nat) (n : TmpfsNode) : Tmpfs :=
  { s with nodes := s.nodes.set p n }

/-- `Vfs::new_fs_node`: the address of a new object. -/
def newFsNode (s : Tmpfs) (name : CStr) (size : Nat) (permi : UInt8)
    (type : FileType) (dn : Nat) (parent fs : Option Nat) : Nat × Tmpfs :=
  (s.files.length,
    { s with files := s.files ++ [⟨name, size, permi, type, dn, parent, fs⟩] })

/-- `tmpfs::tmpfs`: the root directory. -/
def new (pmm : Pmm) (mem : ByteMem) (tmpFilesystem : Option Nat) : Tmpfs :=
  { files := [⟨[CStr.slash], 0, 0, .directory, 0, none, tmpFilesystem⟩]
    nodes := [⟨0, none, none, none, none⟩]
    rootTmpfsNode := 0
    tmpFilesystem
    pmm
    mem }

/-- `Tmpfs::init`: `tmp_filesystem` is null until the constructor returned. -/
def init (pmm : Pmm) (mem : ByteMem) (tmpfs : Nat) : Tmpfs :=
  { new pmm mem none with tmpFilesystem := some tmpfs }

/-! ## Paths -/

/-- The loop of `get_name_from_path`: the index of the last `/` that another
character follows. -/
def lastSlash : CStr → Nat → Int → Int
  | [], _, last => last
  | c :: path, i, last =>
      if c = 0 then last
      else lastSlash path (i + 1)
        (if c = CStr.slash ∧ path.headD 0 ≠ 0 then i else last)

/-- `get_name_from_path`. -/
def getNameFromPath (path : CStr) : CStr :=
  path.drop (lastSlash path 0 (-1) + 1).toNat

/-- The `./` and `../` prefixes of a relative path: what is left and where it
starts, or null. -/
def skipDots (s : Tmpfs) :
    CStr → Option Nat → Except Fault (Option (CStr × Option Nat))
  | path@(c0 :: path1), some node =>
      if c0 ≠ CStr.dot then .ok (some (path, some node))
      else match path1 with
      | [] => .ok none
      | c1 :: path2 =>
          if c1 = CStr.dot then
            match path2 with
            | [] => .ok none
            | c2 :: path3 =>
                if c2 ≠ CStr.slash then .ok none
                else match s.node node with
                | .error e => .error e
                | .ok n => skipDots s path3 n.parent
          else if c1 ≠ CStr.slash then .ok none
          else skipDots s path2 (some node)
  | path, node => .ok (some (path, node))

/-- How the descent ends: at the node the path names, or with a rest of the path
below the last node that matched. -/
inductive Descent
  | found (head : Nat)
  | rest (path : CStr) (node : Nat)
deriving DecidableEq

/-- The descent of `path_to_node` through the sibling lists. -/
def descend (s : Tmpfs) : Nat → Option Nat → CStr → Nat → Except Fault Descent
  | 0, _, _, _ => .error .fuel
  | _ + 1, none, path, node => .ok (.rest path node)
  | fuel + 1, some head, path, node =>
      if path.headD 0 = 0 then .ok (.rest path node)
      else do
        let h ← s.node head
        let name := (← s.file h.file).name
        if ← CStr.strncmp name path (CStr.strlen name) then
          let c ← CStr.charAt path (CStr.strlen name)
          if c ≠ CStr.slash ∧ c ≠ 0 then descend s fuel h.next path node
          else if c = 0 then return .found head
          else descend s fuel h.children (path.drop (CStr.strlen name + 1)) head
        else descend s fuel h.next path node

/-- More than one `/` that another character follows. -/
def tooDeep : CStr → Nat → Bool
  | [], _ => false
  | c :: path, count =>
      if c = 0 then false
      else if c = CStr.slash ∧ path.headD 0 ≠ 0 then
        if count + 1 > 1 then true else tooDeep path (count + 1)
      else tooDeep path count

/-- The descent and the last check of `path_to_node`.  A descent of a tree meets
each node once at most. -/
def resolve (s : Tmpfs) (head : Option Nat) (path : CStr) (node : Nat) :
    Except Fault (Option Nat) := do
  match ← s.descend (s.nodes.length + 1) head path node with
  | .found head => return some head
  | .rest path node => return if tooDeep path 0 then none else some node

/-- `path_to_node`.  `path == "/"` compares addresses and is false. -/
def pathToNode (s : Tmpfs) (path : CStr) (currDir : Option Nat) :
    Except Fault (Option Nat) := do
  if path.headD 0 ≠ CStr.slash then
    match currDir with
    | none => return none
    | some dir =>
        match ← s.skipDots path (some dir) with
        | none => return none
        | some (_, none) => return none
        | some (path, some node) =>
            let n ← s.node node
            s.resolve n.children path node
  else
    let root ← s.node s.rootTmpfsNode
    s.resolve root.children (path.drop 1) s.rootTmpfsNode

/-! ## Operations -/

/-- `working_dir->device_node`, or null. -/
def workingNode (s : Tmpfs) : Option Nat → Except Fault (Option Nat)
  | none => return none
  | some dir => return some (← s.file dir).deviceNode

/-- The part of `open` that makes a file below `node`. -/
def create (s : Tmpfs) (path : CStr) (mode : UInt16) (node : Nat) :
    Except Fault (FileDescription × Tmpfs) := do
  let n ← s.node node
  let newFile := s.nodes.length
  let (file, s) := s.newFsNode (getNameFromPath path) 4096 0 .file newFile
    (some n.file) s.tmpFilesystem
  let (data, pmm, mem) := s.pmm.alloc s.mem 1
  let made : TmpfsNode := ⟨file, some data, n.children, some node, none⟩
  let s := { s with nodes := s.nodes ++ [made], pmm, mem }
  return (⟨file, mode, 0⟩, s.setNode node { n with children := some newFile })

/-- `tmpfs::open`. -/
def openFile (s : Tmpfs) (workingDir : Option Nat) (path : CStr) (mode : UInt16) :
    Except Fault (Option FileDescription × Tmpfs) := do
  let wdir ← s.workingNode workingDir
  match ← s.pathToNode path wdir with
  | none => return (none, s)
  | some node =>
      let f ← s.file (← s.node node).file
      let same ← CStr.strcmp (getNameFromPath path) f.name
      if mode &&& CREATE ≠ 0 then
        if same ∨ f.type ≠ .directory then return (none, s)
        let (fd, s) ← s.create path mode node
        return (some fd, s)
      if ¬same ∨ f.type ≠ .file then return (none, s)
      return (some ⟨(← s.node node).file, mode, 0⟩, s)

/-- `tmpfs::mkdir`: 0, or -1. -/
def mkdir (s : Tmpfs) (workingDir : Option Nat) (path : CStr) :
    Except Fault (Int × Tmpfs) := do
  let wdir ← s.workingNode workingDir
  match ← s.pathToNode path wdir with
  | none => return (-1, s)
  | some parent =>
      let n ← s.node parent
      if ← CStr.strcmp (getNameFromPath path) (← s.file n.file).name then
        return (-1, s)
      let dir := s.nodes.length
      let (file, s) := s.newFsNode (getNameFromPath path) 0 0 .directory dir
        (some n.file) s.tmpFilesystem
      let made : TmpfsNode := ⟨file, none, n.children, some parent, none⟩
      let s := { s with nodes := s.nodes ++ [made] }
      return (0, s.setNode parent { n with children := some dir })

/-- `node->data`. -/
def dataOf (n : TmpfsNode) : Except Fault Nat :=
  match n.data with
  | some data => .ok data
  | none => .error .uninitialised

/-- `tmpfs::resize`. -/
def resize (s : Tmpfs) (node newSize : Nat) (grow : Bool) :
    Except Fault (Bool × Tmpfs) := do
  let pages := divCeil newSize PAGE_SIZE
  let (newData, pmm, mem) := s.pmm.alloc s.mem pages
  let s := { s with pmm, mem }
  if (newData + PHYSICAL_BASE_ADDRESS) % 2 ^ 64 = 0 then return (false, s)
  let n ← s.node node
  let fileSize := (← s.file n.file).size
  let size := if grow then fileSize else pages * PAGE_SIZE
  let data ← dataOf n
  let s := { s with mem := memcpy s.mem newData data size }
  let s := { s with pmm := s.pmm.free data (divCeil fileSize PAGE_SIZE) }
  return (true, s.setNode node { n with data := some newData })

/-- Copy `size` bytes at `src` to a caller's buffer. -/
def copyOut (mem : ByteMem) (src size : Nat) : List UInt8 :=
  (List.range size).map fun i => mem (src + i)

/-- Copy `size` bytes of a caller's buffer to `dest`. -/
def copyIn (mem : ByteMem) (dest : Nat) (buffer : Nat → UInt8) (size : Nat) :
    ByteMem := fun x =>
  if dest ≤ x ∧ x < dest + size then buffer (x - dest) else mem x

/-- `tmpfs::read`: 0 and the bytes copied into the buffer, or -1. -/
def read (s : Tmpfs) (path offset size : Nat) :
    Except Fault (Int × List UInt8) := do
  let n ← s.node (← s.file path).deviceNode
  if (offset + size) % 2 ^ 64 > (← s.file n.file).size then return (-1, [])
  let data ← dataOf n
  return (0, copyOut s.mem ((data + offset) % 2 ^ 64) size)

/-- The growth `write` asks for, when the request ends past the file's size. -/
def makeRoom (s : Tmpfs) (node offset size : Nat) : Except Fault (Bool × Tmpfs) := do
  if (offset + size) % 2 ^ 64 > (← s.file (← s.node node).file).size then
    s.resize node ((offset + size) % 2 ^ 64) true
  else return (true, s)

/-- `tmpfs::write`: 0, or -1. -/
def write (s : Tmpfs) (path offset size : Nat) (buffer : Nat → UInt8) :
    Except Fault (Int × Tmpfs) := do
  let node := (← s.file path).deviceNode
  let (room, s) ← s.makeRoom node offset size
  if room then
    let data ← dataOf (← s.node node)
    return (0, { s with mem := copyIn s.mem ((data + offset) % 2 ^ 64) buffer size })
  else return (-1, s)

end Tmpfs

end Toystar.Fs

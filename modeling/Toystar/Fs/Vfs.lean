import Toystar.Klibc.Strings
import Toystar.Verified.PathTree

/-!
# The mount table

`add_fs`, `mount` and `get_absolute_path` of `kernel/fs/vfs.cpp`.  A
`Vfs::node` holds the rest of its target below the node it hangs on, its
filesystem and its children, linked through `next` with the last mount first;
`parent` is only read by `print_nodes`.  A filesystem is its index in `fses`.

Both functions walk the tree in the same way: along a list of siblings, down
into the first one that leads on, never back up.
-/

namespace Toystar.Fs

open Toystar.Kernel
open Toystar.Klibc
open Toystar.Verified

/-- `Vfs::node`. -/
abbrev MountNode := PathTree UInt8 Nat

/-- `fses`, by the names of the filesystems, and `vfs_root_node`. -/
structure Vfs where
  fses : List CStr
  rootNode : Option MountNode

/-- `Vfs::path`. -/
structure Path where
  fsPath : CStr
  fs : Nat
deriving DecidableEq

namespace Vfs

/-- `Vfs::add_fs`. -/
def addFs (v : Vfs) (name : CStr) : Vfs := { v with fses := v.fses ++ [name] }

/-- The search of `mount` for the filesystem named `source`, from index `i` on. -/
def findFs (source : CStr) : List CStr → Nat → Except Fault (Option Nat)
  | [], _ => .ok none
  | name :: fses, i => do
      if ← CStr.strcmp name source then return some i
      findFs source fses (i + 1)

mutual

/-- The loop of `mount` with `node` as `parent`, and the new node below the last
parent. -/
def mountBelow : MountNode → CStr → Nat → Except Fault MountNode
  | .node name fs children, targetStr, newFs => do
      match ← mountAmong children targetStr newFs with
      | some children => return .node name fs children
      | none => return .node name fs (.node targetStr newFs [] :: children)

/-- The loop of `mount` along the siblings from `head` on: `none` at their end, or
at the end of the target. -/
def mountAmong : List MountNode → CStr → Nat → Except Fault (Option (List MountNode))
  | [], _, _ => .ok none
  | head :: next, targetStr, newFs => do
      if (← CStr.charAt targetStr 0) = 0 then return none
      if ← CStr.strncmp head.name targetStr (CStr.strlen head.name) then
        let c ← CStr.charAt targetStr (CStr.strlen head.name)
        if c ≠ CStr.slash ∧ c ≠ 0 then
          return (← mountAmong next targetStr newFs).map (head :: ·)
        let head ← mountBelow head (targetStr.drop (CStr.strlen head.name)) newFs
        return some (head :: next)
      return (← mountAmong next targetStr newFs).map (head :: ·)

end

/-- `Vfs::mount`. -/
def mount (v : Vfs) (source target : CStr) : Except Fault (Bool × Vfs) := do
  match ← findFs source v.fses 0 with
  | none => return (false, v)
  | some fs =>
      match v.rootNode with
      | none => return (true, { v with rootNode := some (.node target fs []) })
      | some root =>
          let root ← mountBelow root target fs
          return (true, { v with rootNode := some root })

mutual

/-- The loop of `get_absolute_path` with `node` as `parent`. -/
def pathBelow : MountNode → CStr → Except Fault Path
  | .node _ fs children, fsPath => do
      match ← pathAmong children fsPath with
      | some path => return path
      | none => return ⟨fsPath, fs⟩

/-- The loop of `get_absolute_path` along the siblings from `head` on. -/
def pathAmong : List MountNode → CStr → Except Fault (Option Path)
  | [], _ => .ok none
  | head :: next, fsPath => do
      if ← CStr.strncmp head.name fsPath (CStr.strlen head.name) then
        if (← CStr.charAt fsPath (CStr.strlen head.name)) ≠ CStr.slash then
          pathAmong next fsPath
        else return some (← pathBelow head (fsPath.drop (CStr.strlen head.name)))
      else pathAmong next fsPath

end

/-- `Vfs::get_absolute_path`. -/
def getAbsolutePath (v : Vfs) (vfsPath : CStr) : Except Fault Path :=
  match v.rootNode with
  | none => .error .nullDeref
  | some root => pathBelow root vfsPath

end Vfs

end Toystar.Fs

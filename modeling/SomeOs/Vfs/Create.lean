import SomeOs.Vfs.RealPath
import SomeOs.Vfs.SplitPath

/-! # Opening files that do not exist

`vfsOpenAt` with the flag to create, and the path that it records in the file. The string is put
together from the path of the parent and the last name, in a block whose bytes are whatever they
were before.
-/
namespace SomeOs.Vfs
open Segments

/-- `VFS_TYPE_CHAR` -/
abbrev typeChar : ℕ := 2
/-- `VFS_TYPE_BLOCK` -/
abbrev typeBlock : ℕ := 6

def kalloc (garbage : ℕ → UInt8) (size : ℕ) : List UInt8 := (List.range size).map garbage

/-- The path of a new node. No terminator is written. -/
def newNodePath (garbage : ℕ → UInt8) (real_parent_path filename : List UInt8) : Option (List UInt8) :=
  let parent_path_length := (cString real_parent_path).length
  let filename_length := (cString filename).length
  (storeAll (kalloc garbage (parent_path_length + 1 + filename_length)) 0 (cString real_parent_path)).bind fun real_path =>
    if parent_path_length = 1 then storeAll real_path 1 (cString filename)
    else (store real_path parent_path_length slash).bind fun real_path =>
      storeAll real_path (parent_path_length + 1) (cString filename)

structure VfsFile where
  node : NodeId
  path : List UInt8

def Tree.vfsCreateDirectoryDotAndDotDot (t : Tree) (dir_node parent : NodeId) : Except ErrorKind Unit × Tree :=
  match t.vfsNodeLink none dir_node dot dir_node with
  | (.error e, t) => (.error e, t)
  | (.ok _, t) => t.vfsNodeLink none dir_node dotDot parent

namespace VirtualFilesystem

def vfsSuperNewNode (s : VirtualFilesystem) (sb : ℕ) : Except ErrorKind NodeId × VirtualFilesystem :=
  match s.tree.newNode sb with
  | .error e => (.error e, s)
  | .ok i =>
    match s.tree.readError (sb, i) with
    | some e => (.error e, s)
    | none => (.ok (sb, i), s.vfsNodeCopy (sb, i))

def lookupRealPath (garbage : ℕ → UInt8) ( at_prefix : List UInt8) (segs : List Name) : Option (List UInt8) :=
  realPath (kalloc garbage (max 1 (pathLength at_prefix segs) + 1)) at_prefix segs

/-- The node and the whole block that its path is in. -/
def vfsCreateNewNode (s : VirtualFilesystem) (process : Option User) (umask : ℕ) (garbage : ℕ → UInt8)
    (file : Option (List UInt8))
    (path : List UInt8) (mode : ℕ) : Option (Except ErrorKind (NodeId × List UInt8) × VirtualFilesystem) :=
  (s.vfsLookupNodeAt process file path { parent := true }).bind fun
  | (.error e, s) => some (.error e, s)
  | (.ok (parent, at_prefix, segs), s) =>
    (lookupRealPath garbage at_prefix segs).bind fun real_parent_path =>
      match s.vfsSuperNewNode parent.1 with
      | (.error e, s) => some (.error e, s.vfsNodeClose parent)
      | (.ok new, s) =>
        let s := { s with tree := s.tree.setStat new (Filesystem.newStat process umask mode) }
        (getBaseFilename (path ++ [0])).bind fun filename =>
          match s.change (·.vfsNodeLink process parent (cString filename) new) with
          | (.error e, s) => some (.error e, (s.vfsNodeClose parent).vfsNodeClose new)
          | (.ok _, s) =>
            match (if modeType mode = typeDir then s.change (·.vfsCreateDirectoryDotAndDotDot new parent) else (.ok (), s)) with
            | (.error e, s) => some (.error e, (s.vfsNodeClose parent).vfsNodeClose new)
            | (.ok _, s) => (newNodePath garbage real_parent_path filename).map fun real_path =>
                (.ok (new, real_path), s.vfsNodeClose parent)

open ErrorKind in
/-- The file keeps the reference to the node, and the path. -/
def vfsOpenNode (s : VirtualFilesystem) (process : Option User) (node : NodeId) (path : List UInt8)
    (flags : Filesystem.OpenFlags) :
    Except ErrorKind VfsFile × VirtualFilesystem :=
  match s.tree.access process node flags.access with
  | .error e => (.error e, s.vfsNodeClose node)
  | .ok _ =>
    let type := modeType (s.tree.stat node).mode
    if type = typeFifo then (.ok ⟨node, path⟩, s)
    else if type = typeChar ∨ type = typeBlock then
      if s.tree.device node then (.ok ⟨node, path⟩, s) else (.error ENXIO, s.vfsNodeClose node)
    else if flags.trunc ∧ flags.access.w then
      match s.tree.access process node { w := true }, s.tree.truncError node with
      | .error e, _ => (.error e, s.vfsNodeClose node)
      | .ok _, some e => (.error e, s.vfsNodeClose node)
      | .ok _, none => (.ok ⟨node, path⟩, { s with tree := s.tree.setEntries node [] })
    else (.ok ⟨node, path⟩, s)

/-- Only regular files are created. -/
def vfsOpenAt (s : VirtualFilesystem) (process : Option User) (umask : ℕ) (garbage : ℕ → UInt8) (file : Option (List UInt8))
    (path : List UInt8) (flags : Filesystem.OpenFlags) (mode : ℕ) : Option (Except ErrorKind VfsFile × VirtualFilesystem) :=
  (s.vfsLookupNodeAt process file path {}).bind fun
  | (.error e, s) =>
    if e = .ENOENT ∧ flags.creat then
      (s.vfsCreateNewNode process umask garbage file path ((mode &&& (0xffff ^^^ modeTypeMask)) ||| (typeReg <<< 12))).map fun
      | (.error e, s) => (.error e, s)
      | (.ok (node, real_path), s) => s.vfsOpenNode process node real_path flags
    else some (.error e, s)
  | (.ok (node, at_prefix, segs), s) =>
    (lookupRealPath garbage at_prefix segs).map fun real_path =>
      if flags.excl then (.error .EEXIST, s.vfsNodeClose node) else s.vfsOpenNode process node real_path flags

end VirtualFilesystem

end SomeOs.Vfs

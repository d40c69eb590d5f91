import SomeOs.Vfs.SplitPath

/-! # Lookup of path strings

Any number of file systems, mounted on nodes of each other. A node is known by its superblock and
its inode. Beside the tree that the drivers keep there are the references to nodes and to
superblocks, as calls of one task after another change them; what the last reference to a node
does to its inode is not part of this model.
-/
namespace SomeOs.Vfs
open Minix Segments

abbrev NodeId := ℕ × ℕ

/-- The nodes of all file systems, and for which of them there is a device. The errors are those of
the drivers. Mounted roots can have mounts too, and the depth of such a stack goes down with every
one of them. -/
structure Tree where
  stat : NodeId → VfsStat
  entries : NodeId → List (Name × ℕ)
  rootNode : ℕ → ℕ
  mounted : NodeId → Option ℕ
  depth : NodeId → ℕ
  stacked : ∀ n sb, mounted n = some sb → depth (sb, rootNode sb) < depth n
  newNode : ℕ → Except ErrorKind ℕ
  lookupError : NodeId → Option ErrorKind
  readError : NodeId → Option ErrorKind
  linkError : NodeId → Option ErrorKind
  unlinkError : NodeId → Option ErrorKind
  truncError : NodeId → Option ErrorKind
  freeError : NodeId → Bool
  device : NodeId → Bool

/-- The tree, the references to nodes, and the reference counts of the superblocks. Before there is a root, superblocks are
mounted at prefixes of paths. -/
@[ext] structure VirtualFilesystem where
  tree : Tree
  refs : Multiset NodeId
  superRefs : ℕ → ℕ
  root_mounted : Option ℕ
  tmp_mounted : List (List UInt8 × ℕ)

namespace Tree

def isDir (t : Tree) (n : NodeId) : Bool := modeType (t.stat n).mode == typeDir

def access (t : Tree) (process : Option User) (n : NodeId) (flags : AccessFlags) : Except ErrorKind Unit :=
  canAccess (t.stat n) process flags

/-- `vfsNodeLookup` without the reference that it returns. -/
def vfsNodeLookup (t : Tree) (process : Option User) (n : NodeId) (name : Name) : Except ErrorKind NodeId :=
  match t.access process n { x := true, dir := true }, t.lookupError n with
  | .error e, _ => .error e
  | .ok _, some e => .error e
  | .ok _, none =>
    match (t.entries n).find? (·.1 = name) with
    | none => .error .ENOENT
    | some (_, i) =>
      match t.readError (n.1, i) with
      | some e => .error e
      | none => .ok (n.1, i)

def setEntries (t : Tree) (n : NodeId) (l : List (Name × ℕ)) : Tree := { t with entries := Function.update t.entries n l }

def setStat (t : Tree) (n : NodeId) (stat : VfsStat) : Tree := { t with stat := Function.update t.stat n stat }

def vfsNodeUnlink (t : Tree) (process : Option User) (n : NodeId) (name : Name) (entry : NodeId) : Except ErrorKind Unit × Tree :=
  if n.1 ≠ entry.1 then (.error .EXDEV, t)
  else
    match (if (t.stat n).mode &&& modeSticky ≠ 0 then t.access process entry { w := true } else .ok ()),
      t.access process n { w := true, dir := true }, t.unlinkError n with
    | .error e, _, _ => (.error e, t)
    | .ok _, .error e, _ => (.error e, t)
    | .ok _, .ok _, some e => (.error e, t)
    | .ok _, .ok _, none =>
      if ∃ e ∈ t.entries n, e.1 = name then
        let t := t.setEntries n (Filesystem.removeEntry (t.entries n) name)
        (.ok (), t.setStat entry { t.stat entry with nlinks := ((t.stat entry).nlinks + (2 ^ 64 - 1)) % 2 ^ 64 })
      else (.error .ENOENT, t)

/-- The link is counted before the entry is made. -/
def vfsNodeLink (t : Tree) (process : Option User) (n : NodeId) (name : Name) (entry : NodeId) : Except ErrorKind Unit × Tree :=
  if n.1 ≠ entry.1 then (.error .EXDEV, t)
  else
    match t.access process n { w := true, dir := true } with
    | .error e => (.error e, t)
    | .ok _ =>
      let t := t.setStat entry { t.stat entry with nlinks := ((t.stat entry).nlinks + 1) % 2 ^ 64 }
      match t.linkError n with
      | some e => (.error e, t)
      | none => (.ok (), t.setEntries n (Filesystem.addEntry (t.entries n) name entry.2))

def vfsCheckDirectoryIsEmpty (t : Tree) (process : Option User) (dir : NodeId) : Except ErrorKind Unit :=
  match t.access process dir { r := true, dir := true } with
  | .error e => .error e
  | .ok _ => if t.entries dir = [] ∨ ∃ e ∈ t.entries dir, e.1 ≠ dot ∧ e.1 ≠ dotDot then .error .ENOTEMPTY else .ok ()

def vfsRemoveDirectoryDotAndDotDot (t : Tree) (process : Option User) (parent dir : NodeId) : Except ErrorKind Unit × Tree :=
  if (t.stat dir).nlinks = 1 then
    match t.vfsNodeUnlink process dir dot dir with
    | (.error e, t) => (.error e, t)
    | (.ok _, t) => t.vfsNodeUnlink process dir dotDot parent
  else (.ok (), t)

def vfsUnlinkFrom (t : Tree) (process : Option User) (parent : NodeId) (filename : Name) (n : NodeId) :
    Except ErrorKind Unit × Tree :=
  if t.isDir n ∧ (t.stat n).nlinks = 2 then
    match t.vfsCheckDirectoryIsEmpty process n with
    | .error e => (.error e, t)
    | .ok _ =>
      match t.vfsNodeUnlink process parent filename n with
      | (.error e, t) => (.error e, t)
      | (.ok _, t) => t.vfsRemoveDirectoryDotAndDotDot process parent n
  else t.vfsNodeUnlink process parent filename n

end Tree

namespace VirtualFilesystem

def vfsNodeCopy (s : VirtualFilesystem) (n : NodeId) : VirtualFilesystem :=
  { s with
    refs := n ::ₘ s.refs
    superRefs := if n ∈ s.refs then s.superRefs else Function.update s.superRefs n.1 (s.superRefs n.1 + 1) }

/-- The last one gives that up, unless the inode has to be freed and the driver fails. -/
def vfsNodeClose (s : VirtualFilesystem) (n : NodeId) : VirtualFilesystem :=
  let refs := s.refs.erase n
  let freed := n.2 ≠ s.tree.rootNode n.1 ∧ (s.tree.stat n).nlinks = 0
  { s with
    refs := refs
    superRefs := if n ∈ refs ∨ (freed ∧ s.tree.freeError n = true) then s.superRefs
      else Function.update s.superRefs n.1 (s.superRefs n.1 - 1) }

def vfsNodeLookup (s : VirtualFilesystem) (process : Option User) (n : NodeId) (name : Name) :
    Except ErrorKind NodeId × VirtualFilesystem :=
  match s.tree.vfsNodeLookup process n name with
  | .error e => (.error e, s)
  | .ok next => (.ok next, s.vfsNodeCopy next)

/-- A node is left for the root that is mounted on it. The reference to the node is given up only on the way to the last
mount point. -/
def vfsFollowMounts : ℕ → VirtualFilesystem → NodeId → Bool → NodeId × VirtualFilesystem
  | 0, s, curr, _ => (curr, s)
  | depth + 1, s, curr, last_mountpoint =>
    match s.tree.mounted curr with
    | none => (curr, s)
    | some sb =>
      let mounted_root := (sb, s.tree.rootNode sb)
      let s := s.vfsNodeCopy mounted_root
      if last_mountpoint then
        if (s.tree.mounted mounted_root).isSome then vfsFollowMounts depth (s.vfsNodeClose curr) mounted_root last_mountpoint
        else (curr, s.vfsNodeClose mounted_root)
      else vfsFollowMounts depth s mounted_root last_mountpoint

end VirtualFilesystem

/-- The variables of `vfsLookupNode`. The last one of `dirs` and of `segs` is first here. -/
structure Walk where
  vfs : VirtualFilesystem
  curr : NodeId
  dirs : List NodeId
  segs : List Name
  dirs_capacity : ℕ

/-- One segment of the path. A directory that is left is kept in `dirs`, which grows when it is full. There is no result
when a write is outside of it. -/
def walkSegment (process : Option User) (segment : Name) (w : Walk) : Option (Option ErrorKind × Walk) :=
  if ¬w.vfs.tree.isDir w.curr then some (some .ENOTDIR, w)
  else if segment = dot then some (none, w)
  else if segment = dotDot then
    match w.dirs with
    | d :: e :: dirs => some (none, { w with vfs := w.vfs.vfsNodeClose w.curr, curr := d, dirs := e :: dirs, segs :=
      w.segs.tail })
    | _ => some (none, w)
  else
    let dirs_capacity := if w.dirs.length = w.dirs_capacity then w.dirs_capacity * 3 / 2 else w.dirs_capacity
    if dirs_capacity ≤ w.dirs.length then none
    else
      let q := VirtualFilesystem.vfsFollowMounts (w.vfs.tree.depth w.curr) (w.vfs.vfsNodeCopy w.curr) w.curr false
      match q.2.vfsNodeLookup process q.1 segment with
      | (.error e, vfs) => some (some e, ⟨vfs, q.1, w.curr :: w.dirs, segment :: w.segs, dirs_capacity⟩)
      | (.ok next, vfs) => some (none, ⟨vfs.vfsNodeClose q.1, next, w.curr :: w.dirs, segment :: w.segs, dirs_capacity⟩)

def walkSegments (process : Option User) : List Name → Walk → Option (Option ErrorKind × Walk)
  | [], w => some (none, w)
  | segment :: rest, w =>
    (walkSegment process segment w).bind fun r =>
      match r.1 with
      | some e => some (some e, r.2)
      | none => walkSegments process rest r.2

/-- The segments that the cursor of `vfsLookupNode` stops at. -/
def nextSegments : ℕ → List UInt8 → List Name
  | 0, _ => []
  | _ + 1, [] => []
  | n + 1, c :: path => (c :: path).takeWhile (· ≠ slash) ::
      nextSegments n (((c :: path).dropWhile (· ≠ slash)).dropWhile (· = slash))

def pathSegments (path : List UInt8) : List Name := nextSegments path.length (path.dropWhile (· = slash))

/-- `memcpy` to a position in a block of memory. -/
def storeAll (block : List UInt8) : ℕ → List UInt8 → Option (List UInt8)
  | _, [] => some block
  | i, c :: bytes => (store block i c).bind fun block => storeAll block (i + 1) bytes

def pathLength ( at_prefix : List UInt8) (segs : List Name) : ℕ := at_prefix.length + (segs.map fun seg => 1 + seg.length).sum

/-- The loop over `segs`, after a path of the given length. -/
def storeSegs (block : List UInt8) : ℕ → List Name → Option (List UInt8)
  | path_length, [] => store block (max 1 path_length) 0
  | path_length, seg :: segs =>
    (store block path_length slash).bind fun block =>
    (storeAll block (1 + path_length) seg).bind fun block => storeSegs block (path_length + (1 + seg.length)) segs

/-- The path that `vfsLookupNode` returns, in a block that was allocated for it. -/
def realPath (block at_prefix : List UInt8) (segs : List Name) : Option (List UInt8) :=
  (storeAll block 0 at_prefix).bind fun block =>
  (store block at_prefix.length slash).bind fun block => storeSegs block at_prefix.length segs

structure LookupFlags where
  parent : Bool := false
  skipLastMount : Bool := false

/-- A relative path is put behind the working directory of the process, or the path of the file, which not all have. -/
def absolutePath (file : Option (List UInt8)) (path : List UInt8) : Option (List UInt8) :=
  if isAbsolute path then some path else file.map (· ++ slash :: path)

namespace VirtualFilesystem

/-- The node and the segments on the way to it, in their order. -/
def vfsLookupNode (s : VirtualFilesystem) (process : Option User) (curr : NodeId) (path : List UInt8) (flags : LookupFlags) :
    Option (Except ErrorKind (NodeId × List Name) × VirtualFilesystem) :=
  let w : Walk := ⟨(s.vfsNodeCopy curr).vfsNodeCopy curr, curr, [curr], [], 64⟩
  (walkSegments process (pathSegments path) w).map fun r =>
    let s := r.2.dirs.reverse.foldl vfsNodeClose r.2.vfs
    match r.1 with
    | some e => (.error e, s.vfsNodeClose r.2.curr)
    | none =>
      let q := vfsFollowMounts (s.tree.depth r.2.curr) s r.2.curr flags.skipLastMount
      (.ok (q.1, r.2.segs.reverse), q.2)

/-- The superblock that a path starts at, with the prefix of its temporary mount, which is empty for the root. -/
def mountFor (s : VirtualFilesystem) (path : List UInt8) : Option (List UInt8 × ℕ) :=
  match s.root_mounted with
  | some sb => some ([], sb)
  | none => s.tmp_mounted.find? (·.1.isPrefixOf path)

def vfsLookupNodeAtExactAbs (s : VirtualFilesystem) (process : Option User) (path : List UInt8) (flags : LookupFlags) :
    Option (Except ErrorKind (NodeId × List UInt8 × List Name) × VirtualFilesystem) :=
  match s.mountFor path with
  | none => some (.error .ENOENT, s)
  | some ( at_prefix, sb) =>
    let root := (sb, s.tree.rootNode sb)
    ((s.vfsNodeCopy root).vfsLookupNode process root (path.drop at_prefix.length) flags).map fun r =>
      (match r.1 with
        | .error e => .error e
        | .ok (n, segs) => .ok (n, at_prefix, segs), r.2.vfsNodeClose root)

def vfsLookupNodeAtAbs (s : VirtualFilesystem) (process : Option User) (path : List UInt8) (flags : LookupFlags) :
    Option (Except ErrorKind (NodeId × List UInt8 × List Name) × VirtualFilesystem) :=
  if flags.parent then
    (getParentPath (path ++ [0])).bind fun parent_path => s.vfsLookupNodeAtExactAbs process (cString parent_path) flags
  else s.vfsLookupNodeAtExactAbs process path flags

def vfsLookupNodeAt (s : VirtualFilesystem) (process : Option User) (file : Option (List UInt8)) (path : List UInt8)
    (flags : LookupFlags) : Option (Except ErrorKind (NodeId × List UInt8 × List Name) × VirtualFilesystem) :=
  match absolutePath file path with
  | some absolute_path => s.vfsLookupNodeAtAbs process absolute_path flags
  | none => some (.error .EINVAL, s)

def change {α : Type} (s : VirtualFilesystem) (f : Tree → Except ErrorKind α × Tree) : Except ErrorKind α × VirtualFilesystem :=
  ((f s.tree).1, { s with tree := (f s.tree).2 })

def vfsUnlinkAt (s : VirtualFilesystem) (process : Option User) (file : Option (List UInt8)) (path : List UInt8) :
    Option (Except ErrorKind Unit × VirtualFilesystem) :=
  (s.vfsLookupNodeAt process file path { parent := true }).bind fun
  | (.error e, s) => some (.error e, s)
  | (.ok (parent, _), s) =>
    (getBaseFilename (path ++ [0])).map fun filename =>
      match s.vfsNodeLookup process parent (cString filename) with
      | (.error e, s) => (.error e, s.vfsNodeClose parent)
      | (.ok node, s) =>
        let r := s.change (·.vfsUnlinkFrom process parent (cString filename) node)
        (r.1, (r.2.vfsNodeClose node).vfsNodeClose parent)

/-- The reference to the old parent is not closed. -/
def vfsMoveDirectoryDotDot (s : VirtualFilesystem) (process : Option User) (old_file : Option (List UInt8)) (old : List UInt8)
    (parent child : NodeId) :
    Option (Except ErrorKind Unit × VirtualFilesystem) :=
  (s.vfsLookupNodeAt process old_file old { parent := true }).map fun
  | (.error e, s) => (.error e, s)
  | (.ok (old_parent, _), s) =>
    match s.change (·.vfsNodeUnlink process child dotDot old_parent) with
    | (.error e, s) => (.error e, s)
    | (.ok _, s) => s.change (·.vfsNodeLink process child dotDot parent)

def vfsLinkAt (s : VirtualFilesystem) (process : Option User) (old_file : Option (List UInt8)) (old : List UInt8)
    (new_file : Option (List UInt8)) (new : List UInt8) :
    Option (Except ErrorKind Unit × VirtualFilesystem) :=
  (s.vfsLookupNodeAt process new_file new { parent := true }).bind fun
  | (.error e, s) => some (.error e, s)
  | (.ok (parent, _), s) =>
    (getBaseFilename (new ++ [0])).bind fun filename =>
      match s.vfsNodeLookup process parent (cString filename) with
      | (.error e, s) =>
        if e = .ENOENT then
          (s.vfsLookupNodeAt process old_file old {}).bind fun
          | (.error e, s) => some (.error e, s.vfsNodeClose parent)
          | (.ok (old_node, _), s) =>
            let r := s.change (·.vfsNodeLink process parent (cString filename) old_node)
            let linked : Option (Except ErrorKind Unit × VirtualFilesystem) := match r.1 with
              | .error _ => some r
              | .ok _ => if r.2.tree.isDir old_node then r.2.vfsMoveDirectoryDotDot process old_file old parent old_node
                else some r
            linked.map fun r => (r.1, (r.2.vfsNodeClose old_node).vfsNodeClose parent)
        else some (.error e, s.vfsNodeClose parent)
      | (.ok new_node, s) => some (.error .EEXIST, (s.vfsNodeClose parent).vfsNodeClose new_node)

end VirtualFilesystem

end SomeOs.Vfs

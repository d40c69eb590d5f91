import SomeOs.Base.Transition
import SomeOs.Vfs.Access

/-! # Names of one file system

The operations on the directories of one mounted file system, as calls of one task after
another. A path is the list of its components from the root on, after the working directory
has been put before a relative one. Directories are lists of entries in the order of their
records. A function that returns a node returns a reference to it; the directories on the
way to it are opened and closed again, which does not change nodes that have links. A
directory change of the driver fails without an effect when there is a fault for it. The
zones of an inode are those that it refers to; a zone is in use from the time the driver has
taken it to the call of the driver that frees it.
-/
namespace SomeOs.Vfs
open Minix

abbrev Name := List UInt8

def dot : Name := [46]
def dotDot : Name := [46, 46]

structure Inode where
  stat : VfsStat := {}
  entries : List (Name × ℕ) := []

/-- Why a change of the driver fails. -/
inductive DriverError where
  | full
  | device
  deriving DecidableEq

open ErrorKind in
def DriverError.kind : DriverError → ErrorKind
  | .full => ENOSPC
  | .device => EIO

/-- The zones that a change of an inode takes, those that it frees, and those that the inode does
not refer to any more. -/
structure ZoneChange where
  taken : List ℕ := []
  freed : List ℕ := []
  dropped : List ℕ := []

/-- What the driver does in a call: the changes that fail, and what the changes of directories that do
not fail do to the zones. A truncation that fails can have freed zones. -/
structure Faults where
  newNode : Option DriverError := none
  readNode : Option DriverError := none
  link : List (Option DriverError) := []
  unlink : List (Option DriverError) := []
  trunc : ℕ → Option (DriverError × ZoneChange) := fun _ => none
  freeNode : ℕ → Option DriverError := fun _ => none
  zones : List ZoneChange := []

structure Filesystem where
  ninodes : ℕ
  root : ℕ
  inodes : ℕ → Inode
  used : ℕ → Bool
  refs : ℕ → ℕ
  faults : Faults
  zones : ℕ → List ℕ := fun _ => []
  zoneUsed : ℕ → Bool := fun _ => false

abbrev Result (α : Type) := Except ErrorKind α × Filesystem

/-- `CHECKED`: after an error the cleanup runs, and the error is returned. -/
def Result.checked {α β : Type} (r : Result α) (cleanup : Filesystem → Filesystem)
    (f : α → Filesystem → Result β) : Result β :=
  match r with
  | (.error e, s) => (.error e, cleanup s)
  | (.ok a, s) => f a s

namespace Filesystem

def stat (s : Filesystem) (i : ℕ) : VfsStat := (s.inodes i).stat

def entries (s : Filesystem) (i : ℕ) : List (Name × ℕ) := (s.inodes i).entries

def isDir (s : Filesystem) (i : ℕ) : Bool := modeType (s.stat i).mode == typeDir

def setNlinks (s : Filesystem) (i n : ℕ) : Filesystem :=
  { s with inodes := Function.update s.inodes i { s.inodes i with stat := { s.stat i with nlinks := n } } }

def setEntries (s : Filesystem) (i : ℕ) (l : List (Name × ℕ)) : Filesystem :=
  { s with inodes := Function.update s.inodes i { s.inodes i with entries := l } }

/-- Only zones that the inode refers to are freed. -/
def changeZones (s : Filesystem) (i : ℕ) (c : ZoneChange) : Filesystem :=
  { s with
    zones := Function.update s.zones i ((s.zones i).filter (· ∉ c.dropped) ++ c.taken)
    zoneUsed := fun z => (s.zoneUsed z && !(z ∈ s.zones i && z ∈ c.freed)) || z ∈ c.taken }

/-- The zones after a change of the directory. -/
def nextZones (s : Filesystem) (node : ℕ) : Filesystem :=
  { s.changeZones node (s.faults.zones.headD {}) with faults := { s.faults with zones := s.faults.zones.tail } }

def vfsNodeCopy (s : Filesystem) (i : ℕ) : Filesystem :=
  { s with refs := Function.update s.refs i (s.refs i + 1) }

/-- The truncation to no bytes. -/
def vfsNodeTrunc (s : Filesystem) (i : ℕ) : Result Unit :=
  match s.faults.trunc i with
  | some (e, c) => (.error e.kind, s.changeZones i c)
  | none => (.ok (), (s.setEntries i []).changeZones i { freed := s.zones i, dropped := s.zones i })

def vfsSuperFreeNode (s : Filesystem) (i : ℕ) : Result Unit :=
  (s.vfsNodeTrunc i).checked id fun _ s =>
  match s.faults.freeNode i with
  | some e => (.error e.kind, s)
  | none => (.ok (), { s with used := Function.update s.used i false })

def written (inode : Inode) : Inode :=
  { inode with stat := { inode.stat with
      nlinks := inode.stat.nlinks % 2 ^ 16, uid := inode.stat.uid % 2 ^ 16, gid := inode.stat.gid % 2 ^ 16 } }

/-- The last close of a node without links frees the inode, and if that fails it goes no further;
other nodes are written back. -/
def vfsNodeClose (s : Filesystem) (i : ℕ) : Filesystem :=
  let s := { s with refs := Function.update s.refs i (s.refs i - 1) }
  if s.refs i ≠ 0 ∨ i = s.root then s
  else if (s.stat i).nlinks = 0 then (s.vfsSuperFreeNode i).2
  else { s with inodes := Function.update s.inodes i (written (s.inodes i)) }

def lookup (s : Filesystem) (node : ℕ) (name : Name) : Option ℕ :=
  ((s.entries node).find? (·.1 = name)).map (·.2)

def access (s : Filesystem) (process : Option User) (node : ℕ) (flags : AccessFlags) : Except ErrorKind Unit :=
  canAccess (s.stat node) process flags

def vfsNodeLookup (s : Filesystem) (process : Option User) (node : ℕ) (name : Name) : Except ErrorKind ℕ :=
  match s.access process node { x := true, dir := true } with
  | .error e => .error e
  | .ok _ => match s.lookup node name with
    | none => .error .ENOENT
    | some i => .ok i

/-- The loop of `vfsLookupNode`. A component `..` goes back to the directory before. -/
def vfsLookupNode (s : Filesystem) (process : Option User) : (dirs : List ℕ) → (curr : ℕ) → List Name →
    Except ErrorKind ℕ
  | _, curr, [] => .ok curr
  | dirs, curr, segment :: rest =>
    if ¬s.isDir curr then .error .ENOTDIR
    else if segment = dot then vfsLookupNode s process dirs curr rest
    else if segment = dotDot then
      match dirs with
      | [] => vfsLookupNode s process [] curr rest
      | d :: dirs => vfsLookupNode s process dirs d rest
    else match s.vfsNodeLookup process curr segment with
      | .error e => .error e
      | .ok next => vfsLookupNode s process (curr :: dirs) next rest

def vfsLookupNodeAt (s : Filesystem) (process : Option User) (path : List Name) : Result ℕ :=
  match s.vfsLookupNode process [] s.root path with
  | .error e => (.error e, s)
  | .ok node => (.ok node, s.vfsNodeCopy node)

def getBaseFilename (path : List Name) : Name := path.getLast?.getD []

def removeEntry (l : List (Name × ℕ)) (name : Name) : List (Name × ℕ) :=
  match l.findIdx? (·.1 = name), l.getLast? with
  | some k, some last => (l.set k last).dropLast
  | _, _ => l

/-- A record with the name is replaced, and otherwise one is added. A name that does not fit is
cut off. -/
def addEntry (l : List (Name × ℕ)) (name : Name) (i : ℕ) : List (Name × ℕ) :=
  let entry := (if 60 ≤ name.length then name.take 59 else name, i)
  match l.findIdx? (·.1 = name) with
  | some k => l.set k entry
  | none => l ++ [entry]

def unlinkEntry (s : Filesystem) (node : ℕ) (name : Name) : Result Unit :=
  let fault := s.faults.unlink.head?.join
  let t := { s with faults := { s.faults with unlink := s.faults.unlink.tail } }
  match s.lookup node name, fault with
  | none, _ => (.error .ENOENT, t)
  | some _, some e => (.error e.kind, t)
  | some _, none => (.ok (), (t.setEntries node (removeEntry (t.entries node) name)).nextZones node)

def linkEntry (s : Filesystem) (node : ℕ) (name : Name) (entry : ℕ) : Result Unit :=
  let fault := s.faults.link.head?.join
  let t := { s with faults := { s.faults with link := s.faults.link.tail } }
  match fault with
  | some e => (.error e.kind, t)
  | none => (.ok (), (t.setEntries node (addEntry (t.entries node) name entry)).nextZones node)

/-- An entry of a sticky directory is removed only by those who can write it. -/
def unlinkAccess (s : Filesystem) (process : Option User) (node entry : ℕ) : Except ErrorKind Unit :=
  match (if (s.stat node).mode &&& modeSticky ≠ 0 then s.access process entry { w := true } else .ok ()) with
  | .error e => .error e
  | .ok _ => s.access process node { w := true, dir := true }

def vfsNodeUnlink (s : Filesystem) (process : Option User) (node : ℕ) (name : Name) (entry : ℕ) : Result Unit :=
  match s.unlinkAccess process node entry with
  | .error e => (.error e, s)
  | .ok _ => (s.unlinkEntry node name).checked id fun _ t =>
    (.ok (), t.setNlinks entry (((t.stat entry).nlinks + (2 ^ 64 - 1)) % 2 ^ 64))

def vfsNodeLink (s : Filesystem) (process : Option User) (node : ℕ) (name : Name) (entry : ℕ) : Result Unit :=
  match s.access process node { w := true, dir := true } with
  | .error e => (.error e, s)
  | .ok _ => (s.setNlinks entry (((s.stat entry).nlinks + 1) % 2 ^ 64)).linkEntry node name entry

def vfsCreateDirectoryDotAndDotDot (s : Filesystem) (dir_node parent : ℕ) : Result Unit :=
  (s.vfsNodeLink none dir_node dot dir_node).checked id fun _ t => t.vfsNodeLink none dir_node dotDot parent

def freeInode (s : Filesystem) : Option ℕ := (List.range s.ninodes).find? (fun i => !s.used i)

/-- The number of the new inode is taken before the inode is read. -/
def vfsSuperNewNode (s : Filesystem) : Result ℕ :=
  match s.faults.newNode, s.freeInode with
  | some e, _ => (.error e.kind, s)
  | none, none => (.error .ENOSPC, s)
  | none, some i =>
    let s := { s with used := Function.update s.used i true }
    match s.faults.readNode with
    | some e => (.error e.kind, s)
    | none => (.ok i, s.vfsNodeCopy i)

/-- The node of a process with a file creation mask, which has nine bits; accesses of the kernel
have no process. -/
def newStat (process : Option User) (umask mode : ℕ) : VfsStat :=
  match process with
  | none => { mode := mode }
  | some user => { mode := mode &&& (0xffff ^^^ (umask % 512)), uid := user.euid, gid := user.egid }

def vfsCreateNewNode (s : Filesystem) (process : Option User) (umask : ℕ) (path : List Name) (mode : ℕ) : Result ℕ :=
  (s.vfsLookupNodeAt process path.dropLast).checked id fun parent s =>
  s.vfsSuperNewNode.checked (vfsNodeClose · parent) fun new s =>
  let s := { s with inodes := Function.update s.inodes new { stat := newStat process umask mode } }
  (s.vfsNodeLink process parent (getBaseFilename path) new).checked
    (fun s => (s.vfsNodeClose parent).vfsNodeClose new) fun _ s =>
  (if modeType mode = typeDir then s.vfsCreateDirectoryDotAndDotDot new parent else (.ok (), s)).checked
    (fun s => (s.vfsNodeClose parent).vfsNodeClose new) fun _ s =>
  (.ok new, s.vfsNodeClose parent)

/-- The flags of an open that matter for names, and the access that it asks for. -/
structure OpenFlags where
  access : AccessFlags := {}
  creat : Bool := false
  excl : Bool := false
  trunc : Bool := false

/-- The file that is opened keeps the reference. -/
def vfsOpenNode (s : Filesystem) (process : Option User) (node : ℕ) (flags : OpenFlags) : Result ℕ :=
  match s.access process node flags.access with
  | .error e => (.error e, s.vfsNodeClose node)
  | .ok _ =>
    if modeType (s.stat node).mode = typeFifo then (.ok node, s)
    else if flags.trunc ∧ flags.access.w then
      match s.access process node { w := true } with
      | .error e => (.error e, s.vfsNodeClose node)
      | .ok _ => (s.vfsNodeTrunc node).checked (vfsNodeClose · node) fun _ s => (.ok node, s)
    else (.ok node, s)

def vfsOpenAt (s : Filesystem) (process : Option User) (umask : ℕ) (path : List Name) (flags : OpenFlags)
    (mode : ℕ) : Result ℕ :=
  match s.vfsLookupNodeAt process path with
  | (.error e, s) =>
    if e = .ENOENT ∧ flags.creat then
      (s.vfsCreateNewNode process umask path ((mode &&& (0xffff ^^^ modeTypeMask)) ||| (typeReg <<< 12))).checked id
        fun node s => s.vfsOpenNode process node flags
    else (.error e, s)
  | (.ok node, s) =>
    if flags.excl then (.error .EEXIST, s.vfsNodeClose node) else s.vfsOpenNode process node flags

/-- Every record is read with the rights of the process. The buffer of a directory without records
has what was in memory before; it is taken for no name. -/
def vfsCheckDirectoryIsEmpty (s : Filesystem) (process : Option User) (dir : ℕ) : Except ErrorKind Unit :=
  match s.access process dir { r := true, dir := true } with
  | .error e => .error e
  | .ok _ => if s.entries dir = [] ∨ ∃ e ∈ s.entries dir, e.1 ≠ dot ∧ e.1 ≠ dotDot then .error .ENOTEMPTY else .ok ()

def vfsRemoveDirectoryDotAndDotDot (s : Filesystem) (process : Option User) (parent dir : ℕ) : Result Unit :=
  if (s.stat dir).nlinks = 1 then
    (s.vfsNodeUnlink process dir dot dir).checked id fun _ s => s.vfsNodeUnlink process dir dotDot parent
  else (.ok (), s)

def vfsUnlinkFrom (s : Filesystem) (process : Option User) (parent : ℕ) (filename : Name) (node : ℕ) : Result Unit :=
  if s.isDir node ∧ (s.stat node).nlinks = 2 then
    match s.vfsCheckDirectoryIsEmpty process node with
    | .error e => (.error e, s)
    | .ok _ => (s.vfsNodeUnlink process parent filename node).checked id fun _ s =>
      s.vfsRemoveDirectoryDotAndDotDot process parent node
  else s.vfsNodeUnlink process parent filename node

def vfsUnlinkAt (s : Filesystem) (process : Option User) (path : List Name) : Result Unit :=
  (s.vfsLookupNodeAt process path.dropLast).checked id fun parent s =>
  match s.vfsNodeLookup process parent (getBaseFilename path) with
  | .error e => (.error e, s.vfsNodeClose parent)
  | .ok node =>
    let r := (s.vfsNodeCopy node).vfsUnlinkFrom process parent (getBaseFilename path) node
    (r.1, (r.2.vfsNodeClose node).vfsNodeClose parent)

def vfsMoveDirectoryDotDot (s : Filesystem) (process : Option User) (old : List Name) (parent child : ℕ) :
    Result Unit :=
  (s.vfsLookupNodeAt process old.dropLast).checked id fun old_parent s =>
  (s.vfsNodeUnlink process child dotDot old_parent).checked id fun _ s =>
  s.vfsNodeLink process child dotDot parent

def vfsLinkAt (s : Filesystem) (process : Option User) (old new : List Name) : Result Unit :=
  (s.vfsLookupNodeAt process new.dropLast).checked id fun parent s =>
  match s.vfsNodeLookup process parent (getBaseFilename new) with
  | .error .ENOENT =>
    (s.vfsLookupNodeAt process old).checked (vfsNodeClose · parent) fun old_node s =>
    let r := s.vfsNodeLink process parent (getBaseFilename new) old_node
    let r := match r with
      | (.ok _, s) => if s.isDir old_node then s.vfsMoveDirectoryDotDot process old parent old_node else r
      | (.error _, _) => r
    (r.1, (r.2.vfsNodeClose old_node).vfsNodeClose parent)
  | .error e => (.error e, s.vfsNodeClose parent)
  | .ok _ => (.error .EEXIST, s.vfsNodeClose parent)

end Filesystem

end SomeOs.Vfs

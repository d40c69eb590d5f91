import SomeOs.Minix.Maps
import SomeOs.Minix.ZoneWalk

/-! # Reading, writing and truncating Minix files

The two walk callbacks and the operations made of them. The requests also record
what zone allocation answered and which zones were freed, which the source does
not keep; no operation reads these records.
-/
namespace SomeOs.Minix
open ByteStore Errno

/-- A write request holds the bytes still to be stored, a read request the bytes
received so far. -/
structure MinixReadWriteRequest where
  offset : ℕ
  left : ℕ
  write : Bool
  buffer : List UInt8
  allocated : List (Option ℕ)

/-- A missing zone is allocated and filled with zeros. -/
def allocateZone (sb : Minix3Superblock) (zone : ℕ) (st : WalkState MinixReadWriteRequest) :
    Outcome × ℕ × WalkState MinixReadWriteRequest :=
  match getFreeMinixZone sb st.disk with
  | none =>
    (.error .ENOSPC, zone,
      { st with udata := { st.udata with allocated := st.udata.allocated ++ [none] } })
  | some (new_zone, disk) =>
    (.success, new_zone % 2 ^ 32,
      { st with
        disk := ByteStore.write disk (offsetForZone new_zone) (List.replicate blockSize 0)
        changed := true
        udata := { st.udata with allocated := st.udata.allocated ++ [some new_zone] } })

/-- The transfer between a slot and the buffer of the request. -/
def transferZone (zone position size : ℕ) (st : WalkState MinixReadWriteRequest) :
    Outcome × ℕ × WalkState MinixReadWriteRequest :=
  let request := st.udata
  let file_offset := if position < request.offset then request.offset else position
  let block_offset := file_offset % blockSize
  let tmp_size := min request.left (position + size - file_offset)
  let left := request.left - tmp_size
  let st :=
    if request.write then
      { st with
        disk := ByteStore.write st.disk (offsetForZone zone + block_offset) (request.buffer.take tmp_size)
        udata := { request with left := left, buffer := request.buffer.drop tmp_size } }
    else if zone = 0 then
      { st with udata := { request with
          left := left, buffer := request.buffer ++ List.replicate tmp_size 0 } }
    else
      { st with udata := { request with
          left := left
          buffer := request.buffer ++ read st.disk (offsetForZone zone + block_offset) tmp_size } }
  if tmp_size = 0 then (.error EIO, zone, st) else (.success, zone, st)

def minixRWZoneWalkCallback (sb : Minix3Superblock) : MinixZoneWalkFunction MinixReadWriteRequest :=
  fun zone position size phase st =>
    checked
      (checked
        (if st.udata.write = true ∧ phase = .pre ∧ zone = 0 ∧ 0 < st.udata.left then
          allocateZone sb zone st
        else (.success, zone, st))
        fun zone st =>
          if phase = .mid ∧ 0 < st.udata.left then transferZone zone position size st
          else (.success, zone, st))
      fun zone st => (if st.udata.left = 0 then .successExit else .success, zone, st)

structure IoResult where
  outcome : Outcome
  ret : ℕ
  buffer : List UInt8
  node : MinixVfsNode
  disk : Store
  allocated : List (Option ℕ)

def MinixVfsNode.setSize (node : MinixVfsNode) (size : ℕ) : MinixVfsNode :=
  { node with stat := { node.stat with size := size } }

def minixReadWrite (sb : Minix3Superblock) (disk : Store) (node : MinixVfsNode)
    (buffer : List UInt8) (offset length : ℕ) (write : Bool) : IoResult :=
  let length :=
    if write then length
    else if node.stat.size < offset then 0 else min length (node.stat.size - offset)
  if length = 0 then ⟨.success, 0, buffer, node, disk, []⟩
  else
    let r := minixZoneWalk sb (minixRWZoneWalkCallback sb) disk node offset
      ⟨offset, length, write, buffer, []⟩
    if r.outcome = .success ∨ r.outcome = .successExit then
      let length := length - r.udata.left
      if write = true ∧ r.node.stat.size < offset + length then
        let node := r.node.setSize (offset + length)
        ⟨.success, length, r.udata.buffer, node, minixWriteNode sb r.disk node, r.udata.allocated⟩
      else ⟨.success, length, r.udata.buffer, r.node, r.disk, r.udata.allocated⟩
    else ⟨r.outcome, 0, r.udata.buffer, r.node, r.disk, r.udata.allocated⟩

def minixReadAt (sb : Minix3Superblock) (disk : Store) (node : MinixVfsNode) (offset length : ℕ) :
    IoResult :=
  minixReadWrite sb disk node [] offset length false

def minixWriteAt (sb : Minix3Superblock) (disk : Store) (node : MinixVfsNode) (buff : List UInt8)
    (offset : ℕ) : IoResult :=
  minixReadWrite sb disk node buff offset buff.length true

structure MinixTruncRequest where
  length : ℕ
  freed : List ℕ

def minixTruncZoneWalkCallback (sb : Minix3Superblock) : MinixZoneWalkFunction MinixTruncRequest :=
  fun zone position _ phase st =>
    if zone = 0 then (.success, zone, st)
    else if st.udata.length ≤ position then
      if phase = .post then
        (.success, 0,
          { st with
            disk := freeMinixZone sb st.disk zone
            changed := true
            udata := { st.udata with freed := st.udata.freed ++ [zone] } })
      else (.success, zone, st)
    else if phase = .mid then
      if position = 0 then (.divideByZero, zone, st)
      else
        let block_offset := st.udata.length % position
        let zeros := List.replicate (blockSize - block_offset) 0
        (.success, zone,
          { st with disk := ByteStore.write st.disk (offsetForZone zone + block_offset) zeros })
    else (.success, zone, st)

structure TruncResult where
  outcome : Outcome
  node : MinixVfsNode
  disk : Store
  freed : List ℕ

def minixTrunc (sb : Minix3Superblock) (disk : Store) (node : MinixVfsNode) (length : ℕ) :
    TruncResult :=
  let r := minixZoneWalk sb (minixTruncZoneWalkCallback sb) disk node length ⟨length, []⟩
  if r.outcome = .success ∨ r.outcome = .successExit then
    let node := r.node.setSize length
    ⟨.success, node, minixWriteNode sb r.disk node, r.udata.freed⟩
  else ⟨r.outcome, r.node, r.disk, r.udata.freed⟩

end SomeOs.Minix

/-! # Minix directories

A directory is a file of records of 64 bytes, each an inode number and the bytes of
a name. Names are compared as C strings.
-/
namespace SomeOs.Minix
open ByteStore Errno

/-- `sizeof(MinixDirEntry)` -/
abbrev dirEntrySize : ℕ := 64
/-- The size of the name field of a `MinixDirEntry`. -/
abbrev nameSize : ℕ := 60
/-- `MAX_LOOKUP_READ_SIZE` -/
abbrev maxLookupReadSize : ℕ := 65536

def cString (buffer : List UInt8) (i : ℕ) : List UInt8 := (buffer.drop i).takeWhile (· ≠ 0)

def bufferWord (buffer : List UInt8) (i : ℕ) : ℕ := readWord (fun a => buffer.getD a 0) i

/-- The loop over the entries of a chunk from entry `i` on; it ends with the inode
number and the offset of an entry, or with the offset after the chunk. -/
def searchEntries (buffer name : List UInt8) : ℕ → ℕ → ℕ → (ℕ × ℕ) ⊕ ℕ
  | 0, _, offset => .inr offset
  | n + 1, i, offset =>
    if bufferWord buffer (dirEntrySize * i) ≠ 0 ∧ cString buffer (dirEntrySize * i + 4) = name then
      .inl (bufferWord buffer (dirEntrySize * i), offset)
    else searchEntries buffer name n (i + 1) (offset + dirEntrySize)

inductive LookupResult where
  | found (inodenum offset : ℕ)
  | failed (err : Outcome)

/-- The loop over the chunks of a directory. -/
def searchDirectory (sb : Minix3Superblock) (disk : Store) (node : MinixVfsNode) (name : List UInt8) :
    ℕ → ℕ → ℕ → LookupResult
  | 0, _, _ => .failed (.error .ENOENT)
  | n + 1, offset, left =>
    if left = 0 then .failed (.error .ENOENT)
    else
      let r := minixReadAt sb disk node offset (min maxLookupReadSize left)
      if r.outcome ≠ .success then .failed r.outcome
      else if r.ret = 0 then .failed (.error EIO)
      else
        match searchEntries r.buffer name (r.ret / dirEntrySize) 0 offset with
        | .inl (inodenum, off) => .found inodenum off
        | .inr offset => searchDirectory sb disk node name n offset (left - r.ret)

/-- Every chunk has at least one byte, so as many chunks as bytes are enough. -/
def minixInternalLookup (sb : Minix3Superblock) (disk : Store) (node : MinixVfsNode)
    (name : List UInt8) : LookupResult :=
  searchDirectory sb disk node name node.stat.size 0 node.stat.size

def minixLookup (sb : Minix3Superblock) (disk : Store) (node : MinixVfsNode) (name : List UInt8) :
    Except Outcome ℕ :=
  match minixInternalLookup sb disk node name with
  | .found inodenum _ => .ok inodenum
  | .failed err => .error err

structure DirResult where
  outcome : Outcome
  node : MinixVfsNode
  disk : Store

/-- The last record replaces the removed one. -/
def minixUnlink (sb : Minix3Superblock) (disk : Store) (node : MinixVfsNode) (name : List UInt8) :
    DirResult :=
  match minixInternalLookup sb disk node name with
  | .failed err => ⟨err, node, disk⟩
  | .found _ offset =>
    let r := minixReadAt sb disk node (node.stat.size - dirEntrySize) dirEntrySize
    if r.outcome ≠ .success then ⟨r.outcome, node, disk⟩
    else if r.ret ≠ dirEntrySize then ⟨.error EIO, node, disk⟩
    else
      let w := minixWriteAt sb disk node r.buffer offset
      if w.outcome ≠ .success then ⟨w.outcome, w.node, w.disk⟩
      else
        let t := minixTrunc sb w.disk w.node (w.node.stat.size - dirEntrySize)
        ⟨t.outcome, t.node, t.disk⟩

def dirEntryBytes (inode : ℕ) (name : List UInt8) : List UInt8 :=
  let name_len := if nameSize ≤ name.length then nameSize - 1 else name.length
  wordBytes inode ++ (name.take name_len ++ List.replicate (nameSize - name_len) 0)

def linkAt (sb : Minix3Superblock) (disk : Store) (node : MinixVfsNode) (entry : List UInt8)
    (offset : ℕ) : DirResult :=
  let w := minixWriteAt sb disk node entry offset
  if w.outcome ≠ .success then ⟨w.outcome, w.node, w.disk⟩
  else ⟨if w.ret ≠ dirEntrySize then .error EIO else .success, w.node, w.disk⟩

def minixLink (sb : Minix3Superblock) (disk : Store) (node : MinixVfsNode) (name : List UInt8)
    (entry_node : ℕ) : DirResult :=
  match minixInternalLookup sb disk node name with
  | .found _ offset => linkAt sb disk node (dirEntryBytes entry_node name) offset
  | .failed (.error .ENOENT) => linkAt sb disk node (dirEntryBytes entry_node name) node.stat.size
  | .failed err => ⟨err, node, disk⟩

inductive VfsFileType where
  | unknown | fifo | char | dir | block | reg | lnk | sock | mt
  deriving DecidableEq

structure VfsDirectoryEntry where
  id : ℕ
  off : ℕ
  len : ℕ
  type : VfsFileType
  name : List UInt8

structure ReaddirResult where
  outcome : Outcome
  read_file : ℕ
  written_buff : ℕ
  entry : Option VfsDirectoryEntry

/-- `sizeof(VfsDirectoryEntry)` -/
abbrev vfsEntrySize : ℕ := 32

/-- At most `length` bytes of the entry are stored. -/
def minixReaddirAt (sb : Minix3Superblock) (disk : Store) (node : MinixVfsNode) (offset length : ℕ) :
    ReaddirResult :=
  let r := minixReadAt sb disk node offset dirEntrySize
  if r.outcome ≠ .success then ⟨r.outcome, 0, 0, none⟩
  else if r.ret ≠ 0 ∧ r.ret ≠ dirEntrySize then ⟨.error EIO, 0, 0, none⟩
  else if r.ret = 0 then ⟨.success, 0, 0, none⟩
  else
    let name := cString r.buffer 4
    let len := vfsEntrySize + name.length + 1
    ⟨.success, r.ret, min len length, some ⟨bufferWord r.buffer 0, offset, len, .unknown, name⟩⟩

/-- The entries that calls of `minixReaddirAt` give, each at the offset after the one
before it. -/
def readdirScan (sb : Minix3Superblock) (disk : Store) (node : MinixVfsNode) :
    ℕ → ℕ → List (ℕ × List UInt8)
  | 0, _ => []
  | n + 1, offset =>
    let r := minixReaddirAt sb disk node offset (vfsEntrySize + nameSize + 1)
    match r.entry with
    | none => []
    | some e => (e.id, e.name) :: readdirScan sb disk node n (offset + r.read_file)

end SomeOs.Minix

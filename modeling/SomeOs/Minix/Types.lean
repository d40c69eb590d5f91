import SomeOs.Base.ByteStore
import SomeOs.Base.SparseArray

/-! # Minix on-disk structures

The block device is a byte store that completes every transfer. Zones are blocks
of the device, and inodes, bitmaps and zone tables are read from its bytes.
-/
namespace SomeOs.Minix
open ByteStore SparseArray

/-- `MINIX_BLOCK_SIZE` -/
abbrev blockSize : ℕ := 1024
/-- `MINIX_NUM_IPTRS` -/
abbrev numIptrs : ℕ := 256
/-- `sizeof(MinixInode)` -/
abbrev inodeSize : ℕ := 64

inductive Errno where
  | ENOENT | EIO | ENOSPC
  deriving DecidableEq

/-- The kinds of `Error` a walk can end with. A division by zero has no result. -/
inductive Outcome where
  | success
  | successExit
  | error (e : Errno)
  | divideByZero
  deriving DecidableEq

structure Minix3Superblock where
  ninodes : ℕ
  imap_blocks : ℕ
  zmap_blocks : ℕ
  first_data_zone : ℕ
  zones : ℕ

structure VfsStat where
  mode : ℕ := 0
  nlinks : ℕ := 0
  uid : ℕ := 0
  gid : ℕ := 0
  size : ℕ := 0
  atime : ℕ := 0
  mtime : ℕ := 0
  ctime : ℕ := 0

/-- An inode in memory. The first seven zones are direct, the others are tables of
one to three levels. -/
structure MinixVfsNode where
  id : ℕ
  stat : VfsStat
  zones : List ℕ

def offsetForINode (sb : Minix3Superblock) (inode : ℕ) : ℕ :=
  (2 + sb.imap_blocks + sb.zmap_blocks) * blockSize + (inode - 1) * inodeSize

def offsetForZone (zone : ℕ) : ℕ := zone * blockSize

def halfBytes (v : ℕ) : List UInt8 := [UInt8.ofNat v, UInt8.ofNat (v / 2 ^ 8)]

def inodeBytes (node : MinixVfsNode) : List UInt8 :=
  halfBytes node.stat.mode ++ halfBytes node.stat.nlinks ++ halfBytes node.stat.uid ++
    halfBytes node.stat.gid ++ wordBytes node.stat.size ++ wordBytes (node.stat.atime / 1000000000) ++
    wordBytes (node.stat.mtime / 1000000000) ++ wordBytes (node.stat.ctime / 1000000000) ++
    wordsBytes node.zones

def minixWriteNode (sb : Minix3Superblock) (disk : Store) (node : MinixVfsNode) : Store :=
  write disk (offsetForINode sb node.id) (inodeBytes node)

def zoneSize (depth : ℕ) : ℕ := blockSize * numIptrs ^ depth

def zoneTable (disk : Store) (zone : ℕ) : List ℕ := readWords disk (offsetForZone zone) numIptrs

theorem inodeBytes_length (node : MinixVfsNode) (h : node.zones.length = 10) :
    (inodeBytes node).length = inodeSize := by
  simp [inodeBytes, halfBytes, h]

theorem zoneSize_zero : zoneSize 0 = blockSize := by simp [zoneSize]

theorem zoneSize_succ (depth : ℕ) : zoneSize (depth + 1) = numIptrs * zoneSize depth := by
  simp only [zoneSize, pow_succ]
  ring

theorem zoneSize_pos (depth : ℕ) : 0 < zoneSize depth := by
  unfold zoneSize
  positivity

theorem blockSize_dvd_zoneSize (depth : ℕ) : blockSize ∣ zoneSize depth := Dvd.intro _ rfl

@[simp] theorem zoneTable_length (disk : Store) (zone : ℕ) :
    (zoneTable disk zone).length = numIptrs := readWords_length

theorem zoneTable_congr {disk disk' : Store} {zone : ℕ}
    (h : ∀ a, a / blockSize = zone → disk' a = disk a) : zoneTable disk' zone = zoneTable disk zone := by
  apply readWords_congr
  intro i hi
  apply h
  simp only [offsetForZone, blockSize, numIptrs] at *
  omega

theorem zoneTable_write {disk : Store} {zone : ℕ} {table : List ℕ} (hl : table.length = numIptrs)
    (hw : ∀ w ∈ table, w < 2 ^ 32) :
    zoneTable (write disk (offsetForZone zone) (wordsBytes table)) zone = table := by
  unfold zoneTable
  rw [← hl]
  exact readWords_write hw

end SomeOs.Minix

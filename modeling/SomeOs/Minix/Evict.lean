import SomeOs.Minix.FileSystem
import SomeOs.Vfs.Access

/-! # Writing inodes back and reading them again

The last close of a node writes its inode record, and the next open reads it. The
fields of the record are narrower than those of a node in memory.
-/
namespace SomeOs.Minix
open ByteStore

def readHalf (s : Store) (a : ℕ) : ℕ := (s a).toNat + 256 * (s (a + 1)).toNat

def minixReadNode (sb : Minix3Superblock) (disk : Store) (id : ℕ) : MinixVfsNode :=
  let inode := offsetForINode sb id
  { id := id
    stat :=
      { mode := readHalf disk inode
        nlinks := readHalf disk (inode + 2)
        uid := readHalf disk (inode + 4)
        gid := readHalf disk (inode + 6)
        size := readWord disk (inode + 8)
        atime := readWord disk (inode + 12) * 1000000000
        mtime := readWord disk (inode + 16) * 1000000000
        ctime := readWord disk (inode + 20) * 1000000000 }
    zones := readWords disk (inode + 24) 10 }

/-- The fields of a node in memory that are as wide as those of the record. -/
structure Narrow (node : MinixVfsNode) : Prop where
  mode : node.stat.mode < 2 ^ 16
  zones : node.zones.length = 10
  zone : ∀ z ∈ node.zones, z < 2 ^ 32

/-- Type and mode bits, owner, group, link count, size and zones are the same. -/
structure SameMetadata (node node' : MinixVfsNode) : Prop where
  mode : node'.stat.mode = node.stat.mode
  uid : node'.stat.uid = node.stat.uid
  gid : node'.stat.gid = node.stat.gid
  nlinks : node'.stat.nlinks = node.stat.nlinks
  size : node'.stat.size = node.stat.size
  zones : node'.zones = node.zones

structure FitsInode (stat : VfsStat) : Prop where
  uid : stat.uid < 2 ^ 16
  gid : stat.gid < 2 ^ 16
  nlinks : stat.nlinks < 2 ^ 16
  size : stat.size < 2 ^ 32

section Record
variable {sb : Minix3Superblock} {disk disk' : Store} {node : MinixVfsNode}

def Recorded (sb : Minix3Superblock) (disk : Store) (node : MinixVfsNode) : Prop :=
  ∀ (k : ℕ) b, (inodeBytes node)[k]? = some b → disk (offsetForINode sb node.id + k) = b

theorem recorded_of_writeNode (hn : node.zones.length = 10)
    (h : ∀ i < inodeSize, disk' (offsetForINode sb node.id + i) =
      minixWriteNode sb disk node (offsetForINode sb node.id + i)) : Recorded sb disk' node := by
  intro k b hb
  have hk := (List.getElem?_eq_some_iff.mp hb).1
  rw [inodeBytes_length node hn] at hk
  rw [h k hk]
  exact write_inside hb

theorem Recorded.half (h : Recorded sb disk node) {k v : ℕ}
    (h0 : (inodeBytes node)[k]? = some (UInt8.ofNat v))
    (h1 : (inodeBytes node)[k + 1]? = some (UInt8.ofNat (v / 2 ^ 8))) :
    readHalf disk (offsetForINode sb node.id + k) = v % 2 ^ 16 := by
  unfold readHalf
  rw [Nat.add_assoc, h _ _ h0, h _ _ h1, UInt8.toNat_ofNat', UInt8.toNat_ofNat']
  omega

theorem Recorded.size (h : Recorded sb disk node) :
    readWord disk (offsetForINode sb node.id + 8) = node.stat.size % 2 ^ 32 := by
  unfold readWord
  simp only [Nat.add_assoc, Nat.reduceAdd]
  rw [h 8 _ rfl, h 9 _ rfl, h 10 _ rfl, h 11 _ rfl]
  simp only [UInt8.toNat_ofNat']
  omega

theorem Recorded.zones (h : Recorded sb disk node) (hn : Narrow node) :
    readWords disk (offsetForINode sb node.id + 24) 10 = node.zones := by
  refine Eq.trans ?_ (readWords_write (s := disk) (a := offsetForINode sb node.id + 24) hn.zone)
  rw [hn.zones]
  apply readWords_congr
  intro i hi
  have hlt : i < (wordsBytes node.zones).length := by
    rw [wordsBytes_length, hn.zones]
    exact hi
  rw [write_inside (List.getElem?_eq_getElem hlt), Nat.add_assoc]
  apply h
  have hrest : inodeBytes node = (inodeBytes node).take 24 ++ wordsBytes node.zones := rfl
  have hlen : ((inodeBytes node).take 24).length = 24 := by
    rw [List.length_take, inodeBytes_length node hn.zones]
    rfl
  rw [hrest, List.getElem?_append_right (by omega), hlen, Nat.add_sub_cancel_left,
    List.getElem?_eq_getElem hlt]

end Record

/-- Evicting a node and reading it again gives the same metadata exactly when the
wider fields fit in the record. -/
theorem evict_transparent_iff (sb : Minix3Superblock) (disk disk' : Store) {node : MinixVfsNode}
    (hn : Narrow node)
    (hkept : ∀ i < inodeSize, disk' (offsetForINode sb node.id + i) =
      minixWriteNode sb disk node (offsetForINode sb node.id + i)) :
    SameMetadata node (minixReadNode sb disk' node.id) ↔ FitsInode node.stat := by
  have hr := recorded_of_writeNode hn.zones hkept
  have hmode := hr.half (k := 0) (v := node.stat.mode) rfl rfl
  have hnlinks := hr.half (k := 2) (v := node.stat.nlinks) rfl rfl
  have huid := hr.half (k := 4) (v := node.stat.uid) rfl rfl
  have hgid := hr.half (k := 6) (v := node.stat.gid) rfl rfl
  rw [Nat.add_zero, Nat.mod_eq_of_lt hn.mode] at hmode
  constructor
  · rintro ⟨-, h1, h2, h3, h4, -⟩
    simp only [minixReadNode, hnlinks, huid, hgid, hr.size] at h1 h2 h3 h4
    exact ⟨by omega, by omega, by omega, by omega⟩
  · rintro ⟨h1, h2, h3, h4⟩
    refine ⟨hmode, ?_, ?_, ?_, ?_, hr.zones hn⟩
    · exact huid.trans (Nat.mod_eq_of_lt h1)
    · exact hgid.trans (Nat.mod_eq_of_lt h2)
    · exact hnlinks.trans (Nat.mod_eq_of_lt h3)
    · exact hr.size.trans (Nat.mod_eq_of_lt h4)

/-- A regular file with three zones and two names. -/
def namedNode : MinixVfsNode :=
  ⟨1, { mode := 0o100644, uid := 1000, gid := 100, nlinks := 2, size := 3000 }, [5, 6, 8, 0, 0, 0, 0, 0, 0, 0]⟩

theorem evict_transparent_named : SameMetadata namedNode
    (minixReadNode smallSb (minixWriteNode smallSb smallDisk namedNode) 1) ∧
    (minixReadNode smallSb (minixWriteNode smallSb smallDisk namedNode) 1).zones = [5, 6, 8, 0, 0, 0, 0, 0, 0, 0] := by
  have hsame := (@evict_transparent_iff smallSb smallDisk (minixWriteNode smallSb smallDisk namedNode) namedNode
    ⟨by decide, rfl, by decide⟩ fun _ _ => rfl).mpr ⟨by decide, by decide, by decide, by decide⟩
  exact ⟨hsame, hsame.zones⟩

/-- User 65536 owns the file until it is evicted; then user 0 does. -/
theorem evict_changes_owner : ∃ stat, Vfs.vfsFileChown (emptyNode 1).stat (some ⟨0, 0⟩) 65536 (-1) = .ok stat ∧
    Narrow ⟨1, stat, (emptyNode 1).zones⟩ ∧ stat.uid = 65536 ∧
    (minixReadNode smallSb (minixWriteNode smallSb smallDisk ⟨1, stat, (emptyNode 1).zones⟩) 1).stat.uid = 0 ∧
    ¬ SameMetadata ⟨1, stat, (emptyNode 1).zones⟩
      (minixReadNode smallSb (minixWriteNode smallSb smallDisk ⟨1, stat, (emptyNode 1).zones⟩) 1) := by
  have huid : (minixReadNode smallSb (minixWriteNode smallSb smallDisk
      ⟨1, { uid := 65536 }, (emptyNode 1).zones⟩) 1).stat.uid = 0 := by
    decide
  refine ⟨{ uid := 65536 }, rfl, ⟨by decide, rfl, by decide⟩, rfl, huid, fun h => ?_⟩
  have := h.uid
  rw [huid] at this
  cases this

end SomeOs.Minix

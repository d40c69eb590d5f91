import SomeOs.Minix.FileSystem
import SomeOs.Minix.TruncSpec

/-! # Operations on a device that fails

A write or a truncation in which an operation of the device fails. What was stored
before it stays there, also the first bytes of the store that fails.
-/
namespace SomeOs.Minix
open ByteStore Errno

/-- The operation of the device that fails, with the number of the bytes that it has stored: one of a
callback (`none` is the zone map), the read or the store of a table, or a store of the inode. -/
inductive Fault where
  | callback (position size : ℕ) (phase : Phase) (stored : Option ℕ)
  | readTable (zone : ℕ)
  | storeTable (zone stored : ℕ)
  | storeNode (stored : ℕ)
  | storeSize (stored : ℕ)

section Callbacks

end Callbacks

section Walk
variable {σ : Type} (fault : Fault) (callback : MinixZoneWalkFunction σ)

end Walk

section Operations
variable (sb : Minix3Superblock) (fault : Fault)

end Operations

end SomeOs.Minix

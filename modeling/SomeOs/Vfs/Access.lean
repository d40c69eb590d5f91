import SomeOs.Minix.Types

/-! # Permissions of nodes

The mode of a node has its type in the upper four bits and permission bits for its
owner, its group and all others. The kernel and user 0 are allowed everything.
-/
namespace SomeOs.Vfs
open Minix

inductive ErrorKind where
  | EPERM | ENOENT | EIO | ENXIO | EACCES | EEXIST | EXDEV | ENOTDIR | EISDIR | EINVAL | ENOSPC | ENOTEMPTY
  deriving DecidableEq

/-- `MODE_TYPE` -/
def modeType (mode : ℕ) : ℕ := mode >>> 12
/-- `VFS_TYPE_DIR` -/
abbrev typeDir : ℕ := 4
/-- `VFS_TYPE_REG` -/
abbrev typeReg : ℕ := 8
/-- `VFS_TYPE_FIFO` -/
abbrev typeFifo : ℕ := 1
/-- `VFS_MODE_STICKY` -/
abbrev modeSticky : ℕ := 1 <<< 9
/-- `VFS_MODE_TYPE` -/
abbrev modeTypeMask : ℕ := 0xf <<< 12

theorem typeReg_mode (mode : ℕ) : modeType ((mode &&& (0xffff ^^^ modeTypeMask)) ||| (typeReg <<< 12)) ≠ typeDir := by
  have hmask : (0xffff ^^^ modeTypeMask) >>> 12 = 0 := by decide
  have hreg : (typeReg <<< 12) >>> 12 = 8 := by decide
  unfold modeType
  rw [Nat.shiftRight_or_distrib, Nat.shiftRight_and_distrib, hmask, hreg, Nat.and_zero, Nat.zero_or]
  decide

structure AccessFlags where
  r : Bool := false
  w : Bool := false
  x : Bool := false
  dir : Bool := false
  reg : Bool := false
  chmod : Bool := false
  chown : Bool := false

structure User where
  euid : ℕ
  egid : ℕ
  deriving DecidableEq

/-- The permission bit of the owner, with those of the group three and of all others
six places below it. -/
def permits (stat : VfsStat) (user : User) (bit : ℕ) : Bool :=
  stat.mode &&& (bit >>> 6) != 0 || (stat.mode &&& (bit >>> 3) != 0 && stat.gid == user.egid) ||
    (stat.mode &&& bit != 0 && stat.uid == user.euid)

/-- `VFS_MODE_O_X` -/
abbrev modeOX : ℕ := 1 <<< 6
/-- `VFS_MODE_O_W` -/
abbrev modeOW : ℕ := 1 <<< 7
/-- `VFS_MODE_O_R` -/
abbrev modeOR : ℕ := 1 <<< 8

/-- There is no process for accesses of the kernel. -/
def canAccess (stat : VfsStat) (process : Option User) (flags : AccessFlags) : Except ErrorKind Unit :=
  match process with
  | none => .ok ()
  | some user =>
    if flags.reg ∧ modeType stat.mode ≠ typeReg then
      .error (if modeType stat.mode = typeDir then .EISDIR else .EINVAL)
    else if flags.dir ∧ modeType stat.mode ≠ typeDir then .error .ENOTDIR
    else if user.euid = 0 then .ok ()
    else if (flags.chmod ∨ flags.chown) ∧ stat.uid ≠ user.euid then .error .EPERM
    else if flags.r ∧ ¬ permits stat user modeOR then .error .EACCES
    else if flags.w ∧ ¬ permits stat user modeOW then .error .EACCES
    else if flags.x ∧ ¬ permits stat user modeOX then .error .EACCES
    else .ok ()

def vfsFileChmod (stat : VfsStat) (process : Option User) (mode : ℕ) : Except ErrorKind VfsStat := do
  canAccess stat process { chmod := true }
  return { stat with mode := (stat.mode &&& modeTypeMask) ||| (mode &&& (0xffff - modeTypeMask)) }

def vfsFileChown (stat : VfsStat) (process : Option User) (uid gid : ℤ) : Except ErrorKind VfsStat := do
  canAccess stat process { chown := true }
  return { stat with
    uid := if 0 ≤ uid then uid.toNat else stat.uid
    gid := if 0 ≤ gid then gid.toNat else stat.gid }

end SomeOs.Vfs

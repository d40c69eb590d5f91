import SomeOs.Base.LittleEndian
import SomeOs.Base.Scatter
import SomeOs.Memory.Translate

/-! # Pointers into memory spaces

A buffer in a memory space is cut into parts that are consecutive in physical memory. The page
table is walked twice, first to count the parts and then to fill an array of that size. The
first pass for a write takes the faults of the copy-on-write pages.
-/
namespace SomeOs.MemSpace
open SparseArray PageRef Paging Scatter ByteStore

structure VirtPtr where
  address : ℕ
  table : Option ℕ
  allow_all : Bool

def sub64 (a b : ℕ) : ℕ := (a + 2 ^ 64 - b) % 2 ^ 64

/-- The loop of `getVirtPtrParts`, which has no result when it does not end within the fuel. -/
def partsLoop (addr : VirtPtr) (stop : ℕ) (write : Bool) : ℕ → ℕ → ℕ → MemState → Option (List Part × MemState)
  | 0, _, _, _ => none
  | fuel + 1, part_position, next_position, s =>
    if part_position < stop then
      let next_position := (next_position + pageSize) % 2 ^ 64 / pageSize * pageSize
      let phys_start := virtToPhys s addr.table part_position write addr.allow_all
      if phys_start.1 = 0 then some ([], phys_start.2)
      else
        let phys_end := virtToPhys phys_start.2 addr.table next_position write addr.allow_all
        if sub64 phys_end.1 phys_start.1 ≠ sub64 next_position part_position ∨ stop < next_position then
          (partsLoop addr stop write fuel next_position next_position phys_end.2).map fun r =>
            ({ address := phys_start.1
               offset := sub64 part_position addr.address
               length := if stop < next_position then sub64 stop part_position
                 else sub64 next_position part_position } :: r.1, r.2)
        else partsLoop addr stop write fuel part_position next_position phys_end.2
    else some ([], s)

/-- The number of parts, those that fit in the array, and the state after it. -/
def getVirtPtrParts (fuel : ℕ) (s : MemState) (addr : VirtPtr) (length max_parts : ℕ) (write : Bool) :
    Option (ℕ × List Part × MemState) :=
  (partsLoop addr ((addr.address + length) % 2 ^ 64) write fuel addr.address addr.address s).map fun r =>
    (r.1.length, r.1.take max_parts, r.2)

/-- The loop of `virtPtrPartsDo`, with a callback that works on its own data. -/
def partsDoLoop {σ : Type*} (addr : VirtPtr) (stop : ℕ) (callback : Part → σ → σ) (write : Bool) :
    ℕ → ℕ → ℕ → σ → MemState → Option (σ × MemState)
  | 0, _, _, _, _ => none
  | fuel + 1, part_position, next_position, udata, s =>
    if part_position < stop then
      let next_position := (next_position + pageSize) % 2 ^ 64 / pageSize * pageSize
      let phys_start := virtToPhys s addr.table part_position write addr.allow_all
      if phys_start.1 = 0 then some (udata, phys_start.2)
      else
        let phys_end := virtToPhys phys_start.2 addr.table next_position write addr.allow_all
        if sub64 phys_end.1 phys_start.1 ≠ sub64 next_position part_position ∨ stop < next_position then
          let part : Part := {
            address := phys_start.1
            offset := sub64 part_position addr.address
            length := if stop < next_position then sub64 stop part_position
              else sub64 next_position part_position }
          partsDoLoop addr stop callback write fuel next_position next_position (callback part udata) phys_end.2
        else partsDoLoop addr stop callback write fuel part_position next_position udata phys_end.2
    else some (udata, s)

def virtPtrPartsDo {σ : Type*} (fuel : ℕ) (s : MemState) (addr : VirtPtr) (length : ℕ) (callback : Part → σ → σ) (udata : σ)
    (write : Bool) : Option (σ × MemState) :=
  partsDoLoop addr ((addr.address + length) % 2 ^ 64) callback write fuel addr.address addr.address udata s

/-- The callback is given the parts that the other loop stores. -/
theorem partsDoLoop_eq {σ : Type*} (addr : VirtPtr) (stop : ℕ) (callback : Part → σ → σ) (write : Bool)
    (fuel part_position next_position : ℕ) (udata : σ) (s : MemState) :
    partsDoLoop addr stop callback write fuel part_position next_position udata s =
      (partsLoop addr stop write fuel part_position next_position s).map fun r =>
        (r.1.foldl (fun udata part => callback part udata) udata, r.2) := by
  induction fuel generalizing part_position next_position udata s with
  | zero => rfl
  | succ fuel ih =>
    unfold partsDoLoop partsLoop
    by_cases hlt : part_position < stop
    · simp only [if_pos hlt]
      by_cases hzero : (virtToPhys s addr.table part_position write addr.allow_all).1 = 0
      · simp only [if_pos hzero]
        rfl
      · simp only [if_neg hzero, ih]
        split
        · rw [Option.map_map]
          rfl
        · rfl
    · simp only [if_neg hlt]
      rfl

/-- An array with as many elements as were counted, of which the first ones have been filled. -/
def partsArray (parts : List Part) (count : ℕ) : List (Option Part) :=
  parts.map some ++ List.replicate (count - parts.length) none

/-- A loop does not end, or a part is used that was not filled in. -/
inductive VirtPtrFault where
  | endless
  | unfilled
  deriving DecidableEq

def orFault {α : Type*} (fault : VirtPtrFault) : Option α → Except VirtPtrFault α
  | none => .error fault
  | some a => .ok a

def memcpyBetweenVirtPtr (fuel : ℕ) (s : MemState) (dest src : VirtPtr) (n : ℕ) : Except VirtPtrFault MemState := do
  let (dest_count, _, s) ← orFault .endless (getVirtPtrParts fuel s dest n 0 true)
  let (src_count, _, s) ← orFault .endless (getVirtPtrParts fuel s src n 0 false)
  let (_, dest_parts, s) ← orFault .endless (getVirtPtrParts fuel s dest n dest_count true)
  let (_, src_parts, s) ← orFault .endless (getVirtPtrParts fuel s src n src_count false)
  let phys ← orFault .unfilled (copyParts n (dest_count + src_count) (partsArray dest_parts dest_count)
    (partsArray src_parts src_count) 0 s.phys)
  return { s with phys := phys }

def memsetVirtPtr (fuel : ℕ) (s : MemState) (dest : VirtPtr) (byte : UInt8) (n : ℕ) : Except VirtPtrFault MemState := do
  let (count, _, s) ← orFault .endless (getVirtPtrParts fuel s dest n 0 true)
  let (_, parts, s) ← orFault .endless (getVirtPtrParts fuel s dest n count true)
  let phys ← orFault .unfilled (setParts byte (partsArray parts count) s.phys)
  return { s with phys := phys }

def accessWidth (size : ℕ) : ℕ := if size = 8 then 1 else if size = 16 then 2 else if size = 32 then 4 else 8

def readInt (s : MemState) (addr : VirtPtr) (size : ℕ) : ℕ :=
  let phys := (virtToPhys s addr.table addr.address false addr.allow_all).1
  if phys = 0 then 0 else ofBytes (read s.phys phys (accessWidth size))

def writeInt (s : MemState) (addr : VirtPtr) (size value : ℕ) : MemState :=
  let phys := virtToPhys s addr.table addr.address true addr.allow_all
  if phys.1 ≠ 0 then { phys.2 with phys := write phys.2.phys phys.1 (intBytes (accessWidth size) value) } else phys.2

/-- `addr.address++`. -/
def VirtPtr.next (addr : VirtPtr) : VirtPtr := { addr with address := (addr.address + 1) % 2 ^ 64 }

/-- The loop of `readMisaligned` for a number of bytes. -/
def readMisalignedLoop (s : MemState) : ℕ → VirtPtr → ℕ → ℕ → ℕ
  | 0, _, _, ret => ret
  | n + 1, addr, i, ret => readMisalignedLoop s n addr.next (i + 8) (ret ||| readInt s addr 8 <<< i)

def readMisaligned (s : MemState) (addr : VirtPtr) (size : ℕ) : ℕ := readMisalignedLoop s ((size + 7) / 8) addr 0 0

/-- The loop of `writeMisaligned` for a number of bytes. -/
def writeMisalignedLoop (value : ℕ) : ℕ → VirtPtr → ℕ → MemState → MemState
  | 0, _, _, s => s
  | n + 1, addr, i, s => writeMisalignedLoop value n addr.next (i + 8) (writeInt s addr 8 ((value >>> i) &&& 0xff))

def writeMisaligned (s : MemState) (addr : VirtPtr) (size value : ℕ) : MemState :=
  writeMisalignedLoop value ((size + 7) / 8) addr 0 s

/-- The start of the buffer for 0, and the start of the `j`-th page after it. -/
def position (a j : ℕ) : ℕ := if j = 0 then a else (a / pageSize + j) * pageSize

section Positions
variable {a stop i j k : ℕ}

@[simp] theorem position_zero (a : ℕ) : position a 0 = a := rfl

theorem position_succ (a j : ℕ) : position a (j + 1) = (a / pageSize + (j + 1)) * pageSize := rfl

theorem position_next (a j : ℕ) : (position a j + pageSize) / pageSize * pageSize = position a (j + 1) := by
  cases j with
  | zero =>
    simp only [position_zero, position_succ, pageSize]
    omega
  | succ j =>
    simp only [position_succ, pageSize]
    omega

theorem position_lt_succ (a j : ℕ) : position a j < position a (j + 1) := by
  have := position_next a j
  have hmod := Nat.div_add_mod' (position a j + pageSize) pageSize
  simp only [pageSize] at *
  omega

theorem position_succ_le (a j : ℕ) : position a (j + 1) ≤ position a j + pageSize := by
  have := position_next a j
  have := Nat.div_mul_le_self (position a j + pageSize) pageSize
  omega

theorem position_mono (h : i ≤ j) : position a i ≤ position a j := by
  induction h with
  | refl => exact le_refl _
  | step _ ih => exact ih.trans (position_lt_succ a _).le

theorem position_strict (h : i < j) : position a i < position a j :=
  (position_lt_succ a i).trans_le (position_mono h)

theorem le_position (a j : ℕ) : a ≤ position a j := position_mono (Nat.zero_le j)

theorem position_aligned (hj : j ≠ 0) : position a j % pageSize = 0 := by
  obtain ⟨j, rfl⟩ := Nat.exists_eq_succ_of_ne_zero hj
  rw [position_succ]
  exact Nat.mul_mod_left _ _

theorem position_div (a j : ℕ) : position a j / pageSize = a / pageSize + j := by
  cases j with
  | zero => rfl
  | succ j =>
    simp only [position_succ, pageSize]
    omega

theorem position_page (hk : position a j + k < position a (j + 1)) :
    (position a j + k) / pageSize = position a j / pageSize := by
  have hdiv := position_div a j
  rw [position_succ] at hk
  have hle : position a j / pageSize ≤ (position a j + k) / pageSize := Nat.div_le_div_right (by omega)
  have hlt : (position a j + k) / pageSize < a / pageSize + (j + 1) := Nat.div_lt_of_lt_mul (by rw [Nat.mul_comm]; exact hk)
  omega

theorem exists_position (a i : ℕ) : ∃ j k, position a j + k = a + i ∧ position a j + k < position a (j + 1) := by
  refine ⟨(a + i) / pageSize - a / pageSize, a + i - position a ((a + i) / pageSize - a / pageSize), ?_⟩
  have hle : a / pageSize ≤ (a + i) / pageSize := Nat.div_le_div_right (by omega)
  have hmod := Nat.div_add_mod' (a + i) pageSize
  have hlt := Nat.mod_lt (a + i) (show 0 < pageSize by decide)
  set j := (a + i) / pageSize - a / pageSize with hj
  have hpos : position a j ≤ a + i := by
    unfold position
    split_ifs
    · omega
    · have : a / pageSize + j = (a + i) / pageSize := by omega
      rw [this]
      omega
  refine ⟨by omega, ?_⟩
  rw [position_succ]
  have : a / pageSize + (j + 1) = (a + i) / pageSize + 1 := by omega
  rw [this, Nat.add_mul]
  omega

end Positions

end SomeOs.MemSpace

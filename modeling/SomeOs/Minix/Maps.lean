import SomeOs.Minix.Types

/-! # Inode and zone bitmaps

The search reads a bitmap in chunks and takes the first clear bit. It is shown to
find the first clear bit of the whole map, and setting or clearing a bit to change
no other one.
-/
namespace SomeOs.Minix
open ByteStore

/-- `MAX_MAPS_READ_SIZE` -/
abbrev maxMapsReadSize : ℕ := 65536

/-- The loop over the bits of a byte from bit `j` on; it ends with a clear bit and
its position, or with the bits left of the map and the next position. -/
def searchBits (byte : UInt8) : ℕ → ℕ → ℕ → ℕ → (ℕ × ℕ) ⊕ (ℕ × ℕ)
  | 0, _, size, position => .inr (size, position)
  | n + 1, j, size, position =>
    if size = 0 then .inr (size, position)
    else if byte.toNat.testBit j = false then .inl (j, position)
    else searchBits byte n (j + 1) (size - 1) (position + 1)

/-- The loop over the bytes of a chunk from index `i` on. -/
def searchBytes : List UInt8 → ℕ → ℕ → ℕ → (ℕ × UInt8 × ℕ) ⊕ (ℕ × ℕ)
  | [], _, size, position => .inr (size, position)
  | byte :: rest, i, size, position =>
    if size = 0 then .inr (size, position)
    else
      match searchBits byte 8 0 size position with
      | .inl (j, position) => .inl (i, UInt8.ofNat (byte.toNat ||| 2 ^ j), position)
      | .inr (size, position) => searchBytes rest (i + 1) size position

/-- The loop over the chunks of a bitmap. -/
def searchChunks (disk : Store) : ℕ → ℕ → ℕ → ℕ → ℕ → Option (ℕ × Store)
  | 0, _, _, _, _ => none
  | n + 1, bytes, offset, size, position =>
    if bytes = 0 then none
    else
      let tmp_size := min maxMapsReadSize bytes
      match searchBytes (read disk offset tmp_size) 0 size position with
      | .inl (i, byte, position) => some (position, write disk (offset + i) [byte])
      | .inr (size, position) => searchChunks disk n (bytes - tmp_size) (offset + tmp_size) size position

/-- The position of the bit that was taken, or nothing when the map is full. Each
chunk takes at least one byte, so as many chunks as bytes are enough. -/
def genericMinixGetBitMap (disk : Store) (offset size : ℕ) : Option (ℕ × Store) :=
  searchChunks disk ((size + 7) / 8) ((size + 7) / 8) offset size 0

def genericMinixClearBitMap (disk : Store) (offset position : ℕ) : Store :=
  write disk (offset + position / 8)
    [UInt8.ofNat ((disk (offset + position / 8)).toNat &&& (255 ^^^ 2 ^ (position % 8)))]

def zoneMapOffset (sb : Minix3Superblock) : ℕ := (2 + sb.imap_blocks) * blockSize

def getFreeMinixInode (sb : Minix3Superblock) (disk : Store) : Option (ℕ × Store) :=
  genericMinixGetBitMap disk (2 * blockSize) sb.ninodes

def getFreeMinixZone (sb : Minix3Superblock) (disk : Store) : Option (ℕ × Store) :=
  genericMinixGetBitMap disk (zoneMapOffset sb) sb.zones

def freeMinixInode (disk : Store) (inode : ℕ) : Store :=
  genericMinixClearBitMap disk (2 * blockSize) inode

def freeMinixZone (sb : Minix3Superblock) (disk : Store) (zone : ℕ) : Store :=
  genericMinixClearBitMap disk (zoneMapOffset sb) zone

def mapBit (disk : Store) (offset position : ℕ) : Bool :=
  (disk (offset + position / 8)).toNat.testBit (position % 8)

/-- The bits of a byte from `j` on: a clear one that is found is the first one, and
otherwise all bits up to the end of the byte or of the map are set. -/
theorem searchBits_spec (byte : UInt8) (n j size position : ℕ) (hn : n + j = 8) :
    (∃ k < n, k < size ∧ searchBits byte n j size position = .inl (j + k, position + k) ∧
      byte.toNat.testBit (j + k) = false ∧ ∀ i < k, byte.toNat.testBit (j + i) = true) ∨
    (searchBits byte n j size position = .inr (size - min n size, position + min n size) ∧
      ∀ i < n, i < size → byte.toNat.testBit (j + i) = true) := by
  induction n generalizing j size position with
  | zero => exact Or.inr ⟨by simp [searchBits], by simp⟩
  | succ n ih =>
    simp only [searchBits]
    by_cases hs : size = 0
    · right
      rw [if_pos hs]
      subst hs
      exact ⟨by simp, by simp⟩
    · rw [if_neg hs]
      cases hb : byte.toNat.testBit j with
      | false => exact Or.inl ⟨0, by omega, by omega, rfl, hb, by simp⟩
      | true =>
        simp only [Bool.true_eq_false, if_false]
        rcases ih (j + 1) (size - 1) (position + 1) (by omega) with
          ⟨k, hk, hks, he, hc, hbefore⟩ | ⟨he, hall⟩
        · refine Or.inl ⟨k + 1, by omega, by omega, ?_, ?_, ?_⟩
          · rw [he]
            congr 2 <;> omega
          · rw [← hc]
            congr 1
            omega
          · intro i hi
            cases i with
            | zero => exact hb
            | succ i =>
              rw [← hbefore i (by omega)]
              congr 1
              omega
        · refine Or.inr ⟨?_, ?_⟩
          · rw [he]
            congr 2 <;> omega
          · intro i hi his
            cases i with
            | zero => exact hb
            | succ i =>
              rw [← hall i (by omega) (by omega)]
              congr 1
              omega

def listBit (bs : List UInt8) (k : ℕ) : Bool := (bs.getD (k / 8) 0).toNat.testBit (k % 8)

theorem listBit_cons_lt (b : UInt8) (bs : List UInt8) {k : ℕ} (hk : k < 8) :
    listBit (b :: bs) k = b.toNat.testBit k := by
  have h1 : k / 8 = 0 := by omega
  have h2 : k % 8 = k := by omega
  simp [listBit, h1, h2]

theorem listBit_cons_add (b : UInt8) (bs : List UInt8) (k : ℕ) :
    listBit (b :: bs) (8 + k) = listBit bs k := by
  have h1 : (8 + k) / 8 = k / 8 + 1 := by omega
  have h2 : (8 + k) % 8 = k % 8 := by omega
  simp [listBit, h1, h2]

/-- The bytes of a chunk, as a search for the first clear bit of the list. -/
theorem searchBytes_spec (bs : List UInt8) (i size position : ℕ) :
    (∃ k < size, k < 8 * bs.length ∧ searchBytes bs i size position =
        .inl (i + k / 8, UInt8.ofNat ((bs.getD (k / 8) 0).toNat ||| 2 ^ (k % 8)), position + k) ∧
      listBit bs k = false ∧ ∀ m < k, listBit bs m = true) ∨
    (searchBytes bs i size position =
        .inr (size - min (8 * bs.length) size, position + min (8 * bs.length) size) ∧
      ∀ m < 8 * bs.length, m < size → listBit bs m = true) := by
  induction bs generalizing i size position with
  | nil => exact Or.inr ⟨by simp [searchBytes], by simp⟩
  | cons b bs ih =>
    simp only [searchBytes]
    by_cases hs : size = 0
    · right
      subst hs
      exact ⟨by simp, by simp⟩
    · rw [if_neg hs]
      rcases searchBits_spec b 8 0 size position rfl with
        ⟨k, hk, hks, he, hc, hbefore⟩ | ⟨he, hall⟩
      · simp only [Nat.zero_add] at he hc hbefore
        refine Or.inl ⟨k, hks, by simp only [List.length_cons]; omega, ?_, ?_, ?_⟩
        · have h1 : k / 8 = 0 := by omega
          have h2 : k % 8 = k := by omega
          simp [he, h1, h2]
        · rw [listBit_cons_lt b bs hk, hc]
        · intro m hm
          rw [listBit_cons_lt b bs (by omega), hbefore m hm]
      · simp only [Nat.zero_add] at hall
        simp only [he]
        rcases ih (i + 1) (size - min 8 size) (position + min 8 size) with
          ⟨k, hks, hkl, he', hc, hbefore⟩ | ⟨he', hrest⟩
        · refine Or.inl ⟨8 + k, by omega, by simp only [List.length_cons]; omega, ?_, ?_, ?_⟩
          · have h1 : (8 + k) / 8 = k / 8 + 1 := by omega
            have h2 : (8 + k) % 8 = k % 8 := by omega
            have h3 : position + min 8 size + k = position + (8 + k) := by omega
            have h4 : i + 1 + k / 8 = i + (k / 8 + 1) := by omega
            rw [he', h1, h2, h3, h4]
            simp
          · rw [listBit_cons_add, hc]
          · intro m hm
            by_cases hm8 : m < 8
            · rw [listBit_cons_lt b bs hm8, hall m hm8 (by omega)]
            · obtain ⟨m, rfl⟩ := Nat.exists_eq_add_of_le (not_lt.mp hm8)
              rw [listBit_cons_add, hbefore m (by omega)]
        · refine Or.inr ⟨?_, ?_⟩
          · rw [he', List.length_cons]
            congr 2 <;> omega
          · intro m hm hms
            rw [List.length_cons] at hm
            by_cases hm8 : m < 8
            · rw [listBit_cons_lt b bs hm8, hall m hm8 hms]
            · obtain ⟨m, rfl⟩ := Nat.exists_eq_add_of_le (not_lt.mp hm8)
              rw [listBit_cons_add, hrest m (by omega) (by omega)]

theorem read_getD {disk : Store} {a n i : ℕ} (h : i < n) : (read disk a n).getD i 0 = disk (a + i) := by
  rw [List.getD_eq_getElem?_getD, read_getElem? h]
  rfl

theorem listBit_read {disk : Store} {a n k : ℕ} (h : k < 8 * n) :
    listBit (read disk a n) k = mapBit disk a k := by
  unfold listBit mapBit
  rw [read_getD (by omega)]

theorem mapBit_add (disk : Store) (a n k : ℕ) : mapBit disk (a + n) k = mapBit disk a (8 * n + k) := by
  have h1 : (8 * n + k) / 8 = n + k / 8 := by omega
  have h2 : (8 * n + k) % 8 = k % 8 := by omega
  simp only [mapBit, h1, h2, Nat.add_assoc]

def setMapBit (disk : Store) (offset position : ℕ) : Store :=
  write disk (offset + position / 8)
    [UInt8.ofNat ((disk (offset + position / 8)).toNat ||| 2 ^ (position % 8))]

/-- The chunks of a bitmap, as a search for its first clear bit. -/
theorem searchChunks_spec (disk : Store) (n bytes offset size position : ℕ) (hn : bytes ≤ n) :
    (∃ k < size, k < 8 * bytes ∧
      searchChunks disk n bytes offset size position = some (position + k, setMapBit disk offset k) ∧
      mapBit disk offset k = false ∧ ∀ m < k, mapBit disk offset m = true) ∨
    (searchChunks disk n bytes offset size position = none ∧
      ∀ m < 8 * bytes, m < size → mapBit disk offset m = true) := by
  induction n generalizing bytes offset size position with
  | zero =>
    obtain rfl : bytes = 0 := by omega
    exact Or.inr ⟨rfl, by simp⟩
  | succ n ih =>
    simp only [searchChunks]
    by_cases hb : bytes = 0
    · subst hb
      exact Or.inr ⟨by simp, by simp⟩
    · rw [if_neg hb]
      generalize hc : min maxMapsReadSize bytes = c
      have hc1 : c ≤ bytes := by omega
      have hc2 : 0 < c := by
        simp only [maxMapsReadSize] at hc
        omega
      have hchunk := searchBytes_spec (read disk offset c) 0 size position
      rw [read_length] at hchunk
      rcases hchunk with ⟨k, hks, hkl, he, hclear, hbefore⟩ | ⟨he, hall⟩
      · refine Or.inl ⟨k, hks, by omega, ?_, ?_, ?_⟩
        · simp only [he, Nat.zero_add, read_getD (show k / 8 < c by omega)]
          rfl
        · rw [← listBit_read hkl, hclear]
        · intro m hm
          rw [← listBit_read (show m < 8 * c by omega), hbefore m hm]
      · simp only [he]
        have hfirst : ∀ m < 8 * c, m < size → mapBit disk offset m = true := by
          intro m hm hms
          rw [← listBit_read hm, hall m hm hms]
        rcases ih (bytes - c) (offset + c) (size - min (8 * c) size) (position + min (8 * c) size)
          (by omega) with ⟨k, hks, hkl, he', hclear, hbefore⟩ | ⟨he', hrest⟩
        · refine Or.inl ⟨8 * c + k, by omega, by omega, ?_, ?_, ?_⟩
          · have h1 : (8 * c + k) / 8 = c + k / 8 := by omega
            have h2 : (8 * c + k) % 8 = k % 8 := by omega
            have h3 : position + min (8 * c) size + k = position + (8 * c + k) := by omega
            rw [he', h3]
            simp only [setMapBit, h1, h2, Nat.add_assoc]
          · rw [← mapBit_add, hclear]
          · intro m hm
            by_cases hm8 : m < 8 * c
            · exact hfirst m hm8 (by omega)
            · obtain ⟨m, rfl⟩ := Nat.exists_eq_add_of_le (not_lt.mp hm8)
              rw [← mapBit_add, hbefore m (by omega)]
        · refine Or.inr ⟨he', ?_⟩
          intro m hm hms
          by_cases hm8 : m < 8 * c
          · exact hfirst m hm8 hms
          · obtain ⟨m, rfl⟩ := Nat.exists_eq_add_of_le (not_lt.mp hm8)
            rw [← mapBit_add, hrest m (by omega) (by omega)]

theorem genericMinixGetBitMap_spec (disk : Store) (offset size : ℕ) :
    (∃ k < size, genericMinixGetBitMap disk offset size = some (k, setMapBit disk offset k) ∧
      mapBit disk offset k = false ∧ ∀ m < k, mapBit disk offset m = true) ∨
    (genericMinixGetBitMap disk offset size = none ∧ ∀ m < size, mapBit disk offset m = true) := by
  unfold genericMinixGetBitMap
  rcases searchChunks_spec disk ((size + 7) / 8) ((size + 7) / 8) offset size 0 le_rfl with ⟨k, hks, _, he, hclear, hbefore⟩ |
    ⟨he, hall⟩
  · exact Or.inl ⟨k, hks, by simpa using he, hclear, hbefore⟩
  · exact Or.inr ⟨he, fun m hm => hall m (by omega) hm⟩

section Bits
variable {disk : Store} {offset k m a : ℕ}

theorem writeByte_same {b : UInt8} : write disk a [b] a = b := write_inside (i := 0) rfl

theorem writeByte_other {b : UInt8} {x : ℕ} (h : x ≠ a) : write disk a [b] x = disk x :=
  write_outside (by simp; omega)

theorem mapBit_setMapBit :
    mapBit (setMapBit disk offset k) offset m = (decide (m = k) || mapBit disk offset m) := by
  unfold mapBit setMapBit
  by_cases hbyte : m / 8 = k / 8
  · rw [hbyte, writeByte_same, UInt8.toNat_ofNat', Nat.testBit_mod_two_pow, Nat.testBit_or,
      Nat.testBit_two_pow]
    have hbit : (k % 8 = m % 8) ↔ m = k := by omega
    simp [hbit, Nat.mod_lt m (show 0 < 8 by omega), Bool.or_comm]
  · have hne : m ≠ k := fun h => hbyte (h ▸ rfl)
    rw [writeByte_other (by omega)]
    simp [hne]

theorem mapBit_clear :
    mapBit (genericMinixClearBitMap disk offset k) offset m =
      (decide (m ≠ k) && mapBit disk offset m) := by
  unfold mapBit genericMinixClearBitMap
  by_cases hbyte : m / 8 = k / 8
  · have hmod : m % 8 < 8 := Nat.mod_lt m (by omega)
    have h255 : Nat.testBit 255 (m % 8) = true := by
      rw [show 255 = 2 ^ 8 - 1 from rfl, Nat.testBit_two_pow_sub_one]
      simp [hmod]
    rw [hbyte, writeByte_same, UInt8.toNat_ofNat', Nat.testBit_mod_two_pow, Nat.testBit_and,
      Nat.testBit_xor, Nat.testBit_two_pow, h255]
    have hbit : (k % 8 = m % 8) ↔ m = k := by omega
    simp [hbit, hmod, Bool.and_comm]
  · have hne : m ≠ k := fun h => hbyte (h ▸ rfl)
    rw [writeByte_other (by omega)]
    simp [hne]

theorem setMapBit_outside (h : a ≠ offset + k / 8) : setMapBit disk offset k a = disk a :=
  writeByte_other h

theorem clearMapBit_outside (h : a ≠ offset + k / 8) :
    genericMinixClearBitMap disk offset k a = disk a := writeByte_other h

theorem mapBit_congr {disk' : Store} (h : disk' (offset + m / 8) = disk (offset + m / 8)) :
    mapBit disk' offset m = mapBit disk offset m := by
  unfold mapBit
  rw [h]

end Bits

end SomeOs.Minix

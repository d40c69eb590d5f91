import SomeOs.Base.Rijndael

/-! # The block cipher

The cipher works on words of 32 bits with the first byte in the lowest bits. Substitution and
products are looked up in tables.
-/
namespace SomeOs.Random
open Rijndael (Byte Word State Key)

scoped instance four_neZero : NeZero 4 := ⟨by decide⟩

abbrev Bits128 := Fin 4 → BitVec 32

abbrev Bits256 := Fin 8 → BitVec 32

def rotateLeft (v : BitVec 32) (r : ℕ) : BitVec 32 := v <<< r ||| v >>> (32 - r)

def byteOf (v : BitVec 32) (k : ℕ) : Byte := (v >>> (8 * k)).setWidth 8

def packBytes (a b c d : Byte) : BitVec 32 :=
  a.setWidth 32 ||| b.setWidth 32 <<< 8 ||| c.setWidth 32 <<< 16 ||| d.setWidth 32 <<< 24

def sboxTable : List Byte :=
  [0x63, 0x7c, 0x77, 0x7b, 0xf2, 0x6b, 0x6f, 0xc5, 0x30, 0x01, 0x67, 0x2b, 0xfe, 0xd7, 0xab, 0x76, 0xca, 0x82, 0xc9,
   0x7d, 0xfa, 0x59, 0x47, 0xf0, 0xad, 0xd4, 0xa2, 0xaf, 0x9c, 0xa4, 0x72, 0xc0, 0xb7, 0xfd, 0x93, 0x26, 0x36, 0x3f,
   0xf7, 0xcc, 0x34, 0xa5, 0xe5, 0xf1, 0x71, 0xd8, 0x31, 0x15, 0x04, 0xc7, 0x23, 0xc3, 0x18, 0x96, 0x05, 0x9a, 0x07,
   0x12, 0x80, 0xe2, 0xeb, 0x27, 0xb2, 0x75, 0x09, 0x83, 0x2c, 0x1a, 0x1b, 0x6e, 0x5a, 0xa0, 0x52, 0x3b, 0xd6, 0xb3,
   0x29, 0xe3, 0x2f, 0x84, 0x53, 0xd1, 0x00, 0xed, 0x20, 0xfc, 0xb1, 0x5b, 0x6a, 0xcb, 0xbe, 0x39, 0x4a, 0x4c, 0x58,
   0xcf, 0xd0, 0xef, 0xaa, 0xfb, 0x43, 0x4d, 0x33, 0x85, 0x45, 0xf9, 0x02, 0x7f, 0x50, 0x3c, 0x9f, 0xa8, 0x51, 0xa3,
   0x40, 0x8f, 0x92, 0x9d, 0x38, 0xf5, 0xbc, 0xb6, 0xda, 0x21, 0x10, 0xff, 0xf3, 0xd2, 0xcd, 0x0c, 0x13, 0xec, 0x5f,
   0x97, 0x44, 0x17, 0xc4, 0xa7, 0x7e, 0x3d, 0x64, 0x5d, 0x19, 0x73, 0x60, 0x81, 0x4f, 0xdc, 0x22, 0x2a, 0x90, 0x88,
   0x46, 0xee, 0xb8, 0x14, 0xde, 0x5e, 0x0b, 0xdb, 0xe0, 0x32, 0x3a, 0x0a, 0x49, 0x06, 0x24, 0x5c, 0xc2, 0xd3, 0xac,
   0x62, 0x91, 0x95, 0xe4, 0x79, 0xe7, 0xc8, 0x37, 0x6d, 0x8d, 0xd5, 0x4e, 0xa9, 0x6c, 0x56, 0xf4, 0xea, 0x65, 0x7a,
   0xae, 0x08, 0xba, 0x78, 0x25, 0x2e, 0x1c, 0xa6, 0xb4, 0xc6, 0xe8, 0xdd, 0x74, 0x1f, 0x4b, 0xbd, 0x8b, 0x8a, 0x70,
   0x3e, 0xb5, 0x66, 0x48, 0x03, 0xf6, 0x0e, 0x61, 0x35, 0x57, 0xb9, 0x86, 0xc1, 0x1d, 0x9e, 0xe1, 0xf8, 0x98, 0x11,
   0x69, 0xd9, 0x8e, 0x94, 0x9b, 0x1e, 0x87, 0xe9, 0xce, 0x55, 0x28, 0xdf, 0x8c, 0xa1, 0x89, 0x0d, 0xbf, 0xe6, 0x42,
   0x68, 0x41, 0x99, 0x2d, 0x0f, 0xb0, 0x54, 0xbb, 0x16]

def sbox (b : Byte) : Byte := sboxTable.getD b.toNat 0

def subWord (v : BitVec 32) : BitVec 32 :=
  packBytes (sbox (byteOf v 0)) (sbox (byteOf v 1)) (sbox (byteOf v 2)) (sbox (byteOf v 3))

def constants : List Byte := [0x8d, 0x01, 0x02, 0x04, 0x08, 0x10, 0x20, 0x40, 0x80, 0x1b, 0x36]

/-- What `flat_keys[i - 1]` is changed to in `aesKeyExpansion`. -/
def keyTemp (i : ℕ) (tmp : BitVec 32) : BitVec 32 :=
  if i % 8 = 0 then subWord (rotateLeft tmp 8) ^^^ (constants.getD (i / 8) 0).setWidth 32
  else if i % 8 = 4 then subWord tmp
  else tmp

/-- The first words of `flat_keys`, eight and `n` more. -/
def flatKeys (key : Bits256) : ℕ → List (BitVec 32)
  | 0 => List.ofFn key
  | n + 1 =>
    let flat_keys := flatKeys key n
    flat_keys ++ [flat_keys.getD n 0 ^^^ keyTemp (n + 8) (flat_keys.getD (n + 7) 0)]

def aesKeyExpansion (key : Bits256) (k : ℕ) : Bits128 := fun i => (flatKeys key 52).getD (4 * k + i) 0

def aesAddRoundKey (block key : Bits128) : Bits128 := fun i => block i ^^^ key i

def aesSubBytes (block : Bits128) : Bits128 := fun i => subWord (block i)

/-- The byte of row `i`. -/
def rowMask (i : ℕ) : BitVec 32 := (0xff : BitVec 32) <<< (i * 8)

/-- One pass of the inner loop of `aesShiftRows`. -/
def shiftRow (mask : BitVec 32) (block : Bits128) : Bits128 :=
  let tmp := block 0
  let block := [0, 1, 2].foldl (fun block j =>
    Function.update block j ((block j &&& ~~~mask) ||| (block (j + 1) &&& mask))) block
  Function.update block 3 ((block 3 &&& ~~~mask) ||| (tmp &&& mask))

def aesShiftRows (block : Bits128) : Bits128 :=
  [1, 2, 3].foldl (fun block i => (shiftRow (rowMask i))^[i] block) block

def gmul2 : List Byte :=
  [0x00, 0x02, 0x04, 0x06, 0x08, 0x0a, 0x0c, 0x0e, 0x10, 0x12, 0x14, 0x16, 0x18, 0x1a, 0x1c, 0x1e, 0x20, 0x22, 0x24,
   0x26, 0x28, 0x2a, 0x2c, 0x2e, 0x30, 0x32, 0x34, 0x36, 0x38, 0x3a, 0x3c, 0x3e, 0x40, 0x42, 0x44, 0x46, 0x48, 0x4a,
   0x4c, 0x4e, 0x50, 0x52, 0x54, 0x56, 0x58, 0x5a, 0x5c, 0x5e, 0x60, 0x62, 0x64, 0x66, 0x68, 0x6a, 0x6c, 0x6e, 0x70,
   0x72, 0x74, 0x76, 0x78, 0x7a, 0x7c, 0x7e, 0x80, 0x82, 0x84, 0x86, 0x88, 0x8a, 0x8c, 0x8e, 0x90, 0x92, 0x94, 0x96,
   0x98, 0x9a, 0x9c, 0x9e, 0xa0, 0xa2, 0xa4, 0xa6, 0xa8, 0xaa, 0xac, 0xae, 0xb0, 0xb2, 0xb4, 0xb6, 0xb8, 0xba, 0xbc,
   0xbe, 0xc0, 0xc2, 0xc4, 0xc6, 0xc8, 0xca, 0xcc, 0xce, 0xd0, 0xd2, 0xd4, 0xd6, 0xd8, 0xda, 0xdc, 0xde, 0xe0, 0xe2,
   0xe4, 0xe6, 0xe8, 0xea, 0xec, 0xee, 0xf0, 0xf2, 0xf4, 0xf6, 0xf8, 0xfa, 0xfc, 0xfe, 0x1b, 0x19, 0x1f, 0x1d, 0x13,
   0x11, 0x17, 0x15, 0x0b, 0x09, 0x0f, 0x0d, 0x03, 0x01, 0x07, 0x05, 0x3b, 0x39, 0x3f, 0x3d, 0x33, 0x31, 0x37, 0x35,
   0x2b, 0x29, 0x2f, 0x2d, 0x23, 0x21, 0x27, 0x25, 0x5b, 0x59, 0x5f, 0x5d, 0x53, 0x51, 0x57, 0x55, 0x4b, 0x49, 0x4f,
   0x4d, 0x43, 0x41, 0x47, 0x45, 0x7b, 0x79, 0x7f, 0x7d, 0x73, 0x71, 0x77, 0x75, 0x6b, 0x69, 0x6f, 0x6d, 0x63, 0x61,
   0x67, 0x65, 0x9b, 0x99, 0x9f, 0x9d, 0x93, 0x91, 0x97, 0x95, 0x8b, 0x89, 0x8f, 0x8d, 0x83, 0x81, 0x87, 0x85, 0xbb,
   0xb9, 0xbf, 0xbd, 0xb3, 0xb1, 0xb7, 0xb5, 0xab, 0xa9, 0xaf, 0xad, 0xa3, 0xa1, 0xa7, 0xa5, 0xdb, 0xd9, 0xdf, 0xdd,
   0xd3, 0xd1, 0xd7, 0xd5, 0xcb, 0xc9, 0xcf, 0xcd, 0xc3, 0xc1, 0xc7, 0xc5, 0xfb, 0xf9, 0xff, 0xfd, 0xf3, 0xf1, 0xf7,
   0xf5, 0xeb, 0xe9, 0xef, 0xed, 0xe3, 0xe1, 0xe7, 0xe5]

def gmul3 : List Byte :=
  [0x00, 0x03, 0x06, 0x05, 0x0c, 0x0f, 0x0a, 0x09, 0x18, 0x1b, 0x1e, 0x1d, 0x14, 0x17, 0x12, 0x11, 0x30, 0x33, 0x36,
   0x35, 0x3c, 0x3f, 0x3a, 0x39, 0x28, 0x2b, 0x2e, 0x2d, 0x24, 0x27, 0x22, 0x21, 0x60, 0x63, 0x66, 0x65, 0x6c, 0x6f,
   0x6a, 0x69, 0x78, 0x7b, 0x7e, 0x7d, 0x74, 0x77, 0x72, 0x71, 0x50, 0x53, 0x56, 0x55, 0x5c, 0x5f, 0x5a, 0x59, 0x48,
   0x4b, 0x4e, 0x4d, 0x44, 0x47, 0x42, 0x41, 0xc0, 0xc3, 0xc6, 0xc5, 0xcc, 0xcf, 0xca, 0xc9, 0xd8, 0xdb, 0xde, 0xdd,
   0xd4, 0xd7, 0xd2, 0xd1, 0xf0, 0xf3, 0xf6, 0xf5, 0xfc, 0xff, 0xfa, 0xf9, 0xe8, 0xeb, 0xee, 0xed, 0xe4, 0xe7, 0xe2,
   0xe1, 0xa0, 0xa3, 0xa6, 0xa5, 0xac, 0xaf, 0xaa, 0xa9, 0xb8, 0xbb, 0xbe, 0xbd, 0xb4, 0xb7, 0xb2, 0xb1, 0x90, 0x93,
   0x96, 0x95, 0x9c, 0x9f, 0x9a, 0x99, 0x88, 0x8b, 0x8e, 0x8d, 0x84, 0x87, 0x82, 0x81, 0x9b, 0x98, 0x9d, 0x9e, 0x97,
   0x94, 0x91, 0x92, 0x83, 0x80, 0x85, 0x86, 0x8f, 0x8c, 0x89, 0x8a, 0xab, 0xa8, 0xad, 0xae, 0xa7, 0xa4, 0xa1, 0xa2,
   0xb3, 0xb0, 0xb5, 0xb6, 0xbf, 0xbc, 0xb9, 0xba, 0xfb, 0xf8, 0xfd, 0xfe, 0xf7, 0xf4, 0xf1, 0xf2, 0xe3, 0xe0, 0xe5,
   0xe6, 0xef, 0xec, 0xe9, 0xea, 0xcb, 0xc8, 0xcd, 0xce, 0xc7, 0xc4, 0xc1, 0xc2, 0xd3, 0xd0, 0xd5, 0xd6, 0xdf, 0xdc,
   0xd9, 0xda, 0x5b, 0x58, 0x5d, 0x5e, 0x57, 0x54, 0x51, 0x52, 0x43, 0x40, 0x45, 0x46, 0x4f, 0x4c, 0x49, 0x4a, 0x6b,
   0x68, 0x6d, 0x6e, 0x67, 0x64, 0x61, 0x62, 0x73, 0x70, 0x75, 0x76, 0x7f, 0x7c, 0x79, 0x7a, 0x3b, 0x38, 0x3d, 0x3e,
   0x37, 0x34, 0x31, 0x32, 0x23, 0x20, 0x25, 0x26, 0x2f, 0x2c, 0x29, 0x2a, 0x0b, 0x08, 0x0d, 0x0e, 0x07, 0x04, 0x01,
   0x02, 0x13, 0x10, 0x15, 0x16, 0x1f, 0x1c, 0x19, 0x1a]

/-- `mulBytes` with two and with three. -/
def mulBytes2 (b : Byte) : Byte := gmul2.getD b.toNat 0

def mulBytes3 (b : Byte) : Byte := gmul3.getD b.toNat 0

def mixColumn (v : BitVec 32) : BitVec 32 :=
  let a := byteOf v
  packBytes (mulBytes2 (a 0) ^^^ mulBytes3 (a 1) ^^^ a 2 ^^^ a 3) (a 0 ^^^ mulBytes2 (a 1) ^^^ mulBytes3 (a 2) ^^^ a 3)
    (a 0 ^^^ a 1 ^^^ mulBytes2 (a 2) ^^^ mulBytes3 (a 3)) (mulBytes3 (a 0) ^^^ a 1 ^^^ a 2 ^^^ mulBytes2 (a 3))

def aesMixColumns (block : Bits128) : Bits128 := fun i => mixColumn (block i)

/-- The loop of `aesBlock` after its first round key. -/
def aesRounds (round_keys : ℕ → Bits128) : ℕ → Bits128 → Bits128
  | 0, block => aesAddRoundKey block (round_keys 0)
  | i + 1, block =>
    aesAddRoundKey (aesMixColumns (aesShiftRows (aesSubBytes (aesRounds round_keys i block)))) (round_keys (i + 1))

def aesBlockWith (round_keys : ℕ → Bits128) (block : Bits128) : Bits128 :=
  aesAddRoundKey (aesShiftRows (aesSubBytes (aesRounds round_keys 13 block))) (round_keys 14)

def aesBlock (key : Bits256) (block : Bits128) : Bits128 := aesBlockWith (aesKeyExpansion key) block

def toWord (v : BitVec 32) : Word := fun r => byteOf v r

def toState (block : Bits128) : State := fun c => toWord (block c)

def toKey (key : Bits256) : Key := fun i => toWord (key i)

section
variable {v w : BitVec 32} {a b c d : Byte} {block : Bits128}

theorem getLsbD_byteOf {k i : ℕ} (hi : i < 8) : (byteOf v k).getLsbD i = v.getLsbD (8 * k + i) := by
  simp [byteOf, hi]

theorem toWord_injective : Function.Injective toWord := by
  intro v w h
  apply BitVec.eq_of_getLsbD_eq
  intro i hi
  have hbyte := congrFun h ⟨i / 8, by omega⟩
  have hbit := congrArg (fun b : Byte => b.getLsbD (i % 8)) hbyte
  simp only [toWord, getLsbD_byteOf (Nat.mod_lt i (by decide : 0 < 8)), Nat.div_add_mod] at hbit
  exact hbit

theorem toWord_packBytes : toWord (packBytes a b c d) = ![a, b, c, d] := by
  funext r
  apply BitVec.eq_of_getLsbD_eq
  intro i hi
  have hhigh : ∀ (x : Byte) (j : ℕ), x.getLsbD (8 + j) = false := fun x j => BitVec.getLsbD_of_ge x _ (by omega)
  have hlt : i < 32 ∧ i < 16 ∧ i < 24 ∧ 8 + i < 16 ∧ 8 + i < 24 ∧ 8 + i < 32 ∧ 16 + i < 24 ∧ 16 + i < 32 ∧
      24 + i < 32 := by omega
  have hsub : 16 + i - 8 = 8 + i ∧ 24 + i - 8 = 8 + (8 + i) ∧ 24 + i - 16 = 8 + i := by omega
  have hover : ∀ x : Byte, x.getLsbD (16 + i) = false ∧ x.getLsbD (24 + i) = false := fun x =>
    ⟨BitVec.getLsbD_of_ge x _ (by omega), BitVec.getLsbD_of_ge x _ (by omega)⟩
  fin_cases r <;> simp only [toWord, getLsbD_byteOf hi, packBytes, BitVec.getLsbD_or, BitVec.getLsbD_shiftLeft,
    BitVec.getLsbD_setWidth]
  · simp [hi, hlt]
  · simp [hi, hlt]
  · simp only [hlt, hhigh, hsub, hover]
    simpa [hi] using fun _ => hlt.1
  · simp only [hlt, hhigh, hsub, hover]
    simpa [hi] using fun _ => hlt.1

theorem toWord_xor (v w : BitVec 32) : toWord (v ^^^ w) = Rijndael.xorWord (toWord v) (toWord w) := by
  funext r
  apply BitVec.eq_of_getLsbD_eq
  intro i hi
  simp only [toWord, Rijndael.xorWord, getLsbD_byteOf hi, BitVec.getLsbD_xor]

theorem toWord_rotateLeft (v : BitVec 32) : toWord (rotateLeft v 8) = fun r => toWord v (r + 3) := by
  funext r
  apply BitVec.eq_of_getLsbD_eq
  intro i hi
  have hlt : i < 32 ∧ 8 + i < 32 ∧ 16 + i < 32 ∧ 24 + i < 32 ∧ ¬8 + i < 8 ∧ ¬16 + i < 8 ∧ ¬24 + i < 8 := by omega
  have hsub : 8 + i - 8 = i ∧ 16 + i - 8 = 8 + i ∧ 24 + i - 8 = 16 + i := by omega
  have hhigh : v.getLsbD (24 + (8 + i)) = false ∧ v.getLsbD (24 + (16 + i)) = false ∧ v.getLsbD (24 + (24 + i)) = false :=
    ⟨BitVec.getLsbD_of_ge v _ (by omega), BitVec.getLsbD_of_ge v _ (by omega), BitVec.getLsbD_of_ge v _ (by omega)⟩
  fin_cases r <;> simp only [toWord, getLsbD_byteOf hi, rotateLeft, BitVec.getLsbD_or, BitVec.getLsbD_shiftLeft,
    BitVec.getLsbD_ushiftRight]
  · simp [hi]
  · simp [hlt, hsub, hhigh]
  · simp [hlt, hsub, hhigh]
  · simp [hlt, hsub, hhigh]

/-- `Rijndael.xtime` on the value of a byte, with the operations that the kernel evaluates on numerals. -/
def xtimeValue (n : ℕ) : ℕ := Nat.xor (Nat.mul 2 n) (Nat.mul (Nat.div n 128) 0x11b)

def mulStepValue (a b i r : ℕ) : ℕ := Nat.xor (xtimeValue r) (Nat.mul (Nat.mod (Nat.shiftRight a i) 2) b)

def mulValue (a b : ℕ) : ℕ :=
  mulStepValue a b 0 (mulStepValue a b 1 (mulStepValue a b 2 (mulStepValue a b 3
    (mulStepValue a b 4 (mulStepValue a b 5 (mulStepValue a b 6 (mulStepValue a b 7 0)))))))

def invValue (a : ℕ) : ℕ :=
  let a2 := mulValue a a
  let a4 := mulValue a2 a2
  let a8 := mulValue a4 a4
  let a16 := mulValue a8 a8
  let a32 := mulValue a16 a16
  let a64 := mulValue a32 a32
  mulValue (mulValue (mulValue a2 a4) (mulValue a8 a16)) (mulValue (mulValue a32 a64) (mulValue a64 a64))

theorem toNat_xtime : ∀ b : Byte, (Rijndael.xtime b).toNat = xtimeValue b.toNat := by decide

theorem toNat_mulStep (a b : Byte) (i : ℕ) (r : Byte) :
    (Rijndael.mulStep a b i r).toNat = mulStepValue a.toNat b.toNat i r.toNat := by
  have hbit : (if a.getLsbD i then b else 0).toNat = Nat.mul (Nat.mod (Nat.shiftRight a.toNat i) 2) b.toNat := by
    rw [← BitVec.testBit_toNat, Nat.testBit_eq_decide_div_mod_eq, ← Nat.shiftRight_eq_div_pow]
    change _ = a.toNat >>> i % 2 * b.toNat
    rcases Nat.mod_two_eq_zero_or_one (a.toNat >>> i) with h | h <;> simp [h]
  rw [Rijndael.mulStep, BitVec.toNat_xor, toNat_xtime, hbit]
  rfl

theorem toNat_mul (a b : Byte) : (Rijndael.mul a b).toNat = mulValue a.toNat b.toNat := by
  simp only [Rijndael.mul_eq_steps, toNat_mulStep, mulValue]
  rfl

theorem toNat_inv (b : Byte) : (Rijndael.inv b).toNat = invValue b.toNat := by
  simp only [Rijndael.inv, Rijndael.square, toNat_mul, invValue]

/-- The tables have what the standard computes. -/
theorem tables_eq : sboxTable = ((List.range 256).map fun n => Rijndael.affine (BitVec.ofNat 8 (invValue n))) ∧
    gmul2 = ((List.range 256).map fun n => BitVec.ofNat 8 (xtimeValue n)) ∧
    gmul3 = (List.range 256).map fun n => BitVec.ofNat 8 (n ^^^ xtimeValue n) := by
  refine ⟨?_, ?_, ?_⟩ <;> decide +kernel

theorem getD_map_range (f : ℕ → Byte) (b : Byte) : ((List.range 256).map f).getD b.toNat 0 = f b.toNat := by
  have hlt : b.toNat < ((List.range 256).map f).length := by
    rw [List.length_map, List.length_range]
    exact b.isLt
  rw [List.getD_eq_getElem _ _ hlt, List.getElem_map, List.getElem_range]

theorem sbox_eq (b : Byte) : sbox b = Rijndael.subByte b := by
  rw [sbox, tables_eq.1, getD_map_range, ← toNat_inv, BitVec.ofNat_toNat, BitVec.setWidth_eq]
  rfl

theorem mulBytes2_eq (b : Byte) : mulBytes2 b = Rijndael.mul 2 b := by
  rw [mulBytes2, tables_eq.2.1, getD_map_range, ← toNat_xtime, BitVec.ofNat_toNat, BitVec.setWidth_eq, Rijndael.mul_two]

theorem mulBytes3_eq (b : Byte) : mulBytes3 b = Rijndael.mul 3 b := by
  rw [mulBytes3, tables_eq.2.2, getD_map_range, ← toNat_xtime, ← BitVec.toNat_xor, BitVec.ofNat_toNat, BitVec.setWidth_eq,
    Rijndael.mul_three]

theorem toWord_subWord (v : BitVec 32) : toWord (subWord v) = Rijndael.subWord (toWord v) := by
  funext r
  rw [subWord, toWord_packBytes]
  fin_cases r <;> exact sbox_eq _

theorem toWord_mixColumn (v : BitVec 32) : toWord (mixColumn v) = Rijndael.mixColumn (toWord v) := by
  funext r
  rw [mixColumn, toWord_packBytes]
  simp only [mulBytes2_eq, mulBytes3_eq]
  fin_cases r
  · rfl
  · change byteOf v 0 ^^^ Rijndael.mul 2 (byteOf v 1) ^^^ Rijndael.mul 3 (byteOf v 2) ^^^ byteOf v 3 =
      Rijndael.mul 2 (byteOf v 1) ^^^ Rijndael.mul 3 (byteOf v 2) ^^^ byteOf v 3 ^^^ byteOf v 0
    ac_rfl
  · change byteOf v 0 ^^^ byteOf v 1 ^^^ Rijndael.mul 2 (byteOf v 2) ^^^ Rijndael.mul 3 (byteOf v 3) =
      Rijndael.mul 2 (byteOf v 2) ^^^ Rijndael.mul 3 (byteOf v 3) ^^^ byteOf v 0 ^^^ byteOf v 1
    ac_rfl
  · change Rijndael.mul 3 (byteOf v 0) ^^^ byteOf v 1 ^^^ byteOf v 2 ^^^ Rijndael.mul 2 (byteOf v 3) =
      Rijndael.mul 2 (byteOf v 3) ^^^ Rijndael.mul 3 (byteOf v 0) ^^^ byteOf v 1 ^^^ byteOf v 2
    ac_rfl

theorem getLsbD_rowMask {i k : ℕ} (hi : i < 4) (hk : k < 32) :
    (rowMask i).getLsbD k = decide (k / 8 = i) := by
  interval_cases i <;> interval_cases k <;> rfl

theorem toWord_select {i : ℕ} (hi : i < 4) (v w : BitVec 32) :
    toWord ((v &&& ~~~rowMask i) ||| (w &&& rowMask i)) =
      fun r : Fin 4 => if (r : ℕ) = i then toWord w r else toWord v r := by
  funext r
  apply BitVec.eq_of_getLsbD_eq
  intro k hk
  have hlt : 8 * (r : ℕ) + k < 32 := by omega
  have hdiv : (8 * (r : ℕ) + k) / 8 = r := by omega
  simp only [toWord, getLsbD_byteOf hk, BitVec.getLsbD_or, BitVec.getLsbD_and, BitVec.getLsbD_not, getLsbD_rowMask hi hlt,
    hdiv, hlt, decide_true, Bool.true_and]
  split_ifs with hr <;> simp [hr, getLsbD_byteOf hk]

theorem shiftRow_apply (mask : BitVec 32) (block : Bits128) (c : Fin 4) :
    shiftRow mask block c = (block c &&& ~~~mask) ||| (block (c + 1) &&& mask) := by
  fin_cases c <;> rfl

theorem toState_shiftRow {i : ℕ} (hi : i < 4) (block : Bits128) :
    toState (shiftRow (rowMask i) block) =
      fun c (r : Fin 4) => if (r : ℕ) = i then toState block (c + 1) r else toState block c r := by
  funext c r
  rw [toState, shiftRow_apply, toWord_select hi]
  rfl

theorem toState_iterate_shiftRow {i : ℕ} (hi : i < 4) (n : ℕ) (block : Bits128) :
    toState ((shiftRow (rowMask i))^[n] block) =
      fun c (r : Fin 4) => if (r : ℕ) = i then toState block ((· + 1)^[n] c) r else toState block c r := by
  induction n generalizing block with
  | zero => simp
  | succ n ih =>
    rw [Function.iterate_succ_apply, ih]
    funext c r
    simp only [toState_shiftRow hi, Function.iterate_succ_apply']
    split_ifs <;> rfl

theorem toState_aesShiftRows (block : Bits128) : toState (aesShiftRows block) = Rijndael.shiftRows (toState block) := by
  simp only [aesShiftRows, List.foldl_cons, List.foldl_nil]
  rw [toState_iterate_shiftRow (by decide), toState_iterate_shiftRow (by decide), toState_iterate_shiftRow (by decide)]
  funext c r
  fin_cases c <;> fin_cases r <;> rfl

theorem toState_aesAddRoundKey (block key : Bits128) :
    toState (aesAddRoundKey block key) = Rijndael.addRoundKey (toState block) (toState key) :=
  funext fun c => toWord_xor (block c) (key c)

theorem toState_aesSubBytes (block : Bits128) : toState (aesSubBytes block) = Rijndael.subBytes (toState block) :=
  funext fun c => toWord_subWord (block c)

theorem toState_aesMixColumns (block : Bits128) :
    toState (aesMixColumns block) = Rijndael.mixColumns (toState block) :=
  funext fun c => toWord_mixColumn (block c)

theorem toState_aesRounds (round_keys : ℕ → Bits128) (n : ℕ) (block : Bits128) :
    toState (aesRounds round_keys n block) = Rijndael.rounds (fun k => toState (round_keys k)) n (toState block) := by
  induction n with
  | zero => exact toState_aesAddRoundKey block _
  | succ n ih =>
    rw [aesRounds, toState_aesAddRoundKey, toState_aesMixColumns, toState_aesShiftRows, toState_aesSubBytes, ih]
    rfl

theorem toState_aesBlockWith (round_keys : ℕ → Bits128) (block : Bits128) :
    toState (aesBlockWith round_keys block) =
      Rijndael.encryptWith (fun k => toState (round_keys k)) (toState block) := by
  rw [aesBlockWith, toState_aesAddRoundKey, toState_aesShiftRows, toState_aesSubBytes, toState_aesRounds]
  rfl

theorem toState_injective : Function.Injective toState := fun _ _ h =>
  funext fun c => toWord_injective (congrFun h c)

theorem testBit_foldl_or (l : List Byte) (n i : ℕ) :
    (l.foldl (fun n b => n ||| 2 ^ b.toNat) n).testBit i = (n.testBit i || l.any fun b => b.toNat = i) := by
  induction l generalizing n with
  | nil => simp
  | cons b l ih => rw [List.foldl_cons, ih, Nat.testBit_or, Nat.testBit_two_pow, List.any_cons, Bool.or_assoc]

/-- Every byte is in the table, which has no more places. -/
theorem sbox_injective : Function.Injective sbox := by
  have hbits : sboxTable.foldl (fun n b => n ||| 2 ^ b.toNat) 0 = 2 ^ 256 - 1 := by decide +kernel
  have hlen : sboxTable.length = 256 := by rw [tables_eq.1, List.length_map, List.length_range]
  refine Finite.injective_iff_surjective.mpr fun c => ?_
  have hbit := testBit_foldl_or sboxTable 0 c.toNat
  rw [hbits, Nat.testBit_two_pow_sub_one, decide_eq_true c.isLt, Nat.zero_testBit, Bool.false_or, eq_comm,
    List.any_eq_true] at hbit
  obtain ⟨b, hb, hbc⟩ := hbit
  obtain ⟨i, hi, rfl⟩ := List.getElem_of_mem hb
  refine ⟨BitVec.ofNat 8 i, ?_⟩
  rw [sbox, BitVec.toNat_ofNat, Nat.mod_eq_of_lt (hi.trans_eq hlen), List.getD_eq_getElem _ _ hi]
  exact BitVec.eq_of_toNat_eq (of_decide_eq_true hbc)

theorem subByte_injective : Function.Injective Rijndael.subByte := by
  intro a b h
  rw [← sbox_eq, ← sbox_eq] at h
  exact sbox_injective h

theorem aesBlock_injective (key : Bits256) : Function.Injective (aesBlock key) := by
  intro v w h
  have hstate := congrArg toState h
  rw [aesBlock, aesBlock, toState_aesBlockWith, toState_aesBlockWith] at hstate
  exact toState_injective (Rijndael.encryptWith_injective subByte_injective _ hstate)

end

end SomeOs.Random

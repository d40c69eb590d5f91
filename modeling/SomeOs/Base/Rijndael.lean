import Mathlib

/-! # The cipher on bytes

The encryption with a key of 256 bits as in the standard. Bytes are polynomials over the field
of two elements modulo `x ^ 8 + x ^ 4 + x ^ 3 + x + 1`; the state has four columns of four bytes.
-/
namespace SomeOs.Rijndael

abbrev Byte := BitVec 8

abbrev Word := Fin 4 → Byte

abbrev State := Fin 4 → Word

abbrev Key := Fin 8 → Word

/-- The product with `x`. -/
def xtime (b : Byte) : Byte := b <<< 1 ^^^ if b.msb then 0x1b else 0

/-- The product with `a`, one coefficient after the other. -/
def mul (a b : Byte) : Byte :=
  (List.range 8).foldl (fun r i => r ^^^ if a.getLsbD i then xtime^[i] b else 0) 0

def square (a : Byte) : Byte := mul a a

/-- The power 254, which is the inverse of what is not zero. -/
def inv (a : Byte) : Byte :=
  let a2 := square a
  let a4 := square a2
  let a8 := square a4
  let a16 := square a8
  let a32 := square a16
  let a64 := square a32
  mul (mul (mul a2 a4) (mul a8 a16)) (mul (mul a32 a64) (square a64))

def affine (b : Byte) : Byte :=
  b ^^^ b.rotateLeft 1 ^^^ b.rotateLeft 2 ^^^ b.rotateLeft 3 ^^^ b.rotateLeft 4 ^^^ 0x63

def subByte (b : Byte) : Byte := affine (inv b)

def subWord (w : Word) : Word := fun r => subByte (w r)

def rotWord (w : Word) : Word := fun r => w (r + 1)

def xorWord (v w : Word) : Word := fun r => v r ^^^ w r

/-- The round constant `x ^ (i - 1)`. -/
def rcon (i : ℕ) : Word := fun r => if r = 0 then xtime^[i - 1] 1 else 0

/-- What the word before is changed to for word `i` of the schedule. -/
def temp (i : ℕ) (w : Word) : Word :=
  if i % 8 = 0 then xorWord (subWord (rotWord w)) (rcon (i / 8))
  else if i % 8 = 4 then subWord w
  else w

/-- The first words of the key schedule, eight and `n` more. -/
def words (key : Key) : ℕ → List Word
  | 0 => List.ofFn key
  | n + 1 =>
    let ws := words key n
    ws ++ [xorWord (ws.getD n 0) (temp (n + 8) (ws.getD (n + 7) 0))]

def roundKey (key : Key) (k : ℕ) : State := fun c => (words key 52).getD (4 * k + c) 0

def addRoundKey (s k : State) : State := fun c => xorWord (s c) (k c)

def subBytes (s : State) : State := fun c => subWord (s c)

def shiftRows (s : State) : State := fun c r => s (c + r) r

def mixColumn (w : Word) : Word := fun r => mul 2 (w r) ^^^ mul 3 (w (r + 1)) ^^^ w (r + 2) ^^^ w (r + 3)

def mixColumns (s : State) : State := fun c => mixColumn (s c)

def rounds (keys : ℕ → State) : ℕ → State → State
  | 0, s => addRoundKey s (keys 0)
  | n + 1, s => addRoundKey (mixColumns (shiftRows (subBytes (rounds keys n s)))) (keys (n + 1))

def encryptWith (keys : ℕ → State) (s : State) : State :=
  addRoundKey (shiftRows (subBytes (rounds keys 13 s))) (keys 14)

def encrypt (key : Key) (s : State) : State := encryptWith (roundKey key) s

section
variable {a b x y : Byte} {v w : Word}

theorem xtime_xor (x y : Byte) : xtime (x ^^^ y) = xtime x ^^^ xtime y := by
  unfold xtime
  rw [BitVec.shiftLeft_xor_distrib, BitVec.msb_xor]
  cases x.msb <;> cases y.msb
  · simp
  · simp [BitVec.xor_assoc]
  · simp only [Bool.xor_false, if_true, Bool.false_eq_true, if_false]
    ac_rfl
  · simp only [Bool.xor_self, if_true, Bool.false_eq_true, if_false]
    calc x <<< 1 ^^^ y <<< 1 ^^^ 0 = x <<< 1 ^^^ y <<< 1 ^^^ (0x1b ^^^ 0x1b) := by rw [BitVec.xor_self]; rfl
      _ = _ := by ac_rfl

theorem xtime_iterate_xor (i : ℕ) (x y : Byte) : xtime^[i] (x ^^^ y) = xtime^[i] x ^^^ xtime^[i] y := by
  induction i generalizing x y with
  | zero => rfl
  | succ i ih => rw [Function.iterate_succ_apply, xtime_xor, ih]; rfl

theorem mul_xor (a x y : Byte) : mul a (x ^^^ y) = mul a x ^^^ mul a y := by
  unfold mul
  generalize List.range 8 = l
  suffices h : ∀ u v : Byte, l.foldl (fun r i => r ^^^ if a.getLsbD i then xtime^[i] (x ^^^ y) else 0) (u ^^^ v) =
      l.foldl (fun r i => r ^^^ if a.getLsbD i then xtime^[i] x else 0) u ^^^
        l.foldl (fun r i => r ^^^ if a.getLsbD i then xtime^[i] y else 0) v by
    simpa using h 0 0
  induction l with
  | nil => exact fun _ _ => rfl
  | cons i l ih =>
    intro u v
    simp only [List.foldl_cons]
    rw [← ih]
    congr 1
    split_ifs
    · rw [xtime_iterate_xor]
      ac_rfl
    · simp

/-- A step of the product by the rule of Horner. -/
def mulStep (a b : Byte) (i : ℕ) (r : Byte) : Byte := xtime r ^^^ if a.getLsbD i then b else 0

theorem mul_eq_steps (a b : Byte) : mul a b = mulStep a b 0 (mulStep a b 1 (mulStep a b 2 (mulStep a b 3
    (mulStep a b 4 (mulStep a b 5 (mulStep a b 6 (mulStep a b 7 0))))))) := by
  have hzero : xtime 0 = 0 := rfl
  simp only [mul, mulStep, List.range_succ, List.range_zero, List.nil_append, List.foldl_append, List.foldl_cons,
    List.foldl_nil, Function.iterate_succ_apply', Function.iterate_zero_apply, xtime_xor, apply_ite xtime, hzero]
  simp only [BitVec.ofNat_eq_ofNat, BitVec.zero_xor]
  ac_rfl

theorem mul_two (x : Byte) : mul 2 x = xtime x := by simp [mul, List.range_succ]

theorem mul_three (x : Byte) : mul 3 x = x ^^^ xtime x := by simp [mul, List.range_succ]

/-- The inverse of `mixColumn`. -/
def invMixColumn (w : Word) : Word :=
  fun r => mul 14 (w r) ^^^ mul 11 (w (r + 1)) ^^^ mul 13 (w (r + 2)) ^^^ mul 9 (w (r + 3))

theorem mul_mix (x : Byte) :
    mul 14 (mul 2 x) ^^^ mul 11 x ^^^ mul 13 x ^^^ mul 9 (mul 3 x) = x ∧
    mul 14 (mul 3 x) ^^^ mul 11 (mul 2 x) ^^^ mul 13 x ^^^ mul 9 x = 0 ∧
    mul 14 x ^^^ mul 11 (mul 3 x) ^^^ mul 13 (mul 2 x) ^^^ mul 9 x = 0 ∧
    mul 14 x ^^^ mul 11 x ^^^ mul 13 (mul 3 x) ^^^ mul 9 (mul 2 x) = 0 := by
  have h9 : ∀ y, mul 9 y = y ^^^ xtime (xtime (xtime y)) := by simp [mul, List.range_succ]
  have h11 : ∀ y, mul 11 y = y ^^^ xtime y ^^^ xtime (xtime (xtime y)) := by simp [mul, List.range_succ]
  have h13 : ∀ y, mul 13 y = y ^^^ xtime (xtime y) ^^^ xtime (xtime (xtime y)) := by simp [mul, List.range_succ]
  have h14 : ∀ y, mul 14 y = xtime y ^^^ xtime (xtime y) ^^^ xtime (xtime (xtime y)) := by simp [mul, List.range_succ]
  have hleft : ∀ a b c : Byte, a ^^^ (b ^^^ c) = b ^^^ (a ^^^ c) := fun a b c => by ac_rfl
  have hcancel : ∀ a b : Byte, a ^^^ (a ^^^ b) = b := fun a b => by
    rw [← BitVec.xor_assoc, BitVec.xor_self, BitVec.zero_xor]
  -- As polynomials, without a reduction, all but one or all of the powers of `x` are there twice.
  simp only [mul_two, mul_three, h9, h11, h13, h14, xtime_xor]
  refine ⟨?_, ?_, ?_, ?_⟩ <;>
    simp only [BitVec.xor_assoc, BitVec.xor_comm, hleft, hcancel, BitVec.xor_self, BitVec.xor_zero, BitVec.ofNat_eq_ofNat]

theorem invMixColumn_mixColumn (w : Word) : invMixColumn (mixColumn w) = w := by
  funext r
  have hadd : ∀ r : Fin 4, r + 1 + 1 = r + 2 ∧ r + 1 + 2 = r + 3 ∧ r + 1 + 3 = r ∧ r + 2 + 1 = r + 3 ∧ r + 2 + 2 = r ∧
      r + 2 + 3 = r + 1 ∧ r + 3 + 1 = r ∧ r + 3 + 2 = r + 1 ∧ r + 3 + 3 = r + 2 := by decide
  obtain ⟨h11, h12, h13, h21, h22, h23, h31, h32, h33⟩ := hadd r
  simp only [invMixColumn, mixColumn, h11, h12, h13, h21, h22, h23, h31, h32, h33, mul_xor]
  obtain ⟨h0, -, -, -⟩ := mul_mix (w r)
  obtain ⟨-, h1, -, -⟩ := mul_mix (w (r + 1))
  obtain ⟨-, -, h2, -⟩ := mul_mix (w (r + 2))
  obtain ⟨-, -, -, h3⟩ := mul_mix (w (r + 3))
  have hsum := congrArg₂ (· ^^^ ·) (congrArg₂ (· ^^^ ·) h0 h1) (congrArg₂ (· ^^^ ·) h2 h3)
  refine Eq.trans ?_ (hsum.trans ?_)
  · ac_rfl
  · simp

theorem mixColumn_injective : Function.Injective mixColumn :=
  Function.LeftInverse.injective invMixColumn_mixColumn

theorem xorWord_injective (k : Word) : Function.Injective fun w => xorWord w k := by
  intro v w h
  funext r
  have hr := congrArg (fun x : Byte => x ^^^ k r) (congrFun h r)
  simpa only [xorWord, BitVec.xor_assoc, BitVec.xor_self, BitVec.xor_zero] using hr

theorem addRoundKey_injective (k : State) : Function.Injective fun s => addRoundKey s k := by
  intro s t h
  funext c
  exact xorWord_injective (k c) (congrFun h c)

theorem shiftRows_injective : Function.Injective shiftRows := by
  intro s t h
  funext c r
  have := congrFun (congrFun h (c - r)) r
  simpa only [shiftRows, sub_add_cancel] using this

theorem mixColumns_injective : Function.Injective mixColumns := by
  intro s t h
  funext c
  exact mixColumn_injective (congrFun h c)

theorem subBytes_injective (hsub : Function.Injective subByte) : Function.Injective subBytes := by
  intro s t h
  funext c r
  exact hsub (congrFun (congrFun h c) r)

theorem rounds_injective (hsub : Function.Injective subByte) (keys : ℕ → State) (n : ℕ) :
    Function.Injective (rounds keys n) := by
  induction n with
  | zero => exact addRoundKey_injective _
  | succ n ih =>
    exact (addRoundKey_injective _).comp (mixColumns_injective.comp
      (shiftRows_injective.comp ((subBytes_injective hsub).comp ih)))

theorem rounds_congr {keys keys' : ℕ → State} {n : ℕ} (h : ∀ k ≤ n, keys k = keys' k) (s : State) :
    rounds keys n s = rounds keys' n s := by
  induction n with
  | zero => rw [rounds, rounds, h 0 le_rfl]
  | succ n ih => rw [rounds, rounds, ih fun k hk => h k (by omega), h (n + 1) le_rfl]

theorem encryptWith_congr {keys keys' : ℕ → State} (h : ∀ k < 15, keys k = keys' k) (s : State) :
    encryptWith keys s = encryptWith keys' s := by
  rw [encryptWith, encryptWith, rounds_congr fun k hk => h k (by omega), h 14 (by decide)]

theorem encryptWith_injective (hsub : Function.Injective subByte) (keys : ℕ → State) :
    Function.Injective (encryptWith keys) :=
  (addRoundKey_injective _).comp (shiftRows_injective.comp ((subBytes_injective hsub).comp (rounds_injective hsub keys 13)))

end

end SomeOs.Rijndael

import SomeOs.Random.Aes

/-! # The round keys

The word rotation of the standard takes the first byte to the end. `rotateLeft` by eight bits
takes the last byte of a word to the front instead, so the two schedules agree only as long as
the rotated words do not show the difference.
-/
namespace SomeOs.Random
open Rijndael (Byte Word State Key)

def RotatesAlike (w : Word) : Prop := w 0 = w 2 ∧ w 1 = w 3

instance (w : Word) : Decidable (RotatesAlike w) := inferInstanceAs (Decidable (_ ∧ _))

section
variable {key : Bits256} {w : Word} {i n : ℕ}

theorem rotatesAlike_iff : (fun r => w (r + 3)) = Rijndael.rotWord w ↔ RotatesAlike w := by
  constructor
  · intro h
    exact ⟨(congrFun h 3).symm, (congrFun h 0).symm⟩
  · rintro ⟨h0, h1⟩
    funext r
    fin_cases r
    · exact h1.symm
    · exact h0
    · exact h1
    · exact h0.symm

theorem rijndael_subWord_injective : Function.Injective Rijndael.subWord := fun _ _ h =>
  funext fun r => subByte_injective (congrFun h r)

theorem toWord_constant (hi : i < 8) :
    toWord ((constants.getD i 0).setWidth 32) = Rijndael.rcon i ∨ i = 0 := by
  interval_cases i
  · exact Or.inr rfl
  all_goals exact Or.inl (by decide)

theorem toWord_keyTemp (hi : 0 < i) (hlt : i < 64) (v : BitVec 32) :
    toWord (keyTemp i v) = Rijndael.temp i (toWord v) ↔ (i % 8 = 0 → RotatesAlike (toWord v)) := by
  unfold keyTemp Rijndael.temp
  split_ifs with h0 h4
  · have hconst := (toWord_constant (show i / 8 < 8 by omega)).resolve_right (by omega)
    rw [toWord_xor, toWord_subWord, toWord_rotateLeft, hconst, (Rijndael.xorWord_injective _).eq_iff,
      rijndael_subWord_injective.eq_iff, rotatesAlike_iff]
    exact ⟨fun h _ => h, fun h => h h0⟩
  · exact ⟨fun _ h => absurd h h0, fun _ => toWord_subWord v⟩
  · exact ⟨fun _ h => absurd h h0, fun _ => rfl⟩

@[simp] theorem length_flatKeys (key : Bits256) (n : ℕ) : (flatKeys key n).length = n + 8 := by
  induction n with
  | zero => simp [flatKeys]
  | succ n ih => simp only [flatKeys, List.length_append, ih, List.length_singleton]

@[simp] theorem length_words (key : Key) (n : ℕ) : (Rijndael.words key n).length = n + 8 := by
  induction n with
  | zero => simp [Rijndael.words]
  | succ n ih => simp only [Rijndael.words, List.length_append, ih, List.length_singleton]

theorem words_prefix (key : Key) (n k : ℕ) : Rijndael.words key n <+: Rijndael.words key (n + k) := by
  induction k with
  | zero => exact List.prefix_rfl
  | succ k ih => exact ih.trans (List.prefix_append _ _)

theorem getD_words (key : Key) (hi : i < n + 8) (k : ℕ) :
    (Rijndael.words key (n + k)).getD i 0 = (Rijndael.words key n).getD i 0 := by
  obtain ⟨l, hl⟩ := words_prefix key n k
  rw [← hl, List.getD_append _ _ _ _ (by simpa using hi)]

theorem xorWord_left_injective (v : Word) : Function.Injective (Rijndael.xorWord v) := by
  intro x y h
  apply Rijndael.xorWord_injective v
  funext r
  simpa only [Rijndael.xorWord, BitVec.xor_comm] using congrFun h r

theorem getD_map_toWord (l : List (BitVec 32)) (i : ℕ) : toWord (l.getD i 0) = (l.map toWord).getD i 0 := by
  have hzero : toWord 0 = 0 := by decide
  exact (List.getD_map l 0 toWord).symm.trans (by rw [hzero])

/-- The words agree as long as the rotated words do not tell the rotations apart. -/
theorem map_flatKeys (hn : n ≤ 52) :
    (flatKeys key n).map toWord = Rijndael.words (toKey key) n ↔
      ∀ i < n, i % 8 = 0 → RotatesAlike ((Rijndael.words (toKey key) i).getD (i + 7) 0) := by
  induction n with
  | zero =>
    refine ⟨fun _ i hi => absurd hi (Nat.not_lt_zero i), fun _ => ?_⟩
    rw [flatKeys, Rijndael.words, List.map_ofFn]
    rfl
  | succ n ih =>
    have hstep : (flatKeys key n).map toWord = Rijndael.words (toKey key) n →
        ((flatKeys key (n + 1)).map toWord = Rijndael.words (toKey key) (n + 1) ↔
          (n % 8 = 0 → RotatesAlike ((Rijndael.words (toKey key) n).getD (n + 7) 0))) := by
      intro heq
      have hlast := toWord_keyTemp (show 0 < n + 8 by omega) (by omega) ((flatKeys key n).getD (n + 7) 0)
      rw [getD_map_toWord, heq, Nat.add_mod_right] at hlast
      rw [flatKeys, Rijndael.words, List.map_append, heq, List.append_cancel_left_eq, List.map_singleton,
        List.singleton_inj, toWord_xor, getD_map_toWord, heq, (xorWord_left_injective _).eq_iff, hlast]
    constructor
    · intro h i hi
      have heq : (flatKeys key n).map toWord = Rijndael.words (toKey key) n := by
        rw [flatKeys, Rijndael.words, List.map_append] at h
        exact (List.append_inj h (by simp)).1
      rcases Nat.lt_succ_iff_lt_or_eq.mp hi with hi' | rfl
      · exact (ih (by omega)).mp heq i hi'
      · exact (hstep heq).mp h
    · intro h
      have heq := (ih (by omega)).mpr fun i hi => h i (by omega)
      exact (hstep heq).mpr (h n (by omega))

theorem roundKeys_iff : (∀ k < 15, toState (aesKeyExpansion key k) = Rijndael.roundKey (toKey key) k) ↔
    (flatKeys key 52).map toWord = Rijndael.words (toKey key) 52 := by
  constructor
  · intro h
    apply List.ext_getElem
    · simp
    · intro i hi hi'
      have hlt : i < 60 := by simpa using hi
      have hk := congrFun (h (i / 4) (by omega)) ⟨i % 4, Nat.mod_lt _ (by decide)⟩
      simp only [toState, aesKeyExpansion, Rijndael.roundKey, Nat.div_add_mod, getD_map_toWord] at hk
      rwa [List.getD_eq_getElem _ _ hi, List.getD_eq_getElem _ _ hi'] at hk
  · intro h k _
    funext c
    simp only [toState, aesKeyExpansion, Rijndael.roundKey, getD_map_toWord, h]

theorem roundKeys_standard : (∀ k < 15, toState (aesKeyExpansion key k) = Rijndael.roundKey (toKey key) k) ↔
    ∀ j < 7, RotatesAlike ((Rijndael.words (toKey key) 52).getD (8 * j + 7) 0) := by
  rw [roundKeys_iff, map_flatKeys le_rfl]
  have hword : ∀ i < 52, (Rijndael.words (toKey key) 52).getD (i + 7) 0 =
      (Rijndael.words (toKey key) i).getD (i + 7) 0 := by
    intro i hi
    obtain ⟨k, hk⟩ := Nat.exists_eq_add_of_le hi.le
    rw [hk]
    exact getD_words _ (by omega) k
  constructor
  · intro h j hj
    rw [hword _ (by omega)]
    exact h (8 * j) (by omega) (Nat.mul_mod_right 8 j)
  · intro h i hi hmod
    rw [← hword i hi]
    have := h (i / 8) (by omega)
    rwa [Nat.mul_div_cancel' (Nat.dvd_of_mod_eq_zero hmod)] at this

/-- The cipher, its round keys and its rounds are those of the standard exactly when, in the key
schedule of the standard, no word that is to be rotated tells the two rotations apart. -/
theorem aesBlock_standard (key : Bits256) (block : Bits128) :
    ((∀ k < 15, toState (aesKeyExpansion key k) = Rijndael.roundKey (toKey key) k) ∧
      (∀ round_keys, toState (aesBlockWith round_keys block) =
        Rijndael.encryptWith (fun k => toState (round_keys k)) (toState block)) ∧
      toState (aesBlock key block) = Rijndael.encrypt (toKey key) (toState block)) ↔
    ∀ j < 7, RotatesAlike ((Rijndael.words (toKey key) 52).getD (8 * j + 7) 0) := by
  rw [← roundKeys_standard]
  refine ⟨And.left, fun hkeys => ⟨hkeys, fun _ => toState_aesBlockWith _ _, ?_⟩⟩
  rw [aesBlock, toState_aesBlockWith, Rijndael.encrypt]
  exact Rijndael.encryptWith_congr hkeys _

end

def countingKey : Bits256 :=
  ![0x03020100, 0x07060504, 0x0b0a0908, 0x0f0e0d0c, 0x13121110, 0x17161514, 0x1b1a1918, 0x1f1e1d1c]

theorem countingKey_roundKeys :
    ¬∀ k < 15, toState (aesKeyExpansion countingKey k) = Rijndael.roundKey (toKey countingKey) k := by
  intro h
  have hword := roundKeys_standard.mp h 0 (by decide)
  rw [show (Rijndael.words (toKey countingKey) 52).getD (8 * 0 + 7) 0 = toKey countingKey 7 from
    getD_words _ (by decide) 52] at hword
  exact absurd hword (by decide)

end SomeOs.Random

import SomeOs.Random.Aes

/-! # The blocks of the generator

A block is the encrypted counter. `advanceCounter` adds in 32 bits before it widens the sum, so
there is never a carry for the second word.
-/
namespace SomeOs.Random

/-- The loop of `advanceCounter` over the last words. -/
def advanceWords : ℕ → BitVec 32 → Bits128 → Bits128
  | 0, _, counter => counter
  | left + 1, carry, counter =>
    if carry ≠ 0 then
      let i := Fin.ofNat 4 (3 - left)
      -- the sum of two words of 32 bits, and only then of 64 bits
      let next : BitVec 64 := (carry + counter i).setWidth 64
      advanceWords left ((next >>> 32).setWidth 32) (Function.update counter i (next.setWidth 32))
    else counter

def advanceCounter (counter : Bits128) : Bits128 := advanceWords 4 1 counter

structure Generator where
  key : Bits256
  counter : Bits128

def randomBlock (g : Generator) : Bits128 × Generator :=
  (aesBlock g.key g.counter, { g with counter := advanceCounter g.counter })

/-- What consecutive calls of `randomBlock` give. -/
def randomBlocks : ℕ → Generator → List Bits128
  | 0, _ => []
  | n + 1, g => (randomBlock g).1 :: randomBlocks n (randomBlock g).2

section
variable {g : Generator} {n : ℕ}

theorem setWidth_shiftRight_word (v : BitVec 32) : (v.setWidth 64 >>> 32).setWidth 32 = 0 := by
  apply BitVec.eq_of_getLsbD_eq
  intro i hi
  simp

theorem advanceCounter_eq (counter : Bits128) :
    advanceCounter counter = Function.update counter 0 (counter 0 + 1) := by
  rw [advanceCounter, advanceWords, if_pos (by decide)]
  simp only [setWidth_shiftRight_word]
  rw [advanceWords, if_neg (by simp), BitVec.setWidth_setWidth_of_le _ (by decide), BitVec.setWidth_eq, BitVec.add_comm]
  rfl

theorem iterate_advanceCounter (counter : Bits128) (i : ℕ) :
    advanceCounter^[i] counter = Function.update counter 0 (counter 0 + BitVec.ofNat 32 i) := by
  induction i with
  | zero => simp
  | succ i ih =>
    rw [Function.iterate_succ_apply', ih, advanceCounter_eq, Function.update_self, Function.update_idem, BitVec.add_assoc,
      BitVec.ofNat_add]
    rfl

theorem iterate_advanceCounter_inj (counter : Bits128) (i j : ℕ) :
    advanceCounter^[i] counter = advanceCounter^[j] counter ↔ i % 2 ^ 32 = j % 2 ^ 32 := by
  rw [iterate_advanceCounter, iterate_advanceCounter]
  constructor
  · intro h
    have hword := congrFun h 0
    rw [Function.update_self, Function.update_self, BitVec.add_right_inj] at hword
    exact congrArg BitVec.toNat hword
  · intro h
    rw [show BitVec.ofNat 32 i = BitVec.ofNat 32 j from BitVec.eq_of_toNat_eq h]

theorem counters_distinct {counter : Bits128} (hn : n ≤ 2 ^ 32) :
    Set.InjOn (fun i => advanceCounter^[i] counter) (Set.Iio n) := by
  intro i hi j hj h
  have hmod := (iterate_advanceCounter_inj _ _ _).mp h
  rwa [Nat.mod_eq_of_lt (hn.trans_lt' hi), Nat.mod_eq_of_lt (hn.trans_lt' hj)] at hmod

theorem randomBlocks_eq_map : randomBlocks n g =
    (List.range n).map fun i => aesBlock g.key (advanceCounter^[i] g.counter) := by
  induction n generalizing g with
  | zero => rfl
  | succ n ih =>
    rw [randomBlocks, ih, List.range_succ_eq_map, List.map_cons, List.map_map]
    rfl

theorem randomBlocks_nodup_iff : (randomBlocks n g).Nodup ↔ n ≤ 2 ^ 32 := by
  rw [randomBlocks_eq_map]
  constructor
  · intro h
    by_contra hn
    have hinj := List.inj_on_of_nodup_map h (List.mem_range.mpr (show 0 < n by omega))
      (List.mem_range.mpr (not_le.mp hn)) (congrArg _ ((iterate_advanceCounter_inj _ _ _).mpr rfl))
    exact absurd hinj (by decide)
  · intro hn
    refine List.Nodup.map_on (fun i hi j hj h => ?_) List.nodup_range
    exact counters_distinct hn (List.mem_range.mp hi) (List.mem_range.mp hj) (aesBlock_injective _ h)

/-- The cipher never maps two counters to one block, and still the outputs under one key are
pairwise different only up to `2 ^ 32` of them. -/
theorem randomBlock_distinct (key : Bits256) (counter : Bits128) (n : ℕ) :
    (Function.Injective (aesBlock key) ∧ Set.InjOn (fun i => advanceCounter^[i] counter) (Set.Iio n) ∧
      (randomBlocks n ⟨key, counter⟩).Nodup) ↔ n ≤ 2 ^ 32 :=
  ⟨fun h => randomBlocks_nodup_iff.mp h.2.2, fun hn =>
    ⟨aesBlock_injective key, counters_distinct hn, randomBlocks_nodup_iff.mpr hn⟩⟩

end

/-- One output too many, still far below `2 ^ 128`. -/
theorem randomBlocks_repeat : 2 ^ 32 + 1 ≤ 2 ^ 128 ∧ ¬(randomBlocks (2 ^ 32 + 1) ⟨fun _ => 0, fun _ => 0⟩).Nodup :=
  ⟨by decide, fun h => absurd (randomBlocks_nodup_iff.mp h) (by decide)⟩

end SomeOs.Random

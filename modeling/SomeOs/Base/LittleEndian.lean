import SomeOs.Base.ByteStore

/-! # Numbers as bytes

A number is kept in a byte store with its lowest byte first. Reading it byte by byte, each
shifted to its place, gives the same number, and storing it byte by byte the same store.
-/
namespace SomeOs.ByteStore

def ofBytes (bs : List UInt8) : ℕ := Nat.ofDigits 256 (bs.map UInt8.toNat)

def byteAt (v k : ℕ) : UInt8 := UInt8.ofNat (v / 256 ^ k)

/-- The lowest `n` bytes of a number. -/
def intBytes (n v : ℕ) : List UInt8 := (List.range n).map (byteAt v)

/-- The bytes of a number from the byte `k` on. -/
def bytesFrom (v k n : ℕ) : List UInt8 := (List.range n).map fun j => byteAt v (k + j)

section Numbers
variable {s : Store} {a n v k : ℕ} {bs cs : List UInt8} {b : UInt8}

@[simp] theorem intBytes_length (n v : ℕ) : (intBytes n v).length = n := by simp [intBytes]

theorem intBytes_getElem? (h : k < n) : (intBytes n v)[k]? = some (byteAt v k) := by simp [intBytes, h]

theorem bytesFrom_zero (v n : ℕ) : bytesFrom v 0 n = intBytes n v := by simp [bytesFrom, intBytes]

theorem bytesFrom_succ (v k n : ℕ) : bytesFrom v k (n + 1) = byteAt v k :: bytesFrom v (k + 1) n := by
  simp [bytesFrom, List.range_succ_eq_map, Nat.add_assoc, Nat.add_comm 1]

theorem write_cons (s : Store) (a : ℕ) (b : UInt8) (bs : List UInt8) : write s a (b :: bs) =
    write (write s a [b]) (a + 1) bs := by
  rw [← List.singleton_append, write_append]
  rfl

theorem ofBytes_lt (bs : List UInt8) : ofBytes bs < 256 ^ bs.length := by
  rw [← List.length_map UInt8.toNat]
  apply Nat.ofDigits_lt_base_pow_length (by decide)
  intro x hx
  obtain ⟨b, -, rfl⟩ := List.mem_map.mp hx
  exact b.toNat_lt

theorem ofBytes_snoc (bs : List UInt8) (b : UInt8) : ofBytes (bs ++ [b]) = ofBytes bs ||| b.toNat <<< (8 * bs.length) := by
  have hlt : ofBytes bs < 2 ^ (8 * bs.length) := by
    rw [pow_mul]
    exact ofBytes_lt bs
  rw [Nat.lor_comm, ← Nat.shiftLeft_add_eq_or_of_lt hlt, Nat.shiftLeft_eq, pow_mul, ofBytes, List.map_append,
    Nat.ofDigits_append, List.length_map]
  simp only [List.map_cons, List.map_nil, Nat.ofDigits_singleton]
  rw [Nat.add_comm, Nat.mul_comm]
  rfl

theorem ofBytes_inj (hlen : bs.length = cs.length) (h : ofBytes bs = ofBytes cs) : bs = cs := by
  have hsmall : ∀ {l : List UInt8}, ∀ x ∈ l.map UInt8.toNat, x < 256 := by
    intro l x hx
    obtain ⟨b, -, rfl⟩ := List.mem_map.mp hx
    exact b.toNat_lt
  have hdigits := Nat.ofDigits_inj_of_len_eq (by decide) (by simpa using hlen) hsmall hsmall h
  exact List.map_injective_iff.mpr (fun _ _ => UInt8.toNat_inj.mp) hdigits

theorem intBytes_succ (n v : ℕ) : intBytes (n + 1) v = byteAt v 0 :: intBytes n (v / 256) := by
  simp only [intBytes, List.range_succ_eq_map, List.map_cons, List.map_map]
  congr 1
  apply List.map_congr_left
  intro k _
  simp only [Function.comp_apply, byteAt, Nat.div_div_eq_div_mul, pow_succ', Nat.succ_eq_add_one]

theorem ofBytes_intBytes (n v : ℕ) : ofBytes (intBytes n v) = v % 256 ^ n := by
  induction n generalizing v with
  | zero => rw [pow_zero, Nat.mod_one]; rfl
  | succ n ih =>
    have hrest := ih (v / 256)
    unfold ofBytes at hrest ⊢
    rw [intBytes_succ, List.map_cons, Nat.ofDigits_cons, hrest, pow_succ', Nat.mod_mul]
    simp [byteAt]

theorem intBytes_ofBytes (bs : List UInt8) : intBytes bs.length (ofBytes bs) = bs := by
  apply ofBytes_inj (intBytes_length _ _)
  rw [ofBytes_intBytes]
  exact Nat.mod_eq_of_lt (ofBytes_lt bs)

theorem byteAt_shift (v k : ℕ) : byteAt ((v >>> (8 * k)) &&& 0xff) 0 = byteAt v k := by
  have hand : (v >>> (8 * k)) &&& 0xff = v / 256 ^ k % 256 := by
    rw [Nat.shiftRight_eq_div_pow, pow_mul]
    exact Nat.and_two_pow_sub_one_eq_mod _ 8
  rw [byteAt, hand, pow_zero, Nat.div_one, byteAt]
  apply UInt8.toNat_inj.mp
  simp

theorem write_intBytes_inside (h : k < n) : write s a (intBytes n v) (a + k) = byteAt v k :=
  write_inside (intBytes_getElem? h)

theorem write_intBytes_outside {x : ℕ} (h : x < a ∨ a + n ≤ x) : write s a (intBytes n v) x = s x :=
  write_outside (by rwa [intBytes_length])

theorem byteAt_pow (k j : ℕ) : byteAt (256 ^ k) j = if j = k then 1 else 0 := by
  unfold byteAt
  split_ifs with h
  · subst h
    rw [Nat.div_self (by positivity)]
    rfl
  · rcases Nat.lt_or_gt_of_ne h with h | h
    · obtain ⟨d, rfl⟩ := Nat.exists_eq_add_of_lt h
      rw [show j + d + 1 = j + (d + 1) by omega, pow_add, Nat.mul_div_cancel_left _ (by positivity), pow_succ]
      apply UInt8.toNat_inj.mp
      simp
    · rw [Nat.div_eq_of_lt (Nat.pow_lt_pow_right (by decide) h)]
      rfl

theorem byteAt_zero (j : ℕ) : byteAt 0 j = 0 := by
  rw [byteAt, Nat.zero_div]
  rfl

end Numbers

end SomeOs.ByteStore

/-! # Arrays of numbers of 64 bits

An array is kept as the bytes of its elements one after the other, the lowest byte of each first.
-/
namespace SomeOs.WordArray
open ByteStore

def arrayBytes {n : ℕ} (v : Fin n → BitVec 64) : List UInt8 := (List.ofFn v).flatMap fun w => intBytes 8 w.toNat

def ofArrayBytes {n : ℕ} (bs : List UInt8) : Fin n → BitVec 64 :=
  fun i => BitVec.ofNat 64 (ofBytes ((bs.drop (i * 8)).take 8))

theorem take_drop_flatMap {α : Type*} {f : α → List UInt8} {k : ℕ} (hf : ∀ a, (f a).length = k) {l : List α} {i : ℕ}
    (hi : i < l.length) : ((l.flatMap f).drop (i * k)).take k = f l[i] := by
  induction l generalizing i with
  | nil => exact absurd hi (Nat.not_lt_zero i)
  | cons a l ih =>
    rw [List.flatMap_cons]
    cases i with
    | zero => rw [Nat.zero_mul, List.drop_zero, List.take_left' (hf a)]; rfl
    | succ i =>
      rw [Nat.succ_mul, Nat.add_comm, ← List.drop_drop, List.drop_left' (hf a)]
      exact ih (Nat.lt_of_succ_lt_succ hi)

@[simp] theorem arrayBytes_length {n : ℕ} (v : Fin n → BitVec 64) : (arrayBytes v).length = n * 8 := by
  unfold arrayBytes
  rw [List.length_flatMap, List.map_congr_left (fun w _ => intBytes_length 8 w.toNat), List.map_const', List.sum_replicate,
    List.length_ofFn, smul_eq_mul]

theorem ofArrayBytes_arrayBytes {n : ℕ} (v : Fin n → BitVec 64) : ofArrayBytes (arrayBytes v) = v := by
  funext i
  have hi : i.val < (List.ofFn v).length := by rw [List.length_ofFn]; exact i.isLt
  unfold ofArrayBytes arrayBytes
  rw [take_drop_flatMap (fun w => intBytes_length 8 w.toNat) hi, ofBytes_intBytes, List.getElem_ofFn]
  apply BitVec.eq_of_toNat_eq
  rw [BitVec.toNat_ofNat]
  exact (Nat.mod_mod _ _).trans (Nat.mod_eq_of_lt (v i).isLt)

end SomeOs.WordArray

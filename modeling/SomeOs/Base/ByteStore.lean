import Mathlib

/-! # Byte-addressed stores

A store maps every address to a byte. Ranges are read and written as lists of
bytes, and little-endian words are packed into four bytes each.
-/
namespace SomeOs.ByteStore

abbrev Store := ℕ → UInt8

def read (s : Store) (a n : ℕ) : List UInt8 := (List.range n).map (fun i => s (a + i))

def write (s : Store) (a : ℕ) (bs : List UInt8) : Store :=
  fun x => if a ≤ x then (bs[x - a]?).getD (s x) else s x

def readWord (s : Store) (a : ℕ) : ℕ :=
  (s a).toNat + 256 * ((s (a + 1)).toNat + 256 * ((s (a + 2)).toNat + 256 * (s (a + 3)).toNat))

def wordBytes (v : ℕ) : List UInt8 :=
  [UInt8.ofNat v, UInt8.ofNat (v / 2 ^ 8), UInt8.ofNat (v / 2 ^ 16), UInt8.ofNat (v / 2 ^ 24)]

def readWords (s : Store) (a n : ℕ) : List ℕ := (List.range n).map (fun i => readWord s (a + 4 * i))

def wordsBytes (ws : List ℕ) : List UInt8 := ws.flatMap wordBytes

def readLong (s : Store) (a : ℕ) : ℕ := readWord s a + 2 ^ 32 * readWord s (a + 4)

def longBytes (v : ℕ) : List UInt8 := wordBytes (v % 2 ^ 32) ++ wordBytes (v / 2 ^ 32)

def memmove (s : Store) (dst src n : ℕ) : Store := write s dst (read s src n)

section Read
variable {s t : Store} {a b m n : ℕ}

@[simp] theorem read_length : (read s a n).length = n := by simp [read]

theorem read_getElem? {i : ℕ} (h : i < n) : (read s a n)[i]? = some (s (a + i)) := by
  simp [read, h]

theorem read_congr (h : ∀ i < n, s (a + i) = t (b + i)) : read s a n = read t b n := by
  unfold read
  apply List.map_congr_left
  intro i hi
  exact h i (List.mem_range.mp hi)

theorem read_add : read s a (m + n) = read s a m ++ read s (a + m) n := by
  simp only [read, List.range_add, List.map_append, List.map_map]
  congr 1
  apply List.map_congr_left
  intro i _
  simp [Nat.add_assoc]

theorem read_drop (s : Store) (a n i : ℕ) : (read s a n).drop i = read s (a + i) (n - i) := by
  by_cases hi : i ≤ n
  · obtain ⟨m, rfl⟩ := Nat.exists_eq_add_of_le hi
    rw [read_add, List.drop_append_of_le_length (by simp), List.drop_of_length_le (by simp),
      List.nil_append, Nat.add_sub_cancel_left]
  · rw [List.drop_of_length_le (by simp; omega), Nat.sub_eq_zero_of_le (by omega)]
    rfl

end Read

section Write
variable {s : Store} {a x : ℕ} {bs cs : List UInt8}

theorem write_outside (h : x < a ∨ a + bs.length ≤ x) : write s a bs x = s x := by
  unfold write
  split_ifs with hle
  · rw [List.getElem?_eq_none (by omega)]
    rfl
  · rfl

theorem write_inside {i : ℕ} {b : UInt8} (h : bs[i]? = some b) : write s a bs (a + i) = b := by
  have hsub : a + i - a = i := by omega
  simp [write, hsub, h]

@[simp] theorem write_nil : write s a [] = s := by
  funext x
  exact write_outside (by simp; omega)

theorem write_append : write s a (bs ++ cs) = write (write s a bs) (a + bs.length) cs := by
  funext x
  by_cases h1 : x < a
  · rw [write_outside (Or.inl h1), write_outside (Or.inl (by omega)), write_outside (Or.inl h1)]
  · by_cases h2 : x < a + bs.length
    · obtain ⟨i, rfl⟩ := Nat.exists_eq_add_of_le (not_lt.mp h1)
      have hi : i < bs.length := by omega
      rw [write_outside (Or.inl h2), write_inside (List.getElem?_eq_getElem hi)]
      exact write_inside (by rw [List.getElem?_append_left hi, List.getElem?_eq_getElem hi])
    · by_cases h3 : x < a + bs.length + cs.length
      · obtain ⟨i, rfl⟩ := Nat.exists_eq_add_of_le (not_lt.mp h2)
        have hi : i < cs.length := by omega
        rw [write_inside (List.getElem?_eq_getElem hi), Nat.add_assoc]
        refine write_inside ?_
        rw [List.getElem?_append_right (by omega), Nat.add_sub_cancel_left, List.getElem?_eq_getElem hi]
      · rw [write_outside (Or.inr (by simp; omega)), write_outside (Or.inr (by omega)),
          write_outside (Or.inr (by omega))]

theorem write_comm {b : ℕ} (h : a + bs.length ≤ b) : write (write s a bs) b cs = write (write s b cs) a bs := by
  funext x
  by_cases hb : x < b
  · rw [write_outside (.inl hb)]
    unfold write
    rw [if_neg (not_le.mpr hb)]
  · have hbs : ∀ t : Store, write t a bs x = t x := fun t => write_outside (.inr (by omega))
    rw [hbs]
    change (if b ≤ x then (cs[x - b]?).getD (write s a bs x) else write s a bs x) = write s b cs x
    rw [hbs]
    rfl

theorem write_take_below {m k n : ℕ} (hm : m = n - a) (hx : x < n) :
    write s a (bs.take (m + k)) x = write s a (bs.take m) x := by
  unfold write
  split_ifs with hle
  · rw [List.getElem?_take_of_lt (by omega), List.getElem?_take_of_lt (by omega)]
  · rfl

theorem write_take_above {m k n : ℕ} (hm : m = n - a) (hx : n ≤ x) :
    write s a (bs.take (m + k)) x =
      write (fun y => s (n + y)) (a - n) ((bs.drop m).take k) (x - n) := by
  have hxn : n + (x - n) = x := by omega
  unfold write
  by_cases hle : a ≤ x
  · have hidx : m + (x - n - (a - n)) = x - a := by omega
    simp only [if_pos hle, if_pos (show a - n ≤ x - n by omega), hxn]
    by_cases hk : x - a < m + k
    · rw [List.getElem?_take_of_lt hk, List.getElem?_take_of_lt (by omega), List.getElem?_drop, hidx]
    · rw [List.getElem?_eq_none (by simp; omega), List.getElem?_eq_none (by simp; omega)]
  · simp only [if_neg hle, if_neg (show ¬ a - n ≤ x - n by omega), hxn]

end Write

section Words
variable {s t : Store} {a n : ℕ}

theorem readWord_lt : readWord s a < 2 ^ 32 := by
  have h0 := (s a).toNat_lt
  have h1 := (s (a + 1)).toNat_lt
  have h2 := (s (a + 2)).toNat_lt
  have h3 := (s (a + 3)).toNat_lt
  unfold readWord
  omega

@[simp] theorem wordBytes_length (v : ℕ) : (wordBytes v).length = 4 := rfl

@[simp] theorem wordsBytes_length (ws : List ℕ) : (wordsBytes ws).length = 4 * ws.length := by
  induction ws with
  | nil => rfl
  | cons w ws ih =>
    simp only [wordsBytes, List.flatMap_cons, List.length_append, List.length_cons] at ih ⊢
    rw [ih, wordBytes_length]
    omega

@[simp] theorem readWords_length : (readWords s a n).length = n := by simp [readWords]

theorem readWords_lt {w : ℕ} (h : w ∈ readWords s a n) : w < 2 ^ 32 := by
  obtain ⟨i, _, rfl⟩ := List.mem_map.mp h
  exact readWord_lt

theorem readWord_congr (h : ∀ i < 4, s (a + i) = t (a + i)) : readWord s a = readWord t a := by
  have h0 := h 0 (by omega)
  rw [Nat.add_zero] at h0
  simp only [readWord, h0, h 1 (by omega), h 2 (by omega), h 3 (by omega)]

theorem readWords_congr (h : ∀ i < 4 * n, s (a + i) = t (a + i)) : readWords s a n = readWords t a n := by
  unfold readWords
  apply List.map_congr_left
  intro i hi
  have hi := List.mem_range.mp hi
  apply readWord_congr
  intro j hj
  rw [Nat.add_assoc]
  exact h (4 * i + j) (by omega)

theorem readWords_succ : readWords s a (n + 1) = readWord s a :: readWords s (a + 4) n := by
  simp only [readWords, List.range_succ_eq_map, List.map_cons, List.map_map, Nat.mul_zero, Nat.add_zero]
  congr 1
  apply List.map_congr_left
  intro i _
  have : a + 4 * (i + 1) = a + 4 + 4 * i := by omega
  simp [this]

theorem readWord_write {w : ℕ} (hw : w < 2 ^ 32) : readWord (write s a (wordBytes w)) a = w := by
  have h0 : write s a (wordBytes w) a = UInt8.ofNat w := write_inside (i := 0) rfl
  have h1 : write s a (wordBytes w) (a + 1) = UInt8.ofNat (w / 2 ^ 8) := write_inside rfl
  have h2 : write s a (wordBytes w) (a + 2) = UInt8.ofNat (w / 2 ^ 16) := write_inside rfl
  have h3 : write s a (wordBytes w) (a + 3) = UInt8.ofNat (w / 2 ^ 24) := write_inside rfl
  simp only [readWord, h0, h1, h2, h3, UInt8.toNat_ofNat']
  omega

theorem readWords_write {ws : List ℕ} (hw : ∀ w ∈ ws, w < 2 ^ 32) :
    readWords (write s a (wordsBytes ws)) a ws.length = ws := by
  induction ws generalizing s a with
  | nil => rfl
  | cons w ws ih =>
    have hsplit : wordsBytes (w :: ws) = wordBytes w ++ wordsBytes ws := rfl
    rw [hsplit, write_append, List.length_cons, readWords_succ, wordBytes_length,
      ih (fun v hv => hw v (List.mem_cons_of_mem _ hv))]
    congr 1
    refine (readWord_congr ?_).trans (readWord_write (s := s) (hw w List.mem_cons_self))
    intro i hi
    exact write_outside (Or.inl (by omega))

@[simp] theorem longBytes_length (v : ℕ) : (longBytes v).length = 8 := rfl

theorem readLong_write {v : ℕ} (hv : v < 2 ^ 64) : readLong (write s a (longBytes v)) a = v := by
  unfold readLong longBytes
  rw [write_append, wordBytes_length, readWord_write (by omega)]
  have hlow : readWord (write (write s a (wordBytes (v % 2 ^ 32))) (a + 4) (wordBytes (v / 2 ^ 32))) a =
      v % 2 ^ 32 := by
    refine (readWord_congr fun i hi => ?_).trans (readWord_write (s := s) (by omega))
    exact write_outside (Or.inl (by omega))
  rw [hlow]
  omega

theorem memmove_inside {dst src i : ℕ} (hi : i < n) : memmove s dst src n (dst + i) = s (src + i) :=
  write_inside (read_getElem? hi)

theorem memmove_outside {dst src x : ℕ} (h : x < dst ∨ dst + n ≤ x) : memmove s dst src n x = s x :=
  write_outside (by rwa [read_length])

end Words

end SomeOs.ByteStore

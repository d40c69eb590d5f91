import SomeOs.Base.LittleEndian

/-! # Memory operations

Memory is set and moved in words of eight bytes where the pointers are aligned, and byte by byte
before and after them. A move goes up when the destination is below the source and down otherwise.
-/
namespace SomeOs.Libc
open ByteStore

structure MoveState where
  mem : Store
  dest : ℕ
  src : ℕ
  left : ℕ

def MoveState.andThen (r : MoveState) (loop : ℕ → Store → ℕ → ℕ → MoveState) : MoveState := loop r.left r.mem r.dest r.src

/-- `*dest = *src` for bytes. -/
def copyByte (s : Store) (dest src : ℕ) : Store := write s dest [s src]

/-- `*dest = *src` for numbers of 64 bits. -/
def copyLong (s : Store) (dest src : ℕ) : Store := write s dest (intBytes 8 (ofBytes (read s src 8)))

def misaligned (dest src : ℕ) : Bool := dest % 8 != 0 || src % 8 != 0

def bytesUp (while_ : ℕ → ℕ → Bool) : ℕ → Store → ℕ → ℕ → MoveState
  | 0, s, dest, src => ⟨s, dest, src, 0⟩
  | n + 1, s, dest, src =>
    if while_ dest src then bytesUp while_ n (copyByte s dest src) (dest + 1) (src + 1) else ⟨s, dest, src, n + 1⟩

def longsUp (n : ℕ) (s : Store) (dest src : ℕ) : MoveState :=
  if 8 < n then longsUp (n - 8) (copyLong s dest src) (dest + 8) (src + 8) else ⟨s, dest, src, n⟩
termination_by n

def bytesDown (while_ : ℕ → ℕ → Bool) : ℕ → Store → ℕ → ℕ → MoveState
  | 0, s, dest, src => ⟨s, dest, src, 0⟩
  | n + 1, s, dest, src =>
    if while_ dest src then bytesDown while_ n (copyByte s (dest - 1) (src - 1)) (dest - 1) (src - 1)
    else ⟨s, dest, src, n + 1⟩

def longsDown (n : ℕ) (s : Store) (dest src : ℕ) : MoveState :=
  if 8 < n then longsDown (n - 8) (copyLong s (dest - 8) (src - 8)) (dest - 8) (src - 8) else ⟨s, dest, src, n⟩
termination_by n

def memmove (s : Store) (dest src n : ℕ) : Store :=
  if dest < src then
    (((bytesUp misaligned n s dest src).andThen longsUp).andThen (bytesUp fun _ _ => true)).mem
  else
    (((bytesDown misaligned n s (dest + n) (src + n)).andThen longsDown).andThen (bytesDown fun _ _ => true)).mem

def memcpy (s : Store) (dest src n : ℕ) : Store := memmove s dest src n

/-- The byte that is stored for an `int`. -/
def lowByte (byte : ℤ) : UInt8 := UInt8.ofNat (byte % 256).toNat

def bigByte (byte : ℤ) : ℕ → ℕ
  | 0 => 0
  | i + 1 => bigByte byte i ||| ((byte % 2 ^ 64).toNat &&& 0xff) <<< (8 * i)

def setBytes (while_ : ℕ → Bool) (byte : ℤ) : ℕ → Store → ℕ → Store × ℕ × ℕ
  | 0, s, mem => (s, mem, 0)
  | n + 1, s, mem =>
    if while_ mem then setBytes while_ byte n (write s mem [lowByte byte]) (mem + 1) else (s, mem, n + 1)

def setLongs (big : ℕ) (n : ℕ) (s : Store) (mem : ℕ) : Store × ℕ × ℕ :=
  if 8 < n then setLongs big (n - 8) (write s mem (intBytes 8 big)) (mem + 8) else (s, mem, n)
termination_by n

def memset (s : Store) (mem : ℕ) (byte : ℤ) (n : ℕ) : Store :=
  let r := setBytes (fun mem => mem % 8 != 0) byte n s mem
  let r := setLongs (bigByte byte 8) r.2.2 r.1 r.2.1
  (setBytes (fun _ => true) byte r.2.2 r.1 r.2.1).1

section
variable {s : Store} {dest src n k : ℕ} {byte : ℤ} {r : MoveState}

theorem copyLong_eq (s : Store) (dest src : ℕ) : copyLong s dest src = write s dest (read s src 8) := by
  have h := intBytes_ofBytes (read s src 8)
  rw [read_length] at h
  rw [copyLong, h]

/-- What has been moved upwards after `k` bytes of `n`. -/
def upTo (s : Store) (dest src n k : ℕ) : MoveState := ⟨write s dest (ByteStore.read s src k), dest + k, src + k, n - k⟩

/-- What has been moved downwards after `k` bytes of `n`. -/
def downTo (s : Store) (dest src n k : ℕ) : MoveState :=
  ⟨write s (dest + (n - k)) (ByteStore.read s (src + (n - k)) k), dest + (n - k), src + (n - k), n - k⟩

theorem write_up (hlt : dest < src) (k m : ℕ) :
    write (upTo s dest src n k).mem (dest + k) (ByteStore.read (upTo s dest src n k).mem (src + k) m) =
      (upTo s dest src n (k + m)).mem := by
  have hread : ByteStore.read (write s dest (ByteStore.read s src k)) (src + k) m = ByteStore.read s (src + k) m :=
    read_congr fun i _ => write_outside (.inr (by rw [read_length]; omega))
  simp only [upTo]
  rw [hread, read_add, write_append, read_length]

theorem write_down (hle : src ≤ dest) {k m : ℕ} (hkm : k + m ≤ n) :
    write (downTo s dest src n k).mem (dest + (n - (k + m)))
      (ByteStore.read (downTo s dest src n k).mem (src + (n - (k + m))) m) = (downTo s dest src n (k + m)).mem := by
  have hread : ByteStore.read (write s (dest + (n - k)) (ByteStore.read s (src + (n - k)) k)) (src + (n - (k + m))) m =
      ByteStore.read s (src + (n - (k + m))) m :=
    read_congr fun i _ => write_outside (.inl (by omega))
  have hstart : n - k = n - (k + m) + m := by omega
  simp only [downTo]
  symm
  rw [hread, Nat.add_comm k m, read_add, write_append, read_length, write_comm (by rw [read_length]), Nat.add_comm m k,
    hstart, ← Nat.add_assoc, ← Nat.add_assoc]

theorem bytesUp_upTo (hlt : dest < src) (while_ : ℕ → ℕ → Bool) {k : ℕ} (hk : k ≤ n) :
    ∃ m, k ≤ m ∧ m ≤ n ∧
      (upTo s dest src n k).andThen (bytesUp while_) = upTo s dest src n m := by
  change ∃ m, k ≤ m ∧ m ≤ n ∧ bytesUp while_ (n - k) (upTo s dest src n k).mem (dest + k) (src + k) = upTo s dest src n m
  obtain ⟨j, hj⟩ : ∃ j, n - k = j := ⟨_, rfl⟩
  induction j generalizing k with
  | zero =>
    rw [hj]
    exact ⟨k, le_rfl, hk, by rw [upTo, hj]; rfl⟩
  | succ j ih =>
    rw [hj]
    unfold bytesUp
    split_ifs
    · obtain ⟨m, hkm, hm, heq⟩ := @ih (k + 1) (by omega) (by omega)
      refine ⟨m, by omega, hm, ?_⟩
      rw [show n - (k + 1) = j by omega, ← write_up hlt k 1] at heq
      exact heq
    · exact ⟨k, le_rfl, hk, by rw [upTo, hj]⟩

theorem longsUp_upTo (hlt : dest < src) {k : ℕ} (hk : k ≤ n) :
    ∃ m, k ≤ m ∧ m ≤ n ∧ (upTo s dest src n k).andThen longsUp = upTo s dest src n m := by
  change ∃ m, k ≤ m ∧ m ≤ n ∧ longsUp (n - k) (upTo s dest src n k).mem (dest + k) (src + k) = upTo s dest src n m
  obtain ⟨j, hj⟩ : ∃ j, n - k = j := ⟨_, rfl⟩
  induction j using Nat.strong_induction_on generalizing k with
  | h j ih =>
    unfold longsUp
    split_ifs with h8
    · obtain ⟨m, hkm, hm, heq⟩ := @ih (n - (k + 8)) (by omega) (k + 8) (by omega) rfl
      refine ⟨m, by omega, hm, ?_⟩
      rw [show n - (k + 8) = n - k - 8 by omega, ← write_up hlt k 8] at heq
      rw [copyLong_eq]
      exact heq
    · exact ⟨k, le_rfl, hk, rfl⟩

theorem bytesDown_downTo (hle : src ≤ dest) (while_ : ℕ → ℕ → Bool) {k : ℕ} (hk : k ≤ n) :
    ∃ m, k ≤ m ∧ m ≤ n ∧
      (downTo s dest src n k).andThen (bytesDown while_) = downTo s dest src n m := by
  change ∃ m, k ≤ m ∧ m ≤ n ∧
    bytesDown while_ (n - k) (downTo s dest src n k).mem (dest + (n - k)) (src + (n - k)) = downTo s dest src n m
  obtain ⟨j, hj⟩ : ∃ j, n - k = j := ⟨_, rfl⟩
  induction j generalizing k with
  | zero =>
    rw [hj]
    exact ⟨k, le_rfl, hk, by rw [downTo, hj]; rfl⟩
  | succ j ih =>
    have hj' : n - (k + 1) = j := by omega
    obtain ⟨m, hkm, hm, heq⟩ := @ih (k + 1) (by omega) hj'
    rw [hj'] at heq
    have hwrite := @write_down s dest src n hle k 1 (by omega)
    rw [hj'] at hwrite
    rw [hj]
    unfold bytesDown
    split_ifs
    · refine ⟨m, by omega, hm, ?_⟩
      rw [← hwrite] at heq
      exact heq
    · exact ⟨k, le_rfl, hk, by rw [downTo, hj]⟩

theorem longsDown_downTo (hle : src ≤ dest) {k : ℕ} (hk : k ≤ n) :
    ∃ m, k ≤ m ∧ m ≤ n ∧ (downTo s dest src n k).andThen longsDown = downTo s dest src n m := by
  change ∃ m, k ≤ m ∧ m ≤ n ∧
    longsDown (n - k) (downTo s dest src n k).mem (dest + (n - k)) (src + (n - k)) = downTo s dest src n m
  obtain ⟨j, hj⟩ : ∃ j, n - k = j := ⟨_, rfl⟩
  induction j using Nat.strong_induction_on generalizing k with
  | h j ih =>
    unfold longsDown
    split_ifs with h8
    · have hk8 : n - (k + 8) = n - k - 8 := by omega
      obtain ⟨m, hkm, hm, heq⟩ := @ih (n - (k + 8)) (by omega) (k + 8) (by omega) rfl
      have hwrite := @write_down s dest src n hle k 8 (by omega)
      refine ⟨m, by omega, hm, ?_⟩
      rw [← hwrite, hk8] at heq
      rw [copyLong_eq, Nat.add_sub_assoc h8.le, Nat.add_sub_assoc h8.le]
      exact heq
    · exact ⟨k, le_rfl, hk, rfl⟩

theorem bytesUp_left (s : Store) (dest src n : ℕ) : (bytesUp (fun _ _ => true) n s dest src).left = 0 := by
  induction n generalizing s dest src with
  | zero => rfl
  | succ n ih => exact ih _ _ _

theorem bytesDown_left (s : Store) (dest src n : ℕ) : (bytesDown (fun _ _ => true) n s dest src).left = 0 := by
  induction n generalizing s dest src with
  | zero => rfl
  | succ n ih => exact ih _ _ _

theorem memmove_eq (s : Store) (dest src n : ℕ) : memmove s dest src n = write s dest (ByteStore.read s src n) := by
  unfold memmove
  split_ifs with hlt
  · have hstart : bytesUp misaligned n s dest src = (upTo s dest src n 0).andThen (bytesUp misaligned) := by
      simp [upTo, ByteStore.read, MoveState.andThen]
    obtain ⟨k, -, hk, hhead⟩ := @bytesUp_upTo s dest src n hlt misaligned 0 (Nat.zero_le n)
    obtain ⟨m, -, hm, hlongs⟩ := @longsUp_upTo s dest src n hlt k hk
    obtain ⟨l, -, hl, htail⟩ := @bytesUp_upTo s dest src n hlt (fun _ _ => true) m hm
    have hleft : (upTo s dest src n l).left = 0 := htail ▸ bytesUp_left _ _ _ _
    obtain rfl : l = n := le_antisymm hl (Nat.sub_eq_zero_iff_le.mp hleft)
    rw [hstart, hhead, hlongs, htail]
    rfl
  · have hle := not_lt.mp hlt
    have hstart : bytesDown misaligned n s (dest + n) (src + n) = (downTo s dest src n 0).andThen (bytesDown misaligned) := by
      simp [downTo, ByteStore.read, MoveState.andThen]
    obtain ⟨k, -, hk, hhead⟩ := @bytesDown_downTo s dest src n hle misaligned 0 (Nat.zero_le n)
    obtain ⟨m, -, hm, hlongs⟩ := @longsDown_downTo s dest src n hle k hk
    obtain ⟨l, -, hl, htail⟩ := @bytesDown_downTo s dest src n hle (fun _ _ => true) m hm
    have hleft : (downTo s dest src n l).left = 0 := htail ▸ bytesDown_left _ _ _ _
    obtain rfl : l = n := le_antisymm hl (Nat.sub_eq_zero_iff_le.mp hleft)
    rw [hstart, hhead, hlongs, htail]
    simp [downTo]

theorem bigByte_eq (byte : ℤ) (i : ℕ) : bigByte byte i = ofBytes (List.replicate i (lowByte byte)) := by
  induction i with
  | zero => rfl
  | succ i ih =>
    have hbyte : ((byte % 2 ^ 64).toNat &&& 0xff) = (lowByte byte).toNat := by
      rw [show (0xff : ℕ) = 2 ^ 8 - 1 from rfl, Nat.and_two_pow_sub_one_eq_mod, lowByte, UInt8.toNat_ofNat']
      omega
    rw [bigByte, ih, hbyte, List.replicate_succ', ofBytes_snoc, List.length_replicate]

theorem setBytes_eq (while_ : ℕ → Bool) (byte : ℤ) (s : Store) (mem n : ℕ) : ∃ k ≤ n,
    setBytes while_ byte n s mem = (write s mem (List.replicate k (lowByte byte)), mem + k, n - k) := by
  induction n generalizing s mem with
  | zero => exact ⟨0, le_rfl, by rw [List.replicate_zero, write_nil]; rfl⟩
  | succ n ih =>
    unfold setBytes
    split_ifs
    · obtain ⟨k, hk, heq⟩ := ih (write s mem [lowByte byte]) (mem + 1)
      refine ⟨k + 1, Nat.succ_le_succ hk, ?_⟩
      have hsplit : write s mem (List.replicate (k + 1) (lowByte byte)) =
          write (write s mem [lowByte byte]) (mem + 1) (List.replicate k (lowByte byte)) := write_cons _ _ _ _
      rw [heq, hsplit, Nat.add_sub_add_right, show mem + 1 + k = mem + (k + 1) by omega]
    · exact ⟨0, Nat.zero_le _, by rw [List.replicate_zero, write_nil]; rfl⟩

theorem setLongs_eq (byte : ℤ) (s : Store) (mem n : ℕ) : ∃ k ≤ n,
    setLongs (bigByte byte 8) n s mem = (write s mem (List.replicate k (lowByte byte)), mem + k, n - k) := by
  induction n using Nat.strong_induction_on generalizing s mem with
  | h n ih =>
    unfold setLongs
    split_ifs with h8
    · obtain ⟨k, hk, heq⟩ := ih (n - 8) (by omega) (write s mem (intBytes 8 (bigByte byte 8))) (mem + 8)
      have hbig : intBytes 8 (bigByte byte 8) = List.replicate 8 (lowByte byte) := by
        have := intBytes_ofBytes (List.replicate 8 (lowByte byte))
        rwa [List.length_replicate, ← bigByte_eq] at this
      refine ⟨8 + k, by omega, ?_⟩
      rw [heq, hbig, List.replicate_add, write_append, List.length_replicate, show mem + 8 + k = mem + (8 + k) by omega,
        show n - 8 - k = n - (8 + k) by omega]
    · exact ⟨0, Nat.zero_le _, by rw [List.replicate_zero, write_nil]; rfl⟩

theorem setBytes_left (byte : ℤ) (s : Store) (mem n : ℕ) : (setBytes (fun _ => true) byte n s mem).2.2 = 0 := by
  induction n generalizing s mem with
  | zero => rfl
  | succ n ih => exact ih _ _

theorem memset_eq (s : Store) (mem : ℕ) (byte : ℤ) (n : ℕ) :
    memset s mem byte n = write s mem (List.replicate n (lowByte byte)) := by
  obtain ⟨k, hk, hhead⟩ := setBytes_eq (fun mem => mem % 8 != 0) byte s mem n
  obtain ⟨m, hm, hlongs⟩ := setLongs_eq byte (write s mem (List.replicate k (lowByte byte))) (mem + k) (n - k)
  obtain ⟨l, hl, htail⟩ := setBytes_eq (fun _ => true) byte
    (write (write s mem (List.replicate k (lowByte byte))) (mem + k) (List.replicate m (lowByte byte))) (mem + k + m) (n - k - m)
  have hleft := setBytes_left byte
    (write (write s mem (List.replicate k (lowByte byte))) (mem + k) (List.replicate m (lowByte byte))) (mem + k + m) (n - k - m)
  rw [htail] at hleft
  have hsum : k + (m + l) = n := by
    dsimp only at hleft
    omega
  unfold memset
  dsimp only
  rw [hhead]
  dsimp only
  rw [hlongs]
  dsimp only
  rw [htail, ← hsum, List.replicate_add, List.replicate_add, write_append, write_append, List.length_replicate,
    List.length_replicate]

/-- Moves and sets are exact, for every alignment and overlap. -/
theorem memmove_memset_exact (s : Store) (dest src n : ℕ) (byte : ℤ) :
    (∀ i < n, memmove s dest src n (dest + i) = s (src + i)) ∧
    (∀ x, x < dest ∨ dest + n ≤ x → memmove s dest src n x = s x) ∧
    (∀ i < n, memset s dest byte n (dest + i) = lowByte byte) ∧
    (∀ x, x < dest ∨ dest + n ≤ x → memset s dest byte n x = s x) ∧
    memcpy s dest src n = memmove s dest src n := by
  rw [memmove_eq, memset_eq]
  refine ⟨fun i hi => write_inside (read_getElem? hi), fun x hx => write_outside (by rwa [read_length]), fun i hi => ?_,
    fun x hx => write_outside (by rwa [List.length_replicate]), memmove_eq s dest src n⟩
  exact write_inside (by rw [List.getElem?_replicate, if_pos hi])

end

end SomeOs.Libc

import Mathlib

/-! # Decimal numerals in bytes

The digits of a number are computed from the last one on, for as many as there is room, and
put in order. Reading a numeral keeps a number of 64 bits.
-/
namespace SomeOs.Decimal

def digit (n : ℕ) : UInt8 := UInt8.ofNat (48 + n % 10)

def isDigit (c : UInt8) : Bool := 48 ≤ c && c ≤ 57

/-- The digits from the last one on, with room for `room` of them. -/
def reverseDigits : ℕ → ℕ → List UInt8
  | 0, _ => []
  | room + 1, n => digit n :: if n / 10 = 0 then [] else reverseDigits room (n / 10)

def format (room n : ℕ) : List UInt8 := (reverseDigits room n).reverse

def pushDigit (v : ℕ) (c : UInt8) : ℕ := (v * 10 + (c.toNat - 48)) % 2 ^ 64

def parse (digits : List UInt8) : ℕ := digits.foldl pushDigit 0

variable {room n : ℕ} {c : UInt8}

theorem toNat_digit : (digit n).toNat = 48 + n % 10 := by
  unfold digit
  rw [UInt8.toNat_ofNat_of_lt']
  have := Nat.mod_lt n (by decide : 0 < 10)
  simp only [UInt8.size]
  omega

theorem isDigit_digit : isDigit (digit n) := by
  have h := @toNat_digit n
  have := Nat.mod_lt n (by decide : 0 < 10)
  simp only [isDigit, Bool.and_eq_true, decide_eq_true_eq, UInt8.le_iff_toNat_le, h]
  have h57 : UInt8.toNat 57 = 57 := rfl
  exact ⟨Nat.le_add_right 48 _, by omega⟩

theorem isDigit_of_mem_format (h : c ∈ format room n) : isDigit c := by
  rw [format, List.mem_reverse] at h
  induction room generalizing n with
  | zero => cases h
  | succ room ih =>
    rcases List.mem_cons.mp h with rfl | h
    · exact isDigit_digit
    · split_ifs at h
      · cases h
      · exact ih h

theorem format_ne_nil : format (room + 1) n ≠ [] := by
  simp [format, reverseDigits]

theorem format_succ : format (room + 1) n = (if n / 10 = 0 then [] else format room (n / 10)) ++ [digit n] := by
  unfold format
  rw [reverseDigits, List.reverse_cons]
  split_ifs <;> rfl

/-- Reading undoes writing. -/
theorem parse_format (h : n < 10 ^ (room + 1)) (hn : n < 2 ^ 64) : parse (format (room + 1) n) = n := by
  induction room generalizing n with
  | zero =>
    have hzero : n / 10 = 0 := by
      rw [zero_add, pow_one] at h
      omega
    rw [format_succ, if_pos hzero]
    simp only [parse, List.nil_append, List.foldl_cons, List.foldl_nil, pushDigit, toNat_digit]
    omega
  | succ room ih =>
    rw [format_succ, parse, List.foldl_append]
    simp only [List.foldl_cons, List.foldl_nil, pushDigit, toNat_digit]
    split_ifs with hzero
    · simp only [List.foldl_nil]
      omega
    · have hdiv : n / 10 < 10 ^ (room + 1) := by
        rw [pow_succ] at h
        omega
      have hrec := ih hdiv (by omega)
      rw [parse] at hrec
      rw [hrec]
      omega

end SomeOs.Decimal

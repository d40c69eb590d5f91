import Mathlib

/-! # Numerals

Digits of any base with the highest one first, and what is computed from the lowest digit on with
a carry or a borrow.
-/
namespace SomeOs.Numeral

def value (b : ℕ) (l : List ℕ) : ℕ := Nat.ofDigits b l.reverse

section
variable {b : ℕ} {l x y : List ℕ} {d e : ℕ}

@[simp] theorem value_nil : value b [] = 0 := rfl

theorem value_append (x y : List ℕ) : value b (x ++ y) = value b x * b ^ y.length + value b y := by
  rw [value, List.reverse_append, Nat.ofDigits_append, List.length_reverse, value, value]
  ring

theorem value_cons (d : ℕ) (l : List ℕ) : value b (d :: l) = d * b ^ l.length + value b l := by
  rw [value, Nat.ofDigits_reverse_cons, value]
  ring

theorem value_lt (hb : 1 < b) (h : ∀ d ∈ l, d < b) : value b l < b ^ l.length := by
  have hlt := Nat.ofDigits_lt_base_pow_length hb fun d hd => h d (List.mem_reverse.mp hd)
  rwa [List.length_reverse] at hlt

theorem pow_le_value_cons (hd : d ≠ 0) (l : List ℕ) : b ^ l.length ≤ value b (d :: l) := by
  rw [value_cons]
  exact (Nat.le_mul_of_pos_left _ (Nat.pos_of_ne_zero hd)).trans (Nat.le_add_right _ _)

theorem value_dropWhile (b : ℕ) (l : List ℕ) : value b (l.dropWhile (· = 0)) = value b l := by
  induction l with
  | nil => rfl
  | cons d l ih =>
    by_cases hd : d = 0
    · rw [List.dropWhile_cons_of_pos (by simpa using hd), ih, value_cons, hd, Nat.zero_mul, Nat.zero_add]
    · rw [List.dropWhile_cons_of_neg (by simpa using hd)]

theorem value_lt_of_length_lt (hb : 1 < b) (hx : ∀ d ∈ x, d < b) (hd : d ≠ 0) (hlen : x.length ≤ l.length) :
    value b x < value b (d :: l) :=
  calc value b x < b ^ x.length := value_lt hb hx
    _ ≤ b ^ l.length := Nat.pow_le_pow_right (by omega) hlen
    _ ≤ _ := pow_le_value_cons hd l

theorem value_cons_lt (hb : 1 < b) (hx : ∀ d ∈ x, d < b) (hlen : x.length = y.length) (h : d < e) :
    value b (d :: x) < value b (e :: y) := by
  have hlt := value_lt hb hx
  rw [value_cons, value_cons, ← hlen]
  calc d * b ^ x.length + value b x < d * b ^ x.length + b ^ x.length := by omega
    _ = (d + 1) * b ^ x.length := by ring
    _ ≤ e * b ^ x.length := Nat.mul_le_mul_right _ h
    _ ≤ _ := Nat.le_add_right _ _

/-- A number below a power has no more digits than that, if it is not written with zeros in front. -/
theorem length_le_of_value_lt {n : ℕ} (hb : 1 < b) (hd : d ≠ 0) (h : value b (d :: l) < b ^ n) : (d :: l).length ≤ n :=
  (Nat.pow_lt_pow_iff_right hb).mp ((pow_le_value_cons hd l).trans_lt h)

theorem sum_getD {n : ℕ} (b : ℕ) (hlen : l.length ≤ n) :
    ∑ i ∈ Finset.range n, l.getD i 0 * b ^ i = Nat.ofDigits b l := by
  induction l generalizing n with
  | nil => simp
  | cons d l ih =>
    obtain ⟨n, rfl⟩ := Nat.exists_eq_add_one.mpr (Nat.zero_lt_of_lt hlen)
    have hih := ih (Nat.le_of_succ_le_succ hlen)
    rw [Finset.sum_range_succ', Nat.ofDigits_cons, ← hih, Finset.mul_sum]
    simp only [List.getD_cons_succ, List.getD_cons_zero, pow_zero, mul_one]
    rw [Nat.add_comm]
    congr 1
    exact Finset.sum_congr rfl fun i _ => by ring

end

/-- The lowest digits, from position `pos` on, of a sum over the positions. -/
def carryDigits (b : ℕ) (f : ℕ → ℕ) : ℕ → ℕ → ℕ → List ℕ
  | 0, _, _ => []
  | n + 1, pos, carry => (carry + f pos) % b :: carryDigits b f n (pos + 1) ((carry + f pos) / b)

def carryOut (b : ℕ) (f : ℕ → ℕ) : ℕ → ℕ → ℕ → ℕ
  | 0, _, carry => carry
  | n + 1, pos, carry => carryOut b f n (pos + 1) ((carry + f pos) / b)

/-- What has to be borrowed to take `sub` from `val`. -/
def borrowed (b val sub : ℕ) : ℕ := (sub - val + (b - 1)) / b

def borrowDigits (b : ℕ) (f g : ℕ → ℕ) : ℕ → ℕ → ℕ → List ℕ
  | 0, _, _ => []
  | n + 1, pos, carry =>
    let k := borrowed b (f pos) (carry + g pos)
    (f pos + k * b - (carry + g pos)) :: borrowDigits b f g n (pos + 1) k

def borrowOut (b : ℕ) (f g : ℕ → ℕ) : ℕ → ℕ → ℕ → ℕ
  | 0, _, carry => carry
  | n + 1, pos, carry => borrowOut b f g n (pos + 1) (borrowed b (f pos) (carry + g pos))

section
variable {b : ℕ} {f g : ℕ → ℕ} {n pos carry val sub : ℕ}

@[simp] theorem length_carryDigits : (carryDigits b f n pos carry).length = n := by
  induction n generalizing pos carry with
  | zero => rfl
  | succ n ih => rw [carryDigits, List.length_cons, ih]

@[simp] theorem length_borrowDigits : (borrowDigits b f g n pos carry).length = n := by
  induction n generalizing pos carry with
  | zero => rfl
  | succ n ih => rw [borrowDigits, List.length_cons, ih]

theorem carryDigits_lt (hb : 0 < b) : ∀ d ∈ carryDigits b f n pos carry, d < b := by
  induction n generalizing pos carry with
  | zero => exact fun d hd => absurd hd List.not_mem_nil
  | succ n ih => exact List.forall_mem_cons.mpr ⟨Nat.mod_lt _ hb, ih⟩

theorem sum_range_shift (b : ℕ) (f : ℕ → ℕ) (n pos : ℕ) : ∑ i ∈ Finset.range (n + 1), f (pos + i) * b ^ i =
    b * ∑ i ∈ Finset.range n, f (pos + 1 + i) * b ^ i + f pos := by
  rw [Finset.sum_range_succ', Finset.mul_sum, pow_zero, mul_one, add_zero]
  congr 1
  refine Finset.sum_congr rfl fun i _ => ?_
  rw [show pos + (i + 1) = pos + 1 + i by omega, pow_succ]
  ring

theorem ofDigits_carryDigits (b : ℕ) (f : ℕ → ℕ) (n pos carry : ℕ) :
    Nat.ofDigits b (carryDigits b f n pos carry) + b ^ n * carryOut b f n pos carry =
      carry + ∑ i ∈ Finset.range n, f (pos + i) * b ^ i := by
  induction n generalizing pos carry with
  | zero => simp [carryDigits, carryOut]
  | succ n ih =>
    have hih := ih (pos + 1) ((carry + f pos) / b)
    rw [carryDigits, carryOut, Nat.ofDigits_cons, sum_range_shift, pow_succ]
    calc (carry + f pos) % b + b * Nat.ofDigits b (carryDigits b f n (pos + 1) ((carry + f pos) / b)) +
          b ^ n * b * carryOut b f n (pos + 1) ((carry + f pos) / b) =
        (carry + f pos) % b + b * (Nat.ofDigits b (carryDigits b f n (pos + 1) ((carry + f pos) / b)) +
          b ^ n * carryOut b f n (pos + 1) ((carry + f pos) / b)) := by ring
      _ = b * ((carry + f pos) / b) + (carry + f pos) % b + b * ∑ i ∈ Finset.range n, f (pos + 1 + i) * b ^ i := by
        rw [hih]
        ring
      _ = _ := by
        rw [Nat.div_add_mod]
        ring

theorem ofDigits_carryDigits_of_lt (b : ℕ) (f : ℕ → ℕ) (n : ℕ) (h : ∑ i ∈ Finset.range n, f i * b ^ i < b ^ n) :
    Nat.ofDigits b (carryDigits b f n 0 0) = ∑ i ∈ Finset.range n, f i * b ^ i := by
  have hsum := ofDigits_carryDigits b f n 0 0
  simp only [zero_add] at hsum
  have hout : carryOut b f n 0 0 = 0 := by
    by_contra hne
    have := Nat.le_mul_of_pos_right (b ^ n) (Nat.pos_of_ne_zero hne)
    omega
  rwa [hout, Nat.mul_zero, Nat.add_zero] at hsum

theorem sub_le_borrowed (hb : 0 < b) (val sub : ℕ) : sub ≤ val + borrowed b val sub * b := by
  have hdiv := Nat.div_add_mod (sub - val + (b - 1)) b
  have hmod := Nat.mod_lt (sub - val + (b - 1)) hb
  rw [Nat.mul_comm] at hdiv
  unfold borrowed
  omega

theorem borrowed_lt (hb : 0 < b) (hval : val < b) (sub : ℕ) : val + borrowed b val sub * b - sub < b := by
  have hdiv := Nat.div_add_mod (sub - val + (b - 1)) b
  rw [Nat.mul_comm] at hdiv
  unfold borrowed
  by_cases hle : sub ≤ val
  · have hzero : (sub - val + (b - 1)) / b = 0 := Nat.div_eq_of_lt (by omega)
    rw [hzero]
    omega
  · omega

theorem borrowDigits_lt (hb : 0 < b) (hf : ∀ i, f i < b) : ∀ d ∈ borrowDigits b f g n pos carry, d < b := by
  induction n generalizing pos carry with
  | zero => exact fun d hd => absurd hd List.not_mem_nil
  | succ n ih => exact List.forall_mem_cons.mpr ⟨borrowed_lt hb (hf pos) _, ih⟩

theorem ofDigits_borrowDigits (hb : 0 < b) (f g : ℕ → ℕ) (n pos carry : ℕ) :
    Nat.ofDigits b (borrowDigits b f g n pos carry) + (carry + ∑ i ∈ Finset.range n, g (pos + i) * b ^ i) =
      ∑ i ∈ Finset.range n, f (pos + i) * b ^ i + b ^ n * borrowOut b f g n pos carry := by
  induction n generalizing pos carry with
  | zero => simp [borrowDigits, borrowOut]
  | succ n ih =>
    set k := borrowed b (f pos) (carry + g pos) with hk
    have hih := ih (pos + 1) k
    have hle := sub_le_borrowed hb (f pos) (carry + g pos)
    rw [← hk] at hle
    have hdigit : f pos + k * b - (carry + g pos) + (carry + g pos) = f pos + k * b := Nat.sub_add_cancel hle
    rw [borrowDigits, borrowOut, Nat.ofDigits_cons, sum_range_shift, sum_range_shift, pow_succ, ← hk]
    calc f pos + k * b - (carry + g pos) + b * Nat.ofDigits b (borrowDigits b f g n (pos + 1) k) +
          (carry + (b * ∑ i ∈ Finset.range n, g (pos + 1 + i) * b ^ i + g pos)) =
        f pos + k * b - (carry + g pos) + (carry + g pos) + b * (Nat.ofDigits b (borrowDigits b f g n (pos + 1) k) +
          ∑ i ∈ Finset.range n, g (pos + 1 + i) * b ^ i) := by ring
      _ = f pos + b * (Nat.ofDigits b (borrowDigits b f g n (pos + 1) k) +
          (k + ∑ i ∈ Finset.range n, g (pos + 1 + i) * b ^ i)) := by
        rw [hdigit]
        ring
      _ = _ := by
        rw [hih]
        ring

theorem ofDigits_borrowDigits_of_le (hb : 1 < b) (hf : ∀ i, f i < b) (n : ℕ)
    (h : ∑ i ∈ Finset.range n, g i * b ^ i ≤ ∑ i ∈ Finset.range n, f i * b ^ i) :
    Nat.ofDigits b (borrowDigits b f g n 0 0) + ∑ i ∈ Finset.range n, g i * b ^ i =
      ∑ i ∈ Finset.range n, f i * b ^ i := by
  have hsum := ofDigits_borrowDigits (Nat.zero_lt_of_lt hb) f g n 0 0
  have hlt := Nat.ofDigits_lt_base_pow_length hb (@borrowDigits_lt b f g n 0 0 (Nat.zero_lt_of_lt hb) hf)
  rw [length_borrowDigits] at hlt
  simp only [zero_add] at hsum
  have hout : borrowOut b f g n 0 0 = 0 := by
    by_contra hne
    have := Nat.le_mul_of_pos_right (b ^ n) (Nat.pos_of_ne_zero hne)
    omega
  rwa [hout, Nat.mul_zero, Nat.add_zero] at hsum

end

end SomeOs.Numeral

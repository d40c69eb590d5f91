import SomeOs.Base.Fuel
import SomeOs.Expr.Grammar

/-! # Operands of the evaluator

What the routines for the operators find depends on the sign of a text also when its digits are
zeros. A text that is no integer is passed on by the outer operators and refused by the others.
-/
namespace SomeOs.Expr
open Fuel

/-- An integer with the sign its text has, and how many digits it may have. -/
structure Signed where
  minus : Bool
  abs : ℕ
  width : ℕ
  deriving DecidableEq

def Signed.value (x : Signed) : ℤ := if x.minus then -(x.abs : ℤ) else x.abs

/-- The integer that arithmetic and comparisons find where they have one, of value `v`. -/
def Signed.result (op : BinOp) (x y : Signed) (v : ℤ) : Signed where
  minus := match op with
    | .mul | .div => x.minus != y.minus
    | .rem => x.minus
    | .add => decide (v < 0) || x.minus && y.minus
    | .sub => decide (v < 0) || x.minus && !y.minus
    | _ => false
  abs := v.natAbs
  width := x.width + y.width + 1

/-- Where the routine for an operator does what it is for. -/
def Signed.Handled (op : BinOp) (x y : Signed) : Prop :=
  x.width + y.width + 1 < 2 ^ 31 ∧
    match op with
    | .div | .rem => y.abs ≠ 0
    | .add | .comp _ => x.minus ≠ y.minus → ¬(x.abs = 0 ∧ y.abs = 0)
    | .sub => x.minus = y.minus → ¬(x.abs = 0 ∧ y.abs = 0)
    | _ => True

instance (op : BinOp) (x y : Signed) : Decidable (Signed.Handled op x y) := by
  unfold Signed.Handled
  cases op <;> infer_instance

inductive Val
  | int (x : Signed)
  | text (t : Str)

def Val.isZero : Val → Bool
  | int x => x.abs = 0
  | text t => Expr.isZero t

def Val.isText : Val → Bool
  | int _ => false
  | text _ => true

def Val.ofText (t : Str) : Val := if isInteger t then int ⟨isNeg t, natValue (magnitude t), t.length⟩ else text t

/-- There is nothing where an operator is given a text or is not handled. -/
def Val.apply (op : BinOp) (a b : Val) : Option Val :=
  match op, a, b with
  | .or, a, b => some (if a.isZero then b else a)
  | .and, a, b => some (if a.isZero || b.isZero then int ⟨false, 0, 1⟩ else a)
  | op, int x, int y =>
    if Signed.Handled op x y then (op.value x.value y.value).map fun v => int (x.result op y v) else none
  | _, _, _ => none

def Shows (r : Str) : Val → Prop
  | .int x => isInteger r ∧ isNeg r = x.minus ∧ natValue (magnitude r) = x.abs ∧ x.abs < 10 ^ x.width
  | .text t => r = t ∧ isInteger t = false

/-- The call ends in an integer of value `v` with the sign `m`. -/
def Finds (f : ℕ → Run Str) (m : Bool) (v : ℤ) : Prop :=
  ∃ r, isInteger r ∧ isNeg r = m ∧ intValue r = v ∧ Settles f (.ok r)

section
variable {r s q a b : Str} {x y : Signed} {u v w : Val} {f : ℕ → Run Str} {m n : ℤ} {depth : ℕ} {op : BinOp}

theorem Signed.value_natAbs (x : Signed) : x.value.natAbs = x.abs := by
  unfold value
  split_ifs
  · rw [Int.natAbs_neg, Int.natAbs_natCast]
  · exact Int.natAbs_natCast _

theorem Shows.value (h : Shows r (.int x)) : intValue r = x.value := by
  rw [intValue_eq, Signed.value, h.2.1, h.2.2.1]

theorem Shows.digitCount_le (h : Shows r (.int x)) : digitCount r ≤ x.width := by
  rw [← digitCount_magnitude h.1]
  exact digitCount_le_of_lt (isInteger_iff.mp h.1).1 (h.2.2.1 ▸ h.2.2.2)

theorem Shows.isZero_eq (h : Shows r v) : isZero r = v.isZero := by
  cases v with
  | int x =>
    rw [Bool.eq_iff_iff, isZero_iff h.1, h.2.2.1, Val.isZero, decide_eq_true_eq]
  | text t => rw [h.1, Val.isZero]

theorem Shows.isInteger_eq (h : Shows r v) : isInteger r = !v.isText := by
  cases v with
  | int x => exact h.1
  | text t => rw [h.1]; exact h.2

theorem shows_ofText (t : Str) : Shows t (.ofText t) := by
  unfold Val.ofText
  split_ifs with h
  · refine ⟨h, rfl, rfl, (natValue_lt (isInteger_iff.mp h).1).trans_le (Nat.pow_le_pow_right (by decide) ?_)⟩
    unfold magnitude
    split_ifs
    · rw [List.length_tail]
      exact Nat.sub_le _ _
    · exact le_rfl
  · exact ⟨rfl, by simpa using h⟩

theorem finds_digits (depth : ℕ) (hq : IsDigits q) (hne : q ≠ []) (hm : (natValue q : ℤ) = m)
    (hrun : ∀ fuel ≥ depth, f fuel = .ok q) : Finds f false m :=
  ⟨q, isInteger_of_isDigits hq hne, isNeg_of_isDigits hq, (intValue_digits hq).trans hm, settles_iff.mpr ⟨depth, hrun⟩⟩

theorem finds_minus (depth : ℕ) (hq : IsDigits q) (hne : q ≠ []) (hm : -(natValue q : ℤ) = m)
    (hrun : ∀ fuel ≥ depth, f fuel = .ok (negInline q)) : Finds f true m := by
  have hminus : negInline q = '-' :: q := by rw [negInline, isNeg_of_isDigits hq]; rfl
  rw [hminus] at hrun
  exact ⟨'-' :: q, isInteger_iff.mpr ⟨hq, hne⟩, rfl, hm, settles_iff.mpr ⟨depth, hrun⟩⟩

theorem Computes.finds (h : Computes f depth m) (hm : m ≠ 0) : Finds f (m < 0) m := by
  obtain ⟨r, hcan, hval, hrun⟩ := h
  refine ⟨r, hcan.isInteger, ?_, hval, settles_iff.mpr ⟨depth, hrun⟩⟩
  rcases isNeg_cases r with ⟨hneg, heq⟩ | ⟨hneg, heq⟩
  · rw [hneg, eq_comm, decide_eq_true_eq]
    omega
  · rw [hneg, eq_comm, decide_eq_false_iff_not]
    omega

theorem addInteger_finds (ha : isInteger a) (hb : isInteger b) (hca : digitCount a < 2 ^ 31) (hcb : digitCount b < 2 ^ 31)
    (hne : isNeg a ≠ isNeg b → ¬(isZero a ∧ isZero b)) :
    Finds (fun fuel => addInteger fuel a b) (decide (intValue a + intValue b < 0) || isNeg a && isNeg b)
      (intValue a + intValue b) := by
  have hcomp := addInteger_computes ha hb hca hcb hne
  by_cases h0 : intValue a + intValue b = 0
  · obtain ⟨hda, hnea⟩ := isInteger_iff.mp ha
    obtain ⟨hdb, hneb⟩ := isInteger_iff.mp hb
    rw [← digitCount_magnitude ha] at hca
    rw [← digitCount_magnitude hb] at hcb
    rw [isZero_iff ha, isZero_iff hb] at hne
    obtain ⟨hlt, hgt⟩ := cmpInteger_digits hda hdb hca hcb
    obtain ⟨q, hcan, hval, hrun⟩ := addInteger_digits hda hdb hca hcb
    rw [h0]
    rcases isNeg_cases a with ⟨hna, hva⟩ | ⟨hna, hva⟩ <;> rcases isNeg_cases b with ⟨hnb, hvb⟩ | ⟨hnb, hvb⟩
    · rw [hna, hnb]
      refine finds_minus 3 hcan.1 hcan.ne_nil (by omega) fun fuel hfuel => ?_
      obtain ⟨fuel, rfl⟩ := Nat.exists_eq_add_one.mpr (Nat.zero_lt_of_lt hfuel)
      simp [addInteger_signs a b, hna, hnb, hrun fuel (by omega)]
    · have hne' := hne (by simp [hna, hnb])
      obtain ⟨q, hcan, hval, hrun⟩ := subInteger_digits_of_le hdb hda hcb hca (by omega) (by omega)
      rw [hna, hnb]
      refine finds_digits 2 hcan.1 hcan.ne_nil (by omega) fun fuel hfuel => ?_
      obtain ⟨fuel, rfl⟩ := Nat.exists_eq_add_one.mpr (Nat.zero_lt_of_lt hfuel)
      have hle : ¬natValue (magnitude b) < natValue (magnitude a) := by omega
      simp [addInteger_signs a b, hna, hnb, hgt, hle, hrun fuel (by omega)]
    · have hne' := hne (by simp [hna, hnb])
      obtain ⟨q, hcan, hval, hrun⟩ := subInteger_digits_of_le hda hdb hca hcb (by omega) (by omega)
      rw [hna, hnb]
      refine finds_digits 2 hcan.1 hcan.ne_nil (by omega) fun fuel hfuel => ?_
      obtain ⟨fuel, rfl⟩ := Nat.exists_eq_add_one.mpr (Nat.zero_lt_of_lt hfuel)
      have hle : ¬natValue (magnitude a) < natValue (magnitude b) := by omega
      simp [addInteger_signs a b, hna, hnb, hlt, hle, hrun fuel (by omega)]
    · rw [hna, hnb]
      refine finds_digits 2 hcan.1 hcan.ne_nil (by omega) fun fuel hfuel => ?_
      rw [magnitude_of_not_isNeg hna, magnitude_of_not_isNeg hnb] at hrun
      exact hrun fuel hfuel
  · have hsign : (decide (intValue a + intValue b < 0) || isNeg a && isNeg b) = decide (intValue a + intValue b < 0) := by
      rw [Bool.or_eq_left_iff_imp, Bool.and_eq_true, decide_eq_true_eq]
      rintro ⟨hna, hnb⟩
      rw [intValue_eq, intValue_eq, if_pos hna, if_pos hnb] at h0 ⊢
      omega
    rw [hsign]
    exact hcomp.finds h0

theorem subInteger_finds (ha : isInteger a) (hb : isInteger b) (hca : digitCount a < 2 ^ 31) (hcb : digitCount b < 2 ^ 31)
    (hne : isNeg a = isNeg b → ¬(isZero a ∧ isZero b)) :
    Finds (fun fuel => subInteger fuel a b) (decide (intValue a - intValue b < 0) || isNeg a && !isNeg b)
      (intValue a - intValue b) := by
  have hcomp := subInteger_computes ha hb hca hcb hne
  by_cases h0 : intValue a - intValue b = 0
  · obtain ⟨hda, hnea⟩ := isInteger_iff.mp ha
    obtain ⟨hdb, hneb⟩ := isInteger_iff.mp hb
    rw [← digitCount_magnitude ha] at hca
    rw [← digitCount_magnitude hb] at hcb
    rw [isZero_iff ha, isZero_iff hb] at hne
    obtain ⟨q, hcan, hval, hrun⟩ := addInteger_digits hda hdb hca hcb
    rw [h0]
    rcases isNeg_cases a with ⟨hna, hva⟩ | ⟨hna, hva⟩ <;> rcases isNeg_cases b with ⟨hnb, hvb⟩ | ⟨hnb, hvb⟩
    · have hne' := hne (by rw [hna, hnb])
      obtain ⟨q, hcan, hval, hrun⟩ := subInteger_digits_of_le hdb hda hcb hca (by omega) (by omega)
      rw [hna, hnb]
      refine finds_digits 2 hcan.1 hcan.ne_nil (by omega) fun fuel hfuel => ?_
      obtain ⟨fuel, rfl⟩ := Nat.exists_eq_add_one.mpr (Nat.zero_lt_of_lt hfuel)
      simp [subInteger_signs a b, hna, hnb, hrun fuel (by omega)]
    · rw [hna, hnb]
      refine finds_minus 3 hcan.1 hcan.ne_nil (by omega) fun fuel hfuel => ?_
      obtain ⟨fuel, rfl⟩ := Nat.exists_eq_add_one.mpr (Nat.zero_lt_of_lt hfuel)
      simp [subInteger_signs a b, hna, hnb, hrun fuel (by omega)]
    · rw [hna, hnb]
      refine finds_digits 3 hcan.1 hcan.ne_nil (by omega) fun fuel hfuel => ?_
      obtain ⟨fuel, rfl⟩ := Nat.exists_eq_add_one.mpr (Nat.zero_lt_of_lt hfuel)
      simp [subInteger_signs a b, hna, hnb, hrun fuel (by omega)]
    · have hne' := hne (by rw [hna, hnb])
      obtain ⟨q, hcan, hval, hrun⟩ := subInteger_digits_of_le hda hdb hca hcb (by omega) (by omega)
      rw [hna, hnb]
      refine finds_digits 1 hcan.1 hcan.ne_nil (by omega) fun fuel hfuel => ?_
      rw [magnitude_of_not_isNeg hna, magnitude_of_not_isNeg hnb] at hrun
      exact hrun fuel hfuel
  · have hsign : (decide (intValue a - intValue b < 0) || isNeg a && !isNeg b) = decide (intValue a - intValue b < 0) := by
      rw [Bool.or_eq_left_iff_imp, Bool.and_eq_true, Bool.not_eq_true', decide_eq_true_eq]
      rintro ⟨hna, hnb⟩
      rw [intValue_eq, intValue_eq, hna, hnb] at h0 ⊢
      simp only [if_true, Bool.false_eq_true, if_false] at h0 ⊢
      omega
    rw [hsign]
    exact hcomp.finds h0

theorem mulInteger_finds (ha : isInteger a) (hb : isInteger b) (hc : digitCount a + digitCount b < 2 ^ 31) :
    Finds (fun fuel => mulInteger fuel a b) (isNeg a != isNeg b) (intValue a * intValue b) := by
  rw [← digitCount_magnitude ha, ← digitCount_magnitude hb] at hc
  obtain ⟨q, hcan, hval, hrun⟩ := mulInteger_digits (isInteger_iff.mp ha).1 (isInteger_iff.mp hb).1 hc
  rcases isNeg_cases a with ⟨hna, hva⟩ | ⟨hna, hva⟩ <;> rcases isNeg_cases b with ⟨hnb, hvb⟩ | ⟨hnb, hvb⟩ <;>
    rw [hna, hnb, hva, hvb]
  · refine finds_digits 5 hcan.1 hcan.ne_nil (by rw [hval]; push_cast; ring) fun fuel hfuel => ?_
    obtain ⟨fuel, rfl⟩ := Nat.exists_eq_add_one.mpr (Nat.zero_lt_of_lt hfuel)
    simp [mulInteger_signs a b, hna, hnb, hrun fuel (by omega)]
  · refine finds_minus 5 hcan.1 hcan.ne_nil (by rw [hval]; push_cast; ring) fun fuel hfuel => ?_
    obtain ⟨fuel, rfl⟩ := Nat.exists_eq_add_one.mpr (Nat.zero_lt_of_lt hfuel)
    simp [mulInteger_signs a b, hna, hnb, hrun fuel (by omega)]
  · refine finds_minus 5 hcan.1 hcan.ne_nil (by rw [hval]; push_cast; ring) fun fuel hfuel => ?_
    obtain ⟨fuel, rfl⟩ := Nat.exists_eq_add_one.mpr (Nat.zero_lt_of_lt hfuel)
    simp [mulInteger_signs a b, hna, hnb, hrun fuel (by omega)]
  · refine finds_digits 4 hcan.1 hcan.ne_nil (by rw [hval]; push_cast; ring) fun fuel hfuel => ?_
    rw [magnitude_of_not_isNeg hna, magnitude_of_not_isNeg hnb] at hrun
    exact hrun fuel hfuel

/-- Quotient and remainder, without anything about their zeros in front. -/
theorem divRemInteger_finds (ha : isInteger a) (hb : isInteger b) (hb0 : intValue b ≠ 0) (hc : digitCount b + 1 < 2 ^ 31) :
    Finds (fun fuel => divInteger fuel a b) (isNeg a != isNeg b) ((intValue a).tdiv (intValue b)) ∧
      Finds (fun fuel => remInteger fuel a b) (isNeg a) ((intValue a).tmod (intValue b)) := by
  obtain ⟨hda, hnea⟩ := isInteger_iff.mp ha
  obtain ⟨hdb, -⟩ := isInteger_iff.mp hb
  rw [← digitCount_magnitude hb] at hc
  have hpos : 0 < natValue (magnitude b) := by
    rw [← natAbs_intValue]
    exact Int.natAbs_pos.mpr hb0
  obtain ⟨q, r, hq, hqval, hr, hrne, hrval, -, hrun⟩ := divRemInteger_eq hda hnea hdb hpos hc
  have hrun := divInteger_run hda hdb hrun
  have hqcast : (natValue q : ℤ) = (natValue (magnitude a) : ℤ).tdiv (natValue (magnitude b)) := by
    rw [hqval]
    exact (Int.ofNat_tdiv _ _).symm
  have hrcast : (natValue r : ℤ) = (natValue (magnitude a) : ℤ).tmod (natValue (magnitude b)) := by
    rw [hrval]
    exact (Int.ofNat_tmod _ _).symm
  constructor
  · rcases isNeg_cases a with ⟨hna, hva⟩ | ⟨hna, hva⟩ <;> rcases isNeg_cases b with ⟨hnb, hvb⟩ | ⟨hnb, hvb⟩ <;>
      rw [hva, hvb, hna, hnb]
    · refine finds_digits 13 hq.1 hq.ne_nil ?_ fun fuel hfuel => by simpa [hna, hnb] using (hrun fuel hfuel).1
      rw [hqcast, Int.neg_tdiv, Int.tdiv_neg, neg_neg]
    · refine finds_minus 13 hq.1 hq.ne_nil ?_ fun fuel hfuel => by simpa [hna, hnb] using (hrun fuel hfuel).1
      rw [hqcast, Int.neg_tdiv]
    · refine finds_minus 13 hq.1 hq.ne_nil ?_ fun fuel hfuel => by simpa [hna, hnb] using (hrun fuel hfuel).1
      rw [hqcast, Int.tdiv_neg]
    · exact finds_digits 13 hq.1 hq.ne_nil hqcast fun fuel hfuel => by
        simpa [hna, hnb] using (hrun fuel hfuel).1
  · have hmod : (intValue a).tmod (intValue b) = (intValue a).tmod (natValue (magnitude b)) := by
      rcases isNeg_cases b with ⟨-, hvb⟩ | ⟨-, hvb⟩ <;> rw [hvb]
      exact Int.tmod_neg _ _
    rw [hmod]
    rcases isNeg_cases a with ⟨hna, hva⟩ | ⟨hna, hva⟩ <;> rw [hva, hna]
    · exact finds_minus 13 hr hrne (by rw [hrcast, Int.neg_tmod]) fun fuel hfuel => by
        simpa [hna] using (hrun fuel hfuel).2
    · exact finds_digits 13 hr hrne hrcast fun fuel hfuel => by simpa [hna] using (hrun fuel hfuel).2

theorem pow_add_pow_le (i j : ℕ) : 10 ^ i + 10 ^ j ≤ 10 ^ (i + j + 1) := by
  have hi : 10 ^ i ≤ 10 ^ (i + j) := Nat.pow_le_pow_right (by decide) (Nat.le_add_right i j)
  have hj : 10 ^ j ≤ 10 ^ (i + j) := Nat.pow_le_pow_right (by decide) (Nat.le_add_left j i)
  rw [pow_succ]
  omega

/-- No operator gives more digits than its operands have together, and one. -/
theorem natAbs_value_lt {v : ℤ} {i j : ℕ} (h : op.value m n = some v) (hm : m.natAbs < 10 ^ i) (hn : n.natAbs < 10 ^ j) :
    v.natAbs < 10 ^ (i + j + 1) := by
  have hsum := pow_add_pow_le i j
  have hadd := Int.natAbs_add_le m n
  have hsub := Int.natAbs_sub_le m n
  cases op <;> simp only [BinOp.value, Option.some.injEq, Option.ite_none_left_eq_some] at h
  case mul =>
    rw [← h, Int.natAbs_mul]
    calc m.natAbs * n.natAbs < 10 ^ i * 10 ^ j := Nat.mul_lt_mul'' hm hn
      _ = 10 ^ (i + j) := (pow_add _ _ _).symm
      _ ≤ 10 ^ (i + j + 1) := Nat.pow_le_pow_right (by decide) (Nat.le_succ _)
  case div =>
    rw [← h.2, Int.natAbs_tdiv]
    exact (Nat.div_le_self m.natAbs n.natAbs).trans_lt (by omega)
  case rem =>
    rw [← h.2, Int.natAbs_tmod]
    have hle := Nat.mod_le m.natAbs n.natAbs
    omega
  case add => omega
  case sub => omega
  all_goals
    split_ifs at h <;> omega

theorem Finds.shows {f : ℕ → Run Str} {v : ℤ} (h : Finds f x.minus v) (hv : v.natAbs = x.abs) (hlt : x.abs < 10 ^ x.width) :
    ∃ t, Shows t (.int x) ∧ Settles f (.ok t) := by
  obtain ⟨t, hint, hneg, hval, hrun⟩ := h
  exact ⟨t, ⟨hint, hneg, by rw [← natAbs_intValue, hval, hv], hlt⟩, hrun⟩

theorem applyOp_integers (hr : isInteger r) (hs : isInteger s) {f : ℕ → Run Str} {out : Run Str} (h : Settles f out)
    (heq : ∀ fuel, (do assertInteger r; assertInteger s; f fuel) = applyOp fuel op r s) :
    Settles (fun fuel => applyOp fuel op r s) out := by
  refine h.congr fun fuel => ?_
  rw [← heq, assertInteger, assertInteger, if_pos hr, if_pos hs]
  rfl

theorem Val.apply_or (u v : Val) : Val.apply .or u v = some (if u.isZero then v else u) := by
  cases u <;> cases v <;> rfl

theorem Val.apply_and (u v : Val) :
    Val.apply .and u v = some (if u.isZero || v.isZero then .int ⟨false, 0, 1⟩ else u) := by
  cases u <;> cases v <;> rfl

theorem Val.apply_arith (hop : op.level ≤ 3) (x y : Signed) : Val.apply op (.int x) (.int y) =
    if Signed.Handled op x y then (op.value x.value y.value).map fun v => .int (x.result op y v) else none := by
  cases op
  case and => exact absurd hop (by decide)
  case or => exact absurd hop (by decide)
  all_goals rfl

theorem Val.apply_text (hop : op.level ≤ 3) (h : u.isText || v.isText) : Val.apply op u v = none := by
  cases op
  case and => exact absurd hop (by decide)
  case or => exact absurd hop (by decide)
  all_goals cases u <;> cases v <;> first | rfl | exact absurd h Bool.false_ne_true

/-- Where an operator is handled, its routine finds what it stands for. -/
theorem applyOp_handled {v : ℤ} (hop : op.level ≤ 3) (hr : Shows r (.int x)) (hs : Shows s (.int y))
    (hh : Signed.Handled op x y) (hv : op.value x.value y.value = some v) :
    ∃ t, Shows t (.int (x.result op y v)) ∧ Settles (fun fuel => applyOp fuel op r s) (.ok t) := by
  have hcr := hr.digitCount_le
  have hcs := hs.digitCount_le
  have hwidth := hh.1
  have hlt := natAbs_value_lt hv (x.value_natAbs ▸ hr.2.2.2) (y.value_natAbs ▸ hs.2.2.2)
  have hzr := hr.isZero_eq
  have hzs := hs.isZero_eq
  rw [Val.isZero] at hzr hzs
  rw [← hr.value, ← hs.value] at hv
  have hcase := hh.2
  cases op with
  | mul =>
    have hfinds := mulInteger_finds hr.1 hs.1 (by omega)
    rw [hr.2.1, hs.2.1, Option.some.inj hv] at hfinds
    obtain ⟨t, ht, hrun⟩ := @Finds.shows (x.result .mul y v) _ v hfinds rfl hlt
    exact ⟨t, ht, applyOp_integers hr.1 hs.1 hrun fun _ => rfl⟩
  | div =>
    simp only [BinOp.value, Option.ite_none_left_eq_some] at hv
    have hfinds := (divRemInteger_finds hr.1 hs.1 hv.1 (by omega)).1
    rw [hr.2.1, hs.2.1, Option.some.inj hv.2] at hfinds
    obtain ⟨t, ht, hrun⟩ := @Finds.shows (x.result .div y v) _ v hfinds rfl hlt
    exact ⟨t, ht, applyOp_integers hr.1 hs.1 hrun fun _ => rfl⟩
  | rem =>
    simp only [BinOp.value, Option.ite_none_left_eq_some] at hv
    have hfinds := (divRemInteger_finds hr.1 hs.1 hv.1 (by omega)).2
    rw [hr.2.1, Option.some.inj hv.2] at hfinds
    obtain ⟨t, ht, hrun⟩ := @Finds.shows (x.result .rem y v) _ v hfinds rfl hlt
    exact ⟨t, ht, applyOp_integers hr.1 hs.1 hrun fun _ => rfl⟩
  | add =>
    have hfinds := addInteger_finds hr.1 hs.1 (by omega) (by omega) (by
      rw [hr.2.1, hs.2.1, hzr, hzs, decide_eq_true_eq, decide_eq_true_eq]
      exact hcase)
    rw [hr.2.1, hs.2.1, Option.some.inj hv] at hfinds
    obtain ⟨t, ht, hrun⟩ := @Finds.shows (x.result .add y v) _ v hfinds rfl hlt
    exact ⟨t, ht, applyOp_integers hr.1 hs.1 hrun fun _ => rfl⟩
  | sub =>
    have hfinds := subInteger_finds hr.1 hs.1 (by omega) (by omega) (by
      rw [hr.2.1, hs.2.1, hzr, hzs, decide_eq_true_eq, decide_eq_true_eq]
      exact hcase)
    rw [hr.2.1, hs.2.1, Option.some.inj hv] at hfinds
    obtain ⟨t, ht, hrun⟩ := @Finds.shows (x.result .sub y v) _ v hfinds rfl hlt
    exact ⟨t, ht, applyOp_integers hr.1 hs.1 hrun fun _ => rfl⟩
  | comp c =>
    have hsign := (sign_cmpInteger hr.1 hs.1).mpr ⟨by
        rw [hr.2.1, hs.2.1, hzr, hzs, decide_eq_true_eq, decide_eq_true_eq]
        exact hcase,
      fun _ _ => keepsSign_of_lt (by omega) (by omega), fun _ _ => keepsSign_of_lt (by omega) (by omega)⟩
    refine ⟨_, ?_, applyOp_integers hr.1 hs.1 (settles_const (Except.ok (evalCompOp c (cmpInteger r s)))) fun _ => rfl⟩
    rw [evalCompOp_of_sign hsign]
    simp only [BinOp.value, Option.some.injEq] at hv
    split_ifs at hv ⊢ <;> subst hv <;> exact ⟨by decide, rfl, rfl, hlt⟩
  | and => exact absurd hop (by decide)
  | or => exact absurd hop (by decide)

theorem applyOp_shows (hr : Shows r u) (hs : Shows s v) (h : Val.apply op u v = some w) :
    ∃ t, Shows t w ∧ Settles (fun fuel => applyOp fuel op r s) (.ok t) := by
  by_cases hop : op.level ≤ 3
  · by_cases htext : u.isText || v.isText
    · exact absurd (h.symm.trans (Val.apply_text hop htext)) (by simp)
    · cases u with
      | text t => exact absurd rfl htext
      | int x =>
        cases v with
        | text t => exact absurd rfl htext
        | int y =>
          rw [Val.apply_arith hop] at h
          split_ifs at h with hh
          obtain ⟨v, hv, rfl⟩ := Option.map_eq_some_iff.mp h
          exact applyOp_handled hop hr hs hh hv
  · cases op with
    | or =>
      rw [Val.apply_or, Option.some.injEq] at h
      refine ⟨_, ?_, settles_const _⟩
      rw [hr.isZero_eq, ← h]
      split_ifs
      · exact hs
      · exact hr
    | and =>
      rw [Val.apply_and, Option.some.injEq] at h
      refine ⟨_, ?_, settles_const _⟩
      rw [hr.isZero_eq, hs.isZero_eq, ← h]
      split_ifs
      · exact ⟨by decide, rfl, rfl, by decide⟩
      · exact hr
    | _ => exact absurd (by simp [BinOp.level]) hop

/-- A text is refused by the operators that want integers. -/
theorem applyOp_text (hop : op.level ≤ 3) (hr : Shows r u) (hs : Shows s v) (h : u.isText || v.isText) (fuel : ℕ) :
    applyOp fuel op r s = .error .reported := by
  have hir := hr.isInteger_eq
  have his := hs.isInteger_eq
  cases hu : u.isText with
  | true =>
    rw [hu] at hir
    have hassert : assertInteger r = .error .reported := if_neg (by simp [hir])
    cases op
    case and => exact absurd hop (by decide)
    case or => exact absurd hop (by decide)
    all_goals
      simp only [applyOp, hassert]
      rfl
  | false =>
    rw [hu, Bool.false_or] at h
    rw [hu] at hir
    rw [h] at his
    have hassert : assertInteger r = .ok () := if_pos (by simp [hir])
    have hassert' : assertInteger s = .error .reported := if_neg (by simp [his])
    cases op
    case and => exact absurd hop (by decide)
    case or => exact absurd hop (by decide)
    all_goals
      simp only [applyOp, hassert, hassert']
      rfl

theorem Signed.value_nonpos (h : x.minus) : x.value ≤ 0 := by
  rw [value, if_pos h]
  omega

theorem Signed.value_nonneg (h : x.minus = false) : 0 ≤ x.value := by
  rw [value, h]
  exact Int.natCast_nonneg _

theorem Signed.value_eq_zero : x.value = 0 ↔ x.abs = 0 := by rw [← Int.natAbs_eq_zero, x.value_natAbs]

theorem Signed.sign_cases (x : Signed) : x.minus ∧ x.value ≤ 0 ∨ x.minus = false ∧ 0 ≤ x.value := by
  cases hx : x.minus
  · exact Or.inr ⟨rfl, value_nonneg hx⟩
  · exact Or.inl ⟨rfl, value_nonpos hx⟩

/-- The sign of a result agrees with its value. -/
theorem Signed.result_sign (hop : op.level ≤ 3) (hv : op.value x.value y.value = some m) :
    ((x.result op y m).minus → m ≤ 0) ∧ ((x.result op y m).minus = false → 0 ≤ m) := by
  cases op <;> simp only [BinOp.value, Option.some.injEq, Option.ite_none_left_eq_some] at hv <;> simp only [result]
  case mul =>
    rw [← hv]
    rcases x.sign_cases with ⟨hx, hxv⟩ | ⟨hx, hxv⟩ <;> rcases y.sign_cases with ⟨hy, hyv⟩ | ⟨hy, hyv⟩ <;>
      simp only [hx, hy]
    · exact ⟨fun h => absurd h (by decide), fun _ => mul_nonneg_of_nonpos_of_nonpos hxv hyv⟩
    · exact ⟨fun _ => mul_nonpos_of_nonpos_of_nonneg hxv hyv, fun h => absurd h (by decide)⟩
    · exact ⟨fun _ => mul_nonpos_of_nonneg_of_nonpos hxv hyv, fun h => absurd h (by decide)⟩
    · exact ⟨fun h => absurd h (by decide), fun _ => mul_nonneg hxv hyv⟩
  case div =>
    rw [← hv.2]
    rcases x.sign_cases with ⟨hx, hxv⟩ | ⟨hx, hxv⟩ <;> rcases y.sign_cases with ⟨hy, hyv⟩ | ⟨hy, hyv⟩ <;>
      simp only [hx, hy]
    · exact ⟨fun h => absurd h (by decide), fun _ => Int.tdiv_nonneg_of_nonpos_of_nonpos hxv hyv⟩
    · refine ⟨fun _ => ?_, fun h => absurd h (by decide)⟩
      have hneg := Int.tdiv_nonneg (a := -x.value) (b := y.value) (by omega) hyv
      rw [Int.neg_tdiv] at hneg
      omega
    · exact ⟨fun _ => Int.tdiv_nonpos_of_nonneg_of_nonpos hxv hyv, fun h => absurd h (by decide)⟩
    · exact ⟨fun h => absurd h (by decide), fun _ => Int.tdiv_nonneg hxv hyv⟩
  case rem =>
    rw [← hv.2]
    rcases x.sign_cases with ⟨hx, hxv⟩ | ⟨hx, hxv⟩ <;> simp only [hx]
    · refine ⟨fun _ => ?_, fun h => absurd h (by decide)⟩
      have hneg := Int.tmod_nonneg (a := -x.value) y.value (by omega)
      rw [Int.neg_tmod] at hneg
      omega
    · exact ⟨fun h => absurd h (by decide), fun _ => Int.tmod_nonneg _ hxv⟩
  case add =>
    rcases x.sign_cases with ⟨hx, hxv⟩ | ⟨hx, hxv⟩ <;> rcases y.sign_cases with ⟨hy, hyv⟩ | ⟨hy, hyv⟩ <;>
      simp [hx, hy] <;> omega
  case sub =>
    rcases x.sign_cases with ⟨hx, hxv⟩ | ⟨hx, hxv⟩ <;> rcases y.sign_cases with ⟨hy, hyv⟩ | ⟨hy, hyv⟩ <;>
      simp [hx, hy] <;> omega
  case comp c =>
    rw [← hv]
    refine ⟨fun h => absurd h (by decide), fun _ => ?_⟩
    split_ifs <;> decide
  case and => exact absurd hop (by decide)
  case or => exact absurd hop (by decide)

theorem Signed.result_value (hop : op.level ≤ 3) (hv : op.value x.value y.value = some m) :
    (x.result op y m).value = m := by
  obtain ⟨hneg, hpos⟩ := result_sign hop hv
  have habs : (x.result op y m).abs = m.natAbs := rfl
  cases hminus : (x.result op y m).minus with
  | true =>
    have hle := hneg hminus
    rw [value, if_pos hminus, habs]
    omega
  | false =>
    have hle := hpos hminus
    rw [value, hminus, habs]
    simp only [Bool.false_eq_true, if_false]
    omega

/-- What is found has the value it is to have. -/
theorem Val.apply_int (h : Val.apply op (.int x) (.int y) = some w) :
    ∃ z, w = .int z ∧ op.value x.value y.value = some z.value := by
  by_cases hop : op.level ≤ 3
  · rw [apply_arith hop] at h
    split_ifs at h
    obtain ⟨v, hv, rfl⟩ := Option.map_eq_some_iff.mp h
    exact ⟨_, rfl, by rw [hv, Signed.result_value hop hv]⟩
  · cases op with
    | or =>
      rw [apply_or, Option.some.injEq] at h
      refine ⟨if x.abs = 0 then y else x, ?_, ?_⟩
      · rw [← h, isZero]
        split_ifs with h0 <;> simp_all
      · simp only [BinOp.value, Signed.value_eq_zero]
        split_ifs <;> rfl
    | and =>
      rw [apply_and, Option.some.injEq] at h
      refine ⟨if x.abs = 0 ∨ y.abs = 0 then ⟨false, 0, 1⟩ else x, ?_, ?_⟩
      · rw [← h, isZero, isZero]
        split_ifs with h0 <;> simp_all
      · simp only [BinOp.value, Signed.value_eq_zero]
        split_ifs <;> rfl
    | _ => exact absurd (by simp [BinOp.level]) hop

theorem Val.apply_mul (x y : Signed) : Val.apply .mul (.int x) (.int y) =
    if x.width + y.width + 1 < 2 ^ 31 then some (.int ⟨x.minus != y.minus, x.abs * y.abs, x.width + y.width + 1⟩)
    else none := by
  rw [apply_arith (by decide)]
  simp only [Signed.Handled, and_true, BinOp.value, Option.map_some, Signed.result, Int.natAbs_mul, Signed.value_natAbs]

theorem Val.apply_mul_text (u : Val) (t : Str) : Val.apply .mul u (.text t) = none ∧ Val.apply .mul (.text t) u = none := by
  cases u <;> exact ⟨rfl, rfl⟩

theorem Val.apply_mul_assoc (u v w : Val) :
    (do Val.apply .mul (← Val.apply .mul u v) w) = (do Val.apply .mul u (← Val.apply .mul v w)) := by
  rcases w with z | t
  · rcases v with y | t
    · rcases u with x | t
      · by_cases hxy : x.width + y.width + 1 < 2 ^ 31 <;> by_cases hyz : y.width + z.width + 1 < 2 ^ 31
        · simp only [apply_mul, hxy, hyz, if_true, Option.bind_eq_bind, Option.bind_some]
          rw [show x.width + y.width + 1 + z.width + 1 = x.width + (y.width + z.width + 1) + 1 by omega, Bool.bne_assoc,
            Nat.mul_assoc]
        · simp only [apply_mul, hxy, hyz, if_true, if_false, Option.bind_eq_bind, Option.bind_some, Option.bind_none]
          exact if_neg (by omega)
        · simp only [apply_mul, hxy, hyz, if_true, if_false, Option.bind_eq_bind, Option.bind_some, Option.bind_none]
          exact (if_neg (by omega)).symm
        · simp only [apply_mul, hxy, hyz, if_false, Option.bind_eq_bind, Option.bind_none]
      · cases h : Val.apply .mul (.int y) (.int z) <;> simp [(apply_mul_text _ t).2]
    · simp [(apply_mul_text _ t).1, (apply_mul_text _ t).2]
  · cases h : Val.apply .mul u v <;> simp [(apply_mul_text _ t).1]

end

end SomeOs.Expr

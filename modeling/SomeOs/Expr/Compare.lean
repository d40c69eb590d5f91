import SomeOs.Base.Numeral

/-! # Integers as text

An integer is an optional minus and decimal digits, of any number and with zeros in front. The
comparison looks at the signs, at the lengths without the zeros, and then at the characters.
-/
namespace SomeOs.Expr

abbrev Str := List Char

def isNeg (arg : Str) : Bool := arg.head? = some '-'

def magnitude (arg : Str) : Str := if isNeg arg then arg.tail else arg

def isZero (arg : Str) : Bool :=
  if arg.length = 0 then true else (magnitude arg).all (· = '0')

/-- The loop of `isInteger`. The terminator is not a digit. -/
def checkDigits : Str → Bool
  | [] => false
  | c :: arg => if c < '0' || c > '9' then false else if arg = [] then true else checkDigits arg

def isInteger (arg : Str) : Bool := checkDigits (magnitude arg)

/-- A difference as an `int`. -/
def toInt (n : ℤ) : ℤ := n.bmod (2 ^ 32)

def strcmp : Str → Str → ℤ
  | [], [] => 0
  | [], d :: _ => -(d.toNat : ℤ)
  | c :: _, [] => c.toNat
  | c :: fst, d :: snd => if c = d then strcmp fst snd else c.toNat - d.toNat

def stripZeros (arg : Str) : Str := arg.dropWhile (· = '0')

/-- `cmpInteger` when neither text starts with a minus. -/
def cmpDigits (fst snd : Str) : ℤ :=
  let fst := stripZeros fst
  let snd := stripZeros snd
  if fst.length ≠ snd.length then toInt (fst.length - snd.length) else strcmp fst snd

def cmpInteger (fst snd : Str) : ℤ :=
  if isNeg fst && isNeg snd then
    -- what follows a second minus is compared the same way
    match fst, snd with
    | _ :: fst, _ :: snd => toInt (-cmpInteger fst snd)
    | _, _ => 0
  else if isNeg fst then -1
  else if isNeg snd then 1
  else cmpDigits fst snd

inductive CompOp
  | lt | le | eq | ne | ge | gt
  deriving DecidableEq

/-- What `evalComp` makes of a comparison. -/
def evalCompOp (op : CompOp) (cmp : ℤ) : Str :=
  match op with
  | .lt => if cmp < 0 then ['1'] else ['0']
  | .le => if cmp ≤ 0 then ['1'] else ['0']
  | .eq => if cmp = 0 then ['1'] else ['0']
  | .ne => if cmp ≠ 0 then ['1'] else ['0']
  | .ge => if cmp ≥ 0 then ['1'] else ['0']
  | .gt => if cmp > 0 then ['1'] else ['0']

/-- The relation an operator is meant to be. -/
def CompOp.Holds (m n : ℤ) : CompOp → Prop
  | .lt => m < n
  | .le => m ≤ n
  | .eq => m = n
  | .ne => m ≠ n
  | .ge => m ≥ n
  | .gt => m > n

instance (m n : ℤ) (op : CompOp) : Decidable (op.Holds m n) := by
  cases op <;> unfold CompOp.Holds <;> infer_instance

def digitVal (c : Char) : ℕ := c.toNat - '0'.toNat

def natValue (arg : Str) : ℕ := Numeral.value 10 (arg.map digitVal)

def intValue (arg : Str) : ℤ := if isNeg arg then -(natValue arg.tail : ℤ) else natValue arg

def IsDigits (arg : Str) : Prop := ∀ c ∈ arg, c.isDigit

def digitCount (arg : Str) : ℕ := (stripZeros (magnitude arg)).length

/-- A difference is still positive, zero or negative as an `int`. -/
def KeepsSign (n : ℤ) : Prop := (toInt n).sign = n.sign

instance (n : ℤ) : Decidable (KeepsSign n) := inferInstanceAs (Decidable (_ = _))

section
variable {c d : Char} {fst snd arg a b : Str} {n : ℤ}

theorem isDigit_iff : c.isDigit ↔ 48 ≤ c.toNat ∧ c.toNat ≤ 57 := by
  rw [Char.isDigit, Bool.and_eq_true, decide_eq_true_eq, decide_eq_true_eq]
  exact Iff.rfl

theorem digitVal_eq_zero (hc : c.isDigit) : digitVal c = 0 ↔ c = '0' := by
  have h0 : '0'.toNat = 48 := rfl
  have hle := isDigit_iff.mp hc
  rw [digitVal, ← Char.toNat_inj]
  omega

theorem digitVal_lt (hc : c.isDigit) : digitVal c < 10 := by
  have h0 : '0'.toNat = 48 := rfl
  have hle := isDigit_iff.mp hc
  rw [digitVal]
  omega

theorem map_digitVal_lt (h : IsDigits arg) : ∀ d ∈ arg.map digitVal, d < 10 := by
  intro d hd
  obtain ⟨c, hc, rfl⟩ := List.mem_map.mp hd
  exact digitVal_lt (h c hc)

theorem checkDigits_iff : checkDigits arg ↔ IsDigits arg ∧ arg ≠ [] := by
  induction arg with
  | nil => simp [checkDigits]
  | cons c arg ih =>
    have hc : (decide (c < '0') || decide (c > '9')) = !c.isDigit := by
      have hlt : c < '0' ↔ c.toNat < 48 := Iff.rfl
      have hgt : c > '9' ↔ 57 < c.toNat := Iff.rfl
      rw [Bool.eq_iff_iff, Bool.or_eq_true, decide_eq_true_eq, decide_eq_true_eq, hlt, hgt, Bool.not_eq_true',
        ← Bool.not_eq_true, isDigit_iff]
      omega
    rw [checkDigits, hc, IsDigits, List.forall_mem_cons]
    by_cases hd : c.isDigit
    · by_cases hnil : arg = []
      · simp [hd, hnil]
      · simpa [hd, hnil, IsDigits] using ih
    · simp [hd]

theorem isInteger_iff : isInteger arg ↔ IsDigits (magnitude arg) ∧ magnitude arg ≠ [] := checkDigits_iff

theorem isNeg_of_isDigits (h : IsDigits arg) : isNeg arg = false := by
  cases arg with
  | nil => rfl
  | cons c arg =>
    have hc := h c List.mem_cons_self
    simp only [isNeg, List.head?_cons, Option.some.injEq, decide_eq_false_iff_not]
    rintro rfl
    exact absurd hc (by decide)

theorem isInteger_of_isDigits (h : IsDigits arg) (hne : arg ≠ []) : isInteger arg := by
  rw [isInteger_iff, magnitude, isNeg_of_isDigits h]
  exact ⟨h, hne⟩

theorem isNeg_eq_true (h : isNeg arg) : arg = '-' :: magnitude arg := by
  cases arg with
  | nil => exact absurd h (by decide)
  | cons c arg =>
    rw [magnitude, if_pos h, List.tail_cons]
    congr 1
    simpa [isNeg] using h

theorem magnitude_of_not_isNeg (h : isNeg arg = false) : magnitude arg = arg := by
  rw [magnitude, h]
  rfl

theorem intValue_eq (arg : Str) :
    intValue arg = if isNeg arg then -(natValue (magnitude arg) : ℤ) else natValue (magnitude arg) := by
  rw [intValue, magnitude]
  split_ifs <;> rfl

theorem IsDigits.stripZeros (h : IsDigits arg) : IsDigits (stripZeros arg) :=
  fun c hc => h c (List.dropWhile_sublist _ |>.mem hc)

theorem map_stripZeros (h : IsDigits arg) : (stripZeros arg).map digitVal = (arg.map digitVal).dropWhile (· = 0) := by
  induction arg with
  | nil => rfl
  | cons c arg ih =>
    obtain ⟨hc, harg⟩ := List.forall_mem_cons.mp h
    have hzero := digitVal_eq_zero hc
    by_cases hc0 : c = '0'
    · rw [stripZeros, List.dropWhile_cons_of_pos (by simpa using hc0), List.map_cons,
        List.dropWhile_cons_of_pos (by simpa using hzero.mpr hc0), ← ih harg, stripZeros]
    · rw [stripZeros, List.dropWhile_cons_of_neg (by simpa using hc0), List.map_cons,
        List.dropWhile_cons_of_neg (by simpa using mt hzero.mp hc0)]

theorem natValue_stripZeros (h : IsDigits arg) : natValue (stripZeros arg) = natValue arg := by
  rw [natValue, map_stripZeros h, Numeral.value_dropWhile, natValue]

theorem stripZeros_eq (arg : Str) : stripZeros arg = [] ∨ ∃ c l, stripZeros arg = c :: l ∧ c ≠ '0' := by
  cases h : stripZeros arg with
  | nil => exact Or.inl rfl
  | cons c l =>
    refine Or.inr ⟨c, l, rfl, ?_⟩
    have hne : arg.dropWhile (· = '0') ≠ [] := by
      rw [← stripZeros, h]
      exact List.cons_ne_nil c l
    have hhead := List.head_dropWhile_not (· = '0') hne
    simp only [stripZeros] at h
    simpa [h] using hhead

theorem natValue_lt_of_length_lt (hfst : IsDigits fst) (hsnd : IsDigits snd)
    (hlen : (stripZeros fst).length < (stripZeros snd).length) : natValue fst < natValue snd := by
  rw [← natValue_stripZeros hfst, ← natValue_stripZeros hsnd]
  rcases stripZeros_eq snd with h | ⟨c, l, h, hc⟩
  · rw [h] at hlen
    exact absurd hlen (Nat.not_lt_zero _)
  · have hc' := hsnd.stripZeros c (h ▸ List.mem_cons_self)
    rw [h] at hlen ⊢
    rw [natValue, natValue, List.map_cons]
    refine Numeral.value_lt_of_length_lt (by decide) (map_digitVal_lt hfst.stripZeros) (mt (digitVal_eq_zero hc').mp hc) ?_
    rw [List.length_map, List.length_map]
    exact Nat.le_of_lt_succ hlen

theorem sign_strcmp (hfst : IsDigits fst) (hsnd : IsDigits snd) (hlen : fst.length = snd.length) :
    (strcmp fst snd).sign = ((natValue fst : ℤ) - natValue snd).sign := by
  induction fst generalizing snd with
  | nil =>
    obtain rfl := List.length_eq_zero_iff.mp hlen.symm
    rfl
  | cons c fst ih =>
    cases snd with
    | nil => exact absurd hlen (Nat.succ_ne_zero _)
    | cons d snd =>
      obtain ⟨hc, hfst⟩ := List.forall_mem_cons.mp hfst
      obtain ⟨hd, hsnd⟩ := List.forall_mem_cons.mp hsnd
      have hlen := Nat.succ.inj hlen
      have hlen' : (fst.map digitVal).length = (snd.map digitVal).length := by simpa using hlen
      have h0 : '0'.toNat = 48 := rfl
      have hcle := isDigit_iff.mp hc
      have hdle := isDigit_iff.mp hd
      rw [strcmp]
      split_ifs with hcd
      · rw [ih hfst hsnd hlen, natValue, natValue, natValue, natValue, List.map_cons, List.map_cons, Numeral.value_cons,
          Numeral.value_cons, hcd, hlen']
        congr 1
        push_cast
        ring
      · have hne : c.toNat ≠ d.toNat := fun h => hcd (Char.toNat_inj.mp h)
        rcases Nat.lt_or_gt_of_ne hne with hlt | hgt
        · have hval := Numeral.value_cons_lt (b := 10) (d := digitVal c) (e := digitVal d) (by decide) (map_digitVal_lt hfst)
            hlen' (by unfold digitVal; omega)
          rw [Int.sign_eq_neg_one_of_neg (by omega), natValue, natValue, List.map_cons, List.map_cons,
            Int.sign_eq_neg_one_of_neg (by omega)]
        · have hval := Numeral.value_cons_lt (b := 10) (d := digitVal d) (e := digitVal c) (by decide) (map_digitVal_lt hsnd)
            hlen'.symm (by unfold digitVal; omega)
          rw [Int.sign_eq_one_of_pos (by omega), natValue, natValue, List.map_cons, List.map_cons,
            Int.sign_eq_one_of_pos (by omega)]

theorem sign_cmpDigits (hfst : IsDigits fst) (hsnd : IsDigits snd) :
    (cmpDigits fst snd).sign = ((natValue fst : ℤ) - natValue snd).sign ↔
      KeepsSign ((stripZeros fst).length - (stripZeros snd).length) := by
  unfold cmpDigits KeepsSign
  by_cases hlen : (stripZeros fst).length = (stripZeros snd).length
  · have hcmp := sign_strcmp hfst.stripZeros hsnd.stripZeros hlen
    rw [natValue_stripZeros hfst, natValue_stripZeros hsnd] at hcmp
    simp only [ne_eq, hlen, not_true, if_false, hcmp, sub_self]
    exact ⟨fun _ => rfl, fun _ => trivial⟩
  · simp only [ne_eq, hlen, not_false_iff, if_true]
    rcases Nat.lt_or_gt_of_ne hlen with hlt | hgt
    · have hval := natValue_lt_of_length_lt hfst hsnd hlt
      rw [Int.sign_eq_neg_one_of_neg (show (natValue fst : ℤ) - natValue snd < 0 by omega),
        Int.sign_eq_neg_one_of_neg (show ((stripZeros fst).length : ℤ) - (stripZeros snd).length < 0 by omega)]
    · have hval := natValue_lt_of_length_lt hsnd hfst hgt
      rw [Int.sign_eq_one_of_pos (show 0 < (natValue fst : ℤ) - natValue snd by omega),
        Int.sign_eq_one_of_pos (show 0 < ((stripZeros fst).length : ℤ) - (stripZeros snd).length by omega)]

theorem natValue_eq_zero_iff (h : IsDigits arg) : natValue arg = 0 ↔ stripZeros arg = [] := by
  rw [← natValue_stripZeros h]
  rcases stripZeros_eq arg with hnil | ⟨c, l, hcons, hc⟩
  · rw [hnil]
    exact ⟨fun _ => rfl, fun _ => rfl⟩
  · have hdigit := h.stripZeros c (hcons ▸ List.mem_cons_self)
    have hle := Numeral.pow_le_value_cons (b := 10) (mt (digitVal_eq_zero hdigit).mp hc) (l.map digitVal)
    have hpos : 0 < 10 ^ (l.map digitVal).length := Nat.pow_pos (by decide)
    rw [hcons, natValue, List.map_cons]
    exact ⟨fun h0 => by omega, fun hnil => absurd hnil (List.cons_ne_nil c l)⟩

theorem stripZeros_eq_nil_iff : stripZeros arg = [] ↔ arg.all (· = '0') := by
  rw [stripZeros, List.dropWhile_eq_nil_iff, List.all_eq_true]

theorem isZero_iff (h : isInteger arg) : isZero arg ↔ natValue (magnitude arg) = 0 := by
  obtain ⟨hdigits, hne⟩ := isInteger_iff.mp h
  have hlen : arg.length ≠ 0 := by
    intro hlen
    rw [List.length_eq_zero_iff.mp hlen] at hne
    exact hne rfl
  rw [isZero, if_neg hlen, natValue_eq_zero_iff hdigits, stripZeros_eq_nil_iff]

theorem strcmp_bounds (hfst : IsDigits fst) (hsnd : IsDigits snd) : -57 ≤ strcmp fst snd ∧ strcmp fst snd ≤ 57 := by
  induction fst generalizing snd with
  | nil =>
    cases snd with
    | nil => decide
    | cons d snd =>
      have := isDigit_iff.mp (hsnd d List.mem_cons_self)
      rw [strcmp]
      omega
  | cons c fst ih =>
    have := isDigit_iff.mp (hfst c List.mem_cons_self)
    cases snd with
    | nil =>
      rw [strcmp]
      omega
    | cons d snd =>
      have := isDigit_iff.mp (hsnd d List.mem_cons_self)
      rw [strcmp]
      split_ifs
      · exact ih (List.forall_mem_cons.mp hfst).2 (List.forall_mem_cons.mp hsnd).2
      · omega

/-- Below two minus signs the order is reversed. -/
theorem sign_toInt_neg_cmpDigits (hfst : IsDigits fst) (hsnd : IsDigits snd) :
    (toInt (-cmpDigits fst snd)).sign = (-(natValue fst : ℤ) - -(natValue snd : ℤ)).sign ↔
      KeepsSign ((stripZeros snd).length - (stripZeros fst).length) := by
  rw [show -(natValue fst : ℤ) - -(natValue snd : ℤ) = -((natValue fst : ℤ) - natValue snd) by ring, Int.sign_neg]
  by_cases hlen : (stripZeros fst).length = (stripZeros snd).length
  · have hkeeps : KeepsSign ((stripZeros fst).length - (stripZeros snd).length) := by
      rw [hlen, sub_self]
      rfl
    have hbounds := strcmp_bounds hfst.stripZeros hsnd.stripZeros
    have heq : cmpDigits fst snd = strcmp (stripZeros fst) (stripZeros snd) := if_neg (not_not.mpr hlen)
    rw [← (sign_cmpDigits hfst hsnd).mpr hkeeps, toInt, Int.bmod_eq_of_le (by omega) (by omega), Int.sign_neg]
    refine ⟨fun _ => ?_, fun _ => rfl⟩
    rw [hlen, sub_self]
    rfl
  · have heq : cmpDigits fst snd = toInt ((stripZeros fst).length - (stripZeros snd).length) := if_pos hlen
    have hsign : ((natValue fst : ℤ) - natValue snd).sign =
        ((stripZeros fst).length - (stripZeros snd).length : ℤ).sign := by
      rcases Nat.lt_or_gt_of_ne hlen with hlt | hgt
      · have hval := natValue_lt_of_length_lt hfst hsnd hlt
        rw [Int.sign_eq_neg_one_of_neg (by omega), Int.sign_eq_neg_one_of_neg (by omega)]
      · have hval := natValue_lt_of_length_lt hsnd hfst hgt
        rw [Int.sign_eq_one_of_pos (by omega), Int.sign_eq_one_of_pos (by omega)]
    have hneg : toInt (-toInt ((stripZeros fst).length - (stripZeros snd).length)) =
        toInt ((stripZeros snd).length - (stripZeros fst).length) := by
      rw [toInt, toInt, toInt, Int.bmod_neg_bmod, neg_sub]
    rw [heq, hsign, hneg, ← Int.sign_neg, neg_sub, KeepsSign]

theorem cmpInteger_eq (ha : isInteger a) (hb : isInteger b) :
    cmpInteger a b = if isNeg a && isNeg b then toInt (-cmpDigits (magnitude a) (magnitude b))
      else if isNeg a then -1 else if isNeg b then 1 else cmpDigits (magnitude a) (magnitude b) := by
  obtain ⟨hda, -⟩ := isInteger_iff.mp ha
  obtain ⟨hdb, -⟩ := isInteger_iff.mp hb
  have hdigits : ∀ x y : Str, IsDigits x → IsDigits y → cmpInteger x y = cmpDigits x y := by
    intro x y hx hy
    unfold cmpInteger
    simp [isNeg_of_isDigits hx, isNeg_of_isDigits hy]
  by_cases hna : isNeg a <;> by_cases hnb : isNeg b
  · rw [hna, hnb, ← hdigits _ _ hda hdb]
    conv_lhs => rw [isNeg_eq_true hna, isNeg_eq_true hnb, cmpInteger]
    rfl
  · unfold cmpInteger
    simp [hna, hnb]
  · unfold cmpInteger
    simp [hna, hnb]
  · rw [Bool.not_eq_true] at hna hnb
    rw [magnitude_of_not_isNeg hna, magnitude_of_not_isNeg hnb] at *
    simp [hna, hnb, hdigits _ _ hda hdb]

theorem evalCompOp_of_sign {cmp m n : ℤ} (h : cmp.sign = (m - n).sign) (op : CompOp) :
    evalCompOp op cmp = if op.Holds m n then ['1'] else ['0'] := by
  have hlt : cmp < 0 ↔ m < n := by rw [← Int.sign_eq_neg_one_iff_neg, h, Int.sign_eq_neg_one_iff_neg, sub_neg]
  have hgt : cmp > 0 ↔ m > n := by rw [gt_iff_lt, ← Int.sign_eq_one_iff_pos, h, Int.sign_eq_one_iff_pos, sub_pos]
  have heq : cmp = 0 ↔ m = n := by rw [← Int.sign_eq_zero_iff_zero, h, Int.sign_eq_zero_iff_zero, sub_eq_zero]
  have hle : cmp ≤ 0 ↔ m ≤ n := by rw [← not_lt, ← not_lt, ← gt_iff_lt, hgt]
  have hge : cmp ≥ 0 ↔ m ≥ n := by rw [ge_iff_le, ge_iff_le, ← not_lt, ← not_lt, hlt]
  cases op <;> simp only [evalCompOp, CompOp.Holds, hlt, hgt, heq, hle, hge, ne_eq]

theorem sign_cmpInteger (ha : isInteger a) (hb : isInteger b) :
    (cmpInteger a b).sign = (intValue a - intValue b).sign ↔
      (isNeg a ≠ isNeg b → ¬(isZero a ∧ isZero b)) ∧
      (isNeg a = false → isNeg b = false → KeepsSign (digitCount a - digitCount b)) ∧
      (isNeg a → isNeg b → KeepsSign (digitCount b - digitCount a)) := by
  obtain ⟨hda, -⟩ := isInteger_iff.mp ha
  obtain ⟨hdb, -⟩ := isInteger_iff.mp hb
  rw [cmpInteger_eq ha hb, intValue_eq, intValue_eq, isZero_iff ha, isZero_iff hb]
  cases hna : isNeg a <;> cases hnb : isNeg b
  · simpa [digitCount] using sign_cmpDigits hda hdb
  · by_cases hzero : natValue (magnitude a) = 0 ∧ natValue (magnitude b) = 0
    · simp [hzero]
    · have hpos : 0 < (natValue (magnitude a) : ℤ) + natValue (magnitude b) := by omega
      simp [Int.sign_eq_one_of_pos hpos, hzero]
  · by_cases hzero : natValue (magnitude a) = 0 ∧ natValue (magnitude b) = 0
    · simp [hzero]
    · have hneg : -(natValue (magnitude a) : ℤ) - natValue (magnitude b) < 0 := by omega
      simp [Int.sign_eq_neg_one_of_neg hneg, hzero]
  · simpa [digitCount] using sign_toInt_neg_cmpDigits hda hdb

/-- The comparison, and with it the six operators, is that of the integers exactly when it is not
between a zero with a minus and one without, and when the difference of the numbers of digits is
still on the same side of zero as an `int`. -/
theorem cmpInteger_order (ha : isInteger a) (hb : isInteger b) :
    ((cmpInteger a b).sign = (intValue a - intValue b).sign ∧
      ∀ op, evalCompOp op (cmpInteger a b) = if op.Holds (intValue a) (intValue b) then ['1'] else ['0']) ↔
    (isNeg a ≠ isNeg b → ¬(isZero a ∧ isZero b)) ∧
      (isNeg a = false → isNeg b = false → KeepsSign (digitCount a - digitCount b)) ∧
      (isNeg a → isNeg b → KeepsSign (digitCount b - digitCount a)) := by
  rw [← sign_cmpInteger ha hb]
  exact ⟨And.left, fun h => ⟨h, evalCompOp_of_sign h⟩⟩

theorem cmpInteger_order_small :
    (cmpInteger ['-', '7'] ['0', '3']).sign = (intValue ['-', '7'] - intValue ['0', '3']).sign :=
  ((@cmpInteger_order ['-', '7'] ['0', '3'] (by decide) (by decide)).mpr (by decide)).1

/-- Two spellings of zero compare as different. -/
theorem cmpInteger_minus_zero : isInteger ['-', '0'] ∧ isInteger ['0'] ∧
    (cmpInteger ['-', '0'] ['0']).sign ≠ (intValue ['-', '0'] - intValue ['0']).sign := by decide

end

end SomeOs.Expr

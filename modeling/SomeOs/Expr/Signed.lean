import SomeOs.Expr.Arithmetic

/-! # Arithmetic with signs

The calls end after a few steps of recursion whatever the numbers are: a sign is taken off, the
arguments change places once, and digits are left.
-/
namespace SomeOs.Expr

/-- From some depth on a call gives the same text, an integer of value `v`. -/
def Yields (f : ℕ → Run Str) (v : ℤ) : Prop :=
  ∃ r depth, isInteger r ∧ intValue r = v ∧ ∀ fuel ≥ depth, f fuel = .ok r

/-- From that depth on a call gives a text of value `v` without superfluous zeros. -/
def Computes (f : ℕ → Run Str) (depth : ℕ) (v : ℤ) : Prop :=
  ∃ r, IsCanonical (magnitude r) ∧ intValue r = v ∧ ∀ fuel ≥ depth, f fuel = .ok r

section
variable {a b x y r arg : Str} {f g : ℕ → Run Str} {depth n : ℕ} {v : ℤ} {c : Char}

theorem IsCanonical.isInteger (h : IsCanonical (magnitude r)) : isInteger r := isInteger_iff.mpr ⟨h.1, h.ne_nil⟩

theorem Computes.yields (h : Computes f depth v) : Yields f v := by
  obtain ⟨r, hcan, hval, hrun⟩ := h
  exact ⟨r, depth, hcan.isInteger, hval, hrun⟩

theorem Computes.mono {depth' : ℕ} (h : Computes f depth v) (hle : depth ≤ depth') : Computes f depth' v := by
  obtain ⟨r, hcan, hval, hrun⟩ := h
  exact ⟨r, hcan, hval, fun fuel hfuel => hrun fuel (hle.trans hfuel)⟩

theorem Computes.congr {w : ℤ} (h : Computes f depth v) (hv : v = w) : Computes f depth w := hv ▸ h

theorem Computes.succ (h : Computes g depth v) (hstep : ∀ fuel, f (fuel + 1) = g fuel) : Computes f (depth + 1) v := by
  obtain ⟨r, hcan, hval, hrun⟩ := h
  refine ⟨r, hcan, hval, fun fuel hfuel => ?_⟩
  obtain ⟨fuel, rfl⟩ := Nat.exists_eq_add_one.mpr (Nat.zero_lt_of_lt hfuel)
  rw [hstep]
  exact hrun fuel (Nat.le_of_succ_le_succ hfuel)

theorem magnitude_digits (h : IsDigits arg) : magnitude arg = arg := magnitude_of_not_isNeg (isNeg_of_isDigits h)

theorem intValue_digits (h : IsDigits arg) : intValue arg = natValue arg := by
  rw [intValue, isNeg_of_isDigits h]
  rfl

theorem magnitude_minus (arg : Str) : magnitude ('-' :: arg) = arg := rfl

theorem negInline_eq (h : IsDigits (magnitude r)) :
    magnitude (negInline r) = magnitude r ∧ intValue (negInline r) = -intValue r := by
  by_cases hneg : isNeg r
  · have hr : negInline r = magnitude r := by rw [negInline, magnitude, if_pos hneg, if_pos hneg]
    rw [hr, magnitude_digits h, intValue_digits h, intValue_eq, if_pos hneg, neg_neg]
    exact ⟨rfl, rfl⟩
  · rw [Bool.not_eq_true] at hneg
    have hr : magnitude r = r := magnitude_of_not_isNeg hneg
    rw [hr] at h
    have hminus : negInline r = '-' :: r := by rw [negInline, hneg]; rfl
    rw [hminus, magnitude_minus, hr, intValue_digits h]
    exact ⟨rfl, rfl⟩

theorem Computes.neg (h : Computes f depth v) :
    Computes (fun fuel => do pure (negInline (← f fuel))) depth (-v) := by
  obtain ⟨r, hcan, hval, hrun⟩ := h
  obtain ⟨hmag, hneg⟩ := negInline_eq hcan.1
  refine ⟨negInline r, hmag ▸ hcan, by rw [hneg, hval], fun fuel hfuel => ?_⟩
  simp only [hrun fuel hfuel]
  rfl

theorem Computes.of_digits (hcan : IsCanonical r) (hval : (natValue r : ℤ) = v) (hrun : ∀ fuel ≥ depth, f fuel = .ok r) :
    Computes f depth v :=
  ⟨r, (magnitude_digits hcan.1).symm ▸ hcan, by rw [intValue_digits hcan.1, hval], hrun⟩

theorem digitCount_digits (h : IsDigits arg) : digitCount arg = (stripZeros arg).length := by
  rw [digitCount, magnitude_digits h]

theorem digitCount_magnitude (h : isInteger a) : digitCount (magnitude a) = digitCount a :=
  digitCount_digits (isInteger_iff.mp h).1

theorem digitCount_le_of_lt (h : IsDigits arg) (hlt : natValue arg < 10 ^ n) : digitCount arg ≤ n := by
  rw [digitCount_digits h]
  rcases stripZeros_eq arg with hnil | ⟨c, l, hcons, hc⟩
  · rw [hnil]
    exact Nat.zero_le n
  · have hdigit := h.stripZeros c (hcons ▸ List.mem_cons_self)
    rw [← natValue_stripZeros h, hcons] at hlt
    have hle := Numeral.length_le_of_value_lt (by decide) (mt (digitVal_eq_zero hdigit).mp hc) hlt
    rw [hcons]
    simpa using hle

theorem natValue_lt_digitCount (h : IsDigits arg) : natValue arg < 10 ^ digitCount arg := by
  rw [digitCount_digits h, ← natValue_stripZeros h]
  exact natValue_lt h.stripZeros

theorem keepsSign_of_lt {m n : ℕ} (hm : m < 2 ^ 31) (hn : n < 2 ^ 31) : KeepsSign (m - n) := by
  rw [KeepsSign, toInt, Int.bmod_eq_of_le (by omega) (by omega)]

theorem cmpInteger_digits (hx : IsDigits x) (hy : IsDigits y) (hcx : digitCount x < 2 ^ 31) (hcy : digitCount y < 2 ^ 31) :
    (cmpInteger x y < 0 ↔ natValue x < natValue y) ∧ (cmpInteger x y > 0 ↔ natValue y < natValue x) := by
  have hcmp : cmpInteger x y = cmpDigits x y := by
    unfold cmpInteger
    simp [isNeg_of_isDigits hx, isNeg_of_isDigits hy]
  rw [digitCount_digits hx] at hcx
  rw [digitCount_digits hy] at hcy
  have hsign := (sign_cmpDigits hx hy).mpr (keepsSign_of_lt hcx hcy)
  rw [hcmp, gt_iff_lt, ← Int.sign_eq_neg_one_iff_neg, ← Int.sign_eq_one_iff_pos, hsign, Int.sign_eq_neg_one_iff_neg,
    Int.sign_eq_one_iff_pos]
  omega

theorem addInteger_digits (hx : IsDigits x) (hy : IsDigits y) (hcx : digitCount x < 2 ^ 31) (hcy : digitCount y < 2 ^ 31) :
    ∃ r, IsCanonical r ∧ natValue r = natValue x + natValue y ∧ ∀ fuel ≥ 2, addInteger fuel x y = .ok r := by
  have hstep : ∀ fuel, addInteger (fuel + 1) x y = if natValue x < natValue y then addInteger fuel y x else addDigits x y := by
    intro fuel
    simp [addInteger, isNeg_of_isDigits hx, isNeg_of_isDigits hy, (cmpInteger_digits hx hy hcx hcy).1]
  have hstep' : ∀ fuel, addInteger (fuel + 1) y x = if natValue y < natValue x then addInteger fuel x y else addDigits y x := by
    intro fuel
    simp [addInteger, isNeg_of_isDigits hx, isNeg_of_isDigits hy, (cmpInteger_digits hy hx hcy hcx).1]
  by_cases hlt : natValue x < natValue y
  · obtain ⟨r, hr, hcan, hval⟩ := addDigits_eq hy hx (not_lt.mp fun h => hlt.not_gt (natValue_lt_of_length_lt hy hx h))
    refine ⟨r, hcan, hval.trans (Nat.add_comm _ _), fun fuel hfuel => ?_⟩
    obtain ⟨fuel, rfl⟩ := Nat.exists_eq_add_of_le hfuel
    rw [Nat.add_comm, hstep, if_pos hlt, hstep', if_neg hlt.not_gt, hr]
  · obtain ⟨r, hr, hcan, hval⟩ := addDigits_eq hx hy (not_lt.mp fun h => hlt (natValue_lt_of_length_lt hx hy h))
    refine ⟨r, hcan, hval, fun fuel hfuel => ?_⟩
    obtain ⟨fuel, rfl⟩ := Nat.exists_eq_add_of_le hfuel
    rw [Nat.add_comm, hstep, if_neg hlt, hr]

theorem subInteger_step (hx : IsDigits x) (hy : IsDigits y) (hcx : digitCount x < 2 ^ 31) (hcy : digitCount y < 2 ^ 31)
    (fuel : ℕ) : subInteger (fuel + 1) x y =
      if natValue x < natValue y then (do pure (negInline (← subInteger fuel y x))) else subDigits x y := by
  simp [subInteger, isNeg_of_isDigits hx, isNeg_of_isDigits hy, (cmpInteger_digits hx hy hcx hcy).1]

theorem subInteger_digits_of_le (hx : IsDigits x) (hy : IsDigits y) (hcx : digitCount x < 2 ^ 31)
    (hcy : digitCount y < 2 ^ 31) (hpos : 0 < natValue x) (hle : natValue y ≤ natValue x) :
    ∃ r, IsCanonical r ∧ natValue r = natValue x - natValue y ∧ ∀ fuel ≥ 1, subInteger fuel x y = .ok r := by
  obtain ⟨r, hr, hcan, hval⟩ := subDigits_eq hx hy hpos hle
  refine ⟨r, hcan, hval, fun fuel hfuel => ?_⟩
  obtain ⟨fuel, rfl⟩ := Nat.exists_eq_add_one.mpr hfuel
  rw [subInteger_step hx hy hcx hcy, if_neg hle.not_gt, hr]

theorem subInteger_digits (hx : IsDigits x) (hy : IsDigits y) (hcx : digitCount x < 2 ^ 31) (hcy : digitCount y < 2 ^ 31)
    (hne : ¬(natValue x = 0 ∧ natValue y = 0)) :
    Computes (fun fuel => subInteger fuel x y) 2 (natValue x - natValue y) := by
  by_cases hlt : natValue x < natValue y
  · obtain ⟨r, hcan, hval, hrun⟩ := subInteger_digits_of_le hy hx hcy hcx (by omega) hlt.le
    have hsub : Computes (fun fuel => subInteger fuel y x) 1 ((natValue y - natValue x : ℕ) : ℤ) :=
      Computes.of_digits hcan (by rw [hval]) hrun
    have hneg := hsub.neg.succ (f := fun fuel => subInteger fuel x y) fun fuel => by
      rw [subInteger_step hx hy hcx hcy, if_pos hlt]
    exact hneg.congr (by omega)
  · obtain ⟨r, hcan, hval, hrun⟩ := subInteger_digits_of_le hx hy hcx hcy (by omega) (not_lt.mp hlt)
    have hsub := Computes.of_digits (v := natValue x - natValue y) hcan (by omega) hrun
    exact hsub.mono (by decide)

theorem subInteger_zero (hx : IsDigits x) (hy : IsDigits y) (hne : x ≠ []) (hx0 : natValue x = 0) (hy0 : natValue y = 0)
    (fuel : ℕ) : subInteger (fuel + 1) x y = .error .outOfBounds := by
  have hcx : digitCount x = 0 := Nat.le_zero.mp (digitCount_le_of_lt hx (by rw [hx0]; decide))
  have hcy : digitCount y = 0 := Nat.le_zero.mp (digitCount_le_of_lt hy (by rw [hy0]; decide))
  rw [subInteger_step hx hy (by omega) (by omega), if_neg (by omega), subDigits_zero hx0 hx hne]

theorem addInteger_signs (a b : Str) (fuel : ℕ) :
    addInteger (fuel + 1) a b =
      if isNeg a && isNeg b then (do pure (negInline (← addInteger fuel (magnitude a) (magnitude b))))
      else if isNeg a then
        if cmpInteger (magnitude a) (magnitude b) > 0 then
          (do pure (negInline (← subInteger fuel (magnitude a) (magnitude b))))
        else subInteger fuel (magnitude b) (magnitude a)
      else if isNeg b then
        if cmpInteger (magnitude a) (magnitude b) < 0 then
          (do pure (negInline (← subInteger fuel (magnitude b) (magnitude a))))
        else subInteger fuel (magnitude a) (magnitude b)
      else addInteger (fuel + 1) (magnitude a) (magnitude b) := by
  cases hna : isNeg a <;> cases hnb : isNeg b
  · simp [magnitude_of_not_isNeg hna, magnitude_of_not_isNeg hnb]
  · simp [addInteger, hna, hnb, magnitude]
  · simp [addInteger, hna, hnb, magnitude]
  · simp [addInteger, hna, hnb, magnitude]

theorem subInteger_signs (a b : Str) (fuel : ℕ) :
    subInteger (fuel + 1) a b =
      if isNeg a && isNeg b then subInteger fuel (magnitude b) (magnitude a)
      else if isNeg a then (do pure (negInline (← addInteger fuel (magnitude a) (magnitude b))))
      else if isNeg b then addInteger fuel (magnitude a) (magnitude b)
      else subInteger (fuel + 1) (magnitude a) (magnitude b) := by
  cases hna : isNeg a <;> cases hnb : isNeg b
  · simp [magnitude_of_not_isNeg hna, magnitude_of_not_isNeg hnb]
  · simp [subInteger, hna, hnb, magnitude]
  · simp [subInteger, hna, hnb, magnitude]
  · simp [subInteger, hna, hnb, magnitude]

theorem isNeg_cases (arg : Str) : isNeg arg ∧ intValue arg = -(natValue (magnitude arg) : ℤ) ∨
    isNeg arg = false ∧ intValue arg = natValue (magnitude arg) := by
  rw [intValue_eq]
  cases isNeg arg
  · exact Or.inr ⟨rfl, rfl⟩
  · exact Or.inl ⟨rfl, rfl⟩

/-- Sums are right unless two zeros differ in their signs. -/
theorem addInteger_computes (ha : isInteger a) (hb : isInteger b) (hca : digitCount a < 2 ^ 31)
    (hcb : digitCount b < 2 ^ 31) (hne : isNeg a ≠ isNeg b → ¬(isZero a ∧ isZero b)) :
    Computes (fun fuel => addInteger fuel a b) 3 (intValue a + intValue b) := by
  obtain ⟨hda, -⟩ := isInteger_iff.mp ha
  obtain ⟨hdb, -⟩ := isInteger_iff.mp hb
  rw [← digitCount_magnitude ha] at hca
  rw [← digitCount_magnitude hb] at hcb
  rw [isZero_iff ha, isZero_iff hb] at hne
  obtain ⟨hlt, hgt⟩ := cmpInteger_digits hda hdb hca hcb
  obtain ⟨r, hcan, hval, hrun⟩ := addInteger_digits hda hdb hca hcb
  have hadd : Computes (fun fuel => addInteger fuel (magnitude a) (magnitude b)) 2
      ((natValue (magnitude a) + natValue (magnitude b) : ℕ) : ℤ) := Computes.of_digits hcan (by rw [hval]) hrun
  rcases isNeg_cases a with ⟨hna, hva⟩ | ⟨hna, hva⟩ <;> rcases isNeg_cases b with ⟨hnb, hvb⟩ | ⟨hnb, hvb⟩
  · have hneg := hadd.neg.succ (f := fun fuel => addInteger fuel a b) fun fuel => by
      simp [addInteger_signs a b, hna, hnb]
    exact hneg.congr (by omega)
  · have hne' := hne (by simp [hna, hnb])
    by_cases hlt' : natValue (magnitude b) < natValue (magnitude a)
    · have hneg := (subInteger_digits hda hdb hca hcb hne').neg.succ (f := fun fuel => addInteger fuel a b) fun fuel => by
        simp [addInteger_signs a b, hna, hnb, hgt.mpr hlt']
      exact hneg.congr (by omega)
    · have hsub := (subInteger_digits hdb hda hcb hca fun h => hne' h.symm).succ (f := fun fuel => addInteger fuel a b)
        fun fuel => by simp [addInteger_signs a b, hna, hnb, hgt, hlt']
      exact hsub.congr (by omega)
  · have hne' := hne (by simp [hna, hnb])
    by_cases hlt' : natValue (magnitude a) < natValue (magnitude b)
    · have hneg := (subInteger_digits hdb hda hcb hca fun h => hne' h.symm).neg.succ
        (f := fun fuel => addInteger fuel a b) fun fuel => by
          simp [addInteger_signs a b, hna, hnb, hlt.mpr hlt']
      exact hneg.congr (by omega)
    · have hsub := (subInteger_digits hda hdb hca hcb hne').succ (f := fun fuel => addInteger fuel a b)
        fun fuel => by simp [addInteger_signs a b, hna, hnb, hlt, hlt']
      exact hsub.congr (by omega)
  · have hboth := (hadd.mono (show 2 ≤ 3 by decide)).congr (w := intValue a + intValue b) (by omega)
    rwa [magnitude_of_not_isNeg hna, magnitude_of_not_isNeg hnb] at hboth

/-- Differences are right unless zero is taken from a zero of the same sign. -/
theorem subInteger_computes (ha : isInteger a) (hb : isInteger b) (hca : digitCount a < 2 ^ 31)
    (hcb : digitCount b < 2 ^ 31) (hne : isNeg a = isNeg b → ¬(isZero a ∧ isZero b)) :
    Computes (fun fuel => subInteger fuel a b) 3 (intValue a - intValue b) := by
  obtain ⟨hda, -⟩ := isInteger_iff.mp ha
  obtain ⟨hdb, -⟩ := isInteger_iff.mp hb
  rw [← digitCount_magnitude ha] at hca
  rw [← digitCount_magnitude hb] at hcb
  rw [isZero_iff ha, isZero_iff hb] at hne
  obtain ⟨r, hcan, hval, hrun⟩ := addInteger_digits hda hdb hca hcb
  have hadd : Computes (fun fuel => addInteger fuel (magnitude a) (magnitude b)) 2
      ((natValue (magnitude a) + natValue (magnitude b) : ℕ) : ℤ) := Computes.of_digits hcan (by rw [hval]) hrun
  rcases isNeg_cases a with ⟨hna, hva⟩ | ⟨hna, hva⟩ <;> rcases isNeg_cases b with ⟨hnb, hvb⟩ | ⟨hnb, hvb⟩
  · have hne' := hne (by rw [hna, hnb])
    have hsub := (subInteger_digits hdb hda hcb hca fun h => hne' h.symm).succ (f := fun fuel => subInteger fuel a b)
      fun fuel => by simp [subInteger_signs a b, hna, hnb]
    exact hsub.congr (by omega)
  · have hneg := hadd.neg.succ (f := fun fuel => subInteger fuel a b) fun fuel => by
      simp [subInteger_signs a b, hna, hnb]
    exact hneg.congr (by omega)
  · have hpos := hadd.succ (f := fun fuel => subInteger fuel a b) fun fuel => by
      simp [subInteger_signs a b, hna, hnb]
    exact hpos.congr (by omega)
  · have hne' := hne (by rw [hna, hnb])
    have hboth := ((subInteger_digits hda hdb hca hcb hne').mono (show 2 ≤ 3 by decide)).congr
      (w := intValue a - intValue b) (by omega)
    rwa [magnitude_of_not_isNeg hna, magnitude_of_not_isNeg hnb] at hboth

theorem outOfBounds_of_isZero (ha : isInteger a) (hb : isInteger b) (hza : isZero a) (hzb : isZero b) (fuel : ℕ) :
    addInteger (fuel + 2) a b = .error .outOfBounds ∨ subInteger (fuel + 2) a b = .error .outOfBounds := by
  obtain ⟨hda, hnea⟩ := isInteger_iff.mp ha
  obtain ⟨hdb, hneb⟩ := isInteger_iff.mp hb
  rw [isZero_iff ha] at hza
  rw [isZero_iff hb] at hzb
  have hca : digitCount (magnitude a) = 0 := Nat.le_zero.mp (digitCount_le_of_lt hda (by rw [hza]; decide))
  have hcb : digitCount (magnitude b) = 0 := Nat.le_zero.mp (digitCount_le_of_lt hdb (by rw [hzb]; decide))
  obtain ⟨hlt, hgt⟩ := cmpInteger_digits hda hdb (by omega) (by omega)
  have hab := subInteger_zero hda hdb hnea hza hzb
  have hba := subInteger_zero hdb hda hneb hzb hza
  cases hna : isNeg a <;> cases hnb : isNeg b
  · right
    simp [subInteger_signs a b, hna, hnb, hab]
  · left
    simp [addInteger_signs a b, hna, hnb, hab, hlt, hza, hzb]
  · left
    simp [addInteger_signs a b, hna, hnb, hba, hgt, hza, hzb]
  · right
    simp [subInteger_signs a b, hna, hnb, hba]

theorem isDigits_decShiftInline (h : IsDigits arg) (pow : ℕ) : IsDigits (decShiftInline arg pow) := by
  intro c hc
  rcases List.mem_append.mp hc with hc | hc
  · exact h c hc
  · rw [List.eq_of_mem_replicate hc]
    rfl

theorem natValue_replicate_zero (n : ℕ) : natValue (List.replicate n '0') = 0 := by
  induction n with
  | zero => rfl
  | succ n ih =>
    rw [List.replicate_succ, natValue, List.map_cons, Numeral.value_cons, ← natValue, ih]
    exact Nat.zero_mul _

theorem natValue_decShiftInline (arg : Str) (pow : ℕ) : natValue (decShiftInline arg pow) = natValue arg * 10 ^ pow := by
  rw [decShiftInline, natValue_append, List.length_replicate, natValue_replicate_zero, Nat.add_zero]

theorem natValue_cons (c : Char) (arg : Str) : natValue (c :: arg) = digitVal c * 10 ^ arg.length + natValue arg := by
  rw [natValue, List.map_cons, Numeral.value_cons, List.length_map, natValue]

theorem natValue_singleton (c : Char) : natValue [c] = digitVal c := by
  rw [natValue_cons, List.length_nil, pow_zero, mul_one]
  rfl

theorem mulInteger_step (hx : IsDigits x) (hy : IsDigits y) (hcx : digitCount x < 2 ^ 31) (hcy : digitCount y < 2 ^ 31)
    (fuel : ℕ) : mulInteger (fuel + 1) x y =
      if natValue x < natValue y then mulInteger fuel y x
      else if (stripZeros y).length = 1 then mulDigit (stripZeros x) ((stripZeros y).getD 0 '0')
      else mulParts fuel (fun c => mulInteger fuel (stripZeros x) [c]) (stripZeros y) ['0'] := by
  simp only [mulInteger, isNeg_of_isDigits hx, isNeg_of_isDigits hy, Bool.and_self, Bool.false_eq_true, if_false,
    (cmpInteger_digits hx hy hcx hcy).1]

theorem isCanonical_zero : IsCanonical ['0'] := ⟨List.forall_mem_singleton.mpr rfl, Or.inl rfl⟩

theorem mulInteger_digit (hx : IsDigits x) (hcx : digitCount x < 2 ^ 31) (hten : 10 ≤ natValue x) (hc : c.isDigit) :
    ∃ p, IsCanonical p ∧ natValue p = natValue x * digitVal c ∧ ∀ fuel ≥ 1, mulInteger fuel x [c] = .ok p := by
  have hdigits : IsDigits [c] := List.forall_mem_singleton.mpr hc
  have hlt := digitVal_lt hc
  have hcount : digitCount [c] ≤ 1 := digitCount_le_of_lt hdigits (by rw [natValue_singleton]; exact hlt)
  have hstep : ∀ fuel, mulInteger (fuel + 1) x [c] = _ := mulInteger_step hx hdigits hcx (by omega)
  simp only [natValue_singleton, show ¬natValue x < digitVal c by omega, if_false] at hstep
  by_cases h0 : c = '0'
  · refine ⟨['0'], isCanonical_zero, ?_, fun fuel hfuel => ?_⟩
    · rw [(digitVal_eq_zero hc).mpr h0]
      rfl
    · obtain ⟨fuel, rfl⟩ := Nat.exists_eq_add_one.mpr hfuel
      rw [hstep, h0]
      rfl
  · obtain ⟨p, hp, hcan, hval⟩ := mulDigit_eq hx.stripZeros hc
    refine ⟨p, hcan, by rw [hval, natValue_stripZeros hx], fun fuel hfuel => ?_⟩
    obtain ⟨fuel, rfl⟩ := Nat.exists_eq_add_one.mpr hfuel
    have hstrip : stripZeros [c] = [c] := List.dropWhile_cons_of_neg (by simpa using h0)
    rw [hstep, hstrip]
    exact hp

/-- The loop over the digits of the second factor, with each product at its place. -/
theorem mulParts_eq {snd res : Str} (hx : IsDigits x) (hcx : digitCount x < 2 ^ 31) (hten : 10 ≤ natValue x)
    (hsnd : IsDigits snd) (hres : IsCanonical res) (hn : n < 2 ^ 31)
    (hlt : natValue res + natValue x * natValue snd < 10 ^ n) :
    ∃ r, IsCanonical r ∧ natValue r = natValue res + natValue x * natValue snd ∧
      ∀ fuel ≥ 2, mulParts fuel (fun c => mulInteger fuel x [c]) snd res = .ok r := by
  induction snd generalizing res with
  | nil => exact ⟨res, hres, rfl, fun fuel _ => rfl⟩
  | cons c snd ih =>
    obtain ⟨hc, hsnd⟩ := List.forall_mem_cons.mp hsnd
    obtain ⟨p, hpcan, hpval, hprun⟩ := mulInteger_digit hx hcx hten hc
    have hpart := isDigits_decShiftInline hpcan.1 snd.length
    have hpartval := natValue_decShiftInline p snd.length
    have htotal : natValue x * natValue (c :: snd) =
        natValue x * digitVal c * 10 ^ snd.length + natValue x * natValue snd := by
      rw [natValue_cons]
      ring
    rw [hpval] at hpartval
    rw [htotal] at hlt ⊢
    obtain ⟨next, hnext, hval, hrun⟩ := addInteger_digits hres.1 hpart
      ((digitCount_le_of_lt hres.1 (show _ < 10 ^ n by omega)).trans_lt hn)
      ((digitCount_le_of_lt hpart (show _ < 10 ^ n by omega)).trans_lt hn)
    rw [hpartval] at hval
    obtain ⟨r, hr, hrval, hrrun⟩ := ih hsnd hnext (by omega)
    refine ⟨r, hr, by omega, fun fuel hfuel => ?_⟩
    rw [mulParts, hprun fuel (by omega)]
    simp only [bind, Except.bind, hrun fuel hfuel, hrrun fuel hfuel]

theorem mulInteger_digits_of_le (hx : IsDigits x) (hy : IsDigits y) (hc : digitCount x + digitCount y < 2 ^ 31)
    (hle : natValue y ≤ natValue x) :
    ∃ r, IsCanonical r ∧ natValue r = natValue x * natValue y ∧ ∀ fuel ≥ 3, mulInteger fuel x y = .ok r := by
  have hstep : ∀ fuel, mulInteger (fuel + 1) x y = _ := mulInteger_step hx hy (by omega) (by omega)
  simp only [show ¬natValue x < natValue y by omega, if_false] at hstep
  have hstrip := natValue_stripZeros hx
  by_cases hone : (stripZeros y).length = 1
  · obtain ⟨c, hyc⟩ := List.length_eq_one_iff.mp hone
    obtain ⟨r, hr, hcan, hval⟩ := mulDigit_eq hx.stripZeros (hy.stripZeros c (hyc ▸ List.mem_cons_self))
    refine ⟨r, hcan, ?_, fun fuel hfuel => ?_⟩
    · rw [hval, hstrip, ← natValue_stripZeros hy, hyc, natValue_singleton]
    · obtain ⟨fuel, rfl⟩ := Nat.exists_eq_add_one.mpr (Nat.zero_lt_of_lt hfuel)
      rw [hstep, if_pos hone, hyc]
      exact hr
  · have hzero : natValue (['0'] : Str) = 0 := rfl
    have hparts : ∃ r, IsCanonical r ∧ natValue r = natValue x * natValue y ∧ ∀ fuel ≥ 2,
        mulParts fuel (fun c => mulInteger fuel (stripZeros x) [c]) (stripZeros y) ['0'] = .ok r := by
      rcases stripZeros_eq y with hnil | ⟨c, l, hcons, hc0⟩
      · rw [hnil, (natValue_eq_zero_iff hy).mpr hnil]
        exact ⟨['0'], isCanonical_zero, rfl, fun fuel _ => rfl⟩
      · have hlong : 1 ≤ l.length := by
          rw [hcons, List.length_cons] at hone
          omega
        have hten : 10 ≤ natValue y := by
          have hdigit := hy.stripZeros c (hcons ▸ List.mem_cons_self)
          have hpow := Numeral.pow_le_value_cons (b := 10) (mt (digitVal_eq_zero hdigit).mp hc0) (l.map digitVal)
          rw [← natValue_stripZeros hy, hcons]
          exact (Nat.pow_le_pow_right (n := 10) (by decide) (by simpa using hlong)).trans hpow
        have hcount : digitCount (stripZeros x) = digitCount x := by
          rw [digitCount_digits hx.stripZeros, digitCount_digits hx, stripZeros, stripZeros, List.dropWhile_idempotent]
        have hlt : natValue x * natValue y < 10 ^ (digitCount x + digitCount y) := by
          rw [pow_add]
          exact Nat.mul_lt_mul'' (natValue_lt_digitCount hx) (natValue_lt_digitCount hy)
        have hval := natValue_stripZeros hy
        obtain ⟨r, hcan, hr, hrun⟩ := @mulParts_eq (stripZeros x) (digitCount x + digitCount y) (stripZeros y) ['0']
          hx.stripZeros (by omega) (by omega) hy.stripZeros isCanonical_zero hc (by rw [hstrip, hval, hzero]; omega)
        exact ⟨r, hcan, by rw [hr, hstrip, hval, hzero, Nat.zero_add], hrun⟩
    obtain ⟨r, hcan, hval, hrun⟩ := hparts
    refine ⟨r, hcan, hval, fun fuel hfuel => ?_⟩
    obtain ⟨fuel, rfl⟩ := Nat.exists_eq_add_one.mpr (Nat.zero_lt_of_lt hfuel)
    rw [hstep, if_neg hone]
    exact hrun fuel (by omega)

theorem mulInteger_digits (hx : IsDigits x) (hy : IsDigits y) (hc : digitCount x + digitCount y < 2 ^ 31) :
    ∃ r, IsCanonical r ∧ natValue r = natValue x * natValue y ∧ ∀ fuel ≥ 4, mulInteger fuel x y = .ok r := by
  by_cases hlt : natValue x < natValue y
  · obtain ⟨r, hcan, hval, hrun⟩ := mulInteger_digits_of_le hy hx (by omega) hlt.le
    refine ⟨r, hcan, hval.trans (Nat.mul_comm _ _), fun fuel hfuel => ?_⟩
    obtain ⟨fuel, rfl⟩ := Nat.exists_eq_add_one.mpr (Nat.zero_lt_of_lt hfuel)
    rw [mulInteger_step hx hy (by omega) (by omega), if_pos hlt]
    exact hrun fuel (by omega)
  · obtain ⟨r, hcan, hval, hrun⟩ := mulInteger_digits_of_le hx hy hc (not_lt.mp hlt)
    exact ⟨r, hcan, hval, fun fuel hfuel => hrun fuel (by omega)⟩

theorem mulInteger_signs (a b : Str) (fuel : ℕ) :
    mulInteger (fuel + 1) a b =
      if isNeg a && isNeg b then mulInteger fuel (magnitude a) (magnitude b)
      else if isNeg a then (do pure (negInline (← mulInteger fuel (magnitude a) (magnitude b))))
      else if isNeg b then (do pure (negInline (← mulInteger fuel (magnitude a) (magnitude b))))
      else mulInteger (fuel + 1) (magnitude a) (magnitude b) := by
  cases hna : isNeg a <;> cases hnb : isNeg b
  · simp [magnitude_of_not_isNeg hna, magnitude_of_not_isNeg hnb]
  · simp [mulInteger, hna, hnb, magnitude]
  · simp [mulInteger, hna, hnb, magnitude]
  · simp [mulInteger, hna, hnb, magnitude]

theorem mulInteger_computes (ha : isInteger a) (hb : isInteger b) (hc : digitCount a + digitCount b < 2 ^ 31) :
    Computes (fun fuel => mulInteger fuel a b) 5 (intValue a * intValue b) := by
  rw [← digitCount_magnitude ha, ← digitCount_magnitude hb] at hc
  obtain ⟨r, hcan, hval, hrun⟩ := mulInteger_digits (isInteger_iff.mp ha).1 (isInteger_iff.mp hb).1 hc
  have hmul : Computes (fun fuel => mulInteger fuel (magnitude a) (magnitude b)) 4
      ((natValue (magnitude a) : ℤ) * natValue (magnitude b)) := Computes.of_digits hcan (by rw [hval, Nat.cast_mul]) hrun
  rcases isNeg_cases a with ⟨hna, hva⟩ | ⟨hna, hva⟩ <;> rcases isNeg_cases b with ⟨hnb, hvb⟩ | ⟨hnb, hvb⟩
  · have hpos := hmul.succ (f := fun fuel => mulInteger fuel a b) fun fuel => by
      simp [mulInteger_signs a b, hna, hnb]
    exact hpos.congr (by rw [hva, hvb, neg_mul_neg])
  · have hneg := hmul.neg.succ (f := fun fuel => mulInteger fuel a b) fun fuel => by
      simp [mulInteger_signs a b, hna, hnb]
    exact hneg.congr (by rw [hva, hvb, neg_mul])
  · have hneg := hmul.neg.succ (f := fun fuel => mulInteger fuel a b) fun fuel => by
      simp [mulInteger_signs a b, hna, hnb]
    exact hneg.congr (by rw [hva, hvb, mul_neg])
  · have hboth := (hmul.mono (show 4 ≤ 5 by decide)).congr (w := intValue a * intValue b) (by rw [hva, hvb])
    rwa [magnitude_of_not_isNeg hna, magnitude_of_not_isNeg hnb] at hboth

/-- Sum, difference and product are right for integers that are not both zero and whose digits together are fewer
than `2 ^ 31`; of two zeros never all of them are. -/
theorem arithmetic_exact (ha : isInteger a) (hb : isInteger b) :
    (Yields (fun fuel => addInteger fuel a b) (intValue a + intValue b) ∧
      Yields (fun fuel => subInteger fuel a b) (intValue a - intValue b) ∧
      Yields (fun fuel => mulInteger fuel a b) (intValue a * intValue b) → ¬(isZero a ∧ isZero b)) ∧
    (digitCount a + digitCount b < 2 ^ 31 ∧ ¬(isZero a ∧ isZero b) →
      Yields (fun fuel => addInteger fuel a b) (intValue a + intValue b) ∧
      Yields (fun fuel => subInteger fuel a b) (intValue a - intValue b) ∧
      Yields (fun fuel => mulInteger fuel a b) (intValue a * intValue b)) := by
  constructor
  · rintro ⟨⟨r, m, -, -, hadd⟩, ⟨s, n, -, -, hsub⟩, -⟩ ⟨hza, hzb⟩
    rcases outOfBounds_of_isZero ha hb hza hzb (m + n) with h | h
    · exact absurd ((hadd _ (by omega)).symm.trans h) (by simp)
    · exact absurd ((hsub _ (by omega)).symm.trans h) (by simp)
  · rintro ⟨hc, hne⟩
    exact ⟨(addInteger_computes ha hb (by omega) (by omega) fun _ => hne).yields,
      (subInteger_computes ha hb (by omega) (by omega) fun _ => hne).yields, (mulInteger_computes ha hb hc).yields⟩

theorem arithmetic_exact_small : Yields (fun fuel => subInteger fuel ['-', '7'] ['0', '5']) (-12) :=
  ((@arithmetic_exact ['-', '7'] ['0', '5'] (by decide) (by decide)).2 ⟨by decide, by decide⟩).2.1

/-- A zero from a zero. -/
theorem subInteger_zeros : isInteger ['0'] ∧ ¬Yields (fun fuel => subInteger fuel ['0'] ['0']) 0 := by
  refine ⟨by decide, ?_⟩
  rintro ⟨r, n, -, -, hsub⟩
  have hdigits : IsDigits ['0'] := List.forall_mem_singleton.mpr rfl
  exact absurd ((hsub _ (Nat.le_succ n)).symm.trans (subInteger_zero hdigits hdigits (by decide) rfl rfl n)) (by simp)

end

end SomeOs.Expr

import SomeOs.Expr.Signed

/-! # Division of integers as text

The remainder is a text that grows by one digit of the dividend and shrinks by subtraction. It is
only freed from zeros in front when something is subtracted.
-/
namespace SomeOs.Expr

/-- The inner loop of `divRemInteger`, with the remainder and the digit. -/
def divDigit (fuel : ℕ) (snd : Str) : ℕ → Str → ℕ → Run (Str × ℕ)
  | 0, _, _ => .error .outOfFuel
  | n + 1, rem, digit =>
    if cmpInteger rem snd ≥ 0 then do divDigit fuel snd n (← subInteger fuel rem snd) (digit + 1)
    else .ok (rem, digit)

/-- The loop over the dividend; `div` holds the digits written so far. -/
def divLoop (fuel : ℕ) (snd : Str) : Str → Str → Str → Run (Str × Str)
  | [], div, rem => .ok (div, rem)
  | c :: fst, div, rem => do
    let rem ← setBack (decShiftInline rem 1) 0 c
    let (rem, digit) ← divDigit fuel snd fuel rem 0
    divLoop fuel snd fst (div ++ [digitChar digit]) rem

def divRemInteger (fuel : ℕ) (fst snd : Str) : Run (Str × Str) := do
  let (div, rem) ← divLoop fuel snd fst [] ['0']
  pure (← moveNonZero div, rem)

def divInteger : ℕ → Str → Str → Run Str
  | 0, _, _ => .error .outOfFuel
  | fuel + 1, fst, snd =>
    if isNeg fst && isNeg snd then divInteger fuel fst.tail snd.tail
    else if isNeg fst then do pure (negInline (← divInteger fuel fst.tail snd))
    else if isNeg snd then do pure (negInline (← divInteger fuel fst snd.tail))
    else do pure (← divRemInteger fuel fst snd).1

def remInteger : ℕ → Str → Str → Run Str
  | 0, _, _ => .error .outOfFuel
  | fuel + 1, fst, snd =>
    if isNeg fst && isNeg snd then do pure (negInline (← remInteger fuel fst.tail snd.tail))
    else if isNeg fst then do pure (negInline (← remInteger fuel fst.tail snd))
    else if isNeg snd then remInteger fuel fst snd.tail
    else do pure (← divRemInteger fuel fst snd).2

def IsCanonicalInt (arg : Str) : Prop := IsCanonical (magnitude arg) ∧ (isNeg arg → intValue arg ≠ 0)

/-- What division is to do: quotient and remainder in their shortest form, and a report for zero. -/
def Divides (a b : Str) : Prop :=
  if intValue b = 0 then
    ∃ depth, ∀ fuel ≥ depth, divInteger fuel a b = .error .reported ∧ remInteger fuel a b = .error .reported
  else ∃ q r depth, IsCanonicalInt q ∧ IsCanonicalInt r ∧ intValue q = (intValue a).tdiv (intValue b) ∧
    intValue r = (intValue a).tmod (intValue b) ∧
    ∀ fuel ≥ depth, divInteger fuel a b = .ok q ∧ remInteger fuel a b = .ok r

/-- The remainder is written without superfluous zeros: behind the last digit of the quotient that is
not zero there is something left, or no digit follows. -/
def RestShows (m n : ℕ) : Prop := m / n ≠ 0 ∧ ∀ t, 0 < t → 10 ^ t ∣ m / n → m / 10 ^ t % n ≠ 0

def Leads (arg : Str) : Prop := ∃ c l, arg = c :: l ∧ c ≠ '0'

section
variable {a b x y rem div snd : Str} {m n : ℕ} {c : Char}

theorem isCanonical_iff : IsCanonical rem ↔ IsDigits rem ∧ (rem = ['0'] ∨ Leads rem) := Iff.rfl

theorem restShows_step (hn : 0 < n) {d : ℕ} (hd : d < 10) :
    RestShows (m * 10 + d) n ↔ n ≤ m % n * 10 + d ∨ RestShows m n ∧ m % n ≠ 0 := by
  have hdiv : (m * 10 + d) / n = m / n * 10 + (m % n * 10 + d) / n := by
    have hsplit : m * 10 + d = m % n * 10 + d + n * (m / n * 10) := by
      calc m * 10 + d = (n * (m / n) + m % n) * 10 + d := by rw [Nat.div_add_mod]
        _ = _ := by ring
    rw [hsplit, Nat.add_mul_div_left _ _ hn, Nat.add_comm]
  have hlt : (m % n * 10 + d) / n < 10 := by
    rw [Nat.div_lt_iff_lt_mul hn]
    have := Nat.mod_lt m hn
    omega
  by_cases hle : n ≤ m % n * 10 + d
  · have hpos : 0 < (m % n * 10 + d) / n := Nat.div_pos hle hn
    refine ⟨fun _ => Or.inl hle, fun _ => ⟨by omega, fun t ht hdvd => ?_⟩⟩
    have h10 : 10 ∣ m / n * 10 + (m % n * 10 + d) / n := hdiv ▸ (dvd_pow_self 10 ht.ne').trans hdvd
    omega
  · have hzero : (m % n * 10 + d) / n = 0 := Nat.div_eq_of_lt (not_le.mp hle)
    rw [hzero, Nat.add_zero] at hdiv
    have hshift : ∀ t, (m * 10 + d) / 10 ^ (t + 1) = m / 10 ^ t := by
      intro t
      rw [pow_succ, Nat.mul_comm (10 ^ t), ← Nat.div_div_eq_div_mul]
      congr 1
      omega
    rw [RestShows, hdiv, or_iff_right hle]
    constructor
    · rintro ⟨hne, hall⟩
      refine ⟨⟨by omega, fun t ht hdvd => ?_⟩, ?_⟩
      · have := hall (t + 1) t.succ_pos (by rw [pow_succ]; exact Nat.mul_dvd_mul_right hdvd 10)
        rwa [hshift] at this
      · have := hall 1 Nat.one_pos (by rw [pow_one]; exact Nat.dvd_mul_left 10 _)
        rwa [← Nat.zero_add 1, hshift, pow_zero, Nat.div_one] at this
    · rintro ⟨⟨hne, hall⟩, hmod⟩
      refine ⟨by omega, fun t ht hdvd => ?_⟩
      obtain ⟨t, rfl⟩ := Nat.exists_eq_add_one.mpr ht
      rw [hshift]
      rcases Nat.eq_zero_or_pos t with rfl | htpos
      · rwa [pow_zero, Nat.div_one]
      · exact hall t htpos (Nat.dvd_of_mul_dvd_mul_right (by decide : 0 < 10) (by rwa [pow_succ] at hdvd))

theorem leads_concat (hne : rem ≠ []) (c : Char) : Leads (rem ++ [c]) ↔ Leads rem := by
  obtain ⟨d, l, rfl⟩ := List.exists_cons_of_ne_nil hne
  constructor
  · rintro ⟨e, l', heq, he⟩
    obtain ⟨rfl, -⟩ := List.cons.inj heq
    exact ⟨d, l, rfl, he⟩
  · rintro ⟨e, l', heq, he⟩
    obtain ⟨rfl, -⟩ := List.cons.inj heq
    exact ⟨d, l ++ [c], rfl, he⟩

/-- With one more digit behind it, a text is in its shortest form only if it starts with another digit than zero. -/
theorem isCanonical_concat (hrem : IsDigits (rem ++ [c])) (hne : rem ≠ []) :
    IsCanonical (rem ++ [c]) ↔ Leads rem := by
  rw [isCanonical_iff, leads_concat hne]
  refine ⟨fun h => h.2.resolve_left fun heq => ?_, fun h => ⟨hrem, Or.inr h⟩⟩
  have hlen := congrArg List.length heq
  have := List.length_pos_iff.mpr hne
  simp at hlen
  exact hne hlen

theorem IsCanonical.leads (h : IsCanonical rem) : Leads rem ↔ natValue rem ≠ 0 := by
  rcases h.2 with rfl | hlead
  · refine ⟨?_, fun h => absurd rfl h⟩
    rintro ⟨c, l, heq, hc⟩
    exact absurd (List.cons.inj heq).1.symm hc
  · refine ⟨fun _ h0 => ?_, fun _ => hlead⟩
    obtain ⟨c, l, rfl, hc⟩ := hlead
    have hnil := (natValue_eq_zero_iff h.1).mp h0
    rw [stripZeros, List.dropWhile_cons_of_neg (by simpa using hc)] at hnil
    exact List.cons_ne_nil _ _ hnil

/-- The inner loop takes the divisor away as often as it goes. -/
theorem divDigit_eq (hrem : IsDigits rem) (hsnd : IsDigits snd) (hpos : 0 < natValue snd)
    (hc : digitCount snd + 1 < 2 ^ 31) (hlt : natValue rem < natValue snd * 10) (digit : ℕ) :
    ∃ rem', IsDigits rem' ∧ natValue rem' = natValue rem % natValue snd ∧
      (if natValue snd ≤ natValue rem then IsCanonical rem' else rem' = rem) ∧
      ∀ fuel ≥ 1, ∀ n, natValue rem / natValue snd < n →
        divDigit fuel snd n rem digit = .ok (rem', digit + natValue rem / natValue snd) := by
  have hcount : digitCount rem < 2 ^ 31 := by
    refine (digitCount_le_of_lt hrem (show _ < 10 ^ (digitCount snd + 1) from ?_)).trans_lt hc
    rw [pow_succ]
    exact hlt.trans (Nat.mul_lt_mul_of_pos_right (natValue_lt_digitCount hsnd) (by decide))
  have hcmp := (cmpInteger_digits hrem hsnd hcount (by omega)).1
  generalize hq : natValue rem / natValue snd = q
  induction q generalizing rem digit with
  | zero =>
    have hless : natValue rem < natValue snd := by
      rcases Nat.div_eq_zero_iff.mp hq with h | h
      · omega
      · exact h
    refine ⟨rem, hrem, (Nat.mod_eq_of_lt hless).symm, by rw [if_neg (not_le.mpr hless)], fun fuel _ n hn => ?_⟩
    obtain ⟨n, rfl⟩ := Nat.exists_eq_add_one.mpr hn
    rw [divDigit, if_neg (not_le.mpr (hcmp.mpr hless))]
    rfl
  | succ q ih =>
    have hle : natValue snd ≤ natValue rem := by
      by_contra hless
      rw [Nat.div_eq_of_lt (not_le.mp hless)] at hq
      exact absurd hq (Nat.succ_ne_zero q).symm
    obtain ⟨next, hcan, hval, hrun⟩ := subInteger_digits_of_le hrem hsnd hcount (by omega) (by omega) hle
    have hdiv : natValue next / natValue snd = q := by
      rw [hval, Nat.div_eq_sub_div hpos hle] at *
      omega
    have hcountn : digitCount next < 2 ^ 31 := by
      refine (digitCount_le_of_lt hcan.1 (show _ < 10 ^ (digitCount snd + 1) from ?_)).trans_lt hc
      rw [pow_succ]
      have := Nat.mul_lt_mul_of_pos_right (natValue_lt_digitCount hsnd) (show 0 < 10 by decide)
      omega
    obtain ⟨rem', hdigits, hmod, hshape, hloop⟩ := ih hcan.1 (by omega) (digit + 1) hcountn
      (cmpInteger_digits hcan.1 hsnd hcountn (by omega)).1 hdiv
    refine ⟨rem', hdigits, ?_, ?_, fun fuel hfuel n hn => ?_⟩
    · rw [hmod, hval, ← Nat.mod_eq_sub_mod hle]
    · rw [if_pos hle]
      split_ifs at hshape
      · exact hshape
      · exact hshape ▸ hcan
    · obtain ⟨n, rfl⟩ := Nat.exists_eq_add_one.mpr (Nat.zero_lt_of_lt hn)
      rw [divDigit, if_pos (not_lt.mp (mt hcmp.mp hle.not_gt))]
      simp only [bind, Except.bind, hrun fuel hfuel]
      rw [hloop fuel hfuel n (by omega), Nat.add_assoc, Nat.add_comm 1]

theorem setBack_decShiftInline (arg : Str) (c : Char) : setBack (decShiftInline arg 1) 0 c = .ok (arg ++ [c]) :=
  setBack_append arg [] '0' c

/-- What the loop over the dividend keeps when `m` is the number read so far. -/
structure DivInv (snd : Str) (m : ℕ) (div rem : Str) : Prop where
  div_digits : IsDigits div
  div_value : natValue div = m / natValue snd
  rem_digits : IsDigits rem
  rem_ne : rem ≠ []
  rem_value : natValue rem = m % natValue snd
  leads : Leads rem ↔ RestShows m (natValue snd) ∧ m % natValue snd ≠ 0

theorem divLoop_step (hinv : DivInv snd m div rem) (hsnd : IsDigits snd) (hpos : 0 < natValue snd)
    (hc : digitCount snd + 1 < 2 ^ 31) (hdigit : c.isDigit) :
    ∃ d rem', DivInv snd (m * 10 + digitVal c) (div ++ [d]) rem' ∧
      (IsCanonical rem' ↔ RestShows (m * 10 + digitVal c) (natValue snd)) ∧
      ∀ fuel ≥ 11, ∀ fst, divLoop fuel snd (c :: fst) div rem = divLoop fuel snd fst (div ++ [d]) rem' := by
  have hd := digitVal_lt hdigit
  have hmod := Nat.mod_lt m hpos
  have hval : natValue (rem ++ [c]) = m % natValue snd * 10 + digitVal c := by
    rw [natValue_append, natValue_singleton, List.length_singleton, pow_one, hinv.rem_value]
  have hrem : IsDigits (rem ++ [c]) := List.forall_mem_append.mpr ⟨hinv.rem_digits, List.forall_mem_singleton.mpr hdigit⟩
  obtain ⟨rem', hdigits', hval', hshape, hrun⟩ := divDigit_eq hrem hsnd hpos hc (by omega) 0
  have hq : natValue (rem ++ [c]) / natValue snd < 10 := by
    rw [Nat.div_lt_iff_lt_mul hpos]
    omega
  have hsplit : m * 10 + digitVal c = natValue (rem ++ [c]) + natValue snd * (m / natValue snd * 10) := by
    calc m * 10 + digitVal c = (natValue snd * (m / natValue snd) + m % natValue snd) * 10 + digitVal c := by
          rw [Nat.div_add_mod]
      _ = _ := by
        rw [hval]
        ring
  have hmod' : natValue rem' = (m * 10 + digitVal c) % natValue snd := by
    rw [hval', hsplit, Nat.add_mul_mod_self_left]
  have hcan : (IsCanonical rem' ↔ RestShows (m * 10 + digitVal c) (natValue snd)) := by
    rw [restShows_step hpos hd, ← hval]
    split_ifs at hshape with hle
    · exact ⟨fun _ => Or.inl hle, fun _ => hshape⟩
    · rw [hshape, isCanonical_concat hrem hinv.rem_ne, hinv.leads, or_iff_right hle]
  have hne : rem' ≠ [] := by
    split_ifs at hshape with hle
    · exact hshape.ne_nil
    · rw [hshape]
      simp
  refine ⟨digitChar (natValue (rem ++ [c]) / natValue snd), rem', ⟨?_, ?_, hdigits', hne, hmod', ?_⟩, hcan,
    fun fuel hfuel fst => ?_⟩
  · exact List.forall_mem_append.mpr ⟨hinv.div_digits, List.forall_mem_singleton.mpr (isDigit_digitChar hq)⟩
  · rw [natValue_append, natValue_singleton, List.length_singleton, pow_one, digitVal_digitChar hq, hinv.div_value, hsplit,
      Nat.add_mul_div_left _ _ hpos, Nat.add_comm]
  · rw [← hcan, ← hmod']
    refine ⟨fun hlead => ?_, fun h => (h.1.leads).mpr h.2⟩
    have hcan' : IsCanonical rem' := isCanonical_iff.mpr ⟨hdigits', Or.inr hlead⟩
    exact ⟨hcan', hcan'.leads.mp hlead⟩
  · have hloop := hrun fuel (by omega) fuel (by omega)
    rw [Nat.zero_add] at hloop
    rw [divLoop, setBack_decShiftInline]
    simp only [bind, Except.bind, hloop]

theorem divLoop_eq {fst : Str} (hinv : DivInv snd m div rem) (hfst : IsDigits fst) (hsnd : IsDigits snd)
    (hpos : 0 < natValue snd) (hc : digitCount snd + 1 < 2 ^ 31)
    (hcan : IsCanonical rem ↔ RestShows m (natValue snd)) :
    ∃ div' rem', DivInv snd (m * 10 ^ fst.length + natValue fst) div' rem' ∧ div <+: div' ∧
      (IsCanonical rem' ↔ RestShows (m * 10 ^ fst.length + natValue fst) (natValue snd)) ∧
      ∀ fuel ≥ 11, divLoop fuel snd fst div rem = .ok (div', rem') := by
  induction fst generalizing m div rem with
  | nil =>
    refine ⟨div, rem, ?_, List.prefix_rfl, ?_, fun fuel _ => rfl⟩
    · simpa [natValue] using hinv
    · simpa [natValue] using hcan
  | cons c fst ih =>
    obtain ⟨hdigit, hfst⟩ := List.forall_mem_cons.mp hfst
    obtain ⟨d, rem₁, hinv₁, hcan₁, hstep⟩ := divLoop_step hinv hsnd hpos hc hdigit
    obtain ⟨div', rem', hinv', hprefix, hcan', hrun⟩ := ih hinv₁ hfst hcan₁
    have hm : m * 10 ^ (c :: fst).length + natValue (c :: fst) =
        (m * 10 + digitVal c) * 10 ^ fst.length + natValue fst := by
      rw [natValue_cons, List.length_cons, pow_succ]
      ring
    rw [hm]
    exact ⟨div', rem', hinv', (List.prefix_append _ _).trans hprefix, hcan', fun fuel hfuel =>
      (hstep fuel hfuel fst).trans (hrun fuel hfuel)⟩

/-- Quotient and remainder of digits. -/
theorem divRemInteger_eq (hx : IsDigits x) (hne : x ≠ []) (hy : IsDigits y) (hpos : 0 < natValue y)
    (hc : digitCount y + 1 < 2 ^ 31) :
    ∃ q r, IsCanonical q ∧ natValue q = natValue x / natValue y ∧ IsDigits r ∧ r ≠ [] ∧
      natValue r = natValue x % natValue y ∧ (IsCanonical r ↔ RestShows (natValue x) (natValue y)) ∧
      ∀ fuel ≥ 11, divRemInteger fuel x y = .ok (q, r) := by
  obtain ⟨c, fst, rfl⟩ := List.exists_cons_of_ne_nil hne
  obtain ⟨hdigit, hfst⟩ := List.forall_mem_cons.mp hx
  have hnone : ¬RestShows 0 (natValue y) := fun h => h.1 (Nat.zero_div _)
  have hleads : ¬Leads ['0'] := by
    rintro ⟨c, l, heq, hc0⟩
    exact hc0 (List.cons.inj heq).1.symm
  have hinv : DivInv y 0 [] ['0'] := {
    div_digits := fun c hc => absurd hc List.not_mem_nil
    div_value := (Nat.zero_div _).symm
    rem_digits := isCanonical_zero.1
    rem_ne := List.cons_ne_nil _ _
    rem_value := (Nat.zero_mod _).symm
    leads := ⟨fun h => absurd h hleads, fun h => absurd h.1 hnone⟩ }
  obtain ⟨d, rem₁, hinv₁, hcan₁, hstep⟩ := divLoop_step hinv hy hpos hc hdigit
  obtain ⟨div', rem', hinv', hprefix, hcan', hrun⟩ := divLoop_eq hinv₁ hfst hy hpos hc hcan₁
  have hm : (0 * 10 + digitVal c) * 10 ^ fst.length + natValue fst = natValue (c :: fst) := by
    rw [natValue_cons]
    ring
  rw [hm] at hinv' hcan'
  have hdiv : div' ≠ [] := fun h => by simp [h] at hprefix
  obtain ⟨q, hq, hqcan, hqval⟩ := moveNonZero_eq hinv'.div_digits hdiv
  refine ⟨q, rem', hqcan, hqval.trans hinv'.div_value, hinv'.rem_digits, hinv'.rem_ne, hinv'.rem_value, hcan',
    fun fuel hfuel => ?_⟩
  rw [divRemInteger, hstep fuel hfuel fst, hrun fuel hfuel]
  simp only [bind, Except.bind, hq]
  rfl

theorem divDigit_zero (hrem : IsDigits rem) (hne : rem ≠ []) (hsnd : IsDigits snd) (h0 : natValue snd = 0)
    (hcount : digitCount rem < 2 ^ 31) {fuel : ℕ} (hfuel : 1 ≤ fuel) (n digit : ℕ) :
    divDigit fuel snd n rem digit = .error .outOfFuel ∨ divDigit fuel snd n rem digit = .error .outOfBounds := by
  have hcsnd : digitCount snd = 0 := Nat.le_zero.mp (digitCount_le_of_lt hsnd (by rw [h0]; decide))
  induction n generalizing rem digit with
  | zero => exact Or.inl rfl
  | succ n ih =>
    have hcmp := (cmpInteger_digits hrem hsnd hcount (by omega)).1
    rw [divDigit, if_pos (not_lt.mp (mt hcmp.mp (by omega)))]
    by_cases hzero : natValue rem = 0
    · obtain ⟨fuel, rfl⟩ := Nat.exists_eq_add_one.mpr hfuel
      rw [subInteger_zero hrem hsnd hne hzero h0]
      exact Or.inr rfl
    · obtain ⟨next, hcan, hval, hrun⟩ := subInteger_digits_of_le hrem hsnd hcount (by omega) (by omega) (by omega)
      rw [hrun fuel hfuel]
      refine ih hcan.1 hcan.ne_nil ?_ (digit + 1)
      refine (digitCount_le_of_lt hcan.1 (show _ < 10 ^ digitCount rem from ?_)).trans_lt hcount
      exact hval ▸ (Nat.sub_le _ _).trans_lt (natValue_lt_digitCount hrem)

theorem divRemInteger_zero (hx : IsDigits x) (hne : x ≠ []) (hy : IsDigits y) (h0 : natValue y = 0) {fuel : ℕ}
    (hfuel : 1 ≤ fuel) :
    divRemInteger fuel x y = .error .outOfFuel ∨ divRemInteger fuel x y = .error .outOfBounds := by
  obtain ⟨c, fst, rfl⟩ := List.exists_cons_of_ne_nil hne
  have hdigits : IsDigits (['0'] ++ [c]) :=
    List.forall_mem_append.mpr ⟨isCanonical_zero.1, List.forall_mem_singleton.mpr (List.forall_mem_cons.mp hx).1⟩
  have hcount : digitCount (['0'] ++ [c]) ≤ 2 := digitCount_le_of_lt hdigits (natValue_lt hdigits)
  rw [divRemInteger, divLoop, setBack_decShiftInline]
  rcases divDigit_zero hdigits (List.cons_ne_nil _ _) hy h0 (by omega) hfuel fuel 0 with h | h
  · exact Or.inl (by simp only [bind, Except.bind, h])
  · exact Or.inr (by simp only [bind, Except.bind, h])

theorem divInteger_digits (hx : IsDigits x) (hy : IsDigits y) (fuel : ℕ) :
    divInteger (fuel + 1) x y = (divRemInteger fuel x y).map Prod.fst := by
  simp only [divInteger, isNeg_of_isDigits hx, isNeg_of_isDigits hy]
  cases divRemInteger fuel x y <;> rfl

theorem remInteger_digits (hx : IsDigits x) (hy : IsDigits y) (fuel : ℕ) :
    remInteger (fuel + 1) x y = (divRemInteger fuel x y).map Prod.snd := by
  simp only [remInteger, isNeg_of_isDigits hx, isNeg_of_isDigits hy]
  cases divRemInteger fuel x y <;> rfl

theorem divInteger_signs (a b : Str) (fuel : ℕ) :
    divInteger (fuel + 1) a b =
      if isNeg a && isNeg b then divInteger fuel (magnitude a) (magnitude b)
      else if isNeg a || isNeg b then (divInteger fuel (magnitude a) (magnitude b)).map negInline
      else divInteger (fuel + 1) (magnitude a) (magnitude b) := by
  cases hna : isNeg a <;> cases hnb : isNeg b
  · simp [magnitude_of_not_isNeg hna, magnitude_of_not_isNeg hnb]
  · simp [divInteger, hna, hnb, magnitude]
    rfl
  · simp [divInteger, hna, hnb, magnitude]
    rfl
  · simp [divInteger, hna, hnb, magnitude]

theorem remInteger_signs (a b : Str) (fuel : ℕ) :
    remInteger (fuel + 1) a b =
      if isNeg a then (remInteger fuel (magnitude a) (magnitude b)).map negInline
      else if isNeg b then remInteger fuel (magnitude a) (magnitude b)
      else remInteger (fuel + 1) (magnitude a) (magnitude b) := by
  cases hna : isNeg a <;> cases hnb : isNeg b
  · simp [magnitude_of_not_isNeg hna, magnitude_of_not_isNeg hnb]
  · simp [remInteger, hna, hnb, magnitude]
  · simp [remInteger, hna, hnb, magnitude]
    rfl
  · simp [remInteger, hna, hnb, magnitude]
    rfl

theorem divInteger_run {q r : Str} {depth : ℕ} (ha : IsDigits (magnitude a)) (hb : IsDigits (magnitude b))
    (h : ∀ fuel ≥ depth, divRemInteger fuel (magnitude a) (magnitude b) = .ok (q, r)) :
    ∀ fuel ≥ depth + 2, divInteger fuel a b = .ok (if isNeg a = isNeg b then q else negInline q) ∧
      remInteger fuel a b = .ok (if isNeg a then negInline r else r) := by
  intro fuel hfuel
  obtain ⟨fuel, rfl⟩ := Nat.exists_eq_add_of_le (show 2 ≤ fuel by omega)
  rw [show 2 + fuel = fuel + 1 + 1 by omega, divInteger_signs, remInteger_signs, divInteger_digits ha hb,
    divInteger_digits ha hb, remInteger_digits ha hb, remInteger_digits ha hb, h fuel (by omega), h (fuel + 1) (by omega)]
  cases isNeg a <;> cases isNeg b <;> exact ⟨rfl, rfl⟩

theorem divInteger_not_reported (ha : IsDigits (magnitude a)) (hb : IsDigits (magnitude b))
    (h : ∀ fuel ≥ 1, divRemInteger fuel (magnitude a) (magnitude b) = .error .outOfFuel ∨
      divRemInteger fuel (magnitude a) (magnitude b) = .error .outOfBounds) (fuel : ℕ) :
    divInteger (fuel + 3) a b ≠ .error .reported := by
  rw [divInteger_signs, divInteger_digits ha hb, divInteger_digits ha hb]
  rcases h (fuel + 1) (by omega) with h1 | h1 <;> rcases h (fuel + 2) (by omega) with h2 | h2 <;> rw [h1, h2] <;>
    cases isNeg a <;> cases isNeg b <;> simp [Except.map]

theorem natAbs_intValue (arg : Str) : (intValue arg).natAbs = natValue (magnitude arg) := by
  rcases isNeg_cases arg with ⟨-, h⟩ | ⟨-, h⟩
  · rw [h, Int.natAbs_neg, Int.natAbs_natCast]
  · rw [h, Int.natAbs_natCast]

theorem isCanonicalInt_negInline {r : Str} (h : IsDigits r) :
    IsCanonicalInt (negInline r) ↔ IsCanonical r ∧ natValue r ≠ 0 := by
  have hminus : negInline r = '-' :: r := by rw [negInline, isNeg_of_isDigits h]; rfl
  have hneg : isNeg ('-' :: r) := rfl
  rw [IsCanonicalInt, hminus, magnitude_minus, intValue_eq, if_pos hneg, magnitude_minus]
  simp [hneg]

theorem isCanonicalInt_digits {r : Str} (h : IsDigits r) : IsCanonicalInt r ↔ IsCanonical r := by
  rw [IsCanonicalInt, magnitude_digits h, isNeg_of_isDigits h]
  simp

/-- The texts that division by another number than zero gives. -/
theorem divides_iff (ha : isInteger a) (hb : isInteger b) (hb0 : intValue b ≠ 0) (hc : digitCount b + 1 < 2 ^ 31) :
    Divides a b ↔ RestShows (intValue a).natAbs (intValue b).natAbs ∧
      (isNeg a → (intValue a).natAbs % (intValue b).natAbs ≠ 0) := by
  obtain ⟨hda, hnea⟩ := isInteger_iff.mp ha
  obtain ⟨hdb, hneb⟩ := isInteger_iff.mp hb
  rw [← digitCount_magnitude hb] at hc
  have hpos : 0 < natValue (magnitude b) := by
    rw [← natAbs_intValue]
    exact Int.natAbs_pos.mpr hb0
  obtain ⟨q, r, hqcan, hqval, hrdigits, hrne, hrval, hrcan, hrun⟩ := divRemInteger_eq hda hnea hdb hpos hc
  have hall := divInteger_run hda hdb hrun
  rw [natAbs_intValue, natAbs_intValue, Divides, if_neg hb0]
  have hqcanInt : IsCanonicalInt (if isNeg a = isNeg b then q else negInline q) ↔
      (isNeg a = isNeg b ∨ natValue (magnitude a) / natValue (magnitude b) ≠ 0) := by
    split_ifs with h
    · exact iff_of_true ((isCanonicalInt_digits hqcan.1).mpr hqcan) (Or.inl h)
    · rw [isCanonicalInt_negInline hqcan.1, hqval, or_iff_right h]
      exact ⟨And.right, fun hne => ⟨hqcan, hne⟩⟩
  have hrcanInt : IsCanonicalInt (if isNeg a then negInline r else r) ↔
      RestShows (natValue (magnitude a)) (natValue (magnitude b)) ∧
        (isNeg a → natValue (magnitude a) % natValue (magnitude b) ≠ 0) := by
    split_ifs with h
    · rw [isCanonicalInt_negInline hrdigits, hrcan, hrval]
      simp [h]
    · rw [isCanonicalInt_digits hrdigits, hrcan]
      simp [h]
  constructor
  · rintro ⟨q', r', depth, -, hr', -, -, hdepth⟩
    have hsame := (hdepth (depth + 13) (by omega)).2
    rw [(hall (depth + 13) (by omega)).2] at hsame
    rw [← Except.ok.inj hsame] at hr'
    exact hrcanInt.mp hr'
  · intro h
    refine ⟨_, _, 13, hqcanInt.mpr (Or.inr h.1.1), hrcanInt.mpr h, ?_, ?_, hall⟩
    · have hneg := (negInline_eq (r := q) ((magnitude_digits hqcan.1).symm ▸ hqcan.1)).2
      have hval := intValue_digits hqcan.1
      rw [hqval] at hval
      rcases isNeg_cases a with ⟨hna, hva⟩ | ⟨hna, hva⟩ <;> rcases isNeg_cases b with ⟨hnb, hvb⟩ | ⟨hnb, hvb⟩ <;>
        simp [hna, hnb, hva, hvb, hneg, hval, Int.neg_tdiv, Int.tdiv_neg]
    · have hneg := (negInline_eq (r := r) ((magnitude_digits hrdigits).symm ▸ hrdigits)).2
      have hval := intValue_digits hrdigits
      rw [hrval] at hval
      have htmod := Int.tmod_eq_emod_of_nonneg (b := natValue (magnitude b)) (Int.natCast_nonneg (natValue (magnitude a)))
      rcases isNeg_cases a with ⟨hna, hva⟩ | ⟨hna, hva⟩ <;> rcases isNeg_cases b with ⟨hnb, hvb⟩ | ⟨hnb, hvb⟩ <;>
        simp [hna, hva, hvb, hneg, hval, Int.neg_tmod, Int.tmod_neg, htmod]

theorem not_divides_zero (ha : isInteger a) (hb : isInteger b) (hb0 : intValue b = 0) : ¬Divides a b := by
  obtain ⟨hda, hnea⟩ := isInteger_iff.mp ha
  obtain ⟨hdb, hneb⟩ := isInteger_iff.mp hb
  have h0 : natValue (magnitude b) = 0 := by rw [← natAbs_intValue, hb0]; rfl
  rw [Divides, if_pos hb0]
  rintro ⟨depth, hdepth⟩
  exact divInteger_not_reported hda hdb (fun fuel hfuel => divRemInteger_zero hda hnea hdb h0 hfuel) depth
    (hdepth (depth + 3) (by omega)).1

/-- A division ends and is written as it should be exactly when the divisor is not zero, the quotient is not
zero, something is left behind its last digit that is not zero, and the remainder is not zero below a minus. -/
theorem divides_exact (ha : isInteger a) (hb : isInteger b) :
    (digitCount b + 1 < 2 ^ 31 ∧ intValue b ≠ 0 ∧ RestShows (intValue a).natAbs (intValue b).natAbs ∧
      (isNeg a → (intValue a).natAbs % (intValue b).natAbs ≠ 0) → Divides a b) ∧
    (digitCount b + 1 < 2 ^ 31 → Divides a b → intValue b ≠ 0 ∧ RestShows (intValue a).natAbs (intValue b).natAbs ∧
      (isNeg a → (intValue a).natAbs % (intValue b).natAbs ≠ 0)) := by
  constructor
  · rintro ⟨hc, hb0, h⟩
    exact (divides_iff ha hb hb0 hc).mpr h
  · intro hc h
    have hb0 : intValue b ≠ 0 := fun hb0 => not_divides_zero ha hb hb0 h
    exact ⟨hb0, (divides_iff ha hb hb0 hc).mp h⟩

theorem divides_three : Divides ['-', '7'] ['2'] := by
  refine (@divides_exact ['-', '7'] ['2'] (by decide) (by decide)).1 ⟨by decide, by decide, ⟨by decide, ?_⟩, by decide⟩
  intro t ht hdvd
  have h10 : 10 ∣ 3 := (dvd_pow_self 10 ht.ne').trans hdvd
  exact absurd h10 (by decide)

/-- A divisor of zero is not reported, and a small dividend leaves a zero in front of the remainder. -/
theorem not_divides_small : ¬Divides ['3'] ['0'] ∧ ¬Divides ['3'] ['5'] :=
  ⟨not_divides_zero (by decide) (by decide) (by decide), fun h =>
    ((divides_iff (by decide) (by decide) (by decide) (by decide)).mp h).1.1 (by decide)⟩

end

end SomeOs.Expr

import SomeOs.Expr.Compare

/-! # Sums, differences and products of integers as text

The routines on digits work backwards from the ends of the texts. Around them the signs are
handled by recursion; each call has a bound on the depth of the calls below it.
-/
namespace SomeOs.Expr

/-- Why there is no result. After a report the program has ended. -/
inductive Fault
  | outOfFuel | outOfBounds | reported
  deriving DecidableEq

abbrev Run := Except Fault

def digitChar (d : ℕ) : Char := Char.ofNat (d + '0'.toNat)

/-- The character at `len - 1 - pos`. -/
def getBack (arg : Str) (pos : ℕ) : Run Char :=
  if pos < arg.length then .ok (arg.getD (arg.length - 1 - pos) '0') else .error .outOfBounds

def setBack (arg : Str) (pos : ℕ) (c : Char) : Run Str :=
  if pos < arg.length then .ok (arg.set (arg.length - 1 - pos) c) else .error .outOfBounds

/-- The digit at `len - 1 - pos`, when there is one. -/
def digitBack (arg : Str) (pos : ℕ) : ℕ := (arg.map digitVal).reverse.getD pos 0

def negInline (arg : Str) : Str := if isNeg arg then arg.tail else '-' :: arg

/-- The zeros in front of a result are moved away, but for the last character. -/
def moveNonZero (res : Str) : Run Str :=
  let non_zero := stripZeros res
  if non_zero.length = 0 then
    if res.length = 0 then .error .outOfBounds else .ok (res.drop (res.length - 1))
  else .ok non_zero

/-- The loop of `addInteger` and of `mulInteger`, where `f` is what is added at each position. -/
def carryLoop (f : ℕ → ℕ) : ℕ → ℕ → ℕ → Str → Run Str
  | 0, _, _, res => .ok res
  | n + 1, pos, carry, res => do
    let v := carry + f pos
    let res ← setBack res pos (digitChar (v % 10))
    carryLoop f n (pos + 1) (v / 10) res

/-- `addInteger` when neither text starts with a minus and the first one is not less. -/
def addDigits (fst snd : Str) : Run Str := do
  let fst := stripZeros fst
  let snd := stripZeros snd
  let res := '0' :: fst
  let res ← carryLoop (fun pos => digitBack fst pos + digitBack snd pos) (fst.length + 1) 0 0 res
  moveNonZero res

/-- The inner loop of `subInteger`, which ends after `sub` passes at the latest. -/
def borrow (sub : ℕ) : ℕ → ℕ → ℕ → ℕ × ℕ
  | 0, val, carry => (val, carry)
  | n + 1, val, carry => if sub > val then borrow sub n (val + 10) (carry + 1) else (val, carry)

/-- The loop of `subInteger`; `arg` ends in `fst`. -/
def borrowLoop (arg snd : Str) : ℕ → ℕ → ℕ → Str → Run Str
  | 0, _, _, res => .ok res
  | n + 1, pos, carry, res => do
    let c ← getBack arg pos
    let sub := carry + digitBack snd pos
    let (val, carry) := borrow sub sub (digitVal c) 0
    let res ← setBack res pos (digitChar (val - sub))
    borrowLoop arg snd n (pos + 1) carry res

def subDigits (arg snd : Str) : Run Str := do
  let fst := stripZeros arg
  let snd := stripZeros snd
  -- the loop has a first pass even if there is no digit
  let res ← borrowLoop arg snd (max 1 fst.length) 0 0 fst
  moveNonZero res

mutual
def addInteger : ℕ → Str → Str → Run Str
  | 0, _, _ => .error .outOfFuel
  | fuel + 1, fst, snd =>
    if isNeg fst && isNeg snd then do pure (negInline (← addInteger fuel fst.tail snd.tail))
    else if isNeg fst then
      if cmpInteger fst.tail snd > 0 then do pure (negInline (← subInteger fuel fst.tail snd))
      else subInteger fuel snd fst.tail
    else if isNeg snd then
      if cmpInteger fst snd.tail < 0 then do pure (negInline (← subInteger fuel snd.tail fst))
      else subInteger fuel fst snd.tail
    else if cmpInteger fst snd < 0 then addInteger fuel snd fst
    else addDigits fst snd

def subInteger : ℕ → Str → Str → Run Str
  | 0, _, _ => .error .outOfFuel
  | fuel + 1, fst, snd =>
    if isNeg fst && isNeg snd then subInteger fuel snd.tail fst.tail
    else if isNeg fst then do pure (negInline (← addInteger fuel fst.tail snd))
    else if isNeg snd then addInteger fuel fst snd.tail
    else if cmpInteger fst snd < 0 then do pure (negInline (← subInteger fuel snd fst))
    else subDigits fst snd
end

def decShiftInline (arg : Str) (pow : ℕ) : Str := arg ++ List.replicate pow '0'

/-- `mulInteger` for a second factor of one digit. -/
def mulDigit (fst : Str) (c : Char) : Run Str := do
  let res := '0' :: fst
  let res ← carryLoop (fun pos => digitBack fst pos * digitVal c) (fst.length + 1) 0 0 res
  moveNonZero res

/-- The loop of `mulInteger`. -/
def mulParts (fuel : ℕ) (mul : Char → Run Str) : Str → Str → Run Str
  | [], res => .ok res
  | c :: snd, res => do
    let part := decShiftInline (← mul c) snd.length
    mulParts fuel mul snd (← addInteger fuel res part)

def mulInteger : ℕ → Str → Str → Run Str
  | 0, _, _ => .error .outOfFuel
  | fuel + 1, fst, snd =>
    if isNeg fst && isNeg snd then mulInteger fuel fst.tail snd.tail
    else if isNeg fst then do pure (negInline (← mulInteger fuel fst.tail snd))
    else if isNeg snd then do pure (negInline (← mulInteger fuel fst snd.tail))
    else if cmpInteger fst snd < 0 then mulInteger fuel snd fst
    else
      let fst := stripZeros fst
      let snd := stripZeros snd
      if snd.length = 1 then mulDigit fst (snd.getD 0 '0')
      else mulParts fuel (fun c => mulInteger fuel fst [c]) snd ['0']

def IsCanonical (arg : Str) : Prop := IsDigits arg ∧ (arg = ['0'] ∨ ∃ c l, arg = c :: l ∧ c ≠ '0')

section
variable {arg fst snd pre suf res x y : Str} {c d : Char} {pos n carry val sub : ℕ} {f : ℕ → ℕ} {l : List ℕ}

theorem toNat_digitChar {d : ℕ} (hd : d < 10) : (digitChar d).toNat = d + 48 := by
  interval_cases d <;> rfl

theorem isDigit_digitChar {d : ℕ} (hd : d < 10) : (digitChar d).isDigit := by
  interval_cases d <;> rfl

theorem digitVal_digitChar {d : ℕ} (hd : d < 10) : digitVal (digitChar d) = d := by
  rw [digitVal, toNat_digitChar hd]
  exact Nat.add_sub_cancel d 48

theorem IsCanonical.ne_nil (h : IsCanonical arg) : arg ≠ [] := by
  rintro rfl
  rcases h.2 with h | ⟨c, l, h, -⟩
  · exact List.cons_ne_nil _ _ h.symm
  · exact List.cons_ne_nil _ _ h.symm

theorem natValue_lt (h : IsDigits arg) : natValue arg < 10 ^ arg.length := by
  have hlt := Numeral.value_lt (b := 10) (by decide) (map_digitVal_lt h)
  rwa [List.length_map] at hlt

theorem natValue_append (x y : Str) : natValue (x ++ y) = natValue x * 10 ^ y.length + natValue y := by
  rw [natValue, List.map_append, Numeral.value_append, List.length_map, natValue, natValue]

theorem natValue_digits (h : ∀ d ∈ l, d < 10) : natValue (l.map digitChar).reverse = Nat.ofDigits 10 l := by
  have hmap : (l.map digitChar).map digitVal = l := by
    rw [List.map_map]
    exact (List.map_congr_left fun d hd => digitVal_digitChar (h d hd)).trans (List.map_id l)
  rw [natValue, List.map_reverse, hmap, Numeral.value, List.reverse_reverse]

theorem isDigits_digits (h : ∀ d ∈ l, d < 10) : IsDigits (l.map digitChar).reverse := by
  intro c hc
  obtain ⟨d, hd, rfl⟩ := List.mem_map.mp (List.mem_reverse.mp hc)
  exact isDigit_digitChar (h d hd)

theorem sum_digitBack (h : arg.length ≤ n) : ∑ i ∈ Finset.range n, digitBack arg i * 10 ^ i = natValue arg :=
  Numeral.sum_getD 10 (by simpa using h)

theorem digitBack_lt (h : IsDigits arg) (pos : ℕ) : digitBack arg pos < 10 := by
  rw [digitBack, List.getD_eq_getElem?_getD]
  cases hget : (arg.map digitVal).reverse[pos]? with
  | none => decide
  | some d => exact map_digitVal_lt h d (List.mem_reverse.mp (List.mem_of_getElem? hget))

theorem digitBack_stripZeros (arg : Str) (pos : ℕ) : digitBack (stripZeros arg) pos = digitBack arg pos := by
  induction arg with
  | nil => rfl
  | cons c arg ih =>
    by_cases hc : c = '0'
    · rw [stripZeros, List.dropWhile_cons_of_pos (by simpa using hc), ← stripZeros, ih, digitBack, digitBack, List.map_cons,
        List.reverse_cons, hc]
      by_cases hpos : pos < (arg.map digitVal).reverse.length
      · rw [List.getD_append _ _ _ _ hpos]
      · rw [not_lt] at hpos
        rw [List.getD_eq_default _ _ hpos, List.getD_append_right _ _ _ _ hpos]
        cases pos - (arg.map digitVal).reverse.length <;> rfl
    · rw [stripZeros, List.dropWhile_cons_of_neg (by simpa using hc)]

theorem getBack_eq (h : pos < arg.length) : ∃ c, getBack arg pos = .ok c ∧ digitVal c = digitBack arg pos := by
  refine ⟨_, if_pos h, ?_⟩
  rw [digitBack, List.getD_eq_getElem _ _ (by omega), List.getD_eq_getElem _ _ (by simpa using h)]
  simp

theorem setBack_append (pre suf : Str) (c d : Char) : setBack (pre ++ c :: suf) suf.length d = .ok (pre ++ d :: suf) := by
  have hlen : suf.length < (pre ++ c :: suf).length := by
    rw [List.length_append, List.length_cons]
    omega
  have hindex : (pre ++ c :: suf).length - 1 - suf.length = pre.length := by
    rw [List.length_append, List.length_cons]
    omega
  rw [setBack, if_pos hlen, hindex]
  simp

theorem carryLoop_eq (f : ℕ → ℕ) (hpre : pre.length = n) (hpos : suf.length = pos) (carry : ℕ) :
    carryLoop f n pos carry (pre ++ suf) =
      .ok (((Numeral.carryDigits 10 f n pos carry).map digitChar).reverse ++ suf) := by
  induction n generalizing pre suf pos carry with
  | zero =>
    rw [List.length_eq_zero_iff.mp hpre]
    rfl
  | succ n ih =>
    obtain ⟨pre, c, rfl⟩ := (List.eq_nil_or_concat pre).resolve_left (List.ne_nil_of_length_pos (by omega))
    have hset := setBack_append pre suf c (digitChar ((carry + f pos) % 10))
    rw [hpos] at hset
    have hih := @ih pre (digitChar ((carry + f pos) % 10) :: suf) (pos + 1) (by simpa using hpre) (by simpa using hpos)
      ((carry + f pos) / 10)
    rw [List.concat_eq_append, List.append_assoc, List.singleton_append, carryLoop, hset, Numeral.carryDigits,
      List.map_cons, List.reverse_cons, List.append_assoc, List.singleton_append]
    exact hih

theorem moveNonZero_eq (h : IsDigits res) (hne : res ≠ []) :
    ∃ r, moveNonZero res = .ok r ∧ IsCanonical r ∧ natValue r = natValue res := by
  rcases stripZeros_eq res with hnil | ⟨c, l, hcons, hc⟩
  · obtain ⟨pre, d, rfl⟩ := (List.eq_nil_or_concat res).resolve_left hne
    have hall := stripZeros_eq_nil_iff.mp hnil
    have hd : d = '0' := by simpa using (List.all_eq_true.mp hall) d (by simp)
    have hlen : (pre.concat d).length ≠ 0 := by simp
    refine ⟨['0'], ?_, ⟨?_, Or.inl rfl⟩, ?_⟩
    · rw [moveNonZero, hnil]
      simp [hd]
    · exact List.forall_mem_singleton.mpr rfl
    · rw [(natValue_eq_zero_iff h).mpr hnil]
      rfl
  · refine ⟨c :: l, ?_, ⟨hcons ▸ h.stripZeros, Or.inr ⟨c, l, rfl, hc⟩⟩, ?_⟩
    · simp [moveNonZero, hcons]
    · rw [← hcons, natValue_stripZeros h]

theorem carryLoop_moveNonZero (hres : res.length = n + 1) (h : ∑ i ∈ Finset.range (n + 1), f i * 10 ^ i < 10 ^ (n + 1)) :
    ∃ r, (carryLoop f (n + 1) 0 0 res >>= moveNonZero) = .ok r ∧ IsCanonical r ∧
      natValue r = ∑ i ∈ Finset.range (n + 1), f i * 10 ^ i := by
  have hloop := @carryLoop_eq res [] 0 (n + 1) f hres rfl 0
  rw [List.append_nil, List.append_nil] at hloop
  have hdigits := @Numeral.carryDigits_lt 10 f (n + 1) 0 0 (by decide)
  have hne : ((Numeral.carryDigits 10 f (n + 1) 0 0).map digitChar).reverse ≠ [] := by
    apply List.ne_nil_of_length_pos
    simp
  obtain ⟨r, hr, hcan, hval⟩ := moveNonZero_eq (isDigits_digits hdigits) hne
  refine ⟨r, ?_, hcan, ?_⟩
  · rw [hloop]
    exact hr
  · rw [hval, natValue_digits hdigits, Numeral.ofDigits_carryDigits_of_lt 10 f (n + 1) h]

theorem addDigits_eq (hx : IsDigits x) (hy : IsDigits y) (hlen : (stripZeros y).length ≤ (stripZeros x).length) :
    ∃ r, addDigits x y = .ok r ∧ IsCanonical r ∧ natValue r = natValue x + natValue y := by
  have hsum : ∑ i ∈ Finset.range ((stripZeros x).length + 1),
      (digitBack (stripZeros x) i + digitBack (stripZeros y) i) * 10 ^ i = natValue x + natValue y := by
    simp only [Nat.add_mul, Finset.sum_add_distrib]
    rw [sum_digitBack (Nat.le_succ _), sum_digitBack (hlen.trans (Nat.le_succ _)), natValue_stripZeros hx,
      natValue_stripZeros hy]
  have hltx := natValue_lt hx.stripZeros
  have hlty := (natValue_lt hy.stripZeros).trans_le (Nat.pow_le_pow_right (by decide) hlen)
  rw [natValue_stripZeros hx] at hltx
  rw [natValue_stripZeros hy] at hlty
  obtain ⟨r, hr, hcan, hval⟩ := @carryLoop_moveNonZero ('0' :: stripZeros x) (stripZeros x).length
    (fun pos => digitBack (stripZeros x) pos + digitBack (stripZeros y) pos) rfl (by rw [hsum, pow_succ]; omega)
  exact ⟨r, hr, hcan, hval.trans hsum⟩

theorem mulDigit_eq (hx : IsDigits x) (hc : c.isDigit) :
    ∃ r, mulDigit x c = .ok r ∧ IsCanonical r ∧ natValue r = natValue x * digitVal c := by
  have hsum : ∑ i ∈ Finset.range (x.length + 1), digitBack x i * digitVal c * 10 ^ i = natValue x * digitVal c := by
    rw [← sum_digitBack (Nat.le_succ x.length), Finset.sum_mul]
    exact Finset.sum_congr rfl fun i _ => by ring
  have hlt : natValue x * digitVal c < 10 ^ (x.length + 1) := by
    rw [pow_succ]
    exact Nat.mul_lt_mul_of_lt_of_le (natValue_lt hx) (digitVal_lt hc).le (by decide)
  obtain ⟨r, hr, hcan, hval⟩ := @carryLoop_moveNonZero ('0' :: x) x.length (fun pos => digitBack x pos * digitVal c) rfl
    (by rw [hsum]; exact hlt)
  exact ⟨r, hr, hcan, hval.trans hsum⟩

theorem borrow_eq (h : sub ≤ val + 10 * n) (carry : ℕ) :
    borrow sub n val carry = (val + Numeral.borrowed 10 val sub * 10, carry + Numeral.borrowed 10 val sub) := by
  induction n generalizing val carry with
  | zero =>
    have hzero : Numeral.borrowed 10 val sub = 0 := by
      unfold Numeral.borrowed
      omega
    rw [borrow, hzero]
    simp
  | succ n ih =>
    rw [borrow]
    split_ifs with hlt
    · have hstep : Numeral.borrowed 10 val sub = Numeral.borrowed 10 (val + 10) sub + 1 := by
        unfold Numeral.borrowed
        omega
      rw [ih (by omega), hstep, Prod.mk.injEq]
      omega
    · have hzero : Numeral.borrowed 10 val sub = 0 := by
        unfold Numeral.borrowed
        omega
      rw [hzero]
      simp

theorem borrowLoop_eq (hpre : pre.length = n) (hpos : suf.length = pos) (hlen : n + pos ≤ arg.length) (carry : ℕ) :
    borrowLoop arg snd n pos carry (pre ++ suf) =
      .ok (((Numeral.borrowDigits 10 (digitBack arg) (digitBack snd) n pos carry).map digitChar).reverse ++ suf) := by
  induction n generalizing pre suf pos carry with
  | zero =>
    rw [List.length_eq_zero_iff.mp hpre]
    rfl
  | succ n ih =>
    obtain ⟨pre, c, rfl⟩ := (List.eq_nil_or_concat pre).resolve_left (List.ne_nil_of_length_pos (by omega))
    obtain ⟨e, hget, hval⟩ := @getBack_eq arg pos (by omega)
    have hborrow := @borrow_eq (carry + digitBack snd pos) (digitBack arg pos) (carry + digitBack snd pos) (by omega) 0
    set k := Numeral.borrowed 10 (digitBack arg pos) (carry + digitBack snd pos) with hk
    have hset := setBack_append pre suf c (digitChar (digitBack arg pos + k * 10 - (carry + digitBack snd pos)))
    rw [hpos] at hset
    have hih := @ih pre (digitChar (digitBack arg pos + k * 10 - (carry + digitBack snd pos)) :: suf) (pos + 1)
      (by simpa using hpre) (by simpa using hpos) (by omega) k
    rw [List.concat_eq_append, List.append_assoc, List.singleton_append, borrowLoop, hget, Numeral.borrowDigits,
      List.map_cons, List.reverse_cons, List.append_assoc, List.singleton_append, ← hk, ← hih]
    simp only [bind, Except.bind, hval, hborrow, hset, Nat.zero_add]

/-- A difference that is not below zero, when the first number is not zero. -/
theorem subDigits_eq (hx : IsDigits x) (hy : IsDigits y) (hpos : 0 < natValue x) (hle : natValue y ≤ natValue x) :
    ∃ r, subDigits x y = .ok r ∧ IsCanonical r ∧ natValue r = natValue x - natValue y := by
  have hlen : (stripZeros y).length ≤ (stripZeros x).length := by
    by_contra hlt
    have := natValue_lt_of_length_lt hx hy (not_le.mp hlt)
    omega
  have hne : stripZeros x ≠ [] := fun h => hpos.ne' ((natValue_eq_zero_iff hx).mpr h)
  have hmax : max 1 (stripZeros x).length = (stripZeros x).length := max_eq_right (List.length_pos_iff.mpr hne)
  have hstrip : (stripZeros x).length ≤ x.length := (List.dropWhile_sublist _).length_le
  have hloop := @borrowLoop_eq x (stripZeros y) (stripZeros x) [] 0 (stripZeros x).length rfl rfl hstrip 0
  rw [List.append_nil, List.append_nil] at hloop
  have hsumx : ∑ i ∈ Finset.range (stripZeros x).length, digitBack x i * 10 ^ i = natValue x := by
    simp only [← digitBack_stripZeros x]
    rw [sum_digitBack le_rfl, natValue_stripZeros hx]
  have hsumy : ∑ i ∈ Finset.range (stripZeros x).length, digitBack (stripZeros y) i * 10 ^ i = natValue y := by
    rw [sum_digitBack hlen, natValue_stripZeros hy]
  have hdigits := @Numeral.borrowDigits_lt 10 (digitBack x) (digitBack (stripZeros y)) (stripZeros x).length 0 0
    (by decide) (digitBack_lt hx)
  have hvalue := @Numeral.ofDigits_borrowDigits_of_le 10 (digitBack x) (digitBack (stripZeros y)) (by decide)
    (digitBack_lt hx) (stripZeros x).length (by rw [hsumx, hsumy]; exact hle)
  rw [hsumx, hsumy] at hvalue
  obtain ⟨r, hr, hcan, hval⟩ := moveNonZero_eq (isDigits_digits hdigits)
    (List.ne_nil_of_length_pos (by simpa using List.length_pos_iff.mpr hne))
  refine ⟨r, ?_, hcan, ?_⟩
  · rw [subDigits, hmax, hloop]
    exact hr
  · rw [hval, natValue_digits hdigits]
    omega

theorem subDigits_zero (hx : natValue x = 0) (hd : IsDigits x) (hne : x ≠ []) (y : Str) :
    subDigits x y = .error .outOfBounds := by
  have hstrip := (natValue_eq_zero_iff hd).mp hx
  obtain ⟨c, hget, -⟩ := @getBack_eq x 0 (List.length_pos_iff.mpr hne)
  simp [subDigits, hstrip, borrowLoop, hget, setBack, bind, Except.bind]

end

end SomeOs.Expr

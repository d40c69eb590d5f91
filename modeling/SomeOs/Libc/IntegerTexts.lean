import SomeOs.Libc.FormatBounds

/-! # What the text of an integer denotes

The text is read back without looking at how it was made. The characters of its padding, sign and prefix add
nothing to what its digits denote.
-/
namespace SomeOs.Printf

def digitValue (c : Char) : ℕ :=
  if '0' ≤ c ∧ c ≤ '9' then c.toNat - '0'.toNat
  else if 'a' ≤ c ∧ c ≤ 'f' then c.toNat - 'a'.toNat + 10
  else if 'A' ≤ c ∧ c ≤ 'F' then c.toNat - 'A'.toNat + 10
  else 0

def IsDigit (base : ℕ) (c : Char) : Prop := c ∈ lowerDigits.take base ∨ c ∈ upperDigits.take base

def ofDigits (base : ℕ) (digits : Str) : ℕ := digits.foldl (fun n c => n * base + digitValue c) 0

def prefixes (base : ℕ) : List Str :=
  if base = 8 then [[], ['0']] else if base = 16 then [[], ['0', 'x'], ['0', 'X']] else [[]]

/-- A text of an integer: spaces, a sign, a prefix, zeros, digits and spaces. -/
def Denotes (base : ℕ) (v : ℤ) (out : Str) : Prop :=
  ∃ (left zeros right : ℕ) (sign pre digits : Str),
    out = List.replicate left ' ' ++ sign ++ pre ++ List.replicate zeros '0' ++ digits ++ List.replicate right ' ' ∧
    sign ∈ [[], ['-'], ['+'], [' ']] ∧ pre ∈ prefixes base ∧ digits ≠ [] ∧ (∀ c ∈ digits, IsDigit base c) ∧
    v = if sign = ['-'] then -(ofDigits base digits : ℤ) else ofDigits base digits

def solid (c : Char) : Bool := c ≠ ' ' && c ≠ '-' && c ≠ '+'

section
variable {base n room : ℕ} {v v' : ℤ} {out digits l s t : Str} {c : Char} {num : BitVec 64} {width : ℤ} {flags : Flags}

theorem ofDigits_append (s t : Str) :
    ofDigits base (s ++ t) = t.foldl (fun n c => n * base + digitValue c) (ofDigits base s) := List.foldl_append

theorem ofDigits_zeros (h : ofDigits base s = 0) (k : ℕ) : ofDigits base (s ++ List.replicate k '0') = 0 := by
  induction k with
  | zero => rwa [List.replicate_zero, List.append_nil]
  | succ k ih =>
    rw [List.replicate_succ', ← List.append_assoc, ofDigits_append, ih]
    simp [digitValue]

theorem mem_prefixes (h : s ∈ prefixes base) : s ∈ [[], ['0'], ['0', 'x'], ['0', 'X']] := by
  unfold prefixes at h
  split_ifs at h
  · exact List.mem_of_mem_take (i := 2) h
  · simp only [List.mem_cons, List.not_mem_nil, or_false] at h ⊢
    tauto
  · exact List.mem_of_mem_take (i := 1) h

theorem ofDigits_signs (h : s ∈ prefixes base) : ofDigits base s = 0 := by
  have h := mem_prefixes h
  simp only [List.mem_cons, List.not_mem_nil, or_false] at h
  rcases h with rfl | rfl | rfl | rfl <;> simp [ofDigits, digitValue]

theorem IsDigit.mem (h : IsDigit base c) : c ∈ lowerDigits ++ upperDigits :=
  List.mem_append.mpr (h.imp List.mem_of_mem_take List.mem_of_mem_take)

theorem solid_of_mem (h : c ∈ lowerDigits ++ upperDigits) : solid c = true := by
  have hall : ∀ c ∈ lowerDigits ++ upperDigits, solid c = true := by simp [lowerDigits, upperDigits, solid]
  exact hall c h

theorem filter_digits (h : ∀ c ∈ digits, IsDigit base c) : digits.filter solid = digits :=
  List.filter_eq_self.mpr fun c hc => solid_of_mem (h c hc).mem

theorem filter_signs (h : s ∈ prefixes base) : s.filter solid = s := by
  have hall : ∀ s ∈ [[], ['0'], ['0', 'x'], ['0', 'X']], s.filter solid = s := by decide
  exact hall s (mem_prefixes h)

/-- What a text denotes can be read from its characters. -/
theorem Denotes.value_eq (h : Denotes base v out) :
    v = if '-' ∈ out then -(ofDigits base (out.filter solid) : ℤ) else ofDigits base (out.filter solid) := by
  obtain ⟨left, zeros, right, sign, pre, digits, rfl, hsign, hpre, -, hdigits, hv⟩ := h
  have hspaces : ∀ k, (List.replicate k ' ').filter solid = [] := fun k => by simp [solid]
  have hzeros : ∀ k, (List.replicate k '0').filter solid = List.replicate k '0' := fun k => by simp [solid]
  have hnone : sign.filter solid = [] := by
    have hall : ∀ s ∈ [[], ['-'], ['+'], [' ']], s.filter solid = [] := by decide
    exact hall sign hsign
  have hminus : '-' ∈ sign ↔ sign = ['-'] := by
    have hall : ∀ s ∈ [[], ['-'], ['+'], [' ']], '-' ∈ s ↔ s = ['-'] := by decide
    exact hall sign hsign
  have hsolid : ∀ s : Str, s.filter solid = s → '-' ∉ s := fun s hs hmem => by
    rw [← hs, List.mem_filter] at hmem
    exact absurd hmem.2 (by decide)
  have hmem : '-' ∈ List.replicate left ' ' ++ sign ++ pre ++ List.replicate zeros '0' ++ digits ++
      List.replicate right ' ' ↔ sign = ['-'] := by
    simp [hminus, hsolid _ (filter_signs hpre), hsolid _ (filter_digits hdigits)]
  simp only [hmem, List.filter_append, hspaces, hnone, filter_signs hpre, hzeros, filter_digits hdigits, List.nil_append,
    List.append_nil]
  rw [ofDigits_append, ofDigits_zeros (ofDigits_signs hpre)]
  exact hv

theorem Denotes.unique (h : Denotes base v out) (h' : Denotes base v' out) : v = v' := by
  rw [h.value_eq, h'.value_eq]

theorem Denotes.not_percent (h : Denotes base v out) : '%' ∉ out := by
  obtain ⟨left, zeros, right, sign, pre, digits, rfl, hsign, hpre, -, hdigits, -⟩ := h
  have hs : '%' ∉ sign := by
    have hall : ∀ s ∈ [[], ['-'], ['+'], [' ']], '%' ∉ s := by decide
    exact hall sign hsign
  have hp : '%' ∉ pre := by
    have hall : ∀ s ∈ [[], ['0'], ['0', 'x'], ['0', 'X']], '%' ∉ s := by decide
    exact hall pre (mem_prefixes hpre)
  have hd : '%' ∉ digits := fun hmem => absurd (hdigits _ hmem).mem (by decide)
  simp [hs, hp, hd]

theorem digitValue_getD (upper : Bool) {d : ℕ} (hbase : base ≤ 16) (hd : d < base) :
    digitValue ((if upper then upperDigits else lowerDigits).getD d nul) = d ∧
      IsDigit base ((if upper then upperDigits else lowerDigits).getD d nul) := by
  have hmem : ∀ l : Str, l.length = 16 → l.getD d nul ∈ l.take base := fun l hl => by
    rw [List.getD_eq_getElem _ _ (by omega)]
    exact List.mem_take_iff_getElem.mpr ⟨d, by omega, rfl⟩
  constructor
  · have hall : ∀ d : Fin 16, digitValue (upperDigits.getD d nul) = d ∧ digitValue (lowerDigits.getD d nul) = d := by
      decide
    cases upper
    · exact (hall ⟨d, by omega⟩).2
    · exact (hall ⟨d, by omega⟩).1
  · cases upper
    · exact Or.inl (hmem lowerDigits rfl)
    · exact Or.inr (hmem upperDigits rfl)

theorem digitLoop_denotes (hbase : 0 < base)
    (hdigits : ∀ d < base, digitValue (digits.getD d nul) = d ∧ IsDigit base (digits.getD d nul))
    (h : digitLoop digits base room n = .ok l) :
    ofDigits base l.reverse = n ∧ (∀ c ∈ l.reverse, IsDigit base c) ∧ l ≠ [] ∧ l.length ≤ room := by
  induction room generalizing n l with
  | zero => cases h
  | succ room ih =>
    obtain ⟨hvalue, hdigit⟩ := hdigits _ (Nat.mod_lt n hbase)
    have hmod := Nat.div_add_mod n base
    rw [digitLoop] at h
    split_ifs at h with hdiv
    · cases htail : digitLoop digits base room (n / base) with
      | error e =>
        rw [htail] at h
        cases h
      | ok tail =>
        rw [htail] at h
        cases h
        obtain ⟨hv, hd, -, hlen⟩ := ih htail
        rw [List.reverse_cons, ofDigits_append, hv, List.foldl_cons, List.foldl_nil, hvalue, Nat.mul_comm]
        exact ⟨hmod, List.forall_mem_append.mpr ⟨hd, by simpa using hdigit⟩, List.cons_ne_nil _ _, Nat.succ_le_succ hlen⟩
    · cases h
      rw [not_not.mp hdiv, Nat.mul_zero, Nat.zero_add] at hmod
      rw [List.reverse_singleton, ofDigits, List.foldl_cons, List.foldl_nil, hvalue, Nat.zero_mul, Nat.zero_add]
      exact ⟨hmod, by simpa using hdigit, List.cons_ne_nil _ _, Nat.succ_le_succ (Nat.zero_le _)⟩

/-- The number of an integer that is formatted, with its sign if it has one. -/
def formatted (num : BitVec 64) (flags : Flags) : ℤ := if flags.signed then num.toInt else num.toNat

theorem formatted_eq (num : BitVec 64) (flags : Flags) :
    formatted num flags = if (num.msb && flags.signed) = true then -((-num).toNat : ℤ) else num.toNat := by
  unfold formatted
  by_cases hsigned : flags.signed = true
  · by_cases hmsb : num.msb = true
    · simp only [hsigned, hmsb, Bool.and_self, if_true]
      rw [BitVec.toInt_eq_msb_cond, hmsb, if_pos rfl, BitVec.toNat_neg]
      have hlt := num.isLt
      have hpos : 2 ^ 63 ≤ num.toNat := by
        rw [BitVec.msb_eq_decide, decide_eq_true_eq] at hmsb
        exact hmsb
      omega
    · simp [hsigned, hmsb, BitVec.toInt_eq_msb_cond]
  · simp [hsigned]

theorem signOf_mem : signOf num flags ∈ [[], ['-'], ['+'], [' ']] ∧
    (signOf num flags = ['-'] ↔ (num.msb && flags.signed) = true) := by
  unfold signOf
  split_ifs <;> simp_all

theorem prefixOf_mem (hbase : base = 8 ∨ base = 10 ∨ base = 16) : prefixOf base flags ∈ prefixes base := by
  unfold prefixOf prefixes
  rcases hbase with rfl | rfl | rfl <;> split_ifs <;> simp_all

/-- The text of an integer denotes it, and is as long as its width or its characters. -/
theorem integerText_denotes (hbase : base = 8 ∨ base = 10 ∨ base = 16) (h : integerText num base width flags = .ok out) :
    Denotes base (formatted num flags) out ∧ width ≤ out.length ∧ (out.length : ℤ) ≤ max width 128 := by
  have hdigits : ∀ d < base, digitValue ((if flags.upper then upperDigits else lowerDigits).getD d nul) = d ∧
      IsDigit base ((if flags.upper then upperDigits else lowerDigits).getD d nul) :=
    fun d => digitValue_getD flags.upper (by omega)
  simp only [integerText] at h
  generalize hn : (if (num.msb && flags.signed) = true then (-num).toNat else num.toNat) = n at h
  cases hloop : digitLoop (if flags.upper then upperDigits else lowerDigits) base 64 n with
  | error e =>
    rw [hloop] at h
    cases h
  | ok l =>
    rw [hloop] at h
    obtain ⟨hvalue, hvalid, hne, hlen⟩ := digitLoop_denotes (by omega) hdigits hloop
    obtain ⟨hsign, hminus⟩ := @signOf_mem num flags
    have hpre := @prefixOf_mem base flags hbase
    have hv : formatted num flags = if signOf num flags = ['-'] then -(n : ℤ) else n := by
      rw [formatted_eq, ← hn]
      simp only [hminus]
      split_ifs <;> rfl
    have hstart : (signOf num flags ++ prefixOf base flags).length ≤ 64 := by
      have hs : (signOf num flags).length ≤ 1 := by
        have hall : ∀ s ∈ [[], ['-'], ['+'], [' ']], s.length ≤ 1 := by decide
        exact hall _ hsign
      have hp : (prefixOf base flags).length ≤ 2 := by
        have hall : ∀ s ∈ [[], ['0'], ['0', 'x'], ['0', 'X']], s.length ≤ 2 := by decide
        exact hall _ (mem_prefixes hpre)
      rw [List.length_append]
      omega
    have hout := Except.ok.inj h
    generalize hpad : (if width > 0 then (width - l.length - (signOf num flags ++ prefixOf base flags).length).toNat
      else 0) = padding at hout
    have hpadding : width ≤ padding + l.length + (signOf num flags ++ prefixOf base flags).length ∧
        (padding + l.length + (signOf num flags ++ prefixOf base flags).length : ℤ) ≤ max width 128 := by
      split_ifs at hpad <;> omega
    have hlength : out.length = padding + l.length + (signOf num flags ++ prefixOf base flags).length := by
      rw [← hout]
      cases flags.left <;> cases flags.zeroPad <;> simp <;> omega
    rw [hlength]
    refine ⟨?_, by push_cast; exact hpadding.1, by push_cast; exact hpadding.2⟩
    refine ⟨if !flags.left && !flags.zeroPad then padding else 0, if !flags.left && flags.zeroPad then padding else 0,
      if flags.left then padding else 0, signOf num flags, prefixOf base flags, l.reverse, ?_, hsign, hpre,
      by simpa using hne, hvalid, by rw [hvalue, hv]⟩
    rw [← hout]
    cases flags.left <;> cases flags.zeroPad <;> simp

end

end SomeOs.Printf

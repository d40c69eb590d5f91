import SomeOs.Libc.IntegerTexts

/-! # Integer conversions

A format of a single conversion is put together from its parts, and its argument is passed as the type of the
conversion is promoted.
-/
namespace SomeOs.Printf

inductive Modifier where
  | none
  | h
  | hh
  | l
  | ll
deriving DecidableEq

inductive Width where
  | none
  | digits (n : ℕ) (pos : 0 < n)
  | star (w : BitVec 32)

/-- One conversion of an integer. -/
structure Conversion where
  flags : Str
  width : Width
  modifier : Modifier
  letter : Char
  flags_mem : ∀ c ∈ flags, c ∈ ['#', '0', '-', ' ', '+']
  letter_mem : letter ∈ ['d', 'i', 'u', 'x', 'X', 'o']

def Modifier.text : Modifier → Str
  | .none => []
  | .h => ['h']
  | .hh => ['h', 'h']
  | .l => ['l']
  | .ll => ['l', 'l']

def Modifier.bits : Modifier → ℕ
  | .none => 32
  | .h => 16
  | .hh => 8
  | .l | .ll => 64

def Width.text : Width → Str
  | .none => []
  | .digits n _ => Nat.toDigits 10 n
  | .star _ => ['*']

def Width.args : Width → List Arg
  | .none | .digits _ _ => []
  | .star w => [.int w]

/-- How many characters are asked for; a negative width asks for as many on the left. -/
def Width.abs : Width → ℕ
  | .none => 0
  | .digits n _ => n
  | .star w => w.toInt.natAbs

def Conversion.format (c : Conversion) : Str := '%' :: (c.flags ++ (c.width.text ++ (c.modifier.text ++ [c.letter])))

/-- Types shorter than an `int` are passed as one. -/
def Conversion.arg (c : Conversion) (v : BitVec c.modifier.bits) : Arg :=
  if c.modifier = .l ∨ c.modifier = .ll then .long (v.setWidth 64)
  else .int (if isSignedLetter c.letter then v.signExtend 32 else v.setWidth 32)

def Conversion.args (c : Conversion) (v : BitVec c.modifier.bits) : List Arg := c.width.args ++ [c.arg v]

def Conversion.value (c : Conversion) (v : BitVec c.modifier.bits) : ℤ :=
  if isSignedLetter c.letter then v.toInt else v.toNat

/-- The call puts out a text of the value that is not shorter than the width. -/
def Conversion.Prints (c : Conversion) (v : BitVec c.modifier.bits) : Prop :=
  ∃ out, Outputs c.format (c.args v) out ∧ Denotes (baseOf c.letter) (c.value v) out ∧ c.width.abs ≤ out.length

def Conversion.Kept (c : Conversion) (v : BitVec c.modifier.bits) : Prop :=
  match c.modifier with
  | .none => isSignedLetter c.letter = false → v.toNat < 2 ^ 31
  | .h | .hh => isSignedLetter c.letter = true → 0 ≤ v.toInt
  | .l => True
  | .ll => False

section
variable {fmt s : Str} {args : List Arg} {flags : Flags} {letter ch : Char}

theorem readFlags_append (hs : ∀ c ∈ s, c ∈ ['#', '0', '-', ' ', '+']) (hfmt : current fmt ∉ ['#', '0', '-', ' ', '+']) :
    (readFlags (s ++ fmt) flags).2 = fmt := by
  induction s generalizing flags with
  | nil =>
    cases fmt with
    | nil => rfl
    | cons c fmt =>
      simp only [List.mem_cons, List.not_mem_nil, or_false, not_or, current, List.headD_cons] at hfmt
      simp [readFlags, hfmt]
  | cons c s ih =>
    obtain ⟨hc, hs⟩ := List.forall_mem_cons.mp hs
    rw [List.cons_append, readFlags]
    simp only [List.mem_cons, List.not_mem_nil, or_false] at hc
    split_ifs with h₁ h₂ h₃ h₄ h₅
    · exact ih hs
    · exact ih hs
    · exact ih hs
    · exact ih hs
    · exact ih hs
    · tauto

theorem readInt_stop (h : (current fmt).isDigit = false) (m : ℤ) : readInt fmt m = (m, fmt) := by
  cases fmt with
  | nil => rfl
  | cons c fmt =>
    have hc : ('0' ≤ c && c ≤ '9') = false := h
    rw [readInt, hc]
    rfl

theorem readInt_append (hs : ∀ c ∈ s, c.isDigit = true) (hfmt : (current fmt).isDigit = false) (m : ℕ)
    (h : Nat.ofDigitChars 10 s m < 2 ^ 31) : readInt (s ++ fmt) m = (↑(Nat.ofDigitChars 10 s m), fmt) := by
  induction s generalizing m with
  | nil =>
    rw [List.nil_append, Nat.ofDigitChars_nil]
    exact readInt_stop hfmt m
  | cons c s ih =>
    obtain ⟨hc, hs⟩ := List.forall_mem_cons.mp hs
    have hdigit : ('0' ≤ c && c ≤ '9') = true := hc
    rw [Nat.ofDigitChars_cons] at h ⊢
    have hle : 10 * m + (c.toNat - '0'.toNat) < 2 ^ 31 := by
      rw [Nat.ofDigitChars_eq_ofDigitChars_zero] at h
      refine lt_of_le_of_lt ((Nat.le_mul_of_pos_left _ (Nat.pow_pos (by decide))).trans (Nat.le_add_right _ _)) h
    have hstep : toInt ((m : ℤ) * 10 + (c.toNat - '0'.toNat : ℕ)) = ↑(10 * m + (c.toNat - '0'.toNat)) := by
      have hcast : (m : ℤ) * 10 + (c.toNat - '0'.toNat : ℕ) = ↑(10 * m + (c.toNat - '0'.toNat)) := by
        push_cast
        ring
      rw [hcast, toInt_of_lt hle]
    rw [List.cons_append, readInt, hdigit, if_pos rfl, hstep]
    exact ih hs _ h

theorem exists_toDigits {n : ℕ} (hn : 0 < n) : ∃ c s, Nat.toDigits 10 n = c :: s ∧ c.isDigit = true ∧ c ≠ '0' := by
  induction n using Nat.strong_induction_on with
  | _ n ih =>
    rw [Nat.toDigits_eq_if (by decide)]
    split_ifs with h
    · refine ⟨_, [], rfl, ?_, fun hzero => ?_⟩
      · exact Nat.isDigit_of_mem_toDigits (b := 10) (n := n) (by decide) (by decide)
          (by rw [Nat.toDigits_of_lt_base h]; exact List.mem_singleton_self _)
      · have hval := Nat.toNat_digitChar_of_lt_ten h
        rw [hzero] at hval
        have h48 : '0'.toNat = 48 := rfl
        omega
    · obtain ⟨c, s, hs, hc⟩ := ih (n / 10) (by omega) (by omega)
      exact ⟨c, s ++ [(n % 10).digitChar], by rw [hs]; rfl, hc⟩

def Width.amount : Width → Option ℤ
  | .none => some 0
  | .digits n _ => some n
  | .star _ => Option.none

theorem amount_append (w : Width) (hw : w.abs < 2 ^ 31) (hfmt : (current fmt).isDigit = false) (hstar : current fmt ≠ '*') :
    amount (w.text ++ fmt) = (w.amount, fmt) := by
  cases w with
  | none => rw [Width.text, List.nil_append, amount, if_neg hstar, readInt_stop hfmt]; rfl
  | digits n pos =>
    obtain ⟨c, s, hs, hc, -⟩ := exists_toDigits pos
    have hcur : current (Nat.toDigits 10 n ++ fmt) ≠ '*' := by
      rw [hs]
      rintro (rfl : c = '*')
      exact absurd hc (by decide)
    have hvalue : Nat.ofDigitChars 10 (Nat.toDigits 10 n) 0 = n := Nat.ofDigitChars_toDigits (by decide) (by decide)
    have hread := readInt_append (fun c hc => Nat.isDigit_of_mem_toDigits (b := 10) (n := n) (by decide) (by decide) hc) hfmt 0
      (by rw [hvalue]; exact hw)
    rw [hvalue] at hread
    rw [Width.text, amount, if_neg hcur]
    simp only [Nat.cast_zero] at hread
    rw [hread]
    rfl
  | star w => rfl

theorem width_not_flag (w : Width) (hfmt : current fmt ∉ ['#', '0', '-', ' ', '+']) :
    current (w.text ++ fmt) ∉ ['#', '0', '-', ' ', '+'] := by
  cases w with
  | none => exact hfmt
  | digits n pos =>
    obtain ⟨c, s, hs, hc, hzero⟩ := exists_toDigits pos
    rw [Width.text, hs]
    intro hmem
    simp only [List.cons_append, current, List.headD_cons, List.mem_cons, List.not_mem_nil, or_false] at hmem
    rcases hmem with rfl | h | rfl | rfl | rfl
    · exact absurd hc (by decide)
    · exact hzero h
    · exact absurd hc (by decide)
    · exact absurd hc (by decide)
    · exact absurd hc (by decide)
  | star w =>
    have hstar : '*' ∉ ['#', '0', '-', ' ', '+'] := by decide
    exact hstar

/-- How the length is read; a second `l` is left for the letter. -/
def Modifier.read (m : Modifier) (letter : Char) : Length × Str :=
  match m with
  | .none => (.int, [letter])
  | .h => (.short, [letter])
  | .hh => (.char, [letter])
  | .l => (.longLong, [letter])
  | .ll => (.longLong, ['l', letter])

theorem readLength_text (m : Modifier) (h : letter ∈ ['d', 'i', 'u', 'x', 'X', 'o']) :
    readLength (m.text ++ [letter]) = m.read letter := by
  have hletter : letter ≠ 'h' ∧ letter ≠ 'l' := by fin_cases h <;> decide
  obtain ⟨hh, hl⟩ := hletter
  cases m <;> simp [Modifier.text, Modifier.read, readLength, current, hh, hl]

theorem current_text_mem (m : Modifier) (h : letter ∈ ['d', 'i', 'u', 'x', 'X', 'o']) :
    current (m.text ++ [letter]) ∈ ['h', 'l', 'd', 'i', 'u', 'x', 'X', 'o'] := by
  cases m with
  | none => exact List.mem_cons_of_mem _ (List.mem_cons_of_mem _ h)
  | h | hh => exact List.mem_cons_self
  | l | ll => exact List.mem_cons_of_mem _ List.mem_cons_self

theorem text_facts (h : ch ∈ ['h', 'l', 'd', 'i', 'u', 'x', 'X', 'o']) :
    ch.isDigit = false ∧ ch ≠ '*' ∧ ch ≠ '.' ∧ ch ∉ ['#', '0', '-', ' ', '+'] := by
  fin_cases h <;> decide

theorem letter_facts (h : letter ∈ ['d', 'i', 'u', 'x', 'X', 'o']) :
    isIntegerLetter letter = true ∧ (baseOf letter = 8 ∨ baseOf letter = 10 ∨ baseOf letter = 16) ∧ letter ≠ nul := by
  fin_cases h <;> decide

theorem directive_format (c : Conversion) (hw : c.width.abs < 2 ^ 31) : ∃ flags,
    directive c.format.tail = (⟨flags, c.width.amount, none, (c.modifier.read c.letter).1,
      current (c.modifier.read c.letter).2⟩, (c.modifier.read c.letter).2) := by
  have hcur := current_text_mem c.modifier c.letter_mem
  obtain ⟨hdigit, hstar, hdot, hflag⟩ := text_facts hcur
  have hflags := @readFlags_append (c.width.text ++ (c.modifier.text ++ [c.letter])) c.flags {} c.flags_mem
    (width_not_flag c.width hflag)
  have hamount := amount_append c.width hw hdigit hstar
  refine ⟨(readFlags c.format.tail {}).1, ?_⟩
  rw [Conversion.format, List.tail_cons, directive]
  simp only [hflags, hamount, if_neg hdot, readLength_text c.modifier c.letter_mem]

/-- The amount's value, as far as it is an `int`. -/
def Width.value : Width → ℤ
  | .none => 0
  | .digits n _ => n
  | .star w => w.toInt

theorem amountValue_width (w : Width) (args : List Arg) : amountValue w.amount (w.args ++ args) = .ok (w.value, args) := by
  cases w <;> rfl

theorem abs_value (w : Width) : (w.abs : ℤ) = |w.value| := by
  cases w with
  | none => rfl
  | digits n pos => simp [Width.abs, Width.value]
  | star w => exact Int.natCast_natAbs _

theorem width_eq (w : Width) (hw : w.abs < 2 ^ 31) : (if w.value < 0 then toInt (-w.value) else w.value) = w.abs := by
  have habs := abs_value w
  split_ifs with hneg
  · have hcast : -w.value = (w.abs : ℤ) := by rw [habs, abs_of_neg hneg]
    rw [hcast, toInt_of_lt hw]
  · rw [habs, abs_of_nonneg (not_lt.mp hneg)]

def Conversion.printed (c : Conversion) (num : BitVec 64) : ℤ := if isSignedLetter c.letter then num.toInt else num.toNat

theorem toNat_masked {w : ℕ} (hw : w = 8 ∨ w = 16) (v : BitVec w) {x : BitVec 32}
    (hx : x = v.signExtend 32 ∨ x = v.setWidth 32) :
    (x.signExtend 64 &&& BitVec.ofNat 64 (2 ^ w - 1)).toNat = v.toNat := by
  have hlt := v.isLt
  have hmask : 2 ^ w - 1 < 2 ^ 64 := by rcases hw with rfl | rfl <;> decide
  rw [BitVec.toNat_and, BitVec.toNat_ofNat, Nat.mod_eq_of_lt hmask, Nat.and_two_pow_sub_one_eq_mod, BitVec.toNat_signExtend,
    BitVec.toNat_setWidth]
  have hxv : x.toNat % 2 ^ w = v.toNat := by
    rcases hx with rfl | rfl
    · rw [BitVec.toNat_signExtend, BitVec.toNat_setWidth]
      rcases hw with rfl | rfl <;> split_ifs <;> omega
    · rw [BitVec.toNat_setWidth]
      rcases hw with rfl | rfl <;> omega
  have hxlt := x.isLt
  rcases hw with rfl | rfl <;> split_ifs <;> omega

theorem masked_iff {w : ℕ} (hw : w = 8 ∨ w = 16) (v : BitVec w) {x : BitVec 32} (signed : Bool)
    (hx : x = if signed then v.signExtend 32 else v.setWidth 32) :
    (if signed then (x.signExtend 64 &&& BitVec.ofNat 64 (2 ^ w - 1)).toInt
      else ((x.signExtend 64 &&& BitVec.ofNat 64 (2 ^ w - 1)).toNat : ℤ)) =
        (if signed then v.toInt else (v.toNat : ℤ)) ↔ (signed = true → 0 ≤ v.toInt) := by
  have hnat := toNat_masked hw v (x := x) (by cases signed <;> simp [hx])
  have hlt := v.isLt
  cases signed with
  | false => simp [hnat]
  | true =>
    have hint := BitVec.toInt_eq_toNat_cond v
    have hmasked := BitVec.toInt_eq_toNat_cond (x.signExtend 64 &&& BitVec.ofNat 64 (2 ^ w - 1))
    rw [hnat] at hmasked
    simp only [if_true, forall_const]
    rcases hw with rfl | rfl <;> split_ifs at hint hmasked <;> omega

theorem plain_iff (v : BitVec 32) (signed : Bool) :
    (if signed then ((if signed then v.signExtend 32 else v.setWidth 32).signExtend 64).toInt
      else (((if signed then v.signExtend 32 else v.setWidth 32).signExtend 64).toNat : ℤ)) =
        (if signed then v.toInt else (v.toNat : ℤ)) ↔ (signed = false → v.toNat < 2 ^ 31) := by
  have hlt := v.isLt
  cases signed with
  | true =>
    simp only [if_true]
    rw [BitVec.toInt_signExtend_of_le (by decide), BitVec.toInt_signExtend_of_le (by decide)]
    simp
  | false =>
    simp only [Bool.false_eq_true, if_false, forall_const]
    rw [BitVec.toNat_signExtend, BitVec.msb_eq_decide, BitVec.toNat_setWidth, BitVec.toNat_setWidth]
    split_ifs with h
    · simp only [decide_eq_true_eq] at h
      omega
    · simp only [decide_eq_true_eq] at h
      omega

theorem integerArg_printed (c : Conversion) (hll : c.modifier ≠ .ll) (v : BitVec c.modifier.bits) :
    ∃ num, integerArg (c.modifier.read c.letter).1 [c.arg v] = .ok (num, []) ∧ (c.printed num = c.value v ↔ c.Kept v) := by
  obtain ⟨flags, width, modifier, letter, hflags, hletter⟩ := c
  cases modifier with
  | none => exact ⟨_, rfl, plain_iff v (isSignedLetter letter)⟩
  | h => exact ⟨_, rfl, masked_iff (Or.inr rfl) v (isSignedLetter letter) rfl⟩
  | hh => exact ⟨_, rfl, masked_iff (Or.inl rfl) v (isSignedLetter letter) rfl⟩
  | l =>
    refine ⟨v.setWidth 64, rfl, iff_of_true ?_ trivial⟩
    have hsame : v.setWidth 64 = v := BitVec.setWidth_eq v
    rw [hsame]
    rfl
  | ll => exact absurd rfl hll

theorem pieces_format (c : Conversion) : pieces c.format = .directive (directive c.format.tail).1 ::
    if (directive c.format.tail).1.letter = nul then []
    else piecesFrom c.format.length (directive c.format.tail).2.tail := by
  have hpercent : current c.format = '%' := rfl
  have hnul : ¬ '%' = nul := by decide
  rw [pieces, piecesFrom, hpercent, if_neg hnul, if_pos rfl]

theorem letterText_integer {width : ℤ} {length : Length} {num : BitVec 64} (hletter : isIntegerLetter letter = true)
    (harg : integerArg length args = .ok (num, [])) : ∃ flags' : Flags, flags'.signed = isSignedLetter letter ∧
      letterText flags width length letter args = (integerText num (baseOf letter) width flags').map fun t => ([], t) := by
  refine ⟨{ flags with signed := isSignedLetter letter, upper := letter = 'X' }, rfl, ?_⟩
  simp only [letterText, hletter, if_true, harg, bind, Except.bind]
  cases integerText num (baseOf letter) width { flags with signed := isSignedLetter letter, upper := letter = 'X' } <;> rfl

/-- The text of a conversion is the one of its argument with its width. -/
theorem textOf_format (c : Conversion) (hw : c.width.abs < 2 ^ 31) (hll : c.modifier ≠ .ll) (v : BitVec c.modifier.bits) :
    ∃ num flags, textOf (pieces c.format) (c.args v) = integerText num (baseOf c.letter) c.width.abs flags ∧
      formatted num flags = c.printed num ∧ (c.printed num = c.value v ↔ c.Kept v) := by
  obtain ⟨flags, hdirective⟩ := directive_format c hw
  obtain ⟨hinteger, -, hnul⟩ := letter_facts c.letter_mem
  obtain ⟨num, harg, hprinted⟩ := integerArg_printed c hll v
  obtain ⟨flags', hsigned, htext⟩ := @letterText_integer _ (if c.width.value < 0 then { flags with left := true } else flags)
    c.letter c.width.abs _ num hinteger harg
  have hread : (c.modifier.read c.letter).2 = [c.letter] := by
    cases h : c.modifier <;> simp [Modifier.read]
    exact absurd h hll
  have hend : ∀ fuel, piecesFrom fuel [] = [] := fun fuel => by
    cases fuel <;> rfl
  have hletter : current [c.letter] ≠ nul := hnul
  refine ⟨num, flags', ?_, by rw [formatted, hsigned]; rfl, hprinted⟩
  rw [hread] at hdirective
  rw [pieces_format, hdirective]
  simp only [hletter, if_false, List.tail_cons, hend, textOf, Directive.text, Conversion.args, amountValue_width,
    Option.getD_none, bind, Except.bind]
  simp only [amountValue, width_eq c.width hw, current, List.headD_cons, htext]
  cases integerText num (baseOf c.letter) c.width.abs flags' with
  | error e => rfl
  | ok t => exact congrArg Except.ok (List.append_nil t)

/-- The second `l` is taken for a letter. -/
theorem textOf_longLong (c : Conversion) (hw : c.width.abs < 2 ^ 31) (hll : c.modifier = .ll) (v : BitVec c.modifier.bits) :
    textOf (pieces c.format) (c.args v) = .ok ['%', 'l', c.letter] := by
  obtain ⟨flags, hdirective⟩ := directive_format c hw
  obtain ⟨-, -, hnul⟩ := letter_facts c.letter_mem
  have hread : (c.modifier.read c.letter).2 = ['l', c.letter] := by rw [hll]; rfl
  rw [hread] at hdirective
  have hl : current ['l', c.letter] = 'l' := rfl
  have hlnul : ¬ 'l' = nul := by decide
  have hlength : c.format.length = c.format.length - 1 + 1 := rfl
  have hpercent : current [c.letter] ≠ '%' := by
    have hletter := c.letter_mem
    rintro (h : c.letter = '%')
    rw [h] at hletter
    exact absurd hletter (by decide)
  have hcur : current [c.letter] ≠ nul := hnul
  have hrest : piecesFrom c.format.length [c.letter] = [.char c.letter] := by
    rw [hlength, piecesFrom, if_neg hcur, if_neg hpercent]
    cases c.format.length - 1 <;> rfl
  have htext : ∀ flags width length args, letterText flags width length 'l' args = .ok (args, ['%', 'l']) :=
    fun _ _ _ _ => rfl
  rw [pieces_format, hdirective]
  simp only [hl, hlnul, if_false, List.tail_cons, hrest, textOf, Directive.text, Conversion.args, amountValue_width,
    Option.getD_none, bind, Except.bind]
  simp only [amountValue, htext]
  rfl

/-- An integer conversion prints the value of its argument with at least its width exactly when the argument is kept:
an unsigned `int` is below 2 ^ 31, a signed `short` or `char` is not negative, and the length is not `ll`. The width
must be an `int`. -/
theorem vsnprintf_denotes (c : Conversion) (v : BitVec c.modifier.bits) :
    c.Prints v ↔ c.Kept v ∧ c.width.abs < 2 ^ 31 := by
  obtain ⟨-, hbase, -⟩ := letter_facts c.letter_mem
  simp only [Conversion.Prints, outputs_iff]
  by_cases hw : c.width.abs < 2 ^ 31
  · by_cases hll : c.modifier = .ll
    · have hkept : ¬c.Kept v := by
        obtain ⟨flags, width, modifier, letter, hflags, hletter⟩ := c
        obtain rfl : modifier = .ll := hll
        exact not_false
      refine iff_of_false ?_ fun h => hkept h.1
      rintro ⟨out, ⟨htext, -⟩, hdenotes, -⟩
      rw [textOf_longLong c hw hll v] at htext
      rw [← Except.ok.inj htext] at hdenotes
      exact hdenotes.not_percent List.mem_cons_self
    · obtain ⟨num, flags, htext, hformatted, hprinted⟩ := textOf_format c hw hll v
      obtain ⟨out, hout⟩ := (@integerText_ok_iff (baseOf c.letter) num flags c.width.abs (by omega)).mpr (by omega)
      obtain ⟨hdenotes, hwidth, hlength⟩ := integerText_denotes hbase hout
      rw [hformatted] at hdenotes
      rw [htext, hout, ← hprinted, and_iff_left hw]
      constructor
      · rintro ⟨out', ⟨heq, -⟩, hdenotes', -⟩
        rw [← Except.ok.inj heq] at hdenotes'
        exact hdenotes.unique hdenotes'
      · intro heq
        exact ⟨out, ⟨rfl, by omega⟩, heq ▸ hdenotes, by exact_mod_cast hwidth⟩
  · refine iff_of_false ?_ fun h => hw h.2
    rintro ⟨out, ⟨-, hlt⟩, -, hwidth⟩
    omega

/-- `%u` of 4294967295 is printed as a number of 64 bits. -/
theorem unsigned_not_printed : ¬(⟨[], .none, .none, 'u', by simp, by decide⟩ : Conversion).Prints 4294967295#32 := by
  rintro ⟨out, hout, hdenotes, -⟩
  have htext := (outputs_iff.mp hout).1
  have hprinted : textOf (pieces ['%', 'u']) [.int 4294967295#32] = .ok "18446744073709551615".toList := rfl
  have heq : "18446744073709551615".toList = out := Except.ok.inj (hprinted.symm.trans htext)
  have hvalue := hdenotes.value_eq
  rw [← heq] at hvalue
  exact absurd hvalue (by decide)

end

end SomeOs.Printf

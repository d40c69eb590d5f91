import SomeOs.Libc.Printf

/-! # Formatting with a bounded buffer

With matching arguments the pieces have a text when no directive runs into the end of the format and
no binary conversion meets a number other than zero. The call then stores the text as far as it goes.
-/
namespace SomeOs.Printf

def Piece.Complete : Piece → Prop
  | .char _ => True
  | .directive d => d.letter ≠ nul

def Directive.BinaryZero (d : Directive) (args : List Arg) : Prop :=
  d.letter = 'b' → ∀ r, integerArg d.length (args.drop d.amountKinds.length) = .ok r → r.1 = 0

def BinaryZero : List Piece → List Arg → Prop
  | [], _ => True
  | .char _ :: ps, args => BinaryZero ps args
  | .directive d :: ps, args => d.BinaryZero args ∧ BinaryZero ps (args.drop d.kinds.length)

/-- What is in the buffer behind a call: the text as far as it goes, its terminator, and nothing else changed. -/
structure Stored (size : ℕ) (buf : ℕ → Char) (out : Str) (buf' : ℕ → Char) : Prop where
  text : ∀ i (h : i < out.length), i + 1 < size → buf' i = out[i]
  terminated : 0 < size → buf' (min out.length (size - 1)) = nul
  unchanged : ∀ i, (0 < size → min out.length (size - 1) < i) → buf' i = buf i

/-- The call ends for every buffer, stores the text and returns its length. -/
def Outputs (fmt : Str) (args : List Arg) (out : Str) : Prop :=
  ∀ isNull buf size fuel, fmt.length < fuel →
    ∃ buf', vsnprintf fuel isNull buf size fmt args = .ok (buf', out.length) ∧
      Stored (if isNull then 0 else size) buf out buf'

def Bounded (fmt : Str) (args : List Arg) : Prop := ∃ out, Outputs fmt args out

section
variable {fmt : Str} {args : List Arg} {ks : List Kind} {o : Out} {max room n base : ℕ} {s t digits : Str}
  {num : BitVec 64} {flags : Flags} {width : ℤ} {length : Length} {letter : Char} {d : Directive} {ps : List Piece}

theorem digitLoop_ok (hbase : 2 ≤ base) (hroom : 0 < room) (hn : n < 2 ^ room) : ∃ l, digitLoop digits base room n = .ok l := by
  induction room generalizing n with
  | zero => exact absurd hroom (lt_irrefl 0)
  | succ room ih =>
    rw [digitLoop]
    split_ifs with hdiv
    · have hhalf : n / base ≤ n / 2 := Nat.div_le_div_left hbase (by decide)
      have hlt : n / base < 2 ^ room := by
        rw [pow_succ] at hn
        omega
      have hroom' : 0 < room := by
        by_contra h0
        rw [Nat.eq_zero_of_not_pos h0, pow_zero] at hlt
        exact hdiv (Nat.lt_one_iff.mp hlt)
      obtain ⟨l, hl⟩ := ih hroom' hlt
      exact ⟨_, by simp only [hl, bind, Except.bind]; rfl⟩
    · exact ⟨_, rfl⟩

theorem digitLoop_one (hn : n ≠ 0) (room : ℕ) : digitLoop digits 1 room n = .error .outOfBounds := by
  induction room with
  | zero => rfl
  | succ room ih =>
    rw [digitLoop, Nat.div_one, if_pos hn, ih]
    rfl

theorem baseOf_eq_one (hletter : isIntegerLetter letter) :
    baseOf letter = 1 ∧ letter = 'b' ∨ 2 ≤ baseOf letter ∧ letter ≠ 'b' := by
  have hmem : letter ∈ ['i', 'd', 'o', 'u', 'x', 'X', 'b'] := by simpa [isIntegerLetter] using hletter
  fin_cases hmem <;> decide

theorem integerText_ok_iff (hbase : base = 1 ∨ 2 ≤ base) :
    (∃ t, integerText num base width flags = .ok t) ↔ (base = 1 → num = 0) := by
  have hzero : (if num.msb && flags.signed then (-num).toNat else num.toNat) = 0 ↔ num = 0 := by
    have h0 : (0 : BitVec 64).toNat = 0 := rfl
    split_ifs
    · rw [← BitVec.toNat_inj, BitVec.toNat_neg, h0]
      have := num.isLt
      omega
    · rw [← BitVec.toNat_inj, h0]
  have hlt : (if num.msb && flags.signed then (-num).toNat else num.toNat) < 2 ^ 64 := by
    split_ifs
    · exact (-num).isLt
    · exact num.isLt
  rw [← hzero]
  unfold integerText
  generalize (if num.msb && flags.signed then (-num).toNat else num.toNat) = n at hlt
  rcases hbase with rfl | hbase
  · by_cases hn : n = 0
    · rw [hn]
      exact iff_of_true ⟨_, rfl⟩ fun _ => rfl
    · simp only [digitLoop_one hn, bind, Except.bind]
      simp [hn]
  · obtain ⟨l, hl⟩ := @digitLoop_ok 64 n base (if flags.upper then upperDigits else lowerDigits) hbase (by decide) hlt
    simp only [hl, bind, Except.bind]
    exact iff_of_true ⟨_, rfl⟩ fun h => absurd h (by omega)

theorem amountValue_of_kinds {a : Option ℤ} (h : args.map Arg.kind = amountKinds a ++ ks) :
    ∃ v, amountValue a args = .ok (v, args.drop (amountKinds a).length) := by
  cases a with
  | some v => exact ⟨v, rfl⟩
  | none =>
    rcases args with _ | ⟨_ | _ | _, args⟩
    · exact absurd h (by simp [amountKinds])
    · exact ⟨_, rfl⟩
    · exact absurd h (by simp [amountKinds, Arg.kind])
    · exact absurd h (by simp [amountKinds, Arg.kind])

theorem map_kind_drop {l : List Kind} (h : args.map Arg.kind = l ++ ks) : (args.drop l.length).map Arg.kind = ks := by
  rw [List.map_drop, h, List.drop_left]

theorem nextInt_of_kinds (h : args.map Arg.kind = .int :: ks) : ∃ v, nextInt args = .ok (v, args.drop 1) := by
  rcases args with _ | ⟨_ | _ | _, args⟩
  · exact absurd h (by simp)
  · exact ⟨_, rfl⟩
  · exact absurd h (by simp [Arg.kind])
  · exact absurd h (by simp [Arg.kind])

theorem nextLong_of_kinds (h : args.map Arg.kind = .long :: ks) : ∃ v, nextLong args = .ok (v, args.drop 1) := by
  rcases args with _ | ⟨_ | _ | _, args⟩
  · exact absurd h (by simp)
  · exact absurd h (by simp [Arg.kind])
  · exact ⟨_, rfl⟩
  · exact absurd h (by simp [Arg.kind])

theorem nextStr_of_kinds (h : args.map Arg.kind = .str :: ks) : ∃ v, nextStr args = .ok (v, args.drop 1) := by
  rcases args with _ | ⟨_ | _ | _, args⟩
  · exact absurd h (by simp)
  · exact absurd h (by simp [Arg.kind])
  · exact absurd h (by simp [Arg.kind])
  · exact ⟨_, rfl⟩

theorem integerArg_of_kinds (hletter : isIntegerLetter letter) (h : args.map Arg.kind = letterKinds length letter ++ ks) :
    ∃ num, integerArg length args = .ok (num, args.drop 1) := by
  rw [letterKinds, if_pos hletter] at h
  cases length with
  | long => exact nextLong_of_kinds h
  | longLong => exact nextLong_of_kinds h
  | int | short | char =>
    obtain ⟨v, hv⟩ := nextInt_of_kinds h
    exact ⟨_, by simp only [integerArg, hv, bind, Except.bind]; rfl⟩

/-- A conversion with matching arguments has a text, but for a binary one of another number than zero. -/
theorem letterText_of_kinds (h : args.map Arg.kind = letterKinds length letter ++ ks) :
    ((∃ r, letterText flags width length letter args = .ok r) ↔
      (letter = 'b' → ∀ r, integerArg length args = .ok r → r.1 = 0)) ∧
    ∀ r, letterText flags width length letter args = .ok r → r.1 = args.drop (letterKinds length letter).length := by
  by_cases hinteger : isIntegerLetter letter
  · obtain ⟨num, hnum⟩ := integerArg_of_kinds hinteger h
    have hlen : (letterKinds length letter).length = 1 := by rw [letterKinds, if_pos hinteger]; rfl
    have hbase : (baseOf letter = 1 ↔ letter = 'b') ∧ (baseOf letter = 1 ∨ 2 ≤ baseOf letter) := by
      rcases baseOf_eq_one hinteger with h | h
      · exact ⟨iff_of_true h.1 h.2, Or.inl h.1⟩
      · exact ⟨iff_of_false (by omega) h.2, Or.inr h.1⟩
    have hok := @integerText_ok_iff (baseOf letter) num
      { flags with signed := isSignedLetter letter, upper := letter = 'X' } width hbase.2
    rw [hbase.1] at hok
    simp only [letterText, hinteger, if_true, hnum, bind, Except.bind, hlen]
    constructor
    · constructor
      · rintro ⟨r, hr⟩ hb r' hr'
        rw [← Except.ok.inj hr']
        refine hok.mp ?_ hb
        cases htext : integerText num (baseOf letter) width
          { flags with signed := isSignedLetter letter, upper := letter = 'X' } with
        | error e =>
          rw [htext] at hr
          exact absurd hr (by simp)
        | ok t => exact ⟨t, rfl⟩
      · intro hb
        obtain ⟨t, ht⟩ := hok.mpr fun hb' => hb hb' _ rfl
        exact ⟨_, by rw [ht]; rfl⟩
    · intro r hr
      cases htext : integerText num (baseOf letter) width
        { flags with signed := isSignedLetter letter, upper := letter = 'X' } with
      | error e =>
        rw [htext] at hr
        exact absurd hr (by simp)
      | ok t =>
        rw [htext] at hr
        rw [← Except.ok.inj hr]
  · have hb : letter ≠ 'b' := by
      rintro rfl
      exact hinteger rfl
    have hall : ∃ t, letterText flags width length letter args = .ok (args.drop (letterKinds length letter).length, t) := by
      rw [letterKinds, if_neg hinteger] at h ⊢
      rw [letterText, if_neg hinteger]
      split_ifs at h ⊢
      · obtain ⟨v, hv⟩ := nextLong_of_kinds h
        obtain ⟨t, ht⟩ := (@integerText_ok_iff 16 v { alternate := true } width (Or.inr (by decide))).mpr (by simp)
        exact ⟨t, by simp only [hv, ht, bind, Except.bind]; rfl⟩
      · obtain ⟨v, hv⟩ := nextInt_of_kinds h
        exact ⟨_, by simp only [hv, bind, Except.bind]; rfl⟩
      · obtain ⟨v, hv⟩ := nextStr_of_kinds h
        exact ⟨_, by simp only [hv, bind, Except.bind]; rfl⟩
      · exact ⟨_, rfl⟩
      · exact ⟨_, rfl⟩
    obtain ⟨t, ht⟩ := hall
    refine ⟨iff_of_true ⟨_, ht⟩ fun h => absurd h hb, fun r hr => ?_⟩
    rw [← Except.ok.inj (ht.symm.trans hr)]

theorem Directive.text_of_kinds (h : args.map Arg.kind = d.kinds ++ ks) :
    ((∃ r, d.text args = .ok r) ↔ d.BinaryZero args) ∧ ∀ r, d.text args = .ok r → r.1 = args.drop d.kinds.length := by
  rw [Directive.kinds, Directive.amountKinds, List.append_assoc, List.append_assoc] at h
  obtain ⟨w, hw⟩ := amountValue_of_kinds h
  have hrest := map_kind_drop h
  obtain ⟨p, hp⟩ := amountValue_of_kinds hrest
  have hrest' := map_kind_drop hrest
  have hdrop : args.drop d.amountKinds.length =
      (args.drop (Printf.amountKinds d.width).length).drop (Printf.amountKinds (d.precision.getD (some 0))).length := by
    rw [List.drop_drop, Directive.amountKinds, List.length_append]
  have hdrop' : args.drop d.kinds.length =
      (args.drop d.amountKinds.length).drop (letterKinds d.length d.letter).length := by
    rw [List.drop_drop, Directive.kinds, List.length_append]
  rw [Directive.BinaryZero, hdrop', hdrop]
  simp only [Directive.text, hw, hp, bind, Except.bind]
  exact letterText_of_kinds hrest'

@[simp] theorem complete_char (c : Char) : (Piece.char c).Complete ↔ True := Iff.rfl

@[simp] theorem complete_directive (d : Directive) : (Piece.directive d).Complete ↔ d.letter ≠ nul := Iff.rfl

theorem textOf_of_kinds (h : args.map Arg.kind = ps.flatMap Piece.kinds) :
    (∃ t, textOf ps args = .ok t) ↔ (∀ p ∈ ps, p.Complete) ∧ BinaryZero ps args := by
  induction ps generalizing args with
  | nil => exact iff_of_true ⟨[], rfl⟩ ⟨fun p hp => absurd hp List.not_mem_nil, trivial⟩
  | cons p ps ih =>
    rw [List.forall_mem_cons]
    cases p with
    | char c =>
      rw [complete_char, true_and, BinaryZero, ← ih h]
      simp only [textOf, bind, Except.bind]
      cases textOf ps args with
      | error e => simp
      | ok t => exact iff_of_true ⟨_, rfl⟩ ⟨t, rfl⟩
    | directive d =>
      rw [List.flatMap_cons] at h
      obtain ⟨hiff, hargs⟩ := Directive.text_of_kinds h
      have hrest := ih (map_kind_drop h)
      rw [complete_directive, BinaryZero, ← hiff]
      simp only [textOf, bind, Except.bind]
      cases htext : d.text args with
      | error e => simp
      | ok r =>
        have hargs := hargs r htext
        simp only [Piece.kinds] at hrest
        simp only [hargs, Except.ok.injEq, exists_eq', true_and, and_assoc]
        rw [← hrest]
        split_ifs with hnul
        · simp [hnul]
        · cases textOf ps (args.drop d.kinds.length) <;> simp [hnul, pure, Except.pure]

theorem writeChars_pos (max : ℕ) (t : Str) (o : Out) : (writeChars max t o).pos = o.pos + t.length := by
  induction t generalizing o with
  | nil => rfl
  | cons c t ih =>
    rw [writeChars, List.foldl_cons, ← writeChars, ih, List.length_cons, writeChar]
    exact Nat.add_right_comm o.pos 1 t.length

theorem writeChars_buf (max : ℕ) (t : Str) (o : Out) (i : ℕ) :
    (writeChars max t o).buf i = if o.pos ≤ i ∧ i < max then t.getD (i - o.pos) (o.buf i) else o.buf i := by
  induction t generalizing o with
  | nil => simp
  | cons c t ih =>
    have hstep := ih (writeChar max o c)
    rw [writeChars, List.foldl_cons, ← writeChars, hstep]
    simp only [writeChar]
    by_cases hi : i = o.pos
    · subst hi
      simp only [Nat.not_succ_le_self, false_and, if_false, le_refl, true_and, Nat.sub_self, List.getD_cons_zero]
      split_ifs <;> simp
    · have hupdate : (if o.pos < max then Function.update o.buf o.pos c else o.buf) i = o.buf i := by
        split_ifs
        · exact Function.update_of_ne hi c o.buf
        · rfl
      rw [hupdate]
      by_cases hle : o.pos ≤ i
      · have hsub : i - o.pos = i - (o.pos + 1) + 1 := by omega
        rw [hsub, List.getD_cons_succ]
        simp [hle, show o.pos + 1 ≤ i by omega]
      · simp [hle, show ¬o.pos + 1 ≤ i by omega]

/-- A text that is put out from the start of the buffer is stored as it should be. -/
theorem stored_writeChars (size : ℕ) (buf : ℕ → Char) (t : Str) :
    let o := writeChars size t ⟨buf, 0⟩
    Stored size buf t (if size ≠ 0 then Function.update o.buf (if o.pos < size then o.pos else size - 1) nul else o.buf) := by
  intro o
  have hpos : o.pos = t.length := by simp [o, writeChars_pos]
  have hbuf : ∀ i, o.buf i = if i < size then t.getD i (buf i) else buf i := by
    intro i
    simp [o, writeChars_buf]
  by_cases hsize : size = 0
  · subst hsize
    rw [if_neg (not_not.mpr rfl)]
    exact ⟨fun i _ hi => absurd hi (Nat.not_lt_zero _), fun h => absurd h (lt_irrefl 0), fun i _ => by simp [hbuf]⟩
  · have hindex : (if o.pos < size then o.pos else size - 1) = min t.length (size - 1) := by
      rw [hpos]
      split_ifs <;> omega
    rw [if_pos hsize, hindex]
    constructor
    · intro i hi hlt
      rw [Function.update_of_ne (by omega), hbuf, if_pos (by omega), List.getD_eq_getElem _ _ hi]
    · exact fun _ => Function.update_self _ _ _
    · intro i hi
      have hlt := hi (Nat.pos_of_ne_zero hsize)
      rw [Function.update_of_ne (by omega), hbuf]
      split_ifs
      · rw [List.getD_eq_default _ _ (by omega)]
      · rfl

theorem piecesFrom_eq {fuel fuel' : ℕ} (h : fmt.length < fuel) (h' : fmt.length < fuel') :
    piecesFrom fuel fmt = piecesFrom fuel' fmt := by
  induction fuel generalizing fmt fuel' with
  | zero => exact absurd h (Nat.not_lt_zero _)
  | succ fuel ih =>
    obtain ⟨fuel', rfl⟩ := Nat.exists_eq_add_one.mpr (Nat.zero_lt_of_lt h')
    rw [piecesFrom, piecesFrom]
    split_ifs with hnul hpercent
    · rfl
    · have hlt := lt_of_current_ne_nul hnul
      have hle := length_directive_le fmt.tail
      simp only
      split_ifs with hend
      · rfl
      · have htail : (directive fmt.tail).2.tail.length < (directive fmt.tail).2.length := lt_of_current_ne_nul hend
        rw [ih (by omega) (show _ < fuel' by omega)]
    · have hlt := lt_of_current_ne_nul hnul
      rw [ih (by omega) (show _ < fuel' by omega)]

theorem vsnprintf_eq {fuel : ℕ} (hfuel : fmt.length < fuel) (isNull : Bool) (buf : ℕ → Char) (size : ℕ) :
    (∀ t, textOf (pieces fmt) args = .ok t → ∃ buf', vsnprintf fuel isNull buf size fmt args = .ok (buf', toInt t.length) ∧
      Stored (if isNull then 0 else size) buf t buf') ∧
    ∀ e, textOf (pieces fmt) args = .error e → vsnprintf fuel isNull buf size fmt args = .error e := by
  rw [pieces, piecesFrom_eq (Nat.lt_succ_self _) hfuel]
  simp only [vsnprintf, formatLoop_eq hfuel]
  constructor
  · intro t ht
    simp only [ht, bind, Except.bind, Except.map, pure, Except.pure, writeChars_pos, Nat.zero_add]
    refine ⟨_, rfl, ?_⟩
    simpa [writeChars_pos] using stored_writeChars (if isNull then 0 else size) buf t
  · intro e he
    rw [he]
    rfl

theorem toInt_of_lt (h : n < 2 ^ 31) : toInt n = n := Int.bmod_eq_of_le (by omega) (by omega)

/-- A text is put out when the pieces stand for it and its length is an `int`. -/
theorem outputs_iff {out : Str} : Outputs fmt args out ↔ textOf (pieces fmt) args = .ok out ∧ out.length < 2 ^ 31 := by
  constructor
  · intro hout
    cases htext : textOf (pieces fmt) args with
    | error e =>
      obtain ⟨buf', hrun, -⟩ := hout false (fun _ => nul) 0 _ (Nat.lt_succ_self _)
      exact absurd (hrun.symm.trans ((vsnprintf_eq (Nat.lt_succ_self _) _ _ _).2 e htext)) (by simp)
    | ok t =>
      have hlen : ∀ buf, ∃ buf', (out.length : ℤ) = toInt t.length ∧ Stored (t.length + 1) buf out buf' ∧
          Stored (t.length + 1) buf t buf' := by
        intro buf
        obtain ⟨buf', hrun, hstored⟩ := hout false buf (t.length + 1) _ (Nat.lt_succ_self _)
        obtain ⟨buf'', hrun', hstored'⟩ := (@vsnprintf_eq fmt args _ (Nat.lt_succ_self _) false buf (t.length + 1)).1 t htext
        have heq := Except.ok.inj (hrun.symm.trans hrun')
        rw [Prod.mk.injEq] at heq
        exact ⟨buf', heq.2, hstored, heq.1 ▸ hstored'⟩
      obtain ⟨_, heq, hstored, hstored'⟩ := hlen fun _ => nul
      have hdvd := @Int.dvd_bmod_sub_self t.length (2 ^ 32)
      have hbounds := @Int.bmod_lt t.length (2 ^ 32) (by decide)
      have hlt : t.length < 2 ^ 31 := by
        by_contra hlong
        -- a text whose length is no `int` is stored where `out` leaves the buffer as it is
        have hshort : out.length + 1 < t.length := by
          rw [toInt] at heq
          omega
        obtain ⟨c, hc⟩ : ∃ c, c ≠ t[out.length + 1] := by
          by_cases h : t[out.length + 1] = nul
          · exact ⟨'a', by rw [h]; decide⟩
          · exact ⟨nul, Ne.symm h⟩
        obtain ⟨buf', -, hstored, hstored'⟩ := hlen fun _ => c
        have hchanged := hstored'.text (out.length + 1) hshort (by omega)
        have hsame := hstored.unchanged (out.length + 1) fun _ => by omega
        exact hc (hsame.symm.trans hchanged)
      rw [toInt_of_lt hlt] at heq
      have hsame : t = out := by
        refine List.ext_getElem (by omega) fun i hi hi' => ?_
        rw [← hstored'.text i hi (by omega), ← hstored.text i hi' (by omega)]
      rw [← hsame]
      exact ⟨rfl, hlt⟩
  · rintro ⟨ht, hlt⟩ isNull buf size fuel hfuel
    obtain ⟨buf', hrun, hstored⟩ := (@vsnprintf_eq fmt args fuel hfuel isNull buf size).1 out ht
    rw [toInt_of_lt hlt] at hrun
    exact ⟨buf', hrun, hstored⟩

/-- Formatting ends, stays within the buffer and returns the length of a text that does not depend on it exactly when
no directive runs into the end of the format, binary conversions meet zero only, and the length is an `int`. -/
theorem vsnprintf_bounded (fmt : Str) (args : List Arg) (hargs : args.map Arg.kind = (pieces fmt).flatMap Piece.kinds) :
    Bounded fmt args ↔ (∀ p ∈ pieces fmt, p.Complete) ∧ BinaryZero (pieces fmt) args ∧
      ∀ t, textOf (pieces fmt) args = .ok t → t.length < 2 ^ 31 := by
  rw [← and_assoc, ← textOf_of_kinds hargs]
  simp only [Bounded, outputs_iff]
  constructor
  · rintro ⟨t, ht, hlt⟩
    exact ⟨⟨t, ht⟩, fun t' ht' => Except.ok.inj (ht.symm.trans ht') ▸ hlt⟩
  · rintro ⟨⟨t, ht⟩, hlt⟩
    exact ⟨t, ht, hlt t ht⟩

theorem vsnprintf_bounded_decimal : Bounded ['a', '%', 'd'] [.int 7] := by
  have htext : textOf (pieces ['a', '%', 'd']) [.int 7] = .ok ['a', '7'] := rfl
  have hkinds : [Arg.int 7].map Arg.kind = (pieces ['a', '%', 'd']).flatMap Piece.kinds := rfl
  obtain ⟨hcomplete, hzero⟩ := (textOf_of_kinds hkinds).mp ⟨_, htext⟩
  refine (vsnprintf_bounded ['a', '%', 'd'] [.int 7] hkinds).mpr ⟨hcomplete, hzero, fun t ht => ?_⟩
  rw [← Except.ok.inj (htext.symm.trans ht)]
  decide

/-- A format that ends in a percent sign. -/
theorem vsnprintf_percent : ([] : List Arg).map Arg.kind = (pieces ['a', '%']).flatMap Piece.kinds ∧ ¬Bounded ['a', '%'] [] := by
  refine ⟨by decide, ?_⟩
  rintro ⟨out, hout⟩
  obtain ⟨buf', hrun, -⟩ := hout false (fun _ => nul) 0 3 (by decide)
  exact absurd hrun (by simp [show vsnprintf 3 false (fun _ => nul) 0 ['a', '%'] [] = .error .outOfBounds from rfl])

end

end SomeOs.Printf

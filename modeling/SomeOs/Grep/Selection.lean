import SomeOs.Grep.GrepFile

/-! # The lines that a search selects

As long as every line that is read before the limit is shorter than the buffer and ends in a newline, the file is
searched line by line. Of every other file a line can be lost or cut, and some expression tells.
-/
namespace SomeOs.Grep
open SomeOs.Edit

def Whole (content : Text) : Prop :=
  content = [] ∨ content.getLast? = some newline ∧ ∀ l ∈ content.splitOn newline, l.length < 1023

/-- The lines that are read before the limit are short, and the last line of the file is one of them only if it is
terminated. -/
def Kept (args : Arguments) (regex : Regex) (content : Text) : Prop :=
  (∀ l ∈ reached args regex (linesOf content) 0, l.length < 1023) ∧
    (reached args regex (linesOf content) 0 = linesOf content → content = [] ∨ content.getLast? = some newline)

def Correct (args : Arguments) (regex : Regex) (path content : Text) : Prop :=
  ∀ fuel, content.length + 2 < fuel →
    grepFile args regex fuel path (some content) = some ⟨report args regex path (linesOf content), false⟩

variable {args : Arguments} {regex : Regex} {line rest : Text} {ls : List Text} {fuel : ℕ} {s s' : Scan}

theorem linesOf_join (hls : ∀ l ∈ ls, newline ∉ l) (hrest : newline ∉ rest) :
    linesOf (Lines.join newline ls ++ rest) = ls ++ if rest = [] then [] else [rest] := by
  simp only [linesOf, Lines.splitOn_join hls hrest]
  by_cases hnil : rest = [] <;> simp [hnil]

theorem join_injective {ps qs : List Text} (hps : ∀ p ∈ ps, newline ∉ p) (hqs : ∀ q ∈ qs, newline ∉ q)
    (h : Lines.join newline ps = Lines.join newline qs) : ps = qs := by
  have hsplit := congrArg (fun t => (t ++ []).splitOn newline) h
  simp only [Lines.splitOn_join hps List.not_mem_nil, Lines.splitOn_join hqs List.not_mem_nil] at hsplit
  exact List.append_cancel_right hsplit

theorem mem_parts {p : Text} (h : p ∈ parts regex line) : p ≠ [] ∧ p <:+: line := by
  fun_induction parts regex line with
  | case1 => cases h
  | case2 line so eo hfound hlt ih =>
    rcases List.mem_cons.mp h with rfl | h
    · have hvalid := regex.valid _ _ _ hfound
      refine ⟨fun hnil => ?_, (List.take_prefix _ _).isInfix.trans (List.drop_suffix _ _).isInfix⟩
      have hlen := congrArg List.length hnil
      simp only [List.length_take, List.length_drop, List.length_nil] at hlen
      omega
    · exact ⟨(ih h).1, (ih h).2.trans (List.drop_suffix _ _).isInfix⟩
  | case3 line so eo hfound hlt hbehind ih => exact ⟨(ih h).1, (ih h).2.trans (List.drop_suffix _ _).isInfix⟩
  | case4 => cases h

theorem mem_partsUpTo {p : Text} {count : ℕ} (h : p ∈ partsUpTo args regex ls count) :
    p ≠ [] ∧ ∃ l ∈ ls, p <:+: l := by
  induction ls generalizing count with
  | nil => cases h
  | cons l ls ih =>
    unfold partsUpTo at h
    split_ifs at h
    · rcases List.mem_append.mp h with h | h
      · exact ⟨(mem_parts h).1, l, List.mem_cons_self, (mem_parts h).2⟩
      · obtain ⟨hne, l', hl', hp⟩ := ih h
        exact ⟨hne, l', List.mem_cons_of_mem _ hl', hp⟩
    · cases h

theorem Searched.cases_start {t : Text} (h : Searched regex line t) :
    t = line ∨ ∃ so eo, regex.exec line = some (so, eo) ∧ so < eo ∧ Searched regex (line.drop eo) t := by
  induction h with
  | line => exact Or.inl rfl
  | behind _ hfound hlt ih =>
    rcases ih with rfl | ⟨so, eo, hstart, hlt', hs⟩
    · exact Or.inr ⟨_, _, hfound, hlt, .line⟩
    · exact Or.inr ⟨so, eo, hstart, hlt', hs.behind hfound hlt⟩

theorem nonemptyParts_of_none (h : regex.exec line = none) : NonemptyParts regex line := by
  intro t ht so eo hfound
  rcases ht.cases_start with rfl | ⟨so, eo, hstart, -⟩
  · rw [h] at hfound
    cases hfound
  · rw [h] at hstart
    cases hstart

theorem nonemptyParts_of_drop {so eo : ℕ} (h : regex.exec line = some (so, eo)) (hlt : so < eo)
    (hdrop : NonemptyParts regex (line.drop eo)) : NonemptyParts regex line := by
  intro t ht so' eo' hfound
  rcases ht.cases_start with rfl | ⟨so₁, eo₁, hstart, -, hs⟩
  · rw [h] at hfound
    cases hfound
    exact hlt
  · rw [h] at hstart
    cases hstart
    exact hdrop t hs so' eo' hfound

/-- What is printed of a line; an empty part is printed too. -/
theorem printMatches_pieces {found : ℕ × ℕ} (hline : newline ∉ line) (hfound : regex.exec line = some found)
    (h : printMatches regex fuel line found s = some s') :
    ∃ ps, (∀ p ∈ ps, newline ∉ p) ∧ s'.out = s.out ++ Lines.join newline ps ∧
      (¬NonemptyParts regex line → [] ∈ ps) := by
  induction fuel generalizing line found s with
  | zero => cases h
  | succ fuel ih =>
    obtain ⟨so, eo⟩ := found
    have hpiece : newline ∉ (line.drop so).take (eo - so) := fun hmem =>
      hline (List.mem_of_mem_drop (List.mem_of_mem_take hmem))
    have hempty : ¬so < eo → (line.drop so).take (eo - so) = [] := fun hle => by
      rw [Nat.sub_eq_zero_of_le (not_lt.mp hle), List.take_zero]
    rw [printMatches] at h
    cases hnext : regex.exec (line.drop eo) with
    | none =>
      rw [hnext] at h
      cases h
      refine ⟨[(line.drop so).take (eo - so)], by simpa using hpiece, by simp, fun hnot => ?_⟩
      by_cases hlt : so < eo
      · exact absurd (nonemptyParts_of_drop hfound hlt (nonemptyParts_of_none hnext)) hnot
      · simp [hempty hlt]
    | some next =>
      rw [hnext] at h
      obtain ⟨ps, hps, hout, hnil⟩ := ih (fun hmem => hline (List.mem_of_mem_drop hmem)) hnext h
      refine ⟨(line.drop so).take (eo - so) :: ps, List.forall_mem_cons.mpr ⟨hpiece, hps⟩, by simp [hout],
        fun hnot => ?_⟩
      by_cases hlt : so < eo
      · exact List.mem_cons_of_mem _ (hnil fun hdrop => hnot (nonemptyParts_of_drop hfound hlt hdrop))
      · simp [hempty hlt]

theorem grepLines_pieces (hkind : args.kind = .matchedParts) (hls : ∀ l ∈ ls, newline ∉ l) (hrest : newline ∉ rest)
    (h0 : (0 : UInt8) ∉ Lines.join newline ls ++ rest) (hfuel : (Lines.join newline ls ++ rest).length + 2 < fuel)
    (h : grepLines args regex fuel ⟨Lines.join newline ls ++ rest, false⟩ s = some s') :
    ∃ ps, (∀ p ∈ ps, newline ∉ p) ∧ s'.out = s.out ++ Lines.join newline ps ∧
      (¬Progressing args regex (ls.map lastPiece) s.count → [] ∈ ps) := by
  induction ls generalizing fuel s with
  | nil =>
    have hprog : Progressing args regex ([].map lastPiece) s.count := by
      intro _ before l after heq
      simp at heq
    rw [grepLines_eq hls hrest h0 hfuel s hprog] at h
    cases h
    exact ⟨[], by simp, by simp [scan], fun hnot => absurd hprog hnot⟩
  | cons l ls ih =>
    obtain ⟨hl, hls⟩ := List.forall_mem_cons.mp hls
    rw [Lines.join_cons, List.append_assoc, List.cons_append] at h0 hfuel h
    rw [List.mem_append, List.mem_cons, not_or, not_or] at h0
    rw [List.length_append, List.length_cons] at hfuel
    obtain ⟨fuel, rfl⟩ := Nat.exists_eq_add_one.mpr (Nat.zero_lt_of_lt hfuel)
    have hread := @readPieces_line l fuel none hl h0.1 (by omega) (Lines.join newline ls ++ rest)
    have hpiece : newline ∉ lastPiece l := fun hmem => hl ((lastPiece_suffix l).subset hmem)
    rw [List.map_cons]
    by_cases hlimit : s.count < args.limit
    · have hstep : (grepLine args regex fuel (lastPiece l) s).bind
          (grepLines args regex fuel ⟨Lines.join newline ls ++ rest, false⟩) = some s' := by
        simpa [grepLines, readLineFromFile, hread, hlimit] using h
      obtain ⟨s₁, hline, htail⟩ := Option.bind_eq_some_iff.mp hstep
      obtain ⟨ps, hps, hout, hnil⟩ := ih hls h0.2.2 (show _ < fuel by omega) htail
      by_cases hparts : NonemptyParts regex (lastPiece l)
      · have hshort : (lastPiece l).length < fuel := lt_of_le_of_lt (lastPiece_suffix l).length_le (by omega)
        rw [grepLine_eq hshort fun _ => hparts] at hline
        cases hline
        rw [searchLine_count] at hnil
        rw [searchLine, if_pos hkind] at hout
        refine ⟨parts regex (lastPiece l) ++ ps, List.forall_mem_append.mpr ⟨fun p hp hmem => ?_, hps⟩, ?_, fun hnot => ?_⟩
        · exact hpiece ((mem_parts hp).2.subset hmem)
        · simp [hout, Lines.join]
        · exact List.mem_append_right _ (hnil fun hprog => hnot (progressing_cons.mpr ⟨fun _ _ => hparts, hprog⟩))
      · cases hfound : regex.exec (lastPiece l) with
        | none => exact absurd (nonemptyParts_of_none hfound) hparts
        | some found =>
          simp only [grepLine, hfound, hkind] at hline
          obtain ⟨qs, hqs, hout', hnil'⟩ := printMatches_pieces hpiece hfound hline
          refine ⟨qs ++ ps, List.forall_mem_append.mpr ⟨hqs, hps⟩, ?_, fun _ => List.mem_append_left _ (hnil' hparts)⟩
          rw [hout, hout']
          simp [Lines.join]
    · have hstop : s' = s := by simpa [grepLines, hlimit] using h.symm
      subst hstop
      refine ⟨[], by simp, by simp, fun hnot => absurd (progressing_limit hlimit) hnot⟩

theorem reached_kept {more : List Text} {count : ℕ} (hmore : more.length ≤ 1)
    (hshort : ∀ l ∈ reached args regex (ls ++ more) count, l.length < 1023)
    (hend : reached args regex (ls ++ more) count = ls ++ more → more = []) :
    reached args regex (ls.map lastPiece) count = reached args regex (ls ++ more) count := by
  induction ls generalizing count with
  | nil =>
    cases more with
    | nil => rfl
    | cons r more =>
      obtain rfl : more = [] := List.length_eq_zero_iff.mp (by rw [List.length_cons] at hmore; omega)
      rw [List.nil_append, reached] at hend ⊢
      split_ifs at hend ⊢ with hlimit
      · cases hend rfl
      · rfl
  | cons l ls ih =>
    rw [List.map_cons, List.cons_append] at *
    rw [reached] at hshort hend ⊢
    rw [reached]
    split_ifs at hshort hend ⊢ with hlimit
    · obtain ⟨hl, hshort⟩ := List.forall_mem_cons.mp hshort
      rw [lastPiece_short hl, ih hshort fun heq => hend (by rw [heq])]
    · rfl

theorem Kept.reached_eq (h : Kept args regex (Lines.join newline ls ++ rest)) (hls : ∀ l ∈ ls, newline ∉ l)
    (hrest : newline ∉ rest) : reached args regex (ls.map lastPiece) 0 =
      reached args regex (linesOf (Lines.join newline ls ++ rest)) 0 := by
  obtain ⟨hshort, hend⟩ := h
  rw [Lines.getLast?_join_append hrest] at hend
  rw [linesOf_join hls hrest] at hshort hend ⊢
  refine reached_kept (by split_ifs <;> simp) hshort fun heq => if_pos ?_
  rcases hend heq with hnil | ⟨hnil, -⟩
  · exact (List.append_eq_nil_iff.mp hnil).2
  · exact hnil

/-- For a file whose lines are read as a whole up to the limit, only an empty part goes wrong. -/
theorem correct_iff (hls : ∀ l ∈ ls, newline ∉ l) (hrest : newline ∉ rest)
    (h0 : (0 : UInt8) ∉ Lines.join newline ls ++ rest) (h : Kept args regex (Lines.join newline ls ++ rest)) (path : Text) :
    Correct args regex path (Lines.join newline ls ++ rest) ↔
      Progressing args regex (linesOf (Lines.join newline ls ++ rest)) 0 := by
  have hreach := h.reached_eq hls hrest
  have hreport : report args regex path (linesOf (Lines.join newline ls ++ rest)) =
    report args regex path (ls.map lastPiece) := by
    rw [← report_reached, ← hreach, report_reached]
  rw [← progressing_reached (linesOf _), ← hreach, progressing_reached]
  constructor
  · intro hcorrect
    by_contra hprog
    have hkind : args.kind = .matchedParts := by
      by_contra hkind
      exact hprog fun h => absurd h hkind
    have hrun := hcorrect _ (Nat.lt_succ_self _)
    rw [hreport] at hrun
    obtain ⟨s', hscan, hprinted⟩ := Option.bind_eq_some_iff.mp hrun
    obtain ⟨ps, hps, hout, hnil⟩ := grepLines_pieces hkind hls hrest h0 (Nat.lt_succ_self _) hscan
    have htext : s'.out = Lines.join newline (partsUpTo args regex (ls.map lastPiece) 0) := by
      simpa [summary, report, hkind] using congrArg (Option.map Printed.out) hprinted
    have hparts : ∀ p ∈ partsUpTo args regex (ls.map lastPiece) 0, newline ∉ p := fun p hp hmem => by
      obtain ⟨-, piece, hpiece, hinfix⟩ := mem_partsUpTo hp
      obtain ⟨l, hl, rfl⟩ := List.mem_map.mp hpiece
      exact hls l hl ((lastPiece_suffix l).subset (List.IsInfix.subset hinfix hmem))
    have heq : ps = partsUpTo args regex (ls.map lastPiece) 0 := join_injective hps hparts (by rw [← htext, hout]; rfl)
    exact (mem_partsUpTo (heq ▸ hnil hprog)).1 rfl
  · intro hprog fuel hfuel
    rw [grepFile_eq hls hrest h0 hfuel hprog path, hreport]

/-- An expression that selects one line only. -/
def only (kind : OutputKind) (line : Text) : Regex where
  exec s :=
    match kind with
    | .linesInv | .countInv | .filesWithout => if s = line then none else some (0, 0)
    | .lines | .count | .filesWith | .matchedParts => if s = line then some (0, s.length) else none
  valid s so eo h := by
    cases kind <;> simp only at h <;> split_ifs at h <;> cases h <;> simp

/-- The options that print as many as `limit` lines, without their numbers. -/
def plain (kind : OutputKind) (limit : ℕ) : Arguments := ⟨kind, false, limit, []⟩

/-- What is printed of `n` selected lines that are all the same. -/
def repeated (kind : OutputKind) (line : Text) (n : ℕ) : Text :=
  match kind with
  | .lines | .linesInv | .matchedParts => Lines.join newline (List.replicate n line)
  | .count | .countInv => decimal n ++ [newline]
  | .filesWith | .filesWithout => if n = 0 then [] else [newline]

variable {kind : OutputKind} {limit : ℕ} {lines : List Text}

theorem only_selects (s : Text) : kind.selects ((only kind line).exec s) = decide (s = line) := by
  cases kind <;> by_cases h : s = line <;> simp [OutputKind.selects, only, h]

theorem only_parts (hkind : kind = .matchedParts) (hne : line ≠ []) (s : Text) :
    parts (only kind line) s = if s = line then [line] else [] := by
  subst hkind
  have hpos := List.length_pos_iff.mpr hne
  by_cases h : s = line
  · subst h
    have hfound : (only .matchedParts s).exec s = some (0, s.length) := by simp [only]
    have hend : (only .matchedParts s).exec (s.drop s.length) = none := by simp [only, hne.symm]
    rw [parts_some hfound hpos, parts_none hend]
    simp
  · rw [parts_none (by simp [only, h]), if_neg h]

theorem only_progressing (hne : line ≠ []) (lines : List Text) (count : ℕ) :
    Progressing (plain kind limit) (only kind line) lines count := by
  intro hkind before l after _ _ s _ so eo hfound
  obtain rfl : kind = .matchedParts := hkind
  simp only [only] at hfound
  split_ifs at hfound with h
  cases hfound
  rw [h]
  exact List.length_pos_iff.mpr hne

theorem selected_only (hlimit : lines.length ≤ limit) :
    (selected (plain kind limit) (only kind line) lines 1).map Prod.fst = List.replicate (lines.count line) line := by
  have hlen : ((lines.zipIdx 1).filter fun l => kind.selects ((only kind line).exec l.1)).length ≤ limit :=
    (List.length_filter_le _ _).trans (by rwa [List.length_zipIdx])
  have hfst := @List.filter_map _ _ (Prod.fst : Text × ℕ → Text) (fun s => decide (s = line)) (lines.zipIdx 1)
  rw [List.zipIdx_map_fst, List.filter_eq] at hfst
  refine (congrArg (List.map Prod.fst) (List.take_of_length_le hlen)).trans ?_
  rw [hfst]
  simp only [only_selects]
  rfl

theorem partsUpTo_only (hkind : kind = .matchedParts) (hne : line ≠ []) {count : ℕ} (hlimit : count + lines.length ≤ limit) :
    partsUpTo (plain kind limit) (only kind line) lines count = List.replicate (lines.count line) line := by
  induction lines generalizing count with
  | nil => rfl
  | cons l ls ih =>
    rw [List.length_cons] at hlimit
    rw [partsUpTo, only_parts hkind hne, if_pos (show count < (plain kind limit).limit from by simp only [plain]; omega)]
    by_cases h : l = line
    · rw [if_pos h, ih (by simp only [List.length_singleton]; omega), h, List.count_cons_self]
      rfl
    · rw [if_neg h, ih (by simp only [List.length_nil]; omega), List.count_cons_of_ne h]
      rfl

theorem report_only (hne : line ≠ []) (hlimit : lines.length ≤ limit) :
    report (plain kind limit) (only kind line) [] lines = repeated kind line (lines.count line) := by
  have hsel := @selected_only line kind limit lines hlimit
  have hlen := congrArg List.length hsel
  rw [List.length_map, List.length_replicate] at hlen
  have hnil : selected (plain kind limit) (only kind line) lines 1 = [] ↔ lines.count line = 0 := by
    rw [← hlen, List.length_eq_zero_iff]
  have htext : (selected (plain kind limit) (only kind line) lines 1).flatMap
      (fun l => printLine (plain kind limit) l.2 l.1) = Lines.join newline (List.replicate (lines.count line) line) := by
    rw [← hsel, Lines.join, List.flatMap_map]
    rfl
  cases hk : kind with
  | lines | linesInv =>
    subst hk
    exact htext
  | count | countInv =>
    subst hk
    simp [report, repeated, plain, ← hlen]
  | filesWith | filesWithout =>
    subst hk
    exact if_congr hnil rfl rfl
  | matchedParts =>
    subst hk
    exact congrArg (Lines.join newline) (partsUpTo_only rfl hne ((Nat.zero_add _).trans_le hlimit))

theorem decimal_injective {m n : ℕ} (h : decimal m = decimal n) : m = n := by
  have hback : ∀ k, (decimal k).map (fun c => Char.ofNat c.toNat) = Nat.toDigits 10 k := by
    intro k
    rw [decimal, List.map_map]
    refine (List.map_congr_left fun c hc => ?_).trans (List.map_id _)
    have hdigit := Char.isDigit_iff_toNat.mp (Nat.isDigit_of_mem_toDigits (by decide) (by decide) hc)
    have hnine : '9'.toNat = 57 := rfl
    rw [Function.comp_apply, UInt8.toNat_ofNat_of_lt' (by rw [UInt8.size]; omega), Char.ofNat_toNat]
    rfl
  have hdigits : Nat.toDigits 10 m = Nat.toDigits 10 n := by rw [← hback, ← hback, h]
  rw [← @Nat.ofDigitChars_toDigits 10 m (by decide) (by decide), hdigits, Nat.ofDigitChars_toDigits (by decide) (by decide)]

theorem repeated_injective (hkind : kind ≠ .filesWith) (hkind' : kind ≠ .filesWithout) {m n : ℕ}
    (h : repeated kind line m = repeated kind line n) : m = n := by
  have hjoin : Lines.join newline (List.replicate m line) = Lines.join newline (List.replicate n line) → m = n := by
    intro heq
    have hlen := congrArg List.length heq
    simpa [Lines.join] using hlen
  cases hk : kind with
  | lines | linesInv | matchedParts =>
    subst hk
    exact hjoin h
  | count | countInv =>
    subst hk
    exact decimal_injective (List.append_cancel_right h)
  | filesWith => exact absurd hk hkind
  | filesWithout => exact absurd hk hkind'

theorem length_lastPiece_lt (l : Text) : (lastPiece l).length < 1023 := by
  rw [lastPiece, List.length_drop]
  omega

theorem exists_lost (hls : ∀ l ∈ ls, newline ∉ l) (hrest : newline ∉ rest)
    (h : ¬(rest = [] ∧ ∀ l ∈ ls, l.length < 1023)) :
    ∃ line, line ≠ [] ∧ (ls.map lastPiece).count line ≠ (linesOf (Lines.join newline ls ++ rest)).count line := by
  rw [linesOf_join hls hrest]
  by_cases hshort : ∀ l ∈ ls, l.length < 1023
  · have hne : rest ≠ [] := fun hnil => h ⟨hnil, hshort⟩
    have hkept : ls.map lastPiece = ls :=
      (List.map_congr_left fun l hl => lastPiece_short (hshort l hl)).trans (List.map_id' ls)
    refine ⟨rest, hne, ?_⟩
    rw [hkept, if_neg hne, List.count_append, List.count_singleton_self]
    exact (Nat.lt_succ_self _).ne
  · push Not at hshort
    obtain ⟨l, hl, hlong⟩ := hshort
    refine ⟨l, List.ne_nil_of_length_pos (by omega), ?_⟩
    have hzero : (ls.map lastPiece).count l = 0 := List.count_eq_zero.mpr fun hmem => by
      obtain ⟨l', -, rfl⟩ := List.mem_map.mp hmem
      exact absurd (length_lastPiece_lt l') (not_lt.mpr hlong)
    rw [hzero, List.count_append]
    have hpos := List.count_pos_iff.mpr hl
    omega

/-- As long as the lines read before the limit are kept, a search prints what it is to print exactly when with only
the matched parts to print none of them is empty. Of every file with a line that is cut or lost some search of each
kind goes wrong. -/
theorem grepFile_selects (content : Text) (h0 : (0 : UInt8) ∉ content) :
    (∀ args regex path, Kept args regex content →
      (Correct args regex path content ↔ Progressing args regex (linesOf content) 0)) ∧
    (¬Whole content → ∀ kind, kind ≠ .filesWith → kind ≠ .filesWithout → ∃ args regex path,
      args.kind = kind ∧ Progressing args regex (linesOf content) 0 ∧ ¬Correct args regex path content) := by
  obtain ⟨ls, rest, rfl, hls, hrest⟩ := Lines.exists_join newline content
  refine ⟨fun args regex path hkept => correct_iff hls hrest h0 hkept path, fun hnot kind hkind hkind' => ?_⟩
  obtain ⟨line, hne, hcount⟩ := exists_lost hls hrest fun h => hnot ((short_lines_iff hls hrest).mpr h)
  let limit := (linesOf (Lines.join newline ls ++ rest)).length
  refine ⟨plain kind limit, only kind line, [], rfl, only_progressing hne _ _, fun hcorrect => ?_⟩
  have hlen : (ls.map lastPiece).length ≤ limit := by
    simp only [limit, linesOf_join hls hrest, List.length_append, List.length_map]
    omega
  have hrun := hcorrect _ (Nat.lt_succ_self _)
  rw [grepFile_eq hls hrest h0 (Nat.lt_succ_self _) (only_progressing hne _ _), report_only hne hlen,
    report_only hne le_rfl] at hrun
  exact hcount (repeated_injective hkind hkind' (congrArg Printed.out (Option.some.inj hrun)))

/-- With a limit of one the last line, which is not terminated, is not read. -/
theorem grepFile_selects_line :
    (Correct (plain .lines 1) (only .lines [97]) [] [97, 10, 98] ↔
      Progressing (plain .lines 1) (only .lines [97]) (linesOf [97, 10, 98]) 0) ∧
    ∃ args regex path, args.kind = .lines ∧ Progressing args regex (linesOf [97, 10, 98]) 0 ∧
      ¬Correct args regex path [97, 10, 98] := by
  have hkept : Kept (plain .lines 1) (only .lines [97]) [97, 10, 98] := by
    unfold Kept
    decide
  obtain ⟨hiff, hlost⟩ := grepFile_selects [97, 10, 98] (by decide)
  exact ⟨hiff _ _ _ hkept, hlost (by unfold Whole; decide) .lines (by decide) (by decide)⟩

/-- A line that is not terminated is not searched. -/
theorem unterminated_not_found : ¬Correct (plain .lines 1) (only .lines [97]) [] [97] :=
  fun h => absurd (h 4 (by decide)) (by decide)

end SomeOs.Grep

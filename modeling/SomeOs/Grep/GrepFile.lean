import SomeOs.Edit.TextFile

/-! # Searching a file

The lines are read as in the editor: the piece of a line that was read last is what is searched.
-/
namespace SomeOs.Grep
open SomeOs.Edit

/-- A compiled expression, as `regexec` with one match and no flags. -/
structure Regex where
  exec : Text → Option (ℕ × ℕ)
  valid : ∀ s so eo, exec s = some (so, eo) → so ≤ eo ∧ eo ≤ s.length

inductive OutputKind where
  | lines
  | linesInv
  | count
  | countInv
  | filesWith
  | filesWithout
  | matchedParts
deriving DecidableEq

structure Arguments where
  kind : OutputKind
  line_number : Bool
  limit : ℕ
  files : List Text

/-- `%lu` -/
def decimal (n : ℕ) : Text := (Nat.toDigits 10 n).map fun c => UInt8.ofNat c.toNat

structure Scan where
  count : ℕ
  line_num : ℕ
  out : Text

/-- What is written, and `args->error`. -/
structure Printed where
  out : Text
  error : Bool
deriving DecidableEq

def printLine (args : Arguments) (line_num : ℕ) (line : Text) : Text :=
  (if args.line_number then decimal line_num ++ [58] else []) ++ line ++ [newline]

variable (args : Arguments) (regex : Regex)

/-- The loop over the matches of a line, from the match `(so, eo)` at `offset` on. -/
def printMatches : ℕ → Text → ℕ × ℕ → Scan → Option Scan
  | 0, _, _, _ => none
  | fuel + 1, offset, (so, eo), s =>
    let s := { s with
      count := s.count + 1
      out := s.out ++ ((offset.drop so).take (eo - so) ++ [newline]) }
    match regex.exec (offset.drop eo) with
    | none => some s
    | some found => printMatches fuel (offset.drop eo) found s

def grepLine (fuel : ℕ) (line : Text) (s : Scan) : Option Scan :=
  let s := { s with line_num := s.line_num + 1 }
  match regex.exec line with
  | some found =>
    match args.kind with
    | .lines => some { s with out := s.out ++ printLine args s.line_num line, count := s.count + 1 }
    | .count | .filesWith => some { s with count := s.count + 1 }
    | .matchedParts => printMatches regex fuel line found s
    | .linesInv | .countInv | .filesWithout => some s
  | none =>
    match args.kind with
    | .linesInv => some { s with out := s.out ++ printLine args s.line_num line, count := s.count + 1 }
    | .countInv | .filesWithout => some { s with count := s.count + 1 }
    | .lines | .filesWith | .count | .matchedParts => some s

/-- The loop over the lines. -/
def grepLines : ℕ → File → Scan → Option Scan
  | 0, _, _ => none
  | fuel + 1, file, s =>
    if !file.feof ∧ s.count < args.limit then do
      let (line, file) ← readLineFromFile fuel file
      let s ← match line with
        | some line => grepLine args regex fuel line s
        | none => some s
      grepLines fuel file s
    else some s

def summary (path : Text) (count : ℕ) : Text :=
  match args.kind with
  | .count | .countInv =>
    if args.files.length > 1 then path ++ [58] ++ decimal count ++ [newline] else decimal count ++ [newline]
  | .filesWith | .filesWithout => if count > 0 then path ++ [newline] else []
  | .lines | .linesInv | .matchedParts => []

/-- `grepFile` of a path that has the contents `content` or cannot be opened. -/
def grepFile (fuel : ℕ) (path : Text) (content : Option Text) : Option Printed :=
  match content with
  | none => some ⟨[], true⟩
  | some content => do
    let s ← grepLines args regex fuel ⟨content, false⟩ ⟨0, 0, []⟩
    pure ⟨s.out ++ summary args path s.count, false⟩

end SomeOs.Grep

/-! # What a search is to print

The lines of a file are selected by the expression, up to the limit. With only the matched parts to print, a line is
searched again behind each part.
-/
namespace SomeOs.Grep
open SomeOs.Edit
variable (args : Arguments) (regex : Regex)

def OutputKind.selects (kind : OutputKind) (found : Option (ℕ × ℕ)) : Bool :=
  match kind with
  | .linesInv | .countInv | .filesWithout => found.isNone
  | .lines | .count | .filesWith | .matchedParts => found.isSome

def linesOf (content : Text) : List Text :=
  let ls := content.splitOn newline
  if ls.getLast? = some [] then ls.dropLast else ls

/-- The successive parts of a line that match and are not empty. -/
def parts (line : Text) : List Text :=
  match h : regex.exec line with
  | none => []
  | some (so, eo) =>
    if so < eo then (line.drop so).take (eo - so) :: parts (line.drop eo)
    else if eo < line.length then parts (line.drop (eo + 1))
    else []
termination_by line.length
decreasing_by
  · have hvalid := regex.valid _ _ _ h
    rw [List.length_drop]
    omega
  · rw [List.length_drop]
    omega

def partsUpTo : List Text → ℕ → List Text
  | [], _ => []
  | line :: ls, count =>
    if count < args.limit then parts regex line ++ partsUpTo ls (count + (parts regex line).length) else []

/-- The selected lines with their numbers, the first of which is `first`. -/
def selected (lines : List Text) (first : ℕ) : List (Text × ℕ) :=
  ((lines.zipIdx first).filter fun line => args.kind.selects (regex.exec line.1)).take args.limit

def report (path : Text) (lines : List Text) : Text :=
  match args.kind with
  | .lines | .linesInv => (selected args regex lines 1).flatMap fun line => printLine args line.2 line.1
  | .count | .countInv =>
    (if args.files.length > 1 then path ++ [58] else []) ++ decimal (selected args regex lines 1).length ++ [newline]
  | .filesWith | .filesWithout => if selected args regex lines 1 = [] then [] else path ++ [newline]
  | .matchedParts => Lines.join newline (partsUpTo args regex lines 0)

/-- What is searched for the parts of a line. -/
inductive Searched (line : Text) : Text → Prop where
  | line : Searched line line
  | behind {s : Text} {so eo : ℕ} : Searched line s → regex.exec s = some (so, eo) → so < eo → Searched line (s.drop eo)

def NonemptyParts (line : Text) : Prop :=
  ∀ s, Searched regex line s → ∀ so eo, regex.exec s = some (so, eo) → so < eo

/-- What a line adds to the count. -/
def found (line : Text) : ℕ :=
  if args.kind = .matchedParts then (parts regex line).length else if args.kind.selects (regex.exec line) then 1 else 0

/-- The lines that are read before the limit is reached, with `count` found before them. -/
def reached : List Text → ℕ → List Text
  | [], _ => []
  | line :: ls, count => if count < args.limit then line :: reached ls (count + found args regex line) else []

/-- So in the lines before the limit is reached, when `count` parts were found before. -/
def Progressing (lines : List Text) (count : ℕ) : Prop :=
  args.kind = .matchedParts → ∀ before line after, lines = before ++ line :: after →
    count + (before.flatMap (parts regex)).length < args.limit → NonemptyParts regex line

def lineText (line : Text × ℕ) : Text :=
  match args.kind with
  | .lines | .linesInv => printLine args line.2 line.1
  | .count | .countInv | .filesWith | .filesWithout | .matchedParts => []

/-- A line that is searched to its end. -/
def searchLine (line : Text) (s : Scan) : Scan :=
  if args.kind = .matchedParts then
    { count := s.count + (parts regex line).length
      line_num := s.line_num + 1
      out := s.out ++ Lines.join newline (parts regex line) }
  else if args.kind.selects (regex.exec line) then
    { count := s.count + 1
      line_num := s.line_num + 1
      out := s.out ++ lineText args (line, s.line_num + 1) }
  else { s with line_num := s.line_num + 1 }

def scan : List Text → Scan → Scan
  | [], s => s
  | line :: ls, s => if s.count < args.limit then scan ls (searchLine args regex line s) else s

variable {args regex} {line s : Text} {fuel : ℕ}

theorem parts_none (h : regex.exec line = none) : parts regex line = [] := by
  rw [parts]
  split
  · rfl
  · simp_all

theorem parts_some {so eo : ℕ} (h : regex.exec line = some (so, eo)) (hlt : so < eo) :
    parts regex line = (line.drop so).take (eo - so) :: parts regex (line.drop eo) := by
  rw [parts]
  split
  · simp_all
  · simp_all

theorem NonemptyParts.drop {so eo : ℕ} (h : NonemptyParts regex line) (hfound : regex.exec line = some (so, eo)) :
    NonemptyParts regex (line.drop eo) := by
  have hlt := h line .line so eo hfound
  have hsearched : ∀ s, Searched regex (line.drop eo) s → Searched regex line s := by
    intro s hs
    induction hs with
    | line => exact .behind .line hfound hlt
    | behind _ hs hlt ih => exact .behind ih hs hlt
  exact fun s hs => h s (hsearched s hs)

theorem printMatches_eq {found : ℕ × ℕ} (hfound : regex.exec line = some found) (hparts : NonemptyParts regex line)
    (hfuel : line.length < fuel) (s : Scan) :
    printMatches regex fuel line found s = some { s with
      count := s.count + (parts regex line).length
      out := s.out ++ Lines.join newline (parts regex line) } := by
  induction fuel generalizing line found s with
  | zero => exact absurd hfuel (Nat.not_lt_zero _)
  | succ fuel ih =>
    obtain ⟨so, eo⟩ := found
    have hlt := hparts line .line so eo hfound
    have hvalid := regex.valid _ _ _ hfound
    have hshort : (line.drop eo).length < fuel := by
      rw [List.length_drop]
      omega
    rw [printMatches, parts_some hfound hlt]
    cases hnext : regex.exec (line.drop eo) with
    | none => simp [parts_none hnext]
    | some next =>
      simp only [ih hnext (hparts.drop hfound) hshort]
      simp [Nat.add_assoc, Nat.add_comm 1]

theorem grepLine_eq (hfuel : line.length < fuel) (hparts : args.kind = .matchedParts → NonemptyParts regex line)
    (s : Scan) : grepLine args regex fuel line s = some (searchLine args regex line s) := by
  unfold grepLine searchLine
  cases hfound : regex.exec line with
  | none => cases hkind : args.kind <;> simp [OutputKind.selects, lineText, hkind, parts_none hfound]
  | some found =>
    cases hkind : args.kind <;> simp [OutputKind.selects, lineText, hkind]
    exact printMatches_eq hfound (hparts hkind) hfuel _

theorem searchLine_count (line : Text) (s : Scan) : (searchLine args regex line s).count = s.count + found args regex line := by
  unfold searchLine found
  split_ifs <;> rfl

theorem progressing_cons {ls : List Text} {count : ℕ} : Progressing args regex (line :: ls) count ↔
    (args.kind = .matchedParts → count < args.limit → NonemptyParts regex line) ∧
      Progressing args regex ls (count + found args regex line) := by
  constructor
  · intro h
    refine ⟨fun hkind hcount => h hkind [] line ls rfl hcount, fun hkind before l after heq hcount => ?_⟩
    subst heq
    refine h hkind (line :: before) l after rfl ?_
    simpa [found, hkind, Nat.add_assoc] using hcount
  · rintro ⟨hline, h⟩ hkind before l after heq hcount
    cases before with
    | nil =>
      obtain ⟨rfl, rfl⟩ := List.cons.inj heq
      exact hline hkind hcount
    | cons b before =>
      obtain ⟨rfl, rfl⟩ := List.cons.inj heq
      refine h hkind before l after rfl ?_
      simpa [found, hkind, Nat.add_assoc] using hcount

theorem progressing_limit {lines : List Text} {count : ℕ} (h : ¬count < args.limit) : Progressing args regex lines count :=
  fun _ _ _ _ _ hcount => absurd (Nat.lt_of_le_of_lt (Nat.le_add_right _ _) hcount) h

theorem progressing_reached (lines : List Text) (count : ℕ) :
    Progressing args regex (reached args regex lines count) count ↔ Progressing args regex lines count := by
  induction lines generalizing count with
  | nil => rfl
  | cons line ls ih =>
    unfold reached
    split_ifs with hlimit
    · rw [progressing_cons, progressing_cons, ih]
    · exact iff_of_true (progressing_limit hlimit) (progressing_limit hlimit)

theorem scan_reached (lines : List Text) (s : Scan) :
    scan args regex (reached args regex lines s.count) s = scan args regex lines s := by
  induction lines generalizing s with
  | nil => rfl
  | cons line ls ih =>
    unfold reached
    split_ifs with hlimit
    · rw [scan, scan, if_pos hlimit, if_pos hlimit, ← ih, searchLine_count]
    · rw [scan, scan, if_neg hlimit]

/-- The lines up to the last newline are searched, as far as they are kept. -/
theorem grepLines_eq {ls : List Text} {rest : Text} (hls : ∀ l ∈ ls, newline ∉ l) (hrest : newline ∉ rest)
    (h0 : (0 : UInt8) ∉ Lines.join newline ls ++ rest) (hfuel : (Lines.join newline ls ++ rest).length + 2 < fuel)
    (s : Scan) (hprog : Progressing args regex (ls.map lastPiece) s.count) :
    grepLines args regex fuel ⟨Lines.join newline ls ++ rest, false⟩ s = some (scan args regex (ls.map lastPiece) s) := by
  induction ls generalizing fuel s with
  | nil =>
    obtain ⟨fuel, rfl⟩ := Nat.exists_eq_add_one.mpr (Nat.zero_lt_of_lt hfuel)
    obtain ⟨fuel, rfl⟩ := Nat.exists_eq_add_one.mpr (show 0 < fuel by omega)
    obtain ⟨buffer, hread⟩ := @readPieces_end rest (fuel + 1) none hrest h0 (by simpa using hfuel)
    by_cases hlimit : s.count < args.limit <;> simp [grepLines, readLineFromFile, hread, scan, hlimit]
  | cons l ls ih =>
    obtain ⟨hl, hls⟩ := List.forall_mem_cons.mp hls
    rw [Lines.join_cons, List.append_assoc, List.cons_append] at h0 hfuel ⊢
    rw [List.mem_append, List.mem_cons, not_or, not_or] at h0
    rw [List.length_append, List.length_cons] at hfuel
    obtain ⟨fuel, rfl⟩ := Nat.exists_eq_add_one.mpr (Nat.zero_lt_of_lt hfuel)
    have hread := @readPieces_line l fuel none hl h0.1 (by omega) (Lines.join newline ls ++ rest)
    rw [List.map_cons] at hprog ⊢
    by_cases hlimit : s.count < args.limit
    · have hshort : (lastPiece l).length < fuel := lt_of_le_of_lt (lastPiece_suffix l).length_le (by omega)
      have hline := grepLine_eq hshort (fun hkind => (progressing_cons.mp hprog).1 hkind hlimit) s
      have htail := ih hls h0.2.2 (show _ < fuel by omega) (searchLine args regex (lastPiece l) s)
        (by
          rw [searchLine_count]
          exact (progressing_cons.mp hprog).2)
      simpa [grepLines, readLineFromFile, hread, scan, hlimit, hline] using htail
    · simp [grepLines, scan, hlimit]

theorem scan_selected (hkind : args.kind ≠ .matchedParts) (lines : List Text) (s : Scan) :
    let found := ((lines.zipIdx (s.line_num + 1)).filter fun line => args.kind.selects (regex.exec line.1)).take
      (args.limit - s.count)
    (scan args regex lines s).count = s.count + found.length ∧
      (scan args regex lines s).out = s.out ++ found.flatMap (lineText args) := by
  induction lines generalizing s with
  | nil => simp [scan]
  | cons line ls ih =>
    by_cases hlimit : s.count < args.limit
    · obtain ⟨hcount, hout⟩ := ih (searchLine args regex line s)
      rw [scan, if_pos hlimit, hcount, hout]
      by_cases hsel : args.kind.selects (regex.exec line) = true
      · obtain ⟨n, hn⟩ := Nat.exists_eq_add_one.mpr (Nat.sub_pos_of_lt hlimit)
        have hn' : args.limit - (s.count + 1) = n := by omega
        simp [searchLine, hkind, hsel, hn, hn', List.zipIdx_cons, Nat.add_assoc, Nat.add_comm 1]
      · simp [searchLine, hkind, hsel, List.zipIdx_cons]
    · simp [scan, hlimit, Nat.sub_eq_zero_of_le (not_lt.mp hlimit)]

theorem scan_parts (hkind : args.kind = .matchedParts) (lines : List Text) (s : Scan) :
    (scan args regex lines s).out = s.out ++ Lines.join newline (partsUpTo args regex lines s.count) := by
  induction lines generalizing s with
  | nil => simp [scan, partsUpTo]
  | cons line ls ih =>
    by_cases hlimit : s.count < args.limit
    · rw [scan, if_pos hlimit, ih, partsUpTo, if_pos hlimit]
      simp [searchLine, hkind, Lines.join]
    · simp [scan, partsUpTo, hlimit]

theorem report_eq (hkind : args.kind ≠ .matchedParts) (path : Text) (lines : List Text) :
    report args regex path lines = (selected args regex lines 1).flatMap (lineText args) ++
      summary args path (selected args regex lines 1).length := by
  unfold report summary
  generalize selected args regex lines 1 = found
  cases hk : args.kind with
  | lines | linesInv =>
    have htext : lineText args = fun line => printLine args line.2 line.1 := by
      funext line
      simp [lineText, hk]
    simp [htext]
  | count | countInv =>
    have htext : lineText args = fun _ => [] := by
      funext line
      simp [lineText, hk]
    by_cases hfiles : args.files.length > 1 <;> simp [htext, hfiles]
  | filesWith | filesWithout =>
    have htext : lineText args = fun _ => [] := by
      funext line
      simp [lineText, hk]
    by_cases hnil : found = [] <;> simp [htext, hnil, List.length_pos_iff]
  | matchedParts => exact absurd hk hkind

theorem report_scan (path : Text) (lines : List Text) : report args regex path lines =
    (scan args regex lines ⟨0, 0, []⟩).out ++ summary args path (scan args regex lines ⟨0, 0, []⟩).count := by
  by_cases hkind : args.kind = .matchedParts
  · rw [scan_parts hkind]
    simp [report, summary, hkind]
  · obtain ⟨hcount, hout⟩ := @scan_selected args regex hkind lines ⟨0, 0, []⟩
    simp only [Nat.zero_add, Nat.sub_zero, List.nil_append] at hcount hout
    rw [hcount, hout, report_eq hkind]
    rfl

/-- The lines behind the limit do not matter. -/
theorem report_reached (path : Text) (lines : List Text) :
    report args regex path (reached args regex lines 0) = report args regex path lines := by
  have hscan := @scan_reached args regex lines ⟨0, 0, []⟩
  rw [report_scan, report_scan, hscan]

/-- A search that always gets on prints the report of the lines up to the last newline, as far as they are kept. -/
theorem grepFile_eq {ls : List Text} {rest : Text} (hls : ∀ l ∈ ls, newline ∉ l) (hrest : newline ∉ rest)
    (h0 : (0 : UInt8) ∉ Lines.join newline ls ++ rest) (hfuel : (Lines.join newline ls ++ rest).length + 2 < fuel)
    (hprog : Progressing args regex (ls.map lastPiece) 0) (path : Text) :
    grepFile args regex fuel path (some (Lines.join newline ls ++ rest)) =
      some ⟨report args regex path (ls.map lastPiece), false⟩ := by
  simp only [grepFile, grepLines_eq hls hrest h0 hfuel ⟨0, 0, []⟩ hprog, report_scan]
  rfl

end SomeOs.Grep

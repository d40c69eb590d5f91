import SomeOs.Base.Lines

/-! # Loading and saving a text file

The editor keeps the lines of a file without their newlines. A line is read in pieces of at most
1023 characters, each of them to the start of the buffer.
-/
namespace SomeOs.Edit

abbrev Text := List UInt8

def newline : UInt8 := 10

structure File where
  rest : Text
  feof : Bool

/-- The characters `fgets` takes when there is room for `n` of them, and the stream behind. -/
def getPiece : ℕ → Text → Text × File
  | 0, rest => ([], ⟨rest, false⟩)
  | _ + 1, [] => ([], ⟨[], true⟩)
  | n + 1, c :: rest => if c = newline then ([c], ⟨rest, false⟩) else (c :: (getPiece n rest).1, (getPiece n rest).2)

def fgets (size : ℕ) (file : File) : Option Text × File :=
  let (piece, file) := getPiece (size - 1) file.rest
  (if piece = [] then none else some piece, file)

def cString (buffer : Text) : Text := buffer.takeWhile (· ≠ 0)

/-- The loop of `readLineFromFile`, with `length` and the string in `buffer`. -/
def readPieces : ℕ → ℕ → Option Text → File → Option (Option Text × File)
  | 0, _, _, _ => none
  | fuel + 1, length, buffer, file =>
    if file.feof then some (buffer, file)
    else
      let (piece, file) := fgets 1024 file
      let buffer := match piece with
        | some piece => (buffer.getD []).take length ++ cString piece
        | none => []
      if buffer ≠ [] ∧ buffer.getLast? = some newline then some (some buffer.dropLast, file)
      -- nothing adds to `length`
      else readPieces fuel length (some buffer) file

def readLineFromFile (fuel : ℕ) (file : File) : Option (Option Text × File) := do
  let length := 0
  let (buffer, file) ← readPieces fuel length none file
  pure (if file.feof ∧ length = 0 then none else buffer, file)

/-- The loop of `loadFile`. -/
def loadLines : ℕ → File → List Text → Option (List Text)
  | 0, _, _ => none
  | fuel + 1, file, lines =>
    if file.feof then some lines
    else do
      let (line, file) ← readLineFromFile fuel file
      loadLines fuel file (lines ++ line.toList)

def loadFile (fuel : ℕ) (content : Text) : Option (List Text) := do
  let lines ← loadLines fuel ⟨content, false⟩ []
  pure (if lines.length = 0 then [[]] else lines)

def writeFile (lines : List Text) : Text := lines.flatMap (· ++ [newline])

def resave (fuel : ℕ) (content : Text) : Option Text := (loadFile fuel content).map writeFile

def endLine (content : Text) : Text :=
  if content.getLast? = some newline then content else content ++ [newline]

def lastPiece (l : Text) : Text := l.drop (1023 * (l.length / 1023))

section
variable {l r content : Text} {fuel n : ℕ} {buffer : Option Text}

theorem getPiece_short (hl : newline ∉ l) (hlen : l.length < n) (r : Text) :
    getPiece n (l ++ newline :: r) = (l ++ [newline], ⟨r, false⟩) := by
  induction l generalizing n with
  | nil =>
    obtain ⟨n, rfl⟩ := Nat.exists_eq_add_one.mpr hlen
    simp [getPiece]
  | cons c l ih =>
    obtain ⟨n, rfl⟩ := Nat.exists_eq_add_one.mpr (Nat.zero_lt_of_lt hlen)
    rw [List.mem_cons, not_or] at hl
    simp [getPiece, Ne.symm hl.1, ih hl.2 (Nat.lt_of_succ_lt_succ hlen)]

theorem getPiece_end (hl : newline ∉ l) (hlen : l.length < n) : getPiece n l = (l, ⟨[], true⟩) := by
  induction l generalizing n with
  | nil =>
    obtain ⟨n, rfl⟩ := Nat.exists_eq_add_one.mpr hlen
    rfl
  | cons c l ih =>
    obtain ⟨n, rfl⟩ := Nat.exists_eq_add_one.mpr (Nat.zero_lt_of_lt hlen)
    rw [List.mem_cons, not_or] at hl
    simp [getPiece, Ne.symm hl.1, ih hl.2 (Nat.lt_of_succ_lt_succ hlen)]

theorem getPiece_full (hl : newline ∉ l) (hlen : n ≤ l.length) (r : Text) :
    getPiece n (l ++ r) = (l.take n, ⟨l.drop n ++ r, false⟩) := by
  induction n generalizing l with
  | zero => rfl
  | succ n ih =>
    cases l with
    | nil => exact absurd hlen (Nat.not_succ_le_zero n)
    | cons c l =>
      rw [List.mem_cons, not_or] at hl
      simp [getPiece, Ne.symm hl.1, ih hl.2 (Nat.le_of_succ_le_succ hlen)]

theorem cString_eq (h : (0 : UInt8) ∉ l) : cString l = l :=
  List.takeWhile_eq_self_iff.mpr fun c hc => by simpa using ne_of_mem_of_not_mem hc h

theorem lastPiece_short (h : l.length < 1023) : lastPiece l = l := by
  rw [lastPiece, Nat.div_eq_of_lt h, Nat.mul_zero, List.drop_zero]

theorem lastPiece_drop (h : 1023 ≤ l.length) : lastPiece (l.drop 1023) = lastPiece l := by
  rw [lastPiece, lastPiece, List.length_drop, List.drop_drop]
  congr 1
  omega

theorem lastPiece_suffix (l : Text) : lastPiece l <:+ l := List.drop_suffix _ _

theorem lastPiece_eq_iff : lastPiece l = l ↔ l.length < 1023 := by
  refine ⟨fun h => ?_, lastPiece_short⟩
  have hlen := congrArg List.length h
  rw [lastPiece, List.length_drop] at hlen
  omega

theorem readPieces_line (hl : newline ∉ l) (h0 : (0 : UInt8) ∉ l) (hfuel : l.length < fuel) (r : Text) :
    readPieces fuel 0 buffer ⟨l ++ newline :: r, false⟩ = some (some (lastPiece l), ⟨r, false⟩) := by
  induction fuel generalizing l buffer with
  | zero => exact absurd hfuel (Nat.not_lt_zero _)
  | succ fuel ih =>
    by_cases hlen : l.length < 1023
    · have h0' : (0 : UInt8) ∉ l ++ [newline] := by simp [h0, newline]
      simp [readPieces, fgets, getPiece_short hl hlen, cString_eq h0', lastPiece_short hlen]
    · rw [not_lt] at hlen
      have htake : newline ∉ l.take 1023 := fun h => hl (List.mem_of_mem_take h)
      have hlast : (l.take 1023).getLast? ≠ some newline := fun h => htake (List.mem_of_getLast? h)
      have hne : l ≠ [] := List.ne_nil_of_length_pos (by omega)
      have hrest := @ih (l.drop 1023) (some (l.take 1023)) (fun h => hl (List.mem_of_mem_drop h))
        (fun h => h0 (List.mem_of_mem_drop h)) (by rw [List.length_drop]; omega)
      rw [lastPiece_drop hlen] at hrest
      simpa [readPieces, fgets, getPiece_full hl hlen, cString_eq fun h => h0 (List.mem_of_mem_take h), hne, hlast]
        using hrest

/-- The characters behind the last newline are read up to the end of the file. -/
theorem readPieces_end (hl : newline ∉ l) (h0 : (0 : UInt8) ∉ l) (hfuel : l.length + 1 < fuel) :
    ∃ buffer', readPieces fuel 0 buffer ⟨l, false⟩ = some (buffer', ⟨[], true⟩) := by
  induction fuel generalizing l buffer with
  | zero => exact absurd hfuel (Nat.not_lt_zero _)
  | succ fuel ih =>
    by_cases hlen : l.length < 1023
    · have hlast : l.getLast? ≠ some newline := fun h => hl (List.mem_of_getLast? h)
      obtain ⟨fuel, rfl⟩ := Nat.exists_eq_add_one.mpr (show 0 < fuel by omega)
      refine ⟨some l, ?_⟩
      by_cases hne : l = []
      · rw [hne]
        rfl
      · simp [readPieces, fgets, getPiece_end hl hlen, hne, cString_eq h0, hlast]
    · rw [not_lt] at hlen
      have htake : newline ∉ l.take 1023 := fun h => hl (List.mem_of_mem_take h)
      have hlast : (l.take 1023).getLast? ≠ some newline := fun h => htake (List.mem_of_getLast? h)
      have hne : l ≠ [] := List.ne_nil_of_length_pos (by omega)
      obtain ⟨buffer', hrest⟩ := @ih (l.drop 1023) (some (l.take 1023))
        (fun h => hl (List.mem_of_mem_drop h)) (fun h => h0 (List.mem_of_mem_drop h)) (by rw [List.length_drop]; omega)
      have hfull := getPiece_full hl hlen []
      rw [List.append_nil, List.append_nil] at hfull
      exact ⟨buffer', by
        simpa [readPieces, fgets, hfull, cString_eq fun h => h0 (List.mem_of_mem_take h), hne, hlast] using hrest⟩

theorem loadLines_eq {ls : List Text} {rest : Text} (hls : ∀ l ∈ ls, newline ∉ l) (hrest : newline ∉ rest)
    (h0 : (0 : UInt8) ∉ Lines.join newline ls ++ rest) (hfuel : (Lines.join newline ls ++ rest).length + 2 < fuel)
    (lines : List Text) :
    loadLines fuel ⟨Lines.join newline ls ++ rest, false⟩ lines = some (lines ++ ls.map lastPiece) := by
  induction ls generalizing fuel lines with
  | nil =>
    obtain ⟨fuel, rfl⟩ := Nat.exists_eq_add_one.mpr (Nat.zero_lt_of_lt hfuel)
    obtain ⟨fuel, rfl⟩ := Nat.exists_eq_add_one.mpr (show 0 < fuel by omega)
    obtain ⟨buffer, hread⟩ := @readPieces_end rest (fuel + 1) none hrest h0 (by simpa using hfuel)
    simp [loadLines, readLineFromFile, hread]
  | cons l ls ih =>
    obtain ⟨hl, hls⟩ := List.forall_mem_cons.mp hls
    rw [Lines.join_cons, List.append_assoc, List.cons_append] at h0 hfuel ⊢
    rw [List.mem_append, List.mem_cons, not_or, not_or] at h0
    rw [List.length_append, List.length_cons] at hfuel
    obtain ⟨fuel, rfl⟩ := Nat.exists_eq_add_one.mpr (Nat.zero_lt_of_lt hfuel)
    have hread := @readPieces_line l fuel none hl h0.1 (by omega) (Lines.join newline ls ++ rest)
    have htail := ih hls h0.2.2 (show _ < fuel by omega) (lines ++ [lastPiece l])
    rw [List.append_assoc] at htail
    simpa [loadLines, readLineFromFile, hread] using htail

theorem resave_eq {ls : List Text} {rest : Text} (hls : ∀ l ∈ ls, newline ∉ l) (hrest : newline ∉ rest)
    (h0 : (0 : UInt8) ∉ Lines.join newline ls ++ rest) (hfuel : (Lines.join newline ls ++ rest).length + 2 < fuel) :
    resave fuel (Lines.join newline ls ++ rest) =
      some (if ls = [] then [newline] else Lines.join newline (ls.map lastPiece)) := by
  simp only [resave, loadFile, loadLines_eq hls hrest h0 hfuel]
  cases ls with
  | nil => rfl
  | cons l ls => simp [writeFile, Lines.join]

theorem kept_eq_endLine_iff {ls : List Text} {rest : Text} (hrest : newline ∉ rest) :
    (if ls = [] then [newline] else Lines.join newline (ls.map lastPiece)) = endLine (Lines.join newline ls ++ rest) ↔
      ls = [] ∧ rest = [] ∨ ls ≠ [] ∧ rest = [] ∧ ∀ l ∈ ls, l.length < 1023 := by
  simp only [endLine, Lines.getLast?_join_append hrest]
  by_cases hnil : ls = []
  · subst hnil
    simp
  · by_cases hempty : rest = []
    · subst hempty
      simp only [hnil, if_false, ne_eq, not_false_iff, and_self, if_true, List.append_nil, false_and, false_or, true_and,
        Lines.join_map_eq_iff lastPiece_suffix, lastPiece_eq_iff]
    · have hle := @Lines.length_join_map_le _ newline _ (fun l => (lastPiece_suffix l).length_le) ls
      have hlen : (Lines.join newline (ls.map lastPiece)).length ≠ (Lines.join newline ls ++ rest ++ [newline]).length := by
        simp only [List.length_append, List.length_singleton]
        omega
      simp only [hnil, if_false, hempty, false_and, and_false, or_false, iff_false]
      exact fun h => hlen (congrArg List.length h)

theorem short_lines_iff {ls : List Text} {rest : Text} (hls : ∀ l ∈ ls, newline ∉ l) (hrest : newline ∉ rest) :
    (Lines.join newline ls ++ rest = [] ∨ (Lines.join newline ls ++ rest).getLast? = some newline ∧
        ∀ l ∈ (Lines.join newline ls ++ rest).splitOn newline, l.length < 1023) ↔
      rest = [] ∧ ∀ l ∈ ls, l.length < 1023 := by
  rw [Lines.splitOn_join hls hrest, Lines.getLast?_join_append hrest]
  constructor
  · rintro (h | ⟨⟨rfl, -⟩, hshort⟩)
    · obtain ⟨hjoin, rfl⟩ := List.append_eq_nil_iff.mp h
      have hnil : ls = [] := by_contra fun hne => by
        simpa [hjoin] using @Lines.getLast?_join _ newline _ hne
      exact ⟨rfl, by simp [hnil]⟩
    · exact ⟨rfl, (List.forall_mem_append.mp hshort).1⟩
  · rintro ⟨rfl, hshort⟩
    by_cases hnil : ls = []
    · exact Or.inl (by simp [hnil])
    · exact Or.inr ⟨⟨rfl, hnil⟩, List.forall_mem_append.mpr ⟨hshort, by simp⟩⟩

/-- Saving what was loaded always ends. It gives the content back, with a newline at its end, exactly when the
content is empty or has nothing behind its last newline and no line of 1023 characters or more. -/
theorem resave_unchanged (content : Text) (h0 : (0 : UInt8) ∉ content) :
    (∀ fuel, content.length + 2 < fuel → resave fuel content = some (endLine content)) ↔
      content = [] ∨ content.getLast? = some newline ∧ ∀ l ∈ content.splitOn newline, l.length < 1023 := by
  obtain ⟨ls, rest, rfl, hls, hrest⟩ := Lines.exists_join newline content
  trans (if ls = [] then [newline] else Lines.join newline (ls.map lastPiece)) = endLine (Lines.join newline ls ++ rest)
  · constructor
    · intro h
      have hend := h _ (Nat.lt_succ_self _)
      rw [resave_eq hls hrest h0 (Nat.lt_succ_self _)] at hend
      exact Option.some.inj hend
    · intro h fuel hfuel
      rw [resave_eq hls hrest h0 hfuel, h]
  · rw [kept_eq_endLine_iff hrest, short_lines_iff hls hrest]
    by_cases hnil : ls = [] <;> simp [hnil]

theorem resave_unchanged_line : resave 5 [97, 10] = some (endLine [97, 10]) :=
  (resave_unchanged [97, 10] (by decide)).mpr (Or.inr (by decide)) 5 (by decide)

/-- The end of a file without a newline is lost. -/
theorem resave_unterminated : ¬∀ fuel, 4 < fuel → resave fuel [97, 98] = some (endLine [97, 98]) :=
  fun h => absurd (h 5 (by decide)) (by decide)

end

end SomeOs.Edit

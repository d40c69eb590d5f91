import Mathlib

/-! # Formatted output

The format is read once from the left. Each conversion reads its flags, amounts and length from
the format and its arguments from the list, and what it puts out goes through `writeChar`.
-/
namespace SomeOs.Printf

abbrev Str := List Char

def nul : Char := Char.ofNat 0

inductive Fault
  | outOfFuel | outOfBounds | badArgument
  deriving DecidableEq

abbrev Run := Except Fault

structure Flags where
  alternate : Bool := false
  zeroPad : Bool := false
  left : Bool := false
  space : Bool := false
  plus : Bool := false
  signed : Bool := false
  upper : Bool := false

inductive Length
  | char | short | int | long | longLong
  deriving DecidableEq

/-- An argument as it was passed. -/
inductive Arg
  | int (v : BitVec 32)
  | long (v : BitVec 64)
  | str (s : Option Str)

/-- A number as an `int`. -/
def toInt (n : ℤ) : ℤ := n.bmod (2 ^ 32)

structure Out where
  buf : ℕ → Char
  pos : ℕ

def writeChar (max : ℕ) (o : Out) (c : Char) : Out where
  buf := if o.pos < max then Function.update o.buf o.pos c else o.buf
  pos := o.pos + 1

def writeChars (max : ℕ) (s : Str) (o : Out) : Out := s.foldl (writeChar max) o

def current (fmt : Str) : Char := fmt.headD nul

def next (fmt : Str) : Run Str := if current fmt = nul then .error .outOfBounds else .ok fmt.tail

def nextInt : List Arg → Run (BitVec 32 × List Arg)
  | .int v :: args => .ok (v, args)
  | _ => .error .badArgument

def nextLong : List Arg → Run (BitVec 64 × List Arg)
  | .long v :: args => .ok (v, args)
  | _ => .error .badArgument

def nextStr : List Arg → Run (Option Str × List Arg)
  | .str s :: args => .ok (s, args)
  | _ => .error .badArgument

def readInt : Str → ℤ → ℤ × Str
  | [], n => (n, [])
  | c :: fmt, n =>
    if '0' ≤ c && c ≤ '9' then readInt fmt (toInt (n * 10 + (c.toNat - '0'.toNat : ℕ))) else (n, c :: fmt)

def readFlags : Str → Flags → Flags × Str
  | [], flags => (flags, [])
  | c :: fmt, flags =>
    if c = '#' then readFlags fmt { flags with alternate := true }
    else if c = '0' then readFlags fmt { flags with zeroPad := true }
    else if c = '-' then readFlags fmt { flags with left := true }
    else if c = ' ' then readFlags fmt { flags with space := true }
    else if c = '+' then readFlags fmt { flags with plus := true }
    else (flags, c :: fmt)

/-- A width or a precision. -/
def readAmount (fmt : Str) (args : List Arg) : Run (ℤ × Str × List Arg) :=
  if current fmt = '*' then do
    let (v, args) ← nextInt args
    pure (v.toInt, fmt.tail, args)
  else
    let (n, fmt) := readInt fmt 0
    pure (n, fmt, args)

def readPrecision (fmt : Str) (args : List Arg) : Run (Str × List Arg) :=
  if current fmt = '.' then do
    let (_, fmt, args) ← readAmount fmt.tail args
    pure (fmt, args)
  else pure (fmt, args)

def readLength (fmt : Str) : Length × Str :=
  if current fmt = 'h' then
    let fmt := fmt.tail
    if current fmt = 'h' then (.char, fmt.tail) else (.short, fmt)
  else if current fmt = 'l' then
    -- the same character is looked at again
    if current fmt = 'l' then (.longLong, fmt.tail) else (.long, fmt)
  else (.int, fmt)

def lowerDigits : Str := ['0', '1', '2', '3', '4', '5', '6', '7', '8', '9', 'a', 'b', 'c', 'd', 'e', 'f']

def upperDigits : Str := ['0', '1', '2', '3', '4', '5', '6', '7', '8', '9', 'A', 'B', 'C', 'D', 'E', 'F']

/-- The digits in `buffer`, the lowest one first, with room for `room` more. -/
def digitLoop (digits : Str) (base : ℕ) : ℕ → ℕ → Run Str
  | 0, _ => .error .outOfBounds
  | room + 1, n => do
    let c := digits.getD (n % base) nul
    if n / base ≠ 0 then pure (c :: (← digitLoop digits base room (n / base))) else pure [c]

def signOf (num : BitVec 64) (flags : Flags) : Str :=
  if num.msb && flags.signed then ['-'] else if flags.plus then ['+'] else if flags.space then [' '] else []

def prefixOf (base : ℕ) (flags : Flags) : Str :=
  if flags.alternate then
    if base = 2 ∨ base = 8 ∨ base = 16 then
      '0' :: if base = 16 then (if flags.upper then ['X'] else ['x']) else if base = 2 then ['b'] else []
    else []
  else []

def formatInteger (max : ℕ) (num : BitVec 64) (base : ℕ) (width : ℤ) (flags : Flags) (o : Out) : Run Out := do
  let n := if num.msb && flags.signed then (-num).toNat else num.toNat
  let start := signOf num flags ++ prefixOf base flags
  let buffer ← digitLoop (if flags.upper then upperDigits else lowerDigits) base 64 n
  let padding := if width > 0 then (width - buffer.length - start.length).toNat else 0
  let o := if !flags.left && !flags.zeroPad then writeChars max (List.replicate padding ' ') o else o
  let o := writeChars max start o
  let o := if !flags.left && flags.zeroPad then writeChars max (List.replicate padding '0') o else o
  let o := writeChars max buffer.reverse o
  pure (if flags.left then writeChars max (List.replicate padding ' ') o else o)

def cString (str : Str) : Str := str.takeWhile (· ≠ nul)

def formatString (max : ℕ) (str : Str) (width : ℤ) (flags : Flags) (o : Out) : Out :=
  let str := cString str
  let padding := if width > 0 then (toInt (width - str.length)).toNat else 0
  let o := if !flags.left then writeChars max (List.replicate padding ' ') o else o
  let o := writeChars max str o
  if flags.left then writeChars max (List.replicate padding ' ') o else o

/-- The argument of an integer conversion. -/
def integerArg (length : Length) (args : List Arg) : Run (BitVec 64 × List Arg) :=
  match length with
  | .longLong | .long => nextLong args
  | .int => do
    let (v, args) ← nextInt args
    pure (v.signExtend 64, args)
  | .short => do
    let (v, args) ← nextInt args
    pure (v.signExtend 64 &&& 0xffff, args)
  | .char => do
    let (v, args) ← nextInt args
    pure (v.signExtend 64 &&& 0xff, args)

def isIntegerLetter (letter : Char) : Bool := ['i', 'd', 'o', 'u', 'x', 'X', 'b'].contains letter

def isSignedLetter (letter : Char) : Bool := letter = 'i' || letter = 'd'

def baseOf (letter : Char) : ℕ :=
  if isSignedLetter letter then 10
  else if letter = 'X' then 16
  else if letter = 'x' then 16
  else if letter = 'o' then 8
  else if letter = 'b' then 1
  else 10

def convert (max : ℕ) (flags : Flags) (width : ℤ) (length : Length) (letter : Char) (args : List Arg) (o : Out) :
    Run (List Arg × Out) :=
  if isIntegerLetter letter then do
    let (num, args) ← integerArg length args
    let flags := { flags with signed := isSignedLetter letter, upper := letter = 'X' }
    pure (args, ← formatInteger max num (baseOf letter) width flags o)
  else if letter = 'p' then do
    let (num, args) ← nextLong args
    pure (args, ← formatInteger max num 16 width { alternate := true } o)
  else if letter = 'c' then do
    let (v, args) ← nextInt args
    pure (args, formatString max [Char.ofNat (v.toNat % 2 ^ 8)] width flags o)
  else if letter = 's' then do
    let (str, args) ← nextStr args
    pure (args, formatString max (str.getD ['(', 'n', 'u', 'l', 'l', ')']) width flags o)
  else if letter = '%' then pure (args, writeChar max o letter)
  else pure (args, writeChar max (writeChar max o '%') letter)

/-- The loop of `vsnprintf`. -/
def formatLoop : ℕ → ℕ → Str → List Arg → Out → Run Out
  | 0, _, _, _, _ => .error .outOfFuel
  | fuel + 1, max, fmt, args, o =>
    if current fmt = nul then .ok o
    else if current fmt = '%' then do
      let (flags, fmt) := readFlags fmt.tail {}
      let (width, fmt, args) ← readAmount fmt args
      let flags := if width < 0 then { flags with left := true } else flags
      let width := if width < 0 then toInt (-width) else width
      let (fmt, args) ← readPrecision fmt args
      let (length, fmt) := readLength fmt
      let (args, o) ← convert max flags width length (current fmt) args o
      formatLoop fuel max (← next fmt) args o
    else formatLoop fuel max fmt.tail args (writeChar max o (current fmt))

def vsnprintf (fuel : ℕ) (isNull : Bool) (buf : ℕ → Char) (size : ℕ) (fmt : Str) (args : List Arg) :
    Run ((ℕ → Char) × ℤ) := do
  let size := if isNull then 0 else size
  let o ← formatLoop fuel size fmt args ⟨buf, 0⟩
  let buf := if size ≠ 0 then Function.update o.buf (if o.pos < size then o.pos else size - 1) nul else o.buf
  pure (buf, toInt o.pos)

end SomeOs.Printf

/-! # A format as a list of pieces

A format stands for characters and directives, and with its arguments for a text. What is put out
is this text wherever it goes, and how much of it is stored depends on the size alone.
-/
namespace SomeOs.Printf

/-- A conversion as it is written; an amount is missing where it is an argument. -/
structure Directive where
  flags : Flags
  width : Option ℤ
  precision : Option (Option ℤ)
  length : Length
  letter : Char

inductive Piece
  | char (c : Char)
  | directive (d : Directive)

def amount (fmt : Str) : Option ℤ × Str :=
  if current fmt = '*' then (none, fmt.tail) else (some (readInt fmt 0).1, (readInt fmt 0).2)

/-- The directive behind a percent sign, and the format from its letter on. -/
def directive (fmt : Str) : Directive × Str :=
  let (flags, fmt) := readFlags fmt {}
  let (width, fmt) := amount fmt
  let (precision, fmt) := if current fmt = '.' then (some (amount fmt.tail).1, (amount fmt.tail).2) else (none, fmt)
  let (length, fmt) := readLength fmt
  (⟨flags, width, precision, length, current fmt⟩, fmt)

def piecesFrom : ℕ → Str → List Piece
  | 0, _ => []
  | fuel + 1, fmt =>
    if current fmt = nul then []
    else if current fmt = '%' then
      let (d, fmt) := directive fmt.tail
      .directive d :: if d.letter = nul then [] else piecesFrom fuel fmt.tail
    else .char (current fmt) :: piecesFrom fuel fmt.tail

def pieces (fmt : Str) : List Piece := piecesFrom (fmt.length + 1) fmt

/-- What is passed for an argument. -/
inductive Kind
  | int | long | str
  deriving DecidableEq

def Arg.kind : Arg → Kind
  | .int _ => .int
  | .long _ => .long
  | .str _ => .str

def amountKinds (amount : Option ℤ) : List Kind := if amount = none then [.int] else []

def letterKinds (length : Length) (letter : Char) : List Kind :=
  if isIntegerLetter letter then [if length = .longLong ∨ length = .long then .long else .int]
  else if letter = 'p' then [.long]
  else if letter = 'c' then [.int]
  else if letter = 's' then [.str]
  else []

def Directive.amountKinds (d : Directive) : List Kind :=
  Printf.amountKinds d.width ++ Printf.amountKinds (d.precision.getD (some 0))

def Directive.kinds (d : Directive) : List Kind := d.amountKinds ++ letterKinds d.length d.letter

def Piece.kinds : Piece → List Kind
  | .char _ => []
  | .directive d => d.kinds

def integerText (num : BitVec 64) (base : ℕ) (width : ℤ) (flags : Flags) : Run Str := do
  let n := if num.msb && flags.signed then (-num).toNat else num.toNat
  let start := signOf num flags ++ prefixOf base flags
  let buffer ← digitLoop (if flags.upper then upperDigits else lowerDigits) base 64 n
  let padding := if width > 0 then (width - buffer.length - start.length).toNat else 0
  pure ((if !flags.left && !flags.zeroPad then List.replicate padding ' ' else []) ++ start ++
    (if !flags.left && flags.zeroPad then List.replicate padding '0' else []) ++ buffer.reverse ++
    (if flags.left then List.replicate padding ' ' else []))

def stringText (str : Str) (width : ℤ) (flags : Flags) : Str :=
  let padding := if width > 0 then (toInt (width - (cString str).length)).toNat else 0
  (if !flags.left then List.replicate padding ' ' else []) ++ cString str ++
    (if flags.left then List.replicate padding ' ' else [])

def letterText (flags : Flags) (width : ℤ) (length : Length) (letter : Char) (args : List Arg) : Run (List Arg × Str) :=
  if isIntegerLetter letter then do
    let (num, args) ← integerArg length args
    pure (args, ← integerText num (baseOf letter) width
      { flags with signed := isSignedLetter letter, upper := letter = 'X' })
  else if letter = 'p' then do
    let (num, args) ← nextLong args
    pure (args, ← integerText num 16 width { alternate := true })
  else if letter = 'c' then do
    let (v, args) ← nextInt args
    pure (args, stringText [Char.ofNat (v.toNat % 2 ^ 8)] width flags)
  else if letter = 's' then do
    let (str, args) ← nextStr args
    pure (args, stringText (str.getD ['(', 'n', 'u', 'l', 'l', ')']) width flags)
  else if letter = '%' then pure (args, [letter])
  else pure (args, ['%', letter])

def amountValue (amount : Option ℤ) (args : List Arg) : Run (ℤ × List Arg) :=
  match amount with
  | some n => .ok (n, args)
  | none => do
    let (v, args) ← nextInt args
    pure (v.toInt, args)

def Directive.text (d : Directive) (args : List Arg) : Run (List Arg × Str) := do
  let (width, args) ← amountValue d.width args
  let (_, args) ← amountValue (d.precision.getD (some 0)) args
  letterText (if width < 0 then { d.flags with left := true } else d.flags) (if width < 0 then toInt (-width) else width)
    d.length d.letter args

/-- The text that the pieces stand for. -/
def textOf : List Piece → List Arg → Run Str
  | [], _ => .ok []
  | .char c :: ps, args => do pure (c :: (← textOf ps args))
  | .directive d :: ps, args => do
    let (args, text) ← d.text args
    -- a letter that is missing is the terminator
    if d.letter = nul then .error .outOfBounds else pure (text ++ (← textOf ps args))

section
variable {fmt : Str} {args : List Arg} {o : Out} {max fuel : ℕ} {s t : Str}

@[simp] theorem writeChars_nil : writeChars max [] o = o := rfl

@[simp] theorem writeChars_append : writeChars max (s ++ t) o = writeChars max t (writeChars max s o) :=
  List.foldl_append

theorem writeChars_ite (p : Bool) : writeChars max (if p then s else []) o = if p then writeChars max s o else o := by
  cases p <;> rfl

theorem formatInteger_eq (num : BitVec 64) (base : ℕ) (width : ℤ) (flags : Flags) :
    formatInteger max num base width flags o = (integerText num base width flags).map fun t => writeChars max t o := by
  simp only [formatInteger, integerText, bind, Except.bind]
  split
  · rfl
  · simp only [pure, Except.pure, Except.map, writeChars_append, writeChars_ite]

theorem formatString_eq (str : Str) (width : ℤ) (flags : Flags) :
    formatString max str width flags o = writeChars max (stringText str width flags) o := by
  simp only [formatString, stringText, writeChars_append, writeChars_ite]

theorem convert_eq (flags : Flags) (width : ℤ) (length : Length) (letter : Char) :
    convert max flags width length letter args o =
      (letterText flags width length letter args).map fun r => (r.1, writeChars max r.2 o) := by
  unfold convert letterText
  split_ifs
  · cases integerArg length args with
    | error e => rfl
    | ok r =>
      simp only [bind, Except.bind, formatInteger_eq]
      cases integerText r.1 (baseOf letter) width
        { flags with signed := isSignedLetter letter, upper := letter = 'X' } <;> rfl
  · cases nextLong args with
    | error e => rfl
    | ok r =>
      simp only [bind, Except.bind, formatInteger_eq]
      cases integerText r.1 16 width { alternate := true } <;> rfl
  · cases nextInt args with
    | error e => rfl
    | ok r => simp only [bind, Except.bind, formatString_eq]; rfl
  · cases nextStr args with
    | error e => rfl
    | ok r => simp only [bind, Except.bind, formatString_eq]; rfl
  · rfl
  · rfl

theorem readAmount_eq (fmt : Str) (args : List Arg) :
    readAmount fmt args = (amountValue (amount fmt).1 args).map fun r => (r.1, (amount fmt).2, r.2) := by
  unfold readAmount amount
  split_ifs
  · cases h : nextInt args <;> simp [amountValue, h, bind, Except.bind, Except.map, pure, Except.pure]
  · rfl

theorem length_readInt_le (fmt : Str) (n : ℤ) : (readInt fmt n).2.length ≤ fmt.length := by
  induction fmt generalizing n with
  | nil => exact le_rfl
  | cons c fmt ih =>
    rw [readInt]
    split_ifs
    · exact (ih _).trans (Nat.le_succ _)
    · exact le_rfl

theorem length_readFlags_le (fmt : Str) (flags : Flags) : (readFlags fmt flags).2.length ≤ fmt.length := by
  induction fmt generalizing flags with
  | nil => exact le_rfl
  | cons c fmt ih =>
    rw [readFlags]
    split_ifs
    · exact (ih _).trans (Nat.le_succ _)
    · exact (ih _).trans (Nat.le_succ _)
    · exact (ih _).trans (Nat.le_succ _)
    · exact (ih _).trans (Nat.le_succ _)
    · exact (ih _).trans (Nat.le_succ _)
    · exact le_rfl

theorem length_tail_le (fmt : Str) : fmt.tail.length ≤ fmt.length := by
  rw [List.length_tail]
  exact Nat.sub_le _ _

theorem length_amount_le (fmt : Str) : (amount fmt).2.length ≤ fmt.length := by
  unfold amount
  split_ifs
  · exact length_tail_le fmt
  · exact length_readInt_le fmt 0

theorem length_readLength_le (fmt : Str) : (readLength fmt).2.length ≤ fmt.length := by
  unfold readLength
  dsimp only
  split_ifs
  · exact (length_tail_le _).trans (length_tail_le _)
  · exact length_tail_le _
  · exact length_tail_le _
  · exact le_rfl

theorem length_directive_le (fmt : Str) : (directive fmt).2.length ≤ fmt.length := by
  unfold directive
  refine (length_readLength_le _).trans ?_
  split_ifs
  · exact ((length_amount_le _).trans (length_tail_le _)).trans ((length_amount_le _).trans (length_readFlags_le _ _))
  · exact (length_amount_le _).trans (length_readFlags_le _ _)

theorem lt_of_current_ne_nul (h : current fmt ≠ nul) : fmt.tail.length < fmt.length := by
  cases fmt with
  | nil => exact absurd rfl h
  | cons c fmt => exact Nat.lt_succ_self _

/-- One directive in the loop. -/
theorem formatLoop_directive (h : current fmt = '%') :
    formatLoop (fuel + 1) max fmt args o = (do
      let r ← (directive fmt.tail).1.text args
      formatLoop fuel max (← next (directive fmt.tail).2) r.1 (writeChars max r.2 o)) := by
  have hnul : ¬ '%' = nul := by decide
  rw [formatLoop, h, if_neg hnul, if_pos rfl]
  simp only [readAmount_eq, readPrecision, convert_eq, Directive.text, directive, bind, Except.bind]
  cases amountValue (amount (readFlags fmt.tail {}).2).1 args with
  | error e => rfl
  | ok r =>
    simp only [Except.map]
    by_cases hdot : current (amount (readFlags fmt.tail {}).2).2 = '.'
    · simp only [hdot, if_true, Option.getD_some]
      cases amountValue (amount (amount (readFlags fmt.tail {}).2).2.tail).1 r.2 with
      | error e => rfl
      | ok r' =>
        simp only [pure, Except.pure]
        generalize letterText _ _ _ _ r'.2 = text
        cases text <;> rfl
    · simp only [hdot, if_false, Option.getD_none, amountValue, pure, Except.pure]
      generalize letterText _ _ _ _ r.2 = text
      cases text <;> rfl

/-- The loop puts out the text of the pieces. -/
theorem formatLoop_eq (hfuel : fmt.length < fuel) :
    formatLoop fuel max fmt args o = (textOf (piecesFrom fuel fmt) args).map fun t => writeChars max t o := by
  induction fuel generalizing fmt args o with
  | zero => exact absurd hfuel (Nat.not_lt_zero _)
  | succ fuel ih =>
    by_cases hnul : current fmt = nul
    · rw [formatLoop, piecesFrom, if_pos hnul, if_pos hnul]
      rfl
    · have hlt := lt_of_current_ne_nul hnul
      by_cases hpercent : current fmt = '%'
      · rw [formatLoop_directive hpercent, piecesFrom, if_neg hnul, if_pos hpercent]
        simp only [textOf, bind, Except.bind]
        cases (directive fmt.tail).1.text args with
        | error e => rfl
        | ok r =>
          have hletter : (directive fmt.tail).1.letter = current (directive fmt.tail).2 := rfl
          simp only [next, hletter]
          split_ifs with hend
          · rfl
          · have hle := length_directive_le fmt.tail
            have htail := lt_of_current_ne_nul hend
            simp only [ih (show (directive fmt.tail).2.tail.length < fuel by omega)]
            cases textOf (piecesFrom fuel (directive fmt.tail).2.tail) r.1 with
            | error e => rfl
            | ok t => simp only [Except.map, pure, Except.pure, writeChars_append]
      · rw [formatLoop, piecesFrom, if_neg hnul, if_neg hnul, if_neg hpercent, if_neg hpercent, ih (by omega), textOf]
        simp only [bind, Except.bind]
        cases textOf (piecesFrom fuel fmt.tail) args <;> rfl

end

end SomeOs.Printf

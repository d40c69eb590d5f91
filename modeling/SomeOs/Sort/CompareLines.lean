import Mathlib

/-! # Comparing two lines

A line is compared by its keys, each of them a field with options of its own, and at last as a whole.
-/
namespace SomeOs.Sort

abbrev Text := List UInt8

abbrev Line := { t : Text // (0 : UInt8) ∉ t }

/-- The options of a comparison. -/
structure Options where
  ignore_blanks : Bool := false
  dictionary : Bool := false
  ignore_case : Bool := false
  general_numeric : Bool := false
  ignore_nonprint : Bool := false
  human_numeric : Bool := false
  numeric : Bool := false
  random : Bool := false
  reverse : Bool := false

structure Arguments extends Options where
  key : Option Text

def first (str : Text) : UInt8 := str.headD 0

def isdigit (c : UInt8) : Bool := 48 ≤ c && c ≤ 57

def isblank (c : UInt8) : Bool := c == 32 || c == 9

def isspace (c : UInt8) : Bool := c == 32 || 9 ≤ c && c ≤ 13

def isalnum (c : UInt8) : Bool := isdigit c || 65 ≤ c && c ≤ 90 || 97 ≤ c && c ≤ 122

def isprint (c : UInt8) : Bool := 32 ≤ c && c ≤ 126

def pushDigit (val : ℤ) (c : UInt8) : ℤ := val * 10 + (c.toNat - 48)

/-- `atoll` of a number that does not overflow. -/
def atoll (str : Text) : ℤ :=
  let str := str.dropWhile isspace
  if first str = 45 then -((str.tail.takeWhile isdigit).foldl pushDigit 0)
  else if first str = 43 then (str.tail.takeWhile isdigit).foldl pushDigit 0
  else (str.takeWhile isdigit).foldl pushDigit 0

/-- The loop of `readHuman` over the digits, which stays at the first of them. -/
def readDigits : ℕ → Text → ℤ → Option ℤ
  | 0, _, _ => none
  | fuel + 1, str, val => if isdigit (first str) then readDigits fuel str (pushDigit val (first str)) else some val

/-- A suffix with a `B` stands for powers of 1000, without it for those of 1024. -/
def power (str : Text) (n : ℕ) : ℤ := if str.getD 1 0 = 66 then (1000 ^ n % 2 ^ 64 : ℕ) else (1024 ^ n % 2 ^ 64 : ℕ)

def suffix (str : Text) : ℤ :=
  if first str = 98 then 512
  else if first str = 107 ∧ str.getD 1 0 = 66 then 1000
  else if first str = 75 then 1024
  else if first str = 77 then power str 2
  else if first str = 71 then power str 3
  else if first str = 84 then power str 4
  else if first str = 80 then power str 5
  else if first str = 69 then power str 6
  else if first str = 90 then power str 7
  else if first str = 89 then power str 7
  else 1

def readHuman (fuel : ℕ) (str : Text) : Option ℤ := do
  let val ← readDigits fuel str 0
  pure (val * suffix str)

/-- The random numbers and the order of two strings as floating point numbers. -/
structure Values where
  randoms : UInt8 → BitVec 32
  atof : Text → Text → Ordering

def hashString (values : Values) (str : Text) : BitVec 64 :=
  str.foldl (fun val c => val ^^^ (values.randoms c).signExtend 64) 0

def skipBlanks (args : Options) (str : Text) : Text := if args.ignore_blanks then str.dropWhile isblank else str

def skipIgnored (args : Options) (str : Text) : Text :=
  let str := if args.dictionary then str.dropWhile fun c => !isblank c && !isalnum c else str
  if args.ignore_nonprint then str.dropWhile fun c => !isprint c else str

def fold (args : Options) (c : UInt8) : UInt8 := if args.ignore_case && 97 ≤ c && c ≤ 122 then c - 32 else c

/-- The loop over the characters. Two strings that end together after skipping are both left by it. -/
def compareChars (args : Options) : ℕ → Text → Text → Option ℤ
  | 0, _, _ => none
  | fuel + 1, a, b =>
    if a ≠ [] ∨ b ≠ [] then
      let a := skipIgnored args a
      let b := skipIgnored args b
      let ca := fold args (first a)
      let cb := fold args (first b)
      if ca < cb then some (-1)
      else if ca > cb then some 1
      else if a = [] ∨ b = [] then none
      else compareChars args fuel a.tail b.tail
    else some 0

/-- A comparison of two values, with `next` for equal ones unless they are to be unique. -/
def compareValues (lla llb : ℤ) (unique : Bool) (next : Option ℤ) : Option ℤ :=
  if lla < llb then some (-1)
  else if lla > llb then some 1
  else if unique then some 0
  else next

def compareHashes (values : Values) (a b : Text) (args : Options) (next : Option ℤ) : Option ℤ :=
  if args.random then compareValues (hashString values a).toInt (hashString values b).toInt false next else next

def compareHumans (fuel : ℕ) (a b : Text) (args : Options) (unique : Bool) (next : Option ℤ) : Option ℤ :=
  if args.human_numeric then do
    let lla ← readHuman fuel a
    let llb ← readHuman fuel b
    compareValues lla llb unique next
  else next

def compareFloats (values : Values) (a b : Text) (args : Options) (unique : Bool) (next : Option ℤ) : Option ℤ :=
  if args.general_numeric then
    match values.atof a b with
    | .lt => some (-1)
    | .gt => some 1
    | .eq => if unique then some 0 else next
  else next

def compareNumbers (a b : Text) (args : Options) (unique : Bool) (next : Option ℤ) : Option ℤ :=
  if args.numeric then compareValues (atoll a) (atoll b) unique next else next

/-- `compareStrings` when the strings are in their places. -/
def compareForward (values : Values) (fuel : ℕ) (a b : Text) (args : Options) (unique : Bool) : Option ℤ :=
  let sa := skipBlanks args a
  let sb := skipBlanks args b
  compareHashes values a b args <| compareHumans fuel sa sb args unique <| compareFloats values sa sb args unique <|
    compareNumbers sa sb args unique <| compareChars args fuel sa sb

def compareStrings (values : Values) (fuel : ℕ) (a b : Text) (args : Options) (unique : Bool) : Option ℤ :=
  let (a, b) := if args.reverse then (b, a) else (a, b)
  compareForward values fuel a b args unique

def findField : ℕ → Text → Text
  | _, [] => []
  | field, c :: line =>
    if field > 1 then findField (if isblank (first line) && !isblank c then field - 1 else field) line
    else c :: line

def readLineField (line : Text) (field : ℕ) : Text :=
  if field = 0 then line
  else
    let start := findField field line
    start.takeWhile isblank ++ (start.dropWhile isblank).takeWhile fun c => !isblank c

/-- The letters of a key. Any other character ends the program. -/
def readOptions : Text → Options → Option Options
  | [], args => some args
  | c :: str, args =>
    if c = 98 then readOptions str { args with ignore_blanks := true }
    else if c = 100 then readOptions str { args with dictionary := true }
    else if c = 102 then readOptions str { args with ignore_case := true }
    else if c = 103 then readOptions str { args with general_numeric := true }
    else if c = 105 then readOptions str { args with ignore_nonprint := true }
    else if c = 104 then readOptions str { args with human_numeric := true }
    else if c = 110 then readOptions str { args with numeric := true }
    else if c = 82 then readOptions str { args with random := true }
    else if c = 114 then readOptions str { args with reverse := true }
    else none

/-- The field and the options of a key, which are those of the program when it has none. -/
def readKey (args : Options) (key : Text) : Option (ℕ × Options) :=
  let field := (key.takeWhile isdigit).foldl (fun field c => field * 10 + (c.toNat - 48)) 0
  let str := key.dropWhile isdigit
  if str = [] then some (field, args) else (readOptions str {}).map fun local_args => (field, local_args)

def compareKeys (values : Values) (fuel : ℕ) (a b : Text) (args : Options) (unique : Bool) : List Text → Option ℤ
  | [] => if unique then some 0 else compareStrings values fuel a b args unique
  | key :: keys => do
    let (field, local_args) ← readKey args key
    let cmp ← compareStrings values fuel (readLineField a field) (readLineField b field) local_args true
    if cmp ≠ 0 then pure cmp else compareKeys values fuel a b args unique keys

def compareLines (values : Values) (fuel : ℕ) (a b : Text) (args : Arguments) (unique : Bool) : Option ℤ :=
  match args.key with
  | some keys => compareKeys values fuel a b args.toOptions unique (keys.splitOn 44)
  | none => compareStrings values fuel a b args.toOptions unique

end SomeOs.Sort

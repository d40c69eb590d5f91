import SomeOs.Expr.Division

/-! # The evaluator

The levels of the grammar call one another downwards, and a parenthesis calls the outermost one
again. The arguments are read through a scanner, which has nothing to give at their end.
-/
namespace SomeOs.Expr

structure Scanner where
  args : List Str
  off : ℕ
  deriving DecidableEq

def Scanner.count (args : Scanner) : ℕ := args.args.length

def peek (args : Scanner) : Option Str :=
  if args.off < args.count then args.args[args.off]? else none

def next (args : Scanner) : Option Str × Scanner :=
  if args.off < args.count then (args.args[args.off]?, { args with off := args.off + 1 }) else (none, args)

def eq (fst : Option Str) (snd : Str) : Bool := fst = some snd

def strdup (arg : Option Str) : Run Str :=
  match arg with
  | some arg => .ok arg
  | none => .error .outOfBounds

def assertInteger (arg : Str) : Run Unit := if isInteger arg then .ok () else .error .reported

inductive BinOp
  | mul | div | rem | add | sub | comp (op : CompOp) | and | or
  deriving DecidableEq

def CompOp.text : CompOp → Str
  | .lt => ['<']
  | .le => ['<', '=']
  | .eq => ['=']
  | .ne => ['!', '=']
  | .ge => ['>', '=']
  | .gt => ['>']

def BinOp.text : BinOp → Str
  | .mul => ['*']
  | .div => ['/']
  | .rem => ['%']
  | .add => ['+']
  | .sub => ['-']
  | .comp op => op.text
  | .and => ['&']
  | .or => ['|']

def mulOps : List BinOp := [.mul, .div, .rem]

def addOps : List BinOp := [.add, .sub]

def compOps : List BinOp := [.comp .lt, .comp .le, .comp .eq, .comp .ne, .comp .ge, .comp .gt]

def andOrOps : List BinOp := [.or, .and]

/-- The operator among `ops` that the text is. -/
def opOf (ops : List BinOp) (arg : Option Str) : Option BinOp := ops.find? fun op => eq arg op.text

/-- What a loop does with an operator: arithmetic and comparisons want integers on both sides. -/
def applyOp (fuel : ℕ) (op : BinOp) (fst snd : Str) : Run Str :=
  match op with
  | .or => .ok (if isZero fst then snd else fst)
  | .and => .ok (if isZero fst || isZero snd then ['0'] else fst)
  | op => do
    assertInteger fst
    assertInteger snd
    match op with
    | .mul => mulInteger fuel fst snd
    | .div => divInteger fuel fst snd
    | .rem => remInteger fuel fst snd
    | .add => addInteger fuel fst snd
    | .sub => subInteger fuel fst snd
    | .comp op => .ok (evalCompOp op (cmpInteger fst snd))
    | _ => .ok fst

/-- `%lu` of an integer, which stays at the largest number. A minus is taken modulo `2 ^ 64`. -/
def scanUnsigned (arg : Str) : ℕ :=
  let n := min (natValue (magnitude arg)) (2 ^ 64 - 1)
  if isNeg arg then (2 ^ 64 - n) % 2 ^ 64 else n

/-- The end of `evalPre` for `substr`. -/
def substr (str pos len : Str) : Run Str :=
  let posi := scanUnsigned pos
  let leni := if posi = 0 then 0 else scanUnsigned len
  let posi := min (posi - 1) str.length
  let leni := if (posi + leni) % 2 ^ 64 > str.length then str.length - posi else leni
  if posi + leni ≤ str.length then .ok ((str.drop posi).take leni) else .error .outOfBounds

/-- Where `needle` starts, counted from one, or zero. -/
def index (haystack needle : Str) : ℕ :=
  match haystack.tails.findIdx? (needle.isPrefixOf ·) with
  | some idx => idx + 1
  | none => 0

/-- One pass through the loop of a level. -/
def chainStep (ops : List BinOp) (fuel : ℕ) (operand : Scanner → Run (Str × Scanner))
    (loop : Str → Scanner → Run (Str × Scanner)) (res : Str) (args : Scanner) : Run (Str × Scanner) :=
  match opOf ops (peek args) with
  | none => .ok (res, args)
  | some op => do
    let (snd, args) ← operand (next args).2
    loop (← applyOp fuel op res snd) args

mutual
def evalBase : ℕ → Scanner → Run (Str × Scanner)
  | 0, _ => .error .outOfFuel
  | fuel + 1, args =>
    let (arg, args) := next args
    if eq arg ['('] then do
      let (res, args) ← evalExpr fuel args
      let (arg, args) := next args
      -- `syntaxError` ends the program, also when there is no argument left to name
      if eq arg [')'] then pure (res, args) else .error .reported
    else if eq arg ['+'] then do
      let (arg, args) := next args
      pure (← strdup arg, args)
    else do pure (← strdup arg, args)

def evalPre : ℕ → Scanner → Run (Str × Scanner)
  | 0, _ => .error .outOfFuel
  | fuel + 1, args =>
    let arg := peek args
    if eq arg ['s', 'u', 'b', 's', 't', 'r'] then do
      let (str, args) ← evalBase fuel (next args).2
      let (pos, args) ← evalBase fuel args
      let (len, args) ← evalBase fuel args
      assertInteger pos
      assertInteger len
      pure (← substr str pos len, args)
    else if eq arg ['i', 'n', 'd', 'e', 'x'] then do
      let (haystack, args) ← evalBase fuel (next args).2
      let (needle, args) ← evalBase fuel args
      pure (Nat.toDigits 10 (index haystack needle), args)
    else if eq arg ['l', 'e', 'n', 'g', 't', 'h'] then do
      let (val, args) ← evalBase fuel (next args).2
      pure (Nat.toDigits 10 val.length, args)
    else evalBase fuel args

def evalMul : ℕ → Scanner → Run (Str × Scanner)
  | 0, _ => .error .outOfFuel
  | fuel + 1, args => do
    let (res, args) ← evalPre fuel args
    mulLoop fuel res args

/-- The right side is read by `evalMul` itself. -/
def mulLoop : ℕ → Str → Scanner → Run (Str × Scanner)
  | 0, _, _ => .error .outOfFuel
  | fuel + 1, res, args => chainStep mulOps fuel (evalMul fuel) (mulLoop fuel) res args

def evalAdd : ℕ → Scanner → Run (Str × Scanner)
  | 0, _ => .error .outOfFuel
  | fuel + 1, args => do
    let (res, args) ← evalMul fuel args
    addLoop fuel res args

def addLoop : ℕ → Str → Scanner → Run (Str × Scanner)
  | 0, _, _ => .error .outOfFuel
  | fuel + 1, res, args => chainStep addOps fuel (evalMul fuel) (addLoop fuel) res args

def evalComp : ℕ → Scanner → Run (Str × Scanner)
  | 0, _ => .error .outOfFuel
  | fuel + 1, args => do
    let (res, args) ← evalAdd fuel args
    compLoop fuel res args

def compLoop : ℕ → Str → Scanner → Run (Str × Scanner)
  | 0, _, _ => .error .outOfFuel
  | fuel + 1, res, args => chainStep compOps fuel (evalAdd fuel) (compLoop fuel) res args

def evalAndOr : ℕ → Scanner → Run (Str × Scanner)
  | 0, _ => .error .outOfFuel
  | fuel + 1, args => do
    let (res, args) ← evalComp fuel args
    andOrLoop fuel res args

def andOrLoop : ℕ → Str → Scanner → Run (Str × Scanner)
  | 0, _, _ => .error .outOfFuel
  | fuel + 1, res, args => chainStep andOrOps fuel (evalComp fuel) (andOrLoop fuel) res args

def evalExpr : ℕ → Scanner → Run (Str × Scanner)
  | 0, _ => .error .outOfFuel
  | fuel + 1, args => evalAndOr fuel args
end

/-- The scanner `main` starts with, behind the name of the program. -/
def scannerOf (prog : Str) (args : List Str) : Scanner where
  args := prog :: args
  off := 1

end SomeOs.Expr

/-! # The grammar

A phrase of a level is a list of phrases of the level below with operators of that level between
them. Its value is found from the left.
-/
namespace SomeOs.Expr

def BinOp.level : BinOp → ℕ
  | .mul | .div | .rem => 1
  | .add | .sub => 2
  | .comp _ => 3
  | .and => 4
  | .or => 5

def reserved : List Str :=
  [['('], ['+'], ['s', 'u', 'b', 's', 't', 'r'], ['i', 'n', 'd', 'e', 'x'], ['l', 'e', 'n', 'g', 't', 'h']]

/-- Any other text may stand as an operand; in a sentence it is an integer. -/
inductive Phrase : ℕ → Type
  | operand (t : Str) (ht : t ∉ reserved) : Phrase 0
  | paren (e : Phrase 5) : Phrase 0
  | one {n : ℕ} (p : Phrase n) : Phrase (n + 1)
  | more {n : ℕ} (p : Phrase n) (op : BinOp) (hop : op.level = n + 1) (rest : Phrase (n + 1)) : Phrase (n + 1)

namespace Phrase

def tokens {n : ℕ} : Phrase n → List Str
  | operand t _ => [t]
  | paren e => ['('] :: (e.tokens ++ [[')']])
  | one p => p.tokens
  | more p op _ rest => p.tokens ++ op.text :: rest.tokens

def Integers {n : ℕ} : Phrase n → Prop
  | operand t _ => isInteger t
  | paren e => e.Integers
  | one p => p.Integers
  | more p _ _ rest => p.Integers ∧ rest.Integers

def join {α : Type} (apply : BinOp → α → α → Option α) (pend : Option (α × BinOp)) (y : α) : Option α :=
  match pend with
  | none => some y
  | some (x, op) => apply op x y

/-- The value of a phrase, with the value and the operator on its left. -/
def evalFrom {α : Type} (leaf : Str → α) (apply : BinOp → α → α → Option α) {n : ℕ} :
    Option (α × BinOp) → Phrase n → Option α
  | pend, operand t _ => join apply pend (leaf t)
  | pend, paren e => do join apply pend (← e.evalFrom leaf apply none)
  | pend, one p => do join apply pend (← p.evalFrom leaf apply none)
  | pend, more p op _ rest => do
    let x ← join apply pend (← p.evalFrom leaf apply none)
    rest.evalFrom leaf apply (some (x, op))

end Phrase

/-- The operators on integers. Only division by zero has no value. -/
def BinOp.value (op : BinOp) (m n : ℤ) : Option ℤ :=
  match op with
  | .mul => some (m * n)
  | .div => if n = 0 then none else some (m.tdiv n)
  | .rem => if n = 0 then none else some (m.tmod n)
  | .add => some (m + n)
  | .sub => some (m - n)
  | .comp op => some (if op.Holds m n then 1 else 0)
  | .and => some (if m = 0 ∨ n = 0 then 0 else m)
  | .or => some (if m = 0 then n else m)

def Phrase.value (e : Phrase 5) : Option ℤ := e.evalFrom intValue BinOp.value none

def Ends (n : ℕ) (rest : List Str) : Prop := ∀ op : BinOp, op.level ≤ n → rest.head? ≠ some op.text

section
variable {n m : ℕ} {t : Str} {op op' : BinOp} {rest rest' ts us : List Str}

theorem opOf_text (op : BinOp) : opOf (mulOps ++ addOps ++ compOps ++ andOrOps) (some op.text) = some op := by
  rcases op with _ | _ | _ | _ | _ | op | _ | _
  case comp => cases op <;> rfl
  all_goals rfl

theorem text_inj (h : op.text = op'.text) : op = op' := by
  have heq := opOf_text op
  rw [h, opOf_text] at heq
  exact (Option.some.inj heq).symm

theorem Ends.mono (h : Ends n rest) (hle : m ≤ n) : Ends m rest := fun op hop => h op (hop.trans hle)

theorem ends_nil (n : ℕ) : Ends n [] := fun _ _ h => by simp at h

theorem ends_cons : Ends n (t :: rest) ↔ ∀ op : BinOp, op.level ≤ n → t ≠ op.text := by simp [Ends]

theorem ends_op (hop : n < op.level) (rest : List Str) : Ends n (op.text :: rest) := by
  intro op' hle heq
  obtain rfl := text_inj (Option.some.inj heq)
  omega

theorem ends_close (n : ℕ) (rest : List Str) : Ends n ([')'] :: rest) := by
  refine ends_cons.mpr fun op _ heq => ?_
  have hop := opOf_text op
  rw [← heq] at hop
  exact absurd hop (by simp [opOf, eq, mulOps, addOps, compOps, andOrOps, BinOp.text, CompOp.text])

/-- A phrase is read from the arguments in one way only. -/
theorem Phrase.tokens_append_inj {p q : Phrase n} (hrest : Ends n rest) (hrest' : Ends n rest')
    (h : p.tokens ++ rest = q.tokens ++ rest') : p = q ∧ rest = rest' := by
  induction p generalizing rest rest' with
  | operand t ht =>
    cases q with
    | operand u hu =>
      obtain ⟨rfl, rfl⟩ := List.cons.inj h
      exact ⟨rfl, rfl⟩
    | paren e =>
      obtain ⟨rfl, -⟩ := List.cons.inj h
      exact absurd (by decide) ht
  | paren e ih =>
    cases q with
    | operand u hu =>
      obtain ⟨rfl, -⟩ := List.cons.inj h
      exact absurd (by decide) hu
    | paren f =>
      simp only [tokens, List.cons_append, List.append_assoc, List.nil_append, List.cons.injEq, true_and] at h
      obtain ⟨rfl, heq⟩ := ih (ends_close 5 _) (ends_close 5 _) h
      exact ⟨rfl, (List.cons.inj heq).2⟩
  | @one n p ih =>
    cases q with
    | one q =>
      obtain ⟨rfl, heq⟩ := ih (hrest.mono n.le_succ) (hrest'.mono n.le_succ) h
      exact ⟨rfl, heq⟩
    | more q op hop us =>
      simp only [tokens, List.append_assoc, List.cons_append] at h
      obtain ⟨-, rfl⟩ := ih (hrest.mono n.le_succ) (ends_op (by omega) _) h
      exact absurd rfl (hrest op hop.le)
  | @more n p op hop ts ihp ihts =>
    cases q with
    | one q =>
      simp only [tokens, List.append_assoc, List.cons_append] at h
      obtain ⟨-, rfl⟩ := ihp (ends_op (by omega) _) (hrest'.mono n.le_succ) h
      exact absurd rfl (hrest' op hop.le)
    | more q op' hop' us =>
      simp only [tokens, List.append_assoc, List.cons_append] at h
      obtain ⟨rfl, heq⟩ := ihp (ends_op (by omega) _) (ends_op (by omega) _) h
      obtain ⟨htext, htail⟩ := List.cons.inj heq
      obtain rfl := text_inj htext
      obtain ⟨rfl, rfl⟩ := ihts hrest hrest' htail
      exact ⟨rfl, rfl⟩

theorem Phrase.tokens_inj {p q : Phrase n} (h : p.tokens = q.tokens) : p = q :=
  (tokens_append_inj (ends_nil n) (ends_nil n) (by rw [h])).1

end

end SomeOs.Expr

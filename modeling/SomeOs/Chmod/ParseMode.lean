import SomeOs.Base.MaskUpdate

/-! # The modes of chmod

A mode is a number or a list of clauses that are separated by commas. A clause names classes, an operator
and permissions. All clauses are put together into one pair of masks.
-/
namespace SomeOs.Chmod
open MaskUpdate

/-- `mode_t` -/
abbrev Mode := BitVec 32

/-- `S_ISUID` -/
abbrev sIsuid : Mode := 0o4000

/-- `S_ISGID` -/
abbrev sIsgid : Mode := 0o2000

/-- `S_ISVTX` -/
abbrev sIsvtx : Mode := 0o1000

/-- The mode that `chmodPath` gives to a file. -/
def chmodPath (st_mode : Mode) (masks : Masks 32) : Mode := (st_mode &&& ~~~masks.clear) ||| masks.set

def isClass (c : Char) : Bool := c == 'u' || c == 'g' || c == 'o' || c == 'a'

def isOperator (c : Char) : Bool := c == '-' || c == '+' || c == '='

def isPermission (c : Char) : Bool := c == 'r' || c == 'w' || c == 'x' || c == 's' || c == 't'

def permissionBit (c : Char) : Mode :=
  if c = 'r' then 0b100
  else if c = 'w' then 0b010
  else if c = 'x' then 0b001
  else if c = 's' then 0b1000
  else if c = 't' then 0b10000
  else 0

def permissionValue (permissions : List Char) : Mode := permissions.foldl (fun value c => value ||| permissionBit c) 0

/-- What `=` clears for a class. -/
def classMask (c : Char) : Mode :=
  if c = 'u' then (0b111 <<< 6) ||| sIsuid
  else if c = 'g' then (0b111 <<< 3) ||| sIsgid
  else if c = 'o' then 0b111 ||| sIsvtx
  else if c = 'a' then 0b111111111 ||| sIsuid ||| sIsgid ||| sIsvtx
  else 0

/-- The bits of a class for a permission value. -/
def classBits (c : Char) (value : Mode) : Mode :=
  let setId := (value &&& 0b1000) ≠ 0
  let sticky := (value &&& 0b10000) ≠ 0
  if c = 'u' then (value &&& 0b111) <<< 6 ||| (if setId then sIsuid else 0)
  else if c = 'g' then (value &&& 0b111) <<< 3 ||| (if setId then sIsgid else 0)
  else if c = 'o' then (value &&& 0b111) ||| (if sticky then sIsvtx else 0)
  else if c = 'a' then
    (value &&& 0b111) <<< 6 ||| (value &&& 0b111) <<< 3 ||| (value &&& 0b111) |||
      (if setId then sIsuid ||| sIsgid else 0) ||| (if sticky then sIsvtx else 0)
  else 0

def parseClass (op : Char) (value : Mode) (masks : Masks 32) (c : Char) : Masks 32 :=
  let masks := if op = '=' then { masks with clear := masks.clear ||| classMask c } else masks
  if op = '-' then { masks with clear := masks.clear ||| classBits c value }
  else { masks with set := masks.set ||| classBits c value }

def parseNumber (digits : List Char) : Option Mode :=
  digits.foldlM (fun value c => if '0' ≤ c ∧ c ≤ '9' then some (8 * value + BitVec.ofNat 32 (c.toNat - '0'.toNat)) else none) 0

/-- `parseMode`, which ends the program without a result. -/
def parseMode (mode : List Char) (masks : Masks 32) : Option (Masks 32) :=
  if mode.head?.any isClass then
    match _hop : mode.dropWhile isClass with
    | [] => none
    | op :: permissions =>
      if isOperator op then
        let value := permissionValue (permissions.takeWhile isPermission)
        let masks := (mode.takeWhile isClass).foldl (parseClass op value) masks
        match _hrest : permissions.dropWhile isPermission with
        | [] => some masks
        | c :: rest => if c = ',' then parseMode rest masks else none
      else none
  else
    match mode with
    | '+' :: digits => (parseNumber digits).map fun value => ⟨0, value⟩
    | '-' :: digits => (parseNumber digits).map fun value => ⟨value, 0⟩
    | '=' :: digits => (parseNumber digits).map fun value => ⟨~~~0, value⟩
    | digits => (parseNumber digits).map fun value => ⟨~~~0, value⟩
termination_by mode.length
decreasing_by
  have hop := congrArg List.length _hop
  have hrest := congrArg List.length _hrest
  have hle := (List.dropWhile_suffix isClass (l := mode)).length_le
  have hle' := (List.dropWhile_suffix isPermission (l := permissions)).length_le
  simp only [List.length_cons] at hop hrest
  omega

end SomeOs.Chmod

/-! # Symbolic clauses in sequence

The meaning of a list of clauses is to apply them from left to right. The masks agree with it as long
as no permission that was granted is taken away for good.
-/
namespace SomeOs.Chmod
open MaskUpdate Masks

inductive UserClass where
  | user
  | group
  | other
  | all
  deriving DecidableEq

inductive Operator where
  | plus
  | minus
  | equals
  deriving DecidableEq

inductive Permission where
  | read
  | write
  | execute
  | setId
  | sticky
  deriving DecidableEq

def UserClass.letter : UserClass → Char
  | user => 'u'
  | group => 'g'
  | other => 'o'
  | all => 'a'

def Operator.letter : Operator → Char
  | plus => '+'
  | minus => '-'
  | equals => '='

def Permission.letter : Permission → Char
  | read => 'r'
  | write => 'w'
  | execute => 'x'
  | setId => 's'
  | sticky => 't'

/-- The bits of a permission for a class. -/
def UserClass.bits : UserClass → Permission → Mode
  | user, .read => 0o400
  | user, .write => 0o200
  | user, .execute => 0o100
  | user, .setId => 0o4000
  | user, .sticky => 0
  | group, .read => 0o040
  | group, .write => 0o020
  | group, .execute => 0o010
  | group, .setId => 0o2000
  | group, .sticky => 0
  | other, .read => 0o004
  | other, .write => 0o002
  | other, .execute => 0o001
  | other, .setId => 0
  | other, .sticky => 0o1000
  | all, .read => 0o444
  | all, .write => 0o222
  | all, .execute => 0o111
  | all, .setId => 0o6000
  | all, .sticky => 0o1000

def UserClass.scope : UserClass → Mode
  | user => 0o4700
  | group => 0o2070
  | other => 0o1007
  | all => 0o7777

structure Clause where
  classes : List UserClass
  operator : Operator
  permissions : List Permission
  nonempty : classes ≠ []

def union {α : Type*} (bits : α → Mode) (l : List α) : Mode := l.foldl (fun m a => m ||| bits a) 0

namespace Clause

def text (c : Clause) : List Char :=
  c.classes.map UserClass.letter ++ c.operator.letter :: c.permissions.map Permission.letter

def named (c : Clause) : Mode := union (fun k => union k.bits c.permissions) c.classes

def scope (c : Clause) : Mode := union UserClass.scope c.classes

def apply (m : Mode) (c : Clause) : Mode :=
  match c.operator with
  | .plus => m ||| c.named
  | .minus => m &&& ~~~c.named
  | .equals => (m &&& ~~~c.scope) ||| c.named

/-- The clause gives the permission of bit `i`. -/
def Grants (c : Clause) (i : ℕ) : Prop := c.operator ≠ .minus ∧ c.named.getLsbD i = true

/-- The clause takes the permission of bit `i` away, by removing it or by replacing all of the class. -/
def Takes (c : Clause) (i : ℕ) : Prop :=
  match c.operator with
  | .plus => False
  | .minus => c.named.getLsbD i = true
  | .equals => c.scope.getLsbD i = true ∧ c.named.getLsbD i = false

def masks (c : Clause) : Masks 32 :=
  match c.operator with
  | .plus => ⟨0, c.named⟩
  | .minus => ⟨c.named, 0⟩
  | .equals => ⟨c.scope, c.named⟩

end Clause

def modeText (cs : List Clause) : List Char := List.intercalate [','] (cs.map Clause.text)

section Text
variable {k : UserClass} {p : Permission} {c : Clause} {u : Masks 32}

theorem isClass_letter : isClass k.letter = true := by cases k <;> rfl

theorem isOperator_letter (o : Operator) : isOperator o.letter = true ∧ isClass o.letter = false := by
  cases o <;> decide

theorem isPermission_letter : isPermission p.letter = true := by cases p <;> rfl

theorem classMask_letter : classMask k.letter = k.scope := by cases k <;> decide

theorem foldl_union {α : Type*} {bits : α → Mode} (m : Mode) (l : List α) :
    l.foldl (fun m a => m ||| bits a) m = m ||| union bits l := by
  unfold union
  induction l generalizing m with
  | nil => simp
  | cons a l ih =>
    rw [List.foldl_cons, List.foldl_cons, ih (m ||| bits a), ih (0 ||| bits a), BitVec.ofNat_eq_ofNat, BitVec.zero_or,
      BitVec.or_assoc]

theorem union_cons {α : Type*} {bits : α → Mode} {a : α} {l : List α} : union bits (a :: l) = bits a ||| union bits l := by
  rw [union, List.foldl_cons, foldl_union, BitVec.ofNat_eq_ofNat, BitVec.zero_or]

theorem classBits_or (k : UserClass) (p : Permission) : ∀ n : Fin 32,
    classBits k.letter (permissionBit p.letter ||| BitVec.ofNat 32 n) = k.bits p ||| classBits k.letter (BitVec.ofNat 32 n) := by
  cases k <;> cases p <;> decide

theorem permissionBit_or (p : Permission) : ∀ n : Fin 32,
    ∃ m : Fin 32, permissionBit p.letter ||| BitVec.ofNat 32 n = BitVec.ofNat 32 m := by
  cases p <;> decide

theorem permissionValue_cons {ch : Char} {l : List Char} :
    permissionValue (ch :: l) = permissionBit ch ||| permissionValue l := union_cons

theorem classBits_permissions (k : UserClass) (permissions : List Permission) :
    classBits k.letter (permissionValue (permissions.map Permission.letter)) = union k.bits permissions := by
  have hsmall : ∀ l : List Permission, ∃ n : Fin 32, permissionValue (l.map Permission.letter) = BitVec.ofNat 32 n := by
    intro l
    induction l with
    | nil => exact ⟨0, rfl⟩
    | cons p l ih =>
      obtain ⟨n, hn⟩ := ih
      rw [List.map_cons, permissionValue_cons, hn]
      exact permissionBit_or p n
  induction permissions with
  | nil => cases k <;> rfl
  | cons p l ih =>
    obtain ⟨n, hn⟩ := hsmall l
    rw [hn] at ih
    rw [List.map_cons, permissionValue_cons, hn, classBits_or, ih, union_cons]

theorem parseClass_letter (operator : Operator) (permissions : List Permission) (u : Masks 32) (k : UserClass) :
    parseClass operator.letter (permissionValue (permissions.map Permission.letter)) u k.letter =
      u.merge (Clause.masks ⟨[k], operator, permissions, by simp⟩) := by
  have hnamed : Clause.named ⟨[k], operator, permissions, by simp⟩ = union k.bits permissions := by
    rw [Clause.named, union_cons]
    simp [union]
  have hscope : Clause.scope ⟨[k], operator, permissions, by simp⟩ = k.scope := by
    rw [Clause.scope, union_cons]
    simp [union]
  unfold parseClass Clause.masks merge
  rw [classBits_permissions, classMask_letter, hnamed, hscope]
  cases operator <;> simp [Operator.letter]

theorem masks_cons {k : UserClass} {classes : List UserClass} {operator : Operator} {permissions : List Permission}
    (h : classes ≠ []) : Clause.masks ⟨k :: classes, operator, permissions, by simp⟩ =
      (Clause.masks ⟨[k], operator, permissions, by simp⟩).merge (Clause.masks ⟨classes, operator, permissions, h⟩) := by
  unfold Clause.masks merge Clause.named Clause.scope
  simp only [union_cons]
  cases operator <;> simp [union]

theorem merge_assoc (u v w : Masks 32) : (u.merge v).merge w = u.merge (v.merge w) := by
  simp [merge, BitVec.or_assoc]

theorem foldl_parseClass (c : Clause) (u : Masks 32) : (c.classes.map UserClass.letter).foldl
    (parseClass c.operator.letter (permissionValue (c.permissions.map Permission.letter))) u = u.merge c.masks := by
  obtain ⟨classes, operator, permissions, hne⟩ := c
  dsimp only
  induction classes generalizing u with
  | nil => exact absurd rfl hne
  | cons k classes ih =>
    rw [List.map_cons, List.foldl_cons, parseClass_letter]
    by_cases hnil : classes = []
    · subst hnil
      rfl
    · rw [ih _ hnil, masks_cons hnil, merge_assoc]

theorem parseMode_symbolic {mode permissions : List Char} {op : Char} (hhead : mode.head?.any isClass = true)
    (hdrop : mode.dropWhile isClass = op :: permissions) (hop : isOperator op = true) : parseMode mode u =
      let masks := (mode.takeWhile isClass).foldl (parseClass op (permissionValue (permissions.takeWhile isPermission))) u
      match permissions.dropWhile isPermission with
      | [] => some masks
      | c :: rest => if c = ',' then parseMode rest masks else none := by
  rw [parseMode.eq_def, if_pos hhead]
  split
  · next h =>
    rw [h] at hdrop
    cases hdrop
  · next op' permissions' h =>
    rw [h] at hdrop
    cases hdrop
    rw [if_pos hop]
    dsimp only
    split
    · next h => rw [h]
    · next h => rw [h]

/-- A clause is read and its masks are added. -/
theorem parseMode_clause (c : Clause) (u : Masks 32) (tail : List Char) (htail : tail.head?.any isPermission = false) :
    parseMode (c.text ++ tail) u = match tail with
      | [] => some (u.merge c.masks)
      | a :: rest => if a = ',' then parseMode rest (u.merge c.masks) else none := by
  obtain ⟨hop, hopclass⟩ := isOperator_letter c.operator
  have hclasses : ∀ a ∈ c.classes.map UserClass.letter, isClass a = true := by
    simp [isClass_letter]
  have hpermissions : ∀ a ∈ c.permissions.map Permission.letter, isPermission a = true := by
    simp [isPermission_letter]
  have hhead : (c.text ++ tail).head?.any isClass = true := by
    obtain ⟨k, ks, hks⟩ := List.exists_cons_of_ne_nil c.nonempty
    simp [Clause.text, hks, isClass_letter]
  have htake : (c.text ++ tail).takeWhile isClass = c.classes.map UserClass.letter := by
    rw [Clause.text, List.append_assoc, List.takeWhile_append_of_pos hclasses, List.cons_append, List.takeWhile_cons,
      hopclass]
    simp
  have hdrop : (c.text ++ tail).dropWhile isClass =
      c.operator.letter :: (c.permissions.map Permission.letter ++ tail) := by
    rw [Clause.text, List.append_assoc, List.dropWhile_append_of_pos hclasses, List.cons_append, List.dropWhile_cons,
      hopclass]
    simp
  have hend : (c.permissions.map Permission.letter ++ tail).takeWhile isPermission = c.permissions.map Permission.letter ∧
      (c.permissions.map Permission.letter ++ tail).dropWhile isPermission = tail := by
    rw [List.takeWhile_append_of_pos hpermissions, List.dropWhile_append_of_pos hpermissions]
    cases tail with
    | nil => simp
    | cons a tail =>
      have ha : isPermission a = false := by simpa using htail
      simp [ha]
  rw [parseMode_symbolic hhead hdrop hop, htake, hend.1, hend.2, foldl_parseClass]
  cases tail <;> rfl

theorem parseMode_modeText (c : Clause) (cs : List Clause) (u : Masks 32) :
    parseMode (modeText (c :: cs)) u = some (((c :: cs).map Clause.masks).foldl merge u) := by
  induction cs generalizing c u with
  | nil =>
    have h := parseMode_clause c u [] rfl
    rw [List.append_nil] at h
    simpa [modeText, List.intercalate] using h
  | cons d cs ih =>
    have htext : modeText (c :: d :: cs) = c.text ++ ',' :: modeText (d :: cs) := by
      simp [modeText, List.intercalate]
    rw [htext, parseMode_clause c u (',' :: modeText (d :: cs)) rfl]
    exact ih d _

end Text

section Sequence
variable {c : Clause} {i : ℕ} {m : Mode}

theorem apply_masks (m : Mode) (c : Clause) : Masks.apply m c.masks = c.apply m := by
  have hall : m &&& ~~~(0 : Mode) = m := BitVec.and_allOnes
  unfold Masks.apply Clause.masks Clause.apply
  cases c.operator with
  | plus => simp only [hall]
  | minus => simp
  | equals => rfl

theorem sets_masks : c.masks.Sets i ↔ c.Grants i := by
  unfold Masks.Sets Clause.masks Clause.Grants
  cases c.operator <;> simp

theorem takes_masks : c.masks.Takes i ↔ c.Takes i := by
  unfold Masks.Takes Clause.masks Clause.Takes
  cases c.operator <;> simp

/-- The masks of a list of clauses give every file the mode that the clauses give it from left to right, if every
permission that one of them grants is granted by one that no later clause takes back. -/
theorem chmodPath_sequence (c : Clause) (cs : List Clause) (st_mode : Mode) :
    (parseMode (modeText (c :: cs)) ⟨0, 0⟩).map (chmodPath st_mode) = some ((c :: cs).foldl Clause.apply st_mode) ↔
      ∀ i < 32, (∃ d ∈ c :: cs, d.Grants i) →
        ∃ before d after, c :: cs = before ++ d :: after ∧ d.Grants i ∧ ∀ e ∈ after, ¬e.Takes i := by
  have hfold : (c :: cs).foldl Clause.apply st_mode = ((c :: cs).map Clause.masks).foldl Masks.apply st_mode := by
    rw [List.foldl_map]
    simp only [apply_masks]
  rw [parseMode_modeText, Option.map_some, Option.some_inj, hfold]
  refine apply_foldl_merge.trans (forall₂_congr fun i _ => imp_congr (by simp [sets_masks]) ⟨?_, ?_⟩)
  · rintro ⟨before, u, after, heq, hset, hafter⟩
    obtain ⟨before, tail, hsplit, rfl, htail⟩ := List.map_eq_append_iff.mp heq
    obtain ⟨d, after, rfl, rfl, rfl⟩ := List.map_eq_cons_iff.mp htail
    exact ⟨before, d, after, hsplit, sets_masks.mp hset, fun e he =>
      mt takes_masks.mpr (hafter _ (List.mem_map_of_mem he))⟩
  · rintro ⟨before, d, after, heq, hset, hafter⟩
    refine ⟨before.map Clause.masks, d.masks, after.map Clause.masks, by rw [heq]; simp, sets_masks.mpr hset, ?_⟩
    simpa [takes_masks] using hafter

/-- The permission that the first clause grants stays although the second one removes it. -/
theorem chmodPath_plus_minus : (parseMode "u+r,u-r".toList ⟨0, 0⟩).map (chmodPath 0) ≠
    some ([(⟨[.user], .plus, [.read], by simp⟩ : Clause), ⟨[.user], .minus, [.read], by simp⟩].foldl Clause.apply 0) := by
  have htext : "u+r,u-r".toList = modeText [⟨[.user], .plus, [.read], by simp⟩, ⟨[.user], .minus, [.read], by simp⟩] := by
    decide
  rw [htext, parseMode_modeText]
  decide

end Sequence

end SomeOs.Chmod

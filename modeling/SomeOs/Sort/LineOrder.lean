import SomeOs.Sort.CompareLines

/-! # The order of lines

Each step of a comparison is an order by a value of the two strings, and a comparison is made of its steps one after
the other. It is such an order as long as no number is read as a human does and no skipping leaves a string.
-/
namespace SomeOs.Sort
open Std (TransCmp OrientedCmp)

theorem length_skipIgnored_le (args : Options) (t : Text) : (skipIgnored args t).length ≤ t.length := by
  unfold skipIgnored
  split_ifs
  · exact ((List.dropWhile_suffix _).length_le).trans (List.dropWhile_suffix _).length_le
  · exact (List.dropWhile_suffix _).length_le
  · exact (List.dropWhile_suffix _).length_le
  · exact le_rfl

/-- The characters of a string that are compared. -/
def compared (args : Options) (t : Text) : List UInt8 :=
  match _h : skipIgnored args t with
  | [] => []
  | c :: rest => fold args c :: compared args rest
termination_by t.length
decreasing_by
  have hlen := length_skipIgnored_le args t
  rw [_h, List.length_cons] at hlen
  omega

/-- Skipping never leaves the string, as its last character is compared. -/
inductive Ends (args : Options) : Text → Prop where
  | nil : Ends args []
  | cons {t rest : Text} {c : UInt8} : skipIgnored args t = c :: rest → Ends args rest → Ends args t

def decided (args : Options) (unique : Bool) : Bool := unique && (args.human_numeric || args.numeric)

def Scanned (args : Options) (unique : Bool) (t : Text) : Prop :=
  (args.human_numeric = true → isdigit (first (skipBlanks args t)) = false) ∧
    (decided args unique = true ∨ Ends args (skipBlanks args t))

def LineScanned (args : Arguments) (unique : Bool) (line : Text) : Prop :=
  match args.key with
  | some keys =>
    (∀ key ∈ keys.splitOn 44, ∀ field local_args, readKey args.toOptions key = some (field, local_args) →
      Scanned local_args true (readLineField line field)) ∧ (unique = true ∨ Scanned args.toOptions false line)
  | none => Scanned args.toOptions unique line

section
variable (values : Values) (args : Options) (unique : Bool)

def orderByHash : Text → Text → Ordering :=
  compareOn fun t => if args.random then (hashString values t).toInt else 0

def orderByNumber : Text → Text → Ordering :=
  compareOn fun t => if args.numeric && !(unique && args.human_numeric) then atoll (skipBlanks args t) else 0

def orderByText : Text → Text → Ordering :=
  compareOn fun t => if decided args unique then [] else compared args (skipBlanks args t)

def forward : Text → Text → Ordering :=
  compareLex (orderByHash values args) (compareLex (orderByNumber args unique) (orderByText args unique))

def stringOrder : Text → Text → Ordering :=
  if args.reverse then fun a b => forward values args unique b a else forward values args unique

def keyOrder : List (ℕ × Options) → Text → Text → Ordering
  | [] => if unique then compareOn fun _ => (0 : ℤ) else stringOrder values args unique
  | (field, local_args) :: keys => compareLex
      (fun a b => stringOrder values local_args true (readLineField a field) (readLineField b field)) (keyOrder keys)

end

variable {values : Values} {args : Options} {unique : Bool} {a b t : Text} {fuel : ℕ}

instance : TransCmp (forward values args unique) :=
  inferInstanceAs (TransCmp (compareLex (compareOn _) (compareLex (compareOn _) (compareOn _))))

instance : TransCmp (stringOrder values args unique) := by
  unfold stringOrder
  split_ifs <;> infer_instance

theorem transCmp_field {cmp : Text → Text → Ordering} [TransCmp cmp] (f : Text → Text) :
    TransCmp fun a b => cmp (f a) (f b) where
  eq_swap := @fun a b => @OrientedCmp.eq_swap _ cmp _ (f a) (f b)
  isLE_trans := @fun a b c => @TransCmp.isLE_trans _ cmp _ (f a) (f b) (f c)

instance transCmp_keyOrder : ∀ keys, TransCmp (keyOrder values args unique keys)
  | [] => by
    unfold keyOrder
    split_ifs <;> infer_instance
  | (field, local_args) :: keys => by
    have := @transCmp_field (stringOrder values local_args true) inferInstance (fun t => readLineField t field)
    have := transCmp_keyOrder keys
    unfold keyOrder
    infer_instance

def toInt : Ordering → ℤ
  | .lt => -1
  | .eq => 0
  | .gt => 1

theorem skipIgnored_nil (args : Options) : skipIgnored args [] = [] := by
  unfold skipIgnored
  split_ifs <;> rfl

theorem skipIgnored_suffix (args : Options) (t : Text) : skipIgnored args t <:+ t := by
  unfold skipIgnored
  split_ifs
  · exact (List.dropWhile_suffix _).trans (List.dropWhile_suffix _)
  · exact List.dropWhile_suffix _
  · exact List.dropWhile_suffix _
  · exact List.suffix_rfl

theorem compared_nil (args : Options) : compared args [] = [] := by
  rw [compared]
  split
  · rfl
  · rw [skipIgnored_nil] at *
    contradiction

theorem compared_cons {rest : Text} {c : UInt8} (h : skipIgnored args t = c :: rest) :
    compared args t = fold args c :: compared args rest := by
  rw [compared]
  split
  · simp_all
  · simp_all

theorem fold_pos {c : UInt8} (h : c ≠ 0) : 0 < fold args c := by
  have hc : c.toNat ≠ 0 := fun hzero => h (UInt8.toNat_inj.mp hzero)
  rw [UInt8.lt_iff_toNat_lt, UInt8.toNat_zero]
  unfold fold
  split_ifs with hlower
  · simp only [Bool.and_eq_true, decide_eq_true_eq, UInt8.le_iff_toNat_le] at hlower
    have h97 : UInt8.toNat 97 = 97 := rfl
    have h32 : UInt8.toNat 32 = 32 := rfl
    rw [UInt8.toNat_sub_of_le _ _ (by rw [UInt8.le_iff_toNat_le]; omega)]
    omega
  · omega

theorem fold_zero : fold args 0 = 0 := by
  simp [fold]

/-- Two strings that are scanned to their ends are compared by the characters that are not ignored. -/
theorem compareChars_eq (ha : Ends args a) (hb : Ends args b) (ha0 : (0 : UInt8) ∉ a) (hb0 : (0 : UInt8) ∉ b)
    (hfuel : a.length < fuel) :
    compareChars args fuel a b = some (toInt (compare (compared args a) (compared args b))) := by
  induction ha generalizing b fuel with
  | nil =>
    obtain ⟨fuel, rfl⟩ := Nat.exists_eq_add_one.mpr (Nat.zero_lt_of_lt hfuel)
    cases hb with
    | nil => simp [compareChars, compared_nil, toInt]
    | @cons _ rest c hskip hrest =>
      have hc : c ≠ 0 := fun h => hb0 ((skipIgnored_suffix args b).subset (by simp [hskip, h]))
      have hne : b ≠ [] := fun h => by simp [h, skipIgnored_nil] at hskip
      simp [compareChars, hne, skipIgnored_nil, hskip, first, fold_zero, fold_pos hc, compared_nil, compared_cons hskip,
        toInt]
  | @cons a rest c hskip hrest ih =>
    obtain ⟨fuel, rfl⟩ := Nat.exists_eq_add_one.mpr (Nat.zero_lt_of_lt hfuel)
    have hsub := skipIgnored_suffix args a
    have hc : c ≠ 0 := fun h => ha0 (hsub.subset (by simp [hskip, h]))
    have hne : a ≠ [] := fun h => by simp [h, skipIgnored_nil] at hskip
    have hlen := hsub.length_le
    rw [hskip, List.length_cons] at hlen
    cases hb with
    | nil =>
      have hpos : 0 < fold args c := fold_pos hc
      simp [compareChars, hne, skipIgnored_nil, hskip, first, fold_zero, hpos, compared_nil, compared_cons hskip, toInt]
    | @cons _ rest' c' hskip' hrest' =>
      have hrec := ih hrest' (fun h => ha0 (hsub.subset (by simp [hskip, h])))
        (fun h => hb0 ((skipIgnored_suffix args b).subset (by simp [hskip', h]))) (show rest.length < fuel by omega)
      rw [compared_cons hskip, compared_cons hskip', List.compare_cons_cons]
      rcases Std.lt_trichotomy (fold args c) (fold args c') with hlt | heq | hgt
      · simp [compareChars, hne, hskip, hskip', first, hlt, Std.compare_eq_lt.mpr hlt, toInt]
      · simp [compareChars, hne, hskip, hskip', first, heq, hrec]
      · simp [compareChars, hne, hskip, hskip', first, hgt, Std.le_of_lt hgt, Std.compare_eq_gt.mpr hgt, toInt]

theorem compareChars_self (h : ¬Ends args t) : compareChars args fuel t t = none := by
  induction fuel generalizing t with
  | zero => rfl
  | succ fuel ih =>
    have hne : t ≠ [] := fun hnil => h (hnil ▸ .nil)
    cases hskip : skipIgnored args t with
    | nil => simp [compareChars, hne, hskip]
    | cons c rest => simp [compareChars, hne, hskip, ih fun hrest => h (.cons hskip hrest)]

theorem compareValues_eq {next : Option ℤ} {o : Ordering} (h : next = some (toInt o)) (x y : ℤ) :
    compareValues x y false next = some (toInt ((compare x y).then o)) := by
  unfold compareValues
  rcases Int.lt_trichotomy x y with hlt | rfl | hgt
  · simp [hlt, Int.compare_eq_lt.mpr hlt, toInt]
  · simp [h]
  · simp [hgt, hgt.not_gt, Int.compare_eq_gt.mpr hgt, toInt]

theorem compareValues_unique (x y : ℤ) (next : Option ℤ) :
    compareValues x y true next = some (toInt (compare x y)) := by
  unfold compareValues
  rcases Int.lt_trichotomy x y with hlt | rfl | hgt
  · simp [hlt, Int.compare_eq_lt.mpr hlt, toInt]
  · simp [toInt]
  · simp [hgt, hgt.not_gt, Int.compare_eq_gt.mpr hgt, toInt]

theorem compareValues_self (x : ℤ) (next : Option ℤ) : compareValues x x false next = next := by
  simp [compareValues]

theorem readDigits_none (h : isdigit (first t) = true) (val : ℤ) : readDigits fuel t val = none := by
  induction fuel generalizing val with
  | zero => rfl
  | succ fuel ih => rw [readDigits, if_pos h, ih]

theorem readHuman_eq (h : isdigit (first t) = false) : readHuman (fuel + 1) t = some 0 := by
  simp [readHuman, readDigits, h]

theorem skipBlanks_suffix (args : Options) (t : Text) : skipBlanks args t <:+ t := by
  unfold skipBlanks
  split_ifs
  · exact List.dropWhile_suffix _
  · exact List.suffix_rfl

theorem orderByText_decided (h : decided args unique = true) : orderByText args unique a b = .eq := by
  simp [orderByText, compareOn, h]

theorem orderByText_eq (ha : Ends args (skipBlanks args a)) (hb : Ends args (skipBlanks args b))
    (ha0 : (0 : UInt8) ∉ a) (hb0 : (0 : UInt8) ∉ b) (hfuel : a.length < fuel) (h : decided args unique = false) :
    compareChars args fuel (skipBlanks args a) (skipBlanks args b) = some (toInt (orderByText args unique a b)) := by
  have hasub := skipBlanks_suffix args a
  have hbsub := skipBlanks_suffix args b
  rw [compareChars_eq ha hb (fun h => ha0 (hasub.subset h)) (fun h => hb0 (hbsub.subset h))
    (lt_of_le_of_lt hasub.length_le hfuel)]
  simp [orderByText, compareOn, h]

theorem compareNumbers_eq {strings : Option ℤ} (hstrings : decided args unique = false →
      strings = some (toInt (orderByText args unique a b))) (hhuman : (unique && args.human_numeric) = false) :
    compareNumbers (skipBlanks args a) (skipBlanks args b) args unique strings =
      some (toInt ((orderByNumber args unique a b).then (orderByText args unique a b))) := by
  unfold compareNumbers
  by_cases hnumeric : args.numeric = true
  · have hnumber : orderByNumber args unique a b = compare (atoll (skipBlanks args a)) (atoll (skipBlanks args b)) := by
      simp [orderByNumber, compareOn, hnumeric, hhuman]
    rw [if_pos hnumeric, hnumber]
    cases unique with
    | false => exact compareValues_eq (hstrings (by simp [decided])) _ _
    | true => rw [compareValues_unique, orderByText_decided (by simp [decided, hnumeric]), Ordering.then_eq]
  · have hnumber : orderByNumber args unique a b = .eq := by
      simp [orderByNumber, compareOn, hnumeric]
    have hdecided : decided args unique = false := by
      rw [← hhuman]
      simp [decided, hnumeric]
    rw [if_neg hnumeric, hnumber, Ordering.eq_then, hstrings hdecided]

theorem compareHumans_eq {numbers : Option ℤ} (ha : args.human_numeric = true → isdigit (first a) = false)
    (hb : args.human_numeric = true → isdigit (first b) = false) {o : Ordering}
    (hnumbers : (unique && args.human_numeric) = false → numbers = some (toInt o))
    (ho : (unique && args.human_numeric) = true → o = .eq) (fuel : ℕ) :
    compareHumans (fuel + 1) a b args unique numbers = some (toInt o) := by
  unfold compareHumans
  by_cases hhuman : args.human_numeric = true
  · rw [if_pos hhuman, readHuman_eq (ha hhuman), readHuman_eq (hb hhuman)]
    cases unique with
    | false => exact (compareValues_self 0 numbers).trans (hnumbers rfl)
    | true =>
      rw [ho hhuman]
      rfl
  · rw [if_neg hhuman, hnumbers (by simp [hhuman])]

theorem compareForward_eq (hg : args.general_numeric = false) (ha : Scanned args unique a) (hb : Scanned args unique b)
    (ha0 : (0 : UInt8) ∉ a) (hb0 : (0 : UInt8) ∉ b) (hfuel : a.length < fuel) :
    compareForward values fuel a b args unique = some (toInt (forward values args unique a b)) := by
  obtain ⟨fuel, rfl⟩ := Nat.exists_eq_add_one.mpr (Nat.zero_lt_of_lt hfuel)
  have hstrings : decided args unique = false →
      compareChars args (fuel + 1) (skipBlanks args a) (skipBlanks args b) = some (toInt (orderByText args unique a b)) :=
    fun h => orderByText_eq (ha.2.resolve_left (by simp [h])) (hb.2.resolve_left (by simp [h])) ha0 hb0 hfuel h
  have hequal : (unique && args.human_numeric) = true →
      (orderByNumber args unique a b).then (orderByText args unique a b) = .eq := by
    intro h
    rw [Bool.and_eq_true] at h
    simp [orderByNumber, compareOn, h, orderByText_decided, decided]
  have hhumans := compareHumans_eq ha.1 hb.1 (compareNumbers_eq hstrings) hequal fuel
  unfold compareForward compareHashes compareFloats
  rw [hg]
  by_cases hrandom : args.random = true
  · rw [if_pos hrandom]
    have hhash : orderByHash values args a b = compare (hashString values a).toInt (hashString values b).toInt := by
      simp [orderByHash, compareOn, hrandom]
    simp only [forward, compareLex, hhash]
    exact compareValues_eq hhumans _ _
  · rw [if_neg hrandom]
    have hhash : orderByHash values args a b = .eq := by
      simp [orderByHash, compareOn, hrandom]
    simp only [forward, compareLex, hhash, Ordering.eq_then]
    exact hhumans

theorem compareStrings_eq (hg : args.general_numeric = false) (ha : Scanned args unique a) (hb : Scanned args unique b)
    (ha0 : (0 : UInt8) ∉ a) (hb0 : (0 : UInt8) ∉ b) (hafuel : a.length < fuel) (hbfuel : b.length < fuel) :
    compareStrings values fuel a b args unique = some (toInt (stringOrder values args unique a b)) := by
  unfold compareStrings stringOrder
  by_cases hreverse : args.reverse = true
  · simp only [hreverse, if_true]
    exact compareForward_eq hg hb ha hb0 ha0 hbfuel
  · simp only [hreverse]
    exact compareForward_eq hg ha hb ha0 hb0 hafuel

/-- A string that is not scanned cannot be compared with itself. -/
theorem compareStrings_self (hg : args.general_numeric = false) (h : ¬Scanned args unique t) :
    compareStrings values fuel t t args unique = none := by
  have hswap : compareStrings values fuel t t args unique = compareForward values fuel t t args unique := by
    unfold compareStrings
    split_ifs <;> rfl
  have hhashes : ∀ next, compareHashes values t t args next = next := fun next => by
    unfold compareHashes
    split_ifs
    · exact compareValues_self _ _
    · rfl
  rw [hswap, compareForward, hhashes]
  unfold compareHumans
  by_cases hdigit : args.human_numeric = true ∧ isdigit (first (skipBlanks args t)) = true
  · simp [hdigit.1, readHuman, readDigits_none hdigit.2]
  · have hends : decided args unique = false ∧ ¬Ends args (skipBlanks args t) := by
      by_contra hcon
      refine h ⟨fun hhuman => by simpa [hhuman] using hdigit, ?_⟩
      by_cases hdecided : decided args unique = true
      · exact Or.inl hdecided
      · exact Or.inr (by_contra fun hnot => hcon ⟨by simpa using hdecided, hnot⟩)
    have hnext : compareFloats values (skipBlanks args t) (skipBlanks args t) args unique
        (compareNumbers (skipBlanks args t) (skipBlanks args t) args unique
          (compareChars args fuel (skipBlanks args t) (skipBlanks args t))) = none := by
      rw [compareFloats, hg, compareNumbers, compareChars_self hends.2]
      by_cases hnumeric : args.numeric = true
      · obtain rfl : unique = false := by simpa [decided, hnumeric] using hends.1
        simp [hnumeric, compareValues_self]
      · simp [hnumeric]
    rw [hnext]
    by_cases hhuman : args.human_numeric = true
    · obtain rfl : unique = false := by simpa [decided, hhuman] using hends.1
      cases readHuman fuel (skipBlanks args t) <;> simp [hhuman, compareValues_self]
    · simp [hhuman]

theorem readLineField_sublist (line : Text) (field : ℕ) : (readLineField line field).Sublist line := by
  have hfind : ∀ field, findField field line <:+ line := by
    induction line with
    | nil => exact fun _ => List.suffix_rfl
    | cons c line ih =>
      intro field
      unfold findField
      split_ifs
      · exact (ih _).trans (List.suffix_cons c line)
      · exact (ih _).trans (List.suffix_cons c line)
      · exact List.suffix_rfl
  unfold readLineField
  split_ifs
  · exact List.Sublist.refl _
  · refine List.Sublist.trans ?_ (hfind field).sublist
    conv_rhs => rw [← List.takeWhile_append_dropWhile (p := isblank) (l := findField field line)]
    exact (List.Sublist.refl _).append (List.takeWhile_sublist _)

/-- No comparison is one of floating point numbers, and every key is accepted. -/
def Accepted (args : Arguments) : Prop :=
  args.general_numeric = false ∧ ∀ keys, args.key = some keys → ∀ key ∈ keys.splitOn 44,
    ∃ field local_args, readKey args.toOptions key = some (field, local_args) ∧ local_args.general_numeric = false

def lineOrder (values : Values) (args : Arguments) (unique : Bool) : Text → Text → Ordering :=
  match args.key with
  | some keys => keyOrder values args.toOptions unique ((keys.splitOn 44).filterMap (readKey args.toOptions))
  | none => stringOrder values args.toOptions unique

instance {args : Arguments} : TransCmp (lineOrder values args unique) := by
  unfold lineOrder
  split <;> infer_instance

theorem toInt_eq_zero_iff {o : Ordering} : toInt o = 0 ↔ o = .eq := by
  cases o <;> simp [toInt]

theorem compareKeys_eq {keys : List Text} (hg : args.general_numeric = false)
    (hkeys : ∀ key ∈ keys, ∃ field local_args,
      readKey args key = some (field, local_args) ∧ local_args.general_numeric = false)
    (hscanned : ∀ l, l = a ∨ l = b → ∀ key ∈ keys, ∀ field local_args, readKey args key = some (field, local_args) →
      Scanned local_args true (readLineField l field))
    (hlast : ∀ l, l = a ∨ l = b → unique = true ∨ Scanned args false l) (ha0 : (0 : UInt8) ∉ a) (hb0 : (0 : UInt8) ∉ b)
    (hafuel : a.length < fuel) (hbfuel : b.length < fuel) :
    compareKeys values fuel a b args unique keys =
      some (toInt (keyOrder values args unique (keys.filterMap (readKey args)) a b)) := by
  induction keys with
  | nil =>
    rw [compareKeys, List.filterMap_nil, keyOrder]
    cases unique with
    | true => rfl
    | false =>
      exact compareStrings_eq hg ((hlast a (Or.inl rfl)).resolve_left Bool.false_ne_true)
        ((hlast b (Or.inr rfl)).resolve_left Bool.false_ne_true) ha0 hb0 hafuel hbfuel
  | cons key keys ih =>
    obtain ⟨⟨field, local_args, hkey, hlocal⟩, hkeys⟩ := List.forall_mem_cons.mp hkeys
    have hrec := ih hkeys fun l hl k hk => hscanned l hl k (List.mem_cons_of_mem _ hk)
    have hafield := readLineField_sublist a field
    have hbfield := readLineField_sublist b field
    have hcmp := @compareStrings_eq values local_args true _ _ fuel hlocal
      (hscanned a (Or.inl rfl) key List.mem_cons_self field local_args hkey)
      (hscanned b (Or.inr rfl) key List.mem_cons_self field local_args hkey) (fun h => ha0 (hafield.subset h))
      (fun h => hb0 (hbfield.subset h)) (lt_of_le_of_lt hafield.length_le hafuel) (lt_of_le_of_lt hbfield.length_le hbfuel)
    rw [compareKeys, hkey, List.filterMap_cons_some hkey, keyOrder]
    simp only [compareLex, Option.bind_eq_bind, Option.bind_some, hcmp, ne_eq, toInt_eq_zero_iff, hrec]
    cases stringOrder values local_args true (readLineField a field) (readLineField b field) <;> rfl

theorem compareLines_eq {args : Arguments} (h : Accepted args) (ha : LineScanned args unique a)
    (hb : LineScanned args unique b) (ha0 : (0 : UInt8) ∉ a) (hb0 : (0 : UInt8) ∉ b) (hafuel : a.length < fuel)
    (hbfuel : b.length < fuel) :
    compareLines values fuel a b args unique = some (toInt (lineOrder values args unique a b)) := by
  obtain ⟨hg, hkeys⟩ := h
  unfold LineScanned at ha hb
  unfold compareLines lineOrder
  cases hkey : args.key with
  | none =>
    rw [hkey] at ha hb
    exact compareStrings_eq hg ha hb ha0 hb0 hafuel hbfuel
  | some keys =>
    rw [hkey] at ha hb
    refine compareKeys_eq hg (hkeys keys hkey) ?_ ?_ ha0 hb0 hafuel hbfuel
    · rintro l (rfl | rfl)
      · exact ha.1
      · exact hb.1
    · rintro l (rfl | rfl)
      · exact ha.2
      · exact hb.2

structure Sorts (cmp : Text → Text → Option ℤ) (lines : List Line) : Prop where
  ends : ∀ a ∈ lines, ∀ b ∈ lines, ∃ r, cmp a.val b.val = some r
  antisymm : ∀ a ∈ lines, ∀ b ∈ lines, ∀ r r', cmp a.val b.val = some r → cmp b.val a.val = some r' → r.sign = -r'.sign
  trans : ∀ a ∈ lines, ∀ b ∈ lines, ∀ c ∈ lines, ∀ r r' r'', cmp a.val b.val = some r → cmp b.val c.val = some r' →
    cmp a.val c.val = some r'' → r ≤ 0 → r' ≤ 0 → r'' ≤ 0

theorem toInt_swap (o : Ordering) : (toInt o.swap).sign = -(toInt o).sign := by
  cases o <;> rfl

theorem toInt_le_zero_iff {o : Ordering} : toInt o ≤ 0 ↔ o.isLE = true := by
  cases o <;> simp [toInt]

theorem sorts_of_order {cmp : Text → Text → Option ℤ} {order : Text → Text → Ordering} [TransCmp order]
    {lines : List Line} (h : ∀ a ∈ lines, ∀ b ∈ lines, cmp a.val b.val = some (toInt (order a.val b.val))) :
    Sorts cmp lines where
  ends a ha b hb := ⟨_, h a ha b hb⟩
  antisymm a ha b hb r r' hr hr' := by
    rw [h a ha b hb] at hr
    rw [h b hb a ha] at hr'
    cases hr
    cases hr'
    rw [@OrientedCmp.eq_swap _ order _ a.val b.val, toInt_swap]
  trans a ha b hb c hc r r' r'' hr hr' hr'' hle hle' := by
    rw [h a ha b hb] at hr
    rw [h b hb c hc] at hr'
    rw [h a ha c hc] at hr''
    cases hr
    cases hr'
    cases hr''
    exact toInt_le_zero_iff.mpr (TransCmp.isLE_trans (toInt_le_zero_iff.mp hle) (toInt_le_zero_iff.mp hle'))

/-- A line that can be compared with itself is scanned. -/
theorem compareKeys_self {keys : List Text} (hg : args.general_numeric = false)
    (hkeys : ∀ key ∈ keys, ∃ field local_args,
      readKey args key = some (field, local_args) ∧ local_args.general_numeric = false)
    (ht0 : (0 : UInt8) ∉ t) (hfuel : t.length < fuel) {r : ℤ}
    (h : compareKeys values fuel t t args unique keys = some r) :
    (∀ key ∈ keys, ∀ field local_args, readKey args key = some (field, local_args) →
      Scanned local_args true (readLineField t field)) ∧ (unique = true ∨ Scanned args false t) := by
  induction keys with
  | nil =>
    refine ⟨by simp, ?_⟩
    by_contra hcon
    rw [not_or, Bool.not_eq_true] at hcon
    rw [compareKeys, hcon.1, if_neg Bool.false_ne_true, compareStrings_self hg hcon.2] at h
    cases h
  | cons key keys ih =>
    obtain ⟨⟨field, local_args, hkey, hlocal⟩, hkeys⟩ := List.forall_mem_cons.mp hkeys
    have hfield := readLineField_sublist t field
    have hscanned : Scanned local_args true (readLineField t field) := by
      by_contra hcon
      rw [compareKeys, hkey] at h
      simp [compareStrings_self hlocal hcon] at h
    have ht0' : (0 : UInt8) ∉ readLineField t field := fun hmem => ht0 (hfield.subset hmem)
    have hlen := lt_of_le_of_lt hfield.length_le hfuel
    have hcmp := @compareStrings_eq values local_args true _ _ fuel hlocal hscanned hscanned ht0' ht0' hlen hlen
    have hrefl : stringOrder values local_args true (readLineField t field) (readLineField t field) = .eq :=
      Std.ReflCmp.compare_self
    rw [hrefl, toInt] at hcmp
    have htail : compareKeys values fuel t t args unique keys = some r := by
      simpa [compareKeys, hkey, hcmp] using h
    obtain ⟨hrest, hlast⟩ := ih hkeys htail
    refine ⟨List.forall_mem_cons.mpr ⟨fun field' local_args' hkey' => ?_, hrest⟩, hlast⟩
    rw [hkey] at hkey'
    cases hkey'
    exact hscanned

theorem compareLines_self {args : Arguments} (h : Accepted args) (ht0 : (0 : UInt8) ∉ t) (hfuel : t.length < fuel) {r : ℤ}
    (hr : compareLines values fuel t t args unique = some r) : LineScanned args unique t := by
  obtain ⟨hg, hkeys⟩ := h
  unfold LineScanned
  unfold compareLines at hr
  cases hkey : args.key with
  | none =>
    rw [hkey] at hr
    by_contra hcon
    rw [compareStrings_self hg hcon] at hr
    cases hr
  | some keys =>
    rw [hkey] at hr
    exact compareKeys_self hg (hkeys keys hkey) ht0 hfuel hr

/-- The comparison of lines ends, stays in the lines and is a total preorder exactly when each of the lines is scanned:
in every key and, unless only the keys count, as a whole. -/
theorem compareLines_sorts (values : Values) (args : Arguments) (unique : Bool) (h : Accepted args) (lines : List Line) :
    (∀ fuel, (∀ l ∈ lines, l.val.length < fuel) → Sorts (fun a b => compareLines values fuel a b args unique) lines) ↔
      ∀ l ∈ lines, LineScanned args unique l.val := by
  constructor
  · intro hsorts l hl
    let fuel := (lines.map fun l => l.val.length).sum + 1
    have hfuel : ∀ l ∈ lines, l.val.length < fuel := fun l hl =>
      Nat.lt_succ_of_le (List.le_sum_of_mem (List.mem_map_of_mem hl))
    obtain ⟨r, hr⟩ := (hsorts fuel hfuel).ends l hl l hl
    exact compareLines_self h l.property (hfuel l hl) hr
  · intro hscanned fuel hfuel
    exact sorts_of_order fun a ha b hb => compareLines_eq h (hscanned a ha) (hscanned b hb) a.property b.property
      (hfuel a ha) (hfuel b hb)

/-- With `-d` the two lines are compared as the same one. -/
theorem compareLines_sorts_dictionary :
    let lines : List Line := [⟨[97, 33, 98], by decide⟩, ⟨[97, 98], by decide⟩]
    ∀ fuel, (∀ l ∈ lines, l.val.length < fuel) →
      Sorts (fun a b => compareLines ⟨fun _ => 0, fun _ _ => .eq⟩ fuel a b ⟨{ dictionary := true }, none⟩ false) lines := by
  refine (compareLines_sorts _ ⟨{ dictionary := true }, none⟩ false ⟨rfl, by simp⟩ _).mpr ?_
  simp only [List.forall_mem_cons]
  refine ⟨⟨by simp, Or.inr ?_⟩, ⟨by simp, Or.inr ?_⟩, by simp⟩
  · exact .cons rfl (.cons rfl .nil)
  · exact .cons rfl (.cons rfl .nil)

/-- With `-d` two equal lines of one character that is ignored are both left. -/
theorem dictionary_not_sorts : ¬∀ fuel, (∀ l ∈ [(⟨[33], by decide⟩ : Line)], l.val.length < fuel) →
    Sorts (fun a b => compareLines ⟨fun _ => 0, fun _ _ => .eq⟩ fuel a b ⟨{ dictionary := true }, none⟩ false)
      [⟨[33], by decide⟩] := by
  intro h
  obtain ⟨r, hr⟩ := (h 2 (by simp)).ends _ List.mem_cons_self _ List.mem_cons_self
  have hnone : compareLines ⟨fun _ => 0, fun _ _ => .eq⟩ 2 [33] [33] ⟨{ dictionary := true }, none⟩ false = none := by
    decide
  cases hnone.symm.trans hr

end SomeOs.Sort

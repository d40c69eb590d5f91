import SomeOs.Base.OpenTable
import SomeOs.Memory.PageRef

/-! # Maps from strings to pointers

An open table whose keys are pointers to strings of its own. A deleted slot keeps its value, and a
rebuild goes through the values: it takes the memory at a value for the string that is hashed. Memory
that was freed has no contents, and a loop that does not end has no result.
-/
namespace SomeOs.Files
open OpenTable LinearProbe

structure CString where
  bytes : List UInt8
  terminated : 0 ∉ bytes
  deriving DecidableEq

def hashString (s : List UInt8) : ℕ :=
  PageRef.hashInt64 (s.foldl (fun hash c => (hash * 293 % 2 ^ 64 + c.toNat) % 2 ^ 64) 7919)

/-- `MIN_TABLE_CAPACITY` -/
abbrev minStringCapacity : ℕ := 128

structure StringMap extends Table ℕ where
  values : ℕ → ℕ
  count : ℕ

/-- `STRING_MAP_INITIALIZER` -/
def StringMap.initial : StringMap := ⟨⟨fun _ => .empty, 0⟩, fun _ => 0, 0⟩

abbrev Strings := ℕ → Option CString

def areKeysEqual (strings : Strings) (in_table : Slot ℕ) (key : CString) : Bool :=
  match in_table with
  | .node p => decide (strings p = some key)
  | _ => false

/-- One round of the loop of `rebuildStringMap`, which skips the values `EMPTY` and `DELETED`. The
string at an address is given by `text`. -/
def rebuildStringStep (text : ℕ → Option (List UInt8)) (table new : StringMap) (i : ℕ) : Option StringMap :=
  if table.values i = 0 ∨ table.values i = 1 then some new
  else
    (text (table.values i)).bind fun s =>
    (seek (fun idx => new.values idx == 0) new.capacity (hashString s % new.capacity)).map fun idx =>
      { new with toTable := new.toTable.set idx (table.slots i), values := Function.update new.values idx (table.values i) }

def rebuildStringMap (text : ℕ → Option (List UInt8)) (table : StringMap) (new_size : ℕ) : Option StringMap :=
  (List.range table.capacity).foldlM (rebuildStringStep text table) ⟨⟨fun _ => .empty, new_size⟩, fun _ => 0, table.count⟩

/-- `testForResize` -/
def testForStringResize (text : ℕ → Option (List UInt8)) (map : StringMap) : Option StringMap :=
  if map.capacity < minStringCapacity then rebuildStringMap text map minStringCapacity
  else if minStringCapacity < map.capacity ∧ map.count * 4 < map.capacity then rebuildStringMap text map (map.capacity / 2)
  else if map.capacity * 2 < map.count * 3 then rebuildStringMap text map (map.capacity + map.capacity / 2)
  else some map

def findKey (strings : Strings) (map : StringMap) (key : CString) : ℕ :=
  probe (fun idx => map.slots idx == .empty || areKeysEqual strings (map.slots idx) key) map.capacity map.capacity
    (hashString key.bytes % map.capacity)

/-- The copy of a new key is put at the address `k`. -/
def putToStringMap (text : ℕ → Option (List UInt8)) (strings : Strings) (map : StringMap) (key : CString) (value k : ℕ) :
    Option (Strings × StringMap) :=
  (testForStringResize text map).bind fun map =>
  let idx := findKey strings map key
  if areKeysEqual strings (map.slots idx) key then
    some (strings, { map with values := Function.update map.values idx value })
  else
    (seek (fun idx => map.slots idx == .empty || map.slots idx == .deleted || areKeysEqual strings (map.slots idx) key)
      map.capacity (hashString key.bytes % map.capacity)).map fun idx =>
    (Function.update strings k (some key),
      { toTable := map.toTable.set idx (.node k), values := Function.update map.values idx value, count := map.count + 1 })

def getFromStringMap (strings : Strings) (map : StringMap) (key : CString) : ℕ :=
  if map.count ≠ 0 then
    let idx := findKey strings map key
    if areKeysEqual strings (map.slots idx) key then map.values idx else 0
  else 0

def getKeyFromStringMap (strings : Strings) (map : StringMap) (key : CString) : Option ℕ :=
  if map.count ≠ 0 then
    match map.slots (findKey strings map key) with
    | .node p => if strings p = some key then some p else none
    | _ => none
  else none

def deleteFromStringMap (text : ℕ → Option (List UInt8)) (strings : Strings) (map : StringMap) (key : CString) :
    Option (Strings × StringMap) :=
  if map.count ≠ 0 then
    let idx := findKey strings map key
    match map.slots idx with
    | .node p =>
      if strings p = some key then
        (testForStringResize text { map with toTable := map.toTable.set idx .deleted, count := map.count - 1 }).map
          fun map => (Function.update strings p none, map)
      else some (strings, map)
    | _ => some (strings, map)
  else some (strings, map)

def hashAt (strings : Strings) (p : ℕ) : ℕ := (strings p).elim 0 fun s => hashString s.bytes

/-- Every key is on the way of its string, and different keys have different strings. -/
structure StringMap.Wf (strings : Strings) (map : StringMap) : Prop where
  table : OpenTable.Wf (hashAt strings) map.toTable
  texts : ∀ p, map.Holds p → ∃ key, strings p = some key
  distinct : ∀ p q, map.Holds p → map.Holds q → strings p = strings q → p = q
  count : map.count = map.used.card

def StringMap.Maps (strings : Strings) (map : StringMap) (key : CString) (p value : ℕ) : Prop :=
  ∃ i < map.capacity, map.slots i = .node p ∧ strings p = some key ∧ map.values i = value

section Find
variable {strings : Strings} {map : StringMap} {key : CString} {p q value value' : ℕ}

theorem areKeysEqual_iff {slot : Slot ℕ} : areKeysEqual strings slot key = true ↔ ∃ p, slot = .node p ∧ strings p = some key := by
  cases slot <;> simp [areKeysEqual]

namespace StringMap

theorem Maps.pos (h : map.Maps strings key p value) (hw : map.Wf strings) : map.count ≠ 0 := by
  obtain ⟨i, hi, hslot, -, -⟩ := h
  rw [hw.count]
  exact (Finset.card_pos.mpr ⟨i, mem_used.mpr ⟨hi, p, hslot⟩⟩).ne'

theorem Wf.findKey_eq (hw : map.Wf strings) {i : ℕ} (hi : i < map.capacity) (hslot : map.slots i = .node p)
    (hkey : strings p = some key) : findKey strings map key = i := by
  obtain ⟨k, hk, rfl, hbefore⟩ := hw.table.onWay i p hi hslot
  have hhash : hashAt strings p = hashString key.bytes := by rw [hashAt, hkey, Option.elim_some]
  rw [hhash] at hslot hbefore hi ⊢
  refine probe_eq_of_first (Nat.mod_lt _ (by omega)) hk ?_ fun j hj => ?_
  · rw [Bool.or_eq_true, areKeysEqual_iff]
    exact Or.inr ⟨p, hslot, hkey⟩
  · rw [Bool.or_eq_false_iff, beq_eq_false_iff_ne]
    refine ⟨hbefore j hj, Bool.eq_false_iff.mpr fun hequal => ?_⟩
    obtain ⟨q, hq, hqkey⟩ := areKeysEqual_iff.mp hequal
    have hlt : map.way (hashString key.bytes) j < map.capacity := way_lt (by omega) _ _
    obtain rfl := hw.distinct q p ⟨_, hlt, hq⟩ ⟨_, hi, hslot⟩ (hqkey.trans hkey.symm)
    exact hj.ne (way_injective (hj.trans hk) hk (hw.table.unique _ _ _ hlt hi hq hslot))

theorem Maps.unique (hw : map.Wf strings) (h : map.Maps strings key p value) (h' : map.Maps strings key q value') :
    p = q ∧ value = value' := by
  obtain ⟨i, hi, hslot, hkey, rfl⟩ := h
  obtain ⟨j, hj, hslot', hkey', rfl⟩ := h'
  have hij : i = j := (hw.findKey_eq hi hslot hkey).symm.trans (hw.findKey_eq hj hslot' hkey')
  subst hij
  exact ⟨Slot.node.inj (hslot.symm.trans hslot'), rfl⟩

theorem Maps.get (hw : map.Wf strings) (h : map.Maps strings key p value) :
    getFromStringMap strings map key = value ∧ getKeyFromStringMap strings map key = some p := by
  have hpos := h.pos hw
  obtain ⟨i, hi, hslot, hkey, rfl⟩ := h
  have hfind := hw.findKey_eq hi hslot hkey
  constructor
  · simp only [getFromStringMap, if_pos hpos, hfind]
    exact if_pos (areKeysEqual_iff.mpr ⟨p, hslot, hkey⟩)
  · simp only [getKeyFromStringMap, if_pos hpos, hfind, hslot, if_pos hkey]

theorem findKey_absent (h : ∀ p value, ¬map.Maps strings key p value) (hpos : 0 < map.capacity) :
    areKeysEqual strings (map.slots (findKey strings map key)) key = false := by
  refine Bool.eq_false_iff.mpr fun hequal => ?_
  obtain ⟨p, hslot, hkey⟩ := areKeysEqual_iff.mp hequal
  exact h p _ ⟨_, probe_lt (Nat.mod_lt _ hpos), hslot, hkey, rfl⟩

theorem Wf.get_absent (hw : map.Wf strings) (h : ∀ p value, ¬map.Maps strings key p value) :
    getFromStringMap strings map key = 0 := by
  by_cases hcount : map.count = 0
  · rw [getFromStringMap, if_neg (not_not_intro hcount)]
  · have hpos : 0 < map.capacity := by
      obtain ⟨i, hi⟩ := Finset.card_pos.mp (Nat.pos_of_ne_zero (hw.count ▸ hcount))
      exact Nat.zero_lt_of_lt (mem_used.mp hi).1
    simp only [getFromStringMap, if_pos hcount, findKey_absent h hpos]
    rfl

theorem Wf.update (hw : map.Wf strings) (hp : ¬map.Holds p) (s : Option CString) :
    map.Wf (Function.update strings p s) := by
  have hsame : ∀ q, map.Holds q → Function.update strings p s q = strings q := by
    intro q hq
    rw [Function.update_of_ne]
    rintro rfl
    exact hp hq
  refine ⟨hw.table.congr_hash fun q hq => ?_, fun q hq => ?_, fun q r hq hr heq => ?_, hw.count⟩
  · rw [hashAt, hsame q hq, hashAt]
  · rw [hsame q hq]
    exact hw.texts q hq
  · rw [hsame q hq, hsame r hr] at heq
    exact hw.distinct q r hq hr heq

/-- A new key is put into a free slot on its way. -/
theorem Wf.putNew (hw : map.Wf strings) (habsent : ∀ p value, ¬map.Maps strings key p value)
    (hnew : strings p = none) {k : ℕ} (hk : k < map.capacity)
    (hfree : map.Free (map.way (hashString key.bytes) k))
    (hbefore : ∀ j < k, map.slots (map.way (hashString key.bytes) j) ≠ .empty) (value : ℕ) :
    let strings' := Function.update strings p (some key)
    let map' : StringMap := ⟨map.toTable.set (map.way (hashString key.bytes) k) (.node p),
      Function.update map.values (map.way (hashString key.bytes) k) value, map.count + 1⟩
    map'.Wf strings' ∧ ∀ key' q value', map'.Maps strings' key' q value' ↔
      (key' = key ∧ q = p ∧ value' = value) ∨ map.Maps strings key' q value' := by
  have hlt : map.way (hashString key.bytes) k < map.capacity := way_lt (by omega) _ _
  have hnot : ¬map.Holds p := fun h => by
    obtain ⟨key', hkey'⟩ := hw.texts p h
    rw [hnew] at hkey'
    cases hkey'
  have hw' := hw.update hnot (some key)
  have hself : hashAt (Function.update strings p (some key)) p = hashString key.bytes := by
    rw [hashAt, Function.update_self, Option.elim_some]
  obtain ⟨htable, hholds⟩ := hw'.table.insert hnot hk (by rw [hself]; exact hfree) (by rw [hself]; exact hbefore)
  rw [hself] at htable hholds
  generalize map.way (hashString key.bytes) k = i at hlt hfree htable hholds
  have hother : ∀ q, map.Holds q → q ≠ p := by
    rintro q hq rfl
    exact hnot hq
  have hdiffer : ∀ q, map.Holds q → strings q ≠ some key := by
    rintro q ⟨j, hj, hslot⟩ heq
    exact habsent q _ ⟨j, hj, hslot, heq, rfl⟩
  refine ⟨⟨htable, fun q hq => ?_, fun q r hq hr heq => ?_, ?_⟩, fun key' q value' => ⟨?_, ?_⟩⟩
  · rcases (hholds q).mp hq with rfl | hq
    · exact ⟨key, Function.update_self _ _ _⟩
    · exact hw'.texts q hq
  · rcases (hholds q).mp hq with rfl | hold <;> rcases (hholds r).mp hr with rfl | hold'
    · rfl
    · rw [Function.update_self, Function.update_of_ne (hother r hold')] at heq
      exact absurd heq.symm (hdiffer r hold')
    · rw [Function.update_self, Function.update_of_ne (hother q hold)] at heq
      exact absurd heq (hdiffer q hold)
    · exact hw'.distinct q r hold hold' heq
  · rw [hw.count]
    exact (card_used_insert hlt hfree).symm
  · rintro ⟨j, hj, hslot, hkey, hvalue⟩
    have hvalue : Function.update map.values i value j = value' := hvalue
    by_cases hji : j = i
    · subst hji
      rw [set_slots_self] at hslot
      obtain rfl := Slot.node.inj hslot
      rw [Function.update_self] at hkey hvalue
      exact Or.inl ⟨(Option.some.inj hkey).symm, rfl, hvalue.symm⟩
    · rw [set_slots_of_ne hji] at hslot
      rw [Function.update_of_ne (hother q ⟨j, hj, hslot⟩)] at hkey
      rw [Function.update_of_ne hji] at hvalue
      exact Or.inr ⟨j, hj, hslot, hkey, hvalue⟩
  · rintro (⟨rfl, rfl, rfl⟩ | ⟨j, hj, hslot, hkey, hvalue⟩)
    · exact ⟨i, hlt, set_slots_self _, Function.update_self _ _ _, Function.update_self _ _ _⟩
    · have hji : j ≠ i := by
        rintro rfl
        exact hfree q hslot
      refine ⟨j, hj, (set_slots_of_ne hji).trans hslot, ?_, ?_⟩
      · rw [Function.update_of_ne (hother q ⟨j, hj, hslot⟩)]
        exact hkey
      · exact (Function.update_of_ne hji value map.values).trans hvalue

/-- A key that is marked as deleted is none of the keys. -/
theorem Wf.marked (hw : map.Wf strings) {i : ℕ} (hi : i < map.capacity) (hslot : map.slots i = .node p)
    (hkey : strings p = some key) :
    let map' : StringMap := { map with toTable := map.toTable.set i .deleted, count := map.count - 1 }
    map'.Wf strings ∧ ¬map'.Holds p ∧ ∀ key' q value', map'.Maps strings key' q value' ↔
      key' ≠ key ∧ map.Maps strings key' q value' := by
  obtain ⟨htable, hholds⟩ := hw.table.remove hi hslot
  refine ⟨⟨htable, fun q hq => hw.texts q ((hholds q).mp hq).2, fun q r hq hr heq => ?_, ?_⟩,
    fun h => ((hholds p).mp h).1 rfl, fun key' q value' => ⟨?_, ?_⟩⟩
  · exact hw.distinct q r ((hholds q).mp hq).2 ((hholds r).mp hr).2 heq
  · rw [hw.count]
    exact (card_used_remove hi hslot).symm
  · rintro ⟨j, hj, hslot', hkey', hvalue⟩
    have hq : q ≠ p := ((hholds q).mp ⟨j, hj, hslot'⟩).1
    have hji : j ≠ i := by
      rintro rfl
      rw [set_slots_self] at hslot'
      cases hslot'
    rw [set_slots_of_ne hji] at hslot'
    refine ⟨?_, j, hj, hslot', hkey', hvalue⟩
    rintro rfl
    exact hq (hw.distinct q p ⟨j, hj, hslot'⟩ ⟨i, hi, hslot⟩ (hkey'.trans hkey.symm))
  · rintro ⟨hne, j, hj, hslot', hkey', hvalue⟩
    have hji : j ≠ i := by
      rintro rfl
      obtain rfl := Slot.node.inj (hslot'.symm.trans hslot)
      exact hne (Option.some.inj (hkey'.symm.trans hkey))
    exact ⟨j, hj, (set_slots_of_ne hji).trans hslot', hkey', hvalue⟩

theorem Wf.free (hw : map.Wf strings) (hp : ¬map.Holds p) : map.Wf (Function.update strings p none) ∧
    ∀ key' q value', map.Maps (Function.update strings p none) key' q value' ↔ map.Maps strings key' q value' := by
  refine ⟨hw.update hp none, fun key' q value' => exists_congr fun j => and_congr_right fun hj => and_congr_right fun hslot => ?_⟩
  have hq : q ≠ p := by
    rintro rfl
    exact hp ⟨j, hj, hslot⟩
  rw [Function.update_of_ne hq]

theorem Wf.removeKey (hw : map.Wf strings) {i : ℕ} (hi : i < map.capacity) (hslot : map.slots i = .node p)
    (hkey : strings p = some key) :
    let strings' := Function.update strings p none
    let map' : StringMap := { map with toTable := map.toTable.set i .deleted, count := map.count - 1 }
    map'.Wf strings' ∧ ∀ key' q value', map'.Maps strings' key' q value' ↔
      key' ≠ key ∧ map.Maps strings key' q value' := by
  obtain ⟨hmarked, hgone, hmaps⟩ := hw.marked hi hslot hkey
  obtain ⟨hfree, hsame⟩ := hmarked.free hgone
  exact ⟨hfree, fun key' q value' => (hsame key' q value').trans (hmaps key' q value')⟩

end StringMap
end Find

section Calls
variable {text : ℕ → Option (List UInt8)} {strings : Strings} {map : StringMap} {key : CString} {p value : ℕ}

theorem testForStringResize_kept (hcap : map.capacity = minStringCapacity) (hcount : map.count ≤ 85) :
    testForStringResize text map = some map := by
  unfold testForStringResize
  rw [hcap, if_neg (lt_irrefl _), if_neg (fun h => lt_irrefl _ h.1), if_neg]
  simp only [minStringCapacity]
  omega

theorem testForStringResize_first (hcap : map.capacity = 0) :
    testForStringResize text map = some ⟨⟨fun _ => .empty, minStringCapacity⟩, fun _ => 0, map.count⟩ := by
  unfold testForStringResize rebuildStringMap
  rw [hcap, if_pos (by decide)]
  rfl

namespace StringMap

/-- No map of the smallest size with few keys is rebuilt, other than the one without a table. -/
theorem Wf.resize (hw : map.Wf strings) (hcap : map.capacity = 0 ∨ map.capacity = minStringCapacity)
    (hcount : map.count ≤ 85) (text : ℕ → Option (List UInt8)) :
    ∃ map' : StringMap, testForStringResize text map = some map' ∧ map'.capacity = minStringCapacity ∧ map'.Wf strings ∧
      map'.count = map.count ∧ (∀ key p value, map'.Maps strings key p value ↔ map.Maps strings key p value) ∧
      ∀ i, map'.values i = 0 ∨ map'.values i = map.values i := by
  rcases hcap with hcap | hcap
  · have hempty : map.used = ∅ := by
      rw [Finset.eq_empty_iff_forall_notMem]
      intro i hi
      have hlt := (mem_used.mp hi).1
      omega
    have hnone : ∀ p, ¬Table.Holds (ν := ℕ) ⟨fun _ => .empty, minStringCapacity⟩ p := by
      rintro p ⟨i, -, hslot⟩
      cases hslot
    refine ⟨_, testForStringResize_first hcap, rfl, ⟨⟨fun i p _ hslot => ?_, fun i j p _ _ hslot => ?_⟩,
      fun p hp => absurd hp (hnone p), fun p q hp => absurd hp (hnone p), ?_⟩, rfl, fun key p value => ?_, fun i => Or.inl rfl⟩
    · cases hslot
    · cases hslot
    · rw [hw.count, hempty]
      rfl
    · refine iff_of_false ?_ ?_
      · rintro ⟨i, -, hslot, -⟩
        cases hslot
      · rintro ⟨i, hi, -⟩
        omega
  · exact ⟨map, testForStringResize_kept hcap hcount, hcap, hw, rfl, fun _ _ _ => Iff.rfl, fun _ => Or.inr rfl⟩

/-- A new key is put into a table with a free slot, which the test for a resize has returned. -/
theorem Wf.putResized {map₁ : StringMap} (hresize : testForStringResize text map = some map₁) (hw₁ : map₁.Wf strings)
    (hroom : map₁.count < map₁.capacity) (habsent₁ : ∀ p value, ¬map₁.Maps strings key p value) (hnew : strings p = none)
    (value : ℕ) : ∃ i < map₁.capacity, ∃ map' : StringMap,
      map' = ⟨map₁.toTable.set i (.node p), Function.update map₁.values i value, map₁.count + 1⟩ ∧
      putToStringMap text strings map key value p = some (Function.update strings p (some key), map') ∧
      map'.Wf (Function.update strings p (some key)) ∧
      ∀ key' q value', map'.Maps (Function.update strings p (some key)) key' q value' ↔
        (key' = key ∧ q = p ∧ value' = value) ∨ map₁.Maps strings key' q value' := by
  have hpos : 0 < map₁.capacity := Nat.zero_lt_of_lt hroom
  obtain ⟨i, hi, hfree⟩ := exists_free_of_card (t := map₁.toTable) (by rw [← hw₁.count]; exact hroom)
  obtain ⟨k, hk, hseek, hstop, hbefore⟩ := @seek_spec
    (fun idx => map₁.slots idx == .empty || map₁.slots idx == .deleted || areKeysEqual strings (map₁.slots idx) key)
    map₁.capacity _ (Nat.mod_lt (hashString key.bytes) hpos)
    ⟨i, hi, by cases hslot : map₁.slots i with
      | empty => rfl
      | deleted => rfl
      | node n => exact absurd hslot (hfree n)⟩
  simp only [Bool.or_eq_true, beq_iff_eq, areKeysEqual_iff] at hstop
  simp only [Bool.or_eq_false_iff, beq_eq_false_iff_ne] at hbefore
  have hlt : (hashString key.bytes % map₁.capacity + k) % map₁.capacity < map₁.capacity := Nat.mod_lt _ hpos
  have hfree' : map₁.Free (map₁.way (hashString key.bytes) k) := by
    intro q hq
    have hslot : map₁.slots ((hashString key.bytes % map₁.capacity + k) % map₁.capacity) = .node q := hq
    rcases hstop with (h | h) | ⟨r, hr, hkey⟩
    · rw [hslot] at h
      cases h
    · rw [hslot] at h
      cases h
    · exact habsent₁ r _ ⟨_, hlt, hr, hkey, rfl⟩
  obtain ⟨hw', hmaps'⟩ := hw₁.putNew habsent₁ hnew hk hfree' (fun j hj => (hbefore j hj).1.1) value
  refine ⟨_, hlt, _, rfl, ?_, hw', hmaps'⟩
  simp only [putToStringMap, hresize, Option.bind_some, findKey_absent habsent₁ hpos, Bool.false_eq_true, if_false, hseek,
    Option.map_some]

/-- A new key is put into a map with few keys. -/
theorem Wf.put (hw : map.Wf strings) (hcap : map.capacity = 0 ∨ map.capacity = minStringCapacity)
    (hcount : map.count ≤ 85) (habsent : ∀ p value, ¬map.Maps strings key p value) (hnew : strings p = none) (value : ℕ)
    (text : ℕ → Option (List UInt8)) :
    ∃ map' : StringMap, putToStringMap text strings map key value p = some (Function.update strings p (some key), map') ∧
      map'.capacity = minStringCapacity ∧ map'.Wf (Function.update strings p (some key)) ∧
      map'.count = map.count + 1 ∧ (∀ key' q value', map'.Maps (Function.update strings p (some key)) key' q value' ↔
        (key' = key ∧ q = p ∧ value' = value) ∨ map.Maps strings key' q value') ∧
      ∀ i, map'.values i = 0 ∨ map'.values i = value ∨ map'.values i = map.values i := by
  obtain ⟨map₁, hresize, hcap₁, hw₁, hcount₁, hmaps, hvalues⟩ := hw.resize hcap hcount text
  have habsent₁ : ∀ p value, ¬map₁.Maps strings key p value := fun p value => by
    rw [hmaps]
    exact habsent p value
  have hroom : map₁.count < map₁.capacity := by
    rw [hcap₁, hcount₁]
    exact Nat.lt_of_le_of_lt hcount (by decide)
  obtain ⟨j, -, map', rfl, hput, hw', hmaps'⟩ := hw₁.putResized hresize hroom habsent₁ hnew value
  refine ⟨_, hput, hcap₁, hw', congrArg (· + 1) hcount₁, fun key' q value' => ?_, fun i => ?_⟩
  · rw [hmaps', hmaps]
  · by_cases hi : i = j
    · exact Or.inr (Or.inl (hi ▸ Function.update_self _ _ _))
    · have hold := hvalues i
      rw [← Function.update_of_ne hi value map₁.values] at hold
      exact hold.imp_right Or.inr

theorem Wf.delete (hw : map.Wf strings) (hcap : map.capacity = minStringCapacity) (hcount : map.count ≤ 86)
    (h : map.Maps strings key p value) (text : ℕ → Option (List UInt8)) :
    ∃ map' : StringMap, deleteFromStringMap text strings map key = some (Function.update strings p none, map') ∧
      map'.capacity = minStringCapacity ∧ map'.Wf (Function.update strings p none) ∧ map'.count = map.count - 1 ∧
      ∀ key' q value', map'.Maps (Function.update strings p none) key' q value' ↔
        key' ≠ key ∧ map.Maps strings key' q value' := by
  have hpos := h.pos hw
  obtain ⟨i, hi, hslot, hkey, -⟩ := h
  obtain ⟨hw', hmaps⟩ := hw.removeKey hi hslot hkey
  refine ⟨{ map with toTable := map.toTable.set i .deleted, count := map.count - 1 }, ?_, hcap, hw', rfl, hmaps⟩
  have hkept := @testForStringResize_kept text
    { map with toTable := map.toTable.set i .deleted, count := map.count - 1 } hcap (Nat.sub_le_of_le_add hcount)
  simp only [deleteFromStringMap, if_pos hpos, hw.findKey_eq hi hslot hkey, hslot, if_pos hkey, hkept, Option.map_some]

end StringMap
end Calls

section Rebuild
variable {text : ℕ → Option (List UInt8)} {strings : Strings} {map : StringMap} {key : CString} {p value : ℕ}

structure Window (map : StringMap) (home m : ℕ) : Prop where
  slots : ∀ idx, map.slots idx ≠ .empty → ∃ j < m, idx = (home + j) % map.capacity
  values : ∀ idx, map.values idx ≠ 0 → ∃ j < m, idx = (home + j) % map.capacity

/-- One more value with the same home. -/
theorem Window.step {table new : StringMap} {home m i : ℕ} {s : List UInt8} (hw : Window new home m)
    (hm : m < new.capacity) (hhome : home = hashString s % new.capacity)
    (htext : table.values i ≠ 0 → table.values i ≠ 1 → text (table.values i) = some s) :
    ∃ new' : StringMap, rebuildStringStep text table new i = some new' ∧ new'.capacity = new.capacity ∧
      new'.count = new.count ∧ Window new' home (m + 1) := by
  unfold rebuildStringStep
  split_ifs with hskip
  · exact ⟨new, rfl, rfl, rfl, fun idx h => (hw.slots idx h).imp fun j hj => ⟨Nat.lt_succ_of_lt hj.1, hj.2⟩,
      fun idx h => (hw.values idx h).imp fun j hj => ⟨Nat.lt_succ_of_lt hj.1, hj.2⟩⟩
  rw [not_or] at hskip
  have hlt : home < new.capacity := by
    rw [hhome]
    exact Nat.mod_lt _ (by omega)
  have hend : (new.values ((home + m) % new.capacity) == 0) = true := by
    rw [beq_iff_eq]
    by_contra hne
    obtain ⟨j, hj, heq⟩ := hw.values _ hne
    exact hj.ne' (Nat.ModEq.eq_of_lt_of_lt (Nat.ModEq.add_left_cancel' _ heq) hm (hj.trans hm))
  obtain ⟨k, hk, hseek, -, hbefore⟩ := @seek_spec (fun idx => new.values idx == 0) new.capacity home hlt
    ⟨_, Nat.mod_lt _ (by omega), hend⟩
  have hkm : k ≤ m := by
    by_contra hlt'
    rw [hbefore m (by omega)] at hend
    cases hend
  rw [htext hskip.1 hskip.2, Option.bind_some, ← hhome, hseek]
  refine ⟨_, rfl, rfl, rfl, fun idx h => ?_, fun idx h => ?_⟩
  · by_cases hidx : idx = (home + k) % new.capacity
    · exact ⟨k, Nat.lt_succ_of_le hkm, hidx⟩
    · have h : (new.toTable.set ((home + k) % new.capacity) (table.slots i)).slots idx ≠ .empty := h
      rw [set_slots_of_ne hidx] at h
      exact (hw.slots idx h).imp fun j hj => ⟨Nat.lt_succ_of_lt hj.1, hj.2⟩
  · by_cases hidx : idx = (home + k) % new.capacity
    · exact ⟨k, Nat.lt_succ_of_le hkm, hidx⟩
    · have h : Function.update new.values ((home + k) % new.capacity) (table.values i) idx ≠ 0 := h
      rw [Function.update_of_ne hidx] at h
      exact (hw.values idx h).imp fun j hj => ⟨Nat.lt_succ_of_lt hj.1, hj.2⟩

theorem rebuildStringMap_window {table : StringMap} {new_size : ℕ} {s : List UInt8} (hsize : table.capacity < new_size)
    (htext : ∀ i, table.values i ≠ 0 → table.values i ≠ 1 → text (table.values i) = some s) :
    ∃ new : StringMap, rebuildStringMap text table new_size = some new ∧ new.capacity = new_size ∧
      new.count = table.count ∧ Window new (hashString s % new_size) table.capacity := by
  suffices hall : ∀ m ≤ table.capacity, ∃ new : StringMap, (List.range m).foldlM (rebuildStringStep text table)
      ⟨⟨fun _ => .empty, new_size⟩, fun _ => 0, table.count⟩ = some new ∧ new.capacity = new_size ∧
      new.count = table.count ∧ Window new (hashString s % new_size) m from hall _ le_rfl
  intro m
  induction m with
  | zero => exact fun _ => ⟨_, rfl, rfl, rfl, fun idx h => absurd rfl h, fun idx h => absurd rfl h⟩
  | succ m ih =>
    intro hm
    obtain ⟨new, hfold, hcap, hcount, hw⟩ := ih (by omega)
    obtain ⟨new', hstep, hcap', hcount', hw'⟩ := hw.step (by omega) (by rw [hcap]) (htext m)
    refine ⟨new', ?_, hcap'.trans hcap, hcount'.trans hcount, hw'⟩
    rw [List.range_succ, List.foldlM_append, hfold]
    simp [hstep]

theorem probe_start {stop : ℕ → Bool} {cap start : ℕ} (hs : start < cap) (hstop : stop start = true) :
    probe stop cap cap start = start := by
  have hself : (start + 0) % cap = start := Nat.mod_eq_of_lt hs
  have hprobe : probe stop cap cap start = (start + 0) % cap :=
    probe_eq_of_first hs (Nat.zero_lt_of_lt hs) (by rw [hself]; exact hstop) fun j hj => absurd hj (Nat.not_lt_zero j)
  exact hprobe.trans hself

theorem findKey_home (hpos : 0 < map.capacity) (hempty : map.slots (hashString key.bytes % map.capacity) = .empty) :
    findKey strings map key = hashString key.bytes % map.capacity :=
  probe_start (Nat.mod_lt _ hpos) (by rw [hempty]; rfl)

theorem getFromStringMap_home (hempty : map.slots (hashString key.bytes % map.capacity) = .empty) (hpos : 0 < map.capacity) :
    getFromStringMap strings map key = 0 := by
  simp only [getFromStringMap, findKey_home hpos hempty, hempty, areKeysEqual, Bool.false_eq_true, if_false, ite_self]

theorem putToStringMap_home {new : StringMap} (hresize : testForStringResize text map = some new)
    (hempty : new.slots (hashString key.bytes % new.capacity) = .empty) (hpos : 0 < new.capacity) :
    putToStringMap text strings map key value p = some (Function.update strings p (some key),
      ⟨new.toTable.set (hashString key.bytes % new.capacity) (.node p),
        Function.update new.values (hashString key.bytes % new.capacity) value, new.count + 1⟩) := by
  have hseek : seek (fun idx => new.slots idx == .empty || new.slots idx == .deleted ||
      areKeysEqual strings (new.slots idx) key) new.capacity (hashString key.bytes % new.capacity) =
      some (hashString key.bytes % new.capacity) := by
    have hstop : (new.slots (hashString key.bytes % new.capacity) == .empty ||
        new.slots (hashString key.bytes % new.capacity) == .deleted ||
        areKeysEqual strings (new.slots (hashString key.bytes % new.capacity)) key) = true := by
      rw [hempty]
      rfl
    rw [seek, probe_start (Nat.mod_lt _ hpos) hstop]
    exact if_pos hstop
  simp only [putToStringMap, hresize, Option.bind_some, findKey_home hpos hempty, hempty, areKeysEqual, Bool.false_eq_true,
    if_false]
  simp only [areKeysEqual] at hseek
  rw [hseek, Option.map_some]

end Rebuild

end SomeOs.Files

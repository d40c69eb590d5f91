import SomeOs.Files.StringMapRebuild

/-! # Calls on a map from strings

After any calls the map is the finite map that they describe, as long as no rebuild finds other memory at
the values than strings that hash like their keys.
-/
namespace SomeOs.Files
open OpenTable LinearProbe

inductive MapCall where
  /-- the copy of a new key is put at the address `p` -/
  | put (key : CString) (value p : ℕ)
  | delete (key : CString)

/-- The map for which `deleteFromStringMap` tests for a resize. -/
def StringMap.without (map : StringMap) (strings : Strings) (key : CString) : StringMap :=
  { map with toTable := map.toTable.set (findKey strings map key) .deleted, count := map.count - 1 }

def findLoop (strings : Strings) (map : StringMap) (key : CString) : ProbeLoop :=
  ⟨fun idx => map.slots idx == .empty || areKeysEqual strings (map.slots idx) key, true, map.capacity,
    hashString key.bytes % map.capacity⟩

namespace MapCall

def run (text : ℕ → Option (List UInt8)) (strings : Strings) (map : StringMap) : MapCall → Option (Strings × StringMap)
  | put key value p => putToStringMap text strings map key value p
  | delete key => deleteFromStringMap text strings map key

def apply (M : CString → Option ℕ) : MapCall → CString → Option ℕ
  | put key value _ => Function.update M key (some value)
  | delete key => Function.update M key none

def Valid (strings : Strings) : MapCall → Prop
  | put _ value p => 1 < value ∧ strings p = none
  | delete _ => True

/-- A rebuild, if there is one, finds strings at the values that hash like the keys. -/
def Careful (text : ℕ → Option (List UInt8)) (strings : Strings) (map : StringMap) : MapCall → Prop
  | put _ _ _ => ResizesWell text strings map
  | delete key => (∃ p value, map.Maps strings key p value) → ResizesWell text strings (map.without strings key)

end MapCall

/-- Calls from the empty map on, all of which are as `Ok` says, and the finite map that they describe. -/
inductive MapRun (Ok : (ℕ → Option (List UInt8)) → Strings → StringMap → MapCall → Prop) :
    Strings → StringMap → (CString → Option ℕ) → Prop
  | initial : MapRun Ok (fun _ => none) .initial fun _ => none
  | call {strings strings' : Strings} {map map' : StringMap} {M : CString → Option ℕ} {text : ℕ → Option (List UInt8)}
    {c : MapCall} (hrun : MapRun Ok strings map M) (hvalid : c.Valid strings) (hok : Ok text strings map c)
    (hcall : c.run text strings map = some (strings', map')) : MapRun Ok strings' map' (c.apply M)

structure Refines (strings : Strings) (map : StringMap) (M : CString → Option ℕ) : Prop where
  wf : map.Wf strings
  filled : map.Filled
  maps : ∀ key value, M key = some value ↔ ∃ p, map.Maps strings key p value

variable {text : ℕ → Option (List UInt8)} {strings strings' : Strings} {map map' : StringMap} {M : CString → Option ℕ}
  {key : CString} {p value : ℕ}

theorem Refines.initial : Refines (fun _ => none) .initial fun _ => none where
  wf := ⟨⟨fun _ _ h => absurd h (Nat.not_lt_zero _), fun _ _ _ h => absurd h (Nat.not_lt_zero _)⟩,
    fun _ ⟨_, h, _⟩ => absurd h (Nat.not_lt_zero _), fun _ _ ⟨_, h, _⟩ => absurd h (Nat.not_lt_zero _), rfl⟩
  filled := ⟨fun _ h => absurd h (Nat.not_lt_zero _), fun _ h => absurd h (Nat.not_lt_zero _)⟩
  maps key value := by
    refine iff_of_false (by simp) ?_
    rintro ⟨p, i, hi, -⟩
    exact Nat.not_lt_zero i hi

theorem Refines.absent_iff (h : Refines strings map M) : M key = none ↔ ∀ p value, ¬map.Maps strings key p value := by
  rw [Option.eq_none_iff_forall_ne_some]
  constructor
  · exact fun hnone p value hmaps => hnone value ((h.maps key value).mpr ⟨p, hmaps⟩)
  · intro hno value hvalue
    obtain ⟨p, hmaps⟩ := (h.maps key value).mp hvalue
    exact hno p value hmaps

/-- The value of a key that is there is replaced. -/
theorem Refines.replace (h : Refines strings map M) {i : ℕ} (hi : i < map.capacity) (hslot : map.slots i = .node p)
    (hkey : strings p = some key) (hvalue : 1 < value) :
    Refines strings { map with values := Function.update map.values i value } (Function.update M key (some value)) := by
  refine ⟨⟨h.wf.table, h.wf.texts, h.wf.distinct, h.wf.count⟩, ⟨fun j hj hv => ?_, fun j hj q hq => ?_⟩, fun key' value' => ?_⟩
  · dsimp only at hv ⊢
    by_cases hji : j = i
    · rw [hji, hslot]
      simp
    · rw [Function.update_of_ne hji] at hv
      exact h.filled.not_empty j hj hv
  · by_cases hji : j = i
    · subst hji
      unfold StringMap.Valued
      dsimp only
      rw [Function.update_self]
      omega
    · unfold StringMap.Valued
      dsimp only
      rw [Function.update_of_ne hji]
      exact h.filled.valued j hj q hq
  · by_cases hk : key' = key
    · subst hk
      rw [Function.update_self]
      constructor
      · rintro ⟨⟩
        exact ⟨p, i, hi, hslot, hkey, Function.update_self _ _ _⟩
      · rintro ⟨q, j, hj, hslot', hkey', rfl⟩
        have hji := (h.wf.findKey_eq hj hslot' hkey').symm.trans (h.wf.findKey_eq hi hslot hkey)
        have hself : Function.update map.values i value i = value := Function.update_self _ _ _
        rw [hji]
        exact congrArg some hself.symm
    · rw [Function.update_of_ne hk, h.maps]
      refine exists_congr fun q => exists_congr fun j => and_congr_right fun hj => and_congr_right fun hslot' =>
        and_congr_right fun hkey' => ?_
      have hji : j ≠ i := by
        rintro rfl
        obtain rfl := Slot.node.inj (hslot'.symm.trans hslot)
        exact hk (Option.some.inj (hkey'.symm.trans hkey))
      exact iff_of_eq (congrArg (· = value') (Function.update_of_ne hji _ _).symm)

theorem Refines.put (h : Refines strings map M) (hvalue : 1 < value) (hnew : strings p = none)
    (hcareful : ResizesWell text strings map) : ∃ strings' map',
      putToStringMap text strings map key value p = some (strings', map') ∧
      Refines strings' map' (Function.update M key (some value)) := by
  obtain ⟨map₁, hresize, -, hroom, hw₁, hf₁, hmaps⟩ := h.wf.resizesWell h.filled hcareful
  have h₁ : Refines strings map₁ M := ⟨hw₁, hf₁, fun key value => by simp only [hmaps, h.maps]⟩
  by_cases hpresent : ∃ q value, map₁.Maps strings key q value
  · obtain ⟨q, _, i, hi, hslot, hkey, -⟩ := hpresent
    refine ⟨_, _, ?_, h₁.replace hi hslot hkey hvalue⟩
    have hequal : areKeysEqual strings (map₁.slots i) key = true := areKeysEqual_iff.mpr ⟨q, hslot, hkey⟩
    simp only [putToStringMap, hresize, Option.bind_some, hw₁.findKey_eq hi hslot hkey, hequal, if_true]
  · have habsent : ∀ q value, ¬map₁.Maps strings key q value := by simpa using hpresent
    obtain ⟨i, hi, map', rfl, hput, hw', hmaps'⟩ := hw₁.putResized hresize hroom habsent hnew value
    refine ⟨_, _, hput, hw', ⟨fun j hj hv => ?_, fun j hj q hq => ?_⟩, fun key' value' => ?_⟩
    · by_cases hji : j = i
      · subst hji
        exact (set_slots_self _).trans_ne (by simp)
      · have hold : Function.update map₁.values i value j ≠ 0 := hv
        rw [Function.update_of_ne hji] at hold
        exact (set_slots_of_ne hji).trans_ne (hf₁.not_empty j hj hold)
    · have hq : (map₁.toTable.set i (.node p)).slots j = .node q := hq
      have hgoal : Function.update map₁.values i value j ≠ 0 ∧ Function.update map₁.values i value j ≠ 1 := by
        by_cases hji : j = i
        · subst hji
          rw [Function.update_self]
          omega
        · rw [set_slots_of_ne hji] at hq
          rw [Function.update_of_ne hji]
          exact hf₁.valued j hj q hq
      exact hgoal
    · simp only [hmaps']
      by_cases hk : key' = key
      · subst hk
        rw [Function.update_self]
        constructor
        · rintro ⟨⟩
          exact ⟨p, Or.inl ⟨rfl, rfl, rfl⟩⟩
        · rintro ⟨q, ⟨-, -, rfl⟩ | hold⟩
          · rfl
          · exact absurd hold (habsent q value')
      · rw [Function.update_of_ne hk, h₁.maps]
        simp [hk]

theorem delete_absent (habsent : ∀ p value, ¬map.Maps strings key p value) (hw : map.Wf strings) :
    deleteFromStringMap text strings map key = some (strings, map) := by
  unfold deleteFromStringMap
  by_cases hcount : map.count = 0
  · rw [if_neg (not_not_intro hcount)]
  · have hpos : 0 < map.capacity := by
      obtain ⟨i, hi⟩ := Finset.card_pos.mp (Nat.pos_of_ne_zero (hw.count ▸ hcount))
      exact Nat.zero_lt_of_lt (mem_used.mp hi).1
    have hfind := StringMap.findKey_absent habsent hpos
    rw [if_pos hcount]
    dsimp only
    cases hslot : map.slots (findKey strings map key) with
    | empty => rfl
    | deleted => rfl
    | node q =>
      rw [hslot] at hfind
      exact if_neg (by simpa [areKeysEqual] using hfind)

theorem Refines.delete (h : Refines strings map M)
    (hcareful : (∃ p value, map.Maps strings key p value) → ResizesWell text strings (map.without strings key)) :
    ∃ strings' map', deleteFromStringMap text strings map key = some (strings', map') ∧
      Refines strings' map' (Function.update M key none) := by
  by_cases hpresent : ∃ p value, map.Maps strings key p value
  · obtain ⟨p, value, hmaps⟩ := hpresent
    have hresizes := hcareful ⟨p, value, hmaps⟩
    have hpos := hmaps.pos h.wf
    obtain ⟨i, hi, hslot, hkey, -⟩ := hmaps
    have hfind := h.wf.findKey_eq hi hslot hkey
    obtain ⟨hmarked, hgone, hmapsMarked⟩ := h.wf.marked hi hslot hkey
    have hfilled : StringMap.Filled { map with toTable := map.toTable.set i .deleted, count := map.count - 1 } := by
      refine ⟨fun j hj hv => ?_, fun j hj q hq => ?_⟩
      · by_cases hji : j = i
        · subst hji
          exact (set_slots_self _).trans_ne (by simp)
        · exact (set_slots_of_ne hji).trans_ne (h.filled.not_empty j hj hv)
      · have hji : j ≠ i := by
          rintro rfl
          cases (set_slots_self (t := map.toTable) .deleted).symm.trans hq
        exact h.filled.valued j hj q ((set_slots_of_ne hji).symm.trans hq)
    unfold StringMap.without at hresizes
    rw [hfind] at hresizes
    obtain ⟨map', hresize, -, -, hw', hf', hmaps'⟩ := hmarked.resizesWell hfilled hresizes
    have hnot : ¬map'.Holds p := by
      rintro ⟨j, hj, hslot'⟩
      obtain ⟨l, hl, hslot'', -⟩ := (hmaps' key p _).mp ⟨j, hj, hslot', hkey, rfl⟩
      exact hgone ⟨l, hl, hslot''⟩
    obtain ⟨hfree, hsame⟩ := hw'.free hnot
    refine ⟨_, map', ?_, hfree, hf', fun key' value' => ?_⟩
    · simp only [deleteFromStringMap, if_pos hpos, hfind, hslot, if_pos hkey, hresize, Option.map_some]
    · simp only [hsame, hmaps', hmapsMarked]
      by_cases hk : key' = key
      · simp [hk]
      · rw [Function.update_of_ne hk, h.maps]
        simp [hk]
  · have habsent : ∀ p value, ¬map.Maps strings key p value := by simpa using hpresent
    refine ⟨_, _, delete_absent habsent h.wf, ?_⟩
    rw [← h.absent_iff.mpr habsent, Function.update_eq_self]
    exact h

theorem Refines.run (h : Refines strings map M) {c : MapCall} (hvalid : c.Valid strings) (hcareful : c.Careful text strings map) :
    ∃ strings' map', c.run text strings map = some (strings', map') ∧ Refines strings' map' (c.apply M) := by
  cases c with
  | put key value p => exact h.put hvalid.1 hvalid.2 hcareful
  | delete key => exact h.delete hcareful

theorem MapRun.invariant (h : MapRun (fun text strings map c => c.Careful text strings map) strings map M) :
    Refines strings map M := by
  induction h with
  | initial => exact .initial
  | call _ hvalid hok hcall ih =>
    obtain ⟨strings', map', hrun, hnext⟩ := ih.run hvalid hok
    cases hcall.symm.trans hrun
    exact hnext

theorem findLoop_ends (h : 0 < map.capacity) (strings : Strings) (key : CString) : (findLoop strings map key).Ends :=
  ProbeLoop.ends_of_guarded (Nat.mod_lt _ h) rfl

theorem Refines.getKey (h : Refines strings map M) (key : CString) :
    (getKeyFromStringMap strings map key).bind strings = (M key).map fun _ => key := by
  cases hkey : M key with
  | none =>
    have habsent := h.absent_iff.mp hkey
    have hnone : getKeyFromStringMap strings map key = none := by
      unfold getKeyFromStringMap
      split_ifs with hcount
      · split
        · next p hslot =>
          refine if_neg fun hp => ?_
          by_cases hpos : 0 < map.capacity
          · have hfind := StringMap.findKey_absent habsent hpos
            rw [hslot] at hfind
            simp [areKeysEqual, hp] at hfind
          · have hused : map.used = ∅ := by
              rw [Finset.eq_empty_iff_forall_notMem]
              exact fun i hi => hpos (Nat.zero_lt_of_lt (mem_used.mp hi).1)
            rw [h.wf.count, hused] at hcount
            exact hcount rfl
        · rfl
      · rfl
    rw [hnone]
    rfl
  | some value =>
    obtain ⟨p, hmaps⟩ := (h.maps key value).mp hkey
    rw [(hmaps.get h.wf).2]
    obtain ⟨i, hi, hslot, hp, -⟩ := hmaps
    exact hp

theorem Refines.get (h : Refines strings map M) (key : CString) : getFromStringMap strings map key = (M key).getD 0 := by
  cases hkey : M key with
  | none => exact h.wf.get_absent (h.absent_iff.mp hkey)
  | some value =>
    obtain ⟨p, hmaps⟩ := (h.maps key value).mp hkey
    exact (hmaps.get h.wf).1

/-- Every key is in a slot of its own. -/
theorem Refines.count (h : Refines strings map M) : {key | (M key).isSome}.ncard = map.count := by
  have hpresent : ∀ key, (M key).isSome → ∃ i < map.capacity, ∃ p, map.slots i = .node p ∧ strings p = some key := by
    intro key hkey
    obtain ⟨value, hvalue⟩ := Option.isSome_iff_exists.mp hkey
    obtain ⟨p, i, hi, hslot, hp, -⟩ := (h.maps key value).mp hvalue
    exact ⟨i, hi, p, hslot, hp⟩
  rw [h.wf.count, ← Set.ncard_coe_finset]
  refine Set.ncard_congr (fun key _ => findKey strings map key) ?_ ?_ ?_
  · intro key hkey
    obtain ⟨i, hi, p, hslot, hp⟩ := hpresent key hkey
    rw [h.wf.findKey_eq hi hslot hp]
    exact mem_used.mpr ⟨hi, p, hslot⟩
  · intro key key' hkey hkey' heq
    obtain ⟨i, hi, p, hslot, hp⟩ := hpresent key hkey
    obtain ⟨j, hj, q, hslot', hq⟩ := hpresent key' hkey'
    rw [h.wf.findKey_eq hi hslot hp, h.wf.findKey_eq hj hslot' hq] at heq
    subst heq
    obtain rfl := Slot.node.inj (hslot.symm.trans hslot')
    exact Option.some.inj (hp.symm.trans hq)
  · intro i hi
    obtain ⟨hlt, p, hslot⟩ := mem_used.mp hi
    obtain ⟨key, hkey⟩ := h.wf.texts p ⟨i, hlt, hslot⟩
    exact ⟨key, Option.isSome_iff_exists.mpr ⟨_, (h.maps key _).mpr ⟨p, i, hlt, hslot, hkey, rfl⟩⟩,
      h.wf.findKey_eq hlt hslot hkey⟩

/-- After any careful calls, lookups and the count are those of the finite map, the loops end, and the next careful call
has a result. -/
theorem MapRun.refines (h : MapRun (fun text strings map c => c.Careful text strings map) strings map M) :
    (∀ key, getFromStringMap strings map key = (M key).getD 0) ∧
      (∀ key, (getKeyFromStringMap strings map key).bind strings = (M key).map fun _ => key) ∧
      {key | (M key).isSome}.ncard = map.count ∧
      (map.count ≠ 0 → ∀ key, (findLoop strings map key).Ends) ∧
      ∀ text (c : MapCall), c.Valid strings → c.Careful text strings map →
        ∃ strings' map', c.run text strings map = some (strings', map') := by
  have hinv := h.invariant
  refine ⟨hinv.get, hinv.getKey, hinv.count, fun hcount key => findLoop_ends ?_ strings key, fun text c hvalid hcareful => ?_⟩
  · obtain ⟨i, hi⟩ := Finset.card_pos.mp (Nat.pos_of_ne_zero (hinv.wf.count ▸ hcount))
    exact Nat.zero_lt_of_lt (mem_used.mp hi).1
  · obtain ⟨strings', map', hrun, -⟩ := @Refines.run text strings map M hinv c hvalid hcareful
    exact ⟨strings', map', hrun⟩

/-- A map of the least capacity with a few keys is not rebuilt. -/
theorem ResizesWell.of_few (hcap : map.capacity = minStringCapacity) (hcount : map.count ≤ 85) :
    ResizesWell text strings map := by
  have hnone : resizeTo map = none := by
    simp only [resizeTo, hcap, minStringCapacity]
    split_ifs <;> first | rfl | omega
  intro new_size hnew
  simp [hnone] at hnew

def keyOf (n : ℕ) : CString := ⟨List.replicate (n + 1) 102, by simp⟩

theorem keyOf_injective : Function.Injective keyOf := by
  intro i j h
  have hlength := congrArg (fun key => key.bytes.length) h
  simpa [keyOf] using hlength

/-- Two keys are put into the empty map and the second one is deleted again: only the first one is found. -/
theorem MapRun.refines_delete : ∃ strings map M, MapRun (fun text strings map c => c.Careful text strings map) strings map M ∧
    getFromStringMap strings map (keyOf 0) = 2 ∧ getFromStringMap strings map (keyOf 1) = 0 ∧
    (getKeyFromStringMap strings map (keyOf 0)).bind strings = some (keyOf 0) := by
  have hkeys : keyOf 1 ≠ keyOf 0 := keyOf_injective.ne (by decide)
  have hcareful₁ : (MapCall.put (keyOf 0) 2 0).Careful (fun _ => some [1]) (fun _ => none) .initial := by
    intro new_size _
    exact ⟨fun i hi => absurd hi (Nat.not_lt_zero i), fun i hi => absurd hi (Nat.not_lt_zero i),
      (Finset.card_filter_le _ _).trans (Nat.zero_le _)⟩
  have habsent₁ : ∀ p value, ¬StringMap.initial.Maps (fun _ => none) (keyOf 0) p value := Refines.initial.absent_iff.mp rfl
  obtain ⟨map₁, hput₁, hcap₁, -, hcount₁, -⟩ := Refines.initial.wf.put (p := 0) (Or.inl rfl) (Nat.zero_le _) habsent₁ rfl 2
    fun _ => some [1]
  have hrun₁ := MapRun.initial.call (c := .put (keyOf 0) 2 0) ⟨by decide, rfl⟩ hcareful₁ hput₁
  have hone := hrun₁.invariant
  have hnone : (MapCall.put (keyOf 0) 2 0).apply (fun _ => none) (keyOf 1) = none := by
    simp [MapCall.apply, Function.update, hkeys]
  -- the map has its least capacity now, so no later call rebuilds it
  have hcareful₂ : ∀ strings, (MapCall.put (keyOf 1) 3 1).Careful (fun _ => some [1]) strings map₁ := fun _ =>
    ResizesWell.of_few hcap₁ (hcount₁.trans_le (by decide))
  obtain ⟨map₂, hput₂, hcap₂, -, hcount₂, -⟩ := hone.wf.put (p := 1) (Or.inr hcap₁) (hcount₁.trans_le (by decide))
    (hone.absent_iff.mp hnone) (Function.update_of_ne (by decide) _ _) 3 fun _ => some [1]
  have hrun₂ := hrun₁.call (c := .put (keyOf 1) 3 1) ⟨by decide, Function.update_of_ne (by decide) _ _⟩ (hcareful₂ _) hput₂
  have hcount₃ : map₂.count - 1 ≤ 85 := by
    rw [hcount₂, hcount₁]
    decide
  have hdeletes : ∀ strings, (MapCall.delete (keyOf 1)).Careful (fun _ => some [1]) strings map₂ := fun _ _ =>
    ResizesWell.of_few hcap₂ hcount₃
  obtain ⟨strings, map, hdelete, -⟩ := hrun₂.invariant.run (c := .delete (keyOf 1)) trivial (hdeletes _)
  have hrun₃ := hrun₂.call (c := .delete (keyOf 1)) trivial (hdeletes _) hdelete
  obtain ⟨hget, hgetKey, -⟩ := MapRun.refines hrun₃
  refine ⟨strings, map, _, hrun₃, (hget (keyOf 0)).trans ?_, (hget (keyOf 1)).trans ?_, (hgetKey (keyOf 0)).trans ?_⟩ <;>
    simp [MapCall.apply, Function.update, hkeys.symm]

/-- The first keys are in the map, all with one value. -/
theorem exists_run_keys {n : ℕ} (hn : n ≤ 86) : ∃ strings map M, MapRun (fun _ _ _ _ => True) strings map M ∧
    map.Wf strings ∧ (map.capacity = 0 ∨ map.capacity = minStringCapacity) ∧ map.count = n ∧
    (0 < n → map.capacity = minStringCapacity ∧ M (keyOf 0) = some 2) ∧
    (∀ k, n ≤ k → strings k = none) ∧ ∀ key p value, map.Maps strings key p value → ∃ i < n, key = keyOf i := by
  induction n with
  | zero =>
    refine ⟨_, _, _, .initial, Refines.initial.wf, Or.inl rfl, rfl, fun h => absurd h (lt_irrefl 0), fun _ _ => rfl, ?_⟩
    rintro key p value ⟨i, hi, -⟩
    exact absurd hi (Nat.not_lt_zero i)
  | succ n ih =>
    obtain ⟨strings, map, M, hrun, hw, hcap, hcount, hfirst, hfresh, hkeys⟩ := ih (by omega)
    have habsent : ∀ p value, ¬map.Maps strings (keyOf n) p value := fun p value hmaps => by
      obtain ⟨i, hi, heq⟩ := hkeys _ _ _ hmaps
      exact hi.ne (keyOf_injective heq).symm
    obtain ⟨map', hput, hcap', hw', hcount', hmaps', -⟩ := hw.put hcap (by omega) habsent (hfresh n le_rfl) 2 fun _ => some [1]
    refine ⟨_, map', _, .call hrun (c := .put (keyOf n) 2 n) ⟨by decide, hfresh n le_rfl⟩ trivial hput, hw', Or.inr hcap',
      hcount'.trans (congrArg (· + 1) hcount), fun _ => ⟨hcap', ?_⟩, fun k hk => ?_, fun key p value hmaps => ?_⟩
    · by_cases hzero : keyOf 0 = keyOf n
      · exact (congrArg _ hzero).trans (Function.update_self _ _ _)
      · refine (Function.update_of_ne hzero _ _).trans (hfirst ?_).2
        exact Nat.pos_of_ne_zero fun h0 => hzero (by rw [h0])
    · exact (Function.update_of_ne (by omega) _ _).trans (hfresh k (by omega))
    · rcases (hmaps' key p value).mp hmaps with ⟨rfl, -⟩ | hold
      · exact ⟨n, Nat.lt_succ_self n, rfl⟩
      · obtain ⟨i, hi, heq⟩ := hkeys _ _ _ hold
        exact ⟨i, Nat.lt_succ_of_lt hi, heq⟩

def lastKey : CString := ⟨[122], by decide⟩

/-- With 86 keys whose values point to the string `[1]`, the 87th one makes the first one disappear. -/
theorem rebuild_loses_key : ∃ strings map M, MapRun (fun _ _ _ _ => True) strings map M ∧ M (keyOf 0) = some 2 ∧
    getFromStringMap strings map (keyOf 0) = 0 := by
  obtain ⟨strings, map, M, hrun, hw, -, hcount, hfirst, hfresh, hkeys⟩ := exists_run_keys le_rfl
  obtain ⟨hcap, hM⟩ := hfirst (by decide)
  obtain ⟨new, hrebuild, hnew, hcountNew, hwindow⟩ := @rebuildStringMap_window (fun _ => some [1]) map 192 [1]
    (by rw [hcap]; decide) fun _ _ _ => rfl
  have hempty : ∀ idx, idx = 57 ∨ idx = 65 → new.slots idx = .empty := by
    intro idx hidx
    by_contra hne
    obtain ⟨j, hj, heq⟩ := hwindow.slots idx hne
    rw [hnew, show hashString [1] % 192 = 75 by decide] at heq
    rw [hcap] at hj
    simp only [minStringCapacity] at hj
    omega
  have hresize : testForStringResize (fun _ => some [1]) map = some new := by
    rw [← hrebuild, testForStringResize, hcap, hcount]
    rfl
  have hpos : 0 < new.capacity := by
    rw [hnew]
    decide
  have hhome : hashString lastKey.bytes % new.capacity = 65 := by
    rw [hnew]
    decide
  have hput := @putToStringMap_home (fun _ => some [1]) strings map lastKey 86 2 new hresize
    (by rw [hhome]; exact hempty _ (Or.inr rfl)) hpos
  rw [hhome] at hput
  refine ⟨_, _, _, .call hrun (c := .put lastKey 2 86) ⟨by decide, hfresh 86 le_rfl⟩ trivial hput, ?_, ?_⟩
  · refine (Function.update_of_ne (fun h => ?_) _ _).trans hM
    have hbytes : (some 102 : Option UInt8) = some 122 := congrArg (fun key => key.bytes.head?) h
    exact absurd hbytes (by decide)
  · refine getFromStringMap_home ?_ hpos
    have hfirstHome : hashString (keyOf 0).bytes % new.capacity = 57 := by
      rw [hnew]
      decide
    refine (congrArg _ hfirstHome).trans ((set_slots_of_ne (by decide)).trans (hempty _ (Or.inl rfl)))

end SomeOs.Files

import SomeOs.Files.StringMap

/-! # Rebuilding a map from strings

A rebuild looks for the places of the keys by the memory at their values. It keeps the map when this
memory hashes like the keys, and it ends when the values that are left fit into the new table.
-/
namespace SomeOs.Files
open OpenTable LinearProbe
variable {text : ℕ → Option (List UInt8)} {strings : Strings} {map new : StringMap} {new_size m : ℕ}

def StringMap.Valued (map : StringMap) (i : ℕ) : Prop := map.values i ≠ 0 ∧ map.values i ≠ 1

instance (map : StringMap) : DecidablePred map.Valued := fun i => by
  unfold StringMap.Valued
  infer_instance

/-- The slots with values are those that are not empty, and keys have values. -/
structure StringMap.Filled (map : StringMap) : Prop where
  not_empty : ∀ i < map.capacity, map.values i ≠ 0 → map.slots i ≠ .empty
  valued : ∀ i < map.capacity, ∀ p, map.slots i = .node p → map.Valued i

/-- The memory at the values can be read, at those of keys it hashes like them, and all values have a place. -/
structure Rehashes (text : ℕ → Option (List UInt8)) (strings : Strings) (map : StringMap) (new_size : ℕ) : Prop where
  readable : ∀ i < map.capacity, map.Valued i → ∃ s, text (map.values i) = some s
  same_hash : ∀ i < map.capacity, ∀ p s, map.slots i = .node p → text (map.values i) = some s →
    hashString s % new_size = hashAt strings p % new_size
  room : ((Finset.range map.capacity).filter map.Valued).card ≤ new_size

/-- The new table after the slots below `m`. -/
structure Rebuilt (strings : Strings) (map : StringMap) (new_size m : ℕ) (new : StringMap) : Prop where
  capacity : new.capacity = new_size
  count : new.count = map.count
  table : OpenTable.Wf (hashAt strings) new.toTable
  not_empty : ∀ i < new_size, new.values i ≠ 0 → new.slots i ≠ .empty
  values : ∀ i < new_size, new.slots i ≠ .empty → new.values i ≠ 0
  from_old : ∀ i < new_size, ∀ p, new.slots i = .node p → ∃ j < m, map.slots j = .node p ∧ new.values i = map.values j
  to_new : ∀ j < m, ∀ p, map.slots j = .node p → ∃ i < new_size, new.slots i = .node p ∧ new.values i = map.values j
  used : new.used.card = ((Finset.range m).filter fun j => (map.slots j).isNode).card
  filled : ((Finset.range new_size).filter fun i => new.values i ≠ 0).card = ((Finset.range m).filter map.Valued).card

theorem Rebuilt.zero : Rebuilt strings map new_size 0 ⟨⟨fun _ => .empty, new_size⟩, fun _ => 0, map.count⟩ where
  capacity := rfl
  count := rfl
  table := ⟨fun _ _ _ h => (by cases h), fun _ _ _ _ _ h => (by cases h)⟩
  not_empty _ _ h := absurd rfl h
  values _ _ h := absurd rfl h
  from_old _ _ _ h := by cases h
  to_new j hj := absurd hj (Nat.not_lt_zero j)
  used := by
    rw [Finset.range_zero, Finset.filter_empty, Finset.card_empty, Finset.card_eq_zero]
    ext i
    simp [mem_used]
  filled := by simp

theorem Rebuilt.skip (h : Rebuilt strings map new_size m new) (hf : map.Filled) (hm : m < map.capacity)
    (hvalue : ¬map.Valued m) : Rebuilt strings map new_size (m + 1) new := by
  have hnode : ∀ p, map.slots m ≠ .node p := fun p hp => hvalue (hf.valued m hm p hp)
  have hnot : ¬(map.slots m).isNode := fun hn => by
    obtain ⟨p, hp⟩ := Slot.isNode_iff.mp hn
    exact hnode p hp
  refine ⟨h.capacity, h.count, h.table, h.not_empty, h.values, fun i hi p hp => ?_, fun j hj p hp => ?_, ?_, ?_⟩
  · obtain ⟨j, hj, hold⟩ := h.from_old i hi p hp
    exact ⟨j, Nat.lt_succ_of_lt hj, hold⟩
  · rcases Nat.lt_succ_iff_lt_or_eq.mp hj with hj | rfl
    · exact h.to_new j hj p hp
    · exact absurd hp (hnode p)
  · rw [h.used, Finset.range_add_one, Finset.filter_insert, if_neg hnot]
  · rw [h.filled, Finset.range_add_one, Finset.filter_insert, if_neg hvalue]

/-- The slot of a value is put into an empty place. -/
theorem Rebuilt.place (h : Rebuilt strings map new_size m new) (hf : map.Filled) (hm : m < map.capacity)
    (hvalue : map.Valued m) {i : ℕ} (hi : i < new_size) (hfree : new.values i = 0)
    (htable : OpenTable.Wf (hashAt strings) (new.toTable.set i (map.slots m))) :
    Rebuilt strings map new_size (m + 1) { new with
      toTable := new.toTable.set i (map.slots m)
      values := Function.update new.values i (map.values m) } := by
  have hempty : new.slots i = .empty := by
    by_contra hne
    exact h.values i hi hne hfree
  have hkeeps := hf.not_empty m hm hvalue.1
  have hothers : ∀ j, j ≠ i → (new.toTable.set i (map.slots m)).slots j = new.slots j ∧
      Function.update new.values i (map.values m) j = new.values j := fun j hj =>
    ⟨set_slots_of_ne hj, Function.update_of_ne hj _ _⟩
  have hhere : (new.toTable.set i (map.slots m)).slots i = map.slots m ∧
      Function.update new.values i (map.values m) i = map.values m := ⟨set_slots_self _, Function.update_self _ _ _⟩
  refine ⟨h.capacity, h.count, htable, fun j hj hv => ?_, fun j hj hs => ?_, fun j hj p hp => ?_, fun j hj p hp => ?_, ?_, ?_⟩
  · dsimp only at hv ⊢
    by_cases hji : j = i
    · rw [hji, hhere.1]
      exact hkeeps
    · rw [(hothers j hji).2] at hv
      rw [(hothers j hji).1]
      exact h.not_empty j hj hv
  · dsimp only at hs ⊢
    by_cases hji : j = i
    · rw [hji, hhere.2]
      exact hvalue.1
    · rw [(hothers j hji).1] at hs
      rw [(hothers j hji).2]
      exact h.values j hj hs
  · dsimp only at hp ⊢
    by_cases hji : j = i
    · subst hji
      exact ⟨m, Nat.lt_succ_self m, hhere.1.symm.trans hp, hhere.2⟩
    · rw [(hothers j hji).1] at hp
      obtain ⟨l, hl, hold, hv⟩ := h.from_old j hj p hp
      exact ⟨l, Nat.lt_succ_of_lt hl, hold, (hothers j hji).2.trans hv⟩
  · rcases Nat.lt_succ_iff_lt_or_eq.mp hj with hj | rfl
    · obtain ⟨l, hl, hnew, hv⟩ := h.to_new j hj p hp
      have hli : l ≠ i := by
        rintro rfl
        rw [hempty] at hnew
        cases hnew
      exact ⟨l, hl, (hothers l hli).1.trans hnew, (hothers l hli).2.trans hv⟩
    · exact ⟨i, hi, hhere.1.trans hp, hhere.2⟩
  · rw [Finset.range_add_one, Finset.filter_insert]
    have hlt : i < new.capacity := hi.trans_eq h.capacity.symm
    cases hslot : map.slots m with
    | empty => exact absurd hslot hkeeps
    | deleted =>
      rw [if_neg (by simp [Slot.isNode])]
      exact (card_used_mark hempty).trans h.used
    | node p =>
      rw [if_pos (by rfl), Finset.card_insert_of_notMem (by simp), ← h.used]
      exact card_used_insert hlt fun q hq => by
        rw [hempty] at hq
        cases hq
  · have hsame : (Finset.range new_size).filter (fun j => Function.update new.values i (map.values m) j ≠ 0) =
        insert i ((Finset.range new_size).filter fun j => new.values j ≠ 0) := by
      ext j
      by_cases hji : j = i
      · subst hji
        simp [hi, hvalue.1]
      · simp [hji]
    rw [Finset.range_add_one, Finset.filter_insert, if_pos hvalue, Finset.card_insert_of_notMem (by simp), ← h.filled]
    dsimp only
    rw [hsame, Finset.card_insert_of_notMem (by simp [hfree])]

/-- The loop over the slots takes its next step. -/
theorem Rebuilt.step (h : Rebuilt strings map new_size m new) (hw : map.Wf strings) (hf : map.Filled) (hm : m < map.capacity)
    (hr : Rehashes text strings map new_size) :
    ∃ new', rebuildStringStep text map new m = some new' ∧ Rebuilt strings map new_size (m + 1) new' := by
  unfold rebuildStringStep
  split_ifs with hskip
  · exact ⟨new, rfl, h.skip hf hm fun hv => hskip.elim hv.1 hv.2⟩
  rw [not_or] at hskip
  obtain ⟨s, hs⟩ := hr.readable m hm hskip
  -- there are fewer values in the new table than there are in all
  have hroom : ((Finset.range new_size).filter fun i => new.values i ≠ 0).card < new_size := by
    rw [h.filled]
    refine lt_of_lt_of_le (Finset.card_lt_card ?_) hr.room
    refine Finset.ssubset_iff_of_subset (Finset.filter_subset_filter _ (Finset.range_subset_range.mpr hm.le)) |>.mpr
      ⟨m, by simp [hm, hskip, StringMap.Valued], by simp⟩
  obtain ⟨i, hi, hfree⟩ : ∃ i < new_size, new.values i = 0 := by
    by_contra hnone
    push Not at hnone
    rw [Finset.filter_true_of_mem fun i hi => hnone i (Finset.mem_range.mp hi), Finset.card_range] at hroom
    exact lt_irrefl _ hroom
  have hpos : 0 < new_size := Nat.zero_lt_of_lt hi
  obtain ⟨k, hk, hseek, hstop, hbefore⟩ := @seek_spec (fun idx => new.values idx == 0) new.capacity
    (hashString s % new.capacity) (by rw [h.capacity]; exact Nat.mod_lt _ hpos)
    ⟨i, hi.trans_eq h.capacity.symm, by simpa using hfree⟩
  have hcap := h.capacity
  have hlt : new.way (hashString s) k < new_size := by
    rw [← hcap]
    exact way_lt (by omega) _ _
  have hzero : new.values (new.way (hashString s) k) = 0 := beq_iff_eq.mp hstop
  have hway : ∀ j < k, new.slots (new.way (hashString s) j) ≠ .empty := fun j hj =>
    h.not_empty _ (by rw [← hcap]; exact way_lt (by omega) _ _) (beq_eq_false_iff_ne.mp (hbefore j hj))
  have htarget : seek (fun idx => new.values idx == 0) new.capacity (hashString s % new.capacity) =
      some (new.way (hashString s) k) := hseek
  rw [hs, Option.bind_some, htarget]
  refine ⟨_, rfl, h.place hf hm hskip hlt hzero ?_⟩
  have hempty : new.slots (new.way (hashString s) k) = .empty := by
    by_contra hne
    exact h.values _ hlt hne hzero
  cases hslot : map.slots m with
  | empty => exact absurd hslot (hf.not_empty m hm hskip.1)
  | deleted => exact (h.table.mark hempty).1
  | node p =>
    have hhome : ∀ j, new.way (hashString s) j = new.way (hashAt strings p) j := fun j => by
      unfold Table.way
      rw [hcap, hr.same_hash m hm p s hslot hs]
    have habsent : ¬new.Holds p := by
      rintro ⟨j, hj, hnew⟩
      obtain ⟨l, hl, hold, -⟩ := h.from_old j (hj.trans_eq hcap) p hnew
      exact hl.ne (hw.table.unique l m p (hl.trans hm) hm hold hslot)
    rw [hhome] at hempty ⊢
    refine (h.table.insert habsent hk (fun q hq => ?_) fun j hj => ?_).1
    · rw [hempty] at hq
      cases hq
    · rw [← hhome]
      exact hway j hj

/-- A rebuild keeps the keys and their values. -/
theorem StringMap.Wf.rebuild (hw : map.Wf strings) (hf : map.Filled) (hr : Rehashes text strings map new_size) :
    ∃ map' : StringMap, rebuildStringMap text map new_size = some map' ∧ map'.capacity = new_size ∧ map'.count = map.count ∧
      map'.Wf strings ∧ map'.Filled ∧ ∀ key p value, map'.Maps strings key p value ↔ map.Maps strings key p value := by
  have hall : ∀ m ≤ map.capacity, ∃ new, (List.range m).foldlM (rebuildStringStep text map)
      ⟨⟨fun _ => .empty, new_size⟩, fun _ => 0, map.count⟩ = some new ∧ Rebuilt strings map new_size m new := by
    intro m
    induction m with
    | zero => exact fun _ => ⟨_, rfl, .zero⟩
    | succ m ih =>
      intro hm
      obtain ⟨new, hfold, hnew⟩ := ih (by omega)
      obtain ⟨new', hstep, hnew'⟩ := hnew.step hw hf (by omega) hr
      refine ⟨new', ?_, hnew'⟩
      rw [List.range_succ, List.foldlM_append, hfold]
      simp [hstep]
  obtain ⟨new, hfold, h⟩ := hall _ le_rfl
  have hcap := h.capacity
  have hholds : ∀ p, new.Holds p → map.Holds p := by
    rintro p ⟨i, hi, hslot⟩
    obtain ⟨j, hj, hold, -⟩ := h.from_old i (hi.trans_eq hcap) p hslot
    exact ⟨j, hj, hold⟩
  refine ⟨new, hfold, hcap, h.count, ⟨h.table, fun p hp => hw.texts p (hholds p hp),
    fun p q hp hq => hw.distinct p q (hholds p hp) (hholds q hq), ?_⟩, ⟨fun i hi => h.not_empty i (hi.trans_eq hcap),
    fun i hi p hp => ?_⟩, fun key p value => ⟨?_, ?_⟩⟩
  · rw [h.count, hw.count, h.used]
    rfl
  · obtain ⟨j, hj, hold, hvalue⟩ := h.from_old i (hi.trans_eq hcap) p hp
    unfold StringMap.Valued
    rw [hvalue]
    exact hf.valued j hj p hold
  · rintro ⟨i, hi, hslot, hkey, rfl⟩
    obtain ⟨j, hj, hold, hvalue⟩ := h.from_old i (hi.trans_eq hcap) p hslot
    exact ⟨j, hj, hold, hkey, hvalue.symm⟩
  · rintro ⟨j, hj, hslot, hkey, rfl⟩
    obtain ⟨i, hi, hnew, hvalue⟩ := h.to_new j hj p hslot
    exact ⟨i, hi.trans_eq hcap.symm, hnew, hkey, hvalue⟩

/-- The size of the table that `testForResize` builds, if any. -/
def resizeTo (map : StringMap) : Option ℕ :=
  if map.capacity < minStringCapacity then some minStringCapacity
  else if minStringCapacity < map.capacity ∧ map.count * 4 < map.capacity then some (map.capacity / 2)
  else if map.capacity * 2 < map.count * 3 then some (map.capacity + map.capacity / 2)
  else none

def ResizesWell (text : ℕ → Option (List UInt8)) (strings : Strings) (map : StringMap) : Prop :=
  ∀ new_size ∈ resizeTo map, Rehashes text strings map new_size

theorem testForStringResize_eq : testForStringResize text map =
    (resizeTo map).elim (some map) (rebuildStringMap text map) := by
  unfold testForStringResize resizeTo
  split_ifs <;> rfl

theorem StringMap.Wf.resizesWell (hw : map.Wf strings) (hf : map.Filled) (hr : ResizesWell text strings map) :
    ∃ map' : StringMap, testForStringResize text map = some map' ∧ map'.count = map.count ∧ map'.count < map'.capacity ∧
      map'.Wf strings ∧ map'.Filled ∧ ∀ key p value, map'.Maps strings key p value ↔ map.Maps strings key p value := by
  have hcount : map.count ≤ map.capacity := by
    rw [hw.count]
    exact (Finset.card_filter_le _ _).trans_eq (Finset.card_range _)
  rw [testForStringResize_eq]
  cases hresize : resizeTo map with
  | none =>
    refine ⟨map, rfl, rfl, ?_, hw, hf, fun _ _ _ => Iff.rfl⟩
    unfold resizeTo at hresize
    split_ifs at hresize
    simp only [minStringCapacity] at *
    omega
  | some new_size =>
    obtain ⟨map', hrebuild, hcap, hcount', hrest⟩ := hw.rebuild hf (hr new_size hresize)
    refine ⟨map', hrebuild, hcount', ?_, hrest⟩
    rw [hcap, hcount']
    unfold resizeTo at hresize
    split_ifs at hresize <;> simp only [minStringCapacity, Option.some.injEq] at * <;> omega

end SomeOs.Files

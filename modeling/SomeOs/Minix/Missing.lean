import SomeOs.Minix.Supply

/-! # The zones that a write needs

The zones that a write adds to the tree of a file are counted before it is made.
It fails exactly when the zone map has fewer free zones, and it has then stored
the bytes for which the free zones are enough.
-/
namespace SomeOs.Minix
open ByteStore

def freeZones (sb : Minix3Superblock) (disk : Store) : ℕ :=
  {z ∈ Finset.range sb.zones | mapBit disk (zoneMapOffset sb) z = false}.card

/-- What a list of slots is missing for the bytes from `start` to `stop`. -/
def missingOver (slot : Slot → ℕ → ℕ → ℕ) : List Slot → ℕ → ℕ → ℕ
  | [], _, _ => 0
  | p :: rest, start, stop =>
    slot p start stop + missingOver slot rest (start - zoneSize p.1) (stop - zoneSize p.1)

/-- The pointers of an indirect zone, which are zero in one still to be allocated. -/
def tableOf (disk : Store) (zone : ℕ) : List ℕ :=
  if zone = 0 then List.replicate numIptrs 0 else zoneTable disk zone

/-- The zones that a slot is missing for the bytes from `start` to `stop`. -/
def slotMissing (disk : Store) : ℕ → ℕ → ℕ → ℕ → ℕ
  | 0, zone, start, stop =>
    if start < stop ∧ start < zoneSize 0 then (if zone = 0 then 1 else 0) else 0
  | depth + 1, zone, start, stop =>
    if start < stop ∧ start < zoneSize (depth + 1) then
      (if zone = 0 then 1 else 0) + missingOver (fun p => slotMissing disk depth p.2)
        (tableSlots depth (tableOf disk zone)) start stop
    else 0

def slotsMissing (disk : Store) : List Slot → ℕ → ℕ → ℕ :=
  missingOver (fun p => slotMissing disk p.1 p.2)

/-- The zones that a file is missing for the bytes from `start` to `stop`. -/
def fileMissing (disk : Store) (node : MinixVfsNode) : ℕ → ℕ → ℕ :=
  slotsMissing disk (inodeSlots node.zones)

section Missing
variable {disk disk' : Store} {l : List Slot} {depth zone start stop : ℕ}

theorem missingOver_congr {f g : Slot → ℕ → ℕ → ℕ} (h : ∀ p ∈ l, ∀ a b, f p a b = g p a b) :
    missingOver f l start stop = missingOver g l start stop := by
  induction l generalizing start stop with
  | nil => rfl
  | cons p l ih =>
    simp only [missingOver, h p List.mem_cons_self, ih (fun q hq => h q (List.mem_cons_of_mem _ hq))]

@[simp] theorem slotsMissing_nil : slotsMissing disk [] start stop = 0 := rfl

@[simp] theorem slotsMissing_cons (p : Slot) :
    slotsMissing disk (p :: l) start stop = slotMissing disk p.1 p.2 start stop +
      slotsMissing disk l (start - zoneSize p.1) (stop - zoneSize p.1) := rfl

theorem slotMissing_succ :
    slotMissing disk (depth + 1) zone start stop =
      if start < stop ∧ start < zoneSize (depth + 1) then
        (if zone = 0 then 1 else 0) + slotsMissing disk (tableSlots depth (tableOf disk zone)) start stop
      else 0 := by
  have htable : missingOver (fun p => slotMissing disk depth p.2) (tableSlots depth (tableOf disk zone))
      start stop = slotsMissing disk (tableSlots depth (tableOf disk zone)) start stop := by
    apply missingOver_congr
    intro p hp a b
    obtain ⟨z, _, rfl⟩ := List.mem_map.mp hp
    rfl
  simp only [slotMissing, htable]

theorem slotMissing_none (h : stop ≤ start ∨ zoneSize depth ≤ start) :
    slotMissing disk depth zone start stop = 0 := by
  have hno : ¬ (start < stop ∧ start < zoneSize depth) := by omega
  cases depth with
  | zero => simp only [slotMissing, if_neg hno]
  | succ depth => rw [slotMissing_succ, if_neg hno]

theorem slotsMissing_none (h : stop ≤ start ∨ slotsSize l ≤ start) :
    slotsMissing disk l start stop = 0 := by
  induction l generalizing start stop with
  | nil => rfl
  | cons p l ih =>
    rw [slotsSize_cons] at h
    have hp : stop ≤ start ∨ zoneSize p.1 ≤ start := by omega
    have hl : stop - zoneSize p.1 ≤ start - zoneSize p.1 ∨ slotsSize l ≤ start - zoneSize p.1 := by
      omega
    rw [slotsMissing_cons, slotMissing_none hp, ih hl]

theorem slotsSize_tableOf (disk : Store) (depth zone : ℕ) :
    slotsSize (tableSlots depth (tableOf disk zone)) = zoneSize (depth + 1) := by
  rw [slotsSize_table, zoneSize_succ]
  unfold tableOf
  split_ifs
  · rw [List.length_replicate]
  · rw [zoneTable_length]

theorem slotsMissing_full {stop' : ℕ}
    (hslot : ∀ p ∈ l, ∀ a b b', zoneSize p.1 ≤ b → zoneSize p.1 ≤ b' →
      slotMissing disk p.1 p.2 a b = slotMissing disk p.1 p.2 a b')
    (h : slotsSize l ≤ stop) (h' : slotsSize l ≤ stop') :
    slotsMissing disk l start stop = slotsMissing disk l start stop' := by
  induction l generalizing start stop stop' with
  | nil => rfl
  | cons p l ih =>
    rw [slotsSize_cons] at h h'
    rw [slotsMissing_cons, slotsMissing_cons,
      hslot p List.mem_cons_self start stop stop' (by omega) (by omega),
      @ih _ (stop - zoneSize p.1) (stop' - zoneSize p.1) (fun q hq => hslot q (List.mem_cons_of_mem _ hq))
        (by omega) (by omega)]

theorem slotMissing_full {stop' : ℕ} (h : zoneSize depth ≤ stop) (h' : zoneSize depth ≤ stop') :
    slotMissing disk depth zone start stop = slotMissing disk depth zone start stop' := by
  induction depth generalizing zone start stop stop' with
  | zero =>
    have hiff : (start < stop ∧ start < zoneSize 0) ↔ (start < stop' ∧ start < zoneSize 0) := by omega
    simp only [slotMissing, hiff]
  | succ depth ih =>
    have hiff : (start < stop ∧ start < zoneSize (depth + 1)) ↔
        (start < stop' ∧ start < zoneSize (depth + 1)) := by omega
    have htable : slotsMissing disk (tableSlots depth (tableOf disk zone)) start stop =
        slotsMissing disk (tableSlots depth (tableOf disk zone)) start stop' := by
      apply slotsMissing_full
      · intro p hp a b b' hb hb'
        obtain ⟨z, _, rfl⟩ := List.mem_map.mp hp
        exact ih hb hb'
      · rw [slotsSize_tableOf]
        exact h
      · rw [slotsSize_tableOf]
        exact h'
    simp only [slotMissing_succ, hiff, htable]

theorem slotsMissing_mono {stop' : ℕ} (hslot : ∀ p ∈ l, ∀ a b b', b ≤ b' →
    slotMissing disk p.1 p.2 a b ≤ slotMissing disk p.1 p.2 a b') (h : stop ≤ stop') :
    slotsMissing disk l start stop ≤ slotsMissing disk l start stop' := by
  induction l generalizing start stop stop' with
  | nil => exact le_rfl
  | cons p l ih =>
    have hp := hslot p List.mem_cons_self start stop stop' h
    have hrest := @ih (start - zoneSize p.1) _ _ (fun q hq => hslot q (List.mem_cons_of_mem _ hq))
      (Nat.sub_le_sub_right h (zoneSize p.1))
    simp only [slotsMissing_cons]
    omega

theorem slotMissing_mono {stop' : ℕ} (h : stop ≤ stop') :
    slotMissing disk depth zone start stop ≤ slotMissing disk depth zone start stop' := by
  induction depth generalizing zone start stop stop' with
  | zero =>
    by_cases hin : start < stop ∧ start < zoneSize 0
    · have hin' : start < stop' ∧ start < zoneSize 0 := by omega
      simp only [slotMissing, if_pos hin, if_pos hin', le_refl]
    · simp only [slotMissing, if_neg hin, Nat.zero_le]
  | succ depth ih =>
    by_cases hin : start < stop ∧ start < zoneSize (depth + 1)
    · have hin' : start < stop' ∧ start < zoneSize (depth + 1) := by omega
      rw [slotMissing_succ, slotMissing_succ, if_pos hin, if_pos hin']
      apply Nat.add_le_add_left
      apply slotsMissing_mono _ h
      intro p hp a b b' hb
      obtain ⟨z, _, rfl⟩ := List.mem_map.mp hp
      exact ih hb
    · rw [slotMissing_succ, if_neg hin]
      exact Nat.zero_le _

theorem fileMissing_mono {node : MinixVfsNode} {stop' : ℕ} (h : stop ≤ stop') :
    fileMissing disk node start stop ≤ fileMissing disk node start stop' :=
  slotsMissing_mono (fun _ _ _ _ _ hb => slotMissing_mono hb) h

/-- What is missing only depends on the zones of the tree. -/
theorem slotMissing_congr (h : ∀ a, a / blockSize ∈ slotZones disk depth zone → disk' a = disk a) :
    slotMissing disk' depth zone start stop = slotMissing disk depth zone start stop := by
  induction depth generalizing zone start stop with
  | zero => rfl
  | succ depth ih =>
    have htable : tableOf disk' zone = tableOf disk zone := by
      unfold tableOf
      split_ifs with hz
      · rfl
      · rw [slotZones_succ hz] at h
        exact zoneTable_congr (fun a ha => h a (ha ▸ List.mem_cons_self))
    rw [slotMissing_succ, slotMissing_succ, htable]
    have hslots : slotsMissing disk' (tableSlots depth (tableOf disk zone)) start stop =
        slotsMissing disk (tableSlots depth (tableOf disk zone)) start stop := by
      apply missingOver_congr
      intro p hp a b
      obtain ⟨z, hzm, rfl⟩ := List.mem_map.mp hp
      apply ih
      intro a ha
      by_cases hz : zone = 0
      · have hz0 : z = 0 := by
          rw [tableOf, if_pos hz] at hzm
          exact List.eq_of_mem_replicate hzm
        simp [hz0] at ha
      · rw [tableOf, if_neg hz] at hzm
        apply h
        rw [slotZones_succ hz]
        exact List.mem_cons_of_mem _ (List.mem_flatMap.mpr ⟨(depth, z), List.mem_map.mpr ⟨z, hzm, rfl⟩, ha⟩)
    rw [hslots]

theorem slotsMissing_congr (h : ∀ a, a / blockSize ∈ slotsZones disk l → disk' a = disk a) :
    slotsMissing disk' l start stop = slotsMissing disk l start stop := by
  apply missingOver_congr
  intro p hp a b
  apply slotMissing_congr
  intro x hx
  exact h x (List.mem_flatMap.mpr ⟨p, hp, hx⟩)

/-- A new zone of zeros is one zone less that is missing. -/
theorem slotMissing_zeroed (hz : zone ≠ 0) (h : ∀ a, a / blockSize = zone → disk' a = 0)
    (hlt : start < stop ∧ start < zoneSize depth) :
    slotMissing disk depth 0 start stop = slotMissing disk' depth zone start stop + 1 := by
  cases depth with
  | zero => simp [slotMissing, hlt, hz]
  | succ depth =>
    have htable : tableOf disk' zone = tableOf disk 0 := by
      rw [tableOf, if_neg hz, tableOf, if_pos rfl, List.eq_replicate_iff]
      exact ⟨zoneTable_length _ _, fun w hw => zoneTable_zeroed h hw⟩
    have hholes : slotsMissing disk' (tableSlots depth (tableOf disk 0)) start stop =
        slotsMissing disk (tableSlots depth (tableOf disk 0)) start stop := by
      apply slotsMissing_congr
      intro a ha
      have hnone : slotsZones disk (tableSlots depth (tableOf disk 0)) = [] := by
        apply slotsZones_holes
        intro p hp
        obtain ⟨z, hzm, rfl⟩ := List.mem_map.mp hp
        rw [tableOf, if_pos rfl] at hzm
        exact List.eq_of_mem_replicate hzm
      rw [hnone] at ha
      cases ha
    rw [slotMissing_succ, slotMissing_succ, if_pos hlt, if_pos hlt, if_pos rfl, if_neg hz, htable, hholes]
    omega

end Missing

end SomeOs.Minix

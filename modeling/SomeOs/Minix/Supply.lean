import SomeOs.Minix.Contents
import SomeOs.Minix.Truncate

/-! # Where allocated zones come from

A write takes zones whose bit of the zone map is clear and sets it. When the
metadata zones and all zones in use have their bits set, what it takes is fresh.
-/
namespace SomeOs.Minix
open ByteStore

structure Stocked (sb : Minix3Superblock) (zones : List ℕ) (disk : Store) : Prop where
  separate : Separate sb zones
  set : ∀ z ∈ zones, z < sb.zones ∧ mapBit disk (zoneMapOffset sb) z = true
  clear : ∀ z < sb.zones, mapBit disk (zoneMapOffset sb) z = false → sb.first_data_zone ≤ z

/-- The zones of `new` were taken from the zone map. -/
structure Taken (sb : Minix3Superblock) (new : List ℕ) (disk disk' : Store) : Prop where
  nodup : new.Nodup
  clear : ∀ z ∈ new, z < sb.zones ∧ mapBit disk (zoneMapOffset sb) z = false
  bits : ∀ b < sb.zones, mapBit disk' (zoneMapOffset sb) b =
    (mapBit disk (zoneMapOffset sb) b || decide (b ∈ new))

def Supplied (sb : Minix3Superblock) (st st' : RWState) : Prop :=
  ∃ new, st'.udata.allocated = st.udata.allocated ++ new ∧ Taken sb new.reduceOption st.disk st'.disk

section Basics
variable {sb : Minix3Superblock} {zones new new' : List ℕ} {disk disk₁ disk₂ : Store} {st st₁ st₂ : RWState}

theorem Taken.refl (hl : Layout sb) (h : ∀ a, InMap sb a → disk₁ a = disk a) : Taken sb [] disk disk₁ :=
  ⟨List.nodup_nil, by simp, fun b hb => by simp [mapBit_keep hl h hb]⟩

theorem Taken.trans (h : Taken sb new disk disk₁) (h' : Taken sb new' disk₁ disk₂) :
    Taken sb (new ++ new') disk disk₂ := by
  have hclear : ∀ z ∈ new', mapBit disk (zoneMapOffset sb) z = false ∧ z ∉ new := by
    intro z hz
    obtain ⟨hlt, hbit⟩ := h'.clear z hz
    rw [h.bits z hlt] at hbit
    simpa using hbit
  refine ⟨?_, fun z hz => ?_, fun b hb => ?_⟩
  · rw [List.nodup_append']
    exact ⟨h.nodup, h'.nodup, fun z hz hz' => (hclear z hz').2 hz⟩
  · rcases List.mem_append.mp hz with hz | hz
    · exact h.clear z hz
    · exact ⟨(h'.clear z hz).1, (hclear z hz).1⟩
  · rw [h'.bits b hb, h.bits b hb]
    simp only [List.mem_append, Bool.decide_or, Bool.or_assoc]

theorem Supplied.refl (hl : Layout sb) (hu : st₁.udata.allocated = st.udata.allocated)
    (h : ∀ a, InMap sb a → st₁.disk a = st.disk a) : Supplied sb st st₁ :=
  ⟨[], by simp [hu], .refl hl h⟩

theorem Supplied.trans (h : Supplied sb st st₁) (h' : Supplied sb st₁ st₂) : Supplied sb st st₂ := by
  obtain ⟨new, hn, ht⟩ := h
  obtain ⟨new', hn', ht'⟩ := h'
  refine ⟨new ++ new', by rw [hn', hn, List.append_assoc], ?_⟩
  rw [List.reduceOption_append]
  exact ht.trans ht'

theorem Stocked.fresh (h : Stocked sb zones disk) (hle : sb.zones ≤ 2 ^ 32) (ht : Taken sb new disk disk₁) :
    Separate sb (zones ++ new) where
  nodup := by
    rw [List.nodup_append']
    refine ⟨h.separate.nodup, ht.nodup, fun z hz hz' => ?_⟩
    have h1 := (h.set z hz).2
    have h2 := (ht.clear z hz').2
    rw [h1] at h2
    cases h2
  data := by
    intro z hz
    rcases List.mem_append.mp hz with hz | hz
    · exact h.separate.data z hz
    · obtain ⟨hlt, hbit⟩ := ht.clear z hz
      exact ⟨h.clear z hlt hbit, by omega⟩

theorem Stocked.take (h : Stocked sb zones disk) (hle : sb.zones ≤ 2 ^ 32) (ht : Taken sb new disk disk₁) :
    Stocked sb (zones ++ new) disk₁ where
  separate := h.fresh hle ht
  set := by
    intro z hz
    rcases List.mem_append.mp hz with hz | hz
    · have hs := h.set z hz
      exact ⟨hs.1, by rw [ht.bits z hs.1, hs.2, Bool.true_or]⟩
    · have hc := ht.clear z hz
      exact ⟨hc.1, by rw [ht.bits z hc.1]; simp [hz]⟩
  clear := by
    intro z hz hbit
    rw [ht.bits z hz, Bool.or_eq_false_iff] at hbit
    exact h.clear z hz hbit.1

theorem Stocked.of_count {ys : List ℕ} (h : Stocked sb zones disk)
    (hc : ∀ z, ys.count z ≤ zones.count z) : Stocked sb ys disk where
  separate := h.separate.of_count hc
  set := fun z hz => h.set z (List.count_pos_iff.mp (by
    have := List.count_pos_iff.mpr hz
    have := hc z
    omega))
  clear := h.clear

end Basics

section Walk
variable {sb : Minix3Superblock} {offset depth zone : ℕ} {st : RWState}

theorem checked_supplied {r : Outcome × ℕ × RWState} {k : ℕ → RWState → Outcome × ℕ × RWState}
    (hr : Supplied sb st r.2.2) (hk : ∀ zone st, Supplied sb st (k zone st).2.2) :
    Supplied sb st (checked r k).2.2 := by
  obtain ⟨out, zone, st'⟩ := r
  cases out with
  | success => exact hr.trans (hk zone st')
  | successExit => exact hr
  | error e => exact hr
  | divideByZero => exact hr

theorem callback_post_state (sb : Minix3Superblock) (zone position size : ℕ) (st : RWState) :
    (minixRWZoneWalkCallback sb zone position size .post st).2.2 = st := by
  simp [minixRWZoneWalkCallback, checked]

/-- What the allocation of a zone takes from the map. -/
theorem allocateZone_supplied (hl : Layout sb)
    (hclear : ∀ z < sb.zones, mapBit st.disk (zoneMapOffset sb) z = false → sb.first_data_zone ≤ z) :
    Supplied sb st (allocateZone sb 0 st).2.2 := by
  rcases genericMinixGetBitMap_spec st.disk (zoneMapOffset sb) sb.zones with
    ⟨k, hk, he, hbit, _⟩ | ⟨he, _⟩
  · have hget : getFreeMinixZone sb st.disk = some (k, setMapBit st.disk (zoneMapOffset sb) k) := he
    have hdata := hclear k hk hbit
    simp only [allocateZone, hget]
    refine ⟨[some k], rfl, by simp [List.reduceOption], by simpa [List.reduceOption] using ⟨hk, hbit⟩,
      fun b hb => ?_⟩
    have hkeep : ∀ a, InMap sb a →
        ByteStore.write (setMapBit st.disk (zoneMapOffset sb) k) (offsetForZone k)
          (List.replicate blockSize 0) a = setMapBit st.disk (zoneMapOffset sb) k a := by
      intro a ha
      have := ha.before_data hl
      apply write_outside
      simp only [offsetForZone, blockSize, List.length_replicate] at *
      omega
    rw [mapBit_keep hl hkeep hb, mapBit_setMapBit]
    simp [List.reduceOption, Bool.or_comm]
  · have hget : getFreeMinixZone sb st.disk = none := he
    simp only [allocateZone, hget]
    exact ⟨[none], rfl, .refl hl (fun _ _ => rfl)⟩

/-- A zone of zeros was allocated for the slot that a write walk is at. -/
structure Allocated (sb : Minix3Superblock) (offset depth zone : ℕ) (st st₁ : RWState) : Prop where
  ne_zero : zone ≠ 0
  writing : Writing offset st₁
  stocked : Stocked sb (slotZones st₁.disk depth zone) st₁.disk
  taken : Taken sb [zone] st.disk st₁.disk
  udata : st₁.udata = { st.udata with allocated := st.udata.allocated ++ [some zone] }
  position : st₁.position = st.position
  zeros : ∀ a, a / blockSize = zone → st₁.disk a = 0

/-- An allocation from a stocked map that answers. -/
theorem allocateZone_stocked {disk : Store} (depth : ℕ) (hl : Layout sb) (hpos : 0 < sb.first_data_zone)
    (hle : sb.zones ≤ 2 ^ 32) (hget : getFreeMinixZone sb st.disk = some (zone, disk))
    (hw : Writing offset st) (hs : Stocked sb [] st.disk) :
    ∃ st₁, allocateZone sb 0 st = (.success, zone, st₁) ∧ Allocated sb offset depth zone st st₁ := by
  have hlog : (allocateZone sb 0 st).2.2.udata.allocated = st.udata.allocated ++ [some zone] := by
    simp [allocateZone, hget]
  have hdisk : (allocateZone sb 0 st).2.2.disk =
      ByteStore.write disk (offsetForZone zone) (List.replicate blockSize 0) := by
    simp [allocateZone, hget]
  obtain ⟨new, hnew, ht⟩ := allocateZone_supplied hl hs.clear
  obtain rfl : new = [some zone] := by
    rw [hlog] at hnew
    exact (List.append_cancel_left hnew).symm
  simp only [List.reduceOption_cons_of_some, List.reduceOption_nil] at ht
  have hs₁ := hs.take hle ht
  rw [List.nil_append] at hs₁
  have hz : zone ≠ 0 := by
    have := (hs₁.separate.data zone List.mem_cons_self).1
    omega
  obtain ⟨st₁, ha, hg, hu, hp, _⟩ := allocateZone_grown depth hl hget hs₁.separate hz
  rw [ha] at hs₁ ht hdisk
  have hw₁ : Writing offset st₁ :=
    ⟨by rw [hu]; exact hw.write, by rw [hu]; exact hw.offset_eq, by rw [hu]; exact hw.left,
      by rw [hp]; exact hw.aligned, by rw [hu]; exact hw.buffer⟩
  have hs₂ : Stocked sb (slotZones st₁.disk depth zone) st₁.disk := hs₁.of_count (fun z => by
    have := hg.zones z
    simp only [slotsZones_cons, slotsZones_nil, List.append_nil, slotZones_hole, List.count_nil,
      List.reduceOption_cons_of_some, List.reduceOption_nil] at this
    omega)
  refine ⟨st₁, ha, hz, hw₁, hs₂, ht, hu, hp, fun a haz => ?_⟩
  rw [hdisk]
  exact write_zeros disk haz

theorem transferZone_supplied (hl : Layout sb) (hw : Writing offset st)
    (hlt : offset < st.position + zoneSize 0) (hz : zone ≠ 0) (hdata : sb.first_data_zone ≤ zone) :
    Supplied sb st (transferZone zone st.position (zoneSize 0) st).2.2 := by
  obtain ⟨st', he, _, _, hframe, hu, _⟩ := transferZone_write sb hw hlt hz
  rw [he]
  refine .refl hl (by rw [hu]) (fun a ha => hframe a ?_)
  have := ha.before_data hl
  omega

def MiddleSupplies (sb : Minix3Superblock) (offset depth : ℕ)
    (middle : ℕ → RWState → Outcome × ℕ × RWState) : Prop :=
  ∀ zone st, zone ≠ 0 → Writing offset st → offset < st.position + zoneSize depth →
    Stocked sb (slotZones st.disk depth zone) st.disk → Supplied sb st (middle zone st).2.2

variable {middle : ℕ → RWState → Outcome × ℕ × RWState}

theorem slotRest_supplied (hl : Layout sb) {size : ℕ} (hmid : Supplied sb st (middle zone st).2.2) :
    Supplied sb st (slotRest (minixRWZoneWalkCallback sb) size middle zone st).2.2 := by
  unfold slotRest
  refine checked_supplied (checked_supplied hmid (fun zone st => ?_)) (fun zone st => ?_)
  · rw [callback_post_state]
    exact .refl hl rfl (fun _ _ => rfl)
  · exact .refl hl rfl (fun _ _ => rfl)

/-- One slot takes what it records. -/
theorem scanSlot_supplied (hl : Layout sb) (hpos : 0 < sb.first_data_zone) (hle : sb.zones ≤ 2 ^ 32)
    (hmid : MiddleSupplies sb offset depth middle) (hw : Writing offset st)
    (hs : Stocked sb (slotZones st.disk depth zone) st.disk) :
    Supplied sb st (scanSlot (minixRWZoneWalkCallback sb) offset (zoneSize depth) middle zone st).2.2 := by
  by_cases hlt : offset < st.position + zoneSize depth
  · rw [scanSlot_visit hlt]
    by_cases hz : zone = 0
    · subst hz
      rw [callback_pre_hole hw.write hw.left]
      have hsup := allocateZone_supplied hl hs.clear
      cases hget : getFreeMinixZone sb st.disk with
      | none =>
        simp only [allocateZone, hget, checked] at hsup ⊢
        exact hsup
      | some p =>
        obtain ⟨k, disk⟩ := p
        obtain ⟨st₁, ha, h₁⟩ := allocateZone_stocked depth hl hpos hle hget hw (hs.of_count (by simp))
        rw [ha] at hsup ⊢
        have hleft : st₁.udata.left ≠ 0 := by
          have := h₁.writing.left
          omega
        have hvisit : offset < st₁.position + zoneSize depth := by
          rw [h₁.position]
          exact hlt
        simp only [checked, if_neg hleft]
        exact Supplied.trans hsup
          (slotRest_supplied hl (hmid k st₁ h₁.ne_zero h₁.writing hvisit h₁.stocked))
    · rw [callback_pre_full hz hw.left]
      exact slotRest_supplied hl (hmid zone st hz hw hlt hs)
  · simp only [scanSlot, if_neg hlt, checked]
    exact .refl hl rfl (fun _ _ => rfl)

def SlotSupplies (sb : Minix3Superblock) (offset depth : ℕ) : Prop :=
  ∀ zone st, Writing offset st → Stocked sb (slotZones st.disk depth zone) st.disk →
    Supplied sb st (walkSlot (minixRWZoneWalkCallback sb) offset depth zone st).2.2

/-- A scan takes what it records. The slots that follow a written one are as before,
since what was taken is fresh. -/
theorem walkSlots_supplied (hl : Layout sb) (hpos : 0 < sb.first_data_zone) (hle : sb.zones ≤ 2 ^ 32)
    {slots : List Slot} (hslots : ∀ p ∈ slots, SlotSupplies sb offset p.1) (hw : Writing offset st)
    (hs : Stocked sb (slotsZones st.disk slots) st.disk) :
    Supplied sb st (walkSlots (minixRWZoneWalkCallback sb) offset slots st).2.2 := by
  induction slots generalizing st with
  | nil => exact .refl hl rfl (fun _ _ => rfl)
  | cons p slots ih =>
    have hs₀ : Stocked sb (slotZones st.disk p.1 p.2) st.disk :=
      hs.of_count (fun z => by simp [List.count_append])
    have hsup := hslots p List.mem_cons_self p.2 st hw hs₀
    have ⟨new, hnew, ht⟩ := hsup
    obtain ⟨out, zone', st₁, he, hstep⟩ :=
      walkSlot_write hl hpos offset p.1 p.2 st new hw hnew (hs₀.fresh hle ht)
    rw [he] at hsup ht
    simp only [walkSlots, he]
    cases out with
    | success =>
      have hs₁ := hs.take hle ht
      have hkeep : ∀ a, a / blockSize ∈ slotsZones st.disk slots → st₁.disk a = st.disk a :=
        fun a ha => hstep.grown.keeps_right hl hs₁.separate ha
      refine hsup.trans (ih (fun q hq => hslots q (List.mem_cons_of_mem _ hq)) (hstep.next hw) ?_)
      rw [slotsZones_congr hkeep]
      exact hs₁.of_count (fun z => by
        simp only [slotsZones_cons, List.count_append]
        omega)
    | successExit => exact hsup
    | error e => exact hsup
    | divideByZero => exact hsup

/-- Walking and storing the table of an indirect slot takes what it records. -/
theorem walkTable_supplied (hl : Layout sb) (hpos : 0 < sb.first_data_zone) (hle : sb.zones ≤ 2 ^ 32)
    (ih : SlotSupplies sb offset depth) (hz : zone ≠ 0) (hw : Writing offset st)
    (hs : Stocked sb (slotZones st.disk (depth + 1) zone) st.disk) :
    Supplied sb st (walkTable (walkSlot (minixRWZoneWalkCallback sb) offset depth) zone st).2.2 := by
  rw [slotZones_succ hz] at hs
  have hscan : scanTable (walkSlot (minixRWZoneWalkCallback sb) offset depth)
      (zoneTable st.disk zone) { st with changed := false } =
      walkSlots (minixRWZoneWalkCallback sb) offset (tableSlots depth (zoneTable st.disk zone))
        { st with changed := false } := recScan_eq _ _ _ _ _
  have hslots : ∀ p ∈ tableSlots depth (zoneTable st.disk zone), SlotSupplies sb offset p.1 := by
    intro p hp
    obtain ⟨z, _, rfl⟩ := List.mem_map.mp hp
    exact ih
  have hw' : Writing offset { st with changed := false } :=
    ⟨hw.write, hw.offset_eq, hw.left, hw.aligned, hw.buffer⟩
  have hrun : Supplied sb st (walkSlots (minixRWZoneWalkCallback sb) offset
      (tableSlots depth (zoneTable st.disk zone)) { st with changed := false }).2.2 :=
    walkSlots_supplied hl hpos hle hslots hw' (hs.of_count (fun z => by simp [List.count_cons]))
  simp only [walkTable, hscan]
  refine hrun.trans (.refl hl rfl (fun a ha => ?_))
  simp only
  split_ifs
  · have := ha.before_data hl
    have hdata := (hs.separate.data zone List.mem_cons_self).1
    apply write_outside
    left
    simp only [offsetForZone, blockSize] at *
    omega
  · rfl

theorem walkSlot_supplied (hl : Layout sb) (hpos : 0 < sb.first_data_zone) (hle : sb.zones ≤ 2 ^ 32)
    (offset depth : ℕ) : SlotSupplies sb offset depth := by
  induction depth with
  | zero =>
    intro zone st hw hs
    refine scanSlot_supplied hl hpos hle (fun zone st hz hw hlt hs => ?_) hw hs
    have hdata := (hs.separate.data zone (by simp [slotZones, hz])).1
    rw [callback_mid hw.left]
    refine checked_supplied (transferZone_supplied hl hw hlt hz hdata) (fun zone st => ?_)
    exact .refl hl rfl (fun _ _ => rfl)
  | succ depth ih =>
    intro zone st hw hs
    refine scanSlot_supplied hl hpos hle (fun zone st hz hw _ hs => ?_) hw hs
    simp only [if_neg hz]
    exact walkTable_supplied hl hpos hle ih hz hw hs

end Walk

section Write
variable {sb : Minix3Superblock} {s : FsState} {i : ℕ} {node : MinixVfsNode}

/-- What a write takes from the map. -/
theorem minixWriteAt_taken (hl : Layout sb) (hpos : 0 < sb.first_data_zone) (hle : sb.zones ≤ 2 ^ 32)
    {disk : Store} (hn : NodeOf sb node) (hs : Stocked sb (fileZones disk node) disk)
    (buff : List UInt8) (offset : ℕ) :
    Taken sb (minixWriteAt sb disk node buff offset).allocated.reduceOption disk
      (minixWriteAt sb disk node buff offset).disk := by
  by_cases hzero : buff.length = 0
  · have hnil : buff = [] := List.length_eq_zero_iff.mp hzero
    subst hnil
    exact .refl hl (fun _ _ => rfl)
  · have hw : Writing offset (writeStart disk buff offset) :=
      ⟨rfl, rfl, Nat.pos_of_ne_zero hzero, Dvd.intro 0 rfl, rfl⟩
    rw [minixWriteAt_eq hzero, finishWrite_allocated]
    have ⟨new, hnew, ht⟩ := walkSlots_supplied hl hpos hle
      (fun p _ => walkSlot_supplied hl hpos hle offset p.1) hw hs
    have hlen := walkSlots_length (minixRWZoneWalkCallback sb) offset (inodeSlots node.zones)
      (writeStart disk buff offset)
    obtain ⟨_, _, hdisk⟩ := finishWrite_fields sb node buff.length offset
      (hlen.trans (by simp [inodeSlots_zip hn.zones, hn.zones]))
    have hlog : (writeStart disk buff offset).udata.allocated = [] := rfl
    rw [hlog, List.nil_append] at hnew
    rw [hnew]
    have hkeep := Taken.refl hl (fun a (ha : InMap sb a) => hdisk a (fun hi => by
      have := (hi.bounds hl hn).1
      have := ha.2
      omega))
    have htaken := ht.trans hkeep
    rw [List.append_nil] at htaken
    exact htaken

end Write


end SomeOs.Minix

import SomeOs.Minix.ReadSpec

/-! # What a write walk stores

A write walk adds the zones it allocates to the tree of the file, changes no
address outside of these zones and of the zone map, and stores its bytes in the
slots it visits. Allocated zones are assumed to be data zones that no slot refers
to.
-/
namespace SomeOs.Minix
open ByteStore

/-- The metadata areas of the device are in order and before the data zones. -/
structure Layout (sb : Minix3Superblock) : Prop where
  map : zoneMapOffset sb + (sb.zones + 7) / 8 ≤ offsetForINode sb 1
  inodes : offsetForINode sb 1 + sb.ninodes * inodeSize ≤ sb.first_data_zone * blockSize

def InMap (sb : Minix3Superblock) (a : ℕ) : Prop := zoneMapOffset sb ≤ a ∧ a < offsetForINode sb 1

structure Separate (sb : Minix3Superblock) (zones : List ℕ) : Prop where
  nodup : zones.Nodup
  data : ∀ z ∈ zones, sb.first_data_zone ≤ z ∧ z < 2 ^ 32

/-- The structural effect of a write: the slots `l` became `l'`, and the zones of
`new` were added to their trees. -/
structure Grown (sb : Minix3Superblock) (l l' : List Slot) (new : List (Option ℕ)) (st st' : RWState) :
    Prop where
  depths : l'.map Prod.fst = l.map Prod.fst
  sub : ∀ p ∈ l', p ∈ l ∨ some p.2 ∈ new
  zones : ∀ z, (slotsZones st'.disk l').count z =
    (slotsZones st.disk l).count z + new.reduceOption.count z
  frame : ∀ a, a / blockSize ∉ slotsZones st.disk l → a / blockSize ∉ new.reduceOption →
    ¬ InMap sb a → st'.disk a = st.disk a
  changed : st'.changed = false → l' = l ∧ st.changed = false

section Separation
variable {sb : Minix3Superblock}

theorem Separate.of_count {zs ys : List ℕ} (h : Separate sb zs) (hc : ∀ z, ys.count z ≤ zs.count z) :
    Separate sb ys where
  nodup := by
    rw [List.nodup_iff_count_le_one]
    intro z
    exact (hc z).trans (List.nodup_iff_count_le_one.mp h.nodup z)
  data := fun z hz => h.data z (List.count_pos_iff.mp (by
    have := List.count_pos_iff.mpr hz
    have := hc z
    omega))

theorem Separate.disjoint {xs ys : List ℕ} (h : Separate sb (xs ++ ys)) {z : ℕ} (hx : z ∈ xs) :
    z ∉ ys := fun hy => (List.disjoint_of_nodup_append h.nodup) hx hy

theorem not_inMap (hl : Layout sb) {a : ℕ} (h : sb.first_data_zone ≤ a / blockSize) :
    ¬ InMap sb a := by
  rintro ⟨_, ha⟩
  have := hl.inodes
  have := Nat.div_mul_le_self a blockSize
  have := Nat.mul_le_mul_right blockSize h
  omega

theorem inMap_of_lt {z : ℕ} (hl : Layout sb) (hz : z < sb.zones) :
    InMap sb (zoneMapOffset sb + z / 8) := by
  have := hl.map
  exact ⟨by omega, by omega⟩

theorem mapBit_keep {disk disk' : Store} (hl : Layout sb)
    (h : ∀ a, InMap sb a → disk' a = disk a) {b : ℕ} (hb : b < sb.zones) :
    mapBit disk' (zoneMapOffset sb) b = mapBit disk (zoneMapOffset sb) b :=
  mapBit_congr (h _ (inMap_of_lt hl hb))

theorem InMap.before_data {a : ℕ} (hl : Layout sb) (h : InMap sb a) :
    a / blockSize < sb.first_data_zone := by
  by_contra hge
  exact not_inMap hl (not_lt.mp hge) h

end Separation

namespace Grown
variable {sb : Minix3Superblock} {l l' l'' r r' : List Slot} {new new' : List (Option ℕ)}
variable {st st₁ st₂ : RWState}

theorem refl (sb : Minix3Superblock) (l : List Slot) (st : RWState) : Grown sb l l [] st st where
  depths := rfl
  sub := fun _ hp => Or.inl hp
  zones := fun _ => by simp
  frame := fun _ _ _ _ => rfl
  changed := fun h => ⟨rfl, h⟩

theorem mem (h : Grown sb l l' new st st₁) {z : ℕ} (hz : z ∈ slotsZones st₁.disk l') :
    z ∈ slotsZones st.disk l ∨ z ∈ new.reduceOption := by
  have hpos := List.count_pos_iff.mpr hz
  rw [h.zones] at hpos
  by_cases h0 : 0 < (slotsZones st.disk l).count z
  · exact Or.inl (List.count_pos_iff.mp h0)
  · exact Or.inr (List.count_pos_iff.mp (by omega))

theorem trans (h : Grown sb l l' new st st₁) (h' : Grown sb l' l'' new' st₁ st₂) :
    Grown sb l l'' (new ++ new') st st₂ where
  depths := h'.depths.trans h.depths
  sub := fun p hp => by
    rcases h'.sub p hp with hp | hp
    · rcases h.sub p hp with hp | hp
      · exact Or.inl hp
      · exact Or.inr (List.mem_append_left _ hp)
    · exact Or.inr (List.mem_append_right _ hp)
  zones := fun z => by
    rw [h'.zones, h.zones, List.reduceOption_append, List.count_append]
    omega
  frame := fun a ha hn hm => by
    rw [List.reduceOption_append, List.mem_append, not_or] at hn
    rw [h'.frame a (fun hz => (h.mem hz).elim ha hn.1) hn.2 hm, h.frame a ha hn.1 hm]
  changed := fun hc => by
    obtain ⟨h1, h2⟩ := h'.changed hc
    obtain ⟨h3, h4⟩ := h.changed h2
    exact ⟨h1.trans h3, h4⟩

theorem keeps_right (h : Grown sb l l' new st st₁) (hl : Layout sb)
    (hsep : Separate sb (slotsZones st.disk (l ++ r) ++ new.reduceOption)) {a : ℕ}
    (ha : a / blockSize ∈ slotsZones st.disk r) : st₁.disk a = st.disk a := by
  rw [slotsZones_append] at hsep
  have hmem : a / blockSize ∈ slotsZones st.disk l ++ slotsZones st.disk r :=
    List.mem_append_right _ ha
  refine h.frame a (fun hin => ?_) (hsep.disjoint hmem) ?_
  · have hsep' : Separate sb (slotsZones st.disk l ++ slotsZones st.disk r) :=
      hsep.of_count (fun z => by simp only [List.count_append]; omega)
    exact hsep'.disjoint hin ha
  · exact not_inMap hl (hsep.data _ (List.mem_append_left _ hmem)).1

theorem keeps_left (h : Grown sb l l' new st st₁) (h' : Grown sb r r' new' st₁ st₂) (hl : Layout sb)
    (hr : slotsZones st₁.disk r = slotsZones st.disk r)
    (hsep : Separate sb (slotsZones st.disk (l ++ r) ++ (new ++ new').reduceOption)) {a : ℕ}
    (ha : a / blockSize ∈ slotsZones st₁.disk l') : st₂.disk a = st₁.disk a := by
  have hsep' : Separate sb ((slotsZones st.disk l ++ new.reduceOption) ++
      (slotsZones st.disk r ++ new'.reduceOption)) :=
    hsep.of_count (fun z => by
      simp only [slotsZones_append, List.reduceOption_append, List.count_append]
      omega)
  have hmem : a / blockSize ∈ slotsZones st.disk l ++ new.reduceOption :=
    List.mem_append.mpr (h.mem ha)
  have hnot := hsep'.disjoint hmem
  rw [List.mem_append, not_or] at hnot
  refine h'.frame a (hr ▸ hnot.1) hnot.2 (not_inMap hl ?_)
  exact (hsep'.data _ (List.mem_append_left _ hmem)).1

/-- Two neighbouring lists of slots. -/
theorem append (h : Grown sb l l' new st st₁) (h' : Grown sb r r' new' st₁ st₂) (hl : Layout sb)
    (hsep : Separate sb (slotsZones st.disk (l ++ r) ++ (new ++ new').reduceOption)) :
    Grown sb (l ++ r) (l' ++ r') (new ++ new') st st₂ := by
  have hsep' : Separate sb (slotsZones st.disk (l ++ r) ++ new.reduceOption) :=
    hsep.of_count (fun z => by
      simp only [List.reduceOption_append, List.count_append]
      omega)
  have hr : slotsZones st₁.disk r = slotsZones st.disk r :=
    slotsZones_congr (fun a ha => h.keeps_right hl hsep' ha)
  have hl' : slotsZones st₂.disk l' = slotsZones st₁.disk l' :=
    slotsZones_congr (fun a ha => h.keeps_left h' hl hr hsep ha)
  refine ⟨?_, fun p hp => ?_, fun z => ?_, fun a ha hn hm => ?_, fun hc => ?_⟩
  · rw [List.map_append, List.map_append, h.depths, h'.depths]
  · rcases List.mem_append.mp hp with hp | hp
    · rcases h.sub p hp with hp | hp
      · exact Or.inl (List.mem_append_left _ hp)
      · exact Or.inr (List.mem_append_left _ hp)
    · rcases h'.sub p hp with hp | hp
      · exact Or.inl (List.mem_append_right _ hp)
      · exact Or.inr (List.mem_append_right _ hp)
  · have h1 := h.zones z
    have h2 := h'.zones z
    rw [hr] at h2
    simp only [slotsZones_append, List.reduceOption_append, List.count_append, hl']
    omega
  · rw [slotsZones_append, List.mem_append, not_or] at ha
    rw [List.reduceOption_append, List.mem_append, not_or] at hn
    rw [h'.frame a (hr ▸ ha.2) hn.2 hm, h.frame a ha.1 hn.1 hm]
  · obtain ⟨h1, h2⟩ := h'.changed hc
    obtain ⟨h3, h4⟩ := h.changed h2
    exact ⟨by rw [h1, h3], h4⟩

end Grown

structure Writing (offset : ℕ) (st : RWState) : Prop where
  write : st.udata.write = true
  offset_eq : st.udata.offset = offset
  left : 0 < st.udata.left
  aligned : blockSize ∣ st.position
  buffer : st.udata.buffer.length = st.udata.left

/-- The bytes of the request went into the slots, and the position is `after`. -/
structure Stored (l l' : List Slot) (st st' : RWState) (out : Outcome) (after : Prop) : Prop where
  outcome : out = RWState.outcome st (RWState.moved st l)
  left : st'.udata.left = st.udata.left - RWState.moved st l
  buffer : st'.udata.buffer = st.udata.buffer.drop (RWState.moved st l)
  bytes : ∀ o < slotsSize l, slotsByte st'.disk l' o =
    ByteStore.write (slotsByte st.disk l) (RWState.skip st)
      (st.udata.buffer.take (RWState.moved st l)) o
  passed : out = .success → after

def Keeps (l l' : List Slot) (st st' : RWState) : Prop :=
  ∀ o < slotsSize l, o < RWState.skip st → slotsByte st'.disk l' o = slotsByte st.disk l o

/-- The effect of a write walk: it fails when allocation fails, and else stores
its bytes. -/
structure WriteStep (sb : Minix3Superblock) (l l' : List Slot) (new : List (Option ℕ))
    (st st' : RWState) (out : Outcome) : Prop where
  grown : Grown sb l l' new st st'
  write_eq : st'.udata.write = st.udata.write
  offset_eq : st'.udata.offset = st.udata.offset
  keeps : Keeps l l' st st'
  status : (out = .error .ENOSPC ∧ none ∈ new) ∨
    (none ∉ new ∧ Stored l l' st st' out (Passed st st' (slotsSize l)))

/-- The effect of the middle of a slot, after which the position is still to be
advanced. -/
structure WriteMiddle (sb : Minix3Superblock) (l : List Slot) (new : List (Option ℕ))
    (st st' : RWState) (out : Outcome) : Prop where
  grown : Grown sb l l new st st'
  write_eq : st'.udata.write = st.udata.write
  offset_eq : st'.udata.offset = st.udata.offset
  keeps : Keeps l l st st'
  status : (out = .error .ENOSPC ∧ none ∈ new) ∨ (none ∉ new ∧ Stored l l st st' out
    (blockSize ∣ st'.position ∧ st.udata.offset < st'.position + slotsSize l))

namespace WriteStep
variable {sb : Minix3Superblock} {offset : ℕ} {l l' r r' : List Slot} {new new' : List (Option ℕ)}
variable {st st₁ st₂ : RWState} {out : Outcome}

theorem size_eq (h : WriteStep sb l l' new st st₁ out) : slotsSize l' = slotsSize l := by
  have hd := congrArg (fun ds : List ℕ => (ds.map zoneSize).sum) h.grown.depths
  simpa [slotsSize, List.map_map, Function.comp_def] using hd

theorem stored (h : WriteStep sb l l' new st st₁ .success) :
    none ∉ new ∧ Stored l l' st st₁ .success (Passed st st₁ (slotsSize l)) := by
  rcases h.status with ⟨h1, _⟩ | h1
  · cases h1
  · exact h1

theorem left_pos {after : Prop} (h : Stored l l' st st₁ .success after) : RWState.moved st l < st.udata.left := by
  have hout := h.outcome
  unfold RWState.outcome at hout
  split_ifs at hout with hz
  omega

theorem next (hw : Writing offset st) (h : WriteStep sb l l' new st st₁ .success) :
    Writing offset st₁ := by
  obtain ⟨_, hs⟩ := h.stored
  have hlt := left_pos hs
  refine ⟨h.write_eq.trans hw.write, h.offset_eq.trans hw.offset_eq, ?_, (hs.passed rfl).aligned, ?_⟩
  · rw [hs.left]
    omega
  · rw [hs.left, hs.buffer, List.length_drop, hw.buffer]

theorem nil (hw : Writing offset st) : WriteStep sb [] [] [] st st .success := by
  have hm : RWState.moved st [] = 0 := by simp [RWState.moved]
  have hl := hw.left
  refine ⟨.refl sb [] st, rfl, rfl, fun _ _ _ => rfl, Or.inr ⟨by simp, ?_, by simp [hm], by simp [hm], by simp,
    fun _ => ⟨hw.aligned, by simp⟩⟩⟩
  rw [hm, RWState.outcome, if_neg (by omega)]

/-- Writing goes on with the slots that follow. -/
theorem append (h : WriteStep sb l l' new st st₁ .success) (h' : WriteStep sb r r' new' st₁ st₂ out)
    (hl : Layout sb)
    (hsep : Separate sb (slotsZones st.disk (l ++ r) ++ (new ++ new').reduceOption)) :
    WriteStep sb (l ++ r) (l' ++ r') (new ++ new') st st₂ out := by
  obtain ⟨hnone, hs⟩ := h.stored
  have hsep' : Separate sb (slotsZones st.disk (l ++ r) ++ new.reduceOption) :=
    hsep.of_count (fun z => by
      simp only [List.reduceOption_append, List.count_append]
      omega)
  have hright := fun a ha => h.grown.keeps_right hl hsep' (a := a) ha
  have hzones : slotsZones st₁.disk r = slotsZones st.disk r := slotsZones_congr hright
  have hskip := (hs.passed rfl).skip
  refine ⟨h.grown.append h'.grown hl hsep, h'.write_eq.trans h.write_eq,
    h'.offset_eq.trans h.offset_eq, fun o ho hlt => ?_, ?_⟩
  · rw [slotsByte_append, slotsByte_append, h.size_eq]
    by_cases hlt' : o < slotsSize l
    · rw [if_pos hlt', if_pos hlt',
        slotsByte_congr (fun a ha => h.grown.keeps_left h'.grown hl hzones hsep ha), h.keeps o hlt' hlt]
    · rw [slotsSize_append] at ho
      rw [if_neg hlt', if_neg hlt', h'.keeps _ (by omega) (by omega), slotsByte_congr hright]
  rcases h'.status with ⟨ho, hn⟩ | ⟨hn, hs'⟩
  · exact Or.inl ⟨ho, List.mem_append_right _ hn⟩
  · have hlt := left_pos hs
    have hm₁ : RWState.moved st l = slotsSize l - RWState.skip st := by
      unfold RWState.moved at hlt ⊢
      omega
    have hm : RWState.moved st (l ++ r) = RWState.moved st l + RWState.moved st₁ r := by
      unfold RWState.moved at hlt hm₁ ⊢
      rw [hskip, hs.left, slotsSize_append]
      unfold RWState.moved
      omega
    refine Or.inr ⟨by simp [hnone, hn], ?_, ?_, ?_, fun o ho => ?_, fun ho => ?_⟩
    · rw [hs'.outcome, RWState.outcome, RWState.outcome, hm, hs.left, Nat.sub_sub]
    · rw [hs'.left, hs.left, hm, Nat.sub_sub]
    · rw [hs'.buffer, hs.buffer, hm, List.drop_drop]
    · rw [slotsByte_append, h.size_eq, hm]
      by_cases hlt' : o < slotsSize l
      · rw [if_pos hlt', write_take_below hm₁ hlt',
          slotsByte_congr (fun a ha => h.grown.keeps_left h'.grown hl hzones hsep ha), hs.bytes o hlt']
        unfold ByteStore.write
        simp only [slotsByte_append, if_pos hlt']
      · rw [if_neg hlt', write_take_above hm₁ (not_lt.mp hlt'),
          hs'.bytes _ (by rw [slotsSize_append] at ho; omega), hs.buffer, hskip]
        have hbytes : slotsByte st₁.disk r = fun y => slotsByte st.disk (l ++ r) (slotsSize l + y) := by
          funext y
          rw [slotsByte_congr hright, slotsByte_append, if_neg (by omega)]
          congr 1
          omega
        rw [hbytes]
    · obtain ⟨ha, hsk⟩ := hs'.passed ho
      refine ⟨ha, ?_⟩
      rw [hsk, hskip, slotsSize_append, Nat.sub_sub]

/-- A write that ended does not visit the slots that follow. -/
theorem stop (h : WriteStep sb l l' new st st₁ out) (hne : out ≠ .success) (hl : Layout sb)
    (hsep : Separate sb (slotsZones st.disk (l ++ r) ++ new.reduceOption)) :
    WriteStep sb (l ++ r) (l' ++ r) new st st₁ out := by
  have hgrown := h.grown.append (.refl sb r st₁) hl (by simpa using hsep)
  rw [List.append_nil] at hgrown
  have hright := fun a ha => h.grown.keeps_right hl hsep (a := a) ha
  refine ⟨hgrown, h.write_eq, h.offset_eq, fun o _ hlt => ?_, ?_⟩
  · rw [slotsByte_append, slotsByte_append, h.size_eq]
    by_cases hlt' : o < slotsSize l
    · rw [if_pos hlt', if_pos hlt', h.keeps o hlt' hlt]
    · rw [if_neg hlt', if_neg hlt', slotsByte_congr hright]
  rcases h.status with herr | ⟨hn, hs⟩
  · exact Or.inl herr
  · have hout := hs.outcome
    unfold RWState.outcome at hout
    split_ifs at hout with hz
    · have hm : RWState.moved st (l ++ r) = RWState.moved st l := by
        unfold RWState.moved at hz ⊢
        rw [slotsSize_append]
        omega
      refine Or.inr ⟨hn, ?_, by rw [hm, hs.left], by rw [hm, hs.buffer], fun o ho => ?_,
        fun ho => absurd ho hne⟩
      · rw [hm, RWState.outcome, if_pos hz, hout]
      · rw [slotsByte_append, h.size_eq, hm]
        by_cases hlt : o < slotsSize l
        · rw [if_pos hlt, hs.bytes o hlt]
          unfold ByteStore.write
          simp only [slotsByte_append, if_pos hlt]
        · have hmle : RWState.moved st l ≤ slotsSize l - RWState.skip st := by
            unfold RWState.moved
            omega
          have hlen := List.length_take_le (RWState.moved st l) st.udata.buffer
          have hpos : RWState.skip st < slotsSize l ∨ RWState.moved st l = 0 := by omega
          rw [if_neg hlt, slotsByte_congr hright]
          rcases hpos with hpos | hzero
          · rw [write_outside (Or.inr (by omega)), slotsByte_append, if_neg hlt]
          · rw [hzero, List.take_zero, write_nil, slotsByte_append, if_neg hlt]
    · exact absurd hout hne

end WriteStep

section Zeroed
variable {disk : Store} {zone : ℕ}

theorem slotsByte_holes {slots : List Slot} (h : ∀ p ∈ slots, p.2 = 0) (o : ℕ) :
    slotsByte disk slots o = 0 := by
  induction slots generalizing o with
  | nil => rfl
  | cons p slots ih =>
    rw [slotsByte_cons, h p List.mem_cons_self, slotByte_hole,
      ih (fun q hq => h q (List.mem_cons_of_mem _ hq)), ite_self]

theorem slotsZones_holes {slots : List Slot} (h : ∀ p ∈ slots, p.2 = 0) :
    slotsZones disk slots = [] := by
  apply List.flatMap_eq_nil_iff.mpr
  intro p hp
  rw [h p hp, slotZones_hole]

theorem zoneTable_zeroed {w : ℕ} (h : ∀ a, a / blockSize = zone → disk a = 0)
    (hw : w ∈ zoneTable disk zone) : w = 0 := by
  obtain ⟨i, hi, rfl⟩ := List.mem_map.mp hw
  have hi := List.mem_range.mp hi
  have hbyte : ∀ j < 4, disk (offsetForZone zone + 4 * i + j) = 0 := by
    intro j hj
    apply h
    simp only [offsetForZone, blockSize, numIptrs] at hi ⊢
    omega
  have h0 := hbyte 0 (by omega)
  rw [Nat.add_zero] at h0
  simp [readWord, h0, hbyte 1, hbyte 2, hbyte 3]

theorem write_zeros (disk : Store) {a : ℕ} (ha : a / blockSize = zone) :
    ByteStore.write disk (offsetForZone zone) (List.replicate blockSize 0) a = 0 := by
  obtain ⟨i, rfl⟩ : ∃ i, a = offsetForZone zone + i := by
    refine ⟨a % blockSize, ?_⟩
    simp only [offsetForZone, blockSize] at ha ⊢
    omega
  apply write_inside
  rw [List.getElem?_replicate_of_lt]
  simp only [offsetForZone, blockSize] at ha ⊢
  omega

theorem slot_zeroed (hz : zone ≠ 0) (h : ∀ a, a / blockSize = zone → disk a = 0) (depth : ℕ) :
    slotZones disk depth zone = [zone] ∧ ∀ o < zoneSize depth, slotByte disk depth zone o = 0 := by
  cases depth with
  | zero =>
    refine ⟨by simp [slotZones, hz], fun o ho => ?_⟩
    rw [zoneSize_zero] at ho
    simp only [slotByte, if_neg hz]
    apply h
    simp only [offsetForZone, blockSize] at ho ⊢
    omega
  | succ depth =>
    have htable : ∀ p ∈ tableSlots depth (zoneTable disk zone), p.2 = 0 := by
      intro p hp
      obtain ⟨w, hw, rfl⟩ := List.mem_map.mp hp
      exact zoneTable_zeroed h hw
    refine ⟨?_, fun o _ => ?_⟩
    · rw [slotZones_succ hz, slotsZones_holes htable]
    · rw [slotByte_succ hz, slotsByte_holes htable]

end Zeroed

section Allocate
variable {sb : Minix3Superblock} {st : RWState}

theorem getFreeMinixZone_frame {disk disk' : Store} {zone a : ℕ} (hl : Layout sb)
    (h : getFreeMinixZone sb disk = some (zone, disk')) (ha : ¬ InMap sb a) : disk' a = disk a := by
  rcases genericMinixGetBitMap_spec disk (zoneMapOffset sb) sb.zones with ⟨k, hk, he, _⟩ | ⟨he, _⟩
  · rw [getFreeMinixZone, he] at h
    cases h
    apply setMapBit_outside
    rintro rfl
    have := hl.map
    exact ha ⟨by omega, by omega⟩
  · rw [getFreeMinixZone, he] at h
    cases h

/-- An allocation that answers adds a zone of zeros to an empty slot. -/
theorem allocateZone_grown {zone : ℕ} {disk : Store} (depth : ℕ) (hl : Layout sb)
    (h : getFreeMinixZone sb st.disk = some (zone, disk)) (hsep : Separate sb [zone])
    (hpos : zone ≠ 0) :
    ∃ st', allocateZone sb 0 st = (.success, zone, st') ∧
      Grown sb [(depth, 0)] [(depth, zone)] [some zone] st st' ∧
      st'.udata = { st.udata with allocated := st.udata.allocated ++ [some zone] } ∧
      st'.position = st.position ∧ ∀ o < zoneSize depth, slotByte st'.disk depth zone o = 0 := by
  have hlt := (hsep.data zone List.mem_cons_self).2
  have hzeroed := slot_zeroed hpos (fun a ha => write_zeros disk ha) depth
  unfold allocateZone
  simp only [h, Nat.mod_eq_of_lt hlt]
  refine ⟨_, rfl, ⟨rfl, ?_, fun z => ?_, fun a _ hn hm => ?_, fun hc => by cases hc⟩, rfl, rfl,
    hzeroed.2⟩
  · intro p hp
    rw [List.mem_singleton] at hp
    exact Or.inr (by simp [hp])
  · simp [hzeroed.1, List.reduceOption]
  · have hne : a / blockSize ≠ zone := by simpa [List.reduceOption] using hn
    have hout : a < offsetForZone zone ∨ offsetForZone zone + blockSize ≤ a := by
      simp only [offsetForZone, blockSize] at hne ⊢
      omega
    simp only
    rw [write_outside (by simpa using hout), getFreeMinixZone_frame hl h hm]

end Allocate

/-- The transfer into a data zone. -/
theorem transferZone_write (sb : Minix3Superblock) {offset zone : ℕ} {st : RWState}
    (hw : Writing offset st) (hlt : offset < st.position + zoneSize 0) (hz : zone ≠ 0) :
    ∃ st', transferZone zone st.position (zoneSize 0) st = (.success, zone, st') ∧
      Grown sb [(0, zone)] [(0, zone)] [] st st' ∧ st'.position = st.position ∧
      (∀ a, a / blockSize ≠ zone → st'.disk a = st.disk a) ∧
      st'.udata = { st.udata with
        left := st.udata.left - RWState.moved st [(0, zone)]
        buffer := st.udata.buffer.drop (RWState.moved st [(0, zone)]) } ∧
      ∀ o < zoneSize 0, slotByte st'.disk 0 zone o =
        ByteStore.write (slotByte st.disk 0 zone) (RWState.skip st)
          (st.udata.buffer.take (RWState.moved st [(0, zone)])) o := by
  obtain ⟨hwr, ho, hl, ha, hb⟩ := hw
  have hskip : RWState.skip st = offset - st.position := by rw [RWState.skip, ho]
  have hfile : (if st.position < st.udata.offset then st.udata.offset else st.position) =
      st.position + RWState.skip st := by
    rw [hskip, ho]
    by_cases hp : st.position < offset
    · rw [if_pos hp]
      omega
    · rw [if_neg hp]
      omega
  have hmoved : min st.udata.left (st.position + zoneSize 0 - (st.position + RWState.skip st)) =
      RWState.moved st [(0, zone)] := by
    simp only [RWState.moved, slotsSize_cons, slotsSize_nil]
    omega
  have hsize : RWState.skip st + RWState.moved st [(0, zone)] ≤ blockSize := by
    rw [zoneSize_zero] at hlt
    simp only [RWState.moved, slotsSize_cons, slotsSize_nil, zoneSize_zero]
    omega
  have hpos : RWState.moved st [(0, zone)] ≠ 0 := by
    rw [zoneSize_zero] at hlt
    simp only [RWState.moved, slotsSize_cons, slotsSize_nil, zoneSize_zero, blockSize] at hlt ⊢
    omega
  have hblock : (st.position + RWState.skip st) % blockSize = RWState.skip st := by
    rw [zoneSize_zero] at hlt
    rw [hskip]
    simp only [blockSize] at ha hlt ⊢
    omega
  simp only [transferZone, hfile, hmoved, hwr, if_true, if_neg hpos, hblock]
  have hlen : (st.udata.buffer.take (RWState.moved st [(0, zone)])).length ≤
      RWState.moved st [(0, zone)] := List.length_take_le _ _
  have hframe : ∀ a, a / blockSize ≠ zone →
      ByteStore.write st.disk (offsetForZone zone + RWState.skip st)
        (st.udata.buffer.take (RWState.moved st [(0, zone)])) a = st.disk a := by
    intro a hne
    apply write_outside
    simp only [offsetForZone, blockSize] at hne hsize ⊢
    omega
  refine ⟨_, rfl, ⟨rfl, fun _ hp => Or.inl hp, fun z => ?_, fun a hn _ _ => ?_, fun hc => ⟨rfl, hc⟩⟩,
    rfl, hframe, rfl, fun o ho => ?_⟩
  · simp [slotZones, List.reduceOption]
  · exact hframe a (by simpa [slotZones, hz] using hn)
  · simp only [slotByte, if_neg hz]
    unfold ByteStore.write
    have hsub : offsetForZone zone + o - (offsetForZone zone + RWState.skip st) =
        o - RWState.skip st := by omega
    have hle : offsetForZone zone + RWState.skip st ≤ offsetForZone zone + o ↔ RWState.skip st ≤ o := by
      omega
    simp only [hsub, hle]

section Walk
variable {sb : Minix3Superblock} {offset depth zone : ℕ} {st : RWState} {new : List (Option ℕ)}

theorem callback_pre_full (hz : zone ≠ 0) (h : 0 < st.udata.left) {position size : ℕ} :
    minixRWZoneWalkCallback sb zone position size .pre st = (.success, zone, st) := by
  have hne : st.udata.left ≠ 0 := by omega
  simp [minixRWZoneWalkCallback, checked, hz, hne]

theorem callback_pre_hole (hw : st.udata.write = true) (h : 0 < st.udata.left) {position size : ℕ} :
    minixRWZoneWalkCallback sb 0 position size .pre st =
      checked (allocateZone sb 0 st)
        fun zone st => (if st.udata.left = 0 then .successExit else .success, zone, st) := by
  have hphase : Phase.pre ≠ Phase.mid := by decide
  simp only [minixRWZoneWalkCallback, hw, h, and_self, if_true, hphase, false_and, if_false]
  rcases allocateZone sb 0 st with ⟨out, z, st'⟩
  cases out <;> rfl

def LogExtends (a b : MinixReadWriteRequest) : Prop := ∃ new, b.allocated = a.allocated ++ new

theorem LogExtends.refl (a : MinixReadWriteRequest) : LogExtends a a := ⟨[], by simp⟩

theorem LogExtends.trans (a b c : MinixReadWriteRequest) (h : LogExtends a b) (h' : LogExtends b c) :
    LogExtends a c := by
  obtain ⟨n, hn⟩ := h
  obtain ⟨m, hm⟩ := h'
  exact ⟨n ++ m, by rw [hm, hn, List.append_assoc]⟩

theorem callback_log (sb : Minix3Superblock) (zone position size : ℕ) (phase : Phase) (st : RWState) :
    LogExtends st.udata (minixRWZoneWalkCallback sb zone position size phase st).2.2.udata := by
  refine checked_udata LogExtends.trans ?_ (fun _ _ => .refl _)
  refine checked_udata LogExtends.trans ?_ (fun zone st => ?_)
  · split_ifs
    · unfold allocateZone
      cases getFreeMinixZone sb st.disk with
      | none => exact ⟨[none], rfl⟩
      | some p => exact ⟨[some p.1], rfl⟩
    · exact .refl _
  · split_ifs
    · refine ⟨[], ?_⟩
      unfold transferZone
      simp only [List.append_nil]
      split_ifs <;> rfl
    · exact .refl _

theorem walkSlot_log (sb : Minix3Superblock) (offset depth zone : ℕ) (st : RWState) :
    LogExtends st.udata (walkSlot (minixRWZoneWalkCallback sb) offset depth zone st).2.2.udata :=
  walkSlot_udata LogExtends.refl LogExtends.trans (callback_log sb)

theorem scanSlot_skip (sb : Minix3Superblock) (zone : ℕ) (middle : ℕ → RWState → Outcome × ℕ × RWState)
    (hw : Writing offset st) (hlt : ¬ offset < st.position + zoneSize depth) :
    WriteStep sb [(depth, zone)] [(depth, zone)] [] st
        { st with position := st.position + zoneSize depth } .success ∧
      scanSlot (minixRWZoneWalkCallback sb) offset (zoneSize depth) middle zone st =
        (.success, zone, { st with position := st.position + zoneSize depth }) := by
  have hm : RWState.moved st [(depth, zone)] = 0 := by
    simp only [RWState.moved, RWState.skip, hw.offset_eq, slotsSize_cons, slotsSize_nil]
    omega
  have hl := hw.left
  have hdvd := blockSize_dvd_zoneSize depth
  constructor
  · refine ⟨⟨rfl, fun _ hp => Or.inl hp, by simp [List.reduceOption], fun _ _ _ _ => rfl,
      fun hc => ⟨rfl, hc⟩⟩, rfl, rfl, fun _ _ _ => rfl, Or.inr ⟨by simp, ?_, by simp [hm], by simp [hm],
      fun o _ => by simp [hm], fun _ => ⟨Dvd.dvd.add hw.aligned hdvd, ?_⟩⟩⟩
    · rw [hm, RWState.outcome, if_neg (by omega)]
    · simp only [RWState.skip, slotsSize_cons, slotsSize_nil]
      omega
  · simp [scanSlot, if_neg hlt, checked]

/-- What follows the middle of a slot: the callback after it and the position. -/
theorem WriteMiddle.finish {middle : ℕ → RWState → Outcome × ℕ × RWState} {st' : RWState}
    {out : Outcome} (hm : middle zone st = (out, zone, st'))
    (h : WriteMiddle sb [(depth, zone)] new st st' out)
    (hlt : st.udata.offset < st.position + zoneSize depth) :
    ∃ st'', slotRest (minixRWZoneWalkCallback sb) (zoneSize depth) middle zone st = (out, zone, st'') ∧
      st''.udata = st'.udata ∧ WriteStep sb [(depth, zone)] [(depth, zone)] new st st'' out := by
  unfold slotRest
  rw [hm]
  rcases h.status with ⟨rfl, hn⟩ | ⟨hn, hs⟩
  · exact ⟨st', rfl, rfl, h.grown, h.write_eq, h.offset_eq, h.keeps, Or.inl ⟨rfl, hn⟩⟩
  · have hout := hs.outcome
    unfold RWState.outcome at hout
    split_ifs at hout with hz
    · subst hout
      exact ⟨st', rfl, rfl, h.grown, h.write_eq, h.offset_eq, h.keeps,
        Or.inr ⟨hn, hs.outcome, hs.left, hs.buffer, hs.bytes, fun ho => by cases ho⟩⟩
    · subst hout
      obtain ⟨ha, hp⟩ := hs.passed rfl
      have hleft : 0 < st'.udata.left := by
        rw [hs.left]
        omega
      simp only [checked, callback_post hleft]
      refine ⟨_, rfl, rfl,
        ⟨h.grown.depths, h.grown.sub, h.grown.zones, h.grown.frame, h.grown.changed⟩,
        h.write_eq, h.offset_eq, h.keeps,
        Or.inr ⟨hn, hs.outcome, hs.left, hs.buffer, hs.bytes, fun _ => ⟨?_, ?_⟩⟩⟩
      · exact Dvd.dvd.add ha (blockSize_dvd_zoneSize depth)
      · simp only [RWState.skip, h.offset_eq, slotsSize_cons, slotsSize_nil] at hp ⊢
        omega

/-- A step over a slot that was allocated before. -/
theorem WriteStep.after_alloc {st₁ st₂ : RWState} {zone' : ℕ} {out : Outcome}
    (hg : Grown sb [(depth, 0)] [(depth, zone)] [some zone] st st₁)
    (hu : st₁.udata = { st.udata with allocated := st.udata.allocated ++ [some zone] })
    (hp : st₁.position = st.position)
    (hb : ∀ o < zoneSize depth, slotByte st₁.disk depth zone o = 0)
    (h : WriteStep sb [(depth, zone)] [(depth, zone')] new st₁ st₂ out) :
    WriteStep sb [(depth, 0)] [(depth, zone')] (some zone :: new) st st₂ out := by
  have hskip : RWState.skip st₁ = RWState.skip st := by rw [RWState.skip, RWState.skip, hu, hp]
  have hm : RWState.moved st₁ [(depth, zone)] = RWState.moved st [(depth, 0)] := by
    rw [RWState.moved, RWState.moved, hskip, hu]
    rfl
  refine ⟨hg.trans h.grown, by rw [h.write_eq, hu], by rw [h.offset_eq, hu], fun o ho hlt => ?_, ?_⟩
  · have ho' : o < zoneSize depth := by simpa using ho
    rw [h.keeps o ho (by rw [hskip]; exact hlt), slotsByte_cons, slotsByte_cons, if_pos ho', if_pos ho',
      hb o ho', slotByte_hole]
  rcases h.status with ⟨ho, hn⟩ | ⟨hn, hs⟩
  · exact Or.inl ⟨ho, List.mem_cons_of_mem _ hn⟩
  · refine Or.inr ⟨by simpa using hn, ?_, ?_, ?_, fun o ho => ?_, fun ho => ?_⟩
    · rw [hs.outcome, RWState.outcome, RWState.outcome, hm, hu]
    · rw [hs.left, hm, hu]
    · rw [hs.buffer, hm, hu]
    · have ho' : o < zoneSize depth := by simpa using ho
      rw [hs.bytes o ho, hm, hskip, hu]
      unfold ByteStore.write
      simp only [slotsByte_cons, if_pos ho', hb o ho', slotByte_hole]
    · obtain ⟨ha, hsk⟩ := hs.passed ho
      exact ⟨ha, by rw [hsk, hskip]; rfl⟩

def MiddleWrites (sb : Minix3Superblock) (offset depth : ℕ)
    (middle : ℕ → RWState → Outcome × ℕ × RWState) : Prop :=
  ∀ zone st new, zone ≠ 0 → Writing offset st → offset < st.position + zoneSize depth →
    (middle zone st).2.2.udata.allocated = st.udata.allocated ++ new →
    Separate sb (slotZones st.disk depth zone ++ new.reduceOption) →
    ∃ out st', middle zone st = (out, zone, st') ∧ WriteMiddle sb [(depth, zone)] new st st' out

variable {middle : ℕ → RWState → Outcome × ℕ × RWState}

theorem slotRest_log (sb : Minix3Superblock)
    (hmidlog : ∀ zone st, LogExtends st.udata (middle zone st).2.2.udata)
    (size zone : ℕ) (st : RWState) :
    LogExtends st.udata (slotRest (minixRWZoneWalkCallback sb) size middle zone st).2.2.udata :=
  checked_udata LogExtends.trans
    (checked_udata LogExtends.trans (hmidlog _ _) (fun _ _ => callback_log sb _ _ _ _ _))
    (fun _ _ => .refl _)

theorem slotRest_write (hmidlog : ∀ zone st, LogExtends st.udata (middle zone st).2.2.udata)
    (hmid : MiddleWrites sb offset depth middle) (hz : zone ≠ 0) (hw : Writing offset st)
    (hlt : offset < st.position + zoneSize depth)
    (hlog : (slotRest (minixRWZoneWalkCallback sb) (zoneSize depth) middle zone
      st).2.2.udata.allocated = st.udata.allocated ++ new)
    (hsep : Separate sb (slotZones st.disk depth zone ++ new.reduceOption)) :
    ∃ out st', slotRest (minixRWZoneWalkCallback sb) (zoneSize depth) middle zone st = (out, zone, st') ∧
      WriteStep sb [(depth, zone)] [(depth, zone)] new st st' out := by
  obtain ⟨new₁, h₁⟩ := hmidlog zone st
  -- The callback after the middle logs nothing, but this is known only once the middle is.
  have hpre : ∃ rest, new = new₁ ++ rest := by
    have hext : LogExtends (middle zone st).2.2.udata
        (slotRest (minixRWZoneWalkCallback sb) (zoneSize depth) middle zone st).2.2.udata := by
      unfold slotRest
      rw [checked_assoc]
      exact checked_udata LogExtends.trans (.refl _) (fun _ _ =>
        checked_udata LogExtends.trans (callback_log sb _ _ _ _ _) (fun _ _ => .refl _))
    obtain ⟨rest, hrest⟩ := hext
    rw [hlog, h₁, List.append_assoc] at hrest
    exact ⟨rest, List.append_cancel_left hrest⟩
  obtain ⟨rest, rfl⟩ := hpre
  have hsep₁ : Separate sb (slotZones st.disk depth zone ++ new₁.reduceOption) :=
    hsep.of_count (fun z => by
      simp only [List.reduceOption_append, List.count_append]
      omega)
  obtain ⟨out, st', hm, hmw⟩ := hmid zone st new₁ hz hw hlt h₁ hsep₁
  obtain ⟨st'', he, hu, hstep⟩ := hmw.finish hm (by rw [hw.offset_eq]; exact hlt)
  have hrest : rest = [] := by
    have h₁ : st'.udata.allocated = st.udata.allocated ++ new₁ := by simpa [hm] using h₁
    simpa [he, hu, h₁] using hlog
  rw [hrest, List.append_nil]
  exact ⟨out, st'', he, hstep⟩

/-- One slot: it is passed, or it gets a zone and its middle is written. -/
theorem scanSlot_write (hl : Layout sb) (hpos : 0 < sb.first_data_zone)
    (hmidlog : ∀ zone st, LogExtends st.udata (middle zone st).2.2.udata)
    (hmid : MiddleWrites sb offset depth middle) (hw : Writing offset st)
    (hlog : (scanSlot (minixRWZoneWalkCallback sb) offset (zoneSize depth) middle zone
      st).2.2.udata.allocated = st.udata.allocated ++ new)
    (hsep : Separate sb (slotZones st.disk depth zone ++ new.reduceOption)) :
    ∃ out zone' st', scanSlot (minixRWZoneWalkCallback sb) offset (zoneSize depth) middle zone st =
      (out, zone', st') ∧ WriteStep sb [(depth, zone)] [(depth, zone')] new st st' out := by
  by_cases hlt : offset < st.position + zoneSize depth
  · rw [scanSlot_visit hlt] at hlog ⊢
    by_cases hz : zone = 0
    · subst hz
      rw [callback_pre_hole hw.write hw.left] at hlog ⊢
      cases hget : getFreeMinixZone sb st.disk with
      | none =>
        simp only [allocateZone, hget, checked] at hlog ⊢
        obtain rfl : new = [none] := (List.append_cancel_left hlog).symm
        refine ⟨_, _, _, rfl, ⟨rfl, fun _ hp => Or.inl hp, by simp [List.reduceOption],
          fun _ _ _ _ => rfl, fun hc => ⟨rfl, hc⟩⟩, rfl, rfl, fun _ _ _ => rfl,
          Or.inl ⟨rfl, by simp⟩⟩
      | some p =>
        obtain ⟨k, disk⟩ := p
        have hpre : checked (allocateZone sb 0 st)
            (fun zone st => (if st.udata.left = 0 then .successExit else .success, zone, st)) =
            (.success, (allocateZone sb 0 st).2) := by
          have hne : st.udata.left ≠ 0 := by have := hw.left; omega
          simp [allocateZone, hget, checked, hne]
        rw [hpre] at hlog ⊢
        obtain ⟨new₂, hnew₂⟩ := slotRest_log sb hmidlog (zoneSize depth)
          (allocateZone sb 0 st).2.1 (allocateZone sb 0 st).2.2
        have hfirst : (allocateZone sb 0 st).2.2.udata.allocated =
            st.udata.allocated ++ [some k] := by simp [allocateZone, hget]
        have hcons : new = some k :: new₂ := by
          simp only [checked, hnew₂, hfirst, List.append_assoc] at hlog
          exact (List.append_cancel_left hlog).symm
        subst hcons
        have hsep' : Separate sb [k] := hsep.of_count (fun z => by
          simp only [List.reduceOption_cons_of_some, slotZones_hole, List.nil_append,
            List.count_cons, List.count_nil]
          omega)
        have hk : k ≠ 0 := by
          have := (hsep'.data k List.mem_cons_self).1
          omega
        obtain ⟨st₁, ha, hg, hu, hp, hb⟩ := allocateZone_grown depth hl hget hsep' hk
        rw [ha] at hlog hnew₂ ⊢
        have hw₁ : Writing offset st₁ :=
          ⟨by rw [hu]; exact hw.write, by rw [hu]; exact hw.offset_eq, by rw [hu]; exact hw.left,
            by rw [hp]; exact hw.aligned, by rw [hu]; exact hw.buffer⟩
        have hsep₁ : Separate sb (slotZones st₁.disk depth k ++ new₂.reduceOption) :=
          hsep.of_count (fun z => by
            have := hg.zones z
            simp only [slotsZones_cons, slotsZones_nil, List.append_nil, slotZones_hole,
              List.reduceOption_cons_of_some, List.count_append, List.count_cons, List.count_nil,
              List.reduceOption_nil] at this ⊢
            omega)
        obtain ⟨out, st₂, he, hstep⟩ :=
          slotRest_write hmidlog hmid hk hw₁ (by rw [hp]; exact hlt) hnew₂ hsep₁
        simp only [checked]
        exact ⟨out, k, st₂, he, hstep.after_alloc hg hu hp hb⟩
    · rw [callback_pre_full hz hw.left] at hlog ⊢
      simp only [checked] at hlog ⊢
      obtain ⟨out, st', he, hstep⟩ := slotRest_write hmidlog hmid hz hw hlt hlog hsep
      exact ⟨out, zone, st', he, hstep⟩
  · obtain ⟨hstep, he⟩ := scanSlot_skip sb zone middle hw hlt
    rw [he] at hlog ⊢
    obtain rfl : new = [] := by simpa using hlog
    exact ⟨_, _, _, rfl, hstep⟩

/-- Every slot of the given depth is written. -/
def SlotWrites (sb : Minix3Superblock) (offset depth : ℕ) : Prop :=
  ∀ zone st new, Writing offset st →
    (walkSlot (minixRWZoneWalkCallback sb) offset depth zone st).2.2.udata.allocated =
      st.udata.allocated ++ new →
    Separate sb (slotZones st.disk depth zone ++ new.reduceOption) →
    ∃ out zone' st', walkSlot (minixRWZoneWalkCallback sb) offset depth zone st = (out, zone', st') ∧
      WriteStep sb [(depth, zone)] [(depth, zone')] new st st' out

theorem walkSlots_log (sb : Minix3Superblock) (offset : ℕ) (slots : List Slot) (st : RWState) :
    LogExtends st.udata (walkSlots (minixRWZoneWalkCallback sb) offset slots st).2.2.udata :=
  walkSlots_udata st LogExtends.refl LogExtends.trans (walkSlot_log sb offset)

/-- A scan writes its slots one after the other. -/
theorem walkSlots_write (hl : Layout sb) {slots : List Slot}
    (hslots : ∀ p ∈ slots, SlotWrites sb offset p.1) (hw : Writing offset st)
    (hlog : (walkSlots (minixRWZoneWalkCallback sb) offset slots st).2.2.udata.allocated =
      st.udata.allocated ++ new)
    (hsep : Separate sb (slotsZones st.disk slots ++ new.reduceOption)) :
    ∃ out slots' st', walkSlots (minixRWZoneWalkCallback sb) offset slots st =
      (out, slots'.map Prod.snd, st') ∧ WriteStep sb slots slots' new st st' out := by
  induction slots generalizing st new with
  | nil =>
    obtain rfl : new = [] := by simpa [walkSlots] using hlog
    exact ⟨_, [], _, rfl, .nil hw⟩
  | cons p slots ih =>
    obtain ⟨new₁, hnew₁⟩ := walkSlot_log sb offset p.1 p.2 st
    have hpre : LogExtends (walkSlot (minixRWZoneWalkCallback sb) offset p.1 p.2 st).2.2.udata
        (walkSlots (minixRWZoneWalkCallback sb) offset (p :: slots) st).2.2.udata := by
      simp only [walkSlots]
      generalize walkSlot (minixRWZoneWalkCallback sb) offset p.1 p.2 st = r
      obtain ⟨out, z, st'⟩ := r
      cases out with
      | success => exact walkSlots_log sb offset slots st'
      | successExit => exact .refl _
      | error e => exact .refl _
      | divideByZero => exact .refl _
    obtain ⟨new₂, hnew₂⟩ := hpre
    obtain rfl : new = new₁ ++ new₂ := by
      rw [hlog, hnew₁, List.append_assoc] at hnew₂
      exact List.append_cancel_left hnew₂
    have hsep₁ : Separate sb (slotZones st.disk p.1 p.2 ++ new₁.reduceOption) :=
      hsep.of_count (fun z => by
        simp only [slotsZones_cons, List.reduceOption_append, List.count_append]
        omega)
    obtain ⟨out, zone', st₁, he, hstep⟩ := hslots p List.mem_cons_self p.2 st new₁ hw hnew₁ hsep₁
    have hsep₁' : Separate sb (slotsZones st.disk ([(p.1, p.2)] ++ slots) ++ new₁.reduceOption) :=
      hsep.of_count (fun z => by
        simp only [List.singleton_append, slotsZones_cons, List.reduceOption_append,
          List.count_append]
        omega)
    have hlog₁ : st₁.udata.allocated = st.udata.allocated ++ new₁ := by simpa [he] using hnew₁
    by_cases hout : out = .success
    · subst hout
      have hrest : (walkSlots (minixRWZoneWalkCallback sb) offset slots st₁).2.2.udata.allocated =
          st₁.udata.allocated ++ new₂ := by
        simpa [walkSlots, he, hlog₁] using hlog
      have hzones : slotsZones st₁.disk slots = slotsZones st.disk slots :=
        slotsZones_congr (fun a ha => hstep.grown.keeps_right hl hsep₁' ha)
      have hsep₂ : Separate sb (slotsZones st₁.disk slots ++ new₂.reduceOption) :=
        hsep.of_count (fun z => by
          simp only [hzones, slotsZones_cons, List.reduceOption_append, List.count_append]
          omega)
      obtain ⟨out₂, slots', st₂, he₂, hstep₂⟩ :=
        ih (fun q hq => hslots q (List.mem_cons_of_mem _ hq)) (hstep.next hw) hrest hsep₂
      refine ⟨out₂, (p.1, zone') :: slots', st₂, ?_, hstep.append hstep₂ hl hsep⟩
      simp [walkSlots, he, he₂]
    · obtain rfl : new₂ = [] := by
        have hsame : (walkSlots (minixRWZoneWalkCallback sb) offset (p :: slots) st).2.2.udata =
            st₁.udata := by
          cases out <;> simp_all [walkSlots]
        rw [hsame, hlog₁] at hlog
        simpa using hlog
      rw [List.append_nil]
      refine ⟨out, (p.1, zone') :: slots, st₁, ?_, hstep.stop hout hl hsep₁'⟩
      cases out <;> simp_all [walkSlots]

theorem callback_mid_writes :
    MiddleWrites sb offset 0
      (fun zone st => minixRWZoneWalkCallback sb zone st.position (zoneSize 0) .mid st) := by
  intro zone st new hz hw hlt hlog _
  obtain ⟨st', he, hg, hp, _, hu, hb⟩ := transferZone_write sb hw hlt hz
  simp only [callback_mid hw.left, he, checked] at hlog ⊢
  obtain rfl : new = [] := by simpa [hu] using hlog
  refine ⟨_, _, rfl, hg, by rw [hu], by rw [hu], fun o ho hlt => ?_, Or.inr ⟨by simp, ?_, by rw [hu],
    by rw [hu], fun o ho => ?_, fun _ => ⟨by rw [hp]; exact hw.aligned, ?_⟩⟩⟩
  · have ho : o < zoneSize 0 := by simpa using ho
    rw [slotsByte_cons, slotsByte_cons, if_pos ho, if_pos ho, hb o ho]
    exact write_outside (Or.inl hlt)
  · rw [RWState.outcome, hu]
  · have ho : o < zoneSize 0 := by simpa using ho
    rw [slotsByte_cons, if_pos ho, hb o ho]
    unfold ByteStore.write
    simp only [slotsByte_cons, if_pos ho]
  · rw [hp, hw.offset_eq]
    simpa using hlt

theorem eq_tableSlots {slots : List Slot} {table : List ℕ}
    (h : slots.map Prod.fst = (tableSlots depth table).map Prod.fst) :
    slots = tableSlots depth (slots.map Prod.snd) := by
  have hd : ∀ p ∈ slots, p.1 = depth := by
    intro p hp
    have hmem : p.1 ∈ (tableSlots depth table).map Prod.fst := h ▸ List.mem_map_of_mem hp
    obtain ⟨q, hq, hqp⟩ := List.mem_map.mp hmem
    obtain ⟨z, _, rfl⟩ := List.mem_map.mp hq
    exact hqp.symm
  simp only [tableSlots, List.map_map]
  conv_lhs => rw [← List.map_id slots]
  apply List.map_congr_left
  intro p hp
  rw [Function.comp_apply, ← hd p hp]
  rfl

theorem mem_reduceOption {z : ℕ} (h : some z ∈ new) : z ∈ new.reduceOption :=
  List.reduceOption_mem_iff.mpr h

def storedTable (zone : ℕ) (slots' : List Slot) (st₁ : RWState) : Store :=
  if st₁.changed then ByteStore.write st₁.disk (offsetForZone zone) (wordsBytes (slots'.map Prod.snd))
  else st₁.disk

/-- The stored table refers to the written slots, and nothing else was changed. -/
theorem WriteStep.table_stored {slots' : List Slot} {st₁ : RWState} {out : Outcome} (hl : Layout sb)
    (hz : zone ≠ 0) (hsep : Separate sb (slotZones st.disk (depth + 1) zone ++ new.reduceOption))
    (h : WriteStep sb (tableSlots depth (zoneTable st.disk zone)) slots' new
      { st with changed := false } st₁ out) :
    (∀ a, a / blockSize ≠ zone → storedTable zone slots' st₁ a = st₁.disk a) ∧
      zoneTable (storedTable zone slots' st₁) zone = slots'.map Prod.snd ∧
      zone ∉ slotsZones st₁.disk slots' := by
  rw [slotZones_succ hz] at hsep
  have hlen : (slots'.map Prod.snd).length = numIptrs := by
    have := congrArg List.length h.grown.depths
    simpa [tableSlots] using this
  have hnot : zone ∉ slotsZones st.disk (tableSlots depth (zoneTable st.disk zone)) ++
      new.reduceOption := by
    have hn := hsep.nodup
    rw [List.cons_append] at hn
    exact (List.nodup_cons.mp hn).1
  have hdata := (hsep.data zone (by simp)).1
  have hnotNew : zone ∉ new.reduceOption := fun hm => hnot (List.mem_append_right _ hm)
  have hnotTab : zone ∉ slotsZones st.disk (tableSlots depth (zoneTable st.disk zone)) :=
    fun hm => hnot (List.mem_append_left _ hm)
  have hsmall : ∀ w ∈ slots'.map Prod.snd, w < 2 ^ 32 := by
    intro w hwm
    obtain ⟨p, hp, rfl⟩ := List.mem_map.mp hwm
    rcases h.grown.sub p hp with hp | hp
    · obtain ⟨z, hzm, rfl⟩ := List.mem_map.mp hp
      exact readWords_lt hzm
    · exact (hsep.data _ (List.mem_append_right _ (mem_reduceOption hp))).2
  refine ⟨fun a ha => ?_, ?_, fun hm => (h.grown.mem hm).elim hnotTab hnotNew⟩
  · unfold storedTable
    split_ifs
    · apply write_outside
      rw [wordsBytes_length, hlen]
      simp only [offsetForZone, blockSize, numIptrs] at ha ⊢
      omega
    · rfl
  · unfold storedTable
    split_ifs with hc
    · exact zoneTable_write hlen hsmall
    · have hsame := (h.grown.changed (by simpa using hc)).1
      rw [hsame, map_snd_tableSlots]
      apply zoneTable_congr
      intro a ha
      subst ha
      exact h.grown.frame a hnotTab hnotNew (not_inMap hl hdata)

/-- Writing the table of an indirect slot, and storing it when it was changed,
writes the slot. -/
theorem WriteStep.of_table {slots' : List Slot} {st₁ : RWState} {out : Outcome} (hl : Layout sb)
    (hz : zone ≠ 0) (hw : Writing offset st) (hlt : offset < st.position + zoneSize (depth + 1))
    (hsep : Separate sb (slotZones st.disk (depth + 1) zone ++ new.reduceOption))
    (h : WriteStep sb (tableSlots depth (zoneTable st.disk zone)) slots' new
      { st with changed := false } st₁ out) :
    WriteMiddle sb [(depth + 1, zone)] new st { st₁ with
      disk := storedTable zone slots' st₁
      changed := st.changed } out := by
  have htab := eq_tableSlots h.grown.depths
  obtain ⟨hframe, htable, hnot'⟩ := h.table_stored hl hz hsep
  generalize storedTable zone slots' st₁ = disk₂ at hframe htable ⊢
  have hzones : slotsZones disk₂ slots' = slotsZones st₁.disk slots' :=
    slotsZones_congr (fun a ha => hframe a (fun he => hnot' (he ▸ ha)))
  have hsize := slotsSize_zoneTable st.disk depth zone
  have hm : RWState.moved { st with changed := false } (tableSlots depth (zoneTable st.disk zone)) =
      RWState.moved st [(depth + 1, zone)] := by
    simp only [RWState.moved, RWState.skip, hsize, slotsSize_cons, slotsSize_nil, Nat.add_zero]
  refine ⟨⟨rfl, fun _ hp => Or.inl hp, fun z => ?_, fun a ha hn hmap => ?_, fun hc => ⟨rfl, hc⟩⟩,
    h.write_eq, h.offset_eq, fun o ho hlt => ?_, ?_⟩
  · have hcount := h.grown.zones z
    simp only [slotsZones_cons, slotsZones_nil, List.append_nil, slotZones_succ hz, htable, ← htab,
      hzones, List.count_cons, hcount]
    omega
  · simp only [slotsZones_cons, slotsZones_nil, List.append_nil, slotZones_succ hz, List.mem_cons,
      not_or] at ha
    show disk₂ a = st.disk a
    rw [hframe a ha.1]
    exact h.grown.frame a ha.2 hn hmap
  · have ho : o < zoneSize (depth + 1) := by simpa using ho
    rw [slotsByte_cons, slotsByte_cons, if_pos ho, if_pos ho, slotByte_succ hz, slotByte_succ hz, htable,
      ← htab, slotsByte_congr (fun a ha => hframe a (fun he => hnot' (he ▸ ha)))]
    exact h.keeps o (by rw [hsize]; exact ho) hlt
  · rcases h.status with herr | ⟨hn, hs⟩
    · exact Or.inl herr
    · refine Or.inr ⟨hn, ?_, ?_, ?_, fun o ho => ?_, fun ho => ?_⟩
      · rw [hs.outcome, hm]
        rfl
      · rw [← hm]
        exact hs.left
      · rw [← hm]
        exact hs.buffer
      · have ho : o < zoneSize (depth + 1) := by simpa using ho
        have hb := hs.bytes o (by rw [hsize]; exact ho)
        rw [hm] at hb
        rw [slotsByte_cons, if_pos ho, slotByte_succ hz, htable, ← htab,
          slotsByte_congr (fun a ha => hframe a (fun he => hnot' (he ▸ ha))), hb]
        unfold ByteStore.write
        simp only [slotsByte_cons, if_pos ho, slotByte_succ hz]
        rfl
      · obtain ⟨ha, hp⟩ := hs.passed ho
        have hpos := zoneSize_pos (depth + 1)
        have hoff : st₁.udata.offset = offset := h.offset_eq.trans hw.offset_eq
        refine ⟨ha, ?_⟩
        simp only [RWState.skip, hoff, hw.offset_eq, hsize, slotsSize_cons, slotsSize_nil] at hp ⊢
        omega

/-- Every slot is written as the byte function of its tree says. -/
theorem walkSlot_write (hl : Layout sb) (hpos : 0 < sb.first_data_zone) (offset depth : ℕ) :
    SlotWrites sb offset depth := by
  induction depth with
  | zero =>
    intro zone st new hw hlog hsep
    exact scanSlot_write hl hpos (fun _ _ => callback_log sb _ _ _ _ _) callback_mid_writes hw hlog hsep
  | succ depth ih =>
    intro zone st new hw hlog hsep
    refine scanSlot_write hl hpos (fun zone st => ?_) ?_ hw hlog hsep
    · split_ifs
      · exact callback_log sb _ _ _ _ _
      · exact scanTable_udata { st with changed := false } LogExtends.refl LogExtends.trans
          (fun zone st => walkSlot_log sb offset depth zone st)
    · intro zone st new hz hw hlt hlog hsep
      have hscan : scanTable (walkSlot (minixRWZoneWalkCallback sb) offset depth)
          (zoneTable st.disk zone) { st with changed := false } =
          walkSlots (minixRWZoneWalkCallback sb) offset (tableSlots depth (zoneTable st.disk zone))
            { st with changed := false } := recScan_eq _ _ _ _ _
      simp only [if_neg hz, walkTable, hscan] at hlog ⊢
      have hw' : Writing offset { st with changed := false } :=
        ⟨hw.write, hw.offset_eq, hw.left, hw.aligned, hw.buffer⟩
      have hslots : ∀ p ∈ tableSlots depth (zoneTable st.disk zone), SlotWrites sb offset p.1 := by
        intro p hp
        obtain ⟨z, _, rfl⟩ := List.mem_map.mp hp
        exact ih
      have hsep' : Separate sb (slotsZones st.disk (tableSlots depth (zoneTable st.disk zone)) ++
          new.reduceOption) :=
        hsep.of_count (fun z => by
          simp only [slotZones_succ hz, List.cons_append, List.count_cons, List.count_append]
          omega)
      obtain ⟨out, slots', st₁, he, h⟩ := walkSlots_write hl hslots hw' hlog hsep'
      rw [he]
      exact ⟨_, _, rfl, h.of_table hl hz hw hlt hsep⟩

end Walk

end SomeOs.Minix

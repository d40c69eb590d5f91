import SomeOs.Minix.Missing

/-! # What a write does when zones run out

A write walk takes the missing zones in the order of the file until no zone is
free. The bytes before the first zone that it cannot have are stored, also when
the write then fails.
-/
namespace SomeOs.Minix
open ByteStore

section Free
variable {sb : Minix3Superblock} {disk disk' : Store} {new : List ℕ}

/-- Zones that were taken are not free any more. -/
theorem Taken.freeZones (h : Taken sb new disk disk') :
    freeZones sb disk' + new.length = freeZones sb disk := by
  have hcard : new.toFinset.card = new.length := List.toFinset_card_of_nodup h.nodup
  have hsplit : {z ∈ Finset.range sb.zones | mapBit disk (zoneMapOffset sb) z = false} =
      {z ∈ Finset.range sb.zones | mapBit disk' (zoneMapOffset sb) z = false} ∪ new.toFinset := by
    ext z
    simp only [Finset.mem_filter, Finset.mem_range, Finset.mem_union, List.mem_toFinset]
    constructor
    · rintro ⟨hz, hbit⟩
      rw [h.bits z hz, hbit]
      by_cases hn : z ∈ new <;> simp [hz, hn]
    · rintro (⟨hz, hbit⟩ | hn)
      · rw [h.bits z hz, Bool.or_eq_false_iff] at hbit
        exact ⟨hz, hbit.1⟩
      · exact h.clear z hn
  have hdisjoint : Disjoint {z ∈ Finset.range sb.zones | mapBit disk' (zoneMapOffset sb) z = false}
      new.toFinset := by
    rw [Finset.disjoint_left]
    intro z hz hn
    obtain ⟨hz, hbit⟩ := Finset.mem_filter.mp hz
    rw [h.bits z (Finset.mem_range.mp hz)] at hbit
    simp [List.mem_toFinset.mp hn] at hbit
  unfold Minix.freeZones
  rw [hsplit, Finset.card_union_of_disjoint hdisjoint, hcard]

theorem freeZones_full (h : getFreeMinixZone sb disk = none) : freeZones sb disk = 0 := by
  rcases genericMinixGetBitMap_spec disk (zoneMapOffset sb) sb.zones with ⟨k, _, he, _⟩ | ⟨_, hfull⟩
  · rw [getFreeMinixZone, he] at h
    cases h
  · unfold freeZones
    rw [Finset.card_eq_zero, Finset.filter_eq_empty_iff]
    intro z hz
    simp [hfull z (Finset.mem_range.mp hz)]

end Free

/-- The byte at an offset of the slots belongs to the request, and the free zones are
enough for the bytes up to it. -/
structure Reaches (sb : Minix3Superblock) (l : List Slot) (st : RWState) (o : ℕ) : Prop where
  ge : RWState.skip st ≤ o
  lt : o < RWState.skip st + st.udata.left
  room : slotsMissing st.disk l (RWState.skip st) (o + 1) ≤ freeZones sb st.disk

/-- The allocations of a write walk and the bytes it stores, by what is missing. -/
structure Spent (sb : Minix3Superblock) (l l' : List Slot) (new : List (Option ℕ)) (st : RWState)
    (disk' : Store) : Prop where
  failed : none ∈ new ↔ freeZones sb st.disk <
    slotsMissing st.disk l (RWState.skip st) (RWState.skip st + st.udata.left)
  count : none ∉ new → new.reduceOption.length =
    slotsMissing st.disk l (RWState.skip st) (RWState.skip st + st.udata.left)
  stored : ∀ o < slotsSize l, Reaches sb l st o →
    st.udata.buffer[o - RWState.skip st]? = some (slotsByte disk' l' o)
  kept : ∀ o < slotsSize l, ¬ Reaches sb l st o → slotsByte disk' l' o = slotsByte st.disk l o

structure WriteSpent (sb : Minix3Superblock) (l l' : List Slot) (new : List (Option ℕ))
    (st st' : RWState) (out : Outcome) : Prop where
  step : WriteStep sb l l' new st st' out
  log : st'.udata.allocated = st.udata.allocated ++ new
  taken : Taken sb new.reduceOption st.disk st'.disk
  spent : Spent sb l l' new st st'.disk

section Lists
variable {sb : Minix3Superblock} {offset : ℕ} {l l' r r' : List Slot} {new new' : List (Option ℕ)}
variable {st st₁ st₂ : RWState} {out : Outcome} {disk : Store} {start stop o : ℕ}

theorem slotsMissing_append :
    slotsMissing disk (l ++ r) start stop = slotsMissing disk l start stop +
      slotsMissing disk r (start - slotsSize l) (stop - slotsSize l) := by
  induction l generalizing start stop with
  | nil => simp
  | cons p l ih =>
    rw [List.cons_append, slotsMissing_cons, slotsMissing_cons, ih, slotsSize_cons, Nat.sub_sub,
      Nat.sub_sub, Nat.add_assoc]

theorem slotsMissing_after {stop' : ℕ} (h : slotsSize l ≤ stop) (h' : slotsSize l ≤ stop') :
    slotsMissing disk l start stop = slotsMissing disk l start stop' :=
  slotsMissing_full (fun _ _ _ _ _ hb hb' => slotMissing_full hb hb') h h'

theorem slotsMissing_before (h : stop ≤ slotsSize l) :
    slotsMissing disk (l ++ r) start stop = slotsMissing disk l start stop := by
  have hzero : stop - slotsSize l ≤ start - slotsSize l := by omega
  rw [slotsMissing_append, slotsMissing_none (Or.inl hzero), Nat.add_zero]

theorem reaches_left (ho : o < slotsSize l) : Reaches sb (l ++ r) st o ↔ Reaches sb l st o := by
  have hb : slotsMissing st.disk (l ++ r) (RWState.skip st) (o + 1) =
      slotsMissing st.disk l (RWState.skip st) (o + 1) := slotsMissing_before ho
  constructor
  · rintro ⟨h1, h2, h3⟩
    exact ⟨h1, h2, hb ▸ h3⟩
  · rintro ⟨h1, h2, h3⟩
    exact ⟨h1, h2, hb ▸ h3⟩

namespace WriteSpent

theorem nil (hl : Layout sb) (hw : Writing offset st) : WriteSpent sb [] [] [] st st .success where
  step := .nil hw
  log := by simp
  taken := .refl hl (fun _ _ => rfl)
  spent := ⟨by simp, by simp [List.reduceOption], by simp, by simp⟩

theorem rest (h : WriteSpent sb l l' new st st₁ .success) :
    none ∉ new ∧ slotsSize l - RWState.skip st < st.udata.left ∧
      RWState.skip st₁ = RWState.skip st - slotsSize l ∧
      st₁.udata.left = st.udata.left - (slotsSize l - RWState.skip st) ∧
      st₁.udata.buffer = st.udata.buffer.drop (slotsSize l - RWState.skip st) ∧
      freeZones sb st₁.disk +
        slotsMissing st.disk l (RWState.skip st) (RWState.skip st + st.udata.left) =
          freeZones sb st.disk := by
  obtain ⟨hnone, hs⟩ := h.step.stored
  have hlt := WriteStep.left_pos hs
  have hm : RWState.moved st l = slotsSize l - RWState.skip st := by
    unfold RWState.moved at hlt ⊢
    omega
  have hfree := h.taken.freeZones
  rw [h.spent.count hnone] at hfree
  rw [hm] at hlt
  exact ⟨hnone, hlt, (hs.passed rfl).skip, hm ▸ hs.left, hm ▸ hs.buffer, hfree⟩

/-- Two neighbouring lists of slots. -/
theorem append (hl : Layout sb) (h : WriteSpent sb l l' new st st₁ .success)
    (h' : WriteSpent sb r r' new' st₁ st₂ out)
    (hsep : Separate sb (slotsZones st.disk (l ++ r) ++ (new ++ new').reduceOption)) :
    WriteSpent sb (l ++ r) (l' ++ r') (new ++ new') st st₂ out := by
  obtain ⟨hnone, hlt, hskip, hleft, hbuffer, hfree⟩ := h.rest
  have hsep' : Separate sb (slotsZones st.disk (l ++ r) ++ new.reduceOption) :=
    hsep.of_count (fun z => by
      simp only [List.reduceOption_append, List.count_append]
      omega)
  have hright := fun a ha => h.step.grown.keeps_right hl hsep' (a := a) ha
  have hzones : slotsZones st₁.disk r = slotsZones st.disk r := slotsZones_congr hright
  have hleftKeep := fun a ha => h.step.grown.keeps_left h'.step.grown hl hzones hsep (a := a) ha
  have hmissing : ∀ a b, slotsMissing st₁.disk r a b = slotsMissing st.disk r a b :=
    fun a b => slotsMissing_congr hright
  have hstop : RWState.skip st₁ + st₁.udata.left =
      RWState.skip st + st.udata.left - slotsSize l := by omega
  have hreach : ∀ o, slotsSize l ≤ o →
      (Reaches sb (l ++ r) st o ↔ Reaches sb r st₁ (o - slotsSize l)) := by
    intro o ho
    have hfull : slotsMissing st.disk l (RWState.skip st) (o + 1) =
        slotsMissing st.disk l (RWState.skip st) (RWState.skip st + st.udata.left) :=
      slotsMissing_after (by omega) (by omega)
    have hsub : o + 1 - slotsSize l = o - slotsSize l + 1 := by omega
    have hsum : slotsMissing st.disk (l ++ r) (RWState.skip st) (o + 1) =
        slotsMissing st.disk l (RWState.skip st) (RWState.skip st + st.udata.left) +
          slotsMissing st₁.disk r (RWState.skip st₁) (o - slotsSize l + 1) := by
      rw [slotsMissing_append, hfull, hsub, hmissing, hskip]
    constructor
    · rintro ⟨h1, h2, h3⟩
      exact ⟨by omega, by omega, by omega⟩
    · rintro ⟨h1, h2, h3⟩
      exact ⟨by omega, by omega, by omega⟩
  refine ⟨h.step.append h'.step hl hsep, by rw [h'.log, h.log, List.append_assoc], ?_, ?_, ?_, ?_, ?_⟩
  · rw [List.reduceOption_append]
    exact h.taken.trans h'.taken
  · have hf := h'.spent.failed
    rw [hstop, hmissing, hskip] at hf
    rw [slotsMissing_append, List.mem_append, hf]
    simp only [hnone, false_or]
    omega
  · intro hn
    have hc := h'.spent.count (fun hm => hn (List.mem_append_right _ hm))
    rw [hstop, hmissing, hskip] at hc
    rw [slotsMissing_append, List.reduceOption_append, List.length_append, h.spent.count hnone, hc]
  · intro o ho hr
    rw [slotsByte_append, h.step.size_eq]
    by_cases hlt' : o < slotsSize l
    · rw [if_pos hlt', slotsByte_congr hleftKeep]
      exact h.spent.stored o hlt' ((reaches_left hlt').mp hr)
    · have hr' := (hreach o (not_lt.mp hlt')).mp hr
      have hs := h'.spent.stored _ (by rw [slotsSize_append] at ho; omega) hr'
      rw [hbuffer, List.getElem?_drop, hskip] at hs
      rw [if_neg hlt', ← hs]
      congr 1
      have := hr.ge
      omega
  · intro o ho hr
    rw [slotsByte_append, slotsByte_append, h.step.size_eq]
    by_cases hlt' : o < slotsSize l
    · rw [if_pos hlt', if_pos hlt', slotsByte_congr hleftKeep]
      exact h.spent.kept o hlt' (fun hl' => hr ((reaches_left hlt').mpr hl'))
    · have hr' := fun h => hr ((hreach o (not_lt.mp hlt')).mpr h)
      rw [if_neg hlt', if_neg hlt', h'.spent.kept _ (by rw [slotsSize_append] at ho; omega) hr',
        slotsByte_congr hright]

/-- A walk that ended leaves the slots that follow. -/
theorem ended (hl : Layout sb) (hw : Writing offset st) (h : WriteSpent sb l l' new st st₁ out)
    (hne : out ≠ .success) (hsep : Separate sb (slotsZones st.disk (l ++ r) ++ new.reduceOption)) :
    WriteSpent sb (l ++ r) (l' ++ r) new st st₁ out := by
  have hright := fun a ha => h.step.grown.keeps_right hl hsep (a := a) ha
  have hleft := hw.left
  -- Either no zone was free, or all bytes of the request are in the first slots.
  have hend : none ∉ new → RWState.skip st + st.udata.left ≤ slotsSize l := by
    intro hn
    rcases h.step.status with ⟨_, hm⟩ | ⟨_, hs⟩
    · exact absurd hm hn
    · have hout := hs.outcome
      unfold RWState.outcome RWState.moved at hout
      split_ifs at hout with hz
      · omega
      · exact absurd hout hne
  have hfailed : none ∈ new ↔ freeZones sb st.disk <
      slotsMissing st.disk (l ++ r) (RWState.skip st) (RWState.skip st + st.udata.left) := by
    by_cases hn : none ∈ new
    · have hf := h.spent.failed.mp hn
      simp only [hn, true_iff]
      rw [slotsMissing_append]
      omega
    · rw [slotsMissing_before (hend hn)]
      exact h.spent.failed
  have hnot : ∀ o, slotsSize l ≤ o → ¬ Reaches sb (l ++ r) st o := by
    rintro o ho ⟨_, hlt, hroom⟩
    by_cases hn : none ∈ new
    · have hf := h.spent.failed.mp hn
      have hfull : slotsMissing st.disk l (RWState.skip st) (o + 1) =
          slotsMissing st.disk l (RWState.skip st) (RWState.skip st + st.udata.left) :=
        slotsMissing_after (by omega) (by omega)
      rw [slotsMissing_append] at hroom
      omega
    · have := hend hn
      omega
  refine ⟨h.step.stop hne hl hsep, h.log, h.taken, hfailed, ?_, ?_, ?_⟩
  · intro hn
    rw [slotsMissing_before (hend hn)]
    exact h.spent.count hn
  · intro o _ hr
    have ho : o < slotsSize l := by
      by_contra hge
      exact hnot o (not_lt.mp hge) hr
    rw [slotsByte_append, h.step.size_eq, if_pos ho]
    exact h.spent.stored o ho ((reaches_left ho).mp hr)
  · intro o _ hr
    rw [slotsByte_append, slotsByte_append, h.step.size_eq]
    by_cases ho : o < slotsSize l
    · rw [if_pos ho, if_pos ho]
      exact h.spent.kept o ho (fun hl' => hr ((reaches_left ho).mpr hl'))
    · rw [if_neg ho, if_neg ho, slotsByte_congr hright]

end WriteSpent

end Lists

section Slot
variable {sb : Minix3Superblock} {offset depth zone : ℕ} {st : RWState} {new : List (Option ℕ)}

theorem slotsMissing_single {disk : Store} {start stop : ℕ} :
    slotsMissing disk [(depth, zone)] start stop = slotMissing disk depth zone start stop := by
  rw [slotsMissing_cons, slotsMissing_nil, Nat.add_zero]

theorem slotsByte_single {disk : Store} {o : ℕ} (ho : o < zoneSize depth) :
    slotsByte disk [(depth, zone)] o = slotByte disk depth zone o := by
  rw [slotsByte_cons, if_pos ho]

theorem Spent.skipped (h : zoneSize depth ≤ RWState.skip st) :
    Spent sb [(depth, zone)] [(depth, zone)] [] st st.disk := by
  have hnone : ∀ stop, slotsMissing st.disk [(depth, zone)] (RWState.skip st) stop = 0 := by
    intro stop
    rw [slotsMissing_single, slotMissing_none (Or.inr h)]
  refine ⟨by simp [hnone], by simp [hnone, List.reduceOption], fun o ho hr => ?_, fun _ _ _ => rfl⟩
  have hge := hr.ge
  simp only [slotsSize_cons, slotsSize_nil] at ho
  omega

theorem Spent.full (hw : Writing offset st) (hlt : RWState.skip st < zoneSize depth)
    (hfree : freeZones sb st.disk = 0) : Spent sb [(depth, 0)] [(depth, 0)] [none] st st.disk := by
  have hleft := hw.left
  have hpos : ∀ stop, RWState.skip st < stop →
      0 < slotsMissing st.disk [(depth, 0)] (RWState.skip st) stop := by
    intro stop hstop
    have hin : RWState.skip st < stop ∧ RWState.skip st < zoneSize depth := ⟨hstop, hlt⟩
    rw [slotsMissing_single]
    cases depth with
    | zero => simp [slotMissing, hin]
    | succ depth =>
      rw [slotMissing_succ, if_pos hin, if_pos rfl]
      omega
  refine ⟨?_, by simp, fun o _ hr => ?_, fun _ _ _ => rfl⟩
  · have := hpos (RWState.skip st + st.udata.left) (by omega)
    simp only [List.mem_singleton, true_iff]
    omega
  · have h1 := hpos (o + 1) (by have := hr.ge; omega)
    have h2 := hr.room
    omega

/-- A zone that was allocated for the slot is one of the missing ones. -/
theorem Spent.after_alloc {st₁ : RWState} {disk' : Store} (hw : Writing offset st)
    (hlt : RWState.skip st < zoneSize depth) (hz : zone ≠ 0)
    (hzero : ∀ a, a / blockSize = zone → st₁.disk a = 0)
    (hfree : freeZones sb st₁.disk + 1 = freeZones sb st.disk)
    (hu : st₁.udata = { st.udata with allocated := st.udata.allocated ++ [some zone] })
    (hp : st₁.position = st.position)
    (h : Spent sb [(depth, zone)] [(depth, zone)] new st₁ disk') :
    Spent sb [(depth, 0)] [(depth, zone)] (some zone :: new) st disk' := by
  have hleft := hw.left
  have hskip : RWState.skip st₁ = RWState.skip st := by rw [RWState.skip, RWState.skip, hu, hp]
  have hl₁ : st₁.udata.left = st.udata.left := by rw [hu]
  have hb₁ : st₁.udata.buffer = st.udata.buffer := by rw [hu]
  have hmissing : ∀ stop, RWState.skip st < stop →
      slotsMissing st.disk [(depth, 0)] (RWState.skip st) stop =
        slotsMissing st₁.disk [(depth, zone)] (RWState.skip st₁) stop + 1 := by
    intro stop hstop
    rw [slotsMissing_single, slotsMissing_single, hskip]
    exact slotMissing_zeroed hz hzero ⟨hstop, hlt⟩
  have hall := hmissing (RWState.skip st + st.udata.left) (by omega)
  have hreach : ∀ o, Reaches sb [(depth, 0)] st o ↔ Reaches sb [(depth, zone)] st₁ o := by
    intro o
    constructor
    · rintro ⟨h1, h2, h3⟩
      have := hmissing (o + 1) (by omega)
      exact ⟨by omega, by omega, by omega⟩
    · rintro ⟨h1, h2, h3⟩
      have := hmissing (o + 1) (by omega)
      exact ⟨by omega, by omega, by omega⟩
  refine ⟨?_, fun hn => ?_, fun o ho hr => ?_, fun o ho hr => ?_⟩
  · have hf := h.failed
    rw [hskip, hl₁] at hf
    rw [hskip] at hall
    simp only [List.mem_cons, reduceCtorEq, false_or, hf, hall]
    omega
  · have hc := h.count (fun hm => hn (List.mem_cons_of_mem _ hm))
    rw [List.reduceOption_cons_of_some, List.length_cons, hc, hall, hskip, hl₁]
  · have hs := h.stored o (by simpa using ho) ((hreach o).mp hr)
    rw [hb₁, hskip] at hs
    exact hs
  · have ho' : o < zoneSize depth := by simpa using ho
    rw [h.kept o (by simpa using ho) (fun h => hr ((hreach o).mpr h)), slotsByte_single ho',
      slotsByte_single ho', (slot_zeroed hz hzero depth).2 o ho', slotByte_hole]

/-- The middle of every slot with a zone takes what is missing below it. -/
def MiddleSpends (sb : Minix3Superblock) (offset depth : ℕ)
    (middle : ℕ → RWState → Outcome × ℕ × RWState) : Prop :=
  ∀ zone st, zone ≠ 0 → Writing offset st → offset < st.position + zoneSize depth →
    Stocked sb (slotZones st.disk depth zone) st.disk →
    ∃ new, (middle zone st).2.2.udata.allocated = st.udata.allocated ++ new ∧
      (middle zone st).2.1 = zone ∧
      Spent sb [(depth, zone)] [(depth, zone)] new st (middle zone st).2.2.disk

variable {middle : ℕ → RWState → Outcome × ℕ × RWState}

theorem slotRest_same (sb : Minix3Superblock) (size zone : ℕ) (st : RWState) :
    (slotRest (minixRWZoneWalkCallback sb) size middle zone st).2.1 = (middle zone st).2.1 ∧
      (slotRest (minixRWZoneWalkCallback sb) size middle zone st).2.2.disk = (middle zone st).2.2.disk ∧
      (slotRest (minixRWZoneWalkCallback sb) size middle zone st).2.2.udata =
        (middle zone st).2.2.udata := by
  unfold slotRest
  obtain ⟨out, z, st'⟩ := middle zone st
  have hpost := callback_post_state sb z st'.position size st'
  have hzone : (minixRWZoneWalkCallback sb z st'.position size .post st').2.1 = z := by
    simp [minixRWZoneWalkCallback, checked]
  cases out with
  | success =>
    simp only [checked]
    generalize minixRWZoneWalkCallback sb z st'.position size .post st' = q at hpost hzone ⊢
    obtain ⟨out, z₂, st₂⟩ := q
    obtain rfl : st₂ = st' := hpost
    obtain rfl : z₂ = z := hzone
    cases out <;> exact ⟨rfl, rfl, rfl⟩
  | successExit => exact ⟨rfl, rfl, rfl⟩
  | error e => exact ⟨rfl, rfl, rfl⟩
  | divideByZero => exact ⟨rfl, rfl, rfl⟩

theorem Writing.skip_lt (hw : Writing offset st) (hlt : offset < st.position + zoneSize depth) :
    RWState.skip st < zoneSize depth := by
  have := zoneSize_pos depth
  rw [RWState.skip, hw.offset_eq]
  omega

/-- One slot takes what is missing in it. -/
theorem scanSlot_spent {out : Outcome} {zone' : ℕ} {st' : RWState} (hl : Layout sb)
    (hpos : 0 < sb.first_data_zone) (hle : sb.zones ≤ 2 ^ 32) (hmid : MiddleSpends sb offset depth middle)
    (hw : Writing offset st) (hs : Stocked sb (slotZones st.disk depth zone) st.disk)
    (he : scanSlot (minixRWZoneWalkCallback sb) offset (zoneSize depth) middle zone st =
      (out, zone', st'))
    (hlog : st'.udata.allocated = st.udata.allocated ++ new) :
    Spent sb [(depth, zone)] [(depth, zone')] new st st'.disk := by
  by_cases hlt : offset < st.position + zoneSize depth
  · have hskip := hw.skip_lt hlt
    rw [scanSlot_visit hlt] at he
    by_cases hz : zone = 0
    · subst hz
      rw [callback_pre_hole hw.write hw.left] at he
      cases hget : getFreeMinixZone sb st.disk with
      | none =>
        simp only [allocateZone, hget, checked, Prod.mk.injEq] at he
        obtain ⟨_, rfl, rfl⟩ := he
        obtain rfl : new = [none] := (List.append_cancel_left hlog).symm
        exact .full hw hskip (freeZones_full hget)
      | some p =>
        obtain ⟨k, disk⟩ := p
        obtain ⟨st₁, ha, h₁⟩ := allocateZone_stocked depth hl hpos hle hget hw (hs.of_count (by simp))
        have hleft : st₁.udata.left ≠ 0 := by
          have := h₁.writing.left
          omega
        have hvisit : offset < st₁.position + zoneSize depth := by
          rw [h₁.position]
          exact hlt
        simp only [ha, checked, if_neg hleft] at he
        obtain ⟨hzone, hdisk, hdata⟩ := slotRest_same sb (zoneSize depth) k st₁
        rw [he] at hzone hdisk hdata
        obtain ⟨new₂, hnew₂, hkeep, hspent⟩ := hmid k st₁ h₁.ne_zero h₁.writing hvisit h₁.stocked
        obtain rfl : new = some k :: new₂ := by
          rw [hdata, hnew₂, h₁.udata, List.append_assoc] at hlog
          exact (List.append_cancel_left hlog).symm
        simp only at hzone hdisk
        rw [hzone, hkeep, hdisk]
        exact hspent.after_alloc hw hskip h₁.ne_zero h₁.zeros h₁.taken.freeZones h₁.udata h₁.position
    · rw [callback_pre_full hz hw.left] at he
      simp only [checked] at he
      obtain ⟨hzone, hdisk, hdata⟩ := slotRest_same sb (zoneSize depth) zone st
      rw [he] at hzone hdisk hdata
      obtain ⟨new₂, hnew₂, hkeep, hspent⟩ := hmid zone st hz hw hlt hs
      obtain rfl : new = new₂ := by
        rw [hdata, hnew₂] at hlog
        exact (List.append_cancel_left hlog).symm
      simp only at hzone hdisk
      rw [hzone, hkeep, hdisk]
      exact hspent
  · rw [(scanSlot_skip sb zone middle hw hlt).2] at he
    simp only [Prod.mk.injEq] at he
    obtain ⟨_, rfl, rfl⟩ := he
    obtain rfl : new = [] := by simpa using hlog
    refine .skipped ?_
    rw [RWState.skip, hw.offset_eq]
    omega

def SlotSpends (sb : Minix3Superblock) (offset depth : ℕ) : Prop :=
  ∀ zone st, Writing offset st → Stocked sb (slotZones st.disk depth zone) st.disk →
    ∃ out zone' st' new, walkSlot (minixRWZoneWalkCallback sb) offset depth zone st = (out, zone', st') ∧
      WriteSpent sb [(depth, zone)] [(depth, zone')] new st st' out

/-- A scan takes what its slots are missing, in their order. -/
theorem walkSlots_spent (hl : Layout sb) (hle : sb.zones ≤ 2 ^ 32) {slots : List Slot}
    (hslots : ∀ p ∈ slots, SlotSpends sb offset p.1) (hw : Writing offset st)
    (hs : Stocked sb (slotsZones st.disk slots) st.disk) :
    ∃ out slots' st' new, walkSlots (minixRWZoneWalkCallback sb) offset slots st =
        (out, slots'.map Prod.snd, st') ∧ WriteSpent sb slots slots' new st st' out := by
  induction slots generalizing st with
  | nil => exact ⟨_, [], st, [], rfl, .nil hl hw⟩
  | cons p slots ih =>
    have hs₀ : Stocked sb (slotZones st.disk p.1 p.2) st.disk :=
      hs.of_count (fun z => by simp [List.count_append])
    obtain ⟨out, zone', st₁, new, he, h⟩ := hslots p List.mem_cons_self p.2 st hw hs₀
    have hsep : Separate sb (slotsZones st.disk ([p] ++ slots) ++ new.reduceOption) :=
      hs.fresh hle h.taken
    by_cases hout : out = .success
    · subst hout
      have hs₁ := hs.take hle h.taken
      have hkeep : ∀ a, a / blockSize ∈ slotsZones st.disk slots → st₁.disk a = st.disk a :=
        fun a ha => h.step.grown.keeps_right hl hsep ha
      have hs₂ : Stocked sb (slotsZones st₁.disk slots) st₁.disk := by
        rw [slotsZones_congr hkeep]
        exact hs₁.of_count (fun z => by
          simp only [slotsZones_cons, List.count_append]
          omega)
      obtain ⟨out₂, slots', st₂, new₂, he₂, h₂⟩ :=
        ih (fun q hq => hslots q (List.mem_cons_of_mem _ hq)) (h.step.next hw) hs₂
      have hsep₂ : Separate sb (slotsZones st.disk ([p] ++ slots) ++ (new ++ new₂).reduceOption) := by
        rw [List.reduceOption_append]
        exact hs.fresh hle (h.taken.trans h₂.taken)
      refine ⟨out₂, (p.1, zone') :: slots', st₂, new ++ new₂, ?_, h.append hl h₂ hsep₂⟩
      simp [walkSlots, he, he₂]
    · refine ⟨out, (p.1, zone') :: slots, st₁, new, ?_, h.ended hl hw hout hsep⟩
      cases out <;> simp_all [walkSlots]

/-- The bytes of a request in a data zone. -/
theorem callback_mid_spends (sb : Minix3Superblock) (offset : ℕ) : MiddleSpends sb offset 0
    (fun zone st => minixRWZoneWalkCallback sb zone st.position (zoneSize 0) .mid st) := by
  intro zone st hz hw hlt _
  obtain ⟨st', he, _, _, _, hu, hb⟩ := transferZone_write sb hw hlt hz
  have hskip := hw.skip_lt hlt
  have hbuff := hw.buffer
  have hmissing : ∀ stop, slotsMissing st.disk [(0, zone)] (RWState.skip st) stop = 0 := by
    intro stop
    rw [slotsMissing_single]
    simp [slotMissing, hz]
  have hmoved : RWState.moved st [(0, zone)] = min st.udata.left (zoneSize 0 - RWState.skip st) := by
    simp [RWState.moved]
  simp only [callback_mid hw.left, he, checked]
  refine ⟨[], by rw [hu, List.append_nil], trivial, by simp [hmissing],
    by simp [hmissing, List.reduceOption], fun o ho hr => ?_, fun o ho hr => ?_⟩
  · have ho' : o < zoneSize 0 := by simpa using ho
    obtain ⟨h1, h2, _⟩ := hr
    have hin : o - RWState.skip st < RWState.moved st [(0, zone)] := by omega
    have hsome : o - RWState.skip st < st.udata.buffer.length := by omega
    rw [slotsByte_single ho', hb o ho']
    unfold ByteStore.write
    rw [if_pos h1, List.getElem?_take_of_lt hin, List.getElem?_eq_getElem hsome, Option.getD_some]
  · have ho' : o < zoneSize 0 := by simpa using ho
    rw [slotsByte_single ho', slotsByte_single ho', hb o ho']
    apply write_outside
    by_contra hin
    push Not at hin
    refine hr ⟨hin.1, ?_, by rw [hmissing]; omega⟩
    have := List.length_take_le (RWState.moved st [(0, zone)]) st.udata.buffer
    omega

/-- The table of an indirect zone takes what is missing below it. -/
theorem walkTable_spends (hl : Layout sb) (hle : sb.zones ≤ 2 ^ 32) (ih : SlotSpends sb offset depth) :
    MiddleSpends sb offset (depth + 1) (fun zone st =>
      if zone = 0 then minixRWZoneWalkCallback sb zone st.position (zoneSize (depth + 1)) .mid st
      else walkTable (walkSlot (minixRWZoneWalkCallback sb) offset depth) zone st) := by
  intro zone st hz hw hlt hs
  have hskip := hw.skip_lt hlt
  have hscan : scanTable (walkSlot (minixRWZoneWalkCallback sb) offset depth)
      (zoneTable st.disk zone) { st with changed := false } =
      walkSlots (minixRWZoneWalkCallback sb) offset (tableSlots depth (zoneTable st.disk zone))
        { st with changed := false } := recScan_eq _ _ _ _ _
  have hslots : ∀ p ∈ tableSlots depth (zoneTable st.disk zone), SlotSpends sb offset p.1 := by
    intro p hp
    obtain ⟨z, _, rfl⟩ := List.mem_map.mp hp
    exact ih
  have hw' : Writing offset { st with changed := false } :=
    ⟨hw.write, hw.offset_eq, hw.left, hw.aligned, hw.buffer⟩
  have hs' : Stocked sb (slotsZones st.disk (tableSlots depth (zoneTable st.disk zone))) st.disk :=
    hs.of_count (fun z => by simp [slotZones_succ hz, List.count_cons])
  obtain ⟨out, slots', st₁, new, he, h⟩ := walkSlots_spent hl hle hslots hw' hs'
  have hsep : Separate sb (slotZones st.disk (depth + 1) zone ++ new.reduceOption) :=
    hs.fresh hle h.taken
  obtain ⟨hframe, htable, hnot⟩ := h.step.table_stored hl hz hsep
  have hmissing : ∀ stop, RWState.skip st < stop →
      slotsMissing st.disk [(depth + 1, zone)] (RWState.skip st) stop =
        slotsMissing st.disk (tableSlots depth (zoneTable st.disk zone)) (RWState.skip st) stop := by
    intro stop hstop
    have hin : RWState.skip st < stop ∧ RWState.skip st < zoneSize (depth + 1) := ⟨hstop, hskip⟩
    rw [slotsMissing_single, slotMissing_succ, if_pos hin, if_neg hz, tableOf, if_neg hz, Nat.zero_add]
  have hreach : ∀ o, Reaches sb [(depth + 1, zone)] st o ↔
      Reaches sb (tableSlots depth (zoneTable st.disk zone)) { st with changed := false } o := by
    intro o
    constructor
    · rintro ⟨h1, h2, h3⟩
      exact ⟨h1, h2, by rw [hmissing (o + 1) (by omega)] at h3; exact h3⟩
    · rintro ⟨h1, h2, h3⟩
      exact ⟨h1, h2, by rw [hmissing (o + 1) (Nat.lt_succ_of_le h1)]; exact h3⟩
  have hsize := slotsSize_zoneTable st.disk depth zone
  have hbyte : ∀ o < zoneSize (depth + 1),
      slotsByte (storedTable zone slots' st₁) [(depth + 1, zone)] o = slotsByte st₁.disk slots' o := by
    intro o ho
    rw [slotsByte_single ho, slotByte_succ hz, htable, ← eq_tableSlots h.step.grown.depths]
    exact slotsByte_congr (fun a ha => hframe a (fun he => hnot (he ▸ ha))) o
  have hall := hmissing (RWState.skip st + st.udata.left) (by have := hw.left; omega)
  simp only [if_neg hz, walkTable, hscan, he]
  refine ⟨new, h.log, trivial, ?_, fun hn => ?_, fun o ho hr => ?_, fun o ho hr => ?_⟩
  · rw [hall]
    exact h.spent.failed
  · rw [hall]
    exact h.spent.count hn
  · have ho' : o < zoneSize (depth + 1) := by simpa using ho
    exact (h.spent.stored o (hsize ▸ ho') ((hreach o).mp hr)).trans (congrArg some (hbyte o ho').symm)
  · have ho' : o < zoneSize (depth + 1) := by simpa using ho
    refine (hbyte o ho').trans ((h.spent.kept o (hsize ▸ ho') (fun h => hr ((hreach o).mpr h))).trans ?_)
    rw [slotsByte_single ho', slotByte_succ hz]

theorem walkSlot_spent (hl : Layout sb) (hpos : 0 < sb.first_data_zone) (hle : sb.zones ≤ 2 ^ 32)
    (offset depth : ℕ) : SlotSpends sb offset depth := by
  -- What is stored and taken is known; the step is only missing what was spent.
  have hslot : ∀ depth, (∀ zone st new out zone' st', Writing offset st →
      Stocked sb (slotZones st.disk depth zone) st.disk →
      walkSlot (minixRWZoneWalkCallback sb) offset depth zone st = (out, zone', st') →
      st'.udata.allocated = st.udata.allocated ++ new →
      Spent sb [(depth, zone)] [(depth, zone')] new st st'.disk) → SlotSpends sb offset depth := by
    intro depth hspent zone st hw hs
    obtain ⟨new, hlog, ht⟩ := walkSlot_supplied hl hpos hle offset depth zone st hw hs
    obtain ⟨out, zone', st', he, hstep⟩ :=
      walkSlot_write hl hpos offset depth zone st new hw hlog (hs.fresh hle ht)
    rw [he] at hlog ht
    exact ⟨out, zone', st', new, he, hstep, hlog, ht, hspent zone st new out zone' st' hw hs he hlog⟩
  induction depth with
  | zero =>
    refine hslot 0 (fun zone st new out zone' st' hw hs he hlog => ?_)
    exact scanSlot_spent hl hpos hle (callback_mid_spends sb offset) hw hs he hlog
  | succ depth ih =>
    refine hslot (depth + 1) (fun zone st new out zone' st' hw hs he hlog => ?_)
    exact scanSlot_spent hl hpos hle (walkTable_spends hl hle ih) hw hs he hlog

end Slot

/-- The whole effect of a write, by what its file is missing. A write that ends early
without an error was at the end of the range of the slots. -/
structure FileSpent (sb : Minix3Superblock) (disk : Store) (node : MinixVfsNode) (buff : List UInt8)
    (offset : ℕ) (r : IoResult) : Prop where
  failed : none ∈ r.allocated ↔
    freeZones sb disk < fileMissing disk node offset (offset + buff.length)
  bytes : ∀ o < maxFileSize, fileByte r.disk r.node o =
    if offset ≤ o ∧ fileMissing disk node offset (o + 1) ≤ freeZones sb disk then
      (buff[o - offset]?).getD (fileByte disk node o)
    else fileByte disk node o
  success : none ∉ r.allocated → r.outcome = .success ∧ r.ret = min buff.length (maxFileSize - offset) ∧
    r.node.stat.size = if buff.length = 0 then node.stat.size else max node.stat.size (offset + r.ret)

section Write
variable {sb : Minix3Superblock} {disk : Store} {node : MinixVfsNode} {buff : List UInt8} {offset : ℕ}

theorem finishWrite_short (sb : Minix3Superblock) (node : MinixVfsNode) (length offset : ℕ)
    {w : Outcome × List ℕ × RWState} (hout : w.1 = .success ∨ w.1 = .successExit) :
    (finishWrite sb node length offset w).outcome = .success ∧
      (finishWrite sb node length offset w).ret = length - w.2.2.udata.left ∧
      (finishWrite sb node length offset w).node.stat.size =
        max node.stat.size (offset + (length - w.2.2.udata.left)) := by
  unfold finishWrite
  rw [if_pos hout]
  simp only
  split_ifs with hgrow
  · exact ⟨rfl, rfl, (max_eq_right hgrow.le).symm⟩
  · exact ⟨rfl, rfl, (max_eq_left (not_lt.mp hgrow)).symm⟩

theorem minixWriteAt_spent (hl : Layout sb) (hpos : 0 < sb.first_data_zone) (hle : sb.zones ≤ 2 ^ 32)
    (hn : NodeOf sb node) (hs : Stocked sb (fileZones disk node) disk) :
    FileSpent sb disk node buff offset (minixWriteAt sb disk node buff offset) := by
  by_cases hzero : buff.length = 0
  · have hnil : buff = [] := List.length_eq_zero_iff.mp hzero
    subst hnil
    have hnone : fileMissing disk node offset (offset + ([] : List UInt8).length) = 0 :=
      slotsMissing_none (Or.inl le_rfl)
    refine ⟨?_, fun o _ => ?_, fun _ => ⟨rfl, ?_, rfl⟩⟩
    · rw [hnone]
      simp [minixWriteAt, minixReadWrite]
    · simp [minixWriteAt, minixReadWrite]
    · simp [minixWriteAt, minixReadWrite]
  · have hw : Writing offset (writeStart disk buff offset) :=
      ⟨rfl, rfl, Nat.pos_of_ne_zero hzero, Dvd.intro 0 rfl, rfl⟩
    obtain ⟨out, slots', st', new, he, h⟩ := walkSlots_spent hl hle
      (fun p _ => walkSlot_spent hl hpos hle offset p.1) hw hs
    rw [minixWriteAt_eq hzero, he]
    have hlog : st'.udata.allocated = new := h.log
    have hall := (finishWrite_allocated sb node buff.length offset (out, slots'.map Prod.snd, st')).trans hlog
    have hlen : (slots'.map Prod.snd).length = 10 := by
      have := congrArg List.length h.step.grown.depths
      simpa [inodeSlots_zip hn.zones, hn.zones] using this
    obtain ⟨_, hzones, hdisk⟩ :=
      @finishWrite_fields sb node buff.length offset (out, slots'.map Prod.snd, st') hlen
    have hsize := slotsSize_inode hn.zones
    obtain ⟨_, _, _, hbyte⟩ := h.step.grown.stored_node _ _ hl hn hzones (hs.fresh hle h.taken) hdisk
    refine ⟨by rw [hall]; exact h.spent.failed, fun o ho => (hbyte o).trans ?_, fun hnone => ?_⟩
    · have ho' : o < slotsSize (inodeSlots node.zones) := by
        rw [hsize]
        exact ho
      by_cases hr : Reaches sb (inodeSlots node.zones) (writeStart disk buff offset) o
      · have hst := h.spent.stored o ho' hr
        have hin : offset ≤ o ∧ fileMissing disk node offset (o + 1) ≤ freeZones sb disk :=
          ⟨hr.ge, hr.room⟩
        have hget : buff[o - offset]? = some (slotsByte st'.disk slots' o) := hst
        rw [if_pos hin, hget, Option.getD_some]
      · rw [h.spent.kept o ho' hr]
        split_ifs with hin
        · have hge : buff.length ≤ o - offset := by
            by_contra hlt
            refine hr ⟨hin.1, ?_, hin.2⟩
            simp only [RWState.skip, writeStart]
            omega
          rw [List.getElem?_eq_none hge]
          rfl
        · rfl
    · rw [hall] at hnone
      rcases h.step.status with ⟨_, hm⟩ | ⟨_, hst⟩
      · exact absurd hm hnone
      · have hout : out = .success ∨ out = .successExit := by
          rw [hst.outcome, RWState.outcome]
          split_ifs
          · exact Or.inr rfl
          · exact Or.inl rfl
        have hleft : buff.length - st'.udata.left = min buff.length (maxFileSize - offset) := by
          rw [hst.left]
          simp only [RWState.moved, RWState.skip, hsize, writeStart]
          omega
        obtain ⟨h1, h2, h3⟩ :=
          @finishWrite_short sb node buff.length offset (out, slots'.map Prod.snd, st') hout
        rw [if_neg hzero, h2]
        exact ⟨h1, hleft, h3⟩

end Write

end SomeOs.Minix

import SomeOs.Minix.WriteSpec

/-! # What a truncation walk frees

Slots that end before the new length are not visited. Of a visited data slot the
part from the new length on is zeroed, or the zone is freed when it starts there;
a visited indirect zone is always freed after its table was walked.
-/
namespace SomeOs.Minix
open ByteStore

def withStarts : List Slot → ℕ → List (Slot × ℕ)
  | [], _ => []
  | p :: rest, start => (p, start) :: withStarts rest (start + zoneSize p.1)

/-- A reference to a zone from a slot that starts at an offset of the file. -/
structure Ref where
  zone : ℕ
  start : ℕ
  depth : ℕ
  deriving DecidableEq

/-- The references in the tree below a slot. -/
def slotRefs (disk : Store) : ℕ → ℕ → ℕ → List Ref
  | 0, zone, start => if zone = 0 then [] else [⟨zone, start, 0⟩]
  | depth + 1, zone, start =>
    if zone = 0 then []
    else ⟨zone, start, depth + 1⟩ ::
      (withStarts (tableSlots depth (zoneTable disk zone)) start).flatMap
        (fun q => slotRefs disk depth q.1.2 q.2)

def slotsRefs (disk : Store) (slots : List Slot) (start : ℕ) : List Ref :=
  (withStarts slots start).flatMap (fun q => slotRefs disk q.1.1 q.1.2 q.2)

def fileRefs (disk : Store) (node : MinixVfsNode) : List Ref := slotsRefs disk (inodeSlots node.zones) 0

/-- The zones that a truncation to `length` frees below a slot. -/
def slotFreed (disk : Store) (length : ℕ) : ℕ → ℕ → ℕ → List ℕ
  | 0, zone, start => if zone = 0 ∨ start < length then [] else [zone]
  | depth + 1, zone, start =>
    if zone = 0 ∨ start + zoneSize (depth + 1) ≤ length then []
    else (withStarts (tableSlots depth (zoneTable disk zone)) start).flatMap
      (fun q => slotFreed disk length depth q.1.2 q.2) ++ [zone]

def slotsFreed (disk : Store) (length : ℕ) (slots : List Slot) (start : ℕ) : List ℕ :=
  (withStarts slots start).flatMap (fun q => slotFreed disk length q.1.1 q.1.2 q.2)

def cutSlot (length : ℕ) (q : Slot × ℕ) : Slot :=
  (q.1.1, if q.2 + zoneSize q.1.1 ≤ length ∨ (q.1.1 = 0 ∧ q.2 < length) then q.1.2 else 0)

def cutSlots (length : ℕ) (slots : List Slot) (start : ℕ) : List Slot :=
  (withStarts slots start).map (cutSlot length)

section Lists
variable {disk disk' : Store} {l r : List Slot} {length start : ℕ}

theorem withStarts_append :
    withStarts (l ++ r) start = withStarts l start ++ withStarts r (start + slotsSize l) := by
  induction l generalizing start with
  | nil => simp [withStarts]
  | cons p l ih => simp [withStarts, ih, Nat.add_assoc]

theorem map_fst_withStarts : (withStarts l start).map Prod.fst = l := by
  induction l generalizing start with
  | nil => rfl
  | cons p l ih => simp [withStarts, ih]

@[simp] theorem slotsRefs_append :
    slotsRefs disk (l ++ r) start = slotsRefs disk l start ++ slotsRefs disk r (start + slotsSize l) := by
  simp [slotsRefs, withStarts_append]

@[simp] theorem slotsFreed_append :
    slotsFreed disk length (l ++ r) start =
      slotsFreed disk length l start ++ slotsFreed disk length r (start + slotsSize l) := by
  simp [slotsFreed, withStarts_append]

@[simp] theorem cutSlots_append :
    cutSlots length (l ++ r) start =
      cutSlots length l start ++ cutSlots length r (start + slotsSize l) := by
  simp [cutSlots, withStarts_append]

@[simp] theorem slotsFreed_nil : slotsFreed disk length [] start = [] := rfl

@[simp] theorem cutSlots_nil : cutSlots length [] start = [] := rfl

theorem slotsRefs_singleton (p : Slot) : slotsRefs disk [p] start = slotRefs disk p.1 p.2 start := by
  simp [slotsRefs, withStarts]

theorem slotsFreed_singleton (p : Slot) :
    slotsFreed disk length [p] start = slotFreed disk length p.1 p.2 start := by
  simp [slotsFreed, withStarts]

theorem cutSlots_singleton (p : Slot) : cutSlots length [p] start = [cutSlot length (p, start)] := rfl

theorem slotsSize_cutSlots : slotsSize (cutSlots length l start) = slotsSize l := by
  have hd : ((withStarts l start).map (cutSlot length)).map Prod.fst = l.map Prod.fst := by
    conv_rhs => rw [← @map_fst_withStarts l start]
    simp [cutSlot, Function.comp_def]
  have hs := congrArg (fun ds : List ℕ => (ds.map zoneSize).sum) hd
  simpa [slotsSize, cutSlots, List.map_map, Function.comp_def] using hs

@[simp] theorem slotRefs_hole (depth : ℕ) : slotRefs disk depth 0 start = [] := by
  cases depth <;> simp [slotRefs]

theorem flatMap_table {α : Type*} (f : ℕ → ℕ → ℕ → List α) (depth : ℕ) (table : List ℕ) (start : ℕ) :
    (withStarts (tableSlots depth table) start).flatMap (fun q => f depth q.1.2 q.2) =
      (withStarts (tableSlots depth table) start).flatMap (fun q => f q.1.1 q.1.2 q.2) := by
  induction table generalizing start with
  | nil => rfl
  | cons z table ih => simp only [tableSlots_cons, withStarts, List.flatMap_cons, ih]

theorem slotFreed_succ {depth zone : ℕ} (hz : zone ≠ 0) (h : length < start + zoneSize (depth + 1)) :
    slotFreed disk length (depth + 1) zone start =
      slotsFreed disk length (tableSlots depth (zoneTable disk zone)) start ++ [zone] := by
  have hn : ¬ (zone = 0 ∨ start + zoneSize (depth + 1) ≤ length) := by omega
  simp only [slotFreed, if_neg hn, slotsFreed, flatMap_table (slotFreed disk length)]

theorem mem_of_withStarts {q : Slot × ℕ} (h : q ∈ withStarts l start) : q.1 ∈ l := by
  rw [← @map_fst_withStarts l start]
  exact List.mem_map_of_mem h

/-- References and freed zones only depend on the zones of the tree. -/
theorem slotRefs_congr {depth zone : ℕ} (length : ℕ)
    (h : ∀ a, a / blockSize ∈ slotZones disk depth zone → disk' a = disk a) (start : ℕ) :
    slotRefs disk' depth zone start = slotRefs disk depth zone start ∧
      slotFreed disk' length depth zone start = slotFreed disk length depth zone start := by
  induction depth generalizing zone start with
  | zero => exact ⟨rfl, rfl⟩
  | succ depth ih =>
    by_cases hz : zone = 0
    · simp [hz, slotFreed]
    · rw [slotZones_succ hz] at h
      have htable : zoneTable disk' zone = zoneTable disk zone :=
        zoneTable_congr (fun a ha => h a (ha ▸ List.mem_cons_self))
      have hslot : ∀ q ∈ withStarts (tableSlots depth (zoneTable disk zone)) start,
          ∀ a, a / blockSize ∈ slotZones disk depth q.1.2 → disk' a = disk a := by
        intro q hq a ha
        obtain ⟨z, hzm, hq⟩ := List.mem_map.mp (mem_of_withStarts hq)
        apply h
        refine List.mem_cons_of_mem _ (List.mem_flatMap.mpr ⟨(depth, z), ?_, ?_⟩)
        · exact List.mem_map.mpr ⟨z, hzm, rfl⟩
        · rw [← hq] at ha
          exact ha
      simp only [slotRefs, slotFreed, if_neg hz, htable]
      constructor
      · rw [List.flatMap_congr (fun q hq => (ih (hslot q hq) q.2).1)]
      · rw [List.flatMap_congr (fun q hq => (ih (hslot q hq) q.2).2)]

theorem slotsRefs_congr (length : ℕ) (h : ∀ a, a / blockSize ∈ slotsZones disk l → disk' a = disk a) (start : ℕ) :
    slotsRefs disk' l start = slotsRefs disk l start ∧
      slotsFreed disk' length l start = slotsFreed disk length l start := by
  have hslot : ∀ q ∈ withStarts l start,
      ∀ a, a / blockSize ∈ slotZones disk q.1.1 q.1.2 → disk' a = disk a := by
    intro q hq a ha
    exact h a (List.mem_flatMap.mpr ⟨q.1, mem_of_withStarts hq, ha⟩)
  constructor
  · exact List.flatMap_congr (fun q hq => (slotRefs_congr length (hslot q hq) q.2).1)
  · exact List.flatMap_congr (fun q hq => (slotRefs_congr length (hslot q hq) q.2).2)

theorem slotsZones_withStarts (start : ℕ) :
    slotsZones disk l = (withStarts l start).flatMap (fun q => slotZones disk q.1.1 q.1.2) := by
  conv_lhs => rw [← @map_fst_withStarts l start]
  rw [slotsZones, List.flatMap_map]

theorem map_zone_slotRefs (depth zone start : ℕ) :
    (slotRefs disk depth zone start).map Ref.zone = slotZones disk depth zone := by
  induction depth generalizing zone start with
  | zero =>
    by_cases hz : zone = 0 <;> simp [slotRefs, slotZones, hz]
  | succ depth ih =>
    by_cases hz : zone = 0
    · simp [hz]
    · rw [slotZones_succ hz, slotsZones_withStarts start]
      simp only [slotRefs, if_neg hz, List.map_cons, List.map_flatMap, ih]
      rw [flatMap_table (fun d z _ => slotZones disk d z)]

theorem map_zone_slotsRefs (start : ℕ) :
    (slotsRefs disk l start).map Ref.zone = slotsZones disk l := by
  rw [slotsZones_withStarts start, slotsRefs, List.map_flatMap]
  simp only [map_zone_slotRefs]

theorem count_flatMap_le {α : Type*} {f g : α → List ℕ} {xs : List α} {z : ℕ}
    (h : ∀ x ∈ xs, (f x).count z ≤ (g x).count z) : (xs.flatMap f).count z ≤ (xs.flatMap g).count z := by
  rw [List.count_flatMap, List.count_flatMap]
  exact List.sum_le_sum h

/-- What is freed was in the tree, once for each time. -/
theorem count_slotFreed_le (disk : Store) (length depth zone start z : ℕ) :
    (slotFreed disk length depth zone start).count z ≤ (slotZones disk depth zone).count z := by
  induction depth generalizing zone start with
  | zero =>
    by_cases hz : zone = 0
    · simp [slotFreed, hz]
    · simp only [slotFreed, slotZones, if_neg hz]
      split_ifs <;> simp
  | succ depth ih =>
    by_cases h : zone = 0 ∨ start + zoneSize (depth + 1) ≤ length
    · simp [slotFreed, h]
    · have hz : zone ≠ 0 := fun hz => h (Or.inl hz)
      rw [slotZones_succ hz, slotsZones_withStarts start]
      simp only [slotFreed, if_neg h, List.count_append, List.count_cons, List.count_nil]
      have hle : ((withStarts (tableSlots depth (zoneTable disk zone)) start).flatMap
            (fun q => slotFreed disk length depth q.1.2 q.2)).count z ≤
          ((withStarts (tableSlots depth (zoneTable disk zone)) start).flatMap
            (fun q => slotZones disk depth q.1.2)).count z :=
        count_flatMap_le (fun q _ => ih q.1.2 q.2)
      rw [flatMap_table (fun d z _ => slotZones disk d z)] at hle
      omega

theorem count_cutSlot_le (disk : Store) (length : ℕ) (q : Slot × ℕ) (z : ℕ) :
    (slotZones disk (cutSlot length q).1 (cutSlot length q).2).count z +
        (slotFreed disk length q.1.1 q.1.2 q.2).count z ≤ (slotZones disk q.1.1 q.1.2).count z := by
  obtain ⟨⟨depth, zone⟩, start⟩ := q
  have hle := count_slotFreed_le disk length depth zone start z
  simp only [cutSlot]
  split_ifs with h
  · have hnone : slotFreed disk length depth zone start = [] := by
      cases depth with
      | zero =>
        have := zoneSize_pos 0
        have hlt : start < length := by omega
        simp [slotFreed, hlt]
      | succ depth =>
        have hle : start + zoneSize (depth + 1) ≤ length := by omega
        simp [slotFreed, hle]
    simp [hnone]
  · simpa using hle

theorem count_cutSlots_le (z : ℕ) :
    (slotsZones disk (cutSlots length l start)).count z + (slotsFreed disk length l start).count z ≤
      (slotsZones disk l).count z := by
  induction l generalizing start with
  | nil => simp
  | cons p l ih =>
    have hp := count_cutSlot_le disk length (p, start) z
    have hl := @ih (start + zoneSize p.1)
    simp only [cutSlots, slotsFreed, withStarts, List.map_cons, List.flatMap_cons, slotsZones_cons,
      List.count_append] at hp hl ⊢
    omega

end Lists

abbrev TState := WalkState MinixTruncRequest

/-- The position of a walk that has come to the offset `start`. Once the new length
was passed, the counter may be further ahead. -/
structure TruncAt (length start : ℕ) (st : TState) : Prop where
  length_eq : st.udata.length = length
  aligned : blockSize ∣ st.position
  skip : length - st.position = length - start
  le : start ≤ st.position

structure Mapped (sb : Minix3Superblock) (zones : List ℕ) : Prop where
  separate : Separate sb zones
  lt : ∀ z ∈ zones, z < sb.zones

/-- The effect of a truncation walk over a list of slots. -/
structure TruncStep (sb : Minix3Superblock) (length start : ℕ) (l : List Slot) (st st' : TState) :
    Prop where
  freed : st'.udata.freed = st.udata.freed ++ slotsFreed st.disk length l start
  frame : ∀ a, a / blockSize ∉ slotsZones st.disk l → ¬ InMap sb a → st'.disk a = st.disk a
  bits : ∀ b < sb.zones, mapBit st'.disk (zoneMapOffset sb) b =
    (decide (b ∉ slotsFreed st.disk length l start) && mapBit st.disk (zoneMapOffset sb) b)
  refs : ∀ s, slotsRefs st'.disk (cutSlots length l start) s =
    slotsRefs st.disk (cutSlots length l start) s
  bytes : ∀ o < slotsSize l, slotsByte st'.disk (cutSlots length l start) o =
    if start + o < length then slotsByte st.disk (cutSlots length l start) o else 0
  next : TruncAt length (start + slotsSize l) st'

section Mapped
variable {sb : Minix3Superblock} {xs ys : List ℕ}

theorem Mapped.of_count (h : Mapped sb xs) (hc : ∀ z, ys.count z ≤ xs.count z) : Mapped sb ys where
  separate := h.separate.of_count hc
  lt := fun z hz => h.lt z (List.count_pos_iff.mp (by
    have := List.count_pos_iff.mpr hz
    have := hc z
    omega))

theorem Mapped.left (h : Mapped sb (xs ++ ys)) : Mapped sb xs :=
  h.of_count (fun z => by simp)

theorem Mapped.right (h : Mapped sb (xs ++ ys)) : Mapped sb ys :=
  h.of_count (fun z => by simp)

end Mapped

namespace TruncStep
variable {sb : Minix3Superblock} {length start : ℕ} {l r : List Slot} {st st₁ st₂ : TState}

theorem nil (h : TruncAt length start st) : TruncStep sb length start [] st st :=
  ⟨by simp, fun _ _ _ => rfl, by simp, fun _ => rfl, by simp, h⟩

theorem zones (h : TruncStep sb length start l st st₁) :
    slotsZones st₁.disk (cutSlots length l start) = slotsZones st.disk (cutSlots length l start) := by
  rw [← map_zone_slotsRefs start, ← map_zone_slotsRefs start, h.refs]

theorem mem_of_cut {disk : Store} {z : ℕ} (hz : z ∈ slotsZones disk (cutSlots length l start)) :
    z ∈ slotsZones disk l := by
  have hpos := List.count_pos_iff.mpr hz
  have hle := @count_cutSlots_le disk l length start z
  exact List.count_pos_iff.mp (by omega)

/-- Truncation goes on with the slots that follow. -/
theorem append (h : TruncStep sb length start l st st₁)
    (h' : TruncStep sb length (start + slotsSize l) r st₁ st₂) (hl : Layout sb)
    (hm : Mapped sb (slotsZones st.disk (l ++ r))) :
    TruncStep sb length start (l ++ r) st st₂ := by
  rw [slotsZones_append] at hm
  have hsep := hm.separate
  have hright : ∀ a, a / blockSize ∈ slotsZones st.disk r → st₁.disk a = st.disk a := by
    intro a ha
    apply h.frame a (fun hin => hsep.disjoint hin ha)
    exact not_inMap hl (hsep.data _ (List.mem_append_right _ ha)).1
  have hzones : slotsZones st₁.disk r = slotsZones st.disk r := slotsZones_congr hright
  have hleft : ∀ a, a / blockSize ∈ slotsZones st.disk (cutSlots length l start) →
      st₂.disk a = st₁.disk a := by
    intro a ha
    have ha := mem_of_cut ha
    apply h'.frame a (hzones ▸ hsep.disjoint ha)
    exact not_inMap hl (hsep.data _ (List.mem_append_left _ ha)).1
  have hcutr : ∀ a, a / blockSize ∈ slotsZones st.disk (cutSlots length r (start + slotsSize l)) →
      st₁.disk a = st.disk a := fun a ha => hright a (mem_of_cut ha)
  have hfreed := (slotsRefs_congr length hright (start + slotsSize l)).2
  refine ⟨?_, fun a ha hn => ?_, fun b hb => ?_, fun s => ?_, fun o ho => ?_, ?_⟩
  · rw [h'.freed, h.freed, hfreed, slotsFreed_append, List.append_assoc]
  · rw [slotsZones_append, List.mem_append, not_or] at ha
    rw [h'.frame a (hzones ▸ ha.2) hn, h.frame a ha.1 hn]
  · rw [h'.bits b hb, h.bits b hb, hfreed, slotsFreed_append]
    simp only [List.mem_append, not_or, Bool.decide_and, Bool.and_left_comm, Bool.and_assoc]
  · rw [cutSlots_append, slotsRefs_append, slotsRefs_append, h'.refs,
      (slotsRefs_congr length (fun a ha => hleft a (h.zones ▸ ha)) s).1, h.refs,
      (slotsRefs_congr length hcutr _).1]
  · rw [cutSlots_append, slotsByte_append, slotsByte_append, slotsSize_cutSlots]
    by_cases hlt : o < slotsSize l
    · rw [if_pos hlt, if_pos hlt, slotsByte_congr (fun a ha => hleft a (h.zones ▸ ha)), h.bytes o hlt]
    · rw [slotsSize_append] at ho
      have hsum : start + slotsSize l + (o - slotsSize l) = start + o := by omega
      rw [if_neg hlt, if_neg hlt, h'.bytes _ (by omega), hsum, slotsByte_congr hcutr]
  · rw [slotsSize_append, ← Nat.add_assoc]
    exact h'.next

end TruncStep

section Callback
variable {sb : Minix3Superblock} {zone position size : ℕ} {phase : Phase} {st : TState}

theorem trunc_hole : minixTruncZoneWalkCallback sb 0 position size phase st = (.success, 0, st) := by
  simp [minixTruncZoneWalkCallback]

theorem trunc_pre : minixTruncZoneWalkCallback sb zone position size .pre st = (.success, zone, st) := by
  simp [minixTruncZoneWalkCallback]

def freedState (sb : Minix3Superblock) (zone : ℕ) (st : TState) : TState :=
  { st with
    disk := freeMinixZone sb st.disk zone
    changed := true
    udata := { st.udata with freed := st.udata.freed ++ [zone] } }

theorem trunc_post_free (hz : zone ≠ 0) (h : st.udata.length ≤ position) :
    minixTruncZoneWalkCallback sb zone position size .post st = (.success, 0, freedState sb zone st) := by
  simp [minixTruncZoneWalkCallback, hz, h, freedState]

theorem trunc_post_keep (h : ¬ st.udata.length ≤ position) :
    minixTruncZoneWalkCallback sb zone position size .post st = (.success, zone, st) := by
  simp [minixTruncZoneWalkCallback, h]

theorem trunc_mid_past (h : st.udata.length ≤ position) :
    minixTruncZoneWalkCallback sb zone position size .mid st = (.success, zone, st) := by
  simp [minixTruncZoneWalkCallback, h]

def zeroedState (zone block_offset : ℕ) (st : TState) : TState :=
  let zeros := List.replicate (blockSize - block_offset) 0
  { st with disk := ByteStore.write st.disk (offsetForZone zone + block_offset) zeros }

theorem trunc_mid_zero (hz : zone ≠ 0) (h : ¬ st.udata.length ≤ position) (hp : position ≠ 0) :
    minixTruncZoneWalkCallback sb zone position size .mid st =
      (.success, zone, zeroedState zone (st.udata.length % position) st) := by
  simp [minixTruncZoneWalkCallback, hz, h, hp, zeroedState]

theorem trunc_mid_divides (hz : zone ≠ 0) (h : st.udata.length ≠ 0) :
    minixTruncZoneWalkCallback sb zone 0 size .mid st = (.divideByZero, zone, st) := by
  simp [minixTruncZoneWalkCallback, hz, h]

end Callback

section Walk
variable {sb : Minix3Superblock} {length start depth zone : ℕ} {st : TState}

/-- A slot that ends before the new length is passed. -/
theorem scanSlot_before (middle : ℕ → TState → Outcome × ℕ × TState) (h : TruncAt length start st)
    (hle : start + zoneSize depth ≤ length) :
    ∃ st', scanSlot (minixTruncZoneWalkCallback sb) length (zoneSize depth) middle zone st =
        (.success, (cutSlot length ((depth, zone), start)).2, st') ∧
      TruncStep sb length start [(depth, zone)] st st' := by
  have hpos := zoneSize_pos depth
  have hskip := h.skip
  have hstart := h.le
  have heq : st.position = start := by omega
  have hcut : cutSlot length ((depth, zone), start) = (depth, zone) := by simp [cutSlot, hle]
  have hfreed : slotFreed st.disk length depth zone start = [] := by
    cases depth with
    | zero =>
      have : start < length := by omega
      simp [slotFreed, this]
    | succ depth => simp [slotFreed, hle]
  unfold scanSlot
  rw [if_neg (by omega), hcut]
  refine ⟨_, rfl, ?_, fun _ _ _ => rfl, fun b _ => ?_, fun _ => rfl, fun o ho => ?_, ?_, ?_, ?_, ?_⟩
  · simp [slotsFreed_singleton, hfreed]
  · simp [slotsFreed_singleton, hfreed]
  · simp only [slotsSize_cons, slotsSize_nil] at ho
    rw [if_pos (by omega)]
  · exact h.length_eq
  · exact Dvd.dvd.add h.aligned (blockSize_dvd_zoneSize depth)
  · simp only [slotsSize_cons, slotsSize_nil]
    omega
  · simp only [slotsSize_cons, slotsSize_nil]
    omega

theorem TruncStep.of_hole {st' : TState}
    (hcut : (cutSlot length ((depth, zone), start)).2 = 0)
    (hfreed : st'.udata.freed = st.udata.freed ++ slotFreed st.disk length depth zone start)
    (hframe : ∀ a, a / blockSize ∉ slotZones st.disk depth zone → ¬ InMap sb a → st'.disk a = st.disk a)
    (hbits : ∀ b < sb.zones, mapBit st'.disk (zoneMapOffset sb) b =
      (decide (b ∉ slotFreed st.disk length depth zone start) && mapBit st.disk (zoneMapOffset sb) b))
    (hnext : TruncAt length (start + zoneSize depth) st') :
    TruncStep sb length start [(depth, zone)] st st' := by
  have hslots : cutSlots length [(depth, zone)] start = [(depth, 0)] := by
    rw [cutSlots_singleton, ← hcut]
    rfl
  refine ⟨by rw [slotsFreed_singleton]; exact hfreed, fun a ha hm => ?_, ?_, fun s => ?_,
    fun o ho => ?_, by simpa using hnext⟩
  · exact hframe a (by simpa using ha) hm
  · rw [slotsFreed_singleton]
    exact hbits
  · rw [hslots, slotsRefs_singleton, slotsRefs_singleton, slotRefs_hole, slotRefs_hole]
  · rw [hslots, slotsByte_cons, slotsByte_cons, slotByte_hole, slotByte_hole]
    simp

theorem TruncAt.advance {size : ℕ} (hlt : length < start + size) (hlen : st.udata.length = length)
    (hal : blockSize ∣ st.position) (hle : start ≤ st.position) (hsize : blockSize ∣ size) :
    TruncAt length (start + size) { st with position := st.position + size } := by
  refine ⟨hlen, Dvd.dvd.add hal hsize, ?_, ?_⟩
  · simp only
    omega
  · simp only
    omega

theorem TruncAt.visited (h : TruncAt length start st) (hlt : length < start + zoneSize depth) :
    length < st.position + zoneSize depth := by
  have := h.le
  omega

theorem TruncAt.past_iff (h : TruncAt length start st) : st.udata.length ≤ st.position ↔ length ≤ start := by
  have := h.skip
  have := h.le
  rw [h.length_eq]
  omega

theorem scanSlot_hole {middle : ℕ → TState → Outcome × ℕ × TState} (h : TruncAt length start st)
    (hlt : length < start + zoneSize depth) (hmid : middle 0 st = (.success, 0, st)) :
    ∃ st', scanSlot (minixTruncZoneWalkCallback sb) length (zoneSize depth) middle 0 st =
        (.success, (cutSlot length ((depth, 0), start)).2, st') ∧
      TruncStep sb length start [(depth, 0)] st st' := by
  have hcut : (cutSlot length ((depth, 0), start)).2 = 0 := by simp [cutSlot]
  have hfreed : slotFreed st.disk length depth 0 start = [] := by cases depth <;> simp [slotFreed]
  rw [scanSlot_visit (h.visited hlt), hcut, trunc_hole]
  simp only [checked, slotRest, hmid, trunc_hole]
  refine ⟨_, rfl, .of_hole hcut ?_ (fun _ _ _ => rfl) (fun b _ => ?_)
    (.advance hlt h.length_eq h.aligned h.le (blockSize_dvd_zoneSize depth))⟩
  · simp [hfreed]
  · simp [hfreed]

theorem freedState_frame {a : ℕ} (hl : Layout sb) (hz : zone < sb.zones) (ha : ¬ InMap sb a) :
    (freedState sb zone st).disk a = st.disk a := by
  apply clearMapBit_outside
  rintro rfl
  exact ha (inMap_of_lt hl hz)

theorem freedState_bit (b : ℕ) :
    mapBit (freedState sb zone st).disk (zoneMapOffset sb) b =
      (decide (b ≠ zone) && mapBit st.disk (zoneMapOffset sb) b) := mapBit_clear

theorem zeroedState_frame {block_offset a : ℕ} (hb : block_offset ≤ blockSize)
    (ha : a / blockSize ≠ zone) : (zeroedState zone block_offset st).disk a = st.disk a := by
  apply write_outside
  rw [List.length_replicate]
  simp only [offsetForZone, blockSize] at *
  omega

/-- The middle of an indirect slot: its table was walked and its zone may have been
stored. -/
structure TableTruncated (sb : Minix3Superblock) (length start depth zone : ℕ) (st st' : TState) : Prop where
  freed : st'.udata.freed = st.udata.freed ++
    slotsFreed st.disk length (tableSlots depth (zoneTable st.disk zone)) start
  frame : ∀ a, a / blockSize ∉ slotZones st.disk (depth + 1) zone → ¬ InMap sb a →
    st'.disk a = st.disk a
  bits : ∀ b < sb.zones, mapBit st'.disk (zoneMapOffset sb) b =
    (decide (b ∉ slotsFreed st.disk length (tableSlots depth (zoneTable st.disk zone)) start) &&
      mapBit st.disk (zoneMapOffset sb) b)
  next : TruncAt length (start + zoneSize (depth + 1)) st'

/-- A visited indirect zone is freed. -/
theorem scanSlot_table {middle : ℕ → TState → Outcome × ℕ × TState} {st₁ : TState} (hl : Layout sb)
    (hz : zone ≠ 0) (hzones : zone < sb.zones) (h : TruncAt length start st)
    (hlt : length < start + zoneSize (depth + 1)) (hmid : middle zone st = (.success, zone, st₁))
    (ht : TableTruncated sb length start depth zone st st₁) :
    ∃ st', scanSlot (minixTruncZoneWalkCallback sb) length (zoneSize (depth + 1)) middle zone st =
        (.success, (cutSlot length ((depth + 1, zone), start)).2, st') ∧
      TruncStep sb length start [(depth + 1, zone)] st st' := by
  have hcut : (cutSlot length ((depth + 1, zone), start)).2 = 0 := by
    simp only [cutSlot]
    rw [if_neg (by omega)]
  have hnext := ht.next
  have hpast : st₁.udata.length ≤ st₁.position := by
    have := hnext.le
    rw [hnext.length_eq]
    omega
  rw [scanSlot_visit (h.visited hlt), hcut, trunc_pre]
  simp only [checked, slotRest, hmid, trunc_post_free hz hpast]
  refine ⟨_, rfl, .of_hole hcut ?_ (fun a ha hm => ?_) (fun b hb => ?_) ?_⟩
  · rw [slotFreed_succ hz hlt, ← List.append_assoc, ← ht.freed]
    rfl
  · exact (freedState_frame hl hzones hm).trans (ht.frame a ha hm)
  · refine (freedState_bit b).trans ?_
    rw [ht.bits b hb, slotFreed_succ hz hlt]
    simp only [List.mem_append, List.mem_singleton, not_or, Bool.decide_and, Bool.and_left_comm,
      Bool.and_assoc]
  · have hle : start ≤ st₁.position := by
      have := hnext.le
      omega
    exact @TruncAt.advance length start (freedState sb zone st₁) _ hlt hnext.length_eq hnext.aligned
      hle (blockSize_dvd_zoneSize (depth + 1))

/-- A visited data zone is freed, or its end is zeroed. -/
theorem scanSlot_data (hl : Layout sb) (hz : zone ≠ 0) (hm : Mapped sb [zone])
    (h : TruncAt length start st) (hlt : length < start + zoneSize 0)
    (hdiv : start < length → start ≠ 0) :
    ∃ st', scanSlot (minixTruncZoneWalkCallback sb) length (zoneSize 0)
        (fun zone st => minixTruncZoneWalkCallback sb zone st.position (zoneSize 0) .mid st) zone st =
        (.success, (cutSlot length ((0, zone), start)).2, st') ∧
      TruncStep sb length start [(0, zone)] st st' := by
  have hzones := hm.lt zone List.mem_cons_self
  have hdata := (hm.separate.data zone List.mem_cons_self).1
  rw [scanSlot_visit (h.visited hlt), trunc_pre]
  by_cases hpast : length ≤ start
  · have hcut : (cutSlot length ((0, zone), start)).2 = 0 := by
      have hpos := zoneSize_pos 0
      simp only [cutSlot]
      rw [if_neg (by omega)]
    have hpos : st.udata.length ≤ st.position := h.past_iff.mpr hpast
    have hfreed : slotFreed st.disk length 0 zone start = [zone] := by
      simp only [slotFreed]
      rw [if_neg (by omega)]
    simp only [checked, slotRest, trunc_mid_past hpos, trunc_post_free hz hpos, hcut]
    refine ⟨_, rfl, .of_hole hcut ?_ (fun a _ hmap => freedState_frame hl hzones hmap)
      (fun b _ => ?_) ?_⟩
    · rw [hfreed]
      rfl
    · refine (freedState_bit b).trans ?_
      simp [hfreed]
    · exact @TruncAt.advance length start (freedState sb zone st) _ hlt h.length_eq h.aligned
        h.le (blockSize_dvd_zoneSize 0)
  · have hpos : ¬ st.udata.length ≤ st.position := fun hle => hpast (h.past_iff.mp hle)
    have hstart : st.position = start := by
      have := h.skip
      have := h.le
      rw [h.length_eq] at hpos
      omega
    have hal : blockSize ∣ start := hstart ▸ h.aligned
    have hne : start ≠ 0 := hdiv (by omega)
    have hmod : st.udata.length % st.position = length - start := by
      rw [h.length_eq, hstart, Nat.mod_eq_sub_mod (by omega), Nat.mod_eq_of_lt]
      rw [zoneSize_zero] at hlt
      have := Nat.le_of_dvd (Nat.pos_of_ne_zero hne) hal
      omega
    have hsize : length - start ≤ blockSize := by
      rw [zoneSize_zero] at hlt
      omega
    have hcut : cutSlot length ((0, zone), start) = (0, zone) := by
      have hin : start < length := by omega
      simp [cutSlot, hin]
    have hfreed : slotFreed st.disk length 0 zone start = [] := by
      have hin : start < length := by omega
      simp [slotFreed, hin]
    have hpost : minixTruncZoneWalkCallback sb zone (zeroedState zone (length - start) st).position
        (zoneSize 0) .post (zeroedState zone (length - start) st) =
        (.success, zone, zeroedState zone (length - start) st) := trunc_post_keep hpos
    simp only [checked, slotRest, trunc_mid_zero hz hpos (hstart ▸ hne), hmod, hpost, hcut]
    refine ⟨_, rfl, ?_, fun a ha _ => ?_, fun b hb => ?_, fun s => ?_, fun o ho => ?_, ?_⟩
    · rw [slotsFreed_singleton, hfreed, List.append_nil]
      rfl
    · exact zeroedState_frame hsize (by simpa [slotZones, hz] using ha)
    · rw [slotsFreed_singleton, hfreed]
      simp only [List.not_mem_nil, not_false_eq_true, decide_true, Bool.true_and]
      refine mapBit_keep hl (fun a ha => zeroedState_frame hsize ?_) hb
      have := ha.before_data hl
      omega
    · rw [cutSlots_singleton, hcut]
      rfl
    · have ho : o < zoneSize 0 := by simpa using ho
      rw [cutSlots_singleton, hcut, slotsByte_cons, slotsByte_cons, if_pos ho, if_pos ho]
      simp only [slotByte, if_neg hz, zeroedState]
      split_ifs with hin
      · exact write_outside (Or.inl (by omega))
      · obtain ⟨i, rfl⟩ := Nat.exists_eq_add_of_le (show length - start ≤ o by omega)
        rw [← Nat.add_assoc]
        apply write_inside
        rw [List.getElem?_replicate_of_lt]
        rw [zoneSize_zero] at ho
        omega
    · exact @TruncAt.advance length start (zeroedState zone (length - start) st) _
        (by simpa using hlt) h.length_eq h.aligned h.le (by simpa using blockSize_dvd_zoneSize 0)

/-- Every slot of the given depth that is not at the start of the file is truncated. -/
def SlotTruncs (sb : Minix3Superblock) (length depth : ℕ) : Prop :=
  ∀ zone start st, 0 < start → TruncAt length start st → Mapped sb (slotZones st.disk depth zone) →
    ∃ st', walkSlot (minixTruncZoneWalkCallback sb) length depth zone st =
        (.success, (cutSlot length ((depth, zone), start)).2, st') ∧
      TruncStep sb length start [(depth, zone)] st st'

/-- A scan goes on after its first slot was truncated. -/
theorem walkSlots_trunc_cons (hl : Layout sb) {p : Slot} {slots : List Slot} {st₁ : TState}
    (he : walkSlot (minixTruncZoneWalkCallback sb) length p.1 p.2 st =
      (.success, (cutSlot length (p, start)).2, st₁))
    (h₁ : TruncStep sb length start [p] st st₁) (hm : Mapped sb (slotsZones st.disk (p :: slots)))
    (hrest : TruncAt length (start + zoneSize p.1) st₁ → Mapped sb (slotsZones st₁.disk slots) →
      ∃ st₂, walkSlots (minixTruncZoneWalkCallback sb) length slots st₁ =
          (.success, (cutSlots length slots (start + zoneSize p.1)).map Prod.snd, st₂) ∧
        TruncStep sb length (start + zoneSize p.1) slots st₁ st₂) :
    ∃ st₂, walkSlots (minixTruncZoneWalkCallback sb) length (p :: slots) st =
        (.success, (cutSlots length (p :: slots) start).map Prod.snd, st₂) ∧
      TruncStep sb length start (p :: slots) st st₂ := by
  have hm' : Mapped sb (slotZones st.disk p.1 p.2 ++ slotsZones st.disk slots) := by simpa using hm
  have hkeep : ∀ a, a / blockSize ∈ slotsZones st.disk slots → st₁.disk a = st.disk a := by
    intro a ha
    apply h₁.frame a
    · intro hin
      exact hm'.separate.disjoint (by simpa using hin) ha
    · exact not_inMap hl (hm'.right.separate.data _ ha).1
  obtain ⟨st₂, he₂, h₂⟩ := hrest (by simpa using h₁.next)
    (by rw [slotsZones_congr hkeep]; exact hm'.right)
  have h₂ : TruncStep sb length (start + slotsSize [p]) slots st₁ st₂ := by simpa using h₂
  refine ⟨st₂, ?_, h₁.append h₂ hl hm⟩
  simp only [walkSlots, he, he₂]
  rfl

theorem walkSlots_trunc (hl : Layout sb) {slots : List Slot} (hslots : ∀ p ∈ slots, SlotTruncs sb length p.1)
    (hstart : 0 < start) (h : TruncAt length start st) (hm : Mapped sb (slotsZones st.disk slots)) :
    ∃ st', walkSlots (minixTruncZoneWalkCallback sb) length slots st =
        (.success, (cutSlots length slots start).map Prod.snd, st') ∧
      TruncStep sb length start slots st st' := by
  induction slots generalizing start st with
  | nil => exact ⟨st, rfl, .nil h⟩
  | cons p slots ih =>
    have hm' : Mapped sb (slotZones st.disk p.1 p.2 ++ slotsZones st.disk slots) := by simpa using hm
    obtain ⟨st₁, he, h₁⟩ := hslots p List.mem_cons_self p.2 start st hstart h hm'.left
    exact walkSlots_trunc_cons hl he h₁ hm
      (ih (fun q hq => hslots q (List.mem_cons_of_mem _ hq)) (by omega))

/-- The table of an indirect slot is walked. -/
theorem walkTable_trunc (hl : Layout sb) (hz : zone ≠ 0) (ih : SlotTruncs sb length depth)
    (hstart : 0 < start) (h : TruncAt length start st) (hm : Mapped sb (slotZones st.disk (depth + 1) zone)) :
    ∃ st', walkTable (walkSlot (minixTruncZoneWalkCallback sb) length depth) zone st =
        (.success, zone, st') ∧ TableTruncated sb length start depth zone st st' := by
  rw [slotZones_succ hz, ← List.singleton_append] at hm
  have hdata := (hm.left.separate.data zone List.mem_cons_self).1
  have h' : TruncAt length start { st with changed := false } := ⟨h.length_eq, h.aligned, h.skip, h.le⟩
  have hslots : ∀ p ∈ tableSlots depth (zoneTable st.disk zone), SlotTruncs sb length p.1 := by
    intro p hp
    obtain ⟨z, _, rfl⟩ := List.mem_map.mp hp
    exact ih
  obtain ⟨st₁, he, h₁⟩ := walkSlots_trunc hl hslots hstart h' hm.right
  have hscan : scanTable (walkSlot (minixTruncZoneWalkCallback sb) length depth)
      (zoneTable st.disk zone) { st with changed := false } =
      walkSlots (minixTruncZoneWalkCallback sb) length (tableSlots depth (zoneTable st.disk zone))
        { st with changed := false } := recScan_eq _ _ _ _ _
  have hsize := slotsSize_zoneTable st.disk depth zone
  simp only [walkTable, hscan, he]
  generalize hdisk : (if st₁.changed = true then ByteStore.write st₁.disk (offsetForZone zone)
      (wordsBytes ((cutSlots length (tableSlots depth (zoneTable st.disk zone)) start).map Prod.snd))
    else st₁.disk) = disk₂
  have hframe : ∀ a, a / blockSize ≠ zone → disk₂ a = st₁.disk a := by
    intro a ha
    rw [← hdisk]
    split_ifs
    · apply write_outside
      have hlen : ((cutSlots length (tableSlots depth (zoneTable st.disk zone)) start).map
          Prod.snd).length = numIptrs := by
        have hw := congrArg List.length
          (@map_fst_withStarts (tableSlots depth (zoneTable st.disk zone)) start)
        simpa [cutSlots, tableSlots] using hw
      rw [wordsBytes_length, hlen]
      simp only [offsetForZone, blockSize, numIptrs] at ha ⊢
      omega
    · rfl
  refine ⟨_, rfl, h₁.freed, fun a ha hmap => ?_, fun b hb => ?_, ?_⟩
  · rw [slotZones_succ hz, List.mem_cons, not_or] at ha
    exact (hframe a ha.1).trans (h₁.frame a ha.2 hmap)
  · refine Eq.trans ?_ (h₁.bits b hb)
    refine mapBit_keep hl (fun a ha => hframe a ?_) hb
    have := ha.before_data hl
    omega
  · have hnext := h₁.next
    rw [hsize] at hnext
    exact ⟨hnext.length_eq, hnext.aligned, hnext.skip, hnext.le⟩

/-- Every slot after the first one is truncated as its tree says. -/
theorem walkSlot_trunc (hl : Layout sb) (length depth : ℕ) : SlotTruncs sb length depth := by
  induction depth with
  | zero =>
    intro zone start st hstart h hm
    by_cases hle : start + zoneSize 0 ≤ length
    · exact scanSlot_before _ h hle
    · by_cases hz : zone = 0
      · subst hz
        exact scanSlot_hole h (not_le.mp hle) trunc_hole
      · rw [slotZones, if_neg hz] at hm
        exact scanSlot_data hl hz hm h (not_le.mp hle) (fun _ => by omega)
  | succ depth ih =>
    intro zone start st hstart h hm
    by_cases hle : start + zoneSize (depth + 1) ≤ length
    · exact scanSlot_before _ h hle
    · by_cases hz : zone = 0
      · subst hz
        exact scanSlot_hole h (not_le.mp hle) (by simp [trunc_hole])
      · obtain ⟨st₁, he, h₁⟩ := walkTable_trunc hl hz ih hstart h hm
        have hzones : zone < sb.zones := hm.lt zone (by rw [slotZones_succ hz]; exact List.mem_cons_self)
        exact scanSlot_table hl hz hzones h (not_le.mp hle) (by simpa [hz] using he) h₁

end Walk

end SomeOs.Minix

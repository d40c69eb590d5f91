import SomeOs.Minix.FileSystem
import SomeOs.Minix.TruncSpec

/-! # Truncating a file

A truncation keeps what is below the new length, zeroes and frees the rest, except
that an indirect zone that the new length falls into is freed with everything
below it, and that the offset in the first zone is computed by dividing by zero.
-/
namespace SomeOs.Minix
open ByteStore

def Divides (node : MinixVfsNode) (length : ℕ) : Prop :=
  0 < length ∧ length < blockSize ∧ node.zones.headD 0 ≠ 0

/-- The effect of a truncation on its file and on the device. -/
structure FileTruncated (sb : Minix3Superblock) (disk : Store) (node : MinixVfsNode) (length : ℕ)
    (r : TruncResult) : Prop where
  outcome : r.outcome = .success
  id_eq : r.node.id = node.id
  size : r.node.stat.size = length
  zones : r.node.zones.length = 10
  slots : inodeSlots r.node.zones = cutSlots length (inodeSlots node.zones) 0
  freed : r.freed = slotsFreed disk length (inodeSlots node.zones) 0
  frame : Touched sb disk node [] r.disk
  bits : ∀ b < sb.zones, mapBit r.disk (zoneMapOffset sb) b =
    (decide (b ∉ r.freed) && mapBit disk (zoneMapOffset sb) b)
  refs : fileRefs r.disk r.node = slotsRefs disk (cutSlots length (inodeSlots node.zones) 0) 0
  bytes : ∀ o < maxFileSize, fileByte r.disk r.node o =
    if o < length then slotsByte disk (cutSlots length (inodeSlots node.zones) 0) o else 0

section Walk
variable {sb : Minix3Superblock} {disk : Store} {node : MinixVfsNode} {length : ℕ}

theorem inodeSlots_cons {z : ℕ} {zs : List ℕ} (h : zs.length = 9) :
    ∃ slots, inodeSlots (z :: zs) = (0, z) :: slots := by
  rw [inodeSlots_zip (by simp [h])]
  exact ⟨_, rfl⟩

def truncStart (disk : Store) (length : ℕ) : TState := ⟨disk, 0, false, ⟨length, []⟩⟩

theorem truncStart_at (disk : Store) (length : ℕ) : TruncAt length 0 (truncStart disk length) :=
  ⟨rfl, Dvd.intro 0 rfl, rfl, le_rfl⟩

/-- The walk over an inode whose first zone is not cut. -/
theorem inodeWalk_trunc (hl : Layout sb) (hn : NodeOf sb node) (hm : Mapped sb (fileZones disk node))
    (hdiv : ¬ Divides node length) :
    ∃ st', walkSlots (minixTruncZoneWalkCallback sb) length (inodeSlots node.zones)
        (truncStart disk length) =
        (.success, (cutSlots length (inodeSlots node.zones) 0).map Prod.snd, st') ∧
      TruncStep sb length 0 (inodeSlots node.zones) (truncStart disk length) st' := by
  obtain ⟨z, zs, hzs⟩ := List.exists_cons_of_length_eq_add_one (n := 9) hn.zones
  have hlen : zs.length = 9 := by simpa [hzs] using hn.zones
  obtain ⟨slots, hslots⟩ := inodeSlots_cons (z := z) hlen
  unfold fileZones at hm
  rw [hzs, hslots] at hm ⊢
  have hat := truncStart_at disk length
  have hfirst : ∃ st₁, walkSlot (minixTruncZoneWalkCallback sb) length 0 z (truncStart disk length) =
        (.success, (cutSlot length ((0, z), 0)).2, st₁) ∧
      TruncStep sb length 0 [(0, z)] (truncStart disk length) st₁ := by
    by_cases hle : 0 + zoneSize 0 ≤ length
    · exact scanSlot_before _ hat hle
    · by_cases hz : z = 0
      · subst hz
        exact scanSlot_hole hat (not_le.mp hle) trunc_hole
      · have hm' : Mapped sb (slotZones disk 0 z ++ slotsZones disk slots) := by simpa using hm
        have hm₁ := hm'.left
        rw [slotZones, if_neg hz] at hm₁
        refine scanSlot_data hl hz hm₁ hat (not_le.mp hle) (fun hpos => absurd ⟨hpos, ?_, ?_⟩ hdiv)
        · rw [zoneSize_zero] at hle
          omega
        · simpa [hzs] using hz
  obtain ⟨st₁, he, h₁⟩ := hfirst
  refine walkSlots_trunc_cons hl he h₁ hm (walkSlots_trunc hl (fun p _ => walkSlot_trunc hl length p.1) ?_)
  have := zoneSize_pos 0
  simpa using this

/-- The inode record is stored after the walk; the files do not change by it. -/
theorem TruncStep.stored_node {st' : TState} {node' : MinixVfsNode} {disk' : Store} (hl : Layout sb)
    (hn : NodeOf sb node) (hm : Mapped sb (fileZones disk node))
    (h : TruncStep sb length 0 (inodeSlots node.zones) (truncStart disk length) st')
    (hid : node'.id = node.id) (hsize : node'.stat.size = length)
    (hzones : node'.zones = (cutSlots length (inodeSlots node.zones) 0).map Prod.snd)
    (hdisk : ∀ a, ¬ InInode sb node.id a → disk' a = st'.disk a) :
    FileTruncated sb disk node length ⟨.success, node', disk', st'.udata.freed⟩ := by
  have hdepths : (cutSlots length (inodeSlots node.zones) 0).map Prod.fst =
      (inodeSlots node.zones).map Prod.fst := by
    conv_rhs => rw [← @map_fst_withStarts (inodeSlots node.zones) 0]
    simp [cutSlots, cutSlot, Function.comp_def]
  have hslots : inodeSlots node'.zones = cutSlots length (inodeSlots node.zones) 0 := by
    rw [hzones]
    exact inodeSlots_of_depths hn.zones hdepths
  have hkeep : ∀ a, a / blockSize ∈ slotsZones st'.disk (cutSlots length (inodeSlots node.zones) 0) →
      disk' a = st'.disk a := by
    intro a ha
    rw [h.zones] at ha
    apply hdisk
    exact not_inInode hl hn (hm.separate.data _ (TruncStep.mem_of_cut ha)).1
  have hfreed : st'.udata.freed = slotsFreed disk length (inodeSlots node.zones) 0 := h.freed
  refine ⟨rfl, hid, hsize, ?_, hslots, hfreed, fun a ha _ hmap hi => ?_, fun b hb => ?_, ?_, fun o ho => ?_⟩
  · have hlen := congrArg List.length hdepths
    rw [hzones]
    simpa [inodeSlots_zip hn.zones, hn.zones] using hlen
  · exact (hdisk a hi).trans (h.frame a ha hmap)
  · have hbit := h.bits b hb
    simp only [hfreed]
    refine Eq.trans (mapBit_keep hl (fun a ha => hdisk a (fun hi => ?_)) hb) hbit
    have := (hi.bounds hl hn).1
    have := ha.2
    omega
  · unfold fileRefs
    rw [hslots, (slotsRefs_congr length hkeep 0).1]
    exact h.refs 0
  · unfold fileByte
    rw [hslots, slotsByte_congr hkeep, h.bytes o (by rw [slotsSize_inode hn.zones]; exact ho),
      Nat.zero_add]
    rfl

theorem minixTrunc_spec (hl : Layout sb) (hn : NodeOf sb node) (hm : Mapped sb (fileZones disk node))
    (hdiv : ¬ Divides node length) :
    FileTruncated sb disk node length (minixTrunc sb disk node length) := by
  obtain ⟨st', he, h⟩ := inodeWalk_trunc hl hn hm hdiv
  have hlen : ((cutSlots length (inodeSlots node.zones) 0).map Prod.snd).length = 10 := by
    have hw := congrArg List.length (@map_fst_withStarts (inodeSlots node.zones) 0)
    simpa [cutSlots, inodeSlots_zip hn.zones, hn.zones] using hw
  unfold truncStart at he
  simp only [minixTrunc, minixZoneWalk, scanZones_eq, he, true_or, if_true]
  apply h.stored_node hl hn hm
  · rfl
  · rfl
  · rfl
  · intro a ha
    refine (@minixWriteNode_frame sb (MinixVfsNode.setSize ⟨node.id, node.stat, _⟩ length) a hlen _
      ha).trans ?_
    split_ifs
    · exact @minixWriteNode_frame sb ⟨node.id, node.stat, _⟩ a hlen _ ha
    · rfl

theorem minixTrunc_divides (hn : node.zones.length = 10) (hdiv : Divides node length) :
    (minixTrunc sb disk node length).outcome = .divideByZero := by
  obtain ⟨hpos, hlt, hz⟩ := hdiv
  obtain ⟨z, zs, hzs⟩ := List.exists_cons_of_length_eq_add_one (n := 9) hn
  have hlen : zs.length = 9 := by simpa [hzs] using hn
  obtain ⟨slots, hslots⟩ := inodeSlots_cons (z := z) hlen
  have hz : z ≠ 0 := by simpa [hzs] using hz
  have hslot : walkSlot (minixTruncZoneWalkCallback sb) length 0 z ⟨disk, 0, false, ⟨length, []⟩⟩ =
      (.divideByZero, z, ⟨disk, 0, false, ⟨length, []⟩⟩) := by
    have hvisit : length < 0 + zoneSize 0 := by
      rw [zoneSize_zero]
      omega
    unfold walkSlot
    rw [scanSlot_visit hvisit, trunc_pre]
    have hlength : (⟨disk, 0, false, ⟨length, []⟩⟩ : TState).udata.length ≠ 0 := Nat.ne_of_gt hpos
    simp only [checked, slotRest, trunc_mid_divides hz hlength]
  simp only [minixTrunc, minixZoneWalk, scanZones_eq, hzs, hslots, walkSlots, hslot]
  rfl

end Walk

section Refs
variable {disk : Store} {l : List Slot} {length start depth zone o : ℕ} {ref : Ref}

theorem withStarts_bounds {q : Slot × ℕ} (h : q ∈ withStarts l start) :
    start ≤ q.2 ∧ q.2 + zoneSize q.1.1 ≤ start + slotsSize l := by
  induction l generalizing start with
  | nil => simp [withStarts] at h
  | cons p l ih =>
    rw [slotsSize_cons]
    rcases List.mem_cons.mp h with rfl | h
    · exact ⟨le_rfl, by simp only; omega⟩
    · have := ih h
      omega

theorem withStarts_cutSlots :
    withStarts (cutSlots length l start) start =
      (withStarts l start).map (fun q => (cutSlot length q, q.2)) := by
  induction l generalizing start with
  | nil => rfl
  | cons p l ih =>
    simp only [cutSlots, withStarts, List.map_cons] at ih ⊢
    rw [← ih]
    rfl

theorem mem_slotRefs_succ (hz : zone ≠ 0) :
    ref ∈ slotRefs disk (depth + 1) zone start ↔ ref = ⟨zone, start, depth + 1⟩ ∨
      ∃ q ∈ withStarts (tableSlots depth (zoneTable disk zone)) start,
        ref ∈ slotRefs disk depth q.1.2 q.2 := by
  simp only [slotRefs, if_neg hz, List.mem_cons, List.mem_flatMap]

theorem slotRefs_bounds (h : ref ∈ slotRefs disk depth zone start) :
    start ≤ ref.start ∧ ref.start + zoneSize ref.depth ≤ start + zoneSize depth := by
  induction depth generalizing zone start with
  | zero =>
    by_cases hz : zone = 0
    · simp [hz] at h
    · obtain rfl : ref = ⟨zone, start, 0⟩ := by simpa [slotRefs, hz] using h
      exact ⟨le_rfl, le_rfl⟩
  | succ depth ih =>
    by_cases hz : zone = 0
    · simp [hz] at h
    · rcases (mem_slotRefs_succ hz).mp h with rfl | ⟨q, hq, hr⟩
      · exact ⟨le_rfl, le_rfl⟩
      · have h1 := withStarts_bounds hq
        have h2 := ih hr
        have hd : q.1.1 = depth := by
          obtain ⟨z, _, hqz⟩ := List.mem_map.mp (mem_of_withStarts hq)
          rw [← hqz]
        rw [slotsSize_zoneTable, hd] at h1
        omega

theorem slotRefs_below (h : ref ∈ slotRefs disk depth zone start) :
    ref ∈ slotRefs disk ref.depth ref.zone ref.start ∧
      ∀ r ∈ slotRefs disk ref.depth ref.zone ref.start, r ∈ slotRefs disk depth zone start := by
  induction depth generalizing zone start with
  | zero =>
    by_cases hz : zone = 0
    · simp [hz] at h
    · obtain rfl : ref = ⟨zone, start, 0⟩ := by simpa [slotRefs, hz] using h
      exact ⟨h, fun r hr => hr⟩
  | succ depth ih =>
    by_cases hz : zone = 0
    · simp [hz] at h
    · rcases (mem_slotRefs_succ hz).mp h with rfl | ⟨q, hq, hr⟩
      · exact ⟨h, fun r hr => hr⟩
      · obtain ⟨h1, h2⟩ := ih hr
        exact ⟨h1, fun r hr => (mem_slotRefs_succ hz).mpr (Or.inr ⟨q, hq, h2 r hr⟩)⟩

/-- What ends after the new length is freed, except the data zone that it cuts. -/
theorem mem_slotFreed (h : ref ∈ slotRefs disk depth zone start)
    (hend : length < ref.start + zoneSize ref.depth) (hdata : ref.depth = 0 → length ≤ ref.start) :
    ref.zone ∈ slotFreed disk length depth zone start := by
  induction depth generalizing zone start with
  | zero =>
    by_cases hz : zone = 0
    · simp [hz] at h
    · obtain rfl : ref = ⟨zone, start, 0⟩ := by simpa [slotRefs, hz] using h
      have hn : ¬ (zone = 0 ∨ start < length) := by
        have := hdata rfl
        simp only at this
        omega
      simp [slotFreed, hn]
  | succ depth ih =>
    have hb := slotRefs_bounds h
    by_cases hz : zone = 0
    · simp [hz] at h
    · have hn : ¬ (zone = 0 ∨ start + zoneSize (depth + 1) ≤ length) := by omega
      rw [slotFreed, if_neg hn]
      rcases (mem_slotRefs_succ hz).mp h with rfl | ⟨q, hq, hr⟩
      · exact List.mem_append_right _ List.mem_cons_self
      · exact List.mem_append_left _ (List.mem_flatMap.mpr ⟨q, hq, ih hr⟩)

/-- No data zone of the slot starts before `length`. -/
def NoDataBefore (disk : Store) (length depth zone start : ℕ) : Prop :=
  ∀ ref ∈ slotRefs disk depth zone start, ref.depth = 0 → length ≤ ref.start

theorem slotsByte_before (hslot : ∀ q ∈ withStarts l start, ∀ o < zoneSize q.1.1, q.2 + o < length →
      slotByte disk q.1.1 q.1.2 o = 0) (ho : start + o < length) : slotsByte disk l o = 0 := by
  induction l generalizing start o with
  | nil => rfl
  | cons p l ih =>
    rw [slotsByte_cons]
    split_ifs with hlt
    · exact hslot (p, start) List.mem_cons_self o hlt ho
    · have hnext : start + zoneSize p.1 + (o - zoneSize p.1) < length := by omega
      exact ih (fun q hq => hslot q (List.mem_cons_of_mem _ hq)) hnext

theorem slotByte_before (h : NoDataBefore disk length depth zone start) (ho : start + o < length) :
    slotByte disk depth zone o = 0 := by
  induction depth generalizing zone start o with
  | zero =>
    by_cases hz : zone = 0
    · simp [hz]
    · have := h ⟨zone, start, 0⟩ (by simp [slotRefs, hz]) rfl
      simp only at this
      omega
  | succ depth ih =>
    by_cases hz : zone = 0
    · simp [hz]
    · rw [slotByte_succ hz]
      refine slotsByte_before (fun q hq o _ ho => ?_) ho
      obtain ⟨z, _, hqz⟩ := List.mem_map.mp (mem_of_withStarts hq)
      have hd : q.1.1 = depth := by rw [← hqz]
      rw [hd]
      exact ih (fun ref hr => h ref ((mem_slotRefs_succ hz).mpr (Or.inr ⟨q, hq, hr⟩))) ho

end Refs

def Needed (disk : Store) (length : ℕ) (ref : Ref) : Prop :=
  ∃ r ∈ slotRefs disk ref.depth ref.zone ref.start, r.depth = 0 ∧ r.start < length

/-- The zone maps only offsets from the new length on, or has data only there. -/
def OnlyPast (disk : Store) (length : ℕ) (ref : Ref) : Prop :=
  length ≤ ref.start ∨
    (length < ref.start + zoneSize ref.depth ∧ NoDataBefore disk length ref.depth ref.zone ref.start)

/-- What a truncation is meant to do. -/
structure TruncCorrect (sb : Minix3Superblock) (disk : Store) (node : MinixVfsNode) (length : ℕ)
    (r : TruncResult) : Prop where
  success : r.outcome = .success
  kept : ∀ o < min node.stat.size length, fileByte r.disk r.node o = fileByte disk node o
  zeroed : ∀ o, length ≤ o → fileByte r.disk r.node o = 0
  needed : ∀ ref ∈ fileRefs disk node, Needed disk length ref →
    ref ∈ fileRefs r.disk r.node ∧ ref.zone ∉ r.freed ∧
      mapBit r.disk (zoneMapOffset sb) ref.zone = mapBit disk (zoneMapOffset sb) ref.zone
  past : ∀ ref ∈ fileRefs disk node, OnlyPast disk length ref →
    r.freed.count ref.zone = 1 ∧ ref.zone ∉ fileZones r.disk r.node ∧
      mapBit r.disk (zoneMapOffset sb) ref.zone = false

/-- No division by zero, and no data below the new length in an indirect slot of the
inode that the new length falls into. -/
def TruncSafe (disk : Store) (node : MinixVfsNode) (length : ℕ) : Prop :=
  ¬ Divides node length ∧ ∀ q ∈ withStarts (inodeSlots node.zones) 0, q.1.1 ≠ 0 → q.2 < length →
    length < q.2 + zoneSize q.1.1 → NoDataBefore disk length q.1.1 q.1.2 q.2

section Correct
variable {sb : Minix3Superblock} {disk : Store} {node : MinixVfsNode} {length : ℕ} {r : TruncResult}

theorem FileTruncated.fileZones_eq (h : FileTruncated sb disk node length r) :
    fileZones r.disk r.node = slotsZones disk (cutSlots length (inodeSlots node.zones) 0) := by
  rw [← map_zone_slotsRefs 0, ← h.refs]
  unfold fileZones fileRefs
  rw [map_zone_slotsRefs]

theorem FileTruncated.count_le (h : FileTruncated sb disk node length r) (z : ℕ) :
    (fileZones r.disk r.node).count z + r.freed.count z ≤ (fileZones disk node).count z := by
  rw [h.fileZones_eq, h.freed]
  exact count_cutSlots_le z

theorem mem_fileZones {ref : Ref} (h : ref ∈ fileRefs disk node) : ref.zone ∈ fileZones disk node := by
  unfold fileZones
  rw [← map_zone_slotsRefs 0]
  exact List.mem_map_of_mem h

theorem TruncSafe.cutSlot_eq (hs : TruncSafe disk node length) {q : Slot × ℕ}
    (hq : q ∈ withStarts (inodeSlots node.zones) 0) {ref : Ref}
    (hr : ref ∈ slotRefs disk q.1.1 q.1.2 q.2) (hd : ref.depth = 0) (hlt : ref.start < length) :
    cutSlot length q = q.1 := by
  have hb := slotRefs_bounds hr
  have hkeep : q.2 + zoneSize q.1.1 ≤ length ∨ (q.1.1 = 0 ∧ q.2 < length) := by
    by_contra hn
    push Not at hn
    by_cases h0 : q.1.1 = 0
    · have := hn.2 h0
      omega
    · have := hs.2 q hq h0 (by omega) hn.1 ref hr hd
      omega
  simp only [cutSlot, if_pos hkeep]

/-- The bytes below the new length stay. -/
theorem cutSlots_bytes {l : List Slot} {start o : ℕ}
    (h : ∀ q ∈ withStarts l start, q.1.1 ≠ 0 → q.2 < length → length < q.2 + zoneSize q.1.1 →
      NoDataBefore disk length q.1.1 q.1.2 q.2) (ho : start + o < length) :
    slotsByte disk (cutSlots length l start) o = slotsByte disk l o := by
  induction l generalizing start o with
  | nil => rfl
  | cons p l ih =>
    have hcons : cutSlots length (p :: l) start =
        cutSlot length (p, start) :: cutSlots length l (start + zoneSize p.1) := rfl
    rw [hcons, slotsByte_cons, slotsByte_cons]
    have hfst : (cutSlot length (p, start)).1 = p.1 := rfl
    rw [hfst]
    split_ifs with hlt
    · by_cases hkeep : start + zoneSize p.1 ≤ length ∨ (p.1 = 0 ∧ start < length)
      · simp only [cutSlot, if_pos hkeep]
      · simp only [cutSlot, if_neg hkeep, slotByte_hole]
        push Not at hkeep
        have h0 : p.1 ≠ 0 := fun h0 => by
          have := hkeep.2 h0
          omega
        exact (slotByte_before (h (p, start) List.mem_cons_self h0 (by simp only; omega) hkeep.1) ho).symm
    · exact ih (fun q hq => h q (List.mem_cons_of_mem _ hq)) (by omega)

/-- A safe truncation is correct. -/
theorem FileTruncated.correct (h : FileTruncated sb disk node length r) (hn : NodeOf sb node)
    (hm : Mapped sb (fileZones disk node)) (hs : TruncSafe disk node length) :
    TruncCorrect sb disk node length r := by
  have hone := fun z => List.nodup_iff_count_le_one.mp hm.separate.nodup z
  have hbeyond : ∀ o, maxFileSize ≤ o → fileByte r.disk r.node o = 0 ∧ fileByte disk node o = 0 := by
    intro o ho
    constructor
    · exact slotsByte_beyond (by rw [slotsSize_inode h.zones]; exact ho)
    · exact slotsByte_beyond (by rw [slotsSize_inode hn.zones]; exact ho)
  refine ⟨h.outcome, fun o ho => ?_, fun o ho => ?_, fun ref href hneed => ?_, fun ref href hpast => ?_⟩
  · by_cases hmax : o < maxFileSize
    · have hlt : o < length := by omega
      rw [h.bytes o hmax, if_pos hlt]
      exact cutSlots_bytes hs.2 (by omega)
    · rw [(hbeyond o (not_lt.mp hmax)).1, (hbeyond o (not_lt.mp hmax)).2]
  · by_cases hmax : o < maxFileSize
    · rw [h.bytes o hmax, if_neg (by omega)]
    · exact (hbeyond o (not_lt.mp hmax)).1
  · obtain ⟨q, hq, hr⟩ := List.mem_flatMap.mp href
    obtain ⟨d, hd, hd0, hdlt⟩ := hneed
    have hcut := hs.cutSlot_eq hq ((slotRefs_below hr).2 d hd) hd0 hdlt
    have hmem : ref ∈ fileRefs r.disk r.node := by
      rw [h.refs, slotsRefs, withStarts_cutSlots, List.flatMap_map]
      refine List.mem_flatMap.mpr ⟨q, hq, ?_⟩
      simp only [hcut]
      exact hr
    have hz := List.count_pos_iff.mpr (mem_fileZones hmem)
    have hle := h.count_le ref.zone
    have hfreed : ref.zone ∉ r.freed := by
      intro hf
      have := List.count_pos_iff.mpr hf
      have := hone ref.zone
      omega
    refine ⟨hmem, hfreed, ?_⟩
    rw [h.bits _ (hm.lt _ (mem_fileZones href))]
    simp [hfreed]
  · have hfreed : ref.zone ∈ r.freed := by
      obtain ⟨q, hq, hr⟩ := List.mem_flatMap.mp href
      rw [h.freed]
      refine List.mem_flatMap.mpr ⟨q, hq, mem_slotFreed hr ?_ ?_⟩
      · have := zoneSize_pos ref.depth
        rcases hpast with hp | ⟨hp, _⟩ <;> omega
      · intro h0
        rcases hpast with hp | ⟨_, hp⟩
        · exact hp
        · exact hp ref (slotRefs_below hr).1 h0
    have hpos := List.count_pos_iff.mpr hfreed
    have hle := h.count_le ref.zone
    have := hone ref.zone
    refine ⟨by omega, fun hz => ?_, ?_⟩
    · have := List.count_pos_iff.mpr hz
      omega
    · rw [h.bits _ (hm.lt _ (mem_fileZones href))]
      simp [hfreed]

/-- A truncation that is correct was safe. -/
theorem TruncCorrect.safe (hl : Layout sb) (hn : NodeOf sb node) (hm : Mapped sb (fileZones disk node))
    (hc : TruncCorrect sb disk node length (minixTrunc sb disk node length)) :
    TruncSafe disk node length := by
  have hdiv : ¬ Divides node length := by
    intro hdiv
    have hout := hc.success
    rw [minixTrunc_divides hn.zones hdiv] at hout
    cases hout
  have h := minixTrunc_spec hl hn hm hdiv
  refine ⟨hdiv, fun q hq h0 _ hend ref hr hd => ?_⟩
  -- A data zone before the new length would be needed, but its slot has become a hole.
  by_contra hlt
  have href : ref ∈ fileRefs disk node := List.mem_flatMap.mpr ⟨q, hq, hr⟩
  have hkept := (hc.needed ref href ⟨ref, (slotRefs_below hr).1, hd, not_le.mp hlt⟩).1
  have hpos := List.count_pos_iff.mpr (mem_fileZones hkept)
  have hone := List.nodup_iff_count_le_one.mp hm.separate.nodup ref.zone
  have hhole : (cutSlot length q).2 = 0 := by
    simp only [cutSlot]
    rw [if_neg (by omega)]
  have hless : (slotsZones disk (cutSlots length (inodeSlots node.zones) 0)).count ref.zone <
      (fileZones disk node).count ref.zone := by
    unfold fileZones
    rw [slotsZones_withStarts 0, slotsZones_withStarts 0, withStarts_cutSlots, List.flatMap_map,
      List.count_flatMap, List.count_flatMap]
    apply List.sum_lt_sum
    · intro p _
      have := count_cutSlot_le disk length p ref.zone
      simp only [Function.comp_apply]
      omega
    · refine ⟨q, hq, ?_⟩
      simp only [Function.comp_apply, hhole, slotZones_hole, List.count_nil]
      rw [List.count_pos_iff, ← map_zone_slotRefs _ _ q.2]
      exact List.mem_map_of_mem hr
  rw [h.fileZones_eq] at hpos
  omega

/-- A truncation is correct exactly when it is safe. -/
theorem minixTrunc_correct_iff (hl : Layout sb) (hn : NodeOf sb node)
    (hm : Mapped sb (fileZones disk node)) (length : ℕ) :
    TruncCorrect sb disk node length (minixTrunc sb disk node length) ↔ TruncSafe disk node length :=
  ⟨fun hc => hc.safe hl hn hm, fun hs => (minixTrunc_spec hl hn hm hs.1).correct hn hm hs⟩

end Correct

/-- A file of the small device whose indirect zone 5 refers to the data zone 6. -/
def indirectDisk : Store := fun a => if a = 3072 then 127 else if a = 5120 then 6 else if a = 6144 then 1 else 0

def indirectNode : MinixVfsNode := ⟨1, { size := 8192 }, [0, 0, 0, 0, 0, 0, 0, 5, 0, 0]⟩

theorem indirectNode_of : NodeOf smallSb indirectNode := ⟨by decide, by decide, rfl⟩

theorem indirectNode_zones : fileZones indirectDisk indirectNode = [5, 6] := by decide +kernel

theorem indirectNode_mapped : Mapped smallSb (fileZones indirectDisk indirectNode) := by
  rw [indirectNode_zones]
  exact ⟨⟨by decide, by decide⟩, by decide⟩

/-- A length at the end of the direct zones is truncated correctly. -/
theorem minixTrunc_correct_iff_direct :
    TruncCorrect smallSb indirectDisk indirectNode 7168 (minixTrunc smallSb indirectDisk indirectNode 7168) := by
  refine (minixTrunc_correct_iff smallSb_layout indirectNode_of indirectNode_mapped 7168).mpr
    ⟨?_, ?_⟩
  · rintro ⟨_, hlt, _⟩
    exact absurd hlt (by decide)
  · intro q hq h0 hlt
    have hstart : ∀ q ∈ withStarts (inodeSlots indirectNode.zones) 0, q.1.1 ≠ 0 → ¬ q.2 < 7168 := by
      decide
    exact absurd hlt (hstart q hq h0)

/-- One byte more in the file, and the truncation frees the zones it is in. -/
theorem trunc_frees_needed_zone : NodeOf smallSb indirectNode ∧
    Mapped smallSb (fileZones indirectDisk indirectNode) ∧
      ¬ TruncCorrect smallSb indirectDisk indirectNode 7169
        (minixTrunc smallSb indirectDisk indirectNode 7169) := by
  refine ⟨indirectNode_of, indirectNode_mapped, fun hc => ?_⟩
  have hbyte := hc.kept 7168 (by decide)
  revert hbyte
  decide +kernel

end SomeOs.Minix

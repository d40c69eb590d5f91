import SomeOs.Minix.Supply

/-! # Zone numbers and bits of the zone map

The map of a file system made by `mkfs.minix` has the bit `b` for the zone
`first_data_zone + b - 1`, while allocation takes the bit `b` for the zone `b`.
The two agree on what is in use only when no zone is free.
-/
namespace SomeOs.Minix
open ByteStore Transition

/-- Zones are referred to once, and what allocation answers is a data zone that
nothing refers to. -/
structure AllocSafe (sb : Minix3Superblock) (s : FsState) : Prop where
  once : s.zones.Nodup
  answer : ∀ z disk', getFreeMinixZone sb s.disk = some (z, disk') →
    sb.first_data_zone ≤ z ∧ z < sb.zones ∧ z ∉ s.zones
  writes : ∀ (i : ℕ) node buff offset, s.nodes[i]? = some node →
    let new := (minixWriteAt sb s.disk node buff offset).allocated.reduceOption
    new.Nodup ∧ ∀ z ∈ new, sb.first_data_zone ≤ z ∧ z < sb.zones ∧ z ∉ s.zones

/-- An image in the format of version 3. -/
structure MkfsImage (sb : Minix3Superblock) (s : FsState) : Prop where
  layout : Layout sb
  zones_le : sb.zones ≤ 2 ^ 32
  wf : s.WellFormed sb
  lt : ∀ z ∈ s.zones, z < sb.zones
  reserved : mapBit s.disk (zoneMapOffset sb) 0 = true
  bits : ∀ b, 1 ≤ b → sb.first_data_zone + b - 1 < sb.zones →
    (mapBit s.disk (zoneMapOffset sb) b = true ↔ sb.first_data_zone + b - 1 ∈ s.zones)
  rest : ∀ b < sb.zones, sb.zones ≤ sb.first_data_zone + b - 1 →
    mapBit s.disk (zoneMapOffset sb) b = true

def Changes (_ : FsState) : FileOp → Prop
  | .read _ _ _ => False
  | _ => True

section Invariant
variable {sb : Minix3Superblock} {s t : FsState} {op : FileOp}

theorem Layout.two_le (hl : Layout sb) : 2 ≤ sb.first_data_zone := by
  have := hl.inodes
  simp only [offsetForINode, blockSize] at this
  omega

theorem Stocked.of_node {i : ℕ} {node : MinixVfsNode} (hs : Stocked sb s.zones s.disk)
    (hi : s.nodes[i]? = some node) : Stocked sb (fileZones s.disk node) s.disk :=
  hs.of_count (count_fileZones_le hi)

theorem Stocked.allocSafe (hl : Layout sb) (hle : sb.zones ≤ 2 ^ 32) (hwf : s.WellFormed sb)
    (hs : Stocked sb s.zones s.disk) : AllocSafe sb s where
  once := hs.separate.nodup
  answer := by
    intro z disk' h
    rcases genericMinixGetBitMap_spec s.disk (zoneMapOffset sb) sb.zones with
      ⟨k, hk, he, hbit, _⟩ | ⟨he, _⟩
    · obtain ⟨rfl, _⟩ : k = z ∧ _ := by simpa [getFreeMinixZone, he] using h
      refine ⟨hs.clear k hk hbit, hk, fun hz => ?_⟩
      rw [(hs.set k hz).2] at hbit
      cases hbit
    · rw [getFreeMinixZone, he] at h
      cases h
  writes := by
    intro i node buff offset hi
    have hpos := hl.two_le
    have ht := minixWriteAt_taken hl (by omega) hle (hwf.nodes node (List.mem_of_getElem? hi))
      (hs.of_node hi) buff offset
    have hfresh := hs.fresh hle ht
    refine ⟨ht.nodup, fun z hz => ⟨?_, (ht.clear z hz).1, fun hz' => hfresh.disjoint hz' hz⟩⟩
    exact (hfresh.data z (List.mem_append_right _ hz)).1

/-- A truncation only clears bits of zones that are not in use any more. -/
theorem Stocked.trunc {i length : ℕ} {node : MinixVfsNode} {r : TruncResult} (hl : Layout sb)
    (hwf : s.WellFormed sb) (hs : Stocked sb s.zones s.disk) (hi : s.nodes[i]? = some node)
    (hr : FileTruncated sb s.disk node length r) :
    Stocked sb (FsState.zones ⟨r.disk, s.nodes.set i r.node⟩) r.disk := by
  have hcount : ∀ z, (FsState.zones ⟨r.disk, s.nodes.set i r.node⟩).count z + r.freed.count z ≤
      s.zones.count z := by
    intro z
    have h1 := hwf.count_zones r.node hl hi (by simp) hr.frame z
    have h2 := hr.count_le z
    omega
  have hone := fun z => List.nodup_iff_count_le_one.mp hs.separate.nodup z
  refine ⟨hs.separate.of_count (fun z => by have := hcount z; omega), fun z hz => ?_,
    fun z hz hbit => ?_⟩
  · have hpos := List.count_pos_iff.mpr hz
    have hz' : z ∈ s.zones := List.count_pos_iff.mp (by have := hcount z; omega)
    have hfreed : z ∉ r.freed := by
      intro hf
      have := List.count_pos_iff.mpr hf
      have := hcount z
      have := hone z
      omega
    refine ⟨(hs.set z hz').1, ?_⟩
    rw [hr.bits z (hs.set z hz').1, (hs.set z hz').2]
    simp [hfreed]
  · rw [hr.bits z hz, Bool.and_eq_false_iff] at hbit
    rcases hbit with hf | hbit
    · have hf : z ∈ r.freed := by simpa using hf
      have hpos := List.count_pos_iff.mpr hf
      have hz' : z ∈ s.zones := List.count_pos_iff.mp (by have := hcount z; omega)
      exact (hs.separate.data z hz').1
    · exact hs.clear z hz hbit

/-- Writes and truncations keep the zones in use marked. -/
theorem fsStep_stocked (hl : Layout sb) (hle : sb.zones ≤ 2 ^ 32) (hwf : s.WellFormed sb)
    (hs : Stocked sb s.zones s.disk) (hok : Changes s op) (hstep : fsStep sb s op = some t) :
    t.WellFormed sb ∧ Stocked sb t.zones t.disk := by
  have hpos := hl.two_le
  cases op with
  | write i buff offset =>
    obtain ⟨node, hi, rfl⟩ := Option.map_eq_some_iff.mp hstep
    have hn := hwf.nodes node (List.mem_of_getElem? hi)
    have ht := minixWriteAt_taken hl (by omega) hle hn (hs.of_node hi) buff offset
    have hfresh : FreshZones sb s (minixWriteAt sb s.disk node buff offset) := hs.fresh hle ht
    have hw := minixWriteAt_spec hl (by omega) hn (hfresh.of_node hi)
    refine ⟨hwf.write hl hi hw hfresh, (hs.take hle ht).of_count (fun z => ?_)⟩
    exact (hwf.count_write hl hi hw hfresh z).le
  | read i offset length => exact hok.elim
  | trunc i length =>
    obtain ⟨node, hi, hstep⟩ := Option.bind_eq_some_iff.mp hstep
    have hn := hwf.nodes node (List.mem_of_getElem? hi)
    have hs' := hs.of_node hi
    simp only at hstep
    split_ifs at hstep with hout
    cases hstep
    have hdiv : ¬ Divides node length := fun hd => hout (minixTrunc_divides hn.zones hd)
    have hr := minixTrunc_spec hl hn ⟨hs'.separate, fun z hz => (hs'.set z hz).1⟩ hdiv
    have hst := hs.trunc hl hwf hi hr
    exact ⟨hwf.set_node hi hr.id_eq hr.zones hst.separate, hst⟩

theorem MkfsImage.first_clear (h : MkfsImage sb s) {b : ℕ} (hb : b < sb.zones)
    (hfirst : ∀ m < b, mapBit s.disk (zoneMapOffset sb) m = true) :
    b < sb.first_data_zone ∨ b ∈ s.zones := by
  have htwo := h.layout.two_le
  by_cases hlt : b < sb.first_data_zone
  · exact Or.inl hlt
  · -- The zone `b` has the bit `b - first_data_zone + 1`, which is before `b` and so set.
    right
    have hzone : sb.first_data_zone + (b - sb.first_data_zone + 1) - 1 = b := by omega
    have hset := hfirst (b - sb.first_data_zone + 1) (by omega)
    rw [h.bits _ (by omega) (by omega), hzone] at hset
    exact hset

theorem MkfsImage.stocked (h : MkfsImage sb s)
    (hfull : ∀ b < sb.zones, mapBit s.disk (zoneMapOffset sb) b = true) :
    Stocked sb s.zones s.disk where
  separate := h.wf.separate
  set := fun z hz => ⟨h.lt z hz, hfull z (h.lt z hz)⟩
  clear := by
    intro z hz hbit
    rw [hfull z hz] at hbit
    cases hbit

/-- Allocation is safe in every run from an image exactly when the image has no free
zone. -/
theorem MkfsImage.allocSafe_iff (h : MkfsImage sb s) :
    (∀ ops t, Runs (fsStep sb) Changes s ops t → AllocSafe sb t) ↔
      ∀ b < sb.zones, mapBit s.disk (zoneMapOffset sb) b = true := by
  constructor
  · intro hsafe
    have hs := hsafe [] s (.nil s)
    rcases genericMinixGetBitMap_spec s.disk (zoneMapOffset sb) sb.zones with
      ⟨k, hk, he, _, hfirst⟩ | ⟨_, hfull⟩
    · obtain ⟨hge, _, hnot⟩ := hs.answer k _ he
      rcases h.first_clear hk hfirst with hlt | hin
      · omega
      · exact absurd hin hnot
    · exact hfull
  · intro hfull ops t hr
    have hinv := hr.invariant (I := fun t => t.WellFormed sb ∧ Stocked sb t.zones t.disk)
      (fun s op t hs hok hstep => fsStep_stocked h.layout h.zones_le hs.1 hs.2 hok hstep)
      ⟨h.wf, h.stocked hfull⟩
    exact hinv.2.allocSafe h.layout h.zones_le hinv.1

end Invariant

def oneFile (map : UInt8) (size : ℕ) (zones : List ℕ) : FsState :=
  ⟨fun a => if a = 3072 then map else 0, [⟨1, { size := size }, zones⟩]⟩

def fullFs : FsState := oneFile 255 3072 [5, 6, 7, 0, 0, 0, 0, 0, 0, 0]

def madeFs : FsState := oneFile 243 128 [5, 0, 0, 0, 0, 0, 0, 0, 0, 0]

theorem oneFile_image {map : UInt8} {size : ℕ} {zones : List ℕ} (used : List ℕ) (hlen : zones.length = 10)
    (hzones : (oneFile map size zones).zones = used) (hnodup : used.Nodup)
    (hused : ∀ z ∈ used, 5 ≤ z ∧ z < 8) (hreserved : map.toNat.testBit 0 = true)
    (hbits : ∀ b, 1 ≤ b → b < 4 → (map.toNat.testBit b = true ↔ 4 + b ∈ used))
    (hrest : ∀ b, 4 ≤ b → b < 8 → map.toNat.testBit b = true) :
    MkfsImage smallSb (oneFile map size zones) := by
  have hbit : ∀ b < 8, mapBit (oneFile map size zones).disk (zoneMapOffset smallSb) b =
      map.toNat.testBit b := by
    intro b hb
    have hdiv : b / 8 = 0 := by omega
    have hmod : b % 8 = b := by omega
    simp [mapBit, oneFile, zoneMapOffset, smallSb, blockSize, hdiv, hmod]
  refine ⟨smallSb_layout, by decide, ⟨?_, ?_, ?_⟩, ?_, ?_, ?_, ?_⟩
  · intro node hn
    obtain rfl : node = ⟨1, { size := size }, zones⟩ := by simpa [oneFile] using hn
    exact ⟨le_rfl, by simp only [smallSb]; omega, hlen⟩
  · simp [oneFile]
  · rw [hzones]
    refine ⟨hnodup, fun z hz => ?_⟩
    have := hused z hz
    simp only [smallSb]
    omega
  · rw [hzones]
    exact fun z hz => (hused z hz).2
  · rw [hbit 0 (by omega), hreserved]
  · intro b h1 h2
    simp only [smallSb] at h2
    have hb : smallSb.first_data_zone + b - 1 = 4 + b := by
      simp only [smallSb]
      omega
    rw [hbit b (by omega), hzones, hb]
    exact hbits b h1 (by omega)
  · intro b h1 h2
    simp only [smallSb] at h1 h2
    rw [hbit b h1]
    exact hrest b (by omega) h1

theorem fullFs_image : MkfsImage smallSb fullFs :=
  oneFile_image [5, 6, 7] rfl (by decide) (by decide) (by decide) (by decide)
    (by intro b h1 h2; interval_cases b <;> decide) (by intro b h1 h2; interval_cases b <;> decide)

theorem madeFs_image : MkfsImage smallSb madeFs :=
  oneFile_image [5] rfl (by decide) (by decide) (by decide) (by decide)
    (by intro b h1 h2; interval_cases b <;> decide) (by intro b h1 h2; interval_cases b <;> decide)

/-- No free zone, and allocation is safe in every run. -/
theorem allocSafe_full : MkfsImage smallSb fullFs ∧
    ∀ ops t, Runs (fsStep smallSb) Changes fullFs ops t → AllocSafe smallSb t := by
  refine ⟨fullFs_image, (MkfsImage.allocSafe_iff fullFs_image).mpr ?_⟩
  intro b hb
  have hb : b < 8 := hb
  interval_cases b <;> decide

/-- The first zone that is allocated on a new file system is one of its inode map. -/
theorem made_allocates_metadata : MkfsImage smallSb madeFs ∧
    (∃ disk', getFreeMinixZone smallSb madeFs.disk = some (2, disk')) ∧
      ¬ ∀ ops t, Runs (fsStep smallSb) Changes madeFs ops t → AllocSafe smallSb t := by
  have hget : ∃ disk', getFreeMinixZone smallSb madeFs.disk = some (2, disk') := ⟨_, rfl⟩
  refine ⟨madeFs_image, hget, fun hsafe => ?_⟩
  obtain ⟨disk', hget⟩ := hget
  have hge := ((hsafe [] madeFs (.nil _)).answer 2 disk' hget).1
  exact absurd hge (by decide)

end SomeOs.Minix

import SomeOs.Vfs.Entries

/-! # Zones of inodes

The zones in use are those of the inodes in use, each of one inode, as long as a change of an
inode takes zones that are not in use and frees the zones that the inode does not refer to
any more.
-/
namespace SomeOs.Vfs
open Filesystem

structure ZonesOwned (s : Filesystem) : Prop where
  zone_used : ∀ z, s.zoneUsed z = true ↔ ∃ i, s.used i = true ∧ z ∈ s.zones i
  zone_unused : ∀ i, s.used i = false → s.zones i = []
  zone_apart : ∀ i j z, z ∈ s.zones i → z ∈ s.zones j → i = j

/-- The driver reads every new inode and does not fail to truncate or free one, and its changes of
directories keep account of the zones. -/
structure DriverSafe (s : Filesystem) : Prop where
  reads : s.faults.readNode = none
  truncates : ∀ i, s.faults.trunc i = none
  frees : ∀ i, s.faults.freeNode i = none
  freed : ∀ c ∈ s.faults.zones, c.freed = c.dropped
  fresh : ∀ c ∈ s.faults.zones, ∀ z ∈ c.taken, s.zoneUsed z = false
  taken_apart : s.faults.zones.Pairwise fun c d => ∀ z ∈ c.taken, z ∉ d.taken

section Owned
variable {s t : Filesystem} {i z : ℕ} {c : ZoneChange}

theorem ZonesOwned.of_same (h : ZonesOwned s) (hz : t.zones = s.zones) (hu : t.zoneUsed = s.zoneUsed) (hused : t.used = s.used) :
    ZonesOwned t := by
  refine ⟨fun z => ?_, fun i hi => ?_, fun i j z hi hj => ?_⟩
  · rw [hz, hu, hused]
    exact h.zone_used z
  · rw [hused] at hi
    rw [hz]
    exact h.zone_unused i hi
  · rw [hz] at hi hj
    exact h.zone_apart i j z hi hj

theorem mem_changeZones {j : ℕ} : z ∈ (s.changeZones i c).zones j ↔
    if j = i then (z ∈ s.zones i ∧ z ∉ c.dropped) ∨ z ∈ c.taken else z ∈ s.zones j := by
  unfold changeZones
  split_ifs with hj
  · subst hj
    simp
  · simp [hj]

theorem changeZones_zoneUsed : (s.changeZones i c).zoneUsed z = true ↔
    (s.zoneUsed z = true ∧ ¬(z ∈ s.zones i ∧ z ∈ c.freed)) ∨ z ∈ c.taken := by
  simp [changeZones, imp_iff_not_or]

theorem ZonesOwned.changeZones (h : ZonesOwned s) (hi : s.used i = true) (hfreed : c.freed = c.dropped)
    (hfresh : ∀ z ∈ c.taken, s.zoneUsed z = false) : ZonesOwned (s.changeZones i c) := by
  have hnew : ∀ z ∈ c.taken, ∀ j, z ∉ s.zones j := by
    intro z hz j hj
    have hused : s.used j = true := by
      by_contra hno
      rw [h.zone_unused j (by simpa using hno)] at hj
      cases hj
    have := (h.zone_used z).mpr ⟨j, hused, hj⟩
    rw [hfresh z hz] at this
    cases this
  refine ⟨fun z => ?_, fun j hj => ?_, fun j k z hj hk => ?_⟩
  · rw [changeZones_zoneUsed, h.zone_used, hfreed]
    constructor
    · rintro (⟨⟨j, hj, hz⟩, hkept⟩ | hz)
      · refine ⟨j, hj, mem_changeZones.mpr ?_⟩
        split_ifs with hji
        · subst hji
          exact Or.inl ⟨hz, fun hd => hkept ⟨hz, hd⟩⟩
        · exact hz
      · exact ⟨i, hi, mem_changeZones.mpr (by rw [if_pos rfl]; exact Or.inr hz)⟩
    · rintro ⟨j, hj, hz⟩
      rw [mem_changeZones] at hz
      split_ifs at hz with hji
      · rcases hz with ⟨hz, hd⟩ | hz
        · exact Or.inl ⟨⟨i, hi, hz⟩, fun hboth => hd hboth.2⟩
        · exact Or.inr hz
      · exact Or.inl ⟨⟨j, hj, hz⟩, fun hboth => hji (h.zone_apart j i z hz hboth.1)⟩
  · have hji : j ≠ i := by
      rintro rfl
      rw [show (s.changeZones j c).used j = s.used j from rfl, hi] at hj
      cases hj
    rw [show (s.changeZones i c).zones j = s.zones j from Function.update_of_ne hji ..]
    exact h.zone_unused j hj
  · rw [mem_changeZones] at hj hk
    split_ifs at hj hk with hji hki hki
    · rw [hji, hki]
    · rcases hj with ⟨hj, -⟩ | hj
      · rw [hji]
        exact h.zone_apart i k z hj hk
      · exact absurd hk (hnew z hj k)
    · rcases hk with ⟨hk, -⟩ | hk
      · rw [hki]
        exact h.zone_apart j i z hj hk
      · exact absurd hj (hnew z hk j)
    · exact h.zone_apart j k z hj hk

theorem headD_mem_or (l : List ZoneChange) : l.headD {} ∈ l ∨ l.headD {} = {} := by
  cases l with
  | nil => exact Or.inr rfl
  | cons c l => exact Or.inl List.mem_cons_self

theorem ZonesOwned.nextZones (h : ZonesOwned s) (hd : DriverSafe s) (hi : s.used i = true) : ZonesOwned (s.nextZones i) := by
  have hc : ZonesOwned (s.changeZones i (s.faults.zones.headD {})) := by
    rcases headD_mem_or s.faults.zones with hmem | hnil
    · exact h.changeZones hi (hd.freed _ hmem) (hd.fresh _ hmem)
    · rw [hnil]
      exact h.changeZones hi rfl fun z hz => by cases hz
  exact hc.of_same rfl rfl rfl

theorem DriverSafe.of_same (h : DriverSafe s) (hread : t.faults.readNode = s.faults.readNode)
    (htrunc : t.faults.trunc = s.faults.trunc)
    (hfree : t.faults.freeNode = s.faults.freeNode) (hzones : t.faults.zones = s.faults.zones)
    (hused : ∀ z, t.zoneUsed z = true → s.zoneUsed z = true) : DriverSafe t := by
  refine ⟨hread.trans h.reads, fun i => ?_, fun i => ?_, fun c hc => ?_, fun c hc z hz => ?_, ?_⟩
  · rw [htrunc]
    exact h.truncates i
  · rw [hfree]
    exact h.frees i
  · rw [hzones] at hc
    exact h.freed c hc
  · rw [hzones] at hc
    by_contra hno
    have := hused z (by simpa using hno)
    rw [h.fresh c hc z hz] at this
    cases this
  · rw [hzones]
    exact h.taken_apart

/-- What a change has taken, the next ones do not take. -/
theorem DriverSafe.nextZones (h : DriverSafe s) (i : ℕ) : DriverSafe (s.nextZones i) := by
  refine ⟨h.reads, h.truncates, h.frees, fun c hc => h.freed c (List.mem_of_mem_tail hc), fun c hc z hz => ?_, h.taken_apart.tail⟩
  have hold := h.fresh c (List.mem_of_mem_tail hc) z hz
  by_contra hno
  have hnext : (s.nextZones i).zoneUsed z = true := by simpa using hno
  have hused : (s.changeZones i (s.faults.zones.headD {})).zoneUsed z = true := hnext
  rcases changeZones_zoneUsed.mp hused with ⟨hused, -⟩ | htaken
  · rw [hold] at hused
    cases hused
  · cases hl : s.faults.zones with
    | nil =>
      rw [hl] at htaken
      cases htaken
    | cons d l =>
      have hpair := h.taken_apart
      have hc' : c ∈ s.faults.zones.tail := hc
      rw [hl] at htaken hpair hc'
      exact (List.pairwise_cons.mp hpair).1 c hc' z htaken hz

/-- The zones of an inode are freed with it. -/
theorem ZonesOwned.freed (h : ZonesOwned s) (hz : t.zones = (s.changeZones i { freed := s.zones i, dropped := s.zones i }).zones)
    (hu : t.zoneUsed = (s.changeZones i { freed := s.zones i, dropped := s.zones i }).zoneUsed)
    (hused : ∀ j, t.used j = if j = i then false else s.used j) : ZonesOwned t := by
  have hmem : ∀ j z, z ∈ t.zones j ↔ j ≠ i ∧ z ∈ s.zones j := by
    intro j z
    rw [hz, mem_changeZones]
    split_ifs with hj
    · simp [hj]
    · simp [hj]
  refine ⟨fun z => ?_, fun j hj => ?_, fun j k z hj hk => ?_⟩
  · rw [hu, changeZones_zoneUsed, h.zone_used]
    constructor
    · rintro (⟨⟨j, hj, hz⟩, hkept⟩ | hz)
      · have hji : j ≠ i := fun hji => hkept ⟨hji ▸ hz, hji ▸ hz⟩
        exact ⟨j, by rw [hused, if_neg hji, hj], (hmem j z).mpr ⟨hji, hz⟩⟩
      · cases hz
    · rintro ⟨j, hj, hz⟩
      obtain ⟨hji, hz⟩ := (hmem j z).mp hz
      rw [hused, if_neg hji] at hj
      exact Or.inl ⟨⟨j, hj, hz⟩, fun hboth => hji (h.zone_apart j i z hz hboth.1)⟩
  · refine List.eq_nil_iff_forall_not_mem.mpr fun z hz => ?_
    obtain ⟨hji, hz⟩ := (hmem j z).mp hz
    rw [hused, if_neg hji] at hj
    rw [h.zone_unused j hj] at hz
    cases hz
  · exact h.zone_apart j k z ((hmem j z).mp hj).2 ((hmem k z).mp hk).2

/-- A new inode has no zones yet. -/
theorem ZonesOwned.created (h : ZonesOwned s) (hfree : s.used i = false) (hz : t.zones = s.zones) (hu : t.zoneUsed = s.zoneUsed)
    (hused : ∀ j, t.used j = if j = i then true else s.used j) : ZonesOwned t := by
  refine ⟨fun z => ?_, fun j hj => ?_, fun j k z hj hk => ?_⟩
  · rw [hz, hu, h.zone_used]
    refine exists_congr fun j => and_congr_left fun hzj => ?_
    rw [hused]
    split_ifs with hji
    · subst hji
      rw [h.zone_unused j hfree] at hzj
      cases hzj
    · rfl
  · rw [hused] at hj
    split_ifs at hj
    rw [hz]
    exact h.zone_unused j hj
  · rw [hz] at hj hk
    exact h.zone_apart j k z hj hk

end Owned

end SomeOs.Vfs

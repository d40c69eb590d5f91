import SomeOs.Minix.ZoneWalk

/-! # The zone tree of a file

A slot is a depth and a zone number. The tree below a slot is read from the
device; its zones and the bytes it maps only depend on the zones themselves. The
walk over an inode is one scan over its ten slots.
-/
namespace SomeOs.Minix
open ByteStore

abbrev Slot := ℕ × ℕ

def tableSlots (depth : ℕ) (table : List ℕ) : List Slot := table.map (fun zone => (depth, zone))

def inodeSlots (zones : List ℕ) : List Slot :=
  tableSlots 0 (zones.take 7) ++ tableSlots 1 ((zones.drop 7).take 1) ++
    tableSlots 2 ((zones.drop 8).take 1) ++ tableSlots 3 ((zones.drop 9).take 1)

def slotsSize (slots : List Slot) : ℕ := (slots.map (fun p => zoneSize p.1)).sum

def overSlots (slot : Slot → ℕ → UInt8) : List Slot → ℕ → UInt8
  | [], _ => 0
  | p :: rest, o => if o < zoneSize p.1 then slot p o else overSlots slot rest (o - zoneSize p.1)

def slotByte (disk : Store) : ℕ → ℕ → ℕ → UInt8
  | 0, zone, o => if zone = 0 then 0 else disk (offsetForZone zone + o)
  | depth + 1, zone, o =>
    if zone = 0 then 0
    else overSlots (fun p o => slotByte disk depth p.2 o) (tableSlots depth (zoneTable disk zone)) o

def slotsByte (disk : Store) : List Slot → ℕ → UInt8 := overSlots (fun p => slotByte disk p.1 p.2)

def slotZones (disk : Store) : ℕ → ℕ → List ℕ
  | 0, zone => if zone = 0 then [] else [zone]
  | depth + 1, zone =>
    if zone = 0 then [] else zone :: (zoneTable disk zone).flatMap (slotZones disk depth)

def slotsZones (disk : Store) (slots : List Slot) : List ℕ :=
  slots.flatMap (fun p => slotZones disk p.1 p.2)

def fileByte (disk : Store) (node : MinixVfsNode) : ℕ → UInt8 := slotsByte disk (inodeSlots node.zones)

def fileZones (disk : Store) (node : MinixVfsNode) : List ℕ := slotsZones disk (inodeSlots node.zones)

section Basics
variable {disk : Store} {l r : List Slot} {depth zone o : ℕ}

@[simp] theorem tableSlots_cons (depth zone : ℕ) (table : List ℕ) :
    tableSlots depth (zone :: table) = (depth, zone) :: tableSlots depth table := rfl

@[simp] theorem slotsSize_nil : slotsSize [] = 0 := rfl

@[simp] theorem slotsSize_cons (p : Slot) : slotsSize (p :: l) = zoneSize p.1 + slotsSize l := by
  simp [slotsSize]

@[simp] theorem slotsSize_append : slotsSize (l ++ r) = slotsSize l + slotsSize r := by
  simp [slotsSize]

theorem slotsSize_table (table : List ℕ) :
    slotsSize (tableSlots depth table) = table.length * zoneSize depth := by
  simp [slotsSize, tableSlots, Function.comp_def]

@[simp] theorem slotsZones_nil : slotsZones disk [] = [] := rfl

@[simp] theorem slotsZones_cons (p : Slot) :
    slotsZones disk (p :: l) = slotZones disk p.1 p.2 ++ slotsZones disk l := by
  simp [slotsZones]

@[simp] theorem slotsZones_append :
    slotsZones disk (l ++ r) = slotsZones disk l ++ slotsZones disk r := by
  simp [slotsZones]

theorem overSlots_congr {f g : Slot → ℕ → UInt8} (h : ∀ p ∈ l, ∀ o, f p o = g p o) (o : ℕ) :
    overSlots f l o = overSlots g l o := by
  induction l generalizing o with
  | nil => rfl
  | cons p l ih =>
    simp only [overSlots, h p List.mem_cons_self o,
      ih (fun q hq => h q (List.mem_cons_of_mem _ hq))]

@[simp] theorem slotByte_hole (disk : Store) (depth o : ℕ) : slotByte disk depth 0 o = 0 := by
  cases depth <;> simp [slotByte]

@[simp] theorem slotZones_hole (disk : Store) (depth : ℕ) : slotZones disk depth 0 = [] := by
  cases depth <;> simp [slotZones]

theorem slotByte_succ (hz : zone ≠ 0) :
    slotByte disk (depth + 1) zone o = slotsByte disk (tableSlots depth (zoneTable disk zone)) o := by
  simp only [slotByte, if_neg hz, slotsByte]
  apply overSlots_congr
  intro p hp o
  obtain ⟨z, _, rfl⟩ := List.mem_map.mp hp
  rfl

theorem slotZones_succ (hz : zone ≠ 0) :
    slotZones disk (depth + 1) zone =
      zone :: slotsZones disk (tableSlots depth (zoneTable disk zone)) := by
  simp only [slotZones, if_neg hz, slotsZones, tableSlots, List.flatMap_map]

@[simp] theorem slotsByte_nil : slotsByte disk [] o = 0 := rfl

theorem slotsByte_cons (p : Slot) :
    slotsByte disk (p :: l) o =
      if o < zoneSize p.1 then slotByte disk p.1 p.2 o else slotsByte disk l (o - zoneSize p.1) := rfl

theorem slotsByte_append :
    slotsByte disk (l ++ r) o =
      if o < slotsSize l then slotsByte disk l o else slotsByte disk r (o - slotsSize l) := by
  induction l generalizing o with
  | nil => simp
  | cons p l ih =>
    simp only [List.cons_append, slotsByte_cons, slotsSize_cons, ih]
    by_cases h1 : o < zoneSize p.1
    · rw [if_pos h1, if_pos h1, if_pos (by omega)]
    · rw [if_neg h1, if_neg h1]
      by_cases h2 : o - zoneSize p.1 < slotsSize l
      · rw [if_pos h2, if_pos (by omega)]
      · rw [if_neg h2, if_neg (by omega)]
        congr 1
        omega

theorem slotsByte_beyond (h : slotsSize l ≤ o) : slotsByte disk l o = 0 := by
  induction l generalizing o with
  | nil => rfl
  | cons p l ih =>
    rw [slotsSize_cons] at h
    rw [slotsByte_cons, if_neg (by omega)]
    exact ih (by omega)

end Basics

abbrev maxFileSize : ℕ := (7 + 256 + 256 ^ 2 + 256 ^ 3) * 1024

theorem slotsSize_inode {zones : List ℕ} (h : zones.length = 10) :
    slotsSize (inodeSlots zones) = maxFileSize := by
  simp only [inodeSlots, slotsSize_append, slotsSize_table, List.length_take, List.length_drop, h,
    zoneSize, blockSize, numIptrs, maxFileSize]
  norm_num

theorem map_snd_tableSlots (depth : ℕ) (table : List ℕ) :
    (tableSlots depth table).map Prod.snd = table := by
  simp [tableSlots, Function.comp_def]

theorem map_snd_inodeSlots {zones : List ℕ} (h : zones.length = 10) :
    (inodeSlots zones).map Prod.snd = zones := by
  have h10 : (zones.drop 10) = [] := by simp [h]
  have hsplit : ∀ n, (zones.drop n).take 1 ++ zones.drop (n + 1) = zones.drop n := by
    intro n
    rw [← List.drop_drop]
    exact List.take_append_drop 1 _
  simp only [inodeSlots, List.map_append, map_snd_tableSlots, List.append_assoc]
  have h9 := hsplit 9
  rw [h10, List.append_nil] at h9
  rw [h9, hsplit 8, hsplit 7, List.take_append_drop]

section Frame
variable {disk disk' : Store}

theorem tableByte_congr {depth : ℕ} {table : List ℕ}
    (h : ∀ z ∈ table, ∀ o < zoneSize depth, slotByte disk' depth z o = slotByte disk depth z o) (o : ℕ) :
    slotsByte disk' (tableSlots depth table) o = slotsByte disk (tableSlots depth table) o := by
  induction table generalizing o with
  | nil => rfl
  | cons z table ih =>
    simp only [tableSlots_cons, slotsByte_cons]
    split_ifs with hlt
    · exact h z List.mem_cons_self o hlt
    · exact ih (fun x hx => h x (List.mem_cons_of_mem _ hx)) _

/-- A tree is not changed by stores outside of its zones. -/
theorem slot_congr {depth zone : ℕ}
    (h : ∀ a, a / blockSize ∈ slotZones disk depth zone → disk' a = disk a) :
    slotZones disk' depth zone = slotZones disk depth zone ∧
      ∀ o < zoneSize depth, slotByte disk' depth zone o = slotByte disk depth zone o := by
  induction depth generalizing zone with
  | zero =>
    refine ⟨rfl, fun o ho => ?_⟩
    by_cases hz : zone = 0
    · simp [hz]
    · simp only [slotByte, if_neg hz]
      apply h
      rw [zoneSize_zero] at ho
      simp only [slotZones, if_neg hz, List.mem_singleton, offsetForZone, blockSize] at ho ⊢
      omega
  | succ depth ih =>
    by_cases hz : zone = 0
    · simp [hz]
    · rw [slotZones_succ hz] at h
      have htable : zoneTable disk' zone = zoneTable disk zone :=
        zoneTable_congr (fun a ha => h a (ha ▸ List.mem_cons_self))
      have hslots : ∀ z ∈ zoneTable disk zone, slotZones disk' depth z = slotZones disk depth z ∧
          ∀ o < zoneSize depth, slotByte disk' depth z o = slotByte disk depth z o := by
        intro z hzm
        apply ih
        intro a ha
        apply h
        refine List.mem_cons_of_mem _ (List.mem_flatMap.mpr ⟨(depth, z), ?_, ha⟩)
        exact List.mem_map.mpr ⟨z, hzm, rfl⟩
      constructor
      · simp only [slotZones, if_neg hz, htable]
        congr 1
        apply List.flatMap_congr
        intro z hzm
        exact (hslots z hzm).1
      · intro o _
        rw [slotByte_succ hz, slotByte_succ hz, htable]
        exact tableByte_congr (fun z hzm => (hslots z hzm).2) o

theorem slotsZones_congr {slots : List Slot}
    (h : ∀ a, a / blockSize ∈ slotsZones disk slots → disk' a = disk a) :
    slotsZones disk' slots = slotsZones disk slots := by
  induction slots with
  | nil => rfl
  | cons p slots ih =>
    rw [slotsZones_cons] at h
    rw [slotsZones_cons, slotsZones_cons, ih (fun a ha => h a (List.mem_append_right _ ha)),
      (slot_congr (fun a ha => h a (List.mem_append_left _ ha))).1]

theorem slotsByte_congr {slots : List Slot}
    (h : ∀ a, a / blockSize ∈ slotsZones disk slots → disk' a = disk a) (o : ℕ) :
    slotsByte disk' slots o = slotsByte disk slots o := by
  induction slots generalizing o with
  | nil => rfl
  | cons p slots ih =>
    rw [slotsZones_cons] at h
    rw [slotsByte_cons, slotsByte_cons]
    split_ifs with hlt
    · exact (slot_congr (fun a ha => h a (List.mem_append_left _ ha))).2 o hlt
    · exact ih (fun a ha => h a (List.mem_append_right _ ha)) _

end Frame

section Scan
variable {σ : Type} (callback : MinixZoneWalkFunction σ) (offset : ℕ)

/-- A scan over slots of any depths. -/
def walkSlots : List Slot → WalkState σ → Outcome × List ℕ × WalkState σ
  | [], st => (.success, [], st)
  | p :: rest, st =>
    match walkSlot callback offset p.1 p.2 st with
    | (.success, zone, st) =>
      let r := walkSlots rest st
      (r.1, zone :: r.2.1, r.2.2)
    | (err, zone, st) => (err, zone :: rest.map Prod.snd, st)

theorem recScan_eq (depth : ℕ) (table : List ℕ) (st : WalkState σ) :
    minixZoneWalkRecScan callback offset depth table st =
      walkSlots callback offset (tableSlots depth table) st := by
  unfold minixZoneWalkRecScan
  induction table generalizing st with
  | nil => rfl
  | cons zone table ih =>
    simp only [scanTable, tableSlots_cons, walkSlots, map_snd_tableSlots]
    rcases walkSlot callback offset depth zone st with ⟨out, z, st'⟩
    cases out <;> simp [ih]

theorem scanNext_eq (depth : ℕ) (table : List ℕ) (slots : List Slot) (st : WalkState σ) :
    scanNext callback offset depth table (walkSlots callback offset slots st) =
      walkSlots callback offset (slots ++ tableSlots depth table) st := by
  induction slots generalizing st with
  | nil => simp [walkSlots, scanNext, recScan_eq]
  | cons p slots ih =>
    have hzones := map_snd_tableSlots depth table
    simp only [List.cons_append, walkSlots]
    rcases walkSlot callback offset p.1 p.2 st with ⟨out, z, st'⟩
    cases out with
    | success =>
      simp only [← ih]
      rcases walkSlots callback offset slots st' with ⟨out, zs, st''⟩
      cases out <;> simp [scanNext]
    | successExit => simp [scanNext, hzones]
    | error e => simp [scanNext, hzones]
    | divideByZero => simp [scanNext, hzones]

variable {callback offset} in
theorem walkSlots_udata {R : σ → σ → Prop} {slots : List Slot} (st : WalkState σ)
    (hrefl : ∀ a, R a a) (htrans : ∀ a b c, R a b → R b c → R a c)
    (hslot : ∀ depth zone st, R st.udata (walkSlot callback offset depth zone st).2.2.udata) :
    R st.udata (walkSlots callback offset slots st).2.2.udata := by
  induction slots generalizing st with
  | nil => exact hrefl _
  | cons p slots ih =>
    have hs := hslot p.1 p.2 st
    simp only [walkSlots]
    generalize walkSlot callback offset p.1 p.2 st = r at hs ⊢
    obtain ⟨out, z, st'⟩ := r
    cases out with
    | success => exact htrans _ _ _ hs (ih st')
    | successExit => exact hs
    | error e => exact hs
    | divideByZero => exact hs

theorem walkSlots_length (slots : List Slot) (st : WalkState σ) :
    (walkSlots callback offset slots st).2.1.length = slots.length := by
  induction slots generalizing st with
  | nil => rfl
  | cons p slots ih =>
    simp only [walkSlots]
    rcases walkSlot callback offset p.1 p.2 st with ⟨out, z, st'⟩
    cases out <;> simp [ih]

theorem scanZones_eq (zones : List ℕ) (st : WalkState σ) :
    scanZones callback offset zones st = walkSlots callback offset (inodeSlots zones) st := by
  simp only [scanZones, recScan_eq, scanNext_eq, inodeSlots]

end Scan

end SomeOs.Minix

import SomeOs.Minix.Directory
import SomeOs.Minix.ZoneTree

/-! # What a read walk returns

The position counter of the walk matters only through the number of bytes that
are still to be skipped. A read walk appends the bytes of the slots it visits from
there on, up to the length that is left.
-/
namespace SomeOs.Minix
open ByteStore

abbrev RWState := WalkState MinixReadWriteRequest

def RWState.skip (st : RWState) : ℕ := st.udata.offset - st.position

def RWState.moved (st : RWState) (slots : List Slot) : ℕ :=
  min st.udata.left (slotsSize slots - RWState.skip st)

/-- The outcome after a transfer of `n` bytes. -/
def RWState.outcome (st : RWState) (n : ℕ) : Outcome :=
  if st.udata.left - n = 0 then .successExit else .success

/-- The position after a walk has passed `size` bytes. -/
structure Passed (st st' : RWState) (size : ℕ) : Prop where
  aligned : blockSize ∣ st'.position
  skip : RWState.skip st' = RWState.skip st - size

structure Reading (offset : ℕ) (st : RWState) : Prop where
  read : st.udata.write = false
  offset_eq : st.udata.offset = offset
  left : 0 < st.udata.left
  aligned : blockSize ∣ st.position

/-- The effect of a read walk over a list of slots. -/
structure ReadStep (slots : List Slot) (st st' : RWState) (out : Outcome) : Prop where
  disk : st'.disk = st.disk
  changed : st'.changed = st.changed
  udata : st'.udata = { st.udata with
    left := st.udata.left - RWState.moved st slots
    buffer := st.udata.buffer ++
      ByteStore.read (slotsByte st.disk slots) (RWState.skip st) (RWState.moved st slots) }
  outcome : out = RWState.outcome st (RWState.moved st slots)
  passed : out = .success → Passed st st' (slotsSize slots)

section Callback
variable {sb : Minix3Superblock} {st : RWState} {zone position size : ℕ}

theorem callback_post (h : 0 < st.udata.left) :
    minixRWZoneWalkCallback sb zone position size .post st = (.success, zone, st) := by
  have hne : st.udata.left ≠ 0 := by omega
  simp [minixRWZoneWalkCallback, checked, hne]

theorem callback_pre_read (hw : st.udata.write = false) (h : 0 < st.udata.left) :
    minixRWZoneWalkCallback sb zone position size .pre st = (.success, zone, st) := by
  have hne : st.udata.left ≠ 0 := by omega
  simp [minixRWZoneWalkCallback, checked, hw, hne]

theorem callback_mid (h : 0 < st.udata.left) :
    minixRWZoneWalkCallback sb zone position size .mid st =
      checked (transferZone zone position size st)
        fun zone st => (if st.udata.left = 0 then .successExit else .success, zone, st) := by
  have hphase : ¬ (Phase.mid = Phase.pre) := by decide
  simp [minixRWZoneWalkCallback, checked, h]

end Callback

theorem Reading.next {offset : ℕ} {st st' : RWState} {slots : List Slot} (hr : Reading offset st)
    (h : ReadStep slots st st' .success) : Reading offset st' where
  read := by rw [h.udata]; exact hr.read
  offset_eq := by rw [h.udata]; exact hr.offset_eq
  left := by
    have hout := h.outcome
    unfold RWState.outcome at hout
    split_ifs at hout with hz
    rw [h.udata]
    exact Nat.pos_of_ne_zero hz
  aligned := (h.passed rfl).aligned

theorem ReadStep.nil {offset : ℕ} {st : RWState} (hr : Reading offset st) :
    ReadStep [] st st .success := by
  have hm : RWState.moved st [] = 0 := by simp [RWState.moved]
  have hl := hr.left
  refine ⟨rfl, rfl, ?_, ?_, fun _ => ⟨hr.aligned, by simp⟩⟩
  · simp [hm, ByteStore.read]
  · rw [hm, RWState.outcome, if_neg (by omega)]

/-- Reading goes on with the slots that follow. -/
theorem ReadStep.append {l r : List Slot} {st st₁ st₂ : RWState} {out : Outcome}
    (h₁ : ReadStep l st st₁ .success) (h₂ : ReadStep r st₁ st₂ out) :
    ReadStep (l ++ r) st st₂ out := by
  have hskip := (h₁.passed rfl).skip
  have hout := h₁.outcome
  unfold RWState.outcome at hout
  split_ifs at hout with hz
  have hleft : st₁.udata.left = st.udata.left - RWState.moved st l := by rw [h₁.udata]
  have hm : RWState.moved st (l ++ r) = RWState.moved st l + RWState.moved st₁ r := by
    unfold RWState.moved at hz hleft ⊢
    rw [hskip, hleft, slotsSize_append]
    omega
  have hm₁ : RWState.moved st l = slotsSize l - RWState.skip st := by
    unfold RWState.moved at hz ⊢
    omega
  refine ⟨h₂.disk.trans h₁.disk, h₂.changed.trans h₁.changed, ?_, ?_, fun ho => ?_⟩
  · rw [h₂.udata, h₁.udata, hm, ByteStore.read_add]
    have hfirst : ByteStore.read (slotsByte st.disk (l ++ r)) (RWState.skip st) (RWState.moved st l) =
        ByteStore.read (slotsByte st.disk l) (RWState.skip st) (RWState.moved st l) := by
      apply ByteStore.read_congr
      intro i hi
      rw [slotsByte_append, if_pos (by omega)]
    have hsecond : ByteStore.read (slotsByte st.disk (l ++ r)) (RWState.skip st + RWState.moved st l)
          (RWState.moved st₁ r) =
        ByteStore.read (slotsByte st₁.disk r) (RWState.skip st₁) (RWState.moved st₁ r) := by
      apply ByteStore.read_congr
      intro i hi
      rw [slotsByte_append, if_neg (by omega), h₁.disk, hskip]
      congr 1
      omega
    rw [hfirst, hsecond]
    simp [Nat.sub_sub]
  · rw [h₂.outcome, RWState.outcome, RWState.outcome, hm, hleft, Nat.sub_sub]
  · obtain ⟨ha, hs⟩ := h₂.passed ho
    refine ⟨ha, ?_⟩
    rw [hs, hskip, slotsSize_append, Nat.sub_sub]

theorem ReadStep.exit {l r : List Slot} {st st' : RWState} (h : ReadStep l st st' .successExit) :
    ReadStep (l ++ r) st st' .successExit := by
  have hout := h.outcome
  unfold RWState.outcome at hout
  split_ifs at hout with hz
  have hm : RWState.moved st (l ++ r) = RWState.moved st l := by
    unfold RWState.moved at hz ⊢
    rw [slotsSize_append]
    omega
  refine ⟨h.disk, h.changed, ?_, ?_, fun ho => by cases ho⟩
  · rw [h.udata, hm]
    have hsame : ByteStore.read (slotsByte st.disk l) (RWState.skip st) (RWState.moved st l) =
        ByteStore.read (slotsByte st.disk (l ++ r)) (RWState.skip st) (RWState.moved st l) := by
      apply ByteStore.read_congr
      intro i hi
      unfold RWState.moved at hi
      rw [slotsByte_append, if_pos (by omega)]
    rw [hsame]
  · rw [hm, RWState.outcome, if_pos hz]

/-- The transfer from a hole or from a data zone. -/
theorem transferZone_read {offset depth zone : ℕ} {st : RWState} (hr : Reading offset st)
    (hlt : offset < st.position + zoneSize depth) (hd : depth = 0 ∨ zone = 0) :
    transferZone zone st.position (zoneSize depth) st = (.success, zone, { st with
      udata := { st.udata with
        left := st.udata.left - RWState.moved st [(depth, zone)]
        buffer := st.udata.buffer ++ ByteStore.read (slotsByte st.disk [(depth, zone)])
          (RWState.skip st) (RWState.moved st [(depth, zone)]) } }) := by
  obtain ⟨hw, ho, hl, ha⟩ := hr
  have hskip : RWState.skip st = offset - st.position := by rw [RWState.skip, ho]
  have hfile : (if st.position < st.udata.offset then st.udata.offset else st.position) =
      st.position + RWState.skip st := by
    rw [hskip, ho]
    by_cases hp : st.position < offset
    · rw [if_pos hp]
      omega
    · rw [if_neg hp]
      omega
  have hmoved : min st.udata.left (st.position + zoneSize depth - (st.position + RWState.skip st)) =
      RWState.moved st [(depth, zone)] := by
    simp only [RWState.moved, slotsSize_cons, slotsSize_nil]
    omega
  have hpos : RWState.moved st [(depth, zone)] ≠ 0 := by
    have hsize := zoneSize_pos depth
    simp only [RWState.moved, slotsSize_cons, slotsSize_nil]
    omega
  simp only [transferZone, hfile, hmoved, hw, Bool.false_eq_true, if_false, if_neg hpos]
  by_cases hz : zone = 0
  · rw [if_pos hz]
    have hzero : ByteStore.read (slotsByte st.disk [(depth, zone)]) (RWState.skip st)
        (RWState.moved st [(depth, zone)]) = List.replicate (RWState.moved st [(depth, zone)]) 0 := by
      apply List.ext_getElem?
      intro i
      by_cases hi : i < RWState.moved st [(depth, zone)]
      · rw [ByteStore.read_getElem? hi, slotsByte_cons]
        rw [List.getElem?_replicate_of_lt hi]
        simp [hz]
      · rw [List.getElem?_eq_none (by simpa using hi), List.getElem?_eq_none (by simpa using hi)]
    rw [hzero]
  · have hd := hd.resolve_right hz
    subst hd
    rw [if_neg hz]
    have hblock : (st.position + RWState.skip st) % blockSize = RWState.skip st := by
      rw [zoneSize_zero] at hlt
      rw [hskip]
      simp only [blockSize] at ha hlt ⊢
      omega
    have hbytes : ByteStore.read st.disk (offsetForZone zone + RWState.skip st)
          (RWState.moved st [(0, zone)]) =
        ByteStore.read (slotsByte st.disk [(0, zone)]) (RWState.skip st)
          (RWState.moved st [(0, zone)]) := by
      apply ByteStore.read_congr
      intro i hi
      have hin : RWState.skip st + i < zoneSize 0 := by
        simp only [RWState.moved, slotsSize_cons, slotsSize_nil] at hi
        omega
      rw [slotsByte_cons, if_pos hin]
      simp [slotByte, hz, Nat.add_assoc]
    rw [hblock, hbytes]

/-- The middle of a slot that is read: the bytes are there, the position is not
advanced yet or is the one the recursion left behind. -/
structure ReadMiddle (slots : List Slot) (st st' : RWState) (out : Outcome) : Prop where
  disk : st'.disk = st.disk
  changed : st'.changed = st.changed
  udata : st'.udata = { st.udata with
    left := st.udata.left - RWState.moved st slots
    buffer := st.udata.buffer ++
      ByteStore.read (slotsByte st.disk slots) (RWState.skip st) (RWState.moved st slots) }
  outcome : out = RWState.outcome st (RWState.moved st slots)
  position : out = .success →
    blockSize ∣ st'.position ∧ st.udata.offset < st'.position + slotsSize slots

section Walk
variable {sb : Minix3Superblock} {offset depth zone : ℕ} {st : RWState}

/-- One slot: it is skipped, or its middle is read. -/
theorem scanSlot_read {middle : ℕ → RWState → Outcome × ℕ × RWState} (hr : Reading offset st)
    (hmid : offset < st.position + zoneSize depth → ∃ out st',
      middle zone st = (out, zone, st') ∧ ReadMiddle [(depth, zone)] st st' out) :
    ∃ out st', scanSlot (minixRWZoneWalkCallback sb) offset (zoneSize depth) middle zone st =
      (out, zone, st') ∧ ReadStep [(depth, zone)] st st' out := by
  have hskip : RWState.skip st = offset - st.position := by rw [RWState.skip, hr.offset_eq]
  have hdvd := blockSize_dvd_zoneSize depth
  unfold scanSlot
  by_cases hlt : offset < st.position + zoneSize depth
  · rw [if_pos hlt, callback_pre_read hr.read hr.left]
    obtain ⟨out, st', hm, hd, hc, hu, ho, hp⟩ := hmid hlt
    simp only [checked, hm]
    unfold RWState.outcome at ho
    split_ifs at ho with hz
    · subst ho
      refine ⟨_, _, rfl, hd, hc, hu, ?_, fun h => by cases h⟩
      rw [RWState.outcome, if_pos hz]
    · subst ho
      obtain ⟨ha, hle⟩ := hp rfl
      have hleft : 0 < st'.udata.left := by
        rw [hu]
        exact Nat.pos_of_ne_zero hz
      simp only [callback_post hleft]
      refine ⟨_, _, rfl, hd, hc, hu, ?_, fun _ => ⟨Dvd.dvd.add ha hdvd, ?_⟩⟩
      · rw [RWState.outcome, if_neg hz]
      · have hoff : st'.udata.offset = offset := by
          rw [hu]
          exact hr.offset_eq
        simp only [RWState.skip, hoff, hr.offset_eq, slotsSize_cons, slotsSize_nil] at hle ⊢
        omega
  · rw [if_neg hlt]
    have hm : RWState.moved st [(depth, zone)] = 0 := by
      simp only [RWState.moved, slotsSize_cons, slotsSize_nil]
      omega
    have hl := hr.left
    refine ⟨_, _, rfl, rfl, rfl, ?_, ?_, fun _ => ⟨Dvd.dvd.add hr.aligned hdvd, ?_⟩⟩
    · simp [hm, ByteStore.read]
    · rw [hm, RWState.outcome, if_neg (by omega)]
    · simp only [RWState.skip, hr.offset_eq, slotsSize_cons, slotsSize_nil]
      omega

theorem callback_mid_read (hr : Reading offset st) (hlt : offset < st.position + zoneSize depth)
    (hd : depth = 0 ∨ zone = 0) :
    ∃ out st', minixRWZoneWalkCallback sb zone st.position (zoneSize depth) .mid st =
      (out, zone, st') ∧ ReadMiddle [(depth, zone)] st st' out := by
  rw [callback_mid hr.left, transferZone_read hr hlt hd]
  refine ⟨_, _, rfl, rfl, rfl, rfl, rfl, fun _ => ⟨hr.aligned, ?_⟩⟩
  simpa [hr.offset_eq] using hlt

/-- A scan reads its slots one after the other. -/
theorem walkSlots_read (slots : List Slot)
    (hslot : ∀ p ∈ slots, ∀ st, Reading offset st → ∃ out st',
      walkSlot (minixRWZoneWalkCallback sb) offset p.1 p.2 st = (out, p.2, st') ∧
        ReadStep [p] st st' out)
    (hr : Reading offset st) :
    ∃ out st', walkSlots (minixRWZoneWalkCallback sb) offset slots st =
      (out, slots.map Prod.snd, st') ∧ ReadStep slots st st' out := by
  induction slots generalizing st with
  | nil => exact ⟨_, _, rfl, .nil hr⟩
  | cons p slots ih =>
    obtain ⟨out, st₁, hw, h₁⟩ := hslot p List.mem_cons_self st hr
    have hout := h₁.outcome
    unfold RWState.outcome at hout
    simp only [walkSlots, hw]
    split_ifs at hout with hz
    · subst hout
      exact ⟨_, _, rfl, h₁.exit⟩
    · subst hout
      obtain ⟨out, st₂, hw₂, h₂⟩ :=
        ih (fun q hq => hslot q (List.mem_cons_of_mem _ hq)) (hr.next h₁)
      simp only [hw₂]
      exact ⟨_, _, rfl, h₁.append h₂⟩

theorem slotsSize_zoneTable (disk : Store) (depth zone : ℕ) :
    slotsSize (tableSlots depth (zoneTable disk zone)) = zoneSize (depth + 1) := by
  rw [slotsSize_table, zoneTable_length, zoneSize_succ]

/-- Reading the table of an indirect slot reads the slot. -/
theorem ReadStep.middle {st' : RWState} {out : Outcome} (hz : zone ≠ 0) (hr : Reading offset st)
    (hlt : offset < st.position + zoneSize (depth + 1))
    (h : ReadStep (tableSlots depth (zoneTable st.disk zone)) { st with changed := false } st' out) :
    ReadMiddle [(depth + 1, zone)] st { st' with changed := st.changed } out := by
  have hsize := slotsSize_zoneTable st.disk depth zone
  have hm : RWState.moved { st with changed := false } (tableSlots depth (zoneTable st.disk zone)) =
      RWState.moved st [(depth + 1, zone)] := by
    simp only [RWState.moved, RWState.skip, hsize, slotsSize_cons, slotsSize_nil, Nat.add_zero]
  have hb : ByteStore.read (slotsByte st.disk (tableSlots depth (zoneTable st.disk zone)))
        (RWState.skip st) (RWState.moved st [(depth + 1, zone)]) =
      ByteStore.read (slotsByte st.disk [(depth + 1, zone)]) (RWState.skip st)
        (RWState.moved st [(depth + 1, zone)]) := by
    apply ByteStore.read_congr
    intro i hi
    simp only [RWState.moved, slotsSize_cons, slotsSize_nil] at hi
    rw [slotsByte_cons, if_pos (by simp only; omega), slotByte_succ hz]
  refine ⟨h.disk, rfl, ?_, ?_, fun ho => ⟨(h.passed ho).aligned, ?_⟩⟩
  · have hu := h.udata
    rw [hm] at hu
    rw [← hb]
    exact hu
  · have ho := h.outcome
    rw [hm] at ho
    exact ho
  · have hp := (h.passed ho).skip
    have hoff : st'.udata.offset = offset := by
      rw [h.udata]
      exact hr.offset_eq
    have hpos := zoneSize_pos (depth + 1)
    simp only [RWState.skip, hoff, hr.offset_eq, hsize, slotsSize_cons, slotsSize_nil] at hp ⊢
    omega

/-- Every slot is read as the byte function of its tree says. -/
theorem walkSlot_read (sb : Minix3Superblock) (hr : Reading offset st) :
    ∃ out st', walkSlot (minixRWZoneWalkCallback sb) offset depth zone st = (out, zone, st') ∧
      ReadStep [(depth, zone)] st st' out := by
  induction depth generalizing zone st with
  | zero => exact scanSlot_read hr (fun hlt => callback_mid_read hr hlt (Or.inl rfl))
  | succ depth ih =>
    refine scanSlot_read hr (fun hlt => ?_)
    by_cases hz : zone = 0
    · simp only [if_pos hz]
      exact callback_mid_read hr hlt (Or.inr hz)
    · simp only [if_neg hz, walkTable]
      have hr' : Reading offset { st with changed := false } := ⟨hr.read, hr.offset_eq, hr.left, hr.aligned⟩
      have hscan : scanTable (walkSlot (minixRWZoneWalkCallback sb) offset depth)
          (zoneTable st.disk zone) { st with changed := false } =
          walkSlots (minixRWZoneWalkCallback sb) offset (tableSlots depth (zoneTable st.disk zone))
            { st with changed := false } := recScan_eq _ _ _ _ _
      have hslots : ∀ p ∈ tableSlots depth (zoneTable st.disk zone), ∀ st, Reading offset st →
          ∃ out st', walkSlot (minixRWZoneWalkCallback sb) offset p.1 p.2 st = (out, p.2, st') ∧
            ReadStep [p] st st' out := by
        intro p hp st hst
        obtain ⟨z, _, rfl⟩ := List.mem_map.mp hp
        exact ih hst
      obtain ⟨out, st', hw, h⟩ := walkSlots_read _ hslots hr'
      rw [hscan, hw]
      have hc : st'.changed = false := h.changed
      simp only [hc, Bool.false_eq_true, if_false]
      exact ⟨_, _, rfl, h.middle hz hr hlt⟩

end Walk

/-- A read returns the bytes of the file from the offset on, up to its size. -/
theorem minixReadAt_spec (sb : Minix3Superblock) (disk : Store) {node : MinixVfsNode} (offset length : ℕ)
    (hz : node.zones.length = 10) (hrange : offset + length ≤ maxFileSize) :
    minixReadAt sb disk node offset length =
      ⟨.success, min length (node.stat.size - offset),
        ByteStore.read (fileByte disk node) offset (min length (node.stat.size - offset)), node, disk, []⟩ := by
  have hlen : (if node.stat.size < offset then 0 else min length (node.stat.size - offset)) =
      min length (node.stat.size - offset) := by
    split_ifs <;> omega
  unfold minixReadAt minixReadWrite
  simp only [Bool.false_eq_true, if_false, false_and, hlen]
  generalize hL : min length (node.stat.size - offset) = L
  by_cases hzero : L = 0
  · rw [if_pos hzero]
    simp [hzero, ByteStore.read]
  · rw [if_neg hzero]
    have hr : Reading offset (⟨disk, 0, false, ⟨offset, L, false, [], []⟩⟩ : RWState) :=
      ⟨rfl, rfl, Nat.pos_of_ne_zero hzero, Dvd.intro 0 rfl⟩
    obtain ⟨out, st', hw, h⟩ := walkSlots_read (inodeSlots node.zones)
      (fun p _ st hst => walkSlot_read sb hst) hr
    have hm : RWState.moved (⟨disk, 0, false, ⟨offset, L, false, [], []⟩⟩ : RWState)
        (inodeSlots node.zones) = L := by
      simp only [RWState.moved, RWState.skip, slotsSize_inode hz]
      omega
    have hu := h.udata
    have ho := h.outcome
    have hc : st'.changed = false := h.changed
    rw [hm] at hu ho
    simp only [RWState.outcome, Nat.sub_self, if_true] at ho
    subst ho
    simp only [minixZoneWalk, scanZones_eq, hw, map_snd_inodeSlots hz, hc, h.disk, hu,
      Bool.false_eq_true, if_false, or_true, if_true, Nat.sub_self, Nat.sub_zero]
    rfl

theorem minixReadAt_same (sb : Minix3Superblock) (disk : Store) {node : MinixVfsNode} (offset length : ℕ)
    (hz : node.zones.length = 10) :
    (minixReadAt sb disk node offset length).disk = disk ∧
      (minixReadAt sb disk node offset length).node = node := by
  unfold minixReadAt minixReadWrite
  simp only [Bool.false_eq_true, if_false, false_and]
  generalize (if node.stat.size < offset then 0 else min length (node.stat.size - offset)) = L
  by_cases hzero : L = 0
  · rw [if_pos hzero]
    exact ⟨rfl, rfl⟩
  · rw [if_neg hzero]
    have hr : Reading offset (⟨disk, 0, false, ⟨offset, L, false, [], []⟩⟩ : RWState) :=
      ⟨rfl, rfl, Nat.pos_of_ne_zero hzero, Dvd.intro 0 rfl⟩
    obtain ⟨out, st', hw, h⟩ := walkSlots_read (inodeSlots node.zones)
      (fun p _ st hst => walkSlot_read sb hst) hr
    have hc : st'.changed = false := h.changed
    have hd : st'.disk = disk := h.disk
    simp only [minixZoneWalk, scanZones_eq, hw, map_snd_inodeSlots hz, hc, hd, Bool.false_eq_true, if_false]
    split_ifs <;> exact ⟨rfl, rfl⟩

end SomeOs.Minix

import SomeOs.Minix.WriteSpec

/-! # Writing to a file

A write walks over the ten slots of its inode and then stores the inode record.
Both leave everything outside of the file, its new zones and the zone map as it
was.
-/
namespace SomeOs.Minix
open ByteStore

def InInode (sb : Minix3Superblock) (id a : ℕ) : Prop :=
  offsetForINode sb id ≤ a ∧ a < offsetForINode sb id + inodeSize

structure NodeOf (sb : Minix3Superblock) (node : MinixVfsNode) : Prop where
  id_pos : 1 ≤ node.id
  id_le : node.id ≤ sb.ninodes
  zones : node.zones.length = 10

section Inodes
variable {sb : Minix3Superblock} {node : MinixVfsNode} {a : ℕ}

theorem minixWriteNode_frame (h : node.zones.length = 10) (disk : Store)
    (ha : ¬ InInode sb node.id a) : minixWriteNode sb disk node a = disk a := by
  apply write_outside
  rw [inodeBytes_length node h]
  unfold InInode at ha
  omega

theorem InInode.bounds (hl : Layout sb) (hn : NodeOf sb node) (ha : InInode sb node.id a) :
    offsetForINode sb 1 ≤ a ∧ a / blockSize < sb.first_data_zone := by
  obtain ⟨h1, h2⟩ := ha
  have hpos := hn.id_pos
  have hle := hn.id_le
  have hin := hl.inodes
  simp only [offsetForINode, inodeSize, blockSize] at *
  omega

theorem not_inInode (hl : Layout sb) (hn : NodeOf sb node) (h : sb.first_data_zone ≤ a / blockSize) :
    ¬ InInode sb node.id a := by
  intro ha
  have := (ha.bounds hl hn).2
  omega

end Inodes

theorem inodeSlots_zip {zones : List ℕ} (h : zones.length = 10) :
    inodeSlots zones = [0, 0, 0, 0, 0, 0, 0, 1, 2, 3].zip zones := by
  match zones, h with
  | [a, b, c, d, e, f, g, h, i, j], _ => rfl

theorem inodeSlots_of_depths {zones : List ℕ} {slots : List Slot} (h : zones.length = 10)
    (hd : slots.map Prod.fst = (inodeSlots zones).map Prod.fst) :
    inodeSlots (slots.map Prod.snd) = slots := by
  have hlen : slots.length = 10 := by
    have := congrArg List.length hd
    simpa [inodeSlots_zip h, h] using this
  have hfst : slots.map Prod.fst = [0, 0, 0, 0, 0, 0, 0, 1, 2, 3] := by
    rw [hd, inodeSlots_zip h, List.map_fst_zip (by simp [h])]
  rw [inodeSlots_zip (by simpa using hlen), ← hfst, ← List.unzip_fst, ← List.unzip_snd,
    List.zip_unzip]

/-- Only the zones of a file, the zones of `new`, the zone map and the inode record
of the file changed. -/
def Touched (sb : Minix3Superblock) (disk : Store) (node : MinixVfsNode) (new : List ℕ) (disk' : Store) :
    Prop :=
  ∀ a, a / blockSize ∉ fileZones disk node → a / blockSize ∉ new → ¬ InMap sb a →
    ¬ InInode sb node.id a → disk' a = disk a

/-- The effect of a write on its file and on the device. -/
structure FileWritten (sb : Minix3Superblock) (disk : Store) (node : MinixVfsNode)
    (buff : List UInt8) (offset : ℕ) (r : IoResult) : Prop where
  id_eq : r.node.id = node.id
  length : r.node.zones.length = 10
  zones : ∀ z, (fileZones r.disk r.node).count z =
    (fileZones disk node).count z + r.allocated.reduceOption.count z
  frame : Touched sb disk node r.allocated.reduceOption r.disk
  keeps : ∀ o < offset, fileByte r.disk r.node o = fileByte disk node o
  failed : none ∈ r.allocated → r.outcome = .error .ENOSPC ∧ r.node.stat = node.stat
  stored : none ∉ r.allocated → offset + buff.length ≤ maxFileSize →
    r.outcome = .success ∧ r.ret = buff.length ∧
      r.node.stat.size =
        (if buff.length = 0 then node.stat.size else max node.stat.size (offset + buff.length)) ∧
      ∀ o < maxFileSize, fileByte r.disk r.node o = ByteStore.write (fileByte disk node) offset buff o

section Write
variable {sb : Minix3Superblock} {disk : Store} {node : MinixVfsNode} {buff : List UInt8} {offset : ℕ}

/-- The inode record may be stored after a walk; the files do not change by it. -/
theorem Grown.stored_node {slots' : List Slot} {new : List (Option ℕ)} {st st' : RWState}
    (node' : MinixVfsNode) (disk' : Store) (hl : Layout sb) (hn : NodeOf sb node)
    (h : Grown sb (inodeSlots node.zones) slots' new st st') (hzones : node'.zones = slots'.map Prod.snd)
    (hsep : Separate sb (fileZones st.disk node ++ new.reduceOption))
    (hdisk : ∀ a, ¬ InInode sb node.id a → disk' a = st'.disk a) :
    node'.zones.length = 10 ∧
      (∀ z, (fileZones disk' node').count z = (fileZones st.disk node).count z + new.reduceOption.count z) ∧
      Touched sb st.disk node new.reduceOption disk' ∧
      ∀ o, fileByte disk' node' o = slotsByte st'.disk slots' o := by
  have hslots : inodeSlots node'.zones = slots' := by
    rw [hzones]
    exact inodeSlots_of_depths hn.zones h.depths
  have hkeep : ∀ a, a / blockSize ∈ slotsZones st'.disk slots' → disk' a = st'.disk a := by
    intro a ha
    apply hdisk
    apply not_inInode hl hn
    exact (hsep.data _ (List.mem_append.mpr (h.mem ha))).1
  refine ⟨?_, fun z => ?_, fun a ha hnew hm hi => ?_, fun o => ?_⟩
  · have := congrArg List.length h.depths
    rw [hzones]
    simpa [inodeSlots_zip hn.zones, hn.zones] using this
  · unfold fileZones
    rw [hslots, slotsZones_congr hkeep]
    exact h.zones z
  · rw [hdisk a hi]
    exact h.frame a ha hnew hm
  · unfold fileByte
    rw [hslots]
    exact slotsByte_congr hkeep o

def writeStart (disk : Store) (buff : List UInt8) (offset : ℕ) : RWState :=
  ⟨disk, 0, false, ⟨offset, buff.length, true, buff, []⟩⟩

def walkedDisk (sb : Minix3Superblock) (node : MinixVfsNode) (w : Outcome × List ℕ × RWState) : Store :=
  if w.2.2.changed then minixWriteNode sb w.2.2.disk { node with zones := w.2.1 } else w.2.2.disk

/-- What `minixReadWrite` does for a write after the walk over the slots. -/
def finishWrite (sb : Minix3Superblock) (node : MinixVfsNode) (length offset : ℕ)
    (w : Outcome × List ℕ × RWState) : IoResult :=
  let node := { node with zones := w.2.1 }
  let disk := walkedDisk sb node w
  if w.1 = .success ∨ w.1 = .successExit then
    let length := length - w.2.2.udata.left
    if node.stat.size < offset + length then
      let node := node.setSize (offset + length)
      ⟨.success, length, w.2.2.udata.buffer, node, minixWriteNode sb disk node, w.2.2.udata.allocated⟩
    else ⟨.success, length, w.2.2.udata.buffer, node, disk, w.2.2.udata.allocated⟩
  else ⟨w.1, 0, w.2.2.udata.buffer, node, disk, w.2.2.udata.allocated⟩

theorem minixWriteAt_eq (h : buff.length ≠ 0) :
    minixWriteAt sb disk node buff offset = finishWrite sb node buff.length offset
      (walkSlots (minixRWZoneWalkCallback sb) offset (inodeSlots node.zones)
        (writeStart disk buff offset)) := by
  unfold minixWriteAt minixReadWrite
  simp only [if_true, true_and, if_neg h, minixZoneWalk, scanZones_eq]
  rfl

theorem finishWrite_allocated (sb : Minix3Superblock) (node : MinixVfsNode) (length offset : ℕ)
    (w : Outcome × List ℕ × RWState) :
    (finishWrite sb node length offset w).allocated = w.2.2.udata.allocated := by
  simp only [finishWrite]
  split_ifs <;> rfl

theorem finishWrite_fields (sb : Minix3Superblock) (node : MinixVfsNode) (length offset : ℕ)
    {w : Outcome × List ℕ × RWState} (hlen : w.2.1.length = 10) :
    (finishWrite sb node length offset w).node.id = node.id ∧
      (finishWrite sb node length offset w).node.zones = w.2.1 ∧
      ∀ a, ¬ InInode sb node.id a → (finishWrite sb node length offset w).disk a = w.2.2.disk a := by
  have hframe : ∀ a, ¬ InInode sb node.id a → walkedDisk sb node w a = w.2.2.disk a := by
    intro a ha
    unfold walkedDisk
    split_ifs
    · exact @minixWriteNode_frame sb { node with zones := w.2.1 } a hlen _ ha
    · rfl
  simp only [finishWrite]
  split_ifs with hout hgrow
  · refine ⟨rfl, rfl, fun a ha => ?_⟩
    exact (@minixWriteNode_frame sb (MinixVfsNode.setSize { node with zones := w.2.1 } _) a hlen _
      ha).trans (hframe a ha)
  · exact ⟨rfl, rfl, hframe⟩
  · exact ⟨rfl, rfl, hframe⟩

theorem finishWrite_success (sb : Minix3Superblock) (node : MinixVfsNode) (length offset : ℕ)
    {w : Outcome × List ℕ × RWState} (hout : w.1 = .successExit)
    (hleft : w.2.2.udata.left = 0) :
    (finishWrite sb node length offset w).outcome = .success ∧
      (finishWrite sb node length offset w).ret = length ∧
      (finishWrite sb node length offset w).node.stat.size = max node.stat.size (offset + length) := by
  unfold finishWrite
  rw [if_pos (Or.inr hout)]
  simp only [hleft, Nat.sub_zero]
  split_ifs with hgrow
  · exact ⟨rfl, rfl, (max_eq_right hgrow.le).symm⟩
  · exact ⟨rfl, rfl, (max_eq_left (not_lt.mp hgrow)).symm⟩

/-- A write whose allocations are fresh stores its bytes, unless it runs out of space. -/
theorem minixWriteAt_spec (hl : Layout sb) (hpos : 0 < sb.first_data_zone) (hn : NodeOf sb node)
    (hsep : Separate sb (fileZones disk node ++
      (minixWriteAt sb disk node buff offset).allocated.reduceOption)) :
    FileWritten sb disk node buff offset (minixWriteAt sb disk node buff offset) := by
  by_cases hzero : buff.length = 0
  · have hnil : buff = [] := List.length_eq_zero_iff.mp hzero
    subst hnil
    exact ⟨rfl, hn.zones, by simp [minixWriteAt, minixReadWrite, List.reduceOption],
      fun _ _ _ _ _ => rfl, fun _ _ => rfl, fun h => (by cases h),
        fun _ _ => ⟨rfl, rfl, rfl, by simp [minixWriteAt, minixReadWrite]⟩⟩
  · have hw : Writing offset (writeStart disk buff offset) :=
      ⟨rfl, rfl, Nat.pos_of_ne_zero hzero, Dvd.intro 0 rfl, rfl⟩
    rw [minixWriteAt_eq hzero] at hsep ⊢
    generalize hres : walkSlots (minixRWZoneWalkCallback sb) offset (inodeSlots node.zones)
      (writeStart disk buff offset) = w at hsep ⊢
    have hlog : (walkSlots (minixRWZoneWalkCallback sb) offset (inodeSlots node.zones)
        (writeStart disk buff offset)).2.2.udata.allocated = [] ++ w.2.2.udata.allocated := by
      rw [hres, List.nil_append]
    have hall := finishWrite_allocated sb node buff.length offset w
    have hsep' : Separate sb (fileZones disk node ++ w.2.2.udata.allocated.reduceOption) := hall ▸ hsep
    obtain ⟨out, slots', st', he, hstep⟩ := walkSlots_write hl
      (fun p _ => walkSlot_write hl hpos offset p.1) hw hlog hsep'
    rw [hres] at he
    subst he
    have hlen : (slots'.map Prod.snd).length = 10 := by
      have := congrArg List.length hstep.grown.depths
      simpa [inodeSlots_zip hn.zones, hn.zones] using this
    obtain ⟨hid, hzones, hdisk⟩ :=
      @finishWrite_fields sb node buff.length offset (out, slots'.map Prod.snd, st') hlen
    obtain ⟨h1, h2, h3, h4⟩ := hstep.grown.stored_node _ _ hl hn hzones hsep' hdisk
    refine ⟨hid, h1, hall ▸ h2, hall ▸ h3, fun o ho => ?_, fun hnone => ?_, fun hnone hrange => ?_⟩
    · by_cases hmax : o < maxFileSize
      · rw [h4 o]
        exact hstep.keeps o (by rw [slotsSize_inode hn.zones]; exact hmax) ho
      · unfold fileByte
        rw [slotsByte_beyond (by rw [slotsSize_inode h1]; omega),
          slotsByte_beyond (by rw [slotsSize_inode hn.zones]; omega)]
    · rcases hstep.status with ⟨hout, _⟩ | ⟨hnot, _⟩
      · subst hout
        exact ⟨rfl, rfl⟩
      · exact absurd (hall ▸ hnone) hnot
    rcases hstep.status with ⟨_, hmem⟩ | ⟨_, hs⟩
    · exact absurd hmem (hall ▸ hnone)
    · have hm : RWState.moved (writeStart disk buff offset) (inodeSlots node.zones) = buff.length := by
        simp only [RWState.moved, RWState.skip, slotsSize_inode hn.zones, writeStart]
        omega
      have hout := hs.outcome
      have hleft := hs.left
      rw [hm] at hout hleft
      have hself : (writeStart disk buff offset).udata.left = buff.length := rfl
      simp only [RWState.outcome, hself, Nat.sub_self, if_true] at hout hleft
      obtain ⟨f1, f2, f3⟩ := @finishWrite_success sb node buff.length offset
        (out, slots'.map Prod.snd, st') hout hleft
      refine ⟨f1, f2, by rw [if_neg hzero]; exact f3, fun o ho => (h4 o).trans ?_⟩
      have hb := hs.bytes o (by rw [slotsSize_inode hn.zones]; exact ho)
      have hbuff : (writeStart disk buff offset).udata.buffer = buff := rfl
      rw [hm, hbuff, List.take_length] at hb
      exact hb

end Write

/-! A write inside of one block that holds a byte other than zero finds its zone. -/

section Overwrite
variable {sb : Minix3Superblock} {offset : ℕ} {st : RWState}

def OneBlock (st : RWState) : Prop :=
  RWState.skip st % blockSize + st.udata.left ≤ blockSize

/-- Slots of the given depth that hold a byte in the block of the request are written
without an allocation, and the walk ends. -/
def SlotOverwrites (sb : Minix3Superblock) (offset depth : ℕ) : Prop :=
  ∀ zone o st, Writing offset st → OneBlock st → RWState.skip st < zoneSize depth →
    o / blockSize = RWState.skip st / blockSize → slotByte st.disk depth zone o ≠ 0 →
    (walkSlot (minixRWZoneWalkCallback sb) offset depth zone st).1 = .successExit ∧
      (walkSlot (minixRWZoneWalkCallback sb) offset depth zone st).2.2.udata.allocated =
        st.udata.allocated

theorem walkSlots_overwrite {slots : List Slot} {o : ℕ}
    (hslots : ∀ p ∈ slots, SlotOverwrites sb offset p.1) (hw : Writing offset st) (hone : OneBlock st)
    (hskip : RWState.skip st < slotsSize slots) (ho : o / blockSize = RWState.skip st / blockSize)
    (hbyte : slotsByte st.disk slots o ≠ 0) :
    (walkSlots (minixRWZoneWalkCallback sb) offset slots st).1 = .successExit ∧
      (walkSlots (minixRWZoneWalkCallback sb) offset slots st).2.2.udata.allocated =
        st.udata.allocated := by
  induction slots generalizing st o with
  | nil => simp at hbyte
  | cons p slots ih =>
    have hdvd := blockSize_dvd_zoneSize p.1
    obtain ⟨n, hn⟩ := hdvd
    rw [slotsSize_cons] at hskip
    rw [slotsByte_cons] at hbyte
    by_cases hlt : RWState.skip st < zoneSize p.1
    · have ho' : o < zoneSize p.1 := by
        simp only [blockSize] at *
        omega
      rw [if_pos ho'] at hbyte
      obtain ⟨h1, h2⟩ := hslots p List.mem_cons_self p.2 o st hw hone hlt ho hbyte
      simp only [walkSlots]
      generalize walkSlot (minixRWZoneWalkCallback sb) offset p.1 p.2 st = r at h1 h2 ⊢
      obtain ⟨out, z, st'⟩ := r
      simp only at h1
      subst h1
      exact ⟨rfl, h2⟩
    · have ho' : ¬ o < zoneSize p.1 := by
        simp only [blockSize] at *
        omega
      rw [if_neg ho'] at hbyte
      have hvis : ¬ offset < st.position + zoneSize p.1 := by
        have hpos := zoneSize_pos p.1
        rw [RWState.skip, hw.offset_eq] at hlt
        omega
      have hslot : walkSlot (minixRWZoneWalkCallback sb) offset p.1 p.2 st =
          (.success, p.2, { st with position := st.position + zoneSize p.1 }) := by
        cases hd : p.1 with
        | zero => exact (scanSlot_skip sb p.2 _ hw (hd ▸ hvis)).2
        | succ d => exact (scanSlot_skip sb p.2 _ hw (hd ▸ hvis)).2
      have hnext : Writing offset { st with position := st.position + zoneSize p.1 } :=
        ⟨hw.write, hw.offset_eq, hw.left, Dvd.dvd.add hw.aligned ⟨n, hn⟩, hw.buffer⟩
      have hs : RWState.skip { st with position := st.position + zoneSize p.1 } =
          RWState.skip st - zoneSize p.1 := by
        simp only [RWState.skip]
        omega
      have hone' : OneBlock { st with position := st.position + zoneSize p.1 } := by
        unfold OneBlock at hone ⊢
        rw [hs]
        simp only [blockSize] at *
        omega
      have hrest := ih (fun q hq => hslots q (List.mem_cons_of_mem _ hq)) hnext hone'
        (by rw [hs]; omega) (o := o - zoneSize p.1)
        (by rw [hs]; simp only [blockSize] at *; omega) hbyte
      simp only [walkSlots, hslot]
      exact hrest

theorem walkSlot_overwrite (sb : Minix3Superblock) (offset depth : ℕ) : SlotOverwrites sb offset depth := by
  induction depth with
  | zero =>
    intro zone o st hw hone hskip ho hbyte
    have hz : zone ≠ 0 := by
      rintro rfl
      simp at hbyte
    have hlt : offset < st.position + zoneSize 0 := by
      rw [RWState.skip, hw.offset_eq] at hskip
      omega
    obtain ⟨st', he, _, _, _, hu, _⟩ := transferZone_write sb hw hlt hz
    have hmoved : RWState.moved st [(0, zone)] = st.udata.left := by
      rw [zoneSize_zero] at hskip
      simp only [RWState.moved, slotsSize_cons, slotsSize_nil, zoneSize_zero, OneBlock] at *
      rw [Nat.mod_eq_of_lt hskip] at hone
      omega
    have hleft : st'.udata.left = 0 := by
      rw [hu, hmoved]
      exact Nat.sub_self _
    unfold walkSlot
    rw [scanSlot_visit hlt, callback_pre_full hz hw.left]
    simp only [checked, slotRest, callback_mid hw.left, he, hleft, if_true]
    exact ⟨trivial, by rw [hu]⟩
  | succ depth ih =>
    intro zone o st hw hone hskip ho hbyte
    have hz : zone ≠ 0 := by
      rintro rfl
      simp at hbyte
    have hlt : offset < st.position + zoneSize (depth + 1) := by
      rw [RWState.skip, hw.offset_eq] at hskip
      omega
    have hscan : scanTable (walkSlot (minixRWZoneWalkCallback sb) offset depth)
        (zoneTable st.disk zone) { st with changed := false } =
        walkSlots (minixRWZoneWalkCallback sb) offset (tableSlots depth (zoneTable st.disk zone))
          { st with changed := false } := recScan_eq _ _ _ _ _
    have hslots : ∀ p ∈ tableSlots depth (zoneTable st.disk zone), SlotOverwrites sb offset p.1 := by
      intro p hp
      obtain ⟨z, _, rfl⟩ := List.mem_map.mp hp
      exact ih
    have hw' : Writing offset { st with changed := false } :=
      ⟨hw.write, hw.offset_eq, hw.left, hw.aligned, hw.buffer⟩
    rw [slotByte_succ hz] at hbyte
    have hrun := walkSlots_overwrite (o := o) hslots hw' hone
      (by rw [slotsSize_zoneTable]; exact hskip) ho hbyte
    unfold walkSlot
    rw [scanSlot_visit hlt, callback_pre_full hz hw.left]
    simp only [checked, slotRest, if_neg hz, walkTable, hscan]
    generalize walkSlots (minixRWZoneWalkCallback sb) offset
      (tableSlots depth (zoneTable st.disk zone)) { st with changed := false } = r at hrun ⊢
    obtain ⟨out, zs, st'⟩ := r
    obtain ⟨h1, h2⟩ := hrun
    simp only at h1
    subst h1
    exact ⟨rfl, h2⟩

theorem minixWriteAt_overwrite (sb : Minix3Superblock) (disk : Store) {node : MinixVfsNode}
    {buff : List UInt8} {o : ℕ} (hz : node.zones.length = 10) (hmax : offset < maxFileSize)
    (hone : offset % blockSize + buff.length ≤ blockSize) (ho : o / blockSize = offset / blockSize)
    (hbyte : fileByte disk node o ≠ 0) : (minixWriteAt sb disk node buff offset).allocated = [] := by
  by_cases hzero : buff.length = 0
  · have hnil : buff = [] := List.length_eq_zero_iff.mp hzero
    subst hnil
    rfl
  · have hw : Writing offset (writeStart disk buff offset) :=
      ⟨rfl, rfl, Nat.pos_of_ne_zero hzero, Dvd.intro 0 rfl, rfl⟩
    rw [minixWriteAt_eq hzero, finishWrite_allocated]
    exact (walkSlots_overwrite (fun p _ => walkSlot_overwrite sb offset p.1) hw hone
      (by rw [slotsSize_inode hz]; exact hmax) ho hbyte).2

end Overwrite

end SomeOs.Minix

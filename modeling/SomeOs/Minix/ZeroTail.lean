import SomeOs.Minix.DeviceFaults
import SomeOs.Minix.Shortage
import SomeOs.Minix.ZoneMap

/-! # The bytes behind the end of a file

New zones are zeroed and a truncation zeroes what it cuts off, so that a file that
becomes longer shows zeros. A write that runs out of zones after it has stored
bytes behind the end does not move the end, and leaves these bytes there; so does one
in which the device fails.
-/
namespace SomeOs.Minix
open ByteStore Transition

def ZeroTail (disk : Store) (node : MinixVfsNode) : Prop :=
  ∀ o, node.stat.size ≤ o → fileByte disk node o = 0

/-- The free zones are enough for the write, or what they are enough for are zeros
where it is behind the end of the file. -/
def WriteFits (sb : Minix3Superblock) (disk : Store) (node : MinixVfsNode) (buff : List UInt8)
    (offset : ℕ) : Prop :=
  fileMissing disk node offset (offset + buff.length) ≤ freeZones sb disk ∨
    ∀ o < maxFileSize, node.stat.size ≤ o → offset ≤ o →
      fileMissing disk node offset (o + 1) ≤ freeZones sb disk → (buff[o - offset]?).getD 0 = 0

def FittingIo (sb : Minix3Superblock) (s : FsState) : FileOp → Prop
  | .write i buff offset => ∀ node, s.nodes[i]? = some node → WriteFits sb s.disk node buff offset
  | _ => True

section Files
variable {sb : Minix3Superblock} {disk : Store} {node : MinixVfsNode} {buff : List UInt8}
variable {offset length o : ℕ}

theorem fileByte_beyond (hz : node.zones.length = 10) (ho : maxFileSize ≤ o) :
    fileByte disk node o = 0 := by
  apply slotsByte_beyond
  rw [slotsSize_inode hz]
  exact ho

theorem FileSpent.byte_kept {r : IoResult} (h : FileSpent sb disk node buff offset r)
    (hz : node.zones.length = 10) (hz' : r.node.zones.length = 10)
    (hnone : offset ≤ o → buff[o - offset]? = none) :
    fileByte r.disk r.node o = fileByte disk node o := by
  by_cases hmax : o < maxFileSize
  · rw [h.bytes o hmax]
    split_ifs with hin
    · rw [hnone hin.1, Option.getD_none]
    · rfl
  · rw [fileByte_beyond hz (not_lt.mp hmax), fileByte_beyond hz' (not_lt.mp hmax)]

/-- After a write there are zeros behind the end exactly when the write fits. -/
theorem FileSpent.zeroTail_iff {r : IoResult} (h : FileSpent sb disk node buff offset r)
    (hz : node.zones.length = 10) (hz' : r.node.zones.length = 10)
    (hsame : none ∈ r.allocated → r.node.stat = node.stat) (htail : ZeroTail disk node) :
    ZeroTail r.disk r.node ↔ WriteFits sb disk node buff offset := by
  by_cases hnone : none ∈ r.allocated
  · have hfew : ¬ fileMissing disk node offset (offset + buff.length) ≤ freeZones sb disk :=
      not_le.mpr (h.failed.mp hnone)
    have hsize : r.node.stat.size = node.stat.size := by rw [hsame hnone]
    constructor
    · intro hr
      refine Or.inr (fun o hmax ho hge hroom => ?_)
      have hzero := hr o (hsize ▸ ho)
      rw [h.bytes o hmax, if_pos ⟨hge, hroom⟩, htail o ho] at hzero
      exact hzero
    · rintro (hfit | hfit) o ho
      · exact absurd hfit hfew
      · rw [hsize] at ho
        by_cases hmax : o < maxFileSize
        · rw [h.bytes o hmax, htail o ho]
          split_ifs with hin
          · exact hfit o hmax ho hin.1 hin.2
          · rfl
        · exact fileByte_beyond hz' (not_lt.mp hmax)
  · have hfit : WriteFits sb disk node buff offset := Or.inl (not_lt.mp (fun hlt => hnone (h.failed.mpr hlt)))
    obtain ⟨_, hret, hsize⟩ := h.success hnone
    refine ⟨fun _ => hfit, fun _ o ho => ?_⟩
    by_cases hmax : o < maxFileSize
    · have hold : node.stat.size ≤ o ∧ (offset ≤ o → buff.length ≤ o - offset) := by
        rw [hsize, hret] at ho
        split_ifs at ho with h0
        · exact ⟨ho, fun _ => by omega⟩
        · exact ⟨by omega, fun hge => by omega⟩
      have hgone : offset ≤ o → buff[o - offset]? = none := fun hge => List.getElem?_eq_none (hold.2 hge)
      rw [h.byte_kept hz hz' hgone]
      exact htail o hold.1
    · exact fileByte_beyond hz' (not_lt.mp hmax)

theorem cutSlots_byte (disk : Store) (l : List Slot) (start o : ℕ) :
    slotsByte disk (cutSlots length l start) o = slotsByte disk l o ∨
      slotsByte disk (cutSlots length l start) o = 0 := by
  induction l generalizing start o with
  | nil => exact Or.inl rfl
  | cons p l ih =>
    have hcons : cutSlots length (p :: l) start =
        cutSlot length (p, start) :: cutSlots length l (start + zoneSize p.1) := rfl
    have hfst : (cutSlot length (p, start)).1 = p.1 := rfl
    rw [hcons, slotsByte_cons, slotsByte_cons, hfst]
    by_cases hlt : o < zoneSize p.1
    · rw [if_pos hlt, if_pos hlt]
      simp only [cutSlot]
      split_ifs with hkeep
      · exact Or.inl rfl
      · exact Or.inr (slotByte_hole _ _ _)
    · rw [if_neg hlt, if_neg hlt]
      exact ih _ _

theorem FileTruncated.byte {r : TruncResult} (h : FileTruncated sb disk node length r) (o : ℕ) :
    (length ≤ o → fileByte r.disk r.node o = 0) ∧
      (fileByte r.disk r.node o = fileByte disk node o ∨ fileByte r.disk r.node o = 0) := by
  by_cases hmax : o < maxFileSize
  · rw [h.bytes o hmax]
    refine ⟨fun hle => if_neg (by omega), ?_⟩
    split_ifs
    · exact cutSlots_byte disk _ 0 o
    · exact Or.inr rfl
  · have hzero := @fileByte_beyond r.disk r.node o h.zones (not_lt.mp hmax)
    exact ⟨fun _ => hzero, Or.inr hzero⟩

end Files

section Run
variable {sb : Minix3Superblock} {s t : FsState} {op : FileOp}

theorem Stocked.written {i : ℕ} {node : MinixVfsNode} (hl : Layout sb) (hle : sb.zones ≤ 2 ^ 32)
    (hwf : s.WellFormed sb) (hs : Stocked sb s.zones s.disk) (hi : s.nodes[i]? = some node)
    (buff : List UInt8) (offset : ℕ) :
    FileWritten sb s.disk node buff offset (minixWriteAt sb s.disk node buff offset) ∧
      FileSpent sb s.disk node buff offset (minixWriteAt sb s.disk node buff offset) ∧
      FreshZones sb s (minixWriteAt sb s.disk node buff offset) := by
  have hpos := hl.two_le
  have hn := hwf.nodes node (List.mem_of_getElem? hi)
  have hfresh : FreshZones sb s (minixWriteAt sb s.disk node buff offset) :=
    hs.fresh hle (minixWriteAt_taken hl (by omega) hle hn (hs.of_node hi) buff offset)
  exact ⟨minixWriteAt_spec hl (by omega) hn (hfresh.of_node hi),
    minixWriteAt_spent hl (by omega) hle hn (hs.of_node hi), hfresh⟩

theorem Stocked.truncated {i length : ℕ} {node : MinixVfsNode} (hl : Layout sb)
    (hwf : s.WellFormed sb) (hs : Stocked sb s.zones s.disk) (hi : s.nodes[i]? = some node)
    (hout : (minixTrunc sb s.disk node length).outcome ≠ .divideByZero) :
    FileTruncated sb s.disk node length (minixTrunc sb s.disk node length) := by
  have hn := hwf.nodes node (List.mem_of_getElem? hi)
  have hs' := hs.of_node hi
  exact minixTrunc_spec hl hn ⟨hs'.separate, fun z hz => (hs'.set z hz).1⟩
    (fun hd => hout (minixTrunc_divides hn.zones hd))

theorem fsStep_invariant (hl : Layout sb) (hle : sb.zones ≤ 2 ^ 32) (hwf : s.WellFormed sb)
    (hs : Stocked sb s.zones s.disk) (hstep : fsStep sb s op = some t) :
    t.WellFormed sb ∧ Stocked sb t.zones t.disk := by
  cases op with
  | write i buff offset =>
    have hok : Changes s (.write i buff offset) := trivial
    exact fsStep_stocked hl hle hwf hs hok hstep
  | trunc i length =>
    have hok : Changes s (.trunc i length) := trivial
    exact fsStep_stocked hl hle hwf hs hok hstep
  | read i offset length =>
    obtain ⟨node, hi, rfl⟩ := Option.map_eq_some_iff.mp hstep
    obtain ⟨hdisk, hnode⟩ := minixReadAt_same sb s.disk offset length
      (hwf.nodes node (List.mem_of_getElem? hi)).zones
    simp only [hdisk, hnode, set_same hi]
    exact ⟨hwf, hs⟩

/-- What an operation does to one of the files. -/
inductive FileStep (sb : Minix3Superblock) (s t : FsState) (i : ℕ) (node node' : MinixVfsNode) :
    FileOp → Prop
  | same {op : FileOp} (hstat : node'.stat = node.stat)
      (hbytes : ∀ o, fileByte t.disk node' o = fileByte s.disk node o) : FileStep sb s t i node node' op
  | written {buff : List UInt8} {offset : ℕ} {r : IoResult}
      (hw : FileWritten sb s.disk node buff offset r) (hr : FileSpent sb s.disk node buff offset r)
      (hdisk : t.disk = r.disk) (hnode : node' = r.node) : FileStep sb s t i node node' (.write i buff offset)
  | truncated {length : ℕ} {r : TruncResult} (hr : FileTruncated sb s.disk node length r)
      (hdisk : t.disk = r.disk) (hnode : node' = r.node) : FileStep sb s t i node node' (.trunc i length)

theorem fsStep_file {j : ℕ} {node' : MinixVfsNode} (hl : Layout sb) (hle : sb.zones ≤ 2 ^ 32)
    (hwf : s.WellFormed sb) (hs : Stocked sb s.zones s.disk) (hstep : fsStep sb s op = some t)
    (hj : t.nodes[j]? = some node') :
    ∃ node, s.nodes[j]? = some node ∧ FileStep sb s t j node node' op := by
  cases op with
  | write i buff offset =>
    obtain ⟨node, hi, rfl⟩ := Option.map_eq_some_iff.mp hstep
    obtain ⟨hw, hr, hfresh⟩ := hs.written hl hle hwf hi buff offset
    by_cases hne : j = i
    · subst hne
      rw [List.getElem?_set_self (List.getElem?_eq_some_iff.mp hi).1, Option.some_inj] at hj
      exact ⟨node, hi, .written hw hr rfl hj.symm⟩
    · rw [List.getElem?_set_ne (Ne.symm hne)] at hj
      exact ⟨node', hj, .same rfl (hwf.others hl hi hfresh.not_mem hw.frame hj hne).2⟩
  | read i offset length =>
    obtain ⟨node, hi, rfl⟩ := Option.map_eq_some_iff.mp hstep
    obtain ⟨hdisk, hnode⟩ := minixReadAt_same sb s.disk offset length
      (hwf.nodes node (List.mem_of_getElem? hi)).zones
    simp only [hnode, set_same hi] at hj
    exact ⟨node', hj, .same rfl (fun o => by simp only [hdisk])⟩
  | trunc i length =>
    obtain ⟨node, hi, hstep⟩ := Option.bind_eq_some_iff.mp hstep
    simp only at hstep
    split_ifs at hstep with hout
    cases hstep
    have hr := hs.truncated hl hwf hi hout
    by_cases hne : j = i
    · subst hne
      rw [List.getElem?_set_self (List.getElem?_eq_some_iff.mp hi).1, Option.some_inj] at hj
      exact ⟨node, hi, .truncated hr rfl hj.symm⟩
    · rw [List.getElem?_set_ne (Ne.symm hne)] at hj
      exact ⟨node', hj, .same rfl (hwf.others hl hi (by simp) hr.frame hj hne).2⟩

structure ZeroTails (sb : Minix3Superblock) (s : FsState) : Prop where
  wf : s.WellFormed sb
  stocked : Stocked sb s.zones s.disk
  tails : ∀ node ∈ s.nodes, ZeroTail s.disk node

theorem ZeroTails.step (hl : Layout sb) (hle : sb.zones ≤ 2 ^ 32) (h : ZeroTails sb s)
    (hok : FittingIo sb s op) (hstep : fsStep sb s op = some t) : ZeroTails sb t := by
  obtain ⟨hwf, hs⟩ := fsStep_invariant hl hle h.wf h.stocked hstep
  refine ⟨hwf, hs, fun node' hmem => ?_⟩
  obtain ⟨j, hj⟩ := List.mem_iff_getElem?.mp hmem
  obtain ⟨node, hnode, hfile⟩ := fsStep_file hl hle h.wf h.stocked hstep hj
  have hz := (h.wf.nodes node (List.mem_of_getElem? hnode)).zones
  have htail := h.tails node (List.mem_of_getElem? hnode)
  cases hfile with
  | same hstat hbytes =>
    intro o ho
    rw [hbytes o]
    exact htail o (hstat ▸ ho)
  | written hw hr hdisk hnode' =>
    rw [hdisk, hnode']
    exact (hr.zeroTail_iff hz hw.length (fun hn => (hw.failed hn).2) htail).mpr (hok node hnode)
  | truncated hr hdisk hnode' =>
    rw [hdisk, hnode']
    intro o ho
    rw [hr.size] at ho
    exact (hr.byte o).1 ho

end Run

theorem emptyNode_zeros (disk : Store) (id o : ℕ) : fileByte disk (emptyNode id) o = 0 := by
  apply slotsByte_holes
  intro p hp
  have hmem : p.2 ∈ (inodeSlots (emptyNode id).zones).map Prod.snd := List.mem_map_of_mem hp
  rw [map_snd_inodeSlots rfl] at hmem
  exact List.eq_of_mem_replicate hmem

def emptyFile (map : UInt8) : FsState := oneFile map 0 (List.replicate 10 0)

theorem emptyFile_zeroTails {map : UInt8} (hmap : ∀ b < 5, map.toNat.testBit b = true) :
    ZeroTails smallSb (emptyFile map) := by
  have hnode : ∀ node ∈ (emptyFile map).nodes, node = emptyNode 1 := by
    intro node hn
    simpa [emptyFile, oneFile, emptyNode] using hn
  have hzones : (emptyFile map).zones = [] := rfl
  refine ⟨⟨?_, ?_, ?_⟩, ⟨?_, ?_, ?_⟩, ?_⟩
  · intro node hn
    rw [hnode node hn]
    exact ⟨by decide, by decide, rfl⟩
  · simp [emptyFile, oneFile]
  · rw [hzones]
    exact ⟨List.nodup_nil, by simp⟩
  · rw [hzones]
    exact ⟨List.nodup_nil, by simp⟩
  · simp [hzones]
  · intro z hz hbit
    by_contra hlt
    have hlt : z < 5 := not_le.mp hlt
    have hdiv : z / 8 = 0 := by omega
    have hmod : z % 8 = z := by omega
    have hset := hmap z hlt
    simp [mapBit, emptyFile, oneFile, zoneMapOffset, smallSb, blockSize, hdiv, hmod, hset] at hbit
  · intro node hn o _
    rw [hnode node hn]
    exact emptyNode_zeros _ 1 o

end SomeOs.Minix

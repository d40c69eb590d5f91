import SomeOs.Minix.Evict
import SomeOs.Minix.ZeroTail

/-! # Writing at the position of an open file

A position is any number of 64 bits. The sums of a write are made in 64 bits too;
they do not wrap, since nothing is transferred from the end of the mappable range
on. There, however, a write without any transfer still moves the end of the file.
-/
namespace SomeOs.Minix
open ByteStore
open Vfs (ErrorKind User canAccess)

inductive VfsSeekWhence where
  | set
  | cur
  | fromEnd
  | other (value : ℕ)

structure VfsFile where
  node : ℕ
  offset : UInt64

def vfsFileSeek (stat : VfsStat) (file : VfsFile) (offset : UInt64) :
    VfsSeekWhence → Except ErrorKind UInt64 × VfsFile
  | .cur => (.ok (file.offset + offset), { file with offset := file.offset + offset })
  | .set => (.ok offset, { file with offset := offset })
  | .fromEnd =>
    (.ok (UInt64.ofNat stat.size + offset), { file with offset := UInt64.ofNat stat.size + offset })
  | .other _ => (.error .EINVAL, file)

def Errno.kind : Errno → ErrorKind
  | .ENOENT => .ENOENT
  | Errno.EIO => ErrorKind.EIO
  | .ENOSPC => .ENOSPC

/-- `minixReadWrite` for a write, with the end of the transfer in a `size_t`. -/
def minixReadWrite64 (sb : Minix3Superblock) (disk : Store) (node : MinixVfsNode) (buff : List UInt8)
    (offset : UInt64) : IoResult :=
  if buff.length = 0 then ⟨.success, 0, buff, node, disk, []⟩
  else
    let r := minixZoneWalk sb (minixRWZoneWalkCallback sb) disk node offset.toNat
      ⟨offset.toNat, buff.length, true, buff, []⟩
    if r.outcome = .success ∨ r.outcome = .successExit then
      let length := buff.length - r.udata.left
      let stop := offset + UInt64.ofNat length
      if r.node.stat.size < stop.toNat then
        let node := r.node.setSize stop.toNat
        ⟨.success, length, r.udata.buffer, node, minixWriteNode sb r.disk node, r.udata.allocated⟩
      else ⟨.success, length, r.udata.buffer, r.node, r.disk, r.udata.allocated⟩
    else ⟨r.outcome, 0, r.udata.buffer, r.node, r.disk, r.udata.allocated⟩

def MinixVfsNode.touch (node : MinixVfsNode) (time ctime : ℕ) : MinixVfsNode :=
  { node with stat := { node.stat with mtime := time, atime := time, ctime := ctime } }

def IoResult.result (r : IoResult) : Except ErrorKind ℕ :=
  match r.outcome with
  | .error e => .error e.kind
  | _ => .ok r.ret

def vfsNodeWriteAt (sb : Minix3Superblock) (process : Option User) (time ctime : ℕ) (disk : Store)
    (node : MinixVfsNode) (buff : List UInt8) (offset : UInt64) :
    Except ErrorKind ℕ × MinixVfsNode × Store :=
  match canAccess node.stat process { w := true } with
  | .error e => (.error e, node, disk)
  | .ok _ =>
    let r := minixReadWrite64 sb disk (node.touch time ctime) buff offset
    (r.result, r.node, r.disk)

/-- The position advances by what was written. -/
def vfsFileWrite (sb : Minix3Superblock) (process : Option User) (time ctime : ℕ) (s : FsState)
    (file : VfsFile) (buff : List UInt8) : Option (Except ErrorKind ℕ × VfsFile × FsState) :=
  (s.nodes[file.node]?).map fun node =>
    let r := vfsNodeWriteAt sb process time ctime s.disk node buff file.offset
    let s' : FsState := ⟨r.2.2, s.nodes.set file.node r.2.1⟩
    match r.1 with
    | .ok written => (.ok written, { file with offset := file.offset + UInt64.ofNat written }, s')
    | .error e => (.error e, file, s')

/-- What a write of `n` bytes of the buffer is to do to its file and to the position. -/
structure WriteRight (sb : Minix3Superblock) (s s' : FsState) (file file' : VfsFile)
    (node node' : MinixVfsNode) (buff : List UInt8) (n : ℕ) : Prop where
  le : n ≤ buff.length
  size : node'.stat.size =
    if n = 0 then node.stat.size else max node.stat.size (file.offset.toNat + n)
  readable : (minixReadAt sb s'.disk node' file.offset.toNat n).buffer = buff.take n
  others : ∀ o, o < file.offset.toNat ∨ file.offset.toNat + n ≤ o →
    fileByte s'.disk node' o = fileByte s.disk node o
  position : file'.offset.toNat = file.offset.toNat + n

def WriteHarmless (sb : Minix3Superblock) (process : Option User) (time ctime : ℕ) (s : FsState)
    (file : VfsFile) (node : MinixVfsNode) (buff : List UInt8) : Prop :=
  ∀ n file' s', vfsFileWrite sb process time ctime s file buff = some (.ok n, file', s') →
    ∃ node', s'.nodes[file.node]? = some node' ∧ WriteRight sb s s' file file' node node' buff n

/-- The write is refused, empty, inside of the mappable range or not behind the end. -/
def WriteInRange (process : Option User) (file : VfsFile) (node : MinixVfsNode) (buff : List UInt8) :
    Prop :=
  (∃ e, canAccess node.stat process { w := true } = .error e) ∨ buff.length = 0 ∨
    file.offset.toNat < maxFileSize ∨ file.offset.toNat ≤ node.stat.size

section Sums
variable {sb : Minix3Superblock} {disk : Store} {node : MinixVfsNode} {buff : List UInt8}
variable {offset : UInt64}

theorem toNat_add_ofNat {n : ℕ} (h : offset.toNat + n < 2 ^ 64) :
    (offset + UInt64.ofNat n).toNat = offset.toNat + n := by
  rw [UInt64.toNat_add, UInt64.toNat_ofNat', Nat.mod_eq_of_lt (by omega : n < 2 ^ 64), Nat.mod_eq_of_lt h]

theorem FileSpent.ret_le {offset : ℕ} {r : IoResult} (h : FileSpent sb disk node buff offset r)
    (hnone : none ∉ r.allocated) : r.ret ≤ maxFileSize - offset := by
  rw [(h.success hnone).2.1]
  omega

/-- The sums of a write do not wrap. -/
theorem minixReadWrite64_eq (hl : Layout sb) (hpos : 0 < sb.first_data_zone) (hle : sb.zones ≤ 2 ^ 32)
    (hn : NodeOf sb node) (hs : Stocked sb (fileZones disk node) disk) :
    minixReadWrite64 sb disk node buff offset = minixWriteAt sb disk node buff offset.toNat := by
  by_cases hzero : buff.length = 0
  · simp only [minixReadWrite64, minixWriteAt, minixReadWrite, if_pos hzero, if_true]
  · have hspent := @minixWriteAt_spent sb disk node buff offset.toNat hl hpos hle hn hs
    have hwritten := @minixWriteAt_spec sb disk node buff offset.toNat hl hpos hn
      (hs.fresh hle (minixWriteAt_taken hl hpos hle hn hs buff offset.toNat))
    unfold minixReadWrite64
    rw [if_neg hzero]
    unfold minixWriteAt minixReadWrite at hspent hwritten ⊢
    simp only [if_true, if_neg hzero, true_and] at hspent hwritten ⊢
    generalize minixZoneWalk sb (minixRWZoneWalkCallback sb) disk node offset.toNat
      ⟨offset.toNat, buff.length, true, buff, []⟩ = r at hspent hwritten ⊢
    by_cases hout : r.outcome = .success ∨ r.outcome = .successExit
    · simp only [if_pos hout] at hspent hwritten ⊢
      have hle' : buff.length - r.udata.left ≤ maxFileSize - offset.toNat := by
        split_ifs at hspent hwritten
        all_goals
          refine hspent.ret_le (fun hnone => ?_)
          have herr := (hwritten.failed hnone).1
          cases herr
      have hlt := offset.toNat_lt
      have hstop : (offset + UInt64.ofNat (buff.length - r.udata.left)).toNat =
          offset.toNat + (buff.length - r.udata.left) := by
        apply toNat_add_ofNat
        simp only [maxFileSize] at hle'
        omega
      simp only [hstop]
    · simp only [if_neg hout]

end Sums

section Call
variable {sb : Minix3Superblock} {process : Option User} {time ctime n : ℕ} {s s' : FsState}
variable {file file' : VfsFile} {node : MinixVfsNode} {buff : List UInt8}

theorem minixReadAt_zero (sb : Minix3Superblock) (disk : Store) (node : MinixVfsNode) (offset : ℕ) :
    (minixReadAt sb disk node offset 0).buffer = [] := by
  simp [minixReadAt, minixReadWrite]

def callWrite (sb : Minix3Superblock) (time ctime : ℕ) (s : FsState) (file : VfsFile)
    (node : MinixVfsNode) (buff : List UInt8) : IoResult :=
  minixWriteAt sb s.disk (node.touch time ctime) buff file.offset.toNat

theorem callWrite_spec (hl : Layout sb) (hle : sb.zones ≤ 2 ^ 32) (hwf : s.WellFormed sb)
    (hs : Stocked sb (fileZones s.disk node) s.disk) (hi : s.nodes[file.node]? = some node) :
    FileWritten sb s.disk (node.touch time ctime) buff file.offset.toNat
        (callWrite sb time ctime s file node buff) ∧
      FileSpent sb s.disk (node.touch time ctime) buff file.offset.toNat
        (callWrite sb time ctime s file node buff) := by
  have hpos := hl.two_le
  have hn := hwf.nodes node (List.mem_of_getElem? hi)
  have hn' : NodeOf sb (node.touch time ctime) := ⟨hn.id_pos, hn.id_le, hn.zones⟩
  have hs' : Stocked sb (fileZones s.disk (node.touch time ctime)) s.disk := hs
  have ht := minixWriteAt_taken hl (by omega) hle hn' hs' buff file.offset.toNat
  exact ⟨minixWriteAt_spec hl (by omega) hn' (hs'.fresh hle ht),
    minixWriteAt_spent hl (by omega) hle hn' hs'⟩

/-- A call succeeds when it may write and finds the zones that it needs. -/
theorem vfsFileWrite_ok_iff (hl : Layout sb) (hle : sb.zones ≤ 2 ^ 32) (hwf : s.WellFormed sb)
    (hs : Stocked sb (fileZones s.disk node) s.disk) (hi : s.nodes[file.node]? = some node) :
    vfsFileWrite sb process time ctime s file buff = some (.ok n, file', s') ↔
      canAccess node.stat process { w := true } = .ok () ∧
        none ∉ (callWrite sb time ctime s file node buff).allocated ∧
        n = (callWrite sb time ctime s file node buff).ret ∧
        file' = { file with offset := file.offset + UInt64.ofNat n } ∧
        s' = ⟨(callWrite sb time ctime s file node buff).disk,
          s.nodes.set file.node (callWrite sb time ctime s file node buff).node⟩ := by
  obtain ⟨hw, hr⟩ := @callWrite_spec sb time ctime s file node buff hl hle hwf hs hi
  have hpos := hl.two_le
  have hn := hwf.nodes node (List.mem_of_getElem? hi)
  have hn' : NodeOf sb (node.touch time ctime) := ⟨hn.id_pos, hn.id_le, hn.zones⟩
  have h64 : minixReadWrite64 sb s.disk (node.touch time ctime) buff file.offset =
      callWrite sb time ctime s file node buff :=
    minixReadWrite64_eq hl (by omega) hle hn' hs
  unfold vfsFileWrite vfsNodeWriteAt
  simp only [hi, Option.map_some]
  cases hacc : canAccess node.stat process { w := true } with
  | error e => simp
  | ok u =>
    cases u
    simp only [h64, true_and]
    by_cases hnone : none ∈ (callWrite sb time ctime s file node buff).allocated
    · have hres : (callWrite sb time ctime s file node buff).result = .error .ENOSPC := by
        unfold IoResult.result
        rw [(hw.failed hnone).1]
        rfl
      simp [hres, hnone]
    · have hres : (callWrite sb time ctime s file node buff).result =
          .ok (callWrite sb time ctime s file node buff).ret := by
        unfold IoResult.result
        rw [(hr.success hnone).1]
      simp only [hres, Option.some.injEq, Prod.mk.injEq, Except.ok.injEq, hnone, not_false_eq_true, true_and]
      constructor
      · rintro ⟨rfl, rfl, rfl⟩
        exact ⟨rfl, rfl, rfl⟩
      · rintro ⟨rfl, rfl, rfl⟩
        exact ⟨rfl, rfl, rfl⟩

/-- The bytes of a write that did not fail are read again. -/
theorem FileSpent.readBack {disk : Store} {offset : ℕ} {r : IoResult}
    (h : FileSpent sb disk node buff offset r) (hnone : none ∉ r.allocated)
    (hz : r.node.zones.length = 10) : (minixReadAt sb r.disk r.node offset r.ret).buffer = buff.take r.ret := by
  by_cases hzero : r.ret = 0
  · rw [hzero, minixReadAt_zero, List.take_zero]
  · obtain ⟨_, hret, hsize⟩ := h.success hnone
    have hrange : offset + r.ret ≤ maxFileSize := by omega
    have hlen : buff.length ≠ 0 := by omega
    rw [if_neg hlen] at hsize
    have hmin : min r.ret (r.node.stat.size - offset) = r.ret := by omega
    have hroom : fileMissing disk node offset (offset + buff.length) ≤ freeZones sb disk :=
      not_lt.mp (fun hlt => hnone (h.failed.mpr hlt))
    rw [minixReadAt_spec sb r.disk offset r.ret hz hrange, hmin]
    apply List.ext_getElem?
    intro k
    by_cases hk : k < r.ret
    · have hmissing : fileMissing disk node offset (offset + k + 1) ≤ freeZones sb disk :=
        (fileMissing_mono (by omega)).trans hroom
      have hsome : k < buff.length := by omega
      rw [read_getElem? hk, List.getElem?_take_of_lt hk, h.bytes _ (by omega),
        if_pos ⟨Nat.le_add_right _ _, hmissing⟩, Nat.add_sub_cancel_left,
        List.getElem?_eq_getElem hsome, Option.getD_some]
    · rw [List.getElem?_eq_none (by simp; omega), List.getElem?_eq_none (by simp; omega)]

theorem finishWrite_record (sb : Minix3Superblock) (node : MinixVfsNode) (length offset : ℕ)
    (w : Outcome × List ℕ × RWState)
    (h : (finishWrite sb node length offset w).node.stat.size ≠ node.stat.size) :
    ∃ disk, (finishWrite sb node length offset w).disk =
      minixWriteNode sb disk (finishWrite sb node length offset w).node := by
  simp only [finishWrite] at h ⊢
  split_ifs at h ⊢
  · exact ⟨_, rfl⟩
  · exact absurd rfl h
  · exact absurd rfl h

theorem minixWriteAt_record {disk : Store} {offset : ℕ}
    (hz : (minixWriteAt sb disk node buff offset).node.zones.length = 10)
    (hgrow : (minixWriteAt sb disk node buff offset).node.stat.size ≠ node.stat.size) :
    readWord (minixWriteAt sb disk node buff offset).disk
        (offsetForINode sb (minixWriteAt sb disk node buff offset).node.id + 8) =
      (minixWriteAt sb disk node buff offset).node.stat.size % 2 ^ 32 := by
  by_cases hzero : buff.length = 0
  · exact absurd (by simp [minixWriteAt, minixReadWrite, hzero]) hgrow
  · rw [minixWriteAt_eq hzero] at hz hgrow ⊢
    obtain ⟨d, hd⟩ := finishWrite_record sb node buff.length offset _ hgrow
    exact (recorded_of_writeNode hz (fun i _ => congrFun hd _)).size

/-- A write at the position of a file whose zones are marked in the map is harmless exactly
when it is in range. Whenever it moves the end, the record of the inode has the size modulo
2^32. -/
theorem vfsFileWrite_harmless_iff (hl : Layout sb) (hle : sb.zones ≤ 2 ^ 32) (hwf : s.WellFormed sb)
    (hs : Stocked sb (fileZones s.disk node) s.disk) (hi : s.nodes[file.node]? = some node) (process : Option User)
    (time ctime : ℕ) (buff : List UInt8) :
    (WriteHarmless sb process time ctime s file node buff ↔ WriteInRange process file node buff) ∧
      ∀ n file' s' node', vfsFileWrite sb process time ctime s file buff = some (.ok n, file', s') →
        s'.nodes[file.node]? = some node' → node'.stat.size ≠ node.stat.size →
          readWord s'.disk (offsetForINode sb node'.id + 8) = node'.stat.size % 2 ^ 32 := by
  obtain ⟨hw, hr⟩ := @callWrite_spec sb time ctime s file node buff hl hle hwf hs hi
  have hok := fun n file' s' =>
    @vfsFileWrite_ok_iff sb process time ctime n s s' file file' node buff hl hle hwf hs hi
  have hlt := (List.getElem?_eq_some_iff.mp hi).1
  have hz := (hwf.nodes node (List.mem_of_getElem? hi)).zones
  refine ⟨⟨fun hharm => ?_, fun hin n file' s' hcall => ?_⟩, fun n file' s' node' hcall hnode' hgrow => ?_⟩
  · -- Behind the range nothing is missing, nothing is transferred and the end moves.
    unfold WriteInRange
    by_contra hout
    push Not at hout
    obtain ⟨hacc, hlen, hmax, hsize⟩ := hout
    have hacc : canAccess node.stat process { w := true } = .ok () := by
      cases h : canAccess node.stat process { w := true } with
      | error e => exact absurd h (hacc e)
      | ok u => rfl
    have hmissing : fileMissing s.disk (node.touch time ctime) file.offset.toNat
        (file.offset.toNat + buff.length) = 0 := by
      apply slotsMissing_none
      right
      have hz' : (node.touch time ctime).zones.length = 10 := hz
      rw [slotsSize_inode hz']
      exact hmax
    have hnone : none ∉ (callWrite sb time ctime s file node buff).allocated := by
      rw [hr.failed, hmissing]
      omega
    obtain ⟨_, hret, hgrown⟩ := hr.success hnone
    obtain ⟨node', hnode', hright⟩ := hharm _ _ _ ((hok _ _ _).mpr ⟨hacc, hnone, rfl, rfl, rfl⟩)
    obtain rfl : (callWrite sb time ctime s file node buff).node = node' := by
      simpa [List.getElem?_set_self hlt] using hnode'
    have hzero : (callWrite sb time ctime s file node buff).ret = 0 := by omega
    have hsame := hright.size
    have htouch : (node.touch time ctime).stat.size = node.stat.size := rfl
    rw [hzero, if_pos rfl, hgrown, if_neg hlen, hzero, htouch] at hsame
    omega
  · obtain ⟨hacc, hnone, rfl, rfl, rfl⟩ := (hok n file' s').mp hcall
    obtain ⟨_, hret, hsize⟩ := hr.success hnone
    have htouch : (node.touch time ctime).stat.size = node.stat.size := rfl
    refine ⟨_, List.getElem?_set_self hlt, ⟨by omega, ?_, hr.readBack hnone hw.length, fun o ho => ?_, ?_⟩⟩
    · rw [hsize, htouch]
      rcases hin with ⟨e, he⟩ | h0 | hmax | hend
      · rw [hacc] at he
        cases he
      · rw [if_pos h0, if_pos (by omega)]
      · by_cases h0 : buff.length = 0
        · rw [if_pos h0, if_pos (by omega)]
        · rw [if_neg h0, if_neg (by omega)]
      · split_ifs <;> omega
    · by_cases hmax : o < maxFileSize
      · apply hr.byte_kept hz hw.length
        intro hge
        rw [List.getElem?_eq_none_iff]
        omega
      · have hge : maxFileSize ≤ o := not_lt.mp hmax
        exact (fileByte_beyond hw.length hge).trans (fileByte_beyond hz hge).symm
    · have := file.offset.toNat_lt
      apply toNat_add_ofNat
      simp only [maxFileSize] at hret
      omega
  · obtain ⟨hacc, hnone, rfl, rfl, rfl⟩ := (hok n file' s').mp hcall
    obtain rfl : (callWrite sb time ctime s file node buff).node = node' := by
      simpa [List.getElem?_set_self hlt] using hnode'
    exact minixWriteAt_record hw.length hgrow

end Call

/-- Two bytes across the end of the first block. -/
theorem vfsFileWrite_harmless_two_bytes :
    WriteHarmless smallSb none 0 0 (emptyFile 31) ⟨0, 1023⟩ (emptyNode 1) [7, 7] := by
  have hs : ZeroTails smallSb (emptyFile 31) := emptyFile_zeroTails (by decide)
  have hi : (emptyFile 31).nodes[(⟨0, 1023⟩ : VfsFile).node]? = some (emptyNode 1) := rfl
  exact (vfsFileWrite_harmless_iff smallSb_layout (by decide) hs.wf (hs.stocked.of_node hi) hi none 0 0 [7, 7]).1.mpr
    (Or.inr (Or.inr (Or.inl (by decide))))

/-- The position that a seek has set to the end of the mappable range. -/
def seekBehind : VfsFile := (vfsFileSeek (emptyNode 1).stat ⟨0, 0⟩ 17247247360 .set).2

/-- One byte written there: nothing is transferred, and the empty file has become 16 GiB long. -/
theorem write_behind_range_moves_end : ZeroTails smallSb (emptyFile 31) ∧
    (∃ file' s' node', vfsFileWrite smallSb none 0 0 (emptyFile 31) seekBehind [7] =
        some (.ok 0, file', s') ∧ s'.nodes[0]? = some node' ∧ node'.stat.size = 17247247360) ∧
      ¬ WriteHarmless smallSb none 0 0 (emptyFile 31) seekBehind (emptyNode 1) [7] := by
  refine ⟨emptyFile_zeroTails (by decide), ⟨_, _, _, rfl, rfl, rfl⟩, fun h => ?_⟩
  obtain ⟨node', hnode', hright⟩ := h _ _ _ rfl
  obtain rfl : _ = node' := Option.some_inj.mp hnode'
  have hsize := hright.size
  revert hsize
  decide

end SomeOs.Minix

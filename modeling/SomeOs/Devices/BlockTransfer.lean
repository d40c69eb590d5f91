import SomeOs.Devices.InFlight
import SomeOs.Memory.Copies

/-! # The buffers of block requests

The descriptors of a request have the physical addresses of its buffer, which the page table of the
requester gives. A write to the disk reads the buffer, but the page table is asked as for a write to
memory, and as for a read when the device writes to the buffer. The number of the first sector is kept
in 32 bits on the way to the header.
-/
namespace SomeOs.Devices
open MemSpace Paging Scatter

structure VirtIOBlockRequestHeader where
  blk_type : ℕ
  reserved : ℕ
  sector : ℕ

/-- `VIRTIO_BLOCK_T_OUT` or `VIRTIO_BLOCK_T_IN`, and a sector of the type `uint32_t`. -/
def requestHeader (offset : ℕ) (write : Bool) : VirtIOBlockRequestHeader :=
  ⟨if write then 1 else 0, 0, offset / blockSectorSize % 2 ^ 32⟩

/-- The parts of a buffer. They are counted first, and then put into an array of that size. -/
def bufferParts (fuel : ℕ) (s : MemState) (buffer : VirtPtr) (length : ℕ) (write : Bool) :
    Except VirtPtrFault (List BufferPart × MemState) := do
  let (part_count, _, s) ← orFault .endless (getVirtPtrParts fuel s buffer length 0 write)
  let (_, parts, s) ← orFault .endless (getVirtPtrParts fuel s buffer length part_count write)
  let parts ← orFault .unfilled ((partsArray parts part_count).mapM id)
  return (parts.map fun part => ⟨part.address, part.length⟩, s)

/-- A request is refused without a header, or prepared. -/
def virtIOBlockDeviceOperation (fuel : ℕ) (s : MemState) (d : BlockDevice) (header status : ℕ) (buffer : VirtPtr)
    (offset size : ℕ) (write : Bool) : Except VirtPtrFault (Option VirtIOBlockRequestHeader × BlockDevice × MemState) :=
  if write ∧ d.readOnly then .ok (none, d, s)
  else if size % blockSectorSize ≠ 0 ∨ offset % blockSectorSize ≠ 0 then .ok (none, d, s)
  else if (d.virtio.availableIndex : ℤ) - d.virtio.ackIndex ≥ ringSize then .ok (none, d, s)
  else do
    let (data, s) ← bufferParts fuel s buffer size write
    return (some (requestHeader offset write), d.virtIOBlockDeviceOperation header status data offset size write, s)

def dataDescriptors (write : Bool) (data : List BufferPart) : List VirtIODescriptor := data.map fun part =>
  { address := part.address, length := part.length % 2 ^ 32, flags := descNext ||| (if write then 0 else descWrite) }

def bytePlace (t : MemState) (buffer : VirtPtr) (i : ℕ) : ℕ :=
  match buffer.table with
  | none => buffer.address + i
  | some id => t.place id (buffer.address + i)

/-- The page of a byte is writable for the requester and is not shared. The kernel may write all memory. -/
def Own (t : MemState) (buffer : VirtPtr) (i : ℕ) : Prop :=
  match buffer.table with
  | none => True
  | some id => ∃ p ∈ t.walk id (buffer.address + i), p.2.w = true ∧ ¬NeedsPage t p.2

structure Covering (place : ℕ → ℕ) (n : ℕ) (ds : List VirtIODescriptor) : Prop where
  total : (ds.map (·.length)).sum = n
  bytes : ∀ before d after, ds = before ++ d :: after → ∀ k < d.length, place ((before.map (·.length)).sum + k) = d.address + k

/-- The request is for the sectors from the offset on, and for the bytes of the buffer as they were
before the call. Its data is in the descriptors after that of the header. The device is only given
pages to write that the requester may write. -/
structure RightTransfer (s t : MemState) (virtio : VirtIODevice) (r : VirtIOBlockRequest) (h : VirtIOBlockRequestHeader)
    (buffer : VirtPtr) (offset size : ℕ) (write : Bool) : Prop where
  sector : h.sector = offset / blockSectorSize
  covering : Covering (bytePlace t buffer) size (dataDescriptors write r.data)
  placed : Laid virtio (r.head + 1) (r.data.map (·, descNext ||| (if write then 0 else descWrite)))
  kept : ∀ i < size, t.phys (bytePlace t buffer i) = s.phys (bytePlace s buffer i)
  writable : ∀ before d after, dataDescriptors write r.data = before ++ d :: after → d.flags &&& descWrite ≠ 0 →
    ∀ k < d.length, Own t buffer ((before.map (·.length)).sum + k)

/-- The buffer of a disk write may be read, and that of a disk read be written or copied on write. -/
def Legitimate (s : MemState) (buffer : VirtPtr) (size : ℕ) (write : Bool) : Prop :=
  match buffer.table with
  | none => buffer.address ≠ 0
  | some id => ∀ i < size, ∃ p ∈ s.walk id (buffer.address + i),
      if write then p.2.r = true ∨ buffer.allow_all = true else p.2.w = true ∨ p.2.c = true

section Covering
variable {place place' : ℕ → ℕ} {parts : List Part} {write : Bool} {n len : ℕ}

def toData (parts : List Part) : List BufferPart := parts.map fun part => ⟨part.address, part.length⟩

theorem dataDescriptors_length (write : Bool) (parts : List Part) :
    (dataDescriptors write (toData parts)).map (·.length) = parts.map fun p => p.length % 2 ^ 32 := by
  simp [dataDescriptors, toData]

theorem sum_mod (m : ℕ) (hm : 0 < m) (l : List ℕ) : (l.map (· % m)).sum ≤ l.sum ∧
    (l.sum ≤ (l.map (· % m)).sum → ∀ x ∈ l, x < m) := by
  induction l with
  | nil => simp
  | cons x l ih =>
    have hle := Nat.mod_le x m
    rw [List.map_cons, List.sum_cons, List.sum_cons]
    refine ⟨Nat.add_le_add hle ih.1, fun h y hy => ?_⟩
    have hle' := ih.1
    rcases List.mem_cons.mp hy with rfl | hy
    · have heq : y % m = y := by omega
      rw [← heq]
      exact Nat.mod_lt y hm
    · exact ih.2 (by omega) y hy

theorem covering_iff (hcut : Cut place' 0 parts len) (hplace : ∀ i < len, place' i = place i) (hlen : len ≤ n) :
    Covering place n (dataDescriptors write (toData parts)) ↔ len = n ∧ ∀ p ∈ parts, p.length < 2 ^ 32 := by
  have hsum := hcut.sum
  rw [Nat.zero_add] at hsum
  have hmod := sum_mod (2 ^ 32) (by decide) (parts.map Part.length)
  rw [List.map_map] at hmod
  constructor
  · intro h
    have htotal := h.total
    rw [dataDescriptors_length] at htotal
    have hsum' : (parts.map fun p => p.length % 2 ^ 32).sum = n := htotal
    have hle : (parts.map fun p => p.length % 2 ^ 32).sum ≤ (parts.map Part.length).sum := hmod.1
    refine ⟨by omega, fun p hp => ?_⟩
    exact hmod.2 (show (parts.map Part.length).sum ≤ (parts.map fun p => p.length % 2 ^ 32).sum by omega) _
      (List.mem_map_of_mem hp)
  · rintro ⟨rfl, hlt⟩
    have hlengths : (parts.map fun p => p.length % 2 ^ 32) = parts.map Part.length :=
      List.map_congr_left fun p hp => Nat.mod_eq_of_lt (hlt p hp)
    refine ⟨by rw [dataDescriptors_length, hlengths, hsum], fun before d after hds k hk => ?_⟩
    rw [dataDescriptors, toData, List.map_map] at hds
    obtain ⟨b', rest, rfl, rfl, hrest⟩ := List.map_eq_append_iff.mp hds
    obtain ⟨p, a', rfl, rfl, rfl⟩ := List.map_eq_cons_iff.mp hrest
    have hp : p.length % 2 ^ 32 = p.length := Nat.mod_eq_of_lt (hlt p (by simp))
    have hk' : k < p.length := by
      rw [← hp]
      exact hk
    have hbefore : (b'.map fun p => p.length % 2 ^ 32) = b'.map Part.length :=
      List.map_congr_left fun q hq => Nat.mod_eq_of_lt (hlt q (by simp [hq]))
    have hat := hcut.at.2 k hk'
    rw [hcut.at.1, Nat.zero_add] at hat
    have hin : (b'.map Part.length).sum + k < len := by
      rw [← hsum, List.map_append, List.sum_append, List.map_cons, List.sum_cons]
      omega
    rw [List.map_map]
    change place ((b'.map fun p => p.length % 2 ^ 32).sum + k) = _
    rw [hbefore, ← hplace _ hin]
    exact hat

theorem exists_descriptor (ds : List VirtIODescriptor) {i : ℕ} (hi : i < (ds.map (·.length)).sum) :
    ∃ before d after, ds = before ++ d :: after ∧ ∃ k < d.length, i = (before.map (·.length)).sum + k := by
  induction ds generalizing i with
  | nil => simp at hi
  | cons d ds ih =>
    rw [List.map_cons, List.sum_cons] at hi
    rcases Nat.lt_or_ge i d.length with hin | hout
    · exact ⟨[], d, ds, rfl, i, hin, by simp⟩
    · obtain ⟨before, e, after, rfl, k, hk, heq⟩ := ih (show i - d.length < (ds.map (·.length)).sum by omega)
      refine ⟨d :: before, e, after, rfl, k, hk, ?_⟩
      rw [List.map_cons, List.sum_cons]
      omega

theorem writable_iff {P : ℕ → Prop} {data : List BufferPart} (htotal : ((dataDescriptors write data).map (·.length)).sum = n) :
    (∀ before d after, dataDescriptors write data = before ++ d :: after → d.flags &&& descWrite ≠ 0 →
      ∀ k < d.length, P ((before.map (·.length)).sum + k)) ↔ (write = false → ∀ i < n, P i) := by
  have hflags : ∀ d ∈ dataDescriptors write data, (d.flags &&& descWrite ≠ 0 ↔ write = false) := by
    intro d hd
    obtain ⟨part, -, rfl⟩ := List.mem_map.mp hd
    cases write <;> simp
  constructor
  · intro h hread i hi
    obtain ⟨before, d, after, hds, k, hk, rfl⟩ := exists_descriptor _ (htotal.symm ▸ hi)
    exact h before d after hds ((hflags d (by rw [hds]; simp)).mpr hread) k hk
  · intro h before d after hds hwrite k hk
    refine h ((hflags d (by rw [hds]; simp)).mp hwrite) _ ?_
    rw [← htotal, hds, List.map_append, List.sum_append, List.map_cons, List.sum_cons]
    omega

end Covering

section Operation
variable {s t : MemState} {d : BlockDevice} {buffer : VirtPtr} {place : ℕ → ℕ} {parts : List Part} {write : Bool}
  {fuel header status offset size len : ℕ}

structure Accepts (d : BlockDevice) (offset size : ℕ) (write : Bool) : Prop where
  writable : ¬(write = true ∧ d.readOnly = true)
  aligned : size % blockSectorSize = 0 ∧ offset % blockSectorSize = 0
  room : (d.virtio.availableIndex : ℤ) - d.virtio.ackIndex < ringSize

def PreparesRight (fuel : ℕ) (s : MemState) (d : BlockDevice) (header status : ℕ) (buffer : VirtPtr) (offset size : ℕ)
    (write : Bool) : Prop :=
  ∃ h d' t, virtIOBlockDeviceOperation fuel s d header status buffer offset size write = .ok (some h, d', t) ∧
    RightTransfer s t d'.virtio (d'.request d.accepted) h buffer offset size write

theorem operation_parts (hd : Accepts d offset size write) :
    virtIOBlockDeviceOperation fuel s d header status buffer offset size write =
    (bufferParts fuel s buffer size write).map fun r =>
      (some (requestHeader offset write), d.virtIOBlockDeviceOperation header status r.1 offset size write, r.2) := by
  have halign := hd.aligned
  have hroom := hd.room
  rw [virtIOBlockDeviceOperation, if_neg hd.writable, if_neg (by omega), if_neg (by omega)]
  cases bufferParts fuel s buffer size write <;> rfl

theorem operation_request (hd : Accepts d offset size write) (data : List BufferPart) :
    (d.virtIOBlockDeviceOperation header status data offset size write).request d.accepted =
      ⟨header, data, status, size, write, d.virtio.nextHead⟩ ∧
    (d.virtIOBlockDeviceOperation header status data offset size write).virtio =
      fillAll (⟨header, data, status, size, write, d.virtio.nextHead⟩ : VirtIOBlockRequest).parts d.virtio := by
  have halign := hd.aligned
  have hroom := hd.room
  rw [BlockDevice.virtIOBlockDeviceOperation, if_neg hd.writable, if_neg (by omega), if_neg (by omega), ← fillAll_parts]
  exact ⟨Function.update_self .., rfl⟩

/-- The data stays in the table when the status is not put into one of its descriptors. -/
theorem laid_iff (v : VirtIODevice) (r : VirtIOBlockRequest) (hhead : r.head = v.nextHead) :
    Laid (fillAll r.parts v) (r.head + 1) (r.data.map (·, descNext ||| (if r.write then 0 else descWrite))) ↔
      r.data.length < ringSize := by
  have hsplit : fillAll r.parts v = fillAll (r.data.map (·, descNext ||| (if r.write then 0 else descWrite)) ++
      [(⟨r.status, 1⟩, descWrite)]) (fill v (⟨r.header, 16⟩, descNext)) := rfl
  have hnext : (fill v (⟨r.header, 16⟩, descNext)).nextHead = (r.head + 1) % ringSize := by
    rw [hhead]
    rfl
  have hslot : ∀ k, ((fill v (⟨r.header, 16⟩, descNext)).nextHead + k) % ringSize = (r.head + 1 + k) % ringSize := by
    intro k
    rw [hnext, Nat.mod_add_mod]
  constructor
  · intro hlaid
    by_contra hmany
    -- The status takes the place of the part that is as many parts from the end as the table has descriptors.
    have hk : r.data.length - ringSize < (r.data.map (·, descNext ||| (if r.write then 0 else descWrite))).length := by
      rw [List.length_map]
      simp only [ringSize] at *
      omega
    have hpart := congrArg VirtIODescriptor.flags (hlaid _ hk)
    have hsame : (r.head + 1 + (r.data.length - ringSize)) % ringSize = (r.head + 1 + r.data.length) % ringSize := by
      simp only [ringSize] at *
      omega
    have hlast : (fillAll r.parts v).descriptors ((r.head + 1 + r.data.length) % ringSize) =
        descriptorFor (⟨r.status, 1⟩, descWrite) ((r.head + 1 + r.data.length) % ringSize) := by
      rw [hsplit, fillAll, List.foldl_append, ← hslot]
      have hhead' := @fillAll_nextHead (fill v (⟨r.header, 16⟩, descNext))
        (r.data.map (·, descNext ||| (if r.write then 0 else descWrite)))
      rw [List.length_map] at hhead'
      rw [← hhead']
      exact Function.update_self ..
    rw [hsame, hlast] at hpart
    have hflags : ∀ b : Bool, descWrite ≠ descNext ||| (if b then 0 else descWrite) := by decide
    refine hflags r.write (hpart.trans ?_)
    simp only [descriptorFor, List.get_eq_getElem, List.getElem_map]
  · intro hfew k hk
    have hlength : (r.data.map (·, descNext ||| (if r.write then 0 else descWrite)) ++
        [((⟨r.status, 1⟩ : BufferPart), descWrite)]).length ≤ ringSize := by
      rw [List.length_append, List.length_map, List.length_singleton]
      exact hfew
    have hfill := (@fillAll_descriptors (fill v (⟨r.header, 16⟩, descNext)) _ hlength).1 k
      (by rw [List.length_append]; omega)
    rw [hslot, ← hsplit] at hfill
    rw [hfill]
    congr 1
    exact List.getElem_append_left hk

theorem sector_iff : (requestHeader offset write).sector = offset / blockSectorSize ↔ offset / blockSectorSize < 2 ^ 32 :=
  ⟨fun h => h ▸ Nat.mod_lt _ (by decide), fun h => Nat.mod_eq_of_lt h⟩

theorem not_right_of_fault (hd : Accepts d offset size write) {fault : VirtPtrFault}
    (hparts : bufferParts fuel s buffer size write = .error fault) :
      ¬PreparesRight fuel s d header status buffer offset size write := by
  rintro ⟨h, d', t, hcall, -⟩
  rw [operation_parts hd, hparts] at hcall
  cases hcall

/-- What is left to be shown of the parts of the buffer. -/
theorem right_iff_of_parts (hd : Accepts d offset size write)
    (hparts : bufferParts fuel s buffer size write = .ok (toData parts, t))
    (hcut : Cut place 0 parts len) (hplace : ∀ i < len, place i = bytePlace t buffer i) (hlen : len ≤ size)
    (hkept : len = size → ∀ i < size, t.phys (bytePlace t buffer i) = s.phys (bytePlace s buffer i)) :
    PreparesRight fuel s d header status buffer offset size write ↔
      offset / blockSectorSize < 2 ^ 32 ∧ len = size ∧ (∀ p ∈ parts, p.length < 2 ^ 32) ∧ parts.length < ringSize ∧
        (write = false → ∀ i < size, Own t buffer i) := by
  have hcall := @operation_parts s d buffer write fuel header status offset size hd
  rw [hparts] at hcall
  obtain ⟨hrequest, hvirtio⟩ := @operation_request d write header status offset size hd (toData parts)
  have hlaid := laid_iff d.virtio ⟨header, toData parts, status, size, write, d.virtio.nextHead⟩ rfl
  have hcount : (toData parts).length = parts.length := List.length_map _
  constructor
  · rintro ⟨h, d', t', hcall', hright⟩
    rw [hcall] at hcall'
    cases hcall'
    rw [hrequest, hvirtio] at hright
    obtain ⟨hall, hlt⟩ := (covering_iff hcut hplace hlen).mp hright.covering
    exact ⟨sector_iff.mp hright.sector, hall, hlt, hcount ▸ hlaid.mp hright.placed,
      (writable_iff hright.covering.total).mp hright.writable⟩
  · rintro ⟨hsector, hall, hlt, hfew, hown⟩
    have hcover := (@covering_iff (bytePlace t buffer) place parts write size len hcut hplace hlen).mpr ⟨hall, hlt⟩
    refine ⟨_, _, t, hcall, ?_⟩
    rw [hrequest, hvirtio]
    exact ⟨sector_iff.mpr hsector, hcover, hlaid.mpr (hcount.symm ▸ hfew), hkept hall, (writable_iff hcover.total).mpr hown⟩

theorem mapM_filled (parts : List Part) : (parts.map some).mapM id = some parts := by
  induction parts with
  | nil => rfl
  | cons p ps ih => simp [List.mapM_cons, ih]

theorem mapM_unfilled (parts : List Part) : (parts.map some ++ [none]).mapM id = none := by
  induction parts with
  | nil => rfl
  | cons p ps ih => simp [List.mapM_cons, ih]

theorem bufferParts_of_passes {s₁ : MemState} {extra : ℕ} (hextra : extra ≤ 1)
    (hcount : getVirtPtrParts fuel s buffer size 0 write = some (parts.length + extra, [], s₁))
    (hfill : getVirtPtrParts fuel s₁ buffer size (parts.length + extra) write =
      some (parts.length, parts.take (parts.length + extra), t)) :
    bufferParts fuel s buffer size write = if extra = 0 then .ok (toData parts, t) else .error .unfilled := by
  simp only [bufferParts, hcount, hfill, orFault, bind, Except.bind, partsArray_filled]
  rcases Nat.le_one_iff_eq_zero_or_eq_one.mp hextra with rfl | rfl
  · rw [List.replicate_zero, List.append_nil, mapM_filled]
    rfl
  · rw [List.replicate_one, mapM_unfilled]
    rfl

end Operation

section Kernel
variable {s : MemState} {d : BlockDevice} {write allow_all : Bool} {fuel header status offset size a stop next : ℕ}

/-- A buffer of the kernel is one part. -/
theorem kernel_loop (ha : a ≠ 0) (hlt : a < stop) (hnext : a ≤ next) (hle : next ≤ stop) (hwrap : stop + pageSize < 2 ^ 64)
    (hfuel : stop / pageSize + 2 ≤ fuel + next / pageSize) :
    partsLoop ⟨a, none, allow_all⟩ stop write fuel a next s = some ([⟨a, 0, stop - a⟩], s) := by
  have hps : pageSize = 4096 := rfl
  induction fuel generalizing next with
  | zero =>
    have := Nat.div_le_div_right (c := pageSize) hle
    omega
  | succ fuel ih =>
    have hmod : (next + pageSize) % 2 ^ 64 / pageSize * pageSize = (next / pageSize + 1) * pageSize := by
      rw [Nat.mod_eq_of_lt (by omega), Nat.add_div_right _ (by decide)]
    have hgt : next < (next / pageSize + 1) * pageSize := Nat.lt_mul_of_div_lt (Nat.lt_succ_self _) (by decide)
    have hself : sub64 a a = 0 := by
      rw [sub64_of_le le_rfl (by omega), Nat.sub_self]
    rw [partsLoop, if_pos hlt]
    simp only [virtToPhys, if_neg ha, hmod, ne_eq, not_true_eq_false, false_or]
    by_cases hend : stop < (next / pageSize + 1) * pageSize
    · rw [if_pos hend]
      cases fuel with
      | zero =>
        have := Nat.div_le_div_right (c := pageSize) hle
        omega
      | succ fuel =>
        rw [partsLoop, if_neg (show ¬(next / pageSize + 1) * pageSize < stop by omega)]
        simp only [Option.map_some, if_pos hend, hself, sub64_of_le hlt.le (show stop < 2 ^ 64 by omega)]
    · rw [if_neg hend]
      refine ih (by omega) (by omega) ?_
      rw [Nat.mul_div_cancel _ (by decide)]
      omega

theorem kernel_parts (ha : a ≠ 0) (hwrap : a + size + pageSize < 2 ^ 64) (hfuel : size / pageSize + 3 ≤ fuel) :
    ∃ parts, bufferParts fuel s ⟨a, none, allow_all⟩ size write = .ok (toData parts, s) ∧ Cut (fun i => a + i) 0 parts size ∧
      ((∀ p ∈ parts, p.length < 2 ^ 32) ↔ size < 2 ^ 32) ∧ parts.length ≤ 1 := by
  have hstop : (a + size) % 2 ^ 64 = a + size := Nat.mod_eq_of_lt (by omega)
  have hparts : ∃ parts, partsLoop ⟨a, none, allow_all⟩ (a + size) write fuel a a s = some (parts, s) ∧
      Cut (fun i => a + i) 0 parts size ∧ ((∀ p ∈ parts, p.length < 2 ^ 32) ↔ size < 2 ^ 32) ∧ parts.length ≤ 1 := by
    rcases Nat.eq_zero_or_pos size with rfl | hpos
    · refine ⟨[], ?_, rfl, by simp, Nat.zero_le 1⟩
      obtain ⟨k, rfl⟩ := Nat.exists_eq_add_of_le' ((show 1 ≤ 0 / pageSize + 3 by decide).trans hfuel)
      rw [partsLoop, if_neg (by omega)]
    · refine ⟨[⟨a, 0, a + size - a⟩], kernel_loop ha (by omega) le_rfl (by omega) hwrap ?_, ?_, ?_, le_rfl⟩
      · have hle : (a + size) / pageSize ≤ a / pageSize + size / pageSize + 1 := by
          simp only [pageSize]
          omega
        omega
      · refine ⟨rfl, by dsimp only; omega, fun k _ => by rw [Nat.zero_add], ?_⟩
        show 0 + (a + size - a) = size
        omega
      · simp
  obtain ⟨parts, hloop, hcut, hlengths⟩ := hparts
  have hpass : ∀ max_parts, getVirtPtrParts fuel s ⟨a, none, allow_all⟩ size max_parts write =
      some (parts.length, parts.take max_parts, s) := by
    intro max_parts
    rw [getVirtPtrParts, hstop, hloop]
    rfl
  refine ⟨parts, ?_, hcut, hlengths⟩
  exact @bufferParts_of_passes s s ⟨a, none, allow_all⟩ parts write fuel size s 0 (Nat.zero_le 1) (hpass 0) (hpass _)

theorem kernel_right_iff (hd : Accepts d offset size write) (ha : a ≠ 0) (hwrap : a + size + pageSize < 2 ^ 64)
    (hfuel : size / pageSize + 3 ≤ fuel) :
    PreparesRight fuel s d header status ⟨a, none, allow_all⟩ offset size write ↔ offset / blockSectorSize < 2 ^ 32 ∧
      size < 2 ^ 32 := by
  obtain ⟨parts, hparts, hcut, hlengths, hfew⟩ := @kernel_parts s write allow_all fuel size a ha hwrap hfuel
  have hfew' : parts.length < ringSize := hfew.trans_lt (by decide)
  rw [right_iff_of_parts hd hparts hcut (fun _ _ => rfl) le_rfl (fun _ _ _ => rfl), hlengths]
  simp [Own, hfew']

end Kernel

/-- No piece of the buffer has 4 GiB or more, and there are descriptors for the pieces and the status. -/
structure Fits (place : ℕ → ℕ) (n : ℕ) : Prop where
  short : Broken place 0 n (2 ^ 32)
  few : pieces place 0 n < ringSize

/-- Every page of the buffer can be written, or copied when its turn comes. -/
def WritableInTurn (s : MemState) (b : Buffer) (n : ℕ) : Prop :=
  ∀ j, position b.address j < b.address + n →
    ¬Refused (touch s b.id b.address b.allow_all j) b.id (position b.address j) b.allow_all

theorem fits_iff {place : ℕ → ℕ} {parts : List Part} {n : ℕ} (hcut : Cut place 0 parts n)
    (hm : parts.IsChain fun p q => q.address ≠ p.address + p.length) :
    (∀ p ∈ parts, p.length < 2 ^ 32) ∧ parts.length < ringSize ↔ Fits place n := by
  rw [hcut.lengths_lt_iff hm (by decide), hcut.length_eq hm]
  exact ⟨fun h => ⟨h.1, h.2⟩, fun h => ⟨h.short, h.few⟩⟩

section User
variable {s : MemState} {d : BlockDevice} {b : Buffer} {fuel header status offset n j k m : ℕ}

theorem read_bufferParts (hs : Kept s) (hwrap : b.address + n + pageSize < 2 ^ 64)
    (hfuel : b.address + n < position b.address fuel) :
    bufferParts (fuel + 1) s b.ptr n false = .ok (toData (readCut s b n (fuel + 1)).1, s) := by
  have hpass : ∀ max_parts, getVirtPtrParts (fuel + 1) s b.ptr n max_parts false =
      some ((readCut s b n (fuel + 1)).1.length, (readCut s b n (fuel + 1)).1.take max_parts, s) := by
    intro max_parts
    rw [parts_eq hwrap, read_loop hs.toSane hwrap hfuel]
    rfl
  exact @bufferParts_of_passes s s b.ptr _ false _ n s 0 (Nat.zero_le 1) (hpass 0) (hpass _)

/-- A disk read is right for a buffer whose pages the requester may write without a fault. -/
theorem user_read_right_iff (hs : Kept s) (hd : Accepts d offset n false) (hwrap : b.address + n + pageSize < 2 ^ 64)
    (hfuel : n / pageSize + 3 ≤ fuel) : PreparesRight fuel s d header status b.ptr offset n false ↔
      offset / blockSectorSize < 2 ^ 32 ∧ (∀ i < n, Accessible s b false i) ∧ (∀ i < n, Own s b.ptr i) ∧
        Fits (fun i => s.place b.id (b.address + i)) n := by
  obtain ⟨k, rfl, hpos⟩ := fuel_position b.address hfuel
  obtain ⟨len, hcut, hextent⟩ := @read_parts s b n (k + 2) hs.toSane (hpos.trans (position_lt_succ _ _))
  have hall : len = n ↔ ∀ i < n, Accessible s b false i := by
    constructor
    · rintro rfl
      exact hextent.all
    · intro h
      have hle := hextent.le
      rcases hextent.ends with hend | hend
      · exact hend
      · by_contra hne
        exact hend (h len (by omega))
  rw [right_iff_of_parts hd (read_bufferParts hs hwrap hpos) hcut (fun _ _ => rfl) hextent.le (fun _ _ _ => rfl), ← hall]
  refine and_congr_right fun _ => and_congr_right ?_
  rintro rfl
  rw [← fits_iff hcut (cutParts_apart _)]
  constructor
  · rintro ⟨hlt, hfew, hown⟩
    exact ⟨hown rfl, hlt, hfew⟩
  · rintro ⟨hown, hlt, hfew⟩
    exact ⟨hlt, hfew, fun _ => hown⟩

/-- A position has an address when the access was not refused. -/
theorem answer_ne_zero (hs : Sane s) (b : Buffer) (j : ℕ) : answer s b.id b.address b.allow_all j ≠ 0 ↔
    ¬Refused (touch s b.id b.address b.allow_all j) b.id (position b.address j) b.allow_all := by
  have hsane := touch_sane hs b.id b.address b.allow_all j
  have hanswer : answer s b.id b.address b.allow_all j =
      (virtToPhys (virtToPhys (touch s b.id b.address b.allow_all j) (some b.id) (position b.address j) true b.allow_all).2
        (some b.id) (position b.address j) true b.allow_all).1 := rfl
  rw [hanswer]
  rcases access_cases hsane b.id (position b.address j) b.allow_all with ⟨hno, hr⟩ | ⟨p, hw, hfault, hperm, hr⟩ |
    ⟨e, hw, hfault, hnone, hr⟩
  · rw [hr]
    dsimp only
    rw [hr]
    exact iff_of_false (fun hne => hne rfl) fun h => h hno
  · rw [hr]
    dsimp only
    rw [hr]
    have hnull := hsane.null _ _ _ hw
    refine iff_of_true (fun hzero => ?_) fun hno => ?_
    · rw [show leafAddr p (position b.address j) = 0 from hzero] at hnull
      exact absurd hnull (by decide)
    · rcases hno p hw with hno | ⟨htakes, -⟩
      · exact hno hperm
      · exact hfault htakes
  · have hstable := (fault_answer hsane hw hfault hnone b.allow_all).2
    rw [hr]
    dsimp only
    rw [hstable]
    refine iff_of_true (fun hzero => ?_) fun hno => ?_
    · have hne : pageAddr (faultFrame (touch s b.id b.address b.allow_all j) e) ≠ 0 :=
        Nat.mul_ne_zero (faultFrame_ne_zero hsane hw hnone) (by decide)
      dsimp only at hzero
      omega
    · rcases hno _ hw with hno | ⟨-, hyes⟩
      · exact hno (by simp [Permitted, hfault.2.2])
      · exact hnone hyes

theorem touched_place (hs : Sane s) (hk : position b.address j + k < position b.address (j + 1)) (hjm : j < m)
    (hne : answer s b.id b.address b.allow_all j ≠ 0) :
    (touch s b.id b.address b.allow_all m).place b.id (position b.address j + k) = answer s b.id b.address b.allow_all j + k := by
  have hplace := stable_place (touch_sane hs b.id b.address b.allow_all m) (stable_later hs hjm) hne
  rw [hplace]
  exact place_add (hplace ▸ hne) (position_page hk)

theorem position_index (h : position b.address j < b.address + n) : j < n / pageSize + 2 := by
  have hdiv := position_div b.address j
  have hle := Nat.div_le_div_right (c := pageSize) h.le
  have hadd : (b.address + n) / pageSize ≤ b.address / pageSize + n / pageSize + 1 := by
    simp only [pageSize]
    omega
  omega

/-- The parts of the write lead to the bytes of the pages up to the first one that is refused. -/
theorem write_cut (hs : Kept s) (hfuel : b.address + n < position b.address fuel) : ∃ len,
    Cut (fun i => (touch s b.id b.address b.allow_all (n / pageSize + 2)).place b.id (b.address + i)) 0
      (writeCut s b n fuel).1 len ∧ len ≤ n ∧ (len = n ↔ WritableInTurn s b n) ∧ ∀ i < len,
        (touch s b.id b.address b.allow_all (n / pageSize + 2)).place b.id (b.address + i) =
          (touch s b.id b.address b.allow_all (writeCut s b n fuel).2).place b.id (b.address + i) := by
  have hT : ∀ j, answer s b.id b.address b.allow_all j ≠ 0 → answer s b.id b.address b.allow_all j =
      (touch s b.id b.address b.allow_all (j + 1)).place b.id (position b.address j) :=
    fun j hj => stable_place (touch_sane hs.toSane _ _ _ _) (stable_later hs.toSane (Nat.lt_succ_self j)) hj
  obtain ⟨len, hcut, hreach, hasked⟩ := @cutParts_cut b.address (b.address + n) 0 0 (answer s b.id b.address b.allow_all)
    (fun i => (touch s b.id b.address b.allow_all (pageIndex b.address i + 1)).place b.id (b.address + i))
    (Nat.le_add_right b.address n)
    (fun j k hj hk => @pages_place (fun j => touch s b.id b.address b.allow_all (j + 1)) _ b.id b.address j k hT hj hk)
    fuel (le_refl 0) (Or.inr rfl) (Or.inr rfl) (Consecutive.refl _ _ 0) (by rw [Nat.zero_add]; exact hfuel)
  rw [position_zero, min_eq_left (Nat.le_add_right _ _), Nat.sub_self] at hcut
  have hle : len ≤ n := by
    have := hreach.le
    omega
  -- A byte within reach has its place from the time on that its page was asked for.
  have hpage : ∀ i < len, ∀ m, pageIndex b.address i < m → (touch s b.id b.address b.allow_all m).place b.id (b.address + i) =
      (touch s b.id b.address b.allow_all (pageIndex b.address i + 1)).place b.id (b.address + i) := by
    intro i hi m hm
    obtain ⟨j, k, hjk, hk⟩ := exists_position b.address i
    have hpos := le_position b.address j
    have hindex := pageIndex_position hk
    rw [show position b.address j - b.address + k = i by omega] at hindex
    have hne := hreach.usable j (Nat.zero_le j) (by omega)
    rw [hindex, ← hjk, touched_place hs.toSane hk (hindex ▸ hm) hne, touched_place hs.toSane hk (Nat.lt_succ_self j) hne]
  have hindex : ∀ i < len, pageIndex b.address i < n / pageSize + 2 ∧ pageIndex b.address i < (writeCut s b n fuel).2 := by
    intro i hi
    obtain ⟨j, k, hjk, hk⟩ := exists_position b.address i
    have hpos := le_position b.address j
    have hindex := pageIndex_position hk
    rw [show position b.address j - b.address + k = i by omega] at hindex
    rw [hindex]
    exact ⟨position_index (show position b.address j < b.address + n by omega), hasked j (by omega)⟩
  refine ⟨len, hcut.congr fun i _ hi => (hpage i hi _ (hindex i hi).1).symm, hle, ?_, fun i hi => ?_⟩
  · constructor
    · rintro rfl j hj
      have hpos := le_position b.address j
      exact (answer_ne_zero hs.toSane b j).mp (hreach.usable j (Nat.zero_le j) (by omega))
    · intro hturn
      rcases hreach.ends with hend | ⟨j, -, hend, hzero⟩
      · omega
      · by_contra hne
        have hpos := le_position b.address j
        exact (answer_ne_zero hs.toSane b j).mpr (hturn j (by omega)) hzero
  · rw [hpage i hi _ (hindex i hi).1, hpage i hi _ (hindex i hi).2]

/-- A disk write is right for a buffer whose pages can be written in turn. -/
theorem user_write_right_iff (hs : Kept s) (hd : Accepts d offset n true)
    (hmapped : ∀ i < n, ∃ p, s.walk b.id (b.address + i) = some p)
    (hwrap : b.address + n + pageSize < 2 ^ 64) (hfuel : n / pageSize + 3 ≤ fuel) :
    PreparesRight fuel s d header status b.ptr offset n true ↔ offset / blockSectorSize < 2 ^ 32 ∧ WritableInTurn s b n ∧
      ¬(Slip s b.id b.address b.allow_all ∧ position b.address 1 < b.address + n) ∧
      Fits (fun i => (touch s b.id b.address b.allow_all (n / pageSize + 2)).place b.id (b.address + i)) n := by
  obtain ⟨k, rfl, hpos⟩ := fuel_position b.address hfuel
  rcases Nat.eq_zero_or_pos n with rfl | hn
  · have hstart := position_strict (a := b.address) Nat.zero_lt_one
    rw [position_zero] at hstart
    have hpass : getVirtPtrParts (k + 2) s b.ptr 0 0 true = some (0, [], s) := by
      rw [parts_eq hwrap, parts_zero]
      rfl
    have hparts : bufferParts (k + 2) s b.ptr 0 true = .ok (toData [], s) :=
      @bufferParts_of_passes s s b.ptr [] true (k + 2) 0 s 0 (Nat.zero_le 1) hpass hpass
    have hcut : Cut (fun i => (touch s b.id b.address b.allow_all (0 / pageSize + 2)).place b.id (b.address + i)) 0 [] 0 := rfl
    have hnone : ∀ {P : ℕ → Prop}, ∀ i < 0, P i := fun i hi => absurd hi (Nat.not_lt_zero i)
    rw [right_iff_of_parts hd hparts hcut hnone le_rfl (fun _ => hnone), ← fits_iff hcut .nil]
    refine and_congr_right fun _ => ⟨fun h => ⟨fun j hj => ?_, ?_, h.2.1, h.2.2.1⟩,
      fun h => ⟨rfl, h.2.2.1, h.2.2.2, fun h => by cases h⟩⟩
    · have := le_position b.address j
      omega
    · omega
  · obtain ⟨extra, m, hcount, hextra, hfill, -⟩ := write_passes hs hn hwrap hpos
    obtain ⟨len, hcut, hle, hall, hplace⟩ := write_cut hs (hpos.trans (position_lt_succ _ _))
    rcases hextra with ⟨hslip, hlt, rfl⟩ | ⟨hno, rfl⟩
    · have hparts := bufferParts_of_passes le_rfl hcount (hfill _)
      exact iff_of_false (not_right_of_fault hd hparts) fun h => h.2.2.1 ⟨hslip, hlt⟩
    · have hparts := bufferParts_of_passes (Nat.zero_le 1) hcount (hfill _)
      have hres := touch_resolved hs.toSane hs.toZeroPage b.id b.address b.allow_all (writeCut s b n (k + 2)).2
      have hkept : ∀ i < n, (touch s b.id b.address b.allow_all (writeCut s b n (k + 2)).2).phys
          (bytePlace (touch s b.id b.address b.allow_all (writeCut s b n (k + 2)).2) b.ptr i) = s.phys (bytePlace s b.ptr i) := by
        intro i hi
        obtain ⟨p, hp⟩ := hmapped i hi
        exact hres.bytes b.id _ p hp (hs.live b.id _ p hp)
      rw [right_iff_of_parts hd hparts hcut hplace hle (fun _ => hkept), ← hall]
      refine and_congr_right fun _ => and_congr_right ?_
      rintro rfl
      rw [← fits_iff hcut (cutParts_apart _)]
      exact ⟨fun h => ⟨hno, h.1, h.2.1⟩, fun h => ⟨h.2.1, h.2.2, fun h => by cases h⟩⟩

end User

/-- The number of the sector has 32 bits. A buffer of the kernel is below 4 GiB. The pages of a
buffer that is read to can be read by the requester and are written without a fault, and those of a
buffer that is written from can be written or copied, and a slip of the first part does not count
one too many. -/
def TransferGuard (s : MemState) (buffer : VirtPtr) (offset size : ℕ) (write : Bool) : Prop :=
  offset / blockSectorSize < 2 ^ 32 ∧
  match buffer.table with
  | none => size < 2 ^ 32
  | some id =>
    let b : Buffer := ⟨id, buffer.address, buffer.allow_all⟩
    if write then WritableInTurn s b size ∧ ¬(Slip s id b.address b.allow_all ∧ position b.address 1 < b.address + size) ∧
      Fits (fun i => (touch s id b.address b.allow_all (size / pageSize + 2)).place id (b.address + i)) size
    else (∀ i < size, Accessible s b false i) ∧ (∀ i < size, Own s buffer i) ∧ Fits (fun i => s.place id (b.address + i)) size

/-- `virtIOBlockDeviceOperation` prepares a right request for a buffer that the requester may pass exactly under the guard. -/
theorem virtIOBlockDeviceOperation_right_iff {s : MemState} {d : BlockDevice} {buffer : VirtPtr} {offset size fuel : ℕ}
    {write : Bool} (hs : Kept s) (hd : Accepts d offset size write) (hlegit : Legitimate s buffer size write)
    (hwrap : buffer.address + size + pageSize < 2 ^ 64) (hfuel : size / pageSize + 3 ≤ fuel) (header status : ℕ) :
    PreparesRight fuel s d header status buffer offset size write ↔ TransferGuard s buffer offset size write := by
  obtain ⟨a, table, allow_all⟩ := buffer
  cases table with
  | none => exact kernel_right_iff hd hlegit hwrap hfuel
  | some id =>
    cases write with
    | false => exact @user_read_right_iff s d ⟨id, a, allow_all⟩ fuel header status offset size hs hd hwrap hfuel
    | true =>
      have hmapped : ∀ i < size, ∃ p, s.walk id (a + i) = some p := by
        intro i hi
        obtain ⟨p, hp, -⟩ := hlegit i hi
        exact ⟨p, hp⟩
      exact @user_write_right_iff s d ⟨id, a, allow_all⟩ fuel header status offset size hs hd hmapped hwrap hfuel

theorem freshDevice_accepts (write : Bool) : Accepts (freshDevice false) 0 512 write where
  writable h := by cases h.2
  aligned := by decide
  room := by decide

theorem first_sector_page {i : ℕ} (hi : i < 512) : (4096 + i) / pageSize = 4096 / pageSize := by
  rw [pageSize]
  omega

/-- A sector is read into the first page of the process that has written its pages. -/
theorem virtIOBlockDeviceOperation_right_written :
    PreparesRight 4 twoProcesses (freshDevice false) 0 0 ⟨4096, some 1, false⟩ 0 512 false := by
  obtain ⟨p, hp⟩ := Option.isSome_iff_exists.mp (show (twoProcesses.walk 1 4096).isSome from rfl)
  have hread : Permitted p.2 false false ∧ p.2.w = true ∧ ¬NeedsPage twoProcesses p.2 := by
    cases hp
    decide
  have hwalk : ∀ i < 512, twoProcesses.walk 1 (4096 + i) = some p := fun i hi =>
    (walk_samePage (samePage_of_div (first_sector_page hi))).trans hp
  have hplace : ∀ i < 512, twoProcesses.place 1 (4096 + i) = twoProcesses.place 1 4096 + i := fun i hi =>
    place_add (by decide) (first_sector_page hi)
  have hfits : Fits (fun i => twoProcesses.place 1 (4096 + i)) 512 := by
    refine ⟨fun i _ hi => by omega, ?_⟩
    rw [pieces, if_pos (by decide), Finset.filter_eq_empty_iff.mpr]
    · decide
    · intro i hi hne
      rw [Finset.mem_Ioo] at hi
      rw [hplace i hi.2, hplace (i - 1) (by omega)] at hne
      omega
  exact (virtIOBlockDeviceOperation_right_iff twoProcesses_kept (freshDevice_accepts false)
    (fun i hi => ⟨p, hwalk i hi, Or.inl hread.2.1⟩) (by decide) (by decide) 0 0).mpr
      ⟨by decide, fun i hi => ⟨p, hwalk i hi, hread.1⟩, fun i hi => ⟨p, hwalk i hi, hread.2⟩, hfits⟩

/-- A sector that is read into a page that has not been written goes to the zero page. -/
theorem virtIOBlockDeviceOperation_zero_page : Legitimate twoProcesses ⟨4096, some 0, false⟩ 512 false ∧
    ¬PreparesRight 4 twoProcesses (freshDevice false) 0 0 ⟨4096, some 0, false⟩ 0 512 false ∧
    (virtIOBlockDeviceOperation 4 twoProcesses (freshDevice false) 0 0 ⟨4096, some 0, false⟩ 0 512 false).toOption.map
      (fun r => r.2.1.virtio.descriptors 2) = some ⟨pageAddr twoProcesses.zero_page, 512, descNext ||| descWrite, 3⟩ := by
  obtain ⟨p, hp⟩ := Option.isSome_iff_exists.mp (show (twoProcesses.walk 0 4096).isSome from rfl)
  have hcopy : p.2.c = true ∧ p.2.w = false := by
    cases hp
    decide
  refine ⟨fun i hi => ⟨p, ?_, Or.inr hcopy.1⟩, fun hright => ?_, by decide⟩
  · exact (walk_samePage (samePage_of_div (first_sector_page hi))).trans hp
  · obtain ⟨-, -, hown, -⟩ := (@user_read_right_iff twoProcesses (freshDevice false) ⟨0, 4096, false⟩ 4 0 0 0 512
      twoProcesses_kept (freshDevice_accepts false) (by decide) (by decide)).mp hright
    obtain ⟨q, hq, hw, -⟩ := hown 0 (by decide)
    have heq : some q = some p := hq.symm.trans hp
    cases heq
    rw [hcopy.2] at hw
    cases hw

end SomeOs.Devices

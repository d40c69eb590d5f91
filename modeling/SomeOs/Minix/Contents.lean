import SomeOs.Minix.FileSystem

/-! # File contents as sparse byte arrays

Files of one file system are read and written in any order. As long as zone
allocation answers with fresh zones, every file holds at each offset the byte that
was last written there, and zero where it still has a hole.
-/
namespace SomeOs.Minix
open ByteStore Transition

structure SparseFile where
  size : ℕ
  bytes : ℕ → UInt8

namespace SparseFile

def write (f : SparseFile) (offset : ℕ) (buff : List UInt8) : SparseFile :=
  if buff.length = 0 then f
  else ⟨max f.size (offset + buff.length), ByteStore.write f.bytes offset buff⟩

/-- What an operation does to the file `i`. -/
def step (i : ℕ) (f : SparseFile) : FileOp → SparseFile
  | .write j buff offset => if j = i then f.write offset buff else f
  | _ => f

end SparseFile

/-- The byte that an operation stores at an offset of the file `i`. -/
def FileOp.stored (i o : ℕ) : FileOp → Option UInt8
  | .write j buff offset => if j = i ∧ offset ≤ o then buff[o - offset]? else none
  | _ => none

def lastWritten (i o : ℕ) : List FileOp → Option UInt8
  | [] => none
  | op :: ops => (lastWritten i o ops).or (op.stored i o)

structure Holds (disk : Store) (node : MinixVfsNode) (f : SparseFile) : Prop where
  size : node.stat.size = f.size
  bytes : ∀ o < maxFileSize, fileByte disk node o = f.bytes o

/-- Reads and writes inside the range of the slots, with fresh allocations. -/
def FreshIo (sb : Minix3Superblock) (s : FsState) : FileOp → Prop
  | .write i buff offset => offset + buff.length ≤ maxFileSize ∧
      ∀ node, s.nodes[i]? = some node →
        none ∉ (minixWriteAt sb s.disk node buff offset).allocated ∧
          FreshZones sb s (minixWriteAt sb s.disk node buff offset)
  | .read _ offset length => offset + length ≤ maxFileSize
  | .trunc _ _ => False

theorem step_bytes (i o : ℕ) (op : FileOp) (f : SparseFile) :
    (f.step i op).bytes o = (op.stored i o).getD (f.bytes o) := by
  cases op with
  | write j buff offset =>
    simp only [SparseFile.step, FileOp.stored]
    by_cases hj : j = i
    · rw [if_pos hj]
      unfold SparseFile.write
      by_cases h0 : buff.length = 0
      · simp [List.length_eq_zero_iff.mp h0]
      · rw [if_neg h0]
        by_cases hle : offset ≤ o
        · simp [ByteStore.write, hj, hle]
        · simp [ByteStore.write, hle]
    · simp [hj]
  | read j offset length => rfl
  | trunc j length => rfl

theorem foldl_step_bytes (i o : ℕ) (ops : List FileOp) (f : SparseFile) :
    (ops.foldl (SparseFile.step i) f).bytes o = (lastWritten i o ops).getD (f.bytes o) := by
  induction ops generalizing f with
  | nil => rfl
  | cons op ops ih => rw [List.foldl_cons, ih, step_bytes, lastWritten, Option.getD_or]

section Run
variable {sb : Minix3Superblock} {s t : FsState} {op : FileOp}

/-- One operation does to every file what the abstract one does, and keeps the
file system well formed. -/
theorem fsStep_holds (hl : Layout sb) (hpos : 0 < sb.first_data_zone) (hwf : s.WellFormed sb)
    (hok : FreshIo sb s op) (hstep : fsStep sb s op = some t) :
    t.WellFormed sb ∧ ∀ j node f, s.nodes[j]? = some node → Holds s.disk node f →
      ∃ node', t.nodes[j]? = some node' ∧ Holds t.disk node' (f.step j op) := by
  cases op with
  | write i buff offset =>
    obtain ⟨node, hi, rfl⟩ := Option.map_eq_some_iff.mp hstep
    obtain ⟨hrange, hok⟩ := hok
    obtain ⟨hsome, hfresh⟩ := hok node hi
    have hw := minixWriteAt_spec hl hpos (hwf.nodes node (List.mem_of_getElem? hi)) (hfresh.of_node hi)
    refine ⟨hwf.write hl hi hw hfresh, fun j other f hj hf => ?_⟩
    by_cases hne : j = i
    · subst hne
      obtain rfl : node = other := by simpa [hi] using hj
      refine ⟨_, List.getElem?_set_self (List.getElem?_eq_some_iff.mp hi).1, ?_⟩
      obtain ⟨_, _, hsize, hbytes⟩ := hw.stored hsome hrange
      simp only [SparseFile.step, if_true, SparseFile.write]
      by_cases h0 : buff.length = 0
      · rw [if_pos h0]
        refine ⟨by rw [hsize, if_pos h0, hf.size], fun o ho => ?_⟩
        rw [hbytes o ho, List.length_eq_zero_iff.mp h0, write_nil, hf.bytes o ho]
      · rw [if_neg h0]
        refine ⟨by rw [hsize, if_neg h0, hf.size], fun o ho => ?_⟩
        rw [hbytes o ho]
        unfold ByteStore.write
        simp only [hf.bytes o ho]
    · refine ⟨other, by rw [List.getElem?_set_ne (Ne.symm hne)]; exact hj, ?_⟩
      have hother := hwf.others hl hi hfresh.not_mem hw.frame hj hne
      simp only [SparseFile.step, if_neg (Ne.symm hne)]
      exact ⟨hf.size, fun o ho => (hother.2 o).trans (hf.bytes o ho)⟩
  | read i offset length =>
    obtain ⟨node, hi, rfl⟩ := Option.map_eq_some_iff.mp hstep
    have hn := hwf.nodes node (List.mem_of_getElem? hi)
    rw [minixReadAt_spec sb s.disk _ _ hn.zones hok]
    simp only [set_same hi]
    exact ⟨hwf, fun j other f hj hf => ⟨other, hj, hf⟩⟩
  | trunc i length => exact hok.elim

theorem runs_holds {ops : List FileOp} (hl : Layout sb) (hpos : 0 < sb.first_data_zone)
    (hr : Runs (fsStep sb) (FreshIo sb) s ops t) (hwf : s.WellFormed sb) :
    t.WellFormed sb ∧ ∀ i node f, s.nodes[i]? = some node → Holds s.disk node f →
      ∃ node', t.nodes[i]? = some node' ∧ Holds t.disk node' (ops.foldl (SparseFile.step i) f) := by
  induction hr with
  | nil s => exact ⟨hwf, fun i node f hi hf => ⟨node, hi, hf⟩⟩
  | cons hok hstep _ ih =>
    obtain ⟨hwf', hone⟩ := fsStep_holds hl hpos hwf hok hstep
    obtain ⟨hwf'', hrest⟩ := ih hwf'
    refine ⟨hwf'', fun i node f hi hf => ?_⟩
    obtain ⟨node₁, hi₁, hf₁⟩ := hone i node f hi hf
    exact hrest i node₁ _ hi₁ hf₁

/-- A read of the node returns the bytes up to the size that `byte` gives. -/
def ReadsBytes (sb : Minix3Superblock) (disk : Store) (node : MinixVfsNode) (byte : ℕ → UInt8) : Prop :=
  ∀ offset length, offset + length ≤ maxFileSize →
    minixReadAt sb disk node offset length =
      ⟨.success, min length (node.stat.size - offset),
        (List.range (min length (node.stat.size - offset))).map (fun k => byte (offset + k)),
        node, disk, []⟩

/-- A write to the node `i` changes its own range and the size; an empty write and
the other files change nothing. -/
def WritesOwnRange (sb : Minix3Superblock) (s : FsState) (i : ℕ) (node : MinixVfsNode) : Prop :=
  ∀ buff offset, FreshIo sb s (.write i buff offset) →
    let r := minixWriteAt sb s.disk node buff offset
    r.outcome = .success ∧ r.ret = buff.length ∧
      r.node.stat.size =
        (if buff.length = 0 then node.stat.size else max node.stat.size (offset + buff.length)) ∧
      (∀ o < maxFileSize, fileByte r.disk r.node o =
        if offset ≤ o ∧ o < offset + buff.length then (buff[o - offset]?).getD 0
        else fileByte s.disk node o) ∧
      ∀ j other, j ≠ i → s.nodes[j]? = some other → ∀ o,
        fileByte r.disk other o = fileByte s.disk other o

theorem FsState.WellFormed.writesOwnRange (hl : Layout sb) (hpos : 0 < sb.first_data_zone)
    (hwf : s.WellFormed sb) {i : ℕ} {node : MinixVfsNode} (hi : s.nodes[i]? = some node) :
    WritesOwnRange sb s i node := by
  rintro buff offset ⟨hrange, hok⟩
  obtain ⟨hsome, hfresh⟩ := hok node hi
  have hw := minixWriteAt_spec hl hpos (hwf.nodes node (List.mem_of_getElem? hi)) (hfresh.of_node hi)
  obtain ⟨hout, hret, hsize, hbytes⟩ := hw.stored hsome hrange
  refine ⟨hout, hret, hsize, fun o ho => ?_, fun j other hne hj o => ?_⟩
  · rw [hbytes o ho]
    split_ifs with hin
    · have hlt : o - offset < buff.length := by omega
      simp [ByteStore.write, hin.1, hlt]
    · exact write_outside (by omega)
  · exact (hwf.others hl hi hfresh.not_mem hw.frame hj hne).2 o

/-- In every run of reads and writes with fresh allocations, a file holds at each
offset the byte last written there, and else what it held at the start, which is
zero in a file without zones. Its size is the largest end of a write. -/
theorem runs_contents {ops : List FileOp} {i : ℕ} {node : MinixVfsNode} (hl : Layout sb)
    (hpos : 0 < sb.first_data_zone) (hwf : s.WellFormed sb)
    (hr : Runs (fsStep sb) (FreshIo sb) s ops t) (hi : s.nodes[i]? = some node) :
    ∃ node', t.nodes[i]? = some node' ∧
      node'.stat.size =
        (ops.foldl (SparseFile.step i) ⟨node.stat.size, fileByte s.disk node⟩).size ∧
      ReadsBytes sb t.disk node'
        (fun o => (lastWritten i o ops).getD (fileByte s.disk node o)) ∧
      WritesOwnRange sb t i node' ∧
      ((∀ z ∈ node.zones, z = 0) → ∀ o, fileByte s.disk node o = 0) := by
  obtain ⟨hwf', hrun⟩ := runs_holds hl hpos hr hwf
  obtain ⟨node', hi', hsize, hbytes⟩ :=
    hrun i node ⟨node.stat.size, fileByte s.disk node⟩ hi ⟨rfl, fun _ _ => rfl⟩
  have hn := hwf'.nodes node' (List.mem_of_getElem? hi')
  refine ⟨node', hi', hsize, fun offset length hrange => ?_, hwf'.writesOwnRange hl hpos hi',
    fun hz o => ?_⟩
  · rw [minixReadAt_spec sb t.disk _ _ hn.zones hrange]
    congr 1
    apply List.map_congr_left
    intro k hk
    have hk := List.mem_range.mp hk
    rw [hbytes _ (by omega), foldl_step_bytes]
  · apply slotsByte_holes
    intro p hp
    apply hz
    rw [← map_snd_inodeSlots (hwf.nodes node (List.mem_of_getElem? hi)).zones]
    exact List.mem_map_of_mem hp

end Run

/-- One byte written to an empty file of the small device. -/
theorem runs_contents_one_byte : ∃ t, fsStep smallSb smallFs (.write 0 [7] 2) = some t ∧
    ∃ node', t.nodes[0]? = some node' ∧ node'.stat.size = 3 ∧
      (minixReadAt smallSb t.disk node' 0 4).buffer = [0, 0, 7] := by
  refine ⟨_, rfl, ?_⟩
  have hallocated : (minixWriteAt smallSb smallFs.disk (emptyNode 1) [7] 2).allocated = [some 5] := rfl
  have hzones : smallFs.zones = [] := rfl
  have hok : FreshIo smallSb smallFs (.write 0 [7] 2) := by
    refine ⟨by decide, fun node hn => ?_⟩
    obtain rfl : emptyNode 1 = node := by simpa [smallFs] using hn
    unfold FreshZones
    rw [hallocated, hzones]
    exact ⟨by simp, ⟨by simp [List.reduceOption], by simp [List.reduceOption, smallSb]⟩⟩
  obtain ⟨node', hi, hsize, hread, _, hzero⟩ := runs_contents (i := 0) smallSb_layout (by decide)
    smallFs_wellFormed (.cons hok rfl (.nil _)) rfl
  have hsize : node'.stat.size = 3 := hsize
  refine ⟨node', hi, hsize, ?_⟩
  have hzero := hzero (by simp [emptyNode])
  simp only [hread 0 4 (by decide), hsize, hzero]
  rfl

/-- An empty write after the end of a file does not move the end there. -/
theorem empty_write_keeps_size : smallFs.WellFormed smallSb ∧
    (minixWriteAt smallSb smallFs.disk (emptyNode 1) [] 5).outcome = .success ∧
      (minixWriteAt smallSb smallFs.disk (emptyNode 1) [] 5).node.stat.size ≠
        max (emptyNode 1).stat.size (5 + ([] : List UInt8).length) :=
  ⟨smallFs_wellFormed, by decide, by decide⟩

end SomeOs.Minix

import SomeOs.Minix.Directory
import SomeOs.Minix.ZoneMap

/-! # Directories as finite maps

The records of a directory give a list of entries with different names. Lookup
finds an entry by its name, and linking and unlinking change the entry of one name,
as long as names fit in a record and the truncation of the directory is safe.
-/
namespace SomeOs.Minix
open ByteStore Transition

abbrev Entry := ℕ × List UInt8

/-- The record `k` holds the entry. -/
structure IsRecord (bytes : Store) (k : ℕ) (e : Entry) : Prop where
  inode : readWord bytes (dirEntrySize * k) = e.1
  used : e.1 ≠ 0
  fits : e.2.length < nameSize
  terminated : 0 ∉ e.2
  name : ByteStore.read bytes (dirEntrySize * k + 4) (e.2.length + 1) = e.2 ++ [0]

def DirHolds (bytes : Store) (entries : List Entry) : Prop :=
  ∀ (k : ℕ) e, entries[k]? = some e → IsRecord bytes k e

/-- A file with the records of the given entries. -/
structure DirFile (sb : Minix3Superblock) (disk : Store) (node : MinixVfsNode)
    (entries : List Entry) : Prop where
  wf : FsState.WellFormed sb ⟨disk, [node]⟩
  stocked : Stocked sb (fileZones disk node) disk
  size : node.stat.size = dirEntrySize * entries.length
  range : node.stat.size ≤ maxFileSize
  holds : DirHolds (fileByte disk node) entries

structure Dir (sb : Minix3Superblock) (disk : Store) (node : MinixVfsNode) (entries : List Entry) : Prop
    extends DirFile sb disk node entries where
  names : (entries.map Prod.snd).Nodup

section Records
variable {bytes bytes' : Store} {k k' : ℕ} {e : Entry} {entries : List Entry}

theorem IsRecord.copy (h : IsRecord bytes k e)
    (hsame : ∀ i < dirEntrySize, bytes' (dirEntrySize * k' + i) = bytes (dirEntrySize * k + i)) :
    IsRecord bytes' k' e := by
  have hfits := h.fits
  refine ⟨?_, h.used, h.fits, h.terminated, ?_⟩
  · rw [← h.inode]
    have h0 := hsame 0 (by decide)
    simp only [Nat.add_zero] at h0
    simp only [readWord, h0, hsame 1 (by decide), hsame 2 (by decide), hsame 3 (by decide)]
  · rw [← h.name]
    apply read_congr
    intro i hi
    rw [Nat.add_assoc, Nat.add_assoc]
    apply hsame
    simp only [dirEntrySize, nameSize] at *
    omega

theorem DirHolds.set (h : DirHolds bytes entries) (hrec : IsRecord bytes' k e)
    (hother : ∀ j ≠ k, j < entries.length → ∀ i < dirEntrySize,
      bytes' (dirEntrySize * j + i) = bytes (dirEntrySize * j + i)) :
    DirHolds bytes' (entries.set k e) := by
  intro j e' hj
  by_cases hjk : j = k
  · subst hjk
    rw [List.getElem?_set] at hj
    simp only [if_true] at hj
    split_ifs at hj with hlt
    cases hj
    exact hrec
  · rw [List.getElem?_set_ne (Ne.symm hjk)] at hj
    exact (h j e' hj).copy (hother j hjk (List.getElem?_eq_some_iff.mp hj).1)

theorem DirHolds.push (h : DirHolds bytes entries) (hrec : IsRecord bytes' entries.length e)
    (hother : ∀ j < entries.length, ∀ i < dirEntrySize,
      bytes' (dirEntrySize * j + i) = bytes (dirEntrySize * j + i)) :
    DirHolds bytes' (entries ++ [e]) := by
  intro j e' hj
  rw [List.getElem?_append] at hj
  split_ifs at hj with hlt
  · exact (h j e' hj).copy (hother j hlt)
  · have hj0 : j - entries.length = 0 := by
      have := (List.getElem?_eq_some_iff.mp hj).1
      simp only [List.length_cons, List.length_nil] at this
      omega
    have hje : j = entries.length := by omega
    rw [hj0] at hj
    cases hj
    rw [hje]
    exact hrec

theorem DirHolds.dropLast (h : DirHolds bytes entries)
    (hother : ∀ j < entries.length - 1, ∀ i < dirEntrySize,
      bytes' (dirEntrySize * j + i) = bytes (dirEntrySize * j + i)) :
    DirHolds bytes' entries.dropLast := by
  intro j e' hj
  rw [List.getElem?_dropLast] at hj
  split_ifs at hj with hlt
  exact (h j e' hj).copy (hother j hlt)

/-- The record that a link stores. -/
theorem isRecord_dirEntryBytes {inode : ℕ} {name : List UInt8} (hpos : inode ≠ 0) (hlt : inode < 2 ^ 32)
    (hfits : name.length < nameSize) (hterm : 0 ∉ name)
    (hbytes : ∀ i < dirEntrySize, bytes (dirEntrySize * k + i) = (dirEntryBytes inode name).getD i 0) :
    IsRecord bytes k (inode, name) := by
  have hentry : dirEntryBytes inode name =
      wordBytes inode ++ (name ++ List.replicate (nameSize - name.length) 0) := by
    unfold dirEntryBytes
    simp only [if_neg (not_le.mpr hfits), List.take_length]
  rw [hentry] at hbytes
  have hrecord : IsRecord (fun a => (wordBytes inode ++
      (name ++ List.replicate (nameSize - name.length) 0)).getD a 0) 0 (inode, name) := by
    refine ⟨?_, hpos, hfits, hterm, ?_⟩
    · refine (readWord_congr ?_).trans (readWord_write (s := fun _ => 0) hlt)
      intro i hi
      have hi' : i < (wordBytes inode).length := hi
      simp only [Nat.zero_add, ByteStore.write, Nat.zero_le, if_true, Nat.sub_zero, Nat.mul_zero,
        List.getD_eq_getElem?_getD, List.getElem?_append_left hi']
    · apply List.ext_getElem?
      intro i
      by_cases hi : i < name.length + 1
      · have hget : ∀ j : ℕ, (wordBytes inode ++
            (name ++ List.replicate (nameSize - name.length) 0))[4 + j]? =
            (name ++ List.replicate (nameSize - name.length) 0)[j]? := by
          intro j
          rw [List.getElem?_append_right (by simp)]
          simp
        rw [read_getElem? hi]
        simp only [Nat.mul_zero, Nat.zero_add, List.getD_eq_getElem?_getD, hget]
        by_cases hin : i < name.length
        · rw [List.getElem?_append_left hin, List.getElem?_append_left hin,
            List.getElem?_eq_getElem hin]
          rfl
        · have hi0 : i = name.length := by omega
          subst hi0
          rw [List.getElem?_append_right le_rfl, List.getElem?_append_right le_rfl, Nat.sub_self,
            List.getElem?_replicate_of_lt (by omega)]
          rfl
      · rw [List.getElem?_eq_none (by simpa using hi), List.getElem?_eq_none (by simpa using hi)]
  refine hrecord.copy (fun i hi => ?_)
  rw [hbytes i hi]
  simp

theorem index_eq (hn : (entries.map Prod.snd).Nodup) {i j : ℕ} {a b : Entry} (hi : entries[i]? = some a)
    (hj : entries[j]? = some b) (hname : a.2 = b.2) : i = j := by
  have hlt : i < (entries.map Prod.snd).length := by
    simpa using (List.getElem?_eq_some_iff.mp hi).1
  apply (List.getElem?_inj hlt hn).mp
  rw [List.getElem?_map, List.getElem?_map, hi, hj, Option.map_some, Option.map_some, hname]

end Records

section Lookup
variable {bytes : Store} {entries : List Entry}

theorem takeWhile_terminated {xs ys : List UInt8} (h : 0 ∉ xs) :
    (xs ++ 0 :: ys).takeWhile (· ≠ 0) = xs := by
  rw [List.takeWhile_append_of_pos]
  · simp
  · intro x hx
    simp only [decide_eq_true_eq]
    rintro rfl
    exact h hx

theorem IsRecord.in_buffer {k a n i : ℕ} {e : Entry} (h : IsRecord bytes k e)
    (hpos : a + i = dirEntrySize * k) (hn : i + dirEntrySize ≤ n) :
    bufferWord (ByteStore.read bytes a n) i = e.1 ∧ cString (ByteStore.read bytes a n) (i + 4) = e.2 := by
  have hfits := h.fits
  constructor
  · rw [← h.inode, ← hpos]
    have hbyte : ∀ j < dirEntrySize, (ByteStore.read bytes a n).getD (i + j) 0 = bytes (a + i + j) := by
      intro j hj
      rw [List.getD_eq_getElem?_getD, read_getElem? (by omega), Nat.add_assoc]
      rfl
    have h0 := hbyte 0 (by decide)
    simp only [Nat.add_zero] at h0
    simp only [bufferWord, readWord, h0, hbyte 1 (by decide), hbyte 2 (by decide), hbyte 3 (by decide)]
  · obtain ⟨m, hm⟩ := Nat.exists_eq_add_of_le
      (show e.2.length + 1 ≤ n - (i + 4) by simp only [dirEntrySize, nameSize] at *; omega)
    have hname := h.name
    rw [← hpos] at hname
    unfold cString
    rw [read_drop, hm, ← Nat.add_assoc, read_add, hname, List.append_assoc, List.singleton_append]
    exact takeWhile_terminated h.terminated

/-- The entries of a chunk are compared one after the other. -/
theorem searchEntries_spec (hd : DirHolds bytes entries) (name : List UInt8) {a m n i : ℕ} (hlen : a + m ≤ entries.length)
    (hin : i + n = m) :
    (∃ k e, entries[k]? = some e ∧ e.2 = name ∧
      searchEntries (ByteStore.read bytes (dirEntrySize * a) (dirEntrySize * m)) name n i
        (dirEntrySize * (a + i)) = .inl (e.1, dirEntrySize * k)) ∨
    ((∀ k e, a + i ≤ k → k < a + m → entries[k]? = some e → e.2 ≠ name) ∧
      searchEntries (ByteStore.read bytes (dirEntrySize * a) (dirEntrySize * m)) name n i
        (dirEntrySize * (a + i)) = .inr (dirEntrySize * (a + m))) := by
  induction n generalizing i with
  | zero =>
    obtain rfl : i = m := by omega
    exact Or.inr ⟨fun k e h1 h2 => by omega, rfl⟩
  | succ n ih =>
    obtain ⟨e, he⟩ : ∃ e, entries[a + i]? = some e := ⟨_, List.getElem?_eq_getElem (by omega)⟩
    have hrec := hd _ _ he
    obtain ⟨hword, hname⟩ := hrec.in_buffer (a := dirEntrySize * a) (n := dirEntrySize * m)
      (i := dirEntrySize * i) (by ring) (by simp only [dirEntrySize]; omega)
    simp only [searchEntries, hword, hname]
    by_cases hne : e.2 = name
    · left
      refine ⟨a + i, e, he, hne, ?_⟩
      rw [if_pos ⟨hrec.used, hne⟩]
    · rw [if_neg (fun h => hne h.2)]
      have hnext : dirEntrySize * (a + i) + dirEntrySize = dirEntrySize * (a + (i + 1)) := by ring
      rw [hnext]
      rcases ih (i := i + 1) (by omega) with hfound | ⟨hall, hend⟩
      · exact Or.inl hfound
      · refine Or.inr ⟨fun k e' h1 h2 hk => ?_, hend⟩
        by_cases hk0 : k = a + i
        · subst hk0
          rw [he] at hk
          cases hk
          exact hne
        · exact hall k e' (by omega) h2 hk

section Spec
variable {sb : Minix3Superblock} {disk : Store} {node : MinixVfsNode}

/-- The chunks of a directory are searched one after the other. -/
theorem searchDirectory_spec (hd : Dir sb disk node entries) (name : List UInt8) {n a left : ℕ}
    (hleft : dirEntrySize * a + left = node.stat.size) (ha : a ≤ entries.length) (hn : left ≤ n) :
    (∃ k e, entries[k]? = some e ∧ e.2 = name ∧
      searchDirectory sb disk node name n (dirEntrySize * a) left = .found e.1 (dirEntrySize * k)) ∨
    ((∀ k e, a ≤ k → entries[k]? = some e → e.2 ≠ name) ∧
      searchDirectory sb disk node name n (dirEntrySize * a) left = .failed (.error .ENOENT)) := by
  have hsize := hd.size
  have hrange := hd.range
  have hnone : left = 0 → ∀ k e, a ≤ k → entries[k]? = some e → e.2 ≠ name := by
    intro h0 k e hk he
    have hlt := (List.getElem?_eq_some_iff.mp he).1
    simp only [dirEntrySize] at *
    omega
  induction n generalizing a left with
  | zero => exact Or.inr ⟨hnone (by omega), rfl⟩
  | succ n ih =>
    simp only [searchDirectory]
    by_cases h0 : left = 0
    · rw [if_pos h0]
      exact Or.inr ⟨hnone h0, rfl⟩
    · have hread := minixReadAt_spec sb disk (dirEntrySize * a) (min maxLookupReadSize left)
        (hd.wf.nodes node List.mem_cons_self).zones (by omega)
      have hret : min (min maxLookupReadSize left) (node.stat.size - dirEntrySize * a) =
          dirEntrySize * min 1024 (entries.length - a) := by
        simp only [dirEntrySize, maxLookupReadSize] at *
        omega
      rw [if_neg h0, hread, hret]
      generalize hm : min 1024 (entries.length - a) = m
      have hpos : m ≠ 0 := by
        simp only [dirEntrySize] at *
        omega
      have hdiv : dirEntrySize * m / dirEntrySize = m := by
        simp only [dirEntrySize]
        omega
      have hne : dirEntrySize * m ≠ 0 := by
        simp only [dirEntrySize]
        omega
      simp only [ne_eq, not_true_eq_false, if_false, hne, hdiv]
      have hchunk := searchEntries_spec hd.holds name (a := a) (m := m) (n := m) (i := 0)
        (by omega) (by omega)
      simp only [Nat.add_zero] at hchunk
      rcases hchunk with ⟨k, e, he, hname, hfound⟩ | ⟨hall, hend⟩
      · left
        exact ⟨k, e, he, hname, by rw [hfound]⟩
      · rw [hend]
        have hleft' : dirEntrySize * (a + m) + (left - dirEntrySize * m) = node.stat.size := by
          simp only [dirEntrySize] at *
          omega
        have hnone' : left - dirEntrySize * m = 0 →
            ∀ k e, a + m ≤ k → entries[k]? = some e → e.2 ≠ name := by
          intro h0 k e hk he
          have hlt := (List.getElem?_eq_some_iff.mp he).1
          simp only [dirEntrySize] at *
          omega
        rcases ih hleft' (by omega) (by omega) hnone' with hfound | ⟨hrest, hres⟩
        · exact Or.inl hfound
        · refine Or.inr ⟨fun k e hk he => ?_, hres⟩
          by_cases hlt : k < a + m
          · exact hall k e hk hlt he
          · exact hrest k e (by omega) he

theorem minixInternalLookup_spec (hd : Dir sb disk node entries) (name : List UInt8) :
    (∃ k e, entries[k]? = some e ∧ e.2 = name ∧
      minixInternalLookup sb disk node name = .found e.1 (dirEntrySize * k)) ∨
    ((∀ e ∈ entries, e.2 ≠ name) ∧
      minixInternalLookup sb disk node name = .failed (.error .ENOENT)) := by
  have hleft : dirEntrySize * 0 + node.stat.size = node.stat.size := by omega
  have h := searchDirectory_spec hd name hleft (Nat.zero_le _) le_rfl
  rw [Nat.mul_zero] at h
  rcases h with hfound | ⟨hall, hres⟩
  · exact Or.inl hfound
  · refine Or.inr ⟨fun e he => ?_, hres⟩
    obtain ⟨k, hk⟩ := List.mem_iff_getElem?.mp he
    exact hall k e (by omega) hk

end Spec

section Write
variable {sb : Minix3Superblock} {disk : Store} {node : MinixVfsNode} {k : ℕ} {e old : Entry}

theorem zones_singleton (disk : Store) (node : MinixVfsNode) :
    FsState.zones ⟨disk, [node]⟩ = fileZones disk node := by
  simp [FsState.zones]

theorem DirFile.written (hl : Layout sb) (hle : sb.zones ≤ 2 ^ 32) (hd : DirFile sb disk node entries)
    (buff : List UInt8) (offset : ℕ) :
    FsState.WellFormed sb ⟨(minixWriteAt sb disk node buff offset).disk,
        [(minixWriteAt sb disk node buff offset).node]⟩ ∧
      Stocked sb (fileZones (minixWriteAt sb disk node buff offset).disk
        (minixWriteAt sb disk node buff offset).node) (minixWriteAt sb disk node buff offset).disk ∧
      FileWritten sb disk node buff offset (minixWriteAt sb disk node buff offset) := by
  have hn := hd.wf.nodes node List.mem_cons_self
  have hpos := hl.two_le
  have hs : Stocked sb (FsState.zones ⟨disk, [node]⟩) disk := by
    rw [zones_singleton]
    exact hd.stocked
  have hstep : fsStep sb ⟨disk, [node]⟩ (.write 0 buff offset) =
      some ⟨(minixWriteAt sb disk node buff offset).disk,
        [(minixWriteAt sb disk node buff offset).node]⟩ := rfl
  have hop : Changes ⟨disk, [node]⟩ (.write 0 buff offset) := trivial
  obtain ⟨hwf, hst⟩ := fsStep_stocked hl hle hd.wf hs hop hstep
  rw [zones_singleton] at hst
  refine ⟨hwf, hst, minixWriteAt_spec hl (by omega) hn ?_⟩
  exact hd.stocked.fresh hle (minixWriteAt_taken hl (by omega) hle hn hd.stocked buff offset)

theorem IsRecord.byte_ne_zero (h : IsRecord bytes k e) :
    ∃ i < 4, bytes (dirEntrySize * k + i) ≠ 0 := by
  by_contra hall
  push Not at hall
  have h0 := hall 0 (by omega)
  simp only [Nat.add_zero] at h0
  apply h.used
  rw [← h.inode]
  simp [readWord, h0, hall 1, hall 2, hall 3]

/-- Storing a record over one that is in use. -/
theorem DirFile.set (hl : Layout sb) (hle : sb.zones ≤ 2 ^ 32) (hd : DirFile sb disk node entries)
    {buff : List UInt8} (hk : entries[k]? = some old) (hbuff : buff.length = dirEntrySize)
    (hrec : ∀ bytes : Store, (∀ i < dirEntrySize, bytes (dirEntrySize * k + i) = buff.getD i 0) →
      IsRecord bytes k e) :
    (minixWriteAt sb disk node buff (dirEntrySize * k)).outcome = .success ∧
      (minixWriteAt sb disk node buff (dirEntrySize * k)).ret = dirEntrySize ∧
      DirFile sb (minixWriteAt sb disk node buff (dirEntrySize * k)).disk
        (minixWriteAt sb disk node buff (dirEntrySize * k)).node (entries.set k e) := by
  have hn := hd.wf.nodes node List.mem_cons_self
  have hsize := hd.size
  have hrange := hd.range
  have hlt := (List.getElem?_eq_some_iff.mp hk).1
  obtain ⟨i, hi, hbyte⟩ := (hd.holds k old hk).byte_ne_zero
  have hmax : dirEntrySize * k < maxFileSize := by
    simp only [dirEntrySize] at *
    omega
  have hone : dirEntrySize * k % blockSize + buff.length ≤ blockSize := by
    rw [hbuff]
    simp only [dirEntrySize, blockSize]
    omega
  have hblock : (dirEntrySize * k + i) / blockSize = dirEntrySize * k / blockSize := by
    simp only [dirEntrySize, blockSize]
    omega
  have hnew := minixWriteAt_overwrite sb disk hn.zones hmax hone hblock hbyte
  obtain ⟨hwf, hst, hw⟩ := hd.written hl hle buff (dirEntrySize * k)
  obtain ⟨hout, hret, hsz, hbytes⟩ := hw.stored (by rw [hnew]; simp)
    (by rw [hbuff]; simp only [dirEntrySize] at *; omega)
  have hsz' : (minixWriteAt sb disk node buff (dirEntrySize * k)).node.stat.size = node.stat.size := by
    rw [hsz, hbuff]
    simp only [dirEntrySize] at *
    rw [if_neg (by omega)]
    omega
  refine ⟨hout, hret.trans hbuff, hwf, hst, ?_, ?_, ?_⟩
  · rw [hsz', List.length_set, hsize]
  · rw [hsz']
    exact hrange
  · refine hd.holds.set (hrec _ (fun i hi => ?_)) (fun j hj hjl i hi => ?_)
    · rw [hbytes _ (by simp only [dirEntrySize] at *; omega)]
      exact write_inside (by rw [List.getD_eq_getElem?_getD, List.getElem?_eq_getElem (by omega)]; rfl)
    · rw [hbytes _ (by simp only [dirEntrySize] at *; omega)]
      apply write_outside
      rw [hbuff]
      simp only [dirEntrySize] at *
      omega

/-- Storing a record after the last one, when there is space for it. -/
theorem Dir.push (hl : Layout sb) (hle : sb.zones ≤ 2 ^ 32) (hd : Dir sb disk node entries)
    {buff : List UInt8} (hbuff : buff.length = dirEntrySize)
    (hmax : node.stat.size + dirEntrySize ≤ maxFileSize)
    (hrec : ∀ bytes : Store,
      (∀ i < dirEntrySize, bytes (dirEntrySize * entries.length + i) = buff.getD i 0) →
      IsRecord bytes entries.length e) (hnames : ((entries ++ [e]).map Prod.snd).Nodup) :
    let w := minixWriteAt sb disk node buff node.stat.size
    (w.outcome = .success ∧ w.ret = dirEntrySize ∧ Dir sb w.disk w.node (entries ++ [e])) ∨
      (w.outcome = .error .ENOSPC ∧ Dir sb w.disk w.node entries) := by
  intro w
  have hsize := hd.size
  obtain ⟨hwf, hst, hw⟩ := hd.written hl hle buff node.stat.size
  have hkeep : ∀ j < entries.length, ∀ i < dirEntrySize,
      fileByte w.disk w.node (dirEntrySize * j + i) = fileByte disk node (dirEntrySize * j + i) := by
    intro j hj i hi
    apply hw.keeps
    simp only [dirEntrySize] at *
    omega
  by_cases hnone : none ∈ w.allocated
  · obtain ⟨hout, hstat⟩ := hw.failed hnone
    refine Or.inr ⟨hout, ⟨hwf, hst, by rw [hstat]; exact hsize, by rw [hstat]; exact hd.range, ?_⟩, hd.names⟩
    exact fun j e' hj => (hd.holds j e' hj).copy (hkeep j (List.getElem?_eq_some_iff.mp hj).1)
  · obtain ⟨hout, hret, hsz, hbytes⟩ := hw.stored hnone (by rw [hbuff]; exact hmax)
    have hsz' : w.node.stat.size = node.stat.size + dirEntrySize := by
      rw [hsz, hbuff, if_neg (by decide)]
      omega
    refine Or.inl ⟨hout, hret.trans hbuff, ⟨hwf, hst, ?_, by rw [hsz']; exact hmax, ?_⟩, hnames⟩
    · rw [hsz', hsize, List.length_append, List.length_singleton]
      ring
    · refine hd.holds.push (hrec _ (fun i hi => ?_)) hkeep
      rw [hbytes _ (by simp only [dirEntrySize] at *; omega), hsize]
      exact write_inside (by rw [List.getD_eq_getElem?_getD, List.getElem?_eq_getElem (by omega)]; rfl)

theorem dirEntryBytes_length (inode : ℕ) (name : List UInt8) :
    (dirEntryBytes inode name).length = dirEntrySize := by
  unfold dirEntryBytes
  simp only [List.length_append, wordBytes_length, List.length_take, List.length_replicate, nameSize,
    dirEntrySize]
  split_ifs <;> omega

def LinkedTo (entries entries' : List Entry) (name : List UInt8) (inode : ℕ) : Prop :=
  ∀ i other, (i, other) ∈ entries' ↔ if other = name then i = inode else (i, other) ∈ entries

theorem LinkedTo.set {name : List UInt8} {inode : ℕ} (hn : (entries.map Prod.snd).Nodup)
    (hk : entries[k]? = some e) (hname : e.2 = name) :
    LinkedTo entries (entries.set k (inode, name)) name inode := by
  intro i other
  have hlt := (List.getElem?_eq_some_iff.mp hk).1
  constructor
  · intro hmem
    obtain ⟨j, hj⟩ := List.mem_iff_getElem?.mp hmem
    by_cases hjk : j = k
    · subst hjk
      rw [List.getElem?_set_self hlt] at hj
      cases hj
      rw [if_pos rfl]
    · rw [List.getElem?_set_ne (Ne.symm hjk)] at hj
      have hne : other ≠ name := fun h => hjk (index_eq hn hj hk (h.trans hname.symm))
      rw [if_neg hne]
      exact List.mem_of_getElem? hj
  · intro h
    split_ifs at h with hother
    · subst h hother
      exact List.mem_of_getElem? (List.getElem?_set_self hlt)
    · obtain ⟨j, hj⟩ := List.mem_iff_getElem?.mp h
      have hjk : j ≠ k := by
        rintro rfl
        rw [hk] at hj
        cases hj
        exact hother hname
      refine List.mem_of_getElem? (i := j) ?_
      rw [List.getElem?_set_ne (Ne.symm hjk)]
      exact hj

theorem LinkedTo.push {name : List UInt8} {inode : ℕ} (hall : ∀ e ∈ entries, e.2 ≠ name) :
    LinkedTo entries (entries ++ [(inode, name)]) name inode := by
  intro i other
  rw [List.mem_append, List.mem_singleton, Prod.mk.injEq]
  split_ifs with hother
  · subst hother
    constructor
    · rintro (h | h)
      · exact absurd rfl (hall _ h)
      · exact h.1
    · exact fun h => Or.inr ⟨h, rfl⟩
  · constructor
    · rintro (h | h)
      · exact h
      · exact absurd h.2 hother
    · exact Or.inl

/-- Link gives a name that fits to an inode, or runs out of space. -/
theorem minixLink_spec (hl : Layout sb) (hle : sb.zones ≤ 2 ^ 32) (hd : Dir sb disk node entries)
    {name : List UInt8} {inode : ℕ} (hpos : inode ≠ 0) (hlt : inode < 2 ^ 32)
    (hfits : name.length < nameSize) (hterm : 0 ∉ name)
    (hmax : node.stat.size + dirEntrySize ≤ maxFileSize) :
    let r := minixLink sb disk node name inode
    (r.outcome = .success ∧ ∃ entries', LinkedTo entries entries' name inode ∧ Dir sb r.disk r.node entries') ∨
      (r.outcome = .error .ENOSPC ∧ Dir sb r.disk r.node entries) := by
  intro r
  have hbuff := dirEntryBytes_length inode name
  rcases minixInternalLookup_spec hd name with ⟨k, e, hk, hname, hlook⟩ | ⟨hall, hlook⟩
  · obtain ⟨hout, hret, hdir⟩ := hd.set hl hle hk hbuff
      (fun bytes hb => isRecord_dirEntryBytes hpos hlt hfits hterm hb)
    have hr : r = ⟨.success, (minixWriteAt sb disk node (dirEntryBytes inode name) (dirEntrySize * k)).node,
        (minixWriteAt sb disk node (dirEntryBytes inode name) (dirEntrySize * k)).disk⟩ := by
      simp [r, minixLink, hlook, linkAt, hout, hret]
    have hnames : ((entries.set k (inode, name)).map Prod.snd).Nodup := by
      obtain ⟨hlt, hget⟩ := List.getElem?_eq_some_iff.mp hk
      have hlt' : k < (entries.map Prod.snd).length := by simpa using hlt
      have hself : name = (entries.map Prod.snd)[k] := by simp [hget, hname]
      have hsame : (entries.set k (inode, name)).map Prod.snd = entries.map Prod.snd := by
        rw [List.map_set]
        conv_lhs => rw [hself]
        exact List.set_getElem_self hlt'
      rw [hsame]
      exact hd.names
    rw [hr]
    exact Or.inl ⟨rfl, entries.set k (inode, name), .set hd.names hk hname, hdir, hnames⟩
  · have hnames : ((entries ++ [(inode, name)]).map Prod.snd).Nodup := by
      rw [List.map_append, List.nodup_append']
      refine ⟨hd.names, List.nodup_singleton _, fun n hn hn' => ?_⟩
      obtain ⟨e, he, rfl⟩ := List.mem_map.mp hn
      exact hall e he (by simpa using hn')
    have hr : r = linkAt sb disk node (dirEntryBytes inode name) node.stat.size := by
      simp only [r, minixLink, hlook]
    rw [hr]
    rcases hd.push hl hle hbuff hmax (fun bytes hb => isRecord_dirEntryBytes hpos hlt hfits hterm hb)
      hnames with ⟨hout, hret, hdir⟩ | ⟨hout, hdir⟩
    · left
      simp only [linkAt, hout, hret, ne_eq, not_true_eq_false, if_false, true_and]
      exact ⟨_, .push hall, hdir⟩
    · right
      simp only [linkAt, hout, ne_eq, reduceCtorEq, not_false_eq_true, if_true, true_and]
      exact hdir

end Write

section Unlink
variable {sb : Minix3Superblock} {disk : Store} {node : MinixVfsNode} {k : ℕ} {e last : Entry}

/-- The sizes that a directory without holes can be truncated to: outside of the first
block and of the ranges of the indirect slots. -/
def DirTruncSize (length : ℕ) : Prop :=
  length = 0 ∨ (blockSize ≤ length ∧ length ≤ 7 * blockSize) ∨
    length = 7 * blockSize + zoneSize 1 ∨ length = 7 * blockSize + zoneSize 1 + zoneSize 2

theorem DirTruncSize.safe {length : ℕ} (h : DirTruncSize length) (disk : Store)
    (hn : node.zones.length = 10) : TruncSafe disk node length := by
  have h0 : zoneSize 0 = blockSize := zoneSize_zero
  have h2 : 0 < zoneSize 2 := by decide
  constructor
  · rintro ⟨hpos, hlt, _⟩
    rcases h with h | ⟨h, _⟩ | h | h <;> omega
  · intro q hq hdepth hstart hend
    exfalso
    rw [inodeSlots_zip hn] at hq
    obtain ⟨z0, z1, z2, z3, z4, z5, z6, z7, z8, z9, hz⟩ : ∃ z0 z1 z2 z3 z4 z5 z6 z7 z8 z9,
        node.zones = [z0, z1, z2, z3, z4, z5, z6, z7, z8, z9] := by
      match node.zones, hn with
      | [z0, z1, z2, z3, z4, z5, z6, z7, z8, z9], _ => exact ⟨_, _, _, _, _, _, _, _, _, _, rfl⟩
    rw [hz] at hq
    simp only [List.zip_cons_cons, List.zip_nil_right, withStarts, List.mem_cons, List.not_mem_nil, or_false,
      h0] at hq
    unfold DirTruncSize at h
    rcases hq with rfl | rfl | rfl | rfl | rfl | rfl | rfl | rfl | rfl | rfl <;>
      simp only [ne_eq, not_true_eq_false] at hdepth hstart hend <;> omega

def removeEntry (entries : List Entry) (k : ℕ) (last : Entry) : List Entry :=
  (entries.set k last).dropLast

theorem getElem?_removeEntry {j : ℕ} (hlast : entries[entries.length - 1]? = some last) :
    (removeEntry entries k last)[j]? =
      if j < entries.length - 1 then entries[if j = k then entries.length - 1 else j]? else none := by
  unfold removeEntry
  rw [List.getElem?_dropLast, List.length_set]
  split_ifs with hlt hjk
  · subst hjk
    rw [List.getElem?_set_self (by omega), hlast]
  · rw [List.getElem?_set_ne (Ne.symm hjk)]
  · rfl

/-- The names of the other entries stay, each once. -/
theorem mem_removeEntry (hn : (entries.map Prod.snd).Nodup) (hk : entries[k]? = some e)
    (hlast : entries[entries.length - 1]? = some last) (x : Entry) :
    x ∈ removeEntry entries k last ↔ x.2 ≠ e.2 ∧ x ∈ entries := by
  have hlt := (List.getElem?_eq_some_iff.mp hk).1
  constructor
  · intro hx
    obtain ⟨j, hj⟩ := List.mem_iff_getElem?.mp hx
    rw [getElem?_removeEntry hlast] at hj
    split_ifs at hj with hjl hjk
    · refine ⟨fun hname => ?_, List.mem_of_getElem? hj⟩
      have := index_eq hn hj hk hname
      omega
    · exact ⟨fun hname => hjk (index_eq hn hj hk hname), List.mem_of_getElem? hj⟩
  · rintro ⟨hne, hx⟩
    obtain ⟨j, hj⟩ := List.mem_iff_getElem?.mp hx
    have hjk : j ≠ k := by
      rintro rfl
      rw [hk] at hj
      cases hj
      exact hne rfl
    have hjl := (List.getElem?_eq_some_iff.mp hj).1
    -- the last entry has moved to `k`, all others are where they were
    by_cases hend : j = entries.length - 1
    · refine List.mem_of_getElem? (i := k) ?_
      rw [getElem?_removeEntry hlast, if_pos (by omega), if_pos rfl, ← hend]
      exact hj
    · refine List.mem_of_getElem? (i := j) ?_
      rw [getElem?_removeEntry hlast, if_pos (by omega), if_neg hjk]
      exact hj

theorem nodup_removeEntry (hn : (entries.map Prod.snd).Nodup)
    (hlast : entries[entries.length - 1]? = some last) :
    ((removeEntry entries k last).map Prod.snd).Nodup := by
  rw [List.nodup_iff_getElem?_ne_getElem?]
  intro i j hij hj heq
  rw [List.length_map] at hj
  have hlen : (removeEntry entries k last).length = entries.length - 1 := by
    simp [removeEntry]
  obtain ⟨b, hb⟩ : ∃ b, (removeEntry entries k last)[j]? = some b := ⟨_, List.getElem?_eq_getElem hj⟩
  obtain ⟨a, ha⟩ : ∃ a, (removeEntry entries k last)[i]? = some a :=
    ⟨_, List.getElem?_eq_getElem (hij.trans hj)⟩
  rw [List.getElem?_map, List.getElem?_map, ha, hb] at heq
  have hname : a.2 = b.2 := by simpa using heq
  rw [getElem?_removeEntry hlast, if_pos (by omega)] at ha hb
  have := index_eq hn ha hb hname
  split_ifs at this <;> omega

/-- Cutting off the last record. -/
theorem DirFile.dropLast (hl : Layout sb) (hle : sb.zones ≤ 2 ^ 32) (hd : DirFile sb disk node entries)
    (hsafe : DirTruncSize (node.stat.size - dirEntrySize)) :
    let t := minixTrunc sb disk node (node.stat.size - dirEntrySize)
    t.outcome = .success ∧ DirFile sb t.disk t.node entries.dropLast := by
  intro t
  have hsize := hd.size
  have hrange := hd.range
  have hn := hd.wf.nodes node List.mem_cons_self
  have hm : Mapped sb (fileZones disk node) :=
    ⟨hd.stocked.separate, fun z hz => (hd.stocked.set z hz).1⟩
  have hts := hsafe.safe disk hn.zones
  have ht := minixTrunc_spec hl hn hm hts.1
  have hs : Stocked sb (FsState.zones ⟨disk, [node]⟩) disk := by
    rw [zones_singleton]
    exact hd.stocked
  have hstep : fsStep sb ⟨disk, [node]⟩ (.trunc 0 (node.stat.size - dirEntrySize)) =
      some ⟨t.disk, [t.node]⟩ := by
    simp [fsStep, ht.outcome, t]
  obtain ⟨hwf, hst⟩ := fsStep_stocked hl hle hd.wf hs (show Changes _ (.trunc _ _) from trivial) hstep
  rw [zones_singleton] at hst
  have hsz : t.node.stat.size = dirEntrySize * entries.dropLast.length := by
    rw [ht.size, hsize, List.length_dropLast]
    simp only [dirEntrySize]
    omega
  refine ⟨ht.outcome, hwf, hst, hsz, by rw [ht.size]; omega, ?_⟩
  refine hd.holds.dropLast (fun j hj i hi => (ht.correct hn hm hts).kept _ ?_)
  simp only [dirEntrySize] at *
  omega

/-- Unlink removes a name that is there, as long as the truncation is safe. -/
theorem minixUnlink_found (hl : Layout sb) (hle : sb.zones ≤ 2 ^ 32) (hd : Dir sb disk node entries)
    {name : List UInt8} (hk : entries[k]? = some e) (hname : e.2 = name)
    (hlook : minixInternalLookup sb disk node name = .found e.1 (dirEntrySize * k))
    (hsafe : DirTruncSize (node.stat.size - dirEntrySize)) :
    let r := minixUnlink sb disk node name
    r.outcome = .success ∧ ∃ entries', (∀ x, x ∈ entries' ↔ x.2 ≠ name ∧ x ∈ entries) ∧
      Dir sb r.disk r.node entries' := by
  intro r
  have hn := hd.wf.nodes node List.mem_cons_self
  have hlt := (List.getElem?_eq_some_iff.mp hk).1
  have hsize := hd.size
  have hrange := hd.range
  obtain ⟨last, hlast⟩ : ∃ last, entries[entries.length - 1]? = some last :=
    ⟨_, List.getElem?_eq_getElem (by omega)⟩
  have hpos : node.stat.size - dirEntrySize = dirEntrySize * (entries.length - 1) := by
    simp only [dirEntrySize] at *
    omega
  have hread := minixReadAt_spec sb disk (node.stat.size - dirEntrySize) dirEntrySize hn.zones
    (by simp only [dirEntrySize] at *; omega)
  have hret : min dirEntrySize (node.stat.size - (node.stat.size - dirEntrySize)) = dirEntrySize := by
    simp only [dirEntrySize] at *
    omega
  rw [hret] at hread
  -- the record that was read is the last one, at whatever place it is stored
  have hrec : ∀ bytes : Store, (∀ i < dirEntrySize, bytes (dirEntrySize * k + i) =
      (ByteStore.read (fileByte disk node) (node.stat.size - dirEntrySize) dirEntrySize).getD i 0) →
      IsRecord bytes k last := by
    intro bytes hb
    refine (hd.holds _ last hlast).copy (fun i hi => ?_)
    rw [hb i hi, List.getD_eq_getElem?_getD, read_getElem? hi, hpos]
    rfl
  obtain ⟨hout, _, hset⟩ := hd.set hl hle hk (by simp) hrec
  generalize hw : minixWriteAt sb disk node (ByteStore.read (fileByte disk node)
    (node.stat.size - dirEntrySize) dirEntrySize) (dirEntrySize * k) = w at hout hset
  have hwsize : w.node.stat.size = node.stat.size := by
    rw [hset.size, List.length_set, hsize]
  obtain ⟨htout, hdrop⟩ := hset.dropLast hl hle (by rw [hwsize]; exact hsafe)
  have hr : r = ⟨.success, (minixTrunc sb w.disk w.node (w.node.stat.size - dirEntrySize)).node,
      (minixTrunc sb w.disk w.node (w.node.stat.size - dirEntrySize)).disk⟩ := by
    simp only [r, minixUnlink, hlook, hread, hw, hout, htout, ne_eq, not_true_eq_false, if_false]
  rw [hr]
  refine ⟨rfl, removeEntry entries k last, fun x => ?_, hdrop, nodup_removeEntry hd.names hlast⟩
  rw [← hname]
  exact mem_removeEntry hd.names hk hlast x

end Unlink

section Readdir
variable {sb : Minix3Superblock} {disk : Store} {node : MinixVfsNode}

theorem minixReaddirAt_spec (hd : DirFile sb disk node entries) {k : ℕ} {e : Entry} (hk : entries[k]? = some e)
    (length : ℕ) :
    minixReaddirAt sb disk node (dirEntrySize * k) length =
      ⟨.success, dirEntrySize, min (vfsEntrySize + e.2.length + 1) length,
        some ⟨e.1, dirEntrySize * k, vfsEntrySize + e.2.length + 1, .unknown, e.2⟩⟩ := by
  have hn := hd.wf.nodes node List.mem_cons_self
  have hlt := (List.getElem?_eq_some_iff.mp hk).1
  have hsize := hd.size
  have hrange := hd.range
  have hread := minixReadAt_spec sb disk (dirEntrySize * k) dirEntrySize hn.zones
    (by simp only [dirEntrySize] at *; omega)
  have hret : min dirEntrySize (node.stat.size - dirEntrySize * k) = dirEntrySize := by
    simp only [dirEntrySize] at *
    omega
  rw [hret] at hread
  obtain ⟨hword, hname⟩ := (hd.holds k e hk).in_buffer (a := dirEntrySize * k) (n := dirEntrySize)
    (i := 0) rfl (by simp)
  rw [Nat.zero_add] at hname
  simp [minixReaddirAt, hread, hword, hname]

theorem minixReaddirAt_end (hd : DirFile sb disk node entries) (length : ℕ) :
    (minixReaddirAt sb disk node (dirEntrySize * entries.length) length).entry = none := by
  have hread : minixReadAt sb disk node (dirEntrySize * entries.length) dirEntrySize =
      ⟨.success, 0, [], node, disk, []⟩ := by
    rw [← hd.size]
    simp [minixReadAt, minixReadWrite]
  simp [minixReaddirAt, hread]

theorem readdirScan_spec (hd : DirFile sb disk node entries) {k n : ℕ} (hk : k ≤ entries.length)
    (hn : entries.length < k + n) :
    readdirScan sb disk node n (dirEntrySize * k) = entries.drop k := by
  induction n generalizing k with
  | zero => omega
  | succ n ih =>
    rcases Nat.lt_or_ge k entries.length with hlt | hge
    · have he : entries[k]? = some entries[k] := List.getElem?_eq_getElem hlt
      rw [List.drop_eq_getElem_cons hlt]
      simp only [readdirScan, minixReaddirAt_spec hd he]
      rw [← Nat.mul_succ, ih hlt (by omega)]
    · obtain rfl : k = entries.length := by omega
      rw [List.drop_length]
      simp only [readdirScan, minixReaddirAt_end hd]

end Readdir

end Lookup

end SomeOs.Minix

import SomeOs.Base.ByteStore

/-! # Ring buffers

The contents of a ring are the `count` bytes from a position on, around the end of
the buffer. Reading and writing a range that goes around the end is done in two parts.
-/
namespace SomeOs.Ring
open ByteStore

def contents (buf : Store) (cap pos count : ℕ) : List UInt8 :=
  (List.range count).map fun i => buf ((pos + i) % cap)

def readWrapped (buf : Store) (cap pos n : ℕ) : List UInt8 :=
  if cap < pos + n then read buf pos (cap - pos) ++ read buf 0 (n - (cap - pos)) else read buf pos n

def writeWrapped (buf : Store) (cap pos : ℕ) (bytes : List UInt8) : Store :=
  if cap < pos + bytes.length then
    write (write buf pos (bytes.take (cap - pos))) 0 (bytes.drop (cap - pos))
  else write buf pos bytes

section
variable {buf : Store} {cap pos m n count : ℕ} {bytes : List UInt8}

@[simp] theorem contents_length : (contents buf cap pos count).length = count := by
  simp [contents]

@[simp] theorem contents_zero : contents buf cap pos 0 = [] := rfl

theorem contents_add :
    contents buf cap pos (m + n) = contents buf cap pos m ++ contents buf cap ((pos + m) % cap) n := by
  simp only [contents, List.range_add, List.map_append, List.map_map]
  congr 1
  apply List.map_congr_left
  intro i _
  simp only [Function.comp, Nat.mod_add_mod, Nat.add_assoc]

theorem readWrapped_eq (hpos : pos < cap) (hn : n ≤ cap) :
    readWrapped buf cap pos n = contents buf cap pos n := by
  unfold readWrapped
  split_ifs with hwrap
  · obtain ⟨k, rfl⟩ : ∃ k, n = cap - pos + k := ⟨n - (cap - pos), by omega⟩
    have hend : (pos + (cap - pos)) % cap = 0 := by
      rw [Nat.add_sub_of_le hpos.le, Nat.mod_self]
    rw [contents_add, hend, Nat.add_sub_cancel_left]
    congr 1
    · apply List.map_congr_left
      intro i hi
      rw [Nat.mod_eq_of_lt (by have := List.mem_range.mp hi; omega)]
    · apply List.map_congr_left
      intro i hi
      rw [Nat.mod_eq_of_lt (by have := List.mem_range.mp hi; omega)]
  · apply List.map_congr_left
    intro i hi
    rw [Nat.mod_eq_of_lt (by have := List.mem_range.mp hi; omega)]

/-- The bytes after a write, counted from where it starts. -/
theorem writeWrapped_apply (hpos : pos < cap) (hlen : bytes.length ≤ cap) (hn : n < cap) :
    writeWrapped buf cap pos bytes ((pos + n) % cap) = (bytes[n]?).getD (buf ((pos + n) % cap)) := by
  have hmod : (pos + n) % cap = if pos + n < cap then pos + n else pos + n - cap := by
    split_ifs with h
    · exact Nat.mod_eq_of_lt h
    · rw [Nat.mod_eq_sub_mod (by omega), Nat.mod_eq_of_lt (by omega)]
  rw [hmod]
  unfold writeWrapped
  split_ifs with hwrap hlt hlt
  · rw [write_outside (Or.inr (by simp; omega))]
    have hi : n < (bytes.take (cap - pos)).length := by simp; omega
    have hi' : n < bytes.length := by omega
    rw [write_inside (List.getElem?_eq_getElem hi), List.getElem?_eq_getElem hi', List.getElem_take]
    rfl
  · obtain ⟨k, rfl⟩ : ∃ k, n = cap - pos + k := ⟨n - (cap - pos), by omega⟩
    have hk : pos + (cap - pos + k) - cap = 0 + k := by omega
    rw [hk]
    by_cases hin : k < (bytes.drop (cap - pos)).length
    · rw [write_inside (List.getElem?_eq_getElem hin), ← List.getElem?_drop, List.getElem?_eq_getElem hin]
      rfl
    · rw [write_outside (Or.inr (by omega)), write_outside (Or.inl (by omega)), ← List.getElem?_drop,
        List.getElem?_eq_none (by omega)]
      rfl
  · by_cases hin : n < bytes.length
    · rw [write_inside (List.getElem?_eq_getElem hin), List.getElem?_eq_getElem hin]
      rfl
    · rw [write_outside (Or.inr (by omega)), List.getElem?_eq_none (by omega)]
      rfl
  · rw [write_outside (Or.inl (by omega)), List.getElem?_eq_none (by omega)]
    rfl

variable (buf count bytes) in
/-- A write behind the contents appends to them. -/
theorem contents_writeWrapped (hpos : pos < cap) (hlen : count + bytes.length ≤ cap) :
    contents (writeWrapped buf cap ((pos + count) % cap) bytes) cap pos (count + bytes.length) =
      contents buf cap pos count ++ bytes := by
  have hcap : 0 < cap := by omega
  rw [contents_add]
  congr 1
  · apply List.map_congr_left
    intro i hi
    have hi := List.mem_range.mp hi
    -- the bytes before the write are the last ones when they are counted from its start
    have hidx : (pos + i) % cap = ((pos + count) % cap + (cap - count + i)) % cap := by
      have hsum : pos + count + (cap - count + i) = pos + i + cap := by omega
      rw [Nat.mod_add_mod, hsum, Nat.add_mod_right]
    rw [hidx, writeWrapped_apply (Nat.mod_lt _ hcap) (by omega) (by omega),
      List.getElem?_eq_none (by omega)]
    rfl
  · apply List.ext_getElem?
    intro i
    unfold contents
    by_cases hi : i < bytes.length
    · rw [List.getElem?_map, List.getElem?_range hi, Option.map_some,
        writeWrapped_apply (Nat.mod_lt _ hcap) (by omega) (by omega), List.getElem?_eq_getElem hi]
      rfl
    · rw [List.getElem?_eq_none (by simpa using hi), List.getElem?_eq_none (by simpa using hi)]

end

end SomeOs.Ring

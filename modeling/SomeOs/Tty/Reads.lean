import SomeOs.Tty.Input

/-! # Reads

A read takes bytes from the front of the contents, in canonical mode from one line. When a
`VEOF` is at the front after it, the last byte of the contents is dropped in its place.
-/
namespace SomeOs.Tty
open ByteStore

/-- The length of the first line, which has its newline but not its `VEOF`. -/
def Termios.lineEnd (ctrl : Termios) : List UInt8 → Option ℕ
  | [] => none
  | c :: q =>
    if c = newline ∨ c = ctrl.cc .veol then some 1
    else if c = ctrl.cc .veof then some 0
    else (ctrl.lineEnd q).map (· + 1)

namespace Termios
variable {ctrl : Termios} {q : List UInt8} {c : UInt8} {n : ℕ}

theorem isDelim_iff : ctrl.isDelim c ↔ (c = newline ∨ c = ctrl.cc .veol) ∨ c = ctrl.cc .veof := by
  simp [isDelim]

theorem lineEnd_isSome : (ctrl.lineEnd q).isSome ↔ ∃ c ∈ q, ctrl.isDelim c := by
  induction q with
  | nil => simp [lineEnd]
  | cons c q ih =>
    unfold lineEnd
    split_ifs with h1 h2
    · exact iff_of_true rfl ⟨c, List.mem_cons_self, isDelim_iff.mpr (Or.inl h1)⟩
    · exact iff_of_true rfl ⟨c, List.mem_cons_self, isDelim_iff.mpr (Or.inr h2)⟩
    · have hc : ¬ctrl.isDelim c := fun h => (isDelim_iff.mp h).elim h1 h2
      rw [Option.isSome_map, ih]
      simp [hc]

theorem lineEnd_le (h : ctrl.lineEnd q = some n) : n ≤ q.length := by
  induction q generalizing n with
  | nil => cases h
  | cons c q ih =>
    unfold lineEnd at h
    split_ifs at h
    · cases h
      simp
    · cases h
      simp
    · obtain ⟨m, hm, rfl⟩ := Option.map_eq_some_iff.mp h
      simpa using ih hm

end Termios

namespace UartTtyDevice
variable {dev dev' : UartTtyDevice} {i n length size : ℕ}

theorem lineLengthFrom_eq (hi : i + n = dev.buffer_count) :
    dev.lineLengthFrom n i = ((dev.ctrl.lineEnd (dev.contents.drop i)).map (· + i)).getD 0 := by
  induction n generalizing i with
  | zero =>
    rw [List.drop_of_length_le (by rw [contents_length]; omega)]
    rfl
  | succ n ih =>
    have hlt : i < dev.contents.length := by
      rw [contents_length]
      omega
    have hget : dev.contents[i] = dev.getBuffer i :=
      Option.some_injective _ ((List.getElem?_eq_getElem hlt).symm.trans (contents_getElem? (by omega)))
    rw [List.drop_eq_getElem_cons hlt, hget]
    unfold lineLengthFrom Termios.lineEnd
    split_ifs
    · simp [Nat.add_comm]
    · simp
    · rw [ih (by omega), Option.map_map]
      congr 2
      funext m
      simp only [Function.comp]
      omega

theorem bufferLineLength_eq : dev.bufferLineLength = (dev.ctrl.lineEnd dev.contents).getD 0 := by
  unfold bufferLineLength
  rw [lineLengthFrom_eq (Nat.zero_add _)]
  simp

theorem readLength_le : dev.readLength size ≤ dev.buffer_count := by
  unfold readLength
  split_ifs
  · refine (min_le_left ..).trans ?_
    rw [bufferLineLength_eq]
    cases hend : dev.ctrl.lineEnd dev.contents with
    | none => exact Nat.zero_le _
    | some n => exact (Termios.lineEnd_le hend).trans_eq contents_length
  · exact min_le_left ..

theorem countRead_eq (hlen : length ≤ dev.buffer_count) : dev.countRead length =
    dev.line_delim_count - UInt64.ofNat ((dev.contents.take length).countP dev.ctrl.isDelim) := by
  induction length with
  | zero => simp [countRead]
  | succ n ih =>
    have hn := ih (by omega)
    unfold countRead at hn ⊢
    rw [List.range_succ, List.foldl_append, hn, List.take_add_one, contents_getElem? (by omega), List.countP_append]
    simp only [List.foldl_cons, List.foldl_nil, Option.toList_some, List.countP_singleton]
    split_ifs
    · rw [UInt64.ofNat_add]
      exact sub_sub ..
    · rfl

theorem readWrapped_eq (h : RingOk dev) (hlen : length ≤ dev.buffer_count) :
    Ring.readWrapped dev.buffer dev.buffer_capacity dev.buffer_start length = dev.contents.take length := by
  have htake : dev.contents.take length = contents { dev with buffer_count := length } := (contents_take hlen).symm
  rw [htake]
  rcases h.start with hstart | ⟨hcap, hstart⟩
  · exact Ring.readWrapped_eq hstart (hlen.trans h.count)
  · have hzero : length = 0 := by
      have := h.count
      omega
    rw [hzero, hcap, hstart]
    rfl

theorem contents_takeInput (hlen : length ≤ dev.buffer_count) :
    (dev.takeInput length).contents = dev.contents.drop length := by
  have hsum : dev.buffer_count = length + (dev.buffer_count - length) := by omega
  have hall : dev.contents = dev.contents.take length ++ (dev.takeInput length).contents := by
    rw [← contents_take hlen]
    conv_lhs => rw [contents, hsum]
    exact Ring.contents_add
  have hdrop := congrArg (List.drop length) hall
  rw [List.drop_left' (by rw [List.length_take, contents_length]; omega)] at hdrop
  exact hdrop.symm

theorem takeInput_ring (h : RingOk dev) (hlen : length ≤ dev.buffer_count) : RingOk (dev.takeInput length) := by
  refine ⟨?_, (Nat.sub_le ..).trans h.count, h.capacity⟩
  rcases h.start with hlt | ⟨hcap, hzero⟩
  · exact Or.inl (Nat.mod_lt _ (Nat.zero_lt_of_lt hlt))
  · have hlen0 : length = 0 := by
      have := h.count
      omega
    refine Or.inr ⟨hcap, ?_⟩
    simp [takeInput, hcap, hzero, hlen0]

/-- A `VEOF` is at the front after a read of `length` bytes. -/
def EofAfter (dev : UartTtyDevice) (length : ℕ) : Prop :=
  dev.ctrl.mode icanon ∧ (dev.contents.drop length).head? = some (dev.ctrl.cc .veof)

instance : Decidable (dev.EofAfter length) := inferInstanceAs (Decidable (_ ∧ _))

/-- The number of delimiters that a read of `length` bytes subtracts from the counter. -/
def subtracted (dev : UartTtyDevice) (length : ℕ) : ℕ :=
  (dev.contents.take length).countP dev.ctrl.isDelim + if dev.EofAfter length then 1 else 0

theorem contents_head? {c : UInt8} : dev.contents.head? = some c ↔ 0 < dev.buffer_count ∧ dev.getBuffer 0 = c := by
  rw [List.head?_eq_getElem?]
  by_cases hpos : 0 < dev.buffer_count
  · rw [contents_getElem? hpos]
    simp [hpos]
  · rw [List.getElem?_eq_none (by rw [contents_length]; omega)]
    simp [hpos]

theorem finishRead_spec (h : RingOk dev) (hlen : length ≤ dev.buffer_count) :
    RingOk (dev.finishRead length) ∧
      (dev.finishRead length).contents = (if dev.EofAfter length then (dev.contents.drop length).dropLast
        else dev.contents.drop length) ∧
      (dev.finishRead length).line_delim_count = dev.line_delim_count - UInt64.ofNat (dev.subtracted length) ∧
      (dev.finishRead length).ctrl = dev.ctrl ∧ (dev.finishRead length).blocked = dev.blocked := by
  have hdrop := contents_takeInput hlen
  have hring := takeInput_ring h hlen
  have hcount : (dev.takeInput length).line_delim_count = _ := countRead_eq hlen
  have heof : ((dev.takeInput length).ctrl.mode icanon ∧ 0 < (dev.takeInput length).buffer_count ∧
      (dev.takeInput length).getBuffer 0 = (dev.takeInput length).ctrl.cc .veof) ↔ dev.EofAfter length := by
    rw [EofAfter, ← hdrop, contents_head?]
    rfl
  unfold finishRead subtracted dropEof
  by_cases hafter : dev.EofAfter length
  · rw [if_pos (heof.mpr hafter), if_pos hafter, if_pos hafter, UInt64.ofNat_add]
    refine ⟨⟨hring.start, (Nat.sub_le ..).trans hring.count, hring.capacity⟩, ?_, ?_, rfl, rfl⟩
    · exact (dev.takeInput length).contents_dropLast.trans (congrArg List.dropLast hdrop)
    · dsimp only
      rw [hcount]
      exact sub_sub ..
  · rw [if_neg (mt heof.mp hafter), if_neg hafter, if_neg hafter, add_zero]
    exact ⟨hring, hdrop, hcount, rfl, rfl⟩

theorem startRead_canonical {time : ℕ} (hctrl : dev.ctrl.mode icanon) : dev.startRead time = dev :=
  if_neg fun hmode => hmode.1 hctrl

theorem startRead_eq (dev : UartTtyDevice) (time : ℕ) : ∃ t, dev.startRead time = { dev with last_byte := t } := by
  unfold startRead
  split_ifs <;> exact ⟨_, rfl⟩

end UartTtyDevice
end SomeOs.Tty

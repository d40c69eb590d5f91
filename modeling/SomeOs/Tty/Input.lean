import SomeOs.Tty.Types

/-! # Growing the buffer

The part of a ring that goes around the old end is moved behind it. There is room for it when
the buffer grows by as many bytes as the ring has at the start of the buffer.
-/
namespace SomeOs.Tty
open ByteStore

structure RingOk (dev : UartTtyDevice) : Prop where
  start : dev.buffer_start < dev.buffer_capacity ∨ dev.buffer_capacity = 0 ∧ dev.buffer_start = 0
  count : dev.buffer_count ≤ dev.buffer_capacity
  capacity : dev.buffer_capacity ≤ maxCapacity

namespace UartTtyDevice
variable {dev dev' : UartTtyDevice} {i n : ℕ}

theorem contents_eq : dev.contents = (List.range dev.buffer_count).map dev.getBuffer := rfl

@[simp] theorem contents_length : dev.contents.length = dev.buffer_count := Ring.contents_length

theorem contents_getElem? (hi : i < dev.buffer_count) : dev.contents[i]? = some (dev.getBuffer i) := by
  rw [contents_eq, List.getElem?_map, List.getElem?_range hi, Option.map_some]

theorem nextCapacity_le {capacity : ℕ} : nextCapacity capacity ≤ maxCapacity := min_le_right ..

theorem le_nextCapacity {capacity : ℕ} (hcap : capacity ≤ maxCapacity) : capacity ≤ nextCapacity capacity := by
  unfold nextCapacity
  split_ifs <;> omega

theorem memmove_ring {buf : Store} {cap cap' start i : ℕ} (hstart : start < cap) (hi : i < cap)
    (hfits : cap + start ≤ cap') :
    memmove buf cap 0 start ((start + i) % cap') = buf ((start + i) % cap) := by
  unfold memmove
  rw [Nat.mod_eq_of_lt (by omega : start + i < cap')]
  by_cases hwrap : start + i < cap
  · rw [write_outside (Or.inl hwrap), Nat.mod_eq_of_lt hwrap]
  · obtain ⟨k, hk⟩ := Nat.exists_eq_add_of_le (not_lt.mp hwrap)
    have hmod : (start + i) % cap = 0 + k := by
      rw [hk, Nat.add_mod_left, Nat.mod_eq_of_lt (by omega), Nat.zero_add]
    rw [hmod, hk]
    exact write_inside (read_getElem? (by omega))

/-- A resize that finds room keeps the contents of a full ring. -/
theorem uartTtyResizeBuffer_spec (h : RingOk dev) (hfull : dev.buffer_count = dev.buffer_capacity)
    (hdev : dev.uartTtyResizeBuffer = some dev') : RingOk dev' ∧ dev'.contents = dev.contents ∧
      dev' = { dev with buffer := dev'.buffer, buffer_capacity := nextCapacity dev.buffer_capacity } := by
  unfold uartTtyResizeBuffer at hdev
  dsimp only at hdev
  have hle := le_nextCapacity h.capacity
  have hmax : nextCapacity dev.buffer_capacity ≤ maxCapacity := nextCapacity_le
  split_ifs at hdev with hsame hwrap hfits
  · cases hdev
    rw [hsame]
    exact ⟨h, rfl, rfl⟩
  · cases hdev
    have hstart : dev.buffer_start < dev.buffer_capacity := by
      have := h.start
      omega
    have hmove : dev.buffer_start + dev.buffer_count - dev.buffer_capacity = dev.buffer_start := by omega
    rw [hmove] at hfits
    refine ⟨⟨Or.inl (hstart.trans_le hle), h.count.trans hle, hmax⟩, ?_, rfl⟩
    rw [contents_eq, contents_eq]
    apply List.map_congr_left
    intro i hi
    have hi : i < dev.buffer_capacity := hfull ▸ List.mem_range.mp hi
    simp only [getBuffer, hmove]
    exact memmove_ring hstart hi hfits
  · cases hdev
    have hstart : dev.buffer_start = 0 := by
      have := h.start
      omega
    have hpos : 0 < nextCapacity dev.buffer_capacity := by
      have := h.start
      omega
    refine ⟨⟨Or.inl (hstart.trans_lt hpos), h.count.trans hle, hmax⟩, ?_, rfl⟩
    rw [contents_eq, contents_eq]
    apply List.map_congr_left
    intro i hi
    have hi : i < dev.buffer_capacity := hfull ▸ List.mem_range.mp hi
    simp only [getBuffer, hstart]
    rw [Nat.mod_eq_of_lt (by omega), Nat.mod_eq_of_lt (by omega)]

theorem uartTtyResizeBuffer_isSome (h : RingOk dev) (hfull : dev.buffer_count = dev.buffer_capacity) :
    dev.uartTtyResizeBuffer.isSome ↔ dev.buffer_start ≤ nextCapacity dev.buffer_capacity - dev.buffer_capacity ∨
      nextCapacity dev.buffer_capacity = dev.buffer_capacity := by
  have hstart := h.start
  unfold uartTtyResizeBuffer
  dsimp only
  split_ifs with hsame hwrap hfits
  · exact iff_of_true rfl (Or.inr hsame)
  · exact iff_of_true rfl (Or.inl (by omega))
  · refine iff_of_false Bool.false_ne_true ?_
    rintro (hle | heq)
    · have := le_nextCapacity h.capacity
      omega
    · exact hsame heq
  · exact iff_of_true rfl (Or.inl (by omega))

/-- A full ring keeps its contents in the new buffer, exactly when its start is not too far behind. -/
theorem uartTtyResizeBuffer_contents (h : RingOk dev) (hfull : dev.buffer_count = dev.buffer_capacity) :
    (∃ dev', dev.uartTtyResizeBuffer = some dev' ∧ dev'.buffer_count = dev.buffer_count ∧
      dev'.contents = dev.contents ∧ dev'.buffer_start < dev'.buffer_capacity) ↔
    dev.buffer_start ≤ nextCapacity dev.buffer_capacity - dev.buffer_capacity ∨
      nextCapacity dev.buffer_capacity = dev.buffer_capacity := by
  rw [← uartTtyResizeBuffer_isSome h hfull]
  constructor
  · rintro ⟨dev', hdev, -⟩
    rw [hdev]
    rfl
  · intro hsome
    obtain ⟨dev', hdev⟩ := Option.isSome_iff_exists.mp hsome
    obtain ⟨hring, hcontents, heq⟩ := uartTtyResizeBuffer_spec h hfull hdev
    have hcount : dev'.buffer_count = dev.buffer_count := by rw [heq]
    have hcap : dev'.buffer_capacity = nextCapacity dev.buffer_capacity := by rw [heq]
    have hpos : 0 < nextCapacity dev.buffer_capacity := by
      unfold nextCapacity initialCapacity maxCapacity
      split_ifs <;> omega
    exact ⟨dev', hdev, hcount, hcontents, hring.start.resolve_right fun h0 => by omega⟩

/-- The first buffer, full from its hundredth byte on. -/
theorem uartTtyResizeBuffer_contents_early : ∃ dev', uartTtyResizeBuffer { createUartTtyDevice (fun _ => 97) with
    buffer_start := 100, buffer_count := 512, buffer_capacity := 512 } = some dev' ∧
      dev'.buffer_count = 512 ∧ dev'.buffer_start < dev'.buffer_capacity := by
  obtain ⟨dev', hdev, hcount, -, hstart⟩ := (@uartTtyResizeBuffer_contents { createUartTtyDevice (fun _ => 97) with
    buffer_start := 100, buffer_count := 512, buffer_capacity := 512 }
    ⟨by decide, by decide, by decide⟩ rfl).mpr (Or.inl (by decide))
  exact ⟨dev', hdev, hcount, hstart⟩

/-- With 300 bytes in front of the end of the first buffer there is no room behind it. -/
theorem resize_late_start : ¬∀ dev : UartTtyDevice, RingOk dev → dev.buffer_count = dev.buffer_capacity →
    ∃ dev', dev.uartTtyResizeBuffer = some dev' ∧ dev'.buffer_count = dev.buffer_count ∧
      dev'.contents = dev.contents ∧ dev'.buffer_start < dev'.buffer_capacity := by
  intro hall
  obtain ⟨dev', hdev, -⟩ := hall { createUartTtyDevice (fun _ => 97) with
    buffer_start := 300, buffer_count := 512, buffer_capacity := 512 } ⟨by decide, by decide, by decide⟩ rfl
  exact absurd (Option.isSome_iff_exists.mpr ⟨dev', hdev⟩) (by decide)

end UartTtyDevice
end SomeOs.Tty

/-! # Input

What a received byte does to the contents of the buffer and to the count of the delimiters.
Nothing else that reads depend on is changed by it.
-/
namespace SomeOs.Tty
open ByteStore
open UartTtyDevice (isErase isKill inputSignal mapInput)

/-- What a received byte does to the contents. -/
inductive InputAction where
  | ignore
  | erase
  | kill
  | append (c : UInt8)
  deriving DecidableEq

def inputAction (ctrl : Termios) (c : UInt8) : InputAction :=
  if c = carriageReturn ∧ ctrl.input igncr then .ignore
  else if isErase ctrl (mapInput ctrl c) then .erase
  else if isKill ctrl (mapInput ctrl c) then .kill
  else if (inputSignal ctrl (mapInput ctrl c)).isSome then .ignore
  else .append (mapInput ctrl c)

def InputAction.apply : InputAction → List UInt8 → List UInt8
  | .ignore, q => q
  | .erase, q => q.dropLast
  | .kill, _ => []
  | .append c, q => q ++ [c]

def InputAction.counted (ctrl : Termios) : InputAction → UInt64
  | .append c => if ctrl.isDelim c then 1 else 0
  | _ => 0

namespace UartTtyDevice
variable {dev dev' : UartTtyDevice} {c : UInt8} {n : ℕ}

theorem basicTtyWrite_eq (dev : UartTtyDevice) (c : UInt8) : ∃ w, dev.basicTtyWrite c = { dev with written := w } := by
  unfold basicTtyWrite
  dsimp only
  split_ifs <;> exact ⟨_, rfl⟩

theorem echoErase_eq (dev : UartTtyDevice) (n : ℕ) : ∃ w, dev.echoErase n = { dev with written := w } := by
  induction n generalizing dev with
  | zero => exact ⟨_, rfl⟩
  | succ n ih =>
    obtain ⟨w₁, h₁⟩ := dev.basicTtyWrite_eq 8
    obtain ⟨w₂, h₂⟩ := basicTtyWrite_eq { dev with written := w₁ } 32
    obtain ⟨w₃, h₃⟩ := basicTtyWrite_eq { dev with written := w₂ } 8
    obtain ⟨w, h⟩ := ih { dev with written := w₃ }
    unfold echoErase
    rw [h₁, h₂, h₃, h]
    exact ⟨w, rfl⟩

theorem echoInput_eq (dev : UartTtyDevice) (c : UInt8) : ∃ w, dev.echoInput c = { dev with written := w } := by
  unfold echoInput
  split_ifs
  · obtain ⟨w₁, h₁⟩ := dev.basicTtyWrite_eq 0x5e
    rw [h₁]
    exact basicTtyWrite_eq { dev with written := w₁ } _
  · exact dev.basicTtyWrite_eq c
  · exact ⟨_, rfl⟩

theorem eraseLastCharacter_eq (dev : UartTtyDevice) :
    ∃ w, dev.eraseLastCharacter = { dev with buffer_count := dev.buffer_count - 1, written := w } := by
  unfold eraseLastCharacter
  split_ifs with h
  · exact echoErase_eq _ _
  · have hzero : dev.buffer_count = 0 := by omega
    have hsame : dev.buffer_count - 1 = dev.buffer_count := by omega
    rw [hsame]
    exact ⟨dev.written, rfl⟩

theorem eraseAll_eq (dev : UartTtyDevice) (n : ℕ) :
    ∃ w, eraseLastCharacter^[n] dev = { dev with buffer_count := dev.buffer_count - n, written := w } := by
  induction n generalizing dev with
  | zero => exact ⟨_, rfl⟩
  | succ n ih =>
    obtain ⟨w, h⟩ := dev.eraseLastCharacter_eq
    obtain ⟨w', h'⟩ := ih { dev with buffer_count := dev.buffer_count - 1, written := w }
    rw [Function.iterate_succ_apply, h, h', Nat.sub_sub, Nat.add_comm 1 n]
    exact ⟨w', rfl⟩

theorem contents_take {m : ℕ} (hm : m ≤ dev.buffer_count) :
    contents { dev with buffer_count := m } = dev.contents.take m := by
  rw [contents_eq, contents_eq, ← List.map_take, List.take_range, min_eq_left hm]
  rfl

theorem contents_dropLast (dev : UartTtyDevice) :
    contents { dev with buffer_count := dev.buffer_count - 1 } = dev.contents.dropLast := by
  rw [contents_take (Nat.sub_le ..), List.dropLast_eq_take, contents_length]

theorem contents_append (hstart : dev.buffer_start < dev.buffer_capacity) (hroom : dev.buffer_count < dev.buffer_capacity) :
    contents { dev with
      buffer := write dev.buffer ((dev.buffer_start + dev.buffer_count) % dev.buffer_capacity) [c]
      buffer_count := dev.buffer_count + 1 } = dev.contents ++ [c] := by
  have hwrap := Ring.contents_writeWrapped dev.buffer dev.buffer_count [c] hstart (by simpa using hroom)
  have hslot := Nat.mod_lt (dev.buffer_start + dev.buffer_count) (Nat.zero_lt_of_lt hroom)
  unfold Ring.writeWrapped at hwrap
  rw [if_neg (by simpa using hslot)] at hwrap
  exact hwrap

theorem contents_write (hstart : dev.buffer_start < dev.buffer_capacity) (hroom : dev.buffer_count < dev.buffer_capacity) :
    contents { dev with
      buffer := write dev.buffer ((dev.buffer_start + dev.buffer_count) % dev.buffer_capacity) [c] } = dev.contents := by
  have happend := congrArg (List.take dev.buffer_count) (contents_append (c := c) hstart hroom)
  rw [← contents_take (Nat.le_succ _), List.take_left' contents_length] at happend
  exact happend

structure SameSettings (dev dev' : UartTtyDevice) : Prop where
  ctrl : dev'.ctrl = dev.ctrl
  blocked : dev'.blocked = dev.blocked
  last_byte : dev'.last_byte = dev.last_byte
  buffer_start : dev'.buffer_start = dev.buffer_start

theorem SameSettings.refl (dev : UartTtyDevice) : SameSettings dev dev := ⟨rfl, rfl, rfl, rfl⟩

/-- A received byte, when there is room for it. -/
theorem receive_spec (h : RingOk dev) (hroom : dev.buffer_count < dev.buffer_capacity) (c : UInt8) :
    RingOk (dev.receive c) ∧ (dev.receive c).contents = (inputAction dev.ctrl c).apply dev.contents ∧
      (dev.receive c).line_delim_count = dev.line_delim_count + (inputAction dev.ctrl c).counted dev.ctrl ∧
      SameSettings dev (dev.receive c) := by
  have hstart : dev.buffer_start < dev.buffer_capacity := h.start.resolve_right (by omega)
  unfold receive inputAction
  dsimp only
  split_ifs with hcr herase hkill hsig
  · exact ⟨⟨h.start, h.count, h.capacity⟩, contents_write hstart hroom, (add_zero _).symm, ⟨rfl, rfl, rfl, rfl⟩⟩
  · obtain ⟨w, hw⟩ := eraseLastCharacter_eq { dev with
      buffer := write dev.buffer ((dev.buffer_start + dev.buffer_count) % dev.buffer_capacity) [mapInput dev.ctrl c] }
    rw [hw]
    refine ⟨⟨h.start, (Nat.sub_le ..).trans h.count, h.capacity⟩, ?_, (add_zero _).symm, ⟨rfl, rfl, rfl, rfl⟩⟩
    refine Eq.trans (contents_dropLast { dev with
      buffer := write dev.buffer ((dev.buffer_start + dev.buffer_count) % dev.buffer_capacity) [mapInput dev.ctrl c] }) ?_
    rw [contents_write hstart hroom]
    rfl
  · obtain ⟨w, hw⟩ := eraseAll_eq { dev with
      buffer := write dev.buffer ((dev.buffer_start + dev.buffer_count) % dev.buffer_capacity) [mapInput dev.ctrl c] }
      dev.buffer_count
    rw [hw]
    refine ⟨⟨h.start, (Nat.sub_le ..).trans h.count, h.capacity⟩, ?_, (add_zero _).symm, ⟨rfl, rfl, rfl, rfl⟩⟩
    rw [contents_eq]
    simp [InputAction.apply]
  · obtain ⟨signal, hsignal⟩ := Option.isSome_iff_exists.mp hsig
    rw [hsignal]
    exact ⟨⟨h.start, h.count, h.capacity⟩, contents_write hstart hroom, (add_zero _).symm, ⟨rfl, rfl, rfl, rfl⟩⟩
  · rw [Option.not_isSome_iff_eq_none.mp hsig]
    dsimp only [appendInput]
    obtain ⟨w, hw⟩ := echoInput_eq { dev with
      buffer := write dev.buffer ((dev.buffer_start + dev.buffer_count) % dev.buffer_capacity) [mapInput dev.ctrl c]
      line_delim_count := if dev.ctrl.isDelim (mapInput dev.ctrl c) then dev.line_delim_count + 1
        else dev.line_delim_count
      buffer_count := dev.buffer_count + 1 } (mapInput dev.ctrl c)
    rw [hw]
    refine ⟨⟨h.start, hroom, h.capacity⟩, contents_append hstart hroom, ?_, ⟨rfl, rfl, rfl, rfl⟩⟩
    unfold InputAction.counted
    dsimp only
    split_ifs
    · rfl
    · exact (add_zero _).symm

def Truncates (dev : UartTtyDevice) : Prop :=
  dev.buffer_count = dev.buffer_capacity ∧ nextCapacity dev.buffer_capacity = dev.buffer_capacity

instance : Decidable dev.Truncates := inferInstanceAs (Decidable (_ ∧ _))

def kept (dev : UartTtyDevice) : List UInt8 := if dev.Truncates then dev.contents.dropLast else dev.contents

def contentsAfter (dev : UartTtyDevice) (byte : Option UInt8) : List UInt8 :=
  byte.elim dev.kept fun c => (inputAction dev.ctrl c).apply dev.kept

def countedAfter (dev : UartTtyDevice) (byte : Option UInt8) : UInt64 :=
  byte.elim 0 fun c => (inputAction dev.ctrl c).counted dev.ctrl

theorem growth_spec (h : RingOk dev)
    (hdev : (if dev.buffer_count = dev.buffer_capacity then dev.uartTtyResizeBuffer else some dev) = some dev') :
    RingOk dev' ∧ dev'.contents = dev.contents ∧ dev'.line_delim_count = dev.line_delim_count ∧
      SameSettings dev dev' ∧ (dev'.buffer_count = dev'.buffer_capacity ↔ dev.Truncates) := by
  split_ifs at hdev with hfull
  · obtain ⟨hring, hcontents, heq⟩ := uartTtyResizeBuffer_spec h hfull hdev
    refine ⟨hring, hcontents, by rw [heq], ⟨by rw [heq], by rw [heq], by rw [heq], by rw [heq]⟩, ?_⟩
    have hcount : dev'.buffer_count = dev.buffer_count := by rw [heq]
    have hcap : dev'.buffer_capacity = nextCapacity dev.buffer_capacity := by rw [heq]
    rw [hcount, hcap, hfull]
    exact ⟨fun heq => ⟨hfull, heq.symm⟩, fun ht => ht.2.symm⟩
  · cases hdev
    exact ⟨h, rfl, rfl, .refl dev, fun hcount => absurd hcount hfull, fun ht => ht.1⟩

theorem Truncates.capacity_pos (ht : dev.Truncates) : 0 < dev.buffer_capacity := by
  rcases Nat.eq_zero_or_pos dev.buffer_capacity with hzero | hpos
  · have hgrow := ht.2
    rw [hzero] at hgrow
    exact absurd hgrow (by decide)
  · exact hpos

theorem SameSettings.trans {dev'' : UartTtyDevice} (h : SameSettings dev dev') (h' : SameSettings dev' dev'') :
    SameSettings dev dev'' :=
  ⟨h'.ctrl.trans h.ctrl, h'.blocked.trans h.blocked, h'.last_byte.trans h.last_byte,
    h'.buffer_start.trans h.buffer_start⟩

/-- There is room when a byte is read, with what is kept of the contents. -/
theorem basicTtyRead_room (h : RingOk dev) {byte : Option UInt8} (hdev : dev.basicTtyRead byte = some dev') :
    ∃ d, dev' = byte.elim d d.receive ∧ RingOk d ∧ d.buffer_count < d.buffer_capacity ∧ d.contents = dev.kept ∧
      d.line_delim_count = dev.line_delim_count ∧ SameSettings dev d := by
  obtain ⟨d, hd, rfl⟩ := Option.map_eq_some_iff.mp hdev
  obtain ⟨hring, hcontents, hcount, hsame, htrunc⟩ := growth_spec h hd
  refine ⟨_, rfl, ?_⟩
  by_cases hfull : d.buffer_count = d.buffer_capacity
  · have ht := htrunc.mp hfull
    have hpos : 0 < d.buffer_capacity := by
      have hlen := congrArg List.length hcontents
      simp only [contents_length] at hlen
      have := ht.capacity_pos
      have := ht.1
      omega
    rw [if_pos hfull]
    refine ⟨⟨hring.start, (Nat.sub_le ..).trans hring.count, hring.capacity⟩, ?_, ?_, hcount,
      ⟨hsame.ctrl, hsame.blocked, hsame.last_byte, hsame.buffer_start⟩⟩
    · dsimp only
      omega
    · rw [contents_dropLast, hcontents, kept, if_pos ht]
  · rw [if_neg hfull]
    refine ⟨hring, lt_of_le_of_ne hring.count hfull, ?_, hcount, hsame⟩
    rw [hcontents, kept, if_neg (mt htrunc.mpr hfull)]

theorem basicTtyRead_spec (h : RingOk dev) {byte : Option UInt8} (hdev : dev.basicTtyRead byte = some dev') :
    RingOk dev' ∧ dev'.contents = dev.contentsAfter byte ∧
      dev'.line_delim_count = dev.line_delim_count + dev.countedAfter byte ∧ SameSettings dev dev' := by
  obtain ⟨d, rfl, hring, hroom, hkept, hcount, hsame⟩ := basicTtyRead_room h hdev
  cases byte with
  | none => exact ⟨hring, hkept, by rw [← hcount]; exact (add_zero _).symm, hsame⟩
  | some c =>
    obtain ⟨hring', hcontents, hcount', hsame'⟩ := receive_spec hring hroom c
    rw [hsame.ctrl, hkept] at hcontents
    rw [hsame.ctrl, hcount] at hcount'
    exact ⟨hring', hcontents, hcount', hsame.trans hsame'⟩

theorem uartTtyWriteFunction_eq (dev : UartTtyDevice) (bytes : List UInt8) :
    ∃ w, dev.uartTtyWriteFunction bytes = { dev with written := w } := by
  unfold uartTtyWriteFunction
  induction bytes generalizing dev with
  | nil => exact ⟨_, rfl⟩
  | cons c bytes ih =>
    obtain ⟨w, hw⟩ := dev.basicTtyWrite_eq c
    obtain ⟨w', hw'⟩ := ih { dev with written := w }
    rw [List.foldl_cons, hw, hw']
    exact ⟨w', rfl⟩

theorem receiveAll_spec {bytes : List (Option UInt8)} (h : RingOk dev) (hdev : bytes.foldlM basicTtyRead dev = some dev') :
    RingOk dev' ∧ SameSettings dev dev' := by
  induction bytes generalizing dev with
  | nil =>
    cases hdev
    exact ⟨h, .refl _⟩
  | cons byte bytes ih =>
    obtain ⟨d, hd, hrest⟩ := Option.bind_eq_some_iff.mp hdev
    obtain ⟨hring, -, -, hsame⟩ := basicTtyRead_spec h hd
    obtain ⟨hring', hsame'⟩ := ih hring hrest
    exact ⟨hring', hsame.trans hsame'⟩

end UartTtyDevice
end SomeOs.Tty

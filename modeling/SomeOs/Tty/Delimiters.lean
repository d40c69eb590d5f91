import SomeOs.Base.ListEnds
import SomeOs.Tty.Reads

/-! # The count of the line delimiters

Bytes are dropped from the end of the contents without a look at the counter, which stays exact
only when they are no delimiters. The `VEOF` after a read is counted, but the last byte is
dropped in its place.
-/
namespace SomeOs.Tty
open ListEnds Transition

/-- What happens to a terminal, each under the lock of the device. Bytes are received by
`uartTtyDataReady`, which ends with `dataEnd`. -/
inductive TtyStep where
  | receive (byte : Option UInt8)
  | dataEnd (time : ℕ)
  | read (time task size : ℕ) (signals block : Bool)
  | write (bytes : List UInt8)
  | ioctl (time : ℕ) (request : UartTtyDevice.IoctlRequest)
  | signal (task : ℕ)

namespace UartTtyDevice

def step (dev : UartTtyDevice) : TtyStep → Option UartTtyDevice
  | .receive byte => dev.basicTtyRead byte
  | .dataEnd time => some (wakeupIfRequired { dev with last_byte := time } time).2
  | .read time task size signals block => some (dev.uartTtyReadOrWait time task size signals block).2
  | .write bytes => some (dev.uartTtyWriteFunction bytes)
  | .ioctl time request => some (dev.basicUartTtyIoctlFunction time request).2.2
  | .signal task => some (dev.handleTtyWakeup task)

def delims (dev : UartTtyDevice) : ℕ := dev.contents.countP dev.ctrl.isDelim

/-- No step drops a delimiter behind the back of the counter. -/
def CountStep (dev : UartTtyDevice) : TtyStep → Prop
  | .receive byte =>
    (dev.Truncates → ∀ c ∈ dev.contents.getLast?, ¬dev.ctrl.isDelim c) ∧
      ∀ c ∈ byte, (inputAction dev.ctrl c = .erase → ∀ d ∈ dev.kept.getLast?, ¬dev.ctrl.isDelim d) ∧
        (inputAction dev.ctrl c = .kill → ∀ d ∈ dev.kept, ¬dev.ctrl.isDelim d)
  | .read time _ size _ _ => dev.canReturnRead time → dev.EofAfter (dev.readLength size) →
    ∀ c ∈ dev.contents.getLast?, dev.ctrl.isDelim c
  | .ioctl _ (.tcsetsf _) => ∀ c ∈ dev.contents, ¬dev.ctrl.isDelim c
  | .ioctl _ (.tcsetsw ctrl) => dev.contents.countP ctrl.isDelim = dev.delims
  | .ioctl _ (.tcsets ctrl) => dev.contents.countP ctrl.isDelim = dev.delims
  | .ioctl _ .tcflsh => ∀ c ∈ dev.contents, ¬dev.ctrl.isDelim c
  | _ => True

instance (dev : UartTtyDevice) : ∀ a, Decidable (dev.CountStep a)
  | .receive _ => inferInstanceAs (Decidable (_ ∧ _))
  | .read _ _ _ _ _ => inferInstanceAs (Decidable (_ → _ → _))
  | .dataEnd _ | .write _ | .signal _ => isTrue trivial
  | .ioctl _ request => match request with
    | .tcsetsf _ | .tcflsh => inferInstanceAs (Decidable (∀ c ∈ _, _))
    | .tcsetsw _ | .tcsets _ => inferInstanceAs (Decidable (_ = _))
    | .tcgets | .tiocgpgrp | .tiocspgrp _ | .tcxonc | .fionread | .other => isTrue trivial

structure Counted (dev : UartTtyDevice) : Prop where
  ring : RingOk dev
  exact : dev.line_delim_count.toNat = dev.delims

variable {dev dev' : UartTtyDevice} {size : ℕ}

theorem delims_le (h : RingOk dev) : dev.delims ≤ maxCapacity :=
  List.countP_le_length.trans (contents_length.le.trans (h.count.trans h.capacity))

theorem delims_split (length : ℕ) : dev.delims =
    (dev.contents.take length).countP dev.ctrl.isDelim + (dev.contents.drop length).countP dev.ctrl.isDelim := by
  rw [delims, ← List.countP_append, List.take_append_drop]

theorem EofAfter.drop_ne_nil {length : ℕ} (h : dev.EofAfter length) : dev.contents.drop length ≠ [] := fun hnil => by
  have hhead := h.2
  rw [hnil] at hhead
  cases hhead

theorem subtracted_le {length : ℕ} : dev.subtracted length ≤ dev.delims := by
  rw [delims_split length, subtracted]
  refine Nat.add_le_add_left ?_ _
  split_ifs with hafter
  · obtain ⟨q, hq⟩ := List.head?_eq_some_iff.mp hafter.2
    rw [hq, List.countP_cons, if_pos (Termios.isDelim_iff.mpr (Or.inr rfl))]
    omega
  · exact Nat.zero_le _

theorem delims_kept (hok : dev.Truncates → ∀ c ∈ dev.contents.getLast?, ¬dev.ctrl.isDelim c) :
    dev.kept.countP dev.ctrl.isDelim = dev.delims := by
  unfold kept
  split_ifs with htrunc
  · exact countP_dropLast (hok htrunc)
  · rfl

theorem InputAction.countP_apply {ctrl : Termios} {action : InputAction} {q : List UInt8}
    (herase : action = .erase → ∀ d ∈ q.getLast?, ¬ctrl.isDelim d) (hkill : action = .kill → ∀ d ∈ q, ¬ctrl.isDelim d) :
    (action.apply q).countP ctrl.isDelim = q.countP ctrl.isDelim + (action.counted ctrl).toNat := by
  cases action with
  | ignore => rfl
  | erase => exact countP_dropLast (herase rfl)
  | kill => exact (List.countP_eq_zero.mpr (hkill rfl)).symm
  | append c =>
    simp only [InputAction.apply, InputAction.counted, List.countP_append, List.countP_singleton]
    split_ifs <;> rfl

theorem InputAction.counted_le {ctrl : Termios} {action : InputAction} : (action.counted ctrl).toNat ≤ 1 := by
  cases action with
  | append c =>
    simp only [InputAction.counted]
    split_ifs <;> decide
  | _ => exact Nat.zero_le _

theorem Counted.receive {byte : Option UInt8} (h : Counted dev) (hok : dev.CountStep (.receive byte))
    (hdev : dev.basicTtyRead byte = some dev') : Counted dev' := by
  obtain ⟨hring, hcontents, hcount, hsame⟩ := basicTtyRead_spec h.ring hdev
  have hkept := delims_kept hok.1
  have hbound := delims_le h.ring
  refine ⟨hring, ?_⟩
  rw [hcount, delims, hcontents, hsame.ctrl, contentsAfter, countedAfter]
  cases byte with
  | none =>
    simp only [Option.elim_none]
    rw [hkept, ← h.exact, add_zero]
  | some c =>
    obtain ⟨herase, hkill⟩ := hok.2 c rfl
    simp only [Option.elim_some]
    have hle : ((inputAction dev.ctrl c).counted dev.ctrl).toNat ≤ 1 := InputAction.counted_le
    rw [InputAction.countP_apply herase hkill, hkept, UInt64.toNat_add, h.exact, Nat.mod_eq_of_lt]
    unfold maxCapacity at hbound
    omega

theorem Counted.finishRead {length : ℕ} (h : Counted dev) (hlen : length ≤ dev.buffer_count)
    (hok : dev.EofAfter length → ∀ c ∈ dev.contents.getLast?, dev.ctrl.isDelim c) :
    Counted (dev.finishRead length) := by
  obtain ⟨hring, hcontents, hcount, hctrl, -⟩ := finishRead_spec h.ring hlen
  have hle : dev.subtracted length ≤ dev.delims := subtracted_le
  have hbound := delims_le h.ring
  have hlt : dev.subtracted length < 2 ^ 64 := by
    unfold maxCapacity at hbound
    omega
  have hnat : (UInt64.ofNat (dev.subtracted length)).toNat = dev.subtracted length := UInt64.toNat_ofNat_of_lt' hlt
  refine ⟨hring, ?_⟩
  have hsub : (dev.line_delim_count - UInt64.ofNat (dev.subtracted length)).toNat =
      dev.delims - dev.subtracted length := by
    rw [UInt64.toNat_sub_of_le _ _ (UInt64.le_iff_toNat_le.mpr (by rw [hnat, h.exact]; exact hle)), hnat, h.exact]
  have hleft : (dev.finishRead length).delims = List.countP dev.ctrl.isDelim
      (if dev.EofAfter length then (dev.contents.drop length).dropLast else dev.contents.drop length) := by
    rw [delims, hcontents, hctrl]
  rw [hcount, hsub, hleft, delims_split length, subtracted]
  split_ifs with hafter
  · have hlast : ∀ c ∈ (dev.contents.drop length).getLast?, dev.ctrl.isDelim c := fun c hc => by
      refine hok hafter c ?_
      rw [← List.take_append_drop length dev.contents, List.getLast?_append_of_ne_nil _ hafter.drop_ne_nil]
      exact hc
    have := countP_dropLast_of_last hafter.drop_ne_nil hlast
    omega
  · omega

theorem Counted.congr (h : Counted dev) (hbuffer : dev'.buffer = dev.buffer) (hstart : dev'.buffer_start = dev.buffer_start)
    (hcount : dev'.buffer_count = dev.buffer_count) (hcap : dev'.buffer_capacity = dev.buffer_capacity)
    (hdelims : dev'.line_delim_count = dev.line_delim_count) (hctrl : dev'.ctrl = dev.ctrl) : Counted dev' := by
  refine ⟨⟨?_, ?_, ?_⟩, ?_⟩
  · rw [hstart, hcap]
    exact h.ring.start
  · rw [hcount, hcap]
    exact h.ring.count
  · rw [hcap]
    exact h.ring.capacity
  · rw [hdelims, delims, contents, hbuffer, hcap, hstart, hcount, hctrl]
    exact h.exact

theorem wakeupIfRequired_eq (dev : UartTtyDevice) (time : ℕ) :
    ∃ blocked, (dev.wakeupIfRequired time).2 = { dev with blocked := blocked } := by
  unfold wakeupIfRequired
  split_ifs <;> exact ⟨_, rfl⟩

theorem Counted.wakeupIfRequired (h : Counted dev) (time : ℕ) : Counted (dev.wakeupIfRequired time).2 := by
  obtain ⟨blocked, hblocked⟩ := dev.wakeupIfRequired_eq time
  rw [hblocked]
  exact h.congr rfl rfl rfl rfl rfl rfl

theorem Counted.read (h : Counted dev) {time task : ℕ} {signals block : Bool}
    (hok : dev.CountStep (.read time task size signals block)) :
    Counted (dev.uartTtyReadOrWait time task size signals block).2 := by
  obtain ⟨t, ht⟩ := dev.startRead_eq time
  have hstart : Counted (dev.startRead time) := by
    rw [ht]
    exact h.congr rfl rfl rfl rfl rfl rfl
  unfold uartTtyReadOrWait
  dsimp only
  split_ifs with hready
  · refine hstart.finishRead readLength_le fun hafter => ?_
    clear hstart
    -- a read that drops a `VEOF` is a canonical one, which does not start the time
    have hmode : dev.ctrl.mode icanon := by
      rw [ht] at hafter
      exact hafter.1
    rw [startRead_canonical hmode] at hready hafter ⊢
    exact hok hready hafter
  · exact hstart
  · exact hstart.congr rfl rfl rfl rfl rfl rfl
  · exact hstart

theorem Counted.clear (h : Counted dev) (hnone : ∀ c ∈ dev.contents, ¬dev.ctrl.isDelim c) :
    Counted { dev with buffer_count := 0 } :=
  ⟨⟨h.ring.start, Nat.zero_le _, h.ring.capacity⟩, h.exact.trans (List.countP_eq_zero.mpr hnone)⟩

theorem Counted.setCtrl (h : Counted dev) (ctrl : Termios) (hsame : dev.contents.countP ctrl.isDelim = dev.delims)
    (time : ℕ) : Counted (dev.setCtrl time ctrl).2 :=
  have hset : Counted { dev with ctrl := ctrl } :=
    ⟨⟨h.ring.start, h.ring.count, h.ring.capacity⟩, h.exact.trans hsame.symm⟩
  hset.wakeupIfRequired time

theorem Counted.write (h : Counted dev) (bytes : List UInt8) : Counted (dev.uartTtyWriteFunction bytes) := by
  obtain ⟨w, hw⟩ := dev.uartTtyWriteFunction_eq bytes
  rw [hw]
  exact h.congr rfl rfl rfl rfl rfl rfl

theorem Counted.step (h : Counted dev) {a : TtyStep} (hok : dev.CountStep a) (hdev : dev.step a = some dev') :
    Counted dev' := by
  cases a with
  | receive byte => exact h.receive hok hdev
  | dataEnd time =>
    cases hdev
    exact (h.congr rfl rfl rfl rfl rfl rfl : Counted { dev with last_byte := time }).wakeupIfRequired time
  | read time task size signals block =>
    cases hdev
    exact h.read hok
  | write bytes =>
    cases hdev
    exact h.write bytes
  | ioctl time request =>
    cases hdev
    cases request with
    | tcsetsf ctrl => exact (h.clear hok).setCtrl ctrl rfl time
    | tcsetsw ctrl => exact h.setCtrl ctrl hok time
    | tcsets ctrl => exact h.setCtrl ctrl hok time
    | tcflsh => exact h.clear hok
    | tiocspgrp group => exact h.congr rfl rfl rfl rfl rfl rfl
    | _ => exact h
  | signal task =>
    cases hdev
    exact h.congr rfl rfl rfl rfl rfl rfl

theorem canReturnRead_canonical {time : ℕ} (hmode : dev.ctrl.mode icanon) :
    dev.canReturnRead time ↔ 0 < dev.line_delim_count := by
  unfold canReturnRead
  rw [if_pos hmode, decide_eq_true_iff]

theorem uartTtyReadOrWait_success {time task : ℕ} {signals block : Bool} (hmode : dev.ctrl.mode icanon) :
    (∃ data, (dev.uartTtyReadOrWait time task size signals block).1 = .success data) ↔ dev.canReturnRead time := by
  unfold uartTtyReadOrWait
  dsimp only
  rw [startRead_canonical hmode]
  split_ifs with hready <;> simp [hready]

theorem counted_create {memory : ByteStore.Store} : Counted (createUartTtyDevice memory) :=
  ⟨⟨Or.inr ⟨rfl, rfl⟩, le_rfl, Nat.zero_le _⟩, rfl⟩

/-- The counter is exact in every run that drops no delimiter behind its back. -/
theorem runs_delims_exact {memory : ByteStore.Store} {steps : List TtyStep}
    (h : Runs UartTtyDevice.step CountStep (createUartTtyDevice memory) steps dev) :
    dev.line_delim_count.toNat = dev.contents.countP dev.ctrl.isDelim ∧
      (dev.ctrl.mode icanon → ∀ time task size signals block,
        (∃ data, (dev.uartTtyReadOrWait time task size signals block).1 = .success data) ↔
          ∃ c ∈ dev.contents, dev.ctrl.isDelim c) ∧
      ∀ size, dev.subtracted (dev.readLength size) ≤ dev.line_delim_count.toNat := by
  have hcounted : Counted dev := h.invariant (fun _ _ _ hI hok hstep => hI.step hok hstep) counted_create
  refine ⟨hcounted.exact, fun hmode time task size signals block => ?_, fun size => ?_⟩
  · rw [uartTtyReadOrWait_success hmode, canReturnRead_canonical hmode, UInt64.lt_iff_toNat_lt, hcounted.exact]
    exact List.countP_pos_iff
  · rw [hcounted.exact]
    exact subtracted_le

/-- A line with an erased character, and a read of it. -/
theorem runs_delims_exact_line : ∃ dev, execOk UartTtyDevice.step CountStep (createUartTtyDevice fun _ => 0)
    [.receive (some 97), .receive (some 98), .receive (some 0x7f), .receive (some 10), .read 0 1 1 false true] =
      some dev ∧ dev.line_delim_count.toNat = dev.contents.countP dev.ctrl.isDelim := by
  obtain ⟨dev, hdev⟩ : ∃ dev, execOk UartTtyDevice.step CountStep (createUartTtyDevice fun _ => 0)
      [.receive (some 97), .receive (some 98), .receive (some 0x7f), .receive (some 10), .read 0 1 1 false true] =
        some dev := Option.isSome_iff_exists.mp (by decide +kernel)
  exact ⟨dev, hdev, (runs_delims_exact (Runs.of_execOk hdev)).1⟩

/-- The erase character after a newline takes the newline, which stays counted. -/
theorem erased_newline_counted : ∃ dev, exec UartTtyDevice.step (createUartTtyDevice fun _ => 0)
    [.receive (some 10), .receive (some 0x7f)] = some dev ∧
      dev.line_delim_count.toNat ≠ dev.contents.countP dev.ctrl.isDelim := by
  refine ⟨(exec UartTtyDevice.step (createUartTtyDevice fun _ => 0)
    [.receive (some 10), .receive (some 0x7f)]).getD (createUartTtyDevice fun _ => 0), ?_, ?_⟩
  · rfl
  · decide

end UartTtyDevice
end SomeOs.Tty

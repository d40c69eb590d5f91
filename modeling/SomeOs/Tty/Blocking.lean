import SomeOs.Tty.Reads

/-! # Blocked readers

Tasks that wait for input are in the list of the device until input, new settings or a signal
wakes them. The sections of the functions under the lock of the device are the steps.
-/
namespace SomeOs.Tty
open Transition

structure TtySystem where
  dev : UartTtyDevice
  waiting : ℕ → Bool

/-- Every task that reads has a signal or not. -/
inductive SystemStep where
  | read (time task size : ℕ) (signals block : Bool)
  | input (time : ℕ) (bytes : List UInt8)
  | write (bytes : List UInt8)
  | ioctl (time : ℕ) (request : UartTtyDevice.IoctlRequest)
  | signal (task : ℕ)
  | timeout (time : ℕ)

namespace TtySystem

def awaken (s : TtySystem) (woken : List ℕ × UartTtyDevice) : Option TtySystem :=
  if ∀ t ∈ woken.1, s.waiting t then some ⟨woken.2, fun t => s.waiting t && t ∉ woken.1⟩ else none

def step (s : TtySystem) : SystemStep → Option TtySystem
  | .read time task size signals block =>
    match s.dev.uartTtyReadOrWait time task size signals block with
    | (.waits, dev) => some ⟨dev, Function.update s.waiting task true⟩
    | (_, dev) => some { s with dev := dev }
  | .input time bytes => (s.dev.uartTtyDataReady time bytes).bind s.awaken
  | .write bytes => some { s with dev := s.dev.uartTtyWriteFunction bytes }
  | .ioctl time request => s.awaken (s.dev.basicUartTtyIoctlFunction time request).2
  | .signal task => some ⟨s.dev.handleTtyWakeup task, Function.update s.waiting task false⟩
  | .timeout time => s.awaken (s.dev.wakeupIfRequired time)

/-- A task that waits does not read; the settings have no `VTIME`. -/
def WithoutTime (s : TtySystem) : SystemStep → Prop
  | .read _ task _ _ _ => ¬s.waiting task
  | .ioctl _ (.tcsets ctrl) | .ioctl _ (.tcsetsw ctrl) | .ioctl _ (.tcsetsf ctrl) => ctrl.cc .vtime = 0
  | _ => True

structure Blocked (s : TtySystem) : Prop where
  ring : RingOk s.dev
  vtime : s.dev.ctrl.cc .vtime = 0
  nodup : s.dev.blocked.Nodup
  waiting : ∀ t, t ∈ s.dev.blocked ↔ s.waiting t
  unready : s.dev.blocked ≠ [] → ∀ time, s.dev.canReturnRead time = false

end TtySystem

namespace UartTtyDevice
variable {dev dev' : UartTtyDevice} {time time' : ℕ}

theorem canReturnRead_congr (hvtime : dev.ctrl.cc .vtime = 0) (hctrl : dev'.ctrl = dev.ctrl)
    (hdelims : dev'.line_delim_count = dev.line_delim_count) (hcount : dev'.buffer_count = dev.buffer_count) :
    dev'.canReturnRead time = dev.canReturnRead time' := by
  unfold canReturnRead
  rw [hctrl, hdelims, hcount, if_pos hvtime, if_pos hvtime]

theorem startRead_of_vtime (hvtime : dev.ctrl.cc .vtime = 0) : dev.startRead time = dev :=
  if_neg fun h => h.2.1 hvtime

theorem wakeupIfRequired_unready (dev : UartTtyDevice) (time : ℕ)
    (h : (dev.wakeupIfRequired time).2.blocked ≠ []) : dev.canReturnRead time = false := by
  unfold wakeupIfRequired at h
  split_ifs at h with hready
  · exact absurd rfl h
  · simpa using hready

end UartTtyDevice

namespace TtySystem
open UartTtyDevice
variable {s s' : TtySystem} {dev : UartTtyDevice} {time : ℕ}

theorem Blocked.awaken (h : Blocked s) (dev : UartTtyDevice) (hring : RingOk dev) (hvtime : dev.ctrl.cc .vtime = 0)
    (hblocked : dev.blocked = s.dev.blocked) (hs : s.awaken (dev.wakeupIfRequired time) = some s') : Blocked s' := by
  obtain ⟨-, heq⟩ := Option.ite_none_right_eq_some.mp hs
  cases heq
  have hunready := dev.wakeupIfRequired_unready time
  unfold wakeupIfRequired at hunready ⊢
  split_ifs at hunready ⊢ with hready
  · refine ⟨⟨hring.start, hring.count, hring.capacity⟩, hvtime, List.nodup_nil, fun t => ?_, fun h => absurd rfl h⟩
    have hmem := h.waiting t
    rw [hblocked]
    simp [← hmem]
  · refine ⟨hring, hvtime, hblocked ▸ h.nodup, fun t => ?_, fun hne time' => ?_⟩
    · dsimp only
      rw [hblocked, h.waiting]
      simp
    · rw [← hunready hne]
      exact canReturnRead_congr hvtime rfl rfl rfl

theorem Blocked.keep (h : Blocked s) (hring : RingOk dev) (hctrl : dev.ctrl = s.dev.ctrl)
    (hblocked : dev.blocked = s.dev.blocked)
    (hready : ∀ time, s.dev.canReturnRead time = false → dev.canReturnRead time = false) :
    Blocked { s with dev := dev } := by
  refine ⟨hring, by rw [hctrl]; exact h.vtime, hblocked ▸ h.nodup, fun t => ?_, fun hne time => ?_⟩
  · dsimp only
    rw [hblocked, h.waiting]
  · exact hready time (h.unready (hblocked ▸ hne) time)

theorem Blocked.read (h : Blocked s) {task size : ℕ} {signals block : Bool} (htask : ¬s.waiting task)
    (hs : s.step (.read time task size signals block) = some s') : Blocked s' := by
  simp only [TtySystem.step, uartTtyReadOrWait, startRead_of_vtime h.vtime] at hs
  by_cases hready : s.dev.canReturnRead time
  · -- no other task waits, as there is input
    have hnone : s.dev.blocked = [] := by
      by_contra hne
      rw [h.unready hne time] at hready
      cases hready
    obtain ⟨hring, -, -, hctrl, hblocked⟩ := finishRead_spec h.ring (@readLength_le s.dev size)
    rw [if_pos hready] at hs
    cases hs
    refine ⟨hring, by rw [hctrl]; exact h.vtime, hblocked ▸ h.nodup, fun t => ?_, fun hne => ?_⟩
    · dsimp only
      rw [hblocked, h.waiting]
    · exact absurd (hblocked.trans hnone) hne
  · rw [if_neg hready] at hs
    split_ifs at hs
    · cases hs
      exact h
    · cases hs
      have hnot : task ∉ s.dev.blocked := mt (h.waiting task).mp htask
      refine ⟨⟨h.ring.start, h.ring.count, h.ring.capacity⟩, h.vtime, List.nodup_cons.mpr ⟨hnot, h.nodup⟩,
        fun t => ?_, fun _ time' => ?_⟩
      · by_cases ht : t = task
        · simp [ht]
        · simp [ht, h.waiting t]
      · rw [Bool.not_eq_true] at hready
        rw [← hready]
        exact canReturnRead_congr h.vtime rfl rfl rfl
    · cases hs
      exact h

theorem awaken_nil : s.awaken ([], dev) = some { s with dev := dev } := by
  simp [TtySystem.awaken]

theorem canReturnRead_flush (hvtime : dev.ctrl.cc .vtime = 0) (h : dev.canReturnRead time = false) :
    canReturnRead { dev with buffer_count := 0 } time = false := by
  unfold canReturnRead at h ⊢
  dsimp only
  rw [if_pos hvtime] at h ⊢
  split_ifs at h ⊢ with hmode
  · exact h
  · simp only [decide_eq_false_iff_not] at h ⊢
    omega

theorem Blocked.setCtrl (h : Blocked s) (dev : UartTtyDevice) {ctrl : Termios} (hdev : RingOk dev)
    (hblocked : dev.blocked = s.dev.blocked) (hctrl : ctrl.cc .vtime = 0)
    (hs : s.awaken (dev.setCtrl time ctrl) = some s') : Blocked s' :=
  h.awaken { dev with ctrl := ctrl } ⟨hdev.start, hdev.count, hdev.capacity⟩ hctrl hblocked hs

theorem Blocked.ioctl (h : Blocked s) {request : IoctlRequest} (hok : s.WithoutTime (.ioctl time request))
    (hs : s.awaken (s.dev.basicUartTtyIoctlFunction time request).2 = some s') : Blocked s' := by
  cases request with
  | tcsetsf ctrl => exact h.setCtrl { s.dev with buffer_count := 0 } ⟨h.ring.start, Nat.zero_le _, h.ring.capacity⟩ rfl hok hs
  | tcsetsw ctrl => exact h.setCtrl s.dev h.ring rfl hok hs
  | tcsets ctrl => exact h.setCtrl s.dev h.ring rfl hok hs
  | tcflsh =>
    cases awaken_nil.symm.trans hs
    exact h.keep ⟨h.ring.start, Nat.zero_le _, h.ring.capacity⟩ rfl rfl fun _ => canReturnRead_flush h.vtime
  | tiocspgrp group =>
    cases awaken_nil.symm.trans hs
    exact h.keep ⟨h.ring.start, h.ring.count, h.ring.capacity⟩ rfl rfl fun _ hready => hready
  | tcgets | tiocgpgrp | tcxonc | fionread | other =>
    cases awaken_nil.symm.trans hs
    exact h

theorem Blocked.signal (h : Blocked s) {task : ℕ} :
    Blocked ⟨s.dev.handleTtyWakeup task, Function.update s.waiting task false⟩ := by
  refine ⟨⟨h.ring.start, h.ring.count, h.ring.capacity⟩, h.vtime, h.nodup.erase task, fun t => ?_, fun hne time => ?_⟩
  · simp only [handleTtyWakeup]
    rw [h.nodup.mem_erase_iff, h.waiting]
    by_cases ht : t = task
    · simp [ht]
    · simp [ht]
  · have hsome : s.dev.blocked ≠ [] := fun hnil => hne (by simp [handleTtyWakeup, hnil])
    rw [← h.unready hsome time]
    exact canReturnRead_congr h.vtime rfl rfl rfl

theorem Blocked.step (h : Blocked s) {a : SystemStep} (hok : s.WithoutTime a) (hs : s.step a = some s') :
    Blocked s' := by
  cases a with
  | read time task size signals block => exact h.read hok hs
  | input time bytes =>
    obtain ⟨woken, hwoken, hs⟩ := Option.bind_eq_some_iff.mp hs
    obtain ⟨dev, hdev, rfl⟩ := Option.map_eq_some_iff.mp hwoken
    obtain ⟨hring, hsame⟩ := receiveAll_spec h.ring hdev
    exact h.awaken { dev with last_byte := time } ⟨hring.start, hring.count, hring.capacity⟩
      (hsame.ctrl ▸ h.vtime) hsame.blocked hs
  | write bytes =>
    cases hs
    obtain ⟨w, hw⟩ := s.dev.uartTtyWriteFunction_eq bytes
    rw [hw]
    exact h.keep ⟨h.ring.start, h.ring.count, h.ring.capacity⟩ rfl rfl fun _ hready => hready
  | ioctl time request => exact h.ioctl hok hs
  | signal task =>
    cases hs
    exact h.signal
  | timeout time => exact h.awaken s.dev h.ring h.vtime rfl hs

def create (memory : ByteStore.Store) : TtySystem := ⟨createUartTtyDevice memory, fun _ => false⟩

theorem blocked_create {memory : ByteStore.Store} : Blocked (create memory) where
  ring := ⟨Or.inr ⟨rfl, rfl⟩, le_rfl, Nat.zero_le _⟩
  vtime := rfl
  nodup := List.nodup_nil
  waiting _ := by simp [create, createUartTtyDevice]
  unready h := absurd rfl h

/-- No reader waits while there is input, and every one that waits is in the list once. -/
theorem runs_blocked {memory : ByteStore.Store} {steps : List SystemStep}
    (h : Runs step WithoutTime (create memory) steps s) :
    (s.dev.blocked ≠ [] → ∀ time, s.dev.canReturnRead time = false) ∧
      ∀ t, s.dev.blocked.count t = if s.waiting t then 1 else 0 := by
  have hblocked : Blocked s := h.invariant (fun _ _ _ hI hok hstep => hI.step hok hstep) blocked_create
  refine ⟨hblocked.unready, fun t => ?_⟩
  rw [hblocked.nodup.count]
  exact if_congr (hblocked.waiting t) rfl rfl

instance (s : TtySystem) (a : SystemStep) : Decidable (s.WithoutTime a) :=
  match a with
  | .read _ task _ _ _ => inferInstanceAs (Decidable ¬s.waiting task)
  | .ioctl _ (.tcsets ctrl) | .ioctl _ (.tcsetsw ctrl) |
    .ioctl _ (.tcsetsf ctrl) => inferInstanceAs (Decidable (ctrl.cc .vtime = 0))
  | .ioctl _ .tcgets | .ioctl _ .tiocgpgrp | .ioctl _ (.tiocspgrp _) | .ioctl _ .tcxonc | .ioctl _ .tcflsh | .ioctl _ .fionread
  | .ioctl _ .other | .input _ _ | .write _ | .signal _ | .timeout _ => isTrue trivial

/-- Three tasks wait for the first line, of which a part comes; the settings are set again, and one of
the tasks gets a signal. -/
theorem runs_blocked_three : ∃ s, Runs step WithoutTime (create fun _ => 0)
    [.read 0 1 10 false true, .read 1 2 10 false true, .input 2 [104, 105], .read 3 3 10 false true,
      .ioctl 4 (.tcsets (create fun _ => 0).dev.ctrl), .signal 2] s ∧
    (s.dev.blocked.count 1, s.dev.blocked.count 2, s.dev.blocked.count 3) = (1, 0, 1) ∧
    ∀ time, s.dev.canReturnRead time = false := by
  have hruns : (execOk step WithoutTime (create fun _ => 0)
      [.read 0 1 10 false true, .read 1 2 10 false true, .input 2 [104, 105], .read 3 3 10 false true,
        .ioctl 4 (.tcsets (create fun _ => 0).dev.ctrl), .signal 2]).any (fun s =>
      (s.waiting 1, s.waiting 2, s.waiting 3) = (true, false, true) ∧ s.dev.blocked ≠ []) = true := by
    decide
  obtain ⟨s, hexec, hstate⟩ := (Option.any_eq_true _ _).mp hruns
  obtain ⟨hwaiting, hblocked⟩ := of_decide_eq_true hstate
  obtain ⟨hunready, hcount⟩ := runs_blocked (Runs.of_execOk hexec)
  obtain ⟨hone, htwo, hthree⟩ : s.waiting 1 = true ∧ s.waiting 2 = false ∧ s.waiting 3 = true := by simpa using hwaiting
  refine ⟨s, Runs.of_execOk hexec, ?_, hunready hblocked⟩
  simp [hcount, hone, htwo, hthree]

end TtySystem
end SomeOs.Tty

import SomeOs.Base.ByteView
import SomeOs.Base.LittleEndian
import SomeOs.Base.Transition
import SomeOs.Signals.Types

/-! # Signal handlers and their frames

What a handler interrupts is pushed to the user stack, and what a handler returns to is popped
from it. The frames of nested handlers are linked by the addresses saved in them.
-/
namespace SomeOs.Signals
open ByteStore ByteView Transition WordArray

abbrev regReturnAddress : Fin 31 := 0
abbrev regStackPointer : Fin 31 := 1
abbrev regArgument0 : Fin 31 := 9
abbrev regArgument1 : Fin 31 := 10
abbrev regArgument2 : Fin 31 := 11

/-- What the frame of a handler restores. -/
structure Context where
  regs : Fin 31 → BitVec 64
  fregs : Fin 32 → BitVec 64
  pc : BitVec 64
  mask : SignalSet
  current_signal : BitVec 32
  restore_frame : BitVec 64

/-- A task of a process with signal handlers. Its memory is what the user may read and write. -/
structure SignalTask extends Context where
  handlers : ℕ → SignalHandler
  memory : View

def pushToVirtPtrStack (stack : View × BitVec 64) (bs : List UInt8) : View × BitVec 64 :=
  let sp := stack.2 - BitVec.ofNat 64 bs.length
  (copyTo stack.1 sp.toNat bs, sp)

def popFromVirtPtrStack (m : View) (sp : BitVec 64) (bs : List UInt8) : List UInt8 × BitVec 64 :=
  (copyFrom m sp.toNat bs, sp + BitVec.ofNat 64 bs.length)

/-- A `SigInfo` of the number of the signal and zeros. -/
def sigInfo (signal : ℕ) : List UInt8 := intBytes 4 signal ++ intBytes 4 0 ++ intBytes 8 0

def savedObjects (c : Context) : List (List UInt8) :=
  [intBytes 8 c.mask.toNat, intBytes 8 c.restore_frame.toNat, intBytes 4 c.current_signal.toNat, intBytes 8 c.pc.toNat,
    arrayBytes c.fregs, arrayBytes c.regs]

/-- The last branch of `handleActualSignal`. -/
def enterHandler (t : SignalTask) (signal : ℕ) : SignalTask :=
  let action := t.handlers signal
  let info := pushToVirtPtrStack (t.memory, t.regs regStackPointer) (sigInfo signal)
  let stack := (savedObjects t.toContext).foldl pushToVirtPtrStack info
  let mask := t.mask ||| action.mask
  { t with
    memory := stack.1
    mask := if action.flags &&& saNodefer ≠ 0 then mask ||| signalBit signal else mask
    restore_frame := stack.2
    current_signal := BitVec.ofNat 32 signal
    pc := action.handler
    regs := fun r =>
      if r = regArgument0 then BitVec.ofNat 64 signal
      else if r = regArgument1 then info.2
      else if r = regArgument2 then stack.2
      else if r = regStackPointer then stack.2
      else if r = regReturnAddress then action.restorer
      else t.regs r
    handlers := if action.flags &&& saResethand ≠ 0 then
        Function.update t.handlers signal { action with handler := sigDfl, flags := action.flags &&& ~~~saSiginfo }
      else t.handlers }

/-- What becomes of the process with a signal. -/
inductive Handled where
  | exits
  | stops
  | ignores
  | enters (t : SignalTask)

def handleActualSignal (t : SignalTask) (signal : ℕ) : Handled :=
  let action := t.handlers signal
  if signal = sigKill then .exits
  else if signal = sigStop then .stops
  else if sigCount ≤ signal ∨ signal = sigNone then .ignores
  else if action.handler = sigDfl then
    if ignoredByDefault signal then .ignores
    else if signal = sigTstp ∨ signal = sigTtin ∨ signal = sigTtou then .stops
    else .exits
  else if action.handler = sigIgn then .ignores
  else .enters (enterHandler t signal)

/-- Nothing is done when no handler runs. -/
def returnFromSignal (t : SignalTask) : SignalTask :=
  if t.current_signal ≠ 0 then
    let regs := popFromVirtPtrStack t.memory t.restore_frame (arrayBytes t.regs)
    let fregs := popFromVirtPtrStack t.memory regs.2 (arrayBytes t.fregs)
    let pc := popFromVirtPtrStack t.memory fregs.2 (intBytes 8 t.pc.toNat)
    let current_signal := popFromVirtPtrStack t.memory pc.2 (intBytes 4 t.current_signal.toNat)
    let restore_frame := popFromVirtPtrStack t.memory current_signal.2 (intBytes 8 t.restore_frame.toNat)
    let mask := popFromVirtPtrStack t.memory restore_frame.2 (intBytes 8 t.mask.toNat)
    { t with
      regs := ofArrayBytes regs.1
      fregs := ofArrayBytes fregs.1
      pc := BitVec.ofNat 64 (ofBytes pc.1)
      current_signal := BitVec.ofNat 32 (ofBytes current_signal.1)
      restore_frame := BitVec.ofNat 64 (ofBytes restore_frame.1)
      mask := BitVec.ofNat 64 (ofBytes mask.1) }
  else t

def frameBytes (c : Context) : List UInt8 := (savedObjects c).reverse.flatten

abbrev frameSize : ℕ := 532

abbrev sigInfoSize : ℕ := 16

def Linked (m : View) : Context → List Context → Prop
  | _, [] => True
  | c, saved :: rest => c.current_signal ≠ 0 ∧ c.restore_frame.toNat + frameSize < 2 ^ 64 ∧
    Holds m c.restore_frame.toNat (frameBytes saved) ∧ Linked m saved rest

def frameAddresses : Context → List Context → List ℕ
  | _, [] => []
  | c, saved :: rest => c.restore_frame.toNat :: frameAddresses saved rest

/-- There is room for a frame below the stack pointer, apart from the frames of the handlers that run. -/
structure Room (t : SignalTask) (saved : List Context) : Prop where
  size : frameSize + sigInfoSize ≤ (t.regs regStackPointer).toNat
  accessible : Accessible t.memory ((t.regs regStackPointer).toNat - (frameSize + sigInfoSize)) (frameSize + sigInfoSize)
  apart : ∀ a ∈ frameAddresses t.toContext saved, (t.regs regStackPointer).toNat ≤ a ∨
    a + frameSize ≤ (t.regs regStackPointer).toNat - (frameSize + sigInfoSize)

def Unmodified (t : SignalTask) (saved : List Context) (m : View) : Prop :=
  ∀ a ∈ frameAddresses t.toContext saved, ∀ i < frameSize, m (a + i) = t.memory (a + i)

section
variable {t : SignalTask} {c : Context} {saved : List Context} {m m' : View} {signal : ℕ}

theorem frameBytes_eq : frameBytes c = arrayBytes c.regs ++ (arrayBytes c.fregs ++ (intBytes 8 c.pc.toNat ++
    (intBytes 4 c.current_signal.toNat ++ (intBytes 8 c.restore_frame.toNat ++ intBytes 8 c.mask.toNat)))) := by
  simp [frameBytes, savedObjects]

@[simp] theorem frameBytes_length : (frameBytes c).length = frameSize := by
  simp [frameBytes_eq]

theorem isSome_foldl_push (objects : List (List UInt8)) (stack : View × BitVec 64) (x : ℕ) :
    ((objects.foldl pushToVirtPtrStack stack).1 x).isSome = (stack.1 x).isSome := by
  induction objects generalizing stack with
  | nil => rfl
  | cons o objects ih => exact (ih _).trans isSome_copyTo

/-- What is pushed stands below what was there, in the order of a stack. -/
theorem foldl_push (objects : List (List UInt8)) (sp : BitVec 64) (hroom : objects.flatten.length ≤ sp.toNat)
    (haccess : Accessible m (sp.toNat - objects.flatten.length) objects.flatten.length) :
    let stack := objects.foldl pushToVirtPtrStack (m, sp)
    stack.2.toNat = sp.toNat - objects.flatten.length ∧
    Holds stack.1 (sp.toNat - objects.flatten.length) objects.reverse.flatten ∧
    ∀ x, x < sp.toNat - objects.flatten.length ∨ sp.toNat ≤ x → stack.1 x = m x := by
  induction objects generalizing m sp with
  | nil => exact ⟨rfl, fun i hi => absurd hi (Nat.not_lt_zero i), fun _ _ => rfl⟩
  | cons o objects ih =>
    rw [List.flatten_cons, List.length_append] at hroom haccess ⊢
    have hsp : (sp - BitVec.ofNat 64 o.length).toNat = sp.toNat - o.length := by
      have := sp.isLt
      rw [BitVec.toNat_sub, BitVec.toNat_ofNat]
      omega
    have hacc : Accessible m (sp.toNat - o.length) o.length := by
      intro i hi
      have := haccess (objects.flatten.length + i) (by omega)
      rwa [show sp.toNat - (o.length + objects.flatten.length) + (objects.flatten.length + i) =
        sp.toNat - o.length + i by omega] at this
    have hrest : Accessible (copyTo m (sp.toNat - o.length) o)
        ((sp - BitVec.ofNat 64 o.length).toNat - objects.flatten.length) objects.flatten.length := by
      intro i hi
      rw [isSome_copyTo, hsp, Nat.sub_sub]
      exact haccess i (by omega)
    obtain ⟨hend, hholds, hout⟩ := ih (sp - BitVec.ofNat 64 o.length) (by omega) hrest
    have hbelow : (sp - BitVec.ofNat 64 o.length).toNat - objects.flatten.length =
        sp.toNat - (o.length + objects.flatten.length) := by omega
    rw [hbelow] at hend hholds hout
    rw [hsp] at hout
    simp only [List.foldl_cons, pushToVirtPtrStack, hsp]
    refine ⟨hend, ?_, fun x hx => ?_⟩
    · rw [List.reverse_cons, List.flatten_append, List.flatten_singleton, holds_append]
      refine ⟨hholds, ?_⟩
      have hlen : objects.reverse.flatten.length = objects.flatten.length := by
        rw [List.length_flatten, List.length_flatten, List.map_reverse, List.sum_reverse]
      rw [hlen, show sp.toNat - (o.length + objects.flatten.length) + objects.flatten.length = sp.toNat - o.length by omega]
      exact (holds_copyTo hacc).congr fun i _ => hout _ (.inr (by omega))
    · rw [hout x (by omega), copyTo_outside (by omega)]

theorem Room.enterHandler (h : Room t saved) (signal : ℕ) :
    (enterHandler t signal).restore_frame.toNat = (t.regs regStackPointer).toNat - (frameSize + sigInfoSize) ∧
    Holds (enterHandler t signal).memory (enterHandler t signal).restore_frame.toNat (frameBytes t.toContext) ∧
    ∀ x, x < (t.regs regStackPointer).toNat - (frameSize + sigInfoSize) ∨ (t.regs regStackPointer).toNat ≤ x →
      (enterHandler t signal).memory x = t.memory x := by
  have hlen : (sigInfo signal :: savedObjects t.toContext).flatten.length = frameSize + sigInfoSize := by
    simp [sigInfo, savedObjects, frameSize, sigInfoSize]
  obtain ⟨hend, hholds, hout⟩ := @foldl_push t.memory (sigInfo signal :: savedObjects t.toContext)
    (t.regs regStackPointer) (by rw [hlen]; exact h.size) (by rw [hlen]; exact h.accessible)
  rw [hlen] at hend hholds hout
  rw [List.reverse_cons, List.flatten_append, holds_append] at hholds
  refine ⟨hend, ?_, hout⟩
  rw [show (Signals.enterHandler t signal).restore_frame.toNat = _ from hend]
  exact hholds.1

theorem isSome_enterHandler (x : ℕ) : ((enterHandler t signal).memory x).isSome = (t.memory x).isSome :=
  isSome_foldl_push (sigInfo signal :: savedObjects t.toContext) (t.memory, t.regs regStackPointer) x

theorem pop_of_holds {sp : BitVec 64} {old bs rest : List UInt8} (h : Holds m sp.toNat (bs ++ rest))
    (hlen : old.length = bs.length) (hsp : sp.toNat + bs.length < 2 ^ 64) :
    (popFromVirtPtrStack m sp old).1 = bs ∧ (popFromVirtPtrStack m sp old).2.toNat = sp.toNat + bs.length ∧
      Holds m (popFromVirtPtrStack m sp old).2.toNat rest := by
  obtain ⟨hbs, hrest⟩ := holds_append.mp h
  have hend : (popFromVirtPtrStack m sp old).2.toNat = sp.toNat + bs.length := by
    unfold popFromVirtPtrStack
    rw [BitVec.toNat_add, BitVec.toNat_ofNat, hlen]
    omega
  exact ⟨copyFrom_of_holds hbs hlen, hend, by rwa [hend]⟩

theorem ofNat_ofBytes_intBytes {w n : ℕ} (hw : 256 ^ n = 2 ^ w) (v : BitVec w) :
    BitVec.ofNat w (ofBytes (intBytes n v.toNat)) = v := by
  apply BitVec.eq_of_toNat_eq
  rw [ofBytes_intBytes, BitVec.toNat_ofNat, hw, Nat.mod_mod]
  exact Nat.mod_eq_of_lt v.isLt

/-- A return restores what the frame holds. -/
theorem returnFromSignal_context (hcurrent : t.current_signal ≠ 0)
    (hsize : t.restore_frame.toNat + frameSize < 2 ^ 64) (h : Holds t.memory t.restore_frame.toNat (frameBytes c)) :
    (returnFromSignal t).toContext = c := by
  rw [frameBytes_eq] at h
  unfold frameSize at hsize
  obtain ⟨hregs, hend1, h⟩ := @pop_of_holds _ _ (arrayBytes t.regs) _ _ h (by simp) (by simp; omega)
  rw [arrayBytes_length] at hend1
  obtain ⟨hfregs, hend2, h⟩ := @pop_of_holds _ _ (arrayBytes t.fregs) _ _ h (by simp) (by simp; omega)
  rw [arrayBytes_length] at hend2
  obtain ⟨hpc, hend3, h⟩ := @pop_of_holds _ _ (intBytes 8 t.pc.toNat) _ _ h (by simp) (by simp; omega)
  rw [intBytes_length] at hend3
  obtain ⟨hcurrent_signal, hend4, h⟩ := @pop_of_holds _ _ (intBytes 4 t.current_signal.toNat) _ _ h (by simp) (by simp; omega)
  rw [intBytes_length] at hend4
  obtain ⟨hrestore_frame, hend5, h⟩ := @pop_of_holds _ _ (intBytes 8 t.restore_frame.toNat) _ _ h (by simp) (by simp; omega)
  rw [intBytes_length] at hend5
  rw [← List.append_nil (intBytes 8 c.mask.toNat)] at h
  obtain ⟨hmask, -, -⟩ := @pop_of_holds _ _ (intBytes 8 t.mask.toNat) _ _ h (by simp) (by simp; omega)
  unfold returnFromSignal
  rw [if_pos hcurrent]
  dsimp only
  rw [hregs, hfregs, hpc, hcurrent_signal, hrestore_frame, hmask, ofArrayBytes_arrayBytes, ofArrayBytes_arrayBytes,
    ofNat_ofBytes_intBytes (by norm_num), ofNat_ofBytes_intBytes (by norm_num), ofNat_ofBytes_intBytes (by norm_num),
    ofNat_ofBytes_intBytes (by norm_num)]

theorem Linked.congr (h : Linked m c saved)
    (hm : ∀ a ∈ frameAddresses c saved, ∀ i < frameSize, m' (a + i) = m (a + i)) : Linked m' c saved := by
  induction saved generalizing c with
  | nil => trivial
  | cons s rest ih =>
    obtain ⟨hcurrent, hsize, hholds, hrest⟩ := h
    refine ⟨hcurrent, hsize, hholds.congr fun i hi => ?_, ih hrest fun a ha => hm a (List.mem_cons_of_mem _ ha)⟩
    exact hm _ List.mem_cons_self i (by rwa [frameBytes_length] at hi)

theorem handleActualSignal_enters {t' : SignalTask} (h : handleActualSignal t signal = .enters t') :
    t' = enterHandler t signal ∧ signal ≠ sigKill ∧ signal ≠ sigStop ∧ signal < sigCount ∧ signal ≠ sigNone := by
  unfold handleActualSignal at h
  dsimp only at h
  split_ifs at h with hkill hstop hnone
  cases h
  exact ⟨rfl, hkill, hstop, not_le.mp fun hle => hnone (.inl hle), fun heq => hnone (.inr heq)⟩

theorem Linked.enterHandler (h : Linked t.memory t.toContext saved) (hroom : Room t saved) (hnone : signal ≠ sigNone)
    (hcount : signal < sigCount) :
    Linked (enterHandler t signal).memory (enterHandler t signal).toContext (t.toContext :: saved) := by
  obtain ⟨hframe, hholds, hout⟩ := hroom.enterHandler signal
  have hsize := hroom.size
  have hlt := (t.regs regStackPointer).isLt
  unfold frameSize sigInfoSize at hsize hframe
  refine ⟨?_, by unfold frameSize; omega, hholds, h.congr fun a ha i hi => hout _ ?_⟩
  · intro hzero
    have := congrArg BitVec.toNat hzero
    rw [show (Signals.enterHandler t signal).current_signal = BitVec.ofNat 32 signal from rfl, BitVec.toNat_ofNat] at this
    unfold sigNone at hnone
    unfold sigCount at hcount
    have hz : (0 : BitVec 32).toNat = 0 := rfl
    omega
  · rcases hroom.apart a ha with hle | hle
    · exact .inr (by omega)
    · exact .inl (by omega)

theorem Linked.returnFromSignal {s : Context} (h : Linked t.memory t.toContext (s :: saved)) :
    (returnFromSignal t).toContext = s ∧ (returnFromSignal t).memory = t.memory ∧ Linked t.memory s saved := by
  obtain ⟨hcurrent, hsize, hholds, hrest⟩ := h
  refine ⟨returnFromSignal_context hcurrent hsize hholds, ?_, hrest⟩
  unfold Signals.returnFromSignal
  split_ifs
  rfl

structure SignalStack where
  task : SignalTask
  saved : List Context

/-- A handler is entered, the user runs, or a handler returns. -/
inductive StackAction where
  | enter (signal : ℕ)
  | user (t : SignalTask)
  | ret

/-- The user does not see the current signal and where its frame is. -/
def stackStep (s : SignalStack) : StackAction → Option SignalStack
  | .enter signal =>
    match handleActualSignal s.task signal with
    | .enters t => some ⟨t, s.task.toContext :: s.saved⟩
    | _ => none
  | .user t => some ⟨{ t with
      current_signal := s.task.current_signal
      restore_frame := s.task.restore_frame }, s.saved⟩
  | .ret =>
    match s.saved with
    | [] => none
    | _ :: saved => some ⟨returnFromSignal s.task, saved⟩

/-- The user stack has room for the frames and the handlers leave them alone. -/
def StackOk (s : SignalStack) : StackAction → Prop
  | .enter _ => Room s.task s.saved
  | .user t => Unmodified s.task s.saved t.memory
  | .ret => True

theorem linked_user {t t' : SignalTask} (h : Linked t.memory t.toContext saved) (hm : Unmodified t saved t'.memory)
    {mask : SignalSet} :
    Linked t'.memory ⟨t'.regs, t'.fregs, t'.pc, mask, t.current_signal, t.restore_frame⟩ saved := by
  have hlinked := h.congr hm
  cases saved with
  | nil => trivial
  | cons c saved => exact hlinked

theorem linked_step {s s' : SignalStack} {a : StackAction} (h : Linked s.task.memory s.task.toContext s.saved)
    (hok : StackOk s a) (hstep : stackStep s a = some s') : Linked s'.task.memory s'.task.toContext s'.saved := by
  cases a with
  | enter signal =>
    simp only [stackStep] at hstep
    split at hstep
    next t' ht =>
      cases hstep
      obtain ⟨rfl, -, -, hcount, hnone⟩ := handleActualSignal_enters ht
      exact h.enterHandler hok hnone hcount
    next => cases hstep
  | user t =>
    cases hstep
    exact linked_user h hok
  | ret =>
    simp only [stackStep] at hstep
    split at hstep
    next => cases hstep
    next c saved hsaved =>
      cases hstep
      rw [hsaved] at h
      obtain ⟨hcontext, hmemory, hrest⟩ := h.returnFromSignal
      rw [← hcontext, ← hmemory] at hrest
      exact hrest

/-- A return restores what the handler has interrupted that was entered last and has not returned. -/
theorem runs_restore {t : SignalTask} {actions : List StackAction} {s : SignalStack}
    (h : Runs stackStep StackOk ⟨t, []⟩ actions s) {c : Context} {saved : List Context} (hs : s.saved = c :: saved) :
    stackStep s .ret = some ⟨returnFromSignal s.task, saved⟩ ∧ (returnFromSignal s.task).toContext = c := by
  have hlinked : Linked s.task.memory s.task.toContext s.saved :=
    @Runs.invariant _ _ stackStep StackOk (fun s => Linked s.task.memory s.task.toContext s.saved)
      (fun _ _ _ hlinked hok hstep => linked_step hlinked hok hstep) _ _ _ h trivial
  rw [hs] at hlinked
  refine ⟨?_, hlinked.returnFromSignal.1⟩
  unfold stackStep
  rw [hs]

/-- A task with one handler and all of its memory accessible. -/
def handlingTask : SignalTask where
  regs := fun _ => 0x10000
  fregs := fun _ => 0x3ff
  pc := 0x2000
  mask := 0
  current_signal := 0
  restore_frame := 0
  handlers := fun _ => ⟨0x3000, 0, 0, 0x4000⟩
  memory := fun _ => some 0

/-- What some instructions of a handler do, of which one stores a byte. -/
def storing (t : SignalTask) : SignalTask :=
  { t with pc := t.pc + 16, regs := Function.update t.regs regArgument2 7, memory := copyTo t.memory 0x8000 [1] }

theorem storing_unmodified (h : ∀ a ∈ frameAddresses t.toContext saved, 0x8001 ≤ a) : Unmodified t saved (storing t).memory :=
  fun a ha i _ => copyTo_outside (Or.inr ((h a ha).trans (Nat.le_add_right a i)))

/-- A handler is interrupted by the handler of another signal, and both of them return. -/
theorem runs_restore_nested : ∃ first s s', stackStep ⟨handlingTask, []⟩ (.enter sigUsr1) =
    some ⟨first, [handlingTask.toContext]⟩ ∧
    Runs stackStep StackOk ⟨handlingTask, []⟩ [.enter sigUsr1, .user (storing first), .enter sigUsr2] s ∧
    (returnFromSignal s.task).toContext = (storing first).toContext ∧
    Runs stackStep StackOk ⟨handlingTask, []⟩ [.enter sigUsr1, .user (storing first), .enter sigUsr2, .ret] s' ∧
    (returnFromSignal s'.task).toContext = handlingTask.toContext := by
  have hroom : Room handlingTask [] := ⟨by decide, fun _ _ => rfl, fun a ha => nomatch ha⟩
  obtain ⟨first, hfirst, hsp, hhandlers, hframe, haccess⟩ : ∃ first,
      stackStep ⟨handlingTask, []⟩ (.enter sigUsr1) = some ⟨first, [handlingTask.toContext]⟩ ∧
      first.regs regStackPointer = first.restore_frame ∧ first.handlers = handlingTask.handlers ∧
      first.restore_frame.toNat = 64988 ∧ ∀ x, (first.memory x).isSome :=
    ⟨enterHandler handlingTask sigUsr1, rfl, rfl, rfl, (hroom.enterHandler sigUsr1).1, fun x => isSome_enterHandler x⟩
  have haddresses : ∀ a ∈ frameAddresses first.toContext [handlingTask.toContext], a = 64988 := by
    intro a ha
    rw [frameAddresses, frameAddresses, List.mem_singleton] at ha
    exact ha.trans hframe
  have hnested : Room (storing first) [handlingTask.toContext] := by
    have hsp : ((storing first).regs regStackPointer).toNat = 64988 := (congrArg _ hsp).trans hframe
    refine ⟨by rw [hsp]; decide, fun i _ => ?_, fun a ha => Or.inl ?_⟩
    · exact isSome_copyTo.trans (haccess _)
    · exact (hsp.trans (haddresses a ha).symm).le
  have hok₂ : StackOk ⟨first, [handlingTask.toContext]⟩ (.user (storing first)) :=
    storing_unmodified fun a ha => (haddresses a ha).symm ▸ (by decide)
  have huser : stackStep ⟨first, [handlingTask.toContext]⟩ (.user (storing first)) =
      some ⟨storing first, [handlingTask.toContext]⟩ := rfl
  have hsecond : stackStep ⟨storing first, [handlingTask.toContext]⟩ (.enter sigUsr2) =
      some ⟨enterHandler (storing first) sigUsr2, [(storing first).toContext, handlingTask.toContext]⟩ := by
    have henters : handleActualSignal (storing first) sigUsr2 = .enters (enterHandler (storing first) sigUsr2) := by
      unfold handleActualSignal
      rw [show (storing first).handlers = handlingTask.handlers from hhandlers]
      rfl
    rw [stackStep, henters]
  have hruns : Runs stackStep StackOk ⟨handlingTask, []⟩ [.enter sigUsr1, .user (storing first), .enter sigUsr2]
      ⟨enterHandler (storing first) sigUsr2, [(storing first).toContext, handlingTask.toContext]⟩ :=
    .cons hroom hfirst (.cons hok₂ huser (.cons hnested hsecond (.nil _)))
  obtain ⟨hret, hcontext⟩ := runs_restore hruns rfl
  have hreturned : Runs stackStep StackOk ⟨handlingTask, []⟩ [.enter sigUsr1, .user (storing first), .enter sigUsr2, .ret]
      ⟨returnFromSignal (enterHandler (storing first) sigUsr2), [handlingTask.toContext]⟩ :=
    .cons hroom hfirst (.cons hok₂ huser (.cons hnested hsecond (.cons trivial hret (.nil _))))
  exact ⟨first, _, _, hfirst, hruns, hcontext, hreturned, (runs_restore hreturned rfl).2⟩

end

end SomeOs.Signals

import SomeOs.Signals.Frames
import SomeOs.Signals.Queue

/-! # Signals that are deferred while a handler runs

The mask grows at the entry of a handler and is restored by its return. The queue is the list of
what is pending, of which the first signal that is not blocked is delivered. For each handler
that runs it is kept what has been delivered since, and what has been pending.
-/
namespace SomeOs.Signals
open Transition

/-- The loop of `getSignalToHandle` on the pending signals: a signal, and what is left. -/
def takeSignal (mask : SignalSet) : List ℕ → Option (ℕ × List ℕ)
  | [] => none
  | signal :: pending =>
    if deliverable mask signal then some (signal, pending)
    else (takeSignal mask pending).map fun r => (r.1, signal :: r.2)

def isMember (set : SignalSet) (signal : ℕ) : Bool := set &&& signalBit signal != 0

/-- A handler that runs, with the mask and the flag of its action, and with what it has interrupted. -/
structure Running where
  signal : ℕ
  mask : SignalSet
  nodefer : Bool
  context : Context
  delivered : List ℕ
  kept : List ℕ

namespace Running

def defers (f : Running) (signal : ℕ) : Bool := isMember f.mask signal || (!f.nodefer && signal == f.signal)

def holdsBack (f : Running) (signal : ℕ) : Bool := f.defers signal && signal != sigKill && signal != sigStop

def deliver (signal : ℕ) (f : Running) : Running := { f with delivered := f.delivered ++ [signal] }

def arrive (signal : ℕ) (f : Running) : Running := { f with kept := f.kept ++ [signal] }

end Running

structure SignalSystem where
  task : SignalTask
  pending : List ℕ
  alarm_at : ℕ
  running : List Running

namespace SignalSystem

/-- The signal that `handlePendingSignals` handles, what stays pending, and the alarm after it. -/
def signalToHandle (s : SignalSystem) (now : ℕ) : Option (ℕ × List ℕ × ℕ) :=
  match takeSignal s.task.mask s.pending with
  | some (signal, pending) => some (signal, pending, s.alarm_at)
  | none => if s.alarm_at ≠ 0 ∧ s.alarm_at ≤ now then some (sigAlrm, s.pending, 0) else none

/-- Nothing is left of a process that exits. -/
def handlePendingSignals (s : SignalSystem) (now : ℕ) : Option SignalSystem :=
  match s.signalToHandle now with
  | none => some s
  | some (signal, pending, alarm_at) =>
    let running := s.running.map (Running.deliver signal)
    let action := s.task.handlers signal
    match handleActualSignal s.task signal with
    | .exits => none
    | .stops => some ⟨s.task, pending, alarm_at, running⟩
    | .ignores => some ⟨s.task, pending, alarm_at, running⟩
    | .enters t => some ⟨t, pending, alarm_at,
        ⟨signal, action.mask, action.flags &&& saNodefer != 0, s.task.toContext, [], pending⟩ :: running⟩

end SignalSystem

inductive SignalAction where
  | arrive (signal : ℕ)
  | deliver (now : ℕ)
  | ret
  | user (t : SignalTask) (alarm_at : ℕ)

open SignalSystem

/-- The user changes neither the mask nor which handler runs. -/
def signalStep (s : SignalSystem) : SignalAction → Option SignalSystem
  | .arrive signal =>
    if queues s.task.handlers signal then
      some { s with pending := s.pending ++ [signal], running := s.running.map (Running.arrive signal) }
    else some s
  | .deliver now => s.handlePendingSignals now
  | .ret => some { s with task := returnFromSignal s.task, running := s.running.tail }
  | .user t alarm_at => some { s with
      task := { t with
        mask := s.task.mask
        current_signal := s.task.current_signal
        restore_frame := s.task.restore_frame }
      alarm_at := alarm_at }

/-- The user stack has room for the frames and the handlers leave them alone. -/
def FramesKept (s : SignalSystem) : SignalAction → Prop
  | .deliver now => ∀ r ∈ s.signalToHandle now, ∀ t, handleActualSignal s.task r.1 = .enters t →
      Room s.task (s.running.map Running.context)
  | .user t _ => Unmodified s.task (s.running.map Running.context) t.memory
  | _ => True

/-- A handler is entered only for a signal that is blocked from then on by the mask of its action, or has been blocked
before. The alarm does not expire while a handler defers its signal. -/
def BlockedByMask (s : SignalSystem) : SignalAction → Prop
  | .deliver now => ∀ r ∈ s.signalToHandle now,
      (takeSignal s.task.mask s.pending = none → ∀ f ∈ s.running, ¬f.defers r.1) ∧
      ∀ t, handleActualSignal s.task r.1 = .enters t → isMember (s.task.mask ||| (s.task.handlers r.1).mask) r.1
  | _ => True

/-- What is said of every handler that runs, with the handlers inside of it. -/
def Defers (s : SignalSystem) : Prop :=
  ∀ inner f outer, s.running = inner ++ f :: outer →
    (∀ signal ∈ f.delivered, ¬f.holdsBack signal) ∧
    (f.nodefer → ¬isMember (f.context.mask ||| f.mask) f.signal → (∀ g ∈ inner, ¬g.defers f.signal) →
      deliverable s.task.mask f.signal) ∧
    s.pending.filter f.holdsBack = f.kept.filter f.holdsBack

def MaskChain : SignalSet → List Running → Prop
  | _, [] => True
  | mask, f :: outer => (∀ signal, f.defers signal → isMember mask signal) ∧
    (∀ signal, isMember f.context.mask signal → isMember mask signal) ∧ MaskChain f.context.mask outer

structure Deferring (s : SignalSystem) : Prop where
  linked : Linked s.task.memory s.task.toContext (s.running.map Running.context)
  masks : MaskChain s.task.mask s.running
  blocked : ∀ f ∈ s.running, f.nodefer → isMember (f.context.mask ||| f.mask) f.signal
  delivered : ∀ f ∈ s.running, ∀ signal ∈ f.delivered, ¬f.holdsBack signal
  kept : ∀ f ∈ s.running, s.pending.filter f.holdsBack = f.kept.filter f.holdsBack

section
variable {s s' : SignalSystem} {mask mask' : SignalSet} {signal : ℕ} {pending rest : List ℕ} {running : List Running} {x : ℕ}

theorem isMember_or {a b : SignalSet} : isMember (a ||| b) signal = (isMember a signal || isMember b signal) := by
  rw [Bool.eq_iff_iff]
  simp only [isMember, Bool.or_eq_true, bne_iff_ne, ne_eq]
  rw [← not_and_or, not_iff_not, BitVec.and_or_distrib_right]
  exact BitVec.or_eq_zero_iff

theorem deliverable_iff : deliverable mask signal ↔ signal = sigKill ∨ signal = sigStop ∨ ¬isMember mask signal := by
  simp [deliverable, isMember, or_assoc]

theorem MaskChain.isMember (h : MaskChain mask running) {f : Running} (hf : f ∈ running) (hsignal : f.defers signal) :
    isMember mask signal := by
  induction running generalizing mask with
  | nil => cases hf
  | cons g outer ih =>
    rcases List.mem_cons.mp hf with rfl | hf
    · exact h.1 signal hsignal
    · exact h.2.1 signal (ih h.2.2 hf)

theorem MaskChain.map (h : MaskChain mask running) {g : Running → Running}
    (hg : ∀ f, (g f).signal = f.signal ∧ (g f).mask = f.mask ∧ (g f).nodefer = f.nodefer ∧ (g f).context = f.context) :
    MaskChain mask (running.map g) := by
  induction running generalizing mask with
  | nil => trivial
  | cons f outer ih =>
    obtain ⟨hsignal, hmask, hnodefer, hcontext⟩ := hg f
    refine ⟨fun x hx => h.1 x ?_, ?_, ?_⟩
    · unfold Running.defers at hx ⊢
      rwa [hsignal, hmask, hnodefer] at hx
    · rw [hcontext]
      exact h.2.1
    · rw [hcontext]
      exact ih h.2.2

theorem takeSignal_eq (h : takeSignal mask pending = some (signal, rest)) :
    deliverable mask signal ∧ ∀ p : ℕ → Bool, ¬p signal → rest.filter p = pending.filter p := by
  induction pending generalizing rest with
  | nil => cases h
  | cons x pending ih =>
    unfold takeSignal at h
    split_ifs at h with hx
    · cases h
      exact ⟨hx, fun p hp => by rw [List.filter_cons_of_neg hp]⟩
    · obtain ⟨⟨y, rest'⟩, hr, heq⟩ := Option.map_eq_some_iff.mp h
      cases heq
      obtain ⟨hy, hfilter⟩ := ih hr
      refine ⟨hy, fun p hp => ?_⟩
      rw [List.filter_cons, List.filter_cons, hfilter p hp]

theorem Deferring.defers (h : Deferring s) : Defers s := by
  intro inner f outer hsplit
  have hf : f ∈ s.running := by
    rw [hsplit]
    exact List.mem_append_right _ List.mem_cons_self
  exact ⟨h.delivered f hf, fun hnodefer hnot _ => absurd (h.blocked f hf hnodefer) hnot, h.kept f hf⟩

theorem deferring_nil (h : s.running = []) : Deferring s := by
  refine ⟨?_, ?_, fun f hf => ?_, fun f hf => ?_, fun f hf => ?_⟩ <;> rw [h] at *
  · trivial
  · trivial
  all_goals cases hf

theorem Deferring.arrive (h : Deferring s) (hs : signalStep s (.arrive signal) = some s') : Deferring s' := by
  simp only [signalStep] at hs
  split_ifs at hs with hqueue
  · cases hs
    refine ⟨?_, h.masks.map fun _ => ⟨rfl, rfl, rfl, rfl⟩, ?_, ?_, ?_⟩
    · have := h.linked
      simpa [Running.arrive, Function.comp_def] using this
    · simpa [Running.arrive] using h.blocked
    · intro f hf
      obtain ⟨g, hg, rfl⟩ := List.mem_map.mp hf
      exact h.delivered g hg
    · intro f hf
      obtain ⟨g, hg, rfl⟩ := List.mem_map.mp hf
      have hholds : (Running.arrive signal g).holdsBack = g.holdsBack := rfl
      rw [hholds, List.filter_append, h.kept g hg, ← List.filter_append]
      rfl
  · cases hs
    exact h

/-- What is handled is not held back by a handler that runs, and what is held back stays pending. -/
theorem Deferring.signalToHandle (h : Deferring s) {now alarm_at : ℕ} (hok : BlockedByMask s (.deliver now))
    (hs : s.signalToHandle now = some (signal, pending, alarm_at)) {f : Running} (hf : f ∈ s.running) :
    ¬f.holdsBack signal ∧ pending.filter f.holdsBack = s.pending.filter f.holdsBack := by
  obtain ⟨halarm, -⟩ := hok _ hs
  unfold SignalSystem.signalToHandle at hs
  cases htake : takeSignal s.task.mask s.pending with
  | none =>
    simp only [htake] at hs
    split_ifs at hs
    cases hs
    refine ⟨fun hholds => halarm htake f hf ?_, rfl⟩
    simp only [Running.holdsBack, Bool.and_eq_true] at hholds
    exact hholds.1.1
  | some r =>
    simp only [htake] at hs
    cases hs
    obtain ⟨hdeliverable, hfilter⟩ := takeSignal_eq htake
    have hnot : ¬f.holdsBack r.1 := by
      intro hholds
      simp only [Running.holdsBack, Bool.and_eq_true, bne_iff_ne, ne_eq] at hholds
      rcases deliverable_iff.mp hdeliverable with hkill | hstop | hblocked
      · exact hholds.1.2 hkill
      · exact hholds.2 hstop
      · exact hblocked (h.masks.isMember hf hholds.1.1)
    exact ⟨hnot, hfilter _ hnot⟩

theorem Deferring.delivered_all (h : Deferring s) {now alarm_at : ℕ} (hok : BlockedByMask s (.deliver now))
    (hs : s.signalToHandle now = some (signal, pending, alarm_at)) :
    Deferring ⟨s.task, pending, alarm_at, s.running.map (Running.deliver signal)⟩ := by
  refine ⟨?_, h.masks.map fun _ => ⟨rfl, rfl, rfl, rfl⟩, ?_, ?_, ?_⟩
  · have := h.linked
    simpa [Running.deliver, Function.comp_def] using this
  · simpa [Running.deliver] using h.blocked
  · intro f hf x hx
    obtain ⟨g, hg, rfl⟩ := List.mem_map.mp hf
    rcases List.mem_append.mp hx with hx | hx
    · exact h.delivered g hg x hx
    · rw [List.mem_singleton.mp hx]
      exact (h.signalToHandle hok hs hg).1
  · intro f hf
    obtain ⟨g, hg, rfl⟩ := List.mem_map.mp hf
    exact (h.signalToHandle hok hs hg).2.trans (h.kept g hg)

theorem isMember_enterHandler {t : SignalTask} (h : isMember (t.mask ||| (t.handlers signal).mask) x) :
    isMember (enterHandler t signal).mask x := by
  unfold enterHandler
  dsimp only
  split_ifs
  · rw [isMember_or, h]
    rfl
  · exact h

/-- After a delivery that enters a handler for a signal that is blocked from then on. -/
theorem Deferring.enter (h : Deferring s) (hroom : Room s.task (s.running.map Running.context)) (hnone : signal ≠ sigNone)
    (hcount : signal < sigCount) (hown : isMember (s.task.mask ||| (s.task.handlers signal).mask) signal) :
    Deferring ⟨enterHandler s.task signal, s.pending, s.alarm_at,
      ⟨signal, (s.task.handlers signal).mask, (s.task.handlers signal).flags &&& saNodefer != 0, s.task.toContext, [],
        s.pending⟩ :: s.running⟩ := by
  refine ⟨h.linked.enterHandler hroom hnone hcount, ⟨fun x hx => isMember_enterHandler ?_, fun x hx =>
    isMember_enterHandler ?_, h.masks⟩, ?_, ?_, ?_⟩
  · rcases Bool.or_eq_true_iff.mp hx with hx | hx
    · rw [isMember_or, hx, Bool.or_true]
    · rw [beq_iff_eq.mp (Bool.and_eq_true_iff.mp hx).2]
      exact hown
  · rw [isMember_or, show isMember s.task.mask x = true from hx, Bool.true_or]
  · intro f hf hnodefer
    rcases List.mem_cons.mp hf with rfl | hf
    · exact hown
    · exact h.blocked f hf hnodefer
  · intro f hf x hx
    rcases List.mem_cons.mp hf with rfl | hf
    · cases hx
    · exact h.delivered f hf x hx
  · intro f hf
    rcases List.mem_cons.mp hf with rfl | hf
    · rfl
    · exact h.kept f hf

theorem Deferring.deliver (h : Deferring s) {now : ℕ} (hframes : FramesKept s (.deliver now))
    (hok : BlockedByMask s (.deliver now)) (hs : signalStep s (.deliver now) = some s') : Deferring s' := by
  simp only [signalStep, handlePendingSignals] at hs
  cases hhandle : s.signalToHandle now with
  | none =>
    simp only [hhandle] at hs
    cases hs
    exact h
  | some r =>
    obtain ⟨signal, pending, alarm_at⟩ := r
    have hall := h.delivered_all hok hhandle
    simp only [hhandle] at hs
    split at hs
    next => cases hs
    next =>
      cases hs
      exact hall
    next =>
      cases hs
      exact hall
    next t ht =>
      cases hs
      have hroom := hframes _ hhandle t ht
      have hown := (hok _ hhandle).2 t ht
      obtain ⟨rfl, -, -, hcount, hnone⟩ := handleActualSignal_enters ht
      have hcontexts : (s.running.map (Running.deliver signal)).map Running.context = s.running.map Running.context := by
        simp [Running.deliver, Function.comp_def]
      exact hall.enter (hcontexts ▸ hroom) hnone hcount hown

theorem Deferring.ret (h : Deferring s) (hs : signalStep s .ret = some s') : Deferring s' := by
  cases hs
  rcases hrunning : s.running with _ | ⟨f, outer⟩
  · exact deferring_nil rfl
  · have hlinked := h.linked
    have hmasks := h.masks
    rw [hrunning] at hlinked hmasks
    obtain ⟨hcontext, hmemory, hrest⟩ := hlinked.returnFromSignal
    have hmem : ∀ g ∈ outer, g ∈ s.running := fun g hg => hrunning ▸ List.mem_cons_of_mem _ hg
    refine ⟨?_, ?_, ?_, ?_, ?_⟩ <;> dsimp only [List.tail_cons]
    · rw [hcontext, hmemory]
      exact hrest
    · rw [show (returnFromSignal s.task).mask = f.context.mask from congrArg Context.mask hcontext]
      exact hmasks.2.2
    · exact fun g hg => h.blocked g (hmem g hg)
    · exact fun g hg => h.delivered g (hmem g hg)
    · exact fun g hg => h.kept g (hmem g hg)

theorem Deferring.user (h : Deferring s) {t : SignalTask} {alarm_at : ℕ} (hframes : FramesKept s (.user t alarm_at))
    (hs : signalStep s (.user t alarm_at) = some s') : Deferring s' := by
  cases hs
  refine ⟨?_, h.masks, h.blocked, h.delivered, h.kept⟩
  exact linked_user h.linked hframes

theorem Deferring.step (h : Deferring s) {a : SignalAction} (hframes : FramesKept s a) (hok : BlockedByMask s a)
    (hs : signalStep s a = some s') : Deferring s' := by
  cases a with
  | arrive signal => exact h.arrive hs
  | deliver now => exact h.deliver hframes hok hs
  | ret => exact h.ret hs
  | user t alarm_at => exact h.user hframes hs

/-- Nothing that is blocked by a handler is delivered before its return. -/
theorem runs_deferred {t : SignalTask} {pending : List ℕ} {alarm_at : ℕ} {actions : List SignalAction}
    (h : Runs signalStep (fun s a => FramesKept s a ∧ BlockedByMask s a) ⟨t, pending, alarm_at, []⟩ actions s) : Defers s := by
  exact (h.invariant (fun _ _ _ hd hok hstep => hd.step hok.1 hok.2 hstep) (deferring_nil rfl)).defers

def maskedTask : SignalTask := { handlingTask with handlers := fun _ => ⟨0x3000, signalBit sigUsr1, 0, 0x4000⟩ }

theorem runs_deferred_masked : ∃ s, Runs signalStep (fun s a => FramesKept s a ∧ BlockedByMask s a)
    ⟨maskedTask, [], 0, []⟩ [.arrive sigUsr1, .deliver 0] s ∧ s.running.length = 1 ∧ Defers s := by
  have hroom : Room maskedTask [] := ⟨by decide, fun _ _ => rfl, fun a ha => nomatch ha⟩
  have hblocked : BlockedByMask ⟨maskedTask, [sigUsr1], 0, []⟩ (.deliver 0) := by
    intro r hr
    cases hr
    exact ⟨fun _ f hf => (nomatch hf), fun _ _ => (by decide : isMember (0 ||| signalBit sigUsr1) sigUsr1)⟩
  have h : Runs signalStep (fun s a => FramesKept s a ∧ BlockedByMask s a) ⟨maskedTask, [], 0, []⟩ [.arrive sigUsr1, .deliver 0]
      ⟨enterHandler maskedTask sigUsr1, [], 0, [⟨sigUsr1, signalBit sigUsr1, false, maskedTask.toContext, [], []⟩]⟩ :=
    .cons ⟨trivial, trivial⟩ rfl (.cons ⟨fun _ _ _ _ => hroom, hblocked⟩ rfl (.nil _))
  exact ⟨_, h, rfl, runs_deferred h⟩

/-- A handler without flags is entered again while it runs. -/
theorem handler_interrupted : ∃ s, Runs signalStep FramesKept ⟨handlingTask, [], 0, []⟩
    [.arrive sigUsr1, .deliver 0, .arrive sigUsr1, .deliver 0] s ∧ ¬Defers s := by
  have hroom : Room handlingTask [] := ⟨by decide, fun _ _ => rfl, fun a ha => nomatch ha⟩
  have hframe := (hroom.enterHandler sigUsr1).1
  have hroom' : Room (enterHandler handlingTask sigUsr1) [handlingTask.toContext] := by
    have hsp : ((enterHandler handlingTask sigUsr1).regs regStackPointer).toNat = 64988 := hframe
    refine ⟨by rw [hsp]; decide, fun i hi => ?_, fun a ha => ?_⟩
    · rw [isSome_enterHandler]
      rfl
    · rw [List.mem_singleton.mp ha, hsp]
      exact .inl hframe.ge
  refine ⟨_, .cons trivial rfl (.cons (fun _ _ _ _ => hroom) rfl (.cons trivial rfl (.cons (fun _ _ _ _ => hroom') rfl
    (.nil _)))), fun h => ?_⟩
  have := (h [_] _ [] rfl).1 sigUsr1 List.mem_cons_self
  exact this (by decide)

end

end SomeOs.Signals

import SomeOs.Base.Transition

/-! # Messages between harts

There is room for one message. Its sender holds the write lock all the time, locks the read lock
before it raises the software interrupt of the receiver, and waits for that lock again, which only
the receiver unlocks. Harts take their steps in any order, one access to shared memory at a time,
and an interrupt may come between any two steps of a sender.
-/
namespace SomeOs.Harts
open Transition
variable {H D : Type*}

inductive MessageType where
  | none
  | initializeHarts
  | kernelPanic
  | yieldTask
  deriving DecidableEq

structure Message (H D : Type*) where
  hartid : H
  type : MessageType
  data : D

/-- The next step of a hart in `sendMessageTo`. Outside of it this is the first one. -/
inductive SendPhase where
  | lockWrite
  | writeType
  | writeData
  | lockRead
  | raise
  /-- The second time that the read lock is taken. -/
  | wait
  | unlockRead
  | unlockWrite
  deriving DecidableEq

/-- The next step of a hart in `handleMachineSoftwareInterrupt`. -/
inductive HandlePhase (D : Type*) where
  | outside
  | clear
  | loadType
  | loadData (type : MessageType)
  | handle (type : MessageType) (data : D)
  /-- In the loop of `silentPanic`. -/
  | halted

/-- The locks and the message, the software interrupts, and what every hart does. The messages that
harts were told to send, those whose sender has locked the write lock, and those that were handled are
kept in the order in which that happened. -/
structure MessageState (H D : Type*) where
  message_write_lock : Bool
  message_read_lock : Bool
  message_type : MessageType
  message_data : D
  interrupt : H → Bool
  enabled : H → Bool
  /-- The message that a hart is sending, and those that it sends after that. -/
  unsent : H → List (Message H D)
  phase : H → SendPhase
  handler : H → HandlePhase D
  issued : H → List (Message H D)
  sent : List (H × Message H D)
  handled : List (Message H D)

inductive MessageAction (H D : Type*) where
  | sendMessageTo (h hartid : H) (type : MessageType) (data : D)
  | sendMessageToAll (h : H) (type : MessageType) (data : D)
  | send (h : H)
  | interrupt (h : H)
  | handle (h : H)
  | enable (h : H) (enabled : Bool)

variable [DecidableEq H]

namespace MessageState

/-- `sendMessageToAll` leaves out the calling hart. -/
def toAll (hart_ids : List H) (h : H) (type : MessageType) (data : D) : List (Message H D) :=
  (hart_ids.filter (· ≠ h)).map fun hartid => ⟨hartid, type, data⟩

def setPhase (s : MessageState H D) (h : H) (phase : SendPhase) : MessageState H D :=
  { s with phase := Function.update s.phase h phase }

def setHandler (s : MessageState H D) (h : H) (handler : HandlePhase D) : MessageState H D :=
  { s with handler := Function.update s.handler h handler }

def issue (s : MessageState H D) (h : H) (messages : List (Message H D)) : MessageState H D :=
  { s with unsent := Function.update s.unsent h messages, issued := Function.update s.issued h (s.issued h ++ messages) }

/-- One step of `sendMessageTo`. A lock that is not free is tried again. -/
def send (s : MessageState H D) (h : H) : Option (MessageState H D) :=
  match s.unsent h with
  | [] => none
  | m :: rest => some (match s.phase h with
    | .lockWrite =>
      if s.message_write_lock then s
      else { s with message_write_lock := true, sent := s.sent ++ [(h, m)] }.setPhase h .writeType
    | .writeType => { s with message_type := m.type }.setPhase h .writeData
    | .writeData => { s with message_data := m.data }.setPhase h .lockRead
    | .lockRead => if s.message_read_lock then s else { s with message_read_lock := true }.setPhase h .raise
    | .raise => { s with interrupt := Function.update s.interrupt m.hartid true }.setPhase h .wait
    | .wait => if s.message_read_lock then s else { s with message_read_lock := true }.setPhase h .unlockRead
    | .unlockRead => { s with message_read_lock := false }.setPhase h .unlockWrite
    | .unlockWrite =>
      { s with message_write_lock := false, unsent := Function.update s.unsent h rest }.setPhase h .lockWrite)

/-- One step of `handleMachineSoftwareInterrupt` and `handleMessage`. All types unlock the read lock. After
a panic the hart halts, and after the initialization it runs a task, so that it must have had nothing to
do; otherwise it goes on with what it did. -/
def handle (s : MessageState H D) (h : H) : Option (MessageState H D) :=
  match s.handler h with
  | .outside => none
  | .clear => some ({ s with interrupt := Function.update s.interrupt h false }.setHandler h .loadType)
  | .loadType => some (s.setHandler h (.loadData s.message_type))
  | .loadData type => some (s.setHandler h (.handle type s.message_data))
  | .handle type data =>
    some ({ s with message_read_lock := false, handled := s.handled ++ [(⟨h, type, data⟩ : Message H D)] }.setHandler h
      (if type = MessageType.kernelPanic then .halted else .outside))
  | .halted => none

end MessageState

/-- A hart sends and is interrupted when it does not handle an interrupt. Whether it takes interrupts
changes only between its calls. -/
def messageStep (hart_ids : List H) (s : MessageState H D) (a : MessageAction H D) : Option (MessageState H D) :=
  let idle (h : H) : Bool := (s.unsent h).isEmpty && match s.handler h with | .outside => true | _ => false
  match a with
  | .sendMessageTo h hartid type data => if idle h then some (s.issue h [⟨hartid, type, data⟩]) else none
  | .sendMessageToAll h type data => if idle h then some (s.issue h (MessageState.toAll hart_ids h type data)) else none
  | .send h => match s.handler h with
    | .outside => s.send h
    | _ => none
  | .interrupt h => match s.handler h with
    | .outside => if s.interrupt h && s.enabled h then some (s.setHandler h .clear) else none
    | _ => none
  | .handle h => s.handle h
  | .enable h enabled => if idle h then some { s with enabled := Function.update s.enabled h enabled } else none

/-- A hart that initializes itself has nothing to send, as it does not come back. -/
def InitializesIdle (s : MessageState H D) : MessageAction H D → Prop
  | .handle h => match s.handler h with
    | .handle .initializeHarts _ => (s.unsent h).isEmpty = true
    | _ => True
  | _ => True

instance (s : MessageState H D) (a : MessageAction H D) : Decidable (InitializesIdle s a) := by
  unfold InitializesIdle
  split
  · split <;> infer_instance
  · infer_instance

/-- No hart has sent or received anything. -/
def MessageState.boot (type : MessageType) (data : D) (enabled : H → Bool) : MessageState H D where
  message_write_lock := false
  message_read_lock := false
  message_type := type
  message_data := data
  interrupt _ := false
  enabled := enabled
  unsent _ := []
  phase _ := .lockWrite
  handler _ := .outside
  issued _ := []
  sent := []
  handled := []

namespace MessageState

def taken (s : MessageState H D) (h : H) : Bool :=
  match s.phase h with
  | .wait => !s.message_read_lock
  | .unlockRead => true
  | .unlockWrite => true
  | _ => false

/-- The messages that a hart was told to send and that are not handled yet. -/
def undelivered (s : MessageState H D) (h : H) : List (Message H D) :=
  if s.taken h then (s.unsent h).tail else s.unsent h

def Quiet (s : MessageState H D) : Prop :=
  ∀ h, s.interrupt h = false ∧ (s.handler h = .outside ∨ s.handler h = .halted)

structure InTransit (s : MessageState H D) (m : Message H D) : Prop where
  others : ∀ h, h ≠ m.hartid → s.interrupt h = false ∧ (s.handler h = .outside ∨ s.handler h = .halted)
  receiver : s.interrupt m.hartid = true ∧
      (s.handler m.hartid = .outside ∨ s.handler m.hartid = .clear ∨ s.handler m.hartid = .halted) ∨
    s.interrupt m.hartid = false ∧
      (s.handler m.hartid = .loadType ∨ s.handler m.hartid = .loadData m.type ∨ s.handler m.hartid = .handle m.type m.data)

/-- What has become of the message before each step of its sender. -/
def Stage (s : MessageState H D) (m : Message H D) : SendPhase → Prop
  | .lockWrite => False
  | .writeType => s.message_read_lock = false ∧ s.Quiet
  | .writeData => s.message_read_lock = false ∧ s.Quiet ∧ s.message_type = m.type
  | .lockRead => s.message_read_lock = false ∧ s.Quiet ∧ s.message_type = m.type ∧ s.message_data = m.data
  | .raise => s.message_read_lock = true ∧ s.Quiet ∧ s.message_type = m.type ∧ s.message_data = m.data
  | .wait => s.message_read_lock = true ∧ s.InTransit m ∧ s.message_type = m.type ∧ s.message_data = m.data ∨
      s.message_read_lock = false ∧ s.Quiet
  | .unlockRead => s.message_read_lock = true ∧ s.Quiet
  | .unlockWrite => s.message_read_lock = false ∧ s.Quiet

/-- The messages of a hart among those whose sender has locked the write lock. -/
def sentBy (sent : List (H × Message H D)) (h : H) : List (Message H D) := (sent.filter (·.1 = h)).map Prod.snd

/-- No hart has locked the write lock. -/
structure Free (s : MessageState H D) : Prop where
  phase : ∀ h, s.phase h = .lockWrite
  message_write_lock : s.message_write_lock = false
  message_read_lock : s.message_read_lock = false
  quiet : s.Quiet
  handled : s.handled = s.sent.map Prod.snd
  issued : ∀ h, s.issued h = sentBy s.sent h ++ s.unsent h

/-- The hart has locked the write lock to send the message, which is the last one. -/
structure Sending (s : MessageState H D) (h : H) (m : Message H D) (rest : List (Message H D)) (prev : List (H × Message H D)) :
    Prop where
  unsent : s.unsent h = m :: rest
  others : ∀ h', h' ≠ h → s.phase h' = .lockWrite
  message_write_lock : s.message_write_lock = true
  stage : s.Stage m (s.phase h)
  sent : s.sent = prev ++ [(h, m)]
  handled : s.handled = prev.map Prod.snd ++ if s.taken h then [m] else []
  issued : ∀ h', s.issued h' = sentBy prev h' ++ s.unsent h'

/-- The steps that were taken for the message of the sender. -/
def stepsOf (s : MessageState H D) (h : H) (m : Message H D) : ℕ :=
  match s.phase h with
  | .lockWrite => 0
  | .writeType => 1
  | .writeData => 2
  | .lockRead => 3
  | .raise => 4
  | .wait =>
    if s.message_read_lock then
      match s.handler m.hartid with
      | .clear => 6
      | .loadType => 7
      | .loadData _ => 8
      | .handle _ _ => 9
      | _ => 5
    else 10
  | .unlockRead => 11
  | .unlockWrite => 12

/-- At most one hart has locked the write lock, and `n` steps were taken so far. A message takes 13 of them. -/
def Orderly (s : MessageState H D) (n : ℕ) : Prop :=
  s.Free ∧ n = 13 * s.sent.length ∨ ∃ h m rest prev, s.Sending h m rest prev ∧ n = 13 * prev.length + s.stepsOf h m

def spins (s : MessageState H D) (h : H) : Bool :=
  match s.phase h with
  | .lockWrite => s.message_write_lock
  | .lockRead => s.message_read_lock
  | .wait => s.message_read_lock
  | _ => false

def progress (s : MessageState H D) : MessageAction H D → ℕ
  | .send h => if s.spins h then 0 else 1
  | .interrupt _ => 1
  | .handle _ => 1
  | _ => 0

section
variable {s t : MessageState H D} {h : H} {m : Message H D} {rest : List (Message H D)} {prev : List (H × Message H D)}
  {hart_ids : List H} {messages : List (Message H D)} {n : ℕ}

theorem orderly_boot (type : MessageType) (data : D) (enabled : H → Bool) :
    (boot type data enabled : MessageState H D).Orderly 0 :=
  Or.inl ⟨⟨fun _ => rfl, rfl, rfl, fun _ => ⟨rfl, Or.inl rfl⟩, rfl, fun _ => rfl⟩, rfl⟩

omit [DecidableEq H] in
theorem Quiet.congr (hs : s.Quiet) (hinterrupt : t.interrupt = s.interrupt) (hhandler : t.handler = s.handler) : t.Quiet := by
  intro h
  rw [hinterrupt, hhandler]
  exact hs h

omit [DecidableEq H] in
theorem InTransit.congr (hs : s.InTransit m) (hinterrupt : t.interrupt = s.interrupt) (hhandler : t.handler = s.handler) :
    t.InTransit m := by
  constructor
  · simpa only [hinterrupt, hhandler] using hs.others
  · simpa only [hinterrupt, hhandler] using hs.receiver

omit [DecidableEq H] in
theorem Stage.congr {phase : SendPhase} (hs : s.Stage m phase) (hread : t.message_read_lock = s.message_read_lock)
    (htype : t.message_type = s.message_type) (hdata : t.message_data = s.message_data) (hinterrupt : t.interrupt = s.interrupt)
    (hhandler : t.handler = s.handler) : t.Stage m phase := by
  have hquiet : s.Quiet → t.Quiet := fun h => h.congr hinterrupt hhandler
  have htransit : s.InTransit m → t.InTransit m := fun h => h.congr hinterrupt hhandler
  cases phase <;> simp only [Stage, hread, htype, hdata] at hs ⊢ <;> tauto

theorem sentBy_append (sent : List (H × Message H D)) (h h' : H) (m : Message H D) :
    sentBy (sent ++ [(h, m)]) h' = sentBy sent h' ++ if h = h' then [m] else [] := by
  unfold sentBy
  by_cases heq : h = h' <;> simp [heq]

theorem issued_issue {sent : List (H × Message H D)} (hs : ∀ h', s.issued h' = sentBy sent h' ++ s.unsent h')
    (hnil : s.unsent h = []) (h' : H) :
    (s.issue h messages).issued h' = sentBy sent h' ++ (s.issue h messages).unsent h' := by
  by_cases heq : h' = h
  · subst heq
    simp [issue, hs, hnil]
  · simp [issue, hs, heq]

theorem Orderly.issue (hs : s.Orderly n) (hnil : s.unsent h = []) : (s.issue h messages).Orderly n := by
  rcases hs with ⟨hs, hn⟩ | ⟨h', m, rest, prev, hs, hn⟩
  · have hissued := fun h' => @issued_issue _ _ _ s h messages _ hs.issued hnil h'
    exact Or.inl ⟨⟨hs.phase, hs.message_write_lock, hs.message_read_lock, hs.quiet, hs.handled, hissued⟩, hn⟩
  · have hne : h' ≠ h := by
      rintro rfl
      simpa [hnil] using hs.unsent
    have hunsent : (s.issue h messages).unsent h' = m :: rest := by simpa [MessageState.issue, hne] using hs.unsent
    exact Or.inr ⟨h', m, rest, prev, ⟨hunsent, hs.others, hs.message_write_lock, hs.stage.congr rfl rfl rfl rfl rfl, hs.sent,
      hs.handled, issued_issue hs.issued hnil⟩, hn⟩

theorem Orderly.enable (hs : s.Orderly n) (enabled : H → Bool) : { s with enabled := enabled }.Orderly n := by
  rcases hs with ⟨hs, hn⟩ | ⟨h', m, rest, prev, hs, hn⟩
  · exact Or.inl ⟨⟨hs.phase, hs.message_write_lock, hs.message_read_lock, hs.quiet, hs.handled, hs.issued⟩, hn⟩
  · have hstage : { s with enabled := enabled }.Stage m (s.phase h') := hs.stage.congr rfl rfl rfl rfl rfl
    exact Or.inr ⟨h', m, rest, prev, ⟨hs.unsent, hs.others, hs.message_write_lock, hstage, hs.sent, hs.handled, hs.issued⟩, hn⟩

/-- The sender goes on. Nothing of the other harts changes, and the message is taken as before. -/
theorem Sending.advance (hs : s.Sending h m rest prev) {phase : SendPhase} (hphase : t.phase = Function.update s.phase h phase)
    (hunsent : t.unsent = s.unsent) (hwrite : t.message_write_lock = s.message_write_lock) (hstage : t.Stage m phase)
    (hsent : t.sent = s.sent) (hhandled : t.handled = s.handled) (hissued : t.issued = s.issued) (htaken : t.taken h = s.taken h)
    (hsteps : t.stepsOf h m = s.stepsOf h m + 1) : t.Orderly (13 * prev.length + s.stepsOf h m + 1) := by
  have hwrite' := hwrite.trans hs.message_write_lock
  refine Or.inr ⟨h, m, rest, prev, ⟨?_, fun h' hne => ?_, hwrite', ?_, hsent.trans hs.sent, ?_, fun h' => ?_⟩, ?_⟩
  · rw [hunsent, hs.unsent]
  · rw [hphase, Function.update_of_ne hne, hs.others h' hne]
  · rwa [hphase, Function.update_self]
  · rw [hhandled, htaken, hs.handled]
  · rw [hissued, hunsent, hs.issued h']
  · rw [hsteps, Nat.add_assoc]

theorem Free.lock (hs : s.Free) (hunsent : s.unsent h = m :: rest) :
    ({ s with message_write_lock := true, sent := s.sent ++ [(h, m)] }.setPhase h .writeType).Sending h m rest s.sent where
  unsent := hunsent
  others h' hne := by simp [setPhase, hne, hs.phase]
  message_write_lock := rfl
  stage := by
    change Stage _ _ (Function.update s.phase h .writeType h)
    rw [Function.update_self]
    exact ⟨hs.message_read_lock, hs.quiet⟩
  sent := rfl
  handled := by simp [setPhase, taken, hs.handled]
  issued := hs.issued

theorem Sending.unlock (hs : s.Sending h m rest prev) (hphase : s.phase h = .unlockWrite) :
    ({ s with message_write_lock := false, unsent := Function.update s.unsent h rest }.setPhase h .lockWrite).Free := by
  have hstage := hs.stage
  rw [hphase] at hstage
  have hhandled := hs.handled
  simp only [taken, hphase, if_true] at hhandled
  refine ⟨fun h' => ?_, rfl, hstage.1, hstage.2, ?_, fun h' => ?_⟩
  · by_cases hne : h' = h
    · simp [setPhase, hne]
    · simp [setPhase, hne, hs.others h' hne]
  · simp [setPhase, hhandled, hs.sent]
  · have hissued := hs.issued h'
    by_cases hne : h' = h
    · subst hne
      simp [setPhase, hissued, hs.sent, sentBy_append, hs.unsent]
    · simp [setPhase, hissued, hs.sent, sentBy_append, hne, Ne.symm hne]

/-- A step of the hart that has locked the write lock. -/
theorem Sending.send (hs : s.Sending h m rest prev) (hsend : s.send h = some t) :
    t.Orderly (13 * prev.length + s.stepsOf h m + if s.spins h then 0 else 1) := by
  have hstage := hs.stage
  unfold MessageState.send at hsend
  simp only [hs.unsent, Option.some.injEq] at hsend
  cases hphase : s.phase h <;> simp only [hphase] at hsend hstage
  case lockWrite => exact hstage.elim
  case writeType =>
    subst hsend
    simp only [spins, hphase]
    exact hs.advance rfl rfl rfl ⟨hstage.1, hstage.2, rfl⟩ rfl rfl rfl (by simp [taken, setPhase, hphase])
      (by simp [stepsOf, setPhase, hphase])
  case writeData =>
    subst hsend
    simp only [spins, hphase]
    exact hs.advance rfl rfl rfl ⟨hstage.1, hstage.2.1, hstage.2.2, rfl⟩ rfl rfl rfl (by simp [taken, setPhase, hphase])
      (by simp [stepsOf, setPhase, hphase])
  case lockRead =>
    simp only [hstage.1] at hsend
    subst hsend
    simp only [spins, hphase, hstage.1]
    exact hs.advance rfl rfl rfl ⟨rfl, hstage.2⟩ rfl rfl rfl (by simp [taken, setPhase, hphase])
      (by simp [stepsOf, setPhase, hphase])
  case raise =>
    subst hsend
    simp only [spins, hphase]
    have hreceiver := hstage.2.1 m.hartid
    have htransit : ({ s with interrupt := Function.update s.interrupt m.hartid true }.setPhase h .wait).InTransit m := by
      refine ⟨fun h' hne => ?_, Or.inl ⟨?_, ?_⟩⟩
      · simpa [setPhase, hne] using hstage.2.1 h'
      · simp [setPhase]
      · exact hreceiver.2.elim Or.inl fun hhalted => Or.inr (Or.inr hhalted)
    refine hs.advance rfl rfl rfl (Or.inl ⟨hstage.1, htransit, hstage.2.2⟩) rfl rfl rfl ?_ ?_
    · simp [taken, setPhase, hphase, hstage.1]
    · rcases hreceiver.2 with hout | hout <;> simp [stepsOf, setPhase, hphase, hstage.1, hout]
  case wait =>
    rcases hstage with ⟨hread, -⟩ | ⟨hread, hquiet⟩
    · simp only [hread] at hsend
      subst hsend
      simp only [spins, hphase, hread]
      exact Or.inr ⟨h, m, rest, prev, hs, rfl⟩
    · simp only [hread] at hsend
      subst hsend
      simp only [spins, hphase, hread]
      exact hs.advance rfl rfl rfl ⟨rfl, hquiet⟩ rfl rfl rfl (by simp [taken, setPhase, hphase, hread])
        (by simp [stepsOf, setPhase, hphase, hread])
  case unlockRead =>
    subst hsend
    simp only [spins, hphase]
    exact hs.advance rfl rfl rfl ⟨rfl, hstage.2⟩ rfl rfl rfl (by simp [taken, setPhase, hphase])
      (by simp [stepsOf, setPhase, hphase])
  case unlockWrite =>
    subst hsend
    refine Or.inl ⟨hs.unlock hphase, ?_⟩
    simp [spins, stepsOf, setPhase, hphase, hs.sent]
    ring

theorem Orderly.send (hs : s.Orderly n) (hsend : s.send h = some t) : t.Orderly (n + if s.spins h then 0 else 1) := by
  cases hunsent : s.unsent h with
  | nil => simp [MessageState.send, hunsent] at hsend
  | cons m rest =>
    rcases hs with ⟨hs, rfl⟩ | ⟨h', m', rest', prev, hs, rfl⟩
    · simp only [MessageState.send, hunsent, hs.phase h, hs.message_write_lock, Option.some.injEq] at hsend
      subst hsend
      refine Or.inr ⟨h, m, rest, s.sent, hs.lock hunsent, ?_⟩
      simp [spins, hs.phase, hs.message_write_lock, stepsOf, setPhase]
    · by_cases heq : h = h'
      · subst heq
        exact hs.send hsend
      · -- another hart waits for the write lock
        simp only [MessageState.send, hunsent, hs.others h heq, hs.message_write_lock, if_true, Option.some.injEq] at hsend
        subst hsend
        refine Or.inr ⟨h', m', rest', prev, hs, ?_⟩
        simp [spins, hs.others h heq, hs.message_write_lock]

theorem Orderly.receiving (hs : s.Orderly n)
    (hbusy : ¬(s.interrupt h = false ∧ (s.handler h = .outside ∨ s.handler h = .halted))) :
    ∃ h' m rest prev, s.Sending h' m rest prev ∧ n = 13 * prev.length + s.stepsOf h' m ∧ m.hartid = h ∧ s.phase h' = .wait ∧
      s.message_read_lock = true ∧ s.InTransit m ∧ s.message_type = m.type ∧ s.message_data = m.data := by
  rcases hs with ⟨hs, -⟩ | ⟨h', m, rest, prev, hs, hn⟩
  · exact absurd (hs.quiet h) hbusy
  · have hstage := hs.stage
    have hquiet : ¬s.Quiet := fun hq => hbusy (hq h)
    refine ⟨h', m, rest, prev, hs, hn, ?_⟩
    cases hphase : s.phase h' <;> rw [hphase] at hstage <;> simp only [Stage, hquiet, false_and, and_false, or_false] at hstage
    case wait =>
      obtain ⟨hread, htransit, htype, hdata⟩ := hstage
      exact ⟨by_contra fun hne => hbusy (htransit.others h (Ne.symm hne)), rfl, hread, htransit, htype, hdata⟩

theorem Sending.receive (hs : s.Sending h m rest prev) (hphase : s.phase h = .wait) (hread : s.message_read_lock = true)
    (htype : s.message_type = m.type) (hdata : s.message_data = m.data) {interrupt : H → Bool} {handler : H → HandlePhase D}
    (htransit : { s with interrupt := interrupt, handler := handler }.InTransit m) :
    { s with interrupt := interrupt, handler := handler }.Sending h m rest prev where
  unsent := hs.unsent
  others := hs.others
  message_write_lock := hs.message_write_lock
  stage := by
    change Stage _ _ (s.phase h)
    rw [hphase]
    exact Or.inl ⟨hread, htransit, htype, hdata⟩
  sent := hs.sent
  handled := hs.handled
  issued := hs.issued

theorem Orderly.interrupted (hs : s.Orderly n) (houtside : s.handler h = .outside) (hinterrupt : s.interrupt h = true) :
    (s.setHandler h .clear).Orderly (n + 1) := by
  obtain ⟨h', m, rest, prev, hsend, rfl, rfl, hphase, hread, htransit, htype, hdata⟩ :=
    hs.receiving (h := h) (by simp [hinterrupt])
  refine Or.inr ⟨h', m, rest, prev, hsend.receive hphase hread htype hdata ⟨fun i hne => ?_, Or.inl ⟨hinterrupt, ?_⟩⟩, ?_⟩
  · simpa [hne] using htransit.others i hne
  · simp
  · simp [stepsOf, setHandler, hphase, hread, houtside]

/-- The receiver unlocks the read lock. -/
theorem Sending.handle (hs : s.Sending h m rest prev) (hphase : s.phase h = .wait) (hread : s.message_read_lock = true)
    (htransit : s.InTransit m) (hreceiver : s.interrupt m.hartid = false) {handler : HandlePhase D}
    (hhandler : handler = .outside ∨ handler = .halted) :
    ({ s with message_read_lock := false, handled := s.handled ++ [m] }.setHandler m.hartid handler).Sending h m rest prev where
  unsent := hs.unsent
  others := hs.others
  message_write_lock := hs.message_write_lock
  stage := by
    change Stage _ _ (s.phase h)
    rw [hphase]
    refine Or.inr ⟨rfl, fun i => ?_⟩
    by_cases hi : i = m.hartid
    · subst hi
      simpa [setHandler, hreceiver] using hhandler
    · simpa [setHandler, hi] using htransit.others i hi
  sent := hs.sent
  handled := by
    have hhandled := hs.handled
    simp only [taken, hphase, hread] at hhandled
    simp [setHandler, taken, hphase, hhandled]
  issued := hs.issued

theorem Orderly.handle (hs : s.Orderly n) (hhandle : s.handle h = some t) : t.Orderly (n + 1) := by
  have hbusy : ¬(s.interrupt h = false ∧ (s.handler h = .outside ∨ s.handler h = .halted)) := by
    rintro ⟨-, hout | hout⟩ <;> simp [MessageState.handle, hout] at hhandle
  obtain ⟨h', m, rest, prev, hsend, rfl, rfl, hphase, hread, htransit, htype, hdata⟩ := hs.receiving hbusy
  unfold MessageState.handle at hhandle
  rcases htransit.receiver with ⟨hinterrupt, hout | hclear | hout⟩ | ⟨hinterrupt, hload | hload | hload⟩
  · simp [hout] at hhandle
  · simp only [hclear, Option.some.injEq] at hhandle
    subst hhandle
    refine Or.inr ⟨h', m, rest, prev, hsend.receive hphase hread htype hdata ⟨fun i hne => ?_, Or.inr ⟨?_, ?_⟩⟩, ?_⟩
    · simpa [hne] using htransit.others i hne
    · simp
    · simp
    · simp [stepsOf, setHandler, hphase, hread, hclear]
  · simp [hout] at hhandle
  · simp only [hload, Option.some.injEq] at hhandle
    subst hhandle
    refine Or.inr ⟨h', m, rest, prev, hsend.receive hphase hread htype hdata ⟨fun i hne => ?_, Or.inr ⟨hinterrupt, ?_⟩⟩, ?_⟩
    · simpa [hne] using htransit.others i hne
    · simp [htype]
    · simp [stepsOf, setHandler, hphase, hread, hload]
  · simp only [hload, Option.some.injEq] at hhandle
    subst hhandle
    refine Or.inr ⟨h', m, rest, prev, hsend.receive hphase hread htype hdata ⟨fun i hne => ?_, Or.inr ⟨hinterrupt, ?_⟩⟩, ?_⟩
    · simpa [hne] using htransit.others i hne
    · simp [hdata]
    · simp [stepsOf, setHandler, hphase, hread, hload]
  · simp only [hload, Option.some.injEq] at hhandle
    subst hhandle
    refine Or.inr ⟨h', m, rest, prev, hsend.handle hphase hread htransit hinterrupt ?_, ?_⟩
    · split_ifs
      · exact Or.inr rfl
      · exact Or.inl rfl
    · simp [stepsOf, setHandler, hphase, hread, hload]

end

def stepsTaken (hart_ids : List H) : MessageState H D → List (MessageAction H D) → ℕ
  | _, [] => 0
  | s, a :: as => s.progress a + match messageStep hart_ids s a with
    | none => 0
    | some t => stepsTaken hart_ids t as

/-- A hart cannot go on because it has panicked, or because the one that it has interrupted has panicked or
does not take interrupts. -/
def Stuck (s : MessageState H D) : Prop :=
  ∃ h m rest, s.unsent h = m :: rest ∧ (s.handler h = .halted ∨
    s.phase h = .wait ∧ s.interrupt m.hartid = true ∧ (s.handler m.hartid = .halted ∨ s.enabled m.hartid = false))

section
variable {s t : MessageState H D} {h : H} {hart_ids : List H} {n : ℕ} {a : MessageAction H D} {actions : List (MessageAction H D)}
  {type : MessageType} {data : D} {enabled : H → Bool}

theorem Orderly.step (hs : s.Orderly n) (hstep : messageStep hart_ids s a = some t) : t.Orderly (n + s.progress a) := by
  cases a <;> simp only [messageStep, Bool.and_eq_true, List.isEmpty_iff, Option.ite_none_right_eq_some,
    Option.some.injEq] at hstep
  case sendMessageTo => exact hstep.2 ▸ hs.issue hstep.1.1
  case sendMessageToAll => exact hstep.2 ▸ hs.issue hstep.1.1
  case send h =>
    cases hout : s.handler h <;> simp only [hout, reduceCtorEq] at hstep
    exact hs.send hstep
  case interrupt h =>
    cases hout : s.handler h <;> simp only [hout, reduceCtorEq, Option.ite_none_right_eq_some, Option.some.injEq] at hstep
    exact hstep.2 ▸ hs.interrupted hout hstep.1.1
  case handle h => exact hs.handle hstep
  case enable => exact hstep.2 ▸ hs.enable _

theorem Orderly.runs (hs : s.Orderly n) (hr : Runs (messageStep hart_ids) (fun _ _ => True) s actions t) :
    t.Orderly (n + stepsTaken hart_ids s actions) := by
  induction hr generalizing n with
  | nil => exact hs
  | cons hok hstep hrest ih =>
    rw [stepsTaken, hstep, ← Nat.add_assoc]
    exact ih (hs.step hstep)

/-- What the sender of a message knows: it is handled when the sender has got the read lock again. -/
theorem Sending.delivered {m : Message H D} {rest : List (Message H D)} {prev : List (H × Message H D)}
    (hs : s.Sending h m rest prev) (h' : H) :
    s.issued h' = sentBy (s.sent.take s.handled.length) h' ++ s.undelivered h' := by
  have hother : h' ≠ h → s.taken h' = false := fun hne => by simp [taken, hs.others h' hne]
  have hissued := hs.issued h'
  rw [hs.sent, hs.handled, undelivered]
  cases htaken : s.taken h with
  | false =>
    have hnot : s.taken h' = false := by
      by_cases hne : h' = h
      · rw [hne, htaken]
      · exact hother hne
    simp [hnot, hissued]
  | true =>
    have hall : (prev ++ [(h, m)]).take (prev.map Prod.snd ++ [m]).length = prev ++ [(h, m)] := List.take_of_length_le (by simp)
    rw [if_pos rfl, hall, sentBy_append, hissued]
    by_cases hne : h' = h
    · simp [hne, htaken, hs.unsent]
    · simp [hother hne, Ne.symm hne]

/-- Messages are handled by the harts that they are sent to, one after the other in the order of the write
lock, as their senders have written them. What a hart was told to send is what was handled of it and
then what is not delivered yet, so that a hart that has returned from its calls has lost nothing, and
nothing is handled twice. -/
theorem runs_messages (hr : Runs (messageStep hart_ids) InitializesIdle (boot type data enabled) actions s) :
    s.handled = (s.sent.take s.handled.length).map Prod.snd ∧ s.sent.length ≤ s.handled.length + 1 ∧
      ∀ h, s.issued h = sentBy (s.sent.take s.handled.length) h ++ s.undelivered h ∧
        (s.unsent h = [] → s.undelivered h = []) := by
  have hnil : ∀ h, s.unsent h = [] → s.undelivered h = [] := fun h hnil => by simp [undelivered, hnil]
  rcases (orderly_boot type data enabled).runs (hr.mono fun _ _ _ => trivial) with ⟨hs, -⟩ | ⟨h', m, rest, prev, hs, -⟩
  · have hall : s.sent.take s.handled.length = s.sent := List.take_of_length_le (by rw [hs.handled, List.length_map])
    refine ⟨by rw [hall, hs.handled], by rw [hs.handled, List.length_map]; exact Nat.le_succ _, fun h => ⟨?_, hnil h⟩⟩
    rw [hall, hs.issued h, undelivered, taken, hs.phase h]
    rfl
  · refine ⟨?_, ?_, fun h => ⟨hs.delivered h, hnil h⟩⟩
    · rw [hs.sent, hs.handled]
      split_ifs
      · have hall : (prev ++ [(h', m)]).take (prev.map Prod.snd ++ [m]).length = prev ++ [(h', m)] :=
          List.take_of_length_le (by simp)
        rw [hall]
        simp
      · simp
    · rw [hs.sent, hs.handled]
      simp

theorem handle_progress (hout : s.handler h ≠ .outside) (hhalted : s.handler h ≠ .halted) :
    ∃ a t, messageStep hart_ids s a = some t ∧ s.progress a = 1 := by
  refine ⟨.handle h, ?_⟩
  cases hphase : s.handler h <;> simp_all [messageStep, MessageState.handle, progress]

theorem send_progress (hout : s.handler h = .outside) (hunsent : s.unsent h ≠ []) (hspins : s.spins h = false) :
    ∃ a t, messageStep hart_ids s a = some t ∧ s.progress a = 1 := by
  obtain ⟨m, rest, hunsent⟩ := List.exists_cons_of_ne_nil hunsent
  refine ⟨.send h, ?_⟩
  simp [messageStep, hout, MessageState.send, hunsent, progress, hspins]

omit [DecidableEq H] in
theorem stepsOf_le (s : MessageState H D) (h : H) (m : Message H D) : s.stepsOf h m ≤ 13 := by
  unfold stepsOf
  split <;> (try split_ifs) <;> (try split) <;> decide

/-- The hart that has locked the write lock can go on, or the receiver of its message can. -/
theorem Sending.progress {m : Message H D} {rest : List (Message H D)} {prev : List (H × Message H D)}
    (hs : s.Sending h m rest prev) : (∃ a t, messageStep hart_ids s a = some t ∧ s.progress a = 1) ∨ s.Stuck := by
  by_cases hhalted : s.handler h = .halted
  · exact Or.inr ⟨h, m, rest, hs.unsent, Or.inl hhalted⟩
  by_cases hout : s.handler h = .outside
  · by_cases hspins : s.spins h = false
    · exact Or.inl (send_progress hout (by simp [hs.unsent]) hspins)
    have hstage := hs.stage
    cases hphase : s.phase h <;> rw [hphase] at hstage <;> simp only [spins, hphase, Bool.not_eq_false,
      not_true_eq_false] at hspins
    case lockWrite => exact hstage.elim
    case lockRead => simp [hstage.1] at hspins
    case wait =>
      rcases hstage with ⟨-, htransit, -⟩ | ⟨hread, -⟩
      · by_cases hbusy : s.handler m.hartid ≠ .outside ∧ s.handler m.hartid ≠ .halted
        · exact Or.inl (handle_progress hbusy.1 hbusy.2)
        have hinterrupt : s.interrupt m.hartid = true := by
          rcases htransit.receiver with hr | ⟨-, hr⟩
          · exact hr.1
          · exact absurd (by rcases hr with hr | hr | hr <;> simp [hr]) hbusy
        by_cases hready : s.handler m.hartid = .outside ∧ s.enabled m.hartid = true
        · exact Or.inl ⟨.interrupt m.hartid, s.setHandler m.hartid .clear, by simp [messageStep, hready, hinterrupt], rfl⟩
        · refine Or.inr ⟨h, m, rest, hs.unsent, Or.inr ⟨hphase, hinterrupt, ?_⟩⟩
          by_cases hpanic : s.handler m.hartid = .halted
          · exact Or.inl hpanic
          · have hidle : s.handler m.hartid = .outside := by_contra fun hne => hbusy ⟨hne, hpanic⟩
            exact Or.inr (by simpa [hidle] using hready)
      · simp [hread] at hspins
  · exact Or.inl (handle_progress hout hhalted)

/-- Every message takes at most 13 steps apart from those of harts that wait for a lock. As long as a hart is
in a call some hart can take one, unless a hart that panicked or does not take interrupts is waited for. -/
theorem runs_progress (hr : Runs (messageStep hart_ids) InitializesIdle (boot type data enabled) actions s) :
    stepsTaken hart_ids (boot type data enabled) actions ≤ 13 * s.sent.length ∧
      ∀ h, s.unsent h ≠ [] → (∃ a t, messageStep hart_ids s a = some t ∧ s.progress a = 1) ∨ s.Stuck := by
  have hs := (orderly_boot type data enabled).runs (hr.mono fun _ _ _ => trivial)
  rw [Nat.zero_add] at hs
  rcases hs with ⟨hs, hn⟩ | ⟨h', m, rest, prev, hs, hn⟩
  · refine ⟨hn.le, fun h hunsent => ?_⟩
    rcases (hs.quiet h).2 with hout | hhalted
    · exact Or.inl (send_progress hout hunsent (by simp [spins, hs.phase, hs.message_write_lock]))
    · obtain ⟨m, rest, hunsent⟩ := List.exists_cons_of_ne_nil hunsent
      exact Or.inr ⟨h, m, rest, hunsent, Or.inl hhalted⟩
  · refine ⟨?_, fun h hunsent => hs.progress⟩
    have hle := s.stepsOf_le h' m
    rw [hn, hs.sent, List.length_append, List.length_singleton]
    omega

end

section Runs

/-- Both harts send to the other one. The message of the second hart has to wait. -/
def crossing : List (MessageAction (Fin 2) ℕ) :=
  List.flatten [[.sendMessageTo 0 1 .yieldTask 7, .sendMessageToAll 1 .yieldTask 8], List.replicate 5 (.send 0),
    [.send 1, .interrupt 1], List.replicate 4 (.handle 1), List.replicate 3 (.send 0), List.replicate 5 (.send 1), [.interrupt 0],
      List.replicate 4 (.handle 0)]

theorem crossing_runs : ∃ s, Runs (messageStep [0, 1]) InitializesIdle (boot .none 0 fun _ => true) crossing s ∧
    s.handled.length = 2 ∧ s.sent.length = 2 ∧ s.unsent 1 ≠ [] := by
  have hrun : ((execOk (messageStep [0, 1]) InitializesIdle (boot .none 0 fun _ => true) crossing).map fun s =>
      (s.handled.length, s.sent.length, (s.unsent 1).length)) = some (2, 2, 1) := by decide
  obtain ⟨s, hs, hlen⟩ := Option.map_eq_some_iff.mp hrun
  obtain ⟨hhandled, hsent, hunsent⟩ : s.handled.length = 2 ∧ s.sent.length = 2 ∧ (s.unsent 1).length = 1 := by simpa using hlen
  exact ⟨s, Runs.of_execOk hs, hhandled, hsent, fun hnil => by simp [hnil] at hunsent⟩

theorem crossing_handled : ∃ s : MessageState (Fin 2) ℕ, s.handled.length = 2 ∧ s.handled = s.sent.map Prod.snd ∧
    s.issued 0 = sentBy s.sent 0 ++ s.undelivered 0 := by
  obtain ⟨s, hr, hhandled, hsent, -⟩ := crossing_runs
  obtain ⟨hlog, -, hissued⟩ := runs_messages hr
  have hall : s.sent.take s.handled.length = s.sent := List.take_of_length_le (by rw [hsent, hhandled])
  rw [hall] at hlog hissued
  exact ⟨s, hhandled, hlog, (hissued 0).1⟩

theorem crossing_progress : ∃ s : MessageState (Fin 2) ℕ, stepsTaken [0, 1] (boot .none 0 fun _ => true) crossing ≤ 26 ∧
    ((∃ a t, messageStep [0, 1] s a = some t ∧ s.progress a = 1) ∨ s.Stuck) := by
  obtain ⟨s, hr, -, hsent, hunsent⟩ := crossing_runs
  obtain ⟨hsteps, hmoves⟩ := runs_progress hr
  exact ⟨s, by rwa [hsent] at hsteps, hmoves 1 hunsent⟩

end Runs

end MessageState

end SomeOs.Harts

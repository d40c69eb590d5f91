import SomeOs.Base.LinkedList
import SomeOs.Base.ListEnds
import SomeOs.Base.Transition
import SomeOs.Signals.Types

/-! # The queue of pending signals

Signals are appended through a pointer to the last entry and taken out at the front, in the
middle and in bulk. The entries that are allocated are kept in a list; a use of another one has
no result. `SIGCONT` continues the process even if it is not queued, which changes no queue.
-/
namespace SomeOs.Signals
open LinkedList Transition
open Process (SIGCHLD PendingSignal)
variable {A : Type*}

structure SignalQueue (A : Type*) where
  signals : Option A
  signals_tail : Option A
  next : A → Option A
  entry : A → PendingSignal
  allocated : List A
  handlers : ℕ → SignalHandler

def isChild (child_pid : ℤ) (s : PendingSignal) : Bool := s.signal == SIGCHLD && s.child_pid == child_pid

namespace SignalQueue
variable [DecidableEq A]

def setCurrent (q : SignalQueue A) (previous : Option A) (value : Option A) : SignalQueue A :=
  match previous with
  | none => { q with signals := value }
  | some p => { q with next := Function.update q.next p value }

def unlink (q : SignalQueue A) (previous : Option A) (a : A) : SignalQueue A :=
  { q.setCurrent previous (q.next a) with allocated := q.allocated.erase a }

/-- `entry` is the address that `kalloc` returns. -/
def addSignalToProcess (q : SignalQueue A) (entry : A) (signal : ℕ) (child_pid : ℤ) : Option (SignalQueue A) :=
  if queues q.handlers signal then
    let q := { q with
      allocated := entry :: q.allocated
      next := Function.update q.next entry none
      entry := Function.update q.entry entry ⟨signal, child_pid⟩ }
    match q.signals_tail with
    | none => some { q with signals_tail := some entry, signals := some entry }
    | some t =>
      if t ∈ q.allocated then
        some { q with next := Function.update q.next t (some entry), signals_tail := some entry }
      else none
  else some q

/-- The loop of `getSignalToHandle`, with `n` entries left at most. -/
def findSignal (q : SignalQueue A) (mask : SignalSet) : ℕ → Option A → Option A → Option (ℕ × SignalQueue A)
  | _, _, none => some (sigNone, q)
  | 0, _, some _ => none
  | n + 1, previous, some a =>
    if a ∈ q.allocated then
      if deliverable mask (q.entry a).signal then
        let tail := if q.signals_tail = some a then previous else q.signals_tail
        some ((q.entry a).signal, { q.unlink previous a with signals_tail := tail })
      else q.findSignal mask n (some a) (q.next a)
    else none

def getSignalToHandle (q : SignalQueue A) (mask : SignalSet) : Option (ℕ × SignalQueue A) :=
  q.findSignal mask q.allocated.length none q.signals

/-- The loop of `clearSignals`. -/
def freeAll (q : SignalQueue A) : ℕ → Option (SignalQueue A)
  | 0 => if q.signals = none then some q else none
  | n + 1 =>
    match q.signals with
    | none => some q
    | some a => if a ∈ q.allocated then (q.unlink none a).freeAll n else none

def clearSignals (q : SignalQueue A) : Option (SignalQueue A) :=
  (q.freeAll q.allocated.length).map fun q => { q with signals_tail := none, handlers := clearHandlers q.handlers }

/-- The loop of `clearPendingChildSignals`. -/
def freeChild (q : SignalQueue A) (child_pid : ℤ) : ℕ → Option A → Option A → Option (SignalQueue A)
  | _, _, none => some q
  | 0, _, some _ => none
  | n + 1, previous, some a =>
    if a ∈ q.allocated then
      if isChild child_pid (q.entry a) then (q.unlink previous a).freeChild child_pid n previous (q.next a)
      else q.freeChild child_pid n (some a) (q.next a)
    else none

def clearPendingChildSignals (q : SignalQueue A) (child_pid : ℤ) : Option (SignalQueue A) :=
  (q.freeChild child_pid q.allocated.length none q.signals).map fun q =>
    if q.signals = none then { q with signals_tail := none } else q

end SignalQueue

/-- The entries `l` in memory, which are all that is allocated. -/
structure Queued (q : SignalQueue A) (l : List A) : Prop where
  chain : Chain q.next q.signals l
  allocated : l.Perm q.allocated

section Queued
variable [DecidableEq A] {q q' : SignalQueue A} {l before after rest : List A} {a : A} {mask : SignalSet}
variable {child_pid : ℤ} {n : ℕ}

omit [DecidableEq A] in
theorem Queued.mem (h : Queued q l) (ha : a ∈ l) : a ∈ q.allocated := h.allocated.mem_iff.mp ha

theorem Queued.unlink (h : Queued q (before ++ a :: after)) : Queued (q.unlink before.getLast? a) (before ++ after) := by
  refine ⟨?_, ?_⟩
  · rcases List.eq_nil_or_concat before with rfl | ⟨b, p, rfl⟩
    · exact h.chain.2
    · have hlast : (b ++ [p]).getLast? = some p := List.getLast?_concat
      have hchain := h.chain
      simp only [List.concat_eq_append, List.append_assoc, List.singleton_append] at hchain ⊢
      rw [hlast]
      have hnodup := List.nodup_append'.mp hchain.nodup
      have hp := (List.nodup_cons.mp hnodup.2.1).1
      refine hchain.splice (fun c hc => Function.update_of_ne ?_ ..) ?_
      · exact fun heq => hnodup.2.2 hc (by simp [heq])
      · simp only [SignalQueue.unlink, SignalQueue.setCurrent, Function.update_self]
        have hafter := @Chain.suffix A q.next q.signals (b ++ [p]) after a (by simpa using hchain)
        exact hafter.congr fun c hc => Function.update_of_ne (fun heq => hp (by simp [← heq, hc])) ..
  · have hperm : (a :: (before ++ after)).Perm q.allocated := List.perm_middle.symm.trans h.allocated
    have herase := hperm.erase a
    rw [List.erase_cons_head] at herase
    cases hlast : before.getLast? <;> exact herase

@[simp] theorem unlink_entry {previous : Option A} : (q.unlink previous a).entry = q.entry := by
  cases previous <;> rfl

@[simp] theorem unlink_handlers {previous : Option A} : (q.unlink previous a).handlers = q.handlers := by
  cases previous <;> rfl

@[simp] theorem unlink_tail {previous : Option A} : (q.unlink previous a).signals_tail = q.signals_tail := by
  cases previous <;> rfl

theorem Queued.findSignal_append (h : Queued q (before ++ (after ++ rest))) (hn : after.length ≤ n)
    (hblocked : ∀ b ∈ after, ¬deliverable mask (q.entry b).signal) :
    q.findSignal mask n before.getLast? (after ++ rest).head? =
      q.findSignal mask (n - after.length) (before ++ after).getLast? rest.head? := by
  induction after generalizing before n with
  | nil => simp
  | cons b after ih =>
    obtain ⟨m, rfl⟩ : ∃ m, n = m + 1 := ⟨n - 1, by simp only [List.length_cons] at hn; omega⟩
    have hb : b ∈ q.allocated := h.mem (by simp)
    have hnext : q.next b = (after ++ rest).head? := h.chain.suffix.head_eq
    have hrest := @ih (before ++ [b]) m (by simpa using h) (by simpa using hn)
      fun c hc => hblocked c (List.mem_cons_of_mem _ hc)
    rw [List.getLast?_concat] at hrest
    simp only [List.cons_append, List.head?_cons, SignalQueue.findSignal]
    rw [if_pos hb, if_neg (hblocked b List.mem_cons_self), hnext, hrest]
    simp

theorem Queued.getSignalToHandle_none (h : Queued q l) (hblocked : ∀ b ∈ l, ¬deliverable mask (q.entry b).signal) :
    q.getSignalToHandle mask = some (sigNone, q) := by
  have hfind := @findSignal_append A _ q [] l [] mask q.allocated.length (by simpa using h) h.allocated.length_eq.le hblocked
  unfold SignalQueue.getSignalToHandle
  rw [h.chain.head_eq]
  simp only [List.append_nil, List.nil_append, List.getLast?_nil, List.head?_nil] at hfind
  rw [hfind]
  cases q.allocated.length - l.length <;> rfl

/-- The first signal that is not blocked is delivered. -/
theorem Queued.getSignalToHandle_some (h : Queued q (before ++ a :: after))
    (hblocked : ∀ b ∈ before, ¬deliverable mask (q.entry b).signal) (ha : deliverable mask (q.entry a).signal)
    (htail : q.signals_tail = (before ++ a :: after).getLast?) :
    ∃ q', q.getSignalToHandle mask = some ((q.entry a).signal, q') ∧ Queued q' (before ++ after) ∧
      q'.signals_tail = (before ++ after).getLast? ∧ q'.entry = q.entry ∧ q'.handlers = q.handlers := by
  have hlen := h.allocated.length_eq
  simp only [List.length_append, List.length_cons] at hlen
  have hfind := @findSignal_append A _ q [] before (a :: after) mask q.allocated.length (by simpa using h) (by omega) hblocked
  obtain ⟨m, hm⟩ : ∃ m, q.allocated.length - before.length = m + 1 := ⟨after.length, by omega⟩
  simp only [List.nil_append, List.getLast?_nil, hm, List.head?_cons, SignalQueue.findSignal] at hfind
  rw [if_pos (h.mem (by simp)), if_pos ha] at hfind
  unfold SignalQueue.getSignalToHandle
  rw [h.chain.head_eq, hfind]
  refine ⟨_, rfl, ⟨h.unlink.chain, h.unlink.allocated⟩, ?_, unlink_entry, unlink_handlers⟩
  dsimp only
  rw [htail]
  rcases List.eq_nil_or_concat after with rfl | ⟨c, d, rfl⟩
  · rw [List.getLast?_concat, if_pos rfl, List.append_nil]
  · have hne : d ≠ a := fun heq => by
      have hnodup := (List.nodup_append'.mp h.chain.nodup).2.1
      exact (List.nodup_cons.mp hnodup).1 (by simp [heq])
    have hlast : (before ++ a :: (c ++ [d])).getLast? = some d := by
      rw [← List.cons_append, ← List.append_assoc, List.getLast?_concat]
    rw [List.concat_eq_append, hlast, if_neg (by simpa using hne), ← List.append_assoc, List.getLast?_concat]

theorem Queued.freeAll (h : Queued q l) (hn : l.length ≤ n) :
    ∃ q', q.freeAll n = some q' ∧ Queued q' [] ∧ q'.handlers = q.handlers := by
  induction l generalizing q n with
  | nil =>
    refine ⟨q, ?_, h, rfl⟩
    have hnone : q.signals = none := h.chain
    cases n with
    | zero => exact if_pos hnone
    | succ n => simp only [SignalQueue.freeAll, hnone]
  | cons a l ih =>
    obtain ⟨m, rfl⟩ : ∃ m, n = m + 1 := ⟨n - 1, by simp only [List.length_cons] at hn; omega⟩
    obtain ⟨q', hq', hnil, hhandlers⟩ := ih (@Queued.unlink A _ q [] l a h) (by simpa using hn)
    refine ⟨q', ?_, hnil, hhandlers.trans unlink_handlers⟩
    simp only [SignalQueue.freeAll, h.chain.1]
    rw [if_pos (h.mem List.mem_cons_self)]
    exact hq'

theorem Queued.freeChild (h : Queued q (before ++ after)) (hn : after.length ≤ n) :
    ∃ q', q.freeChild child_pid n before.getLast? after.head? = some q' ∧
      Queued q' (before ++ after.filter fun b => !isChild child_pid (q.entry b)) ∧ q'.entry = q.entry ∧
      q'.signals_tail = q.signals_tail ∧ q'.handlers = q.handlers := by
  induction after generalizing q before n with
  | nil =>
    refine ⟨q, ?_, h, rfl, rfl, rfl⟩
    cases n <;> rfl
  | cons a after ih =>
    obtain ⟨m, rfl⟩ : ∃ m, n = m + 1 := ⟨n - 1, by simp only [List.length_cons] at hn; omega⟩
    have hnext : q.next a = after.head? := h.chain.suffix.head_eq
    simp only [List.head?_cons, SignalQueue.freeChild]
    rw [if_pos (h.mem (by simp)), hnext]
    by_cases hchild : isChild child_pid (q.entry a)
    · obtain ⟨q', hq', hqueued, hentry, htail, hhandlers⟩ := ih h.unlink (by simpa using hn)
      rw [unlink_entry] at hqueued hentry
      rw [if_pos hchild, List.filter_cons_of_neg (by simpa using hchild)]
      exact ⟨q', hq', hqueued, hentry, htail.trans unlink_tail, hhandlers.trans unlink_handlers⟩
    · obtain ⟨q', hq', hqueued, hentry, htail, hhandlers⟩ :=
        @ih q (before ++ [a]) m (by simpa using h) (by simpa using hn)
      rw [if_neg hchild, List.filter_cons_of_pos (by simpa using hchild)]
      rw [List.getLast?_concat] at hq'
      exact ⟨q', hq', by simpa using hqueued, hentry, htail, hhandlers⟩

theorem Queued.clearPendingChildSignals (h : Queued q l) (child_pid : ℤ) :
    ∃ q', q.clearPendingChildSignals child_pid = some q' ∧
      Queued q' (l.filter fun b => !isChild child_pid (q.entry b)) ∧ q'.entry = q.entry ∧
      q'.signals_tail = (if (l.filter fun b => !isChild child_pid (q.entry b)) = [] then none else q.signals_tail) ∧
      q'.handlers = q.handlers := by
  obtain ⟨q', hq', hqueued, hentry, htail, hhandlers⟩ :=
    @Queued.freeChild A _ q [] l child_pid q.allocated.length h h.allocated.length_eq.le
  unfold SignalQueue.clearPendingChildSignals
  rw [h.chain.head_eq]
  simp only [List.getLast?_nil, List.nil_append] at hq' hqueued
  rw [hq', Option.map_some]
  refine ⟨_, rfl, ?_⟩
  have hhead : q'.signals = none ↔ (l.filter fun b => !isChild child_pid (q.entry b)) = [] := by
    rw [hqueued.chain.head_eq, List.head?_eq_none_iff]
  by_cases hnil : (l.filter fun b => !isChild child_pid (q.entry b)) = []
  · rw [if_pos (hhead.mpr hnil), if_pos hnil]
    exact ⟨⟨hqueued.chain, hqueued.allocated⟩, hentry, rfl, hhandlers⟩
  · rw [if_neg (mt hhead.mp hnil), if_neg hnil]
    exact ⟨hqueued, hentry, htail, hhandlers⟩

/-- A new entry behind the last one. -/
theorem Queued.addSignalToProcess (h : Queued q l) (htail : q.signals_tail = l.getLast?) (ha : a ∉ q.allocated)
    {signal : ℕ} (hqueues : queues q.handlers signal) :
    ∃ q', q.addSignalToProcess a signal child_pid = some q' ∧ Queued q' (l ++ [a]) ∧ q'.signals_tail = some a ∧
      q'.entry = Function.update q.entry a ⟨signal, child_pid⟩ ∧ q'.handlers = q.handlers := by
  have hal : a ∉ l := fun hmem => ha (h.mem hmem)
  have hperm : (l ++ [a]).Perm (a :: q.allocated) := (List.perm_append_comm).trans (h.allocated.cons a)
  have hkeep : Chain (Function.update q.next a none) q.signals l :=
    h.chain.congr fun b hb => Function.update_of_ne (ne_of_mem_of_not_mem hb hal) ..
  unfold SignalQueue.addSignalToProcess
  rw [if_pos hqueues]
  dsimp only
  rw [htail]
  rcases List.eq_nil_or_concat l with rfl | ⟨b, t, rfl⟩
  · exact ⟨_, rfl, ⟨⟨rfl, Function.update_self ..⟩, hperm⟩, rfl, rfl, rfl⟩
  · have hlast : (b ++ [t]).getLast? = some t := List.getLast?_concat
    rw [List.concat_eq_append] at h hal hperm hkeep ⊢
    rw [hlast]
    dsimp only
    rw [if_pos (List.mem_cons_of_mem _ (h.mem (by simp)))]
    refine ⟨_, rfl, ⟨?_, hperm⟩, rfl, rfl, rfl⟩
    have hta : a ≠ t := fun heq => hal (by simp [heq])
    have hnodup := List.nodup_append'.mp h.chain.nodup
    rw [List.append_assoc]
    refine hkeep.splice (fun c hc => Function.update_of_ne ?_ ..) ?_
    · exact fun heq => hnodup.2.2 hc (by simp [heq])
    · refine ⟨Function.update_self .., ?_⟩
      simp only [chain_nil]
      rw [Function.update_of_ne hta, Function.update_self]

end Queued

/-- The signals that were queued, each with its number, and what has become of them. -/
structure SignalLedger (A : Type*) where
  queue : SignalQueue A
  queued : List (ℕ × PendingSignal)
  pending : List (ℕ × PendingSignal)
  delivered : List (ℕ × PendingSignal)
  cleared : List (ℕ × PendingSignal)

/-- `entry` is where the allocation of the new entry is. The handlers change between the calls. -/
inductive SignalStep (A : Type*) where
  | add (entry : A) (signal : ℕ) (child_pid : ℤ)
  | get (mask : SignalSet)
  | clearChild (child_pid : ℤ)
  | clear
  | setHandlers (handlers : ℕ → SignalHandler)

namespace SignalLedger
variable [DecidableEq A]

def first (s : SignalLedger A) (mask : SignalSet) : Option (ℕ × PendingSignal) :=
  s.pending.find? fun e => deliverable mask e.2.signal

def step (s : SignalLedger A) : SignalStep A → Option (SignalLedger A)
  | .add entry signal child_pid =>
    let new := if queues s.queue.handlers signal then [(s.queued.length, PendingSignal.mk signal child_pid)] else []
    (s.queue.addSignalToProcess entry signal child_pid).map fun queue =>
      { s with queue := queue, queued := s.queued ++ new, pending := s.pending ++ new }
  | .get mask =>
    (s.queue.getSignalToHandle mask).map fun (_, queue) =>
      { s with
        queue := queue
        delivered := s.delivered ++ (s.first mask).toList
        pending := s.pending.eraseP fun e => deliverable mask e.2.signal }
  | .clearChild child_pid =>
    (s.queue.clearPendingChildSignals child_pid).map fun queue =>
      { s with
        queue := queue
        cleared := s.cleared ++ s.pending.filter fun e => isChild child_pid e.2
        pending := s.pending.filter fun e => !isChild child_pid e.2 }
  | .clear =>
    s.queue.clearSignals.map fun queue => { s with queue := queue, cleared := s.cleared ++ s.pending, pending := [] }
  | .setHandlers handlers => some { s with queue := { s.queue with handlers := handlers } }

/-- A new entry is not in use, and no last signal is cleared behind one that stays. -/
def KeepsLast (s : SignalLedger A) : SignalStep A → Prop
  | .add entry _ _ => entry ∉ s.queue.allocated
  | .clearChild child_pid =>
    (∃ e ∈ s.pending.getLast?, isChild child_pid e.2) → ∀ e ∈ s.pending, isChild child_pid e.2
  | _ => True

instance (s : SignalLedger A) : ∀ a, Decidable (s.KeepsLast a)
  | .add _ _ _ => inferInstanceAs (Decidable (_ ∉ _))
  | .clearChild _ => inferInstanceAs (Decidable (_ → _))
  | .get _ | .clear | .setHandlers _ => isTrue trivial

def empty (handlers : ℕ → SignalHandler) (next : A → Option A) (entry : A → PendingSignal) : SignalLedger A :=
  ⟨⟨none, none, next, entry, [], handlers⟩, [], [], [], []⟩

end SignalLedger

structure Ledgered (s : SignalLedger A) : Prop where
  queue : ∃ l, Queued s.queue l ∧ s.queue.signals_tail = l.getLast? ∧
    l.map s.queue.entry = s.pending.map Prod.snd
  numbers : s.queued.map Prod.fst = List.range s.queued.length
  order : s.pending.Sublist s.queued
  all : (s.delivered ++ s.cleared ++ s.pending).Perm s.queued

section Ledger
open SignalLedger
variable [DecidableEq A] {s s' : SignalLedger A}

theorem Ledgered.add (h : Ledgered s) {entry : A} {signal : ℕ} {child_pid : ℤ} (hok : entry ∉ s.queue.allocated)
    (hs : s.step (.add entry signal child_pid) = some s') : Ledgered s' := by
  obtain ⟨l, hl, htail, hmap⟩ := h.queue
  obtain ⟨queue, hqueue, rfl⟩ := Option.map_eq_some_iff.mp hs
  by_cases hqueues : queues s.queue.handlers signal
  · obtain ⟨q', hq', hl', htail', hentry, -⟩ := @Queued.addSignalToProcess A _ s.queue l entry child_pid hl htail hok _ hqueues
    cases hq'.symm.trans hqueue
    have hnot : entry ∉ l := fun hmem => hok (hl.mem hmem)
    simp only [if_pos hqueues]
    refine ⟨⟨l ++ [entry], hl', by rw [htail', List.getLast?_concat], ?_⟩, ?_, ?_, ?_⟩
    · have hold : l.map queue.entry = s.pending.map Prod.snd := by
        rw [← hmap, hentry]
        exact List.map_congr_left fun b hb => Function.update_of_ne (ne_of_mem_of_not_mem hb hnot) ..
      rw [List.map_append, List.map_append, hold, hentry]
      simp
    · rw [List.map_append, h.numbers, List.length_append, List.length_singleton, List.range_succ]
      rfl
    · exact h.order.append (List.Sublist.refl _)
    · rw [← List.append_assoc]
      exact h.all.append_right _
  · have hsame : s.queue.addSignalToProcess entry signal child_pid = some s.queue := if_neg hqueues
    cases hsame.symm.trans hqueue
    simp only [if_neg hqueues, List.append_nil]
    exact ⟨⟨l, hl, htail, hmap⟩, h.numbers, h.order, h.all⟩

/-- The first pending signal, the others behind it, and the queue after it is delivered. -/
theorem Ledgered.getSignalToHandle (h : Ledgered s) (mask : SignalSet) :
    ∃ queue l, s.queue.getSignalToHandle mask = some ((s.first mask).elim sigNone (·.2.signal), queue) ∧
      Queued queue l ∧ queue.signals_tail = l.getLast? ∧
      l.map queue.entry = (s.pending.eraseP fun e => deliverable mask e.2.signal).map Prod.snd ∧
      ((s.first mask).toList ++ s.pending.eraseP fun e => deliverable mask e.2.signal).Perm s.pending := by
  obtain ⟨l, hl, htail, hmap⟩ := h.queue
  cases hfirst : s.first mask with
  | none =>
    have hblocked : ∀ e ∈ s.pending, ¬deliverable mask e.2.signal := by
      simpa [SignalLedger.first] using hfirst
    rw [List.eraseP_of_forall_not hblocked]
    refine ⟨s.queue, l, hl.getSignalToHandle_none fun b hb => ?_, hl, htail, hmap, List.Perm.refl _⟩
    obtain ⟨e, he, heq⟩ := List.mem_map.mp (hmap ▸ List.mem_map_of_mem hb : s.queue.entry b ∈ s.pending.map Prod.snd)
    exact heq ▸ hblocked e he
  | some e =>
    obtain ⟨he, pre, post, hpending, hpre⟩ := List.find?_eq_some_iff_append.mp hfirst
    have hpre' : ∀ b ∈ pre, ¬deliverable mask b.2.signal := fun b hb => by simpa using hpre b hb
    have herase : (s.pending.eraseP fun e => deliverable mask e.2.signal) = pre ++ post := by
      rw [hpending, List.eraseP_append_right _ hpre']
      simp [he]
    rw [hpending, List.map_append, List.map_cons] at hmap
    obtain ⟨before, rest, rfl, hbefore, hrest⟩ := List.map_eq_append_iff.mp hmap
    obtain ⟨a, after, rfl, ha, hafter⟩ := List.map_eq_cons_iff.mp hrest
    have hblocked : ∀ b ∈ before, ¬deliverable mask (s.queue.entry b).signal := fun b hb => by
      obtain ⟨d, hd, heq⟩ := List.mem_map.mp (hbefore ▸ List.mem_map_of_mem hb : s.queue.entry b ∈ pre.map Prod.snd)
      exact heq ▸ hpre' d hd
    obtain ⟨q', hq', hl', htail', hentry, -⟩ := hl.getSignalToHandle_some hblocked (by rw [ha]; exact he) htail
    refine ⟨q', before ++ after, ?_, hl', htail', ?_, ?_⟩
    · rw [hq', ha]
      rfl
    · rw [herase, hentry, List.map_append, List.map_append, hbefore, hafter]
    · rw [herase, hpending, Option.toList_some, List.singleton_append]
      exact List.perm_middle.symm

theorem Ledgered.get (h : Ledgered s) {mask : SignalSet} (hs : s.step (.get mask) = some s') : Ledgered s' := by
  obtain ⟨queue, l, hqueue, hl, htail, hmap, hperm⟩ := h.getSignalToHandle mask
  obtain ⟨⟨signal, queue'⟩, hqueue', rfl⟩ := Option.map_eq_some_iff.mp hs
  cases hqueue.symm.trans hqueue'
  refine ⟨⟨l, hl, htail, hmap⟩, h.numbers, List.eraseP_sublist.trans h.order, ?_⟩
  refine List.Perm.trans ?_ h.all
  simp only [List.append_assoc]
  refine List.Perm.append_left s.delivered ?_
  refine List.Perm.trans (List.perm_append_comm_assoc ..) (List.Perm.append_left s.cleared hperm)

theorem Ledgered.clearChild (h : Ledgered s) {child_pid : ℤ} (hok : s.KeepsLast (.clearChild child_pid))
    (hs : s.step (.clearChild child_pid) = some s') : Ledgered s' := by
  obtain ⟨l, hl, htail, hmap⟩ := h.queue
  obtain ⟨queue, hqueue, rfl⟩ := Option.map_eq_some_iff.mp hs
  obtain ⟨q', hq', hl', hentry, htail', -⟩ := hl.clearPendingChildSignals child_pid
  cases hq'.symm.trans hqueue
  have hfilter : (l.filter fun b => !isChild child_pid (s.queue.entry b)).map s.queue.entry =
      (s.pending.filter fun e => !isChild child_pid e.2).map Prod.snd := by
    have hsame := congrArg (List.filter fun e => !isChild child_pid e) hmap
    rw [List.filter_map, List.filter_map] at hsame
    exact hsame
  refine ⟨⟨_, hl', ?_, by rw [hentry]; exact hfilter⟩, h.numbers, (List.filter_sublist).trans h.order, ?_⟩
  · rw [htail', htail]
    split_ifs with hnil
    · rw [hnil, List.getLast?_nil]
    · refine (ListEnds.getLast?_filter fun a ha => ?_).symm
      by_contra hchild
      have hlast : (s.pending.map Prod.snd).getLast? = some (s.queue.entry a) := by
        rw [← hmap, List.getLast?_map, Option.mem_def.mp ha]
        rfl
      rw [List.getLast?_map] at hlast
      obtain ⟨e, he, heq⟩ := Option.map_eq_some_iff.mp hlast
      have hall := hok ⟨e, he, by rw [heq]; simpa using hchild⟩
      refine hnil (List.map_eq_nil_iff.mp (hfilter.trans ?_))
      rw [List.map_eq_nil_iff, List.filter_eq_nil_iff]
      simpa using hall
  · refine List.Perm.trans ?_ h.all
    simp only [List.append_assoc]
    refine List.Perm.append_left _ (List.Perm.append_left _ ?_)
    exact List.filter_append_perm ..

theorem Ledgered.clear (h : Ledgered s) (hs : s.step .clear = some s') : Ledgered s' := by
  obtain ⟨l, hl, -, -⟩ := h.queue
  obtain ⟨queue, hqueue, rfl⟩ := Option.map_eq_some_iff.mp hs
  obtain ⟨q', hq', hnil, -⟩ := hl.freeAll hl.allocated.length_eq.le
  obtain ⟨q'', hq'', rfl⟩ := Option.map_eq_some_iff.mp hqueue
  cases hq'.symm.trans hq''
  refine ⟨⟨[], ⟨hnil.chain, hnil.allocated⟩, rfl, rfl⟩, h.numbers, List.nil_sublist _, ?_⟩
  rw [List.append_nil, ← List.append_assoc]
  exact h.all

theorem Ledgered.step (h : Ledgered s) {a : SignalStep A} (hok : s.KeepsLast a) (hs : s.step a = some s') :
    Ledgered s' := by
  cases a with
  | add entry signal child_pid => exact h.add hok hs
  | get mask => exact h.get hs
  | clearChild child_pid => exact h.clearChild hok hs
  | clear => exact h.clear hs
  | setHandlers handlers =>
    cases hs
    obtain ⟨l, hl, htail, hmap⟩ := h.queue
    exact ⟨⟨l, ⟨hl.chain, hl.allocated⟩, htail, hmap⟩, h.numbers, h.order, h.all⟩

/-- The queue loses nothing in a run that clears no last signal behind one that stays. -/
theorem runs_queue {handlers : ℕ → SignalHandler} {next : A → Option A} {entry : A → PendingSignal}
    {steps : List (SignalStep A)} (h : Runs SignalLedger.step KeepsLast (empty handlers next entry) steps s) :
    (∃ l, Chain s.queue.next s.queue.signals l ∧ l.map s.queue.entry = s.pending.map Prod.snd ∧
      s.queue.signals_tail = l.getLast?) ∧
    (∀ mask, ∃ queue, s.queue.getSignalToHandle mask = some ((s.first mask).elim sigNone (·.2.signal), queue)) ∧
    (s.queued.map Prod.fst).Nodup ∧ s.pending.Sublist s.queued ∧
      (s.delivered ++ s.cleared ++ s.pending).Perm s.queued := by
  have hledger : Ledgered s := h.invariant (fun _ _ _ hI hok hstep => hI.step hok hstep)
    ⟨⟨[], ⟨rfl, List.Perm.refl _⟩, rfl, rfl⟩, rfl, List.Sublist.refl _, List.Perm.refl _⟩
  obtain ⟨l, hl, htail, hmap⟩ := hledger.queue
  refine ⟨⟨l, hl.chain, hmap, htail⟩, fun mask => ?_, ?_, hledger.order, hledger.all⟩
  · obtain ⟨queue, -, hqueue, -⟩ := hledger.getSignalToHandle mask
    exact ⟨queue, hqueue⟩
  · rw [hledger.numbers]
    exact List.nodup_range

/-- A blocked signal stays before one that is delivered. -/
theorem runs_queue_blocked : ∃ s, execOk SignalLedger.step KeepsLast
    (empty (fun _ => ⟨4096, 0, 0, 0⟩) (fun _ => none) fun _ => ⟨0, 0⟩)
    [.add 1 2 0, .add 2 SIGCHLD 5, .add 3 15 0, .clearChild 5, .get 2] = some s ∧
      (s.delivered ++ s.cleared ++ s.pending).Perm s.queued := by
  obtain ⟨s, hs⟩ : ∃ s, execOk SignalLedger.step KeepsLast
      (empty (fun _ => ⟨4096, 0, 0, 0⟩) (fun _ => none) fun _ => ⟨0, 0⟩)
      [.add (1 : ℕ) 2 0, .add 2 SIGCHLD 5, .add 3 15 0, .clearChild 5, .get 2] = some s :=
    Option.isSome_iff_exists.mp (by decide)
  exact ⟨s, hs, (runs_queue (Runs.of_execOk hs)).2.2.2.2⟩

/-- The last signal is cleared behind another one: the pointer to it stays, and the next signal
uses it. -/
theorem cleared_last_stays_tail : ∃ s : SignalLedger ℕ, exec SignalLedger.step
    (empty (fun _ => ⟨4096, 0, 0, 0⟩) (fun _ => none) fun _ => ⟨0, 0⟩)
    [.add 1 15 0, .add 2 SIGCHLD 5, .clearChild 5] = some s ∧
      (¬∃ l, Chain s.queue.next s.queue.signals l ∧ s.queue.signals_tail = l.getLast?) ∧
      (s.queue.addSignalToProcess 3 15 0).isNone := by
  refine ⟨_, rfl, ?_, rfl⟩
  rintro ⟨l, hl, htail⟩
  have hone : l = [1] := hl.unique ⟨rfl, rfl⟩
  rw [hone] at htail
  revert htail
  decide

end Ledger

end SomeOs.Signals

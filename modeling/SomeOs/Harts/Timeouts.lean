import SomeOs.Base.Transition

/-! # Timeouts

Timeouts are kept in one list for all harts. The timer interrupt of a hart takes those out that are
due and calls them; before a hart runs a task it sets its timer to the next one, but not behind the
slice of the task, which is longer for the idle task of the hart. Every section under the lock of
the list is one step, and harts and the clock go on in any order.
-/
namespace SomeOs.Harts
open Transition
variable {H T F : Type*}

structure TimeoutEntry (F : Type*) where
  id : ℕ
  time : ℕ
  function : Option F
  deriving DecidableEq

/-- `CLOCKS_PER_SEC` -/
def clocksPerSec : ℕ := 10000000

def maxTime : ℕ := clocksPerSec / 100

def maxIdleTime : ℕ := clocksPerSec

def preemptionTime (idle : Bool) : ℕ := if idle then maxIdleTime else maxTime

def uint64Max : ℕ := 2 ^ 64 - 1

/-- The list of `handleTimerInterrupt` goes through, and those that are due are put in front of `to_call`. -/
def takeExpired (time : ℕ) :
    List (TimeoutEntry F) → List (TimeoutEntry F) → List (TimeoutEntry F) × List (TimeoutEntry F)
  | [], to_call => ([], to_call)
  | e :: es, to_call =>
    if e.time ≤ time then takeExpired time es (e :: to_call)
    else (e :: (takeExpired time es to_call).1, (takeExpired time es to_call).2)

/-- The loop of `setPreemptionTimer`. -/
def nextTime : List (TimeoutEntry F) → ℕ → ℕ
  | [], next => next
  | e :: es, next => nextTime es (if e.time < next then e.time else next)

/-- Where a hart is, with the time it has read. -/
inductive TimerPhase (T F : Type*) where
  | outside
  /-- `handleTimerInterrupt` has read the clock. -/
  | expire (time : ℕ)
  | call (time : ℕ) (to_call : List (TimeoutEntry F))
  /-- `setPreemptionTimer` has read the clock. -/
  | preempt (time : ℕ) (task : T)

/-- What a hart had before it when it set its timer: the task, the time and the waiting timeouts, and how
many had been set, found due and cleared. -/
structure TimerSetting (T F : Type*) where
  task : T
  time : ℕ
  waiting : List (TimeoutEntry F)
  set : ℕ
  expired : ℕ
  cleared : ℕ

/-- The clock, the timeouts and the timers, and the entry a caller of `setTimeoutTime` has not put in the
list yet. The entries that were put in the list, cleared, found due and called are kept in the order in
which that happened, with the time and the hart. For each hart there is when it last looked for entries
that are due and how many had been set before, and how it last set its timer. -/
structure TimerState (H T F : Type*) where
  idle_task : H → T
  time : ℕ
  next_id : ℕ
  timeouts : List (TimeoutEntry F)
  creating : T → Option (TimeoutEntry F)
  phase : H → TimerPhase T F
  time_cmp : H → Option ℕ
  created : ℕ
  set : List (TimeoutEntry F)
  cleared : List (TimeoutEntry F)
  expired : List (ℕ × H × TimeoutEntry F)
  called : List (ℕ × H × TimeoutEntry F)
  looked_at : H → ℕ
  looked : H → ℕ
  setting : H → Option (TimerSetting T F)

inductive TimerAction (H T F : Type*) where
  | tick (n : ℕ)
  /-- The first section of `setTimeoutTime`. The time is any, as that of `setTimeout` comes from an older clock. -/
  | create (t : T) (time : ℕ) (function : Option F)
  /-- The second one. -/
  | insert (t : T)
  | clearTimeout (id : ℕ)
  | handleTimerInterrupt (h : H)
  | setPreemptionTimer (h : H) (task : T)
  | hart (h : H)

variable [DecidableEq H] [DecidableEq T]

namespace TimerState

def setPhase (s : TimerState H T F) (h : H) (phase : TimerPhase T F) : TimerState H T F :=
  { s with phase := Function.update s.phase h phase }

/-- The first loop of `handleTimerInterrupt`. -/
def expire (s : TimerState H T F) (h : H) (time : ℕ) : TimerState H T F :=
  { s with
    timeouts := (takeExpired time s.timeouts []).1
    phase := Function.update s.phase h (.call time (takeExpired time s.timeouts []).2)
    expired := s.expired ++ (takeExpired time s.timeouts []).2.map fun e => (time, h, e)
    looked_at := Function.update s.looked_at h time
    looked := Function.update s.looked h s.set.length }

/-- One round of its second loop. An entry without a function is only freed. -/
def call (s : TimerState H T F) (h : H) (time : ℕ) (e : TimeoutEntry F) (to_call : List (TimeoutEntry F)) :
    TimerState H T F :=
  { s with phase := Function.update s.phase h (.call time to_call), called := s.called ++ [(time, h, e)] }

def slice (s : TimerState H T F) (h : H) (task : T) : ℕ := preemptionTime (decide (s.idle_task h = task))

def preempt (s : TimerState H T F) (h : H) (time : ℕ) (task : T) : TimerState H T F :=
  let next := nextTime s.timeouts uint64Max
  let limit := (time + s.slice h task) % 2 ^ 64
  { s with
    phase := Function.update s.phase h .outside
    time_cmp := Function.update s.time_cmp h (some (if next < limit then next else limit))
    setting := Function.update s.setting h
      (some ⟨task, time, s.timeouts, s.set.length, s.expired.length, s.cleared.length⟩) }

/-- The next step of a hart that is in one of the two functions. -/
def hart (s : TimerState H T F) (h : H) : Option (TimerState H T F) :=
  match s.phase h with
  | .outside => none
  | .expire time => some (s.expire h time)
  | .call time (e :: to_call) => some (s.call h time e to_call)
  | .call _ [] => some (s.setPhase h .outside)
  | .preempt time task => some (s.preempt h time task)

def create (s : TimerState H T F) (t : T) (time : ℕ) (function : Option F) : TimerState H T F :=
  { s with
    next_id := (s.next_id + 1) % 2 ^ 64
    created := s.created + 1
    creating := Function.update s.creating t (some ⟨s.next_id, time, function⟩) }

def insert (s : TimerState H T F) (t : T) (e : TimeoutEntry F) : TimerState H T F :=
  { s with timeouts := e :: s.timeouts, set := s.set ++ [e], creating := Function.update s.creating t none }

def clearTimeout (s : TimerState H T F) (id : ℕ) : TimerState H T F :=
  { s with
    timeouts := s.timeouts.filter fun e => ! decide (e.id = id)
    cleared := s.cleared ++ s.timeouts.filter fun e => decide (e.id = id) }

/-- There are no timeouts, and no timer is set. -/
def initial (idle_task : H → T) : TimerState H T F where
  idle_task := idle_task
  time := 0
  next_id := 0
  timeouts := []
  creating _ := none
  phase _ := .outside
  time_cmp _ := none
  created := 0
  set := []
  cleared := []
  expired := []
  called := []
  looked_at _ := 0
  looked _ := 0
  setting _ := none

end TimerState

/-- A hart has its interrupts masked in both functions. -/
def timerStep (s : TimerState H T F) : TimerAction H T F → Option (TimerState H T F)
  | .tick n => some { s with time := s.time + n }
  | .create t time function => if (s.creating t).isNone then some (s.create t time function) else none
  | .insert t => (s.creating t).map (s.insert t)
  | .clearTimeout id => some (s.clearTimeout id)
  | .handleTimerInterrupt h => match s.phase h with
    | .outside => some (s.setPhase h (.expire s.time))
    | _ => none
  | .setPreemptionTimer h task => match s.phase h with
    | .outside => some (s.setPhase h (.preempt s.time task))
    | _ => none
  | .hart h => s.hart h

def InRange (s : TimerState H T F) : TimerAction H T F → Prop
  | .tick n => s.time + n + maxIdleTime < 2 ^ 64
  | .create _ _ _ => s.created + 1 < 2 ^ 64
  | _ => True

instance (s : TimerState H T F) : ∀ a, Decidable (InRange s a)
  | .tick _ => by unfold InRange; infer_instance
  | .create _ _ _ => by unfold InRange; infer_instance
  | .insert _ => isTrue trivial
  | .clearTimeout _ => isTrue trivial
  | .handleTimerInterrupt _ => isTrue trivial
  | .setPreemptionTimer _ _ => isTrue trivial
  | .hart _ => isTrue trivial

section Entries
omit [DecidableEq H] [DecidableEq T]
variable {es l : List (TimeoutEntry F)} {e : TimeoutEntry F} {time n : ℕ}

theorem takeExpired_kept : (takeExpired time es l).1 = es.filter fun e => ! decide (e.time ≤ time) := by
  fun_induction takeExpired time es l with
  | case1 => rfl
  | case2 l e es he ih => simpa [he] using ih
  | case3 l e es he ih => simpa [he] using ih

theorem takeExpired_due : (takeExpired time es l).2 = (es.filter fun e => decide (e.time ≤ time)).reverse ++ l := by
  fun_induction takeExpired time es l with
  | case1 => rfl
  | case2 l e es he ih => simpa [he] using ih
  | case3 l e es he ih => simpa [he] using ih

theorem mem_takeExpired_due (he : e ∈ (takeExpired time es []).2) : e.time ≤ time := by
  simp only [takeExpired_due, List.append_nil, List.mem_reverse, List.mem_filter, decide_eq_true_eq] at he
  exact he.2

theorem takeExpired_perm : ((takeExpired time es []).2 ++ (takeExpired time es []).1).Perm es := by
  simp only [takeExpired_due, takeExpired_kept, List.append_nil]
  exact ((List.reverse_perm _).append_right _).trans (List.filter_append_perm _ es)

theorem min_nextTime (limit : ℕ) : min (nextTime es n) limit = min n ((es.map TimeoutEntry.time).foldr min limit) := by
  fun_induction nextTime es n with
  | case1 => rfl
  | case2 e es n ih =>
    rw [ih, List.map_cons, List.foldr_cons]
    split_ifs <;> omega

theorem foldr_min_le (times : List ℕ) (limit : ℕ) : times.foldr min limit ≤ limit := by
  induction times with
  | nil => exact le_rfl
  | cons t times ih => exact (min_le_right _ _).trans ih

end Entries

def TimerPhase.pending (h : H) : TimerPhase T F → List (ℕ × H × TimeoutEntry F)
  | .call time to_call => to_call.map fun e => (time, h, e)
  | _ => []

namespace TimerState

def pending (s : TimerState H T F) (h : H) : List (ℕ × H × TimeoutEntry F) := (s.phase h).pending h

def ofHart (log : List (ℕ × H × TimeoutEntry F)) (h : H) : List (ℕ × H × TimeoutEntry F) :=
  log.filter fun x => decide (x.2.1 = h)

/-- The waiting timeouts are those that had been set and not found due or cleared, and the timer is that of
the first of them or of the end of the slice. -/
structure Sets (s : TimerState H T F) (h : H) (r : TimerSetting T F) : Prop where
  time_cmp : s.time_cmp h = some ((r.waiting.map TimeoutEntry.time).foldr min (r.time + s.slice h r.task))
  set : r.set ≤ s.set.length
  expired : r.expired ≤ s.expired.length
  cleared : r.cleared ≤ s.cleared.length
  waiting : ((s.expired.take r.expired).map (fun x => x.2.2) ++ s.cleared.take r.cleared ++ r.waiting).Perm (s.set.take r.set)

structure Timely (s : TimerState H T F) : Prop where
  next_id : s.next_id = s.created
  created_lt : s.created < 2 ^ 64
  time_lt : s.time + maxIdleTime < 2 ^ 64
  nodup : (s.set.map TimeoutEntry.id).Nodup
  set_lt : ∀ e ∈ s.set, e.id < s.created
  creating : ∀ t e, s.creating t = some e → e.id < s.created ∧ e.id ∉ s.set.map TimeoutEntry.id
  distinct : ∀ t t' e e', s.creating t = some e → s.creating t' = some e' → e.id = e'.id → t = t'
  accounted : (s.expired.map (fun x => x.2.2) ++ s.cleared ++ s.timeouts).Perm s.set
  due : ∀ x ∈ s.expired, x.2.2.time ≤ x.1 ∧ x.1 ≤ s.time
  delivered : ∀ h, ofHart s.expired h = ofHart s.called h ++ s.pending h
  looked_le : ∀ h, s.looked h ≤ s.set.length
  looked : ∀ h, ∀ e ∈ s.timeouts, e ∈ s.set.take (s.looked h) → s.looked_at h < e.time
  setting : ∀ h r, s.setting h = some r → s.Sets h r
  unset : ∀ h, s.setting h = none → s.time_cmp h = none
  expire_le : ∀ h time, s.phase h = .expire time → time ≤ s.time
  preempt_le : ∀ h time task, s.phase h = .preempt time task → time ≤ s.time

variable {s t : TimerState H T F}

omit [DecidableEq H] in
/-- What is set, found due or cleared later does not change how a timer was set. -/
theorem Sets.later {h : H} {r : TimerSetting T F} (hr : s.Sets h r) (hidle : t.idle_task = s.idle_task)
    (hcmp : t.time_cmp h = s.time_cmp h) (hset : s.set <+: t.set) (hexpired : s.expired <+: t.expired)
    (hcleared : s.cleared <+: t.cleared) : t.Sets h r := by
  obtain ⟨set, hset⟩ := hset
  obtain ⟨expired, hexpired⟩ := hexpired
  obtain ⟨cleared, hcleared⟩ := hcleared
  have hslice : t.slice h r.task = s.slice h r.task := by rw [slice, slice, hidle]
  refine ⟨by rw [hcmp, hslice, hr.time_cmp], ?_, ?_, ?_, ?_⟩
  · rw [← hset, List.length_append]
    exact Nat.le_add_right_of_le hr.set
  · rw [← hexpired, List.length_append]
    exact Nat.le_add_right_of_le hr.expired
  · rw [← hcleared, List.length_append]
    exact Nat.le_add_right_of_le hr.cleared
  · rw [← hset, ← hexpired, ← hcleared, List.take_append_of_le_length hr.set, List.take_append_of_le_length hr.expired,
      List.take_append_of_le_length hr.cleared]
    exact hr.waiting

theorem Timely.tick (hs : s.Timely) {n : ℕ} (hn : s.time + n + maxIdleTime < 2 ^ 64) : { s with time := s.time + n }.Timely :=
  { hs with
    time_lt := hn
    due := fun x hx => ⟨(hs.due x hx).1, Nat.le_add_right_of_le (hs.due x hx).2⟩
    expire_le := fun h time hphase => Nat.le_add_right_of_le (hs.expire_le h time hphase)
    preempt_le := fun h time task hphase => Nat.le_add_right_of_le (hs.preempt_le h time task hphase)
    setting := fun h r hr => (hs.setting h r hr).later rfl rfl List.prefix_rfl List.prefix_rfl List.prefix_rfl }

theorem Timely.create (hs : s.Timely) {t : T} {time : ℕ} {function : Option F} (hn : s.created + 1 < 2 ^ 64) :
    (s.create t time function).Timely :=
  { hs with
    next_id := by simpa only [TimerState.create, hs.next_id] using Nat.mod_eq_of_lt hn
    created_lt := hn
    set_lt := fun e he => Nat.lt_succ_of_lt (hs.set_lt e he)
    creating := fun t' e he => by
      by_cases ht : t' = t
      · subst ht
        obtain rfl : ⟨s.next_id, time, function⟩ = e := by simpa [TimerState.create] using he
        refine ⟨by simp [TimerState.create, hs.next_id], fun hmem => ?_⟩
        obtain ⟨e, he, hid⟩ := List.mem_map.mp hmem
        have hlt := hs.set_lt e he
        simp only [hs.next_id] at hid
        omega
      · have hold := hs.creating t' e (by simpa [TimerState.create, ht] using he)
        exact ⟨Nat.lt_succ_of_lt hold.1, hold.2⟩
    distinct := fun t₁ t₂ e₁ e₂ h₁ h₂ hid => by
      simp only [TimerState.create, Function.update_apply] at h₁ h₂
      split_ifs at h₁ h₂ with ht₁ ht₂ ht₂
      · exact ht₁.trans ht₂.symm
      · have hlt := (hs.creating t₂ e₂ h₂).1
        cases h₁
        simp only [hs.next_id] at hid
        omega
      · have hlt := (hs.creating t₁ e₁ h₁).1
        cases h₂
        simp only [hs.next_id] at hid
        omega
      · exact hs.distinct t₁ t₂ e₁ e₂ h₁ h₂ hid
    setting := fun h r hr => (hs.setting h r hr).later rfl rfl List.prefix_rfl List.prefix_rfl List.prefix_rfl }

theorem mem_take_set {set timeouts : List (TimeoutEntry F)} {e e' : TimeoutEntry F} {n : ℕ} (hn : n ≤ set.length)
    (he : e ∉ set) (hmem : e' ∈ e :: timeouts) (htake : e' ∈ (set ++ [e]).take n) : e' ∈ timeouts ∧ e' ∈ set.take n := by
  rw [List.take_append_of_le_length hn] at htake
  rcases List.mem_cons.mp hmem with rfl | hmem
  · exact absurd (List.mem_of_mem_take htake) he
  · exact ⟨hmem, htake⟩

theorem Timely.insert (hs : s.Timely) {t : T} {e : TimeoutEntry F} (he : s.creating t = some e) : (s.insert t e).Timely := by
  obtain ⟨hlt, hfresh⟩ := hs.creating t e he
  have hnotin : e ∉ s.set := fun hmem => hfresh (List.mem_map_of_mem hmem)
  have hother {t' : T} {e' : TimeoutEntry F} (h : Function.update s.creating t none t' = some e') :
      t' ≠ t ∧ s.creating t' = some e' := by
    by_cases ht : t' = t
    · simp [ht] at h
    · exact ⟨ht, by simpa [ht] using h⟩
  exact
    { hs with
      nodup := by
        simp only [TimerState.insert, List.map_append, List.map_singleton]
        exact List.nodup_append_comm.mp (List.nodup_cons.mpr ⟨hfresh, hs.nodup⟩)
      set_lt := fun e' he' => by
        rcases List.mem_append.mp he' with he' | he'
        · exact hs.set_lt e' he'
        · exact List.mem_singleton.mp he' ▸ hlt
      creating := fun t' e' he' => by
        obtain ⟨ht, he'⟩ := hother he'
        have hold := hs.creating t' e' he'
        refine ⟨hold.1, fun hmem => ?_⟩
        simp only [TimerState.insert, List.map_append, List.map_singleton, List.mem_append, List.mem_singleton] at hmem
        rcases hmem with hmem | hmem
        · exact hold.2 hmem
        · exact ht (hs.distinct t' t e' e he' he hmem)
      distinct := fun t₁ t₂ e₁ e₂ h₁ h₂ hid => hs.distinct t₁ t₂ e₁ e₂ (hother h₁).2 (hother h₂).2 hid
      accounted := by
        have hperm := (hs.accounted.cons e).trans (@List.perm_append_comm _ [e] _)
        exact List.perm_middle.trans hperm
      looked_le := fun h => (hs.looked_le h).trans (by simp [TimerState.insert])
      looked := fun h e' hmem htake => by
        obtain ⟨hmem, htake⟩ := mem_take_set (hs.looked_le h) hnotin hmem htake
        exact hs.looked h e' hmem htake
      setting := fun h r hr => (hs.setting h r hr).later rfl rfl (List.prefix_append _ _) List.prefix_rfl List.prefix_rfl }

theorem Timely.clearTimeout (hs : s.Timely) (id : ℕ) : (s.clearTimeout id).Timely :=
  { hs with
    accounted := by
      have hperm := List.filter_append_perm (fun e => decide (e.id = id)) s.timeouts
      refine List.Perm.trans ?_ hs.accounted
      simp only [TimerState.clearTimeout, List.append_assoc]
      exact (hperm.append_left _).append_left _
    looked := fun h e hmem htake => hs.looked h e (List.mem_filter.mp hmem).1 htake
    setting := fun h r hr => (hs.setting h r hr).later rfl rfl List.prefix_rfl List.prefix_rfl (List.prefix_append _ _) }

omit [DecidableEq T] in
theorem pending_phase {h : H} {phase : TimerPhase T F} (hphase : t.phase = Function.update s.phase h phase) (h' : H) :
    t.pending h' = if h' = h then phase.pending h else s.pending h' := by
  simp only [pending, hphase]
  split_ifs with hh
  · rw [hh, Function.update_self]
  · rw [Function.update_of_ne hh]

theorem Timely.setPhase (hs : s.Timely) {h : H} {phase : TimerPhase T F}
    (hpending : (s.setPhase h phase).pending h = s.pending h) (hexpire : ∀ time, phase = .expire time → time ≤ s.time)
    (hpreempt : ∀ time task, phase = .preempt time task → time ≤ s.time) : (s.setPhase h phase).Timely :=
  { hs with
    delivered := fun h' => by
      have hsame : (s.setPhase h phase).pending h' = s.pending h' := by
        by_cases hh : h' = h
        · rw [hh, hpending]
        · simp [pending, TimerState.setPhase, hh]
      rw [hsame]
      exact hs.delivered h'
    expire_le := fun h' time hphase => by
      by_cases hh : h' = h
      · exact hexpire time (by simpa [TimerState.setPhase, hh] using hphase)
      · exact hs.expire_le h' time (by simpa [TimerState.setPhase, hh] using hphase)
    preempt_le := fun h' time task hphase => by
      by_cases hh : h' = h
      · exact hpreempt time task (by simpa [TimerState.setPhase, hh] using hphase)
      · exact hs.preempt_le h' time task (by simpa [TimerState.setPhase, hh] using hphase)
    setting := fun h' r hr => (hs.setting h' r hr).later rfl rfl List.prefix_rfl List.prefix_rfl List.prefix_rfl }

theorem ofHart_append_map (log : List (ℕ × H × TimeoutEntry F)) (h h' : H) (time : ℕ) (es : List (TimeoutEntry F)) :
    ofHart (log ++ es.map fun e => (time, h, e)) h' =
      ofHart log h' ++ if h = h' then es.map (fun e => (time, h, e)) else [] := by
  simp only [ofHart, List.filter_append, List.filter_map, Function.comp_def]
  split_ifs with hh <;> simp [hh]

theorem Timely.expire (hs : s.Timely) {h : H} {time : ℕ} (hphase : s.phase h = .expire time) : (s.expire h time).Timely := by
  have htime := hs.expire_le h time hphase
  have hnone : s.pending h = [] := by simp [pending, hphase, TimerPhase.pending]
  have hstay {e : TimeoutEntry F} (he : e ∈ (s.expire h time).timeouts) : e ∈ s.timeouts ∧ time < e.time := by
    simpa [TimerState.expire, takeExpired_kept] using he
  have hnotin {phase : TimerPhase T F} {h' : H} (hne : ∀ time es, phase ≠ .call time es)
      (h₀ : (s.expire h time).phase h' = phase) : s.phase h' = phase := by
    by_cases hh : h' = h
    · subst hh
      exact absurd h₀.symm (by simpa [TimerState.expire] using hne _ _)
    · simpa [TimerState.expire, hh] using h₀
  exact
    { hs with
      accounted := by
        refine List.Perm.trans ?_ hs.accounted
        have hperm : ((takeExpired time s.timeouts []).2 ++ (takeExpired time s.timeouts []).1).Perm s.timeouts :=
          takeExpired_perm
        simp only [TimerState.expire, List.map_append, List.map_map, Function.comp_def, List.map_id', List.append_assoc]
        refine List.Perm.append_left _ (List.Perm.trans ?_ (hperm.append_left _))
        simp only [← List.append_assoc]
        exact List.perm_append_comm.append_right _
      due := fun x hx => by
        rcases List.mem_append.mp hx with hx | hx
        · exact hs.due x hx
        · obtain ⟨e, he, rfl⟩ := List.mem_map.mp hx
          exact ⟨mem_takeExpired_due he, htime⟩
      delivered := fun h' => by
        have hpending := pending_phase (s := s) (t := s.expire h time) rfl h'
        have hlog := ofHart_append_map s.expired h h' time (takeExpired time s.timeouts []).2
        have hold := hs.delivered h'
        by_cases hh : h' = h
        · subst hh
          rw [if_pos rfl] at hpending hlog
          rw [hnone, List.append_nil] at hold
          rw [hpending]
          exact hlog.trans (by rw [hold]; rfl)
        · rw [if_neg hh] at hpending
          rw [if_neg (Ne.symm hh), List.append_nil, hold] at hlog
          rw [hpending]
          exact hlog
      looked_le := fun h' => by
        by_cases hh : h' = h
        · simp [TimerState.expire, hh]
        · simpa [TimerState.expire, hh] using hs.looked_le h'
      looked := fun h' e he htake => by
        obtain ⟨hmem, hlt⟩ := hstay he
        by_cases hh : h' = h
        · simpa [TimerState.expire, hh] using hlt
        · have hold := hs.looked h' e hmem (by simpa [TimerState.expire, hh] using htake)
          simpa [TimerState.expire, hh] using hold
      setting := fun h' r hr => (hs.setting h' r hr).later rfl rfl List.prefix_rfl (List.prefix_append _ _) List.prefix_rfl
      expire_le := fun h' time' h₀ => hs.expire_le h' time' (hnotin (by simp) h₀)
      preempt_le := fun h' time' task h₀ => hs.preempt_le h' time' task (hnotin (by simp) h₀) }

theorem Timely.call (hs : s.Timely) {h : H} {time : ℕ} {e : TimeoutEntry F} {to_call : List (TimeoutEntry F)}
    (hphase : s.phase h = .call time (e :: to_call)) : (s.call h time e to_call).Timely := by
  have hnotin {phase : TimerPhase T F} {h' : H} (hne : ∀ time es, phase ≠ .call time es)
      (h₀ : (s.call h time e to_call).phase h' = phase) : s.phase h' = phase := by
    by_cases hh : h' = h
    · subst hh
      exact absurd h₀.symm (by simpa [TimerState.call] using hne _ _)
    · simpa [TimerState.call, hh] using h₀
  exact
    { hs with
      delivered := fun h' => by
        have hpending := pending_phase (s := s) (t := s.call h time e to_call) rfl h'
        have hlog := ofHart_append_map s.called h h' time [e]
        have hold := hs.delivered h'
        refine hold.trans ?_
        by_cases hh : h' = h
        · subst hh
          rw [if_pos rfl] at hpending hlog
          have hfirst : s.pending h' = (time, h', e) :: to_call.map fun e =>
            (time, h', e) := by simp [pending, hphase, TimerPhase.pending]
          rw [hpending, hfirst]
          have hcalled : (s.call h' time e to_call).called = s.called ++ [(time, h', e)] := rfl
          simpa [hcalled, TimerPhase.pending] using congrArg (· ++ to_call.map fun e => (time, h', e)) hlog.symm
        · rw [if_neg hh] at hpending
          rw [if_neg (Ne.symm hh), List.append_nil] at hlog
          rw [hpending]
          exact congrArg (· ++ s.pending h') hlog.symm
      setting := fun h' r hr => (hs.setting h' r hr).later rfl rfl List.prefix_rfl List.prefix_rfl List.prefix_rfl
      expire_le := fun h' time' h₀ => hs.expire_le h' time' (hnotin (by simp) h₀)
      preempt_le := fun h' time' task h₀ => hs.preempt_le h' time' task (hnotin (by simp) h₀) }

theorem Timely.sets (hs : s.Timely) {h : H} {time : ℕ} {task : T} (htime : time ≤ s.time) :
    (s.preempt h time task).Sets h ⟨task, time, s.timeouts, s.set.length, s.expired.length, s.cleared.length⟩ := by
  have hclock := hs.time_lt
  have hslice : s.slice h task ≤ maxIdleTime := by
    unfold slice
    cases decide (s.idle_task h = task) <;> decide
  have hlimit : (time + s.slice h task) % 2 ^ 64 = time + s.slice h task := Nat.mod_eq_of_lt (by omega)
  have hmax : uint64Max = 2 ^ 64 - 1 := rfl
  have hle := foldr_min_le (s.timeouts.map TimeoutEntry.time) (time + s.slice h task)
  refine ⟨?_, le_rfl, le_rfl, le_rfl, ?_⟩
  · have hmin := @min_nextTime _ s.timeouts uint64Max (time + s.slice h task)
    have hsame : (s.preempt h time task).slice h task = s.slice h task := rfl
    simp only [TimerState.preempt, Function.update_self, hlimit]
    rw [show (if nextTime s.timeouts uint64Max < time + s.slice h task then nextTime s.timeouts uint64Max
      else time + s.slice h task) = min (nextTime s.timeouts uint64Max) (time + s.slice h task) by split_ifs <;> omega, hmin]
    rw [min_eq_right (by omega)]
    rfl
  · simpa [TimerState.preempt] using hs.accounted

theorem Timely.preempt (hs : s.Timely) {h : H} {time : ℕ} {task : T} (hphase : s.phase h = .preempt time task) :
    (s.preempt h time task).Timely := by
  have htime := hs.preempt_le h time task hphase
  have hnotin {phase : TimerPhase T F} {h' : H} (hne : phase ≠ .outside) (h₀ : (s.preempt h time task).phase h' = phase) :
      s.phase h' = phase := by
    by_cases hh : h' = h
    · subst hh
      exact absurd h₀.symm (by simpa [TimerState.preempt] using hne)
    · simpa [TimerState.preempt, hh] using h₀
  exact
    { hs with
      delivered := fun h' => by
        have hpending := pending_phase (s := s) (t := s.preempt h time task) rfl h'
        have hold := hs.delivered h'
        by_cases hh : h' = h
        · subst hh
          rw [if_pos rfl] at hpending
          have hnone : s.pending h' = [] := by simp only [pending, hphase, TimerPhase.pending]
          rw [hnone] at hold
          rw [hpending]
          exact hold
        · rw [if_neg hh] at hpending
          rw [hpending]
          exact hold
      setting := fun h' r hr => by
        by_cases hh : h' = h
        · subst hh
          have hset : (s.preempt h' time task).setting h' =
              some ⟨task, time, s.timeouts, s.set.length, s.expired.length, s.cleared.length⟩ := Function.update_self ..
          obtain rfl := Option.some_injective _ (hset.symm.trans hr)
          exact hs.sets htime
        · have hold := hs.setting h' r (by simpa [TimerState.preempt, hh] using hr)
          refine hold.later rfl ?_ List.prefix_rfl List.prefix_rfl List.prefix_rfl
          simp [TimerState.preempt, hh]
      unset := fun h' hr => by
        by_cases hh : h' = h
        · simp [TimerState.preempt, hh] at hr
        · have hold := hs.unset h' (by simpa [TimerState.preempt, hh] using hr)
          simpa [TimerState.preempt, hh] using hold
      expire_le := fun h' time' h₀ => hs.expire_le h' time' (hnotin (by simp) h₀)
      preempt_le := fun h' time' task' h₀ => hs.preempt_le h' time' task' (hnotin (by simp) h₀) }

theorem Timely.hart (hs : s.Timely) {h : H} (hstep : s.hart h = some t) : t.Timely := by
  unfold TimerState.hart at hstep
  split at hstep
  · cases hstep
  · next time hphase => exact Option.some_injective _ hstep ▸ hs.expire hphase
  · next time e to_call hphase => exact Option.some_injective _ hstep ▸ hs.call hphase
  · next time hphase =>
    refine Option.some_injective _ hstep ▸ hs.setPhase ?_ (by simp) (by simp)
    simp [pending, TimerState.setPhase, hphase, TimerPhase.pending]
  · next time task hphase => exact Option.some_injective _ hstep ▸ hs.preempt hphase

theorem Timely.step (hs : s.Timely) {a : TimerAction H T F} (hok : InRange s a) (hstep : timerStep s a = some t) : t.Timely := by
  cases a with
  | tick n =>
    cases hstep
    exact hs.tick hok
  | create t time function =>
    simp only [timerStep] at hstep
    split_ifs at hstep
    cases hstep
    exact hs.create hok
  | insert t =>
    obtain ⟨e, he, rfl⟩ := Option.map_eq_some_iff.mp hstep
    exact hs.insert he
  | clearTimeout id =>
    cases hstep
    exact hs.clearTimeout id
  | handleTimerInterrupt h =>
    simp only [timerStep] at hstep
    split at hstep
    · next hphase =>
      cases hstep
      exact hs.setPhase (by simp [pending, TimerState.setPhase, hphase, TimerPhase.pending])
        (fun time heq => by cases heq; exact le_rfl) (by simp)
    · cases hstep
  | setPreemptionTimer h task =>
    simp only [timerStep] at hstep
    split at hstep
    · next hphase =>
      cases hstep
      exact hs.setPhase (by simp [pending, TimerState.setPhase, hphase, TimerPhase.pending]) (by simp)
        (fun time task heq => by cases heq; exact le_rfl)
    · cases hstep
  | hart h => exact hs.hart hstep

variable {actions : List (TimerAction H T F)}

section Runs

local instance two_timed : NeZero 2 := ⟨by decide⟩

end Runs

end TimerState

end SomeOs.Harts

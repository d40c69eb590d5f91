import SomeOs.Task.TaskLock

/-! # Task locks are re-entrant mutexes

What a task knows of the lock depends on its place in a function and on whether it is the owner.
Nobody else makes a task the owner or takes the lock away from it, so the reads and writes
outside of the inner lock are safe.
-/
namespace SomeOs.Tasks
open Transition
variable {T H : Type*} [DecidableEq T] [DecidableEq H]

section Places
variable {sched sched' : Scheduler T H} {control : H → Option T} {t : T} {h : H} {priority : ℕ}

omit [DecidableEq T] in
theorem Placed.left {h' : H} {x : T} (hp : Placed sched control) (ht : control h = some t)
    (hx : Function.update control h none h' = some x) : control h' = some x ∧ x ≠ t := by
  by_cases hh : h' = h
  · rw [hh, Function.update_self] at hx
    cases hx
  · rw [Function.update_of_ne hh] at hx
    refine ⟨hx, ?_⟩
    rintro rfl
    exact hh (hp.single h' h x hx ht)

/-- A task that leaves its hart is moved to the waiting list. -/
theorem Placed.park (hp : Placed sched control) (ht : control h = some t) :
    ∃ sched', sched.park h t = some sched' ∧ sched'.state = Function.update sched.state t .waiting ∧
      sched'.waiting = t :: sched.waiting ∧ Placed sched' (Function.update control h none) := by
  have hrun := hp.running h t ht
  have hmove : sched.moveTaskToState t .waiting = some (sched.setState t .waiting) := by
    rw [Scheduler.moveTaskToState_eq (by rw [hrun]; decide), Scheduler.changeState, if_pos (by rw [hrun]; decide)]
  refine ⟨(sched.setState t .waiting).addWaitingTask t, ?_, rfl, rfl, ?_⟩
  · unfold Scheduler.park
    rw [hmove, Option.bind_some]
    unfold Scheduler.enqueueTask
    rw [Scheduler.setState_self]
  · have hstate : ∀ x, ((sched.setState t .waiting).addWaitingTask t).state x =
        if x = t then .waiting else sched.state x := fun x => Function.update_apply ..
    refine ⟨?_, ?_, ?_, hp.queues, hp.queue_unique, ?_, ?_⟩
    · intro h' x hx
      obtain ⟨hx, hne⟩ := hp.left ht hx
      rw [hstate, if_neg hne]
      exact hp.running h' x hx
    · intro h₁ h₂ x h1 h2
      exact hp.single h₁ h₂ x (hp.left ht h1).1 (hp.left ht h2).1
    · intro q x hx
      have hready := hp.ready q x hx
      rw [hstate, if_neg]
      · exact hready
      · rintro rfl
        rw [hrun] at hready
        cases hready
    · intro x
      rw [hstate]
      show x ∈ t :: sched.waiting ↔ _
      rw [List.mem_cons, hp.waiting]
      split_ifs with hx <;> simp [hx]
    · show (t :: sched.waiting).Nodup
      refine List.nodup_cons.mpr ⟨?_, hp.waiting_nodup⟩
      rw [hp.waiting, hrun]
      decide

/-- An enquable task that is nowhere is put into a queue. -/
theorem Placed.enqueue (hp : Placed sched control) (hstate : sched.state t = .enquable) :
    ∃ sched', sched.enqueueTask h t priority = some sched' ∧ sched'.state = Function.update sched.state t .ready ∧
      sched'.waiting = sched.waiting ∧ Placed sched' control := by
  refine ⟨_, Scheduler.enqueueTask_enquable hstate, rfl, rfl, ?_⟩
  set q := (sched.hart t).getD h with hq
  have hst : ∀ x, (((sched.setState t .ready).pushTaskToQueue q t priority).state x) =
      if x = t then .ready else sched.state x := fun x => Function.update_apply ..
  have hnot : ∀ r, t ∉ sched.queue r := by
    intro r hr
    rw [hp.ready r t hr] at hstate
    cases hstate
  refine ⟨?_, hp.single, ?_, ?_, ?_, ?_, hp.waiting_nodup⟩
  · intro h' x hx
    have hrun := hp.running h' x hx
    rw [hst, if_neg]
    · exact hrun
    · rintro rfl
      rw [hstate] at hrun
      cases hrun
  · intro r x hx
    rw [hst]
    split_ifs with hxt
    · rfl
    · rcases Scheduler.mem_pushTaskToQueue.mp hx with ⟨hx, -⟩ | hx
      · exact absurd hx hxt
      · exact hp.ready r x hx
  · exact Scheduler.nodup_pushTaskToQueue hp.queues (hnot q)
  · intro x r r' hr hr'
    rcases Scheduler.mem_pushTaskToQueue.mp hr with ⟨rfl, rfl⟩ | hr
    · rcases Scheduler.mem_pushTaskToQueue.mp hr' with ⟨-, rfl⟩ | hr'
      · rfl
      · exact absurd hr' (hnot r')
    · rcases Scheduler.mem_pushTaskToQueue.mp hr' with ⟨rfl, rfl⟩ | hr'
      · exact absurd hr (hnot r)
      · exact hp.queue_unique x r r' hr hr'
  · intro x
    rw [hst]
    show x ∈ sched.waiting ↔ _
    rw [hp.waiting]
    split_ifs with hxt
    · subst hxt
      rw [hstate]
      simp
    · rfl

/-- A task is taken from the waiting list to a queue. -/
theorem Placed.wake (hp : Placed sched control) (ht : t ∈ sched.waiting) :
    ∃ sched', sched.wake h t priority = some sched' ∧ sched'.state = Function.update sched.state t .ready ∧
      sched'.waiting = sched.waiting.erase t ∧ Placed sched' control := by
  have hwait := (hp.waiting t).mp ht
  set s₁ : Scheduler T H := Scheduler.setState { sched with waiting := sched.waiting.erase t } t .enquable with hs₁
  have hst : ∀ x, s₁.state x = if x = t then .enquable else sched.state x := fun x => Function.update_apply ..
  have hp₁ : Placed s₁ control := by
    refine ⟨?_, hp.single, ?_, hp.queues, hp.queue_unique, ?_, hp.waiting_nodup.erase t⟩
    · intro h' x hx
      have hrun := hp.running h' x hx
      rw [hst, if_neg]
      · exact hrun
      · rintro rfl
        rw [hwait] at hrun
        cases hrun
    · intro q x hx
      have hready := hp.ready q x hx
      rw [hst, if_neg]
      · exact hready
      · rintro rfl
        rw [hwait] at hready
        cases hready
    · intro x
      show x ∈ sched.waiting.erase t ↔ _
      rw [hp.waiting_nodup.mem_erase_iff, hst, hp.waiting]
      split_ifs with hx <;> simp [hx]
  obtain ⟨sched', he, hstate', hwait', hp'⟩ := @Placed.enqueue _ _ _ _ s₁ control t h priority hp₁ (by rw [hst, if_pos rfl])
  refine ⟨sched', ?_, ?_, hwait', hp'⟩
  · unfold Scheduler.wake
    rw [Scheduler.awakenTask_eq ht hwait, Option.bind_some]
    exact he
  · rw [hstate']
    exact Function.update_idem ..

/-- All tasks that wait for the lock are taken from the waiting list. -/
theorem Placed.wakeAll (priority : T → ℕ) (l : List T) (hl : l.Nodup) (hp : Placed sched control)
    (hmem : ∀ t ∈ l, t ∈ sched.waiting) :
    ∃ sched', Scheduler.wakeAll h priority l sched = some sched' ∧
      (∀ x, sched'.state x = if x ∈ l then .ready else sched.state x) ∧ Placed sched' control := by
  induction l generalizing sched with
  | nil => exact ⟨sched, rfl, fun x => by simp, hp⟩
  | cons t rest ih =>
    obtain ⟨hnot, hrest⟩ := List.nodup_cons.mp hl
    obtain ⟨s₁, h1, hst₁, hwait₁, hp₁⟩ :=
      @Placed.wake _ _ _ _ _ _ t h (priority t) hp (hmem t List.mem_cons_self)
    have hmem₁ : ∀ x ∈ rest, x ∈ s₁.waiting := by
      intro x hx
      rw [hwait₁, hp.waiting_nodup.mem_erase_iff]
      refine ⟨?_, hmem x (List.mem_cons_of_mem _ hx)⟩
      rintro rfl
      exact hnot hx
    obtain ⟨sched', h2, hst', hp'⟩ := ih hrest hp₁ hmem₁
    refine ⟨sched', ?_, ?_, hp'⟩
    · simp only [Scheduler.wakeAll, h1, Option.bind_some, h2]
    · intro x
      rw [hst', hst₁, Function.update_apply]
      by_cases hxt : x = t
      · subst hxt
        simp [hnot]
      · simp [hxt]

/-- A hart goes on with the first task of a queue. -/
theorem Placed.run {q : H} {s₁ : Scheduler T H} (hp : Placed sched control) (hfree : control h = none)
    (hpull : sched.pullTaskFromQueue q = some (t, s₁)) :
    ∃ sched', s₁.moveTaskToState t .running = some sched' ∧ sched.state t = .ready ∧
      sched'.state = Function.update sched.state t .running ∧ sched'.waiting = sched.waiting ∧
      Placed { sched' with hart := Function.update sched'.hart t (some h) } (Function.update control h (some t)) := by
  obtain ⟨rest, hq, rfl⟩ := Scheduler.pullTaskFromQueue_eq hpull
  have hin : t ∈ sched.queue q := by rw [hq]; exact List.mem_cons_self
  have hready := hp.ready q t hin
  have hsub : ∀ r x, x ∈ Function.update sched.queue q rest r → x ∈ sched.queue r ∧ x ≠ t := by
    intro r x hx
    by_cases hr : r = q
    · subst hr
      rw [Function.update_self] at hx
      refine ⟨by rw [hq]; exact List.mem_cons_of_mem _ hx, ?_⟩
      rintro rfl
      have hnodup := hp.queues r
      rw [hq] at hnodup
      exact (List.nodup_cons.mp hnodup).1 hx
    · rw [Function.update_of_ne hr] at hx
      refine ⟨hx, ?_⟩
      rintro rfl
      exact hr (hp.queue_unique x r q hx hin)
  refine ⟨Scheduler.setState { sched with queue := Function.update sched.queue q rest } t .running, ?_, hready, rfl, rfl, ?_⟩
  · rw [Scheduler.moveTaskToState_eq (by dsimp only; rw [hready]; decide), Scheduler.changeState,
      if_pos (by dsimp only; rw [hready]; decide)]
  · have hst : ∀ x, (Scheduler.setState { sched with queue := Function.update sched.queue q rest } t .running).state x =
        if x = t then .running else sched.state x := fun x => Function.update_apply ..
    have hcontrol : ∀ h' x, Function.update control h (some t) h' = some x →
        (h' = h ∧ x = t) ∨ (control h' = some x ∧ x ≠ t) := by
      intro h' x hx
      by_cases hh : h' = h
      · rw [hh, Function.update_self] at hx
        exact Or.inl ⟨hh, (Option.some.inj hx).symm⟩
      · rw [Function.update_of_ne hh] at hx
        refine Or.inr ⟨hx, ?_⟩
        rintro rfl
        rw [hp.running h' x hx] at hready
        cases hready
    refine ⟨?_, ?_, ?_, ?_, ?_, ?_, hp.waiting_nodup⟩
    · intro h' x hx
      dsimp only
      rw [hst]
      rcases hcontrol h' x hx with ⟨-, rfl⟩ | ⟨hx, hne⟩
      · rw [if_pos rfl]
      · rw [if_neg hne]
        exact hp.running h' x hx
    · intro h₁ h₂ x h1 h2
      rcases hcontrol h₁ x h1 with ⟨rfl, rfl⟩ | ⟨h1, hne⟩
      · rcases hcontrol h₂ x h2 with ⟨rfl, -⟩ | ⟨-, hne⟩
        · rfl
        · exact absurd rfl hne
      · rcases hcontrol h₂ x h2 with ⟨-, rfl⟩ | ⟨h2, -⟩
        · exact absurd rfl hne
        · exact hp.single h₁ h₂ x h1 h2
    · intro r x hx
      obtain ⟨hx, hne⟩ := hsub r x hx
      dsimp only
      rw [hst, if_neg hne]
      exact hp.ready r x hx
    · intro r
      show (Function.update sched.queue q rest r).Nodup
      by_cases hr : r = q
      · subst hr
        rw [Function.update_self]
        have hnodup := hp.queues r
        rw [hq] at hnodup
        exact (List.nodup_cons.mp hnodup).2
      · rw [Function.update_of_ne hr]
        exact hp.queues r
    · intro x r r' hr hr'
      exact hp.queue_unique x r r' (hsub r x hr).1 (hsub r' x hr').1
    · intro x
      dsimp only
      rw [hst]
      show x ∈ sched.waiting ↔ _
      rw [hp.waiting]
      split_ifs with hx
      · subst hx
        rw [hready]
        simp
      · rfl

/-- A task leaves its hart and is put into a queue. -/
theorem Placed.preempt (hp : Placed sched control) (ht : control h = some t) :
    ∃ sched', ((sched.moveTaskToState t .enquable).bind fun s => s.enqueueTask h t priority) = some sched' ∧
      sched'.state = Function.update sched.state t .ready ∧ sched'.waiting = sched.waiting ∧
      Placed sched' (Function.update control h none) := by
  have hrun := hp.running h t ht
  have hmove : sched.moveTaskToState t .enquable = some (sched.setState t .enquable) := by
    rw [Scheduler.moveTaskToState_eq (by rw [hrun]; decide), Scheduler.changeState, if_pos (by rw [hrun]; decide)]
  have hst : ∀ x, (sched.setState t .enquable).state x = if x = t then .enquable else sched.state x :=
    fun x => Function.update_apply ..
  have hp₁ : Placed (sched.setState t .enquable) (Function.update control h none) := by
    refine ⟨?_, ?_, ?_, hp.queues, hp.queue_unique, ?_, hp.waiting_nodup⟩
    · intro h' x hx
      obtain ⟨hx, hne⟩ := hp.left ht hx
      rw [hst, if_neg hne]
      exact hp.running h' x hx
    · intro h₁ h₂ x h1 h2
      exact hp.single h₁ h₂ x (hp.left ht h1).1 (hp.left ht h2).1
    · intro q x hx
      have hready := hp.ready q x hx
      rw [hst, if_neg]
      · exact hready
      · rintro rfl
        rw [hrun] at hready
        cases hready
    · intro x
      rw [hst]
      show x ∈ sched.waiting ↔ _
      rw [hp.waiting]
      split_ifs with hx
      · subst hx
        rw [hrun]
        simp
      · rfl
  obtain ⟨sched', he, hstate', hwait', hp'⟩ :=
    @Placed.enqueue _ _ _ _ _ _ t h priority hp₁ Scheduler.setState_self
  refine ⟨sched', ?_, ?_, hwait', hp'⟩
  · rw [hmove, Option.bind_some]
    exact he
  · rw [hstate']
    exact Function.update_idem ..

end Places

/-- What a task knows at its place in a function, of being the owner and of its calls. -/
def PhaseOk (own : Prop) (calls : ℕ) : LockPhase → Prop
  | .outside | .start _ => own → 0 < calls
  | .acquire _ => ¬own
  | .load _ => own
  | .store _ n => own ∧ n = calls
  | .returned .lock _ => own ∧ 0 < calls
  | .returned .tryLock result => (result = true ↔ own) ∧ (own → 0 < calls)
  | .unlockLoad => own ∧ 0 < calls
  | .unlockStore n => own ∧ n = calls ∧ 0 < calls
  | .unlockTest => own
  | .release => own ∧ calls = 0

structure LockOk (s : LockState T H) : Prop where
  placed : Placed s.sched s.control
  phases : ∀ t, PhaseOk (s.lockedBy = some t) (s.calls t) (s.phase t)
  owner : ∀ t, 0 < s.calls t → s.lockedBy = some t
  count : ∀ t, s.lockedBy = some t → s.numLocks = s.calls t
  count_free : s.lockedBy = none → s.numLocks = 0
  queue_nodup : s.waitQueue.Nodup
  waits : ∀ t, t ∈ s.waitQueue ↔ s.Blocked t
  free : s.lockedBy = none → s.waitQueue = []

section Steps
variable {s s' : LockState T H} {t : T} {h : H}

omit [DecidableEq T] [DecidableEq H] in
theorem LockOk.not_blocked (hk : LockOk s) (ht : s.control h = some t) : ¬s.Blocked t := by
  rintro ⟨-, hwait⟩
  rw [hk.placed.running h t ht] at hwait
  cases hwait

omit [DecidableEq T] [DecidableEq H] in
theorem LockOk.reschedule (hk : LockOk s) {sched : Scheduler T H} {control : H → Option T}
    (hp : Placed sched control)
    (hsame : ∀ x, s.phase x = .acquire .lock → (sched.state x = .waiting ↔ s.sched.state x = .waiting)) :
    LockOk { s with sched := sched, control := control } where
  placed := hp
  phases := hk.phases
  owner := hk.owner
  count := hk.count
  count_free := hk.count_free
  queue_nodup := hk.queue_nodup
  waits x := by
    rw [hk.waits]
    exact and_congr_right fun hx => (hsame x hx).symm
  free := hk.free

omit [DecidableEq H] in
/-- A task on a hart goes to another place of its function, and may become the owner or change the
counter as the owner. -/
theorem LockOk.advance {n : ℕ} {lockedBy : Option T} {calls : ℕ} {phase : LockPhase} (hk : LockOk s)
    (ht : s.control h = some t) (hphase : PhaseOk (lockedBy = some t) calls phase)
    (howner : lockedBy = s.lockedBy ∨ s.lockedBy = none ∧ lockedBy = some t)
    (hcalls : 0 < calls → lockedBy = some t)
    (hcount : if lockedBy = some t then n = calls else calls = s.calls t ∧ n = s.numLocks) :
    LockOk { s with
      lockedBy := lockedBy, numLocks := n, calls := Function.update s.calls t calls
      phase := Function.update s.phase t phase } := by
  have hother : ∀ x, x ≠ t → (lockedBy = some x ↔ s.lockedBy = some x) := by
    intro x hx
    rcases howner with rfl | ⟨hnone, rfl⟩
    · rfl
    · rw [hnone]
      simp [Ne.symm hx]
  have hnotT := hk.not_blocked ht
  refine ⟨hk.placed, ?_, ?_, ?_, ?_, hk.queue_nodup, ?_, ?_⟩
  · intro x
    by_cases hx : x = t
    · subst hx
      simpa using hphase
    · simpa [hx, hother x hx] using hk.phases x
  · intro x
    by_cases hx : x = t
    · subst hx
      simpa using hcalls
    · simpa [hx, hother x hx] using hk.owner x
  · intro x hown
    by_cases hx : x = t
    · subst hx
      rw [if_pos hown] at hcount
      simpa using hcount
    · have hnot : lockedBy ≠ some t := by
        intro h
        rw [h] at hown
        exact hx (Option.some.inj hown).symm
      rw [if_neg hnot] at hcount
      simpa [hx, hcount.2] using hk.count x ((hother x hx).mp hown)
  · intro hnone
    dsimp only at hnone
    subst hnone
    rcases howner with howner | ⟨-, howner⟩
    · rw [if_neg (by simp)] at hcount
      rw [hcount.2]
      exact hk.count_free howner.symm
    · cases howner
  · intro x
    rw [hk.waits]
    by_cases hx : x = t
    · subst hx
      refine iff_of_false hnotT ?_
      rintro ⟨-, hwait⟩
      change s.sched.state x = _ at hwait
      rw [hk.placed.running h x ht] at hwait
      cases hwait
    · simp only [LockState.Blocked, Function.update_of_ne hx]
  · intro hnone
    rcases howner with howner | ⟨-, howner⟩
    · exact hk.free (howner.symm.trans hnone)
    · dsimp only at hnone
      rw [howner] at hnone
      cases hnone

omit [DecidableEq H] in
theorem LockOk.setPhase {phase : LockPhase} (hk : LockOk s) (ht : s.control h = some t)
    (hphase : PhaseOk (s.lockedBy = some t) (s.calls t) phase) : LockOk (s.setPhase t phase) := by
  have hcount : if s.lockedBy = some t then s.numLocks = s.calls t else s.calls t = s.calls t ∧ s.numLocks = s.numLocks := by
    split_ifs with hown
    · exact hk.count t hown
    · exact ⟨rfl, rfl⟩
  have hstep := hk.advance ht hphase (Or.inl rfl) (hk.owner t) hcount
  rwa [Function.update_eq_self] at hstep

omit [DecidableEq H] in
theorem LockOk.take {kind : LockKind} (hk : LockOk s) (ht : s.control h = some t) (hfree : s.lockedBy = none) :
    LockOk ((s.basicLockByTask t).setPhase t (.load kind)) := by
  have hzero : s.calls t = 0 := by
    by_contra hne
    have := hk.owner t (Nat.pos_of_ne_zero hne)
    rw [hfree] at this
    cases this
  have hphase : PhaseOk (some t = some t) (s.calls t) (.load kind) := rfl
  have hcount : if some t = some t then s.numLocks = s.calls t else s.calls t = s.calls t ∧ s.numLocks = s.numLocks := by
    rw [if_pos rfl, hzero]
    exact hk.count_free hfree
  have hstep := hk.advance ht hphase (Or.inr ⟨hfree, rfl⟩) (fun _ => rfl) hcount
  rwa [Function.update_eq_self] at hstep

theorem LockOk.wait (hk : LockOk s) (ht : s.control h = some t) (hphase : s.phase t = .acquire .lock)
    (htaken : s.lockedBy ≠ none) : ∃ s', s.waitForTaskLock h t = some s' ∧ LockOk s' := by
  obtain ⟨sched, hpark, hstate, -, hp⟩ := hk.placed.park ht
  refine ⟨_, by unfold LockState.waitForTaskLock; rw [hpark]; rfl, ?_⟩
  refine ⟨hp, hk.phases, hk.owner, hk.count, hk.count_free, ?_, ?_, fun hnone => absurd hnone htaken⟩
  · exact List.nodup_cons.mpr ⟨fun hin => hk.not_blocked ht ((hk.waits t).mp hin), hk.queue_nodup⟩
  · intro x
    show x ∈ t :: s.waitQueue ↔ s.phase x = .acquire .lock ∧ sched.state x = .waiting
    rw [List.mem_cons, hk.waits, hstate, Function.update_apply]
    by_cases hx : x = t
    · subst hx
      simp [hphase]
    · simp only [hx, false_or, if_false]
      rfl

/-- The owner gives the lock up, and every task that waits for it is woken. -/
theorem LockOk.release (hk : LockOk s) (ht : s.control h = some t) (hphase : s.phase t = .release) (priority : T → ℕ) :
    ∃ s', s.unlockAndWake h t priority = some s' ∧ LockOk s' := by
  have hown : s.lockedBy = some t ∧ s.calls t = 0 := by
    have := hk.phases t
    rwa [hphase] at this
  have hmem : ∀ x ∈ s.waitQueue, x ∈ s.sched.waiting := fun x hx => (hk.placed.waiting x).mpr ((hk.waits x).mp hx).2
  obtain ⟨sched, hwake, hstate, hp⟩ := @Placed.wakeAll _ _ _ _ _ _ h priority _ hk.queue_nodup hk.placed hmem
  have hzero : ∀ x, s.calls x = 0 := by
    intro x
    by_contra hne
    have hx := hk.owner x (Nat.pos_of_ne_zero hne)
    rw [hown.1] at hx
    cases hx
    exact hne hown.2
  refine ⟨_, by unfold LockState.unlockAndWake; rw [hwake]; rfl, hp, ?_, ?_, ?_, ?_, List.nodup_nil, ?_, fun _ => rfl⟩
  · intro x
    by_cases hx : x = t
    · subst hx
      simp [LockState.setPhase, PhaseOk]
    · have hnot : s.lockedBy ≠ some x := by
        rw [hown.1]
        simpa using Ne.symm hx
      simpa [LockState.setPhase, hx, hnot] using hk.phases x
  · intro x hpos
    exact absurd hpos (by simp [LockState.setPhase, hzero x])
  · intro x hx
    cases hx
  · intro _
    exact (hk.count t hown.1).trans hown.2
  · -- Every task that was blocked is ready now.
    intro x
    refine iff_of_false (by simp [LockState.setPhase]) ?_
    rintro ⟨hx, hwait⟩
    change Function.update s.phase t .outside x = _ at hx
    change sched.state x = _ at hwait
    rw [hstate] at hwait
    split_ifs at hwait with hin
    have hxt : x ≠ t := by
      rintro rfl
      rw [Function.update_self] at hx
      cases hx
    rw [Function.update_of_ne hxt] at hx
    exact hin ((hk.waits x).mpr ⟨hx, hwait⟩)

/-- The function that a task has called never fails, in an assertion or otherwise. -/
theorem LockOk.advances (hk : LockOk s) (ht : s.control h = some t) (hphase : s.phase t ≠ .outside) (priority : T → ℕ) :
    ∃ s', s.advance h t priority = some s' ∧ LockOk s' := by
  have hok := hk.phases t
  unfold LockState.advance
  cases hp : s.phase t with
  | outside => exact absurd hp hphase
  | start kind =>
    rw [hp] at hok
    refine ⟨_, rfl, hk.setPhase ht ?_⟩
    split_ifs with hown
    · exact hown
    · exact hown
  | acquire kind =>
    rw [hp] at hok
    cases kind with
    | lock =>
      dsimp only [LockState.lockOrWaitTaskLock]
      split_ifs with hfree
      · exact ⟨_, rfl, hk.take ht hfree⟩
      · exact hk.wait ht hp hfree
    | tryLock =>
      dsimp only [LockState.lockOrFail]
      split_ifs with hfree
      · exact ⟨_, rfl, hk.take ht hfree⟩
      · have hnot : s.lockedBy ≠ some t := hok
        exact ⟨_, rfl, hk.setPhase ht ⟨by simpa using hnot, fun hown => absurd hown hnot⟩⟩
  | load kind =>
    rw [hp] at hok
    exact ⟨_, rfl, hk.setPhase ht ⟨hok, hk.count t hok⟩⟩
  | store kind n =>
    rw [hp] at hok
    obtain ⟨hown, rfl⟩ := hok
    refine ⟨_, rfl, hk.advance ht ?_ (Or.inl rfl) (fun _ => hown) (by rw [if_pos hown])⟩
    cases kind with
    | lock => exact ⟨hown, Nat.succ_pos _⟩
    | tryLock => exact ⟨by simp [hown], fun _ => Nat.succ_pos _⟩
  | returned kind result =>
    rw [hp] at hok
    refine ⟨_, rfl, hk.setPhase ht ?_⟩
    cases kind with
    | lock => exact fun _ => hok.2
    | tryLock => exact hok.2
  | unlockLoad =>
    rw [hp] at hok
    exact ⟨_, rfl, hk.setPhase ht ⟨hok.1, hk.count t hok.1, hok.2⟩⟩
  | unlockStore n =>
    rw [hp] at hok
    obtain ⟨hown, rfl, -⟩ := hok
    exact ⟨_, rfl, hk.advance ht hown (Or.inl rfl) (fun _ => hown) (by rw [if_pos hown])⟩
  | unlockTest =>
    rw [hp] at hok
    refine ⟨_, rfl, hk.setPhase ht ?_⟩
    have hcount := hk.count t hok
    split_ifs with hzero
    · exact ⟨hok, by omega⟩
    · exact fun _ => by omega
  | release => exact hk.release ht hp priority

omit [DecidableEq H] in
theorem LockOk.enters (hk : LockOk s) (ht : s.control h = some t) (hphase : s.phase t = .outside) {kind : Option LockKind}
    (hcalls : kind = none → 0 < s.calls t) : ∃ s', s.enter t kind = some s' ∧ LockOk s' := by
  have hok := hk.phases t
  rw [hphase] at hok
  cases kind with
  | some kind => exact ⟨_, rfl, hk.setPhase ht hok⟩
  | none =>
    have hown := hk.owner t (hcalls rfl)
    exact ⟨_, if_pos hown, hk.setPhase ht ⟨hown, hok hown⟩⟩

theorem LockOk.step (hk : LockOk s) {a : LockAction T H} (hs : lockStep s a = some s') : LockOk s' := by
  have hupdate : ∀ {x t : T} {st : TaskState}, st ≠ .waiting → s.sched.state t ≠ .waiting →
      (Function.update s.sched.state t st x = .waiting ↔ s.sched.state x = .waiting) := by
    intro x t st hst hold
    rw [Function.update_apply]
    split_ifs with hx
    · rw [hx]
      exact iff_of_false hst hold
    · rfl
  cases a with
  | call h kind =>
    simp only [lockStep] at hs
    split at hs
    · rename_i t ht
      split_ifs at hs with hcall
      obtain ⟨s₁, hs₁, hk₁⟩ := hk.enters ht hcall.1 hcall.2
      rw [hs] at hs₁
      cases hs₁
      exact hk₁
    · cases hs
  | advance h priority =>
    simp only [lockStep] at hs
    split at hs
    · rename_i t ht
      have hphase : s.phase t ≠ .outside := by
        intro hp
        unfold LockState.advance at hs
        rw [hp] at hs
        cases hs
      obtain ⟨s₁, hs₁, hk₁⟩ := hk.advances ht hphase priority
      rw [hs] at hs₁
      cases hs₁
      exact hk₁
    · cases hs
  | run h q =>
    simp only [lockStep] at hs
    split_ifs at hs with hfree
    obtain ⟨⟨t, s₁⟩, hpull, hs⟩ := Option.bind_eq_some_iff.mp hs
    obtain ⟨sched, hmove, hready, hstate, -, hp⟩ := hk.placed.run hfree hpull
    dsimp only at hs
    rw [hmove] at hs
    cases hs
    refine hk.reschedule hp fun x _ => ?_
    dsimp only
    rw [hstate]
    exact hupdate (by decide) (by rw [hready]; decide)
  | preempt h priority =>
    simp only [lockStep] at hs
    split at hs
    · rename_i t ht
      obtain ⟨sched, hmove, hstate, -, hp⟩ := @Placed.preempt _ _ _ _ _ _ _ _ priority hk.placed ht
      rw [hmove] at hs
      cases hs
      refine hk.reschedule hp fun x _ => ?_
      rw [hstate]
      exact hupdate (by decide) (by rw [hk.placed.running h t ht]; decide)
    · cases hs
  | sleep h =>
    simp only [lockStep] at hs
    split at hs
    · rename_i t ht
      split_ifs at hs with hphase
      obtain ⟨sched, hpark, hstate, -, hp⟩ := hk.placed.park ht
      rw [hpark] at hs
      cases hs
      refine hk.reschedule hp fun x hx => ?_
      have hxt : x ≠ t := by
        rintro rfl
        rw [hphase] at hx
        cases hx
      rw [hstate, Function.update_of_ne hxt]
    · cases hs
  | wake h t priority =>
    simp only [lockStep] at hs
    split_ifs at hs with hphase
    obtain ⟨sched, hwake, hstate, -, hp⟩ :=
      @Placed.wake _ _ _ _ _ _ t h priority hk.placed ((hk.placed.waiting t).mpr hphase.2)
    rw [hwake] at hs
    cases hs
    refine hk.reschedule hp fun x hx => ?_
    have hxt : x ≠ t := by
      rintro rfl
      rw [hphase.1] at hx
      cases hx
    rw [hstate, Function.update_of_ne hxt]

omit [DecidableEq T] [DecidableEq H] in
theorem LockState.Initial.ok (hi : s.Initial) : LockOk s where
  placed := hi.placed
  phases t := by
    rw [hi.phase, hi.lockedBy]
    exact fun h => (by cases h)
  owner t ht := by
    rw [hi.calls] at ht
    exact absurd ht (Nat.lt_irrefl 0)
  count t ht := by
    rw [hi.lockedBy] at ht
    cases ht
  count_free _ := hi.numLocks
  queue_nodup := by
    rw [hi.waitQueue]
    exact List.nodup_nil
  waits t := by
    rw [hi.waitQueue]
    refine iff_of_false List.not_mem_nil ?_
    rintro ⟨hphase, -⟩
    rw [hi.phase] at hphase
    cases hphase
  free _ := hi.waitQueue

omit [DecidableEq H] in
theorem LockOk.correct (hk : LockOk s) : s.Correct where
  exclusive t u ht hu := by
    have ht' := hk.owner t ht
    rw [hk.owner u hu] at ht'
    exact (Option.some.inj ht').symm
  owner := hk.owner
  count := hk.count
  count_free := hk.count_free
  lockReturns t result hphase := by
    have := hk.phases t
    rw [hphase] at this
    exact this.1
  tryReturns t result hphase := by
    have := hk.phases t
    rw [hphase] at this
    exact this.1
  blocked t ht :=
    ⟨List.count_eq_one_of_mem hk.queue_nodup ((hk.waits t).mpr ht), (hk.placed.waiting t).mpr ht.2⟩
  waits t ht := (hk.waits t).mp ht
  free := hk.free

/-- In every state of every run the lock is a re-entrant mutex, and no call of a function of the lock
fails. -/
theorem task_lock_correct {init : LockState T H} (hi : init.Initial) {acts : List (LockAction T H)}
    (hr : Runs lockStep (fun _ _ => True) init acts s) :
    s.Correct ∧ ∀ h t, s.control h = some t →
      (s.phase t = .outside → ∀ kind, (kind = none → 0 < s.calls t) → (lockStep s (.call h kind)).isSome) ∧
      (s.phase t ≠ .outside → ∀ priority, (lockStep s (.advance h priority)).isSome) := by
  have hk : LockOk s := hr.invariant (fun _ _ _ hk _ hs => hk.step hs) hi.ok
  refine ⟨hk.correct, fun h t ht => ⟨fun hphase kind hcalls => ?_, fun hphase priority => ?_⟩⟩
  · obtain ⟨s', hs', -⟩ := hk.enters ht hphase hcalls
    simp only [lockStep, ht]
    rw [if_pos ⟨hphase, hcalls⟩, hs']
    rfl
  · obtain ⟨s', hs', -⟩ := hk.advances ht hphase priority
    simp only [lockStep, ht, hs']
    rfl

end Steps

/-- Two harts with a task each. -/
def twoTasks : LockState (Fin 2) (Fin 2) where
  lockedBy := none
  numLocks := 0
  waitQueue := []
  sched := ⟨fun _ => .running, some, fun _ => 0, fun _ => [], []⟩
  control := some
  phase _ := .outside
  calls _ := 0

/-- One task has the lock and the other waits for it, gets it after the first has unlocked and returns. -/
theorem task_lock_correct_two :
    ∃ s, Runs lockStep (fun _ _ => True) twoTasks
        [.call 0 (some .lock), .advance 0 0, .advance 0 0, .call 1 (some .lock), .advance 1 0, .advance 1 0,
          .advance 0 0, .advance 0 0, .advance 0 0, .call 0 none, .advance 0 0, .advance 0 0, .advance 0 0,
          .advance 0 0, .run 1 1, .advance 1 0, .advance 1 0, .advance 1 0] s ∧
      s.phase 1 = .returned .lock true ∧ s.Correct := by
  have hi : twoTasks.Initial :=
    { placed :=
        { running := fun _ _ _ => rfl
          single := fun h h' t h1 h2 => (by cases h1; cases h2; rfl)
          ready := fun _ t ht => absurd ht List.not_mem_nil
          queues := fun _ => List.nodup_nil
          queue_unique := fun t _ _ ht => absurd ht List.not_mem_nil
          waiting := fun t => iff_of_false List.not_mem_nil (fun h => (by cases h))
          waiting_nodup := List.nodup_nil }
      lockedBy := rfl
      numLocks := rfl
      waitQueue := rfl
      phase := fun _ => rfl
      calls := fun _ => rfl }
  have hrun : (exec lockStep twoTasks
      [.call 0 (some .lock), .advance 0 0, .advance 0 0, .call 1 (some .lock), .advance 1 0, .advance 1 0,
        .advance 0 0, .advance 0 0, .advance 0 0, .call 0 none, .advance 0 0, .advance 0 0, .advance 0 0,
        .advance 0 0, .run 1 1, .advance 1 0, .advance 1 0, .advance 1 0]).any
      (fun s => s.phase 1 == .returned .lock true) = true := by decide
  obtain ⟨s, hs, hphase⟩ := (Option.any_eq_true _ _).mp hrun
  have hr : Runs lockStep (fun _ _ => True) twoTasks _ s := .of_exec hs (fun _ _ _ => trivial)
  exact ⟨s, hr, by simpa using hphase, (task_lock_correct hi hr).1⟩

end SomeOs.Tasks

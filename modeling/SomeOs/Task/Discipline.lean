import SomeOs.Task.Syscalls

/-! # The places of tasks

Where every task is goes with its state: ready tasks are in a queue or have been pulled from
it, waiting ones are in the waiting list or on the way there. A system call that has not woken
its task finds it waiting, but another hart may still have to put it into the list.
-/
namespace SomeOs.Tasks
open Transition Scheduler
variable {T H : Type*}

inductive Place (H : Type*) where
  | queue (h : H)
  | waiting
  | hart (h : H)

def Kernel.At (k : Kernel T H) (t : T) : Place H → Prop
  | .queue h => t ∈ k.sched.queue h
  | .waiting => t ∈ k.sched.waiting
  | .hart h => (k.control h).task = some t

/-- The states of the task that a hart has. -/
def Fits : Control T → TaskState → Prop
  | .scheduling, _ => True
  | .pulled _, state => state = .ready
  | .running _, state => state = .running
  | .trapped _, state => state = .enquable
  | .blocked _, state => state = .waiting
  | .returning _, state => state = .enquable ∨ state = .waiting ∨ state = .stopped ∨ state = .terminated

def Served (k : Kernel T H) (t : T) : Prop := ∃ s p, k.serving s = some (t, p)

structure TaskOk (k : Kernel T H) (x : T) : Prop where
  queued : ∀ q, x ∈ k.sched.queue q → k.sched.state x = .ready
  waits : x ∈ k.sched.waiting → k.sched.state x = .waiting
  held : ∀ h, (k.control h).task = some x → Fits (k.control h) (k.sched.state x)
  unique : ∀ p q, k.At x p → k.At x q → p = q
  working : ∀ s, k.serving s = some (x, .working) →
    k.sched.state x = .waiting ∧ k.wakeup x = false ∧ ∀ h, k.control h ≠ .blocked x
  awakened : ∀ s, k.serving s = some (x, .awakened) → k.sched.state x = .enquable ∧ ∀ p, ¬k.At x p
  exited : ∀ s, k.serving s = some (x, .exited) → k.sched.state x = .terminated ∧ ∀ p, ¬k.At x p
  server : ∀ s s' p p', k.serving s = some (x, p) → k.serving s' = some (x, p') → s = s'
  parked : k.sched.state x = .waiting →
    x ∈ k.sched.waiting ∨ ∃ h, k.control h = .blocked x ∨ k.control h = .returning x
  quiet : ∀ h, k.control h = .blocked x → k.wakeup x = false
  absent : k.sched.state x = .unknown → (∀ p, ¬k.At x p) ∧ ¬Served k x

structure KernelOk (k : Kernel T H) : Prop where
  queues : ∀ q, (k.sched.queue q).Nodup
  waiting : k.sched.waiting.Nodup
  tasks : ∀ x, TaskOk k x

theorem KernelOk.listed {k : Kernel T H} (h : KernelOk k) : Listed k.sched := by
  refine ⟨h.queues, h.waiting, fun t a b ha hb => ?_, fun t a ha hw => ?_⟩
  · exact Place.queue.inj ((h.tasks t).unique (.queue a) (.queue b) ha hb)
  · cases (h.tasks t).unique (.queue a) .waiting ha hw

/-- The kernels differ in the task `t` only, and no task has got a system call. -/
structure SameBut (k k' : Kernel T H) (t : T) : Prop where
  state : ∀ x, x ≠ t → k'.sched.state x = k.sched.state x
  queue : ∀ x, x ≠ t → ∀ q, x ∈ k'.sched.queue q ↔ x ∈ k.sched.queue q
  waiting : ∀ x, x ≠ t → (x ∈ k'.sched.waiting ↔ x ∈ k.sched.waiting)
  control : ∀ x, x ≠ t → ∀ h, (k'.control h).task = some x ∨ (k.control h).task = some x → k'.control h = k.control h
  serving : ∀ x, x ≠ t → ∀ s p, k'.serving s = some (x, p) → k.serving s = some (x, p)
  wakeup : ∀ x, x ≠ t → k'.wakeup x = k.wakeup x

section Same
variable {k k' : Kernel T H} {t x : T} {h : H} {c : Control T}

theorem SameBut.at_iff (hsame : SameBut k k' t) (hx : x ≠ t) (p : Place H) : k'.At x p ↔ k.At x p := by
  cases p with
  | queue q => exact hsame.queue x hx q
  | waiting => exact hsame.waiting x hx
  | hart h =>
    constructor
    · intro hat
      have hsamec := hsame.control x hx h (Or.inl hat)
      show (k.control h).task = some x
      rw [← hsamec]
      exact hat
    · intro hat
      have hsamec := hsame.control x hx h (Or.inr hat)
      show (k'.control h).task = some x
      rw [hsamec]
      exact hat

theorem SameBut.taskOk (hsame : SameBut k k' t) (hx : x ≠ t) (hok : TaskOk k x) : TaskOk k' x := by
  have hstate := hsame.state x hx
  have hat := hsame.at_iff hx
  constructor
  · intro q hq
    rw [hstate]
    exact hok.queued q ((hsame.queue x hx q).mp hq)
  · intro hw
    rw [hstate]
    exact hok.waits ((hsame.waiting x hx).mp hw)
  · intro h hc
    have hsamec := hsame.control x hx h (Or.inl hc)
    rw [hstate, hsamec]
    rw [hsamec] at hc
    exact hok.held h hc
  · intro p q hp hq
    exact hok.unique p q ((hat p).mp hp) ((hat q).mp hq)
  · intro s hs
    obtain ⟨h1, h2, h3⟩ := hok.working s (hsame.serving x hx s _ hs)
    refine ⟨hstate.trans h1, (hsame.wakeup x hx).trans h2, fun h hc => ?_⟩
    rw [hsame.control x hx h (Or.inl (by rw [hc]; rfl))] at hc
    exact h3 h hc
  · intro s hs
    obtain ⟨h1, h2⟩ := hok.awakened s (hsame.serving x hx s _ hs)
    exact ⟨hstate.trans h1, fun p hp => h2 p ((hat p).mp hp)⟩
  · intro s hs
    obtain ⟨h1, h2⟩ := hok.exited s (hsame.serving x hx s _ hs)
    exact ⟨hstate.trans h1, fun p hp => h2 p ((hat p).mp hp)⟩
  · intro s s' p p' hs hs'
    exact hok.server s s' p p' (hsame.serving x hx s p hs) (hsame.serving x hx s' p' hs')
  · intro hw
    rw [hstate] at hw
    rcases hok.parked hw with hmem | ⟨h, hc⟩
    · exact Or.inl ((hsame.waiting x hx).mpr hmem)
    · have hsamec := hsame.control x hx h (Or.inr (by rcases hc with hc | hc <;> (rw [hc]; rfl)))
      exact Or.inr ⟨h, by rw [hsamec]; exact hc⟩
  · intro h hc
    rw [hsame.wakeup x hx]
    rw [hsame.control x hx h (Or.inl (by rw [hc]; rfl))] at hc
    exact hok.quiet h hc
  · intro hu
    rw [hstate] at hu
    obtain ⟨h1, h2⟩ := hok.absent hu
    exact ⟨fun p hp => h1 p ((hat p).mp hp), fun ⟨s, p, hs⟩ => h2 ⟨s, p, hsame.serving x hx s p hs⟩⟩

theorem KernelOk.of_sameBut (hk : KernelOk k) (hsame : SameBut k k' t) (hqueues : ∀ q, (k'.sched.queue q).Nodup)
    (hwaiting : k'.sched.waiting.Nodup) (ht : TaskOk k' t) : KernelOk k' := by
  refine ⟨hqueues, hwaiting, fun x => ?_⟩
  by_cases hx : x = t
  · subst hx
    exact ht
  · exact hsame.taskOk hx (hk.tasks x)

theorem TaskOk.not_served (hok : TaskOk k t) (hc : (k.control h).task = some t)
    (hwait : k.sched.state t ≠ .waiting ∨ k.control h = .blocked t) : ¬Served k t := by
  rintro ⟨s, p, hs⟩
  cases p with
  | working =>
    obtain ⟨h1, -, h3⟩ := hok.working s hs
    rcases hwait with hwait | hwait
    · exact hwait h1
    · exact h3 h hwait
  | awakened => exact (hok.awakened s hs).2 (.hart h) hc
  | exited => exact (hok.exited s hs).2 (.hart h) hc

theorem TaskOk.not_queued (hok : TaskOk k t) (hc : (k.control h).task = some t) (q : H) : t ∉ k.sched.queue q := by
  intro hq
  cases hok.unique (.queue q) (.hart h) hq hc

theorem TaskOk.not_waiting (hok : TaskOk k t) (hc : (k.control h).task = some t) : t ∉ k.sched.waiting := by
  intro hw
  cases hok.unique .waiting (.hart h) hw hc

theorem TaskOk.of_not_served (hs : ¬Served k x) (queued : ∀ q, x ∈ k.sched.queue q → k.sched.state x = .ready)
    (waits : x ∈ k.sched.waiting → k.sched.state x = .waiting)
    (held : ∀ h, (k.control h).task = some x → Fits (k.control h) (k.sched.state x))
    (unique : ∀ p q, k.At x p → k.At x q → p = q)
    (parked : k.sched.state x = .waiting →
      x ∈ k.sched.waiting ∨ ∃ h, k.control h = .blocked x ∨ k.control h = .returning x)
    (quiet : ∀ h, k.control h = .blocked x → k.wakeup x = false)
    (absent : k.sched.state x = .unknown → ∀ p, ¬k.At x p) : TaskOk k x where
  queued := queued
  waits := waits
  held := held
  unique := unique
  working s h := absurd ⟨s, _, h⟩ hs
  awakened s h := absurd ⟨s, _, h⟩ hs
  exited s h := absurd ⟨s, _, h⟩ hs
  server s _ p _ h := absurd ⟨s, p, h⟩ hs
  parked := parked
  quiet := quiet
  absent hu := ⟨absent hu, hs⟩

variable [DecidableEq H]

theorem control_update (hctl : k'.control = Function.update k.control h c) (h' : H) :
    (h' = h ∧ k'.control h' = c) ∨ (h' ≠ h ∧ k'.control h' = k.control h') := by
  by_cases hh : h' = h
  · subst hh
    exact Or.inl ⟨rfl, by rw [hctl, Function.update_self]⟩
  · exact Or.inr ⟨hh, by rw [hctl, Function.update_of_ne hh]⟩

theorem sameBut_control (hc : (k.control h).task = some t ∨ (k.control h).task = none)
    (hctl : k'.control = Function.update k.control h c) (hcT : c.task = some t ∨ c.task = none) (x : T) (hx : x ≠ t)
    (h' : H) (hor : (k'.control h').task = some x ∨ (k.control h').task = some x) : k'.control h' = k.control h' := by
  rcases control_update hctl h' with ⟨rfl, hnew⟩ | ⟨-, hold⟩
  · rw [hnew] at hor
    exfalso
    rcases hor with hor | hor
    · rcases hcT with hcT | hcT
      · rw [hcT] at hor
        exact hx (Option.some.inj hor).symm
      · rw [hcT] at hor
        cases hor
    · rcases hc with hc | hc
      · rw [hc] at hor
        exact hx (Option.some.inj hor).symm
      · rw [hc] at hor
        cases hor
  · exact hold

/-- A hart goes on with its task, in another state. -/
theorem KernelOk.hold (hk : KernelOk k) (hc : (k.control h).task = some t) (hserved : ¬Served k t)
    (hstate : ∀ x, x ≠ t → k'.sched.state x = k.sched.state x) (hqueue : k'.sched.queue = k.sched.queue)
    (hwaiting : k'.sched.waiting = k.sched.waiting) (hctl : k'.control = Function.update k.control h c)
    (hserving : k'.serving = k.serving) (hwakeup : ∀ x, x ≠ t → k'.wakeup x = k.wakeup x)
    (hcT : c.task = some t) (hfits : Fits c (k'.sched.state t))
    (hpark : k'.sched.state t = .waiting → c = .blocked t ∨ c = .returning t)
    (hquiet : c = .blocked t → k'.wakeup t = false)
    (hknown : k'.sched.state t ≠ .unknown) : KernelOk k' := by
  have hsame : SameBut k k' t := by
    refine ⟨hstate, fun x _ q => by rw [hqueue], fun x _ => by rw [hwaiting],
      sameBut_control (Or.inl hc) hctl (Or.inl hcT), fun x _ s p hs => by rwa [hserving] at hs, hwakeup⟩
  have hok := hk.tasks t
  have hself : k'.control h = c := by rw [hctl, Function.update_self]
  have hplace : ∀ p, k'.At t p → p = .hart h := by
    intro p hp
    cases p with
    | queue q =>
      have hq : t ∈ k'.sched.queue q := hp
      rw [hqueue] at hq
      exact absurd hq (hok.not_queued hc q)
    | waiting =>
      have hw : t ∈ k'.sched.waiting := hp
      rw [hwaiting] at hw
      exact absurd hw (hok.not_waiting hc)
    | hart h' =>
      have hh : (k'.control h').task = some t := hp
      rcases control_update hctl h' with ⟨rfl, -⟩ | ⟨-, hold⟩
      · rfl
      · rw [hold] at hh
        exact hok.unique (.hart h') (.hart h) hh hc
  refine hk.of_sameBut hsame (by rw [hqueue]; exact hk.queues) (by rw [hwaiting]; exact hk.waiting) ?_
  refine .of_not_served ?_ ?_ ?_ ?_ ?_ ?_ ?_ ?_
  · rintro ⟨s, p, hs⟩
    rw [hserving] at hs
    exact hserved ⟨s, p, hs⟩
  · intro q hq
    cases hplace (.queue q) hq
  · intro hw
    cases hplace .waiting hw
  · intro h' hh
    cases hplace (.hart h') hh
    rw [hself]
    exact hfits
  · intro p q hp hq
    rw [hplace p hp, hplace q hq]
  · intro hw
    refine Or.inr ⟨h, ?_⟩
    rw [hself]
    exact hpark hw
  · intro h' hb
    cases hplace (.hart h') (by show (k'.control h').task = _; rw [hb]; rfl)
    exact hquiet (hself.symm.trans hb)
  · intro hu
    exact absurd hu hknown

omit [DecidableEq H] in
/-- The task is in a queue, and nowhere else. -/
theorem KernelOk.to_queue {q : H} (hk : KernelOk k) (hsame : SameBut k k' t)
    (hqueues : ∀ q, (k'.sched.queue q).Nodup) (hwaiting : k'.sched.waiting.Nodup)
    (hplace : ∀ p, k'.At t p → p = .queue q) (hstate : k'.sched.state t = .ready) (hserved : ¬Served k' t) :
    KernelOk k' := by
  refine hk.of_sameBut hsame hqueues hwaiting (.of_not_served hserved ?_ ?_ ?_ ?_ ?_ ?_ ?_)
  · intro _ _
    exact hstate
  · intro hw
    cases hplace .waiting hw
  · intro h' hh
    cases hplace (.hart h') hh
  · intro p p' hp hp'
    rw [hplace p hp, hplace p' hp']
  · intro hw
    rw [hstate] at hw
    cases hw
  · intro h' hb
    cases hplace (.hart h') (by show (k'.control h').task = _; rw [hb]; rfl)
  · intro hu
    rw [hstate] at hu
    cases hu

omit [DecidableEq H] in
theorem KernelOk.to_nowhere (hk : KernelOk k) (hsame : SameBut k k' t)
    (hqueues : ∀ q, (k'.sched.queue q).Nodup) (hwaiting : k'.sched.waiting.Nodup)
    (hplace : ∀ p, ¬k'.At t p) (hstate : k'.sched.state t ≠ .waiting) (hserved : ¬Served k' t) : KernelOk k' := by
  refine hk.of_sameBut hsame hqueues hwaiting (.of_not_served hserved ?_ ?_ ?_ ?_ ?_ ?_ ?_)
  · intro q hq
    exact absurd hq (hplace (.queue q))
  · intro hw
    exact absurd hw (hplace .waiting)
  · intro h' hh
    exact absurd hh (hplace (.hart h'))
  · intro p p' hp
    exact absurd hp (hplace p)
  · intro hw
    exact absurd hw hstate
  · intro h' hb
    exact absurd (show k'.At t (.hart h') by show (k'.control h').task = _; rw [hb]; rfl) (hplace (.hart h'))
  · intro _
    exact hplace

end Same

section Enqueue
variable [DecidableEq T] [DecidableEq H] {k k' : Kernel T H} {t x : T} {h q : H} {c : Control T} {priority : ℕ}

/-- A task that is in no place of `k` but perhaps on the hart `h`, which drops it, is pushed to a queue. -/
theorem KernelOk.pushed {sched : Scheduler T H} (hk : KernelOk k) (hsched : k'.sched =
      (sched.setState t .ready).pushTaskToQueue q t priority)
    (hstate : ∀ x, x ≠ t → sched.state x = k.sched.state x) (hqueue : sched.queue = k.sched.queue)
    (hwaiting : ∀ x, x ≠ t → (x ∈ sched.waiting ↔ x ∈ k.sched.waiting)) (hnodup : sched.waiting.Nodup)
    (hcontrol : ∀ x, x ≠ t → ∀ h, (k'.control h).task = some x ∨ (k.control h).task = some x → k'.control h = k.control h)
    (hserving : ∀ x, x ≠ t → ∀ s p, k'.serving s = some (x, p) → k.serving s = some (x, p))
    (hwakeup : ∀ x, x ≠ t → k'.wakeup x = k.wakeup x) (htq : ∀ q, t ∉ k.sched.queue q) (htw : t ∉ sched.waiting)
    (hth : ∀ h, (k'.control h).task ≠ some t) (hserved : ¬Served k' t) : KernelOk k' := by
  have hmem : ∀ x r, x ∈ k'.sched.queue r ↔ (x = t ∧ r = q) ∨ x ∈ k.sched.queue r := by
    intro x r
    rw [hsched, mem_pushTaskToQueue, setState_queue, hqueue]
  have hw : k'.sched.waiting = sched.waiting := by
    rw [hsched, pushTaskToQueue_waiting, setState_waiting]
  have hsame : SameBut k k' t := by
    refine ⟨fun x hx => ?_, fun x hx r => ?_, fun x hx => ?_, hcontrol, hserving, hwakeup⟩
    · rw [hsched, pushTaskToQueue_state, setState_of_ne hx, hstate x hx]
    · rw [hmem]
      simp [hx]
    · rw [hw]
      exact hwaiting x hx
  refine hk.to_queue (q := q) hsame ?_ (by rw [hw]; exact hnodup) (fun p hp => ?_) ?_ hserved
  · rw [hsched]
    refine nodup_pushTaskToQueue ?_ ?_
    · rw [setState_queue, hqueue]
      exact hk.queues
    · rw [setState_queue, hqueue]
      exact htq q
  · cases p with
    | queue r =>
      rcases (hmem t r).mp hp with ⟨-, rfl⟩ | hold
      · rfl
      · exact absurd hold (htq r)
    | waiting =>
      have hin : t ∈ k'.sched.waiting := hp
      rw [hw] at hin
      exact absurd hin htw
    | hart h => exact absurd hp (hth h)
  · rw [hsched, pushTaskToQueue_state, setState_self]

/-- The end of a trap: the task goes to the list for its state. -/
theorem KernelOk.enqueue {sched : Scheduler T H} (hk : KernelOk k) (hc : k.control h = .returning t)
    (hs : k.sched.enqueueTask h t priority = some sched) :
    KernelOk (({ k with sched } : Kernel T H).setControl h .scheduling) := by
  have hok := hk.tasks t
  have htask : (k.control h).task = some t := by rw [hc]; rfl
  have hcontrol : ∀ x, x ≠ t → ∀ h', ((Function.update k.control h .scheduling) h').task = some x ∨
      (k.control h').task = some x → (Function.update k.control h .scheduling) h' = k.control h' :=
    @sameBut_control _ _ k (k.setControl h .scheduling) _ _ _ _ (Or.inl htask) rfl (Or.inr rfl)
  have hth : ∀ h', ((Function.update k.control h .scheduling) h').task ≠ some t := by
    intro h' hh
    have hctl : (k.setControl h .scheduling).control = Function.update k.control h .scheduling := rfl
    rcases control_update hctl h' with ⟨-, hnew⟩ | ⟨hne, hold⟩
    · change Function.update k.control h .scheduling h' = _ at hnew
      rw [hnew] at hh
      cases hh
    · change Function.update k.control h .scheduling h' = _ at hold
      rw [hold] at hh
      cases hok.unique (.hart h') (.hart h) hh htask
      exact hne rfl
  have hfits := hok.held h htask
  rw [hc] at hfits
  rcases hfits with hstate | hstate | hstate | hstate
  · rw [enqueueTask_enquable hstate] at hs
    cases hs
    have hserved := hok.not_served htask (Or.inl (by rw [hstate]; decide))
    exact hk.pushed rfl (fun _ _ => rfl) rfl (fun _ _ => Iff.rfl) hk.waiting hcontrol (fun _ _ _ _ hs => hs)
      (fun _ _ => rfl) (hok.not_queued htask) (hok.not_waiting htask) hth hserved
  · unfold enqueueTask at hs
    rw [hstate] at hs
    cases hs
    refine hk.of_sameBut (t := t) ⟨fun _ _ => rfl, fun _ _ _ => Iff.rfl, fun x hx => ?_, hcontrol,
      fun _ _ _ _ hs => hs, fun _ _ => rfl⟩ hk.queues (List.nodup_cons.mpr ⟨hok.not_waiting htask, hk.waiting⟩) ?_
    · show x ∈ t :: k.sched.waiting ↔ _
      simp [hx]
    · have hplace : ∀ p, (({ k with sched := k.sched.addWaitingTask t } : Kernel T H).setControl h .scheduling).At t p →
          p = .waiting := by
        intro p hp
        cases p with
        | queue q => exact absurd hp (hok.not_queued htask q)
        | waiting => rfl
        | hart h' => exact absurd hp (hth h')
      constructor
      · intro q hq
        cases hplace (.queue q) hq
      · intro _
        exact hstate
      · intro h' hh
        cases hplace (.hart h') hh
      · intro p q hp hq
        rw [hplace p hp, hplace q hq]
      · intro s hs
        obtain ⟨h1, h2, -⟩ := hok.working s hs
        refine ⟨h1, h2, fun h' hb => hth h' ?_⟩
        show (Function.update k.control h .scheduling h').task = _
        rw [show Function.update k.control h .scheduling h' = _ from hb]
        rfl
      · intro s hs
        exact absurd htask ((hok.awakened s hs).2 (.hart h))
      · intro s hs
        exact absurd htask ((hok.exited s hs).2 (.hart h))
      · exact hok.server
      · intro _
        exact Or.inl List.mem_cons_self
      · intro h' hb
        exact absurd (hplace (.hart h') (by show Control.task _ = _; rw [hb]; rfl)) (by simp)
      · intro hu
        have hu' : k.sched.state t = .unknown := hu
        rw [hstate] at hu'
        cases hu'
  · unfold enqueueTask at hs
    rw [hstate] at hs
    cases hs
    have hserved := hok.not_served htask (Or.inl (by rw [hstate]; decide))
    refine hk.to_nowhere (t := t) ⟨fun _ _ => rfl, fun _ _ _ => Iff.rfl, fun _ _ => Iff.rfl, hcontrol,
      fun _ _ _ _ hs => hs, fun _ _ => rfl⟩ hk.queues hk.waiting (fun p hp => ?_) ?_ hserved
    · cases p with
      | queue q => exact hok.not_queued htask q hp
      | waiting => exact hok.not_waiting htask hp
      | hart h' => exact hth h' hp
    · show k.sched.state t ≠ _
      rw [hstate]
      decide
  · unfold enqueueTask at hs
    rw [hstate] at hs
    cases hs
    have hserved := hok.not_served htask (Or.inl (by rw [hstate]; decide))
    refine hk.to_nowhere (t := t) ⟨fun x hx => setState_of_ne hx, fun _ _ _ => Iff.rfl, fun _ _ => Iff.rfl, hcontrol,
      fun _ _ _ _ hs => hs, fun _ _ => rfl⟩ hk.queues hk.waiting (fun p hp => ?_) ?_ hserved
    · cases p with
      | queue q => exact hok.not_queued htask q hp
      | waiting => exact hok.not_waiting htask hp
      | hart h' => exact hth h' hp
    · show (k.sched.setState t .unknown).state t ≠ _
      rw [setState_self]
      decide

end Enqueue

end SomeOs.Tasks

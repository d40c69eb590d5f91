import SomeOs.Task.Discipline

/-! # Wakeups of the scheduler

Every step of the harts keeps tasks in at most one list, and every task that is awakened is in
the waiting list, if system calls do not end while their task is still on the way to it.
-/
namespace SomeOs.Tasks
open Transition Scheduler
variable {T H : Type*} [DecidableEq T] [DecidableEq H]

section Steps
variable {k k' : Kernel T H} {s t x : T} {h q : H} {c : Control T} {priority : ℕ} {sched : Scheduler T H}
  {state : TaskState}

omit [DecidableEq H] in
theorem serving_cases {v : Option (T × Phase)} {p : Phase} {u : T}
    (hu : Function.update k.serving s v u = some (x, p)) :
    (u = s ∧ v = some (x, p)) ∨ (u ≠ s ∧ k.serving u = some (x, p)) := by
  by_cases hus : u = s
  · subst hus
    rw [Function.update_self] at hu
    exact Or.inl ⟨rfl, hu⟩
  · rw [Function.update_of_ne hus] at hu
    exact Or.inr ⟨hus, hu⟩

theorem KernelOk.hold_state (hk : KernelOk k) (hc : (k.control h).task = some t) (hserved : ¬Served k t)
    (hcT : c.task = some t) (hlive : k.sched.state t ≠ .terminated ∧ k.sched.state t ≠ .stopped)
    (hfits : Fits c state) (hpark : state = .waiting → c = .blocked t ∨ c = .returning t) (hknown : state ≠ .unknown)
    {hart : T → Option H} {wakeup : T → Bool} (hwakeup : ∀ x, x ≠ t → wakeup x = k.wakeup x)
    (hquiet : c = .blocked t → wakeup t = false) :
    KernelOk (({ k with sched := { k.sched.changeState t state with hart }, wakeup } : Kernel T H).setControl h c) := by
  have hself : (k.sched.changeState t state).state t = state := changeState_self hlive.1 hlive.2
  refine hk.hold hc hserved (fun x hx => changeState_of_ne hx) changeState_queue changeState_waiting rfl rfl hwakeup hcT
    ?_ (fun hw => hpark (hself.symm.trans hw)) hquiet (fun hu => hknown (hself.symm.trans hu))
  show Fits c ((k.sched.changeState t state).state t)
  rw [hself]
  exact hfits

omit [DecidableEq T] in
theorem KernelOk.pull (hk : KernelOk k) (hc : k.control h = .scheduling)
    (hs : k.sched.pullTaskFromQueue q = some (t, sched)) :
    KernelOk (({ k with sched } : Kernel T H).setControl h (.pulled t)) := by
  obtain ⟨rest, hq, rfl⟩ := pullTaskFromQueue_eq hs
  have hok := hk.tasks t
  have hin : t ∈ k.sched.queue q := by rw [hq]; exact List.mem_cons_self
  have hready := hok.queued q hin
  have hnodup := hk.queues q
  rw [hq, List.nodup_cons] at hnodup
  have hnothart : ∀ h', (k.control h').task ≠ some t := by
    intro h' hh
    cases hok.unique (.queue q) (.hart h') hin hh
  have hserved : ¬Served k t := by
    rintro ⟨s, p, hs⟩
    cases p with
    | working =>
      have := (hok.working s hs).1
      rw [hready] at this
      cases this
    | awakened => exact (hok.awakened s hs).2 (.queue q) hin
    | exited => exact (hok.exited s hs).2 (.queue q) hin
  set k' : Kernel T H := ({ k with sched := { k.sched with queue := Function.update k.sched.queue q rest } } :
    Kernel T H).setControl h (.pulled t) with hk'
  have hctl : k'.control = Function.update k.control h (.pulled t) := rfl
  have hmem : ∀ x r, x ∈ k'.sched.queue r ↔ x ∈ k.sched.queue r ∧ x ≠ t := by
    intro x r
    show x ∈ Function.update k.sched.queue q rest r ↔ _
    by_cases hr : r = q
    · subst hr
      rw [Function.update_self, hq, List.mem_cons]
      constructor
      · intro hx
        refine ⟨Or.inr hx, ?_⟩
        rintro rfl
        exact hnodup.1 hx
      · rintro ⟨hx | hx, hne⟩
        · exact absurd hx hne
        · exact hx
    · rw [Function.update_of_ne hr]
      refine ⟨fun hx => ⟨hx, ?_⟩, fun hx => hx.1⟩
      rintro rfl
      cases hok.unique (.queue r) (.queue q) hx hin
      exact hr rfl
  have hplace : ∀ p, k'.At t p → p = .hart h := by
    intro p hp
    cases p with
    | queue r => exact absurd rfl ((hmem t r).mp hp).2
    | waiting => cases hok.unique (.queue q) .waiting hin hp
    | hart h' =>
      rcases control_update hctl h' with ⟨rfl, -⟩ | ⟨-, hold⟩
      · rfl
      · have hh : (k'.control h').task = some t := hp
        rw [hold] at hh
        exact absurd hh (hnothart h')
  have hself : k'.control h = .pulled t := Function.update_self ..
  refine hk.of_sameBut (t := t) ⟨fun _ _ => rfl, fun x hx r => ?_, fun _ _ => Iff.rfl,
    sameBut_control (Or.inr (by rw [hc]; rfl)) rfl (Or.inl rfl), fun _ _ _ _ hs => hs, fun _ _ => rfl⟩ (fun r => ?_)
    hk.waiting ?_
  · rw [hmem]
    simp [hx]
  · show (Function.update k.sched.queue q rest r).Nodup
    by_cases hr : r = q
    · subst hr
      rw [Function.update_self]
      exact hnodup.2
    · rw [Function.update_of_ne hr]
      exact hk.queues r
  · refine .of_not_served hserved ?_ ?_ ?_ ?_ ?_ ?_ ?_
    · intro _ _
      exact hready
    · intro hw
      cases hplace .waiting hw
    · intro h' hh
      cases hplace (.hart h') hh
      rw [hself]
      exact hready
    · intro p p' hp hp'
      rw [hplace p hp, hplace p' hp']
    · intro hw
      have : k.sched.state t = .waiting := hw
      rw [hready] at this
      cases this
    · intro h' hb
      cases hplace (.hart h') (by show (k'.control h').task = _; rw [hb]; rfl)
      rw [hself] at hb
      cases hb
    · intro hu
      have : k.sched.state t = .unknown := hu
      rw [hready] at this
      cases this

theorem KernelOk.createTask (hk : KernelOk k) (hs : k.createTask h t none priority = some k') : KernelOk k' := by
  obtain ⟨hunknown, hs⟩ := Option.ite_none_right_eq_some.mp hs
  obtain ⟨sched, hsched, rfl⟩ := Option.map_eq_some_iff.mp hs
  obtain ⟨hnowhere, hserved⟩ := (hk.tasks t).absent hunknown
  rw [enqueueTask_enquable setState_self] at hsched
  cases hsched
  refine hk.pushed rfl (fun x hx => setState_of_ne hx) rfl (fun _ _ => Iff.rfl) hk.waiting (fun _ _ _ _ => rfl) ?_
    (fun x hx => Function.update_of_ne hx ..) (fun q => hnowhere (.queue q)) (hnowhere .waiting)
    (fun h => hnowhere (.hart h)) ?_
  · intro x _ u p hu
    rcases serving_cases hu with ⟨-, hnone⟩ | ⟨-, hold⟩
    · cases hnone
    · exact hold
  · rintro ⟨u, p, hu⟩
    rcases serving_cases hu with ⟨-, hnone⟩ | ⟨-, hold⟩
    · cases hnone
    · exact hserved ⟨u, p, hold⟩

theorem createTask_serving {v : Option (T × Phase)} : k.createTask h s v priority =
    (k.createTask h s none priority).map fun k₁ => { k₁ with serving := Function.update k₁.serving s v } := by
  unfold Kernel.createTask
  split_ifs
  · rw [Option.map_map]
    congr 1
    funext sched
    simp only [Function.comp_apply, Function.update_idem]
  · rfl

/-- The task that has made a system call is served from then on. -/
theorem KernelOk.serve (hk : KernelOk k) (hc : k.control h = .blocked t) :
    KernelOk (({ k with serving := Function.update k.serving s (some (t, .working)) } : Kernel T H).setControl h
      (.returning t)) := by
  have hok := hk.tasks t
  have htask : (k.control h).task = some t := by rw [hc]; rfl
  have hserved := hok.not_served htask (Or.inr hc)
  have hwait : k.sched.state t = .waiting := by
    have := hok.held h htask
    rwa [hc] at this
  set k' : Kernel T H := ({ k with serving := Function.update k.serving s (some (t, .working)) } : Kernel T H).setControl
    h (.returning t) with hk'
  have hctl : k'.control = Function.update k.control h (.returning t) := rfl
  have hself : k'.control h = .returning t := Function.update_self ..
  have hplace : ∀ p, k'.At t p → p = .hart h := by
    intro p hp
    cases p with
    | queue r => exact absurd hp (hok.not_queued htask r)
    | waiting => exact absurd hp (hok.not_waiting htask)
    | hart h' =>
      rcases control_update hctl h' with ⟨rfl, -⟩ | ⟨-, hold⟩
      · rfl
      · have hh : (k'.control h').task = some t := hp
        rw [hold] at hh
        exact hok.unique (.hart h') (.hart h) hh htask
  have hserving : ∀ u x p, k'.serving u = some (x, p) → (u = s ∧ x = t ∧ p = .working) ∨ k.serving u = some (x, p) := by
    intro u x p hu
    rcases serving_cases hu with ⟨hus, hnew⟩ | ⟨-, hold⟩
    · cases hnew
      exact Or.inl ⟨hus, rfl, rfl⟩
    · exact Or.inr hold
  have hone : ∀ u p, k'.serving u = some (t, p) → u = s ∧ p = .working := by
    intro u p hu
    rcases hserving u t p hu with ⟨hus, -, hp⟩ | hold
    · exact ⟨hus, hp⟩
    · exact absurd ⟨u, p, hold⟩ hserved
  refine hk.of_sameBut (t := t) ⟨fun _ _ => rfl, fun _ _ _ => Iff.rfl, fun _ _ => Iff.rfl,
    sameBut_control (Or.inl htask) rfl (Or.inl rfl), fun x hx u p hu => ?_, fun _ _ => rfl⟩ hk.queues hk.waiting ?_
  · rcases hserving u x p hu with ⟨-, hxt, -⟩ | hold
    · exact absurd hxt hx
    · exact hold
  · have hnotblocked : ∀ h', k'.control h' ≠ .blocked t := by
      intro h' hb
      cases hplace (.hart h') (by show (k'.control h').task = _; rw [hb]; rfl)
      rw [hself] at hb
      cases hb
    constructor
    · intro r hr
      cases hplace (.queue r) hr
    · intro hw
      cases hplace .waiting hw
    · intro h' hh
      cases hplace (.hart h') hh
      rw [hself]
      exact Or.inr (Or.inl hwait)
    · intro p p' hp hp'
      rw [hplace p hp, hplace p' hp']
    · intro u _
      exact ⟨hwait, hok.quiet h hc, hnotblocked⟩
    · intro u hu
      cases (hone u _ hu).2
    · intro u hu
      cases (hone u _ hu).2
    · intro u u' p p' hu hu'
      rw [(hone u p hu).1, (hone u' p' hu').1]
    · intro _
      exact Or.inr ⟨h, Or.inr hself⟩
    · intro h' hb
      exact absurd hb (hnotblocked h')
    · intro hu
      have : k.sched.state t = .unknown := hu
      rw [hwait] at this
      cases this

omit [DecidableEq T] [DecidableEq H] in
/-- A task that waits, and that no hart is about to put into the waiting list, is in that list. -/
theorem TaskOk.mem_waiting (hok : TaskOk k t) (hstate : k.sched.state t = .waiting) (hsettled : Settled k t) :
    t ∈ k.sched.waiting := by
  rcases hok.parked hstate with hmem | ⟨h', hb | hb⟩
  · exact hmem
  · exact absurd hb (hsettled h').1
  · exact absurd hb (hsettled h').2

omit [DecidableEq T] [DecidableEq H] in
theorem TaskOk.place_of_waiting (hok : TaskOk k t) (hmem : t ∈ k.sched.waiting) {p : Place H} (hp : k.At t p) :
    p = .waiting :=
  hok.unique p .waiting hp hmem

omit [DecidableEq H] in
theorem mem_erase_waiting (hnodup : k.sched.waiting.Nodup) : x ∈ k.sched.waiting.erase t ↔ x ≠ t ∧ x ∈ k.sched.waiting :=
  hnodup.mem_erase_iff

omit [DecidableEq H] in
/-- The task that a system call has woken or terminated is in no place. -/
theorem KernelOk.wake {phase : Phase} (hk : KernelOk k) (hs : k.serving s = some (t, .working))
    (hmem : t ∈ k.sched.waiting) (hstate : (phase = .awakened ∧ state = .enquable) ∨ (phase = .exited ∧ state = .terminated))
    (hsched : sched.state = Function.update k.sched.state t state) (hqueue : sched.queue = k.sched.queue)
    (hwaiting : sched.waiting = k.sched.waiting.erase t) :
    KernelOk { k with sched, serving := Function.update k.serving s (some (t, phase)) } := by
  have hok := hk.tasks t
  set k' : Kernel T H := { k with sched, serving := Function.update k.serving s (some (t, phase)) } with hk'
  have hself : k'.sched.state t = state := by
    show sched.state t = state
    rw [hsched, Function.update_self]
  have hnowhere : ∀ p, ¬k'.At t p := by
    intro p hp
    cases p with
    | queue r =>
      have hr : t ∈ sched.queue r := hp
      rw [hqueue] at hr
      cases hok.place_of_waiting hmem (p := .queue r) hr
    | waiting =>
      have hw : t ∈ sched.waiting := hp
      rw [hwaiting, mem_erase_waiting hk.waiting] at hw
      exact hw.1 rfl
    | hart h' => cases hok.place_of_waiting hmem (p := .hart h') hp
  have hone : ∀ u p, k'.serving u = some (t, p) → u = s ∧ p = phase := by
    intro u p hu
    rcases serving_cases hu with ⟨hus, hnew⟩ | ⟨hne, hold⟩
    · cases hnew
      exact ⟨hus, rfl⟩
    · exact absurd (hok.server u s p .working hold hs) hne
  have hlive : state ≠ .waiting ∧ state ≠ .unknown ∧ phase ≠ .working := by
    rcases hstate with ⟨rfl, rfl⟩ | ⟨rfl, rfl⟩ <;> decide
  refine hk.of_sameBut (t := t) ⟨fun x hx => ?_, fun x _ r => ?_, fun x hx => ?_, fun _ _ _ _ => rfl,
    fun x hx u p hu => ?_, fun _ _ => rfl⟩ ?_ ?_ ?_
  · show sched.state x = _
    rw [hsched, Function.update_of_ne hx]
  · show x ∈ sched.queue r ↔ _
    rw [hqueue]
  · show x ∈ sched.waiting ↔ _
    rw [hwaiting, mem_erase_waiting hk.waiting]
    simp [hx]
  · rcases serving_cases hu with ⟨-, hnew⟩ | ⟨-, hold⟩
    · cases hnew
      exact absurd rfl hx
    · exact hold
  · show ∀ q, (sched.queue q).Nodup
    rw [hqueue]
    exact hk.queues
  · show sched.waiting.Nodup
    rw [hwaiting]
    exact hk.waiting.erase t
  · constructor
    · intro r hr
      exact absurd hr (hnowhere (.queue r))
    · intro hw
      exact absurd hw (hnowhere .waiting)
    · intro h' hh
      exact absurd hh (hnowhere (.hart h'))
    · intro p p' hp
      exact absurd hp (hnowhere p)
    · intro u hu
      exact absurd (hone u _ hu).2.symm hlive.2.2
    · intro u hu
      refine ⟨?_, hnowhere⟩
      rw [hself]
      rcases hstate with ⟨-, hst⟩ | ⟨hph, -⟩
      · exact hst
      · cases (hone u _ hu).2.trans hph
    · intro u hu
      refine ⟨?_, hnowhere⟩
      rw [hself]
      rcases hstate with ⟨hph, -⟩ | ⟨-, hst⟩
      · cases (hone u _ hu).2.trans hph
      · exact hst
    · intro u u' p p' hu hu'
      rw [(hone u p hu).1, (hone u' p' hu').1]
    · intro hw
      exact absurd (hself.symm.trans hw) hlive.1
    · intro h' hb
      exact absurd (show k'.At t (.hart h') by show (k'.control h').task = _; rw [hb]; rfl) (hnowhere (.hart h'))
    · intro hu
      exact absurd (hself.symm.trans hu) hlive.2.1

omit [DecidableEq H] in
theorem TaskOk.not_served_after {phase : Phase} (hok : TaskOk k t) (hs : k.serving s = some (t, phase))
    (hserving : k'.serving = Function.update k.serving s none) : ¬Served k' t := by
  rintro ⟨u, p, hu⟩
  rw [hserving] at hu
  rcases serving_cases hu with ⟨-, hnone⟩ | ⟨hne, hold⟩
  · cases hnone
  · exact hne (hok.server u s p phase hold hs)

omit [DecidableEq H] in
theorem serving_of_none {p : Phase} {u : T} (hserving : k'.serving = Function.update k.serving s none)
    (hu : k'.serving u = some (x, p)) : k.serving u = some (x, p) := by
  rw [hserving] at hu
  rcases serving_cases hu with ⟨-, hnone⟩ | ⟨-, hold⟩
  · cases hnone
  · exact hold

omit [DecidableEq H] in
theorem KernelOk.wait (hk : KernelOk k) (hs : k.serving s = some (t, .working)) :
    KernelOk { k with wakeup := Function.update k.wakeup t true, serving := Function.update k.serving s none } := by
  have hok := hk.tasks t
  refine hk.of_sameBut (t := t) ⟨fun _ _ => rfl, fun _ _ _ => Iff.rfl, fun _ _ => Iff.rfl, fun _ _ _ _ => rfl,
    fun x _ u p hu => serving_of_none rfl hu, fun x hx => Function.update_of_ne hx ..⟩ hk.queues hk.waiting ?_
  refine .of_not_served (hok.not_served_after hs rfl) hok.queued hok.waits hok.held hok.unique hok.parked ?_ ?_
  · intro h' hb
    exact absurd hb ((hok.working s hs).2.2 h')
  · intro hu
    exact (hok.absent hu).1

theorem KernelOk.complete {phase : Phase} (hk : KernelOk k) (hs : k.serving s = some (t, phase)) (hphase : phase ≠ .working)
    (hsched : k.sched.enqueueTask h t priority = some sched) :
    KernelOk { k with sched, serving := Function.update k.serving s none } := by
  have hok := hk.tasks t
  cases phase with
  | working => exact absurd rfl hphase
  | awakened =>
    obtain ⟨hstate, hnowhere⟩ := hok.awakened s hs
    rw [enqueueTask_enquable hstate] at hsched
    cases hsched
    exact hk.pushed rfl (fun _ _ => rfl) rfl (fun _ _ => Iff.rfl) hk.waiting (fun _ _ _ _ => rfl)
      (fun x _ u p hu => serving_of_none rfl hu) (fun _ _ => rfl) (fun q => hnowhere (.queue q)) (hnowhere .waiting)
      (fun h => hnowhere (.hart h)) (hok.not_served_after hs rfl)
  | exited =>
    obtain ⟨hstate, hnowhere⟩ := hok.exited s hs
    unfold enqueueTask at hsched
    rw [hstate] at hsched
    cases hsched
    refine hk.to_nowhere (t := t) ⟨fun x hx => setState_of_ne hx, fun _ _ _ => Iff.rfl, fun _ _ => Iff.rfl,
      fun _ _ _ _ => rfl, fun x _ u p hu => serving_of_none rfl hu, fun _ _ => rfl⟩ hk.queues hk.waiting ?_ ?_
      (hok.not_served_after hs rfl)
    · intro p hp
      cases p with
      | queue q => exact hnowhere (.queue q) hp
      | waiting => exact hnowhere .waiting hp
      | hart h' => exact hnowhere (.hart h') hp
    · show (k.sched.setState t .unknown).state t ≠ _
      rw [setState_self]
      decide

omit [DecidableEq H] in
theorem moveTaskToState_waiting {s₀ : Scheduler T H} (hmem : t ∈ s₀.waiting) (hwait : s₀.state t = .waiting)
    (hstate : state = .terminated ∨ state = .stopped) :
    ∃ s₁, s₀.moveTaskToState t state = some s₁ ∧ s₁.state = Function.update s₀.state t state ∧
      s₁.queue = s₀.queue ∧ s₁.waiting = s₀.waiting.erase t := by
  refine ⟨(setState { s₀ with waiting := s₀.waiting.erase t } t .enquable).changeState t state, ?_, ?_, ?_, ?_⟩
  · unfold moveTaskToState
    rw [if_pos hwait, if_pos hstate, awakenTask_eq hmem hwait]
    rfl
  · unfold changeState
    rw [setState_self, if_pos ⟨by decide, Or.inl (by decide)⟩]
    exact Function.update_idem ..
  · rw [changeState_queue]
    rfl
  · rw [changeState_waiting]
    rfl

omit [DecidableEq H] in
theorem KernelOk.move (hk : KernelOk k)
    (hstate : state = .terminated ∨ state = .stopped) (hhart : ∀ h, (k.control h).task ≠ some t) (hserved : ¬Served k t)
    (hqueue : ∀ q, t ∉ k.sched.queue q) (hs : k.sched.moveTaskToState t state = some sched) :
    KernelOk { k with sched } := by
  have hok := hk.tasks t
  have hlive : state ≠ .waiting := by rcases hstate with rfl | rfl <;> decide
  by_cases hwait : k.sched.state t = .waiting
  · have hmem : t ∈ k.sched.waiting := by
      refine hok.mem_waiting hwait fun h' => ⟨fun hb => hhart h' ?_, fun hb => hhart h' ?_⟩
      · rw [hb]
        rfl
      · rw [hb]
        rfl
    obtain ⟨s₁, hs₁, h1, h2, h3⟩ := moveTaskToState_waiting hmem hwait hstate
    rw [hs₁] at hs
    obtain rfl : s₁ = sched := Option.some.inj hs
    refine hk.to_nowhere (t := t) ⟨fun x hx => ?_, fun x _ r => ?_, fun x hx => ?_, fun _ _ _ _ => rfl,
      fun _ _ _ _ hu => hu, fun _ _ => rfl⟩ ?_ ?_ ?_ ?_ hserved
    · show s₁.state x = _
      rw [h1, Function.update_of_ne hx]
    · show x ∈ s₁.queue r ↔ _
      rw [h2]
    · show x ∈ s₁.waiting ↔ _
      rw [h3, mem_erase_waiting hk.waiting]
      simp [hx]
    · show ∀ q, (s₁.queue q).Nodup
      rw [h2]
      exact hk.queues
    · show s₁.waiting.Nodup
      rw [h3]
      exact hk.waiting.erase t
    · intro p hp
      cases p with
      | queue q =>
        have hq : t ∈ s₁.queue q := hp
        rw [h2] at hq
        exact hqueue q hq
      | waiting =>
        have hw : t ∈ s₁.waiting := hp
        rw [h3, mem_erase_waiting hk.waiting] at hw
        exact hw.1 rfl
      | hart h' => exact hhart h' hp
    · show s₁.state t ≠ _
      rw [h1, Function.update_self]
      exact hlive
  · rw [moveTaskToState_eq hwait] at hs
    cases hs
    refine hk.to_nowhere (t := t) ⟨fun x hx => changeState_of_ne hx, fun x _ r => ?_, fun x _ => ?_, fun _ _ _ _ => rfl,
      fun _ _ _ _ hu => hu, fun _ _ => rfl⟩ ?_ ?_ ?_ ?_ hserved
    · show x ∈ (k.sched.changeState t state).queue r ↔ _
      rw [changeState_queue]
    · show x ∈ (k.sched.changeState t state).waiting ↔ _
      rw [changeState_waiting]
    · show ∀ q, ((k.sched.changeState t state).queue q).Nodup
      rw [changeState_queue]
      exact hk.queues
    · show (k.sched.changeState t state).waiting.Nodup
      rw [changeState_waiting]
      exact hk.waiting
    · intro p hp
      cases p with
      | queue q =>
        have hq : t ∈ (k.sched.changeState t state).queue q := hp
        rw [changeState_queue] at hq
        exact hqueue q hq
      | waiting =>
        have hw : t ∈ (k.sched.changeState t state).waiting := hp
        rw [changeState_waiting] at hw
        exact hwait (hok.waits hw)
      | hart h' => exact hhart h' hp
    · show (k.sched.changeState t state).state t ≠ _
      unfold changeState
      split_ifs
      · rw [setState_self]
        exact hlive
      · exact hwait

/-- The loop of `awakenTasks` over tasks that are in the waiting list. -/
theorem KernelOk.awakenTasks (hk : KernelOk k) (wakes : T → Bool) (priorities : T → ℕ) (l : List T) (hl : l.Nodup)
    (hmem : ∀ t ∈ l, t ∈ k.sched.waiting)
    (hs : l.foldlM (fun s t => if (k.wakeup t && wakes t) = true then
        (setState { s with waiting := s.waiting.erase t } t .enquable).enqueueTask h t (priorities t) else some s)
      k.sched = some sched) :
    KernelOk { k with sched } := by
  induction l generalizing k with
  | nil =>
    cases hs
    exact hk
  | cons t l ih =>
    rw [List.foldlM_cons] at hs
    obtain ⟨s₁, hs₁, hrest⟩ := Option.bind_eq_some_iff.mp hs
    have hl' := List.nodup_cons.mp hl
    have hin := hmem t List.mem_cons_self
    have hstep : KernelOk { k with sched := s₁ } ∧ ∀ x ∈ l, x ∈ s₁.waiting := by
      split_ifs at hs₁ with hwakes
      · rw [enqueueTask_enquable setState_self] at hs₁
        cases hs₁
        have hok := hk.tasks t
        have hserved : ¬Served k t := by
          rintro ⟨s, p, hs⟩
          cases p with
          | working =>
            have := (hok.working s hs).2.1
            rw [this] at hwakes
            cases hwakes
          | awakened => exact (hok.awakened s hs).2 .waiting hin
          | exited => exact (hok.exited s hs).2 .waiting hin
        constructor
        · refine hk.pushed rfl (fun x hx => setState_of_ne hx) rfl (fun x hx => ?_) (hk.waiting.erase t)
            (fun _ _ _ _ => rfl) (fun _ _ _ _ hu => hu) (fun _ _ => rfl) (fun q hq => ?_) ?_ (fun h' hh => ?_) hserved
          · show x ∈ k.sched.waiting.erase t ↔ _
            rw [mem_erase_waiting hk.waiting]
            simp [hx]
          · cases hok.place_of_waiting hin (p := .queue q) hq
          · show t ∉ k.sched.waiting.erase t
            rw [mem_erase_waiting hk.waiting]
            simp
          · cases hok.place_of_waiting hin (p := .hart h') hh
        · intro x hx
          show x ∈ k.sched.waiting.erase t
          rw [mem_erase_waiting hk.waiting]
          refine ⟨?_, hmem x (List.mem_cons_of_mem _ hx)⟩
          rintro rfl
          exact hl'.1 hx
      · cases hs₁
        exact ⟨hk, fun x hx => hmem x (List.mem_cons_of_mem _ hx)⟩
    exact ih (k := { k with sched := s₁ }) hstep.1 hl'.2 hstep.2 hrest

omit [DecidableEq T] [DecidableEq H] in
theorem KernelOk.fits (hk : KernelOk k) (hc : k.control h = c) (hcT : c.task = some t) : Fits c (k.sched.state t) := by
  subst hc
  exact (hk.tasks t).held h hcT

theorem KernelOk.step {a : KernelAction T H} (hk : KernelOk k) (hg : SchedulerGuarded k a)
    (hs : kernelStep k a = some k') : KernelOk k' := by
  cases a with
  | spawn h t priority => exact hk.createTask hs
  | awakenTasks h wakes priorities =>
    obtain ⟨-, hs⟩ := Option.ite_none_right_eq_some.mp hs
    obtain ⟨sched, hsched, rfl⟩ := Option.map_eq_some_iff.mp hs
    exact hk.awakenTasks wakes priorities k.sched.waiting hk.waiting (fun _ ht => ht) hsched
  | pull h q =>
    obtain ⟨hc, hs⟩ := Option.ite_none_right_eq_some.mp hs
    obtain ⟨⟨t, sched⟩, hsched, rfl⟩ := Option.map_eq_some_iff.mp hs
    exact hk.pull hc hsched
  | enter h =>
    simp only [kernelStep] at hs
    split at hs
    · rename_i t hc
      have hready : k.sched.state t = .ready := hk.fits hc rfl
      have htask : (k.control h).task = some t := by rw [hc]; rfl
      have hserved := (hk.tasks t).not_served htask (Or.inl (by rw [hready]; decide))
      rw [hready, if_neg (by decide), moveTaskToState_eq (by rw [hready]; decide)] at hs
      cases hs
      exact hk.hold_state htask hserved rfl (by rw [hready]; decide) (show Fits (.running t) .running from rfl)
        (fun hw => by cases hw) (by decide)
        (fun _ _ => rfl) (fun hb => by cases hb)
    · cases hs
  | signal h state =>
    simp only [kernelStep] at hs
    split at hs
    · rename_i t hc
      obtain ⟨hstate, hs⟩ := Option.ite_none_right_eq_some.mp hs
      have hready : k.sched.state t = .ready := hk.fits hc rfl
      have htask : (k.control h).task = some t := by rw [hc]; rfl
      have hserved := (hk.tasks t).not_served htask (Or.inl (by rw [hready]; decide))
      rw [moveTaskToState_eq (by rw [hready]; decide)] at hs
      cases hs
      exact hk.hold_state htask hserved rfl (by rw [hready]; decide)
        (show Fits (.returning t) state from Or.inr (Or.inr hstate.symm))
        (fun _ => Or.inr rfl) (by rcases hstate with rfl | rfl <;> decide) (fun _ _ => rfl) (fun hb => by cases hb)
    · cases hs
  | trap h =>
    simp only [kernelStep] at hs
    split at hs
    · rename_i t hc
      have hrunning : k.sched.state t = .running := hk.fits hc rfl
      have htask : (k.control h).task = some t := by rw [hc]; rfl
      have hserved := (hk.tasks t).not_served htask (Or.inl (by rw [hrunning]; decide))
      rw [moveTaskToState_eq (by rw [hrunning]; decide)] at hs
      cases hs
      exact hk.hold_state htask hserved rfl (by rw [hrunning]; decide) (show Fits (.trapped t) .enquable from rfl)
        (fun hw => by cases hw) (by decide)
        (fun _ _ => rfl) (fun hb => by cases hb)
    · cases hs
  | interrupt h =>
    simp only [kernelStep] at hs
    split at hs
    · rename_i t hc
      have henquable : k.sched.state t = .enquable := hk.fits hc rfl
      have htask : (k.control h).task = some t := by rw [hc]; rfl
      have hserved := (hk.tasks t).not_served htask (Or.inl (by rw [henquable]; decide))
      cases hs
      exact hk.hold htask hserved (fun _ _ => rfl) rfl rfl rfl rfl (fun _ _ => rfl) rfl (Or.inl henquable)
        (fun _ => Or.inr rfl) (fun hb => by cases hb) (show k.sched.state t ≠ _ by rw [henquable]; decide)
    · cases hs
  | runSyscall h =>
    simp only [kernelStep] at hs
    split at hs
    · rename_i t hc
      have henquable : k.sched.state t = .enquable := hk.fits hc rfl
      have htask : (k.control h).task = some t := by rw [hc]; rfl
      have hserved := (hk.tasks t).not_served htask (Or.inl (by rw [henquable]; decide))
      rw [moveTaskToState_eq (by rw [henquable]; decide)] at hs
      cases hs
      exact hk.hold_state htask hserved rfl (by rw [henquable]; decide) (show Fits (.blocked t) .waiting from rfl)
        (fun _ => Or.inl rfl) (by decide)
        (fun x hx => Function.update_of_ne hx ..) (fun _ => Function.update_self ..)
    · cases hs
  | createSyscall h s priority =>
    simp only [kernelStep] at hs
    split at hs
    · rename_i t hc
      rw [createTask_serving] at hs
      obtain ⟨k₁, hk₁, rfl⟩ := Option.map_eq_some_iff.mp hs
      obtain ⟨k₂, hk₂, rfl⟩ := Option.map_eq_some_iff.mp hk₁
      have hcontrol : k₂.control = k.control := by
        obtain ⟨-, hk₂⟩ := Option.ite_none_right_eq_some.mp hk₂
        obtain ⟨sched, -, rfl⟩ := Option.map_eq_some_iff.mp hk₂
        rfl
      exact (hk.createTask hk₂).serve (by rw [hcontrol]; exact hc)
    · cases hs
  | enqueue h priority =>
    simp only [kernelStep] at hs
    split at hs
    · rename_i t hc
      obtain ⟨sched, hsched, rfl⟩ := Option.map_eq_some_iff.mp hs
      exact hk.enqueue hc hsched
    · cases hs
  | awaken h =>
    simp only [kernelStep] at hs
    split at hs
    · rename_i s hc
      split at hs
      · rename_i t hserving
        obtain ⟨hwait, -, -⟩ := (hk.tasks t).working s hserving
        have hmem := (hk.tasks t).mem_waiting hwait (hg s t hc hserving)
        rw [awakenTask_eq hmem hwait] at hs
        cases hs
        exact hk.wake hserving hmem (Or.inl ⟨rfl, rfl⟩) rfl rfl rfl
      · cases hs
    · cases hs
  | exit h =>
    simp only [kernelStep] at hs
    split at hs
    · rename_i s hc
      split at hs
      · rename_i t hserving
        obtain ⟨hwait, -, -⟩ := (hk.tasks t).working s hserving
        have hmem := (hk.tasks t).mem_waiting hwait (hg s t hc hserving)
        have hended : TaskState.terminated = .terminated ∨ TaskState.terminated = .stopped := Or.inl rfl
        obtain ⟨s₁, hs₁, h1, h2, h3⟩ := moveTaskToState_waiting hmem hwait hended
        rw [hs₁] at hs
        cases hs
        exact hk.wake hserving hmem (Or.inr ⟨rfl, rfl⟩) h1 h2 h3
      · cases hs
    · cases hs
  | wait h =>
    simp only [kernelStep] at hs
    split at hs
    · split at hs
      · rename_i s hc t hserving
        cases hs
        exact hk.wait hserving
      · cases hs
    · cases hs
  | complete h priority =>
    simp only [kernelStep] at hs
    split at hs
    · split at hs
      · rename_i s hc t hserving
        obtain ⟨sched, hsched, rfl⟩ := Option.map_eq_some_iff.mp hs
        exact hk.complete hserving (by decide) hsched
      · rename_i s hc t hserving
        obtain ⟨sched, hsched, rfl⟩ := Option.map_eq_some_iff.mp hs
        exact hk.complete hserving (by decide) hsched
      · cases hs
    · cases hs
  | finish h =>
    simp only [kernelStep] at hs
    split at hs
    · rename_i s hc
      obtain ⟨-, hs⟩ := Option.ite_none_right_eq_some.mp hs
      have hrunning : k.sched.state s = .running := hk.fits hc rfl
      have htask : (k.control h).task = some s := by rw [hc]; rfl
      have hserved := (hk.tasks s).not_served htask (Or.inl (by rw [hrunning]; decide))
      rw [moveTaskToState_eq (by rw [hrunning]; decide)] at hs
      cases hs
      exact hk.hold_state htask hserved rfl (by rw [hrunning]; decide)
        (show Fits (.returning s) .terminated from Or.inr (Or.inr (Or.inr rfl)))
        (fun hw => by cases hw) (by decide) (fun _ _ => rfl) (fun hb => by cases hb)
    · cases hs
  | move t state =>
    obtain ⟨hstate, hs⟩ := Option.ite_none_right_eq_some.mp hs
    obtain ⟨sched, hsched, rfl⟩ := Option.map_eq_some_iff.mp hs
    obtain ⟨hhart, hserved, hqueue⟩ := hg
    exact hk.move hstate.1 hhart (fun ⟨s, p, hsp⟩ => hserved s p hsp) hqueue hsched

omit [DecidableEq T] [DecidableEq H] in
theorem KernelOk.mem_of_awakens {a : KernelAction T H} (hk : KernelOk k) (hg : SchedulerGuarded k a)
    (ha : awakens k a = some t) : t ∈ k.sched.waiting := by
  have hsyscall : ∀ h, (∀ s t, k.control h = .running s → k.serving s = some (t, .working) → Settled k t) →
      awakens k (.awaken h) = some t → t ∈ k.sched.waiting := by
    intro h hsettled ha
    simp only [awakens] at ha
    split at ha
    · rename_i s hc
      split at ha
      · rename_i u hserving
        cases ha
        exact (hk.tasks t).mem_waiting ((hk.tasks t).working s hserving).1 (hsettled s t hc hserving)
      · cases ha
    · cases ha
  cases a with
  | awaken h => exact hsyscall h hg ha
  | exit h => exact hsyscall h hg ha
  | signal h state =>
    simp only [awakens] at ha
    split at ha
    · rename_i u hc
      obtain ⟨hwait, hu⟩ := Option.ite_none_right_eq_some.mp ha
      have hready : k.sched.state u = .ready := hk.fits hc rfl
      rw [hwait] at hready
      cases hready
    · cases ha
  | move u state =>
    obtain ⟨hwait, hu⟩ := Option.ite_none_right_eq_some.mp ha
    cases hu
    refine (hk.tasks t).mem_waiting hwait fun h' => ⟨fun hb => hg.1 h' ?_, fun hb => hg.1 h' ?_⟩
    · rw [hb]
      rfl
    · rw [hb]
      rfl
  | _ => cases ha

omit [DecidableEq T] [DecidableEq H] in
theorem bootKernel_ok : KernelOk (bootKernel T H) := by
  have hnowhere : ∀ (x : T) (p : Place H), ¬(bootKernel T H).At x p := by
    intro x p hp
    cases p with
    | queue q => cases hp
    | waiting => cases hp
    | hart h => cases hp
  refine ⟨fun _ => List.nodup_nil, List.nodup_nil, fun x => .of_not_served ?_ ?_ ?_ ?_ ?_ ?_ ?_ ?_⟩
  · rintro ⟨s, p, hs⟩
    cases hs
  · intro q hq
    cases hq
  · intro hw
    cases hw
  · intro h hh
    cases hh
  · intro p q hp
    exact absurd hp (hnowhere x p)
  · intro hw
    cases hw
  · intro h hb
    cases hb
  · intro _
    exact hnowhere x

/-- Over every run of guarded steps, every task is in at most one list and once, and only tasks of the
waiting list are awakened. -/
theorem scheduler_discipline {acts : List (KernelAction T H)}
    (hr : Runs kernelStep SchedulerGuarded (bootKernel T H) acts k) :
    Listed k.sched ∧ ∀ a t, SchedulerGuarded k a → awakens k a = some t → t ∈ k.sched.waiting := by
  have hk : KernelOk k := hr.invariant (fun _ _ _ hs hok hst => hs.step hok hst) bootKernel_ok
  exact ⟨hk.listed, fun a t hg ha => hk.mem_of_awakens hg ha⟩

end Steps

/-- Task 0 makes a system call on the hart `false`, which creates task 1 for it. -/
def makeSyscall : List (KernelAction ℕ Bool) :=
  [.spawn false 0 20, .pull false false, .enter false, .trap false, .runSyscall false, .createSyscall false 1 20]

/-- The system call is run by the other hart after task 0 has been put into the waiting list. -/
theorem scheduler_discipline_syscall :
    ∃ k : Kernel ℕ Bool, Runs kernelStep SchedulerGuarded (bootKernel ℕ Bool)
      (makeSyscall ++ [.enqueue false 20, .pull true false, .enter true]) k ∧
      awakens k (.awaken true) = some 0 ∧ 0 ∈ k.sched.waiting := by
  have hr : Runs kernelStep SchedulerGuarded (bootKernel ℕ Bool)
      (makeSyscall ++ [.enqueue false 20, .pull true false, .enter true]) _ :=
    .cons trivial rfl (.cons trivial rfl (.cons trivial rfl (.cons trivial rfl (.cons trivial rfl (.cons trivial rfl
      (.cons trivial rfl (.cons trivial rfl (.cons trivial rfl (.nil _)))))))))
  refine ⟨_, hr, rfl, (scheduler_discipline hr).2 (.awaken true) 0 ?_ rfl⟩
  intro s t _ _ h
  cases h with
  | false => exact ⟨by rintro ⟨⟩, by rintro ⟨⟩⟩
  | true => exact ⟨by rintro ⟨⟩, by rintro ⟨⟩⟩

/-- The other hart runs the system call before task 0 has been put into the waiting list. -/
theorem awakened_before_waiting :
    ∃ k : Kernel ℕ Bool, Runs kernelStep (fun _ _ => True) (bootKernel ℕ Bool)
      (makeSyscall ++ [.pull true false, .enter true]) k ∧
      awakens k (.awaken true) = some 0 ∧ 0 ∉ k.sched.waiting :=
  ⟨_, .cons trivial rfl (.cons trivial rfl (.cons trivial rfl (.cons trivial rfl (.cons trivial rfl (.cons trivial rfl
    (.cons trivial rfl (.cons trivial rfl (.nil _)))))))), rfl, by rintro ⟨⟩⟩

end SomeOs.Tasks

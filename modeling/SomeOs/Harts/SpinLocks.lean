import SomeOs.Base.Transition

/-! # Spin locks

A hart that takes a spin lock leaves the task it runs and comes back to it with the last lock it
gives back, so that it is not preempted with a lock held. That is so as long as locks are given
back in the opposite order, which `criticalReturn` asserts: the task to come back to is kept with
the lock that was taken first. A hart may take a lock that it holds already. The owner and the
number of its calls are plain memory, which every hart reads before it has the lock. All accesses
are steps of their own, and harts take them in any order.
-/
namespace SomeOs.Harts
open Transition
variable {L H T : Type*}

structure SpinLock (H T : Type*) where
  unsafelock : Bool
  locked_by : Option H
  num_locks : ℕ
  crit_ret_frame : Option T
  deriving DecidableEq

/-- `initSpinLock` -/
def SpinLock.free : SpinLock H T := ⟨false, none, 0, none⟩

/-- The next step of a hart in `lockSpinLock`, `tryLockingSpinLock` or `unlockSpinLock`. The task that
it has left is a local of the first two. -/
inductive SpinPhase (L T : Type*) where
  | outside
  /-- The owner is read. -/
  | test (l : L) (task : Option T)
  /-- `lockUnsafeLock` -/
  | acquire (l : L) (task : Option T)
  | setOwner (l : L) (task : Option T)
  | setReturn (l : L) (task : Option T)
  | load (l : L)
  | store (l : L) (num_locks : ℕ)
  | tryTest (l : L) (task : Option T)
  | tryAcquire (l : L) (task : Option T)
  | tryLoad (l : L) (task : Option T)
  | tryStore (l : L) (task : Option T) (num_locks : ℕ)
  | trySetOwner (l : L) (task : Option T)
  | trySetReturn (l : L) (task : Option T)
  | unlockLoad (l : L)
  | unlockStore (l : L) (num_locks : ℕ)
  | unlockTest (l : L)
  | clearOwner (l : L)
  | loadReturn (l : L)
  | clearReturn (l : L) (task : Option T)
  | release (l : L) (task : Option T)
  /-- `criticalReturn` -/
  | leave (task : Option T)
  deriving DecidableEq

/-- What a hart does, the task that it runs, the locks that it has taken and not given back, the last one
first, and the task that it ran or not when it had none. -/
structure Hart (L T : Type*) where
  phase : SpinPhase L T
  task : Option T
  held : List L
  home : Option T

structure SpinState (L H T : Type*) where
  lock : L → SpinLock H T
  hart : H → Hart L T

inductive SpinAction (L H T : Type*) where
  | lockSpinLock (h : H) (l : L)
  | tryLockingSpinLock (h : H) (l : L)
  | unlockSpinLock (h : H) (l : L)
  | advance (h : H)
  /-- The hart runs another task, or none. -/
  | switch (h : H) (task : Option T)

variable [DecidableEq L]

section Step
variable [DecidableEq H]

namespace SpinState

def setHart (s : SpinState L H T) (h : H) (hart : Hart L T) : SpinState L H T := { s with hart := Function.update s.hart h hart }

def setPhase (s : SpinState L H T) (h : H) (phase : SpinPhase L T) : SpinState L H T :=
    s.setHart h { s.hart h with phase := phase }

def setLock (s : SpinState L H T) (l : L) (lock : SpinLock H T) : SpinState L H T :=
    { s with lock := Function.update s.lock l lock }

/-- `criticalEnter`. The result is the task that is left. -/
def criticalEnter (s : SpinState L H T) (h : H) : SpinState L H T := s.setHart h { s.hart h with task := none }

def taken (s : SpinState L H T) (h : H) (l : L) : SpinState L H T :=
  s.setHart h { s.hart h with phase := .outside, held := l :: (s.hart h).held }

def advance (s : SpinState L H T) (h : H) : Option (SpinState L H T) :=
  match (s.hart h).phase with
  | .outside => none
  | .test l task => some (s.setPhase h (if (s.lock l).locked_by = some h then .load l else .acquire l task))
  | .acquire l task =>
    if (s.lock l).unsafelock then some s
    else some ((s.setLock l { s.lock l with unsafelock := true }).setPhase h (.setOwner l task))
  | .setOwner l task => some ((s.setLock l { s.lock l with locked_by := some h }).setPhase h (.setReturn l task))
  | .setReturn l task => some ((s.setLock l { s.lock l with crit_ret_frame := task }).setPhase h (.load l))
  | .load l => some (s.setPhase h (.store l (s.lock l).num_locks))
  | .store l n => some ((s.setLock l { s.lock l with num_locks := n + 1 }).taken h l)
  | .tryTest l task => some (s.setPhase h (if (s.lock l).locked_by = some h then .tryLoad l task else .tryAcquire l task))
  | .tryAcquire l task =>
    if (s.lock l).unsafelock then some (s.setPhase h (.leave task))
    else some ((s.setLock l { s.lock l with unsafelock := true }).setPhase h (.tryLoad l task))
  | .tryLoad l task => some (s.setPhase h (.tryStore l task (s.lock l).num_locks))
  | .tryStore l task n => some ((s.setLock l { s.lock l with num_locks := n + 1 }).setPhase h (.trySetOwner l task))
  | .trySetOwner l task => some ((s.setLock l { s.lock l with locked_by := some h }).setPhase h (.trySetReturn l task))
  | .trySetReturn l task => some ((s.setLock l { s.lock l with crit_ret_frame := task }).taken h l)
  | .unlockLoad l => some (s.setPhase h (.unlockStore l (s.lock l).num_locks))
  | .unlockStore l n =>
    some ((s.setLock l { s.lock l with num_locks := n - 1 }).setHart h
      { s.hart h with phase := .unlockTest l, held := (s.hart h).held.erase l })
  | .unlockTest l => some (s.setPhase h (if (s.lock l).num_locks = 0 then .clearOwner l else .outside))
  | .clearOwner l => some ((s.setLock l { s.lock l with locked_by := none }).setPhase h (.loadReturn l))
  | .loadReturn l => some (s.setPhase h (.clearReturn l (s.lock l).crit_ret_frame))
  | .clearReturn l task => some ((s.setLock l { s.lock l with crit_ret_frame := none }).setPhase h (.release l task))
  | .release l task => some ((s.setLock l { s.lock l with unsafelock := false }).setPhase h (.leave task))
  | .leave task => some (s.setHart h { s.hart h with phase := .outside, task := task.or (s.hart h).task })

end SpinState

/-- A hart gives back any lock that it has, and tasks are switched only with no lock held. -/
def spinStep [DecidableEq T] (s : SpinState L H T) : SpinAction L H T → Option (SpinState L H T)
  | .lockSpinLock h l =>
    if (s.hart h).phase = .outside then some ((s.criticalEnter h).setPhase h (.test l (s.hart h).task)) else none
  | .tryLockingSpinLock h l =>
    if (s.hart h).phase = .outside then some ((s.criticalEnter h).setPhase h (.tryTest l (s.hart h).task)) else none
  | .unlockSpinLock h l => if (s.hart h).phase = .outside ∧ l ∈ (s.hart h).held then some (s.setPhase h (.unlockLoad l)) else none
  | .advance h => s.advance h
  | .switch h task =>
    if (s.hart h).phase = .outside ∧ (s.hart h).held = [] then
      some (s.setHart h { s.hart h with task := task, home := task })
    else none

/-- A lock that the hart holds already is not tried, as the task to come back to would be lost, and the
lock that was taken last is given back first. -/
def WellNested (s : SpinState L H T) : SpinAction L H T → Prop
  | .tryLockingSpinLock h l => l ∉ (s.hart h).held
  | .unlockSpinLock h l => (s.hart h).held.head? = some l
  | _ => True

instance (s : SpinState L H T) (a : SpinAction L H T) : Decidable (WellNested s a) :=
  match a with
  | .tryLockingSpinLock h l => inferInstanceAs (Decidable (l ∉ (s.hart h).held))
  | .unlockSpinLock h l => inferInstanceAs (Decidable ((s.hart h).held.head? = some l))
  | .lockSpinLock _ _ => isTrue trivial
  | .advance _ => isTrue trivial
  | .switch _ _ => isTrue trivial

end Step

def SpinState.initial (task : H → Option T) : SpinState L H T := ⟨fun _ => .free, fun h => ⟨.outside, task h, [], task h⟩⟩

namespace Hart

def back (v : Hart L T) : Option T := if v.held = [] then v.home else none

/-- What the memory of a lock holds that the hart has and does nothing with. -/
def resting (h : H) (v : Hart L T) (l : L) : Option (SpinLock H T) :=
  if l ∈ v.held then some ⟨true, some h, v.held.count l, if v.held.getLast? = some l then v.home else none⟩ else none

/-- What the memory of a lock holds that the hart has. -/
def content (h : H) (v : Hart L T) (l : L) : Option (SpinLock H T) :=
  match v.phase with
  | .setOwner l' _ => if l = l' then some ⟨true, none, 0, none⟩ else v.resting h l
  | .setReturn l' _ => if l = l' then some ⟨true, some h, 0, none⟩ else v.resting h l
  | .load l' => if l = l' ∧ l ∉ v.held then some ⟨true, some h, 0, v.back⟩ else v.resting h l
  | .store l' _ => if l = l' ∧ l ∉ v.held then some ⟨true, some h, 0, v.back⟩ else v.resting h l
  | .tryLoad l' _ => if l = l' then some ⟨true, none, 0, none⟩ else v.resting h l
  | .tryStore l' _ _ => if l = l' then some ⟨true, none, 0, none⟩ else v.resting h l
  | .trySetOwner l' _ => if l = l' then some ⟨true, none, 1, none⟩ else v.resting h l
  | .trySetReturn l' _ => if l = l' then some ⟨true, some h, 1, none⟩ else v.resting h l
  | .unlockTest l' => if l = l' ∧ l ∉ v.held then some ⟨true, some h, 0, v.back⟩ else v.resting h l
  | .clearOwner l' => if l = l' then some ⟨true, some h, 0, v.back⟩ else v.resting h l
  | .loadReturn l' => if l = l' then some ⟨true, none, 0, v.back⟩ else v.resting h l
  | .clearReturn l' _ => if l = l' then some ⟨true, none, 0, v.back⟩ else v.resting h l
  | .release l' _ => if l = l' then some ⟨true, none, 0, none⟩ else v.resting h l
  | _ => v.resting h l

/-- What the hart knows: the task to come back to, and the number it has read. -/
def Knows (v : Hart L T) : Prop :=
  match v.phase with
  | .outside => v.task = v.back
  | .test _ task => v.task = none ∧ task = v.back
  | .acquire l task => v.task = none ∧ task = v.back ∧ l ∉ v.held
  | .setOwner l task => v.task = none ∧ task = v.back ∧ l ∉ v.held
  | .setReturn l task => v.task = none ∧ task = v.back ∧ l ∉ v.held
  | .load _ => v.task = none
  | .store l n => v.task = none ∧ n = v.held.count l
  | .tryTest l task => v.task = none ∧ task = v.back ∧ l ∉ v.held
  | .tryAcquire l task => v.task = none ∧ task = v.back ∧ l ∉ v.held
  | .tryLoad l task => v.task = none ∧ task = v.back ∧ l ∉ v.held
  | .tryStore l task n => v.task = none ∧ task = v.back ∧ l ∉ v.held ∧ n = 0
  | .trySetOwner l task => v.task = none ∧ task = v.back ∧ l ∉ v.held
  | .trySetReturn l task => v.task = none ∧ task = v.back ∧ l ∉ v.held
  | .unlockLoad l => v.task = none ∧ v.held.head? = some l
  | .unlockStore l n => v.task = none ∧ v.held.head? = some l ∧ n = v.held.count l
  | .unlockTest _ => v.task = none
  | .clearOwner l => v.task = none ∧ l ∉ v.held
  | .loadReturn l => v.task = none ∧ l ∉ v.held
  | .clearReturn l task => v.task = none ∧ l ∉ v.held ∧ task = v.back
  | .release l task => v.task = none ∧ l ∉ v.held ∧ task = v.back
  | .leave task => v.task = none ∧ task = v.back

end Hart

structure SpinState.Exclusive (s : SpinState L H T) : Prop where
  content : ∀ h l c, (s.hart h).content h l = some c → s.lock l = c
  free : ∀ l, (∀ h, (s.hart h).content h l = none) → s.lock l = .free
  single : ∀ h h' l, (s.hart h).content h l ≠ none → (s.hart h').content h' l ≠ none → h = h'
  knows : ∀ h, (s.hart h).Knows

namespace Hart
variable {h : H} {v : Hart L T} {l l' : L} {c : SpinLock H T}

theorem content_owner (hc : v.content h l = some c) : c.unsafelock = true ∧ (c.locked_by = none ∨ c.locked_by = some h) := by
  unfold content resting at hc
  split at hc <;> (try split_ifs at hc) <;> cases hc <;> simp

theorem resting_mem (hl : l ∈ v.held) :
    v.resting h l = some ⟨true, some h, v.held.count l, if v.held.getLast? = some l then v.home else none⟩ := if_pos hl

theorem content_mem (hsame : v.content h l = v.resting h l) (hl : l ∈ v.held) :
    v.content h l = some ⟨true, some h, v.held.count l, if v.held.getLast? = some l then v.home else none⟩ :=
  hsame.trans (resting_mem hl)

theorem resting_not_mem (hl : l ∉ v.held) : v.resting h l = none := if_neg hl

theorem resting_cons (hne : l' ≠ l) (phase phase' : SpinPhase L T) (task task' : Option T) (held : List L) (home : Option T) :
    (⟨phase, task, l :: held, home⟩ : Hart L T).resting h l' = (⟨phase', task', held, home⟩ : Hart L T).resting h l' := by
  unfold resting
  cases held with
  | nil => simp [hne]
  | cons m held => simp [hne, hne.symm, List.getLast?_cons_cons]

theorem resting_first (hl : l ∉ v.held) (phase : SpinPhase L T) (task : Option T) :
    (⟨phase, task, l :: v.held, v.home⟩ : Hart L T).resting h l = some ⟨true, some h, 1, v.back⟩ := by
  have hcount : v.held.count l = 0 := List.count_eq_zero.mpr hl
  unfold resting back
  cases hheld : v.held with
  | nil => simp
  | cons m held =>
    have hlast : (m :: held).getLast? ≠ some l := fun hlast => hl (hheld ▸ List.mem_of_getLast? hlast)
    simp [hheld ▸ hcount, List.getLast?_cons_cons, hlast]

theorem resting_again (hl : l ∈ v.held) (phase : SpinPhase L T) (task : Option T) :
    (⟨phase, task, l :: v.held, v.home⟩ : Hart L T).resting h l =
      some ⟨true, some h, v.held.count l + 1, if v.held.getLast? = some l then v.home else none⟩ := by
  unfold resting
  cases hheld : v.held with
  | nil => simp [hheld] at hl
  | cons m held => simp [List.getLast?_cons_cons]

end Hart

namespace SpinState
variable {s t : SpinState L H T} {h : H} {l : L} {v : Hart L T} {c : SpinLock H T}

theorem exclusive_initial (task : H → Option T) : (initial task : SpinState L H T).Exclusive where
  content h l c hc := by simp [initial, Hart.content, Hart.resting] at hc
  free l _ := rfl
  single h h' l hne _ := by simp [initial, Hart.content, Hart.resting] at hne
  knows h := by simp [initial, Hart.Knows, Hart.back]

theorem Exclusive.others (hs : s.Exclusive) (hc : (s.hart h).content h l = some c) (h' : H) (hne : h' ≠ h) :
    (s.hart h').content h' l = none := by
  by_contra hother
  exact hne (hs.single h' h l hother (by simp [hc]))

theorem Exclusive.unlocked (hs : s.Exclusive) (hunlocked : (s.lock l).unsafelock = false) (h' : H) :
    (s.hart h').content h' l = none := by
  by_contra hc
  obtain ⟨c, hc⟩ := Option.ne_none_iff_exists'.mp hc
  have hlocked := (Hart.content_owner hc).1
  rw [hs.content h' l c hc, hlocked] at hunlocked
  cases hunlocked

variable [DecidableEq H]

omit [DecidableEq H] in
@[simp] theorem setLock_hart (s : SpinState L H T) (l : L) (c : SpinLock H T) : (s.setLock l c).hart = s.hart := rfl

/-- A hart writes the memory of a lock that no other one has. -/
theorem Exclusive.write (hs : s.Exclusive) (hothers : ∀ h', h' ≠ h → (s.hart h').content h' l = none)
    (hsame : ∀ l', l' ≠ l → v.content h l' = (s.hart h).content h l') (hc : (v.content h l).getD .free = c) (hknows : v.Knows) :
    ((s.setLock l c).setHart h v).Exclusive := by
  have hhart : ∀ h', ((s.setLock l c).setHart h v).hart h' = if h' = h then v else s.hart h' := by
    intro h'
    simp [setLock, setHart, Function.update_apply]
  have hlock : ∀ l', ((s.setLock l c).setHart h v).lock l' = if l' = l then c else s.lock l' := by
    intro l'
    simp [setLock, setHart, Function.update_apply]
  have hkept : ∀ h' l', l' ≠ l → (((s.setLock l c).setHart h v).hart h').content h' l' = (s.hart h').content h' l' := by
    intro h' l' hne
    rw [hhart]
    split_ifs with heq
    · rw [heq, hsame l' hne]
    · rfl
  have hhere : ∀ h', (((s.setLock l c).setHart h v).hart h').content h' l = if h' = h then v.content h l else none := by
    intro h'
    rw [hhart]
    split_ifs with heq
    · rw [heq]
    · exact hothers h' heq
  constructor
  · intro h' l' c' hc'
    rw [hlock]
    split_ifs with hl
    · rw [hl, hhere] at hc'
      split_ifs at hc'
      rw [← hc, hc', Option.getD_some]
    · rw [hkept h' l' hl] at hc'
      exact hs.content h' l' c' hc'
  · intro l' hnone
    rw [hlock]
    split_ifs with hl
    · have hown := hnone h
      rw [hl, hhere, if_pos rfl] at hown
      rw [← hc, hown, Option.getD_none]
    · exact hs.free l' fun h' => by rw [← hkept h' l' hl, hnone h']
  · intro h₁ h₂ l' h₁' h₂'
    by_cases hl : l' = l
    · subst hl
      rw [hhere] at h₁' h₂'
      split_ifs at h₁' with heq₁
      · split_ifs at h₂' with heq₂
        · rw [heq₁, heq₂]
        · exact absurd rfl h₂'
      · exact absurd rfl h₁'
    · rw [hkept _ _ hl] at h₁' h₂'
      exact hs.single h₁ h₂ l' h₁' h₂'
  · intro h'
    rw [hhart]
    split_ifs
    · exact hknows
    · exact hs.knows h'

theorem Exclusive.move (hs : s.Exclusive) (hsame : ∀ l', v.content h l' = (s.hart h).content h l') (hknows : v.Knows) :
    (s.setHart h v).Exclusive := by
  have hcontent : ∀ h' l', ((s.setHart h v).hart h').content h' l' = (s.hart h').content h' l' := by
    intro h' l'
    by_cases heq : h' = h
    · subst heq
      simp [setHart, hsame]
    · simp [setHart, heq]
  constructor
  · exact fun h' l' c' hc' => hs.content h' l' c' (hcontent h' l' ▸ hc')
  · exact fun l' hnone => hs.free l' fun h' => hcontent h' l' ▸ hnone h'
  · exact fun h₁ h₂ l' h₁' h₂' => hs.single h₁ h₂ l' (hcontent h₁ l' ▸ h₁') (hcontent h₂ l' ▸ h₂')
  · intro h'
    by_cases heq : h' = h
    · subst heq
      simpa [setHart] using hknows
    · simpa [setHart, heq] using hs.knows h'

omit [DecidableEq H] in
/-- A hart reads its own name in a lock only if it has it. -/
theorem Exclusive.locked_by (hs : s.Exclusive) (hresting : (s.hart h).content h l = (s.hart h).resting h l) :
    (s.lock l).locked_by = some h ↔ l ∈ (s.hart h).held := by
  constructor
  · intro hmine
    by_contra hl
    rw [Hart.resting_not_mem hl] at hresting
    by_cases hfree : ∀ h', (s.hart h').content h' l = none
    · rw [hs.free l hfree] at hmine
      cases hmine
    · obtain ⟨h', hc⟩ := not_forall.mp hfree
      obtain ⟨c, hc⟩ := Option.ne_none_iff_exists'.mp hc
      rw [hs.content h' l c hc] at hmine
      rcases (Hart.content_owner hc).2 with hnone | hother
      · rw [hnone] at hmine
        cases hmine
      · rw [hother] at hmine
        obtain rfl := Option.some.inj hmine
        rw [hresting] at hc
        cases hc
  · intro hl
    rw [Hart.resting_mem hl] at hresting
    rw [hs.content h l _ hresting]

section Calls
variable {task : Option T} {n : ℕ}

theorem Exclusive.test (hs : s.Exclusive) (hphase : (s.hart h).phase = .test l task) :
    (s.setPhase h (if (s.lock l).locked_by = some h then .load l else .acquire l task)).Exclusive := by
  have hmine := hs.locked_by (h := h) (l := l) (by simp [Hart.content, hphase])
  have hknows := hs.knows h
  simp only [Hart.Knows, hphase] at hknows
  by_cases hl : l ∈ (s.hart h).held
  · rw [if_pos (hmine.mpr hl)]
    refine hs.move (fun l' => ?_) ?_
    · by_cases hne : l' = l <;> simp [Hart.content, Hart.resting, hphase, hne, hl]
    · simp [Hart.Knows, hknows.1]
  · rw [if_neg (mt hmine.mp hl)]
    refine hs.move (fun l' => ?_) ?_
    · simp [Hart.content, Hart.resting, hphase]
    · simpa [Hart.Knows, Hart.back, hl] using hknows

theorem Exclusive.acquire (hs : s.Exclusive) (hphase : (s.hart h).phase = .acquire l task)
    (hunlocked : (s.lock l).unsafelock = false) :
    ((s.setLock l { s.lock l with unsafelock := true }).setPhase h (.setOwner l task)).Exclusive := by
  have hfree := hs.unlocked hunlocked
  have hknows := hs.knows h
  simp only [Hart.Knows, hphase] at hknows
  refine hs.write (v := { s.hart h with phase := .setOwner l task }) (fun h' _ => hfree h') (fun l' hne => ?_) ?_ ?_
  · simp [Hart.content, Hart.resting, hphase, hne]
  · simp [Hart.content, hs.free l hfree, SpinLock.free]
  · simpa [Hart.Knows, Hart.back] using hknows

theorem Exclusive.setOwner (hs : s.Exclusive) (hphase : (s.hart h).phase = .setOwner l task) :
    ((s.setLock l { s.lock l with locked_by := some h }).setPhase h (.setReturn l task)).Exclusive := by
  have hc : (s.hart h).content h l = some ⟨true, none, 0, none⟩ := by simp [Hart.content, hphase]
  have hknows := hs.knows h
  simp only [Hart.Knows, hphase] at hknows
  refine hs.write (v := { s.hart h with phase := .setReturn l task }) (hs.others hc) (fun l' hne => ?_) ?_ ?_
  · simp [Hart.content, Hart.resting, hphase, hne]
  · simp [Hart.content, hs.content h l _ hc]
  · simpa [Hart.Knows, Hart.back] using hknows

theorem Exclusive.setReturn (hs : s.Exclusive) (hphase : (s.hart h).phase = .setReturn l task) :
    ((s.setLock l { s.lock l with crit_ret_frame := task }).setPhase h (.load l)).Exclusive := by
  have hc : (s.hart h).content h l = some ⟨true, some h, 0, none⟩ := by simp [Hart.content, hphase]
  have hknows := hs.knows h
  simp only [Hart.Knows, hphase] at hknows
  refine hs.write (v := { s.hart h with phase := .load l }) (hs.others hc) (fun l' hne => ?_) ?_ ?_
  · simp [Hart.content, Hart.resting, hphase, hne]
  · simp [Hart.content, hs.content h l _ hc, hknows, Hart.back]
  · simp [Hart.Knows, hknows.1]

theorem Exclusive.load (hs : s.Exclusive) (hphase : (s.hart h).phase = .load l) :
    (s.setPhase h (.store l (s.lock l).num_locks)).Exclusive := by
  have hknows := hs.knows h
  simp only [Hart.Knows, hphase] at hknows
  have hnum : (s.lock l).num_locks = (s.hart h).held.count l := by
    by_cases hl : l ∈ (s.hart h).held
    · rw [hs.content h l _ (by simpa [Hart.content, hphase, hl] using Hart.resting_mem hl)]
    · rw [hs.content h l ⟨true, some h, 0, (s.hart h).back⟩ (by simp [Hart.content, hphase, hl]), List.count_eq_zero.mpr hl]
  refine hs.move (fun l' => ?_) ?_
  · simp [Hart.content, Hart.resting, Hart.back, hphase]
  · simp [Hart.Knows, hknows, hnum]

theorem Exclusive.store (hs : s.Exclusive) (hphase : (s.hart h).phase = .store l n) :
    ((s.setLock l { s.lock l with num_locks := n + 1 }).taken h l).Exclusive := by
  have hknows := hs.knows h
  simp only [Hart.Knows, hphase] at hknows
  by_cases hl : l ∈ (s.hart h).held
  · have hc := Hart.content_mem (h := h) (v := s.hart h) (by simp [Hart.content, hphase, hl]) hl
    refine hs.write (v := { s.hart h with phase := .outside, held := l :: (s.hart h).held }) (hs.others hc)
      (fun l' hne => ?_) ?_ ?_
    · simpa [Hart.content, hphase, hne] using Hart.resting_cons hne _ _ _ _ _ _
    · simp only [Hart.content]
      rw [hs.content h l _ hc, hknows.2, Hart.resting_again hl]
      rfl
    · simp [Hart.Knows, Hart.back, hknows.1]
  · have hc : (s.hart h).content h l = some ⟨true, some h, 0, (s.hart h).back⟩ := by simp [Hart.content, hphase, hl]
    refine hs.write (v := { s.hart h with phase := .outside, held := l :: (s.hart h).held }) (hs.others hc)
      (fun l' hne => ?_) ?_ ?_
    · simpa [Hart.content, hphase, hne] using Hart.resting_cons hne _ _ _ _ _ _
    · simp only [Hart.content]
      rw [hs.content h l _ hc, hknows.2, List.count_eq_zero.mpr hl, Hart.resting_first hl]
      rfl
    · simp [Hart.Knows, Hart.back, hknows.1]

theorem Exclusive.tryTest (hs : s.Exclusive) (hphase : (s.hart h).phase = .tryTest l task) :
    (s.setPhase h (if (s.lock l).locked_by = some h then .tryLoad l task else .tryAcquire l task)).Exclusive := by
  have hmine := hs.locked_by (h := h) (l := l) (by simp [Hart.content, hphase])
  have hknows := hs.knows h
  simp only [Hart.Knows, hphase] at hknows
  rw [if_neg (mt hmine.mp hknows.2.2)]
  refine hs.move (fun l' => ?_) ?_
  · simp [Hart.content, Hart.resting, hphase]
  · simpa [Hart.Knows, Hart.back] using hknows

theorem Exclusive.tryAcquire (hs : s.Exclusive) (hphase : (s.hart h).phase = .tryAcquire l task)
    (hunlocked : (s.lock l).unsafelock = false) :
    ((s.setLock l { s.lock l with unsafelock := true }).setPhase h (.tryLoad l task)).Exclusive := by
  have hfree := hs.unlocked hunlocked
  have hknows := hs.knows h
  simp only [Hart.Knows, hphase] at hknows
  refine hs.write (v := { s.hart h with phase := .tryLoad l task }) (fun h' _ => hfree h') (fun l' hne => ?_) ?_ ?_
  · simp [Hart.content, Hart.resting, hphase, hne]
  · simp [Hart.content, hs.free l hfree, SpinLock.free]
  · simpa [Hart.Knows, Hart.back] using hknows

theorem Exclusive.tryFail (hs : s.Exclusive) (hphase : (s.hart h).phase = .tryAcquire l task) :
    (s.setPhase h (.leave task)).Exclusive := by
  have hknows := hs.knows h
  simp only [Hart.Knows, hphase] at hknows
  refine hs.move (fun l' => ?_) ?_
  · simp [Hart.content, Hart.resting, hphase]
  · simpa [Hart.Knows, Hart.back] using And.intro hknows.1 hknows.2.1

theorem Exclusive.tryLoad (hs : s.Exclusive) (hphase : (s.hart h).phase = .tryLoad l task) :
    (s.setPhase h (.tryStore l task (s.lock l).num_locks)).Exclusive := by
  have hc : (s.hart h).content h l = some ⟨true, none, 0, none⟩ := by simp [Hart.content, hphase]
  have hknows := hs.knows h
  simp only [Hart.Knows, hphase] at hknows
  rw [hs.content h l _ hc]
  refine hs.move (fun l' => ?_) ?_
  · simp [Hart.content, Hart.resting, hphase]
  · simpa [Hart.Knows, Hart.back] using hknows

theorem Exclusive.tryStore (hs : s.Exclusive) (hphase : (s.hart h).phase = .tryStore l task n) :
    ((s.setLock l { s.lock l with num_locks := n + 1 }).setPhase h (.trySetOwner l task)).Exclusive := by
  have hc : (s.hart h).content h l = some ⟨true, none, 0, none⟩ := by simp [Hart.content, hphase]
  have hknows := hs.knows h
  simp only [Hart.Knows, hphase] at hknows
  refine hs.write (v := { s.hart h with phase := .trySetOwner l task }) (hs.others hc) (fun l' hne => ?_) ?_ ?_
  · simp [Hart.content, Hart.resting, hphase, hne]
  · simp [Hart.content, hs.content h l _ hc, hknows.2.2.2]
  · simpa [Hart.Knows, Hart.back] using And.intro hknows.1 (And.intro hknows.2.1 hknows.2.2.1)

theorem Exclusive.trySetOwner (hs : s.Exclusive) (hphase : (s.hart h).phase = .trySetOwner l task) :
    ((s.setLock l { s.lock l with locked_by := some h }).setPhase h (.trySetReturn l task)).Exclusive := by
  have hc : (s.hart h).content h l = some ⟨true, none, 1, none⟩ := by simp [Hart.content, hphase]
  have hknows := hs.knows h
  simp only [Hart.Knows, hphase] at hknows
  refine hs.write (v := { s.hart h with phase := .trySetReturn l task }) (hs.others hc) (fun l' hne => ?_) ?_ ?_
  · simp [Hart.content, Hart.resting, hphase, hne]
  · simp [Hart.content, hs.content h l _ hc]
  · simpa [Hart.Knows, Hart.back] using hknows

theorem Exclusive.trySetReturn (hs : s.Exclusive) (hphase : (s.hart h).phase = .trySetReturn l task) :
    ((s.setLock l { s.lock l with crit_ret_frame := task }).taken h l).Exclusive := by
  have hc : (s.hart h).content h l = some ⟨true, some h, 1, none⟩ := by simp [Hart.content, hphase]
  have hknows := hs.knows h
  simp only [Hart.Knows, hphase] at hknows
  refine hs.write (v := { s.hart h with phase := .outside, held := l :: (s.hart h).held }) (hs.others hc) (fun l' hne => ?_) ?_ ?_
  · simpa [Hart.content, hphase, hne] using Hart.resting_cons hne _ _ _ _ _ _
  · simp only [Hart.content]
    rw [hs.content h l _ hc, hknows.2.1, Hart.resting_first hknows.2.2]
    rfl
  · simp [Hart.Knows, Hart.back, hknows.1]

theorem Exclusive.unlockLoad (hs : s.Exclusive) (hphase : (s.hart h).phase = .unlockLoad l) :
    (s.setPhase h (.unlockStore l (s.lock l).num_locks)).Exclusive := by
  have hknows := hs.knows h
  simp only [Hart.Knows, hphase] at hknows
  have hl : l ∈ (s.hart h).held := List.mem_of_head? hknows.2
  have hc := Hart.content_mem (h := h) (v := s.hart h) (by simp [Hart.content, hphase]) hl
  rw [hs.content h l _ hc]
  refine hs.move (fun l' => ?_) ?_
  · simp [Hart.content, Hart.resting, hphase]
  · simpa [Hart.Knows] using hknows

theorem Exclusive.unlockStore (hs : s.Exclusive) (hphase : (s.hart h).phase = .unlockStore l n) :
    ((s.setLock l { s.lock l with num_locks := n - 1 }).setHart h
      { s.hart h with phase := .unlockTest l, held := (s.hart h).held.erase l }).Exclusive := by
  have hknows := hs.knows h
  simp only [Hart.Knows, hphase] at hknows
  obtain ⟨rest, hheld⟩ : ∃ rest, (s.hart h).held = l :: rest := List.head?_eq_some_iff.mp hknows.2.1
  have hself : s.hart h = ⟨.unlockStore l n, (s.hart h).task, l :: rest, (s.hart h).home⟩ := by rw [← hphase, ← hheld]
  have hl : l ∈ (s.hart h).held := List.mem_of_head? hknows.2.1
  have hc := Hart.content_mem (h := h) (v := s.hart h) (by simp [Hart.content, hphase]) hl
  refine hs.write (hs.others hc) (fun l' hne => ?_) ?_ ?_
  · rw [hheld, List.erase_cons_head]
    conv_rhs => rw [hself]
    simpa [Hart.content, hne] using (Hart.resting_cons hne _ _ _ _ _ _).symm
  · rw [hs.content h l _ hc, hknows.2.2, hheld, List.erase_cons_head]
    by_cases hrest : l ∈ rest
    · simp only [Hart.content, hrest, not_true_eq_false, and_false, if_false, Hart.resting, if_true, Option.getD_some]
      cases rest with
      | nil => cases hrest
      | cons m rest => simp [List.getLast?_cons_cons]
    · have hcount : rest.count l = 0 := List.count_eq_zero.mpr hrest
      simp only [Hart.content, hrest, not_false_eq_true, and_self, if_true, Option.getD_some, Hart.back]
      cases rest with
      | nil => simp
      | cons m rest =>
        have hlast : (m :: rest).getLast? ≠ some l := fun hlast => hrest (List.mem_of_getLast? hlast)
        simp [hcount, List.getLast?_cons_cons, hlast]
  · simp [Hart.Knows, hknows.1]

theorem Exclusive.unlockTest (hs : s.Exclusive) (hphase : (s.hart h).phase = .unlockTest l) :
    (s.setPhase h (if (s.lock l).num_locks = 0 then .clearOwner l else .outside)).Exclusive := by
  have hknows := hs.knows h
  simp only [Hart.Knows, hphase] at hknows
  by_cases hl : l ∈ (s.hart h).held
  · have hc := Hart.content_mem (h := h) (v := s.hart h) (by simp [Hart.content, hphase, hl]) hl
    have hne : (s.hart h).held ≠ [] := List.ne_nil_of_mem hl
    rw [hs.content h l _ hc, if_neg (Nat.ne_of_gt (List.count_pos_iff.mpr hl))]
    refine hs.move (fun l' => ?_) ?_
    · by_cases hl' : l' = l <;> simp [Hart.content, Hart.resting, hphase, hl', hl]
    · simp [Hart.Knows, Hart.back, hknows, hne]
  · have hc : (s.hart h).content h l = some ⟨true, some h, 0, (s.hart h).back⟩ := by simp [Hart.content, hphase, hl]
    rw [hs.content h l _ hc, if_pos rfl]
    refine hs.move (fun l' => ?_) ?_
    · by_cases hl' : l' = l <;> simp [Hart.content, Hart.resting, Hart.back, hphase, hl', hl]
    · simp [Hart.Knows, hknows, hl]

theorem Exclusive.clearOwner (hs : s.Exclusive) (hphase : (s.hart h).phase = .clearOwner l) :
    ((s.setLock l { s.lock l with locked_by := none }).setPhase h (.loadReturn l)).Exclusive := by
  have hc : (s.hart h).content h l = some ⟨true, some h, 0, (s.hart h).back⟩ := by simp [Hart.content, hphase]
  have hknows := hs.knows h
  simp only [Hart.Knows, hphase] at hknows
  refine hs.write (v := { s.hart h with phase := .loadReturn l }) (hs.others hc) (fun l' hne => ?_) ?_ ?_
  · simp [Hart.content, Hart.resting, hphase, hne]
  · simp [Hart.content, Hart.back, hs.content h l _ hc]
  · simpa [Hart.Knows] using hknows

theorem Exclusive.loadReturn (hs : s.Exclusive) (hphase : (s.hart h).phase = .loadReturn l) :
    (s.setPhase h (.clearReturn l (s.lock l).crit_ret_frame)).Exclusive := by
  have hc : (s.hart h).content h l = some ⟨true, none, 0, (s.hart h).back⟩ := by simp [Hart.content, hphase]
  have hknows := hs.knows h
  simp only [Hart.Knows, hphase] at hknows
  rw [hs.content h l _ hc]
  refine hs.move (fun l' => ?_) ?_
  · simp [Hart.content, Hart.resting, Hart.back, hphase]
  · simpa [Hart.Knows, Hart.back] using hknows

theorem Exclusive.clearReturn (hs : s.Exclusive) (hphase : (s.hart h).phase = .clearReturn l task) :
    ((s.setLock l { s.lock l with crit_ret_frame := none }).setPhase h (.release l task)).Exclusive := by
  have hc : (s.hart h).content h l = some ⟨true, none, 0, (s.hart h).back⟩ := by simp [Hart.content, hphase]
  have hknows := hs.knows h
  simp only [Hart.Knows, hphase] at hknows
  refine hs.write (v := { s.hart h with phase := .release l task }) (hs.others hc) (fun l' hne => ?_) ?_ ?_
  · simp [Hart.content, Hart.resting, hphase, hne]
  · simp [Hart.content, hs.content h l _ hc]
  · simpa [Hart.Knows, Hart.back] using hknows

theorem Exclusive.release (hs : s.Exclusive) (hphase : (s.hart h).phase = .release l task) :
    ((s.setLock l { s.lock l with unsafelock := false }).setPhase h (.leave task)).Exclusive := by
  have hc : (s.hart h).content h l = some ⟨true, none, 0, none⟩ := by simp [Hart.content, hphase]
  have hknows := hs.knows h
  simp only [Hart.Knows, hphase] at hknows
  refine hs.write (v := { s.hart h with phase := .leave task }) (hs.others hc) (fun l' hne => ?_) ?_ ?_
  · simp [Hart.content, Hart.resting, hphase, hne]
  · simp [Hart.content, hs.content h l _ hc, Hart.resting, hknows.2.1, SpinLock.free]
  · simpa [Hart.Knows, Hart.back] using And.intro hknows.1 hknows.2.2

theorem Exclusive.leave (hs : s.Exclusive) (hphase : (s.hart h).phase = .leave task) :
    (s.setHart h { s.hart h with phase := .outside, task := task.or (s.hart h).task }).Exclusive := by
  have hknows := hs.knows h
  simp only [Hart.Knows, hphase] at hknows
  refine hs.move (fun l' => ?_) ?_
  · simp [Hart.content, Hart.resting, hphase]
  · simp [Hart.Knows, Hart.back, hknows]

theorem Exclusive.advance (hs : s.Exclusive) (hstep : s.advance h = some t) : t.Exclusive := by
  unfold SpinState.advance at hstep
  cases hphase : (s.hart h).phase <;> simp only [hphase, Option.some.injEq, reduceCtorEq] at hstep
  case test => exact hstep ▸ hs.test hphase
  case acquire =>
    split_ifs at hstep with hlocked
    · exact Option.some.inj hstep ▸ hs
    · exact Option.some.inj hstep ▸ hs.acquire hphase (by simpa using hlocked)
  case setOwner => exact hstep ▸ hs.setOwner hphase
  case setReturn => exact hstep ▸ hs.setReturn hphase
  case load => exact hstep ▸ hs.load hphase
  case store => exact hstep ▸ hs.store hphase
  case tryTest => exact hstep ▸ hs.tryTest hphase
  case tryAcquire =>
    split_ifs at hstep with hlocked
    · exact Option.some.inj hstep ▸ hs.tryFail hphase
    · exact Option.some.inj hstep ▸ hs.tryAcquire hphase (by simpa using hlocked)
  case tryLoad => exact hstep ▸ hs.tryLoad hphase
  case tryStore => exact hstep ▸ hs.tryStore hphase
  case trySetOwner => exact hstep ▸ hs.trySetOwner hphase
  case trySetReturn => exact hstep ▸ hs.trySetReturn hphase
  case unlockLoad => exact hstep ▸ hs.unlockLoad hphase
  case unlockStore => exact hstep ▸ hs.unlockStore hphase
  case unlockTest => exact hstep ▸ hs.unlockTest hphase
  case clearOwner => exact hstep ▸ hs.clearOwner hphase
  case loadReturn => exact hstep ▸ hs.loadReturn hphase
  case clearReturn => exact hstep ▸ hs.clearReturn hphase
  case release => exact hstep ▸ hs.release hphase
  case leave => exact hstep ▸ hs.leave hphase

theorem Exclusive.step [DecidableEq T] {a : SpinAction L H T} (hs : s.Exclusive) (hok : WellNested s a)
    (hstep : spinStep s a = some t) : t.Exclusive := by
  cases a <;> simp only [spinStep, Option.ite_none_right_eq_some, Option.some.injEq] at hstep
  case lockSpinLock h l =>
    obtain ⟨hphase, rfl⟩ := hstep
    have hknows := hs.knows h
    simp only [Hart.Knows, hphase] at hknows
    have hmoved := hs.move (h := h) (v := { s.hart h with phase := .test l (s.hart h).task, task := none })
      (fun l' => by simp [Hart.content, Hart.resting, hphase]) (by simpa [Hart.Knows, Hart.back] using hknows)
    simpa [setPhase, criticalEnter, setHart] using hmoved
  case tryLockingSpinLock h l =>
    obtain ⟨hphase, rfl⟩ := hstep
    have hknows := hs.knows h
    simp only [Hart.Knows, hphase] at hknows
    have hl : l ∉ (s.hart h).held := hok
    have hmoved := hs.move (h := h) (v := { s.hart h with phase := .tryTest l (s.hart h).task, task := none })
      (fun l' => by simp [Hart.content, Hart.resting, hphase]) (by simpa [Hart.Knows, Hart.back] using And.intro hknows hl)
    simpa [setPhase, criticalEnter, setHart] using hmoved
  case unlockSpinLock h l =>
    obtain ⟨⟨hphase, hl⟩, rfl⟩ := hstep
    have hfirst : (s.hart h).held.head? = some l := hok
    have hknows := hs.knows h
    simp only [Hart.Knows, hphase, Hart.back, List.ne_nil_of_mem hl, if_false] at hknows
    refine hs.move (fun l' => ?_) ?_
    · simp [Hart.content, Hart.resting, hphase]
    · simp [Hart.Knows, hknows, hfirst]
  case advance h => exact hs.advance hstep
  case switch h task =>
    obtain ⟨⟨hphase, hheld⟩, rfl⟩ := hstep
    refine hs.move (fun l' => ?_) ?_
    · simp [Hart.content, Hart.resting, hphase, hheld]
    · simp [Hart.Knows, Hart.back, hphase, hheld]

theorem Exclusive.runs [DecidableEq T] {actions : List (SpinAction L H T)} (hs : s.Exclusive)
    (hr : Runs spinStep WellNested s actions t) : t.Exclusive :=
  hr.invariant (fun _ _ _ hs hok hstep => hs.step hok hstep) hs

end Calls

omit [DecidableEq H] in
theorem content_held (hl : l ∈ v.held) : v.content h l ≠ (none : Option (SpinLock H T)) := by
  have hresting := @Hart.resting_mem _ _ _ _ h _ _ hl
  unfold Hart.content
  split <;> (try split_ifs) <;> simp [hresting]

omit [DecidableEq H] in
theorem knows_task (hv : v.Knows) (hheld : v.held ≠ []) : v.task = none := by
  unfold Hart.Knows at hv
  split at hv
  case h_1 => rw [hv, Hart.back, if_neg hheld]
  all_goals first | exact hv | exact hv.1

/-- In every run in which locks are given back in the opposite order, only one hart at a time has a lock, and
it runs no task as long as it has one. Between its calls the lock names the hart and counts its calls, and a
hart without a lock is back in its task. A lock that no hart has or calls for is free. -/
theorem runs_spinlocks [DecidableEq T] {task : H → Option T} {actions : List (SpinAction L H T)}
    (hr : Runs spinStep WellNested (initial task) actions s) :
    (∀ h h' l, l ∈ (s.hart h).held → l ∈ (s.hart h').held → h = h') ∧
      (∀ h, (s.hart h).held ≠ [] → (s.hart h).task = none) ∧
      (∀ h, (s.hart h).phase = .outside →
        (∀ l ∈ (s.hart h).held, (s.lock l).locked_by = some h ∧ (s.lock l).num_locks = (s.hart h).held.count l) ∧
        ((s.hart h).held = [] → (s.hart h).task = (s.hart h).home)) ∧
      ∀ l, (∀ h, (s.hart h).phase = .outside ∧ l ∉ (s.hart h).held) → s.lock l = .free := by
  have hs := (exclusive_initial task).runs hr
  refine ⟨fun h h' l hl hl' => hs.single h h' l (content_held hl) (content_held hl'), fun h => knows_task (hs.knows h),
    fun h hphase => ⟨fun l hl => ?_, fun hheld => ?_⟩, fun l hfree => hs.free l fun h => ?_⟩
  · have hc := Hart.content_mem (h := h) (v := s.hart h) (by simp [Hart.content, hphase]) hl
    rw [hs.content h l _ hc]
    exact ⟨rfl, rfl⟩
  · have hknows := hs.knows h
    simp only [Hart.Knows, hphase] at hknows
    rw [hknows, Hart.back, if_pos hheld]
  · obtain ⟨hphase, hl⟩ := hfree h
    simp [Hart.content, hphase, Hart.resting_not_mem hl]

local instance one_lock : NeZero 1 := ⟨by decide⟩

local instance two_spinning : NeZero 2 := ⟨by decide⟩

/-- The first hart takes a lock twice and gives it back once, and the second one waits for it. -/
def waiting : List (SpinAction (Fin 1) (Fin 2) ℕ) :=
  List.flatten [[.lockSpinLock 0 0], List.replicate 6 (.advance 0), [.lockSpinLock 0 0, .lockSpinLock 1 0],
    List.replicate 3 (.advance 0), List.replicate 4 (.advance 1), [.unlockSpinLock 0 0], List.replicate 3 (.advance 0),
    [.advance 1]]

theorem waiting_exclusive : ∃ s : SpinState (Fin 1) (Fin 2) ℕ, (s.hart 0).held = [0] ∧ (s.hart 0).task = none ∧
    (s.lock 0).locked_by = some 0 ∧ (s.lock 0).num_locks = 1 ∧ 0 ∉ (s.hart 1).held := by
  have hrun : ((execOk spinStep WellNested (initial fun h => some h.val) waiting).map fun s =>
    ((s.hart 0).held, (s.hart 0).phase)) = some ([0], .outside) := by decide
  obtain ⟨s, hs, hlen⟩ := Option.map_eq_some_iff.mp hrun
  obtain ⟨hheld, hphase⟩ := Prod.mk.inj hlen
  obtain ⟨hsingle, htask, hlock, -⟩ := runs_spinlocks (Runs.of_execOk hs)
  have hmem : 0 ∈ (s.hart 0).held := by simp [hheld]
  obtain ⟨howner, hcount⟩ := (hlock 0 hphase).1 0 hmem
  have hone : 0 ∉ (s.hart 1).held := fun hl => absurd (hsingle 0 1 0 hmem hl) (by decide)
  exact ⟨s, hheld, htask 0 (by simp [hheld]), howner, by simpa [hheld] using hcount, hone⟩

/-- A hart that gives the lock taken first back first is back in its task with the other one held. -/
example : ((exec spinStep (initial (fun _ => some 7) : SpinState (Fin 2) (Fin 1) ℕ) (List.flatten [[.lockSpinLock 0 0],
    List.replicate 6 (.advance 0), [.lockSpinLock 0 1], List.replicate 6 (.advance 0), [.unlockSpinLock 0 0],
    List.replicate 8 (.advance 0)])).map fun s => ((s.hart 0).held, (s.hart 0).task)) = some ([1], some 7) := by decide

end SpinState

end SomeOs.Harts

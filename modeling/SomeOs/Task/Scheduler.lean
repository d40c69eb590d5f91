import Mathlib

/-! # Ready queues and the waiting list

Every hart has a queue of ready tasks, and tasks of all harts wait in one list. The functions
here run under the locks that they take. A task that has been freed is in the state `unknown`
until its memory is a new task. The queue priority of a task depends on the time that it has
run for, and is an argument.
-/
namespace SomeOs.Tasks
variable {T H : Type*}

inductive TaskState where
  | unknown
  | running
  | enquable
  | ready
  | waiting
  | stopped
  | terminated
  deriving DecidableEq

structure Scheduler (T H : Type*) where
  state : T → TaskState
  hart : T → Option H
  queuePriority : T → ℕ
  queue : H → List T
  waiting : List T

/-- `LOWEST_PRIORITY` -/
abbrev lowestPriority : ℕ := 39

namespace Scheduler

variable [DecidableEq T]

def setState (s : Scheduler T H) (t : T) (state : TaskState) : Scheduler T H :=
  { s with state := Function.update s.state t state }

def addWaitingTask (s : Scheduler T H) (t : T) : Scheduler T H := { s with waiting := t :: s.waiting }

def deallocTask (s : Scheduler T H) (t : T) : Scheduler T H := s.setState t .unknown

/-- Takes a task from the waiting list, where it has to be. A task that has been stopped or
terminated keeps its state. -/
def awakenTask (s : Scheduler T H) (t : T) : Option (Scheduler T H) :=
  if t ∈ s.waiting then
    let s := { s with waiting := s.waiting.erase t }
    if s.state t = .terminated ∨ s.state t = .stopped then some s
    else if s.state t = .waiting then some (s.setState t .enquable) else none
  else none

/-- The end of `moveTaskToState`, for tasks that do not wait. -/
def changeState (s : Scheduler T H) (t : T) (state : TaskState) : Scheduler T H :=
  if s.state t ≠ .terminated ∧ (s.state t ≠ .stopped ∨ state = .terminated) then s.setState t state else s

def moveTaskToState (s : Scheduler T H) (t : T) (state : TaskState) : Option (Scheduler T H) :=
  if s.state t = .waiting then
    if state = .terminated ∨ state = .stopped then (s.awakenTask t).map (·.changeState t state) else none
  else some (s.changeState t state)

variable [DecidableEq H]

/-- Behind the tasks of the same and of higher priorities, which have smaller numbers. -/
def pushTaskToQueue (s : Scheduler T H) (h : H) (t : T) (priority : ℕ) : Scheduler T H :=
  let p := min priority lowestPriority
  { s with
    queuePriority := Function.update s.queuePriority t p
    queue := Function.update s.queue h
      ((s.queue h).takeWhile (s.queuePriority · ≤ p) ++ t :: (s.queue h).dropWhile (s.queuePriority · ≤ p)) }

/-- The hart `h` puts a task into the list for its state. -/
def enqueueTask (s : Scheduler T H) (h : H) (t : T) (priority : ℕ) : Option (Scheduler T H) :=
  match s.state t with
  | .waiting => some (s.addWaitingTask t)
  | .enquable => some ((s.changeState t .ready).pushTaskToQueue ((s.hart t).getD h) t priority)
  | .ready | .running | .stopped => some s
  | .terminated => some (s.deallocTask t)
  | .unknown => none

def pullTaskFromQueue (s : Scheduler T H) (h : H) : Option (T × Scheduler T H) :=
  match s.queue h with
  | [] => none
  | t :: rest => some (t, { s with queue := Function.update s.queue h rest })

/-- The loop over the waiting list. The wakeup functions of the tasks in `wakes` return true. -/
def awakenTasks (s : Scheduler T H) (h : H) (wakes : T → Bool) (priority : T → ℕ) : Option (Scheduler T H) :=
  s.waiting.foldlM (fun s t =>
    if wakes t then
      (setState { s with waiting := s.waiting.erase t } t .enquable).enqueueTask h t (priority t)
    else some s) s

end Scheduler

structure Listed (s : Scheduler T H) : Prop where
  queues : ∀ h, (s.queue h).Nodup
  waiting : s.waiting.Nodup
  queue_unique : ∀ t h h', t ∈ s.queue h → t ∈ s.queue h' → h = h'
  queue_waiting : ∀ t h, t ∈ s.queue h → t ∉ s.waiting

namespace Scheduler
variable [DecidableEq T] {s s' : Scheduler T H} {t x : T} {h q : H} {priority : ℕ} {state : TaskState}

@[simp] theorem setState_queue : (s.setState t state).queue = s.queue := rfl
@[simp] theorem setState_waiting : (s.setState t state).waiting = s.waiting := rfl
@[simp] theorem setState_hart : (s.setState t state).hart = s.hart := rfl
@[simp] theorem setState_self : (s.setState t state).state t = state := Function.update_self ..

theorem setState_of_ne (hx : x ≠ t) : (s.setState t state).state x = s.state x := Function.update_of_ne hx ..

@[simp] theorem changeState_queue : (s.changeState t state).queue = s.queue := by
  unfold changeState
  split_ifs <;> rfl

@[simp] theorem changeState_waiting : (s.changeState t state).waiting = s.waiting := by
  unfold changeState
  split_ifs <;> rfl

theorem changeState_of_ne (hx : x ≠ t) : (s.changeState t state).state x = s.state x := by
  unfold changeState
  split_ifs
  · exact setState_of_ne hx
  · rfl

theorem changeState_self (h1 : s.state t ≠ .terminated) (h2 : s.state t ≠ .stopped) :
    (s.changeState t state).state t = state := by
  unfold changeState
  rw [if_pos ⟨h1, Or.inl h2⟩, setState_self]

theorem moveTaskToState_eq (hwait : s.state t ≠ .waiting) : s.moveTaskToState t state = some (s.changeState t state) :=
  if_neg hwait

theorem awakenTask_eq (hmem : t ∈ s.waiting) (hwait : s.state t = .waiting) :
    s.awakenTask t = some (setState { s with waiting := s.waiting.erase t } t .enquable) := by
  unfold awakenTask
  rw [if_pos hmem]
  dsimp only
  rw [hwait, if_neg (by decide), if_pos rfl]

variable [DecidableEq H]

@[simp] theorem pushTaskToQueue_waiting : (s.pushTaskToQueue h t priority).waiting = s.waiting := rfl
@[simp] theorem pushTaskToQueue_state : (s.pushTaskToQueue h t priority).state = s.state := rfl

theorem pushTaskToQueue_perm : ((s.pushTaskToQueue h t priority).queue h).Perm (t :: s.queue h) := by
  simp only [pushTaskToQueue, Function.update_self]
  refine List.perm_middle.trans ?_
  rw [List.takeWhile_append_dropWhile]

theorem pushTaskToQueue_of_ne (hq : q ≠ h) : (s.pushTaskToQueue h t priority).queue q = s.queue q :=
  Function.update_of_ne hq ..

theorem mem_pushTaskToQueue :
    x ∈ (s.pushTaskToQueue h t priority).queue q ↔ (x = t ∧ q = h) ∨ x ∈ s.queue q := by
  by_cases hq : q = h
  · subst hq
    rw [pushTaskToQueue_perm.mem_iff, List.mem_cons]
    simp
  · rw [pushTaskToQueue_of_ne hq]
    simp [hq]

theorem nodup_pushTaskToQueue (hnodup : ∀ q, (s.queue q).Nodup) (ht : t ∉ s.queue h) (q : H) :
    ((s.pushTaskToQueue h t priority).queue q).Nodup := by
  by_cases hq : q = h
  · subst hq
    rw [pushTaskToQueue_perm.nodup_iff, List.nodup_cons]
    exact ⟨ht, hnodup q⟩
  · rw [pushTaskToQueue_of_ne hq]
    exact hnodup q

theorem enqueueTask_enquable (ht : s.state t = .enquable) :
    s.enqueueTask h t priority = some ((s.setState t .ready).pushTaskToQueue ((s.hart t).getD h) t priority) := by
  unfold enqueueTask
  rw [ht]
  dsimp only
  unfold changeState
  rw [ht, if_pos (by decide)]

omit [DecidableEq T] in
theorem pullTaskFromQueue_eq (hs : s.pullTaskFromQueue h = some (t, s')) :
    ∃ rest, s.queue h = t :: rest ∧ s' = { s with queue := Function.update s.queue h rest } := by
  unfold pullTaskFromQueue at hs
  split at hs
  · cases hs
  · rename_i u rest hq
    cases hs
    exact ⟨rest, hq, rfl⟩

end Scheduler

end SomeOs.Tasks

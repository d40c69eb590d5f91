import SomeOs.Base.Transition
import SomeOs.Task.Scheduler

/-! # Task locks

Tasks call the functions of one task lock. What a function does under the inner lock is one
step, and every other access to the lock is a step of its own: the owner is read before the
inner lock is taken, and the counter is loaded and stored outside of it. Harts run tasks and
preempt them between any two steps, and tasks wait for other things between their calls.
-/
namespace SomeOs.Tasks
open Transition
variable {T H : Type*}

inductive LockKind where
  | lock
  | tryLock
  deriving DecidableEq

/-- What a task does next. -/
inductive LockPhase where
  | outside
  /-- The owner is read. -/
  | start (kind : LockKind)
  /-- The section under the inner lock, in the loop of `lockTaskLock` or in `tryLockingTaskLock`. -/
  | acquire (kind : LockKind)
  | load (kind : LockKind)
  | store (kind : LockKind) (numLocks : ℕ)
  | returned (kind : LockKind) (result : Bool)
  | unlockLoad
  | unlockStore (numLocks : ℕ)
  | unlockTest
  /-- The section of `unlockTaskLock` under the inner lock. -/
  | release
  deriving DecidableEq

/-- The lock, the scheduler, and the task on every hart. The lock calls of a task that are completed
and not undone are counted in `calls`. -/
structure LockState (T H : Type*) where
  lockedBy : Option T
  numLocks : ℕ
  waitQueue : List T
  sched : Scheduler T H
  control : H → Option T
  phase : T → LockPhase
  calls : T → ℕ

variable [DecidableEq T] [DecidableEq H]

namespace Scheduler

def park (s : Scheduler T H) (h : H) (t : T) : Option (Scheduler T H) :=
  (s.moveTaskToState t .waiting).bind fun s => s.enqueueTask h t 0

def wake (s : Scheduler T H) (h : H) (t : T) (priority : ℕ) : Option (Scheduler T H) :=
  (s.awakenTask t).bind fun s => s.enqueueTask h t priority

/-- The loop of `unlockTaskLock` over the tasks that wait for the lock. -/
def wakeAll (h : H) (priority : T → ℕ) : List T → Scheduler T H → Option (Scheduler T H)
  | [], s => some s
  | t :: rest, s => (s.wake h t (priority t)).bind (wakeAll h priority rest)

end Scheduler

namespace LockState

def setPhase (s : LockState T H) (t : T) (phase : LockPhase) : LockState T H :=
  { s with phase := Function.update s.phase t phase }

def waitForTaskLock (s : LockState T H) (h : H) (t : T) : Option (LockState T H) :=
  (s.sched.park h t).map fun sched =>
    { s with sched, waitQueue := t :: s.waitQueue, control := Function.update s.control h none }

def basicLockByTask (s : LockState T H) (t : T) : LockState T H := { s with lockedBy := some t }

/-- The section under the inner lock in the loop of `lockTaskLock`. -/
def lockOrWaitTaskLock (s : LockState T H) (h : H) (t : T) : Option (LockState T H) :=
  if s.lockedBy = none then some ((s.basicLockByTask t).setPhase t (.load .lock)) else s.waitForTaskLock h t

/-- The section of `tryLockingTaskLock` under the inner lock. -/
def lockOrFail (s : LockState T H) (t : T) : LockState T H :=
  if s.lockedBy = none then (s.basicLockByTask t).setPhase t (.load .tryLock)
  else s.setPhase t (.returned .tryLock false)

/-- The section of `unlockTaskLock` under the inner lock. -/
def unlockAndWake (s : LockState T H) (h : H) (t : T) (priority : T → ℕ) : Option (LockState T H) :=
  (s.sched.wakeAll h priority s.waitQueue).map fun sched =>
    { s with sched, lockedBy := none, waitQueue := [] }.setPhase t .outside

/-- The task `t` on the hart `h` goes on in the function it has called. -/
def advance (s : LockState T H) (h : H) (t : T) (priority : T → ℕ) : Option (LockState T H) :=
  match s.phase t with
  | .outside => none
  | .start kind => some (s.setPhase t (if s.lockedBy = some t then .load kind else .acquire kind))
  | .acquire .lock => s.lockOrWaitTaskLock h t
  | .acquire .tryLock => some (s.lockOrFail t)
  | .load kind => some (s.setPhase t (.store kind s.numLocks))
  | .store kind n =>
    some ({ s with numLocks := n + 1, calls := Function.update s.calls t (s.calls t + 1) }.setPhase t
      (.returned kind true))
  | .returned _ _ => some (s.setPhase t .outside)
  | .unlockLoad => some (s.setPhase t (.unlockStore s.numLocks))
  | .unlockStore n =>
    some ({ s with numLocks := n - 1, calls := Function.update s.calls t (s.calls t - 1) }.setPhase t .unlockTest)
  | .unlockTest => some (s.setPhase t (if s.numLocks = 0 then .release else .outside))
  | .release => s.unlockAndWake h t priority

/-- A call of `lockTaskLock`, `tryLockingTaskLock` or `unlockTaskLock`; the last asserts that the caller
owns the lock. -/
def enter (s : LockState T H) (t : T) : Option LockKind → Option (LockState T H)
  | some kind => some (s.setPhase t (.start kind))
  | none => if s.lockedBy = some t then some (s.setPhase t .unlockLoad) else none

end LockState

inductive LockAction (T H : Type*) where
  | call (h : H) (kind : Option LockKind)
  | advance (h : H) (priority : T → ℕ)
  | run (h q : H)
  | preempt (h : H) (priority : ℕ)
  | sleep (h : H)
  | wake (h : H) (t : T) (priority : ℕ)

/-- The steps of the harts and of the tasks on them. Calls are nested: a task unlocks only what it
has locked. -/
def lockStep (s : LockState T H) : LockAction T H → Option (LockState T H)
  | .call h kind => match s.control h with
    | some t => if s.phase t = .outside ∧ (kind = none → 0 < s.calls t) then s.enter t kind else none
    | none => none
  | .advance h priority => match s.control h with
    | some t => s.advance h t priority
    | none => none
  | .run h q =>
    if s.control h = none then
      (s.sched.pullTaskFromQueue q).bind fun (t, sched) =>
        (sched.moveTaskToState t .running).map fun sched =>
          { s with
            sched := { sched with hart := Function.update sched.hart t (some h) }
            control := Function.update s.control h (some t) }
    else none
  | .preempt h priority => match s.control h with
    | some t => ((s.sched.moveTaskToState t .enquable).bind fun sched => sched.enqueueTask h t priority).map fun sched =>
        { s with sched, control := Function.update s.control h none }
    | none => none
  | .sleep h => match s.control h with
    | some t =>
      if s.phase t = .outside then
        (s.sched.park h t).map fun sched => { s with sched, control := Function.update s.control h none }
      else none
    | none => none
  | .wake h t priority =>
    if s.phase t = .outside ∧ s.sched.state t = .waiting then
      (s.sched.wake h t priority).map fun sched => { s with sched }
    else none

/-- The task has called `lockTaskLock` and waits. -/
def LockState.Blocked (s : LockState T H) (t : T) : Prop :=
  s.phase t = .acquire .lock ∧ s.sched.state t = .waiting

/-- The task lock is a re-entrant mutex. -/
structure LockState.Correct (s : LockState T H) : Prop where
  exclusive : ∀ t u, 0 < s.calls t → 0 < s.calls u → t = u
  owner : ∀ t, 0 < s.calls t → s.lockedBy = some t
  count : ∀ t, s.lockedBy = some t → s.numLocks = s.calls t
  count_free : s.lockedBy = none → s.numLocks = 0
  lockReturns : ∀ t result, s.phase t = .returned .lock result → s.lockedBy = some t
  tryReturns : ∀ t result, s.phase t = .returned .tryLock result → (result = true ↔ s.lockedBy = some t)
  blocked : ∀ t, s.Blocked t → s.waitQueue.count t = 1 ∧ t ∈ s.sched.waiting
  waits : ∀ t ∈ s.waitQueue, s.Blocked t
  free : s.lockedBy = none → s.waitQueue = []

/-- Every task is where its state says: on one hart, in one queue, or in the waiting list. -/
structure Placed (sched : Scheduler T H) (control : H → Option T) : Prop where
  running : ∀ h t, control h = some t → sched.state t = .running
  single : ∀ h h' t, control h = some t → control h' = some t → h = h'
  ready : ∀ q t, t ∈ sched.queue q → sched.state t = .ready
  queues : ∀ q, (sched.queue q).Nodup
  queue_unique : ∀ t q q', t ∈ sched.queue q → t ∈ sched.queue q' → q = q'
  waiting : ∀ t, t ∈ sched.waiting ↔ sched.state t = .waiting
  waiting_nodup : sched.waiting.Nodup

/-- The lock is free and no task is in a call. -/
structure LockState.Initial (s : LockState T H) : Prop where
  placed : Placed s.sched s.control
  lockedBy : s.lockedBy = none
  numLocks : s.numLocks = 0
  waitQueue : s.waitQueue = []
  phase : ∀ t, s.phase t = .outside
  calls : ∀ t, s.calls t = 0

end SomeOs.Tasks

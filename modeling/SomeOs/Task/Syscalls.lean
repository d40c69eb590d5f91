import SomeOs.Base.Transition
import SomeOs.Task.Scheduler

/-! # System calls as tasks

The harts of a system as they schedule tasks, take traps and run system calls. A system call
runs in a task of its own, which serves the task that has made it, and wakes that task when it
is done. A process has one task, so that tasks are terminated by their own exit or before they
are entered.
-/
namespace SomeOs.Tasks
open Transition
variable {T H : Type*} [DecidableEq T] [DecidableEq H]

/-- What a hart is about to do. -/
inductive Control (T : Type*) where
  | scheduling
  /-- The task has been taken from a queue. -/
  | pulled (t : T)
  | running (t : T)
  /-- The trap handler has made the task enquable. -/
  | trapped (t : T)
  /-- `runSyscall` has made the task wait. -/
  | blocked (t : T)
  /-- The task is enqueued before the next one is run. -/
  | returning (t : T)
  deriving DecidableEq

def Control.task : Control T → Option T
  | .scheduling => none
  | .pulled t | .running t | .trapped t | .blocked t | .returning t => some t

/-- How far a system call is: it is to wake the task that it serves, or to enqueue it after it has been
woken or terminated. -/
inductive Phase where
  | working
  | awakened
  | exited
  deriving DecidableEq

structure Kernel (T H : Type*) where
  sched : Scheduler T H
  control : H → Control T
  serving : T → Option (T × Phase)
  /-- The task has a wakeup function. -/
  wakeup : T → Bool

inductive KernelAction (T H : Type*) where
  | spawn (h : H) (t : T) (priority : ℕ)
  | awakenTasks (h : H) (wakes : T → Bool) (priority : T → ℕ)
  | pull (h q : H)
  | enter (h : H)
  | signal (h : H) (state : TaskState)
  | trap (h : H)
  | interrupt (h : H)
  | runSyscall (h : H)
  | createSyscall (h : H) (s : T) (priority : ℕ)
  | enqueue (h : H) (priority : ℕ)
  | awaken (h : H)
  | exit (h : H)
  | wait (h : H)
  | complete (h : H) (priority : ℕ)
  | finish (h : H)
  | move (t : T) (state : TaskState)

namespace Kernel

def setControl (k : Kernel T H) (h : H) (c : Control T) : Kernel T H :=
  { k with control := Function.update k.control h c }

def createTask (k : Kernel T H) (h : H) (t : T) (serving : Option (T × Phase)) (priority : ℕ) : Option (Kernel T H) :=
  if k.sched.state t = .unknown then
    ((({ k.sched with hart := Function.update k.sched.hart t none } : Scheduler T H).setState t .enquable).enqueueTask
      h t priority).map fun sched =>
      { k with sched, serving := Function.update k.serving t serving, wakeup := Function.update k.wakeup t false }
  else none

end Kernel

/-- The steps of the harts. A hart takes tasks from the queue of any hart. -/
def kernelStep (k : Kernel T H) : KernelAction T H → Option (Kernel T H)
  | .spawn h t priority => k.createTask h t none priority
  | .awakenTasks h wakes priority =>
    if k.control h = .scheduling then
      (k.sched.awakenTasks h (fun t => k.wakeup t && wakes t) priority).map ({ k with sched := · })
    else none
  | .pull h q =>
    if k.control h = .scheduling then
      (k.sched.pullTaskFromQueue q).map fun (t, sched) => ({ k with sched := sched } : Kernel T H).setControl h (.pulled t)
    else none
  | .enter h => match k.control h with
    | .pulled t =>
      if k.sched.state t = .terminated then some
        (({ k with sched := k.sched.deallocTask t } : Kernel T H).setControl h .scheduling)
      else (k.sched.moveTaskToState t .running).map fun sched =>
        ({ k with sched := { sched with hart := Function.update sched.hart t (some h) } } : Kernel T H).setControl h (.running t)
    | _ => none
  | .signal h state => match k.control h with
    | .pulled t =>
      if state = .terminated ∨ state = .stopped then
        (k.sched.moveTaskToState t state).map fun sched => ({ k with sched } : Kernel T H).setControl h (.returning t)
      else none
    | _ => none
  | .trap h => match k.control h with
    | .running t => (k.sched.moveTaskToState t .enquable).map fun sched =>
      ({ k with sched } : Kernel T H).setControl h (.trapped t)
    | _ => none
  | .interrupt h => match k.control h with
    | .trapped t => some (k.setControl h (.returning t))
    | _ => none
  | .runSyscall h => match k.control h with
    | .trapped t => (k.sched.moveTaskToState t .waiting).map fun sched =>
      ({ k with sched, wakeup := Function.update k.wakeup t false } : Kernel T H).setControl h (.blocked t)
    | _ => none
  | .createSyscall h s priority => match k.control h with
    | .blocked t => (k.createTask h s (some (t, .working)) priority).map (·.setControl h (.returning t))
    | _ => none
  | .enqueue h priority => match k.control h with
    | .returning t => (k.sched.enqueueTask h t priority).map fun sched => ({ k with sched } : Kernel T H).setControl h .scheduling
    | _ => none
  | .awaken h => match k.control h with
    | .running s => match k.serving s with
      | some (t, .working) => (k.sched.awakenTask t).map fun sched =>
        { k with sched, serving := Function.update k.serving s (some (t, .awakened)) }
      | _ => none
    | _ => none
  | .exit h => match k.control h with
    | .running s => match k.serving s with
      | some (t, .working) => (k.sched.moveTaskToState t .terminated).map fun sched =>
        { k with sched, serving := Function.update k.serving s (some (t, .exited)) }
      | _ => none
    | _ => none
  | .wait h => match k.control h with
    | .running s => match k.serving s with
      | some (t, .working) =>
        some { k with wakeup := Function.update k.wakeup t true, serving := Function.update k.serving s none }
      | _ => none
    | _ => none
  | .complete h priority => match k.control h with
    | .running s => match k.serving s with
      | some (t, .awakened) | some (t, .exited) => (k.sched.enqueueTask h t priority).map fun sched =>
        { k with sched, serving := Function.update k.serving s none }
      | _ => none
    | _ => none
  | .finish h => match k.control h with
    | .running s =>
      if k.serving s = none then
        (k.sched.moveTaskToState s .terminated).map fun sched => ({ k with sched } : Kernel T H).setControl h (.returning s)
      else none
    | _ => none
  | .move t state =>
    if (state = .terminated ∨ state = .stopped) ∧ k.sched.state t ≠ .unknown then
      (k.sched.moveTaskToState t state).map ({ k with sched := · })
    else none

/-- The task that a step calls `awakenTask` for. -/
def awakens (k : Kernel T H) : KernelAction T H → Option T
  | .awaken h | .exit h => match k.control h with
    | .running s => match k.serving s with
      | some (t, .working) => some t
      | _ => none
    | _ => none
  | .signal h _ => match k.control h with
    | .pulled t => if k.sched.state t = .waiting then some t else none
    | _ => none
  | .move t _ => if k.sched.state t = .waiting then some t else none
  | _ => none

/-- No hart is between making the task wait and putting it into the waiting list. -/
def Settled (k : Kernel T H) (t : T) : Prop := ∀ h, k.control h ≠ .blocked t ∧ k.control h ≠ .returning t

/-- A system call wakes or terminates its task when that is in no hart on the way to the waiting list,
and other tasks are terminated only when they are not ready, on a hart or in a system call. -/
def SchedulerGuarded (k : Kernel T H) : KernelAction T H → Prop
  | .awaken h | .exit h => ∀ s t, k.control h = .running s → k.serving s = some (t, .working) → Settled k t
  | .move t _ => (∀ h, (k.control h).task ≠ some t) ∧ (∀ s p, k.serving s ≠ some (t, p)) ∧ ∀ q, t ∉ k.sched.queue q
  | _ => True

def bootKernel (T H : Type*) : Kernel T H where
  sched := ⟨fun _ => .unknown, fun _ => none, fun _ => 0, fun _ => [], []⟩
  control _ := .scheduling
  serving _ := none
  wakeup _ := false

end SomeOs.Tasks

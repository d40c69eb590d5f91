import SomeOs.Base.LinkedList
import SomeOs.Base.Transition

/-! # The process tree

The links that processes are registered by, as fields of their addresses. A field of a
process that has been freed keeps its value until the memory is used again. To finalize a
process is a step of its own: a call of `deallocProcess` outside of tasks starts a task for
it. After a failed fork it is done in the task of the system call, but not under the lock
under which the process was registered, so other steps come between them, too. A process has at
most one task, since `fork` is what creates tasks of processes.
-/
namespace SomeOs.Process
open LinkedList
variable {P : Type*} [DecidableEq P]

/-- A process is reaped when a wait has taken it from the list of its parent. -/
inductive Phase where
  | absent
  | alive
  | reaped
  deriving DecidableEq

structure Processes (P : Type*) where
  nextPid : ℤ
  globalFirst : Option P
  pid : P → ℤ
  pgid : P → ℤ
  status : P → ℕ
  tasks : P → Bool
  parent : P → Option P
  children : P → Option P
  childNext : P → Option P
  childPrev : P → Option P
  globalNext : P → Option P
  globalPrev : P → Option P
  phase : P → Phase
  finalizing : List P

inductive WaitError where
  | ECHILD
  | EINTR
  | EAGAIN
  deriving DecidableEq

namespace Processes

def registerProcess (s : Processes P) (p : P) : Processes P :=
  let s := { s with
    globalNext := Function.update s.globalNext p s.globalFirst
    globalPrev := setAt s.globalPrev s.globalFirst (some p)
    globalFirst := some p }
  match s.parent p with
  | none => s
  | some q => { s with
      childPrev := setAt s.childPrev (s.children q) (some p)
      childNext := Function.update s.childNext p (s.children q)
      children := Function.update s.children q (some p) }

/-- The link at `current`, of the parent or of a sibling, that leads to `p` goes to the next
sibling, and the link back to the sibling before. -/
def unlinkChild (s : Processes P) (q p : P) (current : Option P) : Processes P :=
  { s with
    children := if current = none then Function.update s.children q (s.childNext p) else s.children
    childNext := setAt s.childNext current (s.childNext p)
    childPrev := setAt s.childPrev (s.childNext p) (s.childPrev p) }

def unlinkGlobal (s : Processes P) (p : P) : Processes P :=
  { s with
    globalFirst := if s.globalPrev p = none then s.globalNext p else s.globalFirst
    globalNext := setAt s.globalNext (s.globalPrev p) (s.globalNext p)
    globalPrev := setAt s.globalPrev (s.globalNext p) (s.globalPrev p) }

def deallocProcess (s : Processes P) (p : P) : Processes P :=
  { s with finalizing := s.finalizing ++ [p] }

/-- The loop over the children of a process whose parent is `q`. -/
def reparent (q : P) : ℕ → Processes P → (child : Option P) → Option (Processes P)
  | _, s, none => some s
  | 0, _, some _ => none
  | fuel + 1, s, some c =>
    let s := { s with
      parent := Function.update s.parent c (some q)
      childNext := Function.update s.childNext c (s.children q)
      children := Function.update s.children q (some c) }
    reparent q fuel s (s.childNext c)

/-- The loop over the children of a process without a parent. -/
def disown : ℕ → Processes P → (child : Option P) → Option (Processes P)
  | _, s, none => some s
  | 0, _, some _ => none
  | fuel + 1, s, some c =>
    let s := { s with parent := Function.update s.parent c none }
    let s := if s.tasks c then s else s.deallocProcess c
    disown fuel s (s.childNext c)

def unregisterProcess (fuel : ℕ) (s : Processes P) (p : P) : Option (Processes P) :=
  match s.parent p with
  | some q => (reparent q fuel s (s.children p)).map fun s => (s.unlinkChild q p (s.childPrev p)).unlinkGlobal p
  | none => (disown fuel s (s.children p)).map fun s => s.unlinkGlobal p

def processFinalizeTask (fuel : ℕ) (s : Processes P) (p : P) : Option (Processes P) :=
  (unregisterProcess fuel { s with finalizing := s.finalizing.erase p } p).map fun s =>
    { s with phase := Function.update s.phase p .absent }

/-- The memory of a new process is cleared. Its task is created after it is registered. -/
def createUserProcess (s : Processes P) (parent : Option P) (p : P) (tasks : Bool) : Processes P :=
  registerProcess { s with
    nextPid := s.nextPid + 1
    pid := Function.update s.pid p s.nextPid
    pgid := Function.update s.pgid p (parent.elim s.nextPid s.pgid)
    status := Function.update s.status p 0
    tasks := Function.update s.tasks p tasks
    parent := Function.update s.parent p parent
    children := Function.update s.children p none
    childNext := Function.update s.childNext p none
    childPrev := Function.update s.childPrev p none
    globalNext := Function.update s.globalNext p none
    globalPrev := Function.update s.globalPrev p none
    phase := Function.update s.phase p .alive } p

def removeProcessTask (s : Processes P) (p : P) : Processes P :=
  let s := { s with tasks := Function.update s.tasks p false }
  if s.parent p = none then s.deallocProcess p else s

/-- The children that a wait of `p` asks for. -/
def asksFor (s : Processes P) (p : P) (pid : ℤ) (child : P) : Bool :=
  pid == -1 || (pid == 0 && s.pgid p == s.pgid child) || (decide (pid < -1) && s.pgid p == -pid) ||
    (decide (pid > 0) && s.pid child == pid)

/-- The child has ended, or has been stopped or continued and the flags say to report that. -/
def reports (s : Processes P) (flags : ℕ) (child : P) : Bool :=
  !s.tasks child || (flags.testBit 1 && s.status child / 256 == 2) ||
    (flags.testBit 2 && s.status child / 256 == 3)

def basicProcessWait (p : P) (pid : ℤ) (flags : ℕ) : ℕ → Processes P → (current : Option P) → (found : ℕ) →
    Option (Processes P × Except WaitError ℤ)
  | fuel, s, current, found =>
    match current.elim (s.children p) s.childNext, fuel with
    | none, _ => some (s, .error (if found ≠ 0 then (if flags.testBit 0 then .EAGAIN else .EINTR) else .ECHILD))
    | some _, 0 => none
    | some child, fuel + 1 =>
      if s.asksFor p pid child then
        if s.reports flags child then
          let t := { s with status := Function.update s.status child 0 }
          some (if s.tasks child then t
            else deallocProcess { t.unlinkChild p child current with
              phase := Function.update s.phase child .reaped } child, .ok (s.pid child))
        else basicProcessWait p pid flags fuel s (some child) (found + 1)
      else basicProcessWait p pid flags fuel s (some child) found

end Processes

inductive ProcessAction (P : Type*) where
  | create (parent : Option P) (p : P) (started : Bool)
  | setStatus (p : P) (status : ℕ)
  | setPgid (p : P) (pgid : ℤ)
  | removeTask (p : P)
  | wait (p : P) (pid : ℤ) (flags : ℕ)
  | finalize (p : P)

/-- Loops of more than `fuel` iterations do not end. A process that got no task is finalized
again; processes with a task create and wait. -/
def processStep (fuel : ℕ) (s : Processes P) : ProcessAction P → Option (Processes P)
  | .create parent p started =>
    if s.phase p = .absent ∧ ∀ q, parent = some q → s.phase q = .alive ∧ s.tasks q = true then
      let t := s.createUserProcess parent p started
      some (if started then t else t.deallocProcess p)
    else none
  | .setStatus p status => some { s with status := Function.update s.status p status }
  | .setPgid p pgid => some { s with pgid := Function.update s.pgid p pgid }
  | .removeTask p => if s.tasks p then some (s.removeProcessTask p) else none
  | .wait p pid flags =>
    if s.phase p = .alive ∧ s.tasks p = true then (Processes.basicProcessWait p pid flags fuel s none 0).map (·.1)
    else none
  | .finalize p => if p ∈ s.finalizing then s.processFinalizeTask fuel p else none

def noProcesses (P : Type*) : Processes P :=
  ⟨1, none, fun _ => 0, fun _ => 0, fun _ => 0, fun _ => false, fun _ => none, fun _ => none, fun _ => none,
    fun _ => none, fun _ => none, fun _ => none, fun _ => .absent, []⟩

end SomeOs.Process

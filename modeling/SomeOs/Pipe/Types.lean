import SomeOs.Base.LinkedList
import SomeOs.Base.Ring
import SomeOs.Base.Transition

/-! # Pipes

The state of one pipe and of the calls on it. The record of a call is on the stack of
its task, which is freed when the call has returned: a record is memory of the pipe as
long as its call is active, and a store to another one has no result. The requests, the
results and the bytes that were accepted and delivered, each with the number of its call,
are kept beside what the source keeps; no operation reads them.
-/
namespace SomeOs.Pipe
open ByteStore LinkedList

/-- `PIPE_BUFFER_CAPACITY` -/
abbrev capacity : ℕ := 512

inductive Request where
  | read (size : ℕ)
  | write (bytes : List UInt8)

/-- A writer has the bytes it still has to write in its buffer, a reader those it
has received. -/
structure WaitingPipeOperation where
  call : ℕ
  buffer : List UInt8
  size : ℕ
  written : ℕ
  wakeup : ℕ
  next : Option ℕ

structure WaitQueue where
  first : Option ℕ
  tail : Option ℕ

/-- Why a task was woken: its operation was served, the pipe has ended, or its process
has a signal. -/
inductive Wake where
  | served | ended | signal
  deriving DecidableEq

/-- A call that has not returned. A task that was not woken is waiting. -/
structure ActiveCall where
  call : ℕ
  task : ℕ
  addr : ℕ
  write : Bool
  woken : Option Wake
  deriving DecidableEq

inductive PipeReturn where
  | success (ret : ℕ)
  | eintr (ret : ℕ)
  | eagain

structure CallResult where
  call : ℕ
  ret : PipeReturn
  woken : Option Wake

structure PipeState where
  ref_count : ℕ
  write_count : ℕ
  buffer : Store
  read_pos : ℕ
  count : ℕ
  waiting_reads : WaitQueue
  waiting_writes : WaitQueue
  ops : ℕ → WaitingPipeOperation
  active : List ActiveCall
  requests : List Request
  results : List CallResult
  accepted : List (ℕ × UInt8)
  delivered : List (ℕ × UInt8)

def Request.isWrite : Request → Bool
  | .read _ => false
  | .write _ => true

def Request.size : Request → ℕ
  | .read size => size
  | .write bytes => bytes.length

def Request.bytes : Request → List UInt8
  | .read _ => []
  | .write bytes => bytes

namespace PipeState

def next (s : PipeState) (a : ℕ) : Option ℕ := (s.ops a).next

def setOp (s : PipeState) (a : ℕ) (op : WaitingPipeOperation) : PipeState :=
  { s with ops := Function.update s.ops a op }

def setNext (s : PipeState) (a : ℕ) (next : Option ℕ) : PipeState :=
  s.setOp a { s.ops a with next := next }

def queue (s : PipeState) (write : Bool) : WaitQueue :=
  if write then s.waiting_writes else s.waiting_reads

def setQueue (s : PipeState) (write : Bool) (q : WaitQueue) : PipeState :=
  if write then { s with waiting_writes := q } else { s with waiting_reads := q }

/-- The records of a queue, when there is an end to it. There are not more records
than calls. -/
def queued (s : PipeState) (write : Bool) : Option (List ℕ) :=
  walk s.next s.requests.length (s.queue write).first

def wake (s : PipeState) (task : ℕ) (why : Wake) : PipeState :=
  { s with active := s.active.map fun c => if c.task = task then { c with woken := some why } else c }

def awakenTask (s : PipeState) (task : ℕ) (why : Wake) : Option PipeState :=
  if s.active.any (fun c => c.task == task && c.woken == none) then some (s.wake task why) else none

def behind (s : PipeState) (write : Bool) (a : ℕ) : WaitQueue :=
  if s.next a = none then ⟨none, none⟩ else { s.queue write with first := s.next a }

def popWaiting (s : PipeState) (write : Bool) (a : ℕ) (why : Wake) : Option PipeState :=
  (s.setQueue write (s.behind write a)).awakenTask (s.ops a).wakeup why

/-- The bytes that a reader can take from the ring are copied to its buffer. -/
def transferRead (s : PipeState) (a : ℕ) : PipeState :=
  let op := s.ops a
  let length := min s.count op.size
  let bytes := Ring.readWrapped s.buffer capacity s.read_pos length
  { s with
    ops := Function.update s.ops a { op with
      buffer := op.buffer ++ bytes, size := op.size - length, written := op.written + length }
    read_pos := (s.read_pos + length) % capacity
    count := s.count - length
    delivered := s.delivered ++ bytes.map (op.call, ·) }

/-- The bytes that a writer can put in the ring are copied from its buffer. -/
def transferWrite (s : PipeState) (a : ℕ) : PipeState :=
  let op := s.ops a
  let length := min (capacity - s.count) op.size
  let write_pos := (s.read_pos + s.count) % capacity
  { s with
    ops := Function.update s.ops a { op with
      buffer := op.buffer.drop length, size := op.size - length, written := op.written + length }
    buffer := Ring.writeWrapped s.buffer capacity write_pos (op.buffer.take length)
    count := s.count + length
    accepted := s.accepted ++ (op.buffer.take length).map (op.call, ·) }

def serveRead (s : PipeState) (a : ℕ) : Option PipeState :=
  let t := s.transferRead a
  if (t.ops a).size = 0 ∨ t.waiting_writes.first = none then
    t.popWaiting false a (if s.count = 0 ∧ (s.ops a).size ≠ 0 then .ended else .served)
  else some t

def serveWrite (s : PipeState) (a : ℕ) : Option PipeState :=
  let t := s.transferWrite a
  if (t.ops a).size = 0 then t.popWaiting true a .served else some t

def readTurn (s : PipeState) : Option ℕ :=
  if s.count ≠ 0 ∨ s.write_count = 0 then s.waiting_reads.first else none

def writeTurn (s : PipeState) : Option ℕ :=
  if s.count < capacity then s.waiting_writes.first else none

/-- The loop of `doOperationOnPipe`, at most `n` times. -/
def serviceLoop : ℕ → PipeState → Option PipeState
  | 0, _ => none
  | n + 1, s =>
    match s.readTurn with
    | some a => (s.serveRead a).bind (serviceLoop n)
    | none =>
      match s.writeTurn with
      | some a => (s.serveWrite a).bind (serviceLoop n)
      | none => some s

def work (s : PipeState) (l : List ℕ) : ℕ := (l.map fun a => (s.ops a).size + 1).sum

/-- A turn does some of the work that is left, unless the loop does not end. -/
def doOperationOnPipe (s : PipeState) : Option PipeState := do
  let reads ← s.queued false
  let writes ← s.queued true
  serviceLoop (s.work reads + s.work writes + 1) s

def queuedSize (s : PipeState) (write : Bool) : Option ℕ :=
  (s.queued write).map fun l => (l.map fun a => (s.ops a).size).sum

def currentReadCapacity (s : PipeState) : Option ℕ := (s.queuedSize true).map (s.count + ·)

def currentWriteCapacity (s : PipeState) : Option ℕ :=
  (s.queuedSize false).map (capacity - s.count + ·)

/-- The record of a new operation is put behind the tail of its queue; the tail of a
queue that is not empty stays as it is, also when its call returns. -/
def enqueue (s : PipeState) (write : Bool) (a : ℕ) : Option PipeState :=
  match (s.queue write).first with
  | none => some (s.setQueue write ⟨some a, some a⟩)
  | some _ => (s.queue write).tail.bind fun tail =>
    if ∃ c ∈ s.active, c.addr = tail then some (s.setNext tail (some a)) else none

def answer (s : PipeState) (request : Request) (ret : PipeReturn) : PipeState :=
  { s with
    requests := s.requests ++ [request]
    results := s.results ++ [⟨s.requests.length, ret, none⟩] }

def startWaiting (s : PipeState) (task a : ℕ) (request : Request) : PipeState :=
  { s with
    ops := Function.update s.ops a
      ⟨s.requests.length, request.bytes, request.size, 0, task, none⟩
    requests := s.requests ++ [request]
    active := s.active ++ [⟨s.requests.length, task, a, request.isWrite, none⟩] }

def mayStart (s : PipeState) (request : Request) (block : Bool) : Option Bool :=
  if block then some true
  else if request.isWrite then s.currentWriteCapacity.map fun n => decide (request.size ≤ n)
  else s.currentReadCapacity.map fun n => decide (0 < n)

/-- The part of a call before its task waits or the call returns. -/
def executePipeOperation (s : PipeState) (task a : ℕ) (request : Request) (block : Bool) :
    Option PipeState :=
  s.currentReadCapacity.bind fun read_capacity =>
    if read_capacity = 0 ∧ s.write_count = 0 then some (s.answer request (.success 0))
    else
      (s.mayStart request block).bind fun start =>
        if start then ((s.startWaiting task a request).enqueue request.isWrite a).bind doOperationOnPipe
        else some (s.answer request .eagain)

/-- The first waiting read of the task is taken out of its queue. -/
def unlinkTask (s : PipeState) (task : ℕ) : Option ℕ → List ℕ → PipeState
  | _, [] => s
  | prev, a :: l =>
    if (s.ops a).wakeup = task then
      let s := match prev with
        | none => { s with waiting_reads := { s.waiting_reads with first := s.next a } }
        | some p => s.setNext p (s.next a)
      if s.waiting_reads.first = none then { s with waiting_reads := ⟨none, none⟩ } else s
    else unlinkTask s task (some a) l

def handlePipeWakeup (s : PipeState) (task : ℕ) : Option PipeState := do
  let reads ← s.queued false
  (s.unlinkTask task none reads).awakenTask task .signal

/-- The rest of a call, after its task was woken. -/
def finishCall (s : PipeState) (task : ℕ) : Option PipeState :=
  (s.active.find? (fun c => c.task == task && c.woken != none)).map fun c =>
    let written := (s.ops c.addr).written
    { s with
      active := s.active.filter (fun c => c.task != task)
      results := s.results ++
        [⟨c.call, if written ≠ 0 then .success written else .eintr written, c.woken⟩] }

def copyPipeSharedData (s : PipeState) (for_write : Bool) : PipeState :=
  { s with
    ref_count := s.ref_count + 1
    write_count := if for_write then s.write_count + 1 else s.write_count }

def freePipeSharedData (s : PipeState) (for_write : Bool) : Option PipeState :=
  let s := { s with ref_count := s.ref_count - 1 }
  if for_write then
    let s := { s with write_count := s.write_count - 1 }
    if s.write_count = 0 then s.doOperationOnPipe else some s
  else some s

def createPipeSharedData (for_write : Bool) (buffer : Store) (ops : ℕ → WaitingPipeOperation) : PipeState :=
  { ref_count := 1, write_count := if for_write then 1 else 0, buffer := buffer, read_pos := 0, count := 0,
    waiting_reads := ⟨none, none⟩, waiting_writes := ⟨none, none⟩, ops := ops, active := [], requests := [],
    results := [], accepted := [], delivered := [] }

end PipeState

inductive PipeAction where
  | call (task a : ℕ) (request : Request) (block : Bool)
  | finish (task : ℕ)
  | interrupt (task : ℕ)
  | copy (for_write : Bool)
  | close (for_write : Bool)

def PipeAction.isSignal : PipeAction → Bool
  | .interrupt _ => true
  | _ => false

def pipeStep (s : PipeState) : PipeAction → Option PipeState
  | .call task a request block => s.executePipeOperation task a request block
  | .finish task => s.finishCall task
  | .interrupt task => s.handlePipeWakeup task
  | .copy for_write => some (s.copyPipeSharedData for_write)
  | .close for_write => s.freePipeSharedData for_write

/-- A task makes one call at a time, and its record is not on that of a call that has
not returned. A call keeps the end it is made on open, and a write is made on an end
for writing. -/
def Enabled (s : PipeState) : PipeAction → Prop
  | .call task a request _ => 0 < s.ref_count ∧ (request.isWrite → 0 < s.write_count) ∧
    ∀ c ∈ s.active, c.task ≠ task ∧ c.addr ≠ a
  | .finish task => ∃ c ∈ s.active, c.task = task ∧ c.woken ≠ none
  | .interrupt task => ∃ c ∈ s.active, c.task = task ∧ c.woken = none
  | .copy _ => 0 < s.ref_count
  | .close for_write => 0 < s.ref_count ∧ (s.ref_count = 1 → s.active = []) ∧
    if for_write then 0 < s.write_count ∧ (s.write_count = 1 → ∀ c ∈ s.active, c.write = false)
    else s.write_count < s.ref_count

instance decidableEnabled (s : PipeState) : (act : PipeAction) → Decidable (Enabled s act)
  | .call task a request _ => inferInstanceAs (Decidable (0 < s.ref_count ∧
      (request.isWrite → 0 < s.write_count) ∧ ∀ c ∈ s.active, c.task ≠ task ∧ c.addr ≠ a))
  | .finish task => inferInstanceAs (Decidable (∃ c ∈ s.active, c.task = task ∧ c.woken ≠ none))
  | .interrupt task => inferInstanceAs (Decidable (∃ c ∈ s.active, c.task = task ∧ c.woken = none))
  | .copy _ => inferInstanceAs (Decidable (0 < s.ref_count))
  | .close true => inferInstanceAs (Decidable (0 < s.ref_count ∧ (s.ref_count = 1 → s.active = []) ∧
      0 < s.write_count ∧ (s.write_count = 1 → ∀ c ∈ s.active, c.write = false)))
  | .close false => inferInstanceAs (Decidable (0 < s.ref_count ∧ (s.ref_count = 1 → s.active = []) ∧
      s.write_count < s.ref_count))

end SomeOs.Pipe

import SomeOs.Base.Transition

/-! # The block cache

Calls on a cached block device, divided into sections under the lock of the cache and
accesses to the device. Offsets and sizes are counted in blocks, and the table of cached
blocks is a partial map. What a read should return is kept beside what the source keeps:
`last` is the data of a write that has returned when no other write of the block was
or is in progress, and a read takes it as its expectation when it starts.
-/
namespace SomeOs.Cache
variable {B : Type*}

def slice (offset : ℕ) (bytes : List B) (b : ℕ) : Option B :=
  if offset ≤ b then bytes[b - offset]? else none

/-- What a read has to do next: look at the table for the first time, read the blocks that
are not cached from the device, or put them in the table and look at the next ones. -/
inductive ReadPhase (B : Type*) where
  | start
  | fetch (offset uncached next : ℕ)
  | publish (offset : ℕ) (bytes : List B) (next : ℕ)

structure ReadCall (B : Type*) where
  offset : ℕ
  size : ℕ
  buff : ℕ → Option B
  expect : ℕ → Option B
  phase : ReadPhase B

structure WriteCall (B : Type*) where
  offset : ℕ
  bytes : List B
  written : Bool

structure CacheState (B : Type*) where
  device : ℕ → B
  table : ℕ → Option B
  reads : List (ReadCall B)
  writes : List (WriteCall B)
  last : ℕ → Option B
  results : List (ReadCall B)

def WriteCall.data (w : WriteCall B) (b : ℕ) : Option B := slice w.offset w.bytes b

/-- A section of `readFunction` under the lock, with `size` blocks left. Cached blocks are
copied, up to the first one behind blocks that are not cached. -/
def scan (table : ℕ → Option B) : (size offset uncached : ℕ) → (ℕ → Option B) →
    (ℕ → Option B) × Option (ℕ × ℕ × ℕ)
  | 0, offset, uncached, buff =>
    (buff, if uncached ≠ 0 then some (offset, uncached, offset + uncached) else none)
  | size + 1, offset, uncached, buff =>
    match table (offset + uncached) with
    | some v =>
      let buff := Function.update buff (offset + uncached) (some v)
      if uncached ≠ 0 then (buff, some (offset, uncached, offset + uncached + 1))
      else scan table size (offset + 1) 0 buff
    | none => scan table size offset (uncached + 1) buff

/-- The end of `readUncached`: blocks that are in the table already are not changed. -/
def publishRead (table : ℕ → Option B) (offset : ℕ) (bytes : List B) : ℕ → Option B := fun b =>
  (table b).or (slice offset bytes b)

/-- The end of `writeFunction`. -/
def publishWrite (table : ℕ → Option B) (w : WriteCall B) : ℕ → Option B := fun b =>
  (w.data b).or (table b)

namespace CacheState

/-- The state after a section of the read `r` at position `i`. -/
def scanned (s : CacheState B) (i : ℕ) (r : ReadCall B) : (ℕ → Option B) × Option (ℕ × ℕ × ℕ) → CacheState B
  | (buff, none) => { s with reads := s.reads.eraseIdx i, results := s.results ++ [{ r with buff := buff }] }
  | (buff, some (offset, uncached, next)) =>
    { s with reads := s.reads.set i { r with buff := buff, phase := .fetch offset uncached next } }

def stepRead (s : CacheState B) (i : ℕ) (r : ReadCall B) : CacheState B :=
  match r.phase with
  | .start => s.scanned i r (scan s.table r.size r.offset 0 r.buff)
  | .fetch offset uncached next =>
    let bytes := (List.range uncached).map fun k => s.device (offset + k)
    { s with reads := s.reads.set i { r with
        buff := fun b => (slice offset bytes b).or (r.buff b)
        phase := .publish offset bytes next } }
  | .publish offset bytes next =>
    let table := publishRead s.table offset bytes
    scanned { s with table := table } i r (scan table (r.offset + r.size - next) next 0 r.buff)

def stepWrite (s : CacheState B) (i : ℕ) (w : WriteCall B) : CacheState B :=
  if w.written then
    { s with
      table := publishWrite s.table w
      writes := s.writes.eraseIdx i
      last := fun b => if (s.writes.eraseIdx i).all (fun w' => (w'.data b).isNone) then (w.data b).or (s.last b)
        else s.last b }
  else
    { s with
      device := fun b => (w.data b).getD (s.device b)
      writes := s.writes.set i { w with written := true } }

def startWrite (s : CacheState B) (w : WriteCall B) : CacheState B :=
  { s with
    writes := s.writes ++ [w]
    last := fun b => if (w.data b).isSome then none else s.last b
    reads := s.reads.map fun r => { r with expect := fun b => if (w.data b).isSome then none else r.expect b } }

end CacheState

inductive CacheAction (B : Type*) where
  | read (offset size : ℕ)
  | write (offset : ℕ) (bytes : List B)
  | stepRead (i : ℕ)
  | stepWrite (i : ℕ)
  | failRead (i : ℕ)
  | failWrite (i : ℕ)
  | reclaim (drop : ℕ → Bool)

/-- A call starts, takes its next step, or ends because of an error of the device; or some
cached blocks are removed. -/
def cacheStep (s : CacheState B) : CacheAction B → Option (CacheState B)
  | .read offset size => some { s with reads := s.reads ++ [⟨offset, size, fun _ => none, s.last, .start⟩] }
  | .write offset bytes => some (s.startWrite ⟨offset, bytes, false⟩)
  | .stepRead i => s.reads[i]?.map (s.stepRead i)
  | .stepWrite i => s.writes[i]?.map (s.stepWrite i)
  | .failRead i => s.reads[i]?.bind fun r =>
    match r.phase with
    | .fetch .. => some { s with reads := s.reads.eraseIdx i }
    | _ => none
  | .failWrite i => s.writes[i]?.bind fun w =>
    if w.written then none else some { s with writes := s.writes.eraseIdx i }
  | .reclaim drop => some { s with table := fun b => if drop b then none else s.table b }

def wrapBlockDeviceWithCache (device : ℕ → B) : CacheState B :=
  ⟨device, fun _ => none, [], [], fun _ => none, []⟩

end SomeOs.Cache

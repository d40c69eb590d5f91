import SomeOs.Base.Segments
import SomeOs.Vfs.Namespace

/-! # Path strings

`inlineReducePath` rewrites a string in place, with a cursor that reads and one that inserts. It is
modelled as a machine with a step for every round of one of its loops. An access outside the string
and its terminator has no result, and a position below the string is one.
-/
namespace SomeOs.Vfs
open Segments

def slash : UInt8 := 47

/-- The loop that the function is in. -/
inductive ReducePoint where
  | segment
  | skip
  | scan (next_slash : ℕ)
  | remove
  | write (next_slash : ℕ) (reducible : Bool)
  | returned
  deriving DecidableEq

structure ReduceState where
  path : List UInt8
  read_pos : ℕ
  insert_pos : ℕ
  segments : ℕ
  is_absolute : Bool
  point : ReducePoint

def store (path : List UInt8) (i : ℕ) (c : UInt8) : Option (List UInt8) :=
  if i < path.length then some (path.set i c) else none

def reduceStart (path : List UInt8) : Option ReduceState :=
  path[0]?.map fun c => if c = slash then ⟨path, 1, 1, 0, true, .segment⟩ else ⟨path, 0, 0, 0, false, .segment⟩

def reduceEnd (s : ReduceState) : Option ReduceState :=
  (if 1 < s.insert_pos then s.path[s.insert_pos - 1]?.map fun c => if c = slash then s.insert_pos - 1 else s.insert_pos
    else some s.insert_pos).bind fun insert_pos =>
      (store s.path insert_pos 0).map fun path => { s with path := path, insert_pos := insert_pos, point := .returned }

/-- A segment `..` removes the last reducible segment. Without one it is dropped in an absolute path and written in a
relative one. -/
def reduceDotDot (s : ReduceState) (next_slash : ℕ) : Option ReduceState :=
  if 0 < s.segments then
    if s.insert_pos = 0 then none else some { s with insert_pos := s.insert_pos - 1, point := .remove }
  else if s.is_absolute then some { s with read_pos := s.read_pos + 2, point := .segment }
  else some { s with point := .write next_slash false }

/-- What becomes of the segment before `next_slash`. -/
def reduceSegment (s : ReduceState) (next_slash : ℕ) : Option ReduceState :=
  let ordinary := { s with point := .write next_slash true }
  if next_slash = s.read_pos + 1 then
    s.path[s.read_pos]?.map fun c => if c = 46 then { s with read_pos := s.read_pos + 1, point := .segment } else ordinary
  else if next_slash = s.read_pos + 2 then
    s.path[s.read_pos]?.bind fun c => if c = 46 then
        s.path[s.read_pos + 1]?.bind fun d => if d = 46 then reduceDotDot s next_slash else some ordinary
      else some ordinary
  else some ordinary

def reduceStep (s : ReduceState) : Option ReduceState :=
  match s.point with
  | .segment => s.path[s.read_pos]?.bind fun c => if c ≠ 0 then some { s with point := .skip } else reduceEnd s
  | .skip => s.path[s.read_pos]?.map fun c =>
    if c = slash then { s with read_pos := s.read_pos + 1 } else { s with point := .scan s.read_pos }
  | .scan next_slash => s.path[next_slash]?.bind fun c =>
    if c ≠ 0 ∧ c ≠ slash then some { s with point := .scan (next_slash + 1) } else reduceSegment s next_slash
  | .remove =>
    let removed := { s with read_pos := s.read_pos + 2, segments := s.segments - 1, point := .segment }
    if 0 < s.insert_pos then
      s.path[s.insert_pos - 1]?.map fun c => if c ≠ slash then { s with insert_pos := s.insert_pos - 1 } else removed
    else some removed
  | .write next_slash reducible =>
    let written := { s with segments := if reducible then s.segments + 1 else s.segments, point := .segment }
    if s.read_pos ≤ next_slash then
      s.path[s.read_pos]?.bind fun c => if c ≠ 0 then
          (store s.path s.insert_pos c).map fun path =>
            { s with path := path, read_pos := s.read_pos + 1, insert_pos := s.insert_pos + 1 }
        else some written
    else some written
  | .returned => some s

def reduceRun : ℕ → ReduceState → Option ReduceState
  | 0, _ => none
  | fuel + 1, s => if s.point = .returned then some s else (reduceStep s).bind (reduceRun fuel)

/-- The function on a string in memory, with its terminator. There is no result when an access is outside the string, or
the loops do not end within the fuel. -/
def inlineReducePath (fuel : ℕ) (path : List UInt8) : Option (List UInt8) :=
  (reduceStart path).bind fun s => (reduceRun fuel s).map ReduceState.path

def cString (path : List UInt8) : List UInt8 := path.takeWhile (· ≠ 0)

/-- The states that the function goes through. -/
inductive Reducing (path : List UInt8) : ReduceState → Prop
  | start {s : ReduceState} (h : reduceStart path = some s) : Reducing path s
  | step {s t : ReduceState} (hs : Reducing path s) (hpoint : s.point ≠ .returned) (h : reduceStep s = some t) : Reducing path t

/-- Segments after one another, with those that are kept of the ones before, the last one first. -/
def resolve (absolute : Bool) : List Name → List Name → List Name
  | kept, [] => kept.reverse
  | kept, segment :: rest =>
    if segment = dot then resolve absolute kept rest
    else if segment = dotDot then
      match kept with
      | [] => resolve absolute (if absolute then [] else [dotDot]) rest
      | last :: kept => resolve absolute (if last = dotDot then dotDot :: last :: kept else kept) rest
    else resolve absolute (segment :: kept) rest

def isAbsolute (path : List UInt8) : Bool := path.head? = some slash

def root (absolute : Bool) : List UInt8 := if absolute then [slash] else []

def canonicalPath (path : List UInt8) : List UInt8 :=
  root (isAbsolute path) ++ [slash].intercalate (resolve (isAbsolute path) [] (segments slash path))

/-- `while (len > 0 && p(path[len])) len--` -/
def scanBack (p : UInt8 → Bool) (path : List UInt8) : ℕ → Option ℕ
  | 0 => some 0
  | len + 1 => path[len + 1]?.bind fun c => if p c then scanBack p path len else some (len + 1)

/-- `while (len > 0 && path[len - 1] == '/') len--` -/
def dropSlashes (path : List UInt8) : ℕ → Option ℕ
  | 0 => some 0
  | len + 1 => path[len]?.bind fun c => if c = slash then dropSlashes path len else some (len + 1)

/-- `while (path[n - 1] == '/') n--`, where the index below the string is that of no access. -/
def trimSlashes (path : List UInt8) : ℕ → Option ℕ
  | 0 => none
  | n + 1 => path[n]?.bind fun c => if c = slash then trimSlashes path n else some (n + 1)

/-- The copy of the string that the function returns. The last index of an empty string wraps around, and the access
to it is outside the copy. -/
def getParentPath (path : List UInt8) : Option (List UInt8) :=
  match (cString path).length with
  | 0 => none
  | last + 1 =>
    (scanBack (· = slash) path last).bind fun len =>
    (scanBack (· ≠ slash) path len).bind fun len =>
    (dropSlashes path len).bind fun len =>
    path[0]?.bind fun c =>
    store path (if len = 0 ∧ c = slash then 1 else len) 0

def getBaseFilename (path : List UInt8) : Option (List UInt8) :=
  match (cString path).length with
  | 0 => none
  | last + 1 =>
    (scanBack (· = slash) path last).bind fun len =>
    (scanBack (· ≠ slash) path len).bind fun len =>
    path[len]?.bind fun c =>
    let len := if c = slash then len + 1 else len
    let copy := (path.drop len).take (last + 1 - len) ++ path.drop (last + 1 - len)
    (trimSlashes copy (last + 1 - len)).bind fun n => store copy n 0

end SomeOs.Vfs

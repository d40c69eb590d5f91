import SomeOs.Base.Units

/-! # The first and the last part of a file

`head` and `tail` read a file in blocks. When they have to know how much there is, they keep the whole file.
-/
namespace SomeOs.HeadTail

abbrev Bytes := List UInt8

structure Arguments where
  bytes : Bool
  rev : Bool
  count : UInt64
  silent : Bool
  verbose : Bool
  zero : Bool
  files : List Bytes

/-- A file as `fread` gives it, and whether the end is seen with the last of its blocks. -/
structure File where
  blocks : List Bytes
  endWithLast : Bool
  nonempty : ∀ b ∈ blocks, b ≠ []
  small : ∀ b ∈ blocks, b.length ≤ 1024
  /-- The whole of it can be kept in memory. -/
  addressable : blocks.flatten.length < 2 ^ 64

def File.content (file : File) : Bytes := file.blocks.flatten

def Arguments.delimiter (args : Arguments) : UInt8 := if args.zero then 0 else 10

def Arguments.counted (args : Arguments) (c : UInt8) : Bool := args.bytes || c == args.delimiter

/-- What is written, and `args->error`. -/
structure Printed where
  out : Bytes
  error : Bool
deriving DecidableEq

variable (args : Arguments)

structure Whole where
  buffer : Bytes
  total : ℕ
  allocated : ℕ

/-- `feof` after a block with `rest` behind it -/
def feof (endWithLast : Bool) (rest : List Bytes) : Bool := rest.isEmpty && endWithLast

/-- Without a block `fread` reads nothing. -/
def readAll (endWithLast : Bool) : List Bytes → Whole → Whole
  | [], w => { w with allocated := w.buffer.length + 1024 }
  | block :: rest, w =>
    let w := {
      buffer := w.buffer ++ block
      total := w.total + if args.bytes then block.length else block.count args.delimiter
      allocated := w.buffer.length + 1024 }
    if block = [] ∨ feof endWithLast rest then w else readAll endWithLast rest w

def Whole.memory (w : Whole) (junk : ℕ → UInt8) : Bytes :=
  w.buffer ++ (List.range (w.allocated - w.buffer.length)).map junk

def header (path : Bytes) : Bytes :=
  if !args.silent && (decide (args.files.length > 1) || args.verbose) then path ++ [58, 10] else []

namespace Head

/-- The loop over the delimiters in a block, with `left` and `tmp_size`. The size is cut behind the last line. -/
def cutBlock (d : UInt8) : Bytes → ℕ → ℕ → ℕ → ℕ × ℕ
  | [], _, left, tmp_size => (left, tmp_size)
  | c :: buffer, i, left, tmp_size =>
    if c = d then
      if left - 1 = 0 then (0, i + 1) else cutBlock d buffer (i + 1) (left - 1) tmp_size
    else cutBlock d buffer (i + 1) left tmp_size

/-- `left` and `tmp_size` behind a block -/
def cut (buffer : Bytes) (left : ℕ) : ℕ × ℕ :=
  if args.bytes then
    let tmp_size := if buffer.length > left then left else buffer.length
    (left - tmp_size, tmp_size)
  else cutBlock args.delimiter buffer 0 left buffer.length

/-- The loop over the blocks. -/
def printBlocks (endWithLast : Bool) : List Bytes → ℕ → Bytes
  | [], _ => []
  | buffer :: rest, left =>
    if left = 0 then []
    else
      let (left, tmp_size) := cut args buffer left
      buffer.take tmp_size ++ if tmp_size = 0 ∨ feof endWithLast rest then [] else printBlocks endWithLast rest left

/-- The loop over the memory from `next_out` on, which is not to leave the buffer. -/
def printKept : Bytes → ℕ → Option Bytes
  | _, 0 => some []
  | [], _ + 1 => none
  | c :: memory, left + 1 => do
    let left := if args.bytes then left else if c = args.delimiter then left else left + 1
    let out ← printKept memory left
    pure (c :: out)

def catFile (path : Bytes) (file : Option File) (junk : ℕ → UInt8) : Option Printed :=
  match file with
  | none => some ⟨[], true⟩
  | some file =>
    if !args.rev then
      some ⟨header args path ++ printBlocks args file.endWithLast file.blocks args.count.toNat, false⟩
    else do
      let w := readAll args file.endWithLast file.blocks ⟨[], 0, 0⟩
      let left := (w.total + 2 ^ 64 - args.count.toNat) % 2 ^ 64
      let out ← printKept args (w.memory junk) left
      pure ⟨header args path ++ out, false⟩

end Head

namespace Tail

/-- The loop over the delimiters in a block, with `left` and where the rest of the block starts. -/
def cutBlock (d : UInt8) : Bytes → ℕ → ℕ → ℕ × ℕ
  | [], _, left => (left, 0)
  | c :: buffer, i, left =>
    if c = d then
      if left - 1 = 0 then (0, i + 1) else cutBlock d buffer (i + 1) (left - 1)
    else cutBlock d buffer (i + 1) left

/-- `left` and the start of the rest behind a block -/
def cut (buffer : Bytes) (left : ℕ) : ℕ × ℕ :=
  if left > 0 then
    if args.bytes then
      if buffer.length > left then (0, left) else (left - buffer.length, 0)
    else cutBlock args.delimiter buffer 0 left
  else (left, 0)

/-- The loop over the blocks. -/
def printBlocks (endWithLast : Bool) : List Bytes → ℕ → Bytes
  | [], _ => []
  | buffer :: rest, left =>
    let (left, start) := cut args buffer left
    let tmp_size := buffer.length - start
    let out := if left = 0 then buffer.drop start else []
    out ++ if tmp_size = 0 ∨ feof endWithLast rest then [] else printBlocks endWithLast rest left

/-- The loop over the buffer from `next_out` on. -/
def printKept : Bytes → ℕ → Bytes
  | [], _ => []
  | c :: buffer, 0 => c :: printKept buffer 0
  | c :: buffer, left + 1 =>
    printKept buffer (if args.bytes then left else if c = args.delimiter then left else left + 1)

def catFile (path : Bytes) (file : Option File) : Option Printed :=
  match file with
  | none => some ⟨[], true⟩
  | some file =>
    if args.rev then
      some ⟨header args path ++ printBlocks args file.endWithLast file.blocks args.count.toNat, false⟩
    else
      let w := readAll args file.endWithLast file.blocks ⟨[], 0, 0⟩
      let left := w.total - if w.total > args.count.toNat then args.count.toNat else w.total
      some ⟨header args path ++ printKept args w.buffer left, false⟩

end Tail

end SomeOs.HeadTail

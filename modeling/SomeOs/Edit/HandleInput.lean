import SomeOs.Base.Buffers
import SomeOs.Edit.TextFile

/-! # The keys of the editor

The lines are in an array of their own allocations. A key changes the line of the cursor, joins two
lines or splits one. An access out of the bounds of an allocation has no result.
-/
namespace SomeOs.Edit
open Buffers

structure TextLine where
  text : Text
  length : ℕ

structure EditorState where
  lines : List TextLine
  line_count : ℕ
  cursor_row : ℕ
  cursor_column : ℕ
  changed : Bool

/-- `C` of a capital letter -/
abbrev ctrl (c : UInt8) : UInt8 := c + 1 - 65

abbrev escape : UInt8 := 27

def isprint (c : UInt8) : Bool := 32 ≤ c && c ≤ 126

def isalpha (c : UInt8) : Bool := (65 ≤ c && c ≤ 90) || (97 ≤ c && c ≤ 122)

section
-- what memory holds that was just allocated
variable (junk : UInt8)

def freshLine : TextLine := ⟨[junk], 0⟩

def insertText (state : EditorState) (len : ℕ) (text : Text) : Option EditorState := do
  let line ← state.lines[state.cursor_row]?
  let buffer := resize junk (line.length + len) line.text
  let buffer ← move buffer (state.cursor_column + len) state.cursor_column (line.length - state.cursor_column)
  let buffer ← blit buffer state.cursor_column text 0 len
  pure { state with
    lines := state.lines.set state.cursor_row ⟨buffer, line.length + len⟩
    cursor_column := state.cursor_column + len }

def changedState (state : EditorState) : EditorState := { state with changed := true }

/-- The backspace key at the first column, behind another line. -/
def joinLines (state : EditorState) : Option EditorState := do
  let row := state.cursor_row - 1
  let prev ← state.lines[row]?
  let next ← state.lines[row + 1]?
  let buffer ← blit (resize junk (prev.length + next.length) prev.text) prev.length next.text 0 next.length
  let lines := state.lines.set row ⟨buffer, prev.length + next.length⟩
  let lines ← move lines (row + 1) (row + 2) (state.line_count - row - 2)
  pure { state with lines := lines, line_count := state.line_count - 1, cursor_row := row, cursor_column := prev.length }

def removeBefore (state : EditorState) : Option EditorState := do
  let column := state.cursor_column - 1
  let line ← state.lines[state.cursor_row]?
  let buffer ← move line.text column (column + 1) (line.length - column - 1)
  pure { state with lines := state.lines.set state.cursor_row ⟨buffer, line.length - 1⟩, cursor_column := column }

def backspace (state : EditorState) : Option EditorState :=
  if state.cursor_column = 0 then
    if state.cursor_row ≠ 0 then (joinLines junk state).map changedState else some state
  else (removeBefore state).map changedState

def splitLine (state : EditorState) : Option EditorState := do
  let row := state.cursor_row + 1
  let lines := resize (freshLine junk) (state.line_count + 1) state.lines
  let lines ← move lines (row + 1) row (state.line_count - row)
  let prev ← lines[row - 1]?
  let length := prev.length - state.cursor_column
  let prev := { prev with length := prev.length - length }
  let text ← blit (List.replicate length junk) 0 prev.text prev.length length
  if row < lines.length then
    pure { state with
      lines := (lines.set (row - 1) prev).set row ⟨text, length⟩
      line_count := state.line_count + 1
      cursor_row := row
      cursor_column := 0 }
  else none

def moveToRow (state : EditorState) (row : ℕ) : Option EditorState := do
  let line ← state.lines[row]?
  pure { state with
    cursor_row := row
    cursor_column := if line.length < state.cursor_column then line.length else state.cursor_column }

/-- An arrow key, by the letter behind the bracket. -/
def arrow (state : EditorState) (c : UInt8) : Option EditorState :=
  if c = 67 then do
    let line ← state.lines[state.cursor_row]?
    pure (if state.cursor_column < line.length then changedState { state with cursor_column := state.cursor_column + 1 }
      else state)
  else if c = 68 then
    some (if state.cursor_column > 0 then changedState { state with cursor_column := state.cursor_column - 1 } else state)
  else if c = 65 then
    if state.cursor_row > 0 then (moveToRow state (state.cursor_row - 1)).map changedState else some state
  else if c = 66 then
    if state.cursor_row < state.line_count - 1 then (moveToRow state (state.cursor_row + 1)).map changedState else some state
  else some state

/-- What is left to do behind a round of the loop of `handleInput`. -/
inductive Round where
  | next (state : EditorState) (input : Text)
  /-- the program ends -/
  | exits (state : EditorState)
  /-- the input ends within a sequence -/
  | waits (state : EditorState)

def Round.ofOption (input : Text) (state : Option EditorState) : Option Round := state.map fun state => .next state input

/-- A round of the loop of `handleInput`. Saving leaves the lines and the cursor as they are. -/
def handleInput (state : EditorState) : Text → Option Round
  | [] => some (.waits state)
  | c :: input =>
    if c = ctrl 83 ∨ c = ctrl 89 then some (.next (changedState state) input)
    else if c = 8 ∨ c = 127 then Round.ofOption input (backspace junk state)
    else if c = newline then Round.ofOption input ((splitLine junk state).map changedState)
    else if c = 9 then Round.ofOption input ((insertText junk state 4 [32, 32, 32, 32]).map changedState)
    else if isprint c then Round.ofOption input ((insertText junk state 1 [c]).map changedState)
    else if c = escape then
      match input with
      | [] => some (.waits state)
      | bracket :: input =>
        if bracket = 91 then
          match input with
          | [] => some (.waits state)
          | c :: input =>
            (arrow state c).map fun state =>
            match (c :: input).dropWhile (!isalpha ·) with
            | [] => .waits state
            | _ :: input => .next state input
        else some (.next state input)
    else if c = ctrl 67 ∨ c = ctrl 68 ∨ c = ctrl 88 then some (.exits state)
    else some (.next state input)

end

end SomeOs.Edit

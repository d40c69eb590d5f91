import SomeOs.Edit.HandleInput

/-! # The keys on a flat text

The lines, joined by newlines, are a text with the cursor as a position in it. Every key acts on that text
alone, and all its accesses are in bounds.
-/
namespace SomeOs.Edit
open Buffers

def TextLine.Holds (line : TextLine) (s : Text) : Prop := ∃ slack, line.text = s ++ slack ∧ line.length = s.length

/-- The cursor is behind `left` on a line between those of `above` and those of `below`. -/
structure Shows (state : EditorState) (above : List Text) (left right : Text) (below : List Text) : Prop where
  lines : ∃ up cur down slack, state.lines = up ++ cur :: (down ++ slack) ∧ List.Forall₂ TextLine.Holds up above ∧
    cur.Holds (left ++ right) ∧ List.Forall₂ TextLine.Holds down below
  line_count : state.line_count = above.length + 1 + below.length
  cursor_row : state.cursor_row = above.length
  cursor_column : state.cursor_column = left.length

namespace EditorState

def rows (state : EditorState) : List Text := (state.lines.take state.line_count).map fun line => line.text.take line.length

def flat (state : EditorState) : Text := [newline].intercalate state.rows

def position (state : EditorState) : ℕ :=
  ((state.rows.take state.cursor_row).map fun row => row.length + 1).sum + state.cursor_column

end EditorState

section Shows
variable {state : EditorState} {above below : List Text} {left right : Text}

theorem rows_of_holds {ls : List TextLine} {rs : List Text} (h : List.Forall₂ TextLine.Holds ls rs) :
    ls.map (fun line => line.text.take line.length) = rs := by
  induction h with
  | nil => rfl
  | cons hline _ ih =>
    obtain ⟨slack, htext, hlength⟩ := hline
    rw [List.map_cons, ih, htext, hlength, List.take_left]

theorem Shows.rows (h : Shows state above left right below) : state.rows = above ++ (left ++ right) :: below := by
  obtain ⟨up, cur, down, slack, hlines, hup, hcur, hdown⟩ := h.lines
  have hall : List.Forall₂ TextLine.Holds (up ++ cur :: down) (above ++ (left ++ right) :: below) :=
    List.rel_append hup (.cons hcur hdown)
  have hcount : state.line_count = (up ++ cur :: down).length := by
    rw [h.line_count, hall.length_eq, List.length_append, List.length_cons]
    omega
  rw [EditorState.rows, hlines, ← List.cons_append, ← List.append_assoc, hcount, List.take_left, rows_of_holds hall]

def before (above : List Text) (left : Text) : Text := above.flatMap (· ++ [newline]) ++ left

def behind (right : Text) (below : List Text) : Text := right ++ below.flatMap (newline :: ·)

theorem intercalate_eq (rows : List Text) (row : Text) :
    [newline].intercalate (row :: rows) = row ++ rows.flatMap (newline :: ·) := by
  induction rows generalizing row with
  | nil => simp [List.intercalate]
  | cons r rows ih =>
    have hcons : [newline].intercalate (row :: r :: rows) = row ++ newline :: [newline].intercalate (r :: rows) := by
      simp [List.intercalate]
    rw [hcons, ih, List.flatMap_cons, List.cons_append]

theorem Shows.flat (h : Shows state above left right below) : state.flat = before above left ++ behind right below := by
  unfold EditorState.flat before behind
  rw [h.rows]
  clear h
  induction above with
  | nil =>
    rw [List.nil_append, intercalate_eq, List.flatMap_nil, List.nil_append, List.append_assoc]
  | cons row above ih =>
    obtain ⟨r, rs, hr⟩ := List.exists_cons_of_ne_nil (l := above ++ (left ++ right) :: below) (by simp)
    rw [List.cons_append, hr, intercalate_eq, List.flatMap_cons, List.cons_append, ← intercalate_eq, ← hr, ih,
      List.flatMap_cons]
    simp

theorem Shows.position (h : Shows state above left right below) : state.position = (before above left).length := by
  have htake : (above ++ (left ++ right) :: below).take above.length = above := List.take_left
  rw [EditorState.position, h.rows, h.cursor_row, htake, h.cursor_column, before, List.length_append, List.length_flatMap]
  simp

end Shows

section Lines
variable {α : Type*} {up rest : List α} {a b : α} {n : ℕ}

theorem getElem?_middle (h : n = up.length) : (up ++ a :: rest)[n]? = some a := by
  subst h
  simp

theorem set_middle (h : n = up.length) : (up ++ a :: rest).set n b = up ++ b :: rest := by
  subst h
  simp

end Lines

section Keys
variable {state : EditorState} {above below : List Text} {left right : Text} (junk : UInt8)

theorem Shows.setLine (h : Shows state above left right below) (line : TextLine) (left' right' : Text) (column : ℕ)
    (hline : line.Holds (left' ++ right')) (hcolumn : column = left'.length) : Shows { state with
      lines := state.lines.set state.cursor_row line
      cursor_column := column } above left' right' below := by
  obtain ⟨up, cur, down, slack, hlines, hup, -, hdown⟩ := h.lines
  refine ⟨⟨up, line, down, slack, ?_, hup, hline, hdown⟩, h.line_count, h.cursor_row, hcolumn⟩
  dsimp only
  rw [hlines, set_middle (h.cursor_row.trans hup.length_eq.symm)]

theorem Shows.current (h : Shows state above left right below) :
    ∃ line, state.lines[state.cursor_row]? = some line ∧ line.Holds (left ++ right) := by
  obtain ⟨up, cur, down, slack, hlines, hup, hcur, -⟩ := h.lines
  refine ⟨cur, ?_, hcur⟩
  rw [hlines, getElem?_middle (h.cursor_row.trans hup.length_eq.symm)]

theorem insertText_shows (h : Shows state above left right below) (typed : Text) :
    ∃ state', insertText junk state typed.length typed = some state' ∧ Shows state' above (left ++ typed) right below := by
  obtain ⟨⟨text, length⟩, hget, slack, rfl, hlength⟩ := h.current
  dsimp only at hlength hget
  have hcolumn := h.cursor_column
  rw [List.length_append] at hlength
  obtain ⟨tail, hresize, htail⟩ := @resize_append _ junk (left ++ right) slack (length + typed.length)
    (by rw [List.length_append]; omega)
  rw [List.length_append] at htail
  have hmove := @move_insert _ left right (length - state.cursor_column) tail (state.cursor_column + typed.length)
    state.cursor_column hcolumn.symm (by omega) (by omega)
  have hblit := @blit_eq _ right left typed ((right ++ tail).take tail.length) typed.length [] [] state.cursor_column 0
    hcolumn.symm rfl rfl (by rw [List.length_take, List.length_append]; omega)
  rw [List.nil_append, List.append_nil] at hblit
  refine ⟨_, ?_, h.setLine ⟨left ++ typed ++ right, length + typed.length⟩ (left ++ typed) right
    (state.cursor_column + typed.length) ⟨[], by simp, by simp; omega⟩ (by simp [hcolumn])⟩
  simp only [insertText, hget, Option.bind_eq_bind, Option.bind_some, hresize, hmove, hblit]
  rfl

theorem removeBefore_shows {c : UInt8} (h : Shows state above (left ++ [c]) right below) :
    ∃ state', removeBefore state = some state' ∧ Shows state' above left right below := by
  obtain ⟨⟨text, length⟩, hget, slack, rfl, hlength⟩ := h.current
  have hcolumn := h.cursor_column
  simp only [List.length_append, List.length_singleton] at hlength hcolumn
  have htext : left ++ [c] ++ right ++ slack = left ++ c :: (right ++ slack) := by simp
  rw [htext] at hget
  obtain ⟨rest, hmove⟩ : ∃ rest, move (left ++ c :: (right ++ slack)) (state.cursor_column - 1)
      (state.cursor_column - 1 + 1) (length - (state.cursor_column - 1) - 1) = some (left ++ right ++ rest) :=
    ⟨_, move_remove (by omega) rfl (by omega)⟩
  refine ⟨_, ?_, h.setLine ⟨left ++ right ++ rest, length - 1⟩ left right (state.cursor_column - 1) ⟨rest, rfl, ?_⟩ (by omega)⟩
  rotate_left
  · rw [List.length_append]
    dsimp only
    omega
  simp only [removeBefore, hget, Option.bind_eq_bind, Option.bind_some, hmove]
  rfl

/-- With a line above, the backspace key at the first column joins the lines. -/
theorem joinLines_shows {row : Text} (h : Shows state (above ++ [row]) [] right below) :
    ∃ state', joinLines junk state = some state' ∧ Shows state' above row right below := by
  obtain ⟨up, ⟨nextText, nextLength⟩, down, slack, hlines, hup, ⟨slackNext, hnextText, hnextLength⟩, hdown⟩ := h.lines
  have hrow := h.cursor_row
  have hcount := h.line_count
  rw [List.length_append, List.length_singleton] at hrow hcount
  -- the line above is the last one of those above
  have hlast := List.forall₂_drop_append up above [row] hup
  have habove := List.forall₂_take_append up above [row] hup
  rw [← List.take_append_drop above.length up] at hlines
  generalize up.take above.length = up' at hlines habove
  generalize up.drop above.length = last at hlines hlast
  cases hlast with
  | @cons prev _ _ _ hprev hnil =>
  cases hnil
  obtain ⟨slackPrev, hprevText, hprevLength⟩ := hprev
  obtain ⟨prevText, prevLength⟩ := prev
  dsimp only at hprevText hprevLength hnextText hnextLength
  rw [List.nil_append] at hnextText hnextLength
  subst hprevText hprevLength hnextText hnextLength
  rw [List.append_assoc, List.singleton_append] at hlines
  have hlen := habove.length_eq
  have hlenDown := hdown.length_eq
  have hgetPrev : state.lines[state.cursor_row - 1]? = some ⟨row ++ slackPrev, row.length⟩ := by
    rw [hlines]
    exact getElem?_middle (by omega)
  have hgetNext : state.lines[state.cursor_row - 1 + 1]? = some ⟨right ++ slackNext, right.length⟩ := by
    rw [hlines, List.append_cons]
    exact getElem?_middle (by rw [List.length_append, List.length_singleton]; omega)
  obtain ⟨tail, hresize, htail⟩ := @resize_append _ junk row slackPrev (row.length + right.length) (by omega)
  have hblit := @blit_eq _ [] row right tail right.length [] slackNext row.length 0 rfl rfl rfl (by omega)
  rw [List.append_nil, List.append_nil, List.nil_append] at hblit
  have hset : state.lines.set (state.cursor_row - 1) ⟨row ++ right, row.length + right.length⟩ =
      up' ++ [⟨row ++ right, row.length + right.length⟩] ++ ⟨right ++ slackNext, right.length⟩ :: (down ++ slack) := by
    rw [hlines, ← List.append_cons]
    exact set_middle (by omega)
  obtain ⟨rest, hmove⟩ : ∃ rest, move (state.lines.set (state.cursor_row - 1) ⟨row ++ right, row.length + right.length⟩)
      (state.cursor_row - 1 + 1) (state.cursor_row - 1 + 2) (state.line_count - (state.cursor_row - 1) - 2) =
      some (up' ++ [⟨row ++ right, row.length + right.length⟩] ++ down ++ rest) := by
    rw [hset]
    exact ⟨_, move_remove (by rw [List.length_append, List.length_singleton]; omega) rfl (by omega)⟩
  refine ⟨⟨up' ++ [⟨row ++ right, row.length + right.length⟩] ++ down ++ rest, state.line_count - 1, state.cursor_row - 1,
    row.length, state.changed⟩, ?_, ⟨⟨up', ⟨row ++ right, row.length + right.length⟩, down, rest, ?_, habove, ?_, hdown⟩,
    ?_, ?_, rfl⟩⟩
  · simp only [joinLines, hgetPrev, hgetNext, Option.bind_eq_bind, Option.bind_some, hresize, hblit, hmove]
    rfl
  · simp
  · exact ⟨[], by simp, by simp⟩
  · dsimp only
    omega
  · dsimp only
    omega

theorem splitLine_shows (h : Shows state above left right below) :
    ∃ state', splitLine junk state = some state' ∧ Shows state' (above ++ [left]) [] right below := by
  obtain ⟨up, cur, down, slack, hlines, hup, ⟨slackText, htext, hlength⟩, hdown⟩ := h.lines
  have hrow := h.cursor_row
  have hcount := h.line_count
  have hcolumn := h.cursor_column
  have hlen := hup.length_eq
  have hlenDown := hdown.length_eq
  rw [List.length_append] at hlength
  obtain ⟨tail, hresize, htail⟩ := @resize_append _ (freshLine junk) (up ++ [cur] ++ down) slack (state.line_count + 1)
    (by simp only [List.length_append, List.length_singleton]; omega)
  simp only [List.length_append, List.length_singleton] at htail
  have hwhole : state.lines = up ++ [cur] ++ down ++ slack := by
    rw [hlines]
    simp
  have hone : ((down ++ tail).take tail.length).length = 1 := by
    rw [List.length_take, List.length_append]
    omega
  obtain ⟨gap, hgap⟩ := List.length_eq_one_iff.mp hone
  have hmove : move (up ++ [cur] ++ down ++ tail) (state.cursor_row + 1 + 1) (state.cursor_row + 1)
      (state.line_count - (state.cursor_row + 1)) = some (up ++ cur :: gap :: down) := by
    rw [move_insert (by rw [List.length_append, List.length_singleton]; omega) (by omega) (by omega), hgap]
    simp
  have hget : (up ++ cur :: gap :: down)[state.cursor_row + 1 - 1]? = some cur := getElem?_middle (by omega)
  have hsize : cur.length - state.cursor_column = right.length := by omega
  have hblit := @blit_eq _ [] [] right (List.replicate right.length junk) right.length left slackText 0
    (cur.length - right.length) rfl (by omega) rfl (List.length_replicate ..)
  rw [← htext, List.append_nil, List.append_nil, List.nil_append, List.nil_append] at hblit
  have hin : state.cursor_row + 1 < (up ++ cur :: gap :: down).length := by
    simp only [List.length_append, List.length_cons]
    omega
  have hset : ((up ++ cur :: gap :: down).set (state.cursor_row + 1 - 1) ⟨cur.text, cur.length - right.length⟩).set
      (state.cursor_row + 1) ⟨right, right.length⟩ =
      up ++ [⟨cur.text, cur.length - right.length⟩] ++ ⟨right, right.length⟩ :: down := by
    rw [set_middle (by omega), List.append_cons]
    exact set_middle (by rw [List.length_append, List.length_singleton]; omega)
  refine ⟨⟨up ++ [⟨cur.text, cur.length - right.length⟩] ++ ⟨right, right.length⟩ :: down, state.line_count + 1,
    state.cursor_row + 1, 0, state.changed⟩, ?_, ⟨⟨up ++ [⟨cur.text, cur.length - right.length⟩], ⟨right, right.length⟩, down,
    [], ?_, ?_, ⟨[], by simp, by simp⟩, hdown⟩, ?_, ?_, rfl⟩⟩
  · simp only [splitLine, hwhole, hresize, hmove, Option.bind_eq_bind, Option.bind_some, hget, hsize, hblit, if_pos hin, hset]
    rfl
  · rw [List.append_nil]
  · refine List.rel_append hup (.cons ⟨right ++ slackText, ?_, ?_⟩ .nil)
    · rw [htext, List.append_assoc]
    · dsimp only
      omega
  · dsimp only
    rw [List.length_append, List.length_singleton]
    omega
  · dsimp only
    rw [List.length_append, List.length_singleton]
    omega

theorem Shows.changedState (h : Shows state above left right below) : Shows (changedState state) above left right below :=
  ⟨h.lines, h.line_count, h.cursor_row, h.cursor_column⟩

/-- The cursor may be at any place of the same lines. -/
theorem Shows.moveTo (h : Shows state above left right below) {above' below' : List Text} {left' right' : Text}
    (hsame : above ++ (left ++ right) :: below = above' ++ (left' ++ right') :: below') (row column : ℕ)
    (hrow : row = above'.length) (hcolumn : column = left'.length) :
    Shows { state with cursor_row := row, cursor_column := column } above' left' right' below' := by
  obtain ⟨up, cur, down, slack, hlines, hup, hcur, hdown⟩ := h.lines
  have hall : List.Forall₂ TextLine.Holds (up ++ cur :: down) (above ++ (left ++ right) :: below) :=
    List.rel_append hup (.cons hcur hdown)
  have hcount := congrArg List.length hsame
  simp only [List.length_append, List.length_cons] at hcount
  rw [hsame] at hall
  have habove := List.forall₂_take_append _ above' _ hall
  have hrest := List.forall₂_drop_append _ above' _ hall
  have hsplit := List.take_append_drop above'.length (up ++ cur :: down)
  generalize (up ++ cur :: down).take above'.length = up' at habove hsplit
  generalize (up ++ cur :: down).drop above'.length = rest at hrest hsplit
  cases hrest with
  | @cons cur' _ down' _ hcur' hdown' =>
    refine ⟨⟨up', cur', down', slack, ?_, habove, hcur', hdown'⟩, ?_, hrow, hcolumn⟩
    · rw [← List.cons_append, ← List.append_assoc, hsplit, hlines, List.append_assoc, List.cons_append]
    · have hold := h.line_count
      dsimp only
      omega

theorem moveToRow_shows (h : Shows state above left right below) {above' below' : List Text} {row : Text}
    (hsame : above ++ (left ++ right) :: below = above' ++ row :: below') {r : ℕ} (hr : r = above'.length) :
    ∃ state' left' right', moveToRow state r = some state' ∧ Shows state' above' left' right' below' ∧ row = left' ++ right' := by
  have hzero := @Shows.moveTo _ _ _ _ _ h above' below' [] row hsame r 0 hr rfl
  obtain ⟨line, hget, slack, htext, hlength⟩ := hzero.current
  dsimp only at hget
  rw [List.nil_append] at hlength
  obtain ⟨k, hk, hcolumn⟩ : ∃ k ≤ row.length,
      (if line.length < state.cursor_column then line.length else state.cursor_column) = k := by
    refine ⟨_, ?_, rfl⟩
    split_ifs <;> omega
  have hsplit := (List.take_append_drop k row).symm
  refine ⟨_, row.take k, row.drop k, ?_, h.moveTo (hsame.trans ?_) r k hr (by rw [List.length_take]; omega), hsplit⟩
  · rw [moveToRow, hget, Option.bind_eq_bind, Option.bind_some, hcolumn]
    rfl
  · rw [← hsplit]

/-- An arrow key moves the cursor and leaves the lines as they are. -/
theorem arrow_shows (h : Shows state above left right below) (c : UInt8) : ∃ state' above' left' right' below',
    arrow state c = some state' ∧ Shows state' above' left' right' below' ∧
      above ++ (left ++ right) :: below = above' ++ (left' ++ right') :: below' := by
  obtain ⟨line, hget, slack, -, hlength⟩ := h.current
  have hcolumn := h.cursor_column
  have hrow := h.cursor_row
  have hcount := h.line_count
  rw [List.length_append] at hlength
  unfold arrow
  split_ifs with hright hleft hcan hup hcan hdown hcan
  · simp only [hget, Option.bind_eq_bind, Option.bind_some, pure]
    split_ifs with hcan
    · cases right with
      | nil =>
        rw [List.length_nil] at hlength
        omega
      | cons a right =>
        refine ⟨_, above, left ++ [a], right, below, rfl, (h.moveTo ?_ state.cursor_row (state.cursor_column + 1) hrow
          (by rw [List.length_append, List.length_singleton, hcolumn])).changedState, ?_⟩ <;> simp
    · exact ⟨_, above, left, right, below, rfl, h, rfl⟩
  · obtain ⟨left, a, rfl⟩ := (List.eq_nil_or_concat left).resolve_left fun hnil => by
      rw [hnil] at hcolumn
      exact hcan.ne' hcolumn
    rw [List.concat_eq_append, List.length_append, List.length_singleton] at hcolumn
    refine ⟨_, above, left, a :: right, below, rfl, (h.moveTo ?_ state.cursor_row (state.cursor_column - 1) hrow
      (by omega)).changedState, ?_⟩ <;> simp
  · exact ⟨_, above, left, right, below, rfl, h, rfl⟩
  · obtain ⟨above, row, rfl⟩ := (List.eq_nil_or_concat above).resolve_left fun hnil => by
      rw [hnil] at hrow
      exact hcan.ne' hrow
    rw [List.concat_eq_append, List.length_append, List.length_singleton] at hrow
    have hsame : above.concat row ++ (left ++ right) :: below = above ++ row :: (left ++ right) :: below := by simp
    obtain ⟨state', left', right', hmove, hshows, rfl⟩ := moveToRow_shows h hsame (r := state.cursor_row - 1) (by omega)
    exact ⟨_, above, left', right', _, by rw [hmove]; rfl, hshows.changedState, hsame⟩
  · exact ⟨_, above, left, right, below, rfl, h, rfl⟩
  · cases below with
    | nil =>
      rw [List.length_nil] at hcount
      omega
    | cons row below =>
      have hsame : above ++ (left ++ right) :: row :: below = (above ++ [left ++ right]) ++ row :: below := by simp
      obtain ⟨state', left', right', hmove, hshows, rfl⟩ := moveToRow_shows h hsame (r := state.cursor_row + 1)
        (by rw [List.length_append, List.length_singleton, hrow])
      exact ⟨_, above ++ [left ++ right], left', right', below, by rw [hmove]; rfl, hshows.changedState, hsame⟩
  · exact ⟨_, above, left, right, below, rfl, h, rfl⟩
  · exact ⟨_, above, left, right, below, rfl, h, rfl⟩

end Keys

inductive Arrow where
  | up
  | down
  | right
  | left

/-- The keys, with the sequences that are not arrows. -/
inductive Key where
  | char (c : UInt8) (hprint : isprint c = true)
  | tab
  | newline
  | backspace
  | delete
  | arrow (a : Arrow)
  | escaped (c : UInt8) (hc : c ≠ 91)
  | sequence (params : Text) (final : UInt8) (hparams : ∀ c ∈ params, isalpha c = false) (hfinal : isalpha final = true)
    (harrow : params = [] → final ∉ [65, 66, 67, 68])

def Arrow.letter : Arrow → UInt8
  | up => 65
  | down => 66
  | right => 67
  | left => 68

/-- What the terminal sends for a key. -/
def Key.bytes : Key → Text
  | char c _ => [c]
  | tab => [9]
  | newline => [10]
  | backspace => [8]
  | delete => [127]
  | arrow a => [escape, 91, a.letter]
  | escaped c _ => [escape, c]
  | sequence params final _ _ _ => escape :: 91 :: (params ++ [final])

/-- `typed` is added at the cursor, which is behind it then. -/
def Inserts (state state' : EditorState) (typed : Text) : Prop :=
  state'.flat = state.flat.take state.position ++ typed ++ state.flat.drop state.position ∧
    state'.position = state.position + typed.length

/-- What a key does to the text. -/
def Key.Acts (k : Key) (state state' : EditorState) : Prop :=
  match k with
  | char c _ => Inserts state state' [c]
  | tab => Inserts state state' [32, 32, 32, 32]
  | newline => Inserts state state' [10]
  | backspace | delete => state'.flat = state.flat.take (state.position - 1) ++ state.flat.drop state.position ∧
      state'.position = state.position - 1
  | arrow _ => state'.flat = state.flat
  | escaped _ _ | sequence _ _ _ _ _ => state' = state

/-- The states of the editor on a file, after any keys. -/
inductive Reachable (junk : UInt8) (content : Text) : EditorState → Prop
  | loaded {fuel : ℕ} {lines : List Text} {state : EditorState} (hload : loadFile fuel content = some lines)
    (hlines : List.Forall₂ TextLine.Holds state.lines lines) (hcount : state.line_count = lines.length)
    (hrow : state.cursor_row = 0) (hcolumn : state.cursor_column = 0) : Reachable junk content state
  | key {state state' : EditorState} (hreach : Reachable junk content state) (k : Key) (input : Text)
    (hkey : handleInput junk state (k.bytes ++ input) = some (.next state' input)) : Reachable junk content state'

section Acts
variable {state state' : EditorState} {above above' below below' : List Text} {left left' right right' typed : Text}
  (junk : UInt8) {content : Text}

theorem Shows.parts (h : Shows state above left right below) : state.flat.take state.position = before above left ∧
    state.flat.drop state.position = behind right below := by
  rw [h.flat, h.position]
  exact ⟨List.take_left, List.drop_left⟩

theorem Shows.inserts (h : Shows state above left right below) (h' : Shows state' above' left' right' below')
    (hbefore : before above' left' = before above left ++ typed) (hbehind : behind right' below' = behind right below) :
    Inserts state state' typed := by
  refine ⟨?_, ?_⟩
  · rw [h.parts.1, h.parts.2, h'.flat, hbefore, hbehind]
  · rw [h'.position, h.position, hbefore, List.length_append]

theorem Shows.removes {c : UInt8} (h : Shows state above left right below) (h' : Shows state' above' left' right' below')
    (hbefore : before above left = before above' left' ++ [c]) (hbehind : behind right' below' = behind right below) :
    state'.flat = state.flat.take (state.position - 1) ++ state.flat.drop state.position ∧
      state'.position = state.position - 1 := by
  have hposition : state.position - 1 = state'.position := by
    rw [h.position, h'.position, hbefore, List.length_append, List.length_singleton, Nat.add_sub_cancel]
  refine ⟨?_, hposition.symm⟩
  rw [hposition, h.parts.2, h'.position, h.flat, h'.flat, hbefore, hbehind, List.append_assoc (before _ _), List.take_left]

theorem backspace_shows (h : Shows state above left right below) : ∃ state' above' left' right' below',
    backspace junk state = some state' ∧ Shows state' above' left' right' below' ∧
      state'.flat = state.flat.take (state.position - 1) ++ state.flat.drop state.position ∧
      state'.position = state.position - 1 := by
  unfold backspace
  rcases List.eq_nil_or_concat left with rfl | ⟨left, c, rfl⟩
  · have hcolumn : state.cursor_column = 0 := h.cursor_column
    rw [if_pos hcolumn]
    rcases List.eq_nil_or_concat above with rfl | ⟨above, row, rfl⟩
    · have hrow : state.cursor_row = 0 := h.cursor_row
      rw [if_neg (not_not_intro hrow)]
      have hzero : state.position = 0 := h.position
      refine ⟨_, _, _, _, _, rfl, h, ?_, ?_⟩
      · rw [hzero]
        rfl
      · rw [hzero]
    · rw [List.concat_eq_append] at h
      have hrow := h.cursor_row
      rw [List.length_append, List.length_singleton] at hrow
      rw [if_pos (by omega)]
      obtain ⟨state', hjoin, h'⟩ := joinLines_shows junk h
      refine ⟨_, _, _, _, _, by rw [hjoin]; rfl, h'.changedState, h.removes h'.changedState (c := newline) ?_ rfl⟩
      simp [before]
  · rw [List.concat_eq_append] at h
    have hcolumn := h.cursor_column
    rw [List.length_append, List.length_singleton] at hcolumn
    rw [if_neg (by omega)]
    obtain ⟨state', hremove, h'⟩ := removeBefore_shows h
    refine ⟨_, _, _, _, _, by rw [hremove]; rfl, h'.changedState, h.removes h'.changedState (c := c) ?_ rfl⟩
    simp [before]

theorem handleInput_char {c : UInt8} (hprint : isprint c = true) (input : Text) :
    handleInput junk state (c :: input) = Round.ofOption input ((insertText junk state 1 [c]).map changedState) := by
  have hother : ∀ d : UInt8, isprint d = false → c ≠ d := by
    rintro d hd rfl
    rw [hprint] at hd
    cases hd
  have hsave := hother (ctrl 83) (by decide)
  have hsave' := hother (ctrl 89) (by decide)
  have hback := hother 8 (by decide)
  have hdelete := hother 127 (by decide)
  have hline := hother newline (by decide)
  have htab := hother 9 (by decide)
  simp only [handleInput, hsave, hsave', hback, hdelete, hline, htab, hprint, or_self, if_false, if_true]

/-- A sequence is read to its letter, and it is not an arrow. -/
theorem handleInput_sequence {params : Text} {final : UInt8} (hparams : ∀ c ∈ params, isalpha c = false)
    (hfinal : isalpha final = true) (harrow : params = [] → final ∉ [65, 66, 67, 68]) (input : Text) :
    handleInput junk state (escape :: 91 :: (params ++ [final]) ++ input) = some (.next state input) := by
  have hletter : ∀ c ∈ [65, 66, 67, 68], isalpha c = true := by
    intro c hc
    fin_cases hc <;> rfl
  have hdrop : (params ++ final :: input).dropWhile (!isalpha ·) = final :: input := by
    rw [List.dropWhile_append_of_pos (by simpa using hparams), List.dropWhile_cons, hfinal]
    rfl
  have hround : ∀ (c : UInt8) (rest : Text), c ∉ [65, 66, 67, 68] → (c :: rest).dropWhile (!isalpha ·) = final :: input →
      handleInput junk state (escape :: 91 :: c :: rest) = some (.next state input) := fun c rest hc hrest => by
    simp only [List.mem_cons, List.not_mem_nil, or_false, not_or] at hc
    have hstay : arrow state c = some state := by
      simp only [arrow, if_neg hc.1, if_neg hc.2.1, if_neg hc.2.2.1, if_neg hc.2.2.2]
    change (arrow state c).map _ = _
    rw [hstay, hrest]
    rfl
  rw [List.cons_append, List.cons_append, List.append_assoc, List.singleton_append]
  cases params with
  | nil => exact hround final input (harrow rfl) hdrop
  | cons c params =>
    refine hround c (params ++ final :: input) (fun hc => ?_) hdrop
    have hnot := hparams c List.mem_cons_self
    rw [hletter c hc] at hnot
    cases hnot

theorem insertText_inserts (h : Shows state above left right below) (typed : Text) : ∃ state' left',
    (insertText junk state typed.length typed).map changedState = some state' ∧
      Shows state' above left' right below ∧ Inserts state state' typed := by
  obtain ⟨state', hinsert, h'⟩ := insertText_shows junk h typed
  refine ⟨_, _, by rw [hinsert]; rfl, h'.changedState, h.inserts h'.changedState ?_ rfl⟩
  simp [before]

/-- A key acts on the text, in bounds, and leaves what is behind it in the input. -/
theorem Key.acts (k : Key) (h : Shows state above left right below) (input : Text) :
    ∃ state' above' left' right' below', handleInput junk state (k.bytes ++ input) = some (.next state' input) ∧
      Shows state' above' left' right' below' ∧ k.Acts state state' := by
  cases k with
  | char c hprint =>
    obtain ⟨state', left', hinsert, h', hacts⟩ := insertText_inserts junk h [c]
    refine ⟨state', _, _, _, _, ?_, h', hacts⟩
    exact (handleInput_char junk hprint input).trans (congrArg (Round.ofOption input) hinsert)
  | tab =>
    obtain ⟨state', left', hinsert, h', hacts⟩ := insertText_inserts junk h [32, 32, 32, 32]
    exact ⟨state', _, _, _, _, congrArg (Round.ofOption input) hinsert, h', hacts⟩
  | newline =>
    obtain ⟨state', hsplit, h'⟩ := splitLine_shows junk h
    refine ⟨_, _, _, _, _, congrArg (fun s : Option EditorState => Round.ofOption input (s.map changedState)) hsplit,
      h'.changedState, h.inserts h'.changedState ?_ rfl⟩
    simp [before, SomeOs.Edit.newline]
  | backspace =>
    obtain ⟨state', _, _, _, _, hback, h', hacts⟩ := backspace_shows junk h
    exact ⟨state', _, _, _, _, congrArg (Round.ofOption input) hback, h', hacts⟩
  | delete =>
    obtain ⟨state', _, _, _, _, hback, h', hacts⟩ := backspace_shows junk h
    exact ⟨state', _, _, _, _, congrArg (Round.ofOption input) hback, h', hacts⟩
  | arrow a =>
    obtain ⟨state', above', left', right', below', harrow, h', hsame⟩ := arrow_shows h a.letter
    refine ⟨state', above', left', right', below', ?_, h', ?_⟩
    · have hround : handleInput junk state ((Key.arrow a).bytes ++ input) =
          (SomeOs.Edit.arrow state a.letter).map fun state => .next state input := by
        cases a <;> rfl
      rw [hround, harrow]
      rfl
    · exact (congrArg [SomeOs.Edit.newline].intercalate (h'.rows.trans (hsame.symm.trans h.rows.symm)))
  | escaped c hc =>
    refine ⟨state, above, left, right, below, ?_, h, rfl⟩
    exact if_neg hc
  | sequence params final hparams hfinal harrow =>
    exact ⟨state, above, left, right, below, handleInput_sequence junk hparams hfinal harrow input, h, rfl⟩

variable {junk}

theorem loadFile_ne_nil {fuel : ℕ} {lines : List Text} (h : loadFile fuel content = some lines) : lines ≠ [] := by
  obtain ⟨read, -, hread⟩ := Option.bind_eq_some_iff.mp h
  cases hread
  split_ifs with hnone
  · simp
  · exact fun hnil => hnone (by rw [hnil]; rfl)

theorem Reachable.shows (h : Reachable junk content state) : ∃ above left right below, Shows state above left right below := by
  induction h with
  | @loaded fuel lines state hload hlines hcount hrow hcolumn =>
    obtain ⟨row, below, rfl⟩ := List.exists_cons_of_ne_nil (loadFile_ne_nil hload)
    obtain ⟨lines, line_count, cursor_row, cursor_column, changed⟩ := state
    dsimp only at hlines hcount hrow hcolumn
    cases hlines with
    | @cons cur _ down _ hcur hdown =>
      refine ⟨[], [], row, below, ⟨⟨[], cur, down, [], by simp, .nil, hcur, hdown⟩, ?_, hrow, hcolumn⟩⟩
      simp only [List.length_cons, List.length_nil] at hcount ⊢
      omega
  | @key state state' hreach k input hkey ih =>
    obtain ⟨above, left, right, below, h⟩ := ih
    obtain ⟨s, above', left', right', below', hround, h', -⟩ := k.acts junk h input
    cases hkey.symm.trans hround
    exact ⟨above', left', right', below', h'⟩

/-- After any keys on a loaded file the cursor is on a line and within it, and the next key acts on the flat text, with
all accesses in bounds. A tab stands for four spaces. -/
theorem Reachable.edits (h : Reachable junk content state) : state.cursor_row < state.line_count ∧
    (∃ row, state.rows[state.cursor_row]? = some row ∧ state.cursor_column ≤ row.length) ∧
    ∀ (k : Key) (input : Text), ∃ state', handleInput junk state (k.bytes ++ input) = some (.next state' input) ∧
      k.Acts state state' := by
  obtain ⟨above, left, right, below, hshows⟩ := h.shows
  have hrow := hshows.cursor_row
  have hcount := hshows.line_count
  refine ⟨by omega, ⟨left ++ right, ?_, ?_⟩, fun k input => ?_⟩
  · rw [hshows.rows, getElem?_middle hrow]
  · rw [hshows.cursor_column, List.length_append]
    omega
  · obtain ⟨state', _, _, _, _, hround, -, hacts⟩ := k.acts junk hshows input
    exact ⟨state', hround, hacts⟩

def emptyState : EditorState := ⟨[⟨[0], 0⟩], 1, 0, 0, true⟩

/-- Typing `keys` one after the other. -/
def typeKeys (junk : UInt8) : List Key → EditorState → Option EditorState
  | [], state => some state
  | k :: keys, state =>
    match handleInput junk state (k.bytes ++ []) with
    | some (.next state []) => typeKeys junk keys state
    | _ => none

theorem Reachable.typeKeys {keys : List Key} (h : Reachable junk content state)
    (hkeys : typeKeys junk keys state = some state') : Reachable junk content state' := by
  induction keys generalizing state with
  | nil =>
    cases hkeys
    exact h
  | cons k keys ih =>
    rw [SomeOs.Edit.typeKeys] at hkeys
    split at hkeys
    · next hround => exact ih (.key h k [] hround) hkeys
    · cases hkeys

/-- The lines `ab` and `cd`. -/
def loadedState : EditorState := ⟨[⟨[97, 98, 0], 2⟩, ⟨[99, 100], 2⟩], 2, 0, 0, false⟩

theorem loadedState_reachable : Reachable 0 [97, 98, 10, 99, 100, 10] loadedState :=
  @Reachable.loaded 0 _ 9 [[97, 98], [99, 100]] loadedState rfl (.cons ⟨[0], rfl, rfl⟩ (.cons ⟨[], rfl, rfl⟩ .nil)) rfl rfl rfl

/-- A letter, the arrow down, the key for deleting with the letter behind it, which is lost, two breaks and a backspace. -/
def someKeys : List Key :=
  [.char 120 rfl, .arrow .down, .sequence [51, 126] 121 (by decide +kernel) rfl (by simp), .newline, .newline, .backspace]

theorem loadedState_edits : ∃ state, typeKeys 0 someKeys loadedState = some state ∧
    state.flat = [120, 97, 98, 10, 99, 10, 100] ∧ state.cursor_row < state.line_count ∧
    (∃ row, state.rows[state.cursor_row]? = some row ∧ state.cursor_column ≤ row.length) ∧
    ∀ (k : Key) (input : Text), ∃ state', handleInput 0 state (k.bytes ++ input) = some (.next state' input) ∧
      k.Acts state state' := by
  obtain ⟨state, htyped⟩ : ∃ state, typeKeys 0 someKeys loadedState = some state :=
    Option.isSome_iff_exists.mp (by decide)
  have hflat : (typeKeys 0 someKeys loadedState).map EditorState.flat = some [120, 97, 98, 10, 99, 10, 100] := by decide
  rw [htyped, Option.map_some, Option.some.injEq] at hflat
  exact ⟨state, htyped, hflat, (loadedState_reachable.typeKeys htyped).edits⟩

/-- The tab that is typed is not the character that is added. -/
theorem tab_inserts_spaces : ∃ state', handleInput 0 emptyState (Key.bytes .tab) = some (.next state' []) ∧
    state'.flat = [32, 32, 32, 32] ∧ ¬Inserts emptyState state' (Key.bytes .tab) := by
  refine ⟨_, rfl, by decide, fun h => ?_⟩
  exact absurd h.1 (by decide)

end Acts

end SomeOs.Edit

import SqlStatement.Report.Mark
import SqlStatement.Report.Row

namespace SqlStatement.Report

/-- The columns of the source that a report shows. -/
structure Window where
  left : Nat
  right : Nat
  /-- How many columns there is room for. -/
  width : Nat
  deriving DecidableEq, Repr

namespace Window

/-- The columns that a line starts with in blanks. -/
def indentation : List Char → Nat
  | [] => 0
  | c :: cs =>
    if c == '\t' then indentation cs + 4
    else if Text.isBlank c then indentation cs + 1
    else 0

def sharedIndentation (texts : List (List Char)) : Nat :=
  let written := texts.filter fun t => !t.all Text.isBlank
  ((written.map indentation).min?).getD 0

/-- Room for the dots around the marks. -/
def allowance : Nat := 6

/-- The first column that a mark of lines points at. Nothing in the middle of a
    region points at a column. -/
def firstMarked (lines : List MarkedLine) : Nat :=
  let pointing := lines.filter fun l => l.mark != .inside
  ((pointing.map fun l => min l.mark.start l.mark.stop).min?).getD 0

/-- The window that has `width` columns around the marks of lines. If there is not
    enough room, one gives up the indentation first, then what is left of the marks,
    then the label, and last the room itself. The indentation reaches no further
    than the first mark, which may stand among the blanks of a line without text. -/
def ofMarks (width labelWidth : Nat) (lines : List MarkedLine) : Window :=
  let indented := sharedIndentation (lines.map (·.text))
  let blankLeft := min indented (firstMarked lines) - allowance
  let marksLeft := firstMarked lines - allowance
  let marksRight := ((lines.map fun l => max l.mark.start l.mark.stop).max?.getD 0) + allowance
  let labelRight := ((lines.map fun l =>
    l.mark.stop + if l.mark.isLabelled then labelWidth + 1 else 0).max?.getD 0) + allowance
  let longest := (lines.map fun l => Text.columns l.text).max?.getD 0
  let left := if blankLeft > 20 then blankLeft - 16 else 0
  let right := max longest left
  let around (left : Nat) : Window := ⟨left, left + width, width⟩
  if right - left ≤ width then ⟨left, right, width⟩
  else if labelRight - blankLeft ≤ width then around blankLeft
  else if labelRight - marksLeft ≤ width then
    around (marksLeft - (width - (labelRight - marksLeft)) / 2)
  else if marksRight - marksLeft ≤ width then
    around (marksLeft - (width - (marksRight - marksLeft)) / 5 * 2)
  else ⟨marksLeft, marksRight, width⟩

/-- Leaves out characters until `left` columns are skipped. The number says how many
    columns that takes, since a wide character may reach beyond. -/
def skip (left skipped : Nat) : List Char → Nat × List Char
  | [] => (skipped, [])
  | c :: cs =>
    if skipped < left then skip left (skipped + Text.glyphWidth c) cs else (skipped, c :: cs)

/-- The longest start of a text that is not wider than some room. -/
def fit (room : Nat) : List Char → List Char
  | [] => []
  | c :: cs =>
    if Text.glyphWidth c ≤ room then c :: fit (room - Text.glyphWidth c) cs else []

/-- The shortest start of a text that is at least `room` columns wide, or all of
    it. -/
def cover (room : Nat) : List Char → List Char
  | [] => []
  | c :: cs => if room = 0 then [] else c :: cover (room - Text.glyphWidth c) cs

/-- The part of a line that is shown, and the column of the source at its left edge.
    The dots stand over the first characters shown and over the last ones. At the
    left, wide characters can take more room than the dots, and the rest of that
    room stays blank. -/
def view (w : Window) (text : List Char) : Row × Nat :=
  let shown := Text.visible text
  let length := Text.glyphsWidth shown
  let left := min w.left length
  let right := if length - w.left ≤ w.width then length else min length w.right
  let (skipped, rest) := skip left 0 shown
  let code := fit (right - left) rest
  let left := max left skipped
  let hidden := if w.left > 0 then cover 3 code else []
  let taken := Text.glyphsWidth hidden
  let kept := code.drop hidden.length
  let row := if w.left > 0 then Row.dots else []
  let row := row.write taken (Row.text .plain kept)
  let row :=
    if right < length then row.write (taken + kept.length - (cover 3 code.reverse).length) Row.dots
    else row
  (row, left)

end Window

end SqlStatement.Report

import SqlStatement.Report.Window

namespace SqlStatement.Report

/-- The widths that the rows of an excerpt share. -/
structure Layout where
  /-- The digits of a line number. -/
  digits : Nat
  /-- Whether there is a bar at the left of the source. -/
  barred : Bool
  window : Window
  label : String

namespace Layout

/-- The column of the separator between the numbers and the source. -/
def separatorColumn (l : Layout) : Nat := l.digits + 1

def barColumn (l : Layout) : Nat := l.digits + 3

def sourceColumn (digits : Nat) (barred : Bool) : Nat :=
  if barred then digits + 5 else digits + 3

/-- A row that holds no more than the separator. -/
def emptyRow (l : Layout) : Row := Row.write [] l.separatorColumn (Row.text .frame ['|'])

/-- A row with the bar of a region of several lines. -/
def withBar (l : Layout) (row : Row) : Row := row.write l.barColumn (Row.text .mark ['|'])

/-- A number at the right of its column. -/
def number (l : Layout) (index : Nat) : Row :=
  let digits := (toString (index + 1)).toList
  Row.text .frame (List.replicate (l.digits - digits.length) ' ' ++ digits)

/-- The row of a line of the source, and the column of the source at its left edge. -/
def sourceRow (l : Layout) (index : Nat) (text : List Char) : Row × Nat :=
  let (code, left) := l.window.view text
  let row := Row.write [] (sourceColumn l.digits l.barred) code
  let row := row.write 0 (l.number index)
  (row.write l.separatorColumn (Row.text .frame ['|']), left)

/-- The column of a row that shows a column of the source, where the left edge shows
    the column `left`. -/
def shownAt (l : Layout) (left column : Nat) : Nat :=
  sourceColumn l.digits l.barred + column - left

/-- The row under a marked line, whose left edge shows the column `left` of the
    source. -/
def markRow (l : Layout) (left : Nat) (mark : Mark) : Row :=
  let source := sourceColumn l.digits l.barred
  let place := l.shownAt left mark.start
  let lead := Row.text .mark (List.replicate (place - (l.barColumn + 1)) '_')
  let carets (n : Nat) := Row.text .mark (List.replicate n '^')
  let label := Row.text .mark l.label.toList
  let labelColumn := source + ((if mark.stop = 0 then 2 else mark.stop + 1) - left)
  match mark with
  | .underline start stop =>
    (l.emptyRow.write labelColumn label).write place (carets (stop - start))
  | .opening _ =>
    ((l.emptyRow.write (l.barColumn + 1) lead).write l.barColumn (Row.text .mark [' '])).write
      place (carets 1)
  | .closing _ =>
    ((l.withBar (l.emptyRow.write (l.barColumn + 1) lead)).write labelColumn label).write
      place (carets 1)
  | .inside => l.emptyRow

/-- Leaves out the middle of a mark that is more than twice as wide as the window. -/
def shorten (l : Layout) (left : Nat) (mark : Mark) (row : Row) : Row :=
  match mark with
  | .underline start stop =>
    let margin := max (l.window.width / 3) 5
    if stop - start > 2 * l.window.width && stop - start > 10 then
      row.elide (l.shownAt left (start + margin)) (l.shownAt left (stop - margin))
    else row
  | _ => row

/-- The rows of a marked line. A region of several lines that starts with the text
    of its first line needs no row of its own to show where. -/
def lineRows (l : Layout) (line : MarkedLine) : List Row :=
  let (row, left) := l.sourceRow line.index line.text
  match line.mark with
  | .opening start =>
    if ((Text.visible line.text).take start).all Text.isBlank then
      [row.write l.barColumn (Row.text .mark ['/'])]
    else [row, l.markRow left line.mark]
  | .inside => [l.withBar row]
  | .closing _ => [l.withBar row, l.markRow left line.mark]
  | .underline _ _ => [row, l.markRow left line.mark].map (l.shorten left line.mark)

/-- The rows between two lines that are shown: none, the one line that is missing,
    or dots. -/
def gapRows (l : Layout) (lines : List Line) (first second : Nat) : List Row :=
  if second - first = 2 then
    let text := (lines[first + 1]?.map Line.text).getD []
    [l.withBar (l.sourceRow (first + 1) text).1]
  else if second - first > 2 then [l.withBar (Row.write [] 0 Row.dots)]
  else []

/-- The marked lines of a source behind their numbers. Under a marked line a row
    points at the region and holds its label; a region of several lines has a bar at
    its left. -/
def rows (l : Layout) (lines : List Line) : List MarkedLine → List Row
  | [] => []
  | [line] => l.lineRows line
  | line :: next :: rest =>
    l.lineRows line ++ l.gapRows lines line.index next.index ++ l.rows lines (next :: rest)

end Layout

/-- The columns of the terminal that reports are made for. -/
def terminalWidth : Nat := 140

def layout (digits : Nat) (label : String) (marked : List MarkedLine) : Layout :=
  let barred := 1 < marked.length
  let width := terminalWidth - Layout.sourceColumn digits barred
  let window := Window.ofMarks width (Text.columns label.toList) marked
  { digits, barred, window, label }

end SqlStatement.Report

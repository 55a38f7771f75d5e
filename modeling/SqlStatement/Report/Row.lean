import SqlStatement.Diagnostic

namespace SqlStatement.Report

/-- How a character is set. -/
inductive Style where
  | plain
  /-- The message. -/
  | strong
  /-- Line numbers and what separates them from the source. -/
  | frame
  /-- What points at the source. -/
  | mark
  deriving DecidableEq, Repr

/-- A styled character. -/
structure Cell where
  char : Char
  style : Style
  deriving DecidableEq, Repr

/-- A list of styled characters that is written piece by piece, later pieces over
    earlier ones. Only a coloured row shows its styles. -/
abbrev Row := List Cell

def Row.text (style : Style) (cs : List Char) : Row := cs.map fun c => ⟨c, style⟩

/-- Writes a piece at a column, over what stands there. -/
def Row.write (row : Row) (column : Nat) (piece : Row) : Row :=
  if piece.isEmpty then row
  else
    let gap := Row.text .plain (List.replicate (column - row.length) ' ')
    row.take column ++ gap ++ piece ++ row.drop (column + piece.length)

/-- Three dots that stand for what is left out. -/
def Row.dots : Row := Row.text .frame ['.', '.', '.']

/-- Replaces the columns from `start` to `stop` by three dots. A row that does not
    reach so far stays as it is. -/
def Row.elide (row : Row) (start stop : Nat) : Row :=
  if start < stop && stop ≤ row.length then row.take start ++ Row.dots ++ row.drop stop else row

def Style.sequence (severity : Severity) : Style → String
  | .plain => ""
  | .strong => "\x1b[1m"
  | .frame => "\x1b[1m\x1b[94m"
  | .mark =>
    match severity with
    | .error => "\x1b[1m\x1b[91m"
    | .warning => "\x1b[1m\x1b[33m"

/-- The control sequence that ends a style. -/
def Style.reset : Style → String
  | .plain => ""
  | _ => "\x1b[0m"

/-- The text of the cells behind one in the given style. -/
def Row.paint (severity : Severity) (current : Style) : Row → String
  | [] => current.reset
  | cell :: cells =>
    let change :=
      if cell.style = current then "" else current.reset ++ cell.style.sequence severity
    change ++ String.singleton cell.char ++ paint severity cell.style cells

def Row.render (row : Row) (severity : Severity) (coloured : Bool) : String :=
  if coloured then row.paint severity .plain else String.ofList (row.map (·.char))

end SqlStatement.Report

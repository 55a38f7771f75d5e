import SqlStatement.Text.Visible
import SqlStatement.Token

namespace SqlStatement.Report

/-- A line of a source, without the characters that end it. -/
structure Line where
  text : List Char
  /-- The bytes of the text. -/
  span : Span
  /-- The first byte behind the characters that end the line. -/
  next : Nat
  deriving DecidableEq, Repr

/-- Cuts a text behind every line feed. -/
def cutLines : List Char → List (List Char)
  | [] => []
  | c :: cs =>
    match cutLines cs with
    | [] => [[c]]
    | line :: lines => if c == '\n' then [c] :: line :: lines else (c :: line) :: lines

def withoutEnd (line : List Char) : List Char :=
  match line.reverse with
  | '\n' :: '\r' :: rest => rest.reverse
  | '\n' :: rest => rest.reverse
  | _ => line

/-- Gives lines their bytes, the first one starting at `offset`. -/
def placeLines (offset : Nat) : List (List Char) → List Line
  | [] => []
  | line :: lines =>
    let text := withoutEnd line
    let next := offset + Text.byteLength line
    ⟨text, ⟨offset, offset + Text.byteLength text⟩, next⟩ :: placeLines next lines

/-- The lines of a source. An empty source has one line. -/
def sourceLines (source : String) : List Line :=
  match placeLines 0 (cutLines source.toList) with
  | [] => [⟨[], ⟨0, 0⟩, 0⟩]
  | lines => lines

/-- The bytes of a source that a report marks: an empty range is widened so that
    there is something to point at. -/
def markedSpan (span : Span) (size : Nat) : Span :=
  if span.isEmpty then ⟨span.start, min (span.start + 1) size⟩ else span

/-- A part of a source, from a place on its first line to one on its last line. -/
structure Region where
  firstLine : Nat
  /-- The characters in front of it on the first line. -/
  column : Nat
  /-- The display columns in front of it on the first line. -/
  start : Nat
  lastLine : Nat
  /-- The display columns in front of its end on the last line. -/
  stop : Nat
  deriving DecidableEq, Repr

/-- The index of the line that a byte lies on. Bytes behind the source lie on its
    last line. -/
def lineAt (lines : List Line) (offset : Nat) : Nat :=
  let found := lines.findIdx? fun l => l.span.start ≤ offset && offset < l.next
  found.getD (lines.length - 1)

/-- The characters of the line with a given index that stand in front of a byte. -/
def textBefore (lines : List Line) (index offset : Nat) : List Char :=
  match lines[index]? with
  | some l => Text.takeBytes (offset - l.span.start) l.text
  | none => []

/-- Whether a byte is behind the text of the line with a given index. -/
def isBehind (lines : List Line) (index offset : Nat) : Bool :=
  lines[index]?.any fun l => l.span.stop < offset

/-- The region of a range of bytes. It is never empty, and the end of a line takes a
    column of its own where a region of several lines ends behind it. -/
def region (lines : List Line) (span : Span) : Region :=
  let firstLine := lineAt lines span.start
  let before := textBefore lines firstLine span.start
  let column := before.length + (if isBehind lines firstLine span.start then 1 else 0)
  let start := Text.columns before
  if span.isEmpty then ⟨firstLine, column, start, firstLine, start + 1⟩
  else
    let lastLine := lineAt lines span.stop
    let stop := Text.columns (textBefore lines lastLine span.stop)
    if firstLine = lastLine then
      ⟨firstLine, column, start, firstLine, if stop = start then start + 1 else stop⟩
    else
      ⟨firstLine, column, start, lastLine,
        if isBehind lines lastLine span.stop then stop + 1 else stop⟩

/-- The number of the last line that a range of bytes reaches into. -/
def lastNumber (lines : List Line) (size : Nat) (span : Span) : Nat :=
  max 1 (lines.countP fun l => l.span.start < min span.stop size)

end SqlStatement.Report

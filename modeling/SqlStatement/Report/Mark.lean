import SqlStatement.Report.Source

namespace SqlStatement.Report

/-- How a line is marked, at display columns. -/
inductive Mark where
  /-- The whole region. -/
  | underline (start stop : Nat)
  /-- The start of a region of several lines. -/
  | opening (start : Nat)
  /-- A line in the middle of the region. -/
  | inside
  /-- The end of a region of several lines. -/
  | closing (stop : Nat)
  deriving DecidableEq, Repr

namespace Mark

/-- The first column that is marked. -/
def start : Mark → Nat
  | .underline start _ => start
  | .opening start => start
  | .inside => 0
  | .closing stop => stop - 1

def stop : Mark → Nat
  | .underline _ stop => stop
  | .opening start => start + 1
  | .inside => 0
  | .closing stop => stop

def isLabelled : Mark → Bool
  | .underline _ _ | .closing _ => true
  | .opening _ | .inside => false

end Mark

structure MarkedLine where
  index : Nat
  text : List Char
  mark : Mark
  deriving DecidableEq, Repr

/-- Whether a line says something: it holds more than blanks, a comment that
    documents nothing, or a single bracket. -/
def saysSomething (text : List Char) : Bool :=
  let t := Text.trim text
  let documents := ['/', '/', '/'].isPrefixOf t || ['/', '/', '!'].isPrefixOf t
  let bare := [[], ['\x7b'], ['\x7d'], ['('], [')'], ['['], [']']].contains t
  !(['/', '/'].isPrefixOf t && !documents) && !bare

def lineSaysSomething (lines : List Line) (index : Nat) : Bool :=
  lines[index]?.any fun l => saysSomething l.text

/-- The lines shown between the first and the last one: of the next three lines
    those up to the last one that says something, and the one in front of the last. -/
def linesBetween (lines : List Line) (first last : Nat) : List Nat :=
  let middle := min (first + 4) last
  let candidates := List.range' first (middle - first)
  let shown := match candidates.reverse.find? (lineSaysSomething lines) with
    | some index => List.range' (first + 1) (index - first)
    | none => []
  if middle < last - 1 && lineSaysSomething lines (last - 1) then shown ++ [last - 1] else shown

/-- The lines of a region that a report shows: the first one, the last one, and
    those of the lines behind the first and in front of the last that say
    something. -/
def markedLines (lines : List Line) (r : Region) : List MarkedLine :=
  let line (index : Nat) (mark : Mark) : MarkedLine :=
    ⟨index, (lines[index]?.map Line.text).getD [], mark⟩
  if r.firstLine = r.lastLine then [line r.firstLine (.underline r.start r.stop)]
  else
    line r.firstLine (.opening r.start)
      :: (linesBetween lines r.firstLine r.lastLine).map (line · .inside)
      ++ [line r.lastLine (.closing r.stop)]

end SqlStatement.Report

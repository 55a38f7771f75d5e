import SqlStatement.Match.Event
import SqlStatement.Palette
import SqlStatement.Tree.Parsed

namespace SqlStatement.Trace

/-- The text of a step; no text for what is not shown. -/
def describe (verbose : Bool) (palette : Palette) : Event → Option String
  | .enter production position =>
    some (palette.paintProduction production ++ " " ++ palette.paintDim s!"@{position}")
  | .exit production true position => some (palette.paintDim s!"<- {production} @{position}")
  | .exit production false _ => some (palette.paintError s!"<- {production} failed")
  | .candidate production branch _ => some (palette.paintDim s!"? {production} #{branch}")
  | .commit position => some (palette.paintDim s!"! commit @{position}")
  | .leaf token position =>
    some (palette.paintKeyword token.text ++ " " ++ palette.paintDim s!"@{position}")
  | .miss expected position =>
    let what := match expected with
      | some e => e.describe
      | none => "token set"
    if verbose then
      some (palette.paintError s!"x {what}" ++ " " ++ palette.paintDim s!"@{position}")
    else none
  | .backtrack position => some (palette.paintDim s!"<< backtrack @{position}")
  | .breakpoint stack position =>
    let path := " > ".intercalate stack
    if verbose then some (palette.paintDim s!"^ breakpoint @{position} [{path}]") else none
  | .blamed _ | .interrupted _ => none

/-- The indentation of an event's line and that of the line behind it. -/
def indent (depth : Nat) : Event → Nat × Nat
  | .enter _ _ => (depth, depth + 1)
  | .exit _ _ _ => (depth - 1, depth - 1)
  | _ => (depth, depth)

/-- One line for each step of a match, indented by two blanks for each open
    production. -/
def linesFrom (verbose : Bool) (palette : Palette) (depth : Nat) : List Event → List String
  | [] => []
  | e :: es =>
    let (here, next) := indent depth e
    let line := (describe verbose palette e).map fun text =>
      String.ofList (List.replicate (2 * here) ' ') ++ text
    line.toList ++ linesFrom verbose palette next es

/-- The lines of a trace. Misses and breakpoints are shown in a verbose one only. -/
def lines (verbose : Bool) (palette : Palette) (events : List Event) : List String :=
  linesFrom verbose palette 0 events

/-- The text of a trace. -/
def render (verbose : Bool) (palette : Palette) (events : List Event) : String :=
  String.join ((lines verbose palette events).map (· ++ "\n"))

/-- The last line behind the trace of a match that has succeeded. -/
def summary (p : Parsed) : String :=
  s!"matched {p.root.span.length} of {p.tokens.size} tokens"

end SqlStatement.Trace

import SqlStatement.Grammar
import SqlStatement.Palette

namespace SqlStatement.Grammar

/-- The names of the productions, labelled ones with their label, one a line. -/
def list (g : Grammar) (palette : Palette) : String :=
  String.join (g.productions.map fun p =>
    let label := match p.label with
      | some l => " " ++ palette.paintDim ("(" ++ l ++ ")")
      | none => ""
    palette.paintProduction p.name ++ label ++ "\n")

/-- How many of the words of `name`, split at its dashes, are among `words`. -/
def sharedWords (words : List String) (name : String) : Nat :=
  (name.splitOn "-").countP words.contains

/-- The production name that shares most words with `name`, the last one of
    several. -/
def suggest (g : Grammar) (name : String) : Option String :=
  let words := (name.splitOn "-").filter (· != "")
  let best := g.productions.foldl (fun best p =>
    let shared := sharedWords words p.name
    if shared > 0 && best.1 ≤ shared then (shared, some p.name) else best) (0, none)
  best.2

end SqlStatement.Grammar

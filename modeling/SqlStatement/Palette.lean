namespace SqlStatement

/-- The control sequences that listings, trees and traces put around their parts:
    what to write in front of each kind of text, and behind all of them. -/
structure Palette where
  production : String
  keyword : String
  name : String
  dim : String
  error : String
  reset : String
  deriving DecidableEq, Repr

namespace Palette

/-- No colours. -/
def plain : Palette := ⟨"", "", "", "", "", ""⟩

/-- The standard sixteen terminal colours. -/
def ansi : Palette :=
  ⟨"\x1b[36m", "\x1b[33m", "\x1b[32m", "\x1b[2m", "\x1b[31m", "\x1b[0m"⟩

def ofBool (enabled : Bool) : Palette := if enabled then ansi else plain

/-- A text in the colour of production names. -/
def paintProduction (p : Palette) (s : String) : String := p.production ++ s ++ p.reset

/-- A text in the colour of keywords. -/
def paintKeyword (p : Palette) (s : String) : String := p.keyword ++ s ++ p.reset

/-- A text in the colour of names. -/
def paintName (p : Palette) (s : String) : String := p.name ++ s ++ p.reset

/-- A text in the colour of what stands in the background. -/
def paintDim (p : Palette) (s : String) : String := p.dim ++ s ++ p.reset

/-- A text in the colour of failures. -/
def paintError (p : Palette) (s : String) : String := p.error ++ s ++ p.reset

end Palette

end SqlStatement

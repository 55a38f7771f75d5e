import SqlStatement.Token

namespace SqlStatement

namespace Grammar

/-- Terms that test a single token. -/
inductive Leaf where
  | kind (k : Token.Kind)
  /-- A token with this text in any letter case. -/
  | literal (text : String)
  | oneOf (kinds : Token.KindSet)
  /-- An identifier, or a bind variable if it is bindable. -/
  | identifier (description : String) (bindable : Bool)
  | stringLiteral (description : String)
  deriving DecidableEq, Repr

mutual

/-- What a sequence is made of. -/
inductive Term where
  | leaf (l : Leaf)
  | production (name : String)
  | optional (body : Sequence)
  /-- One of the candidates, tried in order. -/
  | alternation (candidates : List Sequence)
  /-- At least `least` items, with a separator between neighbours if there is one. -/
  | repetition (item : Sequence) (separator : Option Sequence) (least : Nat)
  /-- Matches nothing and marks a place where completion reports its context. -/
  | breakpoint

/-- Terms in order, with the number of them that commit the sequence. Once that many
    have consumed a token, a later term that does not match is an error of the input
    and no longer a reason to try something else. -/
structure Sequence where
  terms : List Term
  commit : Nat

end

/-- A named sequence. -/
structure Production where
  name : String
  /-- What messages call the production when it fails at its first token. -/
  label : Option String
  body : Sequence

end Grammar

/-- A named table of productions with the one that matching starts from by default. -/
structure Grammar where
  name : String
  root : String
  productions : List Grammar.Production

namespace Grammar

def find? (g : Grammar) (name : String) : Option Production :=
  g.productions.find? (·.name == name)

def defines (g : Grammar) (name : String) : Bool :=
  g.productions.any (·.name == name)

/-- A production is found by its name exactly if the grammar defines one of that
    name. -/
theorem find?_isSome (g : Grammar) (name : String) : (g.find? name).isSome = g.defines name := by
  rw [Bool.eq_iff_iff]
  simp [find?, defines]

/-- What is found by a name has that name. -/
theorem name_of_find? {g : Grammar} {name : String} {p : Production}
    (hfind : g.find? name = some p) : p.name = name := by
  simpa using List.find?_some hfind

end Grammar

end SqlStatement

import SqlStatement.Tree.Traversal

namespace SqlStatement

/-- A parse tree together with the tokens that it refers to. -/
structure Parsed where
  root : Tree
  tokens : Array Token

namespace Parsed

def textAt (p : Parsed) (index : Nat) : String :=
  match p.tokens[index]? with
  | some token => token.text
  | none => ""

/-- The production nodes of a given name, in preorder. -/
def findAll (p : Parsed) (name : String) : List Tree :=
  p.root.descendants.filter (·.production? == some name)

def find? (p : Parsed) (name : String) : Option Tree :=
  p.root.descendants.find? (·.production? == some name)

/-- Every identifier with its role, in the order of the source. -/
def identifiers (p : Parsed) : List (String × String) :=
  p.root.descendants.filterMap fun t =>
    match t with
    | .leaf (.identifier description) index => some (description, p.textAt index)
    | _ => none

/-- The text of the first identifier in a given role. -/
def identifier? (p : Parsed) (description : String) : Option String :=
  p.identifiers.lookup description

/-- The texts of the tokens of a tree, separated by blanks. -/
def text (p : Parsed) (t : Tree) : String :=
  " ".intercalate ((p.tokens.extract t.span.start t.span.stop).toList.map (·.text))

/-- The bytes of the source that a tree covers; none if it covers no token. -/
def sourceSpan? (p : Parsed) (t : Tree) : Option Span :=
  if t.span.isEmpty then none
  else
    match p.tokens[t.span.start]?, p.tokens[t.span.stop - 1]? with
    | some first, some last => some ⟨first.span.start, last.span.stop⟩
    | _, _ => none

end Parsed

end SqlStatement

import SqlStatement.Grammar

namespace SqlStatement.Grammar

/-- Reserved words stand for themselves, and other tokens are quoted. -/
def Leaf.print : Leaf → String
  | .kind k => if k.isKeyword then k.text else "'" ++ k.text ++ "'"
  | .literal text => "\"" ++ text ++ "\""
  | .oneOf kinds =>
    "\x7b" ++ "|".intercalate (kinds.toList.map Token.Kind.text) ++ "\x7d"
  | .identifier description false => "<" ++ description ++ ">"
  | .identifier description true => "<:" ++ description ++ ">"
  | .stringLiteral description => "'<" ++ description ++ ">'"

/-- The least number of items behind a repetition. -/
def printLeast : Nat → String
  | 0 => "*"
  | 1 => "+"
  | n => "\x7b" ++ toString n ++ ",\x7d"

/-- A commit threshold behind an exclamation mark, unless it is the usual one. -/
def printCommit (usual commit : Nat) : String :=
  if commit == usual then "" else s!"!{commit} "

mutual

def Term.print : Term → String
  | .leaf l => l.print
  | .production name => name
  | .optional body => "[" ++ body.printGroup ++ "]"
  | .alternation candidates => "(" ++ "|".intercalate (printCandidates candidates) ++ ")"
  | .repetition item none least =>
    "\x7b " ++ item.printGroup ++ " \x7d" ++ printLeast least
  | .repetition item (some separator) least =>
    "\x7b " ++ item.printGroup ++ " % " ++ separator.print ++ " \x7d" ++ printLeast least
  | .breakpoint => "^"
  termination_by structural t => t

/-- A sequence that usually commits after its first term. -/
def Sequence.print : Sequence → String
  | ⟨terms, commit⟩ => printCommit 1 commit ++ " ".intercalate (printTerms terms)
  termination_by structural s => s

/-- A sequence that usually commits when it is complete. -/
def Sequence.printGroup : Sequence → String
  | ⟨terms, commit⟩ => printCommit terms.length commit ++ " ".intercalate (printTerms terms)
  termination_by structural s => s

def printTerms : List Term → List String
  | [] => []
  | t :: ts => t.print :: printTerms ts
  termination_by structural ts => ts

/-- The printed forms of candidates, with a blank on either side. -/
def printCandidates : List Sequence → List String
  | [] => []
  | c :: cs => (" " ++ c.print ++ " ") :: printCandidates cs
  termination_by structural cs => cs

end

def Production.print (p : Production) : String :=
  " ".intercalate ([p.name, "::=", s!"!{p.body.commit}"] ++ printTerms p.body.terms)

/-- The printed form of a grammar, one production a line. Brackets enclose what is
    optional, parentheses alternatives and braces repetitions, with the separator
    behind a percent sign. A caret marks a breakpoint. -/
def print (g : Grammar) : String :=
  String.join (g.productions.map fun p => p.print ++ "\n")

end SqlStatement.Grammar

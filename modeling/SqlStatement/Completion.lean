import SqlStatement.Match.Failure
import SqlStatement.Palette
import SqlStatement.Text.Case
import SqlStatement.Token

namespace SqlStatement

/-- What may follow the tokens in front of a caret. -/
structure Completion where
  /-- The index of the token that the suggestions are for. -/
  caret : Nat
  /-- What may follow, in the order of the attempts. -/
  suggestions : List Expectation
  /-- The open productions at each breakpoint reached at the caret, outermost first. -/
  contexts : List (List String)
  deriving DecidableEq, Repr

namespace Completion

def isEmpty (c : Completion) : Bool := c.suggestions.isEmpty

def texts (c : Completion) : List String := c.suggestions.map Expectation.text

def contains (c : Completion) (text : String) : Bool := c.texts.contains text

/-- Whether a suggestion goes on from what is typed already. Labels always do, since
    they name a role and not a spelling. -/
def continues (typed : String) : Expectation → Bool
  | .keyword text => (Text.upper typed).toList.isPrefixOf (Text.upper text).toList
  | .label _ => true
  | .endOfInput => typed.isEmpty

/-- The suggestions that go on from what is typed already. -/
def matching (c : Completion) (typed : String) : List Expectation :=
  c.suggestions.filter (continues typed)

def line (palette : Palette) : Expectation → String
  | .keyword text => palette.paintKeyword text
  | .label text => palette.paintName ("<" ++ text ++ ">")
  | .endOfInput => palette.paintDim "<end of input>"

def list (c : Completion) (palette : Palette) : String :=
  let context (stack : List String) := palette.paintDim ("in " ++ " > ".intercalate stack)
  String.join ((c.suggestions.map (line palette) ++ c.contexts.map context).map (· ++ "\n"))

/-- The token to complete at: an index as given, or else the token that a byte
    offset touches, or else the end of the input. -/
def resolveCaret (tokens : List Token) (index offset : Option Nat) : Nat :=
  match index, offset with
  | some index, _ => index
  | none, some offset => Token.indexAt tokens offset
  | none, none => tokens.length

/-- The bytes of the token at a caret, which a chosen suggestion replaces. -/
def replaced? (tokens : List Token) (caret : Nat) : Option Span :=
  tokens[caret]?.map Token.span

end Completion

end SqlStatement

namespace SqlStatement

/-- A way in which the input could have gone on. -/
inductive Expectation where
  | keyword (text : String)
  /-- The role of an identifier or string, or the label of a production. -/
  | label (text : String)
  | endOfInput
  deriving DecidableEq, Repr

namespace Expectation

def text : Expectation → String
  | .keyword text => text
  | .label text => text
  | .endOfInput => "end of input"

def describe : Expectation → String
  | .keyword text => "'" ++ text ++ "'"
  | .label text => text
  | .endOfInput => "end of input"

end Expectation

/-- An attempt that failed at a token, and what it expected there. -/
structure Miss where
  position : Nat
  expected : Expectation
  deriving DecidableEq, Repr

/-- Input that the grammar does not allow. It names the furthest token that the
    match got to and what was expected there. -/
structure InputError where
  /-- The index of the token, which is the number of tokens at the end of the input. -/
  position : Nat
  /-- What was expected there, in the order of the attempts. -/
  expected : List Expectation
  /-- The text of the token, unless the input ended. -/
  found : Option String
  deriving DecidableEq, Repr

namespace InputError

/-- The members of an enumeration, with `or` in front of the last one. -/
def enumerate : List String → String
  | [] => ""
  | [a] => a
  | [a, b] => a ++ " or " ++ b
  | a :: b :: rest => a ++ ", " ++ enumerate (b :: rest)

/-- What was found instead. -/
def describeFound (e : InputError) : String :=
  match e.found with
  | some text => "'" ++ text ++ "'"
  | none => "end of input"

def message (e : InputError) : String :=
  match e.expected with
  | [] => "unexpected " ++ e.describeFound
  | expected =>
    "expected " ++ enumerate (expected.map Expectation.describe) ++ ", found " ++ e.describeFound

/-- Whether the input ended too early. -/
def isAtEnd (e : InputError) : Bool := e.found.isNone

end InputError

/-- Why a match ended without a tree. -/
inductive ParseError where
  | input (error : InputError)
  /-- More terms were attempted than the fuel allows. -/
  | outOfFuel
  /-- More productions were open than the nesting limit allows. -/
  | tooDeep
  | cancelled
  | unknownProduction (name : String)
  deriving DecidableEq, Repr

def ParseError.message : ParseError → String
  | .input e => "syntax error at token " ++ toString e.position ++ ": " ++ e.message
  | .outOfFuel => "execution limit exceeded"
  | .tooDeep => "recursion limit exceeded"
  | .cancelled => "parse cancelled"
  | .unknownProduction name => "unknown production `" ++ name ++ "`"

end SqlStatement

import SqlStatement.Match.Failure
import SqlStatement.Token

namespace SqlStatement

/-- A step of a match, or a note on how it ended. -/
inductive Event where
  | enter (production : String) (position : Nat)
  | exit (production : String) (matched : Bool) (position : Nat)
  /-- A candidate of an alternation in the innermost open production is about to be tried. -/
  | candidate (production : String) (branch : Nat) (position : Nat)
  /-- A sequence reaches its commit threshold. -/
  | commit (position : Nat)
  | leaf (token : Token) (position : Nat)
  /-- A token is not matched. Sets of kinds announce no expectation. -/
  | miss (expected : Option Expectation) (position : Nat)
  /-- The input is rewound to an earlier token. -/
  | backtrack (position : Nat)
  /-- A breakpoint is reached inside the open productions, outermost first. -/
  | breakpoint (stack : List String) (position : Nat)
  /-- A committed sequence has failed. -/
  | blamed (position : Nat)
  /-- The match has noticed that it is cancelled. -/
  | interrupted (position : Nat)
  deriving DecidableEq, Repr

/-- The steps that an observer of the match is told about; the rest are notes for
    the log. -/
def Event.isStep : Event → Bool
  | .blamed _ | .interrupted _ => false
  | _ => true

/-- A breakpoint that was reached at the end of the input. -/
structure Breakpoint where
  position : Nat
  /-- The open productions, outermost first. -/
  stack : List String
  deriving DecidableEq, Repr

end SqlStatement

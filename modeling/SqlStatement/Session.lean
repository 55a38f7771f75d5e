import SqlStatement.Script

namespace SqlStatement

/-- A parser and the flag that cancels it. -/
structure Session where
  grammar : Grammar
  root : String
  limits : Limits := {}
  /-- Whether the parser looks at the flag. -/
  attached : Bool := false
  /-- Whether the flag is set. -/
  cancelled : Bool := false

namespace Session

/-- A session from the grammar's own root. -/
def ofGrammar (grammar : Grammar) : Session := { grammar, root := grammar.root }

/-- The parser of a session whose flag nobody touches. -/
def parser (s : Session) : Parser :=
  { grammar := s.grammar
    root := s.root
    limits := s.limits
    patience := if s.attached && s.cancelled then some 0 else none }

/-- The parser of a session, when the flag is set by the step behind the first
    `cancelAfter`. -/
def observedParser (s : Session) (cancelAfter : Option Nat) : Parser :=
  if s.attached && !s.cancelled then { s.parser with patience := cancelAfter.map (· + 1) }
  else s.parser

/-- The session after a run during which its observer sets the flag by the step
    behind the first `cancelAfter`. -/
def observe (s : Session) (cancelAfter : Option Nat) (r : Result α) : Session :=
  let steps := r.record.events.toList.countP Event.isStep
  { s with cancelled := s.cancelled || cancelAfter.any (· < steps) }

def parse (s : Session) (tokens : List Token) (cancelAfter : Option Nat) :
    Except ParseError Parsed × Session :=
  let p := s.observedParser cancelAfter
  (p.parse tokens, s.observe cancelAfter (p.run .reading tokens.toArray))

end Session

end SqlStatement

import SqlStatement.Json
import SqlStatement.Script

namespace SqlStatement

namespace Log

inductive Level where
  | debug
  | trace
  deriving DecidableEq, Repr

def Level.name : Level → String
  | .debug => "DEBUG"
  | .trace => "TRACE"

def Level.isShown (verbose : Nat) : Level → Bool
  | .debug => 1 ≤ verbose
  | .trace => 2 ≤ verbose

/-- An entry of the log: a decision of the parser at the level for debugging, or a
    step of the match at the level for tracing. -/
structure Entry where
  level : Level
  /-- The parse that the entry belongs to. -/
  scope : Option String
  message : String
  fields : List (String × String)
  deriving DecidableEq, Repr

def Entry.line (e : Entry) : String :=
  let scope := match e.scope with
    | some scope => scope ++ ": "
    | none => ""
  e.level.name ++ " " ++ scope ++
    " ".intercalate (e.message :: e.fields.map fun (name, value) => name ++ "=" ++ value)

def render (verbose : Nat) (entries : List Entry) : String :=
  String.join ((entries.filter (·.level.isShown verbose)).map (·.line ++ "\n"))

def debug (scope : Option String) (message : String) (fields : List (String × Nat)) : Entry :=
  ⟨.debug, scope, message, fields.map fun (name, n) => (name, toString n)⟩

def field : Option Expectation → String
  | some (.keyword text) => "Some(Keyword(" ++ Json.quote text ++ "))"
  | some (.label text) => "Some(Label(" ++ Json.quote text ++ "))"
  | some .endOfInput => "Some(EndOfInput)"
  | none => "None"

def ofEvent (scope : Option String) (e : Event) : Entry :=
  let step (message : String) (fields : List (String × String)) (position : Nat) : Entry :=
    ⟨.trace, scope, message, fields ++ [("position", toString position)]⟩
  match e with
  | .enter production position => step "enter" [("production", Json.quote production)] position
  | .exit production matched position =>
    step "exit" [("production", Json.quote production), ("matched", toString matched)] position
  | .candidate production branch position =>
    step "candidate" [("production", Json.quote production), ("branch", toString branch)] position
  | .commit position => step "commit" [] position
  | .leaf token position => step "match" [("token", token.text)] position
  | .miss expected position => step "failure" [("expected", field expected)] position
  | .backtrack position => step "backtrack" [] position
  | .breakpoint stack position =>
    step "breakpoint" [("stack", "[" ++ ", ".intercalate (stack.map Json.quote) ++ "]")] position
  | .blamed position => debug scope "committed sequence failed" [("position", position)]
  | .interrupted position => debug scope "parse cancelled" [("position", position)]

def parseScope (p : Parser) (size : Nat) (more : String) : String :=
  "parse\x7broot=" ++ p.root ++ s!" tokens={size}" ++ more ++ "\x7d"

/-- What a run says in a scope, with its steps or without them. -/
def ofRun (scope : Option String) (steps : Bool) (r : Result α) : List Entry :=
  (r.record.events.toList.filter fun e => steps || !e.isStep).map (ofEvent scope)

def ofParse (p : Parser) (tokens : List Token) (steps : Bool) (r : Result Tree) : List Entry :=
  let scope (more : String) := some (parseScope p tokens.length more)
  let trailing := match Parser.conclude tokens.toArray r with
    | .ok tree => Parser.trailing? tokens.toArray tree
    | .error _ => none
  let used := p.fuelUsed r
  ofRun (scope "") steps r ++ trailing.toList.map fun position =>
    debug (scope s!" fuel_used={used}") "trailing input after statement" [("position", position)]

def ofCompletion (p : Parser) (tokens : List Token) (caret : Nat) : List Entry :=
  let caret := min caret tokens.length
  let r := p.run .completing (tokens.take caret).toArray
  let summary := match Parser.suggest caret r with
    | .ok c => [debug none "completion" [("caret", c.caret),
        ("suggestions", c.suggestions.length), ("contexts", c.contexts.length)]]
    | .error _ => []
  ofRun none false r ++ summary

def ofItem (p : Parser) : Script.Item → List Entry
  | .stray _ => []
  | .attempt a =>
    let statement := match a.length? with
      | some n => [debug none "statement" [("start", a.start), ("end", a.start + n)]]
      | none => []
    let again := match a.overrun? with
      | some _ => ofParse p a.tokens false a.result
      | none => []
    ofRun none false a.result ++ statement ++ again

def ofScript (p : Parser) (tokens : List Token) : List Entry :=
  (Script.items p tokens).flatMap (ofItem p)

end Log

end SqlStatement

import SqlStatement.Completion
import SqlStatement.Match.Table
import SqlStatement.Tree.Parsed

namespace SqlStatement

/-- How much work a single parse may be. -/
structure Limits where
  /-- How many terms may be attempted. -/
  fuel : Nat := 1000000
  /-- How many productions may be open at once. -/
  depth : Nat := 160
  deriving DecidableEq, Repr

/-- A parser matches tokens against a grammar, from a root production, within limits
    on the number of attempts and on nesting. -/
structure Parser where
  grammar : Grammar
  root : String
  limits : Limits := {}
  /-- How many steps pass before a parse is cancelled; never if absent. -/
  patience : Option Nat := none

/-- The tokens that a root production has matched. -/
structure Prefix where
  parsed : Parsed
  /-- The number of tokens that were matched. -/
  consumed : Nat

namespace Parser

/-- A parser from the grammar's own root. -/
def ofGrammar (grammar : Grammar) : Parser := { grammar, root := grammar.root }

/-- Matches the root production at the first token. -/
def run (p : Parser) (purpose : Purpose) (tokens : Array Token) : Result Tree :=
  p.grammar.matcher p.limits.depth p.root ⟨tokens, purpose, []⟩
    ⟨0, p.limits.fuel, p.patience⟩

/-- The tree of a run, or why there is none. -/
def conclude (tokens : Array Token) (r : Result Tree) : Except ParseError Tree :=
  match r.outcome with
  | .matched tree => .ok tree
  | .failed => .error (.input (.ofMisses tokens r.state.position r.record.misses.toList))
  | .aborted e => .error e

/-- The first token behind a tree and the semicolon that may follow it. -/
def trailing? (tokens : Array Token) (tree : Tree) : Option Nat :=
  let stop := tree.span.stop
  let next := if tokens[stop]?.any Token.isSemicolon then stop + 1 else stop
  if next < tokens.size then some next else none

/-- The tree of a run that has to reach the end of the input, or why there is none. -/
def concludeAll (tokens : Array Token) (r : Result Tree) : Except ParseError Tree :=
  match conclude tokens r with
  | .error e => .error e
  | .ok tree =>
    match trailing? tokens tree with
    | none => .ok tree
    | some next =>
      let misses := r.record.misses.toList ++ [⟨next, .endOfInput⟩]
      .error (.input (.ofMisses tokens r.state.position misses))

/-- The tree of all tokens. A semicolon may follow what the root production
    matches. -/
def parse (p : Parser) (tokens : List Token) : Except ParseError Parsed := do
  let tokens := tokens.toArray
  let tree ← concludeAll tokens (p.run .reading tokens)
  pure ⟨tree, tokens⟩

/-- Reads a root production at the start of the tokens. -/
def parsePrefix (p : Parser) (tokens : List Token) : Except ParseError Prefix := do
  let tokens := tokens.toArray
  let tree ← conclude tokens (p.run .reading tokens)
  pure ⟨⟨tree, tokens⟩, tree.span.stop⟩

/-- What a run over the tokens in front of a caret suggests there. Input errors in
    front of the caret are of no interest. -/
def suggest (caret : Nat) (r : Result Tree) : Except ParseError Completion :=
  let completion : Completion :=
    { caret
      suggestions := Miss.expectedAt r.record.misses.toList caret
      contexts := ((r.record.breakpoints.toList.filter (·.position == caret)).map
        (·.stack)).eraseDups }
  match r.outcome with
  | .matched _ | .failed | .aborted (.input _) => .ok completion
  | .aborted e => .error e

/-- What may follow the tokens in front of a caret. -/
def complete (p : Parser) (tokens : List Token) (caret : Nat) : Except ParseError Completion :=
  let caret := min caret tokens.length
  suggest caret (p.run .completing (tokens.take caret).toArray)

/-- How many attempts a run has paid for. -/
def fuelUsed (p : Parser) (r : Result α) : Nat := p.limits.fuel - r.state.fuel

end Parser

end SqlStatement

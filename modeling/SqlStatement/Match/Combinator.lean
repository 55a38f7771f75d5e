import SqlStatement.Grammar
import SqlStatement.Match.Matcher
import SqlStatement.Tree

namespace SqlStatement

/-- The furthest token that was missed. -/
def Miss.furthest (misses : List Miss) : Option Nat := (misses.map (·.position)).max?

/-- What was expected at a token, each expectation once, in the order of the
    attempts. -/
def Miss.expectedAt (misses : List Miss) (position : Nat) : List Expectation :=
  ((misses.filter (·.position == position)).map (·.expected)).eraseDups

/-- Blames the furthest token missed, or the current one if none was. -/
def InputError.ofMisses (tokens : Array Token) (current : Nat) (misses : List Miss) :
    InputError :=
  let position := (Miss.furthest misses).getD current
  ⟨position, Miss.expectedAt misses position, tokens[position]?.map (·.text)⟩

namespace Grammar.Leaf

def accepts (t : Token) : Leaf → Bool
  | .kind k => t.kind == k
  | .literal text => Text.sameWord t.text text
  | .oneOf kinds => kinds.contains t.kind
  | .identifier _ bindable => t.kind == if bindable then .bindVariable else .identifier
  | .stringLiteral _ => t.kind == .string

def expectations : Leaf → List Expectation
  | .kind k => [.keyword k.text]
  | .literal text => [.keyword text]
  | .oneOf kinds => kinds.toList.map fun k => .keyword k.text
  | .identifier description _ => [.label description]
  | .stringLiteral description => [.label description]

/-- What a term misses in front of `next`. A set that holds the end of the input has
    nothing to ask for there. -/
def misses (next : Option Token) (l : Leaf) : List Expectation :=
  match l, next with
  | .oneOf kinds, none => if kinds.contains .endOfInput then [] else l.expectations
  | _, _ => l.expectations

def announced : Leaf → Option Expectation
  | .oneOf _ => none
  | l => l.expectations.head?

def role : Leaf → Tree.Role
  | .identifier description _ => .identifier description
  | .stringLiteral description => .stringLiteral description
  | _ => .token

end Grammar.Leaf

namespace Matcher

open Grammar (Leaf)

/-- Blames the furthest miss and ends the parse. -/
def blame (misses : Journal Miss) : Matcher α := do
  let c ← context
  let error := InputError.ofMisses c.tokens (← position) misses.toList
  report (.blamed error.position)
  abort (.input error)

/-- Goes back to a token, and reports it if there is a way to go. -/
def backtrack (target : Nat) : Matcher Unit := do
  if (← position) != target then
    report (.backtrack target)
    seek target

/-- A node over the tokens since `start`, if there are any. -/
def wrap (label : Tree.Label) (start : Nat) (children : List Tree) : Matcher (List Tree) := do
  let stop ← position
  pure (if start < stop then [.node label ⟨start, stop⟩ children] else [])

/-- Tests the next token. -/
def leaf (l : Leaf) : Matcher (List Tree) := do
  let here ← position
  match ← peek with
  | some token =>
    if l.accepts token then
      report (.leaf token here)
      advance
      pure [.leaf l.role here]
    else
      expect (l.misses (some token))
      report (.miss l.announced here)
      fail
  | none =>
    expect (l.misses none)
    report (.miss l.announced here)
    fail

/-- How the steps of a sequence end. -/
inductive Ending where
  | finished (committed : Bool) (nodes : List Tree)
  | stuck (committed : Bool)

def Ending.prepend (nodes : List Tree) : Ending → Ending
  | .finished committed more => .finished committed (nodes ++ more)
  | .stuck committed => .stuck committed

/-- Commits a sequence that has earned enough, once. -/
def commitAt (threshold earned : Nat) (committed : Bool) : Matcher Bool := do
  if !committed && threshold ≤ earned then
    report (.commit (← position))
    pure true
  else pure committed

/-- The steps of a sequence. A step that consumes a token earns a point towards the
    threshold. -/
def steps (threshold : Nat) :
    List (Matcher (List Tree)) → (earned : Nat) → (committed : Bool) → Matcher Ending
  | [], earned, committed => do
    pure (.finished (← commitAt threshold earned committed) [])
  | step :: rest, earned, committed => do
    checkPatience
    let committed ← commitAt threshold earned committed
    let before ← position
    match ← attempt step with
    | none => pure (.stuck committed)
    | some nodes =>
      let after ← position
      let earned := if before < after then earned + 1 else earned
      return (← steps threshold rest earned committed).prepend nodes

/-- Steps in order. A sequence commits once enough of them have consumed a token; a
    committed one that gets stuck aborts the parse and blames the furthest token
    reached since its start. The value says whether the sequence has committed. -/
def sequence (threshold : Nat) (parts : List (Matcher (List Tree))) :
    Matcher (Bool × List Tree) := do
  let start ← position
  let (ending, misses) ← listen (steps threshold parts 0 false)
  match ending with
  | .finished committed nodes => pure (committed, nodes)
  | .stuck true => blame misses
  | .stuck false =>
    backtrack start
    fail

def optional (body : Matcher (Bool × List Tree)) : Matcher (List Tree) := do
  let start ← position
  match ← attempt body with
  | some (_, nodes) => wrap .optional start nodes
  | none => pure []

/-- The longest candidate so far among those that did not commit. -/
structure Provisional where
  stop : Nat
  branch : Nat
  nodes : List Tree

/-- Keeps the earlier of two candidates unless the later one is longer. -/
def Provisional.better (best : Option Provisional) (next : Provisional) : Provisional :=
  match best with
  | some b => if b.stop < next.stop then next else b
  | none => next

/-- Tries the remaining candidates of an alternation, the next one being number
    `branch`. -/
def choose (start : Nat) : List (Matcher (Bool × List Tree)) → (branch : Nat) →
    (best : Option Provisional) → Matcher (List Tree)
  | [], _, none => fail
  | [], _, some best => do
    seek best.stop
    wrap (.alternation best.branch) start best.nodes
  | candidate :: rest, branch, best => do
    seek start
    let c ← context
    report (.candidate (c.stack.head?.getD "") branch start)
    match ← attempt candidate with
    | none => choose start rest (branch + 1) best
    | some (true, nodes) => wrap (.alternation branch) start nodes
    | some (false, nodes) =>
      let stop ← position
      choose start rest (branch + 1) (some (Provisional.better best ⟨stop, branch, nodes⟩))

/-- The first candidate that commits, or else the longest of the others, the first
    one of several. -/
def alternation (candidates : List (Matcher (Bool × List Tree))) : Matcher (List Tree) := do
  choose (← position) candidates 0 none

/-- How a turn of a repetition ends. -/
inductive Turn where
  /-- Nothing more is repeated. -/
  | over
  /-- No item follows a separator. -/
  | itemMissing
  | next (nodes : List Tree)

/-- An item, behind a separator if there is one. -/
def turn (item : Matcher (Bool × List Tree)) :
    Option (Matcher (Bool × List Tree)) → Matcher Turn
  | none => do
    let start ← position
    match ← attempt item with
    | none => pure .over
    | some (_, nodes) => return .next (← wrap .item start nodes)
  | some separator => do
    let start ← position
    match ← attempt separator with
    | none => pure .over
    | some (_, separatorNodes) =>
      let front ← wrap .separator start separatorNodes
      let itemStart ← position
      match ← attempt item with
      | none => pure .itemMissing
      | some (_, nodes) => return .next (front ++ (← wrap .item itemStart nodes))

/-- One more turn, which costs fuel of its own. No value means that the repetition
    is over. -/
def iteration (item : Matcher (Bool × List Tree))
    (separator : Option (Matcher (Bool × List Tree))) : Matcher (Option (List Tree)) := do
  checkPatience
  charge
  match ← listen (turn item separator) with
  | (.over, _) => pure none
  | (.itemMissing, misses) => blame misses
  | (.next nodes, _) => pure (some nodes)

/-- The number of turns that consumed something, and their nodes. Each turn but the
    first starts with the separator. -/
def iterate (item : Matcher (Bool × List Tree))
    (separator : Option (Matcher (Bool × List Tree))) (first : Bool) (c : Context) (s : State) :
    Result (Nat × List Tree) :=
  let r := iteration item (if first then none else separator) c s
  match r.outcome with
  | .matched none => ⟨.matched (0, []), r.state, r.record⟩
  | .matched (some nodes) =>
    if c.tokens.size - r.state.position < c.tokens.size - s.position then
      let more := iterate item separator false c r.state
      let outcome := match more.outcome with
        | .matched (count, rest) => .matched (count + 1, nodes ++ rest)
        | .failed => .failed
        | .aborted e => .aborted e
      ⟨outcome, more.state, r.record ++ more.record⟩
    else ⟨.matched (0, []), r.state, r.record⟩
  | .failed => ⟨.failed, r.state, r.record⟩
  | .aborted e => ⟨.aborted e, r.state, r.record⟩
termination_by c.tokens.size - s.position

/-- At least `least` items with the separator between them. It ends where an item or
    separator fails, or where a turn consumes nothing; behind a separator an item is
    mandatory. -/
def repetition (item : Matcher (Bool × List Tree))
    (separator : Option (Matcher (Bool × List Tree))) (least : Nat) : Matcher (List Tree) := do
  let start ← position
  let (count, nodes) ← (iterate item separator true : Matcher _)
  if count < least then
    backtrack start
    fail
  else wrap .repetition start nodes

/-- Reports the open productions, and records them where the input to complete
    ends. -/
def breakpoint : Matcher (List Tree) := do
  let c ← context
  let here ← position
  let stack := c.stack.reverse
  report (.breakpoint stack here)
  if c.purpose == .completing && c.tokens.size ≤ here then
    mark ⟨here, stack⟩
  pure []

/-- A production around its body. One that fails without getting past its first
    token is summed up by its label, unless the input is being completed. -/
def production (p : Grammar.Production) (body : Matcher (Bool × List Tree)) : Matcher Tree := do
  let start ← position
  let c ← context
  let sumUp (misses : Journal Miss) : Journal Miss :=
    match p.label with
    | some label =>
      if c.purpose == .reading && misses.toList.all (·.position ≤ start) then
        .single ⟨start, .label label⟩
      else misses
    | none => misses
  let (_, nodes) ← onFailure sumUp (within p.name body)
  pure (.node (.production p.name) ⟨start, ← position⟩ nodes)

end Matcher

end SqlStatement

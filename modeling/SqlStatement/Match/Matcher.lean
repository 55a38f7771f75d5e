import SqlStatement.Match.Event
import SqlStatement.Match.Journal

namespace SqlStatement

/-- How a matcher ends. -/
inductive Outcome (α : Type) where
  | matched (value : α)
  /-- Something else may be tried. -/
  | failed
  /-- The whole parse is over. -/
  | aborted (error : ParseError)
  deriving DecidableEq, Repr

/-- What a parse is for. -/
inductive Purpose where
  /-- To read the input: a labelled production that fails at its first token is summed up by its
      label. -/
  | reading
  /-- To complete the input: expectations stay as they are and breakpoints are recorded. -/
  | completing
  deriving DecidableEq, Repr

/-- What does not change while a term is matched. -/
structure Context where
  tokens : Array Token
  purpose : Purpose
  /-- The open productions, innermost first. -/
  stack : List String

/-- What a matcher changes. -/
structure State where
  /-- The index of the next token. -/
  position : Nat
  /-- How many more terms may be attempted. -/
  fuel : Nat
  /-- How many more steps pass before the parse is cancelled; never if absent. -/
  patience : Option Nat
  deriving DecidableEq, Repr

/-- What a matcher writes down. -/
structure Record where
  misses : Journal Miss
  events : Journal Event
  breakpoints : Journal Breakpoint

namespace Record

/-- Nothing written. -/
def empty : Record := ⟨.empty, .empty, .empty⟩

def append (a b : Record) : Record :=
  ⟨a.misses ++ b.misses, a.events ++ b.events, a.breakpoints ++ b.breakpoints⟩

instance : Append Record := ⟨append⟩

end Record

/-- The end of a matcher's run. -/
structure Result (α : Type) where
  outcome : Outcome α
  state : State
  record : Record

/-- A matcher starts at a token and ends in one of three ways: it matches with a
    value, it fails so that something else can be tried, or it aborts the whole
    parse. However it ends, it leaves a record of what it expected, did and passed,
    and what is left of its allowances. -/
def Matcher (α : Type) : Type := Context → State → Result α

namespace Matcher

variable {α β : Type}

@[inline] def run (m : Matcher α) (c : Context) (s : State) : Result α := m c s

@[always_inline, inline] protected def pure (a : α) : Matcher α :=
  fun _ s => ⟨.matched a, s, .empty⟩

/-- Goes on with `f` where `m` has matched. -/
@[always_inline, inline] protected def bind (m : Matcher α) (f : α → Matcher β) : Matcher β :=
  fun c s =>
    let r := m c s
    match r.outcome with
    | .matched a =>
      let r' := f a c r.state
      ⟨r'.outcome, r'.state, r.record ++ r'.record⟩
    | .failed => ⟨.failed, r.state, r.record⟩
    | .aborted e => ⟨.aborted e, r.state, r.record⟩

instance : Monad Matcher where
  pure := Matcher.pure
  bind := Matcher.bind

def fail : Matcher α := fun _ s => ⟨.failed, s, .empty⟩

/-- Ends the whole parse. -/
def abort (e : ParseError) : Matcher α := fun _ s => ⟨.aborted e, s, .empty⟩

/-- What does not change. -/
@[inline] def context : Matcher Context := fun c s => ⟨.matched c, s, .empty⟩

/-- The index of the next token. -/
@[inline] def position : Matcher Nat := fun _ s => ⟨.matched s.position, s, .empty⟩

/-- The next token, unless the input has ended. -/
@[inline] def peek : Matcher (Option Token) :=
  fun c s => ⟨.matched c.tokens[s.position]?, s, .empty⟩

/-- Goes to a token. -/
@[inline] def seek (position : Nat) : Matcher Unit :=
  fun _ s => ⟨.matched (), { s with position }, .empty⟩

/-- Steps over a token. -/
@[inline] def advance : Matcher Unit :=
  fun _ s => ⟨.matched (), { s with position := s.position + 1 }, .empty⟩

/-- Reports an event. Each step takes some of the patience that is left. -/
@[inline] def report (e : Event) : Matcher Unit :=
  fun _ s =>
    let patience := if e.isStep then s.patience.map (· - 1) else s.patience
    ⟨.matched (), { s with patience }, { Record.empty with events := .single e }⟩

/-- Writes down what is expected at the current token. -/
@[inline] def expect (expected : List Expectation) : Matcher Unit :=
  fun _ s =>
    let misses := .ofList (expected.map fun e => ⟨s.position, e⟩)
    ⟨.matched (), s, { Record.empty with misses }⟩

@[inline] def mark (b : Breakpoint) : Matcher Unit :=
  fun _ s => ⟨.matched (), s, { Record.empty with breakpoints := .single b }⟩

/-- Spends fuel on one attempt. -/
@[inline] def charge : Matcher Unit :=
  fun _ s =>
    match s.fuel with
    | 0 => ⟨.aborted .outOfFuel, s, .empty⟩
    | fuel + 1 => ⟨.matched (), { s with fuel }, .empty⟩

/-- Ends the parse once the patience is used up. -/
@[inline] def checkPatience : Matcher Unit :=
  fun _ s =>
    if s.patience = some 0 then
      ⟨.aborted .cancelled, s, { Record.empty with events := .single (.interrupted s.position) }⟩
    else ⟨.matched (), s, .empty⟩

/-- Turns a failure into the value `none`. -/
@[inline] def attempt (m : Matcher α) : Matcher (Option α) :=
  fun c s =>
    let r := m c s
    match r.outcome with
    | .matched a => ⟨.matched (some a), r.state, r.record⟩
    | .failed => ⟨.matched none, r.state, r.record⟩
    | .aborted e => ⟨.aborted e, r.state, r.record⟩

/-- Adds what `m` has missed to its value. -/
@[inline] def listen (m : Matcher α) : Matcher (α × Journal Miss) :=
  fun c s =>
    let r := m c s
    match r.outcome with
    | .matched a => ⟨.matched (a, r.record.misses), r.state, r.record⟩
    | .failed => ⟨.failed, r.state, r.record⟩
    | .aborted e => ⟨.aborted e, r.state, r.record⟩

/-- Where `m` fails, replaces what it has missed. -/
@[inline] def onFailure (f : Journal Miss → Journal Miss) (m : Matcher α) : Matcher α :=
  fun c s =>
    let r := m c s
    match r.outcome with
    | .failed => ⟨.failed, r.state, { r.record with misses := f r.record.misses }⟩
    | _ => r

/-- Runs `m` inside an open production and reports both ends of it. -/
@[inline] def within (production : String) (m : Matcher α) : Matcher α :=
  fun c s =>
    let entered := report (.enter production s.position) c s
    let r := m { c with stack := production :: c.stack } entered.state
    let matched := match r.outcome with
      | .matched _ => true
      | _ => false
    let exited := report (.exit production matched r.state.position) c r.state
    ⟨r.outcome, exited.state, entered.record ++ r.record ++ exited.record⟩

end Matcher

end SqlStatement

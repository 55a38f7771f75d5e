import SqlStatement.Match.Combinator

namespace SqlStatement

/-- What does not change while a machine runs. -/
structure Setting where
  tokens : Array Token
  purpose : Purpose
  /-- How many productions may be open at once. -/
  limit : Nat

/-- What a machine changes in place. -/
structure Store where
  position : Nat
  fuel : Nat
  patience : Option Nat
  log : List Miss
  events : List Event
  breakpoints : List Breakpoint
  /-- The open productions, innermost first. -/
  stack : List String
  /-- How many productions are open. -/
  depth : Nat
  /-- The child vector that is being filled. -/
  out : List Tree

/-- Steps that change a single store. Nothing is restored unless a step restores it,
    and a machine without a result has broken an assertion or taken a slice out of
    range. -/
def Machine (α : Type) : Type := Setting → Store → Option (Outcome α × Store)

namespace Machine

variable {α β : Type}

protected def pure (a : α) : Machine α := fun _ σ => some (.matched a, σ)

protected def bind (m : Machine α) (f : α → Machine β) : Machine β :=
  fun k σ =>
    match m k σ with
    | none => none
    | some (.matched a, τ) => f a k τ
    | some (.failed, τ) => some (.failed, τ)
    | some (.aborted e, τ) => some (.aborted e, τ)

instance : Monad Machine where
  pure := Machine.pure
  bind := Machine.bind

def fail : Machine α := fun _ σ => some (.failed, σ)

def abort (e : ParseError) : Machine α := fun _ σ => some (.aborted e, σ)

def read (f : Setting → Store → α) : Machine α := fun k σ => some (.matched (f k σ), σ)

def update (f : Store → Store) : Machine Unit := fun _ σ => some (.matched (), f σ)

/-- Breaks down unless the condition holds. -/
def require (condition : Setting → Store → Bool) : Machine Unit :=
  fun k σ => if condition k σ then some (.matched (), σ) else none

/-- Breaks down. -/
def broken : Machine α := fun _ _ => none

def position : Machine Nat := read fun _ σ => σ.position

def peek : Machine (Option Token) := read fun k σ => k.tokens[σ.position]?

def reset (target : Nat) : Machine Unit := do
  require fun k _ => target ≤ k.tokens.size
  update fun σ => { σ with position := target }

def bump : Machine Unit := do
  require fun k σ => σ.position < k.tokens.size
  update fun σ => { σ with position := σ.position + 1 }

def report (e : Event) : Machine Unit :=
  update fun σ =>
    { σ with
      events := σ.events ++ [e]
      patience := if e.isStep then σ.patience.map (· - 1) else σ.patience }

def charge : Machine Unit := do
  if (← read fun _ σ => σ.fuel) = 0 then abort .outOfFuel
  else update fun σ => { σ with fuel := σ.fuel - 1 }

def checkPatience : Machine Unit := do
  if (← read fun _ σ => σ.patience) = some 0 then
    report (.interrupted (← position))
    abort .cancelled

/-- The end of the log, from where later entries are counted. -/
def mark : Machine Nat := read fun _ σ => σ.log.length

/-- The entries of the log behind a mark. -/
def since (mark : Nat) : Machine (List Miss) := do
  require fun _ σ => mark ≤ σ.log.length
  read fun _ σ => σ.log.drop mark

def expect (expected : List Expectation) : Machine Unit :=
  update fun σ => { σ with log := σ.log ++ expected.map fun e => ⟨σ.position, e⟩ }

/-- Replaces the entries behind a mark with a label, unless one of them got past
    `start`. -/
def collapse (mark start : Nat) (label : String) : Machine Unit := do
  if (Miss.furthest (← since mark)).any (start < ·) then pure ()
  else update fun σ => { σ with log := σ.log.take mark ++ [⟨start, .label label⟩] }

def push (tree : Tree) : Machine Unit := update fun σ => { σ with out := σ.out ++ [tree] }

/-- The length of the child vector. -/
def filled : Machine Nat := read fun _ σ => σ.out.length

def truncate (length : Nat) : Machine Unit :=
  update fun σ => { σ with out := σ.out.take length }

def enter (production : String) : Machine Unit :=
  update fun σ => { σ with stack := production :: σ.stack, depth := σ.depth + 1 }

def leave : Machine Unit := do
  require fun _ σ => 0 < σ.depth
  update fun σ => { σ with stack := σ.stack.tail, depth := σ.depth - 1 }

/-- Turns a failure into the value `none`. -/
def attempt (m : Machine α) : Machine (Option α) :=
  fun k σ =>
    match m k σ with
    | none => none
    | some (.matched a, τ) => some (.matched (some a), τ)
    | some (.failed, τ) => some (.matched none, τ)
    | some (.aborted e, τ) => some (.aborted e, τ)

/-- Runs `m` on a child vector of its own and goes on, however `m` ends. -/
def capture (m : Machine α) : Machine (Outcome α × List Tree) :=
  fun k σ =>
    match m k { σ with out := [] } with
    | none => none
    | some (o, τ) => some (.matched (o, τ.out), { τ with out := σ.out })

/-- Runs `m` on a child vector of its own, which is given up where `m` does not
    match. -/
def collect (m : Machine α) : Machine (α × List Tree) := do
  match ← capture m with
  | (.matched a, children) => pure (a, children)
  | (.failed, _) => fail
  | (.aborted e, _) => abort e

/-- Runs `m` on a child vector of its own and turns a failure into the value
    `none`. -/
def gather (m : Machine α) : Machine (Option (α × List Tree)) := attempt (collect m)

end Machine

end SqlStatement

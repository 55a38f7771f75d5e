import SqlStatement.Match.Table
import SqlStatement.Proofs.Machine.Store
import SqlStatement.Proofs.Match.Run

namespace SqlStatement

namespace Machine

open Grammar (Leaf)

/-- Blames the furthest miss behind a mark and ends the parse. -/
def blame {α : Type} (mark : Nat) : Machine α := do
  let misses ← since mark
  let tokens ← read fun k _ => k.tokens
  let error := InputError.ofMisses tokens (← position) misses
  report (.blamed error.position)
  abort (.input error)

def backtrack (target : Nat) : Machine Unit := do
  if (← position) = target then pure ()
  else
    report (.backtrack target)
    reset target

/-- Pushes a node over the tokens since `start`, if there are any. -/
def pushSpan (label : Tree.Label) (start : Nat) (children : List Tree) : Machine Unit := do
  let stop ← position
  if start < stop then push (.node label ⟨start, stop⟩ children) else pure ()

def leaf (l : Leaf) : Machine Unit := do
  let here ← position
  match ← peek with
  | some token =>
    if l.accepts token then
      report (.leaf token here)
      bump
      push (.leaf l.role here)
    else
      expect (l.misses (some token))
      report (.miss l.announced here)
      fail
  | none =>
    expect (l.misses none)
    report (.miss l.announced here)
    fail

/-- How the loop over the terms of a sequence ends. -/
inductive Ending where
  | finished (committed : Bool)
  | stuck (committed : Bool)

def commitAt (threshold earned : Nat) (committed : Bool) : Machine Bool := do
  if !committed && threshold ≤ earned then
    report (.commit (← position))
    pure true
  else pure committed

def steps (threshold : Nat) :
    List (Machine Unit) → (earned : Nat) → (committed : Bool) → Machine Ending
  | [], earned, committed => do
    pure (.finished (← commitAt threshold earned committed))
  | step :: rest, earned, committed => do
    checkPatience
    let committed ← commitAt threshold earned committed
    let before ← position
    match ← attempt step with
    | none => pure (.stuck committed)
    | some () =>
      let after ← position
      steps threshold rest (if before < after then earned + 1 else earned) committed

/-- Terms in order. A sequence that fails truncates the child vector and goes back. -/
def sequence (threshold : Nat) (parts : List (Machine Unit)) : Machine Bool := do
  let start ← position
  let mark ← mark
  let kept ← filled
  match ← steps threshold parts 0 false with
  | .finished committed => pure committed
  | .stuck true => blame mark
  | .stuck false =>
    truncate kept
    backtrack start
    fail

def optional (body : Machine Bool) : Machine Unit := do
  let start ← position
  match ← gather body with
  | some (_, children) => pushSpan .optional start children
  | none => pure ()

/-- Tries the remaining candidates of an alternation, the next one being number
    `branch`. -/
def choose (start : Nat) (owner : String) : List (Machine Bool) → (branch : Nat) →
    (provisional : Option Matcher.Provisional) → Machine Unit
  | [], _, none => do
    backtrack start
    fail
  | [], _, some best => do
    reset best.stop
    pushSpan (.alternation best.branch) start best.nodes
  | candidate :: rest, branch, provisional => do
    reset start
    report (.candidate owner branch start)
    match ← gather candidate with
    | some (true, children) => pushSpan (.alternation branch) start children
    | some (false, children) =>
      let stop ← position
      choose start owner rest (branch + 1)
        (some (Matcher.Provisional.better provisional ⟨stop, branch, children⟩))
    | none => choose start owner rest (branch + 1) provisional

def alternation (candidates : List (Machine Bool)) : Machine Unit := do
  let start ← position
  let owner ← read fun _ σ => σ.stack.head?.getD ""
  choose start owner candidates 0 none

/-- How a turn of a repetition ends. -/
inductive Turn where
  | over
  /-- No item follows the separator; `mark` is where the log ended in front of it. -/
  | itemMissing (mark : Nat)
  | next

/-- Ends a turn that has matched an item. A turn without a token is undone. -/
def finish (start kept itemStart : Nat) (children : List Tree) : Machine Turn := do
  if (← position) = start then
    truncate kept
    pure .over
  else
    pushSpan .item itemStart children
    pure .next

/-- An item, behind a separator if there is one. -/
def turn (m : Machine Bool) : Option (Machine Bool) → Machine Turn
  | none => do
    let start ← position
    let kept ← filled
    match ← gather m with
    | some (_, children) => finish start kept start children
    | none => pure .over
  | some separator => do
    let start ← position
    let kept ← filled
    let mark ← mark
    match ← gather separator with
    | some (_, children) =>
      pushSpan .separator start children
      let itemStart ← position
      match ← gather m with
      | some (_, children) => finish start kept itemStart children
      | none => pure (.itemMissing mark)
    | none => pure .over

/-- One more turn. The value says whether the repetition goes on. -/
def iteration (m : Machine Bool) (separator : Option (Machine Bool)) : Machine Bool := do
  checkPatience
  charge
  match ← turn m separator with
  | .over => pure false
  | .itemMissing mark => blame mark
  | .next => pure true

/-- Turns until the repetition is over, at most `budget` of them, on top of `count`
    earlier ones. -/
def loop (m : Machine Bool) (separator : Option (Machine Bool)) :
    (budget : Nat) → (count : Nat) → Machine Nat
  | 0, _ => broken
  | budget + 1, count => do
    if ← iteration m (if count = 0 then none else separator) then
      loop m separator budget (count + 1)
    else pure count

/-- At least `least` items with the separator between them. Each turn but the last
    consumes a token. -/
def repetition (m : Machine Bool) (separator : Option (Machine Bool)) (least : Nat) :
    Machine Unit := do
  let start ← position
  let size ← read fun k _ => k.tokens.size
  let (count, children) ← collect (loop m separator (size + 1) 0)
  if count < least then
    backtrack start
    fail
  else pushSpan .repetition start children

def breakpoint : Machine Unit := do
  let here ← position
  let stack ← read fun _ σ => σ.stack.reverse
  report (.breakpoint stack here)
  if ← read fun k _ => k.purpose == .completing && k.tokens.size ≤ here then
    update fun σ => { σ with breakpoints := σ.breakpoints ++ [⟨here, stack⟩] }
  else pure ()

/-- What becomes of a production whose body has ended. One that fails is summed up
    by its label where nothing behind the mark got past its start. -/
def conclude (p : Grammar.Production) (start mark : Nat) (children : List Tree) :
    Outcome Bool → Machine Tree
  | .matched _ => do
    let stop ← position
    require fun _ _ => start ≤ stop
    pure (.node (.production p.name) ⟨start, stop⟩ children)
  | .failed => do
    match p.label with
    | some label =>
      if (← read fun k _ => k.purpose) = .reading then collapse mark start label else pure ()
    | none => pure ()
    fail
  | .aborted e => abort e

/-- A production around its body. The production is left however its body ends. -/
def production (p : Grammar.Production) (body : Machine Bool) : Machine Tree := do
  let start ← position
  let mark ← mark
  enter p.name
  report (.enter p.name start)
  let (result, children) ← capture body
  report (.exit p.name result.isMatched (← position))
  leave
  conclude p start mark children result

end Machine

namespace Grammar

open Machine (charge)

mutual

/-- The machine of a term, given the machines of productions. It pushes its node
    onto the child vector and undoes its own changes where it fails. -/
def Term.machine (call : String → Machine Tree) : Term → Machine Unit
  | .leaf l => do
    charge
    Machine.leaf l
  | .production name => do
    charge
    let tree ← call name
    if tree.span.isEmpty then pure () else Machine.push tree
  | .optional body => do
    charge
    Machine.optional (body.machine call)
  | .alternation candidates => do
    charge
    Machine.alternation (candidateMachines call candidates)
  | .repetition item none least => do
    charge
    Machine.repetition (item.machine call) none least
  | .repetition item (some separator) least => do
    charge
    Machine.repetition (item.machine call) (some (separator.machine call)) least
  | .breakpoint => do
    charge
    Machine.breakpoint
  termination_by structural t => t

/-- The machine of a sequence. -/
def Sequence.machine (call : String → Machine Tree) : Sequence → Machine Bool
  | ⟨terms, commit⟩ => Machine.sequence commit (termMachines call terms)
  termination_by structural s => s

/-- The machines of terms in order. -/
def termMachines (call : String → Machine Tree) : List Term → List (Machine Unit)
  | [] => []
  | t :: ts => t.machine call :: termMachines call ts
  termination_by structural ts => ts

/-- The machines of candidates in order. -/
def candidateMachines (call : String → Machine Tree) : List Sequence → List (Machine Bool)
  | [] => []
  | c :: cs => c.machine call :: candidateMachines call cs
  termination_by structural cs => cs

end

/-- The machine of a production by its name. It breaks down where more than `calls`
    productions are opened inside one another. -/
def machine (g : Grammar) : (calls : Nat) → (name : String) → Machine Tree
  | calls, name =>
    match g.find? name with
    | none => .abort (.unknownProduction name)
    | some p => do
      if ← Machine.read fun k σ => decide (k.limit ≤ σ.depth) then .abort .tooDeep
      else
        match calls with
        | 0 => .broken
        | calls + 1 => .production p (p.body.machine (g.machine calls))

end Grammar

end SqlStatement

import SqlStatement.Grammar

namespace SqlStatement.Grammar

/-- A step from a part of a grammar into one of its parts. -/
inductive Step where
  | term (index : Nat)
  | optional
  | candidate (index : Nat)
  | item
  | separator
  deriving DecidableEq, Repr

/-- How a step is written in the path of a flaw. -/
def Step.describe : Step → String
  | .term i => toString i
  | .optional => "opt"
  | .candidate i => s!"alt{i}"
  | .item => "item"
  | .separator => "sep"

/-- What can be wrong with a sequence or term. -/
inductive Fault where
  | emptySequence
  | commitOutOfRange (commit length : Nat)
  | emptyAlternation
  | emptyKindSet
  | unresolved (target : String)
  deriving DecidableEq, Repr

/-- A fault with the steps that lead to it from the body of its production. -/
structure Flaw where
  steps : List Step
  fault : Fault
  deriving DecidableEq, Repr

def Flaw.under (step : Step) (f : Flaw) : Flaw := ⟨step :: f.steps, f.fault⟩

mutual

/-- The first flaw of a term, in the order in which the table is written. -/
def Term.flaw? (defined : String → Bool) : Term → Option Flaw
  | .leaf (.oneOf kinds) => if kinds.isEmpty then some ⟨[], .emptyKindSet⟩ else none
  | .leaf _ => none
  | .production name => if defined name then none else some ⟨[], .unresolved name⟩
  | .optional body => (body.flaw? defined).map (Flaw.under .optional)
  | .alternation [] => some ⟨[], .emptyAlternation⟩
  | .alternation (c :: cs) => candidatesFlaw? defined 0 (c :: cs)
  | .repetition item none _ => (item.flaw? defined).map (Flaw.under .item)
  | .repetition item (some separator) _ =>
    ((item.flaw? defined).map (Flaw.under .item)).or
      ((separator.flaw? defined).map (Flaw.under .separator))
  | .breakpoint => none
  termination_by structural t => t

/-- The first flaw of a sequence: its own, or that of its first flawed term. -/
def Sequence.flaw? (defined : String → Bool) : Sequence → Option Flaw
  | ⟨[], _⟩ => some ⟨[], .emptySequence⟩
  | ⟨t :: ts, commit⟩ =>
    if commit > (t :: ts).length then some ⟨[], .commitOutOfRange commit (t :: ts).length⟩
    else termsFlaw? defined 0 (t :: ts)
  termination_by structural s => s

def termsFlaw? (defined : String → Bool) (index : Nat) : List Term → Option Flaw
  | [] => none
  | t :: ts =>
    ((t.flaw? defined).map (Flaw.under (.term index))).or (termsFlaw? defined (index + 1) ts)
  termination_by structural ts => ts

def candidatesFlaw? (defined : String → Bool) (index : Nat) : List Sequence → Option Flaw
  | [] => none
  | c :: cs =>
    ((c.flaw? defined).map (Flaw.under (.candidate index))).or
      (candidatesFlaw? defined (index + 1) cs)
  termination_by structural cs => cs

end

/-- Why a table is not accepted. -/
inductive Defect where
  | duplicateProduction (name : String)
  | unknownRoot (name : String)
  | flawed (production : String) (flaw : Flaw)
  deriving DecidableEq, Repr

def describePath (production : String) (steps : List Step) : String :=
  "/".intercalate (production :: steps.map Step.describe)

def Fault.message : Fault → String
  | .emptySequence => "empty sequence"
  | .commitOutOfRange commit length =>
    s!"commit threshold {commit} exceeds sequence length {length}"
  | .emptyAlternation => "alternation has no candidates"
  | .emptyKindSet => "token set is empty"
  | .unresolved target => "reference to undefined production `" ++ target ++ "`"

def Defect.message : Defect → String
  | .duplicateProduction name => "production `" ++ name ++ "` is defined more than once"
  | .unknownRoot name => "root production `" ++ name ++ "` is not defined"
  | .flawed production flaw => describePath production flaw.steps ++ ": " ++ flaw.fault.message

/-- The first name that stands in the list or in `seen` already. -/
def firstRepeated (seen : List String) : List String → Option String
  | [] => none
  | n :: ns => if seen.contains n then some n else firstRepeated (n :: seen) ns

/-- The first defect of a grammar: a name that is defined twice, a root that is not
    defined, or a flaw in a body. Bodies are searched in the order of the table. -/
def defect? (g : Grammar) : Option Defect :=
  match firstRepeated [] (g.productions.map (·.name)) with
  | some name => some (.duplicateProduction name)
  | none =>
    if g.defines g.root then
      g.productions.findSome? fun p => (p.body.flaw? g.defines).map (.flawed p.name)
    else some (.unknownRoot g.root)

/-- Makes a grammar of productions in their order, or reports the first defect. -/
def build (name root : String) (productions : List Production) : Except Defect Grammar :=
  let g : Grammar := ⟨name, root, productions⟩
  match g.defect? with
  | some d => .error d
  | none => .ok g

end SqlStatement.Grammar

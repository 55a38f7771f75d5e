import SqlStatement.Match.Combinator

namespace SqlStatement

namespace Grammar

open Matcher (charge)

mutual

/-- The matcher of a term, made of the matchers of its parts. Only references to
    productions leave the structure of the term. -/
def Term.matcher (call : String → Matcher Tree) : Term → Matcher (List Tree)
  | .leaf l => do
    charge
    Matcher.leaf l
  | .production name => do
    charge
    let tree ← call name
    pure (if tree.span.isEmpty then [] else [tree])
  | .optional body => do
    charge
    Matcher.optional (body.matcher call)
  | .alternation candidates => do
    charge
    Matcher.alternation (candidateMatchers call candidates)
  | .repetition item none least => do
    charge
    Matcher.repetition (item.matcher call) none least
  | .repetition item (some separator) least => do
    charge
    Matcher.repetition (item.matcher call) (some (separator.matcher call)) least
  | .breakpoint => do
    charge
    Matcher.breakpoint
  termination_by structural t => t

/-- The matcher of a sequence, with the commit threshold that the table gives it. -/
def Sequence.matcher (call : String → Matcher Tree) : Sequence → Matcher (Bool × List Tree)
  | ⟨terms, commit⟩ => Matcher.sequence commit (termMatchers call terms)
  termination_by structural s => s

def termMatchers (call : String → Matcher Tree) : List Term → List (Matcher (List Tree))
  | [] => []
  | t :: ts => t.matcher call :: termMatchers call ts
  termination_by structural ts => ts

def candidateMatchers (call : String → Matcher Tree) :
    List Sequence → List (Matcher (Bool × List Tree))
  | [] => []
  | c :: cs => c.matcher call :: candidateMatchers call cs
  termination_by structural cs => cs

end

/-- The matcher of a production by its name, with `depth` levels of nesting left. -/
def matcher (g : Grammar) : (depth : Nat) → (name : String) → Matcher Tree
  | 0, name =>
    match g.find? name with
    | none => .abort (.unknownProduction name)
    | some _ => .abort .tooDeep
  | depth + 1, name =>
    match g.find? name with
    | none => .abort (.unknownProduction name)
    | some p => .production p (p.body.matcher (g.matcher depth))

end Grammar

end SqlStatement

import Mathlib.Data.List.Forall2
import SqlStatement.Match.Table

namespace SqlStatement.Grammar

open Matcher (charge)

/-- Each kind of term, and a sequence, passes a relation on from its parts to
    itself. The matcher of a term is a fold of the term, so the relation then holds
    between all terms and their matchers. A separator that is absent counts as
    passed on. -/
structure Fold (call : String → Matcher Tree) (T : Term → Matcher (List Tree) → Prop)
    (S : Sequence → Matcher (Bool × List Tree) → Prop) : Prop where
  leaf (l : Leaf) : T (.leaf l) do charge; Matcher.leaf l
  production (name : String) : T (.production name) do
    charge
    let tree ← call name
    pure (if tree.span.isEmpty then [] else [tree])
  optional {body : Sequence} {m : Matcher (Bool × List Tree)} (hbody : S body m) :
    T (.optional body) do charge; Matcher.optional m
  alternation {candidates : List Sequence} {ms : List (Matcher (Bool × List Tree))}
    (hcandidates : List.Forall₂ S candidates ms) :
    T (.alternation candidates) do charge; Matcher.alternation ms
  repetition {item : Sequence} {separator : Option Sequence} {m : Matcher (Bool × List Tree)}
    {ms : Option (Matcher (Bool × List Tree))} (least : Nat) (hitem : S item m)
    (hseparator : Option.Rel S separator ms) :
    T (.repetition item separator least) do charge; Matcher.repetition m ms least
  breakpoint : T .breakpoint do charge; Matcher.breakpoint
  sequence {terms : List Term} {ms : List (Matcher (List Tree))} (commit : Nat)
    (hterms : List.Forall₂ T terms ms) : S ⟨terms, commit⟩ (Matcher.sequence commit ms)

namespace Fold

variable {call : String → Matcher Tree} {T : Term → Matcher (List Tree) → Prop}
  {S : Sequence → Matcher (Bool × List Tree) → Prop}

mutual

/-- A relation that each kind of term passes on holds of every term and its matcher.
    The properties of matchers are proved as instances of `Fold`, not by inductions of
    their own. -/
theorem term (h : Fold call T S) : ∀ t : Term, T t (t.matcher call)
  | .leaf l => h.leaf l
  | .production name => h.production name
  | .optional body => h.optional (h.ofSequence body)
  | .alternation candidates => h.alternation (h.candidates candidates)
  | .repetition item none least => h.repetition least (h.ofSequence item) .none
  | .repetition item (some separator) least =>
    h.repetition least (h.ofSequence item) (.some (h.ofSequence separator))
  | .breakpoint => h.breakpoint

theorem ofSequence (h : Fold call T S) : ∀ s : Sequence, S s (s.matcher call)
  | ⟨ts, commit⟩ => h.sequence commit (h.terms ts)

theorem terms (h : Fold call T S) : ∀ ts : List Term, List.Forall₂ T ts (termMatchers call ts)
  | [] => .nil
  | t :: ts => .cons (h.term t) (h.terms ts)

theorem candidates (h : Fold call T S) :
    ∀ cs : List Sequence, List.Forall₂ S cs (candidateMatchers call cs)
  | [] => .nil
  | c :: cs => .cons (h.ofSequence c) (h.candidates cs)

end

end Fold

section Lists

variable {call : String → Matcher Tree}

/-- The matcher of a sequence runs the matchers of its terms in order, with the
    commit threshold of the sequence. -/
theorem Sequence.matcher_eq (call : String → Matcher Tree) (s : Sequence) :
    s.matcher call = Matcher.sequence s.commit (termMatchers call s.terms) := by
  cases s
  rfl

theorem termMatchers_append (ts us : List Term) :
    termMatchers call (ts ++ us) = termMatchers call ts ++ termMatchers call us := by
  induction ts with
  | nil => rfl
  | cons t ts ih => exact congrArg (t.matcher call :: ·) ih

/-- What holds of the matcher of each term holds of the matchers of all terms in
    order. So a property of all terms of a list need only be shown of one. -/
theorem forall₂_termMatchers {R : Term → Matcher (List Tree) → Prop} {ts : List Term}
    (h : ∀ t ∈ ts, R t (t.matcher call)) : List.Forall₂ R ts (termMatchers call ts) := by
  induction ts with
  | nil => exact .nil
  | cons t ts ih =>
    obtain ⟨ht, hts⟩ := List.forall_mem_cons.mp h
    exact .cons ht (ih hts)

/-- What holds of the matcher of each candidate holds of all matchers that an
    alternation tries. -/
theorem forall_candidateMatchers {R : Matcher (Bool × List Tree) → Prop} {cs : List Sequence}
    (h : ∀ c ∈ cs, R (c.matcher call)) : ∀ m ∈ candidateMatchers call cs, R m := by
  induction cs with
  | nil => nofun
  | cons c cs ih =>
    obtain ⟨hc, hcs⟩ := List.forall_mem_cons.mp h
    exact List.forall_mem_cons.mpr ⟨hc, ih hcs⟩

end Lists

/-- What holds of a matcher that gives up on an unknown or too deep production, and
    is passed on from the matchers of the productions below, holds of the matcher of
    every production. The induction is on the levels of nesting that are left. -/
theorem matcher_induction (g : Grammar) {C : String → Matcher Tree → Prop}
    (unknown : ∀ name, g.find? name = none → C name (.abort (.unknownProduction name)))
    (tooDeep : ∀ name, C name (.abort .tooDeep))
    (production : ∀ call : String → Matcher Tree, (∀ name, C name (call name)) →
      ∀ name p, g.find? name = some p → C name (.production p (p.body.matcher call)))
    (depth : Nat) (name : String) : C name (g.matcher depth name) := by
  induction depth generalizing name with
  | zero =>
    rw [matcher]
    cases hfind : g.find? name with
    | none => exact unknown name hfind
    | some p => exact tooDeep name
  | succ depth ih =>
    rw [matcher]
    cases hfind : g.find? name with
    | none => exact unknown name hfind
    | some p => exact production _ ih name p hfind

end SqlStatement.Grammar

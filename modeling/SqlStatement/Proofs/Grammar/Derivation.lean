import SqlStatement.Grammar
import SqlStatement.Match.Combinator

namespace SqlStatement

/-- A node over a range of tokens, if there are any. -/
def Tree.covering (label : Tree.Label) (start stop : Nat) (children : List Tree) : List Tree :=
  if start < stop then [.node label ⟨start, stop⟩ children] else []

/-- There is no node exactly where there are no tokens. -/
theorem Tree.covering_eq_nil {label : Tree.Label} {i j : Nat} {children : List Tree} (hle : i ≤ j) :
    Tree.covering label i j children = [] ↔ i = j := by
  unfold Tree.covering
  split <;> simp <;> omega

namespace Grammar

/-- What is derived: a term, terms in order, one turn of a repetition, or all of its
    turns. Each turn but the first starts with the separator. -/
inductive Part where
  | term (t : Term)
  | terms (ts : List Term)
  | turn (item : Sequence) (separator : Option Sequence)
  | turns (item : Sequence) (separator : Option Sequence) (first : Bool) (count : Nat)

/-- The trees of a part over the tokens from `start` to `stop`. A part without
    tokens has none. Where a sequence commits and which candidate an alternation
    prefers is ignored, so this says what may be matched and not what is. -/
inductive Derives (g : Grammar) (tokens : Array Token) : Part → Nat → Nat → List Tree → Prop
  | leaf {l : Leaf} {t : Token} {i : Nat} (htoken : tokens[i]? = some t)
      (haccepts : l.accepts t = true) :
      Derives g tokens (.term (.leaf l)) i (i + 1) [.leaf l.role i]
  | production {name : String} {p : Production} {i j : Nat} {trees : List Tree}
      (hfind : g.find? name = some p) (hbody : Derives g tokens (.terms p.body.terms) i j trees) :
      Derives g tokens (.term (.production name)) i j (Tree.covering (.production name) i j trees)
  | skip {body : Sequence} {i : Nat} : Derives g tokens (.term (.optional body)) i i []
  | optional {body : Sequence} {i j : Nat} {trees : List Tree}
      (hbody : Derives g tokens (.terms body.terms) i j trees) :
      Derives g tokens (.term (.optional body)) i j (Tree.covering .optional i j trees)
  | alternation {candidates : List Sequence} {branch : Nat} {s : Sequence} {i j : Nat}
      {trees : List Tree} (hbranch : candidates[branch]? = some s)
      (hbody : Derives g tokens (.terms s.terms) i j trees) :
      Derives g tokens (.term (.alternation candidates)) i j
        (Tree.covering (.alternation branch) i j trees)
  | repetition {item : Sequence} {separator : Option Sequence} {least count i j : Nat}
      {trees : List Tree} (hleast : least ≤ count)
      (hturns : Derives g tokens (.turns item separator true count) i j trees) :
      Derives g tokens (.term (.repetition item separator least)) i j
        (Tree.covering .repetition i j trees)
  | breakpoint {i : Nat} : Derives g tokens (.term .breakpoint) i i []
  | nil {i : Nat} : Derives g tokens (.terms []) i i []
  | cons {t : Term} {ts : List Term} {i j k : Nat} {front rest : List Tree}
      (hterm : Derives g tokens (.term t) i j front)
      (hrest : Derives g tokens (.terms ts) j k rest) :
      Derives g tokens (.terms (t :: ts)) i k (front ++ rest)
  | bare {item : Sequence} {i j : Nat} {trees : List Tree}
      (hitem : Derives g tokens (.terms item.terms) i j trees) :
      Derives g tokens (.turn item none) i j (Tree.covering .item i j trees)
  | separated {item separator : Sequence} {i j k : Nat} {front trees : List Tree}
      (hseparator : Derives g tokens (.terms separator.terms) i j front)
      (hitem : Derives g tokens (.terms item.terms) j k trees) :
      Derives g tokens (.turn item (some separator)) i k
        (Tree.covering .separator i j front ++ Tree.covering .item j k trees)
  | stop {item : Sequence} {separator : Option Sequence} {first : Bool} {i : Nat} :
      Derives g tokens (.turns item separator first 0) i i []
  | next {item : Sequence} {separator : Option Sequence} {first : Bool} {count i j k : Nat}
      {front rest : List Tree}
      (hturn : Derives g tokens (.turn item (if first then none else separator)) i j front)
      (hprogress : i < j) (hrest : Derives g tokens (.turns item separator false count) j k rest) :
      Derives g tokens (.turns item separator first (count + 1)) i k (front ++ rest)

/-- The words of a part, with one rule for each kind of term. -/
inductive Produces (g : Grammar) : Part → List Token → Prop
  | leaf {l : Leaf} {t : Token} (haccepts : l.accepts t = true) :
      Produces g (.term (.leaf l)) [t]
  | production {name : String} {p : Production} {w : List Token} (hfind : g.find? name = some p)
      (hbody : Produces g (.terms p.body.terms) w) : Produces g (.term (.production name)) w
  | skip {body : Sequence} : Produces g (.term (.optional body)) []
  | optional {body : Sequence} {w : List Token} (hbody : Produces g (.terms body.terms) w) :
      Produces g (.term (.optional body)) w
  | alternation {candidates : List Sequence} {s : Sequence} {w : List Token} (hs : s ∈ candidates)
      (hbody : Produces g (.terms s.terms) w) : Produces g (.term (.alternation candidates)) w
  | repetition {item : Sequence} {separator : Option Sequence} {least count : Nat} {w : List Token}
      (hleast : least ≤ count) (hturns : Produces g (.turns item separator true count) w) :
      Produces g (.term (.repetition item separator least)) w
  | breakpoint : Produces g (.term .breakpoint) []
  | nil : Produces g (.terms []) []
  | cons {t : Term} {ts : List Term} {w v : List Token} (hterm : Produces g (.term t) w)
      (hrest : Produces g (.terms ts) v) : Produces g (.terms (t :: ts)) (w ++ v)
  | bare {item : Sequence} {w : List Token} (hitem : Produces g (.terms item.terms) w) :
      Produces g (.turn item none) w
  | separated {item separator : Sequence} {w v : List Token}
      (hseparator : Produces g (.terms separator.terms) w)
      (hitem : Produces g (.terms item.terms) v) : Produces g (.turn item (some separator)) (w ++ v)
  | stop {item : Sequence} {separator : Option Sequence} {first : Bool} :
      Produces g (.turns item separator first 0) []
  | next {item : Sequence} {separator : Option Sequence} {first : Bool} {count : Nat}
      {w v : List Token} (hturn : Produces g (.turn item (if first then none else separator)) w)
      (hrest : Produces g (.turns item separator false count) v) :
      Produces g (.turns item separator first (count + 1)) (w ++ v)

namespace Derives

variable {g : Grammar} {tokens : Array Token} {part : Part} {i j : Nat} {trees : List Tree}

/-- A derivation goes forwards. The induction is on the derivation, and each of its
    parts does so. -/
theorem start_le_stop (h : Derives g tokens part i j trees) : i ≤ j := by
  induction h with
  | leaf => omega
  | skip | breakpoint | nil | stop => exact Nat.le_refl _
  | production _ _ ih | optional _ ih | alternation _ _ ih | repetition _ _ ih | bare _ ih =>
    exact ih
  | cons _ _ ih ih' | separated _ _ ih ih' | next _ _ _ ih ih' => exact Nat.le_trans ih ih'

/-- And it does not go past the end of the input. Only a leaf gets further, and the
    leaf reads a token that is there. -/
theorem stop_le_size (h : Derives g tokens part i j trees) (hstart : i ≤ tokens.size) :
    j ≤ tokens.size := by
  induction h with
  | leaf htoken =>
    obtain ⟨hlt, _⟩ := Array.getElem?_eq_some_iff.mp htoken
    exact hlt
  | skip | breakpoint | nil | stop => exact hstart
  | production _ _ ih | optional _ ih | alternation _ _ ih | repetition _ _ ih | bare _ ih =>
    exact ih hstart
  | cons _ _ ih ih' | separated _ _ ih ih' | next _ _ _ ih ih' => exact ih' (ih hstart)

variable {k : Nat}

/-- A term leaves no node only where it has matched no token. A node over some
    tokens is never left out. -/
theorem eq_of_nil {t : Term} (h : Derives g tokens (.term t) i j []) : i = j := by
  have hle := h.start_le_stop
  generalize hnil : ([] : List Tree) = trees at h
  cases h with
  | leaf => cases hnil
  | skip | breakpoint => rfl
  | production | optional | alternation | repetition =>
    exact (Tree.covering_eq_nil hle).mp hnil.symm

/-- A term that has matched no token leaves no node. Its node would cover no token,
    and is left out. -/
theorem nil_of_eq {t : Term} (h : Derives g tokens (.term t) i j trees) (hij : i = j) :
    trees = [] := by
  have hle := h.start_le_stop
  cases h with
  | leaf => omega
  | skip | breakpoint => rfl
  | production | optional | alternation | repetition => exact (Tree.covering_eq_nil hle).mpr hij

/-- Two ranges of tokens side by side are one range. -/
theorem extract_append_extract (tokens : Array Token) (hij : i ≤ j) (hjk : j ≤ k) :
    (tokens.extract i j).toList ++ (tokens.extract j k).toList = (tokens.extract i k).toList := by
  rw [← Array.toList_append, Array.extract_append_extract, Nat.min_eq_left hij,
    Nat.max_eq_right hjk]

/-- What has trees over a range of tokens has the tokens as a word. The induction is
    on the derivation. -/
theorem produces (h : Derives g tokens part i j trees) :
    Produces g part (tokens.extract i j).toList := by
  induction h with
  | @leaf l t i htoken haccepts =>
    obtain ⟨hlt, heq⟩ := Array.getElem?_eq_some_iff.mp htoken
    have hword : (tokens.extract i (i + 1)).toList = [t] := by
      rw [Array.extract_succ_right (Nat.lt_succ_self i) hlt, heq]
      simp
    rw [hword]
    exact .leaf haccepts
  | skip => simpa using .skip
  | breakpoint => simpa using .breakpoint
  | nil => simpa using .nil
  | stop => simpa using .stop
  | production hfind _ ih => exact .production hfind ih
  | optional _ ih => exact .optional ih
  | alternation hbranch _ ih => exact .alternation (List.mem_of_getElem? hbranch) ih
  | repetition hleast _ ih => exact .repetition hleast ih
  | bare _ ih => exact .bare ih
  | cons hterm hrest ih ih' =>
    rw [← extract_append_extract tokens hterm.start_le_stop hrest.start_le_stop]
    exact .cons ih ih'
  | separated hseparator hitem ih ih' =>
    rw [← extract_append_extract tokens hseparator.start_le_stop hitem.start_le_stop]
    exact .separated ih ih'
  | next hturn _ hrest ih ih' =>
    rw [← extract_append_extract tokens hturn.start_le_stop hrest.start_le_stop]
    exact .next ih ih'

end Derives

end Grammar

end SqlStatement

import SqlStatement.Match.Table
import SqlStatement.Proofs.Match.Settles

namespace SqlStatement.Grammar

variable {g : Grammar} {c : Context} {i j k : Nat}

/-- What a term settles to, with the productions of a table to refer to. -/
def Term.Settles (g : Grammar) (c : Context) (t : Term) (start : Nat) (found : Option (List Tree))
    (stop : Nat) : Prop :=
  Matcher.Settles c start (fun d => t.matcher (g.matcher d)) found stop

/-- What a sequence settles to, with the productions of a table to refer to. -/
def Sequence.Settles (g : Grammar) (c : Context) (s : Sequence) (start : Nat)
    (found : Option (Bool × List Tree)) (stop : Nat) : Prop :=
  Matcher.Settles c start (fun d => s.matcher (g.matcher d)) found stop

/-- Terms in order that all match, with the number of those that get past a token. -/
inductive Walk (g : Grammar) (c : Context) : Nat → List Term → List Tree → Nat → Nat → Prop
  | nil {i : Nat} : Walk g c i [] [] 0 i
  | cons {t : Term} {ts : List Term} {i j k gain : Nat} {nodes more : List Tree}
      (hterm : t.Settles g c i (some nodes) j) (hrest : Walk g c j ts more gain k) :
      Walk g c i (t :: ts) (nodes ++ more) ((if i < j then 1 else 0) + gain) k

namespace Walk

open Matcher (steps)

/-- A term that gets past a token counts towards the commitment of its sequence. -/
theorem step {t : Term} {ts : List Term} {nodes more : List Tree} {gain : Nat} (hlt : i < j)
    (hterm : t.Settles g c i (some nodes) j) (hrest : Walk g c j ts more gain k) :
    Walk g c i (t :: ts) (nodes ++ more) (gain + 1) k := by
  have h := Walk.cons hterm hrest
  rw [if_pos hlt, Nat.add_comm] at h
  exact h

/-- A term that matches nothing does not count, and leaves no nodes. -/
theorem skip {t : Term} {ts : List Term} {more : List Tree} {gain : Nat}
    (hterm : t.Settles g c i (some []) i) (hrest : Walk g c i ts more gain k) :
    Walk g c i (t :: ts) more gain k := by
  have h := Walk.cons hterm hrest
  rw [if_neg (Nat.lt_irrefl i), Nat.zero_add] at h
  exact h

/-- What is earned by the end decides, whenever the commitment came. A sequence can
    tell from the sum alone whether it has committed. -/
theorem earned_gain (committed : Bool) (threshold earned gain : Nat) :
    (committed || decide (threshold ≤ earned + ((if i < j then 1 else 0) + gain))) =
      (committed || decide (threshold ≤ earned) ||
        decide (threshold ≤ (if i < j then earned + 1 else earned) + gain)) := by
  rw [Bool.or_assoc, ← Bool.decide_or]
  congr 2
  apply propext
  split <;> constructor <;> omega

/-- Steps that all match commit once they have earned enough. What they have earned
    before and whether they have committed already are arbitrary, for the induction
    along the walk. -/
theorem settles_steps {ts : List Term} {nodes : List Tree} {gain : Nat}
    (h : Walk g c i ts nodes gain j) (threshold earned : Nat) (committed : Bool) :
    Matcher.Settles c i (fun d => steps threshold (termMatchers (g.matcher d) ts) earned committed)
      (some (.finished (committed || decide (threshold ≤ earned + gain)) nodes)) j := by
  induction h generalizing earned committed with
  | nil => exact ⟨_, 0, .steps_nil⟩
  | @cons t ts i j k gain nodes more hterm _ ih =>
    rw [earned_gain]
    obtain ⟨levels, cost, cost', hterm, hrest⟩ := hterm.both (ih ..)
    exact ⟨_, levels, .steps_cons hterm hrest⟩

/-- Steps get stuck at the first term that fails. They are committed or not by what
    the terms in front of it have earned. -/
theorem settles_stuck {front : List Term} {t : Term} {nodes : List Tree} {gain : Nat}
    (h : Walk g c i front nodes gain j) (ht : t.Settles g c j none j) (rest : List Term)
    (threshold earned : Nat) (committed : Bool) :
    Matcher.Settles c i
      (fun d => steps threshold (termMatchers (g.matcher d) (front ++ t :: rest)) earned committed)
      (some (.stuck (committed || decide (threshold ≤ earned + gain)))) j := by
  induction h generalizing earned committed with
  | nil =>
    obtain ⟨cost, levels, ht⟩ := ht
    exact ⟨cost, levels, .steps_stuck ht⟩
  | @cons u ts i j k gain nodes more hterm _ ih =>
    rw [earned_gain]
    obtain ⟨levels, cost, cost', hterm, hrest⟩ := hterm.both (ih ht ..)
    exact ⟨_, levels, .steps_cons hterm hrest⟩

end Walk

namespace Sequence

/-- A sequence whose terms all match settles to their nodes, and has committed if
    enough of them have got past a token. -/
theorem settles_of_walk {ts : List Term} {gain : Nat} {nodes : List Tree}
    (h : Walk g c i ts nodes gain j) (commit : Nat) :
    Settles g c ⟨ts, commit⟩ i (some (decide (commit ≤ gain), nodes)) j := by
  have hsteps := h.settles_steps commit 0 false
  rw [Bool.false_or, Nat.zero_add] at hsteps
  obtain ⟨cost, levels, hsteps⟩ := hsteps
  exact ⟨cost, levels, .sequence hsteps⟩

/-- A sequence that gets stuck before it commits goes back to its start and settles
    to nothing. -/
theorem settles_stuck {front : List Term} {t : Term} {commit gain : Nat} {nodes : List Tree}
    (h : Walk g c i front nodes gain j) (ht : t.Settles g c j none j) (rest : List Term)
    (hgain : gain < commit) : Settles g c ⟨front ++ t :: rest, commit⟩ i none i := by
  have hsteps := h.settles_stuck ht rest commit 0 false
  rw [Bool.false_or, Nat.zero_add, decide_eq_false (Nat.not_le.mpr hgain)] at hsteps
  obtain ⟨cost, levels, hsteps⟩ := hsteps
  exact ⟨cost, levels, .sequence_stuck hsteps⟩

/-- The usual case of it: the first term fails, and the sequence asks for at least
    one that consumes a token. -/
theorem settles_none {t : Term} {rest : List Term} {commit : Nat} (ht : t.Settles g c i none i)
    (hcommit : 0 < commit) : Settles g c ⟨t :: rest, commit⟩ i none i :=
  settles_stuck .nil ht rest hcommit

end Sequence

/-- Behind candidates that fail, the first one that commits is taken, and the ones
    behind it are not tried. Candidates that match without committing are not
    covered here. -/
theorem choose_settles {front : List Sequence} {s : Sequence} {nodes : List Tree}
    (hfront : ∀ s ∈ front, s.Settles g c i none i) (hs : s.Settles g c i (some (true, nodes)) j)
    (rest : List Sequence) (branch : Nat) :
    Matcher.Settles c i
      (fun d => Matcher.choose i (candidateMatchers (g.matcher d) (front ++ s :: rest)) branch none)
      (some (Tree.covering (.alternation (branch + front.length)) i j nodes)) j := by
  induction front generalizing branch with
  | nil =>
    obtain ⟨cost, levels, hs⟩ := hs
    exact ⟨cost, levels, .choose_committed hs⟩
  | cons first front ih =>
    obtain ⟨hfirst, hfront⟩ := List.forall_mem_cons.mp hfront
    have hlength : branch + (first :: front).length = branch + 1 + front.length := by
      rw [List.length_cons]
      omega
    rw [hlength]
    obtain ⟨levels, cost, cost', hfirst, hmore⟩ := hfirst.both (ih hfront (branch + 1))
    exact ⟨_, levels, .choose_failed hfirst hmore⟩

/-- What a turn of a repetition starts with. -/
def opening (item : Sequence) : Option Sequence → Sequence
  | none => item
  | some separator => separator

/-- The turns of a repetition, up to the one that is not taken. -/
inductive Turns (g : Grammar) (c : Context) (item : Sequence) (separator : Option Sequence) :
    Bool → Nat → Nat → List Tree → Nat → Prop
  | stop {first : Bool} {i : Nat}
      (h : (opening item (if first then none else separator)).Settles g c i none i) :
      Turns g c item separator first i 0 [] i
  | bare {first committed : Bool} {count i j k : Nat} {nodes more : List Tree}
      (hnone : (if first then none else separator) = none) (hlt : i < j) (hle : j ≤ c.tokens.size)
      (hitem : item.Settles g c i (some (committed, nodes)) j)
      (hrest : Turns g c item separator false j count more k) :
      Turns g c item separator first i (count + 1) (Tree.covering .item i j nodes ++ more) k
  | separated {committed committed' : Bool} {count i m j k : Nat} {s : Sequence}
      {front nodes more : List Tree} (hsome : separator = some s) (hlt : i < j)
      (hle : j ≤ c.tokens.size) (hseparator : s.Settles g c i (some (committed, front)) m)
      (hitem : item.Settles g c m (some (committed', nodes)) j)
      (hrest : Turns g c item separator false j count more k) :
      Turns g c item separator false i (count + 1)
        (Tree.covering .separator i m front ++ Tree.covering .item m j nodes ++ more) k

theorem Turns.empty {item : Sequence} (separator : Option Sequence)
    (h : item.Settles g c i none i) : Turns g c item separator true i 0 [] i :=
  .stop h

/-- Without a separator the first turn is like the others. So the rest of such a
    repetition is a repetition. -/
theorem Turns.of_bare {item : Sequence} {first : Bool} {count : Nat} {nodes : List Tree}
    (h : Turns g c item none first i count nodes j) (first' : Bool) :
    Turns g c item none first' i count nodes j := by
  cases h with
  | stop h =>
    apply Turns.stop
    simpa using h
  | bare _ hlt hle hitem hrest => exact .bare (by simp) hlt hle hitem hrest
  | separated hsome => cases hsome

/-- The turns of a repetition, one after the other, with the charge for each and for
    the last attempt that fails. -/
theorem Turns.settles {item : Sequence} {separator : Option Sequence} {first : Bool} {count : Nat}
    {nodes : List Tree} (h : Turns g c item separator first i count nodes j) :
    Matcher.Settles c i (fun d => Matcher.iterate (item.matcher (g.matcher d))
      (separator.map (·.matcher (g.matcher d))) first) (some (count, nodes)) j := by
  induction h with
  | @stop first i h =>
    obtain ⟨cost, levels, h⟩ := h
    refine ⟨1 + cost, levels, .iterate_over (.iteration_over ?_)⟩
    cases first with
    | true => exact .turn_over h
    | false =>
      cases separator with
      | none => exact .turn_over h
      | some s => exact .turn_separated_over h
  | @bare first committed count i j k nodes more hnone hlt hle hitem _ ih =>
    have hbare (d : Nat) : (if first then none else separator.map (·.matcher (g.matcher d))) =
        none := by
      cases first <;> simp_all
    obtain ⟨levels, cost, cost', hitem, hrest⟩ := hitem.both ih
    refine ⟨1 + cost + cost', levels, .iterate_next hlt hle (.iteration ?_) hrest⟩
    simp only [hbare]
    exact .turn hitem
  | separated hsome hlt hle hseparator hitem _ ih =>
    subst hsome
    obtain ⟨levels, cost, cost', hseparator, hitem⟩ := hseparator.both hitem
    have hturn : Matcher.Settles c _ (fun d => Matcher.iteration (item.matcher (g.matcher d))
        (some (Sequence.matcher (g.matcher d) _))) _ _ :=
      ⟨_, levels, .iteration (.turn_separated hseparator hitem)⟩
    obtain ⟨levels, cost, cost', hturn, hrest⟩ := hturn.both ih
    exact ⟨_, levels, .iterate_next hlt hle hturn hrest⟩

namespace Term

theorem settles_leaf {l : Leaf} {t : Token} (htoken : c.tokens[i]? = some t)
    (hl : l.accepts t = true) :
    Settles g c (.leaf l) i (some [.leaf l.role i]) (i + 1) :=
  .charged (.of_free (.leaf_accepts htoken hl))

theorem settles_leaf_none {l : Leaf} (hl : ∀ t, c.tokens[i]? = some t → l.accepts t = false) :
    Settles g c (.leaf l) i none i :=
  .charged (.of_free (.leaf_rejects hl))

/-- A breakpoint never stands in the way. -/
theorem settles_breakpoint : Settles g c .breakpoint i (some []) i :=
  .charged (.of_free .breakpoint)

/-- An alternation settles to its first candidate that commits, with the number of
    that candidate in the label of the node. -/
theorem settles_alternation {front rest : List Sequence} {s : Sequence} {nodes : List Tree}
    (hfront : ∀ s ∈ front, s.Settles g c i none i) (hs : s.Settles g c i (some (true, nodes)) j) :
    Settles g c (.alternation (front ++ s :: rest)) i
      (some (Tree.covering (.alternation front.length) i j nodes)) j := by
  have hchoose := choose_settles hfront hs rest 0
  rw [Nat.zero_add] at hchoose
  obtain ⟨cost, levels, hchoose⟩ := hchoose
  exact .charged ⟨cost, levels, .free_bind .position hchoose⟩

/-- The matcher of a repetition, with its separator as an option of matchers. -/
theorem matcher_repetition (call : String → Matcher Tree) (item : Sequence)
    (separator : Option Sequence) (least : Nat) :
    (Term.repetition item separator least).matcher call = (do
      Matcher.charge
      Matcher.repetition (item.matcher call) (separator.map (·.matcher call)) least) := by
  cases separator <;> rfl

/-- A repetition with enough turns settles to a node over all of them. What the
    turns cost, one more than there are of them, is part of its cost. -/
theorem settles_repetition {item : Sequence} {separator : Option Sequence} {least count : Nat}
    {nodes : List Tree} (hleast : least ≤ count)
    (h : Turns g c item separator true i count nodes j) :
    Settles g c (.repetition item separator least) i
      (some (Tree.covering .repetition i j nodes)) j := by
  unfold Settles
  simp only [matcher_repetition]
  obtain ⟨cost, levels, hturns⟩ := h.settles
  exact .charged ⟨cost, levels, .repetition hleast hturns⟩

/-- A repetition without any turn leaves nothing behind. -/
theorem settles_repetition_empty {item : Sequence} {separator : Option Sequence}
    (h : item.Settles g c i none i) :
    Settles g c (.repetition item separator 0) i (some []) i := by
  have hrepetition := settles_repetition (Nat.le_refl 0) (Turns.empty separator h)
  rw [(Tree.covering_eq_nil (Nat.le_refl i)).mpr rfl] at hrepetition
  exact hrepetition

end Term

section Call

variable {name : String} {p : Production}

/-- A production ends with a tree over what its body covers, one level further out.
    Fuel is spent by the body only. -/
theorem spends_call (hfind : g.find? name = some p) {levels cost : Nat} {committed : Bool}
    {nodes : List Tree}
    (h : Matcher.Spends { c with stack := name :: c.stack } levels cost i
      (fun d => p.body.matcher (g.matcher d)) (some (committed, nodes)) j) :
    Matcher.Spends c (levels + 1) cost i (fun d => g.matcher d name)
      (some (.node (.production name) ⟨i, j⟩ nodes)) j := by
  obtain rfl := name_of_find? hfind
  refine .succ (fun d => ?_) (.production p h)
  rw [matcher, hfind]

/-- A production whose body fails fails, at the same cost. -/
theorem spends_call_none (hfind : g.find? name = some p) {levels cost : Nat}
    (h : Matcher.Spends { c with stack := name :: c.stack } levels cost i
      (fun d => p.body.matcher (g.matcher d)) none j) :
    Matcher.Spends c (levels + 1) cost i (fun d => g.matcher d name) none j := by
  obtain rfl := name_of_find? hfind
  refine .succ (fun d => ?_) (.production_failed p h)
  rw [matcher, hfind]

/-- A production settles to a tree over what its body covers. -/
theorem settles_call (hfind : g.find? name = some p) {committed : Bool} {nodes : List Tree}
    (h : p.body.Settles g { c with stack := name :: c.stack } i (some (committed, nodes)) j) :
    Matcher.Settles c i (fun d => g.matcher d name)
      (some (.node (.production name) ⟨i, j⟩ nodes)) j := by
  obtain ⟨cost, levels, h⟩ := h
  exact ⟨cost, levels + 1, spends_call hfind h⟩

/-- A reference costs one more than the production, and leaves out the tree of a
    production that matches nothing. -/
theorem Term.spends_production {levels cost : Nat} {tree : Tree}
    (h : Matcher.Spends c levels cost i (fun d => g.matcher d name) (some tree) j) :
    Matcher.Spends c levels (1 + cost) i (fun d => (production name).matcher (g.matcher d))
      (some (if tree.span.isEmpty then [] else [tree])) j :=
  .bind .charge (.bind_free h fun _ => .pure _)

/-- A reference to a production that fails costs one more than the failure. -/
theorem Term.spends_production_none {levels cost : Nat}
    (h : Matcher.Spends c levels cost i (fun d => g.matcher d name) none j) :
    Matcher.Spends c levels (1 + cost) i (fun d => (production name).matcher (g.matcher d)) none
      j :=
  .bind .charge (.bind_failed h)

/-- A reference to a production that gets past a token settles to its tree. It is
    not left out, since it covers a token. -/
theorem Term.settles_production {tree : Tree} (hspan : tree.span = ⟨i, j⟩) (hlt : i < j)
    (h : Matcher.Settles c i (fun d => g.matcher d name) (some tree) j) :
    Settles g c (.production name) i (some [tree]) j := by
  have hempty : tree.span.isEmpty = false := by
    rw [hspan]
    simpa [Span.isEmpty] using Nat.ne_of_lt hlt
  obtain ⟨cost, levels, h⟩ := h
  have hspends := Term.spends_production h
  rw [hempty] at hspends
  exact ⟨_, levels, hspends⟩

end Call

end SqlStatement.Grammar

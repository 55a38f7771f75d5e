import SqlStatement.Parser
import SqlStatement.Proofs.Grammar.Derivation
import SqlStatement.Proofs.Match.Ensures
import SqlStatement.Proofs.Match.Fold
import SqlStatement.Sqlite

namespace SqlStatement

open Grammar (Derives Leaf Part Sequence Term)

namespace Matcher

variable {α : Type} {g : Grammar} {tokens : Array Token}

/-- A matcher over the tokens matches what `D` says, from where it starts to where
    it stops, and fails only where it has started. -/
def Realizes (tokens : Array Token) (D : Nat → Nat → α → Prop) (m : Matcher α) : Prop :=
  ∀ (c : Context) (i : Nat), c.tokens = tokens → i ≤ tokens.size →
    m.Ensures c i (fun a j => D i j a) (· = i)

/-- A matcher of a term matches what the term derives, with the trees of the
    derivation. -/
abbrev RealizesTerm (g : Grammar) (tokens : Array Token) (t : Term) (m : Matcher (List Tree)) :
    Prop :=
  m.Realizes tokens (Derives g tokens (.term t))

/-- A matcher of a sequence matches what its terms derive in order. -/
abbrev RealizesSequence (g : Grammar) (tokens : Array Token) (s : Sequence)
    (m : Matcher (Bool × List Tree)) : Prop :=
  m.Realizes tokens fun i j x => Derives g tokens (.terms s.terms) i j x.2

/-- A leaf matches the token that it derives a leaf from. Where it fails it has not
    moved. -/
theorem realizes_leaf (l : Leaf) : RealizesTerm g tokens (.leaf l) (leaf l) := by
  rintro c i rfl - s rfl
  by_cases haccepts : ∃ t, c.tokens[s.position]? = some t ∧ l.accepts t = true
  · obtain ⟨t, htoken, hacc⟩ := haccepts
    obtain ⟨houtcome, hstate, -⟩ := run_leaf_accepts htoken hacc
    rw [houtcome, hstate]
    exact .leaf htoken hacc
  · have hrejects (t : Token) (htoken : c.tokens[s.position]? = some t) : l.accepts t = false := by
      by_contra hacc
      exact haccepts ⟨t, htoken, by simpa using hacc⟩
    obtain ⟨houtcome, hstate, -⟩ := run_leaf_misses hrejects
    rw [houtcome, hstate]
    exact rfl

/-- Nodes that satisfy `P`, unless the steps got stuck. -/
def Ending.Finishes (P : List Tree → Prop) : Ending → Prop
  | .finished _ nodes => P nodes
  | .stuck _ => True

/-- Nodes in front of a finished ending. -/
theorem Ending.finishes_prepend {P Q : List Tree → Prop} {nodes : List Tree} {ending : Ending}
    (h : ending.Finishes P) (himp : ∀ more, P more → Q (nodes ++ more)) :
    (ending.prepend nodes).Finishes Q := by
  cases ending with
  | finished committed more => exact himp more h
  | stuck committed => trivial

/-- Steps that finish have derived their terms in order, and they never fail
    themselves. -/
theorem steps_ensures {ts : List Term} {ms : List (Matcher (List Tree))}
    (hms : List.Forall₂ (RealizesTerm g tokens) ts ms) (threshold earned : Nat) (committed : Bool)
    {c : Context} {i : Nat} (hc : c.tokens = tokens) (hi : i ≤ tokens.size) :
    (steps threshold ms earned committed).Ensures c i
      (fun ending j => ending.Finishes (Derives g tokens (.terms ts) i j)) (fun _ => False) := by
  induction hms generalizing earned committed i with
  | nil => exact .bind (.commitAt fun _ => .pure .nil)
  | @cons t m ts ms hterm _ ih =>
    refine .bind (.checkPatience (.bind (.commitAt fun committed => ?_)))
    refine .bind (.position (.bind (.attempt ?_)))
    refine (hterm c i hc hi).imp (fun nodes j hnodes => ?_) (fun j _ => .pure trivial)
    have hj := hnodes.stop_le_size hi
    refine .bind (.position (.bind ?_))
    refine (ih _ committed hj).imp (fun ending k hending => .pure ?_) (fun _ => False.elim)
    exact Ending.finishes_prepend hending fun more hmore => .cons hnodes hmore

/-- A sequence that does not get through its terms goes back to where it started. If
    it has committed it aborts instead, of which nothing is said. -/
theorem realizes_sequence {ts : List Term} {ms : List (Matcher (List Tree))}
    (hms : List.Forall₂ (RealizesTerm g tokens) ts ms) (commit : Nat) :
    RealizesSequence g tokens ⟨ts, commit⟩ (sequence commit ms) := by
  intro c i hc hi
  refine .bind (.position (.bind (.listen ?_)))
  refine (steps_ensures hms commit 0 false hc hi).imp (fun ending j hending misses => ?_)
    (fun _ => False.elim)
  match ending with
  | .finished committed nodes => exact .pure hending
  | .stuck true => exact .blame misses
  | .stuck false => exact .bind (.backtrack (.fail rfl))

/-- An optional part derives its body or nothing. A body that fails is back where it
    started, where nothing is derived. -/
theorem realizes_optional {body : Sequence} {m : Matcher (Bool × List Tree)}
    (hbody : RealizesSequence g tokens body m) :
    RealizesTerm g tokens (.optional body) (optional m) := by
  intro c i hc hi
  refine .bind (.position (.bind (.attempt ?_)))
  refine (hbody c i hc hi).imp (fun x j hx => ?_) (fun j hj => ?_)
  · exact .wrap (.optional hx)
  · subst hj
    exact .pure .skip

/-- What the candidates tried so far leave to fall back on is a derivation of the
    alternation. -/
def Provisional.Realizes (g : Grammar) (tokens : Array Token) (candidates : List Sequence)
    (start : Nat) (b : Provisional) : Prop :=
  ∃ s, candidates[b.branch]? = some s ∧ Derives g tokens (.terms s.terms) start b.stop b.nodes

/-- The rest of an alternation derives the whole of it, from where the alternation
    started. The best candidate so far is known to be a derivation, and without one
    nothing has moved. -/
theorem choose_ensures {candidates remaining : List Sequence}
    {ms : List (Matcher (Bool × List Tree))}
    (hms : List.Forall₂ (RealizesSequence g tokens) remaining ms) {branch : Nat}
    (hremaining : candidates.drop branch = remaining) {best : Option Provisional} {c : Context}
    {start i : Nat} (hc : c.tokens = tokens) (hstart : start ≤ tokens.size)
    (hbest : ∀ b ∈ best, b.Realizes g tokens candidates start) (hi : best = none → i = start) :
    (choose start ms branch best).Ensures c i
      (fun nodes j => Derives g tokens (.term (.alternation candidates)) start j nodes)
      (· = start) := by
  induction hms generalizing branch best i with
  | nil =>
    cases best with
    | none => exact .fail (hi rfl)
    | some best =>
      obtain ⟨s, hbranch, hbody⟩ := hbest best rfl
      exact .bind (.seek (.wrap (.alternation hbranch hbody)))
  | @cons s m remaining ms hcandidate _ ih =>
    have hbranch : candidates[branch]? = some s := by
      rw [← List.head?_drop, hremaining, List.head?_cons]
    have hrest : candidates.drop (branch + 1) = remaining := by
      rw [← List.tail_drop, hremaining, List.tail_cons]
    refine .bind (.seek (.bind (.context (.bind (.report (.bind (.attempt ?_)))))))
    refine (hcandidate c start hc hstart).imp (fun x j hx => ?_) (fun j hj => ?_)
    · match x with
      | (true, nodes) => exact .wrap (.alternation hbranch hx)
      | (false, nodes) =>
        refine .bind (.position (ih hrest ?_ nofun))
        intro b hb
        have hnew : Provisional.Realizes g tokens candidates start ⟨j, branch, nodes⟩ :=
          ⟨s, hbranch, hx⟩
        cases hb
        cases best with
        | none => exact hnew
        | some old =>
          unfold Provisional.better
          dsimp only
          split
          · exact hnew
          · exact hbest old rfl
    · exact ih hrest hbest fun _ => hj

/-- An alternation derives what one of its candidates derives. -/
theorem realizes_alternation {candidates : List Sequence} {ms : List (Matcher (Bool × List Tree))}
    (hms : List.Forall₂ (RealizesSequence g tokens) candidates ms) :
    RealizesTerm g tokens (.alternation candidates) (alternation ms) := by
  intro c i hc hi
  exact .bind (.position (choose_ensures hms List.drop_zero hc hi nofun fun _ => rfl))

section Repetition

variable {item : Sequence} {separator : Option Sequence} {m : Matcher (Bool × List Tree)}
  {ms : Option (Matcher (Bool × List Tree))}

/-- A turn that is over stays where it was, and any other has the trees of a
    derivation. -/
def Turn.Realizes (i j : Nat) (D : Nat → Nat → List Tree → Prop) : Turn → Prop
  | .over => j = i
  | .itemMissing => True
  | .next nodes => D i j nodes

/-- A turn derives an item, behind a separator if there is one. One that is over is
    back where it started. -/
theorem turn_ensures (hitem : RealizesSequence g tokens item m)
    (hseparator : Option.Rel (RealizesSequence g tokens) separator ms) {c : Context} {i : Nat}
    (hc : c.tokens = tokens) (hi : i ≤ tokens.size) :
    (turn m ms).Ensures c i
      (fun ending j => ending.Realizes i j (Derives g tokens (.turn item separator)))
      (fun _ => False) := by
  cases hseparator with
  | none =>
    refine .bind (.position (.bind (.attempt ?_)))
    refine (hitem c i hc hi).imp (fun x j hx => ?_) (fun j hj => .pure hj)
    exact .bind (.wrap (.pure (.bare hx)))
  | some hseparator =>
    refine .bind (.position (.bind (.attempt ?_)))
    refine (hseparator c i hc hi).imp (fun x j hx => ?_) (fun j hj => .pure hj)
    have hj := hx.stop_le_size hi
    refine .bind (.wrap (.bind (.position (.bind (.attempt ?_)))))
    refine (hitem c j hc hj).imp (fun y k hy => ?_) (fun k _ => .pure trivial)
    exact .bind (.wrap (.pure (.separated hx hy)))

/-- The same behind the test and the charge; a turn that misses its item has no
    value. -/
theorem iteration_ensures (hitem : RealizesSequence g tokens item m)
    (hseparator : Option.Rel (RealizesSequence g tokens) separator ms) {c : Context} {i : Nat}
    (hc : c.tokens = tokens) (hi : i ≤ tokens.size) :
    (iteration m ms).Ensures c i
      (fun found j => match found with
        | none => j = i
        | some nodes => Derives g tokens (.turn item separator) i j nodes)
      (fun _ => False) := by
  refine .bind (.checkPatience (.bind (.charge (.bind (.listen ?_)))))
  refine (turn_ensures hitem hseparator hc hi).imp (fun ending j hending misses => ?_)
    (fun _ => False.elim)
  match ending with
  | .over => exact .pure hending
  | .itemMissing => exact .blame misses
  | .next nodes => exact .pure hending

/-- The turns of a repetition derive as many items as are counted. The induction is
    on the tokens that are left, since every turn that goes on gets further. -/
theorem iterate_ensures (hitem : RealizesSequence g tokens item m)
    (hseparator : Option.Rel (RealizesSequence g tokens) separator ms) (first : Bool) {c : Context}
    {i : Nat} (hc : c.tokens = tokens) (hi : i ≤ tokens.size) :
    Ensures c i (iterate m ms first)
      (fun x j => Derives g tokens (.turns item separator first x.1) i j x.2) (fun _ => False) := by
  subst hc
  rintro s rfl
  -- Each turn that goes on comes closer to the end of the tokens.
  induction hleft : c.tokens.size - s.position using Nat.strongRecOn generalizing s first with
  | _ left ih =>
    have hturn : (iteration m (if first then none else ms)).Ensures c s.position
        (fun found j => match found with
          | none => j = s.position
          | some nodes => Derives g c.tokens (.turn item (if first then none else separator))
              s.position j nodes)
        (fun _ => False) := by
      cases first with
      | true => exact iteration_ensures hitem .none rfl hi
      | false => exact iteration_ensures hitem hseparator rfl hi
    generalize hr : iteration m (if first then none else ms) c s = r
    cases houtcome : r.outcome with
    | failed => exact (hturn.failed rfl (hr ▸ houtcome)).elim
    | aborted e =>
      rw [run_iterate_aborted hr houtcome]
      trivial
    | matched found =>
      have hfound := hturn.matched rfl (hr ▸ houtcome)
      rw [hr] at hfound
      cases found with
      | none =>
        rw [run_iterate_over hr houtcome]
        have hstop : r.state.position = s.position := hfound
        show Derives g c.tokens _ _ r.state.position _
        rw [hstop]
        exact .stop
      | some nodes =>
        have hnodes : Derives g c.tokens (.turn item (if first then none else separator))
          s.position r.state.position nodes := hfound
        have hle := hnodes.start_le_stop
        have hstop := hnodes.stop_le_size hi
        by_cases hprogress : c.tokens.size - r.state.position < c.tokens.size - s.position
        · have hmore := ih _ (hleft ▸ hprogress) false r.state hstop rfl
          rw [run_iterate_next hr houtcome hprogress]
          cases hrest : (iterate m ms false c r.state).outcome with
          | matched x =>
            rw [hrest] at hmore
            exact .next hnodes (by omega) hmore
          | failed =>
            rw [hrest] at hmore
            exact hmore
          | aborted => trivial
        · rw [run_iterate_still hr houtcome hprogress]
          have hsame : r.state.position = s.position := by omega
          show Derives g c.tokens _ _ r.state.position _
          rw [hsame]
          exact .stop

/-- A repetition with enough turns derives them, and one with too few fails where it
    started. -/
theorem realizes_repetition (least : Nat) (hitem : RealizesSequence g tokens item m)
    (hseparator : Option.Rel (RealizesSequence g tokens) separator ms) :
    RealizesTerm g tokens (.repetition item separator least) (repetition m ms least) := by
  intro c i hc hi
  refine .bind (.position (.bind ?_))
  refine (iterate_ensures hitem hseparator true hc hi).imp (fun x j hx => ?_) (fun _ => False.elim)
  obtain ⟨count, nodes⟩ := x
  dsimp only
  split
  · exact .bind (.backtrack (.fail rfl))
  · next hleast => exact .wrap (.repetition (Nat.le_of_not_lt hleast) hx)

end Repetition

/-- A breakpoint derives nothing. -/
theorem realizes_breakpoint : RealizesTerm g tokens .breakpoint breakpoint := by
  rintro c i - - s rfl
  obtain ⟨houtcome, hstate, -⟩ := run_breakpoint c s
  rw [houtcome, hstate]
  exact .breakpoint

/-- The tree of a production over a range of tokens. -/
def DerivesTree (g : Grammar) (tokens : Array Token) (name : String) (i j : Nat) (tree : Tree) :
    Prop :=
  ∃ p nodes, g.find? name = some p ∧ tree = .node (.production name) ⟨i, j⟩ nodes ∧
    Derives g tokens (.terms p.body.terms) i j nodes

/-- A production derives a tree over what its body derives. It is left out by
    references where it covers no token, as in a derivation. -/
theorem realizes_production {name : String} {p : Grammar.Production}
    {body : Matcher (Bool × List Tree)} (hfind : g.find? name = some p)
    (hbody : RealizesSequence g tokens p.body body) :
    (production p body).Realizes tokens (DerivesTree g tokens name) := by
  rintro c i hc hi s rfl
  have hrun := hbody { c with stack := p.name :: c.stack } s.position hc hi
    ⟨s.position, s.fuel, s.patience.map (· - 1)⟩ rfl
  change (runBody p body c s).outcome.Meets
    (fun a => Derives g tokens _ _ (runBody p body c s).state.position a.2)
    ((runBody p body c s).state.position = s.position) at hrun
  rw [run_production_state]
  cases h : (runBody p body c s).outcome with
  | matched x =>
    rw [h] at hrun
    rw [(run_production_matched h).1, Grammar.name_of_find? hfind]
    exact ⟨p, x.2, hfind, rfl, hrun⟩
  | failed =>
    rw [h] at hrun
    rw [(run_production_failed h).1]
    exact hrun
  | aborted e =>
    rw [(run_production_aborted h).1]
    trivial

theorem Realizes.charged {D : Nat → Nat → α → Prop} {m : Matcher α} (h : m.Realizes tokens D) :
    (charge >>= fun _ => m).Realizes tokens D :=
  fun c i hc hi => .bind (.charge (h c i hc hi))

/-- Terms and sequences match what they derive if the productions that they refer to
    do. -/
theorem realizes_fold {call : String → Matcher Tree}
    (hcall : ∀ name, (call name).Realizes tokens (DerivesTree g tokens name)) :
    Grammar.Fold call (RealizesTerm g tokens) (RealizesSequence g tokens) where
  leaf l := (realizes_leaf l).charged
  production name := by
    intro c i hc hi
    refine .bind (.charge (.bind ?_))
    refine (hcall name c i hc hi).imp (fun tree j htree => .pure ?_) (fun _ => id)
    obtain ⟨p, nodes, hfind, rfl, hbody⟩ := htree
    have hle := hbody.start_le_stop
    have hcovering : (if Span.isEmpty ⟨i, j⟩ then []
        else [Tree.node (.production name) ⟨i, j⟩ nodes]) =
        Tree.covering (.production name) i j nodes := by
      unfold Tree.covering Span.isEmpty
      rcases Nat.eq_or_lt_of_le hle with rfl | hlt
      · simp
      · simp [hlt, Nat.ne_of_lt hlt]
    exact hcovering ▸ .production hfind hbody
  optional hbody := (realizes_optional hbody).charged
  alternation hcandidates := (realizes_alternation hcandidates).charged
  repetition least hitem hseparator := (realizes_repetition least hitem hseparator).charged
  breakpoint := realizes_breakpoint.charged
  sequence commit hterms := realizes_sequence hterms commit

/-- Every match is a derivation: what the matcher of a production matches is derived
    by the production, however deep it nests. -/
theorem realizes_matcher (g : Grammar) (tokens : Array Token) (depth : Nat) (name : String) :
    (g.matcher depth name).Realizes tokens (DerivesTree g tokens name) := by
  apply g.matcher_induction (C := fun name m => m.Realizes tokens (DerivesTree g tokens name))
  · exact fun name _ _ _ _ _ => .abort _
  · exact fun name _ _ _ _ => .abort _
  · intro call hcall name p hfind
    exact realizes_production hfind ((realizes_fold hcall).ofSequence p.body)

theorem realizes_termMatcher (g : Grammar) (tokens : Array Token) (depth : Nat) (t : Term) :
    RealizesTerm g tokens t (t.matcher (g.matcher depth)) :=
  (realizes_fold (realizes_matcher g tokens depth)).term t

theorem realizes_sequenceMatcher (g : Grammar) (tokens : Array Token) (depth : Nat)
    (s : Sequence) : RealizesSequence g tokens s (s.matcher (g.matcher depth)) :=
  (realizes_fold (realizes_matcher g tokens depth)).ofSequence s

end Matcher

namespace Parser

/-- The tree of a run is derived from the start of the input. -/
theorem derivesTree_of_run {p : Parser} {purpose : Purpose} {tokens : Array Token} {tree : Tree}
    (hmatched : (p.run purpose tokens).outcome = .matched tree) :
    Matcher.DerivesTree p.grammar tokens p.root 0 (p.run purpose tokens).state.position tree :=
  (Matcher.realizes_matcher p.grammar tokens p.limits.depth p.root ⟨tokens, purpose, []⟩ 0 rfl
    (Nat.zero_le _)).matched rfl hmatched

/-- The tree of a run is a derivation of the root production over the tokens that
    the tree covers, no term of which leaves no node unless it has matched no token.
    So these tokens are a word of the root production. -/
theorem run_derives {p : Parser} {purpose : Purpose} {tokens : Array Token} {tree : Tree}
    (hmatched : (p.run purpose tokens).outcome = .matched tree) :
    ∃ (production : Grammar.Production) (stop : Nat) (nodes : List Tree),
      p.grammar.find? p.root = some production ∧
      tree = .node (.production p.root) ⟨0, stop⟩ nodes ∧
      Derives p.grammar tokens (.terms production.body.terms) 0 stop nodes ∧
      (∀ t i j, Derives p.grammar tokens (.term t) i j [] → i = j) ∧
      p.grammar.Produces (.term (.production p.root)) (tokens.toList.take stop) := by
  obtain ⟨production, nodes, hfind, htree, hbody⟩ := derivesTree_of_run hmatched
  refine ⟨production, _, nodes, hfind, htree, hbody, fun _ _ _ hnil => hnil.eq_of_nil, ?_⟩
  have hword : (tokens.extract 0 (p.run purpose tokens).state.position).toList =
      tokens.toList.take (p.run purpose tokens).state.position := by
    simp
  exact hword ▸ .production hfind hbody.produces

/-- `SELECT 1, 2` is derived by the SQLite table. -/
theorem run_derives_select : ∃ (tree : Tree) (production : Grammar.Production) (stop : Nat)
    (nodes : List Tree), tree.span = ⟨0, 4⟩ ∧
      Sqlite.grammar.find? "sql-stmt" = some production ∧
      tree = .node (.production "sql-stmt") ⟨0, stop⟩ nodes ∧
      Derives Sqlite.grammar
        #[⟨.keyword .SELECT, "SELECT", ⟨0, 6⟩⟩, ⟨.integer, "1", ⟨7, 8⟩⟩,
          ⟨.symbol .comma, ",", ⟨8, 9⟩⟩, ⟨.integer, "2", ⟨10, 11⟩⟩]
        (.terms production.body.terms) 0 stop nodes := by
  generalize htokens : (#[⟨.keyword .SELECT, "SELECT", ⟨0, 6⟩⟩, ⟨.integer, "1", ⟨7, 8⟩⟩,
    ⟨.symbol .comma, ",", ⟨8, 9⟩⟩, ⟨.integer, "2", ⟨10, 11⟩⟩] : Array Token) = tokens
  have hspan : ((ofGrammar Sqlite.grammar).run .reading tokens).outcome.map Tree.span =
      .matched ⟨0, 4⟩ := by
    subst htokens
    decide +kernel
  cases hrun : ((ofGrammar Sqlite.grammar).run .reading tokens).outcome with
  | matched tree =>
    rw [hrun] at hspan
    obtain ⟨production, stop, nodes, hfind, htree, hbody, -⟩ := run_derives hrun
    exact ⟨tree, production, stop, nodes, Outcome.matched.inj hspan, hfind, htree, hbody⟩
  | failed | aborted =>
    rw [hrun] at hspan
    cases hspan

end Parser

end SqlStatement

import SqlStatement.Proofs.Grammar.Leaves
import SqlStatement.Proofs.Match.Fold

namespace SqlStatement

open Grammar (Leaf)

/-- Whether an event says that a token was tested. -/
def Event.isTest : Event → Bool
  | .leaf .. | .miss .. => true
  | _ => false

/-- An event that tests nothing is no leaf that has matched. -/
theorem Event.ne_leaf {e : Event} (htest : e.isTest = false) (token : Token) (index : Nat) :
    e ≠ .leaf token index := by
  rintro rfl
  cases htest

/-- Whether an event says that a sequence commits or that the input is rewound. -/
def Event.isMove : Event → Bool
  | .commit _ | .backtrack _ => true
  | _ => false

/-- Commits and moves back to an earlier place test no token. -/
theorem Event.isTest_of_isMove {e : Event} (hmove : e.isMove = true) : e.isTest = false := by
  cases e with
  | commit | backtrack => rfl
  | _ => cases hmove

namespace Matcher

/-- How a sequence goes on when its steps have ended, unless it is blamed. -/
def Ending.verdict (start : Nat) : Ending → Option (Matcher (Bool × List Tree))
  | .finished committed nodes => some (pure (committed, nodes))
  | .stuck true => none
  | .stuck false => some do backtrack start; fail

/-- How a repetition goes on when a turn has ended, unless it is blamed. -/
def Turn.verdict : Turn → Option (Matcher (Option (List Tree)))
  | .over => some (pure none)
  | .itemMissing => none
  | .next nodes => some (pure (some nodes))

/-- A sequence runs its steps and then goes on as their ending says, or is blamed
    for what they alone have missed. In this form the steps and the verdict can be
    reasoned about one after the other. -/
theorem sequence_eq (threshold : Nat) (parts : List (Matcher (List Tree))) :
    sequence threshold parts = position >>= fun start =>
      (steps threshold parts 0 false).listen >>= fun x =>
        (x.1.verdict start).getD (blame x.2) := by
  unfold sequence
  congr 1
  funext start
  congr 1
  funext x
  obtain ⟨ending, misses⟩ := x
  match ending with
  | .finished committed nodes | .stuck true | .stuck false => rfl

/-- A turn of a repetition has the same form: a charge, the turn, and either a
    verdict on how the turn ended or the blame for what it has missed. -/
theorem iteration_eq (item : Matcher (Bool × List Tree))
    (separator : Option (Matcher (Bool × List Tree))) :
    iteration item separator = checkPatience >>= fun _ => charge >>= fun _ =>
      (turn item separator).listen >>= fun x => x.1.verdict.getD (blame x.2) := by
  unfold iteration
  congr 1
  funext _
  congr 1
  funext _
  congr 1
  funext x
  obtain ⟨ending, misses⟩ := x
  match ending with
  | .over | .itemMissing | .next nodes => rfl

end Matcher

/-- A property of matchers that the combinators inside a production keep. `Holds Q
    m` says that `m` has it and that the values of `m` satisfy `Q`. A matcher only
    goes to places that it has been at, and what it has missed is only ever used to
    blame it. -/
structure Combinators where
  Holds : {α : Type} → (α → Prop) → Matcher α → Prop
  Place : Nat → Prop
  pure {α : Type} {Q : α → Prop} {a : α} (ha : Q a) : Holds Q (pure a)
  bind {α β : Type} {Q : α → Prop} {R : β → Prop} {m : Matcher α} {f : α → Matcher β}
    (hm : Holds Q m) (hf : ∀ a, Q a → Holds R (f a)) : Holds R (m >>= f)
  fail {α : Type} {Q : α → Prop} : Holds Q (.fail : Matcher α)
  position : Holds Place Matcher.position
  seek {target : Nat} (htarget : Place target) : Holds (fun _ => True) (Matcher.seek target)
  report {e : Event} (hmove : e.isMove = true) : Holds (fun _ => True) (Matcher.report e)
  charge : Holds (fun _ => True) Matcher.charge
  checkPatience : Holds (fun _ => True) Matcher.checkPatience
  attempt {α : Type} {m : Matcher α} (hm : Holds (fun _ => True) m) :
    Holds (fun _ => True) m.attempt
  /-- Trying a candidate in the name of the innermost open production. -/
  candidate {α : Type} {Q : α → Prop} {m : Matcher α} (branch start : Nat) (hm : Holds Q m) :
    Holds Q do
      let c ← Matcher.context
      Matcher.report (.candidate (c.stack.head?.getD "") branch start)
      m
  /-- What `m` has missed is only used to blame it. -/
  judge {α β : Type} {m : Matcher α} {verdict : α → Option (Matcher β)}
    (hm : Holds (fun _ => True) m)
    (hverdict : ∀ a next, verdict a = some next → Holds (fun _ => True) next) :
    Holds (fun _ => True)
      (m.listen >>= fun x => ((verdict x.1).getD (Matcher.blame x.2) : Matcher β))
  iterate {item : Matcher (Bool × List Tree)} {separator : Option (Matcher (Bool × List Tree))}
    (hturn : ∀ first : Bool,
      Holds (fun _ => True) (Matcher.iteration item (if first then none else separator)))
    (first : Bool) : Holds (fun _ => True) (Matcher.iterate item separator first)

/-- A property that the combinators keep and that breakpoints have, and the leaves
    that are allowed. -/
structure Rules extends Combinators where
  Allowed : Leaf → Prop
  leaf {l : Leaf} (hl : Allowed l) : Holds (fun _ => True) (Matcher.leaf l)
  breakpoint : Holds (fun _ => True) Matcher.breakpoint

/-- A property of matchers that all their combinators keep, whatever productions are
    made of. Whatever is put together from disciplined matchers is disciplined, up
    to the matcher of a whole grammar. -/
structure Discipline extends Rules where
  unknown (name : String) : Holds (fun _ => True) (.abort (.unknownProduction name) : Matcher Tree)
  tooDeep : Holds (fun _ => True) (.abort .tooDeep : Matcher Tree)
  production (p : Grammar.Production) {body : Matcher (Bool × List Tree)}
    (hbody : Holds (fun _ => True) body) : Holds (fun _ => True) (.production p body)

namespace Combinators

open Matcher

variable (d : Combinators)

/-- Whether a matcher has the property, whatever its values. -/
abbrev Keeps {α : Type} (m : Matcher α) : Prop := d.Holds (fun _ => True) m

/-- The rule for `bind` where nothing need be known of the value in between. -/
theorem seq {α β : Type} {R : β → Prop} {m : Matcher α} {f : α → Matcher β} (hm : d.Keeps m)
    (hf : ∀ a, d.Holds R (f a)) : d.Holds R (m >>= f) :=
  d.bind hm fun a _ => hf a

theorem keeps_pure {α : Type} (a : α) : d.Keeps (Pure.pure a : Matcher α) :=
  d.pure trivial

/-- Going back is a report and a move, to a place that the matcher has been at. If
    it is there already, nothing is reported and the move does nothing. -/
theorem keeps_backtrack {target : Nat} (htarget : d.Place target) : d.Keeps (backtrack target) := by
  unfold backtrack
  refine d.bind d.position fun here _ => ?_
  split
  · exact d.seq (d.report rfl) fun _ => d.seek htarget
  · exact d.keeps_pure _

theorem keeps_wrap (label : Tree.Label) (start : Nat) (children : List Tree) :
    d.Keeps (wrap label start children) :=
  d.bind d.position fun _ _ => d.keeps_pure _

/-- A commitment is a report or nothing. -/
theorem keeps_commitAt (threshold earned : Nat) (committed : Bool) :
    d.Keeps (commitAt threshold earned committed) := by
  unfold commitAt
  split
  · exact d.bind d.position fun _ _ => d.seq (d.report rfl) fun _ => d.keeps_pure _
  · exact d.keeps_pure _

/-- The steps of a sequence are disciplined if the terms are. The induction is on
    the terms that are left, for every number of them that has consumed a token. -/
theorem keeps_steps {parts : List (Matcher (List Tree))} (hparts : ∀ m ∈ parts, d.Keeps m)
    (threshold earned : Nat) (committed : Bool) :
    d.Keeps (steps threshold parts earned committed) := by
  induction parts generalizing earned committed with
  | nil => exact d.seq (d.keeps_commitAt ..) fun _ => d.keeps_pure _
  | cons step rest ih =>
    obtain ⟨hstep, hrest⟩ := List.forall_mem_cons.mp hparts
    refine d.seq d.checkPatience fun _ => d.seq (d.keeps_commitAt ..) fun committed => ?_
    refine d.bind d.position fun before _ => d.seq (d.attempt hstep) fun nodes? => ?_
    cases nodes? with
    | none => exact d.keeps_pure _
    | some nodes =>
      exact d.bind d.position fun after _ => d.seq (ih hrest ..) fun _ => d.keeps_pure _

/-- A sequence of disciplined parts is disciplined. It goes back to its own start
    only. -/
theorem keeps_sequence {parts : List (Matcher (List Tree))} (hparts : ∀ m ∈ parts, d.Keeps m)
    (threshold : Nat) : d.Keeps (Matcher.sequence threshold parts) := by
  rw [sequence_eq]
  refine d.bind d.position fun start hstart => d.judge (d.keeps_steps hparts ..) ?_
  intro ending next hnext
  match ending with
  | .finished committed nodes =>
    cases hnext
    exact d.keeps_pure _
  | .stuck true => cases hnext
  | .stuck false =>
    cases hnext
    exact d.seq (d.keeps_backtrack hstart) fun _ => d.fail

/-- What is optional goes back to where it was tried. A body that fails has gone
    back itself. -/
theorem keeps_optional {body : Matcher (Bool × List Tree)} (hbody : d.Keeps body) :
    d.Keeps (Matcher.optional body) := by
  refine d.bind d.position fun start _ => d.seq (d.attempt hbody) fun found => ?_
  match found with
  | some (_, nodes) => exact d.keeps_wrap ..
  | none => exact d.keeps_pure _

/-- The rest of an alternation is disciplined if the candidates that are left are.
    The best candidate so far has ended at a place that was visited, to which the
    alternation returns. -/
theorem keeps_choose {start : Nat} (hstart : d.Place start)
    {candidates : List (Matcher (Bool × List Tree))} (hcandidates : ∀ m ∈ candidates, d.Keeps m)
    (branch : Nat) {best : Option Provisional} (hbest : ∀ b ∈ best, d.Place b.stop) :
    d.Keeps (choose start candidates branch best) := by
  induction candidates generalizing branch best with
  | nil =>
    cases best with
    | none => exact d.fail
    | some best => exact d.seq (d.seek (hbest best rfl)) fun _ => d.keeps_wrap ..
  | cons candidate rest ih =>
    obtain ⟨hcandidate, hrest⟩ := List.forall_mem_cons.mp hcandidates
    refine d.seq (d.seek hstart) fun _ => d.candidate branch start ?_
    refine d.seq (d.attempt hcandidate) fun found => ?_
    match found with
    | none => exact ih hrest _ hbest
    | some (true, nodes) => exact d.keeps_wrap ..
    | some (false, nodes) =>
      refine d.bind d.position fun stop hstop => ih hrest _ ?_
      intro b hb
      cases hb
      cases best with
      | none => exact hstop
      | some b =>
        simp only [Provisional.better]
        split
        · exact hstop
        · exact hbest b rfl

theorem keeps_alternation {candidates : List (Matcher (Bool × List Tree))}
    (hcandidates : ∀ m ∈ candidates, d.Keeps m) : d.Keeps (Matcher.alternation candidates) :=
  d.bind d.position fun _ hstart => d.keeps_choose hstart hcandidates 0 nofun

/-- A turn is disciplined if its item and its separator are. It never goes back by
    itself: that is left to the item and the separator. -/
theorem keeps_turn {item : Matcher (Bool × List Tree)}
    {separator : Option (Matcher (Bool × List Tree))} (hitem : d.Keeps item)
    (hseparator : ∀ m ∈ separator, d.Keeps m) : d.Keeps (turn item separator) := by
  cases separator with
  | none =>
    refine d.bind d.position fun start _ => d.seq (d.attempt hitem) fun found => ?_
    match found with
    | none => exact d.keeps_pure _
    | some (_, nodes) => exact d.seq (d.keeps_wrap ..) fun _ => d.keeps_pure _
  | some separator =>
    refine d.bind d.position fun start _ => d.seq (d.attempt (hseparator _ rfl)) fun found => ?_
    match found with
    | none => exact d.keeps_pure _
    | some (_, front) =>
      refine d.seq (d.keeps_wrap ..) fun front => d.bind d.position fun itemStart _ => ?_
      refine d.seq (d.attempt hitem) fun found => ?_
      match found with
      | none => exact d.keeps_pure _
      | some (_, nodes) => exact d.seq (d.keeps_wrap ..) fun _ => d.keeps_pure _

/-- The same behind the charge for a turn, with the blame for an item that is
    missing behind its separator. -/
theorem keeps_iteration {item : Matcher (Bool × List Tree)}
    {separator : Option (Matcher (Bool × List Tree))} (hitem : d.Keeps item)
    (hseparator : ∀ m ∈ separator, d.Keeps m) : d.Keeps (iteration item separator) := by
  rw [iteration_eq]
  refine d.seq d.checkPatience fun _ => d.seq d.charge fun _ => ?_
  refine d.judge (d.keeps_turn hitem hseparator) ?_
  intro ending next hnext
  match ending with
  | .over | .next nodes =>
    cases hnext
    exact d.keeps_pure _
  | .itemMissing => cases hnext

/-- A repetition of disciplined items is disciplined, whatever its least number of
    turns is. -/
theorem keeps_repetition {item : Matcher (Bool × List Tree)}
    {separator : Option (Matcher (Bool × List Tree))} (hitem : d.Keeps item)
    (hseparator : ∀ m ∈ separator, d.Keeps m) (least : Nat) :
    d.Keeps (Matcher.repetition item separator least) := by
  have hturn (first : Bool) : d.Keeps (iteration item (if first then none else separator)) := by
    cases first with
    | true => exact d.keeps_iteration hitem nofun
    | false => exact d.keeps_iteration hitem hseparator
  refine d.bind d.position fun start hstart => d.seq (d.iterate hturn true) fun counted => ?_
  obtain ⟨count, nodes⟩ := counted
  dsimp only
  split
  · exact d.seq (d.keeps_backtrack hstart) fun _ => d.fail
  · exact d.keeps_wrap ..

/-- From a list of implications, one for each part, to what they imply of all
    parts. -/
theorem forall_keeps_of_forall₂ {α β : Type} {P : α → Prop} {parts : List α} {ms : List (Matcher β)}
    (hparts : List.Forall₂ (fun a m => P a → d.Keeps m) parts ms) (hP : ∀ a ∈ parts, P a) :
    ∀ m ∈ ms, d.Keeps m := by
  induction hparts with
  | nil => nofun
  | cons hhead _ ih =>
    obtain ⟨ha, hrest⟩ := List.forall_mem_cons.mp hP
    exact List.forall_mem_cons.mpr ⟨hhead ha, ih hrest⟩

/-- Terms and sequences are disciplined if their leaves, their references and their
    breakpoints are, as far as these may occur. What may occur is given as a
    property that the terms of a table pass on to their parts. -/
theorem fold_of_passes {call : String → Matcher Tree} {T : Grammar.Term → Prop}
    {S : Grammar.Sequence → Prop} (hpasses : Grammar.Passes T S)
    (hleaf : ∀ l, T (.leaf l) → d.Keeps (Matcher.leaf l))
    (hcall : ∀ name, T (.production name) → d.Keeps (call name))
    (hbreakpoint : T .breakpoint → d.Keeps Matcher.breakpoint) :
    Grammar.Fold call (fun t m => T t → d.Keeps m) (fun s m => S s → d.Keeps m) where
  leaf l ht := d.seq d.charge fun _ => hleaf l ht
  production name ht := d.seq d.charge fun _ => d.seq (hcall name ht) fun _ => d.keeps_pure _
  optional hbody ht := d.seq d.charge fun _ => d.keeps_optional (hbody (hpasses.optional ht))
  alternation hcandidates ht := d.seq d.charge fun _ =>
    d.keeps_alternation (d.forall_keeps_of_forall₂ hcandidates (hpasses.candidates ht))
  repetition {_ _ _ ms} least hitem hseparator ht := by
    refine d.seq d.charge fun _ => d.keeps_repetition (hitem (hpasses.item ht)) ?_ least
    cases hseparator with
    | none => nofun
    | some hs =>
      intro m hm
      cases hm
      exact hs (hpasses.separator ht)
  breakpoint ht := d.seq d.charge fun _ => hbreakpoint ht
  sequence commit hterms hs :=
    d.keeps_sequence (d.forall_keeps_of_forall₂ hterms (hpasses.terms hs)) commit

end Combinators

/-- Terms and sequences of allowed leaves over disciplined productions are
    disciplined. -/
theorem Rules.fold (d : Rules) {call : String → Matcher Tree}
    (hcall : ∀ name, d.Keeps (call name)) :
    Grammar.Fold call (fun t m => (∀ l ∈ t.leaves, d.Allowed l) → d.Keeps m)
      (fun s m => (∀ l ∈ s.leaves, d.Allowed l) → d.Keeps m) :=
  d.fold_of_passes (Grammar.passes_leaves d.Allowed)
    (fun l hl => d.leaf (hl l (List.mem_singleton_self l))) (fun name _ => hcall name)
    fun _ => d.breakpoint

namespace Discipline

variable (d : Discipline)

/-- The matcher of every production of a grammar of allowed leaves is disciplined. A
    property of all parses is proved by an instance of `Discipline` and this
    theorem, without another induction over the grammar. -/
theorem keeps_matcher {g : Grammar} (hallowed : ∀ l ∈ g.leaves, d.Allowed l) (depth : Nat)
    (name : String) : d.Keeps (g.matcher depth name) := by
  apply g.matcher_induction (C := fun _ m => d.Keeps m)
  · exact fun name _ => d.unknown name
  · exact fun _ => d.tooDeep
  · intro call hcall name p hfind
    apply d.production p
    exact (d.fold hcall).ofSequence p.body fun l hl =>
      hallowed l (Grammar.mem_leaves_of_find? hfind hl)

end Discipline

end SqlStatement

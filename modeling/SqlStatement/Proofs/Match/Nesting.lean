import Mathlib.Data.Nat.Find
import SqlStatement.Proofs.Machine.Balance
import SqlStatement.Proofs.Machine.Refinement
import SqlStatement.Proofs.Match.Closed
import SqlStatement.Proofs.Match.Run
import SqlStatement.Proofs.Match.Stops
import SqlStatement.Sqlite

namespace SqlStatement

/-- Whether an error says that a production cannot be opened. -/
def ParseError.isRefusal : ParseError → Bool
  | .tooDeep | .unknownProduction _ => true
  | _ => false

/-- Every production that was asked for has been opened. -/
def Outcome.Unrefused {α : Type} (o : Outcome α) : Prop := ∀ e, o = .aborted e → e.isRefusal = false

namespace Outcome.Unrefused

variable {α β : Type} {o : Outcome α}

theorem map (f : α → β) (h : o.Unrefused) : (o.map f).Unrefused := by
  intro e he
  cases o <;> cases he
  exact h e rfl

/-- What goes on behind a match is refused only if the match was. -/
theorem given (h : o.Unrefused) : (o.given : Outcome β).Unrefused := by
  intro e he
  cases o <;> cases he
  exact h e rfl

end Outcome.Unrefused

/-- A run `r` goes as `r'`, a run with more levels of nesting, and is not refused a
    production; or it gets too deep, with some of its `fuel` spent on each of its
    levels. -/
structure Result.DeepensTo {α : Type} (levels fuel : Nat) (r r' : Result α) : Prop where
  fuel_le : r.state.fuel ≤ fuel
  same_or_tooDeep :
    (r' = r ∧ r.outcome.Unrefused) ∨ (r.outcome = .aborted .tooDeep ∧ levels ≤ fuel)

/-- From every place a matcher does as another one that may nest deeper, unless it
    gets too deep. -/
def Matcher.DeepensTo {α : Type} (levels : Nat) (m m' : Matcher α) : Prop :=
  ∀ c s, (m c s).DeepensTo levels s.fuel (m' c s)

namespace Matcher

variable {α β : Type} {levels : Nat}

namespace DeepensTo

/-- A step that opens no production. -/
theorem of_step {m : Matcher α} (hfuel : ∀ c s, (m c s).state.fuel ≤ s.fuel)
    (hopen : ∀ c s, (m c s).outcome.Unrefused) : DeepensTo levels m m :=
  fun c s => ⟨hfuel c s, .inl ⟨rfl, hopen c s⟩⟩

/-- If the first part gets too deep, so does the whole, whatever is behind it.
    Otherwise both sides go on from the same state. -/
theorem bind {m m' : Matcher α} {f f' : α → Matcher β} (hm : DeepensTo levels m m')
    (hf : ∀ a, DeepensTo levels (f a) (f' a)) : DeepensTo levels (m >>= f) (m' >>= f') := by
  intro c s
  obtain ⟨hfuel, ⟨hsame, hopen⟩ | ⟨hdeep, hlevels⟩⟩ := hm c s
  · by_cases hmatched : ∃ a, (m c s).outcome = .matched a
    · obtain ⟨a, houtcome⟩ := hmatched
      obtain ⟨hrest, hcases⟩ := hf a c (m c s).state
      rw [run_bind_matched houtcome, run_bind_matched (hsame ▸ houtcome), hsame]
      refine ⟨Nat.le_trans hrest hfuel, ?_⟩
      rcases hcases with ⟨hsame', hopen'⟩ | ⟨hdeep, hlevels⟩
      · rw [hsame']
        exact .inl ⟨rfl, hopen'⟩
      · exact .inr ⟨hdeep, Nat.le_trans hlevels hfuel⟩
    · have hunmatched (a : α) (ha : (m c s).outcome = .matched a) : False := hmatched ⟨a, ha⟩
      rw [run_bind_unmatched hunmatched, run_bind_unmatched (hsame ▸ hunmatched), hsame]
      exact ⟨hfuel, .inl ⟨rfl, hopen.given⟩⟩
  · rw [run_bind_aborted hdeep]
    exact ⟨hfuel, .inr ⟨rfl, hlevels⟩⟩

/-- A matcher that runs `m` in its own way and makes something of the result. The
    rules for attempts, labels and open productions are taken from this one. -/
theorem around {m m' : Matcher α} {whole whole' : Matcher β} (hm : DeepensTo levels m m')
    (enter : Context → State → Context × State) (leave : Context → State → Result α → Result β)
    (henter : ∀ c s, (enter c s).2.fuel = s.fuel)
    (hleave : ∀ c s r, (leave c s r).state.fuel = r.state.fuel)
    (haborts : ∀ c s r e, (leave c s r).outcome = .aborted e ↔ r.outcome = .aborted e)
    (hwhole : ∀ c s, whole c s = leave c s (m (enter c s).1 (enter c s).2))
    (hwhole' : ∀ c s, whole' c s = leave c s (m' (enter c s).1 (enter c s).2)) :
    DeepensTo levels whole whole' := by
  intro c s
  obtain ⟨hfuel, hcases⟩ := hm (enter c s).1 (enter c s).2
  rw [henter] at hfuel hcases
  rw [hwhole, hwhole']
  refine ⟨Nat.le_trans (Nat.le_of_eq (hleave ..)) hfuel, ?_⟩
  rcases hcases with ⟨hsame, hopen⟩ | ⟨hdeep, hlevels⟩
  · rw [hsame]
    exact .inl ⟨rfl, fun e he => hopen e ((haborts _ _ _ e).mp he)⟩
  · exact .inr ⟨(haborts _ _ _ _).mpr hdeep, hlevels⟩

/-- Getting too deep is not a failure, so an attempt passes it on. A failure becomes
    the same value on both sides. -/
theorem attempt {m m' : Matcher α} (hm : DeepensTo levels m m') :
    DeepensTo levels m.attempt m'.attempt := by
  refine hm.around (fun c s => (c, s)) (fun _ _ r => ⟨r.outcome.attempted, r.state, r.record⟩)
    (fun _ _ => rfl) (fun _ _ _ => rfl) (fun _ _ r e => ?_) (run_attempt m) (run_attempt m')
  cases r.outcome <;> simp [Outcome.attempted]

theorem listen {m m' : Matcher α} (hm : DeepensTo levels m m') :
    DeepensTo levels m.listen m'.listen := by
  refine hm.around (fun c s => (c, s))
    (fun _ _ r => ⟨r.outcome.map fun a => (a, r.record.misses), r.state, r.record⟩)
    (fun _ _ => rfl) (fun _ _ _ => rfl) (fun _ _ r e => ?_) (run_listen m) (run_listen m')
  cases r.outcome <;> simp [Outcome.map]

/-- Nor does it change what was missed. -/
theorem onFailure (f : Journal Miss → Journal Miss) {m m' : Matcher α}
    (hm : DeepensTo levels m m') : DeepensTo levels (m.onFailure f) (m'.onFailure f) :=
  hm.around (fun c s => (c, s)) (fun _ _ r => ⟨r.outcome, r.state, r.outcome.amend f r.record⟩)
    (fun _ _ => rfl) (fun _ _ _ => rfl) (fun _ _ _ _ => Iff.rfl) (run_onFailure f m)
    (run_onFailure f m')

/-- The name on the stack is the same on both sides. Both sides run one name deeper,
    with the same levels left. -/
theorem within (name : String) {m m' : Matcher α} (hm : DeepensTo levels m m') :
    DeepensTo levels (m.within name) (m'.within name) :=
  hm.around
    (fun c s => ({ c with stack := name :: c.stack },
      ⟨s.position, s.fuel, s.patience.map (· - 1)⟩))
    (fun c s r => Matcher.within name (fun _ _ => r) c s)
    (fun _ _ => rfl) (fun _ _ _ => rfl) (fun _ _ _ _ => Iff.rfl) (fun _ _ => rfl) (fun _ _ => rfl)

section Step

theorem pure (a : α) : DeepensTo levels (Pure.pure a : Matcher α) (Pure.pure a) :=
  of_step (fun _ _ => Nat.le_refl _) fun _ _ => nofun

theorem fail : DeepensTo levels (Matcher.fail : Matcher α) Matcher.fail :=
  of_step (fun _ _ => Nat.le_refl _) fun _ _ => nofun

theorem position : DeepensTo levels Matcher.position Matcher.position :=
  of_step (fun _ _ => Nat.le_refl _) fun _ _ => nofun

theorem context : DeepensTo levels Matcher.context Matcher.context :=
  of_step (fun _ _ => Nat.le_refl _) fun _ _ => nofun

theorem seek (target : Nat) : DeepensTo levels (Matcher.seek target) (Matcher.seek target) :=
  of_step (fun _ _ => Nat.le_refl _) fun _ _ => nofun

theorem report (e : Event) : DeepensTo levels (Matcher.report e) (Matcher.report e) :=
  of_step (fun _ _ => Nat.le_refl _) fun _ _ => nofun

/-- To give up for another reason is not to be refused a production. -/
theorem abort {e : ParseError} (he : e.isRefusal = false) :
    DeepensTo levels (Matcher.abort e : Matcher α) (Matcher.abort e) := by
  refine of_step (fun _ _ => Nat.le_refl _) fun _ _ e' he' => ?_
  cases he'
  exact he

/-- A charge only takes fuel away. Both sides run out of it together. -/
theorem charge : DeepensTo levels Matcher.charge Matcher.charge := by
  refine of_step (fun c s => ?_) fun c s e he => ?_
  · unfold Matcher.charge
    split
    · exact Nat.le_refl _
    · next hfuel => exact Nat.le_of_lt (hfuel ▸ Nat.lt_succ_self _)
  · unfold Matcher.charge at he
    split at he <;> cases he
    rfl

theorem checkPatience : DeepensTo levels Matcher.checkPatience Matcher.checkPatience := by
  refine of_step (fun c s => ?_) fun c s e he => ?_
  · unfold Matcher.checkPatience
    split <;> exact Nat.le_refl _
  · unfold Matcher.checkPatience at he
    split at he <;> cases he
    rfl

theorem peek : DeepensTo levels Matcher.peek Matcher.peek :=
  of_step (fun _ _ => Nat.le_refl _) fun _ _ => nofun

theorem advance : DeepensTo levels Matcher.advance Matcher.advance :=
  of_step (fun _ _ => Nat.le_refl _) fun _ _ => nofun

theorem expect (expected : List Expectation) :
    DeepensTo levels (Matcher.expect expected) (Matcher.expect expected) :=
  of_step (fun _ _ => Nat.le_refl _) fun _ _ => nofun

theorem mark (b : Breakpoint) : DeepensTo levels (Matcher.mark b) (Matcher.mark b) :=
  of_step (fun _ _ => Nat.le_refl _) fun _ _ => nofun

theorem leaf (l : Grammar.Leaf) : DeepensTo levels (Matcher.leaf l) (Matcher.leaf l) := by
  refine bind position fun here => bind peek fun token? => ?_
  cases token? with
  | none => exact bind (expect _) fun _ => bind (report _) fun _ => fail
  | some token =>
    dsimp only
    split
    · exact bind (report _) fun _ => bind advance fun _ => pure _
    · exact bind (expect _) fun _ => bind (report _) fun _ => fail

theorem breakpoint : DeepensTo levels Matcher.breakpoint Matcher.breakpoint := by
  refine bind context fun c => bind position fun here => bind (report _) fun _ => ?_
  dsimp only
  split
  · exact bind (mark _) fun _ => pure _
  · exact pure _

theorem backtrack (target : Nat) :
    DeepensTo levels (Matcher.backtrack target) (Matcher.backtrack target) := by
  refine bind position fun here => ?_
  split
  · exact bind (report _) fun _ => seek _
  · exact pure ()

theorem blame (misses : Journal Miss) :
    DeepensTo levels (Matcher.blame misses : Matcher α) (Matcher.blame misses) :=
  bind context fun _ => bind position fun _ => bind (report _) fun _ => abort rfl

theorem wrap (label : Tree.Label) (start : Nat) (children : List Tree) :
    DeepensTo levels (Matcher.wrap label start children) (Matcher.wrap label start children) :=
  bind position fun _ => pure _

theorem commitAt (threshold earned : Nat) (committed : Bool) :
    DeepensTo levels (Matcher.commitAt threshold earned committed)
      (Matcher.commitAt threshold earned committed) := by
  unfold Matcher.commitAt
  split
  · exact bind position fun _ => bind (report _) fun _ => pure true
  · exact pure committed

end Step

section Combinator

/-- The steps of a sequence, one after the other, by induction on the terms. Each
    step starts from the state that the same step has left on the other side. -/
theorem steps {parts parts' : List (Matcher (List Tree))}
    (hparts : List.Forall₂ (DeepensTo levels) parts parts') (threshold earned : Nat)
    (committed : Bool) : DeepensTo levels (Matcher.steps threshold parts earned committed)
      (Matcher.steps threshold parts' earned committed) := by
  induction hparts generalizing earned committed with
  | nil => exact bind (commitAt _ _ _) fun _ => pure _
  | cons hstep _ ih =>
    refine bind checkPatience fun _ => bind (commitAt _ _ _) fun committed => ?_
    refine bind position fun before => bind (attempt hstep) fun nodes? => ?_
    cases nodes? with
    | none => exact pure _
    | some nodes => exact bind position fun after => bind (ih _ _) fun _ => pure _

/-- A sequence may nest as deep as its terms. Its verdict depends only on how the
    steps have ended. -/
theorem sequence {parts parts' : List (Matcher (List Tree))}
    (hparts : List.Forall₂ (DeepensTo levels) parts parts') (threshold : Nat) :
    DeepensTo levels (Matcher.sequence threshold parts) (Matcher.sequence threshold parts') := by
  refine bind position fun start => bind (listen (steps hparts _ _ _)) fun x => ?_
  obtain ⟨ending, misses⟩ := x
  match ending with
  | .finished committed nodes => exact pure _
  | .stuck true => exact blame misses
  | .stuck false => exact bind (backtrack start) fun _ => fail

theorem optional {body body' : Matcher (Bool × List Tree)} (hbody : DeepensTo levels body body') :
    DeepensTo levels (Matcher.optional body) (Matcher.optional body') := by
  refine bind position fun start => bind (attempt hbody) fun found => ?_
  match found with
  | some (_, nodes) => exact wrap _ _ _
  | none => exact pure _

/-- The candidates of an alternation, one after the other. Both sides have the same
    best candidate so far. -/
theorem choose {candidates candidates' : List (Matcher (Bool × List Tree))}
    (hcandidates : List.Forall₂ (DeepensTo levels) candidates candidates') (start branch : Nat)
    (best : Option Provisional) : DeepensTo levels (Matcher.choose start candidates branch best)
      (Matcher.choose start candidates' branch best) := by
  induction hcandidates generalizing branch best with
  | nil =>
    cases best with
    | none => exact fail
    | some best => exact bind (seek _) fun _ => wrap _ _ _
  | cons hcandidate _ ih =>
    refine bind (seek start) fun _ => bind context fun c => bind (report _) fun _ => ?_
    refine bind (attempt hcandidate) fun found => ?_
    match found with
    | none => exact ih _ _
    | some (true, nodes) => exact wrap _ _ _
    | some (false, nodes) => exact bind position fun stop => ih _ _

theorem alternation {candidates candidates' : List (Matcher (Bool × List Tree))}
    (hcandidates : List.Forall₂ (DeepensTo levels) candidates candidates') :
    DeepensTo levels (Matcher.alternation candidates) (Matcher.alternation candidates') :=
  bind position fun start => choose hcandidates start 0 none

variable {item item' : Matcher (Bool × List Tree)}
  {separator separator' : Option (Matcher (Bool × List Tree))}

/-- A turn may nest as deep as its item and its separator. A separator is there on
    both sides or on neither. -/
theorem turn (hitem : DeepensTo levels item item')
    (hseparator : Option.Rel (DeepensTo levels) separator separator') :
    DeepensTo levels (Matcher.turn item separator) (Matcher.turn item' separator') := by
  cases hseparator with
  | none =>
    refine bind position fun start => bind (attempt hitem) fun found => ?_
    match found with
    | none => exact pure _
    | some (_, nodes) => exact bind (wrap _ _ _) fun _ => pure _
  | some hseparator =>
    refine bind position fun start => bind (attempt hseparator) fun found => ?_
    match found with
    | none => exact pure _
    | some (_, front) =>
      refine bind (wrap _ _ _) fun front => bind position fun itemStart => ?_
      refine bind (attempt hitem) fun found => ?_
      match found with
      | none => exact pure _
      | some (_, nodes) => exact bind (wrap _ _ _) fun _ => pure _

theorem iteration (hitem : DeepensTo levels item item')
    (hseparator : Option.Rel (DeepensTo levels) separator separator') :
    DeepensTo levels (Matcher.iteration item separator) (Matcher.iteration item' separator') := by
  refine bind checkPatience fun _ => bind charge fun _ => ?_
  refine bind (listen (turn hitem hseparator)) fun x => ?_
  obtain ⟨ending, misses⟩ := x
  match ending with
  | .over => exact pure _
  | .itemMissing => exact blame misses
  | .next nodes => exact pure _

/-- A repetition may nest as deep as its turns, by induction on the tokens that are
    left. -/
theorem iterate (hitem : DeepensTo levels item item')
    (hseparator : Option.Rel (DeepensTo levels) separator separator') (first : Bool) :
    DeepensTo levels (Matcher.iterate item separator first)
      (Matcher.iterate item' separator' first) := by
  intro c s
  -- Each turn that goes on comes closer to the end of the tokens.
  induction hleft : c.tokens.size - s.position using Nat.strongRecOn generalizing s first with
  | _ left ih =>
  have hseparators : Option.Rel (DeepensTo levels) (if first then none else separator)
      (if first then none else separator') := by
    cases first with
    | true => exact .none
    | false => exact hseparator
  obtain ⟨hfuel, hcases⟩ := iteration hitem hseparators c s
  generalize hr : Matcher.iteration item (if first then none else separator) c s = r at hfuel hcases
  generalize hr' : Matcher.iteration item' (if first then none else separator') c s = r' at hcases
  rcases hcases with ⟨rfl, hopen⟩ | ⟨hdeep, hlevels⟩
  · by_cases hgoes : GoesOn c s.position r'
    · obtain ⟨nodes, houtcome, hprogress⟩ := hgoes
      obtain ⟨hrest, hcases⟩ := ih _ (hleft ▸ hprogress) false r'.state rfl
      rw [run_iterate_next hr houtcome hprogress, run_iterate_next hr' houtcome hprogress]
      refine ⟨Nat.le_trans hrest hfuel, ?_⟩
      rcases hcases with ⟨hsame, hopen'⟩ | ⟨hdeep, hlevels⟩
      · rw [hsame]
        exact .inl ⟨rfl, hopen'.map _⟩
      · exact .inr ⟨congrArg (Outcome.map _) hdeep, Nat.le_trans hlevels hfuel⟩
    · rw [run_iterate_ended hr hgoes, run_iterate_ended hr' hgoes]
      exact ⟨hfuel, .inl ⟨rfl, hopen.map _⟩⟩
  · rw [run_iterate_aborted hr hdeep]
    exact ⟨hfuel, .inr ⟨rfl, hlevels⟩⟩

theorem repetition (hitem : DeepensTo levels item item')
    (hseparator : Option.Rel (DeepensTo levels) separator separator') (least : Nat) :
    DeepensTo levels (Matcher.repetition item separator least)
      (Matcher.repetition item' separator' least) := by
  refine bind position fun start => bind (iterate hitem hseparator true) fun counted => ?_
  obtain ⟨count, nodes⟩ := counted
  dsimp only
  split
  · exact bind (backtrack start) fun _ => fail
  · exact wrap _ _ _

/-- A production may nest as deep as its body. -/
theorem production (p : Grammar.Production) {body body' : Matcher (Bool × List Tree)}
    (hbody : DeepensTo levels body body') :
    DeepensTo levels (Matcher.production p body) (Matcher.production p body') := by
  refine bind position fun start => bind context fun c => ?_
  refine bind (onFailure _ (within p.name hbody)) fun x => ?_
  exact bind position fun stop => pure _

/-- An attempt of a term leaves less fuel for the productions that it opens. This is
    where the fuel that is spent on each level comes from. -/
theorem charged {m m' : Matcher α} (hm : DeepensTo levels m m') :
    DeepensTo (levels + 1) (Matcher.charge >>= fun _ => m) (Matcher.charge >>= fun _ => m') := by
  intro c s
  obtain ⟨place, fuel, patience⟩ := s
  cases fuel with
  | zero => exact ⟨Nat.le_refl _, .inl ⟨rfl, fun e he => by cases he; rfl⟩⟩
  | succ fuel =>
    obtain ⟨hfuel, hcases⟩ := hm c ⟨place, fuel, patience⟩
    have hcharged (m : Matcher α) : (Matcher.charge >>= fun _ => m) c ⟨place, fuel + 1, patience⟩ =
        ⟨(m c ⟨place, fuel, patience⟩).outcome, (m c ⟨place, fuel, patience⟩).state,
          .empty ++ (m c ⟨place, fuel, patience⟩).record⟩ := rfl
    rw [hcharged, hcharged]
    refine ⟨Nat.le_succ_of_le hfuel, ?_⟩
    rcases hcases with ⟨hsame, hopen⟩ | ⟨hdeep, hlevels⟩
    · rw [hsame]
      exact .inl ⟨rfl, hopen⟩
    · exact .inr ⟨hdeep, Nat.succ_le_succ hlevels⟩

end Combinator

end DeepensTo

end Matcher

namespace Grammar

open Matcher (DeepensTo)

variable {levels : Nat} {call call' : String → Matcher Tree}

/-- What holds of each term and its two matchers holds of the two lists of
    matchers. -/
theorem deepensTo_termMatchers {ts : List Term} {ms : List (Matcher (List Tree))}
    (h : List.Forall₂ (fun t m => DeepensTo levels m (t.matcher call')) ts ms) :
    List.Forall₂ (DeepensTo levels) ms (termMatchers call' ts) := by
  induction h with
  | nil => exact .nil
  | cons hhead _ ih => exact .cons hhead ih

/-- The same for the candidates of an alternation. -/
theorem deepensTo_candidateMatchers {cs : List Sequence} {ms : List (Matcher (Bool × List Tree))}
    (h : List.Forall₂ (fun s m => DeepensTo levels m (s.matcher call')) cs ms) :
    List.Forall₂ (DeepensTo levels) ms (candidateMatchers call' cs) := by
  induction h with
  | nil => exact .nil
  | cons hhead _ ih => exact .cons hhead ih

/-- Terms and sequences may nest as deep as the productions that they refer to, and
    one level more for these productions themselves. -/
theorem deepensTo_fold (hcall : ∀ name, DeepensTo levels (call name) (call' name)) :
    Fold call (fun t m => DeepensTo (levels + 1) m (t.matcher call'))
      (fun s m => DeepensTo (levels + 1) m (s.matcher call')) where
  leaf l := .bind .charge fun _ => .leaf l
  production name := .charged (.bind (hcall name) fun _ => .pure _)
  optional hbody := .bind .charge fun _ => .optional hbody
  alternation hcandidates :=
    .bind .charge fun _ => .alternation (deepensTo_candidateMatchers hcandidates)
  repetition least hitem hseparator := by
    cases hseparator with
    | none => exact .bind .charge fun _ => .repetition hitem .none least
    | some hs => exact .bind .charge fun _ => .repetition hitem (.some hs) least
  breakpoint := .bind .charge fun _ => .breakpoint
  sequence commit hterms := .sequence (deepensTo_termMatchers hterms) commit

/-- All references of a table lead to productions of the table. -/
def Resolved (g : Grammar) : Prop := ∀ name, .production name ∈ g.parts → g.defines name = true

/-- A table that is built has all its references resolved. -/
theorem Resolved.of_defect? {g : Grammar} (hdefect : g.defect? = none) : g.Resolved := by
  intro name hname
  have hflaw := flaw?_of_defect? hdefect hname
  by_contra hundefined
  simp [Term.flaw?, hundefined] at hflaw

/-- The productions of a table in which all references are resolved may nest deeper
    without doing anything else, unless they get too deep. -/
theorem Resolved.deepensTo {g : Grammar} (hg : g.Resolved) {depth depth' : Nat}
    (hle : depth ≤ depth') {name : String} (hname : g.defines name = true) :
    DeepensTo depth (g.matcher depth name) (g.matcher depth' name) := by
  induction depth generalizing depth' name with
  | zero =>
    intro c s
    obtain ⟨p, hfind⟩ := Option.isSome_iff_exists.mp ((g.find?_isSome name).trans hname)
    rw [matcher, hfind]
    exact ⟨Nat.le_refl _, .inr ⟨rfl, Nat.zero_le _⟩⟩
  | succ depth ih =>
    obtain ⟨depth', rfl⟩ : ∃ d, depth' = d + 1 := ⟨depth' - 1, by omega⟩
    obtain ⟨p, hfind⟩ := Option.isSome_iff_exists.mp ((g.find?_isSome name).trans hname)
    rw [matcher, matcher, hfind]
    -- what an undefined production does is of no concern to the body
    let known (d : Nat) (n : String) : Matcher Tree := if g.defines n then g.matcher d n else .fail
    have hagree (d : Nat) : Agree (g.matcher d) (known d) p.body.parts := fun n hn =>
      (if_pos (hg n (mem_parts_of_find? hfind hn))).symm
    have hknown (n : String) : DeepensTo depth (known depth n) (known depth' n) := by
      by_cases hn : g.defines n = true
      · simpa only [known, if_pos hn] using ih (Nat.le_of_succ_le_succ hle) hn
      · simpa only [known, if_neg hn] using DeepensTo.fail
    dsimp only
    rw [p.body.matcher_congr (hagree depth), p.body.matcher_congr (hagree depth')]
    exact .production p ((deepensTo_fold hknown).ofSequence p.body)

end Grammar

namespace Parser

/-- The same parser with another limit on nesting. -/
def withDepth (p : Parser) (depth : Nat) : Parser := { p with limits := { p.limits with depth } }

/-- Every run over a built grammar has a threshold. With at least that many levels
    of nesting it is always the same run, which does not get too deep; with fewer it
    gets too deep. Matching in place counts the open productions right and stays
    within the levels, wherever a part starts or ends. -/
theorem depth_threshold (p : Parser) (purpose : Purpose) (tokens : Array Token)
    (hbuilt : p.grammar.defect? = none) (hroot : p.grammar.defines p.root = true) :
    ∃ (needed used : Nat) (r : Result Tree),
      conclude tokens r ≠ .error .tooDeep ∧ concludeAll tokens r ≠ .error .tooDeep ∧
      (∀ caret, suggest caret r ≠ .error .tooDeep) ∧
      ∀ depth,
        let q := p.withDepth depth
        let s := q.run purpose tokens
        (needed ≤ depth → s = r ∧ q.fuelUsed s = used) ∧
        (depth < needed → conclude tokens s = .error .tooDeep ∧
          concludeAll tokens s = .error .tooDeep ∧ ∀ caret, suggest caret s = .error .tooDeep) ∧
        ∃ τ, q.grammar.guardedMachine q.limits.depth q.root ⟨tokens, purpose, q.limits.depth⟩
          (.fresh q) = some (s.outcome, τ) := by
  classical
  let run (depth : Nat) : Result Tree := (p.withDepth depth).run purpose tokens
  have hdeepens {depth depth' : Nat} (hle : depth ≤ depth') :
      (run depth).DeepensTo depth p.limits.fuel (run depth') :=
    (Grammar.Resolved.of_defect? hbuilt).deepensTo hle hroot ⟨tokens, purpose, []⟩
      ⟨0, p.limits.fuel, p.patience⟩
  -- more levels than there is fuel to spend on them are enough
  have hexists : ∃ depth, (run depth).outcome ≠ .aborted .tooDeep := by
    refine ⟨p.limits.fuel + 1, fun hdeep => ?_⟩
    rcases (hdeepens (Nat.le_refl _)).same_or_tooDeep with ⟨-, hopen⟩ | ⟨-, hlevels⟩
    · exact Bool.noConfusion (hopen _ hdeep)
    · exact absurd hlevels (Nat.not_succ_le_self _)
  let needed := Nat.find hexists
  have hends : (run needed).outcome ≠ .aborted .tooDeep := Nat.find_spec hexists
  refine ⟨needed, p.limits.fuel - (run needed).state.fuel, run needed,
    mt (conclude_stop_iff rfl).mp hends, mt (concludeAll_stop_iff rfl).mp hends,
    fun caret => mt (suggest_stop_iff rfl caret).mp hends, fun depth => ⟨fun henough => ?_,
      fun hshort => ?_, ?_⟩⟩
  · obtain ⟨-, ⟨hsame, -⟩ | ⟨hdeep, -⟩⟩ := hdeepens henough
    · exact ⟨hsame, congrArg (p.limits.fuel - ·.state.fuel) hsame⟩
    · exact absurd hdeep hends
  · have hdeep : (run depth).outcome = .aborted .tooDeep :=
      not_not.mp (Nat.find_min hexists hshort)
    exact ⟨(conclude_stop_iff rfl).mpr hdeep, (concludeAll_stop_iff rfl).mpr hdeep,
      fun caret => (suggest_stop_iff rfl caret).mpr hdeep⟩
  · obtain ⟨out, hmachine⟩ := (p.withDepth depth).machine_run purpose tokens
    have hsame := (p.grammar.runs_guardedMachine depth p.root ⟨tokens, purpose, depth⟩
      (.fresh (p.withDepth depth)) ⟨rfl, Nat.zero_le _⟩).1
    exact ⟨_, hsame.trans hmachine⟩

/-- An expression that is a number opens one production for each tier of operators:
    thirteen levels are enough, and fewer are not. -/
theorem depth_threshold_integer : ∃ r : Result Tree, ∀ depth,
    let s := ({ ofGrammar Sqlite.grammar with root := "expr" }.withDepth depth).run .reading
      #[⟨.integer, "1", ⟨0, 1⟩⟩]
    (13 ≤ depth → s = r) ∧ (depth < 13 → s.outcome = .aborted .tooDeep) := by
  obtain ⟨needed, used, r, -, -, -, h⟩ := depth_threshold
    { ofGrammar Sqlite.grammar with root := "expr" } .reading #[⟨.integer, "1", ⟨0, 1⟩⟩]
    (by decide +kernel) (by decide +kernel)
  let run (depth : Nat) : Result Tree :=
    ({ ofGrammar Sqlite.grammar with root := "expr" }.withDepth depth).run .reading
      #[⟨.integer, "1", ⟨0, 1⟩⟩]
  have hmatched : (run 13).outcome.isMatched = true := by decide +kernel
  have hunmatched : (run 12).outcome.isMatched = false := by decide +kernel
  have hle : needed ≤ 13 := by
    by_contra hshort
    have hdeep := (conclude_stop_iff rfl).mp ((h 13).2.1 (Nat.lt_of_not_le hshort)).1
    exact Bool.noConfusion (hmatched.symm.trans (congrArg Outcome.isMatched hdeep))
  have hlt : 12 < needed := by
    by_contra henough
    have hsame : run 12 = run 13 :=
      ((h 12).1 (Nat.le_of_not_lt henough)).1.trans ((h 13).1 hle).1.symm
    rw [hsame, hmatched] at hunmatched
    cases hunmatched
  refine ⟨r, fun depth => ⟨fun henough => ((h depth).1 (Nat.le_trans hle henough)).1, fun hshort =>
    (conclude_stop_iff rfl).mp ((h depth).2.1 (by omega)).1⟩⟩

end Parser

end SqlStatement

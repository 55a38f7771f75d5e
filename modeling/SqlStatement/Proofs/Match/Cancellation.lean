import SqlStatement.Proofs.Grammar.Built
import SqlStatement.Proofs.Match.Heeds
import SqlStatement.Proofs.Match.Stops
import SqlStatement.Session
import SqlStatement.Sqlite

namespace SqlStatement

namespace Grammar

/-- A production that is cancelled from the start is cut short in front of its first
    term, before any fuel is spent. That there is a first term is part of being well
    formed. -/
theorem run_matcher_cancelled {g : Grammar} (hwell : g.WellFormed) {name : String}
    (hname : g.defines name = true) {depth : Nat} (hdepth : 1 ≤ depth) (c : Context)
    (place fuel : Nat) :
    (g.matcher depth name c ⟨place, fuel, some 0⟩).outcome = .aborted .cancelled ∧
      (g.matcher depth name c ⟨place, fuel, some 0⟩).state.fuel = fuel := by
  obtain ⟨depth, rfl⟩ := Nat.exists_eq_add_of_le' hdepth
  obtain ⟨p, hfind⟩ := Option.isSome_iff_exists.mp ((g.find?_isSome name).trans hname)
  have hbody : (Matcher.runBody p (p.body.matcher (g.matcher depth)) c
        ⟨place, fuel, some 0⟩).outcome = .aborted .cancelled ∧
      (Matcher.runBody p (p.body.matcher (g.matcher depth)) c
        ⟨place, fuel, some 0⟩).state.fuel = fuel := by
    rw [p.body.matcher_eq]
    cases hterms : p.body.terms with
    | nil => exact absurd hterms (hwell.sequences_whole _ (body_mem_sequences hfind)).1
    | cons t ts => exact ⟨rfl, rfl⟩
  rw [matcher, hfind]
  refine ⟨(Matcher.run_production_aborted hbody.1).1, ?_⟩
  rw [Matcher.run_production_state]
  exact hbody.2

end Grammar

namespace Parser

/-- The same parser, cancelled behind that many steps if at all. -/
def withPatience (p : Parser) (patience : Option Nat) : Parser := { p with patience }

section Answers

variable {tokens : Array Token} {u r : Result Tree}

/-- What is left of the allowances has no bearing on an answer. -/
theorem conclude_congr (houtcome : r.outcome = u.outcome) (hrecord : r.record = u.record)
    (hposition : r.state.position = u.state.position) : conclude tokens r = conclude tokens u := by
  unfold conclude
  rw [houtcome, hrecord, hposition]

/-- The same for a parse of the whole input. -/
theorem concludeAll_congr (houtcome : r.outcome = u.outcome) (hrecord : r.record = u.record)
    (hposition : r.state.position = u.state.position) :
    concludeAll tokens r = concludeAll tokens u := by
  unfold concludeAll
  rw [conclude_congr houtcome hrecord hposition, hrecord, hposition]

theorem suggest_congr (houtcome : r.outcome = u.outcome) (hrecord : r.record = u.record)
    (caret : Nat) : suggest caret r = suggest caret u := by
  unfold suggest
  rw [houtcome, hrecord]

end Answers

section Cancelled

variable (p : Parser) (hpatience : p.patience = none)

include hpatience

/-- A run that is cancelled behind some steps does the same as the run that is not
    up to there, and tests one more token at most. Then it is cancelled, or it ends
    as the other one with everything that the other one has recorded. -/
theorem run_cancelled_or_same (n : Nat) (purpose : Purpose) (tokens : Array Token) :
    let q := p.withPatience (some n)
    let u := p.run purpose tokens
    let r := q.run purpose tokens
    r.record.steps.take n = u.record.steps.take n ∧
    (r.record.steps.drop n).countP Event.isTest ≤ (if n = 0 then 0 else 1) ∧
    (r.outcome = .aborted .cancelled ∨
      r.outcome = u.outcome ∧ r.record = u.record ∧ r.state.position = u.state.position ∧
        q.fuelUsed r = p.fuelUsed u) := by
  intro q u r
  have h : Result.Heeds 0 1 n u r := by
    have hrun := (p.grammar.heeds_matcher p.limits.depth p.root ⟨tokens, purpose, []⟩ 0
      p.limits.fuel n).2
    rwa [← hpatience] at hrun
  refine ⟨?_, h.tests_le, ?_⟩
  · cases h.cut_or_same with
    | through hsame => rw [hsame]
    | cut _ _ _ htake => exact htake
  · cases h.cut_or_same with
    | through hsame =>
      refine .inr ?_
      rw [hsame]
      exact ⟨rfl, rfl, rfl, rfl⟩
    | cut hcancelled => exact .inl hcancelled

/-- Nothing in between is answered: each of the three entry points says that it is
    cancelled, or gives the answer that it would have given. -/
theorem answers_cancelled_or_same (n : Nat) (tokens : List Token) (caret : Nat) :
    let q := p.withPatience (some n)
    (q.parse tokens = .error .cancelled ∨ q.parse tokens = p.parse tokens) ∧
    (q.parsePrefix tokens = .error .cancelled ∨ q.parsePrefix tokens = p.parsePrefix tokens) ∧
    (q.complete tokens caret = .error .cancelled ∨
      q.complete tokens caret = p.complete tokens caret) := by
  intro q
  have hreading := (p.run_cancelled_or_same hpatience n .reading tokens.toArray).2.2
  have hcompleting := (p.run_cancelled_or_same hpatience n .completing
    (tokens.take (min caret tokens.length)).toArray).2.2
  refine ⟨hreading.imp ?_ ?_, hreading.imp ?_ ?_, hcompleting.imp ?_ ?_⟩
  · exact (q.parse_stop_iff tokens rfl).mpr
  · rintro ⟨houtcome, hrecord, hposition, -⟩
    rw [parse, parse, concludeAll_congr houtcome hrecord hposition]
  · exact (q.parsePrefix_stop_iff tokens rfl).mpr
  · rintro ⟨houtcome, hrecord, hposition, -⟩
    rw [parsePrefix, parsePrefix, conclude_congr houtcome hrecord hposition]
  · exact (q.complete_stop_iff tokens rfl caret).mpr
  · rintro ⟨houtcome, hrecord, -⟩
    exact suggest_congr houtcome hrecord _

end Cancelled

/-- A parser that is cancelled from the start spends and tests nothing. It reports
    that it enters the root, and ends at the first look at the flag. -/
theorem run_cancelled (p : Parser) (hpatience : p.patience = some 0)
    (hbuilt : p.grammar.defect? = none) (hroot : p.grammar.defines p.root = true)
    (hdepth : 1 ≤ p.limits.depth) (purpose : Purpose) (tokens : Array Token) :
    let r := p.run purpose tokens
    r.outcome = .aborted .cancelled ∧ p.fuelUsed r = 0 ∧
      r.record.steps.countP Event.isTest = 0 := by
  intro r
  obtain ⟨houtcome, hfuel⟩ := Grammar.run_matcher_cancelled
    (Grammar.defect?_eq_none_iff.mp hbuilt) hroot hdepth ⟨tokens, purpose, []⟩ 0 p.limits.fuel
  have htests := (p.grammar.heeds_matcher p.limits.depth p.root ⟨tokens, purpose, []⟩ 0
    p.limits.fuel 0).2.tests_le
  rw [← hpatience] at houtcome hfuel htests
  exact ⟨houtcome, Nat.sub_eq_zero_of_le (Nat.le_of_eq hfuel.symm), Nat.le_zero.mp htests⟩

end Parser

namespace Session

/-- A parse whose flag is set while it runs is cancelled or ends as if it were not.
    Up to the step that sets the flag it does the same, and behind it one more token
    is tested at most. A parse whose flag is set before it starts is cancelled
    before it spends or tests anything. -/
theorem cancelled_or_same (s : Session) (hattached : s.attached = true)
    (hclear : s.cancelled = false) (hbuilt : s.grammar.defect? = none)
    (hroot : s.grammar.defines s.root = true) (hdepth : 1 ≤ s.limits.depth) :
    let p := s.observedParser none
    let stopped := { s with cancelled := true }.parser
    (∀ (cancelAfter : Nat) (purpose : Purpose) (tokens : Array Token),
      let q := s.observedParser (some cancelAfter)
      let u := p.run purpose tokens
      let r := q.run purpose tokens
      r.record.steps.take (cancelAfter + 1) = u.record.steps.take (cancelAfter + 1) ∧
      (r.record.steps.drop (cancelAfter + 1)).countP Event.isTest ≤ 1 ∧
      (r.outcome = .aborted .cancelled ∨
        r.outcome = u.outcome ∧ r.record = u.record ∧ r.state.position = u.state.position ∧
          q.fuelUsed r = p.fuelUsed u)) ∧
    (∀ (cancelAfter : Nat) (tokens : List Token) (caret : Nat),
      let q := s.observedParser (some cancelAfter)
      (q.parse tokens = .error .cancelled ∨ q.parse tokens = p.parse tokens) ∧
      (q.parsePrefix tokens = .error .cancelled ∨ q.parsePrefix tokens = p.parsePrefix tokens) ∧
      (q.complete tokens caret = .error .cancelled ∨
        q.complete tokens caret = p.complete tokens caret)) ∧
    (∀ (purpose : Purpose) (tokens : Array Token),
      let r := stopped.run purpose tokens
      r.outcome = .aborted .cancelled ∧ stopped.fuelUsed r = 0 ∧
        r.record.steps.countP Event.isTest = 0) ∧
    ∀ (tokens : List Token) (caret : Nat), stopped.parse tokens = .error .cancelled ∧
      stopped.parsePrefix tokens = .error .cancelled ∧
      stopped.complete tokens caret = .error .cancelled := by
  have hpatience : s.parser.patience = none := by simp [parser, hclear]
  have hclean : s.observedParser none = s.parser := by
    simp [observedParser, hattached, hclear, parser]
  have hobserved (cancelAfter : Nat) :
      s.observedParser (some cancelAfter) = s.parser.withPatience (some (cancelAfter + 1)) := by
    simp [observedParser, hattached, hclear, Parser.withPatience]
  have hstopped (purpose : Purpose) (tokens : Array Token) :=
    Parser.run_cancelled { s with cancelled := true }.parser (by simp [parser, hattached]) hbuilt
      hroot hdepth purpose tokens
  simp only [hclean, hobserved]
  refine ⟨fun cancelAfter => s.parser.run_cancelled_or_same hpatience (cancelAfter + 1),
    fun cancelAfter => s.parser.answers_cancelled_or_same hpatience (cancelAfter + 1), hstopped,
    fun tokens caret => ⟨?_, ?_, ?_⟩⟩
  · exact (Parser.parse_stop_iff _ tokens rfl).mpr (hstopped ..).1
  · exact (Parser.parsePrefix_stop_iff _ tokens rfl).mpr (hstopped ..).1
  · exact (Parser.complete_stop_iff _ tokens rfl caret).mpr (hstopped ..).1

/-- A `BEGIN` whose flag is set halfway is cancelled, although it is a statement,
    and so is any text whose flag is set before. -/
theorem cancelled_or_same_begin :
    let s : Session := { Session.ofGrammar Sqlite.grammar with attached := true }
    let p := s.observedParser none
    let q := s.observedParser (some 20)
    (p.parse [⟨.keyword .BEGIN, "BEGIN", ⟨0, 5⟩⟩]).toBool = true ∧
      q.parse [⟨.keyword .BEGIN, "BEGIN", ⟨0, 5⟩⟩] = .error .cancelled ∧
      ∀ tokens, { s with cancelled := true }.parser.parse tokens = .error .cancelled := by
  intro s p q
  obtain ⟨-, hwhile, -, hbefore⟩ := cancelled_or_same s rfl rfl (by decide +kernel)
    (by decide +kernel) (by decide)
  have hread : (p.parse [⟨.keyword .BEGIN, "BEGIN", ⟨0, 5⟩⟩]).toBool = true := by decide +kernel
  refine ⟨hread, ?_, fun tokens => (hbefore tokens 0).1⟩
  refine (hwhile 20 [⟨.keyword .BEGIN, "BEGIN", ⟨0, 5⟩⟩] 0).1.resolve_right fun hsame => ?_
  have hunread : (q.parse [⟨.keyword .BEGIN, "BEGIN", ⟨0, 5⟩⟩]).toBool = false := by decide +kernel
  rw [hsame] at hunread
  exact Bool.noConfusion (hunread.symm.trans hread)

end Session

end SqlStatement

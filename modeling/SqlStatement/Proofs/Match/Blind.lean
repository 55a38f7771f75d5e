import SqlStatement.Proofs.Match.Outline

namespace SqlStatement

/-- Two runs differ at most in what they have reported. -/
structure Result.Alike {α : Type} (r r' : Result α) : Prop where
  outcome_eq : r'.outcome = r.outcome
  state_eq : r'.state = r.state
  misses_eq : r'.record.misses = r.record.misses

/-- Whatever productions are open around it a matcher does the same, with values as
    said. The stack of open productions only goes into what a match reports. -/
def Matcher.Blind {α : Type} (Q : α → Prop) (m : Matcher α) : Prop :=
  ∀ c stack s, (∀ a, (m c s).outcome = .matched a → Q a) ∧ (m c s).Alike (m { c with stack } s)

/-- To differ at most in what is reported is to quote the same. -/
theorem Result.quotes_id {α : Type} {r r' : Result α} : r'.Quotes id r ↔ r.Alike r' := by
  constructor
  · intro h
    exact ⟨h.outcome_eq.trans (Outcome.quote_id _), h.state_eq, h.misses_eq⟩
  · intro h
    exact ⟨h.outcome_eq.trans (Outcome.quote_id _).symm, h.state_eq, h.misses_eq⟩

/-- To look at the tokens as they are only changes the open productions. -/
theorem Context.view_whole (stack : List String) (c : Context) :
    c.view .whole stack = { c with stack } := by
  simp [Context.view, View.whole]

namespace Matcher

variable {α : Type} {Q : α → Prop} {m : Matcher α}

/-- To be blind is to see all of the tokens and nothing of the stack. The rules for
    it are those for a view, of which this is the one that leaves tokens as they
    are. -/
theorem blind_iff_sees : Blind Q m ↔ Sees .whole Q m := by
  simp only [Blind, Sees, Context.view_whole]
  exact forall₃_congr fun c stack s => and_congr_right' Result.quotes_id.symm

theorem Blind.sees (h : Blind Q m) : Sees .whole Q m :=
  blind_iff_sees.mp h

theorem Sees.blind (h : Sees .whole Q m) : Blind Q m :=
  blind_iff_sees.mpr h

end Matcher

namespace Discipline

open Matcher

/-- Not looking at the open productions is a discipline, so two attempts of a
    production at one place differ only in their reports. -/
def blind : Discipline where
  Holds := Blind
  Place _ := True
  Allowed _ := True
  pure ha := (Sees.pure ha).blind
  bind hm hf := (Sees.bind hm.sees fun a ha => (hf a ha).sees).blind
  fail := (sees .whole).fail.blind
  unknown name := ((sees .whole).unknown name).blind
  tooDeep := (sees .whole).tooDeep.blind
  position := Sees.position.blind
  seek h := ((sees .whole).seek h).blind
  report h := ((sees .whole).report h).blind
  charge := (sees .whole).charge.blind
  checkPatience := (sees .whole).checkPatience.blind
  attempt hm := (Sees.attempt hm.sees).blind
  candidate branch start hm := (Sees.candidate branch start hm.sees).blind
  judge hm hverdict := ((sees .whole).judge hm.sees fun a next h => (hverdict a next h).sees).blind
  leaf h := ((sees .whole).leaf h).blind
  breakpoint := Sees.breakpoint.blind
  production p _ hbody := (Sees.production p hbody.sees).blind
  iterate hturn first := (Sees.iterate (fun first => (hturn first).sees) first).blind

end Discipline

end SqlStatement

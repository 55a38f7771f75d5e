import SqlStatement.Parser

namespace SqlStatement

/-- Whether an error is not about the input, so that the parse was stopped. -/
def ParseError.isStop : ParseError → Bool
  | .input _ => false
  | _ => true

namespace Parser

section Answers

variable {tokens : Array Token} {r : Result Tree} {e : ParseError}

/-- A prefix parse answers with the reason for which its run was stopped, and with
    no other. -/
theorem conclude_stop_iff (he : e.isStop = true) :
    conclude tokens r = .error e ↔ r.outcome = .aborted e := by
  unfold conclude
  cases r.outcome with
  | matched tree => simp
  | failed =>
    simp only [Except.error.injEq, reduceCtorEq, iff_false]
    rintro rfl
    exact Bool.noConfusion he
  | aborted e' => simp

/-- The same for a parse of the whole input, which turns no other ending into such a
    reason. -/
theorem concludeAll_stop_iff (he : e.isStop = true) :
    concludeAll tokens r = .error e ↔ r.outcome = .aborted e := by
  have h : conclude tokens r = .error e ↔ r.outcome = .aborted e := conclude_stop_iff he
  rw [← h, concludeAll]
  cases conclude tokens r with
  | error e' => rfl
  | ok tree =>
    dsimp only
    split
    · simp
    · simp only [Except.error.injEq, reduceCtorEq, iff_false]
      rintro rfl
      exact Bool.noConfusion he

/-- The same for a completion. An input error is no reason to stop it: the misses up
    to there are suggested. -/
theorem suggest_stop_iff (he : e.isStop = true) (caret : Nat) :
    suggest caret r = .error e ↔ r.outcome = .aborted e := by
  unfold suggest
  cases r.outcome with
  | matched | failed => simp
  | aborted e' =>
    cases e' with
    | input error =>
      simp only [reduceCtorEq, Outcome.aborted.injEq, false_iff]
      rintro rfl
      exact Bool.noConfusion he
    | outOfFuel | tooDeep | cancelled | unknownProduction => simp

end Answers

section Parse

variable (p : Parser) (tokens : List Token) {e : ParseError}

/-- A parse is stopped just when its run is. Being out of fuel, too deep, cancelled
    or without a production to start from are the reasons. -/
theorem parse_stop_iff (he : e.isStop = true) :
    p.parse tokens = .error e ↔ (p.run .reading tokens.toArray).outcome = .aborted e := by
  have h : concludeAll tokens.toArray (p.run .reading tokens.toArray) = .error e ↔
      (p.run .reading tokens.toArray).outcome = .aborted e := concludeAll_stop_iff he
  rw [← h, parse]
  cases concludeAll tokens.toArray (p.run .reading tokens.toArray) with
  | error e' => simp [Bind.bind, Except.bind]
  | ok tree => simp [Bind.bind, Except.bind, Pure.pure, Except.pure]

/-- A prefix parse makes the same run. So it is stopped for the same reason. -/
theorem parsePrefix_stop_iff (he : e.isStop = true) :
    p.parsePrefix tokens = .error e ↔ (p.run .reading tokens.toArray).outcome = .aborted e := by
  have h : conclude tokens.toArray (p.run .reading tokens.toArray) = .error e ↔
      (p.run .reading tokens.toArray).outcome = .aborted e := conclude_stop_iff he
  rw [← h, parsePrefix]
  cases conclude tokens.toArray (p.run .reading tokens.toArray) with
  | error e' => simp [Bind.bind, Except.bind]
  | ok tree => simp [Bind.bind, Except.bind, Pure.pure, Except.pure]

/-- A completion is stopped just when the run over the tokens in front of the caret
    is. -/
theorem complete_stop_iff (he : e.isStop = true) (caret : Nat) :
    p.complete tokens caret = .error e ↔
      (p.run .completing (tokens.take (min caret tokens.length)).toArray).outcome = .aborted e :=
  suggest_stop_iff he _

end Parse

end Parser

end SqlStatement

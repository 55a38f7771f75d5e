import SqlStatement.Proofs.Machine.Refinement
import SqlStatement.Proofs.Match.Discipline
import SqlStatement.Proofs.Match.Stops

namespace SqlStatement

/-- A run that is not cancelled and has all the fuel that it asks for. -/
structure Course (α : Type) where
  /-- The fuel that the run spends. -/
  cost : Nat
  outcome : Outcome α
  /-- Where the run stops. -/
  position : Nat
  record : Record

/-- The result of a run that had `left` more fuel than it has spent. -/
def Course.result {α : Type} (course : Course α) (left : Nat) : Result α :=
  ⟨course.outcome, ⟨course.position, left, none⟩, course.record⟩

/-- From `start` a matcher takes a course if it has enough fuel for it, and spends
    all of its fuel in vain otherwise. In particular it ends without the help of the
    fuel. -/
structure Matcher.Takes {α : Type} (c : Context) (start : Nat) (m : Matcher α)
    (course : Course α) : Prop where
  ends : course.outcome ≠ .aborted .outOfFuel
  enough : ∀ left, m c ⟨start, course.cost + left, none⟩ = course.result left
  short : ∀ fuel, fuel < course.cost → (m c ⟨start, fuel, none⟩).outcome = .aborted .outOfFuel ∧
    (m c ⟨start, fuel, none⟩).state.fuel = 0

/-- From every place a matcher takes some course, with a value as said. -/
def Matcher.Metered {α : Type} (Q : α → Prop) (m : Matcher α) : Prop :=
  ∀ c start, ∃ course, m.Takes c start course ∧ ∀ a, course.outcome = .matched a → Q a

namespace Matcher

variable {α β γ : Type} {c : Context} {start : Nat}

/-- A matcher that ends where its first part ends. An attempt and a list of misses
    to listen to are of this kind. Where the first part runs out of fuel, so must
    the whole. -/
theorem Takes.ended {m : Matcher α} {whole : Matcher β} {course : Course α}
    (hm : m.Takes c start course) {o : Outcome β} (hends : o ≠ .aborted .outOfFuel)
    (haborts : ∀ s, (m c s).outcome = .aborted .outOfFuel →
      (whole c s).outcome = .aborted .outOfFuel ∧ (whole c s).state = (m c s).state)
    (hwhole : ∀ fuel left, m c ⟨start, fuel, none⟩ = course.result left →
      whole c ⟨start, fuel, none⟩ = ⟨o, ⟨course.position, left, none⟩, course.record⟩) :
    whole.Takes c start ⟨course.cost, o, course.position, course.record⟩ where
  ends := hends
  enough left := hwhole _ _ (hm.enough left)
  short fuel hshort := by
    obtain ⟨houtcome, hfuel⟩ := hm.short fuel hshort
    obtain ⟨haborted, hstate⟩ := haborts _ houtcome
    exact ⟨haborted, by rw [hstate, hfuel]⟩

/-- A matcher that goes on with `rest` behind its first part spends what both of
    them spend. -/
theorem Takes.followed {m : Matcher α} {rest : Matcher γ} {whole : Matcher β} {course : Course α}
    {course' : Course γ} (hm : m.Takes c start course) (value : Outcome γ → Outcome β)
    (hrest : rest.Takes c course.position course')
    (hends : value course'.outcome ≠ .aborted .outOfFuel)
    (hshort : value (.aborted .outOfFuel) = .aborted .outOfFuel)
    (haborts : ∀ s, (m c s).outcome = .aborted .outOfFuel →
      (whole c s).outcome = .aborted .outOfFuel ∧ (whole c s).state = (m c s).state)
    (hwhole : ∀ fuel left, m c ⟨start, fuel, none⟩ = course.result left →
      whole c ⟨start, fuel, none⟩ = ⟨value (rest c ⟨course.position, left, none⟩).outcome,
        (rest c ⟨course.position, left, none⟩).state,
        course.record ++ (rest c ⟨course.position, left, none⟩).record⟩) :
    whole.Takes c start ⟨course.cost + course'.cost, value course'.outcome, course'.position,
      course.record ++ course'.record⟩ where
  ends := hends
  enough left := by
    have hfirst : m c ⟨start, course.cost + course'.cost + left, none⟩ =
        course.result (course'.cost + left) := by
      rw [Nat.add_assoc]
      exact hm.enough _
    rw [hwhole _ _ hfirst, hrest.enough left]
    rfl
  short fuel hfuel := by
    dsimp only at hfuel
    by_cases hfirst : fuel < course.cost
    · obtain ⟨houtcome, hspent⟩ := hm.short fuel hfirst
      obtain ⟨haborted, hstate⟩ := haborts _ houtcome
      exact ⟨haborted, by rw [hstate, hspent]⟩
    · obtain ⟨left, rfl⟩ := Nat.exists_eq_add_of_le (Nat.le_of_not_lt hfirst)
      obtain ⟨houtcome, hspent⟩ := hrest.short left (by omega)
      rw [hwhole _ _ (hm.enough left)]
      exact ⟨by rw [houtcome, hshort], hspent⟩

namespace Metered

/-- A step that spends no fuel and does not look at it. Its course costs nothing, so
    no amount of fuel is too little. -/
theorem of_free {Q : α → Prop} {m : Matcher α}
    (h : ∀ c start, ∃ o position record, o ≠ .aborted .outOfFuel ∧
      (∀ a, o = .matched a → Q a) ∧
      ∀ fuel, m c ⟨start, fuel, none⟩ = ⟨o, ⟨position, fuel, none⟩, record⟩) : Metered Q m := by
  intro c start
  obtain ⟨o, position, record, hends, hvalue, hrun⟩ := h c start
  refine ⟨⟨0, o, position, record⟩, ⟨hends, fun left => ?_, fun fuel hfuel => ?_⟩, hvalue⟩
  · simpa [Course.result] using hrun left
  · exact absurd hfuel (Nat.not_lt_zero fuel)

/-- A charge takes one unit or runs out of fuel. These are the two cases of the
    definition of a course. -/
theorem charge : Metered (fun _ => True) Matcher.charge := by
  intro c start
  refine ⟨⟨1, .matched (), start, .empty⟩, ⟨nofun, fun left => ?_, fun fuel hfuel => ?_⟩,
    fun _ _ => trivial⟩
  · rw [Nat.add_comm]
    rfl
  · have hzero : fuel = 0 := Nat.lt_one_iff.mp hfuel
    subst hzero
    exact ⟨rfl, rfl⟩

/-- The course of two parts is the one behind the other. What the first part needs,
    the whole needs at least, so it runs out of fuel there or later. -/
theorem bind {Q : α → Prop} {R : β → Prop} {m : Matcher α} {f : α → Matcher β}
    (hm : Metered Q m) (hf : ∀ a, Q a → Metered R (f a)) : Metered R (m >>= f) := by
  intro c start
  obtain ⟨course, hcourse, hvalue⟩ := hm c start
  have haborts (s : State) (h : (m c s).outcome = .aborted .outOfFuel) :
      ((m >>= f) c s).outcome = .aborted .outOfFuel ∧ ((m >>= f) c s).state = (m c s).state := by
    rw [run_bind_aborted h]
    exact ⟨rfl, rfl⟩
  cases houtcome : course.outcome with
  | matched a =>
    obtain ⟨course', hcourse', hvalue'⟩ := hf a (hvalue a houtcome) c course.position
    refine ⟨_, hcourse.followed id hcourse' hcourse'.ends rfl haborts ?_, hvalue'⟩
    intro fuel left hrun
    have hmatched : (m c ⟨start, fuel, none⟩).outcome = .matched a := by
      rw [hrun]
      exact houtcome
    rw [run_bind_matched hmatched, hrun]
    rfl
  | failed =>
    refine ⟨_, hcourse.ended (o := .failed) nofun haborts fun fuel left hrun => ?_, nofun⟩
    rw [run_bind_failed (by rw [hrun]; exact houtcome), hrun]
    rfl
  | aborted e =>
    have hends : (.aborted e : Outcome β) ≠ .aborted .outOfFuel := by
      intro h
      apply hcourse.ends
      rw [houtcome, Outcome.aborted.inj h]
    refine ⟨_, hcourse.ended (o := .aborted e) hends haborts fun fuel left hrun => ?_, nofun⟩
    rw [run_bind_aborted (by rw [hrun]; exact houtcome), hrun]
    rfl

/-- A matcher whose runs differ from those of `m` only in their outcome. Running out
    of fuel has to stay what it is, and nothing else may become it. -/
theorem mapped {Q : β → Prop} {m : Matcher α} {whole : Matcher β}
    (hm : Metered (fun _ => True) m) (value : Outcome α → Record → Outcome β)
    (hwhole : ∀ c s, whole c s =
      ⟨value (m c s).outcome (m c s).record, (m c s).state, (m c s).record⟩)
    (hshort : ∀ o record, value o record = .aborted .outOfFuel ↔ o = .aborted .outOfFuel)
    (hvalue : ∀ o record b, value o record = .matched b → Q b) : Metered Q whole := by
  intro c start
  obtain ⟨course, hcourse, -⟩ := hm c start
  refine ⟨⟨course.cost, value course.outcome course.record, course.position, course.record⟩,
    ⟨?_, fun left => ?_, fun fuel hfuel => ?_⟩, hvalue _ _⟩
  · intro h
    exact hcourse.ends ((hshort _ _).mp h)
  · rw [hwhole, hcourse.enough left]
    rfl
  · obtain ⟨houtcome, hspent⟩ := hcourse.short fuel hfuel
    rw [hwhole]
    exact ⟨(hshort _ _).mpr houtcome, hspent⟩

/-- Running out of fuel is not a failure, so an attempt passes it on. So what is
    attempted asks for the same fuel. -/
theorem attempt {m : Matcher α} (hm : Metered (fun _ => True) m) :
    Metered (fun _ => True) m.attempt := by
  apply hm.mapped (fun o _ => o.attempted) (fun c s => run_attempt m c s)
  · intro o _
    cases o <;> simp [Outcome.attempted]
  · exact fun _ _ _ _ => trivial

theorem listen {m : Matcher α} (hm : Metered (fun _ => True) m) :
    Metered (fun _ => True) m.listen := by
  apply hm.mapped (fun o record => o.map fun a => (a, record.misses))
    (fun c s => run_listen m c s)
  · intro o _
    cases o <;> simp [Outcome.map]
  · exact fun _ _ _ _ => trivial

theorem pure {Q : α → Prop} {a : α} (ha : Q a) : Metered Q (Pure.pure a) := by
  apply of_free
  intro c start
  refine ⟨.matched a, start, .empty, nofun, fun b hb => ?_, fun _ => rfl⟩
  cases hb
  exact ha

/-- Giving up for another reason costs nothing. -/
theorem abort {e : ParseError} (he : e ≠ .outOfFuel) :
    Metered (fun _ => True) (Matcher.abort e : Matcher α) := by
  apply of_free
  intro c start
  refine ⟨.aborted e, start, .empty, fun h => ?_, nofun, fun _ => rfl⟩
  exact he (Outcome.aborted.inj h)

theorem position : Metered (fun _ => True) Matcher.position :=
  of_free fun _ start => ⟨.matched start, start, .empty, nofun, fun _ _ => trivial, fun _ => rfl⟩

theorem context : Metered (fun _ => True) Matcher.context :=
  of_free fun c start => ⟨.matched c, start, .empty, nofun, fun _ _ => trivial, fun _ => rfl⟩

theorem peek : Metered (fun _ => True) Matcher.peek :=
  of_free fun c start =>
    ⟨.matched c.tokens[start]?, start, .empty, nofun, fun _ _ => trivial, fun _ => rfl⟩

theorem expect (expected : List Expectation) : Metered (fun _ => True) (Matcher.expect expected) :=
  of_free fun _ start => ⟨.matched (), start,
    { Record.empty with misses := .ofList (expected.map fun e => ⟨start, e⟩) },
    nofun, fun _ _ => trivial, fun _ => rfl⟩

theorem mark (b : Breakpoint) : Metered (fun _ => True) (Matcher.mark b) :=
  of_free fun _ start => ⟨.matched (), start, { Record.empty with breakpoints := .single b },
    nofun, fun _ _ => trivial, fun _ => rfl⟩

theorem advance : Metered (fun _ => True) Matcher.advance :=
  of_free fun _ start => ⟨.matched (), start + 1, .empty, nofun, fun _ _ => trivial, fun _ => rfl⟩

theorem seek (target : Nat) : Metered (fun _ => True) (Matcher.seek target) :=
  of_free fun _ _ => ⟨.matched (), target, .empty, nofun, fun _ _ => trivial, fun _ => rfl⟩

theorem fail {Q : α → Prop} : Metered Q (Matcher.fail : Matcher α) :=
  of_free fun _ start => ⟨.failed, start, .empty, nofun, nofun, fun _ => rfl⟩

theorem report (e : Event) : Metered (fun _ => True) (Matcher.report e) := by
  apply of_free
  intro c start
  refine ⟨.matched (), start, { Record.empty with events := .single e }, nofun,
    fun _ _ => trivial, fun fuel => ?_⟩
  unfold Matcher.report
  split <;> rfl

theorem blame (misses : Journal Miss) :
    Metered (fun _ => True) (Matcher.blame misses : Matcher α) :=
  bind context fun _ _ => bind position fun _ _ => bind (report _) fun _ _ => abort nofun

/-- A leaf is free, since the charge stands in front of it. Whether it accepts its
    token or not is decided without looking at the fuel. -/
theorem leaf (l : Grammar.Leaf) : Metered (fun _ => True) (Matcher.leaf l) := by
  refine bind position fun here _ => bind peek fun token? _ => ?_
  cases token? with
  | none => exact bind (expect _) fun _ _ => bind (report _) fun _ _ => fail
  | some token =>
    dsimp only
    split
    · exact bind (report _) fun _ _ => bind advance fun _ _ => pure trivial
    · exact bind (expect _) fun _ _ => bind (report _) fun _ _ => fail

/-- A breakpoint is free for the same reason. -/
theorem breakpoint : Metered (fun _ => True) Matcher.breakpoint := by
  refine bind context fun c _ => bind position fun here _ => bind (report _) fun _ _ => ?_
  dsimp only
  split
  · exact bind (mark _) fun _ _ => pure trivial
  · exact pure trivial

/-- Other misses behind a failure cost nothing. The record of a course that fails is
    changed in the same way. -/
theorem onFailure (f : Journal Miss → Journal Miss) {m : Matcher α}
    (hm : Metered (fun _ => True) m) : Metered (fun _ => True) (m.onFailure f) := by
  intro c start
  obtain ⟨course, hcourse, -⟩ := hm c start
  refine ⟨⟨course.cost, course.outcome, course.position, course.outcome.amend f course.record⟩,
    ⟨hcourse.ends, fun left => ?_, fun fuel hfuel => ?_⟩, fun _ _ => trivial⟩
  · rw [run_onFailure, hcourse.enough left]
    rfl
  · rw [run_onFailure]
    exact hcourse.short fuel hfuel

theorem within (name : String) {m : Matcher α} (hm : Metered (fun _ => True) m) :
    Metered (fun _ => True) (m.within name) := by
  intro c start
  obtain ⟨course, hcourse, -⟩ := hm { c with stack := name :: c.stack } start
  have hwithin (fuel : Nat) : m.within name c ⟨start, fuel, none⟩ =
      let r := m { c with stack := name :: c.stack } ⟨start, fuel, none⟩
      ⟨r.outcome, { r.state with patience := r.state.patience.map (· - 1) },
        { Record.empty with events := .single (.enter name start) } ++ r.record ++
          { Record.empty with
            events := .single (.exit name r.outcome.isMatched r.state.position) }⟩ := rfl
  refine ⟨⟨course.cost, course.outcome, course.position,
    { Record.empty with events := .single (.enter name start) } ++ course.record ++
      { Record.empty with
        events := .single (.exit name course.outcome.isMatched course.position) }⟩,
    ⟨hcourse.ends, fun left => ?_, fun fuel hfuel => ?_⟩, fun _ _ => trivial⟩
  · rw [hwithin, hcourse.enough left]
    rfl
  · rw [hwithin]
    exact hcourse.short fuel hfuel

/-- A production costs what its body costs. The steps around the body neither charge
    nor fail for want of fuel. -/
theorem production (p : Grammar.Production) {body : Matcher (Bool × List Tree)}
    (hbody : Metered (fun _ => True) body) :
    Metered (fun _ => True) (Matcher.production p body) := by
  refine bind position fun start _ => bind context fun c _ => ?_
  refine bind (onFailure _ (within p.name hbody)) fun x _ => ?_
  exact bind position fun stop _ => pure trivial

/-- A repetition takes a course if its turns do. It ends because every turn that is
    followed by another one has got further, by induction on the tokens that are
    left. -/
theorem iterate {item : Matcher (Bool × List Tree)}
    {separator : Option (Matcher (Bool × List Tree))}
    (hturn : ∀ first : Bool, Metered (fun _ => True)
      (iteration item (if first then none else separator))) (first : Bool) :
    Metered (fun _ => True) (Matcher.iterate item separator first) := by
  intro c start
  -- Each turn that goes on comes closer to the end of the tokens.
  induction hleft : c.tokens.size - start using Nat.strongRecOn generalizing start first with
  | _ left ih =>
  obtain ⟨course, hcourse, -⟩ := hturn first c start
  generalize hm : iteration item (if first then none else separator) = m at hcourse
  have haborts (s : State) (h : (m c s).outcome = .aborted .outOfFuel) :
      (Matcher.iterate item separator first c s).outcome = .aborted .outOfFuel ∧
        (Matcher.iterate item separator first c s).state = (m c s).state := by
    rw [run_iterate_aborted (by rw [hm]) h]
    exact ⟨rfl, rfl⟩
  cases houtcome : course.outcome with
  | matched found =>
    cases found with
    | none =>
      refine ⟨_, hcourse.ended (o := .matched (0, [])) (by simp) haborts fun fuel more hrun => ?_,
        fun _ _ => trivial⟩
      exact run_iterate_over (by rw [hm, hrun]) houtcome
    | some nodes =>
      by_cases hprogress : c.tokens.size - course.position < c.tokens.size - start
      · obtain ⟨rest, hrest, -⟩ := ih _ (hleft ▸ hprogress) false course.position rfl
        refine ⟨_, hcourse.followed
          (Outcome.map fun x => (x.1 + 1, nodes ++ x.2)) hrest ?_ rfl haborts
          (fun fuel more hrun => ?_), fun _ _ => trivial⟩
        · intro h
          apply hrest.ends
          cases hends : rest.outcome <;> simp_all [Outcome.map]
        · exact run_iterate_next (by rw [hm, hrun]) houtcome hprogress
      · refine ⟨_, hcourse.ended (o := .matched (0, [])) (by simp) haborts fun fuel more hrun => ?_,
          fun _ _ => trivial⟩
        exact run_iterate_still (by rw [hm, hrun]) houtcome hprogress
  | failed =>
    refine ⟨_, hcourse.ended (o := .failed) (by simp) haborts fun fuel more hrun => ?_,
      fun _ _ => trivial⟩
    exact run_iterate_failed (by rw [hm, hrun]) houtcome
  | aborted e =>
    have hends : (.aborted e : Outcome (Nat × List Tree)) ≠ .aborted .outOfFuel := by
      intro h
      apply hcourse.ends
      rw [houtcome, Outcome.aborted.inj h]
    refine ⟨_, hcourse.ended (o := .aborted e) hends haborts fun fuel more hrun => ?_,
      fun _ _ => trivial⟩
    exact run_iterate_aborted (by rw [hm, hrun]) houtcome

end Metered

end Matcher

namespace Discipline

open Matcher

/-- Spending fuel at a fixed rate is a discipline, so a match of any grammar ends by
    itself. -/
def metered : Discipline where
  Holds := Metered
  Place _ := True
  Allowed _ := True
  pure := Metered.pure
  bind := Metered.bind
  fail := Metered.fail
  unknown _ := Metered.abort nofun
  tooDeep := Metered.abort nofun
  position := Metered.position
  seek _ := Metered.seek _
  report _ := Metered.report _
  charge := Metered.charge
  checkPatience := .of_free fun _ start =>
    ⟨.matched (), start, .empty, nofun, fun _ _ => trivial, fun _ => rfl⟩
  attempt := Metered.attempt
  candidate branch start hm := .bind .context fun c _ => .bind (.report _) fun _ _ => hm
  judge {_ _ m verdict} hm hverdict := .bind (.listen hm) fun x _ => by
    cases h : verdict x.1 with
    | none => exact .blame x.2
    | some next => exact hverdict x.1 next h
  leaf _ := Metered.leaf _
  breakpoint := Metered.breakpoint
  production p _ hbody := Metered.production p hbody
  iterate := Metered.iterate

end Discipline

namespace Parser

/-- The same parser with another amount of fuel. -/
def withFuel (p : Parser) (fuel : Nat) : Parser := { p with limits := { p.limits with fuel } }

/-- Every run has a threshold. With at least that much fuel it always ends in the
    same way, which is not for want of fuel, and spends exactly that much; with less
    it runs out of fuel and spends all of it. Matching in place does the same
    without breaking down, so no repetition turns for ever. -/
theorem fuel_threshold (p : Parser) (purpose : Purpose) (tokens : Array Token)
    (hpatience : p.patience = none) :
    ∃ (needed : Nat) (answer whole : Except ParseError Tree),
      answer ≠ .error .outOfFuel ∧ whole ≠ .error .outOfFuel ∧
      ∀ fuel,
        let q := p.withFuel fuel
        let r := q.run purpose tokens
        (needed ≤ fuel →
          conclude tokens r = answer ∧ concludeAll tokens r = whole ∧ q.fuelUsed r = needed) ∧
        (fuel < needed → conclude tokens r = .error .outOfFuel ∧
          concludeAll tokens r = .error .outOfFuel ∧ q.fuelUsed r = fuel) ∧
        ∃ τ, q.grammar.machine q.limits.depth q.root ⟨tokens, purpose, q.limits.depth⟩ (.fresh q) =
          some (r.outcome, τ) ∧ τ.fuel + q.fuelUsed r = fuel := by
  obtain ⟨course, hcourse, -⟩ := Discipline.metered.keeps_matcher (g := p.grammar)
    (fun _ _ => trivial) p.limits.depth p.root ⟨tokens, purpose, []⟩ 0
  have hrun (fuel : Nat) : (p.withFuel fuel).run purpose tokens =
      p.grammar.matcher p.limits.depth p.root ⟨tokens, purpose, []⟩ ⟨0, fuel, none⟩ := by
    rw [← hpatience]
    rfl
  refine ⟨course.cost, conclude tokens (course.result 0), concludeAll tokens (course.result 0),
    mt (conclude_stop_iff rfl).mp hcourse.ends, mt (concludeAll_stop_iff rfl).mp hcourse.ends,
    fun fuel => ?_⟩
  have hused (r : Result Tree) : (p.withFuel fuel).fuelUsed r = fuel - r.state.fuel := rfl
  have hle : ((p.withFuel fuel).run purpose tokens).state.fuel ≤ fuel := by
    rw [hrun]
    by_cases henough : course.cost ≤ fuel
    · obtain ⟨left, rfl⟩ := Nat.exists_eq_add_of_le henough
      rw [hcourse.enough left]
      exact Nat.le_add_left left course.cost
    · rw [(hcourse.short fuel (Nat.lt_of_not_le henough)).2]
      exact Nat.zero_le fuel
  refine ⟨fun henough => ?_, fun hshort => ?_, ?_⟩
  · obtain ⟨left, rfl⟩ := Nat.exists_eq_add_of_le henough
    rw [hused, hrun, hcourse.enough left]
    exact ⟨rfl, rfl, Nat.add_sub_cancel ..⟩
  · obtain ⟨houtcome, hspent⟩ := hcourse.short fuel hshort
    have hconclude : conclude tokens ((p.withFuel fuel).run purpose tokens) =
        .error .outOfFuel := by
      rw [hrun]
      simp only [conclude, houtcome]
    refine ⟨hconclude, by simp only [concludeAll, hconclude], ?_⟩
    rw [hused, hrun, hspent, Nat.sub_zero]
  · obtain ⟨out, hmachine⟩ := (p.withFuel fuel).machine_run purpose tokens
    refine ⟨_, hmachine, ?_⟩
    rw [hused]
    exact Nat.add_sub_of_le hle

/-- A list that starts with itself, which nothing ends. -/
def leftRecursive : Grammar :=
  ⟨"left", "list", [⟨"list", none, ⟨[.production "list", .leaf (.kind .integer)], 1⟩⟩]⟩

/-- With five levels of nesting, five attempts show that a left-recursive production
    is too deep. With less fuel it is the fuel that runs out first. -/
theorem fuel_threshold_leftRecursive : ∃ (needed : Nat) (answer : Except ParseError Tree),
    needed = 5 ∧ answer = .error .tooDeep ∧
    ∀ fuel,
      let q := ({ ofGrammar leftRecursive with limits.depth := 5 } : Parser).withFuel fuel
      let r := q.run .reading #[]
      (needed ≤ fuel → conclude #[] r = answer ∧ q.fuelUsed r = needed) ∧
      (fuel < needed → conclude #[] r = .error .outOfFuel ∧ q.fuelUsed r = fuel) := by
  obtain ⟨needed, answer, whole, hanswer, -, h⟩ :=
    fuel_threshold { ofGrammar leftRecursive with limits.depth := 5 } .reading #[] rfl
  obtain ⟨henough, hshort, -⟩ := h 6
  have hneeded : needed ≤ 6 := by
    by_contra hlt
    obtain ⟨hconclude, -⟩ := hshort (Nat.lt_of_not_le hlt)
    cases hconclude
  obtain ⟨hconclude, -, hused⟩ := henough hneeded
  refine ⟨needed, answer, hused.symm, hconclude.symm, fun fuel => ?_⟩
  obtain ⟨henough, hshort, -⟩ := h fuel
  constructor
  · intro hfuel
    obtain ⟨hconclude, -, hused⟩ := henough hfuel
    exact ⟨hconclude, hused⟩
  · intro hfuel
    obtain ⟨hconclude, -, hused⟩ := hshort hfuel
    exact ⟨hconclude, hused⟩

end Parser

end SqlStatement

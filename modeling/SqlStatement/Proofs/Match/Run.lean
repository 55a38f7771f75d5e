import SqlStatement.Match.Combinator

namespace SqlStatement

namespace Record

@[simp] theorem misses_empty : empty.misses.toList = [] := rfl

@[simp] theorem events_empty : empty.events.toList = [] := rfl

@[simp] theorem breakpoints_empty : empty.breakpoints.toList = [] := rfl

@[simp] theorem misses_append (a b : Record) :
    (a ++ b).misses.toList = a.misses.toList ++ b.misses.toList :=
  Journal.toList_append ..

@[simp] theorem events_append (a b : Record) :
    (a ++ b).events.toList = a.events.toList ++ b.events.toList :=
  Journal.toList_append ..

@[simp] theorem breakpoints_append (a b : Record) :
    (a ++ b).breakpoints.toList = a.breakpoints.toList ++ b.breakpoints.toList :=
  Journal.toList_append ..

end Record

/-- The same ending with another value. Only a match has a value to be mapped. -/
def Outcome.map {α β : Type} (f : α → β) : Outcome α → Outcome β
  | .matched a => .matched (f a)
  | .failed => .failed
  | .aborted e => .aborted e

/-- A failure as the value `none`. -/
def Outcome.attempted {α : Type} : Outcome α → Outcome (Option α)
  | .matched a => .matched (some a)
  | .failed => .matched none
  | .aborted e => .aborted e

/-- Whether a match has a value. -/
def Outcome.isMatched {α : Type} : Outcome α → Bool
  | .matched _ => true
  | _ => false

/-- The ending of what goes on only behind a match, where there is none. -/
def Outcome.given {α β : Type} : Outcome α → Outcome β
  | .aborted e => .aborted e
  | _ => .failed

/-- What would go on only behind a match has no value where there is none. -/
theorem Outcome.given_ne_matched {α β : Type} (o : Outcome α) (b : β) : o.given ≠ .matched b := by
  cases o <;> nofun

/-- The input error that an ending is, if it is one. -/
def Outcome.inputError? {α : Type} : Outcome α → Option InputError
  | .aborted (.input e) => some e
  | _ => none

/-- A test of that error, turned into the error. Examples compute the test, and what
    they show is about the error. -/
theorem Outcome.exists_of_any_inputError? {α : Type} {o : Outcome α} {q : InputError → Bool}
    (h : o.inputError?.any q = true) : ∃ e, o = .aborted (.input e) ∧ q e = true := by
  cases o with
  | matched | failed => cases h
  | aborted err =>
    cases err with
    | input e => exact ⟨e, rfl, h⟩
    | outOfFuel | tooDeep | cancelled | unknownProduction => cases h

/-- The record of a run with this ending, with other misses where it is a failure. A
    match and an abort keep what they have missed. -/
def Outcome.amend {α : Type} (f : Journal Miss → Journal Miss) : Outcome α → Record → Record
  | .failed, r => { r with misses := f r.misses }
  | _, r => r

/-- What a failed production has missed: its label alone, if it has one, the input
    is being read and nothing past the start was missed. Otherwise it is what the
    body has missed. -/
def Grammar.Production.summary (p : Grammar.Production) (purpose : Purpose) (start : Nat)
    (misses : List Miss) : List Miss :=
  match p.label with
  | some label =>
    if purpose == .reading && misses.all (·.position ≤ start) then [⟨start, .label label⟩]
    else misses
  | none => misses

/-- Labels are for errors. When the input is completed, a failed production keeps
    the misses of its leaves, which are what can come next. -/
theorem Grammar.Production.summary_completing (p : Grammar.Production) (start : Nat)
    (misses : List Miss) : p.summary .completing start misses = misses := by
  unfold summary
  split <;> rfl

/-- A label is missed where its production starts, and everything else was missed by
    the body already. -/
theorem Grammar.Production.mem_summary {p : Grammar.Production} {purpose : Purpose} {start : Nat}
    {misses : List Miss} {miss : Miss} (hmiss : miss ∈ p.summary purpose start misses) :
    miss.position = start ∨ miss ∈ misses := by
  unfold summary at hmiss
  split at hmiss
  · split at hmiss
    · exact .inl (List.mem_singleton.mp hmiss ▸ rfl)
    · exact .inr hmiss
  · exact .inr hmiss

namespace Matcher

open Grammar (Leaf)

variable {α β : Type}

/-- Behind a match the rest runs in the state that the match leaves, with the value
    of the match, and the records are put together in order. -/
theorem run_bind_matched {m : Matcher α} {f : α → Matcher β} {c : Context} {s : State} {a : α}
    (h : (m c s).outcome = .matched a) :
    (m >>= f) c s = ⟨(f a c (m c s).state).outcome, (f a c (m c s).state).state,
      (m c s).record ++ (f a c (m c s).state).record⟩ := by
  simp only [Bind.bind, Matcher.bind, h]

/-- Behind a failure nothing runs. This and the two rules beside it say all that a
    step in front of others can come to, and `bind` is opened nowhere else. -/
theorem run_bind_failed {m : Matcher α} {f : α → Matcher β} {c : Context} {s : State}
    (h : (m c s).outcome = .failed) : (m >>= f) c s = ⟨.failed, (m c s).state, (m c s).record⟩ := by
  simp only [Bind.bind, Matcher.bind, h]

theorem run_bind_aborted {m : Matcher α} {f : α → Matcher β} {c : Context} {s : State}
    {e : ParseError} (h : (m c s).outcome = .aborted e) :
    (m >>= f) c s = ⟨.aborted e, (m c s).state, (m c s).record⟩ := by
  simp only [Bind.bind, Matcher.bind, h]

/-- The last two rules in one. Whether the first part failed or gave up, its ending
    is passed on with the type of the values changed. -/
theorem run_bind_unmatched {m : Matcher α} {f : α → Matcher β} {c : Context} {s : State}
    (h : ∀ a, (m c s).outcome ≠ .matched a) :
    (m >>= f) c s = ⟨(m c s).outcome.given, (m c s).state, (m c s).record⟩ := by
  cases houtcome : (m c s).outcome with
  | matched a => exact absurd houtcome (h a)
  | failed => exact run_bind_failed houtcome
  | aborted e => exact run_bind_aborted houtcome

/-- Other misses are all that `onFailure` makes out of a run, and only out of one
    that fails. -/
theorem run_onFailure (f : Journal Miss → Journal Miss) (m : Matcher α) (c : Context) (s : State) :
    m.onFailure f c s =
      ⟨(m c s).outcome, (m c s).state, (m c s).outcome.amend f (m c s).record⟩ := by
  unfold onFailure
  generalize m c s = r
  obtain ⟨o, s', record⟩ := r
  cases o <;> rfl

/-- What the first part reports is reported, however the rest ends. So an event of a
    part is an event of the whole. -/
theorem events_subset_bind (m : Matcher α) (f : α → Matcher β) (c : Context) (s : State) :
    (m c s).record.events.toList ⊆ ((m >>= f) c s).record.events.toList := by
  cases h : (m c s).outcome with
  | matched a =>
    rw [run_bind_matched h, Record.events_append]
    exact List.subset_append_left _ _
  | failed =>
    rw [run_bind_failed h]
    exact List.Subset.refl _
  | aborted e =>
    rw [run_bind_aborted h]
    exact List.Subset.refl _

/-- An attempt turns a failure into a value. The state and the record stay, so what
    the attempt has missed is still in the log. -/
@[simp] theorem run_attempt (m : Matcher α) (c : Context) (s : State) :
    m.attempt c s = ⟨(m c s).outcome.attempted, (m c s).state, (m c s).record⟩ := by
  unfold attempt
  cases h : (m c s).outcome <;> simp [h, Outcome.attempted]

/-- Listening adds the misses of a run to its value and changes nothing else. -/
@[simp] theorem run_listen (m : Matcher α) (c : Context) (s : State) :
    m.listen c s = ⟨(m c s).outcome.map fun a => (a, (m c s).record.misses), (m c s).state,
      (m c s).record⟩ := by
  unfold listen
  cases h : (m c s).outcome <;> simp [h, Outcome.map]

/-- A leaf on a token that it accepts steps over the token and reports it. It misses
    nothing and costs no fuel, but tests for cancellation once. -/
theorem run_leaf_accepts {l : Leaf} {c : Context} {s : State} {t : Token}
    (htoken : c.tokens[s.position]? = some t) (hl : l.accepts t = true) :
    (leaf l c s).outcome = .matched [.leaf l.role s.position] ∧
      (leaf l c s).state = ⟨s.position + 1, s.fuel, s.patience.map (· - 1)⟩ ∧
      (leaf l c s).record.misses.toList = [] ∧
      (leaf l c s).record.events.toList = [.leaf t s.position] ∧
      (leaf l c s).record.breakpoints.toList = [] := by
  simp [leaf, Bind.bind, Matcher.bind, position, peek, htoken, hl, report, advance, Event.isStep,
    Pure.pure, Matcher.pure]

/-- A leaf on any other token, or on none, stays where it is and writes down what it
    misses. At the end of the input that can be less than in front of a token. -/
theorem run_leaf_misses {l : Leaf} {c : Context} {s : State}
    (hl : ∀ t, c.tokens[s.position]? = some t → l.accepts t = false) :
    (leaf l c s).outcome = .failed ∧
      (leaf l c s).state = ⟨s.position, s.fuel, s.patience.map (· - 1)⟩ ∧
      (leaf l c s).record.misses.toList =
        (l.misses c.tokens[s.position]?).map (fun e => ⟨s.position, e⟩) ∧
      (leaf l c s).record.events.toList = [.miss l.announced s.position] ∧
      (leaf l c s).record.breakpoints.toList = [] := by
  cases htoken : c.tokens[s.position]? with
  | none =>
    simp [leaf, Bind.bind, Matcher.bind, position, peek, htoken, expect, report, Event.isStep,
      Matcher.fail]
  | some t =>
    simp [leaf, Bind.bind, Matcher.bind, position, peek, htoken, hl t htoken, expect, report,
      Event.isStep, Matcher.fail]

/-- A breakpoint matches nothing. The open productions are reported from the
    outermost one inwards, and remembered only where the input is completed and used
    up. -/
theorem run_breakpoint (c : Context) (s : State) :
    (breakpoint c s).outcome = .matched [] ∧
      (breakpoint c s).state = ⟨s.position, s.fuel, s.patience.map (· - 1)⟩ ∧
      (breakpoint c s).record.misses.toList = [] ∧
      (breakpoint c s).record.events.toList = [.breakpoint c.stack.reverse s.position] ∧
      (breakpoint c s).record.breakpoints.toList =
        if c.purpose = .completing ∧ c.tokens.size ≤ s.position then
          [⟨s.position, c.stack.reverse⟩]
        else [] := by
  by_cases hmark : c.purpose = .completing ∧ c.tokens.size ≤ s.position
  · simp [breakpoint, Bind.bind, Matcher.bind, context, position, report, Event.isStep, mark,
      Pure.pure, Matcher.pure, hmark]
  · simp [breakpoint, Bind.bind, Matcher.bind, context, position, report, Event.isStep,
      Pure.pure, Matcher.pure, hmark]

section Production

variable (p : Grammar.Production) (body : Matcher (Bool × List Tree)) (c : Context) (s : State)

/-- The run of the body inside a production, with the name of the production on the
    stack and behind the first test for cancellation. -/
def runBody : Result (Bool × List Tree) :=
  body { c with stack := p.name :: c.stack } ⟨s.position, s.fuel, s.patience.map (· - 1)⟩

/-- A production ends where its body does. It costs nothing itself but two tests for
    cancellation, one on the way in and one on the way out. -/
theorem run_production_state : (production p body c s).state =
    ⟨(runBody p body c s).state.position, (runBody p body c s).state.fuel,
      (runBody p body c s).state.patience.map (· - 1)⟩ := by
  cases h : (runBody p body c s).outcome <;>
  · unfold runBody at h ⊢
    simp [production, Bind.bind, Matcher.bind, position, context, onFailure, within, report,
      Event.isStep, Pure.pure, Matcher.pure, h]

/-- The breakpoints of a production are those of its body. -/
theorem run_production_breakpoints : (production p body c s).record.breakpoints.toList =
    (runBody p body c s).record.breakpoints.toList := by
  cases h : (runBody p body c s).outcome <;>
  · unfold runBody at h ⊢
    simp [production, Bind.bind, Matcher.bind, position, context, onFailure, within, report,
      Event.isStep, Pure.pure, Matcher.pure, h]

/-- The events of the body stand between the entry of the production and its exit,
    which says whether the body has matched and where it has ended. -/
theorem run_production_events : (production p body c s).record.events.toList =
    .enter p.name s.position :: (runBody p body c s).record.events.toList ++
      [.exit p.name (runBody p body c s).outcome.isMatched
        (runBody p body c s).state.position] := by
  cases h : (runBody p body c s).outcome <;>
  · unfold runBody at h ⊢
    simp [production, Bind.bind, Matcher.bind, position, context, onFailure, within, report,
      Event.isStep, Pure.pure, Matcher.pure, Outcome.isMatched, h]

variable {p body c s}

/-- A body that matches becomes a node over what it covers, and its misses stay in
    the log for later errors. -/
theorem run_production_matched {committed : Bool} {nodes : List Tree}
    (h : (runBody p body c s).outcome = .matched (committed, nodes)) :
    (production p body c s).outcome = .matched (.node (.production p.name)
        ⟨s.position, (runBody p body c s).state.position⟩ nodes) ∧
      (production p body c s).record.misses.toList =
        (runBody p body c s).record.misses.toList := by
  unfold runBody at h ⊢
  simp [production, Bind.bind, Matcher.bind, position, context, onFailure, within, report,
    Event.isStep, Pure.pure, Matcher.pure, h]

/-- Only behind a failure does the label of a production take the place of what its
    body has missed. -/
theorem run_production_failed (h : (runBody p body c s).outcome = .failed) :
    (production p body c s).outcome = .failed ∧
      (production p body c s).record.misses.toList =
        p.summary c.purpose s.position (runBody p body c s).record.misses.toList := by
  unfold runBody at h ⊢
  simp [production, Bind.bind, Matcher.bind, position, context, onFailure, within, report,
    Event.isStep, h, Grammar.Production.summary]
  cases p.label with
  | none => simp
  | some label =>
    dsimp
    split <;> simp_all

/-- An abort goes through a production as it is, with all that was missed. Its label
    is only put in the place of misses where it fails. -/
theorem run_production_aborted {e : ParseError}
    (h : (runBody p body c s).outcome = .aborted e) :
    (production p body c s).outcome = .aborted e ∧
      (production p body c s).record.misses.toList =
        (runBody p body c s).record.misses.toList := by
  unfold runBody at h ⊢
  simp [production, Bind.bind, Matcher.bind, position, context, onFailure, within, report,
    Event.isStep, h]

end Production

section Iterate

variable {item : Matcher (Bool × List Tree)} {separator : Option (Matcher (Bool × List Tree))}
  {first : Bool} {c : Context} {s : State} {r : Result (Option (List Tree))}

/-- A repetition is over without nodes at the first turn that is not taken. -/
theorem run_iterate_over (hr : iteration item (if first then none else separator) c s = r)
    (h : r.outcome = .matched none) :
    iterate item separator first c s = ⟨.matched (0, []), r.state, r.record⟩ := by
  subst hr
  rw [iterate]
  simp only [h]

/-- A turn that gets no further ends the repetition and its nodes are dropped, so
    the repetition of an empty item comes to an end. -/
theorem run_iterate_still (hr : iteration item (if first then none else separator) c s = r)
    {nodes : List Tree} (h : r.outcome = .matched (some nodes))
    (hstill : ¬ c.tokens.size - r.state.position < c.tokens.size - s.position) :
    iterate item separator first c s = ⟨.matched (0, []), r.state, r.record⟩ := by
  subst hr
  rw [iterate]
  simp only [h, hstill, if_false]

/-- Behind a turn that gets further the repetition goes on where the turn has ended,
    and every later turn starts with the separator. -/
theorem run_iterate_next (hr : iteration item (if first then none else separator) c s = r)
    {nodes : List Tree} (h : r.outcome = .matched (some nodes))
    (hprogress : c.tokens.size - r.state.position < c.tokens.size - s.position) :
    iterate item separator first c s =
      ⟨(iterate item separator false c r.state).outcome.map fun x => (x.1 + 1, nodes ++ x.2),
        (iterate item separator false c r.state).state,
        r.record ++ (iterate item separator false c r.state).record⟩ := by
  subst hr
  rw [iterate]
  simp only [h, hprogress, if_true]
  cases (iterate item separator false c
    (iteration item (if first = true then none else separator) c s).state).outcome <;> rfl

/-- A turn that fails makes the repetition fail. -/
theorem run_iterate_failed (hr : iteration item (if first then none else separator) c s = r)
    (h : r.outcome = .failed) :
    iterate item separator first c s = ⟨.failed, r.state, r.record⟩ := by
  subst hr
  rw [iterate]
  simp only [h]

/-- A turn that gives up makes the repetition give up, with the turns before it
    still in the record. -/
theorem run_iterate_aborted (hr : iteration item (if first then none else separator) c s = r)
    {e : ParseError} (h : r.outcome = .aborted e) :
    iterate item separator first c s = ⟨.aborted e, r.state, r.record⟩ := by
  subst hr
  rw [iterate]
  simp only [h]

/-- A turn behind which a repetition goes on: it has matched and got further. -/
def GoesOn (c : Context) (place : Nat) (r : Result (Option (List Tree))) : Prop :=
  ∃ nodes, r.outcome = .matched (some nodes) ∧
    c.tokens.size - r.state.position < c.tokens.size - place

/-- All the ways in which a turn can be the last one, together. Whether it matches
    nothing, fails or gives up, its state and its record are those of the
    repetition. -/
theorem run_iterate_ended (hr : iteration item (if first then none else separator) c s = r)
    (hends : ¬ GoesOn c s.position r) :
    iterate item separator first c s = ⟨r.outcome.map fun _ => (0, []), r.state, r.record⟩ := by
  cases houtcome : r.outcome with
  | matched found =>
    cases found with
    | none => exact run_iterate_over hr houtcome
    | some nodes =>
      exact run_iterate_still hr houtcome fun hprogress => hends ⟨nodes, houtcome, hprogress⟩
  | failed => exact run_iterate_failed hr houtcome
  | aborted e => exact run_iterate_aborted hr houtcome

/-- The events of the first turn are events of the repetition. They are told whether
    or not the repetition goes on behind it. -/
theorem events_subset_iterate (item : Matcher (Bool × List Tree))
    (separator : Option (Matcher (Bool × List Tree))) (first : Bool) (c : Context) (s : State) :
    (iteration item (if first then none else separator) c s).record.events.toList ⊆
      (iterate item separator first c s).record.events.toList := by
  generalize hr : iteration item (if first then none else separator) c s = r
  cases h : r.outcome with
  | matched found =>
    cases found with
    | none =>
      rw [run_iterate_over hr h]
      exact List.Subset.refl _
    | some nodes =>
      by_cases hprogress : c.tokens.size - r.state.position < c.tokens.size - s.position
      · rw [run_iterate_next hr h hprogress, Record.events_append]
        exact List.subset_append_left _ _
      · rw [run_iterate_still hr h hprogress]
        exact List.Subset.refl _
  | failed =>
    rw [run_iterate_failed hr h]
    exact List.Subset.refl _
  | aborted e =>
    rw [run_iterate_aborted hr h]
    exact List.Subset.refl _

end Iterate

end Matcher

end SqlStatement

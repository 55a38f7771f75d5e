import SqlStatement.Parser
import SqlStatement.Proofs.Match.Bracketed
import SqlStatement.Trace

namespace SqlStatement

/-- How many open productions an event lies in. A production that is entered or left
    does not count. -/
def Event.level (stack : List String) (e : Event) : Nat :=
  min stack.length (e.opens stack).length

namespace Trace

variable {verbose : Bool} {palette : Palette}

/-- The count of a trace behind some events. It is meant to be the number of
    productions that are open there. -/
def depthBehind (depth : Nat) (events : List Event) : Nat :=
  events.foldl (fun depth e => (indent depth e).2) depth

/-- The line of an event behind some blanks; no line for what is not shown. -/
def lineOf (verbose : Bool) (palette : Palette) (blanks : Nat) (e : Event) : List String :=
  ((describe verbose palette e).map fun text =>
    String.ofList (List.replicate blanks ' ') ++ text).toList

theorem linesFrom_cons (depth : Nat) (e : Event) (events : List Event) :
    linesFrom verbose palette depth (e :: events) =
      lineOf verbose palette (2 * (indent depth e).1) e ++
        linesFrom verbose palette (indent depth e).2 events := rfl

/-- Behind some events a trace goes on with what it has counted by then. A trace
    looks at nothing else that was told before. -/
theorem linesFrom_append (depth : Nat) (front back : List Event) :
    linesFrom verbose palette depth (front ++ back) =
      linesFrom verbose palette depth front ++
        linesFrom verbose palette (depthBehind depth front) back := by
  induction front generalizing depth with
  | nil => rfl
  | cons e front ih =>
    rw [List.cons_append, linesFrom_cons, linesFrom_cons, ih, List.append_assoc]
    rfl

/-- Where a trace counts the open productions, it indents an event by as many as
    said, and counts those behind it. -/
theorem indent_length (stack : List String) (e : Event) :
    indent stack.length e = (e.level stack, (e.opens stack).length) := by
  cases e with
  | exit => simp [indent, Event.level, Event.opens]
  | _ => simp [indent, Event.level, Event.opens]

/-- So it counts the open productions behind any events, by induction on them.
    Leaving a production when none is open would leave both at none. -/
theorem depthBehind_length (stack : List String) (events : List Event) :
    depthBehind stack.length events = (opened stack events).length := by
  induction events generalizing stack with
  | nil => rfl
  | cons e events ih =>
    have hstep : depthBehind stack.length (e :: events) =
        depthBehind (indent stack.length e).2 events := rfl
    rw [hstep, indent_length, ih, opened_cons]

/-- The line of each event is indented by two blanks for each production that the
    event lies in. -/
theorem lines_split (before : List Event) (e : Event) (after : List Event) :
    lines verbose palette (before ++ e :: after) =
      lines verbose palette before ++
        lineOf verbose palette (2 * e.level (opened [] before)) e ++
        linesFrom verbose palette (opened [] (before ++ [e])).length after := by
  have hdepth : depthBehind 0 before = (opened [] before).length := depthBehind_length [] before
  unfold lines
  rw [linesFrom_append, hdepth, linesFrom_cons, indent_length, List.append_assoc, opened_append]
  rfl

end Trace

namespace Parser

/-- However a run ends, its trace is well bracketed. What is entered is left, the
    events that name open productions name those that are open at their place, and
    what is left has been attempted since it was entered. The trace counts the open
    productions right and never below none. Where the run gives up, all that follows
    is that the open productions are left, innermost first. An attempt leaves its
    production with a match if and only if it has succeeded. -/
theorem trace_bracketed (p : Parser) (purpose : Purpose) (tokens : Array Token) :
    let c : Context := ⟨tokens, purpose, []⟩
    let r := p.run purpose tokens
    let events := r.record.events.toList
    opened [] events = [] ∧
    (∀ before e after, events = before ++ e :: after →
      e.Fits p.grammar c before ∧
      Trace.depthBehind 0 before = (opened [] before).length ∧
      (∀ name matched stop, e = .exit name matched stop → 0 < Trace.depthBehind 0 before) ∧
      ∀ verbose palette, Trace.lines verbose palette events =
        Trace.lines verbose palette before ++
          Trace.lineOf verbose palette (2 * e.level (opened [] before)) e ++
          Trace.linesFrom verbose palette (opened [] (before ++ [e])).length after) ∧
    (∀ e, r.outcome = .aborted e ↔ ∃ front pending,
      (p.grammar.matcher p.limits.depth p.root).GivesUp c ⟨0, p.limits.fuel, p.patience⟩ e
        front pending ∧
      opened [] front = pending ∧ events = front ++ leaving pending r.state.position) ∧
    ∀ depth name c s,
      let a := p.grammar.matcher depth name c s
      (a.record.events.toList = [] ∧ ∃ e, a.outcome = .aborted e) ∨
        ∃ inner, a.record.events.toList = .enter name s.position ::
            (inner ++ [.exit name a.outcome.isMatched a.state.position]) ∧
          opened (name :: c.stack) inner = name :: c.stack := by
  intro c r events
  obtain ⟨⟨hfits, hclosed⟩, haborts⟩ := p.grammar.tellsFrom_matcher p.limits.depth p.root c
    ⟨0, p.limits.fuel, p.patience⟩
  refine ⟨hclosed, fun before e after hsplit => ?_, fun e => ⟨fun he => ?_, ?_⟩,
    p.grammar.events_matcher⟩
  · have hdepth : Trace.depthBehind 0 before = (opened [] before).length :=
      Trace.depthBehind_length [] before
    have hfit := hfits before e after hsplit
    refine ⟨hfit, hdepth, ?_, fun verbose palette => ?_⟩
    · rintro name matched stop rfl
      obtain ⟨stack, hopen⟩ := List.head?_eq_some_iff.mp hfit.1
      rw [hdepth, hopen]
      exact Nat.succ_pos _
    · rw [hsplit]
      exact Trace.lines_split before e after
  · obtain ⟨front, pending, hup, hevents, hopened⟩ := haborts e he
    exact ⟨front, pending, hup, hopened.trans (List.append_nil pending), hevents⟩
  · rintro ⟨front, pending, hup, -⟩
    exact hup.outcome

/-- An integer inside parentheses. -/
def enclosed : Grammar :=
  ⟨"enclosed", "value", [⟨"value", none, ⟨[.breakpoint, .alternation
    [⟨[.leaf (.kind (.symbol .leftParen)), .production "value",
        .leaf (.kind (.symbol .rightParen))], 1⟩,
      ⟨[.leaf (.kind .integer)], 1⟩]], 1⟩⟩]⟩

/-- Two levels of nesting are too few for an integer inside two pairs of
    parentheses. Both values are left unmatched, the inner one first and with its
    line indented. -/
theorem trace_bracketed_enclosed :
    let p : Parser := { ofGrammar enclosed with limits := ⟨20, 2⟩ }
    let tokens : Array Token :=
      #[⟨.symbol .leftParen, "(", ⟨0, 1⟩⟩, ⟨.symbol .leftParen, "(", ⟨1, 2⟩⟩]
    let events := (p.run .reading tokens).record.events.toList
    ∃ before, events = before ++ .exit "value" false 2 :: [.exit "value" false 2] ∧
      0 < Trace.depthBehind 0 before ∧
      Trace.lines false .plain events =
        Trace.lines false .plain before ++ ["  <- value failed"] ++ ["<- value failed"] := by
  intro p tokens events
  have hsplit : events = events.take 10 ++ .exit "value" false 2 :: [.exit "value" false 2] := by
    decide +kernel
  obtain ⟨-, hposition, -⟩ := trace_bracketed p .reading tokens
  obtain ⟨-, -, hcounts, hlines⟩ := hposition _ _ _ hsplit
  have hopen : opened [] (events.take 10) = ["value", "value"] := by decide +kernel
  refine ⟨_, hsplit, hcounts _ _ _ rfl, ?_⟩
  rw [hlines false .plain, opened_append, hopen]
  rfl

end Parser

end SqlStatement

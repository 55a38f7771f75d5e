import SqlStatement.Proofs.Match.Discipline
import SqlStatement.Proofs.Match.Run

namespace SqlStatement

open Grammar (Leaf)

/-- The open productions behind an event, innermost first. The events that enter and
    leave productions are brackets, and no other event changes what is open. -/
def Event.opens (stack : List String) : Event → List String
  | .enter production _ => production :: stack
  | .exit _ _ _ => stack.tail
  | _ => stack

/-- The open productions behind some events, innermost first. -/
def opened (stack : List String) (events : List Event) : List String :=
  events.foldl Event.opens stack

@[simp] theorem opened_nil (stack : List String) : opened stack [] = stack := rfl

@[simp] theorem opened_cons (stack : List String) (e : Event) (events : List Event) :
    opened stack (e :: events) = opened (e.opens stack) events := rfl

/-- What is open behind two lots of events is what the second lot makes of what the
    first one leaves open. -/
@[simp] theorem opened_append (stack : List String) (front back : List Event) :
    opened stack (front ++ back) = opened (opened stack front) back :=
  List.foldl_append

/-- Leaving productions without a match, at one place. -/
def leaving (pending : List String) (place : Nat) : List Event :=
  pending.map fun name => .exit name false place

/-- Some events and one more that leaves a production end with an attempt of it,
    from where it was entered. The event says whether the attempt has succeeded and
    where it has stopped. -/
def EndsAttempt (g : Grammar) (c : Context) (before : List Event) (name : String) (matched : Bool)
    (stop : Nat) : Prop :=
  ∃ depth s front inner,
    let r := g.matcher depth name { c with stack := opened c.stack front } s
    before = front ++ .enter name s.position :: inner ∧
    r.record.events.toList = .enter name s.position :: (inner ++ [.exit name matched stop]) ∧
    matched = r.outcome.isMatched ∧ stop = r.state.position

/-- An event goes with what was told before it: a production that is left is the
    innermost open one and has been attempted since it was entered, and an event
    that names open productions names those at its place. -/
def Event.Fits (g : Grammar) (c : Context) (before : List Event) : Event → Prop
  | .exit name matched stop =>
    (opened c.stack before).head? = some name ∧ EndsAttempt g c before name matched stop
  | .candidate name _ _ => (opened c.stack before).head? = some name
  | .breakpoint stack _ => stack = (opened c.stack before).reverse
  | _ => True

/-- Each event goes with what was told before it. -/
def Fitting (g : Grammar) (c : Context) (events : List Event) : Prop :=
  ∀ before e after, events = before ++ e :: after → e.Fits g c before

/-- The brackets among some events match, and each event goes with those before it.
    What is open behind them is what was open in front of them. -/
structure Bracketed (g : Grammar) (c : Context) (events : List Event) : Prop where
  fits : Fitting g c events
  closed : opened c.stack events = c.stack

section Brackets

variable {g : Grammar} {c : Context} {events front back : List Event} {e : Event}

/-- What fits behind some events also fits behind more of them, if these leave the
    productions open that it was told to be inside of. -/
theorem Event.Fits.behind {before : List Event}
    (h : e.Fits g { c with stack := opened c.stack front } before) :
    e.Fits g c (front ++ before) := by
  cases e with
  | exit name matched stop =>
    obtain ⟨htop, depth, s, front', inner, hbefore, hattempt⟩ := h
    refine ⟨by simpa using htop, depth, s, front ++ front', inner, ?_, ?_⟩
    · simp [hbefore]
    · simpa using hattempt
  | candidate | breakpoint => simpa [Event.Fits] using h
  | _ => trivial

namespace Fitting

theorem nil : Fitting g c [] := by
  intro before e after h
  simp at h

/-- Events behind others fit if they fit inside the productions that are open
    there. -/
theorem append (hfront : Fitting g c front)
    (hback : Fitting g { c with stack := opened c.stack front } back) :
    Fitting g c (front ++ back) := by
  intro before e after h
  rcases List.append_eq_append_iff.mp h with ⟨mid, rfl, hmid⟩ | ⟨mid, hmid, htail⟩
  · exact (hback mid e after hmid).behind
  · cases mid with
    | nil =>
      obtain rfl : front = before := by simpa using hmid
      simpa using (hback [] e after htail.symm).behind
    | cons e' mid =>
      obtain ⟨rfl, rfl⟩ := List.cons_eq_cons.mp htail
      exact hfront before e mid hmid

/-- One more event at the end need only fit what was told before it. Whatever split
    of the events is looked at, either the event is the last one or it is among the
    others. -/
theorem concat (hfront : Fitting g c front) (hlast : e.Fits g c front) :
    Fitting g c (front ++ [e]) := by
  intro before e' after h
  rcases List.append_eq_append_iff.mp h with ⟨mid, rfl, hmid⟩ | ⟨mid, hmid, htail⟩
  · cases mid with
    | nil =>
      obtain ⟨rfl, -⟩ := List.cons_eq_cons.mp hmid
      simpa using hlast
    | cons e'' mid => simp at hmid
  · cases mid with
    | nil =>
      obtain ⟨rfl, -⟩ := List.cons_eq_cons.mp htail
      obtain rfl : front = before := by simpa using hmid
      exact hlast
    | cons e'' mid =>
      obtain ⟨rfl, -⟩ := List.cons_eq_cons.mp htail
      exact hfront before e' mid hmid

theorem single (h : e.Fits g c []) : Fitting g c [e] :=
  nil.concat h

end Fitting

namespace Bracketed

/-- A run without events leaves open what was open. -/
theorem nil : Bracketed g c [] := ⟨.nil, rfl⟩

theorem single (hfits : e.Fits g c []) (hopens : e.opens c.stack = c.stack) :
    Bracketed g c [e] :=
  ⟨.single hfits, hopens⟩

/-- Brackets that match, one after the other, match together. The second lot starts
    with the productions open that the first one has left open, which are those of
    the context. -/
theorem append (hfront : Bracketed g c front) (hback : Bracketed g c back) :
    Bracketed g c (front ++ back) where
  fits := by
    apply hfront.fits.append
    rw [hfront.closed]
    exact hback.fits
  closed := by rw [opened_append, hfront.closed, hback.closed]

/-- The events of an attempt of a production around those of its body. The entry
    opens the production and the exit closes it, and between them the events of the
    body are brackets inside of it. -/
theorem attempt {name : String} {start stop : Nat} {matched : Bool}
    (hinner : Bracketed g { c with stack := name :: c.stack } events)
    (hattempt : EndsAttempt g c (.enter name start :: events) name matched stop) :
    Bracketed g c (.enter name start :: events ++ [.exit name matched stop]) := by
  have hclosed : opened (name :: c.stack) events = name :: c.stack := hinner.closed
  have henter : Fitting g c [.enter name start] := .single trivial
  have hentered : Fitting g c ([.enter name start] ++ events) := henter.append hinner.fits
  constructor
  · apply hentered.concat
    refine ⟨?_, hattempt⟩
    simp [Event.opens, hclosed]
  · simp [Event.opens, hclosed]

end Bracketed

end Brackets

namespace Outcome

variable {α β : Type} {o : Outcome α} {e : ParseError}

theorem aborted_of_map {f : α → β} (h : o.map f = .aborted e) : o = .aborted e := by
  cases o with
  | aborted => exact congrArg Outcome.aborted (Outcome.aborted.inj h)
  | matched | failed => cases h

/-- An attempt hides failures only, so it aborts where the matcher itself does. -/
theorem aborted_of_attempted (h : o.attempted = .aborted e) : o = .aborted e := by
  cases o with
  | aborted => exact congrArg Outcome.aborted (Outcome.aborted.inj h)
  | matched | failed => cases h

end Outcome

namespace Matcher

variable {α β : Type}

/-- A run of a matcher gives up: it aborts behind the events `front`, inside the
    productions `pending` that it has opened, innermost first. There is one rule for
    each step that gives up by itself, and the others say how the end is passed on
    outwards. -/
inductive GivesUp : {α : Type} → Matcher α → Context → State → ParseError → (front : List Event) →
    (pending : List String) → Prop
  | abort {α : Type} {c : Context} {s : State} (e : ParseError) :
    GivesUp (Matcher.abort e : Matcher α) c s e [] []
  | charge {c : Context} {s : State} (hfuel : s.fuel = 0) :
    GivesUp Matcher.charge c s .outOfFuel [] []
  | checkPatience {c : Context} {s : State} (hpatience : s.patience = some 0) :
    GivesUp Matcher.checkPatience c s .cancelled [.interrupted s.position] []
  | bind {α β : Type} {m : Matcher α} {f : α → Matcher β} {c : Context} {s : State}
    {e : ParseError} {front : List Event} {pending : List String}
    (h : GivesUp m c s e front pending) : GivesUp (m >>= f) c s e front pending
  | behind {α β : Type} {m : Matcher α} {f : α → Matcher β} {c : Context} {s : State} {a : α}
    {e : ParseError} {front : List Event} {pending : List String}
    (hmatched : (m c s).outcome = .matched a) (h : GivesUp (f a) c (m c s).state e front pending) :
    GivesUp (m >>= f) c s e ((m c s).record.events.toList ++ front) pending
  | attempt {α : Type} {m : Matcher α} {c : Context} {s : State} {e : ParseError}
    {front : List Event} {pending : List String} (h : GivesUp m c s e front pending) :
    GivesUp m.attempt c s e front pending
  | listen {α : Type} {m : Matcher α} {c : Context} {s : State} {e : ParseError}
    {front : List Event} {pending : List String} (h : GivesUp m c s e front pending) :
    GivesUp m.listen c s e front pending
  | onFailure {α : Type} {m : Matcher α} {c : Context} {s : State} {e : ParseError}
    {front : List Event} {pending : List String} (f : Journal Miss → Journal Miss)
    (h : GivesUp m c s e front pending) : GivesUp (m.onFailure f) c s e front pending
  | within {α : Type} {m : Matcher α} {c : Context} {s : State} {e : ParseError}
    {front : List Event} {pending : List String} (name : String)
    (h : GivesUp m { c with stack := name :: c.stack }
      (Matcher.report (.enter name s.position) c s).state e front pending) :
    GivesUp (m.within name) c s e (.enter name s.position :: front) (pending ++ [name])
  | turn {item : Matcher (Bool × List Tree)} {separator : Option (Matcher (Bool × List Tree))}
    {first : Bool} {c : Context} {s : State} {e : ParseError} {front : List Event}
    {pending : List String}
    (h : GivesUp (iteration item (if first then none else separator)) c s e front pending) :
    GivesUp (iterate item separator first) c s e front pending
  | nextTurn {item : Matcher (Bool × List Tree)}
    {separator : Option (Matcher (Bool × List Tree))} {first : Bool} {c : Context} {s : State}
    {r : Result (Option (List Tree))} {e : ParseError} {front : List Event}
    {pending : List String}
    (hr : iteration item (if first then none else separator) c s = r)
    (hon : GoesOn c s.position r)
    (h : GivesUp (iterate item separator false) c r.state e front pending) :
    GivesUp (iterate item separator first) c s e (r.record.events.toList ++ front) pending

/-- Whoever gives up aborts, with the error that was given up for. The induction is
    on how the end is passed on outwards. -/
theorem GivesUp.outcome {m : Matcher α} {c : Context} {s : State} {e : ParseError}
    {front : List Event} {pending : List String} (h : m.GivesUp c s e front pending) :
    (m c s).outcome = .aborted e := by
  induction h with
  | abort => rfl
  | charge hfuel => simp [Matcher.charge, hfuel]
  | checkPatience hpatience => simp [Matcher.checkPatience, hpatience]
  | bind _ ih => rw [run_bind_aborted ih]
  | behind hmatched _ ih => rw [run_bind_matched hmatched, ih]
  | attempt _ ih => rw [run_attempt, ih]; rfl
  | listen _ ih => rw [run_listen, ih]; rfl
  | onFailure f _ ih => rw [run_onFailure, ih]
  | within name _ ih => exact ih
  | turn _ ih => rw [run_iterate_aborted rfl ih]
  | nextTurn hr hon _ ih =>
    obtain ⟨nodes, houtcome, hprogress⟩ := hon
    rw [run_iterate_next hr houtcome hprogress, ih]
    rfl

/-- A run tells its events in brackets, and behind the place where it gives up it
    only leaves the productions that it has opened. -/
structure TellsFrom (g : Grammar) (c : Context) (s : State) (m : Matcher α) : Prop where
  bracketed : Bracketed g c (m c s).record.events.toList
  aborts : ∀ e, (m c s).outcome = .aborted e → ∃ front pending, m.GivesUp c s e front pending ∧
    (m c s).record.events.toList = front ++ leaving pending (m c s).state.position ∧
    opened c.stack front = pending ++ c.stack

/-- Inside a production every run tells its events in brackets, with a value as
    said. -/
def Tells (g : Grammar) (Q : α → Prop) (m : Matcher α) : Prop :=
  ∀ c, c.stack ≠ [] → ∀ s, m.TellsFrom g c s ∧ ∀ a, (m c s).outcome = .matched a → Q a

variable {g : Grammar} {c : Context} {s : State}

namespace TellsFrom

/-- A run that does not abort has only its brackets to show. -/
theorem of_bracketed {m : Matcher α} (h : Bracketed g c (m c s).record.events.toList)
    (hends : ∀ e, (m c s).outcome ≠ .aborted e) : m.TellsFrom g c s where
  bracketed := h
  aborts e he := absurd he (hends e)

/-- A run that gives up by itself, inside no production of its own. Then nothing is
    left behind the place, and all that it has told are brackets. -/
theorem of_givesUp {m : Matcher α} {e : ParseError} (houtcome : (m c s).outcome = .aborted e)
    (h : Bracketed g c (m c s).record.events.toList)
    (hup : m.GivesUp c s e (m c s).record.events.toList []) : m.TellsFrom g c s where
  bracketed := h
  aborts e' he := by
    obtain rfl : e = e' := by simpa [houtcome] using he
    exact ⟨_, [], hup, by simp [leaving], h.closed⟩

/-- The second part starts with the same open productions as the first, because the
    brackets of the first part match. If it gives up, the first part stands in
    front. -/
theorem bind {m : Matcher α} {f : α → Matcher β} (hm : m.TellsFrom g c s)
    (hf : ∀ a, (m c s).outcome = .matched a → (f a).TellsFrom g c (m c s).state) :
    (m >>= f).TellsFrom g c s := by
  cases houtcome : (m c s).outcome with
  | matched a =>
    have hrest := hf a houtcome
    constructor
    · rw [run_bind_matched houtcome, Record.events_append]
      exact hm.bracketed.append hrest.bracketed
    · intro e he
      rw [run_bind_matched houtcome] at he ⊢
      obtain ⟨front, pending, hup, hevents, hopened⟩ := hrest.aborts e he
      refine ⟨_, pending, .behind houtcome hup, ?_, ?_⟩
      · rw [Record.events_append, hevents, List.append_assoc]
      · rw [opened_append, hm.bracketed.closed, hopened]
  | failed =>
    apply of_bracketed
    · rw [run_bind_failed houtcome]
      exact hm.bracketed
    · rw [run_bind_failed houtcome]
      nofun
  | aborted e =>
    constructor
    · rw [run_bind_aborted houtcome]
      exact hm.bracketed
    · intro e' he
      rw [run_bind_aborted houtcome] at he ⊢
      obtain ⟨front, pending, hup, hevents, hopened⟩ :=
        hm.aborts e' (by rw [houtcome, Outcome.aborted.inj he])
      exact ⟨front, pending, hup.bind, hevents, hopened⟩

/-- A matcher whose runs tell the same and give up where those of `m` do. Attempts,
    listening and other values are of this kind. -/
theorem same {m : Matcher α} {whole : Matcher β} (hm : m.TellsFrom g c s)
    (hevents : (whole c s).record.events.toList = (m c s).record.events.toList)
    (hposition : (whole c s).state.position = (m c s).state.position)
    (haborts : ∀ e, (whole c s).outcome = .aborted e → (m c s).outcome = .aborted e)
    (hup : ∀ e front pending, m.GivesUp c s e front pending → whole.GivesUp c s e front pending) :
    whole.TellsFrom g c s where
  bracketed := hevents ▸ hm.bracketed
  aborts e he := by
    obtain ⟨front, pending, h, hfront, hopened⟩ := hm.aborts e (haborts e he)
    exact ⟨front, pending, hup e front pending h, by rw [hevents, hposition, hfront], hopened⟩

/-- A repetition tells what its turns tell, by induction on the tokens that are
    left. -/
theorem iterate {item : Matcher (Bool × List Tree)}
    {separator : Option (Matcher (Bool × List Tree))}
    (hturn : ∀ (first : Bool) (s : State),
      TellsFrom g c s (iteration item (if first then none else separator)))
    (first : Bool) (s : State) : TellsFrom g c s (Matcher.iterate item separator first) := by
  -- Each turn that goes on comes closer to the end of the tokens.
  induction hleft : c.tokens.size - s.position using Nat.strongRecOn generalizing s first with
  | _ left ih =>
  generalize hr : iteration item (if first then none else separator) c s = r
  have hthis := hturn first s
  by_cases hon : GoesOn c s.position r
  · obtain ⟨nodes, houtcome, hprogress⟩ := hon
    have hrest := ih _ (hleft ▸ hprogress) false r.state rfl
    have hrun := run_iterate_next hr houtcome hprogress
    have hbracketed := hr ▸ hthis.bracketed
    constructor
    · rw [hrun, Record.events_append]
      exact hbracketed.append hrest.bracketed
    · intro e he
      rw [hrun] at he ⊢
      obtain ⟨front, pending, hup, hevents, hopened⟩ := hrest.aborts e (Outcome.aborted_of_map he)
      refine ⟨_, pending, .nextTurn hr ⟨nodes, houtcome, hprogress⟩ hup, ?_, ?_⟩
      · rw [Record.events_append, hevents, List.append_assoc]
      · rw [opened_append, hbracketed.closed, hopened]
  · have hrun := run_iterate_ended hr hon
    apply hthis.same
    · rw [hrun, hr]
    · rw [hrun, hr]
    · intro e he
      rw [hrun] at he
      rw [hr]
      exact Outcome.aborted_of_map he
    · intro e front pending hup
      exact hup.turn

end TellsFrom

namespace Tells

/-- A step that does not give up. It has only its brackets to show, and a value as
    said. -/
theorem of_step {Q : α → Prop} {m : Matcher α}
    (h : ∀ c, c.stack ≠ [] → ∀ s, Bracketed g c (m c s).record.events.toList ∧
      (∀ e, (m c s).outcome ≠ .aborted e) ∧ ∀ a, (m c s).outcome = .matched a → Q a) :
    Tells g Q m := by
  intro c hc s
  obtain ⟨hbracketed, hends, hvalue⟩ := h c hc s
  exact ⟨.of_bracketed hbracketed hends, hvalue⟩

theorem pure {Q : α → Prop} {a : α} (ha : Q a) : Tells g Q (Pure.pure a) := by
  refine of_step fun c _ s => ⟨.nil, nofun, fun b hb => ?_⟩
  cases hb
  exact ha

theorem fail {Q : α → Prop} : Tells g Q (Matcher.fail : Matcher α) :=
  of_step fun _ _ _ => ⟨.nil, nofun, nofun⟩

/-- Whoever aborts gives up right here, and has nothing to leave. -/
theorem abort (e : ParseError) : Tells g (fun _ => True) (Matcher.abort e : Matcher α) :=
  fun _ _ _ => ⟨.of_givesUp rfl .nil (.abort e), nofun⟩

theorem position : Tells g (fun _ => True) Matcher.position :=
  of_step fun _ _ _ => ⟨.nil, nofun, fun _ _ => trivial⟩

theorem context : Tells g (fun _ => True) Matcher.context :=
  of_step fun _ _ _ => ⟨.nil, nofun, fun _ _ => trivial⟩

theorem peek : Tells g (fun _ => True) Matcher.peek :=
  of_step fun _ _ _ => ⟨.nil, nofun, fun _ _ => trivial⟩

theorem seek (target : Nat) : Tells g (fun _ => True) (Matcher.seek target) :=
  of_step fun _ _ _ => ⟨.nil, nofun, fun _ _ => trivial⟩

theorem advance : Tells g (fun _ => True) Matcher.advance :=
  of_step fun _ _ _ => ⟨.nil, nofun, fun _ _ => trivial⟩

theorem expect (expected : List Expectation) :
    Tells g (fun _ => True) (Matcher.expect expected) :=
  of_step fun _ _ _ => ⟨.nil, nofun, fun _ _ => trivial⟩

theorem report {e : Event} (hfits : ∀ c : Context, c.stack ≠ [] → e.Fits g c [])
    (hopens : ∀ stack, e.opens stack = stack) : Tells g (fun _ => True) (Matcher.report e) :=
  of_step fun c hc _ => ⟨.single (hfits c hc) (hopens c.stack), nofun, fun _ _ => trivial⟩

/-- Without fuel a charge gives up, and otherwise it tells nothing. Either way it is
    inside the production that it was started in. -/
theorem charge : Tells g (fun _ => True) Matcher.charge := by
  intro c _ s
  refine ⟨?_, fun _ _ => trivial⟩
  obtain ⟨position, fuel, patience⟩ := s
  cases fuel with
  | zero => exact .of_givesUp rfl .nil (.charge rfl)
  | succ fuel => exact .of_bracketed .nil nofun

/-- A test for cancellation tells that it has found the flag set, and gives up. That
    event neither opens nor closes anything. -/
theorem checkPatience : Tells g (fun _ => True) Matcher.checkPatience := by
  intro c _ s
  refine ⟨?_, fun _ _ => trivial⟩
  by_cases hpatience : s.patience = some 0
  · have hrun : Matcher.checkPatience c s = ⟨.aborted .cancelled, s,
        { Record.empty with events := .single (.interrupted s.position) }⟩ := by
      simp [Matcher.checkPatience, hpatience]
    apply TellsFrom.of_givesUp (e := .cancelled)
    · rw [hrun]
    · rw [hrun]
      exact .single trivial rfl
    · rw [hrun]
      exact .checkPatience hpatience
  · have hrun : Matcher.checkPatience c s = ⟨.matched (), s, .empty⟩ := by
      simp [Matcher.checkPatience, hpatience]
    apply TellsFrom.of_bracketed
    · rw [hrun]
      exact .nil
    · rw [hrun]
      nofun

/-- What holds from every state inside a production holds of two parts if it holds
    of each. -/
theorem bind {Q : α → Prop} {R : β → Prop} {m : Matcher α} {f : α → Matcher β}
    (hm : Tells g Q m) (hf : ∀ a, Q a → Tells g R (f a)) : Tells g R (m >>= f) := by
  intro c hc s
  obtain ⟨hfirst, hvalue⟩ := hm c hc s
  refine ⟨hfirst.bind fun a ha => (hf a (hvalue a ha) c hc _).1, fun b hb => ?_⟩
  cases houtcome : (m c s).outcome with
  | matched a =>
    rw [run_bind_matched houtcome] at hb
    exact (hf a (hvalue a houtcome) c hc _).2 b hb
  | failed => simp [run_bind_failed houtcome] at hb
  | aborted e => simp [run_bind_aborted houtcome] at hb

/-- An attempt tells what its matcher tells and gives up where that does. A failure
    becomes a value, and an abort stays one. -/
theorem attempt {m : Matcher α} (hm : Tells g (fun _ => True) m) :
    Tells g (fun _ => True) m.attempt := by
  intro c hc s
  refine ⟨(hm c hc s).1.same ?_ ?_ ?_ fun _ _ _ hup => hup.attempt, fun _ _ => trivial⟩
  · rw [run_attempt]
  · rw [run_attempt]
  · intro e he
    rw [run_attempt] at he
    exact Outcome.aborted_of_attempted he

/-- Listening adds nothing to tell. The misses are a value and no event. -/
theorem listen {m : Matcher α} (hm : Tells g (fun _ => True) m) :
    Tells g (fun _ => True) m.listen := by
  intro c hc s
  refine ⟨(hm c hc s).1.same ?_ ?_ ?_ fun _ _ _ hup => hup.listen, fun _ _ => trivial⟩
  · rw [run_listen]
  · rw [run_listen]
  · intro e he
    rw [run_listen] at he
    exact Outcome.aborted_of_map he

/-- Whoever is blamed says so and gives up, inside no production of its own. -/
theorem blame (misses : Journal Miss) :
    Tells g (fun _ => True) (Matcher.blame misses : Matcher α) :=
  bind context fun _ _ => bind position fun _ _ =>
    bind (report (fun _ _ => trivial) fun _ => rfl) fun _ _ => abort _

/-- A leaf tells what became of one token. Neither a token that is read nor one that
    is missed opens anything. -/
theorem leaf (l : Leaf) : Tells g (fun _ => True) (Matcher.leaf l) := by
  have hmiss (expected : List Expectation) (announced : Option Expectation) (here : Nat) :
      Tells g (fun _ => True) (do
        Matcher.expect expected
        Matcher.report (.miss announced here)
        Matcher.fail : Matcher (List Tree)) :=
    bind (expect _) fun _ _ => bind (report (fun _ _ => trivial) fun _ => rfl) fun _ _ => fail
  refine bind position fun here _ => bind peek fun token? _ => ?_
  cases token? with
  | none => exact hmiss _ _ _
  | some token =>
    dsimp only
    split
    · refine bind (report (fun _ _ => trivial) fun _ => rfl) fun _ _ => ?_
      exact bind advance fun _ _ => pure trivial
    · exact hmiss _ _ _

/-- A breakpoint names the productions that are open, which are those of the
    context. -/
theorem breakpoint : Tells g (fun _ => True) Matcher.breakpoint := by
  apply of_step
  intro c _ s
  obtain ⟨houtcome, -, -, hevents, -⟩ := run_breakpoint c s
  refine ⟨?_, by simp [houtcome], fun _ _ => trivial⟩
  rw [hevents]
  exact .single rfl rfl

/-- The innermost open production tries its candidates. Inside a production there is
    one, so the event names it. -/
theorem candidate {Q : α → Prop} {m : Matcher α} (branch start : Nat) (hm : Tells g Q m) :
    Tells g Q (Matcher.context >>= fun c =>
      Matcher.report (.candidate (c.stack.head?.getD "") branch start) >>= fun _ => m) := by
  intro c hc s
  obtain ⟨name, stack, hstack⟩ := List.exists_cons_of_ne_nil hc
  have hreport : Bracketed g c [.candidate (c.stack.head?.getD "") branch start] := by
    apply Bracketed.single
    · simp [Event.Fits, hstack]
    · rfl
  obtain ⟨hfrom, hvalue⟩ :=
    hm c hc (Matcher.report (.candidate (c.stack.head?.getD "") branch start) c s).state
  refine ⟨?_, hvalue⟩
  apply TellsFrom.bind
  · exact .of_bracketed .nil nofun
  · intro a ha
    cases ha
    apply TellsFrom.bind
    · exact .of_bracketed hreport nofun
    · exact fun _ _ => hfrom

end Tells

end Matcher

namespace Rules

open Matcher

/-- Telling the events in brackets is a rule that holds inside every production. It
    is no rule for productions themselves, whose attempts are told in a form of
    their own. -/
def tells (g : Grammar) : Rules where
  Holds := Tells g
  Place _ := True
  Allowed _ := True
  pure := Tells.pure
  bind := Tells.bind
  fail := Tells.fail
  position := Tells.position
  seek _ := Tells.seek _
  report {e} hmove := by
    cases e with
    | commit | backtrack => exact Tells.report (fun _ _ => trivial) fun _ => rfl
    | _ => cases hmove
  charge := Tells.charge
  checkPatience := Tells.checkPatience
  attempt := Tells.attempt
  candidate := Tells.candidate
  judge {_ _ m verdict} hm hverdict := .bind (.listen hm) fun x _ => by
    cases h : verdict x.1 with
    | none => exact .blame x.2
    | some next => exact hverdict x.1 next h
  leaf _ := Tells.leaf _
  breakpoint := Tells.breakpoint
  iterate hturn first c hc s :=
    ⟨.iterate (fun first s => (hturn first c hc s).1) first s, fun _ _ => trivial⟩

end Rules

namespace Matcher

/-- A production is matched where its body is. Whether the misses of a failure are
    replaced by a label makes no difference to it. -/
theorem isMatched_production (p : Grammar.Production) (body : Matcher (Bool × List Tree))
    (c : Context) (s : State) :
    (production p body c s).outcome.isMatched = (runBody p body c s).outcome.isMatched := by
  cases houtcome : (runBody p body c s).outcome with
  | matched found => rw [(run_production_matched houtcome).1]; rfl
  | failed => rw [(run_production_failed houtcome).1]; rfl
  | aborted e => rw [(run_production_aborted houtcome).1]; rfl

/-- A production enters and leaves itself around what its body tells. If the body
    gives up, the production is the last one of those that are left. -/
theorem TellsFrom.production {g : Grammar} {p : Grammar.Production}
    {body : Matcher (Bool × List Tree)} {c : Context} {s : State}
    (hbody : TellsFrom g { c with stack := p.name :: c.stack }
      ⟨s.position, s.fuel, s.patience.map (· - 1)⟩ body)
    (hends : EndsAttempt g c (.enter p.name s.position :: (runBody p body c s).record.events.toList)
      p.name (runBody p body c s).outcome.isMatched (runBody p body c s).state.position) :
    (Matcher.production p body).TellsFrom g c s where
  bracketed := by
    rw [run_production_events]
    exact hbody.bracketed.attempt hends
  aborts e he := by
    have haborted : (runBody p body c s).outcome = .aborted e := by
      cases houtcome : (runBody p body c s).outcome with
      | matched found => simp [(run_production_matched houtcome).1] at he
      | failed => simp [(run_production_failed houtcome).1] at he
      | aborted e' => simpa [(run_production_aborted houtcome).1] using he
    obtain ⟨front, pending, hup, hevents, hopened⟩ := hbody.aborts e haborted
    refine ⟨.enter p.name s.position :: front, pending ++ [p.name], ?_, ?_, ?_⟩
    · exact .behind rfl (.behind rfl (.bind (.onFailure _ (.within p.name hup))))
    · rw [run_production_events, run_production_state, haborted]
      simp [runBody, hevents, leaving, Outcome.isMatched]
    · simpa [Event.opens] using hopened

end Matcher

namespace Grammar

open Matcher

/-- A production is not there or too deep, or it is matched around its body. In the
    last case the body refers to productions with one level fewer. -/
theorem matcher_cases (g : Grammar) (depth : Nat) (name : String) :
    (∃ e, g.matcher depth name = .abort e) ∨ ∃ below p, depth = below + 1 ∧ p.name = name ∧
      g.matcher depth name = .production p (p.body.matcher (g.matcher below)) := by
  cases hfind : g.find? name with
  | none =>
    refine .inl ⟨.unknownProduction name, ?_⟩
    cases depth with
    | zero | succ => simp only [matcher, hfind]
  | some p =>
    cases depth with
    | zero => exact .inl ⟨.tooDeep, by simp only [matcher, hfind]⟩
    | succ depth =>
      exact .inr ⟨depth, p, rfl, name_of_find? hfind, by simp only [matcher, hfind]⟩

/-- The body of a production tells its events in brackets if the productions below
    it do. -/
theorem tells_body {g : Grammar} {depth : Nat}
    (hcall : ∀ name c s, (g.matcher depth name).TellsFrom g c s) (body : Sequence) :
    (body.matcher (g.matcher depth)).Tells g fun _ => True := by
  have hcalls (name : String) : (g.matcher depth name).Tells g fun _ => True :=
    fun c _ s => ⟨hcall name c s, fun _ _ => trivial⟩
  exact ((Rules.tells g).fold hcalls).ofSequence body fun _ _ => trivial

/-- However a match of a production ends, it tells its events in brackets. The
    induction is on the levels of nesting that are left. -/
theorem tellsFrom_matcher (g : Grammar) (depth : Nat) (name : String) (c : Context) (s : State) :
    (g.matcher depth name).TellsFrom g c s := by
  induction depth generalizing name c s with
  | zero =>
    obtain ⟨e, hself⟩ | ⟨below, p, hdepth, -⟩ := g.matcher_cases 0 name
    · rw [hself]
      exact .of_givesUp rfl .nil (.abort e)
    · cases hdepth
  | succ depth ih =>
    obtain ⟨e, hself⟩ | ⟨below, p, hdepth, rfl, hself⟩ := g.matcher_cases (depth + 1) name
    · rw [hself]
      exact .of_givesUp rfl .nil (.abort e)
    · obtain rfl : depth = below := Nat.succ.inj hdepth
      rw [hself]
      apply TellsFrom.production
      · exact (tells_body ih p.body _ (List.cons_ne_nil _ _) _).1
      · refine ⟨depth + 1, s, [], _, rfl, ?_⟩
        rw [hself, run_production_events, run_production_state, isMatched_production]
        exact ⟨rfl, rfl, rfl⟩

/-- An attempt of a production aborts before it tells anything, or else it enters
    and leaves the production, and leaves it with a match if and only if it has
    succeeded. In between every production that is entered is left again. -/
theorem events_matcher (g : Grammar) (depth : Nat) (name : String) (c : Context) (s : State) :
    let r := g.matcher depth name c s
    (r.record.events.toList = [] ∧ ∃ e, r.outcome = .aborted e) ∨
      ∃ inner, r.record.events.toList = .enter name s.position ::
          (inner ++ [.exit name r.outcome.isMatched r.state.position]) ∧
        opened (name :: c.stack) inner = name :: c.stack := by
  obtain ⟨e, hself⟩ | ⟨below, p, -, rfl, hself⟩ := g.matcher_cases depth name
  · rw [hself]
    exact .inl ⟨rfl, e, rfl⟩
  · rw [hself]
    have hbody := (tells_body (g.tellsFrom_matcher below) p.body
      { c with stack := p.name :: c.stack } (List.cons_ne_nil _ _)
      ⟨s.position, s.fuel, s.patience.map (· - 1)⟩).1
    refine .inr ⟨_, ?_, hbody.bracketed.closed⟩
    rw [run_production_events, run_production_state, isMatched_production]
    rfl

end Grammar

end SqlStatement

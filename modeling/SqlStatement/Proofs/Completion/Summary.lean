import SqlStatement.Proofs.Completion.Condenses
import SqlStatement.Proofs.Grammar.Parts

namespace SqlStatement

namespace Matcher

/-- `m` reads in short what `m'` completes, and where they fail something is missed.
    So the label that reading puts in the place of misses gets as far as they do. -/
abbrev Laden {α : Type} (labels : List Expectation) (tokens : Array Token) (m m' : Matcher α) :
    Prop :=
  ∀ start, Condenses labels tokens start m m' (fun _ _ _ => True) (fun _ misses => misses ≠ [])

variable {labels : List Expectation} {tokens : Array Token} {start : Nat}

/-- Steps that got stuck have missed something. -/
def Ending.Laden (misses : List Miss) : Ending → Prop
  | .finished _ _ => True
  | .stuck _ => misses ≠ []

/-- Misses of earlier steps do not take away those of the step that got stuck. -/
theorem Ending.laden_prepend {misses more : List Miss} (nodes : List Tree) {ending : Ending}
    (h : ending.Laden more) : (ending.prepend nodes).Laden (misses ++ more) := by
  cases ending with
  | finished committed rest => trivial
  | stuck committed => exact List.append_ne_nil_of_right_ne_nil _ h

/-- The steps of a sequence condense, by induction on the terms. Where they get
    stuck, the term that fails has missed something. -/
theorem condenses_steps {ms ms' : List (Matcher (List Tree))}
    (hms : List.Forall₂ (Laden labels tokens) ms ms') (threshold earned : Nat)
    (committed : Bool) :
    Condenses labels tokens start (steps threshold ms earned committed)
      (steps threshold ms' earned committed) (fun ending _ misses => ending.Laden misses)
      (fun _ _ => False) := by
  induction hms generalizing earned committed start with
  | nil => exact .bind (.commitAt fun _ => .pure trivial)
  | cons hstep _ ih =>
    refine .bind (.checkPatience (.bind (.commitAt fun committed => ?_)))
    refine .bind (.position fun _ => .bind (.attempt ?_))
    refine (hstep start).imp (fun nodes stop misses _ _ _ => ?_) (fun stop misses hne => .pure ?_)
    · refine .bind (.position fun _ => .bind ?_)
      refine (ih _ committed).imp (fun ending _ more _ hending _ => .pure ?_)
        (fun _ _ => False.elim)
      simpa using Ending.laden_prepend nodes hending
    · simpa [Ending.Laden] using hne

/-- A sequence that fails, or is blamed, has missed what its steps have. It goes
    back and takes its tokens back, but the log stays. -/
theorem condenses_sequence {ms ms' : List (Matcher (List Tree))}
    (hms : List.Forall₂ (Laden labels tokens) ms ms') (threshold : Nat) :
    Laden labels tokens (sequence threshold ms) (sequence threshold ms') := by
  intro start
  rw [sequence_eq, sequence_eq]
  refine .bind (.position fun hstart => .judge ?_)
  refine (condenses_steps hms threshold 0 false).imp (fun ending stop misses _ hending _ => ?_)
    (fun _ _ => False.elim)
  match ending with
  | .finished committed nodes => exact .pure trivial
  | .stuck true => exact hending
  | .stuck false =>
    have hne : misses ≠ [] := hending
    exact .bind (.backtrack hstart (.fail (by simpa using hne)))

/-- An optional part never fails, so nothing is asked of its misses. A failure of
    its body in the one run is a failure in the other. -/
theorem condenses_optional {m m' : Matcher (Bool × List Tree)} (h : Laden labels tokens m m') :
    Laden labels tokens (optional m) (optional m') := by
  intro start
  refine .bind (.position fun _ => .bind (.attempt ?_))
  refine (h start).imp (fun x _ _ _ _ _ => ?_) (fun _ _ _ => .pure trivial)
  exact .wrap fun _ => trivial

/-- Candidates fail only where none has matched, and then each of them has missed
    something. -/
theorem condenses_choose {ms ms' : List (Matcher (Bool × List Tree))}
    (hms : List.Forall₂ (Laden labels tokens) ms ms') {here : Nat} (hstart : start ≤ tokens.size)
    (branch : Nat) {best : Option Provisional} (hbest : ∀ b ∈ best, b.stop ≤ tokens.size) :
    Condenses labels tokens here (choose start ms branch best) (choose start ms' branch best)
      (fun _ _ _ => True) (fun _ misses => best = none ∧ (ms = [] ∨ misses ≠ [])) := by
  induction hms generalizing branch best here with
  | nil =>
    cases best with
    | none => exact .fail ⟨rfl, .inl rfl⟩
    | some best => exact .bind (.seek (hbest best rfl) (.wrap fun _ => trivial))
  | cons hcandidate _ ih =>
    refine .bind (.seek hstart (.candidate branch start (.bind (.attempt ?_))))
    refine (hcandidate start).imp (fun x stop misses _ _ _ => ?_) (fun stop misses hne => ?_)
    · match x with
      | (true, nodes) => exact .wrap fun _ => trivial
      | (false, nodes) =>
        refine .bind (.position fun hstop => ?_)
        refine (ih (branch + 1) ?_).imp (fun _ _ _ _ _ _ => trivial)
          (fun _ _ hnone => by cases hnone.1)
        intro b hb
        cases hb
        cases best with
        | none => exact hstop
        | some old =>
          have hold := hbest old rfl
          unfold Provisional.better
          dsimp only
          split
          · exact hstop
          · exact hold
    · refine (ih (branch + 1) hbest).imp (fun _ _ _ _ _ _ => trivial) (fun _ more hmore => ?_)
      exact ⟨hmore.1, .inr (by simp [hne])⟩

/-- An alternation with a candidate condenses: if it fails, a candidate has failed.
    Without a candidate it would fail and have missed nothing. -/
theorem condenses_alternation {ms ms' : List (Matcher (Bool × List Tree))} (hne : ms ≠ [])
    (hms : List.Forall₂ (Laden labels tokens) ms ms') :
    Laden labels tokens (alternation ms) (alternation ms') := by
  intro start
  have hnone : ∀ b ∈ (none : Option Provisional), b.stop ≤ tokens.size := nofun
  refine .bind (.position fun hstart => ?_)
  refine (condenses_choose hms hstart 0 hnone).imp (fun _ _ _ _ _ _ => trivial)
    (fun _ misses hmisses => ?_)
  rcases hmisses.2 with hnil | hsome
  · exact absurd hnil hne
  · exact hsome

section Repetition

variable {m m' : Matcher (Bool × List Tree)} {ms ms' : Option (Matcher (Bool × List Tree))}

/-- A turn that does not go on has missed something. -/
def Turn.Laden (misses : List Miss) : Turn → Prop
  | .next _ => True
  | .over | .itemMissing => misses ≠ []

/-- A turn that is over, or misses its item, has missed something. It is over where
    the separator or the first item is missing. -/
theorem condenses_turn (hitem : Laden labels tokens m m')
    (hseparator : Option.Rel (Laden labels tokens) ms ms') :
    Condenses labels tokens start (turn m ms) (turn m' ms')
      (fun ending _ misses => ending.Laden misses) (fun _ _ => False) := by
  cases hseparator with
  | none =>
    refine .bind (.position fun _ => .bind (.attempt ?_))
    refine (hitem start).imp (fun x _ _ _ _ _ => ?_) (fun _ misses hne => .pure ?_)
    · exact .bind (.wrap fun _ => .pure trivial)
    · simpa [Turn.Laden] using hne
  | some hseparator =>
    refine .bind (.position fun _ => .bind (.attempt ?_))
    refine (hseparator start).imp (fun x stop _ _ _ _ => ?_) (fun _ misses hne => .pure ?_)
    · refine .bind (.wrap fun _ => .bind (.position fun _ => .bind (.attempt ?_)))
      refine (hitem stop).imp (fun y _ _ _ _ _ => ?_) (fun _ misses hne => .pure ?_)
      · exact .bind (.wrap fun _ => .pure trivial)
      · simp [Turn.Laden, hne]
    · simpa [Turn.Laden] using hne

/-- The same behind the charge, with the blame where an item is missing. There the
    turn has missed something, so that blame is laid for some misses. -/
theorem condenses_iteration (hitem : Laden labels tokens m m')
    (hseparator : Option.Rel (Laden labels tokens) ms ms') :
    Condenses labels tokens start (iteration m ms) (iteration m' ms')
      (fun found _ misses => found = none → misses ≠ []) (fun _ _ => False) := by
  rw [iteration_eq, iteration_eq]
  refine .bind (.checkPatience (.bind (.charge (.judge ?_))))
  refine (condenses_turn hitem hseparator).imp (fun ending _ misses _ hending _ => ?_)
    (fun _ _ => False.elim)
  match ending with
  | .over =>
    have hne : misses ≠ [] := hending
    exact .pure fun _ => by simpa using hne
  | .itemMissing => exact hending
  | .next nodes => exact .pure nofun

/-- Whether each turn of a repetition that goes on gets past a token. -/
def Advances (tokens : Array Token) (item : Matcher (Bool × List Tree))
    (separator : Option (Matcher (Bool × List Tree))) : Prop :=
  ∀ (first : Bool) (c : Context) (i : Nat), c.tokens = tokens → i ≤ tokens.size →
    (iteration item (if first then none else separator)).Ensures c i
      (fun found j => found ≠ none → i < j) (fun _ => True)

/-- Items that get past a token, and separators that do not go back, make the turns
    advance. -/
theorem advances_of_items
    (hitem : ∀ (c : Context) (i : Nat), c.tokens = tokens → i ≤ tokens.size →
      m.Ensures c i (fun _ j => i < j) (fun _ => True))
    (hseparator : ∀ separator ∈ ms, ∀ (c : Context) (i : Nat), c.tokens = tokens →
      i ≤ tokens.size →
        separator.Ensures c i (fun _ j => i ≤ j ∧ j ≤ tokens.size) (fun _ => True)) :
    Advances tokens m ms := by
  have hturn (separator : Option (Matcher (Bool × List Tree))) (hmem : ∀ x ∈ separator, x ∈ ms)
      (c : Context) (i : Nat) (hc : c.tokens = tokens) (hi : i ≤ tokens.size) :
      (iteration m separator).Ensures c i (fun found j => found ≠ none → i < j)
        (fun _ => True) := by
    refine .bind (.checkPatience (.bind (.charge (.bind (.listen ?_)))))
    have hends : (turn m separator).Ensures c i
        (fun ending j => ∀ nodes, ending = .next nodes → i < j) (fun _ => True) := by
      cases separator with
      | none =>
        refine .bind (.position (.bind (.attempt ?_)))
        refine (hitem c i hc hi).imp (fun x j hj => ?_) (fun j _ => .pure nofun)
        exact .bind (.wrap (.pure fun _ _ => hj))
      | some separator =>
        refine .bind (.position (.bind (.attempt ?_)))
        refine (hseparator separator (hmem _ rfl) c i hc hi).imp (fun x j hj => ?_)
          (fun j _ => .pure nofun)
        obtain ⟨hij, hj⟩ := hj
        refine .bind (.wrap (.bind (.position (.bind (.attempt ?_)))))
        refine (hitem c j hc hj).imp (fun y k hk => ?_) (fun k _ => .pure nofun)
        refine .bind (.wrap (.pure fun _ _ => ?_))
        omega
    refine hends.imp (fun ending j hending misses => ?_) (fun _ => id)
    match ending with
    | .over => exact .pure fun hnone => absurd rfl hnone
    | .itemMissing => exact .blame misses
    | .next nodes => exact .pure fun _ => hending nodes rfl
  intro first c i hc hi
  cases first with
  | true => exact hturn none nofun c i hc hi
  | false => exact hturn ms (fun _ h => h) c i hc hi

/-- Turns that all advance end where something is missed. Without that a repetition
    could end with a turn that matches nothing and misses nothing. -/
theorem condenses_iterate (hitem : Laden labels tokens m m')
    (hseparator : Option.Rel (Laden labels tokens) ms ms') {needed : Prop}
    (hadvances : needed → Advances tokens m' ms') (first : Bool) :
    Condenses labels tokens start (iterate m ms first) (iterate m' ms' first)
      (fun _ _ misses => needed → misses ≠ []) (fun _ _ => False) := by
  rintro hstart stack s rfl
  -- Each turn that goes on comes closer to the end of the tokens.
  induction hleft : tokens.size - s.position using Nat.strongRecOn generalizing s first with
  | _ left ih =>
  have hturn : Condenses labels tokens s.position
      (iteration m (if first then none else ms)) (iteration m' (if first then none else ms'))
      (fun found _ misses => found = none → misses ≠ []) (fun _ _ => False) := by
    cases first with
    | true => exact condenses_iteration hitem .none
    | false => exact condenses_iteration hitem hseparator
  have hforward (hneeded : needed) := (hadvances hneeded first ⟨tokens, .completing, stack⟩
    s.position rfl hstart) s rfl
  obtain ⟨hresult, hstop, hmeets⟩ := hturn hstart stack s rfl
  generalize hshort : iteration m (if first then none else ms) ⟨tokens, .reading, stack⟩ s = short
    at hresult
  generalize hfull : iteration m' (if first then none else ms') ⟨tokens, .completing, stack⟩ s =
    full at hresult hstop hmeets hforward
  cases houtcome : full.outcome with
  | failed =>
    rw [houtcome] at hmeets
    exact hmeets.elim
  | aborted e =>
    obtain ⟨e', houtcome', he⟩ := hresult.outcome.aborted houtcome
    rw [run_iterate_aborted hshort houtcome', run_iterate_aborted hfull houtcome]
    exact ⟨⟨he, hresult.state, hresult.misses⟩, hstop, trivial⟩
  | matched found =>
    have houtcome' := hresult.outcome.matched houtcome
    rw [houtcome] at hmeets hforward
    cases found with
    | none =>
      rw [run_iterate_over hshort houtcome', run_iterate_over hfull houtcome]
      exact ⟨⟨rfl, hresult.state, hresult.misses⟩, hstop, fun _ => hmeets rfl⟩
    | some nodes =>
      by_cases hprogress : tokens.size - full.state.position < tokens.size - s.position
      · obtain ⟨hrest, hrestStop, hrestMeets⟩ :=
          ih _ (hleft ▸ hprogress) false full.state hstop rfl
        rw [run_iterate_next hshort houtcome' (by rw [hresult.state]; exact hprogress),
          run_iterate_next hfull houtcome hprogress, hresult.state]
        generalize iterate m ms false ⟨tokens, .reading, stack⟩ full.state = rest at hrest
        generalize iterate m' ms' false ⟨tokens, .completing, stack⟩ full.state = rest'
          at hrest hrestStop hrestMeets
        refine ⟨?_, hrestStop, ?_⟩
        · exact hresult.append (hrest.map _)
        · rw [Record.misses_append]
          cases hends : rest'.outcome with
          | matched x =>
            rw [hends] at hrestMeets
            exact fun hneeded => List.append_ne_nil_of_right_ne_nil _ (hrestMeets hneeded)
          | failed =>
            rw [hends] at hrestMeets
            exact hrestMeets
          | aborted => trivial
      · rw [run_iterate_still hshort houtcome' (by rw [hresult.state]; exact hprogress),
          run_iterate_still hfull houtcome hprogress]
        refine ⟨⟨rfl, hresult.state, hresult.misses⟩, hstop, fun hneeded => ?_⟩
        have hpast : s.position < full.state.position := hforward hneeded nofun
        omega

/-- A repetition fails only with too few turns, so turns have to advance only where
    some are needed. -/
theorem condenses_repetition (hitem : Laden labels tokens m m')
    (hseparator : Option.Rel (Laden labels tokens) ms ms') (least : Nat)
    (hadvances : 0 < least → Advances tokens m' ms') :
    Laden labels tokens (repetition m ms least) (repetition m' ms' least) := by
  intro start
  refine .bind (.position fun hstart => .bind ?_)
  refine (condenses_iterate hitem hseparator hadvances true).imp (fun x _ misses _ hne _ => ?_)
    (fun _ _ => False.elim)
  obtain ⟨count, nodes⟩ := x
  dsimp only
  split
  · next hfew =>
    have hsome : misses ≠ [] := hne (Nat.zero_lt_of_lt hfew)
    exact .bind (.backtrack hstart (.fail (by simpa using hsome)))
  · exact .wrap fun _ => trivial

end Repetition

theorem condenses_breakpoint : Laden labels tokens breakpoint breakpoint := by
  rintro start hstart stack s rfl
  have hrun (purpose : Purpose) := run_breakpoint ⟨tokens, purpose, stack⟩ s
  obtain ⟨houtcome, hstate, hmisses, -⟩ := hrun .reading
  obtain ⟨houtcome', hstate', hmisses', -⟩ := hrun .completing
  refine ⟨⟨?_, ?_, ?_⟩, ?_, ?_⟩
  · rw [houtcome, houtcome']
    rfl
  · rw [hstate, hstate']
  · rw [hmisses, hmisses']
    exact .refl _ _
  · rw [hstate']
    exact hstart
  · rw [houtcome']
    trivial

/-- A production condenses what its body does, by whatever label it is read. The
    label is missed at its start, and its body has missed something there or
    behind. -/
theorem condenses_production (p : Grammar.Production) (label : Option String)
    (hlabel : ∀ text ∈ label, .label text ∈ labels) {body body' : Matcher (Bool × List Tree)}
    (hbody : Laden labels tokens body body')
    (hbounded : ∀ low, Bounded tokens low (fun _ => True) body') :
    Laden labels tokens (production { p with label } body) (production p body') := by
  rintro start hstart stack s rfl
  have hinner : (runBody { p with label } body ⟨tokens, .reading, stack⟩ s).CondensesTo labels
      tokens.size (fun _ _ _ => True) (fun _ misses => misses ≠ [])
      (runBody p body' ⟨tokens, .completing, stack⟩ s) := hbody _ hstart _ _ rfl
  have hwithin : (runBody p body' ⟨tokens, .completing, stack⟩ s).Within s.position tokens.size
      fun _ => True := hbounded _ _ _ rfl (Nat.le_refl _) hstart
  obtain ⟨hresult, hstop, hmeets⟩ := hinner
  have hstates : (production { p with label } body ⟨tokens, .reading, stack⟩ s).state =
      (production p body' ⟨tokens, .completing, stack⟩ s).state := by
    rw [run_production_state, run_production_state, hresult.state]
  have hhigh : (production p body' ⟨tokens, .completing, stack⟩ s).state.position ≤
      tokens.size := by
    rw [run_production_state]
    exact hstop
  cases hfull : (runBody p body' ⟨tokens, .completing, stack⟩ s).outcome with
  | matched x =>
    have hshort := hresult.outcome.matched hfull
    obtain ⟨houtcome, hmisses⟩ := run_production_matched hshort
    obtain ⟨houtcome', hmisses'⟩ := run_production_matched hfull
    refine ⟨⟨?_, hstates, ?_⟩, hhigh, ?_⟩
    · rw [houtcome, houtcome', hresult.state]
      rfl
    · rw [hmisses, hmisses']
      exact hresult.misses
    · rw [houtcome']
      trivial
  | failed =>
    have hshort := hresult.outcome.failed hfull
    rw [hfull] at hmeets
    obtain ⟨houtcome, hmisses⟩ := run_production_failed hshort
    obtain ⟨houtcome', hmisses'⟩ := run_production_failed hfull
    rw [Grammar.Production.summary_completing] at hmisses'
    refine ⟨⟨?_, hstates, ?_⟩, hhigh, ?_⟩
    · rw [houtcome, houtcome']
      trivial
    · rw [hmisses, hmisses']
      exact hresult.misses.summary hlabel hmeets fun miss hmiss => (hwithin.misses miss hmiss).1
    · rw [houtcome', hmisses']
      exact hmeets
  | aborted e =>
    obtain ⟨e', hshort, he⟩ := hresult.outcome.aborted hfull
    obtain ⟨houtcome, hmisses⟩ := run_production_aborted hshort
    obtain ⟨houtcome', hmisses'⟩ := run_production_aborted hfull
    refine ⟨⟨?_, hstates, ?_⟩, hhigh, ?_⟩
    · rw [houtcome, houtcome']
      exact he
    · rw [hmisses, hmisses']
      exact hresult.misses
    · rw [houtcome']
      trivial

end Matcher

namespace Grammar

open Matcher (Laden)

/-- Whether a sequence gets past a token wherever it matches. -/
def Sequence.Covers (call : String → Matcher Tree) (s : Sequence) : Prop :=
  ∀ (c : Context) (σ : State) (x : Bool × List Tree), σ.position ≤ c.tokens.size →
    (s.matcher call c σ).outcome = .matched x → (s.matcher call c σ).state.position ≠ σ.position

/-- What a part has to be for its failures to leave a miss behind. -/
def Term.Fit (call : String → Matcher Tree) : Term → Prop
  | .leaf l => l.expectations ≠ [] ∧ l.omitsEnd = true
  | .alternation candidates => candidates ≠ []
  | .repetition item _ least => 0 < least → item.Covers call
  | _ => True

/-- The same production with its label replaced. -/
def Production.relabel (f : String → String) (p : Production) : Production :=
  { p with label := p.label.map f }

/-- The same table with its labels replaced. -/
def relabel (g : Grammar) (f : String → String) : Grammar :=
  { g with productions := g.productions.map (·.relabel f) }

/-- Labels that are replaced by themselves are the labels. -/
theorem relabel_id (g : Grammar) : g.relabel id = g := by
  have hsame : Production.relabel id = id := by
    funext p
    simp [Production.relabel]
  simp [relabel, hsame]

/-- A table with other labels has the same productions under the same names. -/
theorem find?_relabel (g : Grammar) (f : String → String) (name : String) :
    (g.relabel f).find? name = (g.find? name).map (·.relabel f) :=
  List.find?_map ..

/-- What the productions are called where they fail at their first token. -/
def labels (g : Grammar) : List Expectation :=
  g.productions.filterMap fun p => p.label.map .label

/-- The label of a production of the table is among the labels of the table. -/
theorem label_mem_labels {g : Grammar} {name : String} {p : Production}
    (hfind : g.find? name = some p) {text : String} (htext : text ∈ p.label) :
    .label text ∈ g.labels := by
  refine List.mem_filterMap.mpr ⟨p, List.mem_of_find?_eq_some hfind, ?_⟩
  rw [Option.mem_def.mp htext]
  rfl

variable {labels : List Expectation} {tokens : Array Token} {call call' : String → Matcher Tree}

/-- Terms of fit parts have matchers that condense, one by one. The parts of a term
    are among those of the terms that it stands among. -/
theorem laden_termMatchers {ts : List Term} {ms : List (Matcher (List Tree))}
    (h : List.Forall₂ (fun t m => (∀ u ∈ t.parts, u.Fit call') →
      Laden labels tokens m (t.matcher call')) ts ms)
    (hfit : ∀ u ∈ termParts ts, u.Fit call') :
    List.Forall₂ (Laden labels tokens) ms (termMatchers call' ts) := by
  induction h with
  | nil => exact .nil
  | cons hhead _ ih =>
    refine .cons (hhead fun u hu => hfit u ?_) (ih fun u hu => hfit u ?_)
    · exact List.mem_append_left _ hu
    · exact List.mem_append_right _ hu

/-- The same for the candidates of an alternation. Each is a sequence over parts of
    the alternation. -/
theorem laden_candidateMatchers {cs : List Sequence} {ms : List (Matcher (Bool × List Tree))}
    (h : List.Forall₂ (fun s m => (∀ u ∈ s.parts, u.Fit call') →
      Laden labels tokens m (s.matcher call')) cs ms)
    (hfit : ∀ u ∈ candidateParts cs, u.Fit call') :
    List.Forall₂ (Laden labels tokens) ms (candidateMatchers call' cs) := by
  induction h with
  | nil => exact .nil
  | cons hhead _ ih =>
    refine .cons (hhead fun u hu => hfit u ?_) (ih fun u hu => hfit u ?_)
    · exact List.mem_append_left _ hu
    · exact List.mem_append_right _ hu

/-- A bounded matcher does not go back. The bound that it keeps to is put at its
    start. -/
theorem forward_of_bounded {α : Type} {m : Matcher α}
    (hbounded : ∀ low, Matcher.Bounded tokens low (fun _ => True) m) (c : Context) (i : Nat)
    (hc : c.tokens = tokens) (hi : i ≤ tokens.size) :
    m.Ensures c i (fun _ j => i ≤ j ∧ j ≤ tokens.size) (fun _ => True) := by
  rintro s rfl
  have hwithin := hbounded s.position c s hc (Nat.le_refl _) hi
  cases (m c s).outcome with
  | matched a => exact ⟨hwithin.low_le, hwithin.le_high⟩
  | failed | aborted => trivial

/-- A sequence that covers a token gets past its start, since it does not go back. A
    place that is different and not in front is behind. -/
theorem Sequence.Covers.past {s : Sequence} (hcovers : s.Covers call)
    (hbounded : ∀ low, Matcher.Bounded tokens low (fun _ => True) (s.matcher call)) (c : Context)
    (i : Nat) (hc : c.tokens = tokens) (hi : i ≤ tokens.size) :
    (s.matcher call).Ensures c i (fun _ j => i < j) (fun _ => True) := by
  rintro σ rfl
  have hforward := forward_of_bounded hbounded c σ.position hc hi σ rfl
  cases hmatched : (s.matcher call c σ).outcome with
  | matched x =>
    rw [hmatched] at hforward
    have hmoved := hcovers c σ x (hc ▸ hi) hmatched
    exact Nat.lt_of_le_of_ne hforward.1 (Ne.symm hmoved)
  | failed | aborted => trivial

/-- Terms and sequences of fit parts condense if the productions that they refer to
    do. -/
theorem condenses_fold (hcall : ∀ name, Laden labels tokens (call name) (call' name))
    (hbounded : ∀ low name, Matcher.Bounded tokens low (fun _ => True) (call' name)) :
    Fold call
      (fun t m => (∀ u ∈ t.parts, u.Fit call') → Laden labels tokens m (t.matcher call'))
      (fun s m => (∀ u ∈ s.parts, u.Fit call') → Laden labels tokens m (s.matcher call')) where
  leaf l hfit start := by
    obtain ⟨hexpects, homits⟩ := hfit _ (List.mem_singleton_self _)
    exact .bind (.charge (.leaf hexpects homits))
  production name _ start := by
    refine .bind (.charge (.bind ?_))
    exact (hcall name start).imp (fun _ _ _ _ _ _ => .pure trivial) (fun _ _ h => h)
  optional hbody hfit start :=
    .bind (.charge (Matcher.condenses_optional (hbody fun u hu => hfit u (.tail _ hu)) start))
  alternation {candidates ms} hcandidates hfit start := by
    have hne : ms ≠ [] := by
      rintro rfl
      cases hcandidates
      exact hfit _ (Term.mem_parts_self _) rfl
    have hms := laden_candidateMatchers hcandidates fun u hu => hfit u (.tail _ hu)
    exact .bind (.charge (Matcher.condenses_alternation hne hms start))
  repetition {item separator m ms} least hitem hseparator hfit start := by
    have hcovers : 0 < least → item.Covers call' := hfit _ (Term.mem_parts_self _)
    have hbody (s : Sequence) (low : Nat) :
        Matcher.Bounded tokens low (fun _ => True) (s.matcher call') :=
      ((Discipline.bounds tokens low).fold (hbounded low)).ofSequence s fun _ _ => trivial
    cases hseparator with
    | none =>
      have hitem := hitem fun u hu => hfit u (.tail _ hu)
      refine .bind (.charge (Matcher.condenses_repetition hitem .none least ?_ start))
      exact fun hneeded => Matcher.advances_of_items ((hcovers hneeded).past (hbody item)) nofun
    | @some separator _ hseparator =>
      have hitem := hitem fun u hu => hfit u (.tail _ (List.mem_append_left _ hu))
      have hseparator := hseparator fun u hu => hfit u (.tail _ (List.mem_append_right _ hu))
      refine .bind (.charge (Matcher.condenses_repetition hitem (.some hseparator) least ?_ start))
      refine fun hneeded => Matcher.advances_of_items ((hcovers hneeded).past (hbody item)) ?_
      intro m hm
      cases hm
      exact forward_of_bounded (hbody separator)
  breakpoint _ start := .bind (.charge (Matcher.condenses_breakpoint start))
  sequence commit hterms hfit :=
    Matcher.condenses_sequence (laden_termMatchers hterms hfit) commit

/-- A table of fit parts reads in short what it completes, whatever its productions
    are labelled when it reads. -/
theorem condenses_matcher {g : Grammar} (f : String → String)
    (hfit : ∀ depth, ∀ u ∈ g.parts, u.Fit (g.matcher depth)) (depth : Nat) (name : String) :
    Laden (g.relabel f).labels tokens ((g.relabel f).matcher depth name)
      (g.matcher depth name) := by
  induction depth generalizing name with
  | zero =>
    rw [matcher, matcher, find?_relabel]
    cases g.find? name with
    | none => exact fun _ => .abort rfl
    | some p => exact fun _ => .abort rfl
  | succ depth ih =>
    have hfound := find?_relabel g f name
    rw [matcher, matcher, hfound]
    cases hfind : g.find? name with
    | none => exact fun _ => .abort rfl
    | some p =>
      rw [hfind] at hfound
      have hbounded (low : Nat) (name : String) :
          Matcher.Bounded tokens low (fun _ => True) (g.matcher depth name) :=
        (Discipline.bounds tokens low).keeps_matcher (fun _ _ => trivial) depth name
      have hbody := (condenses_fold ih hbounded).ofSequence p.body fun u hu =>
        hfit depth u (mem_parts_of_find? hfind hu)
      refine Matcher.condenses_production p (p.label.map f) ?_ hbody fun low => ?_
      · exact fun text htext => label_mem_labels hfound htext
      · exact ((Discipline.bounds tokens low).fold (hbounded low)).ofSequence p.body
          fun _ _ => trivial

end Grammar

end SqlStatement

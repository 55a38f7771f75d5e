import SqlStatement.Lexer
import SqlStatement.Proofs.Grammar.Leading
import SqlStatement.Proofs.Match.Soundness
import SqlStatement.Proofs.Match.Stops
import SqlStatement.Proofs.Sqlite.Terminator

namespace SqlStatement

open Grammar (Derives Leaf Sequence Term termsLeading)

/-- What is aborted for some reason is not aborted for another one, whatever its
    values are. -/
theorem Outcome.aborted_ne {α β : Type} {o : Outcome α} {e e' : ParseError} (h : o = .aborted e)
    (hne : o ≠ .aborted e') : (.aborted e : Outcome β) ≠ .aborted e' := by
  intro heq
  cases heq
  exact hne h

namespace Matcher

variable {α β : Type} {c : Context} {start : Nat}

/-- From `start` on, no production that `m` opens is too deep, be it in a branch
    that is given up later. -/
def Shallow (c : Context) (start : Nat) (m : Matcher α) : Prop :=
  ∀ s : State, s.position = start → (m c s).outcome ≠ .aborted .tooDeep

namespace Shallow

variable {m : Matcher α} {f : α → Matcher β}

theorem pure (a : α) : (Pure.pure a : Matcher α).Shallow c start :=
  fun _ _ => nofun

theorem fail : (Matcher.fail : Matcher α).Shallow c start :=
  fun _ _ => nofun

theorem abort {e : ParseError} (he : e ≠ .tooDeep) :
    (Matcher.abort e : Matcher α).Shallow c start :=
  fun _ _ hdeep => he (Outcome.aborted.inj hdeep)

/-- What goes on where a match stops has to be shallow there. What is known of that
    place comes from what the match derives. -/
theorem bind (hm : m.Shallow c start)
    (hstops : m.Ensures c start (fun a stop => (f a).Shallow c stop) fun _ => True) :
    (m >>= f).Shallow c start := by
  intro s hs
  cases h : (m c s).outcome with
  | matched a =>
    rw [run_bind_matched h]
    exact hstops.matched hs h _ rfl
  | failed =>
    rw [run_bind_failed h]
    nofun
  | aborted e =>
    rw [run_bind_aborted h]
    exact Outcome.aborted_ne h (hm s hs)

theorem seq (hm : m.Shallow c start) (hf : ∀ a stop, (f a).Shallow c stop) :
    (m >>= f).Shallow c start :=
  hm.bind (Ensures.any.imp (fun a stop _ => hf a stop) fun _ => id)

/-- An attempt opens what its matcher opens. -/
theorem attempt (hm : m.Shallow c start) : m.attempt.Shallow c start := by
  intro s hs
  rw [run_attempt]
  cases h : (m c s).outcome with
  | matched | failed => nofun
  | aborted e => exact Outcome.aborted_ne h (hm s hs)

theorem listen (hm : m.Shallow c start) : m.listen.Shallow c start := by
  intro s hs
  rw [run_listen]
  cases h : (m c s).outcome with
  | matched | failed => nofun
  | aborted e => exact Outcome.aborted_ne h (hm s hs)

-- A step that opens no production leaves it to what follows.

theorem position {f : Nat → Matcher β} (h : (f start).Shallow c start) :
    (Matcher.position >>= f).Shallow c start :=
  bind (fun _ _ => nofun) (.position h)

theorem context {f : Context → Matcher β} (h : (f c).Shallow c start) :
    (Matcher.context >>= f).Shallow c start :=
  bind (fun _ _ => nofun) (.context h)

theorem seek {target : Nat} {f : Unit → Matcher β} (h : (f ()).Shallow c target) :
    (Matcher.seek target >>= f).Shallow c start :=
  bind (fun _ _ => nofun) (.seek h)

theorem report {e : Event} {f : Unit → Matcher β} (h : (f ()).Shallow c start) :
    (Matcher.report e >>= f).Shallow c start :=
  bind (fun _ _ => nofun) (.report h)

theorem charge {f : Unit → Matcher β} (h : (f ()).Shallow c start) :
    (Matcher.charge >>= f).Shallow c start := by
  refine bind (fun s _ => ?_) (.charge h)
  unfold Matcher.charge
  split <;> simp

theorem checkPatience {f : Unit → Matcher β} (h : (f ()).Shallow c start) :
    (Matcher.checkPatience >>= f).Shallow c start := by
  refine bind (fun s _ => ?_) (.checkPatience h)
  unfold Matcher.checkPatience
  split <;> simp

theorem commitAt {threshold earned : Nat} {committed : Bool} {f : Bool → Matcher β}
    (h : ∀ committed, (f committed).Shallow c start) :
    (Matcher.commitAt threshold earned committed >>= f).Shallow c start := by
  refine bind ?_ (.commitAt h)
  unfold Matcher.commitAt
  split
  · exact position (report (pure true))
  · exact pure committed

theorem wrap {label : Tree.Label} {first : Nat} {children : List Tree} :
    (Matcher.wrap label first children).Shallow c start :=
  position (pure _)

/-- To go back and fail opens nothing. -/
theorem giveUp {target : Nat} :
    (Matcher.backtrack target >>= fun _ => (Matcher.fail : Matcher β)).Shallow c start := by
  refine seq (position ?_) fun _ _ => fail
  split
  · exact report (fun _ _ => nofun)
  · exact pure ()

/-- Nor does blame, whose error is about the input. -/
theorem blame (misses : Journal Miss) : (Matcher.blame misses : Matcher β).Shallow c start :=
  context (position (report (abort (by simp))))

end Shallow

variable {g : Grammar} {known : List String} {tokens : Array Token}
  {call : String → Matcher Tree}

/-- At `start` the named productions are shallow, and behind it all productions are.
    That is what a matcher needs which asks for the named ones first. -/
structure Ready (tokens : Array Token) (call : String → Matcher Tree) (start : Nat)
    (names : List String) : Prop where
  here : ∀ name ∈ names, ∀ c : Context, c.tokens = tokens → (call name).Shallow c start
  behind : ∀ stop, start < stop → stop ≤ tokens.size →
    ∀ name (c : Context), c.tokens = tokens → (call name).Shallow c stop

namespace Ready

variable {names : List String} {stop : Nat}

theorem subset {fewer : List String} (h : Ready tokens call start names) (hsubset : fewer ⊆ names) :
    Ready tokens call start fewer :=
  { h with here := fun name hname => h.here name (hsubset hname) }

/-- Past a token all productions are shallow, so any names will do. -/
theorem later (h : Ready tokens call start names) (hlt : start < stop) (hle : stop ≤ tokens.size)
    (others : List String) : Ready tokens call stop others where
  here name _ := h.behind stop hlt hle name
  behind further hfurther := h.behind further (Nat.lt_trans hlt hfurther)

/-- Whether or not a token was consumed, the same names will do. -/
theorem onwards (h : Ready tokens call start names) (hle : start ≤ stop)
    (hsize : stop ≤ tokens.size) : Ready tokens call stop names := by
  rcases Nat.eq_or_lt_of_le hle with rfl | hlt
  · exact h
  · exact h.later hlt hsize names

/-- Behind a term the terms that follow ask for their productions first. If the term
    has matched nothing, these were among the names already. -/
theorem next {t : Term} {ts : List Term} {nodes : List Tree} (hknown : g.NullableWithin known)
    (h : Ready tokens call start (termsLeading known (t :: ts)))
    (hnodes : Derives g tokens (.term t) start stop nodes) (hsize : stop ≤ tokens.size) :
    Ready tokens call stop (termsLeading known ts) := by
  rcases Nat.eq_or_lt_of_le hnodes.start_le_stop with rfl | hlt
  · have ht : t.nullable known = true := by
      by_contra hne
      exact Nat.lt_irrefl _ (hnodes.lt_of_not_nullable hknown (Bool.eq_false_iff.mpr hne))
    exact h.subset (Grammar.termsLeading_subset_cons ht ts)
  · exact h.later hlt hsize _

end Ready

/-- A matcher that matches what `D` says, and asks for `names` first: where these
    are shallow, and behind it all productions, the matcher is. -/
structure Opens (tokens : Array Token) (call : String → Matcher Tree) (D : Nat → Nat → α → Prop)
    (names : List String) (m : Matcher α) : Prop where
  realizes : m.Realizes tokens D
  shallow : ∀ (c : Context) (start : Nat), c.tokens = tokens → start ≤ tokens.size →
    Ready tokens call start names → m.Shallow c start

/-- A matcher of a term asks for the productions that lead the term first. -/
abbrev OpensTerm (g : Grammar) (known : List String) (tokens : Array Token)
    (call : String → Matcher Tree) (t : Term) (m : Matcher (List Tree)) : Prop :=
  m.Opens tokens call (Derives g tokens (.term t)) (t.leading known)

/-- The same for a sequence. -/
abbrev OpensSequence (g : Grammar) (known : List String) (tokens : Array Token)
    (call : String → Matcher Tree) (s : Sequence) (m : Matcher (Bool × List Tree)) : Prop :=
  m.Opens tokens call (fun i j x => Derives g tokens (.terms s.terms) i j x.2) (s.leading known)

/-- A leaf opens no production. It neither refers to a production nor goes deeper. -/
theorem shallow_leaf (l : Leaf) : (leaf l).Shallow c start := by
  rintro s -
  by_cases haccepts : ∃ t, c.tokens[s.position]? = some t ∧ l.accepts t = true
  · obtain ⟨t, htoken, hacc⟩ := haccepts
    rw [(run_leaf_accepts htoken hacc).1]
    nofun
  · push Not at haccepts
    rw [(run_leaf_misses fun t htoken => Bool.eq_false_iff.mpr (haccepts t htoken)).1]
    nofun

theorem shallow_breakpoint : breakpoint.Shallow c start := by
  rintro s -
  rw [(run_breakpoint c s).1]
  nofun

/-- The steps of a sequence are shallow, by induction on the terms: each of them is
    ready behind the ones in front of it. -/
theorem shallow_steps (hknown : g.NullableWithin known) {ts : List Term}
    {ms : List (Matcher (List Tree))} (hms : List.Forall₂ (OpensTerm g known tokens call) ts ms)
    (threshold earned : Nat) (committed : Bool) (hc : c.tokens = tokens)
    (hstart : start ≤ tokens.size) (hready : Ready tokens call start (termsLeading known ts)) :
    (steps threshold ms earned committed).Shallow c start := by
  induction hms generalizing earned committed start with
  | nil => exact .commitAt fun _ => .pure _
  | @cons t m ts ms hterm _ ih =>
    have hfirst := hterm.shallow c start hc hstart
      (hready.subset (Grammar.leading_subset_termsLeading t ts))
    refine .checkPatience (.commitAt fun committed => .position (.bind hfirst.attempt ?_))
    refine .attempt ((hterm.realizes c start hc hstart).imp (fun nodes stop hnodes => ?_)
      fun _ _ => .pure _)
    have hstop := hnodes.stop_le_size hstart
    exact .position (.seq (ih _ committed hstop (hready.next hknown hnodes hstop))
      fun _ _ => .pure _)

/-- A sequence is shallow where its steps are. Blame and going back open nothing. -/
theorem shallow_sequence (hknown : g.NullableWithin known) {ts : List Term}
    {ms : List (Matcher (List Tree))} (hms : List.Forall₂ (OpensTerm g known tokens call) ts ms)
    (commit : Nat) (hc : c.tokens = tokens) (hstart : start ≤ tokens.size)
    (hready : Ready tokens call start (termsLeading known ts)) :
    (sequence commit ms).Shallow c start := by
  have hsteps := shallow_steps hknown hms commit 0 false hc hstart hready
  refine .position (.seq hsteps.listen fun x stop => ?_)
  match x with
  | (.finished committed nodes, misses) => exact .pure _
  | (.stuck true, misses) => exact .blame misses
  | (.stuck false, misses) => exact .giveUp

theorem shallow_optional {m : Matcher (Bool × List Tree)} (hm : m.Shallow c start) :
    (optional m).Shallow c start := by
  refine .position (.seq hm.attempt fun found stop => ?_)
  match found with
  | some (_, nodes) => exact .wrap
  | none => exact .pure _

/-- The candidates of an alternation ask for their productions at one place. That is
    where the alternation starts, to which it goes back for each of them. -/
theorem shallow_candidates {cs : List Sequence} {ms : List (Matcher (Bool × List Tree))}
    (hms : List.Forall₂ (OpensSequence g known tokens call) cs ms) (hc : c.tokens = tokens)
    (hstart : start ≤ tokens.size)
    (hready : Ready tokens call start (Grammar.candidatesLeading known cs)) :
    ∀ m ∈ ms, m.Shallow c start := by
  induction hms with
  | nil => nofun
  | cons hm _ ih =>
    rw [Grammar.candidatesLeading] at hready
    exact List.forall_mem_cons.mpr
      ⟨hm.shallow c start hc hstart (hready.subset (List.subset_append_left _ _)),
        ih (hready.subset (List.subset_append_right _ _))⟩

/-- Every candidate is tried from the same place. Nor does it open anything to take
    the best one in the end. -/
theorem shallow_choose {ms : List (Matcher (Bool × List Tree))}
    (hms : ∀ m ∈ ms, m.Shallow c start) (branch : Nat) (best : Option Provisional) (here : Nat) :
    (choose start ms branch best).Shallow c here := by
  induction ms generalizing branch best here with
  | nil =>
    cases best with
    | none => exact .fail
    | some best => exact .seek .wrap
  | cons m ms ih =>
    obtain ⟨hm, hrest⟩ := List.forall_mem_cons.mp hms
    refine .seek (.context (.report (.seq hm.attempt fun found stop => ?_)))
    match found with
    | none => exact ih hrest _ _ _
    | some (true, nodes) => exact .wrap
    | some (false, nodes) => exact .position (ih hrest _ _ _)

section Repetition

variable {item : Sequence} {separator : Option Sequence} {m : Matcher (Bool × List Tree)}
  {ms : Option (Matcher (Bool × List Tree))}

/-- What is known of a separator includes that it matches derivations. -/
theorem realizes_separator
    (hseparator : Option.Rel (OpensSequence g known tokens call) separator ms) :
    Option.Rel (RealizesSequence g tokens) separator ms := by
  cases hseparator with
  | none => exact .none
  | some hseparator => exact .some hseparator.realizes

/-- A turn is ready for its item behind the separator, which may have matched
    nothing. -/
theorem shallow_turn (hitem : OpensSequence g known tokens call item m)
    (hseparator : Option.Rel (OpensSequence g known tokens call) separator ms)
    (hc : c.tokens = tokens) (hstart : start ≤ tokens.size)
    (hready : Ready tokens call start (item.leading known))
    (hfirst : ∀ s ∈ separator, Ready tokens call start (s.leading known)) :
    (turn m ms).Shallow c start := by
  cases hseparator with
  | none =>
    refine .position (.seq (hitem.shallow c start hc hstart hready).attempt fun found stop => ?_)
    match found with
    | none => exact .pure _
    | some (_, nodes) => exact .seq .wrap fun _ _ => .pure _
  | some hseparator =>
    have hopen := hseparator.shallow c start hc hstart (hfirst _ rfl)
    refine .position (.bind hopen.attempt (.attempt ?_))
    refine (hseparator.realizes c start hc hstart).imp (fun x stop hx => ?_) fun _ _ => .pure _
    have hstop := hx.stop_le_size hstart
    have hitemOpen := hitem.shallow c stop hc hstop (hready.onwards hx.start_le_stop hstop)
    refine .bind .wrap (.wrap (.position (.seq hitemOpen.attempt fun found _ => ?_)))
    match found with
    | none => exact .pure _
    | some (_, nodes) => exact .seq .wrap fun _ _ => .pure _

/-- The test and the charge in front of a turn open nothing. Nor does the blame for
    an item that is missing. -/
theorem shallow_iteration (hitem : OpensSequence g known tokens call item m)
    (hseparator : Option.Rel (OpensSequence g known tokens call) separator ms)
    (hc : c.tokens = tokens) (hstart : start ≤ tokens.size)
    (hready : Ready tokens call start (item.leading known))
    (hfirst : ∀ s ∈ separator, Ready tokens call start (s.leading known)) :
    (iteration m ms).Shallow c start := by
  have hturn := shallow_turn hitem hseparator hc hstart hready hfirst
  refine .checkPatience (.charge (.seq hturn.listen fun x stop => ?_))
  match x with
  | (.over, misses) => exact .pure _
  | (.itemMissing, misses) => exact .blame misses
  | (.next nodes, misses) => exact .pure _

/-- A turn that goes on stops at a token or at the end of the input. It derives an
    item, which ends inside the input. -/
theorem iteration_stops (hitem : OpensSequence g known tokens call item m)
    (hseparator : Option.Rel (OpensSequence g known tokens call) separator ms)
    (hc : c.tokens = tokens) (hstart : start ≤ tokens.size) :
    (iteration m ms).Ensures c start
      (fun found stop => ∀ nodes, found = some nodes → stop ≤ tokens.size) fun _ => False := by
  refine (iteration_ensures hitem.realizes (realizes_separator hseparator) hc hstart).imp
    (fun found stop hfound nodes hnodes => ?_) fun _ => id
  subst hnodes
  exact hfound.stop_le_size hstart

/-- The turns behind the first one start past a token, where all productions are
    shallow. The induction is on the tokens that are left. -/
theorem shallow_iterate (hitem : OpensSequence g known tokens call item m)
    (hseparator : Option.Rel (OpensSequence g known tokens call) separator ms) (first : Bool)
    (hc : c.tokens = tokens) (hstart : start ≤ tokens.size)
    (hready : Ready tokens call start (item.leading known))
    (hlater : first = false → ∀ names, Ready tokens call start names) :
    Shallow c start (iterate m ms first) := by
  subst hc
  rintro s rfl
  -- Each turn that goes on comes closer to the end of the tokens, and behind it all is shallow.
  induction hleft : c.tokens.size - s.position using Nat.strongRecOn generalizing s first with
  | _ left ih =>
    have hturn : (iteration m (if first then none else ms)).Shallow c s.position := by
      cases first with
      | true => exact shallow_iteration hitem .none rfl hstart hready nofun
      | false =>
        exact shallow_iteration hitem hseparator rfl hstart hready fun s _ => hlater rfl _
    have hstops : (iteration m (if first then none else ms)).Ensures c s.position
        (fun found stop => ∀ nodes, found = some nodes → stop ≤ c.tokens.size)
        (fun _ => False) := by
      cases first with
      | true => exact iteration_stops hitem .none rfl hstart
      | false => exact iteration_stops hitem hseparator rfl hstart
    generalize hr : iteration m (if first then none else ms) c s = r
    cases houtcome : r.outcome with
    | failed => exact (hstops.failed rfl (hr ▸ houtcome)).elim
    | aborted e =>
      rw [run_iterate_aborted hr houtcome]
      exact Outcome.aborted_ne houtcome (hr ▸ hturn s rfl)
    | matched found =>
      by_cases hgoes : GoesOn c s.position r
      · obtain ⟨nodes, hnodes, hprogress⟩ := hgoes
        have hsize := hstops.matched rfl (hr ▸ hnodes) nodes rfl
        rw [hr] at hsize
        have hbehind := hready.later (by omega) hsize
        have hmore := ih _ (hleft ▸ hprogress) false r.state hsize (hbehind _)
          (fun _ => hbehind) rfl
        rw [run_iterate_next hr hnodes hprogress]
        cases hrest : (iterate m ms false c r.state).outcome with
        | matched | failed => nofun
        | aborted e => exact Outcome.aborted_ne hrest hmore
      · rw [run_iterate_ended hr hgoes, houtcome]
        nofun

/-- A repetition is shallow where its first turn is. Too few turns make it go back
    and fail. -/
theorem shallow_repetition (least : Nat) (hitem : OpensSequence g known tokens call item m)
    (hseparator : Option.Rel (OpensSequence g known tokens call) separator ms)
    (hc : c.tokens = tokens) (hstart : start ≤ tokens.size)
    (hready : Ready tokens call start (item.leading known)) :
    (repetition m ms least).Shallow c start := by
  refine .position (.seq (shallow_iterate hitem hseparator true hc hstart hready nofun)
    fun x stop => ?_)
  obtain ⟨count, nodes⟩ := x
  dsimp only
  split
  · exact .giveUp
  · exact .wrap

end Repetition

/-- A production is as shallow as its body. The level that it takes is counted where
    it is looked up in the table. -/
theorem shallow_production {p : Grammar.Production} {body : Matcher (Bool × List Tree)}
    (hbody : ∀ c : Context, c.tokens = tokens → body.Shallow c start) (hc : c.tokens = tokens) :
    (production p body).Shallow c start := by
  rintro s rfl hdeep
  cases h : (runBody p body c s).outcome with
  | matched x =>
    rw [(run_production_matched h).1] at hdeep
    cases hdeep
  | failed =>
    rw [(run_production_failed h).1] at hdeep
    cases hdeep
  | aborted e =>
    rw [(run_production_aborted h).1] at hdeep
    cases hdeep
    exact hbody { c with stack := p.name :: c.stack } hc
      ⟨s.position, s.fuel, s.patience.map (· - 1)⟩ rfl h

/-- Terms and sequences are shallow where the productions are that they ask for.
    What a term asks for first is computed from the term, so the fold gives one case
    for each kind of it. -/
theorem opens_fold (hknown : g.NullableWithin known)
    (hcall : ∀ name, (call name).Realizes tokens (DerivesTree g tokens name)) :
    Grammar.Fold call (OpensTerm g known tokens call) (OpensSequence g known tokens call) where
  leaf l := ⟨(realizes_fold hcall).leaf l, fun _ _ _ _ _ => .charge (shallow_leaf l)⟩
  production name := by
    refine ⟨(realizes_fold hcall).production name, fun c start hc hstart hready => ?_⟩
    have hopen := hready.here name (List.mem_singleton_self name) c hc
    exact .charge (.seq hopen fun _ _ => .pure _)
  optional hbody := ⟨(realizes_fold hcall).optional hbody.realizes,
    fun c start hc hstart hready =>
      .charge (shallow_optional (hbody.shallow c start hc hstart hready))⟩
  alternation hcandidates :=
    ⟨(realizes_fold hcall).alternation (hcandidates.imp fun _ _ h => h.realizes),
      fun c start hc hstart hready => .charge (.position (shallow_choose
        (shallow_candidates hcandidates hc hstart hready) 0 none start))⟩
  repetition least hitem hseparator := by
    have hrealizes := realizes_separator hseparator
    refine ⟨(realizes_fold hcall).repetition least hitem.realizes hrealizes,
      fun c start hc hstart hready => ?_⟩
    -- A repetition ends where an item covers no token, so its first separator is behind `start`.
    have hfirst := hready.subset (Grammar.leading_subset_repetition _ _ least)
    exact .charge (shallow_repetition least hitem hseparator hc hstart hfirst)
  breakpoint := ⟨(realizes_fold hcall).breakpoint, fun _ _ _ _ _ => .charge shallow_breakpoint⟩
  sequence commit hterms :=
    ⟨(realizes_fold hcall).sequence commit (hterms.imp fun _ _ h => h.realizes),
      fun _ _ hc hstart hready => shallow_sequence hknown hterms commit hc hstart hready⟩

/-- With the levels of its chain, and those of any chain for each token behind, a
    production is not too deep. The productions that are open at one token lead to
    one another, so there are at most as many of them as the longest chain has. -/
theorem shallow_matcher (hknown : g.NullableWithin known) {levels : Nat}
    (hlevels : g.LeadsWithin known levels) {depth here : Nat} {name : String}
    (hname : g.leadsWithin known here name = true) (hc : c.tokens = tokens)
    (hstart : start ≤ tokens.size) (hdepth : here + levels * (tokens.size - start) ≤ depth) :
    (g.matcher depth name).Shallow c start := by
  induction depth generalizing name here c start with
  | zero =>
    rw [Grammar.matcher]
    cases hfind : g.find? name with
    | none => exact .abort (by simp)
    | some p =>
      obtain ⟨fewer, rfl, -⟩ := Grammar.exists_leadsWithin_next hname hfind
      omega
  | succ depth ih =>
    rw [Grammar.matcher]
    cases hfind : g.find? name with
    | none => exact .abort (by simp)
    | some p =>
      obtain ⟨fewer, rfl, hfewer⟩ := Grammar.exists_leadsWithin_next hname hfind
      have hbody := (opens_fold hknown (realizes_matcher g tokens depth)).ofSequence p.body
      refine shallow_production (fun c hc => hbody.shallow c start hc hstart ⟨?_, ?_⟩) hc
      · exact fun next hnext c hc => ih (hfewer next hnext) hc hstart (by omega)
      · intro stop hlt hstop next c hc
        refine ih (hlevels.leadsWithin next) hc hstop ?_
        have hmore : levels * (tokens.size - stop + 1) ≤ levels * (tokens.size - start) :=
          Nat.mul_le_mul_left levels (by omega)
        rw [Nat.mul_add_one] at hmore
        omega

end Matcher

namespace Parser

variable {p : Parser} {known : List String} {levels : Nat}

/-- A parser with levels enough for each token and for the end of the input never
    gets too deep. -/
theorem run_ne_tooDeep (hknown : p.grammar.NullableWithin known)
    (hlevels : p.grammar.LeadsWithin known levels) (purpose : Purpose) {tokens : Array Token}
    (hdepth : levels * (tokens.size + 1) ≤ p.limits.depth) :
    (p.run purpose tokens).outcome ≠ .aborted .tooDeep := by
  refine Matcher.shallow_matcher hknown hlevels (hlevels.leadsWithin p.root) rfl (Nat.zero_le _) ?_
    ⟨0, p.limits.fuel, p.patience⟩ rfl
  rw [Nat.sub_zero, Nat.add_comm, ← Nat.mul_add_one]
  exact hdepth

end Parser

namespace Sqlite

/-- The most productions of a chain that lead to one another: an indexed column
    leads to an expression, and that over the operators to a literal. -/
def levels : Nat := 14

/-- The longest chain of productions that lead to one another in the SQLite table,
    computed. -/
theorem grammar_leadsWithin : grammar.LeadsWithin empties levels := by decide +kernel

/-- No production leads back to itself, and with `levels` of nesting for each token
    and for the end of the input no production is too deep, whatever the root, the
    fuel and the patience are. -/
theorem ne_tooDeep :
    (∀ name, ¬Relation.TransGen grammar.LeadsTo name name) ∧
    ∀ (p : Parser) (tokens : List Token) (caret : Nat), p.grammar = grammar →
      levels * (tokens.length + 1) ≤ p.limits.depth →
        p.parse tokens ≠ .error .tooDeep ∧ p.parsePrefix tokens ≠ .error .tooDeep ∧
          p.complete tokens caret ≠ .error .tooDeep := by
  refine ⟨grammar_leadsWithin.not_transGen grammar_nullableWithin, ?_⟩
  intro p tokens caret hgrammar hdepth
  have hknown : p.grammar.NullableWithin empties := hgrammar ▸ grammar_nullableWithin
  have hlevels : p.grammar.LeadsWithin empties levels := hgrammar ▸ grammar_leadsWithin
  have hread : (p.run .reading tokens.toArray).outcome ≠ .aborted .tooDeep := by
    refine p.run_ne_tooDeep hknown hlevels .reading ?_
    rw [List.size_toArray]
    exact hdepth
  refine ⟨fun h => hread ((p.parse_stop_iff tokens rfl).mp h),
    fun h => hread ((p.parsePrefix_stop_iff tokens rfl).mp h), fun h => ?_⟩
  refine p.run_ne_tooDeep hknown hlevels .completing ?_
    ((p.complete_stop_iff tokens rfl caret).mp h)
  rw [List.size_toArray]
  refine Nat.le_trans (Nat.mul_le_mul_left levels ?_) hdepth
  have hle := List.length_take_le (min caret tokens.length) tokens
  have hmin := Nat.min_le_right caret tokens.length
  omega

/-- Three nested parentheses need more than 50 levels of nesting and no more than
    126. -/
theorem ne_tooDeep_parentheses :
    let tokens := Lexer.lex "SELECT (((1)))"
    let parser (depth : Nat) : Parser := { Parser.ofGrammar grammar with limits := { depth } }
    tokens.length = 8 ∧ (parser 50).parse tokens = .error .tooDeep ∧
      (parser 126).parse tokens ≠ .error .tooDeep := by
  intro tokens parser
  have hlength : tokens.length = 8 := by decide +kernel
  have hdeep : ((parser 50).run .reading tokens.toArray).outcome.map Tree.span =
      .aborted .tooDeep := by
    decide +kernel
  refine ⟨hlength, ((parser 50).parse_stop_iff tokens rfl).mpr ?_,
    (ne_tooDeep.2 (parser 126) tokens 0 rfl ?_).1⟩
  · cases houtcome : ((parser 50).run .reading tokens.toArray).outcome with
    | matched tree | failed =>
      rw [houtcome] at hdeep
      cases hdeep
    | aborted e =>
      rw [houtcome] at hdeep
      cases hdeep
      rfl
  · rw [hlength]
    decide

end Sqlite

end SqlStatement

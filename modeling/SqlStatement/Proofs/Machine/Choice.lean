import SqlStatement.Proofs.Grammar.Derivation
import SqlStatement.Proofs.Machine.Independence
import SqlStatement.Proofs.Match.Fuel

namespace SqlStatement

open Matcher (Provisional)

/-- What the run of a candidate comes to on its own. -/
structure Trial where
  /-- How the run ends, and whether it has committed. -/
  outcome : Outcome Bool
  /-- Where it leaves the cursor. -/
  stop : Nat
  nodes : List Tree
  /-- The fuel that it spends. -/
  cost : Nat
  misses : List Miss
  events : List Event
  breakpoints : List Breakpoint

namespace Trial

/-- A candidate that commits or aborts decides an alternation. -/
def Decisive (t : Trial) : Prop := t.outcome = .matched true ∨ ∃ e, t.outcome = .aborted e

/-- The best of some candidates that decide nothing: the longest match, the first
    one of several. There is none where all candidates fail. -/
def Leads (trials : List Trial) : Option Provisional → Prop
  | none => ∀ t ∈ trials, t.outcome = .failed
  | some best => (∀ t ∈ trials, ¬ t.Decisive) ∧
      (∃ t, trials[best.branch]? = some t ∧ t.outcome = .matched false ∧ t.stop = best.stop ∧
        t.nodes = best.nodes) ∧
      ∀ i t, trials[i]? = some t → t.outcome = .matched false →
        t.stop < best.stop ∨ t.stop = best.stop ∧ best.branch ≤ i

/-- What an alternation comes to by the runs of its candidates: how many of them are
    tried, how it ends, where it leaves the cursor and which nodes it has. The first
    candidate that commits or aborts decides it; where none does, the longest of
    those that match is taken, the first one of several. -/
inductive Chosen (start : Nat) (trials : List Trial) : (tried : Nat) → Outcome Unit → (stop : Nat) →
    (nodes : List Tree) → Prop
  | committed {j : Nat} {t : Trial} (hj : trials[j]? = some t)
      (hfirst : ∀ u ∈ trials.take j, ¬ u.Decisive) (ht : t.outcome = .matched true) :
      Chosen start trials (j + 1) (.matched ()) t.stop
        (Tree.covering (.alternation j) start t.stop t.nodes)
  | aborted {j : Nat} {t : Trial} {e : ParseError} (hj : trials[j]? = some t)
      (hfirst : ∀ u ∈ trials.take j, ¬ u.Decisive) (ht : t.outcome = .aborted e) :
      Chosen start trials (j + 1) (.aborted e) t.stop []
  | longest {best : Provisional} (hbest : Leads trials (some best)) :
      Chosen start trials trials.length (.matched ()) best.stop
        (Tree.covering (.alternation best.branch) start best.stop best.nodes)
  | none (hnone : Leads trials none) : Chosen start trials trials.length .failed start []

/-- An alternation has nodes only where it matches. What a candidate has collected
    before it failed or aborted is dropped. -/
theorem Chosen.nodes_eq_nil {start tried stop : Nat} {trials : List Trial} {o : Outcome Unit}
    {nodes : List Tree} (h : Chosen start trials tried o stop nodes) (ho : o ≠ .matched ()) :
    nodes = [] := by
  cases h with
  | committed | longest => exact absurd rfl ho
  | aborted | none => rfl

/-- An alternation that stays where it starts has no nodes. Its node would cover no
    token, and such a node is left out. -/
theorem Chosen.nodes_eq_nil_of_still {start tried : Nat} {trials : List Trial} {o : Outcome Unit}
    {nodes : List Tree} (h : Chosen start trials tried o start nodes) : nodes = [] := by
  generalize hstop : start = stop at h
  cases h with
  | committed | longest =>
    subst hstop
    exact (Tree.covering_eq_nil (Nat.le_refl _)).mpr rfl
  | aborted | none => rfl

/-- What the candidates from number `branch` on report, each announced in the name
    of `owner`. -/
def told (owner : String) (start : Nat) : (branch : Nat) → List Trial → List Event
  | _, [] => []
  | branch, t :: ts =>
    .candidate owner branch start :: (t.events ++ told owner start (branch + 1) ts)

/-- The fuel that some candidates spend. -/
def spent : List Trial → Nat
  | [] => 0
  | t :: ts => t.cost + spent ts

variable {trials : List Trial} {best : Option Provisional} {t : Trial}

/-- A candidate that fails leaves the choice open. -/
theorem not_decisive_of_failed (ht : t.outcome = .failed) : ¬ t.Decisive := by
  simp [Decisive, ht]

theorem not_decisive_of_provisional (ht : t.outcome = .matched false) : ¬ t.Decisive := by
  simp [Decisive, ht]

theorem Leads.not_decisive (h : Leads trials best) : ∀ u ∈ trials, ¬ u.Decisive := by
  cases best with
  | none => exact fun u hu => not_decisive_of_failed (h u hu)
  | some best => exact h.1

theorem getElem?_concat {i : Nat} {u : Trial} (hu : (trials ++ [t])[i]? = some u) :
    trials[i]? = some u ∨ i = trials.length ∧ u = t := by
  grind

/-- A candidate that fails changes nothing. It counts as tried, but the lead stays
    with the one that had it. -/
theorem Leads.skip (h : Leads trials best) (ht : t.outcome = .failed) :
    Leads (trials ++ [t]) best := by
  cases best with
  | none =>
    intro u hu
    rcases List.mem_append.mp hu with hu | hu
    · exact h u hu
    · rw [List.mem_singleton.mp hu, ht]
  | some best =>
    obtain ⟨hplain, ⟨b, hb, hvalue⟩, hmost⟩ := h
    refine ⟨?_, ⟨b, ?_, hvalue⟩, ?_⟩
    · exact List.forall_mem_append.mpr ⟨hplain, by simpa using not_decisive_of_failed ht⟩
    · rw [List.getElem?_append_left (List.getElem?_eq_some_iff.mp hb).1, hb]
    · intro i u hu hmatched
      rcases getElem?_concat hu with hu | ⟨-, rfl⟩
      · exact hmost i u hu hmatched
      · rw [ht] at hmatched
        cases hmatched

/-- A candidate that matches takes the lead if it is longer than all before it. If
    it is as long as another one, the earlier of the two keeps the lead. -/
theorem Leads.better (h : Leads trials best) (ht : t.outcome = .matched false) :
    Leads (trials ++ [t]) (some (Provisional.better best ⟨t.stop, trials.length, t.nodes⟩)) := by
  have hplain : ∀ u ∈ trials ++ [t], ¬ u.Decisive :=
    List.forall_mem_append.mpr ⟨h.not_decisive, by simpa using not_decisive_of_provisional ht⟩
  have hnew : (trials ++ [t])[trials.length]? = some t := by simp
  cases best with
  | none =>
    refine ⟨hplain, ⟨t, hnew, ht, rfl, rfl⟩, ?_⟩
    intro i u hu hmatched
    rcases getElem?_concat hu with hu | ⟨rfl, rfl⟩
    · rw [h u (List.mem_of_getElem? hu)] at hmatched
      cases hmatched
    · exact .inr ⟨rfl, Nat.le_refl _⟩
  | some best =>
    obtain ⟨-, ⟨b, hb, hvalue⟩, hmost⟩ := h
    have hrange := (List.getElem?_eq_some_iff.mp hb).1
    by_cases hlonger : best.stop < t.stop
    · simp only [Provisional.better, hlonger, if_true]
      refine ⟨hplain, ⟨t, hnew, ht, rfl, rfl⟩, ?_⟩
      intro i u hu hmatched
      rcases getElem?_concat hu with hu | ⟨rfl, rfl⟩
      · have hu := hmost i u hu hmatched
        dsimp only
        omega
      · exact .inr ⟨rfl, Nat.le_refl _⟩
    · simp only [Provisional.better, hlonger, if_false]
      refine ⟨hplain, ⟨b, ?_, hvalue⟩, ?_⟩
      · rw [List.getElem?_append_left hrange, hb]
      · intro i u hu hmatched
        rcases getElem?_concat hu with hu | ⟨rfl, rfl⟩
        · exact hmost i u hu hmatched
        · omega

end Trial

/-- What a course of a candidate comes to. -/
def Course.trial (course : Course (Bool × List Tree)) : Trial where
  outcome := course.outcome.map Prod.fst
  stop := course.position
  nodes :=
    match course.outcome with
    | .matched (_, nodes) => nodes
    | _ => []
  cost := course.cost
  misses := course.record.misses.toList
  events := course.record.events.toList
  breakpoints := course.record.breakpoints.toList

namespace Matcher

open Trial (Chosen Leads spent told)

variable {c : Context} {start : Nat}

/-- How an alternation goes on when a candidate has ended. -/
def onward (start : Nat) (rest : List (Matcher (Bool × List Tree))) (branch : Nat)
    (best : Option Provisional) : Outcome (Bool × List Tree) → Matcher (List Tree)
  | .matched (true, nodes) => wrap (.alternation branch) start nodes
  | .matched (false, nodes) => do
    let stop ← position
    choose start rest (branch + 1) (some (Provisional.better best ⟨stop, branch, nodes⟩))
  | .failed => choose start rest (branch + 1) best
  | .aborted e => abort e

/-- The run of an alternation is that of its next candidate and of what follows. The
    places, the misses and the events of the two follow one another, with one event
    for the candidate itself. -/
theorem run_choose_cons (c : Context) (start : Nat) (m : Matcher (Bool × List Tree))
    (rest : List (Matcher (Bool × List Tree))) (branch : Nat) (best : Option Provisional)
    (place fuel : Nat) :
    let tried := m c ⟨start, fuel, none⟩
    let more := onward start rest branch best tried.outcome c tried.state
    let r := choose start (m :: rest) branch best c ⟨place, fuel, none⟩
    r.outcome = more.outcome ∧ r.state = more.state ∧
      r.record.misses.toList = tried.record.misses.toList ++ more.record.misses.toList ∧
      r.record.events.toList = .candidate (c.stack.head?.getD "") branch start ::
        (tried.record.events.toList ++ more.record.events.toList) ∧
      r.record.breakpoints.toList =
        tried.record.breakpoints.toList ++ more.record.breakpoints.toList := by
  cases houtcome : (m c ⟨start, fuel, none⟩).outcome with
  | matched found =>
    obtain ⟨committed, nodes⟩ := found
    cases committed with
    | true | false =>
      simp [choose, Bind.bind, Matcher.bind, seek, context, report, Event.isStep, attempt, houtcome,
        onward]
  | failed | aborted e =>
    simp [choose, Bind.bind, Matcher.bind, seek, context, report, Event.isStep, attempt, houtcome,
      onward, abort]

/-- What an alternation comes to when some of its candidates are tried. -/
structure Sums (c : Context) (start branch fuel : Nat) (tried : List Trial) (o : Outcome Unit)
    (stop : Nat) (nodes : List Tree) (r : Result (List Tree)) : Prop where
  outcome : r.outcome = o.map fun _ => nodes
  state : r.state = ⟨stop, fuel - spent tried, none⟩
  misses : r.record.misses.toList = tried.flatMap (·.misses)
  events : r.record.events.toList = told (c.stack.head?.getD "") start branch tried
  breakpoints : r.record.breakpoints.toList = tried.flatMap (·.breakpoints)

namespace Sums

variable {branch fuel place stop : Nat} {o : Outcome Unit} {nodes : List Tree}

/-- Nothing more is tried. -/
theorem nil {r : Result (List Tree)} (houtcome : r.outcome = o.map fun _ => nodes)
    (hstate : r.state = ⟨stop, fuel, none⟩) (hmisses : r.record.misses.toList = [])
    (hevents : r.record.events.toList = []) (hbreakpoints : r.record.breakpoints.toList = []) :
    Sums c start branch fuel [] o stop nodes r :=
  ⟨houtcome, hstate, hmisses, hevents, hbreakpoints⟩

/-- One more candidate is tried in front of the others. What it costs comes off the
    fuel before the others start, and its trial stands in front of theirs. -/
theorem cons {m : Matcher (Bool × List Tree)} {rest : List (Matcher (Bool × List Tree))}
    {best : Option Provisional} {course : Course (Bool × List Tree)} {tried : List Trial}
    (hm : m.Takes c start course) (hfuel : course.cost ≤ fuel)
    (h : Sums c start (branch + 1) (fuel - course.cost) tried o stop nodes
      (onward start rest branch best course.outcome c
        ⟨course.position, fuel - course.cost, none⟩)) :
    Sums c start branch fuel (course.trial :: tried) o stop nodes
      (choose start (m :: rest) branch best c ⟨place, fuel, none⟩) := by
  have hrun : m c ⟨start, fuel, none⟩ = course.result (fuel - course.cost) := by
    rw [← hm.enough, Nat.add_sub_cancel' hfuel]
  obtain ⟨houtcome, hstate, hmisses, hevents, hbreakpoints⟩ :=
    run_choose_cons c start m rest branch best place fuel
  rw [hrun] at houtcome hstate hmisses hevents hbreakpoints
  constructor
  · exact houtcome.trans h.outcome
  · refine (hstate.trans h.state).trans ?_
    rw [Trial.spent, Nat.sub_add_eq]
    rfl
  · exact hmisses.trans (congrArg _ h.misses)
  · exact hevents.trans (congrArg _ (congrArg _ h.events))
  · exact hbreakpoints.trans (congrArg _ h.breakpoints)

end Sums

/-- An alternation that has enough fuel for all of its candidates takes the one that
    the rule says. The induction is on the candidates that are left, with the trials
    of the earlier ones kept. -/
theorem choose_chosen {ms : List (Matcher (Bool × List Tree))}
    {courses : List (Course (Bool × List Tree))}
    (hms : List.Forall₂ (fun m course => m.Takes c start course) ms courses)
    (hback : ∀ course ∈ courses, course.outcome = .failed → course.position = start)
    {earlier : List Trial} {best : Option Provisional} (hleads : Leads earlier best)
    (place : Nat) {fuel : Nat} (hplace : best = none → place = start)
    (hfuel : spent (courses.map Course.trial) ≤ fuel) :
    ∃ n o stop nodes,
      Chosen start (earlier ++ courses.map Course.trial) (earlier.length + n) o stop nodes ∧
      Sums c start earlier.length fuel ((courses.map Course.trial).take n) o stop nodes
        (choose start ms earlier.length best c ⟨place, fuel, none⟩) := by
  induction hms generalizing earlier best place fuel with
  | nil =>
    refine ⟨0, ?_⟩
    cases best with
    | none =>
      obtain rfl := hplace rfl
      refine ⟨.failed, place, [], ?_, .nil rfl rfl rfl rfl rfl⟩
      simpa using Chosen.none hleads
    | some best =>
      refine ⟨.matched (), best.stop, Tree.covering (.alternation best.branch) start best.stop
        best.nodes, ?_, .nil rfl rfl rfl rfl rfl⟩
      simpa using Chosen.longest hleads
  | @cons m course ms courses hm hms ih =>
    obtain ⟨hthis, hothers⟩ := List.forall_mem_cons.mp hback
    rw [List.map_cons, Trial.spent] at hfuel
    have hcost : course.cost ≤ fuel := Nat.le_trans (Nat.le_add_right ..) hfuel
    have hrest : spent (courses.map Course.trial) ≤ fuel - course.cost :=
      Nat.le_sub_of_add_le' hfuel
    have hj : (earlier ++ (course :: courses).map Course.trial)[earlier.length]? =
        some course.trial := by simp
    have hfirst : ∀ u ∈ (earlier ++ (course :: courses).map Course.trial).take earlier.length,
        ¬ u.Decisive := by simpa using hleads.not_decisive
    have hlength : (earlier ++ [course.trial]).length = earlier.length + 1 := by simp
    cases houtcome : course.outcome with
    | matched found =>
      obtain ⟨committed, nodes⟩ := found
      have ht : course.trial.outcome = .matched committed := by
        simp [Course.trial, houtcome, Outcome.map]
      have hnodes : course.trial.nodes = nodes := by simp [Course.trial, houtcome]
      cases committed with
      | true =>
        refine ⟨1, .matched (), course.position, _, .committed hj hfirst ht, ?_⟩
        apply Sums.cons hm hcost
        rw [houtcome, hnodes]
        exact .nil rfl rfl rfl rfl rfl
      | false =>
        obtain ⟨n, o, stop, nodes', hchosen, hsums⟩ :=
          ih hothers (hleads.better ht) course.position (fun h => by cases h) hrest
        rw [hlength] at hchosen hsums
        refine ⟨n + 1, o, stop, nodes', ?_, ?_⟩
        · simpa [Nat.add_assoc, Nat.add_comm 1] using hchosen
        · apply Sums.cons hm hcost
          rw [houtcome]
          rw [hnodes] at hsums
          exact ⟨hsums.outcome, hsums.state, hsums.misses, hsums.events, hsums.breakpoints⟩
    | failed =>
      have ht : course.trial.outcome = .failed := by simp [Course.trial, houtcome, Outcome.map]
      obtain ⟨n, o, stop, nodes', hchosen, hsums⟩ :=
        ih hothers (hleads.skip ht) course.position (fun _ => hthis houtcome) hrest
      rw [hlength] at hchosen hsums
      refine ⟨n + 1, o, stop, nodes', ?_, ?_⟩
      · simpa [Nat.add_assoc, Nat.add_comm 1] using hchosen
      · apply Sums.cons hm hcost
        rw [houtcome]
        exact hsums
    | aborted e =>
      have ht : course.trial.outcome = .aborted e := by simp [Course.trial, houtcome, Outcome.map]
      refine ⟨1, .aborted e, course.position, [], .aborted hj hfirst ht, ?_⟩
      apply Sums.cons hm hcost
      rw [houtcome]
      exact .nil rfl rfl rfl rfl rfl

/-- An alternation has the rest of the fuel for its candidates when it has paid for
    itself. -/
theorem Sums.alternation {ms : List (Matcher (Bool × List Tree))} {fuel stop : Nat}
    {tried : List Trial} {o : Outcome Unit} {nodes : List Tree}
    (h : Sums c start 0 fuel tried o stop nodes (choose start ms 0 none c ⟨start, fuel, none⟩)) :
    Sums c start 0 fuel tried o stop nodes
      ((charge >>= fun _ => alternation ms) c ⟨start, fuel + 1, none⟩) :=
  ⟨h.outcome, h.state, h.misses, h.events, h.breakpoints⟩

end Matcher

namespace Store

/-- The same cursor, open productions and allowances, with nothing written down
    yet. -/
def apart (σ : Store) : Store := { σ with log := [], events := [], breakpoints := [], out := [] }

/-- What a run that starts with nothing written down comes to. -/
def trial (σ : Store) (o : Outcome Bool) (τ : Store) : Trial where
  outcome := o
  stop := τ.position
  nodes := if o.isMatched then τ.out else []
  cost := σ.fuel - τ.fuel
  misses := τ.log
  events := τ.events
  breakpoints := τ.breakpoints

end Store

namespace Grammar

open Machine (FollowsSequence)
open Trial (Chosen spent told)

variable {k : Setting} {σ : Store}

/-- A trial of a sequence on its own, in place. -/
def Tries (g : Grammar) (k : Setting) (σ : Store) (s : Sequence) (t : Trial) : Prop :=
  ∃ o τ, s.machine (g.machine k.limit) k σ.apart = some (o, τ) ∧ t = σ.trial o τ

/-- Each sequence can be tried on its own. A trial that leaves fuel comes to what
    the course of the sequence comes to, and goes back where it fails. -/
theorem exists_tries (g : Grammar) (hσ : σ.position ≤ k.tokens.size) (hpatience : σ.patience = none)
    (s : Sequence) : ∃ t course, Tries g k σ s t ∧
      (s.matcher (g.matcher (k.limit - σ.depth))).Takes (σ.context k) σ.position course ∧
      (t.cost < σ.fuel → t = course.trial ∧
        (course.outcome = .failed → course.position = σ.position)) := by
  have hcall := g.follows_machine k (Nat.sub_le k.limit σ.depth)
  obtain ⟨o, τ, hrun, hτ, hends⟩ := (follows_fold hcall).ofSequence s σ.apart hσ rfl
  have hmetered := Discipline.metered.keeps_matcher (g := g) (fun _ _ => trivial)
    (k.limit - σ.depth)
  obtain ⟨course, hcourse, -⟩ := (Discipline.metered.fold hmetered).ofSequence s
    (fun _ _ => trivial) (σ.context k) σ.position
  refine ⟨_, course, ⟨o, τ, hrun, rfl⟩, hcourse, fun hleft => ?_⟩
  have hstate : σ.apart.state = ⟨σ.position, σ.fuel, none⟩ := by rw [← hpatience]; rfl
  have hcontext : σ.apart.context k = σ.context k := rfl
  rw [hstate, hcontext] at hτ hends
  have hcost : course.cost ≤ σ.fuel := by
    by_contra hshort
    obtain ⟨-, hspent⟩ := hcourse.short σ.fuel (Nat.lt_of_not_le hshort)
    have hzero : τ.fuel = 0 := by
      rw [hτ]
      exact hspent
    simp [Store.trial, hzero] at hleft
  have hresult : s.matcher (g.matcher (k.limit - σ.depth)) (σ.context k)
      ⟨σ.position, σ.fuel, none⟩ = course.result (σ.fuel - course.cost) := by
    rw [← hcourse.enough, Nat.add_sub_cancel' hcost]
  rw [hresult] at hτ hends
  have hstop : τ.position = course.position := by rw [hτ]; rfl
  have hspent : σ.fuel - τ.fuel = course.cost := by
    rw [hτ]
    exact Nat.sub_sub_self hcost
  have hmisses : τ.log = course.record.misses.toList := by rw [hτ]; rfl
  have hevents : τ.events = course.record.events.toList := by rw [hτ]; rfl
  have hbreakpoints : τ.breakpoints = course.record.breakpoints.toList := by rw [hτ]; rfl
  unfold Store.trial Course.trial
  rw [hstop, hspent, hmisses, hevents, hbreakpoints]
  simp only [Course.result] at hends
  cases houtcome : course.outcome with
  | matched found =>
    rw [houtcome] at hends
    cases o with
    | matched committed =>
      obtain ⟨hcommitted, -, hout⟩ := hends
      subst hcommitted
      refine ⟨?_, fun h => by cases h⟩
      rw [hout]
      rfl
    | failed | aborted => exact hends.elim
  | failed =>
    rw [houtcome] at hends
    cases o with
    | failed => exact ⟨rfl, fun _ => hstop.symm.trans hends.position_eq⟩
    | matched | aborted => exact hends.elim
  | aborted e =>
    rw [houtcome] at hends
    cases o with
    | aborted e' =>
      obtain rfl : e = e' := hends
      exact ⟨rfl, fun h => by cases h⟩
    | matched | failed => exact hends.elim

/-- The candidates of an alternation can all be tried. Where they leave fuel
    together, the trials are what happens in the run. -/
theorem exists_forall_tries (g : Grammar) (hσ : σ.position ≤ k.tokens.size)
    (hpatience : σ.patience = none) (cs : List Sequence) : ∃ trials courses,
      List.Forall₂ (Tries g k σ) cs trials ∧
      List.Forall₂ (fun m course => m.Takes (σ.context k) σ.position course)
        (candidateMatchers (g.matcher (k.limit - σ.depth)) cs) courses ∧
      (spent trials < σ.fuel → trials = courses.map Course.trial ∧
        ∀ course ∈ courses, course.outcome = .failed → course.position = σ.position) := by
  induction cs with
  | nil => exact ⟨[], [], .nil, .nil, fun _ => ⟨rfl, nofun⟩⟩
  | cons s cs ih =>
    obtain ⟨t, course, ht, hcourse, hsame⟩ := g.exists_tries hσ hpatience s
    obtain ⟨trials, courses, htrials, hcourses, hsames⟩ := ih
    refine ⟨t :: trials, course :: courses, .cons ht htrials, .cons hcourse hcourses, ?_⟩
    intro hleft
    rw [Trial.spent] at hleft
    obtain ⟨rfl, hback⟩ := hsame (Nat.lt_of_le_of_lt (Nat.le_add_right ..) hleft)
    obtain ⟨rfl, hbacks⟩ := hsames (Nat.lt_of_le_of_lt (Nat.le_add_left ..) hleft)
    exact ⟨rfl, List.forall_mem_cons.mpr ⟨hback, hbacks⟩⟩

/-- An alternation that has enough fuel for all of its candidates takes the one that
    the rule says by the trials of the candidates on their own. It appends what the
    candidates that it tries write down, and no more. Where it stays at its start it
    leaves no node. -/
theorem alternation_chosen (g : Grammar) (k : Setting) (σ : Store) (hσ : σ.position ≤ k.tokens.size)
    (hpatience : σ.patience = none) (cs : List Sequence) :
    ∃ trials, List.Forall₂ (Tries g k σ) cs trials ∧
      (spent trials < σ.fuel → ∃ tried o stop nodes, Chosen σ.position trials tried o stop nodes ∧
        (stop = σ.position → nodes = []) ∧
        (Term.alternation cs).machine (g.machine k.limit) k σ = some (o,
          { σ with
            position := stop
            fuel := σ.fuel - 1 - spent (trials.take tried)
            log := σ.log ++ (trials.take tried).flatMap (·.misses)
            events := σ.events ++
              told (σ.stack.head?.getD "") σ.position 0 (trials.take tried)
            breakpoints := σ.breakpoints ++ (trials.take tried).flatMap (·.breakpoints)
            out := σ.out ++ nodes })) := by
  obtain ⟨trials, courses, htrials, hcourses, hsame⟩ := g.exists_forall_tries hσ hpatience cs
  refine ⟨trials, htrials, fun hfuel => ?_⟩
  obtain ⟨rfl, hback⟩ := hsame hfuel
  have hleads : Trial.Leads [] none := nofun
  obtain ⟨tried, o, stop, nodes, hchosen, hsums⟩ := Matcher.choose_chosen hcourses hback hleads
    σ.position (fun _ => rfl) (Nat.le_sub_one_of_lt hfuel)
  rw [List.nil_append, List.length_nil, Nat.zero_add] at hchosen
  refine ⟨tried, o, stop, nodes, hchosen, ?_, ?_⟩
  · rintro rfl
    exact hchosen.nodes_eq_nil_of_still
  have hcall := g.follows_machine k (Nat.sub_le k.limit σ.depth)
  obtain ⟨o', τ, hrun, hτ, hends⟩ := (follows_fold hcall).term (.alternation cs) σ hσ rfl
  have hstate : σ.state = ⟨σ.position, σ.fuel - 1 + 1, none⟩ := by
    rw [Nat.sub_add_cancel (Nat.lt_of_le_of_lt (Nat.zero_le _) hfuel), ← hpatience]
    rfl
  rw [hstate] at hτ hends
  have hspec : Matcher.Sums (σ.context k) σ.position 0 (σ.fuel - 1) _ o stop nodes
      ((Term.alternation cs).matcher (g.matcher (k.limit - σ.depth)) (σ.context k)
        ⟨σ.position, σ.fuel - 1 + 1, none⟩) := hsums.alternation
  have hend : o' = o ∧ τ.out = σ.out ++ nodes := by
    have hends' := hspec.outcome ▸ hends
    cases o with
    | matched =>
      cases o' with
      | matched => exact ⟨rfl, hends'.2⟩
      | failed | aborted => exact hends'.elim
    | failed =>
      obtain rfl := hchosen.nodes_eq_nil nofun
      cases o' with
      | failed => exact ⟨rfl, hends'.out_eq.trans (List.append_nil _).symm⟩
      | matched | aborted => exact hends'.elim
    | aborted e =>
      obtain rfl := hchosen.nodes_eq_nil nofun
      cases o' with
      | aborted e' =>
        obtain rfl : e = e' := hends'
        have hspares := (Term.alternation cs).sparesOut (g.keepsOut_machine k.limit) k σ e τ hrun
        exact ⟨rfl, hspares.trans (List.append_nil _).symm⟩
      | matched | failed => exact hends'.elim
  obtain ⟨rfl, hout⟩ := hend
  rw [hrun, hτ, hout]
  simp only [Store.after, hspec.state, hspec.misses, hspec.events, hspec.breakpoints, hpatience]
  rfl

/-- An absent integer, and a name that is read in two ways. -/
def names : List Sequence :=
  [⟨[.optional ⟨[.leaf (.kind .integer)], 1⟩], 1⟩, ⟨[.leaf (.kind .identifier)], 2⟩,
    ⟨[.leaf (.identifier "name" false)], 2⟩]

/-- None of the candidates commits. The first way to read the name is as long as the
    second, and longer than the absent integer. -/
theorem alternation_chosen_names :
    let k : Setting := ⟨#[⟨.identifier, "a", ⟨0, 1⟩⟩], .reading, 160⟩
    let σ : Store := ⟨0, 100, none, [⟨0, .keyword "("⟩], [], [], ["expr-term"], 1, []⟩
    σ.position ≤ k.tokens.size ∧ σ.patience = none ∧
      ∃ trials, List.Forall₂ (Tries ⟨"", "", []⟩ k σ) names trials ∧ spent trials < σ.fuel ∧
        ∃ tried nodes, Chosen σ.position trials tried (.matched ()) 1 nodes ∧
          nodes.map Tree.branch? = [some 1] := by
  intro k σ
  obtain ⟨trials, htrials, hrule⟩ :=
    alternation_chosen ⟨"", "", []⟩ k σ (Nat.zero_le 1) rfl names
  have hcost {s : Sequence} {t : Trial} {n : Nat} (ht : Tries ⟨"", "", []⟩ k σ s t)
      (hn : (s.machine (machine ⟨"", "", []⟩ k.limit) k σ.apart).map (σ.fuel - ·.2.fuel) = some n) :
      t.cost = n := by
    obtain ⟨o, τ, hrun, rfl⟩ := ht
    rw [hrun] at hn
    exact Option.some.inj hn
  have hspent : spent trials = 4 := by
    match trials, htrials with
    | [_, _, _], .cons hfirst (.cons hsecond (.cons hthird .nil)) =>
      simp [spent, hcost hfirst (n := 2) rfl, hcost hsecond (n := 1) rfl, hcost hthird (n := 1) rfl]
  have hleft : spent trials < σ.fuel := by
    rw [hspent]
    decide
  refine ⟨Nat.zero_le 1, rfl, trials, htrials, hleft, ?_⟩
  obtain ⟨tried, o, stop, nodes, hchosen, -, hrun⟩ := hrule hleft
  have hends : ((Term.alternation names).machine (machine ⟨"", "", []⟩ k.limit) k σ).map
      (fun x => (x.1, x.2.position, x.2.out.map Tree.branch?)) =
        some (.matched (), 1, [some 1]) := by
    decide +kernel
  rw [hrun] at hends
  simp only [Option.map_some, Option.some.injEq, Prod.mk.injEq] at hends
  obtain ⟨rfl, rfl, hbranch⟩ := hends
  exact ⟨tried, nodes, hchosen, hbranch⟩

end Grammar

end SqlStatement

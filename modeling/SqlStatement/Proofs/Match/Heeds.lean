import SqlStatement.Proofs.Match.Discipline
import SqlStatement.Proofs.Match.Run

namespace SqlStatement

/-- The steps of a run, in order. They are the events at which a cancellation can
    come in. -/
def Record.steps (r : Record) : List Event := r.events.toList.filter Event.isStep

@[simp] theorem Record.steps_empty : Record.empty.steps = [] := rfl

@[simp] theorem Record.steps_append (a b : Record) : (a ++ b).steps = a.steps ++ b.steps := by
  simp [steps]

namespace Result

variable {α β : Type}

/-- How a run `r` that is cancelled behind `n` steps goes beside the run `u` from
    the same place that nobody cancels. Up to there the two do the same; then the
    first one goes through as the second does, or is cut short. -/
inductive CutOrSame (n : Nat) (u r : Result α) : Prop
  /-- Nothing has looked whether the run is cancelled after it was. -/
  | through (hsame : r =
      ⟨u.outcome, ⟨u.state.position, u.state.fuel, some (n - u.record.steps.length)⟩, u.record⟩)
  | cut (houtcome : r.outcome = .aborted .cancelled) (hlength : n ≤ r.record.steps.length)
      (hlength' : n ≤ u.record.steps.length)
      (htake : r.record.steps.take n = u.record.steps.take n)

/-- From every place a matcher heeds a cancellation behind any number of its steps,
    and its values are as said where nobody cancels it. The numbers bound how many
    tokens it tests from then on, `first` if it is cancelled from the start. -/
structure Heeds (first later n : Nat) (u r : Result α) : Prop where
  patience_eq : u.state.patience = none
  cut_or_same : CutOrSame n u r
  tests_le : (r.record.steps.drop n).countP Event.isTest ≤ if n = 0 then first else later

/-- A run between the two ends of a production, each of which is a step. -/
def framed (name : String) (place : Nat) (r : Result α) : Result α :=
  ⟨r.outcome, ⟨r.state.position, r.state.fuel, r.state.patience.map (· - 1)⟩,
    { Record.empty with events := .single (.enter name place) } ++ r.record ++
      { Record.empty with events := .single (.exit name r.outcome.isMatched r.state.position) }⟩

/-- The steps inside a production stand between its entry and its exit. Both ends
    are steps, at which a cancellation can come in. -/
theorem steps_framed (name : String) (place : Nat) (r : Result α) :
    (r.framed name place).record.steps = .enter name place :: r.record.steps ++
      [.exit name r.outcome.isMatched r.state.position] := by
  have henter : [Event.enter name place].filter Event.isStep = [.enter name place] := rfl
  have hexit (matched : Bool) (stop : Nat) :
      [Event.exit name matched stop].filter Event.isStep = [.exit name matched stop] := rfl
  simp only [framed, Record.steps, Record.events_append, Journal.toList_single,
    List.filter_append, henter, hexit]
  rfl

variable {first later n : Nat} {u r : Result α}

/-- Whoever tests few tokens tests no more than many. The bounds only have to be
    large enough. -/
theorem Heeds.mono {first' later' : Nat} (h : Heeds first later n u r) (hfirst : first ≤ first')
    (hlater : later ≤ later') : Heeds first' later' n u r where
  patience_eq := h.patience_eq
  cut_or_same := h.cut_or_same
  tests_le := by
    have htests := h.tests_le
    split at htests <;> split <;> omega

/-- What is done about a run that is over may look at its outcome and its record, as
    long as a cancellation stays one and no step is made up. -/
theorem Heeds.mapped (h : Heeds first later n u r) (outcome : Outcome α → Record → Outcome β)
    (record : Outcome α → Record → Record)
    (hcancelled : ∀ note, outcome (.aborted .cancelled) note = .aborted .cancelled)
    (hsteps : ∀ o note, (record o note).steps = note.steps) :
    Heeds first later n ⟨outcome u.outcome u.record, u.state, record u.outcome u.record⟩
      ⟨outcome r.outcome r.record, r.state, record r.outcome r.record⟩ where
  patience_eq := h.patience_eq
  cut_or_same := by
    cases h.cut_or_same with
    | through hsame =>
      refine .through ?_
      rw [hsame, hsteps]
    | cut houtcome hlength hlength' htake =>
      refine .cut ?_ ?_ ?_ ?_ <;> simp only [houtcome, hcancelled, hsteps]
      · exact hlength
      · exact hlength'
      · exact htake
  tests_le := by
    simp only [hsteps]
    exact h.tests_le

/-- A run that is cut short is so whatever the other one goes on with, because the
    steps of the other one only become more. -/
theorem Heeds.stopped {whole : Result β} (h : Heeds first later n u r)
    (hlength : n ≤ r.record.steps.length) (hlength' : n ≤ u.record.steps.length)
    (htake : r.record.steps.take n = u.record.steps.take n)
    (hpatience : whole.state.patience = none) (hwhole : u.record.steps <+: whole.record.steps) :
    Heeds first later n whole ⟨.aborted .cancelled, r.state, r.record⟩ where
  patience_eq := hpatience
  cut_or_same := by
    obtain ⟨more, hmore⟩ := hwhole
    refine .cut rfl hlength ?_ ?_
    · rw [← hmore, List.length_append]
      exact Nat.le_add_right_of_le hlength'
    · rw [← hmore, List.take_append_of_le_length hlength', htake]
  tests_le := h.tests_le

/-- Behind a run that has gone through, another one is cancelled by the steps that
    are left. The tokens that the two test after the cancellation add up only if it
    falls into the first of them. -/
theorem Heeds.followed {first' later' : Nat} {next next' : Result β}
    (h : Heeds first later n u ⟨u.outcome,
      ⟨u.state.position, u.state.fuel, some (n - u.record.steps.length)⟩, u.record⟩)
    (h' : Heeds first' later' (n - u.record.steps.length) next next') :
    Heeds (first + first') (max (later + first') later') n
      ⟨next.outcome, next.state, u.record ++ next.record⟩
      ⟨next'.outcome, next'.state, u.record ++ next'.record⟩ where
  patience_eq := h'.patience_eq
  cut_or_same := by
    cases h'.cut_or_same with
    | through hsame =>
      refine .through ?_
      rw [hsame, Record.steps_append, List.length_append, Nat.sub_sub]
    | cut houtcome hlength hlength' htake =>
      refine .cut houtcome ?_ ?_ ?_
      · simp only [Record.steps_append, List.length_append]
        omega
      · simp only [Record.steps_append, List.length_append]
        omega
      · simp only [Record.steps_append, List.take_append, htake]
  tests_le := by
    have htests := h.tests_le
    have htests' := h'.tests_le
    dsimp only at htests
    simp only [Record.steps_append, List.drop_append, List.countP_append]
    by_cases hlast : n ≤ u.record.steps.length
    · -- the second run is cancelled from the start
      rw [if_pos (Nat.sub_eq_zero_of_le hlast)] at htests'
      split at htests <;> split <;> omega
    · -- the first run is over before anything is cancelled
      rw [List.drop_eq_nil_of_le (Nat.le_of_not_le hlast), List.countP_nil]
      rw [if_neg (by omega)] at htests'
      rw [if_neg (by omega)]
      omega

/-- What is reported at both ends of a production counts as steps, and tests
    nothing. -/
theorem Heeds.framed (h : Heeds first later (n - 1) u r) (hle : first ≤ later) (name : String)
    (place : Nat) : Heeds first later n (u.framed name place) (r.framed name place) where
  patience_eq := congrArg (Option.map (· - 1)) h.patience_eq
  cut_or_same := by
    cases h.cut_or_same with
    | through hsame =>
      subst hsame
      have hleft : n - 1 - u.record.steps.length - 1 =
          n - (u.framed name place).record.steps.length := by
        simp only [steps_framed, List.length_append, List.length_cons, List.length_nil]
        omega
      exact .through (by rw [← hleft]; rfl)
    | cut houtcome hlength hlength' htake =>
      refine .cut houtcome ?_ ?_ ?_ <;> rw [steps_framed]
      · simp only [List.length_append, List.length_cons]
        omega
      · simp only [List.length_append, List.length_cons]
        omega
      · rw [steps_framed]
        cases n with
        | zero => rfl
        | succ n =>
          rw [Nat.add_sub_cancel] at hlength hlength' htake
          simp only [List.cons_append, List.take_succ_cons, List.take_append_of_le_length hlength,
            List.take_append_of_le_length hlength', htake]
  tests_le := by
    have htests := h.tests_le
    rw [steps_framed]
    cases n with
    | zero => simpa [Event.isTest] using htests
    | succ n =>
      have hexit (e : Event) (he : e.isTest = false) (k : Nat) :
          ([e].drop k).countP Event.isTest = 0 := by
        rw [List.countP_eq_zero]
        intro e' he'
        rw [List.mem_singleton.mp (List.mem_of_mem_drop he'), he]
        exact Bool.false_ne_true
      rw [Nat.add_sub_cancel] at htests
      rw [List.cons_append, List.drop_succ_cons, List.drop_append, List.countP_append,
        hexit _ rfl, if_neg (Nat.succ_ne_zero n), Nat.add_zero]
      split at htests <;> omega

end Result

namespace Matcher

variable {α β : Type} {first later : Nat}

/-- From every place a matcher heeds a cancellation behind any number of its steps,
    and its values are as said where nobody cancels it. -/
def Heeds (first later : Nat) (Q : α → Prop) (m : Matcher α) : Prop :=
  ∀ c place fuel n, (∀ a, (m c ⟨place, fuel, none⟩).outcome = .matched a → Q a) ∧
    Result.Heeds first later n (m c ⟨place, fuel, none⟩) (m c ⟨place, fuel, some n⟩)

namespace Heeds

theorem mono {first' later' : Nat} {Q : α → Prop} {m : Matcher α} (h : Heeds first later Q m)
    (hfirst : first ≤ first') (hlater : later ≤ later') : Heeds first' later' Q m :=
  fun c place fuel n => ⟨(h c place fuel n).1, (h c place fuel n).2.mono hfirst hlater⟩

/-- A step that does not look whether it is cancelled and reports nothing. The two
    runs then differ in the patience that is left, and in nothing else. -/
theorem of_silent {Q : α → Prop} {m : Matcher α}
    (h : ∀ c place fuel, ∃ (o : Outcome α) (place' fuel' : Nat) (record : Record),
      record.steps = [] ∧ (∀ a, o = .matched a → Q a) ∧
        ∀ patience, m c ⟨place, fuel, patience⟩ = ⟨o, ⟨place', fuel', patience⟩, record⟩) :
    Heeds first later Q m := by
  intro c place fuel n
  obtain ⟨o, place', fuel', record, hsteps, hvalue, hrun⟩ := h c place fuel
  rw [hrun, hrun]
  refine ⟨hvalue, rfl, .through ?_, ?_⟩ <;> simp [hsteps]

/-- A matcher that ends as `m` does, up to what it makes of the outcome and the
    record. -/
theorem mapped {m : Matcher α} {whole : Matcher β} (hm : Heeds first later (fun _ => True) m)
    (outcome : Outcome α → Record → Outcome β) (record : Outcome α → Record → Record)
    (hcancelled : ∀ note, outcome (.aborted .cancelled) note = .aborted .cancelled)
    (hsteps : ∀ o note, (record o note).steps = note.steps)
    (hwhole : ∀ c s, whole c s = ⟨outcome (m c s).outcome (m c s).record, (m c s).state,
      record (m c s).outcome (m c s).record⟩) : Heeds first later (fun _ => True) whole := by
  intro c place fuel n
  rw [hwhole, hwhole]
  exact ⟨fun _ _ => trivial, (hm c place fuel n).2.mapped outcome record hcancelled hsteps⟩

/-- What is done behind `m` is cancelled by the steps that `m` has left over. The
    general rule, from which the two below are taken. -/
theorem sequenced {first' later' : Nat} {Q : α → Prop} {R : β → Prop} {m : Matcher α}
    {f : α → Matcher β} (hm : Heeds first later Q m) (hf : ∀ a, Q a → Heeds first' later' R (f a)) :
    Heeds (first + first') (max (later + first') later') R (m >>= f) := by
  intro c place fuel n
  obtain ⟨hvalue, h⟩ := hm c place fuel n
  generalize hu : m c ⟨place, fuel, none⟩ = u at hvalue h
  generalize hr : m c ⟨place, fuel, some n⟩ = r at h
  have hmono {u r : Result β} (h : Result.Heeds first later n u r) :
      Result.Heeds (first + first') (max (later + first') later') n u r :=
    h.mono (Nat.le_add_right ..) (by omega)
  by_cases hmatched : ∃ a, u.outcome = .matched a
  · obtain ⟨a, houtcome⟩ := hmatched
    have hstate : u.state = ⟨u.state.position, u.state.fuel, none⟩ := by
      rw [← h.patience_eq]
    obtain ⟨hvalue', h'⟩ := hf a (hvalue a houtcome) c u.state.position u.state.fuel
      (n - u.record.steps.length)
    rw [run_bind_matched (by rw [hu]; exact houtcome), hu, hstate]
    refine ⟨hvalue', ?_⟩
    cases h.cut_or_same with
    | through hsame =>
      subst hsame
      rw [run_bind_matched (by rw [hr]; exact houtcome), hr]
      exact h.followed h'
    | cut hcancelled hlength hlength' htake =>
      rw [run_bind_aborted (by rw [hr]; exact hcancelled), hr]
      refine hmono (h.stopped hlength hlength' htake h'.patience_eq ?_)
      rw [Record.steps_append]
      exact List.prefix_append _ _
  · have hunmatched : ∀ a, r.outcome ≠ .matched a := by
      intro a ha
      cases h.cut_or_same with
      | through hsame =>
        rw [hsame] at ha
        exact hmatched ⟨a, ha⟩
      | cut hcancelled =>
        rw [hcancelled] at ha
        cases ha
    rw [run_bind_unmatched (by rw [hu]; exact fun a ha => hmatched ⟨a, ha⟩), hu,
      run_bind_unmatched (by rw [hr]; exact hunmatched), hr]
    refine ⟨fun b hb => ?_, hmono (h.mapped (fun o _ => o.given) (fun _ record => record)
      (fun _ => rfl) fun _ _ => rfl)⟩
    exact absurd hb (Outcome.given_ne_matched _ _)

/-- Behind what has tested a token, something that looks before it tests the next
    one. -/
theorem bind {Q : α → Prop} {R : β → Prop} {m : Matcher α} {f : α → Matcher β}
    (hm : Heeds first 1 Q m) (hf : ∀ a, Q a → Heeds 0 1 R (f a)) : Heeds first 1 R (m >>= f) :=
  (hm.sequenced hf).mono (by omega) (by omega)

/-- Behind what tests nothing, something that may test a token before it looks. -/
theorem behind {Q : α → Prop} {R : β → Prop} {m : Matcher α} {f : α → Matcher β}
    (hm : Heeds 0 0 Q m) (hf : ∀ a, Q a → Heeds first later R (f a))
    (hle : first ≤ later := by omega) : Heeds first later R (m >>= f) :=
  (hm.sequenced hf).mono (by omega) (by omega)

section Step

theorem pure {Q : α → Prop} {a : α} (ha : Q a) : Heeds first later Q (Pure.pure a) :=
  of_silent fun _ place fuel => ⟨.matched a, place, fuel, .empty, rfl,
    fun _ hb => Outcome.matched.inj hb ▸ ha, fun _ => rfl⟩

theorem fail {Q : α → Prop} : Heeds first later Q (Matcher.fail : Matcher α) :=
  of_silent fun _ place fuel => ⟨.failed, place, fuel, .empty, rfl, nofun, fun _ => rfl⟩

theorem abort (e : ParseError) : Heeds first later (fun _ => True) (Matcher.abort e : Matcher α) :=
  of_silent fun _ place fuel => ⟨.aborted e, place, fuel, .empty, rfl, nofun, fun _ => rfl⟩

theorem position : Heeds first later (fun _ => True) Matcher.position :=
  of_silent fun _ place fuel =>
    ⟨.matched place, place, fuel, .empty, rfl, fun _ _ => trivial, fun _ => rfl⟩

theorem context : Heeds first later (fun _ => True) Matcher.context :=
  of_silent fun c place fuel =>
    ⟨.matched c, place, fuel, .empty, rfl, fun _ _ => trivial, fun _ => rfl⟩

theorem peek : Heeds first later (fun _ => True) Matcher.peek :=
  of_silent fun c place fuel =>
    ⟨.matched c.tokens[place]?, place, fuel, .empty, rfl, fun _ _ => trivial, fun _ => rfl⟩

theorem seek (target : Nat) : Heeds first later (fun _ => True) (Matcher.seek target) :=
  of_silent fun _ _ fuel =>
    ⟨.matched (), target, fuel, .empty, rfl, fun _ _ => trivial, fun _ => rfl⟩

theorem advance : Heeds first later (fun _ => True) Matcher.advance :=
  of_silent fun _ place fuel =>
    ⟨.matched (), place + 1, fuel, .empty, rfl, fun _ _ => trivial, fun _ => rfl⟩

theorem expect (expected : List Expectation) :
    Heeds first later (fun _ => True) (Matcher.expect expected) :=
  of_silent fun _ place fuel => ⟨.matched (), place, fuel,
    { Record.empty with misses := .ofList (expected.map fun e => ⟨place, e⟩) }, rfl,
    fun _ _ => trivial, fun _ => rfl⟩

theorem mark (b : Breakpoint) : Heeds first later (fun _ => True) (Matcher.mark b) :=
  of_silent fun _ place fuel => ⟨.matched (), place, fuel,
    { Record.empty with breakpoints := .single b }, rfl, fun _ _ => trivial, fun _ => rfl⟩

/-- A charge does not look at the flag, and running out of fuel ends both runs
    alike. -/
theorem charge : Heeds first later (fun _ => True) Matcher.charge := by
  refine of_silent fun _ place fuel => ?_
  cases fuel with
  | zero => exact ⟨.aborted .outOfFuel, place, 0, .empty, rfl, nofun, fun _ => rfl⟩
  | succ fuel => exact ⟨.matched (), place, fuel, .empty, rfl, fun _ _ => trivial, fun _ => rfl⟩

/-- A report is one step, which may be a test. If the flag is set before it, that
    test still counts. -/
theorem report_step (e : Event) :
    Heeds (if e.isTest then 1 else 0) 0 (fun _ => True) (Matcher.report e) := by
  intro c place fuel n
  refine ⟨fun _ _ => trivial, ?_, .through ?_, ?_⟩
  · unfold Matcher.report
    split <;> rfl
  · unfold Matcher.report Record.steps
    by_cases hstep : e.isStep = true
    · simp [hstep]
    · simp [hstep]
  · show (([e].filter Event.isStep).drop n).countP Event.isTest ≤ _
    cases n with
    | zero => cases hstep : e.isStep <;> cases htest : e.isTest <;> simp [hstep, htest]
    | succ n => cases hstep : e.isStep <;> simp [hstep]

theorem report {e : Event} (htest : e.isTest = false) :
    Heeds first later (fun _ => True) (Matcher.report e) :=
  (report_step e).mono (by simp [htest]) (Nat.zero_le later)

/-- A report of a test is the one token that may be tested after the flag is set. -/
theorem test (e : Event) : Heeds 1 later (fun _ => True) (Matcher.report e) := by
  refine (report_step e).mono ?_ (Nat.zero_le later)
  split
  · exact Nat.le_refl 1
  · exact Nat.zero_le 1

/-- A look at the flag ends the run that is cancelled, and only that one. -/
theorem checkPatience : Heeds first later (fun _ => True) Matcher.checkPatience := by
  intro c place fuel n
  refine ⟨fun _ _ => trivial, ?_⟩
  cases n with
  | zero => exact ⟨rfl, .cut rfl (Nat.zero_le _) (Nat.zero_le _) rfl, Nat.zero_le _⟩
  | succ n => exact ⟨rfl, .through rfl, Nat.zero_le _⟩

/-- What is done only behind a check may test a token before it looks again. If the
    flag is set before the check, nothing is tested; if it is set behind, the one
    test of `m` is allowed. -/
theorem checked {m : Matcher α} (hm : Heeds 1 1 (fun _ => True) m) :
    Heeds 0 1 (fun _ => True) (Matcher.checkPatience >>= fun _ => m) := by
  intro c place fuel n
  obtain ⟨-, h⟩ := hm c place fuel n
  have hopen (patience : Option Nat) (hpatience : patience ≠ some 0) :
      (Matcher.checkPatience >>= fun _ => m) c ⟨place, fuel, patience⟩ =
        ⟨(m c ⟨place, fuel, patience⟩).outcome, (m c ⟨place, fuel, patience⟩).state,
          .empty ++ (m c ⟨place, fuel, patience⟩).record⟩ := by
    have hcheck : Matcher.checkPatience c ⟨place, fuel, patience⟩ =
        ⟨.matched (), ⟨place, fuel, patience⟩, .empty⟩ := if_neg hpatience
    rw [run_bind_matched (a := ()) (by rw [hcheck]), hcheck]
  refine ⟨fun _ _ => trivial, ?_⟩
  rw [hopen none nofun]
  cases n with
  | zero =>
    rw [run_bind_aborted (e := .cancelled) rfl]
    exact ⟨h.patience_eq, .cut rfl (Nat.zero_le _) (Nat.zero_le _) rfl, Nat.zero_le _⟩
  | succ n =>
    rw [hopen (some (n + 1)) nofun]
    have hmapped := h.mapped (fun o _ => o) (fun _ note => .empty ++ note) (fun _ => rfl)
      fun _ _ => rfl
    exact ⟨hmapped.patience_eq, hmapped.cut_or_same, hmapped.tests_le⟩

end Step

/-- A cancellation is not a failure, so an attempt does not hide it. -/
theorem attempt {m : Matcher α} (hm : Heeds first later (fun _ => True) m) :
    Heeds first later (fun _ => True) m.attempt :=
  hm.mapped (fun o _ => o.attempted) (fun _ note => note) (fun _ => rfl) (fun _ _ => rfl)
    (run_attempt m)

theorem listen {m : Matcher α} (hm : Heeds first later (fun _ => True) m) :
    Heeds first later (fun _ => True) m.listen :=
  hm.mapped (fun o note => o.map fun a => (a, note.misses)) (fun _ note => note) (fun _ => rfl)
    (fun _ _ => rfl) (run_listen m)

/-- Other misses behind a failure do not touch the steps. -/
theorem onFailure (f : Journal Miss → Journal Miss) {m : Matcher α}
    (hm : Heeds first later (fun _ => True) m) :
    Heeds first later (fun _ => True) (m.onFailure f) := by
  refine hm.mapped (fun o _ => o) (Outcome.amend f) (fun _ => rfl) (fun o note => ?_)
    (run_onFailure f m)
  cases o <;> rfl

/-- The steps inside a production are one behind its entry. -/
theorem within {m : Matcher α} (hm : Heeds first later (fun _ => True) m) (hle : first ≤ later)
    (name : String) : Heeds first later (fun _ => True) (m.within name) :=
  fun c place fuel n => ⟨fun _ _ => trivial,
    (hm { c with stack := name :: c.stack } place fuel (n - 1)).2.framed hle name place⟩

/-- Blame is a report and an error, and tests nothing. -/
theorem blame (misses : Journal Miss) :
    Heeds 0 1 (fun _ => True) (Matcher.blame misses : Matcher α) :=
  bind context fun _ _ => bind position fun _ _ => bind (report rfl) fun _ _ => abort _

/-- A leaf tests one token and does not look at the flag itself. If the flag is set
    before the leaf starts, that test still counts. -/
theorem leaf (l : Grammar.Leaf) : Heeds 1 1 (fun _ => True) (Matcher.leaf l) := by
  have hmiss (next : Option Token) (here : Nat) : Heeds 1 1 (fun _ => True)
      (Matcher.expect (l.misses next) >>= fun _ =>
        Matcher.report (.miss l.announced here) >>= fun _ =>
          (Matcher.fail : Matcher (List Tree))) :=
    behind (expect _) fun _ _ => bind (test _) fun _ _ => fail
  refine behind position fun here _ => behind peek fun next _ => ?_
  cases next with
  | none => exact hmiss none here
  | some token =>
    dsimp only
    split
    · exact bind (test _) fun _ _ => bind advance fun _ _ => pure trivial
    · exact hmiss (some token) here

/-- A breakpoint looks at the flag and tests nothing. -/
theorem breakpoint : Heeds 0 1 (fun _ => True) Matcher.breakpoint := by
  refine bind context fun c _ => bind position fun here _ => bind (report rfl) fun _ _ => ?_
  dsimp only
  split
  · exact bind (mark _) fun _ _ => pure trivial
  · exact pure trivial

/-- A production looks at the flag at its two ends. -/
theorem production (p : Grammar.Production) {body : Matcher (Bool × List Tree)}
    (hbody : Heeds 0 1 (fun _ => True) body) :
    Heeds 0 1 (fun _ => True) (Matcher.production p body) := by
  refine bind position fun start _ => bind context fun c _ => ?_
  refine bind (onFailure _ (within hbody (Nat.zero_le 1) p.name)) fun x _ => ?_
  exact bind position fun stop _ => pure trivial

/-- Each turn of a repetition looks before it starts, so the turns together test no
    more than one of them. -/
theorem iterate {item : Matcher (Bool × List Tree)}
    {separator : Option (Matcher (Bool × List Tree))}
    (hturn : ∀ first : Bool, Heeds 0 1 (fun _ => True)
      (iteration item (if first then none else separator))) (first : Bool) :
    Heeds 0 1 (fun _ => True) (Matcher.iterate item separator first) := by
  intro c place fuel n
  refine ⟨fun _ _ => trivial, ?_⟩
  -- each turn that goes on comes closer to the end of the tokens
  induction hleft : c.tokens.size - place using Nat.strongRecOn
    generalizing first place fuel n with
  | _ left ih =>
  obtain ⟨-, h⟩ := hturn first c place fuel n
  generalize hu : iteration item (if first then none else separator) c ⟨place, fuel, none⟩ = u at h
  generalize hr : iteration item (if first then none else separator) c ⟨place, fuel, some n⟩ = r
    at h
  by_cases hgoes : GoesOn c place u
  · obtain ⟨nodes, houtcome, hprogress⟩ := hgoes
    have hstate : u.state = ⟨u.state.position, u.state.fuel, none⟩ := by
      rw [← h.patience_eq]
    have h' := ih _ (hleft ▸ hprogress) false u.state.position u.state.fuel
      (n - u.record.steps.length) rfl
    have hmore := h'.mapped (fun o _ => o.map fun x => (x.1 + 1, nodes ++ x.2))
      (fun _ note => note) (fun _ => rfl) fun _ _ => rfl
    rw [run_iterate_next hu houtcome hprogress, hstate]
    cases h.cut_or_same with
    | through hsame =>
      subst hsame
      rw [run_iterate_next hr houtcome hprogress]
      exact (h.followed hmore).mono (by omega) (by omega)
    | cut hcancelled hlength hlength' htake =>
      rw [run_iterate_aborted hr hcancelled]
      refine h.stopped hlength hlength' htake hmore.patience_eq ?_
      rw [Record.steps_append]
      exact List.prefix_append _ _
  · have hends : ¬ GoesOn c place r := by
      intro ⟨nodes, houtcome, hprogress⟩
      cases h.cut_or_same with
      | through hsame =>
        subst hsame
        exact hgoes ⟨nodes, houtcome, hprogress⟩
      | cut hcancelled =>
        rw [hcancelled] at houtcome
        cases houtcome
    rw [run_iterate_ended hu hgoes, run_iterate_ended hr hends]
    exact h.mapped (fun o _ => o.map fun _ => (0, [])) (fun _ note => note) (fun _ => rfl)
      fun _ _ => rfl

end Heeds

end Matcher

namespace Discipline

open Matcher

/-- Looking often enough whether it is cancelled is a discipline, except for the
    terms that are a single leaf. -/
def heeding : Discipline where
  Holds := Heeds 0 1
  Place _ := True
  Allowed _ := False
  pure := Heeds.pure
  bind := Heeds.bind
  fail := Heeds.fail
  unknown _ := Heeds.abort _
  tooDeep := Heeds.abort _
  position := Heeds.position
  seek _ := Heeds.seek _
  report hmove := Heeds.report (Event.isTest_of_isMove hmove)
  charge := Heeds.charge
  checkPatience := Heeds.checkPatience
  attempt := Heeds.attempt
  candidate branch start hm := .bind .context fun c _ => .bind (.report rfl) fun _ _ => hm
  judge {_ _ m verdict} hm hverdict := .bind (.listen hm) fun x _ => by
    cases h : verdict x.1 with
    | none => exact .blame x.2
    | some next => exact hverdict x.1 next h
  leaf hl := hl.elim
  breakpoint := Heeds.breakpoint
  production p _ hbody := Heeds.production p hbody
  iterate := Heeds.iterate

end Discipline

namespace Matcher

/-- A commitment is reported without a look, and tests nothing. -/
theorem Heeds.commitAt (threshold earned : Nat) (committed : Bool) :
    Heeds 0 0 (fun _ => True) (Matcher.commitAt threshold earned committed) := by
  unfold Matcher.commitAt
  split
  · exact position.behind fun _ _ => behind (report rfl) fun _ _ => pure trivial
  · exact pure trivial

/-- The steps of a sequence are checked, so that they may be leaves. The induction
    is on the terms that are left. -/
theorem Heeds.steps {parts : List (Matcher (List Tree))}
    (hparts : ∀ m ∈ parts, Heeds 1 1 (fun _ => True) m) (threshold earned : Nat)
    (committed : Bool) :
    Heeds 0 1 (fun _ => True) (Matcher.steps threshold parts earned committed) := by
  induction parts generalizing earned committed with
  | nil => exact (commitAt _ _ _).behind fun _ _ => pure trivial
  | cons step rest ih =>
    obtain ⟨hstep, hrest⟩ := List.forall_mem_cons.mp hparts
    refine checked ((commitAt _ _ _).behind fun committed _ => ?_)
    refine position.behind fun before _ => hstep.attempt.bind fun nodes? _ => ?_
    cases nodes? with
    | none => exact pure trivial
    | some nodes =>
      exact position.behind fun after _ => bind (ih hrest _ _) fun _ _ => pure trivial

/-- A sequence of terms that test one token each tests no more than one after the
    cancellation. -/
theorem Heeds.sequence {parts : List (Matcher (List Tree))}
    (hparts : ∀ m ∈ parts, Heeds 1 1 (fun _ => True) m) (threshold : Nat) :
    Heeds 0 1 (fun _ => True) (Matcher.sequence threshold parts) := by
  rw [sequence_eq]
  refine position.behind fun start _ =>
    Discipline.heeding.judge (Heeds.steps hparts threshold 0 false) fun ending next hnext => ?_
  match ending with
  | .finished committed nodes =>
    cases hnext
    exact pure trivial
  | .stuck true => cases hnext
  | .stuck false =>
    cases hnext
    exact (Discipline.heeding.keeps_backtrack trivial).bind fun _ _ => fail

end Matcher

namespace Grammar

open Matcher (Heeds)

theorem forall_heeds_of_forall₂ {α β : Type} {first later : Nat} {parts : List α}
    {ms : List (Matcher β)}
    (h : List.Forall₂ (fun _ m => Heeds first later (fun _ => True) m) parts ms) :
    ∀ m ∈ ms, Heeds first later (fun _ => True) m := by
  induction h with
  | nil => nofun
  | cons hhead _ ih => exact List.forall_mem_cons.mpr ⟨hhead, ih⟩

/-- A sequence looks whether it is cancelled before each of its terms, and a term
    may be a leaf. -/
theorem heeds_fold {call : String → Matcher Tree}
    (hcall : ∀ name, Heeds 0 1 (fun _ => True) (call name)) :
    Fold call (fun _ m => Heeds 1 1 (fun _ => True) m)
      (fun _ m => Heeds 0 1 (fun _ => True) m) where
  leaf l := Heeds.charge.behind fun _ _ => .leaf l
  production name := Heeds.charge.behind fun _ _ =>
    ((hcall name).bind fun _ _ => .pure trivial).mono (Nat.zero_le 1) (Nat.le_refl 1)
  optional hbody := Heeds.charge.behind fun _ _ =>
    (Discipline.heeding.keeps_optional hbody).mono (Nat.zero_le 1) (Nat.le_refl 1)
  alternation hcandidates := Heeds.charge.behind fun _ _ =>
    (Discipline.heeding.keeps_alternation (forall_heeds_of_forall₂ hcandidates)).mono
      (Nat.zero_le 1) (Nat.le_refl 1)
  repetition least hitem hseparator := Heeds.charge.behind fun _ _ => by
    refine (Discipline.heeding.keeps_repetition hitem ?_ least).mono (Nat.zero_le 1) (Nat.le_refl 1)
    cases hseparator with
    | none => nofun
    | some hs =>
      intro m hm
      cases hm
      exact hs
  breakpoint := Heeds.charge.behind fun _ _ =>
    Heeds.breakpoint.mono (Nat.zero_le 1) (Nat.le_refl 1)
  sequence commit hterms := .sequence (forall_heeds_of_forall₂ hterms) commit

/-- Every production heeds a cancellation: once it is cancelled it tests one more
    token at most, however many terms and levels are left. -/
theorem heeds_matcher (g : Grammar) (depth : Nat) (name : String) :
    Heeds 0 1 (fun _ => True) (g.matcher depth name) := by
  apply g.matcher_induction (C := fun _ m => Heeds 0 1 (fun _ => True) m)
  · exact fun name _ => .abort _
  · exact fun _ => .abort _
  · exact fun call hcall name p _ => .production p ((heeds_fold hcall).ofSequence p.body)

end Grammar

end SqlStatement

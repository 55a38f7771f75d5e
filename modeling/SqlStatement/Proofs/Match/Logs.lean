import SqlStatement.Match.Table
import SqlStatement.Proofs.Match.Discipline
import SqlStatement.Proofs.Match.Ensures
import SqlStatement.Proofs.Match.Run

namespace SqlStatement

/-- Whether an event says what became of a token, or of a sequence that has failed
    for good. -/
def Event.isFinding : Event → Bool
  | .leaf _ _ | .miss _ _ | .blamed _ => true
  | _ => false

/-- What a run has missed and found: the misses in order, and what became of the
    tokens and of sequences that have failed for good. -/
@[ext] structure Log where
  misses : List Miss
  findings : List Event

namespace Log

/-- Nothing found. -/
def nil : Log := ⟨[], []⟩

/-- Someone is blamed. -/
def blamed (position : Nat) : Log := ⟨[], [.blamed position]⟩

instance : Append Log := ⟨fun a b => ⟨a.misses ++ b.misses, a.findings ++ b.findings⟩⟩

@[simp] theorem misses_nil : nil.misses = [] := rfl

@[simp] theorem findings_nil : nil.findings = [] := rfl

@[simp] theorem misses_append (a b : Log) : (a ++ b).misses = a.misses ++ b.misses := rfl

@[simp] theorem findings_append (a b : Log) : (a ++ b).findings = a.findings ++ b.findings := rfl

@[simp] theorem nil_append (a : Log) : nil ++ a = a := rfl

@[simp] theorem append_nil (a : Log) : a ++ nil = a := by
  ext1 <;> simp

theorem append_assoc (a b c : Log) : a ++ b ++ c = a ++ (b ++ c) := by
  ext1 <;> simp

end Log

/-- What a record says was missed and found. -/
def Record.log (r : Record) : Log := ⟨r.misses.toList, r.events.toList.filter Event.isFinding⟩

theorem Record.log_append (a b : Record) : (a ++ b).log = a.log ++ b.log := by
  ext1 <;> simp [log]

/-- What a run has to end with: a value, the place where it stops and its log if it
    matches, the place and the log if it fails, and the log if it is aborted for an
    error of the input. -/
structure Contract (α : Type) where
  matched : α → Nat → Log → Prop
  failed : Nat → Log → Prop
  aborted : InputError → Log → Prop

/-- The contract that is left behind a log. -/
def Contract.after {α : Type} (k : Contract α) (log : Log) : Contract α where
  matched a stop more := k.matched a stop (log ++ more)
  failed stop more := k.failed stop (log ++ more)
  aborted e more := k.aborted e (log ++ more)

/-- A run that keeps `k` behind a log keeps `k'` with the log and another value. -/
structure Contract.Leads {α β : Type} (k : Contract α) (f : α → β) (log : Log) (k' : Contract β) :
    Prop where
  matched : ∀ a stop more, k.matched a stop more → k'.matched (f a) stop (log ++ more)
  failed : ∀ stop more, k.failed stop more → k'.failed stop (log ++ more)
  aborted : ∀ e more, k.aborted e more → k'.aborted e (log ++ more)

/-- A run that keeps a contract. One that gives up for another reason than the input
    is not asked for anything. -/
def Result.Keeps {α : Type} (k : Contract α) (r : Result α) : Prop :=
  match r.outcome with
  | .matched a => k.matched a r.state.position r.record.log
  | .failed => k.failed r.state.position r.record.log
  | .aborted (.input e) => k.aborted e r.record.log
  | .aborted _ => True

namespace Matcher

variable {α β : Type} {c : Context} {start : Nat}

/-- From `start` a matcher keeps a contract, in whatever state it is otherwise. -/
def Logs (c : Context) (start : Nat) (m : Matcher α) (k : Contract α) : Prop :=
  ∀ s : State, s.position = start → (m c s).Keeps k

namespace Logs

variable {k : Contract α} {m : Matcher α} {post : α → Nat → Log → Prop}
  {fallback : Nat → Log → Prop} {ruin : InputError → Log → Prop}

theorem matched (h : m.Logs c start k) {s : State} (hs : s.position = start) {a : α}
    (ha : (m c s).outcome = .matched a) :
    k.matched a (m c s).state.position (m c s).record.log := by
  have hkeeps := h s hs
  rw [Result.Keeps, ha] at hkeeps
  exact hkeeps

theorem failed (h : m.Logs c start k) {s : State} (hs : s.position = start)
    (hfail : (m c s).outcome = .failed) : k.failed (m c s).state.position (m c s).record.log := by
  have hkeeps := h s hs
  rw [Result.Keeps, hfail] at hkeeps
  exact hkeeps

theorem aborted (h : m.Logs c start k) {s : State} (hs : s.position = start) {e : InputError}
    (he : (m c s).outcome = .aborted (.input e)) : k.aborted e (m c s).record.log := by
  have hkeeps := h s hs
  rw [Result.Keeps, he] at hkeeps
  exact hkeeps

/-- A contract is kept if each of the three ways to end keeps it. A run that gives
    up for another reason keeps every contract. -/
theorem intro (hmatched : ∀ s a, s.position = start → (m c s).outcome = .matched a →
      k.matched a (m c s).state.position (m c s).record.log)
    (hfailed : ∀ s, s.position = start → (m c s).outcome = .failed →
      k.failed (m c s).state.position (m c s).record.log)
    (haborted : ∀ s e, s.position = start → (m c s).outcome = .aborted (.input e) →
      k.aborted e (m c s).record.log) : m.Logs c start k := by
  intro s hs
  rw [Result.Keeps]
  split
  · next a ha => exact hmatched s a hs ha
  · next hfail => exact hfailed s hs hfail
  · next e he => exact haborted s e hs he
  · trivial

/-- A contract may be weakened. Each of the three parts may be weakened by itself. -/
theorem imp (h : m.Logs c start k)
    (hmatched : ∀ a stop log, k.matched a stop log → post a stop log)
    (hfailed : ∀ stop log, k.failed stop log → fallback stop log)
    (haborted : ∀ e log, k.aborted e log → ruin e log) :
    m.Logs c start ⟨post, fallback, ruin⟩ :=
  intro (fun _ a hs ha => hmatched a _ _ (h.matched hs ha))
    (fun _ hs hfail => hfailed _ _ (h.failed hs hfail))
    (fun _ _ hs he => haborted _ _ (h.aborted hs he))

/-- Where a matcher stops goes with what it finds. The two are said of the same run,
    so they may be used together. -/
theorem and_ensures {stops : α → Nat → Prop} {stays : Nat → Prop} (h : m.Logs c start k)
    (hstop : m.Ensures c start stops stays) :
    m.Logs c start ⟨fun a stop log => stops a stop ∧ k.matched a stop log,
      fun stop log => stays stop ∧ k.failed stop log, k.aborted⟩ :=
  intro (fun _ _ hs ha => ⟨hstop.matched hs ha, h.matched hs ha⟩)
    (fun _ hs hfail => ⟨hstop.failed hs hfail, h.failed hs hfail⟩)
    (fun _ _ hs he => h.aborted hs he)

theorem pure {a : α} (hpost : post a start .nil) :
    (Pure.pure a : Matcher α).Logs c start ⟨post, fallback, ruin⟩ := by
  rintro s rfl
  exact hpost

theorem fail (hfallback : fallback start .nil) :
    (Matcher.fail : Matcher α).Logs c start ⟨post, fallback, ruin⟩ := by
  rintro s rfl
  exact hfallback

/-- What the first part has found stands in front, so the rest is left with the
    contract behind that log. -/
theorem bind {f : α → Matcher β} {k : Contract β}
    (h : m.Logs c start
      ⟨fun a stop log => (f a).Logs c stop (k.after log), k.failed, k.aborted⟩) :
    (m >>= f).Logs c start k := by
  intro s hs
  rw [Result.Keeps]
  cases hm : (m c s).outcome with
  | matched a =>
    have hrest := h.matched hs hm _ rfl
    rw [Result.Keeps] at hrest
    rw [run_bind_matched hm]
    simp only [Record.log_append]
    exact hrest
  | failed =>
    rw [run_bind_failed hm]
    exact h.failed hs hm
  | aborted e =>
    rw [run_bind_aborted hm]
    cases e with
    | input e => exact h.aborted hs hm
    | outOfFuel | tooDeep | cancelled | unknownProduction => trivial

/-- A failure keeps the contract of the value `none`. What it has missed stays in
    the log. -/
theorem attempt {post : Option α → Nat → Log → Prop}
    (h : m.Logs c start ⟨fun a => post (some a), post none, ruin⟩) :
    m.attempt.Logs c start ⟨post, fallback, ruin⟩ := by
  intro s hs
  rw [run_attempt, Result.Keeps]
  cases hm : (m c s).outcome with
  | matched a => exact h.matched hs hm
  | failed => exact h.failed hs hm
  | aborted e =>
    cases e with
    | input e => exact h.aborted hs hm
    | outOfFuel | tooDeep | cancelled | unknownProduction => trivial

/-- Blame is laid to what was missed, by a run of `m` that has a value without a
    verdict. -/
theorem judge {verdict : α → Option (Matcher β)} {k : Contract β}
    (h : m.Logs c start
      ⟨fun a stop log => ∀ next, verdict a = some next → next.Logs c stop (k.after log),
        k.failed, k.aborted⟩)
    (hblame : ∀ s a, s.position = start → (m c s).outcome = .matched a → verdict a = none →
      ∀ e, e = .ofMisses c.tokens (m c s).state.position (m c s).record.misses.toList →
        k.aborted e ((m c s).record.log ++ .blamed e.position)) :
    (m.listen >>= fun x => ((verdict x.1).getD (blame x.2) : Matcher β)).Logs c start k := by
  refine bind fun s hs => ?_
  rw [run_listen, Result.Keeps]
  cases hm : (m c s).outcome with
  | matched a =>
    simp only [Outcome.map]
    cases hverdict : verdict a with
    | some next => exact h.matched hs hm next hverdict
    | none =>
      intro s' hs'
      have hlaid := hblame s a hs hm hverdict _ rfl
      rw [← hs'] at hlaid
      exact hlaid
  | failed => exact h.failed hs hm
  | aborted e =>
    cases e with
    | input e => exact h.aborted hs hm
    | outOfFuel | tooDeep | cancelled | unknownProduction => trivial

theorem charge_last {post : Unit → Nat → Log → Prop} (hpost : post () start .nil) :
    Matcher.charge.Logs c start ⟨post, fallback, ruin⟩ := by
  rintro ⟨place, fuel, patience⟩ rfl
  cases fuel with
  | zero => trivial
  | succ fuel => exact hpost

theorem checkPatience_last {post : Unit → Nat → Log → Prop} (hpost : post () start .nil) :
    Matcher.checkPatience.Logs c start ⟨post, fallback, ruin⟩ := by
  rintro s rfl
  unfold Matcher.checkPatience
  split
  · trivial
  · exact hpost

/-- A last report is in the log if it is a finding. There is no rest to be asked
    for, so the postcondition has to hold of that log. -/
theorem report_last {e : Event} {post : Unit → Nat → Log → Prop}
    (hpost : post () start ⟨[], [e].filter Event.isFinding⟩) :
    (Matcher.report e).Logs c start ⟨post, fallback, ruin⟩ := by
  rintro s rfl
  exact hpost

section Step

variable {f : Unit → Matcher β} {k : Contract β}

theorem position {f : Nat → Matcher β} (h : (f start).Logs c start k) :
    (Matcher.position >>= f).Logs c start k := by
  refine bind ?_
  rintro s rfl
  exact h

theorem context {f : Context → Matcher β} (h : (f c).Logs c start k) :
    (Matcher.context >>= f).Logs c start k := by
  refine bind ?_
  rintro s rfl
  exact h

/-- To go to another place finds nothing, and the rest starts there. -/
theorem seek {target : Nat} (h : (f ()).Logs c target k) :
    (Matcher.seek target >>= f).Logs c start k :=
  bind fun _ _ => h

/-- A charge is not in the log, and one that fails is not asked for anything. -/
theorem charge (h : (f ()).Logs c start k) : (Matcher.charge >>= f).Logs c start k :=
  bind (charge_last h)

theorem checkPatience (h : (f ()).Logs c start k) :
    (Matcher.checkPatience >>= f).Logs c start k :=
  bind (checkPatience_last h)

/-- Most events find nothing. -/
theorem report {e : Event} (he : e.isFinding = false) (h : (f ()).Logs c start k) :
    (Matcher.report e >>= f).Logs c start k := by
  refine bind (report_last ?_)
  rw [List.filter_cons_of_neg (by simp [he])]
  exact h

theorem backtrack {target : Nat} (h : (f ()).Logs c target k) :
    (Matcher.backtrack target >>= f).Logs c start k := by
  refine bind (position ?_)
  by_cases hthere : start = target
  · subst hthere
    simpa using pure h
  · have haway : (start != target) = true := by simpa using hthere
    rw [if_pos haway]
    exact report rfl fun _ _ => h

/-- A commitment is no finding. The rest of the contract is kept with the commitment
    as it has come out. -/
theorem commitAt {threshold earned : Nat} {committed : Bool} {f : Bool → Matcher β}
    (h : (f (committed || decide (threshold ≤ earned))).Logs c start k) :
    (Matcher.commitAt threshold earned committed >>= f).Logs c start k := by
  refine bind ?_
  unfold Matcher.commitAt
  cases committed with
  | true => exact pure h
  | false =>
    by_cases hreached : threshold ≤ earned
    · simp only [Bool.false_or, hreached, decide_true] at h
      rw [if_pos (by simpa using hreached)]
      exact position (report rfl (pure h))
    · simp only [Bool.false_or, hreached, decide_false] at h
      rw [if_neg (by simpa using hreached)]
      exact pure h

/-- What nodes are made of is left open by a contract, so it must be kept with any. -/
theorem wrap {label : Tree.Label} {first : Nat} {children : List Tree}
    {f : List Tree → Matcher β} (h : ∀ nodes, (f nodes).Logs c start k) :
    (Matcher.wrap label first children >>= f).Logs c start k :=
  bind (position (pure (h _)))

end Step

theorem wrap_last {label : Tree.Label} {first : Nat} {children : List Tree}
    {post : List Tree → Nat → Log → Prop} (hpost : ∀ nodes, post nodes start .nil) :
    (Matcher.wrap label first children).Logs c start ⟨post, fallback, ruin⟩ :=
  position (pure (hpost _))

/-- A leaf finds the token that it accepts, or writes down what it misses and that
    it does. -/
theorem leaf {l : Grammar.Leaf} {post : List Tree → Nat → Log → Prop}
    (hreads : ∀ t, c.tokens[start]? = some t → l.accepts t = true →
      post [.leaf l.role start] (start + 1) ⟨[], [.leaf t start]⟩)
    (hmisses : (∀ t, c.tokens[start]? = some t → l.accepts t = false) →
      fallback start
        ⟨(l.misses c.tokens[start]?).map (⟨start, ·⟩), [.miss l.announced start]⟩) :
    (Matcher.leaf l).Logs c start ⟨post, fallback, ruin⟩ := by
  rintro s rfl
  rw [Result.Keeps]
  by_cases haccept : ∃ t, c.tokens[s.position]? = some t ∧ l.accepts t = true
  · obtain ⟨t, htoken, hl⟩ := haccept
    obtain ⟨houtcome, hstate, hmissed, hevents, -⟩ := run_leaf_accepts htoken hl
    rw [houtcome, hstate, Record.log, hmissed, hevents]
    exact hreads t htoken hl
  · have hl (t : Token) (htoken : c.tokens[s.position]? = some t) : l.accepts t = false :=
      Bool.eq_false_iff.mpr fun h => haccept ⟨t, htoken, h⟩
    obtain ⟨houtcome, hstate, hmissed, hevents, -⟩ := run_leaf_misses hl
    rw [houtcome, hstate, Record.log, hmissed, hevents]
    exact hmisses hl

/-- A breakpoint finds nothing. -/
theorem breakpoint {post : List Tree → Nat → Log → Prop} (hpost : post [] start .nil) :
    Matcher.breakpoint.Logs c start ⟨post, fallback, ruin⟩ := by
  rintro s rfl
  obtain ⟨houtcome, hstate, hmisses, hevents, -⟩ := run_breakpoint c s
  rw [Result.Keeps, houtcome, hstate, Record.log, hmisses, hevents]
  exact hpost

/-- A production sums up what it misses if it fails. The summary replaces the misses
    and leaves the findings, so the log stays a list of what was found. -/
theorem production {p : Grammar.Production} {body : Matcher (Bool × List Tree)}
    {post : Tree → Nat → Log → Prop}
    (h : body.Logs { c with stack := p.name :: c.stack } start
      ⟨fun x stop log => post (.node (.production p.name) ⟨start, stop⟩ x.2) stop log,
        fun stop log => fallback stop ⟨p.summary c.purpose start log.misses, log.findings⟩, ruin⟩) :
    (Matcher.production p body).Logs c start ⟨post, fallback, ruin⟩ := by
  rintro s rfl
  have hbody : (runBody p body c s).Keeps _ := h ⟨s.position, s.fuel, s.patience.map (· - 1)⟩ rfl
  have hfindings : (Matcher.production p body c s).record.log.findings =
      (runBody p body c s).record.log.findings := by
    simp [Record.log, run_production_events, Event.isFinding]
  have hlog : (Matcher.production p body c s).record.log =
      ⟨(Matcher.production p body c s).record.misses.toList,
        (runBody p body c s).record.log.findings⟩ := by
    rw [← hfindings]
    rfl
  rw [Result.Keeps] at hbody ⊢
  rw [run_production_state, hlog]
  cases hrun : (runBody p body c s).outcome with
  | matched x =>
    rw [hrun] at hbody
    rw [(run_production_matched hrun).1, (run_production_matched hrun).2]
    exact hbody
  | failed =>
    rw [hrun] at hbody
    rw [(run_production_failed hrun).1, (run_production_failed hrun).2]
    exact hbody
  | aborted e =>
    rw [hrun] at hbody
    rw [(run_production_aborted hrun).1, (run_production_aborted hrun).2]
    cases e with
    | input e => exact hbody
    | outOfFuel | tooDeep | cancelled | unknownProduction => trivial

section Sequence

variable {ms : List (Matcher (List Tree))} {threshold earned : Nat} {committed : Bool}

theorem steps_nil {post : Ending → Nat → Log → Prop}
    (hpost : post (.finished (committed || decide (threshold ≤ earned)) []) start .nil) :
    (steps threshold [] earned committed).Logs c start ⟨post, fallback, ruin⟩ :=
  commitAt (pure hpost)

/-- The first term of a sequence keeps its part of the contract, and the terms
    behind it the rest, from where it has stopped and with what was earned. If it
    fails, the sequence is stuck. -/
theorem steps_cons {m : Matcher (List Tree)} {post : Ending → Nat → Log → Prop}
    (h : m.Logs c start
      ⟨fun nodes stop log =>
        (steps threshold ms (if start < stop then earned + 1 else earned)
          (committed || decide (threshold ≤ earned))).Logs c stop
          ⟨fun ending stop' more => post (ending.prepend nodes) stop' (log ++ more),
            fun stop' more => fallback stop' (log ++ more), fun e more => ruin e (log ++ more)⟩,
        fun stop log => post (.stuck (committed || decide (threshold ≤ earned))) stop log, ruin⟩) :
    (steps threshold (m :: ms) earned committed).Logs c start ⟨post, fallback, ruin⟩ := by
  refine checkPatience (commitAt (position (bind (attempt (h.imp (fun nodes stop log hrest => ?_)
    (fun stop log hstuck => pure ?_) fun _ _ => id)))))
  · refine position (bind (hrest.imp (fun ending stop' more hpost => pure ?_) (fun _ _ => id)
      fun _ _ => id))
    simpa [Contract.after] using hpost
  · simpa using hstuck

/-- A sequence ends as its steps do: it is blamed if they get stuck behind the
    threshold, and goes back if they get stuck in front of it. -/
theorem sequence {post : Bool × List Tree → Nat → Log → Prop}
    (h : (steps threshold ms 0 false).Logs c start
      ⟨fun ending stop log => match ending with
        | .finished committed nodes => post (committed, nodes) stop log
        | .stuck true => True
        | .stuck false => fallback start log,
        fun _ _ => False, ruin⟩)
    (hblame : ∀ s, s.position = start →
      (steps threshold ms 0 false c s).outcome = .matched (.stuck true) →
      ∀ e, e = .ofMisses c.tokens (steps threshold ms 0 false c s).state.position
          (steps threshold ms 0 false c s).record.misses.toList →
        ruin e ((steps threshold ms 0 false c s).record.log ++ .blamed e.position)) :
    (Matcher.sequence threshold ms).Logs c start ⟨post, fallback, ruin⟩ := by
  rw [sequence_eq]
  refine position (judge (h.imp (fun ending stop log hending next hnext => ?_)
    (fun _ _ => False.elim) fun _ _ => id) fun s ending hs hending hnone => ?_)
  · match ending with
    | .finished committed nodes =>
      cases hnext
      exact pure (by simpa using hending)
    | .stuck true => cases hnext
    | .stuck false =>
      cases hnext
      exact backtrack (fail (by simpa using hending))
  · match ending with
    | .finished committed nodes => cases hnone
    | .stuck true => exact hblame s hs hending
    | .stuck false => cases hnone

end Sequence

/-- An optional body that fails leaves its log behind and no nodes. A body that
    matches leaves nodes that the contract does not look at. -/
theorem optional {body : Matcher (Bool × List Tree)} {post : List Tree → Nat → Log → Prop}
    (h : body.Logs c start
      ⟨fun _ stop log => ∀ nodes, post nodes stop log, post [], ruin⟩) :
    (Matcher.optional body).Logs c start ⟨post, fallback, ruin⟩ := by
  refine position (bind (attempt (h.imp (fun x stop log hx => ?_) (fun stop log hnone => pure ?_)
    fun _ _ => id)))
  · exact wrap_last fun nodes => by simpa using hx nodes
  · simpa using hnone

section Choice

variable {first branch : Nat} {post : List Tree → Nat → Log → Prop}

/-- An alternation without a candidate that has matched fails. -/
theorem choose_nil (hfallback : fallback start .nil) :
    (choose first [] branch none).Logs c start ⟨post, fallback, ruin⟩ :=
  fail hfallback

/-- An alternation takes the best candidate, and has found nothing more. -/
theorem choose_best {best : Provisional} (hpost : ∀ nodes, post nodes best.stop .nil) :
    (choose first [] branch (some best)).Logs c start ⟨post, fallback, ruin⟩ :=
  seek (wrap_last hpost)

/-- A candidate that commits ends the alternation. Any other ending leaves the
    contract, behind its log, to the candidates that are left. -/
theorem choose_cons {candidate : Matcher (Bool × List Tree)}
    {rest : List (Matcher (Bool × List Tree))} {best : Option Provisional}
    (h : candidate.Logs c first
      ⟨fun x stop log => match x with
        | (true, _) => ∀ nodes, post nodes stop log
        | (false, nodes) => (choose first rest (branch + 1)
            (some (Provisional.better best ⟨stop, branch, nodes⟩))).Logs c stop
          ⟨fun nodes stop' more => post nodes stop' (log ++ more),
            fun stop' more => fallback stop' (log ++ more), fun e more => ruin e (log ++ more)⟩,
        fun stop log => (choose first rest (branch + 1) best).Logs c stop
          ⟨fun nodes stop' more => post nodes stop' (log ++ more),
            fun stop' more => fallback stop' (log ++ more), fun e more => ruin e (log ++ more)⟩,
        ruin⟩) :
    (choose first (candidate :: rest) branch best).Logs c start ⟨post, fallback, ruin⟩ := by
  refine seek (context (report rfl (bind (attempt (h.imp (fun x stop log hx => ?_)
    (fun _ _ => id) fun _ _ => id)))))
  match x with
  | (true, nodes) => exact wrap_last fun nodes' => by simpa using hx nodes'
  | (false, nodes) => exact position hx

end Choice

section Repetition

variable {item : Matcher (Bool × List Tree)} {separator : Option (Matcher (Bool × List Tree))}

/-- A turn without a separator is over where the item fails. A turn that is over has
    found what the item has, though nothing was matched. -/
theorem turn_bare {post : Turn → Nat → Log → Prop}
    (h : item.Logs c start
      ⟨fun _ stop log => ∀ nodes, post (.next nodes) stop log, post .over, ruin⟩) :
    (turn item none).Logs c start ⟨post, fallback, ruin⟩ := by
  refine position (bind (attempt (h.imp (fun x stop log hx => wrap fun nodes => pure ?_)
    (fun stop log hover => pure ?_) fun _ _ => id)))
  · simpa using hx nodes
  · simpa using hover

/-- A turn with a separator is over where the separator fails, and misses its item
    where that does. -/
theorem turn_separated {separator : Matcher (Bool × List Tree)} {post : Turn → Nat → Log → Prop}
    (h : separator.Logs c start
      ⟨fun _ stop log => item.Logs c stop
        ⟨fun _ stop' more => ∀ nodes, post (.next nodes) stop' (log ++ more),
          fun stop' more => post .itemMissing stop' (log ++ more),
          fun e more => ruin e (log ++ more)⟩,
        post .over, ruin⟩) :
    (turn item (some separator)).Logs c start ⟨post, fallback, ruin⟩ := by
  refine position (bind (attempt (h.imp (fun x stop log hx => ?_) (fun stop log hover => pure ?_)
    fun _ _ => id)))
  · refine wrap fun front => position (bind (attempt (hx.imp (fun y stop' more hy => ?_)
      (fun stop' more hmissing => pure ?_) fun _ _ => id)))
    · exact wrap fun nodes => pure (by simpa [Contract.after] using hy _)
    · simpa [Contract.after] using hmissing
  · simpa using hover

/-- A turn that misses its item is blamed for what it has missed itself. The blame
    is laid to the misses of the turn alone, not to those of the turns before it. -/
theorem iteration {post : Option (List Tree) → Nat → Log → Prop}
    (h : (turn item separator).Logs c start
      ⟨fun ending stop log => match ending with
        | .over => post none stop log
        | .itemMissing => True
        | .next nodes => post (some nodes) stop log,
        fun _ _ => False, ruin⟩)
    (hblame : ∀ s, s.position = start →
      (turn item separator c s).outcome = .matched .itemMissing →
      ∀ e, e = .ofMisses c.tokens (turn item separator c s).state.position
          (turn item separator c s).record.misses.toList →
        ruin e ((turn item separator c s).record.log ++ .blamed e.position)) :
    (Matcher.iteration item separator).Logs c start ⟨post, fallback, ruin⟩ := by
  rw [iteration_eq]
  refine checkPatience (charge (judge (h.imp (fun ending stop log hending next hnext => ?_)
    (fun _ _ => False.elim) fun _ _ => id) fun s ending hs hending hnone => ?_))
  · match ending with
    | .over | .next nodes =>
      cases hnext
      exact pure (by simpa using hending)
    | .itemMissing => cases hnext
  · match ending with
    | .over | .next nodes => cases hnone
    | .itemMissing => exact hblame s hs hending

/-- What holds of one turn, and leads from what holds behind it to what holds in
    front of it, holds of all turns. The induction is on the tokens that are left. -/
theorem iterate (Valid : Nat → Prop) (k : Nat → Contract (Nat × List Tree))
    (hturn : ∀ (first : Bool) (i : Nat), Valid i →
      (Matcher.iteration item (if first then none else separator)).Logs c i
        ⟨fun found j log => match found with
          | none => (k i).matched (0, []) j log
          | some nodes =>
            (c.tokens.size - j < c.tokens.size - i →
              Valid j ∧ (k j).Leads (fun x => (x.1 + 1, nodes ++ x.2)) log (k i)) ∧
            (¬ c.tokens.size - j < c.tokens.size - i → (k i).matched (0, []) j log),
          (k i).failed, (k i).aborted⟩)
    (first : Bool) {i : Nat} (hi : Valid i) :
    Logs c i (Matcher.iterate item separator first) (k i) := by
  rintro s rfl
  -- Each turn that goes on comes closer to the end of the tokens.
  induction hleft : c.tokens.size - s.position using Nat.strongRecOn generalizing s first with
  | _ left ih =>
  have hone := hturn first s.position hi
  generalize hr : Matcher.iteration item (if first then none else separator) c s = r
  cases houtcome : r.outcome with
  | matched found =>
    have hfound := hone.matched rfl (hr ▸ houtcome)
    rw [hr] at hfound
    cases found with
    | none =>
      rw [run_iterate_over hr houtcome]
      exact hfound
    | some nodes =>
      by_cases hprogress : c.tokens.size - r.state.position < c.tokens.size - s.position
      · obtain ⟨hvalid, hleads⟩ := hfound.1 hprogress
        have hmore := ih _ (hleft ▸ hprogress) false r.state hvalid rfl
        rw [Result.Keeps] at hmore ⊢
        rw [run_iterate_next hr houtcome hprogress, Record.log_append]
        cases hrest : (Matcher.iterate item separator false c r.state).outcome with
        | matched x =>
          rw [hrest] at hmore
          exact hleads.matched _ _ _ hmore
        | failed =>
          rw [hrest] at hmore
          exact hleads.failed _ _ hmore
        | aborted e =>
          rw [hrest] at hmore
          cases e with
          | input e => exact hleads.aborted _ _ hmore
          | outOfFuel | tooDeep | cancelled | unknownProduction => trivial
      · rw [run_iterate_still hr houtcome hprogress]
        exact hfound.2 hprogress
  | failed =>
    rw [run_iterate_failed hr houtcome]
    have hkept := hone.failed rfl (hr ▸ houtcome)
    rw [hr] at hkept
    exact hkept
  | aborted e =>
    rw [run_iterate_aborted hr houtcome]
    cases e with
    | input e =>
      have hkept := hone.aborted rfl (hr ▸ houtcome)
      rw [hr] at hkept
      exact hkept
    | outOfFuel | tooDeep | cancelled | unknownProduction => trivial

/-- A repetition with too few turns fails with the log of its turns. With enough
    turns it matches, with the same log. -/
theorem repetition {least : Nat} {post : List Tree → Nat → Log → Prop}
    (h : Logs c start (Matcher.iterate item separator true)
      ⟨fun x stop log => if x.1 < least then fallback start log else ∀ nodes, post nodes stop log,
        fun _ _ => False, ruin⟩) :
    (Matcher.repetition item separator least).Logs c start ⟨post, fallback, ruin⟩ := by
  refine position (bind (h.imp (fun x stop log hx => ?_) (fun _ _ => False.elim) fun _ _ => id))
  obtain ⟨count, nodes⟩ := x
  dsimp only at hx ⊢
  split at hx
  · next hfew =>
    rw [if_pos hfew]
    exact backtrack (fail (by simpa using hx))
  · next henough =>
    rw [if_neg henough]
    exact wrap_last fun nodes' => by simpa using hx nodes'

end Repetition

end Logs

end Matcher

end SqlStatement

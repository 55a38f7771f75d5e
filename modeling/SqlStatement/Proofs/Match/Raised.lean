import SqlStatement.Proofs.Completion.Summary
import SqlStatement.Proofs.Match.Logs
import SqlStatement.Proofs.Match.Soundness

namespace SqlStatement

open Grammar (Derives Leaf Sequence Term termMatchers)

namespace Log

variable {i j : Nat} {a b log : Log}

/-- Something is missed at `i` or behind it. -/
def Reaches (i : Nat) (log : Log) : Prop := ∃ miss ∈ log.misses, i ≤ miss.position

/-- What was missed gets as far as the tokens that were not matched, and is one of
    them. Labels do not break this, because they are missed where their production
    starts. -/
structure Mirrors (log : Log) : Prop where
  reaches : ∀ x i, .miss x i ∈ log.findings → log.Reaches i
  found : ∀ miss ∈ log.misses, ∃ x, .miss x miss.position ∈ log.findings

theorem Reaches.mono (h : log.Reaches j) (hij : i ≤ j) : log.Reaches i := by
  obtain ⟨miss, hmiss, hle⟩ := h
  exact ⟨miss, hmiss, Nat.le_trans hij hle⟩

/-- More misses behind change nothing about how far the first ones reach. -/
theorem Reaches.append_left (h : a.Reaches i) (b : Log) : (a ++ b).Reaches i := by
  obtain ⟨miss, hmiss, hle⟩ := h
  exact ⟨miss, List.mem_append_left _ hmiss, hle⟩

theorem Reaches.append_right (h : b.Reaches i) (a : Log) : (a ++ b).Reaches i := by
  obtain ⟨miss, hmiss, hle⟩ := h
  exact ⟨miss, List.mem_append_right _ hmiss, hle⟩

theorem mirrors_nil : nil.Mirrors := ⟨nofun, nofun⟩

theorem mirrors_read (t : Token) (i : Nat) : Mirrors ⟨[], [.leaf t i]⟩ where
  reaches _ _ h := nomatch List.mem_singleton.mp h
  found := nofun

/-- Two logs that mirror what was found do so together. Each finding and each miss
    belongs to one of the two. -/
theorem Mirrors.append (ha : a.Mirrors) (hb : b.Mirrors) : (a ++ b).Mirrors where
  reaches x i h := by
    rcases List.mem_append.mp h with hfront | hrest
    · exact (ha.reaches x i hfront).append_left b
    · exact (hb.reaches x i hrest).append_right a
  found miss h := by
    rcases List.mem_append.mp h with hfront | hrest
    · obtain ⟨x, hx⟩ := ha.found miss hfront
      exact ⟨x, List.mem_append_left _ hx⟩
    · obtain ⟨x, hx⟩ := hb.found miss hrest
      exact ⟨x, List.mem_append_right _ hx⟩

/-- A leaf that fails and expects something writes a miss down for what it has
    found, at its place. -/
theorem mirrors_missed {expectations : List Expectation} (hne : expectations ≠ [])
    (announced : Option Expectation) (i : Nat) :
    Mirrors ⟨expectations.map (⟨i, ·⟩), [.miss announced i]⟩ ∧
      Reaches i ⟨expectations.map (⟨i, ·⟩), [.miss announced i]⟩ := by
  obtain ⟨e, he⟩ := List.exists_mem_of_ne_nil _ hne
  have hreaches : Reaches i ⟨expectations.map (⟨i, ·⟩), [.miss announced i]⟩ :=
    ⟨⟨i, e⟩, List.mem_map_of_mem he, Nat.le_refl i⟩
  refine ⟨⟨fun x j h => ?_, fun miss h => ?_⟩, hreaches⟩
  · cases List.mem_singleton.mp h
    exact hreaches
  · obtain ⟨e', -, rfl⟩ := List.mem_map.mp h
    exact ⟨announced, List.mem_singleton_self _⟩

/-- The label of a production that fails at its first token stands for misses at
    that token. -/
theorem mirrors_summary (h : log.Mirrors) (hreaches : log.Reaches i) (p : Grammar.Production)
    (purpose : Purpose) : Mirrors ⟨p.summary purpose i log.misses, log.findings⟩ ∧
      Reaches i ⟨p.summary purpose i log.misses, log.findings⟩ := by
  unfold Grammar.Production.summary
  split
  · next label _ =>
    split
    · next hstay =>
      have hstay : ∀ miss ∈ log.misses, miss.position ≤ i := by
        simp only [Bool.and_eq_true, List.all_eq_true, decide_eq_true_eq] at hstay
        exact hstay.2
      have hlabel : ∀ j ≤ i, Reaches j ⟨[⟨i, .label label⟩], log.findings⟩ :=
        fun j hj => ⟨_, List.mem_singleton_self _, hj⟩
      refine ⟨⟨fun x j hx => ?_, fun miss hmiss => ?_⟩, hlabel i (Nat.le_refl i)⟩
      · obtain ⟨miss, hmiss, hle⟩ := h.reaches x j hx
        exact hlabel j (Nat.le_trans hle (hstay miss hmiss))
      · cases List.mem_singleton.mp hmiss
        obtain ⟨first, hfirst, hle⟩ := hreaches
        have hsame : first.position = i := Nat.le_antisymm (hstay first hfirst) hle
        exact hsame ▸ h.found first hfirst
    · exact ⟨h, hreaches⟩
  · exact ⟨h, hreaches⟩

end Log

/-- An error is laid to the furthest miss, so it is no nearer than any of them. This
    is what puts an error behind everything that was matched in front of the part
    that fails. -/
theorem InputError.le_position_ofMisses {misses : List Miss} {i : Nat}
    (h : ∃ miss ∈ misses, i ≤ miss.position) (tokens : Array Token) (current : Nat) :
    i ≤ (InputError.ofMisses tokens current misses).position := by
  obtain ⟨miss, hmiss, hle⟩ := h
  obtain ⟨last, -, hlast⟩ := Miss.furthest_eq_some (List.ne_nil_of_mem hmiss)
  have hmost := (List.max?_eq_some_iff.mp hlast).2 _ (List.mem_map_of_mem hmiss)
  simp only [InputError.ofMisses, hlast, Option.getD_some]
  exact Nat.le_trans hle hmost

namespace Grammar

/-- The sequences that a term is made of. -/
def Term.sequences : Term → List Sequence
  | .optional body => [body]
  | .alternation candidates => candidates
  | .repetition item separator _ => item :: separator.toList
  | .leaf _ | .production _ | .breakpoint => []

/-- The bodies of all productions and the sequences in them. -/
def sequences (g : Grammar) : List Sequence :=
  g.productions.map (·.body) ++ g.parts.flatMap Term.sequences

theorem mem_sequences {g : Grammar} {u : Term} {s : Sequence} (hu : u ∈ g.parts)
    (hs : s ∈ u.sequences) : s ∈ g.sequences :=
  List.mem_append_right _ (List.mem_flatMap.mpr ⟨u, hu, hs⟩)

theorem body_mem_sequences {g : Grammar} {name : String} {p : Production}
    (hfind : g.find? name = some p) : p.body ∈ g.sequences :=
  List.mem_append_left _ (List.mem_map_of_mem (List.mem_of_find?_eq_some hfind))

end Grammar

namespace Matcher

variable {α : Type} {g : Grammar} {depth : Nat} {c : Context} {i here : Nat}

/-- A run from `here` fails. -/
def FailsAt (m : Matcher α) (c : Context) (here : Nat) : Prop :=
  ∃ s : State, s.position = here ∧ (m c s).outcome = .failed

/-- What is said of a failure may use that there is a run which fails. -/
theorem Logs.and_fails {m : Matcher α} {k : Contract α} (h : m.Logs c i k) :
    m.Logs c i ⟨k.matched, fun stop log => m.FailsAt c i ∧ k.failed stop log, k.aborted⟩ :=
  .intro (fun _ _ hs ha => h.matched hs ha) (fun s hs hfail => ⟨⟨s, hs, hfail⟩, h.failed hs hfail⟩)
    fun _ _ hs he => h.aborted hs he

/-- The first terms match the tokens up to `here`, and the next one fails there. -/
def StuckAt (g : Grammar) (depth : Nat) (c : Context) (ts : List Term) (start here : Nat) : Prop :=
  ∃ front t back nodes, ts = front ++ t :: back ∧
    Derives g c.tokens (.terms front) start here nodes ∧
    (t.matcher (g.matcher depth)).FailsAt c here

/-- A separator matches the tokens up to `here`, and no item follows. -/
def MissingAt (g : Grammar) (depth : Nat) (c : Context) (item separator : Sequence)
    (start here : Nat) : Prop :=
  ∃ nodes, Derives g c.tokens (.terms separator.terms) start here nodes ∧
    (item.matcher (g.matcher depth)).FailsAt c here

/-- Who raises an error: a sequence that has committed, or a repetition without an
    item behind a separator. The part that fails starts where their run stops, and
    the log is that of their run. -/
inductive Raises (g : Grammar) (c : Context) : (here : Nat) → Log → Prop
  | sequence {s : Sequence} {depth : Nat} {σ : State} {r : Result Ending} (hs : s ∈ g.sequences)
      (hr : steps s.commit (termMatchers (g.matcher depth) s.terms) 0 false c σ = r)
      (hcommitted : r.outcome = .matched (.stuck true))
      (hstuck : StuckAt g depth c s.terms σ.position r.state.position) :
      Raises g c r.state.position r.record.log
  | item {item separator : Sequence} {least depth : Nat} {σ : State} {r : Result Turn}
      (hu : .repetition item (some separator) least ∈ g.parts)
      (hr : turn (item.matcher (g.matcher depth)) (some (separator.matcher (g.matcher depth))) c σ =
        r)
      (hmissing : r.outcome = .matched .itemMissing)
      (hbehind : MissingAt g depth c item separator σ.position r.state.position) :
      Raises g c r.state.position r.record.log

/-- A log of a run in a context ends with what has raised an error. The error is
    laid to the furthest miss since the sequence or the turn that raises it has
    started, and does not lie in front of the part that fails. -/
inductive Raised (g : Grammar) (c : Context) (e : InputError) : Log → Prop
  | intro {stack : List String} {here : Nat} {own : Log} (before : Log)
      (hraises : Raises g { c with stack := stack } here own) (hmissed : own.misses ≠ [])
      (herror : e = .ofMisses c.tokens here own.misses) (hplace : here ≤ e.position) :
      Raised g c e (before ++ (own ++ .blamed e.position))

/-- Whatever was found before, the error is raised in the end. -/
theorem Raised.append {e : InputError} {log : Log} (h : Raised g c e log) (before : Log) :
    Raised g c e (before ++ log) := by
  obtain ⟨before', hraises, hmissed, herror, hplace⟩ := h
  rw [← Log.append_assoc]
  exact .intro (before ++ before') hraises hmissed herror hplace

/-- Who raises an error inside a production raises it in front of it. -/
theorem Raised.within {stack : List String} {e : InputError} {log : Log}
    (h : Raised g { c with stack := stack } e log) : Raised g c e log := by
  obtain ⟨before, hraises, hmissed, herror, hplace⟩ := h
  exact .intro before hraises hmissed herror hplace

/-- However a run ends, what it misses is accounted for: a failure has missed
    something where the run has started or behind that, and an error is raised by
    someone. -/
def Accounts (g : Grammar) (m : Matcher α) : Prop :=
  ∀ c i, i ≤ c.tokens.size → m.Logs c i
    ⟨fun _ _ log => log.Mirrors, fun _ log => log.Mirrors ∧ log.Reaches i,
      fun e log => Raised g c e log⟩

/-- What a run that raises an error leaves behind. The part that fails has missed
    something at its own start, so the error lies there or behind it. -/
theorem Raises.raised {r : Result α} (h : Raises g c r.state.position r.record.log)
    (hreaches : r.record.log.Reaches r.state.position) {e : InputError}
    (he : e = .ofMisses c.tokens r.state.position r.record.misses.toList) :
    Raised g c e (r.record.log ++ .blamed e.position) := by
  have hplace := InputError.le_position_ofMisses hreaches c.tokens r.state.position
  obtain ⟨miss, hmiss, -⟩ := hreaches
  exact he ▸ .intro .nil h (List.ne_nil_of_mem hmiss) rfl hplace

/-- A leaf that expects something and says so at the end of the input accounts for
    its failure. -/
theorem accounts_leaf {l : Leaf} (hexpects : l.expectations ≠ []) (homits : l.omitsEnd = true) :
    Accounts g (leaf l) :=
  fun _ _ _ => .leaf (fun t _ _ => Log.mirrors_read t _)
    fun _ => Log.mirrors_missed (l.misses_ne_nil hexpects homits _) l.announced _

/-- Steps are stuck with nodes in front just when they are stuck without. -/
theorem Ending.prepend_eq_stuck {nodes : List Tree} {ending : Ending} {committed : Bool} :
    ending.prepend nodes = .stuck committed ↔ ending = .stuck committed := by
  cases ending <;> simp [prepend]

/-- A term that matches in front of steps that get stuck moves their start back. -/
theorem StuckAt.cons {t : Term} {ts : List Term} {j : Nat} {nodes : List Tree}
    (ht : Derives g c.tokens (.term t) i j nodes) (h : StuckAt g depth c ts j here) :
    StuckAt g depth c (t :: ts) i here := by
  obtain ⟨front, u, back, more, rfl, hfront, hfails⟩ := h
  exact ⟨t :: front, u, back, nodes ++ more, rfl, .cons ht hfront, hfails⟩

/-- Steps that get stuck do so at a term that fails, and something is missed there.
    The terms in front of it are a derivation up to that place. -/
theorem steps_accounts {ts : List Term}
    (hts : ∀ t ∈ ts, Accounts g (t.matcher (g.matcher depth))) (threshold earned : Nat)
    (committed : Bool) (hi : i ≤ c.tokens.size) :
    (steps threshold (termMatchers (g.matcher depth) ts) earned committed).Logs c i
      ⟨fun ending here log => log.Mirrors ∧ ∀ b, ending = .stuck b →
        StuckAt g depth c ts i here ∧ log.Reaches here,
        fun _ _ => False, fun e log => Raised g c e log⟩ := by
  induction ts generalizing earned committed i with
  | nil => exact .steps_nil ⟨Log.mirrors_nil, nofun⟩
  | cons t ts ih =>
    obtain ⟨ht, hts⟩ := List.forall_mem_cons.mp hts
    have hone := ((ht c i hi).and_fails).and_ensures
      (realizes_termMatcher g c.tokens depth t c i rfl hi)
    refine .steps_cons (hone.imp (fun nodes j log hnodes => ?_) (fun j log hnone => ?_)
      fun _ _ => id)
    · obtain ⟨hnodes, hlog⟩ := hnodes
      refine (ih hts _ _ (hnodes.stop_le_size hi)).imp (fun ending k more hending => ?_)
        (fun _ _ => False.elim) fun _ _ hraised => hraised.append log
      refine ⟨hlog.append hending.1, fun b hb => ?_⟩
      obtain ⟨hstuck, hreaches⟩ := hending.2 b (Ending.prepend_eq_stuck.mp hb)
      exact ⟨hstuck.cons (hnodes), hreaches.append_right log⟩
    · obtain ⟨rfl, hfails, hlog, hreaches⟩ := hnone
      exact ⟨hlog, fun _ _ => ⟨⟨[], t, ts, [], rfl, .nil, hfails⟩, hreaches⟩⟩

/-- A sequence that is stuck fails with the misses of its steps, or is blamed for
    them if it has committed. -/
theorem accounts_sequence {s : Sequence} (hs : s ∈ g.sequences)
    (hts : ∀ t ∈ s.terms, Accounts g (t.matcher (g.matcher depth))) :
    Accounts g (s.matcher (g.matcher depth)) := by
  intro c i hi
  have hsteps := steps_accounts hts s.commit 0 false hi
  rw [s.matcher_eq]
  refine .sequence (hsteps.imp (fun ending here log hending => ?_) (fun _ _ => id) fun _ _ => id)
    fun σ hσ hcommitted e he => ?_
  · match ending with
    | .finished committed nodes => exact hending.1
    | .stuck true => trivial
    | .stuck false =>
      obtain ⟨⟨front, t, back, nodes, -, hfront, -⟩, hreaches⟩ := hending.2 false rfl
      exact ⟨hending.1, hreaches.mono hfront.start_le_stop⟩
  · obtain ⟨-, hstuck⟩ := hsteps.matched hσ hcommitted
    obtain ⟨hstuck, hreaches⟩ := hstuck true rfl
    exact Raises.raised (.sequence hs rfl hcommitted (hσ ▸ hstuck)) hreaches he

/-- An optional part never fails, and the misses of its body stay in the log. -/
theorem accounts_optional {m : Matcher (Bool × List Tree)} (h : Accounts g m) :
    Accounts g (optional m) :=
  fun c i hi => .optional ((h c i hi).imp (fun _ _ _ hlog _ => hlog)
    (fun _ _ hlog => hlog.1) fun _ _ => id)

/-- Candidates fail only where none has matched, and then each of them has missed
    something. -/
theorem choose_accounts {ms : List (Matcher (Bool × List Tree))}
    (hms : ∀ m ∈ ms, Accounts g m) {start : Nat} (hstart : start ≤ c.tokens.size) (branch : Nat)
    (best : Option Provisional) :
    (choose start ms branch best).Logs c i
      ⟨fun _ _ log => log.Mirrors,
        fun _ log => log.Mirrors ∧ best = none ∧ (ms ≠ [] → log.Reaches start),
        fun e log => Raised g c e log⟩ := by
  induction ms generalizing branch best i with
  | nil =>
    cases best with
    | none => exact .choose_nil ⟨Log.mirrors_nil, rfl, fun hne => absurd rfl hne⟩
    | some best => exact .choose_best fun _ => Log.mirrors_nil
  | cons m ms ih =>
    obtain ⟨hm, hms⟩ := List.forall_mem_cons.mp hms
    refine .choose_cons ((hm c start hstart).imp (fun x j log hlog => ?_)
      (fun j log hlog => ?_) fun _ _ => id)
    · match x with
      | (true, nodes) => exact fun _ => hlog
      | (false, nodes) =>
        exact (ih hms (branch + 1) _).imp (fun _ _ _ hmore => hlog.append hmore)
          (fun _ _ hnone => nomatch hnone.2.1) fun _ _ hraised => hraised.append log
    · obtain ⟨hlog, hreaches⟩ := hlog
      exact (ih hms (branch + 1) best).imp (fun _ _ _ hmore => hlog.append hmore)
        (fun _ more hmore => ⟨hlog.append hmore.1, hmore.2.1, fun _ => hreaches.append_left more⟩)
        fun _ _ hraised => hraised.append log

/-- An alternation with a candidate accounts for its failure. -/
theorem accounts_alternation {ms : List (Matcher (Bool × List Tree))} (hne : ms ≠ [])
    (hms : ∀ m ∈ ms, Accounts g m) : Accounts g (alternation ms) :=
  fun _ _ hi => .position ((choose_accounts hms hi 0 none).imp (fun _ _ _ => id)
    (fun _ _ hlog => ⟨hlog.1, hlog.2.2 hne⟩) fun _ _ => id)

theorem accounts_breakpoint : Accounts g breakpoint :=
  fun _ _ _ => .breakpoint Log.mirrors_nil

/-- A production that fails has missed what its body has, or its label at its
    start. -/
theorem accounts_production {p : Grammar.Production} {body : Matcher (Bool × List Tree)}
    (h : Accounts g body) : Accounts g (production p body) :=
  fun c i hi => .production ((h { c with stack := p.name :: c.stack } i hi).imp
    (fun _ _ _ => id) (fun _ _ hlog => Log.mirrors_summary hlog.1 hlog.2 p c.purpose)
    fun _ _ hraised => hraised.within)

theorem Accounts.charged {m : Matcher α} (h : Accounts g m) :
    Accounts g (charge >>= fun _ => m) :=
  fun c i hi => .charge (h c i hi)

section Repetition

variable {item separator : Sequence} {least : Nat}

/-- The turns of a repetition are accounted for: one that ends the repetition has
    missed something where it has started. -/
def AccountsTurn (g : Grammar) (m : Matcher (Option (List Tree))) : Prop :=
  ∀ c i, i ≤ c.tokens.size → m.Logs c i
    ⟨fun found j log => (i ≤ j ∧ j ≤ c.tokens.size) ∧ log.Mirrors ∧ (found = none → log.Reaches i),
      fun _ _ => False, fun e log => Raised g c e log⟩

/-- What a turn has to end with: it has missed something where it has started if it
    ends the repetition, and where an item is missing, it is so as `P` says. -/
def turnContract (g : Grammar) (c : Context) (i : Nat) (P : Nat → Prop) : Contract Turn :=
  ⟨fun ending j log => (i ≤ j ∧ j ≤ c.tokens.size) ∧ log.Mirrors ∧
    (ending = .over → log.Reaches i) ∧ (ending = .itemMissing → P j ∧ log.Reaches j),
    fun _ _ => False, fun e log => Raised g c e log⟩

/-- A turn is accounted for by its parts and by who raises the error where an item
    is missing. -/
theorem accountsTurn_of_turn {m : Matcher (Bool × List Tree)}
    {ms : Option (Matcher (Bool × List Tree))} {P : Context → Nat → Nat → Prop}
    (hturn : ∀ c i, i ≤ c.tokens.size → (turn m ms).Logs c i (turnContract g c i (P c i)))
    (hraises : ∀ c σ, (turn m ms c σ).outcome = .matched .itemMissing →
      P c σ.position (turn m ms c σ).state.position →
      Raises g c (turn m ms c σ).state.position (turn m ms c σ).record.log) :
    AccountsTurn g (iteration m ms) := by
  intro c i hi
  refine .iteration ((hturn c i hi).imp (fun ending j log hending => ?_) (fun _ _ => id)
    fun _ _ => id) fun σ hσ hmissing e he => ?_
  · obtain ⟨hbounds, hlog, hover, -⟩ := hending
    match ending with
    | .over => exact ⟨hbounds, hlog, fun _ => hover rfl⟩
    | .itemMissing => trivial
    | .next nodes => exact ⟨hbounds, hlog, nofun⟩
  · obtain ⟨-, -, -, hbehind⟩ := (hturn c i hi).matched hσ hmissing
    obtain ⟨hbehind, hreaches⟩ := hbehind rfl
    exact (hraises c σ hmissing (hσ ▸ hbehind)).raised hreaches he

/-- Without a separator no item is missing. So such a turn raises nothing itself. -/
theorem accountsTurn_bare (hitem : Accounts g (item.matcher (g.matcher depth))) :
    AccountsTurn g (iteration (item.matcher (g.matcher depth)) none) := by
  refine accountsTurn_of_turn (P := fun _ _ _ => False) (fun c i hi => ?_) fun _ _ _ => False.elim
  have hone := (hitem c i hi).and_ensures
    (realizes_sequenceMatcher g c.tokens depth item c i rfl hi)
  refine .turn_bare (hone.imp (fun x j log hx nodes => ?_) (fun j log hnone => ?_) fun _ _ => id)
  · exact ⟨⟨hx.1.start_le_stop, hx.1.stop_le_size hi⟩, hx.2, nofun, nofun⟩
  · obtain ⟨rfl, hlog, hreaches⟩ := hnone
    exact ⟨⟨Nat.le_refl j, hi⟩, hlog, fun _ => hreaches, nofun⟩

/-- With a separator, the turn that misses its item raises the error itself. The
    separator is a derivation up to the place where the item fails. -/
theorem accountsTurn_separated (hu : .repetition item (some separator) least ∈ g.parts)
    (hitem : Accounts g (item.matcher (g.matcher depth)))
    (hseparator : Accounts g (separator.matcher (g.matcher depth))) :
    AccountsTurn g (iteration (item.matcher (g.matcher depth))
      (some (separator.matcher (g.matcher depth)))) := by
  refine accountsTurn_of_turn (P := fun c i j => MissingAt g depth c item separator i j)
    (fun c i hi => ?_) fun _ _ hmissing hbehind => .item hu rfl hmissing hbehind
  have hfront := (hseparator c i hi).and_ensures
    (realizes_sequenceMatcher g c.tokens depth separator c i rfl hi)
  refine .turn_separated (hfront.imp (fun x j log hx => ?_) (fun j log hnone => ?_) fun _ _ => id)
  · obtain ⟨hx, hlog⟩ := hx
    have hj := hx.stop_le_size hi
    have hone := ((hitem c j hj).and_fails).and_ensures
      (realizes_sequenceMatcher g c.tokens depth item c j rfl hj)
    refine hone.imp (fun y k more hy nodes => ?_) (fun k more hnone => ?_)
      fun _ _ hraised => hraised.append log
    · refine ⟨⟨?_, hy.1.stop_le_size hj⟩, hlog.append hy.2, nofun, nofun⟩
      exact Nat.le_trans hx.start_le_stop hy.1.start_le_stop
    · obtain ⟨rfl, hfails, hmore, hreaches⟩ := hnone
      refine ⟨⟨hx.start_le_stop, hj⟩, hlog.append hmore, nofun, fun _ => ?_⟩
      exact ⟨⟨x.2, hx, hfails⟩, hreaches.append_right log⟩
  · obtain ⟨rfl, hlog, hreaches⟩ := hnone
    exact ⟨⟨Nat.le_refl j, hi⟩, hlog, fun _ => hreaches, nofun⟩

/-- What all turns of a repetition have to end with: if items are needed, the turns
    end where something is missed. -/
def turnsContract (g : Grammar) (c : Context) (needed : Prop) (i : Nat) :
    Contract (Nat × List Tree) :=
  ⟨fun _ _ log => log.Mirrors ∧ (needed → log.Reaches i), fun _ _ => False,
    fun e log => Raised g c e log⟩

/-- A repetition with too few items has missed something, if its turns get past a
    token. -/
theorem accounts_repetition {m : Matcher (Bool × List Tree)}
    {ms : Option (Matcher (Bool × List Tree))}
    (hturns : ∀ first : Bool, AccountsTurn g (iteration m (if first then none else ms)))
    (hadvances : 0 < least → ∀ tokens, Advances tokens m ms) :
    Accounts g (repetition m ms least) := by
  intro c i hi
  have hall : Logs c i (iterate m ms true) (turnsContract g c (0 < least) i) := by
    refine .iterate (· ≤ c.tokens.size) (turnsContract g c (0 < least)) (fun first i hi => ?_)
      true hi
    have hgain : (iteration m (if first then none else ms)).Ensures c i
        (fun found j => 0 < least → found ≠ none → i < j) (fun _ => True) := by
      by_cases hneeded : 0 < least
      · exact (hadvances hneeded c.tokens first c i rfl hi).imp (fun _ _ hlt _ => hlt) fun _ => id
      · exact Ensures.any.imp (fun _ _ _ h => absurd h hneeded) fun _ => id
    have hone := (hturns first c i hi).and_ensures hgain
    refine hone.imp (fun found j log hfound => ?_) (fun _ _ hfailed => hfailed.2) fun _ _ => id
    obtain ⟨hmoves, ⟨hle, hj⟩, hlog, hends⟩ := hfound
    match found with
    | none => exact ⟨hlog, fun _ => hends rfl⟩
    | some nodes =>
      refine ⟨fun _ => ⟨hj, ?_⟩, fun hstays => ⟨hlog, fun hneeded => ?_⟩⟩
      · refine ⟨fun _ _ more hmore => ?_, fun _ _ => False.elim, fun _ _ hraised => ?_⟩
        · exact ⟨hlog.append hmore.1,
            fun hneeded => ((hmore.2 hneeded).mono hle).append_right log⟩
        · exact hraised.append log
      · have hlt := hmoves hneeded nofun
        omega
  refine .repetition (hall.imp (fun x j log hx => ?_) (fun _ _ => id) fun _ _ => id)
  split
  · exact ⟨hx.1, hx.2 (by omega)⟩
  · exact fun _ => hx.1

end Repetition

end Matcher

namespace Grammar

open Matcher (Accounts)

variable {g : Grammar} {depth : Nat}

/-- Items that cover a token make the turns of a repetition advance. A separator may
    be empty, but it does not go back. -/
theorem Sequence.Covers.advances {item : Sequence} (hcovers : item.Covers (g.matcher depth))
    (separator : Option Sequence) (tokens : Array Token) :
    Matcher.Advances tokens (item.matcher (g.matcher depth))
      (separator.map (·.matcher (g.matcher depth))) := by
  have hbounded (s : Sequence) (low : Nat) :
      Matcher.Bounded tokens low (fun _ => True) (s.matcher (g.matcher depth)) :=
    ((Discipline.bounds tokens low).fold fun name =>
      (Discipline.bounds tokens low).keeps_matcher (fun _ _ => trivial) depth name).ofSequence s
        fun _ _ => trivial
  refine Matcher.advances_of_items (hcovers.past (hbounded item)) fun m hm => ?_
  obtain ⟨s, -, rfl⟩ := Option.map_eq_some_iff.mp hm
  exact forward_of_bounded (hbounded s)

mutual

/-- Parts of a table whose failures leave a miss behind account for what they miss,
    if the productions do. The recursion is that of the matchers, with all parts
    known to be in the table. -/
theorem Term.accounts (hfit : ∀ u ∈ g.parts, u.Fit (g.matcher depth))
    (hcall : ∀ name, Accounts g (g.matcher depth name)) :
    ∀ t : Term, (∀ u ∈ t.parts, u ∈ g.parts) → Accounts g (t.matcher (g.matcher depth))
  | .leaf l, h => by
    obtain ⟨hexpects, homits⟩ := hfit _ (h _ (List.mem_singleton_self _))
    exact (Matcher.accounts_leaf hexpects homits).charged
  | .production name, _ => by
    intro c i hi
    refine .charge (.bind ((hcall name c i hi).imp (fun tree j log hlog => .pure ?_)
      (fun _ _ => id) fun _ _ => id))
    simpa using hlog
  | .optional body, h => by
    have hself := h _ (Term.mem_parts_self _)
    have hbody := body.accounts hfit hcall (mem_sequences hself (List.mem_singleton_self _))
      fun u hu => h u (List.mem_cons_of_mem _ hu)
    exact (Matcher.accounts_optional hbody).charged
  | .alternation candidates, h => by
    have hself := h _ (Term.mem_parts_self _)
    have hne : candidateMatchers (g.matcher depth) candidates ≠ [] := by
      cases candidates with
      | nil => exact absurd rfl (hfit _ hself)
      | cons => nofun
    have hcandidates := accounts_of_mem_candidates hfit hcall candidates
      (fun s hs => mem_sequences hself hs) fun u hu => h u (List.mem_cons_of_mem _ hu)
    exact (Matcher.accounts_alternation hne (forall_candidateMatchers hcandidates)).charged
  | .repetition item none least, h => by
    have hself := h _ (Term.mem_parts_self _)
    have hcovers : 0 < least → item.Covers (g.matcher depth) := hfit _ hself
    have hitem := item.accounts hfit hcall (mem_sequences hself List.mem_cons_self)
      fun u hu => h u (List.mem_cons_of_mem _ hu)
    refine (Matcher.accounts_repetition (fun first => ?_)
      fun hneeded => (hcovers hneeded).advances none).charged
    cases first <;> exact Matcher.accountsTurn_bare hitem
  | .repetition item (some separator) least, h => by
    have hself := h _ (Term.mem_parts_self _)
    have hcovers : 0 < least → item.Covers (g.matcher depth) := hfit _ hself
    have hitem := item.accounts hfit hcall (mem_sequences hself List.mem_cons_self)
      fun u hu => h u (List.mem_cons_of_mem _ (List.mem_append_left _ hu))
    have hseparator := separator.accounts hfit hcall
      (mem_sequences hself (List.mem_cons_of_mem _ (List.mem_singleton_self _)))
      fun u hu => h u (List.mem_cons_of_mem _ (List.mem_append_right _ hu))
    refine (Matcher.accounts_repetition (fun first => ?_)
      fun hneeded => (hcovers hneeded).advances (some separator)).charged
    cases first with
    | true => exact Matcher.accountsTurn_bare hitem
    | false => exact Matcher.accountsTurn_separated hself hitem hseparator
  | .breakpoint, _ => Matcher.accounts_breakpoint.charged

/-- The same for a sequence of the table. -/
theorem Sequence.accounts (hfit : ∀ u ∈ g.parts, u.Fit (g.matcher depth))
    (hcall : ∀ name, Accounts g (g.matcher depth name)) :
    ∀ s : Sequence, s ∈ g.sequences → (∀ u ∈ s.parts, u ∈ g.parts) →
      Accounts g (s.matcher (g.matcher depth))
  | ⟨terms, _⟩, hs, h => Matcher.accounts_sequence hs (accounts_of_mem_terms hfit hcall terms h)

/-- The same for the terms of a sequence. Each of them is a part of the table. -/
theorem accounts_of_mem_terms (hfit : ∀ u ∈ g.parts, u.Fit (g.matcher depth))
    (hcall : ∀ name, Accounts g (g.matcher depth name)) :
    ∀ ts : List Term, (∀ u ∈ termParts ts, u ∈ g.parts) →
      ∀ t ∈ ts, Accounts g (t.matcher (g.matcher depth))
  | [], _ => nofun
  | t :: ts, h => List.forall_mem_cons.mpr
    ⟨t.accounts hfit hcall fun u hu => h u (List.mem_append_left _ hu),
      accounts_of_mem_terms hfit hcall ts fun u hu => h u (List.mem_append_right _ hu)⟩

/-- The same for the candidates of an alternation. Each of them is a sequence of the
    table, which may raise an error itself. -/
theorem accounts_of_mem_candidates (hfit : ∀ u ∈ g.parts, u.Fit (g.matcher depth))
    (hcall : ∀ name, Accounts g (g.matcher depth name)) :
    ∀ cs : List Sequence, (∀ s ∈ cs, s ∈ g.sequences) → (∀ u ∈ candidateParts cs, u ∈ g.parts) →
      ∀ s ∈ cs, Accounts g (s.matcher (g.matcher depth))
  | [], _, _ => nofun
  | c :: cs, hcs, h => by
    obtain ⟨hc, hcs⟩ := List.forall_mem_cons.mp hcs
    exact List.forall_mem_cons.mpr
      ⟨c.accounts hfit hcall hc fun u hu => h u (List.mem_append_left _ hu),
        accounts_of_mem_candidates hfit hcall cs hcs fun u hu => h u (List.mem_append_right _ hu)⟩

end

/-- A table whose failures leave a miss behind accounts for what it misses. So every
    input error of a run says who has raised it, and lies no nearer than the part
    that failed. -/
theorem accounts_matcher (hfit : ∀ depth, ∀ u ∈ g.parts, u.Fit (g.matcher depth)) (depth : Nat)
    (name : String) : Accounts g (g.matcher depth name) := by
  induction depth generalizing name with
  | zero =>
    rw [matcher]
    cases g.find? name <;> exact fun _ _ _ _ _ => trivial
  | succ depth ih =>
    rw [matcher]
    cases hfind : g.find? name with
    | none => exact fun _ _ _ _ _ => trivial
    | some p =>
      have hbody := p.body.accounts (hfit depth) ih (body_mem_sequences hfind)
        fun u hu => mem_parts_of_find? hfind hu
      exact Matcher.accounts_production hbody

end Grammar

end SqlStatement

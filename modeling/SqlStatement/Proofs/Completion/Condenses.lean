import SqlStatement.Proofs.Completion.Exact
import SqlStatement.Proofs.Match.Ensures

namespace SqlStatement

/-- The misses `short` get as far as the misses `full`, and each of them is one of
    these or has a label for its expectation. Reading may put the label of a
    production in the place of several expectations, where completing writes every
    one of them down. -/
structure Miss.Condenses (labels : List Expectation) (short full : List Miss) : Prop where
  reaches : ∀ n, (∃ miss ∈ short, n ≤ miss.position) ↔ ∃ miss ∈ full, n ≤ miss.position
  known : ∀ miss ∈ short, miss ∈ full ∨ miss.expected ∈ labels

/-- The same error but for what was expected, which is part of what the other error
    says or a label. -/
structure InputError.Condenses (labels : List Expectation) (short full : InputError) : Prop where
  position_eq : short.position = full.position
  found_eq : short.found = full.found
  known : ∀ e ∈ short.expected, e ∈ full.expected ∨ e ∈ labels
  expected_ne_nil : full.expected ≠ []

/-- The same error, with expectations in short if it is an input error. -/
def ParseError.Condenses (labels : List Expectation) : ParseError → ParseError → Prop
  | .input short, .input full => short.Condenses labels full
  | short, full => short = full

/-- The same ending, with an error in short. -/
def Outcome.Condenses {α : Type} (labels : List Expectation) : Outcome α → Outcome α → Prop
  | .matched a, .matched b => a = b
  | .failed, .failed => True
  | .aborted short, .aborted full => short.Condenses labels full
  | _, _ => False

/-- Two runs that end alike in the same state. -/
structure Result.Condenses {α : Type} (labels : List Expectation) (short full : Result α) :
    Prop where
  outcome : short.outcome.Condenses labels full.outcome
  state : short.state = full.state
  misses : Miss.Condenses labels short.record.misses.toList full.record.misses.toList

namespace Miss.Condenses

variable {labels : List Expectation} {short full short' full' : List Miss}

theorem refl (labels : List Expectation) (misses : List Miss) : Condenses labels misses misses :=
  ⟨fun _ => Iff.rfl, fun _ h => .inl h⟩

/-- Two lots of misses that condense two others do so together. How far the misses
    get and where each of them is known from can be said of the two lots one after
    the other. -/
theorem append (h : Condenses labels short full) (h' : Condenses labels short' full') :
    Condenses labels (short ++ short') (full ++ full') where
  reaches n := by
    simp only [List.mem_append, or_and_right, exists_or]
    rw [h.reaches, h'.reaches]
  known miss hmiss := by
    rcases List.mem_append.mp hmiss with hold | hnew
    · rcases h.known miss hold with hfull | hlabel
      · exact .inl (List.mem_append_left _ hfull)
      · exact .inr hlabel
    · rcases h'.known miss hnew with hfull | hlabel
      · exact .inl (List.mem_append_right _ hfull)
      · exact .inr hlabel

/-- The furthest miss is at the same place in both, which is where an error points.
    Each of the two lists gets as far as the other, in particular as far as the
    furthest miss there. -/
theorem furthest_eq (h : Condenses labels short full) : furthest short = furthest full := by
  cases hshort : furthest short with
  | none =>
    have hnil : short = [] := by simpa [furthest] using hshort
    have hempty : full = [] := by
      by_contra hne
      obtain ⟨miss, hmiss⟩ := List.exists_mem_of_ne_nil full hne
      obtain ⟨other, hother, -⟩ := (h.reaches 0).mpr ⟨miss, hmiss, Nat.zero_le _⟩
      rw [hnil] at hother
      cases hother
    rw [hempty]
    rfl
  | some last =>
    obtain ⟨hlast, hle⟩ := List.max?_eq_some_iff.mp hshort
    obtain ⟨miss, hmiss, rfl⟩ := List.mem_map.mp hlast
    have hbound (other : Miss) (hother : other ∈ full) : other.position ≤ miss.position := by
      obtain ⟨next, hnext, hfar⟩ := (h.reaches other.position).mpr ⟨other, hother, Nat.le_refl _⟩
      have hnear := hle _ (List.mem_map_of_mem hnext)
      omega
    obtain ⟨other, hother, hfar⟩ := (h.reaches miss.position).mp ⟨miss, hmiss, Nat.le_refl _⟩
    have hsame : other.position = miss.position := by
      have hnear := hbound other hother
      omega
    symm
    apply List.max?_eq_some_iff.mpr
    constructor
    · exact hsame ▸ List.mem_map_of_mem hother
    · intro position hposition
      obtain ⟨next, hnext, rfl⟩ := List.mem_map.mp hposition
      exact hbound next hnext

/-- A label at the first token condenses misses that do not get past it, as long as
    there are some. -/
theorem label {start : Nat} {text : String} (h : Condenses labels short full)
    (hlabel : .label text ∈ labels) (hstay : ∀ miss ∈ short, miss.position ≤ start)
    (hne : full ≠ []) (hfrom : ∀ miss ∈ full, start ≤ miss.position) :
    Condenses labels [⟨start, .label text⟩] full where
  reaches n := by
    constructor
    · rintro ⟨miss, hmiss, hn⟩
      cases List.mem_singleton.mp hmiss
      obtain ⟨first, hfirst⟩ := List.exists_mem_of_ne_nil full hne
      exact ⟨first, hfirst, Nat.le_trans hn (hfrom first hfirst)⟩
    · intro hfar
      obtain ⟨miss, hmiss, hn⟩ := (h.reaches n).mpr hfar
      exact ⟨_, List.mem_singleton_self _, Nat.le_trans hn (hstay miss hmiss)⟩
  known miss hmiss := by
    cases List.mem_singleton.mp hmiss
    exact .inr hlabel

/-- A failed production that is read condenses what it has missed if it were
    completed. -/
theorem summary {p : Grammar.Production} {start : Nat} (h : Condenses labels short full)
    (hlabel : ∀ text ∈ p.label, .label text ∈ labels) (hne : full ≠ [])
    (hfrom : ∀ miss ∈ full, start ≤ miss.position) :
    Condenses labels (p.summary .reading start short) full := by
  unfold Grammar.Production.summary
  split
  · next text htext =>
    split
    · next hstay =>
      have hstay : ∀ miss ∈ short, miss.position ≤ start := by simpa using hstay
      exact h.label (hlabel text htext) hstay hne hfrom
    · exact h
  · exact h

end Miss.Condenses

theorem Miss.furthest_eq_some {misses : List Miss} (hne : misses ≠ []) :
    ∃ miss ∈ misses, Miss.furthest misses = some miss.position := by
  cases hmax : Miss.furthest misses with
  | none =>
    have hnil : misses = [] := by simpa [Miss.furthest] using hmax
    exact absurd hnil hne
  | some last =>
    obtain ⟨hlast, -⟩ := List.max?_eq_some_iff.mp hmax
    obtain ⟨miss, hmiss, rfl⟩ := List.mem_map.mp hlast
    exact ⟨miss, hmiss, rfl⟩

/-- Blame for misses condenses blame for the misses that they condense. The place
    and what is found there are the same, and what is expected there condenses as
    the misses do. -/
theorem InputError.Condenses.ofMisses {labels : List Expectation} {short full : List Miss}
    (tokens : Array Token) (current : Nat) (h : Miss.Condenses labels short full)
    (hne : full ≠ []) :
    (InputError.ofMisses tokens current short).Condenses labels
      (InputError.ofMisses tokens current full) := by
  have hfurthest := h.furthest_eq
  unfold InputError.ofMisses
  rw [hfurthest]
  refine ⟨rfl, rfl, fun e he => ?_, ?_⟩
  · have hmem := Miss.mem_expectedAt.mp he
    rcases h.known _ hmem with hfull | hlabel
    · exact .inl (Miss.mem_expectedAt.mpr hfull)
    · exact .inr hlabel
  · obtain ⟨miss, hmiss, hlast⟩ := Miss.furthest_eq_some hne
    rw [hlast]
    exact List.ne_nil_of_mem (Miss.mem_expectedAt.mpr hmiss)

namespace Outcome.Condenses

variable {α β : Type} {labels : List Expectation} {short full : Outcome α}

/-- A match in full is the same match in short. -/
theorem matched {a : α} (h : short.Condenses labels full) (hfull : full = .matched a) :
    short = .matched a := by
  cases short <;> simp_all [Condenses]

theorem matched_iff {a : α} (h : short.Condenses labels full) :
    short = .matched a ↔ full = .matched a := by
  cases short <;> cases full <;> simp_all [Condenses]

theorem failed (h : short.Condenses labels full) (hfull : full = .failed) : short = .failed := by
  cases short <;> simp_all [Condenses]

/-- An abort in full is one in short, with an error that condenses the other. -/
theorem aborted {e : ParseError} (h : short.Condenses labels full) (hfull : full = .aborted e) :
    ∃ e', short = .aborted e' ∧ e'.Condenses labels e := by
  cases short <;> simp_all [Condenses]

theorem attempted (h : short.Condenses labels full) :
    short.attempted.Condenses labels full.attempted := by
  cases short <;> cases full <;> simp_all [Condenses, Outcome.attempted]

theorem map (f : α → β) (h : short.Condenses labels full) :
    (short.map f).Condenses labels (full.map f) := by
  cases short <;> cases full <;> simp_all [Condenses, Outcome.map]

end Outcome.Condenses

/-- With another value on both sides, two runs condense as before. -/
theorem Result.Condenses.map {α β : Type} {labels : List Expectation} {short full : Result α}
    (f : α → β) (h : short.Condenses labels full) :
    (⟨short.outcome.map f, short.state, short.record⟩ : Result β).Condenses labels
      ⟨full.outcome.map f, full.state, full.record⟩ :=
  ⟨h.outcome.map f, h.state, h.misses⟩

/-- Two runs one behind the other condense what each of them condenses. The ending
    and the state are those of the second one, and the misses are those of both. -/
theorem Result.Condenses.append {α β : Type} {labels : List Expectation} {short full : Result α}
    {short' full' : Result β} (h : short.Condenses labels full)
    (h' : short'.Condenses labels full') :
    (⟨short'.outcome, short'.state, short.record ++ short'.record⟩ : Result β).Condenses labels
      ⟨full'.outcome, full'.state, full.record ++ full'.record⟩ where
  outcome := h'.outcome
  state := h'.state
  misses := by
    simp only [Record.misses_append]
    exact h.misses.append h'.misses

/-- Two such runs of which the second one matches a value only as `post` says, given
    where it stops and what it has missed, and fails only as `fallback` says. -/
structure Result.CondensesTo {α : Type} (labels : List Expectation) (high : Nat)
    (post : α → Nat → List Miss → Prop) (fallback : Nat → List Miss → Prop)
    (short full : Result α) : Prop where
  condenses : short.Condenses labels full
  le_high : full.state.position ≤ high
  meets : full.outcome.Meets (fun a => post a full.state.position full.record.misses.toList)
    (fallback full.state.position full.record.misses.toList)

/-- From `start` over the tokens `m` reads in short what `m'` completes in full,
    with an end as said. As `Ensures` does, it says how the second run ends, and
    also what it has missed. -/
def Matcher.Condenses {α : Type} (labels : List Expectation) (tokens : Array Token) (start : Nat)
    (m m' : Matcher α) (post : α → Nat → List Miss → Prop) (fallback : Nat → List Miss → Prop) :
    Prop :=
  start ≤ tokens.size → ∀ stack s, s.position = start →
    (m ⟨tokens, .reading, stack⟩ s).CondensesTo labels tokens.size post fallback
      (m' ⟨tokens, .completing, stack⟩ s)

namespace Matcher.Condenses

variable {α β : Type} {labels : List Expectation} {tokens : Array Token} {start : Nat}
  {m m' : Matcher α} {post : α → Nat → List Miss → Prop} {fallback : Nat → List Miss → Prop}

/-- What is known of a value may draw on the run that has matched it. It is a run of
    the matcher in full, under any open productions, so that what is known of its
    matches can be used. -/
theorem imp {post' : α → Nat → List Miss → Prop} {fallback' : Nat → List Miss → Prop}
    (h : Condenses labels tokens start m m' post fallback)
    (hpost : ∀ a stop misses, stop ≤ tokens.size → post a stop misses →
      (∃ stack s, s.position = start ∧ (m' ⟨tokens, .completing, stack⟩ s).outcome = .matched a ∧
        (m' ⟨tokens, .completing, stack⟩ s).state.position = stop) → post' a stop misses)
    (hfallback : ∀ stop misses, fallback stop misses → fallback' stop misses) :
    Condenses labels tokens start m m' post' fallback' := by
  intro hstart stack s hs
  obtain ⟨hresult, hstop, hmeets⟩ := h hstart stack s hs
  refine ⟨hresult, hstop, ?_⟩
  cases hfull : (m' ⟨tokens, .completing, stack⟩ s).outcome with
  | matched a =>
    rw [hfull] at hmeets
    exact hpost a _ _ hstop hmeets ⟨stack, s, hs, hfull, rfl⟩
  | failed =>
    rw [hfull] at hmeets
    exact hfallback _ _ hmeets
  | aborted => trivial

theorem pure {a : α} (hpost : post a start []) :
    Condenses labels tokens start (Pure.pure a) (Pure.pure a) post fallback := by
  rintro hstart stack s rfl
  exact ⟨⟨rfl, rfl, .refl _ _⟩, hstart, hpost⟩

theorem fail (hfallback : fallback start []) :
    Condenses labels tokens start .fail .fail post fallback := by
  rintro hstart stack s rfl
  exact ⟨⟨trivial, rfl, .refl _ _⟩, hstart, hfallback⟩

theorem abort {e : ParseError} (he : e.Condenses labels e) :
    Condenses labels tokens start (.abort e) (.abort e) post fallback := by
  rintro hstart stack s rfl
  exact ⟨⟨he, rfl, .refl _ _⟩, hstart, trivial⟩

/-- The rest starts where the first part has stopped in both runs, and is told what
    was missed until then. -/
theorem bind {f f' : α → Matcher β} {post : β → Nat → List Miss → Prop}
    (h : Condenses labels tokens start m m'
      (fun a stop misses => Condenses labels tokens stop (f a) (f' a)
        (fun b stop' more => post b stop' (misses ++ more))
        (fun stop' more => fallback stop' (misses ++ more))) fallback) :
    Condenses labels tokens start (m >>= f) (m' >>= f') post fallback := by
  intro hstart stack s hs
  obtain ⟨hresult, hstop, hmeets⟩ := h hstart stack s hs
  cases hfull : (m' ⟨tokens, .completing, stack⟩ s).outcome with
  | matched a =>
    have hshort := hresult.outcome.matched hfull
    rw [hfull] at hmeets
    obtain ⟨hresult', hstop', hmeets'⟩ := hmeets hstop stack _ rfl
    rw [run_bind_matched hshort, run_bind_matched hfull, hresult.state]
    refine ⟨hresult.append hresult', hstop', ?_⟩
    rw [Record.misses_append]
    exact hmeets'
  | failed =>
    have hshort := hresult.outcome.failed hfull
    rw [hfull] at hmeets
    rw [run_bind_failed hshort, run_bind_failed hfull]
    exact ⟨⟨trivial, hresult.state, hresult.misses⟩, hstop, hmeets⟩
  | aborted e =>
    obtain ⟨e', hshort, he⟩ := hresult.outcome.aborted hfull
    rw [run_bind_aborted hshort, run_bind_aborted hfull]
    exact ⟨⟨he, hresult.state, hresult.misses⟩, hstop, trivial⟩

/-- A failure satisfies what is said of the value `none`. The attempt itself does
    not fail, so nothing has to be shown of `fallback`. -/
theorem attempt {post : Option α → Nat → List Miss → Prop}
    (h : Condenses labels tokens start m m' (fun a => post (some a)) (post none)) :
    Condenses labels tokens start m.attempt m'.attempt post fallback := by
  intro hstart stack s hs
  obtain ⟨hresult, hstop, hmeets⟩ := h hstart stack s hs
  simp only [run_attempt]
  refine ⟨⟨hresult.outcome.attempted, hresult.state, hresult.misses⟩, hstop, ?_⟩
  cases hfull : (m' ⟨tokens, .completing, stack⟩ s).outcome with
  | matched a =>
    rw [hfull] at hmeets
    exact hmeets
  | failed =>
    rw [hfull] at hmeets
    exact hmeets
  | aborted => trivial

/-- Blame is only laid where something was missed. Otherwise the two errors could
    have different places. -/
theorem judge {verdict : α → Option (Matcher β)} {post : β → Nat → List Miss → Prop}
    (h : Condenses labels tokens start m m'
      (fun a stop misses => match verdict a with
        | some next => Condenses labels tokens stop next next
            (fun b stop' more => post b stop' (misses ++ more))
            (fun stop' more => fallback stop' (misses ++ more))
        | none => misses ≠ []) fallback) :
    Condenses labels tokens start
      (m.listen >>= fun x => ((verdict x.1).getD (blame x.2) : Matcher β))
      (m'.listen >>= fun x => ((verdict x.1).getD (blame x.2) : Matcher β)) post fallback := by
  intro hstart stack s hs
  obtain ⟨hresult, hstop, hmeets⟩ := h hstart stack s hs
  generalize hrun : m ⟨tokens, .reading, stack⟩ s = short at hresult
  generalize hrun' : m' ⟨tokens, .completing, stack⟩ s = full at hresult hstop hmeets
  have hheard : m.listen ⟨tokens, .reading, stack⟩ s =
      ⟨short.outcome.map fun a => (a, short.record.misses), short.state, short.record⟩ := by
    rw [run_listen, hrun]
  have hheard' : m'.listen ⟨tokens, .completing, stack⟩ s =
      ⟨full.outcome.map fun a => (a, full.record.misses), full.state, full.record⟩ := by
    rw [run_listen, hrun']
  cases hfull : full.outcome with
  | matched a =>
    have hshort := hresult.outcome.matched hfull
    rw [hfull] at hmeets
    rw [run_bind_matched (a := (a, short.record.misses)) (by rw [hheard, hshort]; rfl),
      run_bind_matched (a := (a, full.record.misses)) (by rw [hheard', hfull]; rfl),
      hheard, hheard', hresult.state]
    dsimp only
    cases hverdict : verdict a with
    | some next =>
      simp only [Outcome.Meets, hverdict] at hmeets
      obtain ⟨hresult', hstop', hmeets'⟩ := hmeets hstop stack _ rfl
      refine ⟨hresult.append hresult', hstop', ?_⟩
      rw [Record.misses_append]
      exact hmeets'
    | none =>
      simp only [Outcome.Meets, hverdict] at hmeets
      have hblame := InputError.Condenses.ofMisses tokens full.state.position hresult.misses hmeets
      have hlaid : (blame short.record.misses ⟨tokens, .reading, stack⟩ full.state :
          Result β).Condenses labels (blame full.record.misses ⟨tokens, .completing, stack⟩
            full.state) := ⟨hblame, rfl, .refl _ _⟩
      exact ⟨hresult.append hlaid, hstop, trivial⟩
  | failed =>
    have hshort := hresult.outcome.failed hfull
    rw [hfull] at hmeets
    rw [run_bind_failed (by rw [hheard, hshort]; rfl),
      run_bind_failed (by rw [hheard', hfull]; rfl), hheard, hheard']
    exact ⟨⟨trivial, hresult.state, hresult.misses⟩, hstop, hmeets⟩
  | aborted e =>
    obtain ⟨e', hshort, he⟩ := hresult.outcome.aborted hfull
    rw [run_bind_aborted (by rw [hheard, hshort]; rfl),
      run_bind_aborted (by rw [hheard', hfull]; rfl), hheard, hheard']
    exact ⟨⟨he, hresult.state, hresult.misses⟩, hstop, trivial⟩

/-- Both runs are at the same place, and it is inside the input. -/
theorem position {post : Nat → Nat → List Miss → Prop}
    (hpost : start ≤ tokens.size → post start start []) :
    Condenses labels tokens start Matcher.position Matcher.position post fallback := by
  rintro hstart stack s rfl
  exact ⟨⟨rfl, rfl, .refl _ _⟩, hstart, hpost hstart⟩

section Step

variable {post : Unit → Nat → List Miss → Prop}

theorem seek {target : Nat} (htarget : target ≤ tokens.size) (hpost : post () target []) :
    Condenses labels tokens start (.seek target) (.seek target) post fallback :=
  fun _ _ _ _ => ⟨⟨rfl, rfl, .refl _ _⟩, htarget, hpost⟩

theorem report {e : Event} (hpost : post () start []) :
    Condenses labels tokens start (.report e) (.report e) post fallback := by
  rintro hstart stack s rfl
  exact ⟨⟨rfl, rfl, .refl _ _⟩, hstart, hpost⟩

theorem charge (hpost : post () start []) :
    Condenses labels tokens start Matcher.charge Matcher.charge post fallback := by
  rintro hstart stack ⟨place, fuel, patience⟩ rfl
  cases fuel with
  | zero => exact ⟨⟨rfl, rfl, .refl _ _⟩, hstart, trivial⟩
  | succ fuel => exact ⟨⟨rfl, rfl, .refl _ _⟩, hstart, hpost⟩

theorem checkPatience (hpost : post () start []) :
    Condenses labels tokens start Matcher.checkPatience Matcher.checkPatience post fallback := by
  rintro hstart stack s rfl
  unfold Matcher.checkPatience
  split
  · exact ⟨⟨rfl, rfl, .refl _ _⟩, hstart, trivial⟩
  · exact ⟨⟨rfl, rfl, .refl _ _⟩, hstart, hpost⟩

theorem backtrack {target : Nat} (htarget : target ≤ tokens.size) (hpost : post () target []) :
    Condenses labels tokens start (.backtrack target) (.backtrack target) post fallback := by
  refine bind (position fun _ => ?_)
  by_cases hthere : start = target
  · subst hthere
    simpa using pure hpost
  · have haway : (start != target) = true := by simpa using hthere
    rw [if_pos haway]
    exact bind (report (seek htarget hpost))

end Step

/-- Both runs have the same nodes. Where they start and how far they go is the same
    in both, and nothing is missed. -/
theorem wrap {label : Tree.Label} {first : Nat} {children : List Tree}
    {post : List Tree → Nat → List Miss → Prop} (hpost : ∀ nodes, post nodes start []) :
    Condenses labels tokens start (.wrap label first children) (.wrap label first children) post
      fallback :=
  bind (position fun _ => pure (hpost _))

/-- Both runs commit at the same time, since they consume the same tokens. Nothing
    is missed in that step, so `post` is asked for without any misses. -/
theorem commitAt {threshold earned : Nat} {committed : Bool} {post : Bool → Nat → List Miss → Prop}
    (hpost : ∀ committed, post committed start []) :
    Condenses labels tokens start (.commitAt threshold earned committed)
      (.commitAt threshold earned committed) post fallback := by
  unfold Matcher.commitAt
  split
  · exact bind (position fun _ => bind (report (pure (hpost true))))
  · exact pure (hpost committed)

/-- Trying a candidate looks at the open productions, which are the same in both
    runs. -/
theorem candidate (branch first : Nat) (h : Condenses labels tokens start m m' post fallback) :
    Condenses labels tokens start
      (Matcher.context >>= fun c =>
        Matcher.report (.candidate (c.stack.head?.getD "") branch first) >>= fun _ => m)
      (Matcher.context >>= fun c =>
        Matcher.report (.candidate (c.stack.head?.getD "") branch first) >>= fun _ => m')
      post fallback := by
  intro hstart stack s hs
  have hreport : Condenses labels tokens start
      (Matcher.report (.candidate (stack.head?.getD "") branch first) >>= fun _ => m)
      (Matcher.report (.candidate (stack.head?.getD "") branch first) >>= fun _ => m')
      post fallback := bind (report h)
  obtain ⟨hresult, hstop, hmeets⟩ := hreport hstart stack s hs
  have hlook : (⟨.matched stack, s, .empty⟩ : Result (List String)).Condenses labels
      ⟨.matched stack, s, .empty⟩ := ⟨rfl, rfl, .refl _ _⟩
  exact ⟨hlook.append hresult, hstop, hmeets⟩

/-- A leaf with expectations of its own fails with some of them missed, in both runs
    the same ones. -/
theorem leaf {l : Grammar.Leaf} (hexpects : l.expectations ≠ []) (homits : l.omitsEnd = true) :
    Condenses labels tokens start (.leaf l) (.leaf l) (fun _ _ _ => True)
      (fun _ misses => misses ≠ []) := by
  rintro hstart stack s rfl
  by_cases haccept : ∃ t, tokens[s.position]? = some t ∧ l.accepts t = true
  · obtain ⟨t, htoken, hl⟩ := haccept
    have hrun (purpose : Purpose) :=
      run_leaf_accepts (c := ⟨tokens, purpose, stack⟩) htoken hl
    obtain ⟨houtcome, hstate, hmisses, -⟩ := hrun .reading
    obtain ⟨houtcome', hstate', hmisses', -⟩ := hrun .completing
    have hbound := (Array.getElem?_eq_some_iff.mp htoken).1
    refine ⟨⟨?_, ?_, ?_⟩, ?_, ?_⟩
    · rw [houtcome, houtcome']
      rfl
    · rw [hstate, hstate']
    · rw [hmisses, hmisses']
      exact .refl _ _
    · rw [hstate']
      exact hbound
    · rw [houtcome']
      trivial
  · have hl (t : Token) (htoken : tokens[s.position]? = some t) : l.accepts t = false :=
      Bool.eq_false_iff.mpr fun h => haccept ⟨t, htoken, h⟩
    have hrun (purpose : Purpose) := run_leaf_misses (c := ⟨tokens, purpose, stack⟩) hl
    obtain ⟨houtcome, hstate, hmisses, -⟩ := hrun .reading
    obtain ⟨houtcome', hstate', hmisses', -⟩ := hrun .completing
    have hsome := Grammar.Leaf.misses_ne_nil hexpects homits tokens[s.position]?
    refine ⟨⟨?_, ?_, ?_⟩, ?_, ?_⟩
    · rw [houtcome, houtcome']
      trivial
    · rw [hstate, hstate']
    · rw [hmisses, hmisses']
      exact .refl _ _
    · rw [hstate']
      exact hstart
    · rw [houtcome', hmisses']
      simpa [Outcome.Meets] using hsome

end Matcher.Condenses

end SqlStatement

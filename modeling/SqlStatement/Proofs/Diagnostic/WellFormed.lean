import SqlStatement.Proofs.Completion.Agreement
import SqlStatement.Proofs.Match.Raised
import SqlStatement.Proofs.Tree.Tiling

namespace SqlStatement

/-- An error names a token, or the end of the input, and what was expected there:
    something at least, each expectation once, and all of them among the misses. -/
structure InputError.Names (tokens : Array Token) (misses : List Miss) (e : InputError) : Prop where
  position_le : e.position ≤ tokens.size
  found_eq : e.found = tokens[e.position]?.map (·.text)
  found_eq_none : e.found = none ↔ e.position = tokens.size
  expected_ne_nil : e.expected ≠ []
  expected_nodup : e.expected.Nodup
  recorded : ∀ x ∈ e.expected, ⟨e.position, x⟩ ∈ misses

/-- An error that is laid to some misses names the furthest of them and what was
    expected there, each once. -/
theorem InputError.names_ofMisses {tokens : Array Token} {misses : List Miss} (hne : misses ≠ [])
    (hle : ∀ miss ∈ misses, miss.position ≤ tokens.size) (current : Nat) :
    (ofMisses tokens current misses).Names tokens misses := by
  obtain ⟨last, hlast, hfurthest⟩ := Miss.furthest_eq_some hne
  have hposition : (ofMisses tokens current misses).position = last.position := by
    simp [ofMisses, hfurthest]
  have hbound := hle last hlast
  constructor
  · rw [hposition]
    exact hbound
  · rfl
  · rw [hposition]
    simp only [ofMisses, hfurthest, Option.getD_some, Option.map_eq_none_iff]
    rw [Array.getElem?_eq_none_iff]
    omega
  · simp only [ofMisses, hfurthest, Option.getD_some]
    exact List.ne_nil_of_mem (Miss.mem_expectedAt.mpr hlast)
  · exact nodup_eraseDups _
  · exact fun x hx => Miss.mem_expectedAt.mp hx

theorem InputError.Names.mono {tokens : Array Token} {misses more : List Miss} {e : InputError}
    (h : e.Names tokens misses) (hsubset : misses ⊆ more) : e.Names tokens more :=
  { h with recorded := fun x hx => hsubset (h.recorded x hx) }

/-- Who raises an error has missed something by then. The error is made of those
    misses, so it names the furthest place of them and what was expected there. -/
theorem Matcher.Raised.names {g : Grammar} {c : Context} {e : InputError} {log : Log}
    (h : Raised g c e log) (hle : ∀ miss ∈ log.misses, miss.position ≤ c.tokens.size) :
    e.Names c.tokens log.misses := by
  obtain @⟨_, here, own, before, -, hmissed, herror, -⟩ := h
  have hown : own.misses ⊆ (before ++ (own ++ .blamed e.position)).misses := by
    intro miss hmiss
    exact List.mem_append_right _ (List.mem_append_left _ hmiss)
  have hnames := InputError.names_ofMisses hmissed (fun miss hmiss => hle miss (hown hmiss)) here
  rw [← herror] at hnames
  exact hnames.mono hown

namespace Parser

variable {p : Parser} {tokens : Array Token} {e : InputError}

/-- No leaf has failed behind a place. -/
def MissedUpTo (r : Result Tree) (n : Nat) : Prop :=
  ∀ x i, .miss x i ∈ r.record.events.toList → i ≤ n

/-- How a run comes to be blamed, and where the error lies then. -/
inductive Cause (g : Grammar) (tokens : Array Token) (r : Result Tree) (e : InputError) : Prop
  /-- A sequence that has committed, or a repetition without an item behind a
      separator, raises it. It lies where the part that fails has started, or behind
      that. -/
  | raised (houtcome : r.outcome = .aborted (.input e))
      (hraised : Matcher.Raised g ⟨tokens, .reading, []⟩ e r.record.log)
  /-- Something follows a match and the semicolon behind it. -/
  | trailing {tree : Tree} {next : Nat} (houtcome : r.outcome = .matched tree)
      (hnext : trailing? tokens tree = some next) (hplace : next ≤ e.position)
      (hlast : MissedUpTo r e.position)
  /-- There is no match, but no one raises an error. It lies where the last leaf has failed. -/
  | failed (houtcome : r.outcome = .failed)
      (hmissed : ∃ x, .miss x e.position ∈ r.record.events.toList)
      (hlast : MissedUpTo r e.position)

/-- What is written down by the end of a parse: what its run has missed, and that
    the input had to end where something follows a match. -/
def recorded (tokens : Array Token) (r : Result Tree) : List Miss :=
  r.record.misses.toList ++ match r.outcome with
    | .matched tree => (trailing? tokens tree).toList.map (⟨·, .endOfInput⟩)
    | _ => []

/-- What is to be said of an error that a parse reports. -/
structure WellFormed (p : Parser) (tokens : List Token) (e : InputError) : Prop where
  names : e.Names tokens.toArray (recorded tokens.toArray (p.run .reading tokens.toArray))
  cause : Cause p.grammar tokens.toArray (p.run .reading tokens.toArray) e

/-- The run of a parser accounts for what it misses, in an orderly table. How it
    ends says what is known: a failure has missed something from the start on, and
    an abort has its cause in the log. -/
theorem accounts_run (hg : p.grammar.Orderly) (tokens : Array Token) :
    (p.grammar.matcher p.limits.depth p.root).Logs ⟨tokens, .reading, []⟩ 0
      ⟨fun _ _ log => log.Mirrors, fun _ log => log.Mirrors ∧ log.Reaches 0,
        fun e log => Matcher.Raised p.grammar ⟨tokens, .reading, []⟩ e log⟩ :=
  Grammar.accounts_matcher (fun depth _ hu => hg.fit depth hu) p.limits.depth p.root
    ⟨tokens, .reading, []⟩ 0 (Nat.zero_le _)

/-- An error that is laid to all misses of a run lies behind all leaves that have
    failed. -/
theorem missedUpTo_ofMisses {r : Result Tree} (h : r.record.log.Mirrors) {misses : List Miss}
    (hsubset : r.record.misses.toList ⊆ misses) (current : Nat) :
    MissedUpTo r (InputError.ofMisses tokens current misses).position := by
  intro x i hx
  obtain ⟨miss, hmiss, hle⟩ := h.reaches x i (List.mem_filter.mpr ⟨hx, rfl⟩)
  exact InputError.le_position_ofMisses ⟨miss, hsubset hmiss, hle⟩ tokens current

/-- An error that a run is aborted with was raised inside it. So its cause is known,
    whatever the rest of the run would have been. -/
theorem wellFormed_of_aborted {source : List Token} (hg : p.grammar.Orderly)
    (houtcome : (p.run .reading source.toArray).outcome = .aborted (.input e)) :
    p.WellFormed source e := by
  have hraised := (accounts_run hg source.toArray).aborted (s := ⟨0, p.limits.fuel, p.patience⟩)
    rfl houtcome
  have hnames := hraised.names fun miss hmiss =>
    ((p.within_run .reading source.toArray).misses miss hmiss).2
  exact ⟨hnames.mono (List.subset_append_left _ _), .raised houtcome hraised⟩

/-- A run that fails has missed something, so the error about it has a place and
    expectations. -/
theorem wellFormed_of_failed {source : List Token} (hg : p.grammar.Orderly)
    (houtcome : (p.run .reading source.toArray).outcome = .failed) :
    p.WellFormed source (.ofMisses source.toArray (p.run .reading source.toArray).state.position
      (p.run .reading source.toArray).record.misses.toList) := by
  obtain ⟨hmirrors, first, hfirst, -⟩ := (accounts_run hg source.toArray).failed
    (s := ⟨0, p.limits.fuel, p.patience⟩) rfl houtcome
  have hnames := InputError.names_ofMisses (List.ne_nil_of_mem hfirst)
    (fun miss hmiss => ((p.within_run .reading source.toArray).misses miss hmiss).2)
    (p.run .reading source.toArray).state.position
  refine ⟨hnames.mono (List.subset_append_left _ _), .failed houtcome ?_ ?_⟩
  · obtain ⟨x, hx⟩ := List.exists_mem_of_ne_nil _ hnames.expected_ne_nil
    obtain ⟨y, hy⟩ := hmirrors.found _ (hnames.recorded x hx)
    exact ⟨y, (List.mem_filter.mp hy).1⟩
  · exact missedUpTo_ofMisses hmirrors (List.Subset.refl _) _

/-- Where something follows a match, the end of the input was expected there, or
    what was missed further on. -/
theorem wellFormed_of_trailing {source : List Token} (hg : p.grammar.Orderly) {tree : Tree}
    {next : Nat} (houtcome : (p.run .reading source.toArray).outcome = .matched tree)
    (hnext : trailing? source.toArray tree = some next) :
    p.WellFormed source (.ofMisses source.toArray (p.run .reading source.toArray).state.position
      ((p.run .reading source.toArray).record.misses.toList ++ [⟨next, .endOfInput⟩])) := by
  have hmirrors := (accounts_run hg source.toArray).matched
    (s := ⟨0, p.limits.fuel, p.patience⟩) rfl houtcome
  have hrecorded : recorded source.toArray (p.run .reading source.toArray) =
      (p.run .reading source.toArray).record.misses.toList ++ [⟨next, .endOfInput⟩] := by
    simp [recorded, houtcome, hnext]
  have hend : (⟨next, .endOfInput⟩ : Miss) ∈
      (p.run .reading source.toArray).record.misses.toList ++ [⟨next, .endOfInput⟩] :=
    List.mem_append_right _ (List.mem_singleton_self _)
  refine ⟨?_, .trailing houtcome hnext ?_ ?_⟩
  · rw [hrecorded]
    refine InputError.names_ofMisses (List.ne_nil_of_mem hend) (fun miss hmiss => ?_) _
    rcases List.mem_append.mp hmiss with hown | hlast
    · exact ((p.within_run .reading source.toArray).misses miss hown).2
    · cases List.mem_singleton.mp hlast
      exact Nat.le_of_lt (trailing?_lt hnext)
  · exact InputError.le_position_ofMisses ⟨_, hend, Nat.le_refl next⟩ _ _
  · exact missedUpTo_ofMisses hmirrors (List.subset_append_left _ _) _

/-- In an orderly table every error of the input that is reported, for all of it or
    for its front, is well formed: it names a token and what was expected there, and
    does not point in front of what was matched by whoever raised it. The SQLite
    table is orderly. -/
theorem error_wellFormed : Sqlite.grammar.Orderly ∧
    ∀ (p : Parser) (tokens : List Token) (e : InputError), p.grammar.Orderly →
      p.parse tokens = .error (.input e) ∨ p.parsePrefix tokens = .error (.input e) →
        p.WellFormed tokens e := by
  refine ⟨Sqlite.grammar_orderly, fun p tokens e hg herror => ?_⟩
  have hconclude (h : conclude tokens.toArray (p.run .reading tokens.toArray) =
      .error (.input e)) : p.WellFormed tokens e := by
    unfold conclude at h
    split at h
    · cases h
    · next houtcome =>
      cases h
      exact wellFormed_of_failed hg houtcome
    · next houtcome =>
      cases h
      exact wellFormed_of_aborted hg houtcome
  rcases herror with hall | hfront
  · have hall := parse_eq_error hall
    unfold concludeAll at hall
    split at hall
    · next hinner =>
      cases hall
      exact hconclude hinner
    · next tree hinner =>
      split at hall
      · cases hall
      · next next htrailing =>
        cases hall
        exact wellFormed_of_trailing hg (conclude_eq_ok hinner) htrailing
  · exact hconclude (parsePrefix_eq_error hfront)

/-- The error of `CREATE TABLE t (x INT,` lies behind the comma. It is at the end of
    the tokens, so nothing is found there. -/
theorem error_wellFormed_createTable : ∃ (tokens : List Token) (e : InputError),
    tokens.map (·.text) = ["CREATE", "TABLE", "t", "(", "x", "INT", ","] ∧
      (ofGrammar Sqlite.grammar).parse tokens = .error (.input e) ∧ e.position = 7 ∧
      (ofGrammar Sqlite.grammar).WellFormed tokens e := by
  obtain ⟨tokens, htokens⟩ : ∃ tokens : List Token, tokens =
    [⟨.keyword .CREATE, "CREATE", ⟨0, 6⟩⟩, ⟨.keyword .TABLE, "TABLE", ⟨7, 12⟩⟩,
      ⟨.identifier, "t", ⟨13, 14⟩⟩, ⟨.symbol .leftParen, "(", ⟨15, 16⟩⟩,
      ⟨.identifier, "x", ⟨16, 17⟩⟩, ⟨.identifier, "INT", ⟨18, 21⟩⟩,
      ⟨.symbol .comma, ",", ⟨21, 22⟩⟩] := ⟨_, rfl⟩
  have hinput : (inputError? ((ofGrammar Sqlite.grammar).parse tokens)).any
      (·.position == 7) = true := by
    subst htokens
    decide +kernel
  obtain ⟨e, herror, hposition⟩ := exists_of_any_inputError? hinput
  refine ⟨tokens, e, by rw [htokens]; rfl, herror, by simpa using hposition, ?_⟩
  exact error_wellFormed.2 (ofGrammar Sqlite.grammar) tokens e error_wellFormed.1 (.inl herror)

end Parser

end SqlStatement

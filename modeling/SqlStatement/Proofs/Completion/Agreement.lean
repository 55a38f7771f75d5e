import SqlStatement.Proofs.Completion.Summary
import SqlStatement.Proofs.Grammar.Nullable
import SqlStatement.Proofs.Match.Attested
import SqlStatement.Proofs.Match.Blame
import SqlStatement.Proofs.Match.Soundness

namespace SqlStatement

namespace Grammar

/-- No repetition that needs items has an item that matches without getting past a
    token. -/
def ItemsConsume (g : Grammar) : Prop :=
  ∀ item separator least, .repetition item separator least ∈ g.parts → 0 < least →
    ∀ depth, item.Covers (g.matcher depth)

/-- A table that is accepted, with sets of kinds other than the end of the input, in
    which needed items consume something. These are the tables in which a failure is
    sure to leave a miss behind. -/
structure Orderly (g : Grammar) : Prop where
  built : g.defect? = none
  setsHoldMembers : g.SetsHoldMembers
  setsOmitEnd : g.SetsOmitEnd
  itemsConsume : g.ItemsConsume

/-- A leaf without a flaw expects something. For a set of kinds this takes that the
    set holds no more than its members, since the check only asks whether any bit is
    set. -/
theorem Leaf.expectations_ne_nil_of_flaw? {l : Leaf} {defined : String → Bool}
    (hflaw : (Term.leaf l).flaw? defined = none) (hmembers : l.holdsMembers = true) :
    l.expectations ≠ [] := by
  cases l with
  | oneOf kinds =>
    intro hnil
    have hmade : kinds = .ofList kinds.toList := by simpa [holdsMembers] using hmembers
    have hnone : kinds.toList = [] := by simpa [expectations] using hnil
    rw [hnone] at hmade
    rw [hmade] at hflaw
    cases hflaw
  | kind | literal | identifier | stringLiteral => nofun

/-- The parts of an orderly table leave misses behind where they fail. Each kind of
    part needs another one of the conditions for it. -/
theorem Orderly.fit {g : Grammar} (hg : g.Orderly) (depth : Nat) {u : Term} (hu : u ∈ g.parts) :
    u.Fit (g.matcher depth) := by
  have hflaw := flaw?_of_defect? hg.built hu
  cases u with
  | leaf l =>
    have hl := leaf_mem_of_mem_parts hu
    exact ⟨l.expectations_ne_nil_of_flaw? hflaw (hg.setsHoldMembers l hl), hg.setsOmitEnd l hl⟩
  | alternation candidates =>
    rintro rfl
    cases hflaw
  | repetition item separator least =>
    exact fun hneeded => hg.itemsConsume item separator least hu hneeded depth
  | production | optional | breakpoint => trivial

/-- A sequence that cannot produce the empty word covers a token wherever it
    matches, because a match is a derivation. -/
theorem Sequence.covers_of_not_nullable {g : Grammar} {known : List String}
    (hknown : g.NullableWithin known) {s : Sequence} (hs : s.nullable known = false) (depth : Nat) :
    s.Covers (g.matcher depth) := by
  intro c σ x hle hmatched
  have hrealizes := Matcher.realizes_sequenceMatcher g c.tokens depth s
  have hderives := (hrealizes c σ.position rfl hle).matched rfl hmatched
  apply hderives.ne_of_not_nullable hknown
  rw [Part.nullable, ← Sequence.nullable_eq]
  exact hs

/-- The syntactic test is enough for the items of a table to consume something, at
    every level of nesting at once. -/
theorem itemsConsume_of_itemsCover {g : Grammar} {known : List String}
    (hknown : g.NullableWithin known) (hcover : ∀ u ∈ g.parts, u.itemsCover known = true) :
    g.ItemsConsume := by
  intro item separator least hmem hneeded depth
  apply Sequence.covers_of_not_nullable hknown
  have hitem := hcover _ hmem
  simp only [Term.itemsCover, Bool.or_eq_true, beq_iff_eq, Bool.not_eq_true'] at hitem
  rcases hitem with hzero | hnullable
  · omega
  · exact hnullable

end Grammar

/-- The SQLite table is orderly. All of the conditions are tests on the table, and
    are computed. -/
theorem Sqlite.grammar_orderly : Sqlite.grammar.Orderly where
  built := by decide +kernel
  setsHoldMembers := by decide +kernel
  setsOmitEnd := by decide +kernel
  itemsConsume := by
    have hknown : Sqlite.grammar.NullableWithin ["conflict-clause", "join-constraint"] := by
      decide +kernel
    exact Grammar.itemsConsume_of_itemsCover hknown (by decide +kernel)

/-- What an error at the end of the input expects was missed there by the run
    itself. The misses that are added in front of the end cannot be among it. -/
theorem InputError.Founded.mem_of_atEnd {tokens : Array Token} {misses more : List Miss}
    {e : InputError} (h : e.Founded tokens (misses ++ more))
    (hmisses : ∀ miss ∈ misses, miss.position ≤ tokens.size)
    (hmore : ∀ miss ∈ more, miss.position < tokens.size) (hend : e.isAtEnd = true)
    {x : Expectation} (hx : x ∈ e.expected) : ⟨tokens.size, x⟩ ∈ misses := by
  obtain ⟨current, slice, hslice, rfl⟩ := h
  have hmem : ⟨(Miss.furthest slice).getD current, x⟩ ∈ slice := Miss.mem_expectedAt.mp hx
  have hpast : tokens.size ≤ (Miss.furthest slice).getD current := by
    simpa [InputError.isAtEnd, InputError.ofMisses] using hend
  rcases List.mem_append.mp (hslice hmem) with hold | hnew
  · have hsize : (Miss.furthest slice).getD current = tokens.size :=
      Nat.le_antisymm (hmisses _ hold) hpast
    rw [hsize] at hold
    exact hold
  · have hbefore := hmore _ hnew
    dsimp only at hbefore
    omega

/-- Answers that differ at most in that the first one puts labels in the place of
    expectations. -/
def Parser.Condenses (labels : List Expectation) :
    Except ParseError Tree → Except ParseError Tree → Prop
  | .ok short, .ok full => short = full
  | .error short, .error full => short.Condenses labels full
  | _, _ => False

namespace Parser

variable {labels : List Expectation} {tokens : Array Token} {short full : Result Tree}

/-- Runs that condense are concluded with answers that condense, for the front of
    the input. A failed run needs a miss for it, so that both errors have a place. -/
theorem condenses_conclude (h : short.Condenses labels full)
    (hne : full.outcome = .failed → full.record.misses.toList ≠ []) :
    Condenses labels (conclude tokens short) (conclude tokens full) := by
  cases hfull : full.outcome with
  | matched tree =>
    have hshort := h.outcome.matched hfull
    simp only [conclude, hshort, hfull]
    rfl
  | failed =>
    have hshort := h.outcome.failed hfull
    simp only [conclude, hshort, hfull, h.state]
    exact InputError.Condenses.ofMisses tokens _ h.misses (hne hfull)
  | aborted e =>
    obtain ⟨e', hshort, he⟩ := h.outcome.aborted hfull
    simp only [conclude, hshort, hfull]
    exact he

/-- The same for all of the input, where a match with tokens left over becomes an
    error too. -/
theorem condenses_concludeAll (h : short.Condenses labels full)
    (hne : full.outcome = .failed → full.record.misses.toList ≠ []) :
    Condenses labels (concludeAll tokens short) (concludeAll tokens full) := by
  have hconclude : Condenses labels (conclude tokens short) (conclude tokens full) :=
    condenses_conclude h hne
  unfold concludeAll
  cases hshort : conclude tokens short with
  | error e =>
    cases hfull : conclude tokens full with
    | error e' =>
      rw [hshort, hfull] at hconclude
      exact hconclude
    | ok tree =>
      rw [hshort, hfull] at hconclude
      exact hconclude.elim
  | ok tree =>
    cases hfull : conclude tokens full with
    | error e' =>
      rw [hshort, hfull] at hconclude
      exact hconclude.elim
    | ok tree' =>
      rw [hshort, hfull] at hconclude
      cases hconclude
      dsimp only
      cases trailing? tokens tree with
      | none => rfl
      | some next =>
        rw [h.state]
        apply InputError.Condenses.ofMisses
        · exact h.misses.append (.refl _ _)
        · exact List.append_ne_nil_of_right_ne_nil _ (List.cons_ne_nil _ _)

/-- An answer that is an input error is blamed on what the run has missed, and
    perhaps on what was missed in front of the end; and a run with such an answer is
    not given up for another reason. -/
structure Accounts (tokens : Array Token) (r : Result Tree) (e : InputError) : Prop where
  founded : ∃ more : List Miss, (∀ miss ∈ more, miss.position < tokens.size) ∧
    e.Founded tokens (r.record.misses.toList ++ more)
  suggest : ∀ caret, ∃ completion, Parser.suggest caret r = .ok completion

/-- An input error about the front of the input is laid to what the run has missed,
    and such a run is not given up for another reason. -/
theorem accounts_conclude {e : InputError} (hblames : full.Blames tokens fun _ => True)
    (herror : conclude tokens full = .error (.input e)) : Accounts tokens full e := by
  cases hfull : full.outcome with
  | matched tree =>
    simp only [conclude, hfull] at herror
    cases herror
  | failed =>
    simp only [conclude, hfull] at herror
    cases herror
    refine ⟨⟨[], nofun, _, _, ?_, rfl⟩, fun caret => ?_⟩
    · exact List.subset_append_left _ _
    · simp [suggest, hfull]
  | aborted e' =>
    simp only [conclude, hfull] at herror
    cases herror
    refine ⟨⟨[], nofun, ?_⟩, fun caret => ?_⟩
    · exact (hblames.founded e hfull).mono (List.subset_append_left _ _)
    · simp [suggest, hfull]

/-- What follows a tree is a token of the input. -/
theorem trailing?_lt {tree : Tree} {next : Nat} (h : trailing? tokens tree = some next) :
    next < tokens.size := by
  simp only [trailing?, Option.ite_none_right_eq_some, Option.some.injEq] at h
  obtain ⟨hlt, rfl⟩ := h
  exact hlt

/-- An input error about all of the input may also be laid to the token that follows
    a match, which is in front of the end. -/
theorem accounts_concludeAll {e : InputError} (hblames : full.Blames tokens fun _ => True)
    (herror : concludeAll tokens full = .error (.input e)) : Accounts tokens full e := by
  unfold concludeAll at herror
  cases hconclude : conclude tokens full with
  | error e' =>
    rw [hconclude] at herror
    cases herror
    exact accounts_conclude hblames hconclude
  | ok tree =>
    rw [hconclude] at herror
    cases htrailing : trailing? tokens tree with
    | none =>
      simp only [htrailing] at herror
      cases herror
    | some next =>
      simp only [htrailing] at herror
      cases herror
      refine ⟨⟨[⟨next, .endOfInput⟩], ?_, _, _, List.Subset.refl _, rfl⟩, fun caret => ?_⟩
      · intro miss hmiss
        cases List.mem_singleton.mp hmiss
        exact trailing?_lt htrailing
      · cases hfull : full.outcome <;> simp_all [conclude, suggest]

/-- The same parser over a table with other labels. -/
def relabel (p : Parser) (f : String → String) : Parser := { p with grammar := p.grammar.relabel f }

variable {p : Parser}

/-- An expectation of an answer comes from a leaf, and not from the label of a
    production, if it stays expected when the productions are labelled otherwise. -/
def ExpectedByLeaf (p : Parser) (finish : Array Token → Result Tree → Except ParseError Tree)
    (tokens : Array Token) (x : Expectation) : Prop :=
  ∃ f e, x ∉ (p.grammar.relabel f).labels ∧
    finish tokens ((p.relabel f).run .reading tokens) = .error (.input e) ∧ x ∈ e.expected

/-- What reading expects by itself, other than a label, comes from a leaf. No other
    labels are needed to tell it from one. -/
theorem expectedByLeaf_of_mem {finish : Array Token → Result Tree → Except ParseError Tree}
    {e : InputError} (herror : finish tokens (p.run .reading tokens) = .error (.input e))
    {x : Expectation} (hx : x ∈ e.expected) (hlabel : x ∉ p.grammar.labels) :
    p.ExpectedByLeaf finish tokens x := by
  refine ⟨id, e, ?_, ?_, hx⟩
  · rwa [Grammar.relabel_id]
  · rwa [relabel, Grammar.relabel_id]

/-- Reading gives the answer of completing but for labels, at the same cost, and
    completion at the end of the input suggests what reading expects there. That an
    expectation comes from a leaf is no mere way of speaking: all but the labels do,
    and those that do were written down by a leaf of the table that has failed at
    the end of the input. -/
structure Agrees (p : Parser) (finish : Array Token → Result Tree → Except ParseError Tree)
    (tokens : List Token) : Prop where
  fuelUsed : p.fuelUsed (p.run .reading tokens.toArray) =
    p.fuelUsed (p.run .completing tokens.toArray)
  answer : Condenses p.grammar.labels (finish tokens.toArray (p.run .reading tokens.toArray))
    (finish tokens.toArray (p.run .completing tokens.toArray))
  suggests : ∀ e, finish tokens.toArray (p.run .reading tokens.toArray) = .error (.input e) →
    e.isAtEnd = true → ∃ completion, p.complete tokens tokens.length = .ok completion ∧
      completion.suggestions ≠ [] ∧
      ∀ x, p.ExpectedByLeaf finish tokens.toArray x → x ∈ completion.suggestions
  expected : ∀ e, finish tokens.toArray (p.run .reading tokens.toArray) = .error (.input e) →
    ∀ x ∈ e.expected, x ∈ p.grammar.labels ∨ p.ExpectedByLeaf finish tokens.toArray x
  attested : ∀ e, finish tokens.toArray (p.run .reading tokens.toArray) = .error (.input e) →
    e.isAtEnd = true → ∀ x, p.ExpectedByLeaf finish tokens.toArray x →
      Miss.ByLeaf p.grammar.leaves (p.run .completing tokens.toArray).record.events.toList
        ⟨tokens.length, x⟩

/-- A table reads in short what it completes, whatever it is labelled with when it
    reads. -/
theorem condenses_run (hg : p.grammar.Orderly) (f : String → String) (tokens : Array Token) :
    ((p.relabel f).run .reading tokens).CondensesTo (p.grammar.relabel f).labels tokens.size
      (fun _ _ _ => True) (fun _ misses => misses ≠ []) (p.run .completing tokens) :=
  Grammar.condenses_matcher f (fun depth _ hu => hg.fit depth hu) p.limits.depth p.root 0
    (Nat.zero_le _) [] ⟨0, p.limits.fuel, p.patience⟩ rfl

/-- Reading is completing but for labels: the case in which the labels are those of
    the table. -/
theorem condenses_read (hg : p.grammar.Orderly) (tokens : Array Token) :
    (p.run .reading tokens).Condenses p.grammar.labels (p.run .completing tokens) := by
  have hread := (condenses_run hg id tokens).condenses
  rw [relabel, Grammar.relabel_id] at hread
  exact hread

/-- A run that fails in an orderly table has missed something, so its error has a
    place and expectations. -/
theorem misses_ne_nil_of_failed (hg : p.grammar.Orderly) {tokens : Array Token}
    (hfailed : (p.run .completing tokens).outcome = .failed) :
    (p.run .completing tokens).record.misses.toList ≠ [] := by
  have hmeets := (condenses_run hg id tokens).meets
  rw [hfailed] at hmeets
  exact hmeets

/-- A run stays inside the input and misses tokens inside of it. -/
theorem within_run (p : Parser) (purpose : Purpose) (tokens : Array Token) :
    (p.run purpose tokens).Within 0 tokens.size fun _ => True :=
  (Discipline.bounds tokens 0).keeps_matcher (fun _ _ => trivial) p.limits.depth p.root _ _ rfl
    (Nat.le_refl _) (Nat.zero_le _)

/-- The errors of a run are laid to what it has missed. -/
theorem blames_run (p : Parser) (purpose : Purpose) (tokens : Array Token) :
    (p.run purpose tokens).Blames tokens fun _ => True :=
  Discipline.blames.keeps_matcher (fun _ _ => trivial) p.limits.depth p.root
    ⟨tokens, purpose, []⟩ ⟨0, p.limits.fuel, p.patience⟩

/-- Every miss of a run that completes was written down by a leaf of the table.
    Labels have no such witness, and a run that completes has none. -/
theorem attested_run (p : Parser) (tokens : Array Token) :
    (p.run .completing tokens).record.Attested p.grammar.leaves :=
  ((Discipline.attests p.grammar.leaves).keeps_matcher (g := p.grammar) (fun _ hl => hl)
    p.limits.depth p.root ⟨tokens, .completing, []⟩ ⟨0, p.limits.fuel, p.patience⟩ rfl).2

/-- An answer that is an input error in short is one in full, at the same place.
    What the error in short expects is expected in full as well, or it is a label. -/
theorem Condenses.input {labels : List Expectation} {short full : Except ParseError Tree}
    {e : InputError} (h : Condenses labels short full) (hshort : short = .error (.input e)) :
    ∃ e', full = .error (.input e') ∧ e.Condenses labels e' := by
  subst hshort
  cases full with
  | ok tree => exact h.elim
  | error e' =>
    cases e' with
    | input e' => exact ⟨e', rfl, h⟩
    | outOfFuel | tooDeep | cancelled | unknownProduction => cases h

/-- A way to conclude a run that keeps the two runs comparable: it turns runs that
    condense into answers that condense, and an error that it gives is laid to what
    the run has missed. -/
structure Comparable (tokens : Array Token)
    (finish : Array Token → Result Tree → Except ParseError Tree) : Prop where
  condenses : ∀ labels short full, Result.Condenses labels short full →
    (full.outcome = .failed → full.record.misses.toList ≠ []) →
    Condenses labels (finish tokens short) (finish tokens full)
  accounts : ∀ full e, Result.Blames tokens (fun _ => True) full →
    finish tokens full = .error (.input e) → Accounts tokens full e

theorem comparable_conclude (tokens : Array Token) : Comparable tokens conclude where
  condenses _ _ _ h hne := condenses_conclude h hne
  accounts _ _ hblames herror := accounts_conclude hblames herror

theorem comparable_concludeAll (tokens : Array Token) : Comparable tokens concludeAll where
  condenses _ _ _ h hne := condenses_concludeAll h hne
  accounts _ _ hblames herror := accounts_concludeAll hblames herror

section Finish

variable {finish : Array Token → Result Tree → Except ParseError Tree} {e e' : InputError}

/-- With any labels, reading concludes as completing does but for these labels. A
    table with other labels has the same matchers when it is completed. -/
theorem Comparable.answer (h : Comparable tokens finish) (hg : p.grammar.Orderly)
    (f : String → String) : Condenses (p.grammar.relabel f).labels
      (finish tokens ((p.relabel f).run .reading tokens))
      (finish tokens (p.run .completing tokens)) :=
  h.condenses _ _ _ (condenses_run hg f tokens).condenses (misses_ne_nil_of_failed hg)

/-- What an error at the end of the input expects, in the run that puts no labels,
    was missed there by that run. -/
theorem Comparable.missed (h : Comparable tokens finish)
    (hfull : finish tokens (p.run .completing tokens) = .error (.input e'))
    (hend : e'.isAtEnd = true)
    {x : Expectation} (hx : x ∈ e'.expected) :
    ⟨tokens.size, x⟩ ∈ (p.run .completing tokens).record.misses.toList := by
  obtain ⟨⟨more, hmore, hfounded⟩, -⟩ := h.accounts _ _ (p.blames_run .completing tokens) hfull
  exact hfounded.mem_of_atEnd
    (fun miss hmiss => ((p.within_run .completing tokens).misses miss hmiss).2) hmore hend hx

/-- An expectation that comes from a leaf is among those of the run that puts no
    labels. For it stays expected under labels that it is not one of. -/
theorem ExpectedByLeaf.mem (hg : p.grammar.Orderly) (h : Comparable tokens finish)
    (hfull : finish tokens (p.run .completing tokens) = .error (.input e')) {x : Expectation}
    (hx : p.ExpectedByLeaf finish tokens x) : x ∈ e'.expected := by
  obtain ⟨f, leafError, hlabel, hleaf, hmem⟩ := hx
  obtain ⟨e'', hfull', he''⟩ := (h.answer hg f).input hleaf
  have hsame : e'' = e' := by
    rw [hfull] at hfull'
    cases hfull'
    rfl
  rcases he''.known x hmem with hknown | hnew
  · exact hsame ▸ hknown
  · exact absurd hnew hlabel

/-- An orderly table gives the same answer when it reads as when it completes, for
    each comparable way to conclude. What completion suggests at the end of the
    input are the misses of the run that both share. -/
theorem agrees_of_comparable (hg : p.grammar.Orderly) (tokens : List Token)
    (h : Comparable tokens.toArray finish) : p.Agrees finish tokens := by
  have hread := condenses_read hg tokens.toArray
  have hown : Condenses p.grammar.labels (finish tokens.toArray (p.run .reading tokens.toArray))
      (finish tokens.toArray (p.run .completing tokens.toArray)) :=
    h.condenses _ _ _ hread (misses_ne_nil_of_failed hg)
  -- an error at the end of the input has a counterpart there in the run that puts no labels
  have hpaired (e : InputError)
      (he : finish tokens.toArray (p.run .reading tokens.toArray) = .error (.input e))
      (hend : e.isAtEnd = true) :
      ∃ e', finish tokens.toArray (p.run .completing tokens.toArray) = .error (.input e') ∧
        e'.expected ≠ [] ∧ ∀ x ∈ e'.expected, ⟨tokens.length, x⟩ ∈
          (p.run .completing tokens.toArray).record.misses.toList := by
    obtain ⟨e', hfull, he'⟩ := hown.input he
    have hatEnd : e'.isAtEnd = true := by
      rw [InputError.isAtEnd, ← he'.found_eq]
      exact hend
    exact ⟨e', hfull, he'.expected_ne_nil, fun x hx => h.missed hfull hatEnd hx⟩
  constructor
  · rw [fuelUsed, fuelUsed, hread.state]
  · exact hown
  · intro e he hend
    obtain ⟨e', hfull, hne, hmissed⟩ := hpaired e he hend
    obtain ⟨completion, hok⟩ :=
      (h.accounts _ _ (p.blames_run .completing tokens.toArray) hfull).suggest tokens.length
    have hcomplete : p.complete tokens tokens.length = .ok completion := by
      rw [complete, Nat.min_self, List.take_length]
      exact hok
    have hsuggested {x : Expectation} (hx : x ∈ e'.expected) : x ∈ completion.suggestions := by
      rw [(suggest_eq_ok hok).2, Miss.mem_expectedAt]
      exact hmissed x hx
    refine ⟨completion, hcomplete, ?_, fun x hx => hsuggested (hx.mem hg h hfull)⟩
    obtain ⟨x, hx⟩ := List.exists_mem_of_ne_nil _ hne
    exact List.ne_nil_of_mem (hsuggested hx)
  · intro e he x hx
    by_cases hlabel : x ∈ p.grammar.labels
    · exact .inl hlabel
    · exact .inr (expectedByLeaf_of_mem he hx hlabel)
  · intro e he hend x hx
    obtain ⟨e', hfull, -, hmissed⟩ := hpaired e he hend
    exact p.attested_run tokens.toArray _ (hmissed x (hx.mem hg h hfull))

end Finish

/-- But for labels, an orderly table gives the same answer when it reads as when it
    completes, be it for the front of the input or for all of it. Where an input
    ends too early, completion suggests everything that a leaf has asked for there.
    The SQLite table is orderly. -/
theorem reading_agrees : Sqlite.grammar.Orderly ∧
    ∀ (p : Parser) (tokens : List Token), p.grammar.Orderly →
      p.Agrees conclude tokens ∧ p.Agrees concludeAll tokens := by
  refine ⟨Sqlite.grammar_orderly, fun p tokens hg => ⟨?_, ?_⟩⟩
  · exact agrees_of_comparable hg tokens (comparable_conclude _)
  · exact agrees_of_comparable hg tokens (comparable_concludeAll _)

/-- The input error that an answer is, if it is one. -/
def inputError? {α : Type} : Except ParseError α → Option InputError
  | .error (.input e) => some e
  | _ => none

/-- A test of the error that an answer is, turned into the error as for endings. -/
theorem exists_of_any_inputError? {α : Type} {answer : Except ParseError α} {q : InputError → Bool}
    (h : (inputError? answer).any q = true) : ∃ e, answer = .error (.input e) ∧ q e = true := by
  cases answer with
  | ok => cases h
  | error err =>
    cases err with
    | input e => exact ⟨e, rfl, h⟩
    | outOfFuel | tooDeep | cancelled | unknownProduction => cases h

/-- Behind `SELECT` two words are expected, which leaves ask for and completion
    suggests, and a result column, which is the label of a production and nothing
    that a leaf asks for. -/
theorem reading_agrees_select :
    ∃ (e : InputError) (completion : Completion),
    concludeAll #[⟨.keyword .SELECT, "SELECT", ⟨0, 6⟩⟩] ((ofGrammar Sqlite.grammar).run .reading
      #[⟨.keyword .SELECT, "SELECT", ⟨0, 6⟩⟩]) = .error (.input e) ∧ e.isAtEnd = true ∧
    e.expected = [.keyword "DISTINCT", .keyword "ALL", .label "result column"] ∧
    (ofGrammar Sqlite.grammar).Agrees concludeAll [⟨.keyword .SELECT, "SELECT", ⟨0, 6⟩⟩] ∧
    (ofGrammar Sqlite.grammar).complete [⟨.keyword .SELECT, "SELECT", ⟨0, 6⟩⟩] 1 = .ok completion ∧
    (∀ x ∈ [Expectation.keyword "DISTINCT", .keyword "ALL"], x ∈ completion.suggestions ∧
      (ofGrammar Sqlite.grammar).ExpectedByLeaf concludeAll
        #[⟨.keyword .SELECT, "SELECT", ⟨0, 6⟩⟩] x) ∧
    ¬ (ofGrammar Sqlite.grammar).ExpectedByLeaf concludeAll
      #[⟨.keyword .SELECT, "SELECT", ⟨0, 6⟩⟩] (.label "result column") := by
  have hagrees := (reading_agrees.2 (ofGrammar Sqlite.grammar)
    [⟨.keyword .SELECT, "SELECT", ⟨0, 6⟩⟩] reading_agrees.1).2
  have hinput : (inputError? (concludeAll #[⟨.keyword .SELECT, "SELECT", ⟨0, 6⟩⟩]
      ((ofGrammar Sqlite.grammar).run .reading #[⟨.keyword .SELECT, "SELECT", ⟨0, 6⟩⟩]))).any
      (fun e => e.isAtEnd &&
        e.expected == [.keyword "DISTINCT", .keyword "ALL", .label "result column"]) = true := by
    decide +kernel
  obtain ⟨e, herror, hends⟩ := exists_of_any_inputError? hinput
  simp only [Bool.and_eq_true, beq_iff_eq] at hends
  obtain ⟨hend, hexpected⟩ := hends
  obtain ⟨completion, hok, -, hsuggested⟩ := hagrees.suggests e herror hend
  have hleaf (x : Expectation) (hx : x ∈ [Expectation.keyword "DISTINCT", .keyword "ALL"]) :
      (ofGrammar Sqlite.grammar).ExpectedByLeaf concludeAll
        #[⟨.keyword .SELECT, "SELECT", ⟨0, 6⟩⟩] x := by
    have hmem : x ∈ e.expected := by
      rw [hexpected]
      exact List.mem_append_left [.label "result column"] hx
    have hwords : ∀ x ∈ [Expectation.keyword "DISTINCT", .keyword "ALL"],
        x ∉ Sqlite.grammar.labels := by decide +kernel
    exact (hagrees.expected e herror x hmem).resolve_left (hwords x hx)
  refine ⟨e, completion, herror, hend, hexpected, hagrees, hok,
    fun x hx => ⟨hsuggested x (hleaf x hx), hleaf x hx⟩, fun hlabel => ?_⟩
  obtain ⟨l, hl, hasks, -⟩ := hagrees.attested e herror hend _ hlabel
  have hnone : ∀ l ∈ Sqlite.grammar.leaves, .label "result column" ∉ l.expectations := by
    decide +kernel
  exact hnone l hl hasks

end Parser

end SqlStatement

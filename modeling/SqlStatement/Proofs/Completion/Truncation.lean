import SqlStatement.Proofs.Diagnostic.WellFormed

namespace SqlStatement

/-- Where something is missed at a place and nothing behind it, the furthest miss is
    there. -/
theorem Miss.furthest_eq_of_reaches {misses : List Miss} {n : Nat}
    (hreach : ∃ miss ∈ misses, n ≤ miss.position) (hle : ∀ miss ∈ misses, miss.position ≤ n) :
    Miss.furthest misses = some n := by
  obtain ⟨miss, hmiss, hfar⟩ := hreach
  have hsame : miss.position = n := Nat.le_antisymm (hle miss hmiss) hfar
  apply List.max?_eq_some_iff.mpr
  constructor
  · exact hsame ▸ List.mem_map_of_mem hmiss
  · intro position hposition
    obtain ⟨other, hother, rfl⟩ := List.mem_map.mp hposition
    exact hle other hother

/-- An error that expects something lies no further than the misses that it is laid
    to. -/
theorem InputError.Founded.position_le {tokens : Array Token} {misses : List Miss} {e : InputError}
    {high : Nat} (h : e.Founded tokens misses) (hne : e.expected ≠ [])
    (hle : ∀ miss ∈ misses, miss.position ≤ high) : e.position ≤ high := by
  obtain ⟨current, slice, hslice, rfl⟩ := h
  obtain ⟨x, hx⟩ := List.exists_mem_of_ne_nil _ hne
  have hmem : ⟨(Miss.furthest slice).getD current, x⟩ ∈ slice := Miss.mem_expectedAt.mp hx
  exact hle _ (hslice hmem)

namespace Matcher

variable {g : Grammar} {c : Context} {e : InputError} {log : Log} {n : Nat}

/-- An error is laid in front of a place that was missed: all that was missed there,
    and there is something, was missed before the sequence or the turn that raises
    the error has started. Its own run, which is all that it looks at, does not get
    as far. -/
inductive Overlooks (g : Grammar) (c : Context) (n : Nat) (e : InputError) : Log → Prop
  | intro {stack : List String} {here : Nat} {before own : Log} (hbefore : before.Reaches n)
      (hraises : Raises g { c with stack := stack } here own) (hmissed : own.misses ≠ [])
      (hown : ∀ miss ∈ own.misses, miss.position < n)
      (herror : e = .ofMisses c.tokens here own.misses) (hplace : here ≤ e.position) :
      Overlooks g c n e (before ++ (own ++ .blamed e.position))

/-- Whoever overlooks a place lays the error in front of it. The error is at the
    furthest of the misses that it is laid to, and these do not get as far. -/
theorem Overlooks.position_lt (h : Overlooks g c n e log) : e.position < n := by
  obtain ⟨-, -, hmissed, hown, herror, -⟩ := h
  obtain ⟨last, hlast, hfurthest⟩ := Miss.furthest_eq_some hmissed
  have hposition : e.position = last.position := by
    rw [herror]
    simp [InputError.ofMisses, hfurthest]
  exact hposition ▸ hown last hlast

/-- Whoever raises an error lays it to the furthest of its own misses. So where
    nothing is missed behind `n`, the error lies at `n` as soon as the raising run
    itself has missed something there. -/
theorem Raised.position_eq_or_overlooks (h : Raised g c e log) (hreaches : log.Reaches n)
    (hle : ∀ miss ∈ log.misses, miss.position ≤ n) : e.position = n ∨ Overlooks g c n e log := by
  obtain @⟨stack, here, own, before, hraises, hmissed, herror, hplace⟩ := h
  by_cases hown : own.Reaches n
  · have hownle (miss : Miss) (hmiss : miss ∈ own.misses) : miss.position ≤ n :=
      hle miss (List.mem_append_right _ (List.mem_append_left _ hmiss))
    left
    rw [herror]
    simp [InputError.ofMisses, Miss.furthest_eq_of_reaches hown hownle]
  · right
    have hbefore : before.Reaches n := by
      obtain ⟨miss, hmiss, hfar⟩ := hreaches
      rcases List.mem_append.mp hmiss with hfront | hrest
      · exact ⟨miss, hfront, hfar⟩
      · rcases List.mem_append.mp hrest with hmine | hnone
        · exact absurd ⟨miss, hmine, hfar⟩ hown
        · cases hnone
    have hshort (miss : Miss) (hmiss : miss ∈ own.misses) : miss.position < n :=
      Nat.lt_of_not_le fun hfar => hown ⟨miss, hmiss, hfar⟩
    exact .intro hbefore hraises hmissed hshort herror hplace

end Matcher

namespace Parser

variable {p : Parser} {tokens : Array Token}

/-- A run that has missed something at the end of the input, and lays no blame by
    itself, is blamed there. -/
theorem position_of_concludeAll {r : Result Tree} {e : InputError}
    (hsoft : ∀ err, r.outcome ≠ .aborted err)
    (hreach : ∃ miss ∈ r.record.misses.toList, tokens.size ≤ miss.position)
    (hle : ∀ miss ∈ r.record.misses.toList, miss.position ≤ tokens.size)
    (herror : concludeAll tokens r = .error (.input e)) : e.position = tokens.size := by
  cases houtcome : r.outcome with
  | aborted err => exact absurd houtcome (hsoft err)
  | failed =>
    simp only [concludeAll, conclude, houtcome] at herror
    cases herror
    simp [InputError.ofMisses, Miss.furthest_eq_of_reaches hreach hle]
  | matched tree =>
    simp only [concludeAll, conclude, houtcome] at herror
    cases htrailing : trailing? tokens tree with
    | none =>
      simp only [htrailing] at herror
      cases herror
    | some next =>
      simp only [htrailing] at herror
      cases herror
      have hnext := trailing?_lt htrailing
      have hreach' : ∃ miss ∈ r.record.misses.toList ++ [⟨next, .endOfInput⟩],
          tokens.size ≤ miss.position := by
        obtain ⟨miss, hmiss, hfar⟩ := hreach
        exact ⟨miss, List.mem_append_left _ hmiss, hfar⟩
      have hle' : ∀ miss ∈ r.record.misses.toList ++ [⟨next, .endOfInput⟩],
          miss.position ≤ tokens.size := by
        intro miss hmiss
        rcases List.mem_append.mp hmiss with hold | hnew
        · exact hle miss hold
        · cases List.mem_singleton.mp hnew
          exact Nat.le_of_lt hnext
      simp [InputError.ofMisses, Miss.furthest_eq_of_reaches hreach' hle']

/-- A run that has missed something at the end of the input is blamed there, or for
    a committed sequence or a turn that has not come so far by itself. -/
theorem position_eq_or_overlooks (hg : p.grammar.Orderly) {front : List Token} {e : InputError}
    (herror : concludeAll front.toArray (p.run .reading front.toArray) = .error (.input e))
    (hreach : (p.run .reading front.toArray).record.log.Reaches front.toArray.size) :
    e.position = front.toArray.size ∨
      (p.run .reading front.toArray).outcome = .aborted (.input e) ∧
        Matcher.Overlooks p.grammar ⟨front.toArray, .reading, []⟩ front.toArray.size e
          (p.run .reading front.toArray).record.log := by
  have hle (miss : Miss) (hmiss : miss ∈ (p.run .reading front.toArray).record.log.misses) :
      miss.position ≤ front.toArray.size :=
    ((p.within_run .reading front.toArray).misses miss hmiss).2
  by_cases hsoft : ∀ err, (p.run .reading front.toArray).outcome ≠ .aborted err
  · exact .inl (position_of_concludeAll hsoft hreach hle herror)
  · push Not at hsoft
    obtain ⟨err, houtcome⟩ := hsoft
    have herr : err = .input e := by
      simpa [concludeAll, conclude, houtcome] using herror
    subst herr
    have hraised := (accounts_run hg front.toArray).aborted
      (s := ⟨0, p.limits.fuel, p.patience⟩) rfl houtcome
    rcases hraised.position_eq_or_overlooks hreach hle with hend | hoverlooks
    · exact .inl hend
    · exact .inr ⟨houtcome, hoverlooks⟩

/-- How the first `n` tokens of an accepted input fail. The error lies at the cut,
    whether or not a committed sequence raises it, except where whoever raises it
    overlooks the cut. The next token of the input is among what completion suggests
    there. -/
structure EndsEarly (p : Parser) (tokens : List Token) (n : Nat) (e : InputError) : Prop where
  position_le : e.position ≤ n
  position_lt_iff : e.position < n ↔
    (p.run .reading (tokens.take n).toArray).outcome = .aborted (.input e) ∧
      Matcher.Overlooks p.grammar ⟨(tokens.take n).toArray, .reading, []⟩ n e
        (p.run .reading (tokens.take n).toArray).record.log
  suggests : ∃ t completion, tokens[n]? = some t ∧
    p.complete (tokens.take n) n = .ok completion ∧
    ∃ l ∈ p.grammar.leaves, l.accepts t = true ∧ l.expectations ≠ [] ∧
      ∀ x ∈ l.expectations, x ∈ completion.suggestions

/-- The tree of a match ends where its run does. It is the tree of the root
    production, which covers what was consumed. -/
theorem stop_of_run {tree : Tree} {purpose : Purpose}
    (hmatched : (p.run purpose tokens).outcome = .matched tree) :
    tree.span.stop = (p.run purpose tokens).state.position := by
  obtain ⟨production, nodes, -, htree, -⟩ := derivesTree_of_run hmatched
  rw [htree]
  rfl

/-- The front of an accepted input is accepted where no leaf at the cut accepts the
    next token, for then both runs end alike. -/
theorem parse_take_of_rejected (hg : p.grammar.Orderly) {front : List Token}
    {tried : List Grammar.Leaf} {w : Continuation}
    (htried : (p.run .completing front.toArray).Tried front.toArray p.grammar.leaves
      (fun w => p.run w.purpose (w.tokens front.toArray)) tried)
    (hreject : ∀ l ∈ tried, l.accepts w.token = false) {tree : Tree}
    (hmatched : (p.run w.purpose (w.tokens front.toArray)).outcome = .matched tree)
    (hstop : front.length ≤ tree.span.stop) : p.parse front = .ok ⟨tree, front.toArray⟩ := by
  obtain ⟨halike, hstate, -⟩ := htried.alike w hreject
  have hfull : (p.run .completing front.toArray).outcome = .matched tree := by
    rw [hmatched] at halike
    cases hcut : (p.run .completing front.toArray).outcome <;> simp_all [Outcome.Alike]
  have hshort := (condenses_read hg front.toArray).outcome.matched hfull
  have hsize : tree.span.stop = front.length := by
    have hle := htried.position_le
    rw [← hstate, ← stop_of_run hmatched, List.size_toArray] at hle
    exact Nat.le_antisymm hle hstop
  have hnone : trailing? front.toArray tree = none := by
    simp [trailing?, hsize]
  apply parse_of_concludeAll
  simp [concludeAll, conclude, hshort, hnone]

/-- Where something is missed at the end of the input, an error ends the input
    early. -/
theorem endsEarly_of_missed (hg : p.grammar.Orderly) {tokens : List Token} {n : Nat} {t : Token}
    {l : Grammar.Leaf} {e : InputError} (ht : tokens[n]? = some t) (hl : l ∈ p.grammar.leaves)
    (haccepts : l.accepts t = true)
    (hmissed : ∀ x ∈ l.expectations,
      ⟨n, x⟩ ∈ (p.run .completing (tokens.take n).toArray).record.misses.toList)
    (herror : p.parse (tokens.take n) = .error (.input e)) : p.EndsEarly tokens n e := by
  have hsize : (tokens.take n).toArray.size = n := by
    obtain ⟨hlt, -⟩ := List.getElem?_eq_some_iff.mp ht
    simp [Nat.le_of_lt hlt]
  generalize hfront : tokens.take n = front at *
  have hexpects := Grammar.Leaf.expectations_ne_nil haccepts
  obtain ⟨x, hx⟩ := List.exists_mem_of_ne_nil _ hexpects
  have hread := condenses_read hg front.toArray
  have hshort := parse_eq_error herror
  have hcondensed : Condenses p.grammar.labels
      (concludeAll front.toArray (p.run .reading front.toArray))
      (concludeAll front.toArray (p.run .completing front.toArray)) :=
    condenses_concludeAll hread (misses_ne_nil_of_failed hg)
  obtain ⟨e', hfull, he'⟩ := hcondensed.input hshort
  have hblames := p.blames_run .completing front.toArray
  obtain ⟨⟨more, hmore, hfounded⟩, hsuggest⟩ := accounts_concludeAll hblames hfull
  have hle : ∀ miss ∈ (p.run .completing front.toArray).record.misses.toList ++ more,
      miss.position ≤ n := by
    intro miss hmiss
    rw [← hsize]
    rcases List.mem_append.mp hmiss with hold | hnew
    · exact ((p.within_run .completing front.toArray).misses miss hold).2
    · exact Nat.le_of_lt (hmore miss hnew)
  constructor
  · rw [he'.position_eq]
    exact hfounded.position_le he'.expected_ne_nil hle
  · have hreach : (p.run .reading front.toArray).record.log.Reaches front.toArray.size :=
      (hread.misses.reaches _).mpr ⟨_, hmissed x hx, Nat.le_of_eq hsize⟩
    rw [hfront]
    refine ⟨fun hlt => ?_, fun hoverlooks => hoverlooks.2.position_lt⟩
    rcases position_eq_or_overlooks hg hshort hreach with hend | hoverlooks
    · omega
    · rwa [hsize] at hoverlooks
  · obtain ⟨completion, hok⟩ := hsuggest n
    have hcomplete : p.complete front n = .ok completion := by
      have hlength : front.length = n := by simpa using hsize
      rw [complete, hlength, Nat.min_self, List.take_of_length_le (Nat.le_of_eq hlength)]
      exact hok
    refine ⟨t, completion, ht, hfront ▸ hcomplete, l, hl, haccepts, hexpects, fun x hx => ?_⟩
    rw [(suggest_eq_ok hok).2, Miss.mem_expectedAt]
    exact hmissed x hx

/-- Cutting off an accepted input gives an accepted input, or an error at the cut.
    The one exception is an error whose raiser overlooks the cut: all that is missed
    there was missed before the raising sequence or turn has started. -/
theorem parse_take (p : Parser) (tokens : List Token) (parsed : Parsed) (n : Nat)
    (hg : p.grammar.Orderly) (hpatience : p.patience = none) (hok : p.parse tokens = .ok parsed)
    (hn : n ≤ parsed.root.span.stop)
    (hlimits : ∀ err, p.parse (tokens.take n) = .error err → ∃ e, err = .input e) :
    (∃ front, p.parse (tokens.take n) = .ok front) ∨
      ∃ e, p.parse (tokens.take n) = .error (.input e) ∧ p.EndsEarly tokens n e := by
  obtain ⟨hmatched, -⟩ := concludeAll_eq_ok (parse_eq_ok hok)
  by_cases hwhole : tokens.length ≤ n
  · rw [List.take_of_length_le hwhole]
    exact .inl ⟨parsed, hok⟩
  have hcut : n < tokens.length := Nat.lt_of_not_le hwhole
  have hlength : (tokens.take n).length = n := by simp [Nat.le_of_lt hcut]
  obtain ⟨w, hw⟩ : ∃ w : Continuation, w = ⟨.reading, tokens[n], tokens.drop (n + 1)⟩ := ⟨_, rfl⟩
  have htokens : w.tokens (tokens.take n).toArray = tokens.toArray := by
    simp [hw, Continuation.tokens]
  obtain ⟨tried, htried⟩ := exists_tried hg.setsOmitEnd hpatience (tokens.take n)
  by_cases hreject : ∀ l ∈ tried, l.accepts w.token = false
  · left
    have hlonger : (p.run w.purpose (w.tokens (tokens.take n).toArray)).outcome =
        .matched parsed.root := by
      rw [htokens, hw]
      exact hmatched
    exact ⟨_, parse_take_of_rejected hg htried hreject hlonger (by omega)⟩
  push Not at hreject
  obtain ⟨l, hl, haccepts⟩ := hreject
  have haccepts : l.accepts w.token = true := by simpa using haccepts
  have hmissed (x : Expectation) (hx : x ∈ l.expectations) :
      ⟨n, x⟩ ∈ (p.run .completing (tokens.take n).toArray).record.misses.toList := by
    have hmisses := htried.misses x
    rw [List.size_toArray, hlength] at hmisses
    exact hmisses.mpr ⟨l, hl, hx⟩
  cases hparse : p.parse (tokens.take n) with
  | ok front => exact .inl ⟨front, rfl⟩
  | error err =>
    obtain ⟨e, rfl⟩ := hlimits err hparse
    have hnext : tokens[n]? = some w.token := by
      rw [hw]
      exact List.getElem?_eq_getElem hcut
    exact .inr ⟨e, rfl, endsEarly_of_missed hg hnext (htried.known l hl) haccepts hmissed hparse⟩

/-- The tokens of `SELECT (WITH a AS (SELECT 1) SELECT 1)`. -/
def withSubquery : List Token :=
  [⟨.keyword .SELECT, "SELECT", ⟨0, 6⟩⟩, ⟨.symbol .leftParen, "(", ⟨7, 8⟩⟩,
    ⟨.keyword .WITH, "WITH", ⟨8, 12⟩⟩, ⟨.identifier, "a", ⟨13, 14⟩⟩,
    ⟨.keyword .AS, "AS", ⟨15, 17⟩⟩, ⟨.symbol .leftParen, "(", ⟨18, 19⟩⟩,
    ⟨.keyword .SELECT, "SELECT", ⟨19, 25⟩⟩, ⟨.integer, "1", ⟨26, 27⟩⟩,
    ⟨.symbol .rightParen, ")", ⟨27, 28⟩⟩, ⟨.keyword .SELECT, "SELECT", ⟨29, 35⟩⟩,
    ⟨.integer, "1", ⟨36, 37⟩⟩, ⟨.symbol .rightParen, ")", ⟨37, 38⟩⟩]

/-- Cut off behind the common table expression, it is blamed for its third token:
    the expression in parentheses commits behind its parenthesis, and does not know
    how far the subquery has come. -/
theorem blamed_before_cut_withSubquery :
    (∃ parsed, (ofGrammar Sqlite.grammar).parse withSubquery = .ok parsed ∧
      parsed.root.span.stop = 12) ∧
    ∃ e, (ofGrammar Sqlite.grammar).parse (withSubquery.take 9) = .error (.input e) ∧
      e.position = 2 := by
  constructor
  · have hstop : ((ofGrammar Sqlite.grammar).parse withSubquery).toOption.map
        (·.root.span.stop) = some 12 := by decide +kernel
    cases hparse : (ofGrammar Sqlite.grammar).parse withSubquery with
    | ok parsed =>
      rw [hparse] at hstop
      exact ⟨parsed, rfl, Option.some.inj hstop⟩
    | error err =>
      rw [hparse] at hstop
      cases hstop
  · have hinput : (inputError? ((ofGrammar Sqlite.grammar).parse (withSubquery.take 9))).any
        (·.position == 2) = true := by decide +kernel
    obtain ⟨e, herror, hposition⟩ := exists_of_any_inputError? hinput
    exact ⟨e, herror, by simpa using hposition⟩

/-- Behind the common table expression the parenthesis overlooks the cut. Cut off
    inside of it the same statement is blamed at the cut, by the table expression,
    which has committed to its name. -/
theorem parse_take_withSubquery :
    (∃ e, (ofGrammar Sqlite.grammar).parse (withSubquery.take 9) = .error (.input e) ∧
      e.position = 2 ∧ (ofGrammar Sqlite.grammar).EndsEarly withSubquery 9 e) ∧
    ∃ e, (ofGrammar Sqlite.grammar).parse (withSubquery.take 4) = .error (.input e) ∧
      ((ofGrammar Sqlite.grammar).run .reading (withSubquery.take 4).toArray).outcome =
        .aborted (.input e) ∧
      e.position = 4 ∧ (ofGrammar Sqlite.grammar).EndsEarly withSubquery 4 e := by
  have hstop : ((ofGrammar Sqlite.grammar).parse withSubquery).toOption.map
      (·.root.span.stop) = some 12 := by decide +kernel
  have hearly (n : Nat) (e : InputError) (hn : n ≤ 12)
      (herror : (ofGrammar Sqlite.grammar).parse (withSubquery.take n) = .error (.input e)) :
      (ofGrammar Sqlite.grammar).EndsEarly withSubquery n e := by
    cases hparse : (ofGrammar Sqlite.grammar).parse withSubquery with
    | error err =>
      rw [hparse] at hstop
      cases hstop
    | ok parsed =>
      rw [hparse] at hstop
      have hlast : parsed.root.span.stop = 12 := Option.some.inj hstop
      have hlimits (err : ParseError)
          (herr : (ofGrammar Sqlite.grammar).parse (withSubquery.take n) = .error err) :
          ∃ e, err = .input e := by
        rw [herror] at herr
        exact ⟨e, (Except.error.inj herr).symm⟩
      rcases parse_take (ofGrammar Sqlite.grammar) withSubquery parsed n Sqlite.grammar_orderly rfl
        hparse (by omega) hlimits with ⟨front, hfront⟩ | ⟨e', herror', hends⟩
      · rw [herror] at hfront
        cases hfront
      · rw [herror] at herror'
        cases herror'
        exact hends
  constructor
  · have hinput : (inputError? ((ofGrammar Sqlite.grammar).parse (withSubquery.take 9))).any
        (·.position == 2) = true := by decide +kernel
    obtain ⟨e, herror, hposition⟩ := exists_of_any_inputError? hinput
    exact ⟨e, herror, by simpa using hposition, hearly 9 e (by decide) herror⟩
  · have hraised : ((ofGrammar Sqlite.grammar).run .reading
        (withSubquery.take 4).toArray).outcome.inputError?.any (·.position == 4) = true := by
      decide +kernel
    obtain ⟨e, houtcome, hposition⟩ := Outcome.exists_of_any_inputError? hraised
    have herror :
        (ofGrammar Sqlite.grammar).parse (withSubquery.take 4) = .error (.input e) := by
      simp only [parse, concludeAll, conclude, houtcome]
      rfl
    exact ⟨e, herror, houtcome, by simpa using hposition, hearly 4 e (by decide) herror⟩

end Parser

end SqlStatement

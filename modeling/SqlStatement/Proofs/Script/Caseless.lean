import SqlStatement.Proofs.Match.Outline
import SqlStatement.Proofs.Script.Course
import SqlStatement.Sqlite

namespace SqlStatement

/-- Upper case changes nothing that a match looks at. -/
theorem Token.outline_upper (t : Token) : t.upper.outline = t.outline := by
  simp [upper, outline, Text.upper_upper]

theorem Token.map_outline_upper (tokens : List Token) :
    (tokens.map upper).map outline = tokens.map outline := by
  simp [Function.comp_def, outline_upper]

namespace ParseError

/-- Only an input error quotes the input. -/
theorem upper_eq {err : ParseError} (h : ∀ e, err ≠ .input e) : err.upper = err := by
  cases err with
  | input e => exact absurd rfl (h e)
  | outOfFuel | tooDeep | cancelled | unknownProduction => rfl

/-- What reads as an input error in upper case is one, which differs at most in what
    it quotes. -/
theorem eq_input_of_upper {err : ParseError} {e : InputError}
    (h : err.upper = ParseError.upper (.input e)) :
    ∃ e', err = .input e' ∧ e'.quote Text.upper = e.quote Text.upper := by
  cases err with
  | input e' => exact ⟨e', rfl, ParseError.input.inj h⟩
  | outOfFuel | tooDeep | cancelled | unknownProduction => cases h

end ParseError

namespace Diagnostic

/-- The kind of a diagnostic and its place, without the message. -/
def heading (d : Diagnostic) : Kind × Span := (d.kind, d.span)

/-- The kind of a diagnostic depends on whether a text is quoted and not on the
    text. -/
theorem kindOf_quote (q : String → String) (e : InputError) : kindOf (e.quote q) = kindOf e := by
  obtain ⟨position, expected, found⟩ := e
  cases found <;> rfl

/-- Upper case does not move a token. It goes by the spans alone, and these are the
    same. -/
theorem place_upper (tokens : List Token) (position : Nat) :
    place (tokens.map Token.upper) position = place tokens position := by
  unfold place
  rw [List.getElem?_map, List.getLast?_map]
  cases tokens[position]? with
  | some t => rfl
  | none =>
    cases tokens.getLast? <;> rfl

/-- Errors that differ in what they quote have the same heading. -/
theorem heading_ofInputError {e e' : InputError} {q : String → String}
    (h : e'.quote q = e.quote q) (tokens : List Token) :
    (ofInputError e' (tokens.map Token.upper)).heading = (ofInputError e tokens).heading := by
  have hkind : kindOf e' = kindOf e := by rw [← kindOf_quote q, h, kindOf_quote]
  have hposition : e'.position = e.position := congrArg (·.position) h
  simp only [heading, ofInputError, hkind, hposition, place_upper]

end Diagnostic

namespace Parser

variable {p : Parser} {tokens : List Token}

/-- Tokens in upper case start with as long a statement. -/
theorem parsePrefix_upper {front : Prefix} (h : p.parsePrefix tokens = .ok front) :
    ∃ front', p.parsePrefix (tokens.map Token.upper) = .ok front' ∧
      front'.consumed = front.consumed := by
  obtain ⟨tree, hconclude, hstop⟩ := conclude_of_parsePrefix h
  have hsame := conclude_of_outlines (p := p) (Token.map_outline_upper tokens)
  rw [hconclude] at hsame
  exact ⟨_, parsePrefix_of_conclude (mapError_eq_ok.mp hsame), hstop⟩

/-- Where tokens start with no statement those in upper case do not, for the same
    reason. -/
theorem parsePrefix_upper_error {err : ParseError} (h : p.parsePrefix tokens = .error err) :
    ∃ err', p.parsePrefix (tokens.map Token.upper) = .error err' ∧
      err'.upper = err.upper := by
  have hsame := conclude_of_outlines (p := p) (Token.map_outline_upper tokens)
  rw [parsePrefix_eq_error h] at hsame
  obtain ⟨err', hconclude, houtline⟩ := mapError_eq_error.mp hsame
  refine ⟨err', ?_, houtline⟩
  simp only [parsePrefix, hconclude]
  rfl

/-- The same for a statement that has to take all of the tokens. The error is the
    same up to the case of what it quotes. -/
theorem parse_upper_error {err : ParseError} (h : p.parse tokens = .error err) :
    ∃ err', p.parse (tokens.map Token.upper) = .error err' ∧ err'.upper = err.upper := by
  have hsame := concludeAll_of_outlines (p := p) (Token.map_outline_upper tokens)
  rw [parse_eq_error h] at hsame
  obtain ⟨err', hconclude, houtline⟩ := mapError_eq_error.mp hsame
  refine ⟨err', ?_, houtline⟩
  simp only [parse, hconclude]
  rfl

end Parser

namespace Script

open Diagnostic (heading heading_ofInputError)
open SqlStatement.Parser

variable {p : Parser} {tokens : List Token}

/-- Tokens in upper case are checked with the same headings, each rule by the same
    rule. -/
theorem Checked.upper {answer : Except ParseError (List Diagnostic)} (h : Checked p tokens answer) :
    ∃ answer', Checked p (tokens.map Token.upper) answer' ∧
      answer'.map (·.map heading) = answer.map (·.map heading) := by
  induction h with
  | nil => exact ⟨_, .nil, rfl⟩
  | @stray semicolon rest answer hstray _ ih =>
    obtain ⟨answer', hrest, hsame⟩ := ih
    refine ⟨_, .stray hstray hrest, ?_⟩
    cases answer <;> cases answer' <;> simp_all [Except.map, Token.upper]
  | last hfirst hread hend =>
    obtain ⟨front', hread', hconsumed⟩ := parsePrefix_upper hread
    refine ⟨_, .last hfirst hread' ?_, rfl⟩
    simp [hconsumed, hend]
  | @statement first t rest front answer hfirst hread hnext ht _ ih =>
    obtain ⟨front', hread', hconsumed⟩ := parsePrefix_upper hread
    obtain ⟨answer', hbehind, hsame⟩ := ih
    have hnext' : ((first :: rest).map Token.upper)[front'.consumed]? = some t.upper := by
      rw [hconsumed, List.getElem?_map, hnext]
      rfl
    rw [List.map_drop, ← hconsumed] at hbehind
    exact ⟨answer', .statement hfirst hread' hnext' ht hbehind, hsame⟩
  | @overrun first t rest front e hfirst hread hnext ht herror =>
    obtain ⟨front', hread', hconsumed⟩ := parsePrefix_upper hread
    obtain ⟨err', herror', herrors⟩ := parse_upper_error herror
    obtain ⟨e', rfl, hquotes⟩ := ParseError.eq_input_of_upper herrors
    have hnext' : ((first :: rest).map Token.upper)[front'.consumed]? = some t.upper := by
      rw [hconsumed, List.getElem?_map, hnext]
      rfl
    refine ⟨_, .overrun hfirst hread' hnext' ht herror', ?_⟩
    exact congrArg (fun h => Except.ok [h]) (heading_ofInputError hquotes (_ :: _))
  | failed hfirst herror =>
    obtain ⟨err', herror', herrors⟩ := parsePrefix_upper_error herror
    obtain ⟨e', rfl, hquotes⟩ := ParseError.eq_input_of_upper herrors
    refine ⟨_, .failed hfirst herror', ?_⟩
    exact congrArg (fun h => Except.ok [h]) (heading_ofInputError hquotes (_ :: _))
  | @aborted first rest err hfirst herror hlimit =>
    obtain ⟨err', herror', herrors⟩ := parsePrefix_upper_error herror
    rw [ParseError.upper_eq hlimit] at herrors
    have hlimit' : ∀ e, err' ≠ .input e := by
      rintro e rfl
      exact hlimit _ herrors.symm
    rw [ParseError.upper_eq hlimit'] at herrors
    exact ⟨_, .aborted hfirst herror' hlimit', by rw [herrors]⟩

/-- A check of tokens in upper case has the same headings. -/
theorem headings_upper (p : Parser) (tokens : List Token) :
    (check p (tokens.map Token.upper)).map (·.map heading) =
      (check p tokens).map (·.map heading) := by
  have hchecked : Checked p tokens (check p tokens) := checked_iff.mpr rfl
  obtain ⟨answer, hupper, hsame⟩ := hchecked.upper
  rw [checked_iff.mp hupper, hsame]

end Script

/-- Source texts in different letter case have the same tokens up to letter case,
    are parsed to the same tree or to errors that differ in what they quote, and are
    checked with the same headings. -/
theorem caseless {a b : String} (hsame : Text.upper a = Text.upper b) :
    (Lexer.lex a).map Token.upper = (Lexer.lex b).map Token.upper ∧
      ∀ p : Parser,
        ((p.parse (Lexer.lex a)).map (·.root)).mapError ParseError.upper =
            ((p.parse (Lexer.lex b)).map (·.root)).mapError ParseError.upper ∧
          (Script.check p (Lexer.lex a)).map (·.map Diagnostic.heading) =
            (Script.check p (Lexer.lex b)).map (·.map Diagnostic.heading) := by
  have htokens : (Lexer.lex a).map Token.upper = (Lexer.lex b).map Token.upper := by
    rw [← Lexer.lex_upper, ← Lexer.lex_upper, hsame]
  refine ⟨htokens, fun p => ⟨Parser.parse_of_outlines ?_, ?_⟩⟩
  · rw [← Token.map_outline_upper, htokens, Token.map_outline_upper]
  · rw [← Script.headings_upper, htokens, Script.headings_upper]

/-- A blob, a float and a quoted name in two spellings are parsed to the same tree,
    which reaches to the end. Behind them a character that no token starts with
    gives the same error in both spellings. -/
theorem caseless_select :
    (Text.upper "SELECT X'aF', 1E5 FROM \"Ab\"" = Text.upper "select x'Af', 1e5 From \"aB\"" ∧
      ∃ parsed parsed', (Parser.ofGrammar Sqlite.grammar).parse
          (Lexer.lex "SELECT X'aF', 1E5 FROM \"Ab\"") = .ok parsed ∧
        (Parser.ofGrammar Sqlite.grammar).parse
          (Lexer.lex "select x'Af', 1e5 From \"aB\"") = .ok parsed' ∧
        parsed.root.span = ⟨0, 6⟩ ∧ parsed'.root = parsed.root) ∧
    Text.upper "SELECT X'aF', 1E5 FROM \"Ab\" ´" = Text.upper "select x'Af', 1e5 From \"aB\" ´" ∧
      (Lexer.lex "SELECT X'aF', 1E5 FROM \"Ab\" ´").map Token.upper =
        (Lexer.lex "select x'Af', 1e5 From \"aB\" ´").map Token.upper ∧
      (((Parser.ofGrammar Sqlite.grammar).parse
          (Lexer.lex "SELECT X'aF', 1E5 FROM \"Ab\" ´")).map (·.root)).mapError
            ParseError.upper =
        (((Parser.ofGrammar Sqlite.grammar).parse
          (Lexer.lex "select x'Af', 1e5 From \"aB\" ´")).map (·.root)).mapError
            ParseError.upper ∧
      (Script.check (Parser.ofGrammar Sqlite.grammar)
          (Lexer.lex "SELECT X'aF', 1E5 FROM \"Ab\" ´")).map (·.map Diagnostic.heading) =
        (Script.check (Parser.ofGrammar Sqlite.grammar)
          (Lexer.lex "select x'Af', 1e5 From \"aB\" ´")).map (·.map Diagnostic.heading) := by
  have hsame : Text.upper "SELECT X'aF', 1E5 FROM \"Ab\"" =
      Text.upper "select x'Af', 1e5 From \"aB\"" := by decide
  have hsame' : Text.upper "SELECT X'aF', 1E5 FROM \"Ab\" ´" =
      Text.upper "select x'Af', 1e5 From \"aB\" ´" := by decide
  obtain ⟨htokens, hread⟩ := caseless hsame'
  refine ⟨⟨hsame, ?_⟩, hsame', htokens, hread (.ofGrammar Sqlite.grammar)⟩
  have hroot := ((caseless hsame).2 (.ofGrammar Sqlite.grammar)).1
  have hspan : ((Parser.ofGrammar Sqlite.grammar).parse
      (Lexer.lex "SELECT X'aF', 1E5 FROM \"Ab\"")).toOption.map (·.root.span) = some ⟨0, 6⟩ := by
    decide +kernel
  cases hparse : (Parser.ofGrammar Sqlite.grammar).parse
      (Lexer.lex "SELECT X'aF', 1E5 FROM \"Ab\"") with
  | error err =>
    rw [hparse] at hspan
    cases hspan
  | ok parsed =>
    rw [hparse] at hspan hroot
    cases hparse' : (Parser.ofGrammar Sqlite.grammar).parse
        (Lexer.lex "select x'Af', 1e5 From \"aB\"") with
    | error err =>
      rw [hparse'] at hroot
      cases hroot
    | ok parsed' =>
      rw [hparse'] at hroot
      exact ⟨parsed, parsed', rfl, rfl, Option.some.inj hspan, (Except.ok.inj hroot).symm⟩

end SqlStatement

import SqlStatement.Lexer
import SqlStatement.Proofs.Script.Course
import SqlStatement.Sqlite

namespace SqlStatement.Script

variable {p : Parser}

/-- The places where a statement may start: at the front, behind a stray semicolon,
    and behind the semicolon of a statement that starts at such a place. -/
inductive Starts (p : Parser) : List Token → Nat → Prop
  | here {tokens : List Token} : Starts p tokens 0
  | stray {semicolon : Token} {rest : List Token} {i : Nat}
      (hstray : semicolon.isSemicolon = true) (hrest : Starts p rest i) :
      Starts p (semicolon :: rest) (i + 1)
  | behind {first t : Token} {rest : List Token} {front : Prefix} {i : Nat}
      (hfirst : first.isSemicolon = false) (hread : p.parsePrefix (first :: rest) = .ok front)
      (hnext : (first :: rest)[front.consumed]? = some t) (ht : t.isSemicolon = true)
      (hbehind : Starts p ((first :: rest).drop (front.consumed + 1)) i) :
      Starts p (first :: rest) (front.consumed + 1 + i)

/-- The tokens are stray semicolons and statements one behind the other. A statement
    has a token, it does not start with a semicolon, and there is one behind it
    unless the tokens end. -/
inductive Splits (p : Parser) : List Token → Prop
  | nil : Splits p []
  | stray {semicolon : Token} {rest : List Token} (hstray : semicolon.isSemicolon = true)
      (hrest : Splits p rest) : Splits p (semicolon :: rest)
  | last {first : Token} {rest : List Token} {front : Prefix}
      (hfirst : first.isSemicolon = false) (hread : p.parsePrefix (first :: rest) = .ok front)
      (hend : front.consumed = (first :: rest).length) : Splits p (first :: rest)
  | statement {first t : Token} {rest : List Token} {front : Prefix}
      (hfirst : first.isSemicolon = false) (hread : p.parsePrefix (first :: rest) = .ok front)
      (hsome : 0 < front.consumed) (hnext : (first :: rest)[front.consumed]? = some t)
      (ht : t.isSemicolon = true) (hbehind : Splits p ((first :: rest).drop (front.consumed + 1))) :
      Splits p (first :: rest)

/-- What stands at a place where a statement may start is a semicolon. -/
def StrayAt (p : Parser) (tokens : List Token) (i : Nat) : Prop :=
  Starts p tokens i ∧ ∃ t, tokens[i]? = some t ∧ t.isSemicolon = true

/-- A warning for each of the tokens at some places. -/
def warnings (tokens : List Token) (places : List Nat) : List Diagnostic :=
  (places.filterMap (tokens[·]?)).map fun t => .ofKind .emptyStatement t.span

/-- What a check that is not given up says. -/
structure Verdict (p : Parser) (tokens : List Token) (ds : List Diagnostic) : Prop where
  /-- One warning for each stray semicolon, in their order, and at most one error behind them. -/
  messages : ∃ strays errors, ds = warnings tokens strays ++ errors ∧
    strays.Pairwise (· < ·) ∧ (∀ i, i ∈ strays ↔ StrayAt p tokens i) ∧
    errors.length ≤ 1 ∧ ∀ d ∈ errors, d.severity = .error
  clean_iff : (∀ d ∈ ds, d.severity ≠ .error) ↔ Splits p tokens
  /-- A statement that stops in front of something else than a semicolon is read
      again up to the end, and what is wrong then is reported last. -/
  overrun : ∀ i first front t, Starts p tokens i → tokens[i]? = some first →
    first.isSemicolon = false → p.parsePrefix (tokens.drop i) = .ok front →
    tokens[i + front.consumed]? = some t → t.isSemicolon = false →
    ∃ e, p.parse (tokens.drop i) = .error (.input e) ∧
      ds.getLast? = some (.ofInputError e (tokens.drop i))

/-- An input error is reported as an error, and only a stray semicolon as a
    warning. -/
theorem severity_ofInputError (e : InputError) (tokens : List Token) :
    (Diagnostic.ofInputError e tokens).severity = .error := by
  simp only [Diagnostic.ofInputError, Diagnostic.severity, Diagnostic.kindOf]
  split
  · rfl
  · split <;> rfl

/-- Behind its first `n` tokens a script starts again. -/
structure Resumes (p : Parser) (tokens : List Token) (n : Nat) : Prop where
  pos : 0 < n
  starts_iff : ∀ i, Starts p tokens i ↔ i = 0 ∨ ∃ j, i = n + j ∧ Starts p (tokens.drop n) j

/-- Behind a stray semicolon a script starts again. Statements start at the same
    tokens as in the rest, moved by one. -/
theorem resumes_stray {semicolon : Token} (hstray : semicolon.isSemicolon = true)
    (rest : List Token) : Resumes p (semicolon :: rest) 1 where
  pos := Nat.zero_lt_one
  starts_iff i := by
    constructor
    · intro h
      cases h with
      | here => exact .inl rfl
      | @stray _ _ i _ hrest => exact .inr ⟨i, Nat.add_comm .., hrest⟩
      | behind hfirst =>
        rw [hstray] at hfirst
        cases hfirst
    · rintro (rfl | ⟨j, rfl, hrest⟩)
      · exact .here
      · rw [Nat.add_comm]
        exact .stray hstray hrest

section Statement

variable {first : Token} {rest : List Token} {front : Prefix}

/-- Behind a statement and its semicolon it does so too. They are moved by the
    length of the statement and by the semicolon. -/
theorem resumes_statement {t : Token} (hfirst : first.isSemicolon = false)
    (hread : p.parsePrefix (first :: rest) = .ok front)
    (hnext : (first :: rest)[front.consumed]? = some t) (ht : t.isSemicolon = true) :
    Resumes p (first :: rest) (front.consumed + 1) where
  pos := Nat.succ_pos _
  starts_iff i := by
    constructor
    · intro h
      cases h with
      | here => exact .inl rfl
      | stray hstray =>
        rw [hfirst] at hstray
        cases hstray
      | behind _ hread' _ _ hbehind =>
        cases hread.symm.trans hread'
        exact .inr ⟨_, rfl, hbehind⟩
    · rintro (rfl | ⟨j, rfl, hbehind⟩)
      · exact .here
      · exact .behind hfirst hread hnext ht hbehind

/-- Where no semicolon stands behind a statement, no other one starts. A statement
    starts with the first token there, and reading goes on only behind such a
    semicolon. -/
theorem Starts.eq_zero {i : Nat} (h : Starts p (first :: rest) i)
    (hfirst : first.isSemicolon = false)
    (hends : ∀ front t, p.parsePrefix (first :: rest) = .ok front →
      (first :: rest)[front.consumed]? = some t → t.isSemicolon = false) : i = 0 := by
  cases h with
  | here => rfl
  | stray hstray _ =>
    rw [hfirst] at hstray
    cases hstray
  | behind _ hread hnext ht _ =>
    rw [hends _ _ hread hnext] at ht
    cases ht

/-- A script that splits starts with a statement that a semicolon follows or that
    ends it, and what is behind the semicolon splits as well. -/
theorem Splits.head {tokens : List Token} (h : Splits p tokens) (htokens : tokens = first :: rest)
    (hfirst : first.isSemicolon = false) : ∃ front, p.parsePrefix tokens = .ok front ∧
      ∀ t, tokens[front.consumed]? = some t →
        t.isSemicolon = true ∧ Splits p (tokens.drop (front.consumed + 1)) := by
  cases h with
  | nil => cases htokens
  | stray hstray _ =>
    cases htokens
    rw [hfirst] at hstray
    cases hstray
  | last _ hread hend =>
    refine ⟨_, hread, fun t ht => ?_⟩
    rw [List.getElem?_eq_none (Nat.le_of_eq hend.symm)] at ht
    cases ht
  | statement _ hread _ hnext ht hbehind =>
    refine ⟨_, hread, fun u hu => ?_⟩
    cases hnext.symm.trans hu
    exact ⟨ht, hbehind⟩

/-- A stray semicolon does not matter to whether a script splits. No statement
    starts with a semicolon, so it is stray in any way to split the script. -/
theorem splits_stray_iff {semicolon : Token} (hstray : semicolon.isSemicolon = true) :
    Splits p (semicolon :: rest) ↔ Splits p rest := by
  refine ⟨fun h => ?_, .stray hstray⟩
  cases h with
  | stray _ hrest => exact hrest
  | last hfirst | statement hfirst =>
    rw [hstray] at hfirst
    cases hfirst

/-- Nor does a statement in front of a semicolon. It has a token, since it does not
    start with the semicolon that it ends in front of. -/
theorem splits_statement_iff {t : Token} (hfirst : first.isSemicolon = false)
    (hread : p.parsePrefix (first :: rest) = .ok front)
    (hnext : (first :: rest)[front.consumed]? = some t) (ht : t.isSemicolon = true) :
    Splits p (first :: rest) ↔ Splits p ((first :: rest).drop (front.consumed + 1)) := by
  constructor
  · intro h
    obtain ⟨front', hread', hbehind⟩ := h.head rfl hfirst
    cases hread.symm.trans hread'
    exact (hbehind t hnext).2
  · refine .statement hfirst hread (Nat.pos_of_ne_zero fun hzero => ?_) hnext ht
    rw [hzero] at hnext
    cases hnext
    rw [hfirst] at ht
    cases ht

end Statement

namespace Verdict

variable {tokens : List Token} {n : Nat} {ds : List Diagnostic}

/-- Warnings at places further on are warnings of what is left of the tokens. -/
theorem warnings_add (tokens : List Token) (n : Nat) (strays : List Nat) :
    warnings tokens (strays.map (n + ·)) = warnings (tokens.drop n) strays := by
  simp only [warnings, List.filterMap_map, Function.comp_def, List.getElem?_drop]

/-- The stray semicolons of a script that starts again, without the first token. So
    they can be counted one part of a script after the other. -/
theorem strayAt_add (h : Resumes p tokens n) {j : Nat} :
    StrayAt p tokens (n + j) ↔ StrayAt p (tokens.drop n) j := by
  have hpos := h.pos
  simp only [StrayAt, h.starts_iff, List.getElem?_drop]
  refine and_congr_left fun _ => ⟨?_, fun hj => .inr ⟨j, rfl, hj⟩⟩
  rintro (hzero | ⟨i, hi, hstart⟩)
  · omega
  · cases Nat.add_left_cancel hi
    exact hstart

/-- What is said where something else than a semicolon follows a statement behind
    the first one. -/
theorem overrun_add (h : Verdict p (tokens.drop n) ds) {j : Nat} {first t : Token} {front : Prefix}
    (hstart : Starts p (tokens.drop n) j) (hat : tokens[n + j]? = some first)
    (hfirst : first.isSemicolon = false) (hread : p.parsePrefix (tokens.drop (n + j)) = .ok front)
    (hnext : tokens[n + j + front.consumed]? = some t) (ht : t.isSemicolon = false) :
    ∃ e, p.parse (tokens.drop (n + j)) = .error (.input e) ∧
      ds.getLast? = some (.ofInputError e (tokens.drop (n + j))) := by
  rw [← List.getElem?_drop] at hat
  rw [Nat.add_assoc, ← List.getElem?_drop] at hnext
  rw [← List.drop_drop] at hread ⊢
  exact h.overrun j first front t hstart hat hfirst hread hnext ht

theorem nil : Verdict p [] [] where
  messages := ⟨[], [], rfl, .nil, by simp [StrayAt], Nat.zero_le _, nofun⟩
  clean_iff := ⟨fun _ => .nil, nofun⟩
  overrun := by simp

/-- The verdict on a script that starts again, given that on the tokens where it
    does. This is the step of the induction for both ways to go on. -/
theorem resumed (h : Resumes p tokens n) (hrest : Verdict p (tokens.drop n) ds) (own : List Nat)
    (hown : ∀ i, i ∈ own ↔ i = 0 ∧ StrayAt p tokens 0) (hsorted : own.Pairwise (· < ·))
    (hsplits : Splits p tokens ↔ Splits p (tokens.drop n))
    (hstops : ∀ first front t, tokens[0]? = some first → first.isSemicolon = false →
      p.parsePrefix tokens = .ok front → tokens[front.consumed]? = some t → t.isSemicolon = true) :
    Verdict p tokens (warnings tokens own ++ ds) where
  messages := by
    obtain ⟨strays, errors, hds, hpairwise, hmem, hfew, herrors⟩ := hrest.messages
    have hpos := h.pos
    refine ⟨own ++ strays.map (n + ·), errors, ?_, ?_, fun i => ?_, hfew, herrors⟩
    · have hmore := warnings_add tokens n strays
      rw [warnings] at hmore
      rw [hds, ← hmore]
      simp [warnings]
    · refine List.pairwise_append.mpr ⟨hsorted, ?_, fun i hi j hj => ?_⟩
      · rw [List.pairwise_map]
        exact hpairwise.imp fun hlt => Nat.add_lt_add_left hlt n
      · obtain ⟨k, -, rfl⟩ := List.mem_map.mp hj
        have hzero := ((hown i).mp hi).1
        omega
    · rw [List.mem_append, hown, List.mem_map]
      constructor
      · rintro (⟨rfl, hzero⟩ | ⟨j, hj, rfl⟩)
        · exact hzero
        · exact (strayAt_add h).mpr ((hmem j).mp hj)
      · intro hi
        rcases (h.starts_iff i).mp hi.1 with rfl | ⟨j, rfl, -⟩
        · exact .inl ⟨rfl, hi⟩
        · exact .inr ⟨j, (hmem j).mpr ((strayAt_add h).mp hi), rfl⟩
  clean_iff := by
    have hmild : ∀ d ∈ warnings tokens own, d.severity ≠ .error := by
      intro d hd
      obtain ⟨t, -, rfl⟩ := List.mem_map.mp hd
      nofun
    rw [hsplits, ← hrest.clean_iff]
    constructor
    · exact fun hall d hd => hall d (List.mem_append_right _ hd)
    · intro hall d hd
      rcases List.mem_append.mp hd with hwarning | hmem
      · exact hmild d hwarning
      · exact hall d hmem
  overrun i first front t hstart hat hfirst hread hnext ht := by
    rcases (h.starts_iff i).mp hstart with rfl | ⟨j, rfl, hbehind⟩
    · rw [Nat.zero_add] at hnext
      rw [hstops first front t hat hfirst hread hnext] at ht
      cases ht
    · obtain ⟨e, herror, hlast⟩ := overrun_add hrest hbehind hat hfirst hread hnext ht
      refine ⟨e, herror, ?_⟩
      rw [List.getLast?_append, hlast]
      rfl

/-- The verdict on a script whose check ends with its first statement, read or not.
    If the statement is read to the end there is nothing to report, and else there
    is one error, which is the last one. -/
theorem ended {first : Token} {rest : List Token} (hfirst : first.isSemicolon = false)
    (hstops : ∀ front t, p.parsePrefix (first :: rest) = .ok front →
      (first :: rest)[front.consumed]? = some t → t.isSemicolon = false ∧
        ∃ e, p.parse (first :: rest) = .error (.input e) ∧
          ds.getLast? = some (.ofInputError e (first :: rest)))
    (hfew : ds.length ≤ 1) (herrors : ∀ d ∈ ds, d.severity = .error)
    (hsplits : ds = [] ↔ Splits p (first :: rest)) : Verdict p (first :: rest) ds := by
  have honly {i : Nat} (h : Starts p (first :: rest) i) : i = 0 :=
    h.eq_zero hfirst fun front t hread hnext => (hstops front t hread hnext).1
  constructor
  · refine ⟨[], ds, rfl, .nil, fun i => ⟨nofun, ?_⟩, hfew, herrors⟩
    rintro ⟨hstart, t, hat, ht⟩
    cases honly hstart
    cases hat
    rw [hfirst] at ht
    cases ht
  · rw [← hsplits, List.eq_nil_iff_forall_not_mem]
    exact forall_congr' fun d => ⟨fun h hd => h hd (herrors d hd), fun h hd => absurd hd h⟩
  · intro i first' front t hstart _ _ hread hnext _
    cases honly hstart
    rw [Nat.zero_add] at hnext
    exact (hstops front t hread hnext).2

end Verdict

/-- Each rule of a check that is not given up leads to the verdict. By induction on
    the rules. A semicolon adds a warning in front, a statement before a semicolon
    adds nothing, and the other rules end the check. -/
theorem Checked.verdict {tokens : List Token} {result : Except ParseError (List Diagnostic)}
    (h : Checked p tokens result) {ds : List Diagnostic} (hok : result = .ok ds) :
    Verdict p tokens ds := by
  induction h generalizing ds with
  | nil =>
    cases hok
    exact .nil
  | @stray semicolon rest answer hstray _ ih =>
    cases answer with
    | error err => cases hok
    | ok ds' =>
      cases hok
      have hat : StrayAt p (semicolon :: rest) 0 := ⟨.here, semicolon, rfl, hstray⟩
      refine .resumed (resumes_stray hstray rest) (ih rfl) [0] (by simp [hat]) (by simp)
        (splits_stray_iff hstray) fun first front t hfirst hfalse => ?_
      cases hfirst
      rw [hstray] at hfalse
      cases hfalse
  | @last first rest front hfirst hread hend =>
    cases hok
    refine .ended hfirst (fun front' t hread' hnext => ?_) (Nat.zero_le _) nofun
      ⟨fun _ => .last hfirst hread hend, fun _ => rfl⟩
    cases hread.symm.trans hread'
    rw [List.getElem?_eq_none (Nat.le_of_eq hend.symm)] at hnext
    cases hnext
  | @statement first t rest front answer hfirst hread hnext ht _ ih =>
    have hnone : ¬ StrayAt p (first :: rest) 0 := by
      rintro ⟨-, u, hu, htrue⟩
      cases hu
      rw [hfirst] at htrue
      cases htrue
    refine .resumed (resumes_statement hfirst hread hnext ht) (ih hok) [] (by simp [hnone])
      .nil (splits_statement_iff hfirst hread hnext ht) fun first' front' t' _ _ hread' hnext' => ?_
    cases hread.symm.trans hread'
    cases hnext.symm.trans hnext'
    exact ht
  | @overrun first t rest front e hfirst hread hnext ht herror =>
    cases hok
    refine .ended hfirst (fun front' t' hread' hnext' => ?_) (Nat.le_refl _)
      (by simp [severity_ofInputError]) ⟨nofun, fun hsplits => ?_⟩
    · cases hread.symm.trans hread'
      cases hnext.symm.trans hnext'
      exact ⟨ht, e, herror, rfl⟩
    · obtain ⟨front', hread', hbehind⟩ := hsplits.head rfl hfirst
      cases hread.symm.trans hread'
      rw [(hbehind t hnext).1] at ht
      cases ht
  | @failed first rest e hfirst herror =>
    cases hok
    refine .ended hfirst (fun front' t' hread' _ => ?_) (Nat.le_refl _)
      (by simp [severity_ofInputError]) ⟨nofun, fun hsplits => ?_⟩
    · cases herror.symm.trans hread'
    · obtain ⟨front', hread', -⟩ := hsplits.head rfl hfirst
      cases herror.symm.trans hread'
  | aborted => cases hok

/-- Where a check is given up: at a place where a statement may start stands one,
    and the attempt to read it ends for another reason than the input, an exhausted
    limit or a cancellation. All that is in front of the place was read, or a
    statement could not start there. -/
structure AbandonedAt (p : Parser) (tokens : List Token) (err : ParseError) (i : Nat) : Prop where
  starts : Starts p tokens i
  statement : ∃ first, tokens[i]? = some first ∧ first.isSemicolon = false
  gaveUp : p.parsePrefix (tokens.drop i) = .error err
  limit : ∀ e, err ≠ .input e

/-- A check has no other way to end with an error than the attempt at one statement,
    which is found by going the way of the check: past stray semicolons and
    statements in front of semicolons. -/
theorem Checked.abandonedAt {tokens : List Token} {result : Except ParseError (List Diagnostic)}
    (h : Checked p tokens result) {err : ParseError} (herror : result = .error err) :
    ∃ i, AbandonedAt p tokens err i := by
  induction h with
  | nil | last | overrun | failed => cases herror
  | @stray _ _ answer hstray _ ih =>
    cases answer with
    | error err' =>
      cases herror
      obtain ⟨i, hi⟩ := ih rfl
      exact ⟨i + 1, .stray hstray hi.starts, hi.statement, hi.gaveUp, hi.limit⟩
    | ok => cases herror
  | @statement first t rest front _ hfirst hread hnext ht _ ih =>
    obtain ⟨i, hstarts, ⟨next, hat, hnext'⟩, hgaveUp, hlimit⟩ := ih herror
    rw [List.getElem?_drop] at hat
    rw [List.drop_drop] at hgaveUp
    exact ⟨front.consumed + 1 + i, .behind hfirst hread hnext ht hstarts, ⟨next, hat, hnext'⟩,
      hgaveUp, hlimit⟩
  | @aborted first rest err' hfirst hgaveUp hlimit =>
    cases herror
    exact ⟨0, .here, ⟨first, rfl, hfirst⟩, hgaveUp, hlimit⟩

/-- A check is given up at a statement, or it says one warning for each stray
    semicolon and at most one error, which it does not say exactly where the script
    splits into stray semicolons and statements. No token is skipped: what follows a
    statement is a semicolon, or it is reported. -/
theorem check_verdict (p : Parser) (tokens : List Token) :
    (∃ ds, check p tokens = .ok ds ∧ Verdict p tokens ds) ∨
      ∃ err i, check p tokens = .error err ∧ AbandonedAt p tokens err i := by
  cases hcheck : check p tokens with
  | ok ds => exact .inl ⟨ds, rfl, (checked_iff.mpr hcheck).verdict rfl⟩
  | error err =>
    obtain ⟨i, hi⟩ := (checked_iff.mpr hcheck).abandonedAt rfl
    exact .inr ⟨err, i, rfl, hi⟩

/-- A stray semicolon, a statement and one that goes on with a token too many: the
    check warns of the first and reports the last. With too little fuel it is given
    up at the first statement. -/
theorem check_verdict_overrun :
    (∃ ds, check (.ofGrammar Sqlite.grammar) (Lexer.lex ";SELECT 1;SELECT 1 2") = .ok ds ∧
      ds.map (·.kind) = [.emptyStatement, .unexpectedToken] ∧
      Verdict (.ofGrammar Sqlite.grammar) (Lexer.lex ";SELECT 1;SELECT 1 2") ds) ∧
    ∃ err i, check ⟨Sqlite.grammar, Sqlite.grammar.root, ⟨8, 160⟩, none⟩
        (Lexer.lex ";SELECT 1;SELECT 1 2") = .error err ∧
      AbandonedAt ⟨Sqlite.grammar, Sqlite.grammar.root, ⟨8, 160⟩, none⟩
        (Lexer.lex ";SELECT 1;SELECT 1 2") err i := by
  constructor
  · have hkinds :
        (check (.ofGrammar Sqlite.grammar) (Lexer.lex ";SELECT 1;SELECT 1 2")).toOption.map
          (·.map (·.kind)) = some [.emptyStatement, .unexpectedToken] := by decide +kernel
    rcases check_verdict (.ofGrammar Sqlite.grammar) (Lexer.lex ";SELECT 1;SELECT 1 2") with
      ⟨ds, hcheck, hverdict⟩ | ⟨err, -, hcheck, -⟩
    · rw [hcheck] at hkinds
      exact ⟨ds, hcheck, Option.some.inj hkinds, hverdict⟩
    · rw [hcheck] at hkinds
      cases hkinds
  · have hnone : (check ⟨Sqlite.grammar, Sqlite.grammar.root, ⟨8, 160⟩, none⟩
        (Lexer.lex ";SELECT 1;SELECT 1 2")).toOption = none := by decide +kernel
    rcases check_verdict ⟨Sqlite.grammar, Sqlite.grammar.root, ⟨8, 160⟩, none⟩
      (Lexer.lex ";SELECT 1;SELECT 1 2") with ⟨ds, hcheck, -⟩ | habandoned
    · rw [hcheck] at hnone
      cases hnone
    · exact habandoned

end SqlStatement.Script

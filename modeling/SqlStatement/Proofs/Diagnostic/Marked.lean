import SqlStatement.Proofs.Completion.Agreement
import SqlStatement.Proofs.Lexer.Lossless
import SqlStatement.Proofs.Script.Course
import SqlStatement.Report.Source
import SqlStatement.Sqlite

namespace SqlStatement

open scoped Computability

open Token (Kind)

namespace Span

variable {span : Span} {source text : String}

/-- The span covers whole characters of the text. -/
structure Within (span : Span) (source : String) : Prop where
  start_le_stop : span.start ≤ span.stop
  stop_le : span.stop ≤ source.utf8ByteSize
  start_isValid : (⟨span.start⟩ : String.Pos.Raw).IsValid source
  stop_isValid : (⟨span.stop⟩ : String.Pos.Raw).IsValid source

/-- A span that selects a text covers whole characters. The text stands behind some
    front of the source, and both ends are lengths of fronts. -/
theorem Selects.within (h : span.Selects source text) : span.Within source := by
  have hstop_le := h.stop_le
  obtain ⟨before, after, hsource, hstart, hstop⟩ := h
  refine ⟨by omega, hstop_le, ?_, ?_⟩ <;> rw [String.Pos.Raw.isValid_iff_exists_append]
  · refine ⟨before, text ++ after, by rw [hsource, String.append_assoc], ?_⟩
    rw [hstart]
    rfl
  · refine ⟨before ++ text, after, hsource, ?_⟩
    rw [hstop, hstart, ← String.utf8ByteSize_append]
    rfl

end Span

namespace Report

variable {span : Span} {source text : String}

/-- What a report marks for the span, which is one byte more where the span is
    empty, is a part of the source that ends between characters. It is empty only at
    the end. -/
structure Marks (source : String) (span : Span) : Prop where
  within : (markedSpan span source.utf8ByteSize).Within source
  start_eq_of_empty :
    (markedSpan span source.utf8ByteSize).start = (markedSpan span source.utf8ByteSize).stop →
      (markedSpan span source.utf8ByteSize).start = source.utf8ByteSize

/-- A span with some bytes is marked as it is. -/
theorem markedSpan_of_lt (h : span.start < span.stop) (size : Nat) :
    markedSpan span size = span := by
  have hempty : ¬span.isEmpty = true := by
    rw [Span.isEmpty, beq_iff_eq]
    omega
  rw [markedSpan, if_neg hempty]

/-- An empty span is marked by the next byte, if there is one. -/
theorem markedSpan_empty (n size : Nat) : markedSpan ⟨n, n⟩ size = ⟨n, min (n + 1) size⟩ := by
  rw [markedSpan, Span.isEmpty, beq_self_eq_true, if_pos rfl]

/-- What selects some bytes of the source can be marked. Its ends are those of whole
    characters, and there is a byte to be marked. -/
theorem marks_of_lt (h : span.Selects source text) (hlt : span.start < span.stop) :
    Marks source span := by
  have hmarked := markedSpan_of_lt hlt source.utf8ByteSize
  constructor <;> rw [hmarked]
  · exact h.within
  · omega

/-- One byte more is marked where the next character has one byte, or where there is
    none. -/
theorem marks_empty {n : Nat} (h : Span.Selects ⟨n, source.utf8ByteSize⟩ source text)
    (hnext : ∀ c ∈ text.toList.head?, c.utf8Size = 1) : Marks source ⟨n, n⟩ := by
  have hle : n + text.utf8ByteSize = source.utf8ByteSize := by
    obtain ⟨before, after, -, -, hstop⟩ := h
    exact hstop.symm
  cases htext : text.toList with
  | nil =>
    have hempty : text = "" := String.toList_eq_nil_iff.mp htext
    have hend : n = source.utf8ByteSize := by simpa [hempty] using hle
    constructor <;> rw [markedSpan_empty, ← hend, Nat.min_eq_right (Nat.le_succ n)]
    · exact hend ▸ h.within
    · exact fun _ => rfl
  | cons c cs =>
    have hsize : c.utf8Size = 1 := hnext c (by rw [htext]; rfl)
    have hcut : text = String.singleton c ++ String.ofList cs := by
      rw [← String.ofList_toList (s := text), htext]
      exact String.ofList_cons
    have hroom : n + 1 ≤ source.utf8ByteSize := by
      rw [hcut, String.utf8ByteSize_append, String.utf8ByteSize_singleton, hsize] at hle
      omega
    have hselects : Span.Selects ⟨n, n + 1⟩ source (String.singleton c) := by
      obtain ⟨before, after, hsource, hstart, -⟩ := h
      refine ⟨before, String.ofList cs ++ after, ?_, hstart, ?_⟩
      · simp only [hsource, hcut, String.append_assoc]
      · rw [String.utf8ByteSize_singleton, hsize]
    constructor <;> rw [markedSpan_empty, Nat.min_eq_left hroom]
    · exact hselects.within
    · dsimp only
      omega

end Report

namespace Lexer

open Report

/-- Blanks have one byte each. -/
theorem utf8Size_of_isBlank {c : Char} (hc : Lexeme.isBlank c = true) : c.utf8Size = 1 := by
  simp only [Lexeme.isBlank, Bool.or_eq_true, beq_iff_eq] at hc
  rcases hc with (((rfl | rfl) | rfl) | rfl) | rfl <;> rfl

/-- Blanks and comments start with a character of one byte. So what follows the last
    token, if anything, starts with one. -/
theorem utf8Size_of_head?_trivia {w : List Char} (hw : w ∈ trivia) {c : Char}
    (hc : c ∈ w.head?) : c.utf8Size = 1 := by
  rw [trivia, Pattern.kstar_eq] at hw
  rcases hw with rfl | ⟨piece, hpiece, rest, -, rfl⟩
  · cases hc
  cases piece with
  | nil =>
    rcases hpiece with (hspace | hline) | hblock
    · exact absurd hspace (Kind.nil_notMem_pattern .whitespace)
    · exact absurd hline (Kind.nil_notMem_pattern .lineComment)
    · exact absurd hblock (Kind.nil_notMem_pattern .blockComment)
  | cons d ds =>
    cases hc
    rcases hpiece with (hspace | hline) | hblock
    · exact utf8Size_of_isBlank (Pattern.cons_mem_several.mp hspace).1
    · obtain ⟨more, -, heq⟩ := Pattern.mem_singleton_mul.mp hline
      cases heq
      rfl
    · obtain ⟨more, -, heq⟩ := Pattern.mem_singleton_mul.mp hblock
      cases heq
      rfl

/-- Behind the last token there is the last gap. Where there is no token at all, it
    is the only one. -/
theorem mem_gaps_last (start stop : Nat) (tokens : List Token) :
    ⟨tokens.getLast?.elim start (·.span.stop), stop⟩ ∈ gaps start stop tokens := by
  induction tokens generalizing start with
  | nil => exact List.mem_singleton_self _
  | cons t ts ih =>
    refine List.mem_cons_of_mem _ ?_
    cases ts with
    | nil => exact ih t.span.stop
    | cons u us =>
      rw [List.getLast?_cons_cons]
      exact ih t.span.stop

/-- The place of an error of some tokens, up to the last one, can be marked. A token
    has some bytes, and at the end of the last one the gap behind it decides. -/
theorem Lossless.marks_place {source : String} {tokens slice : List Token}
    (h : Lossless source tokens) (hsubset : slice ⊆ tokens)
    (hlast : slice.getLast? = tokens.getLast?) (position : Nat) :
    Marks source (Diagnostic.place slice position) := by
  rw [Diagnostic.place]
  split
  · next t ht =>
    have hmem : t ∈ tokens := hsubset (List.mem_of_getElem? ht)
    exact marks_of_lt (h.selects t hmem) (h.nonempty t hmem)
  · obtain ⟨text, hselects, htext⟩ := h.gaps _ (mem_gaps_last 0 source.utf8ByteSize tokens)
    have hmarks := marks_empty hselects fun c => utf8Size_of_head?_trivia htext
    rw [← hlast] at hmarks
    split
    · next last heq => rwa [heq] at hmarks
    · next heq => rwa [heq] at hmarks

end Lexer

/-- What an error quotes is the text of the token at its place. -/
theorem InputError.Founded.found_eq {tokens : Array Token} {misses : List Miss} {e : InputError}
    (h : e.Founded tokens misses) : e.found = tokens[e.position]?.map (·.text) := by
  obtain ⟨current, slice, -, rfl⟩ := h
  rfl

namespace Parser

variable {p : Parser} {tokens : List Token} {e : InputError}

/-- Reading a statement at the start of the tokens ends in the error, or reading all
    of them. -/
def Reports (p : Parser) (tokens : List Token) (e : InputError) : Prop :=
  p.parsePrefix tokens = .error (.input e) ∨ p.parse tokens = .error (.input e)

/-- The same for an error that a parser reports, for all of the tokens or for their
    front. -/
theorem Reports.found_eq (h : p.Reports tokens e) :
    e.found = tokens[e.position]?.map (·.text) := by
  have hblames := p.blames_run .reading tokens.toArray
  have haccounts : Accounts tokens.toArray (p.run .reading tokens.toArray) e := by
    rcases h with hprefix | hparse
    · exact accounts_conclude hblames (parsePrefix_eq_error hprefix)
    · exact accounts_concludeAll hblames (parse_eq_error hparse)
  obtain ⟨more, -, hfounded⟩ := haccounts.founded
  have hfound := hfounded.found_eq
  rwa [List.getElem?_toArray] at hfound

end Parser

namespace Diagnostic

/-- Where a diagnostic of an error of some tokens is: at the token that the error
    names or, behind all tokens, at the end of the last one. -/
structure Locates (tokens : List Token) (e : InputError) (d : Diagnostic) : Prop where
  kind_iff : d.kind = .unexpectedEnd ↔ tokens.length ≤ e.position
  at_end : tokens.length ≤ e.position → d.span.isEmpty = true ∧
    d.span.start = tokens.getLast?.elim 0 (·.span.stop)
  at_token : ∀ t, tokens[e.position]? = some t → d.span = t.span

/-- An error is of the kind for an unexpected end if it quotes no token. -/
theorem kindOf_eq_unexpectedEnd {e : InputError} :
    kindOf e = .unexpectedEnd ↔ e.isAtEnd = true := by
  rw [kindOf]
  split_ifs with hend <;> simp [hend]

/-- The diagnostic of an error that a parser reports is placed where the error is.
    Where there is a token that is the span of the token, and else the end of the
    last one. -/
theorem locates_ofInputError {p : Parser} {tokens : List Token} {e : InputError}
    (h : p.Reports tokens e) : (ofInputError e tokens).Locates tokens e := by
  refine ⟨?_, fun hend => ?_, fun t ht => ?_⟩
  · refine kindOf_eq_unexpectedEnd.trans ?_
    rw [InputError.isAtEnd, h.found_eq, Option.isNone_map, Option.isNone_iff_eq_none,
      List.getElem?_eq_none_iff]
  · rw [ofInputError, place, List.getElem?_eq_none hend]
    cases tokens.getLast? <;> exact ⟨beq_self_eq_true _, rfl⟩
  · rw [ofInputError, place, ht]

end Diagnostic

namespace Script

variable {p : Parser}

/-- What a diagnostic of a script is about: a stray semicolon, or a statement that
    starts somewhere in the script and is not read. -/
inductive Reports (p : Parser) (tokens : List Token) : Diagnostic → Prop
  | stray {semicolon : Token} (hmem : semicolon ∈ tokens) (hstray : semicolon.isSemicolon = true) :
      Reports p tokens (.ofKind .emptyStatement semicolon.span)
  | statement {rest : List Token} {e : InputError} (hrest : rest <:+ tokens) (hne : rest ≠ [])
      (herror : p.Reports rest e) (hplace : (Diagnostic.ofInputError e rest).Locates rest e) :
      Reports p tokens (.ofInputError e rest)

/-- What is about a part of a script is about the script. Whatever it is about is
    among the tokens of the part. -/
theorem Reports.mono {rest tokens : List Token} {d : Diagnostic} (h : Reports p rest d)
    (hrest : rest <:+ tokens) : Reports p tokens d := by
  cases h with
  | stray hmem hstray => exact .stray (hrest.subset hmem) hstray
  | statement hslice hne herror hplace => exact .statement (hslice.trans hrest) hne herror hplace

/-- An error of a statement is about the statement that it starts. -/
theorem Reports.of_error {tokens : List Token} {e : InputError} (hne : tokens ≠ [])
    (herror : p.Reports tokens e) : Reports p tokens (.ofInputError e tokens) :=
  .statement List.suffix_rfl hne herror (Diagnostic.locates_ofInputError herror)

/-- Every diagnostic of a check is about a stray semicolon or about a statement that
    is not read. The induction is on the course of the check. -/
theorem Checked.reports {tokens : List Token} {answer : Except ParseError (List Diagnostic)}
    (h : Checked p tokens answer) : ∀ ds, answer = .ok ds → ∀ d ∈ ds, Reports p tokens d := by
  induction h with
  | nil | last hfirst hread hend =>
    rintro ds hds
    cases hds
    nofun
  | @stray semicolon rest answer hstray hrest ih =>
    intro ds hds
    cases answer with
    | error err => cases hds
    | ok behind =>
      cases hds
      refine List.forall_mem_cons.mpr ⟨.stray List.mem_cons_self hstray, fun d hd => ?_⟩
      exact (ih behind rfl d hd).mono (List.suffix_cons semicolon rest)
  | statement hfirst hread hnext ht hbehind ih =>
    exact fun ds hds d hd => (ih ds hds d hd).mono (List.drop_suffix _ _)
  | overrun hfirst hread hnext ht herror =>
    intro ds hds
    cases hds
    exact List.forall_mem_singleton.mpr (.of_error (List.cons_ne_nil _ _) (.inr herror))
  | failed hfirst herror =>
    intro ds hds
    cases hds
    exact List.forall_mem_singleton.mpr (.of_error (List.cons_ne_nil _ _) (.inl herror))
  | aborted => nofun

open Lexer Report

/-- Whatever a diagnostic of a script is about can be marked. Tokens and the gaps
    behind them are at places of the source, which are widened by a character where
    they are empty. -/
theorem Reports.marks {source : String} {d : Diagnostic} (h : Reports p (lex source) d) :
    Marks source d.span := by
  have hlossless := lossless_lex source
  cases h with
  | stray hmem hstray => exact marks_of_lt (hlossless.selects _ hmem) (hlossless.nonempty _ hmem)
  | @statement rest e hrest hne herror hplace =>
    have hlast : rest.getLast? = (lex source).getLast? := by
      obtain ⟨front, hsource⟩ := hrest
      rw [← hsource, List.getLast?_append_of_ne_nil _ hne]
    exact hlossless.marks_place hrest.subset hlast e.position

/-- Every diagnostic of a script can be shown on its source: what is marked for it
    are whole characters of the source, and some unless it is at the end. It is
    about a stray semicolon or about a statement, whose error is the end of the
    input exactly if it lies behind its last token, and is then placed where that
    ends. The same holds of the error of a whole text. -/
theorem check_marks (p : Parser) (source : String) :
    (∀ ds, check p (lex source) = .ok ds → ∀ d ∈ ds,
      Marks source d.span ∧ Reports p (lex source) d) ∧
    (∀ e, p.parse (lex source) = .error (.input e) →
      Marks source (Diagnostic.ofInputError e (lex source)).span ∧
      (Diagnostic.ofInputError e (lex source)).Locates (lex source) e) := by
  refine ⟨fun ds hds d hd => ?_, fun e herror => ⟨?_, ?_⟩⟩
  · have hreports := (checked_iff.mpr hds).reports ds rfl d hd
    exact ⟨hreports.marks, hreports⟩
  · exact (lossless_lex source).marks_place (List.Subset.refl _) rfl e.position
  · exact Diagnostic.locates_ofInputError (.inr herror)

/-- The end of a statement in front of a comment is marked by the blank between
    them. The error points behind the last token, where there is no character of a
    token to be marked. -/
theorem check_marks_comment : ∃ d,
    check (.ofGrammar Sqlite.grammar) (lex "DROP -- é") = .ok [d] ∧ d.kind = .unexpectedEnd ∧
      markedSpan d.span "DROP -- é".utf8ByteSize = ⟨4, 5⟩ ∧ Marks "DROP -- é" d.span := by
  have hfound : (check (.ofGrammar Sqlite.grammar) (lex "DROP -- é")).toOption.map
      (·.map fun d => (d.kind, d.span)) = some [(.unexpectedEnd, ⟨4, 4⟩)] := by
    decide +kernel
  cases hcheck : check (.ofGrammar Sqlite.grammar) (lex "DROP -- é") with
  | error err =>
    rw [hcheck] at hfound
    cases hfound
  | ok ds =>
    rw [hcheck] at hfound
    obtain ⟨d, rfl, hd⟩ := List.map_eq_singleton_iff.mp (Option.some.inj hfound)
    obtain ⟨hkind, hspan⟩ := Prod.mk.inj hd
    have hmarks := ((check_marks _ "DROP -- é").1 [d] hcheck d (List.mem_singleton_self d)).1
    exact ⟨d, rfl, hkind, by rw [hspan]; decide, hmarks⟩

end Script

end SqlStatement

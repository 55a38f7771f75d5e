import SqlStatement.Completion
import SqlStatement.Proofs.Lexer.Lossless

namespace SqlStatement

namespace Token

variable {tokens : List Token} {offset : Nat}

/-- The offset is in the token or at one of its edges. -/
def Touches (t : Token) (offset : Nat) : Prop :=
  t.span.start ≤ offset ∧ offset ≤ t.span.stop

/-- The caret of an offset is the first token that does not end in front of it. -/
theorem getElem?_indexAt (tokens : List Token) (offset : Nat) :
    tokens[indexAt tokens offset]? = tokens.find? fun t => offset ≤ t.span.stop :=
  List.find?_eq_getElem?_findIdx.symm

/-- The tokens in front of the caret end in front of the offset. The caret is the
    number of tokens that end there, counted up to the first one that does not. -/
theorem stop_lt_of_mem_take_indexAt {t : Token} (ht : t ∈ tokens.take (indexAt tokens offset)) :
    t.span.stop < offset := by
  obtain ⟨i, hi, rfl⟩ := List.mem_take_iff_getElem.mp ht
  have hlt : i < tokens.findIdx fun t => offset ≤ t.span.stop := (Nat.lt_min.mp hi).1
  simpa using List.not_of_lt_findIdx hlt

/-- The caret's token touches the offset if any token does. Since tokens stand in
    order and have some bytes, the first one that does not end in front of the
    offset is also the first that may touch it. -/
theorem find?_touches_iff (hordered : tokens.Pairwise fun s t => s.span.stop ≤ t.span.start)
    (hnonempty : ∀ t ∈ tokens, t.span.start < t.span.stop) {t : Token}
    (hfind : tokens.find? (fun t => offset ≤ t.span.stop) = some t) :
    t.span.start ≤ offset ↔ ∃ u ∈ tokens, u.Touches offset := by
  have hstop : offset ≤ t.span.stop := by simpa using List.find?_some hfind
  have hmem : t ∈ tokens := List.mem_of_find?_eq_some hfind
  refine ⟨fun hstart => ⟨t, hmem, hstart, hstop⟩, ?_⟩
  rintro ⟨u, hu, hustart, hustop⟩
  obtain ⟨-, front, behind, rfl, hfront⟩ := List.find?_eq_some_iff_append.mp hfind
  rcases List.mem_append.mp hu with hu | hu
  · have hbefore : u.span.stop < offset := by simpa using hfront u hu
    omega
  · rcases List.mem_cons.mp hu with rfl | hu
    · exact hustart
    · have hle := (List.pairwise_cons.mp (List.pairwise_append.mp hordered).2.1).1 u hu
      have hlt := hnonempty t hmem
      omega

end Token

namespace Completion

open Lexer

/-- Completion at a byte of a text: the tokens in front of the caret end in front of
    the byte, and the bytes to replace, if there are any, do not. They start behind
    it exactly where no token touches it, in a gap, and there are none exactly where
    all tokens end in front of it. -/
theorem replaced_at_offset (source : String) (offset : Nat) :
    let tokens := lex source
    let caret := resolveCaret tokens none (some offset)
    (∀ t ∈ tokens.take caret, t.span.stop < offset) ∧
    (∀ span, replaced? tokens caret = some span → offset ≤ span.stop ∧
      (span.start ≤ offset ↔ ∃ t ∈ tokens, t.Touches offset)) ∧
    (replaced? tokens caret = none ↔ ∀ t ∈ tokens, t.span.stop < offset) := by
  intro tokens caret
  have hlossless : Lossless source tokens := lossless_lex source
  have hreplaced : replaced? tokens caret =
      (tokens.find? fun t => offset ≤ t.span.stop).map Token.span :=
    congrArg _ (Token.getElem?_indexAt tokens offset)
  refine ⟨fun t => Token.stop_lt_of_mem_take_indexAt, fun span hspan => ?_, ?_⟩
  · rw [hreplaced] at hspan
    obtain ⟨t, hfind, rfl⟩ := Option.map_eq_some_iff.mp hspan
    have hstop : offset ≤ t.span.stop := by simpa using List.find?_some hfind
    exact ⟨hstop, Token.find?_touches_iff hlossless.ordered hlossless.nonempty hfind⟩
  · rw [hreplaced, Option.map_eq_none_iff, List.find?_eq_none]
    simp

/-- Between two words the bytes to replace are those of the word behind the offset,
    which does not touch it. -/
theorem replaced_behind_gap :
    ¬∀ source offset span,
      replaced? (lex source) (resolveCaret (lex source) none (some offset)) = some span →
        span.start ≤ offset ∧ offset ≤ span.stop := by
  intro htouches
  have hgap : replaced? (lex "SELECT * FROM  WHERE x = 1")
      (resolveCaret (lex "SELECT * FROM  WHERE x = 1") none (some 14)) = some ⟨15, 20⟩ := by
    decide +kernel
  exact absurd (htouches _ _ _ hgap).1 (by decide)

end Completion

end SqlStatement

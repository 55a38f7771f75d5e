import Mathlib.Data.List.Chain
import SqlStatement.Proofs.Lexer.Longest

namespace SqlStatement

open scoped Computability

open Token (Kind)

/-- The bytes that a span covers are `text`. Both ends of the span are between
    characters. -/
def Span.Selects (span : Span) (source text : String) : Prop :=
  ∃ before after, source = before ++ text ++ after ∧
    span.start = before.utf8ByteSize ∧ span.stop = span.start + text.utf8ByteSize

/-- What a span selects ends inside the source. -/
theorem Span.Selects.stop_le {span : Span} {source text : String} (h : span.Selects source text) :
    span.stop ≤ source.utf8ByteSize := by
  obtain ⟨before, after, rfl, hstart, hstop⟩ := h
  rw [hstop, hstart, String.utf8ByteSize_append, String.utf8ByteSize_append]
  exact Nat.le_add_right ..

namespace Lexer

/-- What may stand between two tokens: blanks and comments, one behind the other. -/
def trivia : Language Char :=
  (Kind.whitespace.pattern + Kind.lineComment.pattern + Kind.blockComment.pattern)∗

/-- The places before, between and behind tokens, from `start` to `stop`. -/
def gaps (start stop : Nat) : List Token → List Span
  | [] => [⟨start, stop⟩]
  | t :: ts => ⟨start, t.span.start⟩ :: gaps t.span.stop stop ts

/-- The tokens stand for the whole text: each has the text of its place, and in the
    gaps around them there are only blanks and comments. -/
structure Lossless (source : String) (tokens : List Token) : Prop where
  /-- The text of a token is the text of its place. -/
  selects : ∀ t ∈ tokens, t.span.Selects source t.text
  nonempty : ∀ t ∈ tokens, t.span.start < t.span.stop
  inside : ∀ t ∈ tokens, t.span.stop ≤ source.utf8ByteSize
  /-- No token starts before the tokens in front of it end. -/
  ordered : tokens.Pairwise fun s t => s.span.stop ≤ t.span.start
  /-- A token has the text of a pattern, or it is illegal. -/
  kinds : ∀ t ∈ tokens, t.kind.isTrivia = false ∧ t.kind ≠ .endOfInput ∧
    (t.kind = .illegal ∨ t.text.toList ∈ t.kind.pattern)
  gaps : ∀ gap ∈ gaps 0 source.utf8ByteSize tokens,
    ∃ text, gap.Selects source text ∧ text.toList ∈ trivia
  /-- Two illegal tokens in a row have something between them. -/
  apart : tokens.IsChain fun s t =>
    s.kind = .illegal → t.kind = .illegal → s.span.stop < t.span.start

/-- No kind allows a text that starts where these characters start. -/
def Barren (cs : List Char) : Prop := ∀ k other, other <+: cs → other ∉ Kind.pattern k

/-- A text is scanned from left to right. Where some kind allows a text, the longest
    such text is a lexeme; where none does, an error of any length follows. How long
    an error is makes no difference to what is proved of scans. -/
inductive Scans : List Char → List Piece → Prop
  | nil : Scans [] []
  | lexeme {k : Kind} {text rest : List Char} {ps : List Piece} (hmem : text ∈ k.pattern)
      (hlongest : ∀ k' other, other ∈ Kind.pattern k' → other <+: text ++ rest →
        other.length ≤ text.length)
      (hrest : Scans rest ps) : Scans (text ++ rest) (⟨k, text⟩ :: ps)
  | error {text rest : List Char} {ps : List Piece} (hne : text ≠ [])
      (hbarren : Barren (text ++ rest))
      (hrest : Scans rest ps) : Scans (text ++ rest) (⟨.illegal, text⟩ :: ps)

/-- The lexemes of a text are a scan of it, so every result about scans is one about
    the lexer. -/
theorem scans_pieces (cs : List Char) : Scans cs (pieces cs) := by
  fun_induction pieces cs with
  | case1 => exact .nil
  | case2 c cs kind more hclassify ih =>
    have hcut : (c :: cs.take more) ++ cs.drop more = c :: cs := by
      rw [List.cons_append, List.take_append_drop]
    have hle := (Lexeme.allowed_classify c cs).1
    by_cases hkind : kind = .illegal
    · subst hkind
      have hscan : Scans ((c :: cs.take more) ++ cs.drop more)
          (⟨.illegal, c :: cs.take more⟩ :: pieces (cs.drop more)) :=
        .error (List.cons_ne_nil c _) (fun k other hother =>
          Lexeme.none_of_illegal (by rw [hclassify]) k (hcut ▸ hother)) ih
      rwa [hcut] at hscan
    · have hlegal : (Lexeme.classify c cs).1 ≠ .illegal := by rwa [hclassify]
      obtain ⟨hmem, hlongest⟩ := Lexeme.longest_of_legal hlegal
      rw [hclassify] at hmem hlongest hle
      have hscan := Scans.lexeme hmem (fun k' other hother hleads => by
        rw [List.length_cons, List.length_take, Nat.min_eq_left hle]
        exact hlongest k' other hother (hcut ▸ hleads)) ih
      rwa [hcut] at hscan

/-- A legal piece is joined to nothing. Only two illegal pieces that touch become
    one. -/
theorem joinIllegal_cons_of_legal {p : Piece} (hp : p.kind ≠ .illegal) (ps : List Piece) :
    joinIllegal (p :: ps) = p :: joinIllegal ps := by
  have hkind : (p.kind == .illegal) = false := beq_false_of_ne hp
  rw [joinIllegal]
  split
  · next hnil => rw [hnil]
  · next q qs hcons => rw [hcons, hkind, Bool.false_and, if_neg Bool.false_ne_true]

/-- A piece has a text, and a legal piece has one that its kind allows. -/
def Piece.Sound (p : Piece) : Prop :=
  p.text ≠ [] ∧ (p.kind = .illegal ∨ p.text ∈ p.kind.pattern)

namespace Scans

variable {cs : List Char} {ps : List Piece}

/-- The pieces of a scan are the text, one behind the other. So a scan leaves
    nothing out and puts nothing in. -/
theorem text_eq (h : Scans cs ps) : ps.flatMap Piece.text = cs := by
  induction h with
  | nil => rfl
  | lexeme hmem hlongest hrest ih => rw [List.flatMap_cons, ih]
  | error hne hbarren hrest ih => rw [List.flatMap_cons, ih]

/-- Every piece of a scan has a text, and a legal one has a text of its kind. An
    error is not empty, and no kind allows the empty text. -/
theorem sound (h : Scans cs ps) : ∀ p ∈ ps, p.Sound := by
  induction h with
  | nil => exact fun p hp => absurd hp List.not_mem_nil
  | @lexeme k text rest ps hmem hlongest hrest ih =>
    refine List.forall_mem_cons.mpr ⟨⟨?_, .inr hmem⟩, ih⟩
    rintro rfl
    exact Kind.nil_notMem_pattern k hmem
  | error hne hbarren hrest ih => exact List.forall_mem_cons.mpr ⟨⟨hne, .inl rfl⟩, ih⟩

/-- An illegal piece is left where no kind allows a text, also behind other illegal
    pieces that are joined to it: the joined piece starts where the first of them
    does. -/
theorem barren_of_illegal (h : Scans cs ps) {p : Piece} {front back : List Piece}
    (hcut : joinIllegal ps = front ++ p :: back) (hillegal : p.kind = .illegal) :
    Barren (p.text ++ back.flatMap Piece.text) := by
  induction h generalizing front p with
  | nil => simp [joinIllegal] at hcut
  | @lexeme k text rest ps hmem _ _ ih =>
    have hlegal : (⟨k, text⟩ : Piece).kind ≠ .illegal := by
      rintro rfl
      exact hmem
    rw [joinIllegal_cons_of_legal hlegal] at hcut
    rcases List.cons_eq_append_iff.mp hcut with ⟨rfl, hhead⟩ | ⟨front', rfl, hrest⟩
    · cases hhead
      exact absurd hillegal hlegal
    · exact ih hrest hillegal
  | @error text rest ps _ hbarren hrest ih =>
    have htail : (joinIllegal ps).flatMap Piece.text = rest := by
      rw [text_joinIllegal, hrest.text_eq]
    rw [joinIllegal] at hcut
    split at hcut
    · next hnil =>
      rw [hnil] at htail
      rcases List.cons_eq_append_iff.mp hcut with ⟨rfl, hhead⟩ | ⟨front', rfl, hnone⟩
      · cases hhead
        rwa [← htail] at hbarren
      · simp at hnone
    · next q qs hmore =>
      rw [hmore, List.flatMap_cons] at htail
      split at hcut
      · rcases List.cons_eq_append_iff.mp hcut with ⟨rfl, hhead⟩ | ⟨front', rfl, hbehind⟩
        · cases hhead
          rwa [← htail, ← List.append_assoc] at hbarren
        · have hinner : joinIllegal ps = (q :: front') ++ p :: back := by rw [hmore, hbehind]; rfl
          exact ih hinner hillegal
      · rcases List.cons_eq_append_iff.mp hcut with ⟨rfl, hhead⟩ | ⟨front', rfl, hbehind⟩
        · cases hhead
          rwa [← htail, ← List.flatMap_cons] at hbarren
        · have hinner : joinIllegal ps = front' ++ p :: back := by rw [hmore, hbehind]
          exact ih hinner hillegal

end Scans

/-- Joining keeps pieces sound. A joined piece is illegal, and its text is not
    empty. -/
theorem sound_joinIllegal {ps : List Piece} (h : ∀ p ∈ ps, p.Sound) :
    ∀ p ∈ joinIllegal ps, p.Sound := by
  induction ps with
  | nil => exact fun p hp => absurd hp List.not_mem_nil
  | cons p ps ih =>
    obtain ⟨hp, hps⟩ := List.forall_mem_cons.mp h
    have hrest := ih hps
    rw [joinIllegal]
    split
    · exact List.forall_mem_singleton.mpr hp
    · next q qs heq =>
      rw [heq] at hrest
      split
      · refine List.forall_mem_cons.mpr ⟨⟨?_, .inl rfl⟩, (List.forall_mem_cons.mp hrest).2⟩
        exact List.append_ne_nil_of_left_ne_nil hp.1 q.text
      · exact List.forall_mem_cons.mpr ⟨hp, hrest⟩

/-- Joined pieces are not illegal twice in a row, so there is something between two
    illegal tokens. -/
theorem isChain_joinIllegal (ps : List Piece) :
    (joinIllegal ps).IsChain fun p q => ¬(p.kind = .illegal ∧ q.kind = .illegal) := by
  induction ps with
  | nil => exact .nil
  | cons p ps ih =>
    rw [joinIllegal]
    split
    · exact .singleton _
    · next q qs heq =>
      rw [heq] at ih
      split
      · next hboth =>
        cases qs with
        | nil => exact .singleton _
        | cons r rs =>
          rw [List.isChain_cons_cons] at ih ⊢
          simp only [Bool.and_eq_true, beq_iff_eq] at hboth
          exact ⟨fun h => ih.1 ⟨hboth.2, h.2⟩, ih.2⟩
      · next hboth => exact .cons_cons (by simpa using hboth) ih

section Place

variable {ps : List Piece} {offset : Nat} {t : Token}

/-- Pieces are placed from an offset on. -/
theorem le_start_of_mem_place (ht : t ∈ place offset ps) : offset ≤ t.span.start := by
  induction ps generalizing offset with
  | nil => cases ht
  | cons p ps ih =>
    rcases List.mem_cons.mp ht with rfl | hrest
    · exact Nat.le_refl offset
    · exact Nat.le_trans (Nat.le_add_right ..) (ih hrest)

/-- Each piece is placed behind the ones in front of it. So they do not overlap. -/
theorem pairwise_place (offset : Nat) (ps : List Piece) :
    (place offset ps).Pairwise fun s t => s.span.stop ≤ t.span.start := by
  induction ps generalizing offset with
  | nil => exact .nil
  | cons p ps ih => exact .cons (fun t ht => le_start_of_mem_place ht) (ih _)

/-- A token is made of one of the pieces, behind the bytes of those in front of it.
    The induction is on the pieces, with the offset that they are placed from. -/
theorem exists_cut_of_mem_place (ht : t ∈ place offset ps) : ∃ front p back,
    ps = front ++ p :: back ∧ t.kind = p.kind ∧ t.text = String.ofList p.text ∧
      t.span.start = offset + (String.ofList (front.flatMap Piece.text)).utf8ByteSize := by
  induction ps generalizing offset with
  | nil => cases ht
  | cons p ps ih =>
    rcases List.mem_cons.mp ht with rfl | hrest
    · exact ⟨[], p, ps, rfl, rfl, rfl, rfl⟩
    · obtain ⟨front, q, back, rfl, hkind, htext, hstart⟩ := ih hrest
      refine ⟨p :: front, q, back, rfl, hkind, htext, ?_⟩
      rw [hstart, List.flatMap_cons, String.ofList_append, String.utf8ByteSize_append,
        Nat.add_assoc]

/-- The place of a token selects its text, between whole characters because its ends
    are sums of the sizes of texts. -/
theorem selects_of_mem_place {before : String} (ht : t ∈ place before.utf8ByteSize ps) :
    t.span.Selects (before ++ String.ofList (ps.flatMap Piece.text)) t.text := by
  induction ps generalizing before with
  | nil => cases ht
  | cons p ps ih =>
    have hsource : before ++ String.ofList ((p :: ps).flatMap Piece.text) =
        before ++ String.ofList p.text ++ String.ofList (ps.flatMap Piece.text) := by
      rw [List.flatMap_cons, String.ofList_append, String.append_assoc]
    rw [hsource]
    rcases List.mem_cons.mp ht with rfl | hrest
    · exact ⟨before, _, rfl, rfl, rfl⟩
    · rw [← String.utf8ByteSize_append] at hrest
      exact ih hrest

theorem Piece.Sound.size_pos {p : Piece} (hp : p.Sound) :
    0 < (String.ofList p.text).utf8ByteSize := by
  refine Nat.pos_of_ne_zero fun hzero => hp.1 ?_
  have hempty := String.utf8ByteSize_eq_zero_iff.mp hzero
  rw [← String.toList_ofList (l := p.text), hempty]
  rfl

/-- A blank or a comment may follow what stands between two tokens, and the result
    may stand there too. -/
theorem append_mem_trivia {p : Piece} (hp : p.Sound) (hkind : p.kind.isTrivia = true)
    {blank : List Char} (hblank : blank ∈ trivia) : blank ++ p.text ∈ trivia := by
  rw [trivia, ← Language.one_add_kstar_mul_self_eq_kstar]
  refine .inr (Language.append_mem_mul hblank ?_)
  obtain ⟨-, hillegal | hmem⟩ := hp
  · rw [hillegal] at hkind
    cases hkind
  · cases hk : p.kind <;> rw [hk] at hkind hmem
    case whitespace => exact .inl (.inl hmem)
    case lineComment => exact .inl (.inr hmem)
    case blockComment => exact .inr hmem
    all_goals cases hkind

theorem empty_mem_trivia : "".toList ∈ trivia :=
  Language.nil_mem_kstar _

/-- What the dropped pieces leave behind are the gaps between the kept ones. The
    induction is over the pieces, with `blank` as what has been dropped since the
    last token. -/
theorem gaps_place {before blank source : String} (hsound : ∀ p ∈ ps, p.Sound)
    (hblank : blank.toList ∈ trivia)
    (hsource : source = before ++ blank ++ String.ofList (ps.flatMap Piece.text)) :
    ∀ gap ∈ gaps before.utf8ByteSize source.utf8ByteSize
      ((place (before ++ blank).utf8ByteSize ps).filter (!·.kind.isTrivia)),
      ∃ text, gap.Selects source text ∧ text.toList ∈ trivia := by
  induction ps generalizing before blank with
  | nil =>
    rw [List.flatMap_nil, String.ofList_nil, String.append_empty] at hsource
    refine List.forall_mem_singleton.mpr ⟨blank, ⟨before, "", ?_, rfl, ?_⟩, hblank⟩
    · rw [hsource, String.append_empty]
    · rw [hsource, String.utf8ByteSize_append]
  | cons p ps ih =>
    obtain ⟨hp, hps⟩ := List.forall_mem_cons.mp hsound
    rw [List.flatMap_cons, String.ofList_append] at hsource
    rw [place, ← String.utf8ByteSize_append]
    by_cases hkind : p.kind.isTrivia = true
    · rw [List.filter_cons_of_neg (by simpa using hkind), String.append_assoc]
      apply ih hps
      · rw [String.toList_append, String.toList_ofList]
        exact append_mem_trivia hp hkind hblank
      · simp only [hsource, String.append_assoc]
    · rw [List.filter_cons_of_pos (by simpa using hkind)]
      refine List.forall_mem_cons.mpr ⟨⟨blank, ⟨before, _, hsource, rfl, ?_⟩, hblank⟩, ?_⟩
      · exact String.utf8ByteSize_append
      · have hbehind : source = before ++ blank ++ String.ofList p.text ++ "" ++
            String.ofList (ps.flatMap Piece.text) := by
          simp only [hsource, String.append_empty, String.append_assoc]
        have hrest := ih hps empty_mem_trivia hbehind
        rwa [String.append_empty] at hrest

/-- Two illegal tokens in a row have a blank or a comment between them. The first
    part of the statement carries the induction: an illegal token in front is the
    first piece or stands behind something. -/
theorem apart_place (hsound : ∀ p ∈ ps, p.Sound)
    (hchain : ps.IsChain fun p q => ¬(p.kind = .illegal ∧ q.kind = .illegal)) :
    (∀ t ∈ ((place offset ps).filter (!·.kind.isTrivia)).head?, t.kind = .illegal →
      offset < t.span.start ∨ ∃ p ∈ ps.head?, p.kind = .illegal) ∧
    ((place offset ps).filter (!·.kind.isTrivia)).IsChain fun s t =>
      s.kind = .illegal → t.kind = .illegal → s.span.stop < t.span.start := by
  induction ps generalizing offset with
  | nil => exact ⟨fun t ht => absurd ht (Option.not_mem_none t), .nil⟩
  | cons p ps ih =>
    obtain ⟨hp, hps⟩ := List.forall_mem_cons.mp hsound
    obtain ⟨hhead, htail⟩ := List.isChain_cons.mp hchain
    obtain ⟨hfirst, hrest⟩ := @ih (offset + (String.ofList p.text).utf8ByteSize) hps htail
    rw [place]
    by_cases hkind : p.kind.isTrivia = true
    · rw [List.filter_cons_of_neg (by simpa using hkind)]
      refine ⟨fun t ht _ => .inl ?_, hrest⟩
      have hmem := (List.mem_filter.mp (List.mem_of_mem_head? ht)).1
      exact Nat.lt_of_lt_of_le (Nat.lt_add_of_pos_right hp.size_pos) (le_start_of_mem_place hmem)
    · rw [List.filter_cons_of_pos (by simpa using hkind)]
      refine ⟨?_, List.isChain_cons.mpr ⟨fun t ht hsillegal htillegal => ?_, hrest⟩⟩
      · rintro t ht htillegal
        cases ht
        exact .inr ⟨p, rfl, htillegal⟩
      · rcases hfirst t ht htillegal with hlt | ⟨q, hq, hqillegal⟩
        · exact hlt
        · exact absurd ⟨hsillegal, hqillegal⟩ (hhead q hq)

end Place

/-- Whatever scan the tokens of a text are made of, they stand for the whole text.
    The pieces put together are the text, and what lies between two tokens is blanks
    and comments. -/
theorem Scans.lossless {source : String} {ps : List Piece} (h : Scans source.toList ps) :
    Lossless source ((place 0 (joinIllegal ps)).filter (!·.kind.isTrivia)) := by
  have hsound := sound_joinIllegal h.sound
  have htext : "" ++ String.ofList ((joinIllegal ps).flatMap Piece.text) = source := by
    rw [text_joinIllegal, h.text_eq, String.ofList_toList, String.empty_append]
  have hselects : ∀ t ∈ place 0 (joinIllegal ps), t.span.Selects source t.text := by
    intro t ht
    have hplace : t ∈ place "".utf8ByteSize (joinIllegal ps) := ht
    have hselects := selects_of_mem_place hplace
    rwa [htext] at hselects
  refine ⟨?_, ?_, ?_, ?_, ?_, ?_, ?_⟩
  · exact fun t ht => hselects t (List.mem_filter.mp ht).1
  · intro t ht
    obtain ⟨p, hp, -, hptext⟩ := piece_of_mem_place (List.mem_filter.mp ht).1
    obtain ⟨_, _, -, -, hstop⟩ := hselects t (List.mem_filter.mp ht).1
    rw [hstop, hptext]
    exact Nat.lt_add_of_pos_right (hsound p hp).size_pos
  · exact fun t ht => (hselects t (List.mem_filter.mp ht).1).stop_le
  · exact (pairwise_place 0 _).filter _
  · intro t ht
    obtain ⟨hmem, htrivia⟩ := List.mem_filter.mp ht
    obtain ⟨p, hp, hpkind, hptext⟩ := piece_of_mem_place hmem
    refine ⟨by simpa using htrivia, ?_, ?_⟩
    · rintro hend
      rw [hend] at hpkind
      obtain ⟨-, hillegal | hmem⟩ := hsound p hp
      · cases hpkind.trans hillegal
      · rw [← hpkind] at hmem
        exact hmem
    · rw [hpkind, hptext, String.toList_ofList]
      exact (hsound p hp).2
  · have hsource : source = "" ++ "" ++ String.ofList ((joinIllegal ps).flatMap Piece.text) :=
      htext.symm
    exact gaps_place hsound empty_mem_trivia hsource
  · exact (apart_place hsound (isChain_joinIllegal ps)).2

/-- An illegal token of a scanned text starts where no kind allows a text, and its
    place says which part of the text that is. -/
theorem Scans.barren_of_mem {source : String} {ps : List Piece} (h : Scans source.toList ps)
    {t : Token} (ht : t ∈ place 0 (joinIllegal ps)) (hillegal : t.kind = .illegal) :
    ∃ before after, source = before ++ t.text ++ after ∧ t.span.start = before.utf8ByteSize ∧
      Barren (t.text ++ after).toList := by
  obtain ⟨front, p, back, hcut, hkind, htext, hstart⟩ := exists_cut_of_mem_place ht
  refine ⟨String.ofList (front.flatMap Piece.text), String.ofList (back.flatMap Piece.text), ?_,
    by rw [hstart, Nat.zero_add], ?_⟩
  · rw [htext, ← String.ofList_append, ← String.ofList_append, List.append_assoc,
      ← List.flatMap_cons, ← List.flatMap_append, ← hcut, text_joinIllegal, h.text_eq,
      String.ofList_toList]
  · rw [htext, ← String.ofList_append, String.toList_ofList]
    exact h.barren_of_illegal hcut (hkind ▸ hillegal)

/-- The tokens of a text stand for all of it. -/
theorem lossless_lex (source : String) : Lossless source (lex source) :=
  (scans_pieces source.toList).lossless

/-- The lexemes of a text are a scan by the patterns of the tokens, and the tokens
    are its lexemes in their places, the blanks and comments among them left out and
    neighbouring illegal ones joined. So with what is around them the tokens are the
    whole text, none of it is lost, and an illegal token only stands where no
    pattern allows a text. -/
theorem lex_lossless (source : String) :
    Scans source.toList (pieces source.toList) ∧
      lex source = (place 0 (joinIllegal (pieces source.toList))).filter (!·.kind.isTrivia) ∧
      Lossless source (lex source) ∧
      ∀ t ∈ lex source, t.kind = .illegal → ∃ before after, source = before ++ t.text ++ after ∧
        t.span.start = before.utf8ByteSize ∧ Barren (t.text ++ after).toList := by
  have hscans := scans_pieces source.toList
  exact ⟨hscans, rfl, hscans.lossless,
    fun t ht hillegal => hscans.barren_of_mem (List.mem_filter.mp ht).1 hillegal⟩

/-- Two characters that start no token make one illegal token. A text that is not
    closed makes another one up to the end, and no kind allows a text at its quote. -/
theorem lex_lossless_unclosed :
    (lex "´´ SELECT 'a ").map (fun t => (t.kind, t.text, t.span)) =
      [(.illegal, "´´", ⟨0, 4⟩), (.keyword .SELECT, "SELECT", ⟨5, 11⟩),
        (.illegal, "'a ", ⟨12, 15⟩)] ∧
    Lossless "´´ SELECT 'a " (lex "´´ SELECT 'a ") ∧ Barren "'a ".toList := by
  obtain ⟨-, -, hlossless, hbarren⟩ := lex_lossless "´´ SELECT 'a "
  refine ⟨by decide +kernel, hlossless, ?_⟩
  obtain ⟨before, after, hsource, hstart, hnone⟩ :=
    hbarren ⟨.illegal, "'a ", ⟨12, 15⟩⟩ (by decide +kernel) rfl
  have hsize := congrArg String.utf8ByteSize hsource
  rw [String.utf8ByteSize_append, String.utf8ByteSize_append, ← hstart] at hsize
  have hend : after = "" := by
    apply String.utf8ByteSize_eq_zero_iff.mp
    have hwhole : "´´ SELECT 'a ".utf8ByteSize = 15 := by decide +kernel
    have htext : "'a ".utf8ByteSize = 3 := by decide +kernel
    dsimp only at hsize
    omega
  rwa [hend, String.append_empty] at hnone

end Lexer

end SqlStatement

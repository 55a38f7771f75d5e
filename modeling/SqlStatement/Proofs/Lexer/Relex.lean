import SqlStatement.Proofs.Lexer.Lossless

namespace SqlStatement

open scoped Computability

open Pattern

open Token (Kind)

namespace Pattern

/-- The characters that end every token in front of them, unless it is quoted and
    not yet closed: a blank and a closing parenthesis. -/
def stops : List Char := [' ', ')']

/-- What is asked of every stop is decided stop by stop. -/
instance (P : Char → Prop) [DecidablePred P] : Decidable (∀ d ∈ stops, P d) :=
  List.decidableBAll P stops

/-- The texts of a language have no stop in them. -/
def Unstopped (l : Language Char) : Prop := ∀ w ∈ l, ∀ d ∈ stops, d ∉ w

namespace Unstopped

variable {l m : Language Char} {p q : Char → Bool}

/-- A class of characters without the stops. The other laws take a pattern apart
    into such classes. -/
theorem one (hp : ∀ d ∈ stops, p d = false) : Unstopped (Pattern.one p) := by
  rintro _ ⟨c, hc, rfl⟩ d hd hmem
  have hstop := hp d hd
  rw [List.mem_singleton.mp hmem, hc] at hstop
  cases hstop

theorem single {v : List Char} (hv : ∀ d ∈ stops, d ∉ v) : Unstopped {v} := by
  rintro _ rfl
  exact hv

theorem epsilon : Unstopped 1 :=
  single fun _ _ => List.not_mem_nil

theorem add (hl : Unstopped l) (hm : Unstopped m) : Unstopped (l + m) :=
  fun w hw => hw.elim (hl w) (hm w)

/-- A text of two parts has no stop in it if neither part has. -/
theorem mul (hl : Unstopped l) (hm : Unstopped m) : Unstopped (l * m) := by
  rintro _ ⟨a, ha, b, hb, rfl⟩ d hd hmem
  exact (List.mem_append.mp hmem).elim (hl a ha d hd) (hm b hb d hd)

theorem kstar_one (hp : ∀ d ∈ stops, p d = false) : Unstopped (Pattern.one p)∗ := by
  intro w hw d hd hmem
  have hstop := hp d hd
  rw [mem_kstar_one.mp hw d hmem] at hstop
  cases hstop

theorem head (hp : ∀ d ∈ stops, p d = false) (hq : ∀ d ∈ stops, q d = false) :
    Unstopped (Pattern.head p q) :=
  mul (one hp) (kstar_one hq)

theorem several (hp : ∀ d ∈ stops, p d = false) : Unstopped (Pattern.several p) :=
  head hp hp

end Unstopped

/-- A symbol may start with a stop, but none has a stop behind its first character. -/
theorem notMem_tail_spelling {s : Symbol} {w : List Char} (hw : w ∈ (Kind.symbol s).pattern)
    {d : Char} (hd : d ∈ stops) : d ∉ w.tail := by
  have hspellings : ∀ text ∈ s.spellings, ∀ d ∈ stops, d ∉ text.toList.tail := by
    cases s <;> decide
  obtain ⟨text, htext, rfl⟩ := List.mem_map.mp hw
  exact hspellings text htext d hd

/-- Patterns without quotes have no stop in them, so no text of theirs goes on over
    one. -/
theorem unstopped_bareWord (k : Option Keyword) : Unstopped (bareWord k) :=
  fun w hw => Unstopped.head (by decide) (by decide) w hw.1

theorem unstopped_exponent : Unstopped exponent :=
  .mul (.one (by decide)) (.mul (.add .epsilon (.one (by decide))) (.several (by decide)))

theorem unstopped_integer : Unstopped integer :=
  .add (.several (by decide)) (.mul (.single (by decide))
    (.mul (.one (by decide)) (.several (by decide))))

theorem unstopped_float : Unstopped float :=
  have hexponent := Unstopped.add .epsilon unstopped_exponent
  .add (.add
      (.mul (.several (by decide)) (.mul (.single (by decide))
        (.mul (.kstar_one (by decide)) hexponent)))
      (.mul (.single (by decide)) (.mul (.several (by decide)) hexponent)))
    (.mul (.several (by decide)) unstopped_exponent)

theorem unstopped_blob : Unstopped blob :=
  .mul (.one (by decide)) (.mul (.single (by decide))
    (.mul (.kstar_one (by decide)) (.single (by decide))))

theorem unstopped_bindVariable : Unstopped bindVariable :=
  .add (.mul (.single (by decide)) (.kstar_one (by decide)))
    (.mul (.one (by decide)) (.several (by decide)))

/-- Behind the closing quote a quoted text goes on with another quote only. The
    induction is on the length, because a doubled quote takes two characters. -/
theorem notMem_quotedTail {q d : Char} {w : List Char} (hw : w ∈ quotedTail q) (hd : d ≠ q)
    (v : List Char) : w ++ d :: v ∉ quotedTail q := by
  induction hlength : w.length using Nat.strongRecOn generalizing w with
  | _ n ih =>
  cases w with
  | nil => exact absurd hw nil_notMem_quotedTail
  | cons c w =>
    rw [List.length_cons] at hlength
    rcases cons_mem_quotedTail.mp hw with ⟨hc, htail⟩ | ⟨rfl, rfl | ⟨u, hu, rfl⟩⟩
    · rintro hlonger
      rcases cons_mem_quotedTail.mp hlonger with ⟨-, hrest⟩ | ⟨hcq, -⟩
      · exact ih w.length (by omega) htail rfl hrest
      · exact hc hcq
    · rintro hlonger
      rcases cons_mem_quotedTail.mp hlonger with ⟨hc, -⟩ | ⟨-, hnil | ⟨u, -, heq⟩⟩
      · exact hc rfl
      · cases hnil
      · exact hd (List.cons.inj heq).1
    · rintro hlonger
      rcases cons_mem_quotedTail.mp hlonger with ⟨hc, -⟩ | ⟨-, hnil | ⟨u', hu', heq⟩⟩
      · exact hc rfl
      · cases hnil
      · rw [List.length_cons] at hlength
        cases heq
        exact ih u.length (by omega) hu rfl hu'

/-- Behind the closing bracket a bracketed text does not go on, whatever follows.
    There is only one closing bracket in such a text, and it is the last character. -/
theorem notMem_bracketedTail {w : List Char} (hw : w ∈ (one (· != ']'))∗ * {[']']}) (d : Char)
    (v : List Char) : w ++ d :: v ∉ (one (· != ']'))∗ * {[']']} := by
  intro hlonger
  have hends := Lexeme.bracketed_complete hw (d :: v)
  have hgoes := Lexeme.bracketed_complete hlonger []
  rw [List.append_nil, hends, List.length_append, List.length_cons] at hgoes
  have hlength := Option.some.inj hgoes
  omega

end Pattern

namespace Lexeme

open Pattern

variable {k k' : Kind} {c : Char} {w : List Char}

/-- Only blanks start with a blank. Such a text is found to be white space, and no
    text has two kinds. -/
theorem eq_whitespace_of_isBlank (hw : c :: w ∈ k.pattern) (hc : isBlank c = true) :
    k = .whitespace := by
  have hclass := classify_of_mem hw
  rw [classify_of_isBlank hc] at hclass
  exact (congrArg Prod.fst hclass).symm

/-- A legal text that starts with a quote or bracket is closed. Were it not closed,
    it would be found to be illegal. -/
theorem mem_of_closed {q : Char} {kind : Kind} {found : Option Nat} {tail : Language Char}
    (hclass : classify q w = closed kind found w) (hsound : ∀ n, found = some n → w.take n ∈ tail)
    (hw : q :: w ∈ k.pattern) : w ∈ tail := by
  have hfound := classify_of_mem hw
  rw [hclass] at hfound
  cases found with
  | none =>
    cases congrArg Prod.fst hfound
    exact hw.elim
  | some n =>
    have hlength : n = w.length := congrArg Prod.snd hfound
    have hmem := hsound n rfl
    rwa [hlength, List.take_length] at hmem

/-- A legal text does not go on with a stop as a quoted one: it has closed its quote
    already. -/
theorem notMem_quoted_of_stop {q : Char} {kind : Kind} (hq : ∀ d ∈ stops, d ≠ q)
    (hclass : ∀ cs, classify q cs = closed kind (quoted q cs) cs) (hw : c :: w ∈ k.pattern)
    {d : Char} (hd : d ∈ stops) (v : List Char) : c :: (w ++ d :: v) ∉ Pattern.quoted q := by
  intro hlonger
  obtain ⟨rfl, htail⟩ := cons_mem_singleton_mul.mp hlonger
  have hquoted := mem_of_closed (hclass w) (fun n hn => (quoted_sound hn).2) hw
  exact notMem_quotedTail hquoted (hq d hd) v htail

/-- No legal text but a blank or comment goes on with a stop. Inside quotes or
    brackets a stop may well stand, but the legal text in front of it has closed
    them. -/
theorem notMem_of_stop (hw : c :: w ∈ k.pattern) (hk : k.isTrivia = false) {d : Char}
    (hd : d ∈ stops) (v : List Char) : c :: (w ++ d :: v) ∉ k'.pattern := by
  rintro hlonger
  have hinside : d ∈ w ++ d :: v := List.mem_append_right w List.mem_cons_self
  have hstop := List.mem_cons_of_mem c hinside
  cases k' with
  | symbol s => exact notMem_tail_spelling hlonger hd hinside
  | identifier =>
    rcases hlonger with ((hword | hquoted) | hquoted) | hbracketed
    · exact unstopped_bareWord none _ hword d hd hstop
    · exact notMem_quoted_of_stop (by decide) (fun _ => rfl) hw hd v hquoted
    · exact notMem_quoted_of_stop (by decide) (fun _ => rfl) hw hd v hquoted
    · obtain ⟨rfl, htail⟩ := cons_mem_singleton_mul.mp hbracketed
      have hclosed := mem_of_closed rfl (fun n hn => (bracketed_sound hn).2) hw
      exact notMem_bracketedTail hclosed d v htail
  | string => exact notMem_quoted_of_stop (by decide) (fun _ => rfl) hw hd v hlonger
  | integer => exact unstopped_integer _ hlonger d hd hstop
  | float => exact unstopped_float _ hlonger d hd hstop
  | blob => exact unstopped_blob _ hlonger d hd hstop
  | bindVariable => exact unstopped_bindVariable _ hlonger d hd hstop
  | whitespace =>
    rw [eq_whitespace_of_isBlank hw (cons_mem_several.mp hlonger).1] at hk
    cases hk
  | lineComment =>
    obtain ⟨rest, -, heq⟩ := mem_singleton_mul.mp hlonger
    cases w with
    | nil =>
      cases heq
      exact absurd hd (by decide)
    | cons e w =>
      cases heq
      have hclass := classify_of_mem hw
      rw [classify_dashes] at hclass
      obtain ⟨rfl, -⟩ := Prod.mk.inj hclass
      cases hk
  | blockComment =>
    obtain ⟨rest, -, heq⟩ := mem_singleton_mul.mp hlonger
    cases w with
    | nil =>
      cases heq
      exact absurd hd (by decide)
    | cons e w =>
      cases heq
      have hclass := classify_of_mem hw
      cases hcomment : comment w with
      | some n =>
        rw [classify_comment hcomment] at hclass
        obtain ⟨rfl, -⟩ := Prod.mk.inj hclass
        cases hk
      | none =>
        rw [classify_open hcomment] at hclass
        cases congrArg Prod.snd hclass
  | keyword k => exact unstopped_bareWord _ _ hlonger d hd hstop
  | illegal | endOfInput => exact hlonger.elim

end Lexeme

namespace Lexer

/-- Legal pieces stay as they are. -/
theorem joinIllegal_of_legal {ps : List Piece} (h : ∀ p ∈ ps, p.kind ≠ .illegal) :
    joinIllegal ps = ps := by
  induction ps with
  | nil => rfl
  | cons p ps ih =>
    obtain ⟨hp, hps⟩ := List.forall_mem_cons.mp h
    rw [joinIllegal_cons_of_legal hp, ih hps]

namespace Scans

variable {cs : List Char} {ps xs ys : List Piece}

/-- Where a scan has got to it goes on as one of the rest, since nothing behind
    looks back. -/
theorem behind (h : Scans cs (xs ++ ys)) : Scans (ys.flatMap Piece.text) ys := by
  induction xs generalizing cs with
  | nil =>
    rw [List.nil_append] at h
    rwa [h.text_eq]
  | cons p xs ih =>
    cases h with
    | lexeme hmem hlongest hrest => exact ih hrest
    | error hne hnone hrest => exact ih hrest

/-- A scan up to some place does not depend on what follows there: without it there
    are fewer texts to be longer than the lexemes. -/
theorem front (h : Scans cs (xs ++ ys)) : Scans (xs.flatMap Piece.text) xs := by
  induction xs generalizing cs with
  | nil => exact .nil
  | cons p xs ih =>
    rw [List.flatMap_cons]
    have hleads {text rest : List Char} (hrest : Scans rest (xs ++ ys)) :
        text ++ xs.flatMap Piece.text <+: text ++ rest := by
      rw [← hrest.text_eq, List.flatMap_append, ← List.append_assoc]
      exact List.prefix_append ..
    cases h with
    | lexeme hmem hlongest hrest =>
      exact .lexeme hmem (fun k other hother hfront =>
        hlongest k other hother (hfront.trans (hleads hrest))) (ih hrest)
    | error hne hnone hrest =>
      exact .error hne (fun k other hfront => hnone k other (hfront.trans (hleads hrest)))
        (ih hrest)

/-- Errors that touch are one error of the text, so joined pieces are a scan again.
    The longer one starts where the first of them does, at which no kind allows a
    text. -/
theorem joined (h : Scans cs ps) : Scans cs (joinIllegal ps) := by
  induction h with
  | nil => exact .nil
  | @lexeme k text rest ps hmem hlongest hrest ih =>
    have hk : k ≠ .illegal := by
      rintro rfl
      exact hmem
    rw [joinIllegal_cons_of_legal hk]
    exact .lexeme hmem hlongest ih
  | @error text rest ps hne hnone hrest ih =>
    rw [joinIllegal]
    split
    · next hnil => exact .error hne hnone (hnil ▸ ih)
    · next q qs hcons =>
      rw [hcons] at ih
      split
      · next hboth =>
        rw [Bool.and_eq_true] at hboth
        cases ih with
        | @lexeme k _ _ _ hmem hlongest hbehind =>
          have hk : k = .illegal := eq_of_beq hboth.2
          rw [hk] at hmem
          exact hmem.elim
        | error hne' hnone' hbehind =>
          rw [← List.append_assoc] at hnone ⊢
          exact .error (List.append_ne_nil_of_left_ne_nil hne _) hnone hbehind
      · exact .error hne hnone ih

/-- A scan without errors is the only one, and so it is what the lexer finds. A
    legal piece is the longest match at its place, which leaves no choice. -/
theorem pieces_eq (h : Scans cs ps) (hlegal : ∀ p ∈ ps, p.kind ≠ .illegal) : pieces cs = ps := by
  induction h with
  | nil => rw [pieces]
  | @lexeme k text rest ps hmem hlongest hrest ih =>
    cases text with
    | nil => exact absurd hmem (Kind.nil_notMem_pattern k)
    | cons c w =>
      have hclass : Lexeme.classify c (w ++ rest) = (k, w.length) := by
        obtain ⟨hne, hlt | heq⟩ := Lexeme.bests_classify hmem rest
        · obtain ⟨hle, hfound⟩ := Lexeme.allowed_classify c (w ++ rest)
          have hlonger := hlongest _ _ (hfound hne)
            (List.cons_prefix_cons.mpr ⟨rfl, List.take_prefix _ _⟩)
          rw [List.length_cons, List.length_cons, List.length_take, Nat.min_eq_left hle] at hlonger
          omega
        · exact heq
      rw [List.cons_append, pieces, hclass]
      dsimp only
      rw [List.take_left, List.drop_left, ih (List.forall_mem_cons.mp hlegal).2]
  | error hne hnone hrest ih => exact absurd rfl (hlegal _ List.mem_cons_self)

end Scans

end Lexer

namespace Token

/-- A token without its place. -/
def bare (t : Token) : Kind × String := (t.kind, t.text)

/-- The piece that a token is made of. -/
def piece (t : Token) : Lexer.Piece := ⟨t.kind, t.text.toList⟩

@[simp]
theorem piece_kind (t : Token) : t.piece.kind = t.kind := rfl

/-- A token with a text of its kind that is neither a blank nor a comment. -/
def Legal (t : Token) : Prop := t.kind.isTrivia = false ∧ t.text.toList ∈ t.kind.pattern

namespace Legal

variable {t : Token}

/-- No text is a legal token of the illegal kind, because no text belongs to its
    pattern. -/
theorem kind_ne_illegal (ht : t.Legal) : t.kind ≠ .illegal := by
  intro hkind
  have hmem := ht.2
  rw [hkind] at hmem
  exact hmem.elim

/-- A text that starts with a legal token does not start with a blank. Blanks would
    be a token of their own, and that is trivia. -/
theorem not_isBlank_head? (ht : t.Legal) (rest : List Char) :
    ∀ d ∈ (t.text.toList ++ rest).head?, Lexeme.isBlank d = false := by
  obtain ⟨hkind, hmem⟩ := ht
  cases htext : t.text.toList with
  | nil => exact absurd (htext ▸ hmem) (Kind.nil_notMem_pattern _)
  | cons c w =>
    rintro d ⟨⟩
    rw [htext] at hmem
    refine Bool.eq_false_iff.mpr fun hblank => ?_
    rw [Lexeme.eq_whitespace_of_isBlank hmem hblank] at hkind
    cases hkind

end Legal

end Token

namespace Lexer

/-- The token that a piece becomes, without its place. -/
def Piece.bare (p : Piece) : Kind × String := (p.kind, String.ofList p.text)

/-- How many bytes some pieces take. -/
def size (ps : List Piece) : Nat := (String.ofList (ps.flatMap Piece.text)).utf8ByteSize

theorem size_cons (p : Piece) (ps : List Piece) :
    size (p :: ps) = (String.ofList p.text).utf8ByteSize + size ps := by
  rw [size, List.flatMap_cons, String.ofList_append, String.utf8ByteSize_append, size]

section Place

variable {ps : List Piece} {offset : Nat} {t : Token}

/-- Placing pieces changes neither their kinds nor their texts. Only spans are
    added, which a bare token does not have. -/
theorem map_bare_place (offset : Nat) (ps : List Piece) :
    (place offset ps).map Token.bare = ps.map Piece.bare := by
  induction ps generalizing offset with
  | nil => rfl
  | cons p ps ih =>
    rw [place, List.map_cons, List.map_cons, ih]
    rfl

/-- Where a piece stands does not matter to whether it becomes a token. A placed
    piece keeps its kind and its text. -/
theorem map_bare_filter_place (offset : Nat) (ps : List Piece) :
    ((place offset ps).filter (!·.kind.isTrivia)).map Token.bare =
      (ps.filter (!·.kind.isTrivia)).map Piece.bare := by
  calc ((place offset ps).filter (!·.kind.isTrivia)).map Token.bare
      = ((place offset ps).map Token.bare).filter (!·.1.isTrivia) := by
        rw [List.filter_map]
        rfl
    _ = (ps.map Piece.bare).filter (!·.1.isTrivia) := by rw [map_bare_place]
    _ = (ps.filter (!·.kind.isTrivia)).map Piece.bare := List.filter_map

/-- Placed pieces come apart where their tokens do, and the later ones are placed
    behind the earlier ones. -/
theorem exists_of_place_eq_append {front behind : List Token}
    (h : place offset ps = front ++ behind) : ∃ xs ys, ps = xs ++ ys ∧
      place offset xs = front ∧ place (offset + size xs) ys = behind := by
  induction front generalizing offset ps with
  | nil => exact ⟨[], ps, rfl, rfl, h⟩
  | cons t front ih =>
    cases ps with
    | nil => cases h
    | cons p ps =>
      obtain ⟨rfl, hrest⟩ := List.cons.inj h
      obtain ⟨xs, ys, rfl, hfront, hbehind⟩ := ih hrest
      refine ⟨p :: xs, ys, rfl, by rw [place, hfront], ?_⟩
      rw [size_cons, ← Nat.add_assoc, hbehind]

/-- The first token starts where placing starts. -/
theorem start_of_head?_place (h : (place offset ps).head? = some t) : t.span.start = offset := by
  cases ps with
  | nil => cases h
  | cons p ps =>
    cases h
    rfl

/-- The last token ends behind the bytes of all pieces. It is the last piece, and it
    ends where the others and itself end. -/
theorem stop_of_getLast?_place (h : (place offset ps).getLast? = some t) :
    t.span.stop = offset + size ps := by
  induction ps generalizing offset with
  | nil => cases h
  | cons p ps ih =>
    rw [size_cons, ← Nat.add_assoc]
    cases ps with
    | nil =>
      cases h
      rfl
    | cons q ps => exact ih (List.getLast?_cons_cons ▸ h)

end Place

/-- The tokens of a text are legal, unless they are marked as illegal. Blanks and
    comments are dropped from the tokens, and any other piece has a text of its
    kind. -/
theorem legal_of_mem_lex {source : String} {t : Token} (ht : t ∈ lex source)
    (hkind : t.kind ≠ .illegal) : t.Legal := by
  obtain ⟨htrivia, -, hillegal | hmem⟩ := (lossless_lex source).kinds t ht
  · exact absurd hillegal hkind
  · exact ⟨htrivia, hmem⟩

/-- A text that scans without errors has the tokens of the scan, up to their
    places. -/
theorem Scans.map_bare_lex {source : String} {ps : List Piece} (h : Scans source.toList ps)
    (hlegal : ∀ p ∈ ps, p.kind ≠ .illegal) :
    (lex source).map Token.bare = (ps.filter (!·.kind.isTrivia)).map Piece.bare := by
  rw [lex, h.pieces_eq hlegal, joinIllegal_of_legal hlegal, map_bare_filter_place]

/-- The same for the kinds alone. -/
theorem Scans.map_kind_lex {source : String} {ps : List Piece} (h : Scans source.toList ps)
    (hlegal : ∀ p ∈ ps, p.kind ≠ .illegal) :
    (lex source).map (·.kind) = (ps.filter (!·.kind.isTrivia)).map (·.kind) := by
  have hkinds := congrArg (List.map Prod.fst) (h.map_bare_lex hlegal)
  rwa [List.map_map, List.map_map] at hkinds

namespace Scans

variable {rest : List Char} {ps : List Piece} {t : Token}

/-- A legal token is read in front of a stop and at the end of the text. No kind
    allows a longer text there, because no text goes on behind the token with a
    stop. -/
theorem token (h : Scans rest ps) (ht : t.Legal) (hrest : ∀ d ∈ rest.head?, d ∈ stops) :
    Scans (t.text.toList ++ rest) (t.piece :: ps) := by
  obtain ⟨hkind, hmem⟩ := ht
  refine .lexeme hmem (fun k other hother hleads => Nat.le_of_not_lt fun hlt => ?_) h
  obtain ⟨more, rfl⟩ := List.prefix_of_prefix_length_le (List.prefix_append ..) hleads hlt.le
  rw [List.prefix_append_right_inj] at hleads
  cases more with
  | nil => simp at hlt
  | cons d more =>
    obtain ⟨behind, rfl⟩ := hleads
    cases htext : t.text.toList with
    | nil => exact Kind.nil_notMem_pattern _ (htext ▸ hmem)
    | cons c w =>
      rw [htext] at hmem hother
      exact Lexeme.notMem_of_stop hmem hkind (hrest d rfl) more hother

/-- A single blank is read in front of anything but another blank. With a second
    blank behind it the lexeme would be longer. -/
theorem blank (h : Scans rest ps) (hrest : ∀ d ∈ rest.head?, Lexeme.isBlank d = false) :
    Scans (' ' :: rest) (⟨.whitespace, [' ']⟩ :: ps) := by
  have hblank : [' '] ∈ Kind.whitespace.pattern := cons_mem_several.mpr ⟨rfl, nofun⟩
  refine .lexeme hblank (fun k other hother hleads => ?_) h
  match other with
  | [] | [_] => simp
  | c :: d :: more =>
    obtain ⟨rfl, hbehind⟩ := List.cons_prefix_cons.mp hleads
    obtain ⟨behind, rfl⟩ := hbehind
    rw [Lexeme.eq_whitespace_of_isBlank hother rfl] at hother
    have hd := (cons_mem_several.mp hother).2 d List.mem_cons_self
    rw [hrest d rfl] at hd
    cases hd

/-- A character that is found to be a symbol of its own is read as one. The rest of
    the text is scanned as before. -/
theorem symbol {c : Char} {s : Symbol} (h : Scans rest ps)
    (hfound : Lexeme.classify c rest = (.symbol s, 0)) :
    Scans (c :: rest) (⟨.symbol s, [c]⟩ :: ps) := by
  have hlegal : (Lexeme.classify c rest).1 ≠ .illegal := by
    rw [hfound]
    nofun
  obtain ⟨hmem, hlongest⟩ := Lexeme.longest_of_legal hlegal
  rw [hfound] at hmem hlongest
  exact .lexeme hmem hlongest h

end Scans

/-- The pieces of tokens with a blank between each two of them. -/
def spaced (ts : List Token) : List Piece :=
  (ts.map Token.piece).intersperse ⟨.whitespace, [' ']⟩

section Spaced

variable {t : Token} {ts : List Token}

theorem spaced_cons_cons (t u : Token) (ts : List Token) : spaced (t :: u :: ts) =
    t.piece :: ⟨.whitespace, [' ']⟩ :: spaced (u :: ts) := by
  rw [spaced, List.map_cons, List.map_cons, List.intersperse_cons_cons]
  rfl

/-- Neither the tokens nor the blanks between them are illegal. The blanks are
    pieces of white space. -/
theorem kind_ne_illegal_of_mem_spaced (hlegal : ∀ t ∈ ts, t.Legal) :
    ∀ p ∈ spaced ts, p.kind ≠ .illegal := by
  induction ts with
  | nil => nofun
  | cons t ts ih =>
    obtain ⟨ht, hts⟩ := List.forall_mem_cons.mp hlegal
    cases ts with
    | nil => exact List.forall_mem_singleton.mpr ht.kind_ne_illegal
    | cons u ts =>
      rw [spaced_cons_cons]
      exact List.forall_mem_cons.mpr ⟨ht.kind_ne_illegal, List.forall_mem_cons.mpr ⟨nofun, ih hts⟩⟩

/-- The blanks between tokens become no tokens. What is left are the tokens, each
    with its kind and its text. -/
theorem map_bare_filter_spaced (hlegal : ∀ t ∈ ts, t.Legal) :
    ((spaced ts).filter (!·.kind.isTrivia)).map Piece.bare = ts.map Token.bare := by
  have hbare (t : Token) : Piece.bare t.piece = t.bare := by
    rw [Piece.bare, Token.piece, String.ofList_toList, Token.bare]
  induction ts with
  | nil => rfl
  | cons t ts ih =>
    obtain ⟨ht, hts⟩ := List.forall_mem_cons.mp hlegal
    cases ts with
    | nil => simp [spaced, ht.1, hbare]
    | cons u ts =>
      rw [spaced_cons_cons, List.map_cons, ← ih hts]
      have hblank : Kind.whitespace.isTrivia = true := rfl
      simp [ht.1, hbare, hblank]

theorem exists_toList_intercalate (separator text : String) (texts : List String) :
    ∃ rest, (separator.intercalate (text :: texts)).toList = text.toList ++ rest := by
  cases texts with
  | nil => exact ⟨[], by rw [String.intercalate_singleton, List.append_nil]⟩
  | cons other texts =>
    rw [String.intercalate_cons_cons, String.toList_append, String.toList_append,
      List.append_assoc]
    exact ⟨_, rfl⟩

/-- The texts of legal tokens with blanks between them scan as these tokens: a blank
    ends the token in front of it, and no token starts with one. -/
theorem scans_spaced (hlegal : ∀ t ∈ ts, t.Legal) :
    Scans (" ".intercalate (ts.map (·.text))).toList (spaced ts) := by
  induction ts with
  | nil => exact .nil
  | cons t ts ih =>
    obtain ⟨ht, hts⟩ := List.forall_mem_cons.mp hlegal
    cases ts with
    | nil =>
      have hscan := Scans.nil.token ht nofun
      rwa [List.append_nil] at hscan
    | cons u ts =>
      have hu := (List.forall_mem_cons.mp hts).1
      obtain ⟨rest, hrest⟩ := exists_toList_intercalate " " u.text (ts.map (·.text))
      have hbehind := ih hts
      rw [List.map_cons, hrest] at hbehind
      have hscan := (hbehind.blank (hu.not_isBlank_head? rest)).token ht (by simp [stops])
      rw [spaced_cons_cons, List.map_cons, List.map_cons, String.intercalate_cons_cons,
        String.toList_append, String.toList_append, List.append_assoc, hrest]
      exact hscan

/-- The texts of legal tokens with blanks between them have the same tokens, so what
    was read from a source can be written with blanks instead of the gaps. -/
theorem map_bare_lex_spaced (hlegal : ∀ t ∈ ts, t.Legal) :
    (lex (" ".intercalate (ts.map (·.text)))).map Token.bare = ts.map Token.bare := by
  rw [(scans_spaced hlegal).map_bare_lex (kind_ne_illegal_of_mem_spaced hlegal),
    map_bare_filter_spaced hlegal]

end Spaced

section Slice

/-- What a filter has kept up to some last element was kept of a part that ends with
    it. -/
theorem exists_of_filter_eq_concat {α : Type} {p : α → Bool} {all kept : List α} {last : α}
    (h : all.filter p = kept ++ [last]) : ∃ inside after,
      all = inside ++ last :: after ∧ (inside ++ [last]).filter p = kept ++ [last] := by
  obtain ⟨inside, rest, rfl, rfl, hrest⟩ := List.filter_eq_append_iff.mp h
  obtain ⟨dropped, after, rfl, hdropped, hlast, -⟩ := List.filter_eq_cons_iff.mp hrest
  refine ⟨inside ++ dropped, after, (List.append_assoc ..).symm, ?_⟩
  rw [List.filter_append, List.filter_append, List.filter_eq_nil_iff.mpr hdropped, List.append_nil,
    List.filter_cons_of_pos hlast, List.filter_nil]

/-- A part of what a filter has kept was kept of a part that starts and ends with
    it. Used with the gaps that the lexer has dropped between tokens. -/
theorem exists_of_filter_eq_append {α : Type} {p : α → Bool} {all front kept behind : List α}
    (h : all.filter p = front ++ (kept ++ behind)) : ∃ before inside after,
      all = before ++ (inside ++ after) ∧ inside.filter p = kept ∧
        inside.head? = kept.head? ∧ inside.getLast? = kept.getLast? := by
  obtain ⟨before, rest, rfl, -, hrest⟩ := List.filter_eq_append_iff.mp h
  obtain ⟨inside, after, rfl, hkept, -⟩ := List.filter_eq_append_iff.mp hrest
  clear h hrest
  cases kept with
  | nil => exact ⟨before, [], inside ++ after, rfl, rfl, rfl, rfl⟩
  | cons first more =>
    obtain ⟨dropped, inside, rfl, -, hfirst, hmore⟩ := List.filter_eq_cons_iff.mp hkept
    rcases List.eq_nil_or_concat more with rfl | ⟨more, last, rfl⟩
    · refine ⟨before ++ dropped, [first], inside ++ after, by simp, ?_, rfl, rfl⟩
      rw [List.filter_cons_of_pos hfirst, List.filter_nil]
    · rw [List.concat_eq_append] at hmore ⊢
      obtain ⟨inside, dropped', rfl, hinside⟩ := exists_of_filter_eq_concat hmore
      refine ⟨before ++ dropped, first :: (inside ++ [last]), dropped' ++ after, by simp, ?_, rfl,
        ?_⟩
      · rw [List.filter_cons_of_pos hfirst, hinside]
      · rw [← List.cons_append, ← List.cons_append, List.getLast?_concat, List.getLast?_concat]

/-- The text from the start of a token to the end of a legal one has the tokens of
    the source. Cutting it out only takes longer lexemes away. -/
theorem exists_slice {source : String} {front ts behind : List Token}
    (hlex : lex source = front ++ (ts ++ behind)) (hlegal : ∀ t ∈ ts, t.kind ≠ .illegal)
    {first last : Token} (hfirst : ts.head? = some first) (hlast : ts.getLast? = some last) :
    ∃ slice, Span.Selects ⟨first.span.start, last.span.stop⟩ source slice ∧
      (lex slice).map Token.bare = ts.map Token.bare := by
  obtain ⟨before, inside, after, hplace, hkept, hhead, htail⟩ := exists_of_filter_eq_append hlex
  obtain ⟨xs, rest, hjoined, hbefore, hrest⟩ := exists_of_place_eq_append hplace
  obtain ⟨ps, ys, rfl, hinside, -⟩ := exists_of_place_eq_append hrest
  have hbare : (ps.filter (!·.kind.isTrivia)).map Piece.bare = ts.map Token.bare := by
    rw [← map_bare_filter_place, hinside, hkept]
  have hlegal' : ∀ p ∈ ps, p.kind ≠ .illegal := by
    intro p hp hkind
    have hkept : p ∈ ps.filter (!·.kind.isTrivia) := List.mem_filter.mpr ⟨hp, by rw [hkind]; rfl⟩
    obtain ⟨t, ht, heq⟩ := List.mem_map.mp (hbare ▸ List.mem_map_of_mem hkept)
    exact hlegal t ht ((congrArg Prod.fst heq).trans hkind)
  have hscan := (scans_pieces source.toList).joined
  rw [hjoined] at hscan
  refine ⟨String.ofList (ps.flatMap Piece.text), ⟨String.ofList (xs.flatMap Piece.text),
    String.ofList (ys.flatMap Piece.text), ?_, ?_, ?_⟩, ?_⟩
  · rw [← String.ofList_append, ← String.ofList_append, ← List.flatMap_append,
      ← List.flatMap_append, List.append_assoc, hscan.text_eq, String.ofList_toList]
  · rw [start_of_head?_place (hinside ▸ hhead.trans hfirst), Nat.zero_add]
    rfl
  · rw [start_of_head?_place (hinside ▸ hhead.trans hfirst),
      stop_of_getLast?_place (hinside ▸ htail.trans hlast)]
    rfl
  · have hinner := hscan.behind.front
    rw [← String.toList_ofList (l := ps.flatMap Piece.text)] at hinner
    rw [hinner.map_bare_lex hlegal', hbare]

end Slice

end Lexer

end SqlStatement

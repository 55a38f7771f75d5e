import SqlStatement.Proofs.Lexer.Longest

namespace SqlStatement

namespace Text

/-- The letters that have an upper case. -/
def letters : List Char := (List.range 26).map fun i => Char.ofNat (97 + i)

/-- A character without an upper case of its own stays as it is, so only the letters
    have to be looked at. -/
theorem toUpper_eq_or_mem_letters (c : Char) : c.toUpper = c ∨ c ∈ letters := by
  by_cases hlower : 97 ≤ c.toNat ∧ c.toNat ≤ 122
  · refine .inr (List.mem_map.mpr ⟨c.toNat - 97, List.mem_range.mpr (by omega), ?_⟩)
    rw [Nat.add_sub_cancel' hlower.1, Char.ofNat_toNat]
  · refine .inl (dif_neg fun h => hlower ?_)
    exact ⟨UInt32.le_iff_toNat_le.mp h.1, UInt32.le_iff_toNat_le.mp h.2⟩

/-- Whether a function of characters goes by the letter and not by its case. -/
def Caseless {α : Type} (f : Char → α) : Prop :=
  letters.map (fun c => f c.toUpper) = letters.map f

instance {α : Type} [DecidableEq α] (f : Char → α) : Decidable (Caseless f) :=
  inferInstanceAs (Decidable (_ = _))

/-- What is the same for a letter and its upper case is so for every character. The
    hypothesis is decided by evaluation, for each test of the lexer. -/
theorem apply_toUpper {α : Type} (f : Char → α) (h : Caseless f) (c : Char) :
    f c.toUpper = f c := by
  rcases toUpper_eq_or_mem_letters c with heq | hmem
  · rw [heq]
  · exact List.map_inj_left.mp h c hmem

/-- Upper case is reached at once. -/
theorem toUpper_toUpper (c : Char) : c.toUpper.toUpper = c.toUpper :=
  apply_toUpper Char.toUpper (by decide) c

theorem upper_upper (s : String) : upper (upper s) = upper s := by
  simp only [upper, String.toList_ofList, List.map_map, Function.comp_def, toUpper_toUpper]

/-- Upper case takes as many bytes as lower case, which is why the places of tokens
    stay the same. -/
theorem utf8Size_toUpper (c : Char) : c.toUpper.utf8Size = c.utf8Size :=
  apply_toUpper Char.utf8Size (by decide) c

/-- Only letters have another upper case. The converse does not hold, since capital
    letters have none either. -/
theorem toUpper_eq_self {c : Char} (h : c.isAlpha = false) : c.toUpper = c := by
  rcases toUpper_eq_or_mem_letters c with heq | hmem
  · exact heq
  · have hletters : letters.all Char.isAlpha = true := by decide
    rw [List.all_eq_true.mp hletters c hmem] at h
    cases h

end Text

namespace Lexeme

open Pattern Text

/-- A run counts the same in upper case, if its class goes by the letter. -/
theorem run_toUpper {p : Char → Bool} (hp : Caseless p) (cs : List Char) :
    run p (cs.map Char.toUpper) = run p cs := by
  have hsame : p ∘ Char.toUpper = p := funext (apply_toUpper p hp)
  rw [run, List.takeWhile_map, List.length_map, hsame, run]

theorem quoted_toUpper {q : Char} (hq : Caseless (· == q)) (cs : List Char) :
    quoted q (cs.map Char.toUpper) = quoted q cs := by
  have hsame : ∀ c : Char, (c.toUpper == q) = (c == q) := apply_toUpper (· == q) hq
  fun_induction quoted q cs <;> simp_all [quoted, quoted_of_ne]

theorem comment_toUpper (cs : List Char) : comment (cs.map Char.toUpper) = comment cs := by
  have hstar : ∀ c : Char, (c.toUpper == '*') = (c == '*') := apply_toUpper (· == '*') (by decide)
  have hslash : ∀ c : Char, (c.toUpper == '/') = (c == '/') := apply_toUpper (· == '/') (by decide)
  fun_induction comment cs <;> simp_all [comment, comment_of_ne]

/-- An exponent by its first two characters, in terms of classes that go by the
    letter. -/
theorem exponent_cons (e s : Char) (cs : List Char) : exponent (e :: s :: cs) =
    if isExponentMark e then
      if isSign s then if run Char.isDigit cs == 0 then 0 else run Char.isDigit cs + 2
      else if run Char.isDigit (s :: cs) == 0 then 0 else run Char.isDigit (s :: cs) + 1
    else 0 := rfl

/-- An exponent is as long in upper case, whatever the case of its mark. The sign
    and the digits are no letters. -/
theorem exponent_toUpper (cs : List Char) : exponent (cs.map Char.toUpper) = exponent cs := by
  match cs with
  | [] | [_] => rfl
  | e :: s :: cs =>
    have hdigits := run_toUpper (p := Char.isDigit) (by decide)
    rw [List.map_cons, List.map_cons, exponent_cons, exponent_cons, ← List.map_cons,
      hdigits, hdigits, apply_toUpper isExponentMark (by decide), apply_toUpper isSign (by decide)]

/-- A hexadecimal number is as long in upper case, mark and digits included. Both
    letter cases of the mark are allowed, and so are those of the digits. -/
theorem hexadecimal_toUpper (cs : List Char) :
    hexadecimal (cs.map Char.toUpper) = hexadecimal cs := by
  have hcons (x : Char) (cs : List Char) : hexadecimal (x :: cs) = if isHexMark x then
      if run isHexDigit cs == 0 then 0 else run isHexDigit cs + 1 else 0 := rfl
  cases cs with
  | nil => rfl
  | cons x cs =>
    rw [List.map_cons, hcons, hcons, run_toUpper (by decide), apply_toUpper isHexMark (by decide)]

theorem toUpper_eq_iff {q : Char} (hq : Caseless (· == q)) (c : Char) : c.toUpper = q ↔ c = q := by
  rw [← beq_iff_eq, apply_toUpper (· == q) hq, beq_iff_eq]

/-- A number has the same kind and length in upper case. No test in it tells the
    case of a letter. -/
theorem number_toUpper (c : Char) (cs : List Char) :
    number c (cs.map Char.toUpper) = number c cs := by
  have hdigits := run_toUpper (p := Char.isDigit) (by decide)
  by_cases hhex : c = '0' → hexadecimal cs = 0
  · have hhex' : c = '0' → hexadecimal (cs.map Char.toUpper) = 0 := by
      rwa [hexadecimal_toUpper]
    by_cases hpoint : ∃ ds, cs.drop (run Char.isDigit cs) = '.' :: ds
    · obtain ⟨ds, hdrop⟩ := hpoint
      have hdrop' : (cs.map Char.toUpper).drop (run Char.isDigit (cs.map Char.toUpper)) =
          '.' :: ds.map Char.toUpper := by
        rw [hdigits, ← List.map_drop, hdrop]
        rfl
      rw [number_point hhex hdrop, number_point hhex' hdrop', hdigits, hdigits, ← List.map_drop,
        exponent_toUpper]
    · have hpoint' : ∀ ds, (cs.map Char.toUpper).drop
          (run Char.isDigit (cs.map Char.toUpper)) ≠ '.' :: ds := by
        intro ds hdrop
        rw [hdigits, ← List.map_drop] at hdrop
        obtain ⟨c, rest, hcs, hc, -⟩ := List.map_eq_cons_iff.mp hdrop
        rw [toUpper_eq_iff (by decide)] at hc
        exact hpoint ⟨rest, hc ▸ hcs⟩
      rw [number_plain hhex (not_exists.mp hpoint), number_plain hhex' hpoint', hdigits,
        ← List.map_drop, exponent_toUpper]
  · obtain ⟨rfl, hne⟩ := Classical.not_imp.mp hhex
    have hne' : hexadecimal (cs.map Char.toUpper) ≠ 0 := by rwa [hexadecimal_toUpper]
    rw [number_hex hne, number_hex hne', hexadecimal_toUpper]

/-- A blob by the first quote and the one behind its digits. Without the second
    quote there is no blob. -/
theorem blob_cons (c : Char) (cs : List Char) : blob (c :: cs) =
    if c = '\'' ∧ (cs.drop (run isHexDigit cs)).head? = some '\'' then run isHexDigit cs + 2
    else 0 := by
  by_cases hc : c = '\''
  · subst hc
    simp only [blob, true_and]
    cases cs.drop (run isHexDigit cs) with
    | nil => rfl
    | cons d ds =>
      by_cases hd : d = '\'' <;> simp [hd]
  · simp [blob, hc]

theorem blob_toUpper (cs : List Char) : blob (cs.map Char.toUpper) = blob cs := by
  have hquote := toUpper_eq_iff (q := '\'') (by decide)
  cases cs with
  | nil => rfl
  | cons c cs =>
    have hhead : ((cs.drop (run isHexDigit cs)).map Char.toUpper).head? = some '\'' ↔
        (cs.drop (run isHexDigit cs)).head? = some '\'' := by
      rw [List.head?_map]
      cases (cs.drop (run isHexDigit cs)).head? with
      | none => simp
      | some d => simp [hquote]
    rw [List.map_cons, blob_cons, blob_cons, run_toUpper (by decide), ← List.map_drop]
    simp only [hquote, hhead]

/-- A word has the same kind and length in upper case: keywords are recognised
    without regard to case. -/
theorem word_toUpper (c : Char) (cs : List Char) :
    word c.toUpper (cs.map Char.toUpper) = word c cs := by
  have hword (n : Nat) :
      Keyword.ofWord? (String.ofList (c.toUpper :: (cs.map Char.toUpper).take n)) =
        Keyword.ofWord? (String.ofList (c :: cs.take n)) := by
    apply Keyword.ofWord?_congr
    simp only [upper, String.toList_ofList, List.map_cons, List.map_take, List.map_map,
      Function.comp_def, toUpper_toUpper]
  rw [word_eq, word_eq, blob_toUpper, apply_toUpper isHexMark (by decide), run_toUpper (by decide),
    hword]

/-- Symbols have no letters, so what follows them in upper case does not complete
    another one. -/
theorem symbol_toUpper {pairs : List (Char × Symbol)}
    (hpairs : Caseless (pairs.lookup ·)) (one : Symbol) (cs : List Char) :
    symbol one pairs (cs.map Char.toUpper) = symbol one pairs cs := by
  cases cs with
  | nil => rfl
  | cons c cs =>
    have hlookup := apply_toUpper (pairs.lookup ·) hpairs c
    unfold symbol
    rw [List.map_cons, List.head?_cons, List.head?_cons, Option.bind_some, Option.bind_some,
      hlookup]

theorem closed_toUpper (kind : Token.Kind) (length : Option Nat) (cs : List Char) :
    closed kind length (cs.map Char.toUpper) = closed kind length cs := by
  cases length with
  | none => rw [closed, closed, List.length_map]
  | some n => rfl

theorem bracketed_toUpper (cs : List Char) : bracketed (cs.map Char.toUpper) = bracketed cs := by
  unfold bracketed
  rw [run_toUpper (by decide), List.length_map]

/-- Whether a text starts with a sign does not depend on its letters. The sign is in
    the same place in upper case, or there is none in either text. -/
theorem starts_toUpper {q : Char} (hq : Caseless (· == q)) (cs : List Char) :
    (∃ ds, cs = q :: ds ∧ cs.map Char.toUpper = q :: ds.map Char.toUpper) ∨
      (∀ ds, cs ≠ q :: ds) ∧ ∀ ds, cs.map Char.toUpper ≠ q :: ds := by
  by_cases h : ∃ ds, cs = q :: ds
  · obtain ⟨ds, rfl⟩ := h
    exact .inl ⟨ds, rfl, by rw [List.map_cons, (toUpper_eq_iff hq q).mpr rfl]⟩
  · refine .inr ⟨not_exists.mp h, fun ds heq => ?_⟩
    obtain ⟨c, rest, rfl, hc, -⟩ := List.map_eq_cons_iff.mp heq
    exact h ⟨rest, by rw [(toUpper_eq_iff hq c).mp hc]⟩

/-- Behind a character that starts no word, the case of what follows does not
    matter. -/
theorem classify_map_toUpper {c : Char} (hc : startsWord c = false) (cs : List Char) :
    classify c (cs.map Char.toUpper) = classify c cs := by
  have hdigits := run_toUpper (p := Char.isDigit) (by decide)
  by_cases hblank : isBlank c = true
  · rw [classify_of_isBlank hblank, classify_of_isBlank hblank, run_toUpper (by decide)]
  by_cases hdigit : c.isDigit = true
  · rw [classify_of_isDigit hdigit, classify_of_isDigit hdigit, number_toUpper]
  unfold classify
  rw [if_neg hblank, if_neg hblank, hc, if_neg hdigit, if_neg hdigit]
  simp only [Bool.false_eq_true, if_false]
  split
  iterate 13 exact symbol_toUpper (by decide) _ _
  · rcases starts_toUpper (q := '=') (by decide) cs with ⟨ds, rfl, hmap⟩ | ⟨hcs, hmap⟩
    · rw [hmap]
      rfl
    · simp only
  · simp only [hdigits, ← List.map_drop, exponent_toUpper]
  · rcases starts_toUpper (q := '-') (by decide) cs with ⟨ds, rfl, hmap⟩ | ⟨hcs, hmap⟩
    · rw [hmap]
      simp only [run_toUpper (p := (· != '\n')) (by decide)]
    · simp only
  · rcases starts_toUpper (q := '*') (by decide) cs with ⟨ds, rfl, hmap⟩ | ⟨hcs, hmap⟩
    · rw [hmap]
      simp only [comment_toUpper]
    · simp only
  · rw [quoted_toUpper (by decide), closed_toUpper]
  · rw [quoted_toUpper (by decide), closed_toUpper]
  · rw [quoted_toUpper (by decide), closed_toUpper]
  · rw [bracketed_toUpper, closed_toUpper]
  · rw [hdigits]
  · rw [run_toUpper (p := inName) (by decide)]

/-- A lexeme in other letter case has the same kind and length. The cases of a
    lexeme go by the first character, which is compared with letters of both cases
    where it is a letter. -/
theorem classify_toUpper (c : Char) (cs : List Char) :
    classify c.toUpper (cs.map Char.toUpper) = classify c cs := by
  by_cases hc : startsWord c = true
  · have hupper : startsWord c.toUpper = true := by
      rw [apply_toUpper startsWord (by decide), hc]
    rw [classify_of_startsWord hc, classify_of_startsWord hupper, word_toUpper]
  · rw [Bool.not_eq_true] at hc
    rw [toUpper_eq_self (Bool.or_eq_false_iff.mp hc).1, classify_map_toUpper hc]

end Lexeme

/-- The token with its text in upper case. -/
def Token.upper (t : Token) : Token := { t with text := Text.upper t.text }

namespace Lexer

/-- The piece with its text in upper case. -/
def Piece.upper (p : Piece) : Piece := { p with text := p.text.map Char.toUpper }

/-- A text in upper case is cut at the same places. The induction is on the text,
    one lexeme after the other. -/
theorem pieces_toUpper (cs : List Char) :
    pieces (cs.map Char.toUpper) = (pieces cs).map Piece.upper := by
  fun_induction pieces cs with
  | case1 => rw [List.map_nil, pieces, List.map_nil]
  | case2 c cs kind more hclassify ih =>
    rw [List.map_cons, pieces, Lexeme.classify_toUpper, hclassify]
    dsimp only
    rw [← List.map_drop, ih, List.map_cons, Piece.upper, List.map_cons, List.map_take]

/-- Joining goes by kinds, so it joins the same pieces in upper case. The text of a
    joined piece is that of its parts. -/
theorem joinIllegal_map_upper (ps : List Piece) :
    joinIllegal (ps.map Piece.upper) = (joinIllegal ps).map Piece.upper := by
  induction ps with
  | nil => rfl
  | cons p ps ih =>
    rw [List.map_cons, joinIllegal, joinIllegal, ih]
    cases joinIllegal ps with
    | nil => rfl
    | cons q qs =>
      by_cases hboth : (p.kind == .illegal && q.kind == .illegal) = true
      · simp [Piece.upper, hboth]
      · simp [Piece.upper, hboth]

/-- A text in upper case has as many bytes. Only letters of one byte change, into
    letters of one byte. -/
theorem size_toUpper (cs : List Char) : (String.ofList (cs.map Char.toUpper)).utf8ByteSize =
    (String.ofList cs).utf8ByteSize := by
  induction cs with
  | nil => rfl
  | cons c cs ih =>
    simp [Text.utf8Size_toUpper, String.utf8ByteSize_append, ih]

/-- Pieces in upper case get the same places. In upper case a piece takes as many
    bytes. -/
theorem place_map_upper (offset : Nat) (ps : List Piece) :
    place offset (ps.map Piece.upper) = (place offset ps).map Token.upper := by
  induction ps generalizing offset with
  | nil => rfl
  | cons p ps ih =>
    rw [List.map_cons, place, place, List.map_cons]
    dsimp only [Piece.upper]
    rw [size_toUpper, ih, Token.upper, Text.upper, String.toList_ofList]

/-- A text in other letter case has the same tokens at the same places. No test of
    characters in the lexer tells a letter from its upper case. -/
theorem lex_upper (source : String) : lex (Text.upper source) = (lex source).map Token.upper := by
  rw [lex, lex, Text.upper, String.toList_ofList, pieces_toUpper, joinIllegal_map_upper,
    place_map_upper, List.filter_map]
  rfl

end Lexer

end SqlStatement

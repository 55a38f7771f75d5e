import SqlStatement.Lexer

namespace SqlStatement

/-- A character whose upper case is a letter is a letter itself. Only small letters
    are changed by it. -/
theorem Text.isAlpha_of_isAlpha_toUpper {c : Char} (h : c.toUpper.isAlpha = true) :
    c.isAlpha = true := by
  unfold Char.toUpper at h
  split at h
  · next hlower =>
    have hisLower : c.isLower = true :=
      Bool.and_eq_true_iff.mpr ⟨decide_eq_true hlower.1, decide_eq_true hlower.2⟩
    exact Bool.or_eq_true_iff.mpr (.inr hisLower)
  · exact h

/-- What is the same as a word starts with a letter if the word does, in whatever
    case the two are written. -/
theorem Text.isAlpha_of_sameWord {c : Char} {cs : List Char} {word : String}
    (h : Text.sameWord (String.ofList (c :: cs)) word = true)
    (hword : word.toList.head?.any (·.toUpper.isAlpha) = true) : c.isAlpha = true := by
  cases hchars : word.toList with
  | nil =>
    rw [hchars] at hword
    cases hword
  | cons d ds =>
    simp only [Text.sameWord, Text.upper, String.toList_ofList, hchars, List.map_cons, beq_iff_eq,
      String.ofList_inj, List.cons.injEq] at h
    rw [hchars] at hword
    apply Text.isAlpha_of_isAlpha_toUpper
    rw [h.1]
    exact hword

namespace Lexeme

/-- What starts with neither a letter nor an underscore is never a keyword. The
    readers of symbols, of quoted texts and of numbers say so one by one. -/
theorem symbol_isKeyword (one : Symbol) (pairs : List (Char × Symbol)) (cs : List Char) :
    (symbol one pairs cs).1.isKeyword = false := by
  unfold symbol
  split <;> rfl

theorem closed_isKeyword {kind : Token.Kind} (hkind : kind.isKeyword = false) (length : Option Nat)
    (cs : List Char) : (closed kind length cs).1.isKeyword = false := by
  cases length with
  | none => rfl
  | some n => exact hkind

theorem number_isKeyword (c : Char) (cs : List Char) : (number c cs).1.isKeyword = false := by
  unfold number
  generalize (if c == '0' then hexadecimal cs else 0) = hex
  dsimp only
  split
  · rfl
  · split
    · rfl
    · split <;> rfl

/-- A word in front of other text is a blob, a name or a keyword, and a keyword
    reads as the word that it is. -/
theorem word_kind (c : Char) (cs : List Char) :
    (word c cs).1 = .blob ∨ (word c cs).1 = .identifier ∨
      ∃ k, (word c cs).1 = .keyword k ∧
        Keyword.ofWord? (String.ofList (c :: cs.take (word c cs).2)) = some k := by
  unfold word
  generalize (if c == 'x' || c == 'X' then blob cs else 0) = bytes
  dsimp only
  split
  · exact .inl rfl
  · split
    · next k hk => exact .inr (.inr ⟨k, rfl, hk⟩)
    · exact .inr (.inl rfl)

/-- No lexeme is a keyword unless it starts like a word. The other cases of a lexeme
    find symbols, numbers, strings, variables, comments or blanks. -/
theorem classify_isKeyword {c : Char} (hc : startsWord c = false) (cs : List Char) :
    (classify c cs).1.isKeyword = false := by
  unfold classify
  rw [hc]
  split
  · rfl
  · rw [if_neg Bool.false_ne_true]
    split
    · exact number_isKeyword c cs
    · split <;> first
        | exact symbol_isKeyword ..
        | exact closed_isKeyword rfl ..
        | ((repeat' first | split | dsimp only) <;> rfl)

/-- What starts a word is not a blank, so the reader of words is reached. -/
theorem not_isBlank_of_startsWord {c : Char} (hc : startsWord c = true) : isBlank c = false := by
  apply Bool.eq_false_iff.mpr
  intro hblank
  simp only [isBlank, Bool.or_eq_true, beq_iff_eq] at hblank
  rcases hblank with (((rfl | rfl) | rfl) | rfl) | rfl <;> exact absurd hc (by decide)

theorem classify_of_startsWord {c : Char} (hc : startsWord c = true) (cs : List Char) :
    classify c cs = word c cs := by
  unfold classify
  rw [not_isBlank_of_startsWord hc, if_neg Bool.false_ne_true, if_pos hc]

/-- A keyword is a word that reads as it, so its text is one of its spellings. Its
    first character starts a word, so the case of words has found it. -/
theorem ofWord?_of_classify {c : Char} {cs : List Char} {k : Keyword}
    (h : (classify c cs).1 = .keyword k) :
    Keyword.ofWord? (String.ofList (c :: cs.take (classify c cs).2)) = some k := by
  by_cases hc : startsWord c = true
  · rw [classify_of_startsWord hc] at h ⊢
    rcases word_kind c cs with hblob | hname | ⟨k', hkeyword, hword⟩
    · cases hblob.symm.trans h
    · cases hname.symm.trans h
    · cases hkeyword.symm.trans h
      exact hword
  · have hnone := classify_isKeyword (by simpa using hc) cs
    rw [h] at hnone
    cases hnone

/-- A symbol does not start a word, so its text is no word either. A word would be
    found to be a keyword or an identifier. -/
theorem not_startsWord_of_classify {c : Char} {cs : List Char} {s : Symbol}
    (h : (classify c cs).1 = .symbol s) : startsWord c = false := by
  apply Bool.eq_false_iff.mpr
  intro hc
  rw [classify_of_startsWord hc] at h
  rcases word_kind c cs with hblob | hname | ⟨k, hkeyword, -⟩
  · cases hblob.symm.trans h
  · cases hname.symm.trans h
  · cases hkeyword.symm.trans h

end Lexeme

namespace Lexer

/-- Every piece of a text is a lexeme of what was left of the text there. The
    recursion is that of `pieces`, which takes off one lexeme at a time. -/
theorem classify_of_mem_pieces {cs : List Char} {p : Piece} (h : p ∈ pieces cs) :
    ∃ c rest, p = ⟨(Lexeme.classify c rest).1, c :: rest.take (Lexeme.classify c rest).2⟩ := by
  fun_induction pieces cs with
  | case1 => cases h
  | case2 c cs kind more hclassify ih =>
    rcases List.mem_cons.mp h with rfl | hrest
    · refine ⟨c, cs, ?_⟩
      rw [hclassify]
    · exact ih hrest

/-- Joining only changes illegal pieces. A legal piece is handed on as it is. -/
theorem mem_of_mem_joinIllegal {ps : List Piece} {p : Piece} (h : p ∈ joinIllegal ps)
    (hkind : p.kind ≠ .illegal) : p ∈ ps := by
  induction ps with
  | nil => cases h
  | cons q qs ih =>
    rw [joinIllegal] at h
    split at h
    · cases List.mem_singleton.mp h
      exact List.mem_cons_self
    · next r rs hrest =>
      rw [hrest] at ih
      split at h
      · rcases List.mem_cons.mp h with rfl | hmem
        · exact absurd rfl hkind
        · exact List.mem_cons_of_mem _ (ih (List.mem_cons_of_mem _ hmem))
      · rcases List.mem_cons.mp h with rfl | hmem
        · exact List.mem_cons_self
        · exact List.mem_cons_of_mem _ (ih hmem)

/-- A token has the kind and the text of the piece that it is made of. Only its span
    is new. -/
theorem piece_of_mem_place {ps : List Piece} {offset : Nat} {t : Token}
    (h : t ∈ place offset ps) : ∃ p ∈ ps, t.kind = p.kind ∧ t.text = String.ofList p.text := by
  induction ps generalizing offset with
  | nil => cases h
  | cons p ps ih =>
    rcases List.mem_cons.mp h with rfl | hrest
    · exact ⟨p, List.mem_cons_self, rfl, rfl⟩
    · obtain ⟨q, hq, heq⟩ := ih hrest
      exact ⟨q, List.mem_cons_of_mem p hq, heq⟩

variable {source : String} {t : Token}

/-- Every legal token is a lexeme. What a lexeme is known to be, by its kind, is
    therefore known of the tokens of a text. -/
theorem classify_of_mem_lex (ht : t ∈ lex source) (hkind : t.kind ≠ .illegal) :
    ∃ c rest, t.kind = (Lexeme.classify c rest).1 ∧
      t.text = String.ofList (c :: rest.take (Lexeme.classify c rest).2) := by
  obtain ⟨hplace, -⟩ := List.mem_filter.mp ht
  obtain ⟨p, hp, hsame, htext⟩ := piece_of_mem_place hplace
  have hpieces := mem_of_mem_joinIllegal hp (hsame ▸ hkind)
  obtain ⟨c, rest, rfl⟩ := classify_of_mem_pieces hpieces
  exact ⟨c, rest, hsame, htext⟩

/-- A lexed keyword is a word that reads as it, so no text makes it another word.
    Its text is that of one lexeme, as no legal piece is joined. -/
theorem ofWord?_of_mem_lex (ht : t ∈ lex source) {k : Keyword} (hkind : t.kind = .keyword k) :
    Keyword.ofWord? t.text = some k := by
  have hlegal : t.kind ≠ .illegal := by simp [hkind]
  obtain ⟨c, rest, hclassify, htext⟩ := classify_of_mem_lex ht hlegal
  rw [htext]
  exact Lexeme.ofWord?_of_classify (hclassify.symm.trans hkind)

/-- A lexed symbol is not the same as a word that starts with a letter, so a term
    that asks for such a word by its text never accepts it. -/
theorem sameWord_of_mem_lex (ht : t ∈ lex source) {s : Symbol} (hkind : t.kind = .symbol s)
    {word : String} (hword : word.toList.head?.any (·.toUpper.isAlpha) = true) :
    Text.sameWord t.text word = false := by
  have hlegal : t.kind ≠ .illegal := by simp [hkind]
  obtain ⟨c, rest, hclassify, htext⟩ := classify_of_mem_lex ht hlegal
  have hstart := Lexeme.not_startsWord_of_classify (hclassify.symm.trans hkind)
  apply Bool.eq_false_iff.mpr
  intro hsame
  rw [htext] at hsame
  have halpha := Text.isAlpha_of_sameWord hsame hword
  simp [Lexeme.startsWord, halpha] at hstart

end Lexer

end SqlStatement

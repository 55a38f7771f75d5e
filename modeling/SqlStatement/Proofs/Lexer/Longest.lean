import SqlStatement.Proofs.Lexer.Munch
import SqlStatement.Proofs.Lexer.Spelling

namespace SqlStatement

open scoped Computability

namespace Lexeme

open Pattern

section Classes

variable {c : Char} {cs w : List Char} {k : Token.Kind}

/-- The characters that a lexeme can start with are told apart one class after the
    other. This is the first one. -/
theorem classify_of_isBlank (hc : isBlank c = true) (cs : List Char) :
    classify c cs = (.whitespace, run isBlank cs) := by
  rw [classify.eq_def, if_pos hc]

/-- A digit is neither a blank nor the start of a word, so the reader of numbers is
    reached. -/
theorem not_isBlank_of_isDigit (hc : c.isDigit = true) : isBlank c = false := by
  apply Bool.eq_false_iff.mpr
  intro hblank
  simp only [isBlank, Bool.or_eq_true, beq_iff_eq] at hblank
  rcases hblank with (((rfl | rfl) | rfl) | rfl) | rfl <;> exact absurd hc (by decide)

theorem not_startsWord_of_isDigit (hc : c.isDigit = true) : startsWord c = false := by
  refine Bool.eq_false_iff.mpr fun hword => ?_
  have hle := UInt32.le_iff_toNat_le.mp (of_decide_eq_true (Bool.and_eq_true_iff.mp hc).2)
  rcases Bool.or_eq_true_iff.mp hword with halpha | hother
  · rcases Bool.or_eq_true_iff.mp halpha with hupper | hlower
    · have hge := UInt32.le_iff_toNat_le.mp (of_decide_eq_true hupper).1
      exact absurd (Nat.le_trans hge hle) (by decide)
    · have hge := UInt32.le_iff_toNat_le.mp (of_decide_eq_true (Bool.and_eq_true_iff.mp hlower).1)
      exact absurd (Nat.le_trans hge hle) (by decide)
  · rw [eq_of_beq hother] at hc
    cases hc

theorem classify_of_isDigit (hc : c.isDigit = true) (cs : List Char) :
    classify c cs = number c cs := by
  rw [classify.eq_def, not_isBlank_of_isDigit hc, not_startsWord_of_isDigit hc, hc]
  rfl

/-- A sign of bind variables is legal only in front of a name. Alone it is illegal,
    and the name behind it belongs to the token. -/
theorem classify_of_isSigil (hc : isSigil c = true) (cs : List Char) :
    classify c cs =
      if run inName cs == 0 then (.illegal, 0) else (.bindVariable, run inName cs) := by
  simp only [isSigil, Bool.or_eq_true, beq_iff_eq] at hc
  rcases hc with (rfl | rfl) | rfl <;> rfl

/-- Two dashes start a comment up to the end of the line. -/
theorem classify_dashes (ds : List Char) :
    classify '-' ('-' :: ds) = (.lineComment, 1 + run (· != '\n') ds) := rfl

/-- A single dash is an operator. -/
theorem classify_minus (h : ∀ ds, cs ≠ '-' :: ds) : classify '-' cs = (.symbol .minus, 0) := by
  cases cs with
  | nil => rfl
  | cons d ds => simp [classify, isBlank, startsWord]

/-- A mark that opens a comment is read with all of the comment. -/
theorem classify_comment {ds : List Char} {n : Nat} (h : comment ds = some n) :
    classify '/' ('*' :: ds) = (.blockComment, 1 + n) := by
  simp [classify, isBlank, startsWord, h]

/-- A comment that is not closed starts with a slash, which is read as an operator. -/
theorem classify_open {ds : List Char} (h : comment ds = none) :
    classify '/' ('*' :: ds) = (.symbol .slash, 0) := by
  simp [classify, isBlank, startsWord, h]

theorem classify_slash (h : ∀ ds, cs ≠ '*' :: ds) : classify '/' cs = (.symbol .slash, 0) := by
  cases cs with
  | nil => rfl
  | cons d ds => simp [classify, isBlank, startsWord]

/-- What `classify` finds at a place is allowed there: it is in the text, and unless
    it is illegal its characters belong to the pattern of its kind. -/
def Allowed (c : Char) (cs : List Char) (found : Token.Kind × Nat) : Prop :=
  found.2 ≤ cs.length ∧ (found.1 ≠ .illegal → c :: cs.take found.2 ∈ found.1.pattern)

theorem Allowed.illegal {n : Nat} (h : n ≤ cs.length) : Allowed c cs (.illegal, n) :=
  ⟨h, fun hlegal => absurd rfl hlegal⟩

theorem Allowed.single {s : Symbol} (h : [c] ∈ s.spellings.map String.toList) (cs : List Char) :
    Allowed c cs (.symbol s, 0) :=
  ⟨Nat.zero_le _, fun _ => h⟩

theorem Allowed.double {d : Char} {s : Symbol} (h : [c, d] ∈ s.spellings.map String.toList)
    (cs : List Char) : Allowed c (d :: cs) (.symbol s, 1) :=
  ⟨Nat.le_add_left .., fun _ => h⟩

/-- A symbol of one character or of two is allowed, if the table of pairs only
    completes symbols with a spelling of their own. -/
theorem allowed_symbol {one : Symbol} {pairs : List (Char × Symbol)}
    (hone : [c] ∈ one.spellings.map String.toList)
    (hpairs : ∀ p ∈ pairs, [c, p.1] ∈ p.2.spellings.map String.toList) (cs : List Char) :
    Allowed c cs (symbol one pairs cs) := by
  unfold symbol
  split
  · next two htwo =>
    obtain ⟨d, hd, hlookup⟩ := Option.bind_eq_some_iff.mp htwo
    obtain ⟨ds, rfl⟩ := List.head?_eq_some_iff.mp hd
    obtain ⟨before, after, heq, -⟩ := List.lookup_eq_some_iff.mp hlookup
    refine .double (hpairs (d, two) ?_) ds
    rw [heq]
    exact List.mem_append_right _ List.mem_cons_self
  · exact .single hone cs

/-- What ends at a closing quote or bracket is allowed if the reader of that quote
    is sound. What is not closed is illegal up to the end of the text. -/
theorem allowed_closed {length : Option Nat}
    (h : ∀ n, length = some n → n ≤ cs.length ∧ c :: cs.take n ∈ k.pattern) :
    Allowed c cs (closed k length cs) := by
  cases length with
  | none => exact .illegal (Nat.le_refl _)
  | some n => exact ⟨(h n rfl).1, fun _ => (h n rfl).2⟩

/-- A point is a symbol or the start of a number. Which of them it is depends on the
    digit behind it. -/
theorem allowed_point (cs : List Char) : Allowed '.' cs (classify '.' cs) := by
  show Allowed '.' cs (if run Char.isDigit cs == 0 then (.symbol .dot, 0)
    else (.float, run Char.isDigit cs + exponent (cs.drop (run Char.isDigit cs))))
  split
  · exact .single (by simp [Symbol.spellings, Symbol.entry]) cs
  · next hpart =>
    have hexp := exponent_le (cs.drop (run Char.isDigit cs))
    have hle := run_le Char.isDigit cs
    rw [List.length_drop] at hexp
    refine ⟨by dsimp only; omega, fun _ => .inl (.inr (cons_mem_singleton_mul.mpr ⟨rfl, ?_⟩))⟩
    rw [List.take_add]
    exact Language.append_mem_mul (take_run_mem_several (by simpa using hpart))
      (take_exponent_mem _)

/-- A dash is a symbol or the start of a comment. It is a comment where a second
    dash follows. -/
theorem allowed_minus (cs : List Char) : Allowed '-' cs (classify '-' cs) := by
  by_cases hdashes : ∃ ds, cs = '-' :: ds
  · obtain ⟨ds, rfl⟩ := hdashes
    have hle := run_le (· != '\n') ds
    rw [classify_dashes]
    refine ⟨by dsimp only [List.length_cons]; omega, fun _ => ?_⟩
    dsimp only
    rw [Nat.add_comm 1, List.take_succ_cons]
    exact cons_cons_mem_singleton_mul.mpr ⟨rfl, rfl, mem_kstar_one.mpr (forall_take_run _ ds)⟩
  · rw [classify_minus (not_exists.mp hdashes)]
    exact .single (by simp [Symbol.spellings, Symbol.entry]) cs

/-- A slash is a symbol, or it starts a comment that is closed. Without the end of
    the comment the slash stands alone. -/
theorem allowed_slash (cs : List Char) : Allowed '/' cs (classify '/' cs) := by
  have hslash : ['/'] ∈ Symbol.slash.spellings.map String.toList := by
    simp [Symbol.spellings, Symbol.entry]
  by_cases hopen : ∃ ds, cs = '*' :: ds
  · obtain ⟨ds, rfl⟩ := hopen
    cases hcomment : comment ds with
    | some n =>
      obtain ⟨hle, hmem⟩ := comment_sound hcomment
      rw [classify_comment hcomment]
      refine ⟨by dsimp only [List.length_cons]; omega, fun _ => ?_⟩
      dsimp only
      rw [Nat.add_comm 1, List.take_succ_cons]
      exact cons_cons_mem_singleton_mul.mpr ⟨rfl, rfl, hmem⟩
    | none =>
      rw [classify_open hcomment]
      exact .single hslash _
  · rw [classify_slash (not_exists.mp hopen)]
    exact .single hslash cs

/-- A sign of bind variables is allowed with a name behind it, and illegal without
    one. -/
theorem allowed_sigil (hc : isSigil c = true) (cs : List Char) :
    Allowed c cs (classify c cs) := by
  rw [classify_of_isSigil hc]
  split
  · exact .illegal (Nat.zero_le _)
  · next hname =>
    exact ⟨run_le .., fun _ => .inr
      (cons_mem_one_mul.mpr ⟨hc, take_run_mem_several (by simpa using hname)⟩)⟩

/-- Whatever a lexeme starts with, what is found is allowed there. This is the sound
    half of the longest match. -/
theorem allowed_classify (c : Char) (cs : List Char) : Allowed c cs (classify c cs) := by
  by_cases hsigil : isSigil c = true
  · exact allowed_sigil hsigil cs
  unfold classify
  split
  · next hc => exact ⟨run_le .., fun _ => cons_mem_several.mpr ⟨hc, forall_take_run _ cs⟩⟩
  split
  · next hc => exact (word_sound hc cs).imp_right fun h _ => h
  split
  · next hc => exact (number_sound hc cs).imp_right fun h _ => h
  split
  iterate 13
    exact allowed_symbol (by simp [Symbol.spellings, Symbol.entry])
      (by simp [Symbol.spellings, Symbol.entry]) cs
  · split
    · exact .double (by simp [Symbol.spellings]) _
    · exact .illegal (Nat.zero_le _)
  · exact allowed_point cs
  · exact allowed_minus cs
  · exact allowed_slash cs
  · exact allowed_closed fun n hn =>
      (quoted_sound hn).imp_right fun h => cons_mem_singleton_mul.mpr ⟨rfl, h⟩
  · exact allowed_closed fun n hn => (quoted_sound hn).imp_right fun h =>
      .inl (.inl (.inr (cons_mem_singleton_mul.mpr ⟨rfl, h⟩)))
  · exact allowed_closed fun n hn => (quoted_sound hn).imp_right fun h =>
      .inl (.inr (cons_mem_singleton_mul.mpr ⟨rfl, h⟩))
  · exact allowed_closed fun n hn => (bracketed_sound hn).imp_right fun h =>
      .inr (cons_mem_singleton_mul.mpr ⟨rfl, h⟩)
  · exact ⟨run_le .., fun _ => .inl
      (cons_mem_singleton_mul.mpr ⟨rfl, mem_kstar_one.mpr (forall_take_run _ cs)⟩)⟩
  · split
    · next hc => exact absurd hc hsigil
    · exact .illegal (Nat.zero_le _)

/-- A symbol of one character is found if no longer one is. A pair of characters is
    a longer symbol, and it is legal too. -/
theorem bests_single (one : Symbol) (pairs : List (Char × Symbol)) (cs : List Char) :
    Bests (symbol one pairs cs) (.symbol one, 0) := by
  unfold symbol
  split
  · exact .of_lt Token.Kind.noConfusion Nat.zero_lt_one
  · exact .of_le Token.Kind.noConfusion (Nat.le_refl _)

/-- A point is found as a symbol unless it starts a number, which is longer. No
    other kind has a text that starts with a point. -/
theorem bests_dot (cs : List Char) : Bests (classify '.' cs) (.symbol .dot, 0) := by
  show Bests (if run Char.isDigit cs == 0 then (.symbol .dot, 0)
    else (.float, run Char.isDigit cs + exponent (cs.drop (run Char.isDigit cs)))) _
  split
  · exact .of_le Token.Kind.noConfusion (Nat.le_refl _)
  · next hpart =>
    have hne : run Char.isDigit cs ≠ 0 := by simpa using hpart
    exact .of_lt Token.Kind.noConfusion (by omega)

/-- A dash is found as a symbol unless it starts a comment, which is longer. No
    number starts with a dash. -/
theorem bests_minus (cs : List Char) : Bests (classify '-' cs) (.symbol .minus, 0) := by
  by_cases hdashes : ∃ ds, cs = '-' :: ds
  · obtain ⟨ds, rfl⟩ := hdashes
    rw [classify_dashes]
    exact .of_lt Token.Kind.noConfusion (by omega)
  · rw [classify_minus (not_exists.mp hdashes)]
    exact .of_le Token.Kind.noConfusion (Nat.le_refl _)

/-- A slash is found as a symbol unless it starts a comment, which is longer. A
    comment is at least as long as its four signs. -/
theorem bests_slash (cs : List Char) : Bests (classify '/' cs) (.symbol .slash, 0) := by
  by_cases hopen : ∃ ds, cs = '*' :: ds
  · obtain ⟨ds, rfl⟩ := hopen
    cases hcomment : comment ds with
    | some n =>
      rw [classify_comment hcomment]
      exact .of_lt Token.Kind.noConfusion (by omega)
    | none =>
      rw [classify_open hcomment]
      exact .of_le Token.Kind.noConfusion (Nat.le_refl _)
  · rw [classify_slash (not_exists.mp hopen)]
    exact .of_le Token.Kind.noConfusion (Nat.le_refl _)

/-- No spelling of a symbol is longer than what is found at its place, in front of
    any text. -/
theorem bests_symbol {s : Symbol} (hw : c :: w ∈ (Token.Kind.symbol s).pattern)
    (rest : List Char) : Bests (classify c (w ++ rest)) (.symbol s, w.length) := by
  have hdouble : ∀ s : Symbol, Bests (.symbol s, 1) (.symbol s, 1) := fun _ =>
    .of_le Token.Kind.noConfusion (Nat.le_refl _)
  change c :: w ∈ s.spellings.map String.toList at hw
  cases s <;> simp [Symbol.spellings, Symbol.entry] at hw
  case dot =>
    obtain ⟨rfl, rfl⟩ := hw
    exact bests_dot rest
  case minus =>
    obtain ⟨rfl, rfl⟩ := hw
    exact bests_minus rest
  case slash =>
    obtain ⟨rfl, rfl⟩ := hw
    exact bests_slash rest
  case equal =>
    rcases hw with ⟨rfl, rfl⟩ | ⟨rfl, rfl⟩
    · exact bests_single .equal [('=', .equal)] rest
    · exact hdouble .equal
  case notEqual => rcases hw with ⟨rfl, rfl⟩ | ⟨rfl, rfl⟩ <;> exact hdouble .notEqual
  case shiftLeft | shiftRight | lessEqual | greaterEqual | concat =>
    obtain ⟨rfl, rfl⟩ := hw
    exact hdouble _
  all_goals
    obtain ⟨rfl, rfl⟩ := hw
    exact bests_single _ _ rest

/-- What is closed beats every candidate of its kind that is not longer. -/
theorem bests_closed {found : Option Nat} {n : Nat} (hk : k ≠ .illegal)
    (h : ∃ m, found = some m ∧ n ≤ m) (cs : List Char) : Bests (closed k found cs) (k, n) := by
  obtain ⟨m, rfl, hle⟩ := h
  exact .of_le hk hle

/-- No bind variable is longer than what is found at its place. They start with
    signs of their own, each of which is a case of the lexeme. -/
theorem bests_bindVariable (hw : c :: w ∈ Pattern.bindVariable) (rest : List Char) :
    Bests (classify c (w ++ rest)) (.bindVariable, w.length) := by
  rcases hw with hmark | hname
  · obtain ⟨rfl, hdigits⟩ := cons_mem_singleton_mul.mp hmark
    have hrun := run_append (mem_kstar_one.mp hdigits) rest
    show Bests (.bindVariable, run Char.isDigit (w ++ rest)) _
    exact .of_le Token.Kind.noConfusion (by omega)
  · obtain ⟨hc, hname⟩ := cons_mem_one_mul.mp hname
    obtain ⟨hle, hne⟩ := le_run_of_mem_several hname rest
    rw [classify_of_isSigil hc, if_neg (by simpa using hne)]
    exact .of_le Token.Kind.noConfusion hle

/-- No float is longer than what is found at its place, whether it starts with a
    digit or with its point. -/
theorem bests_float (hw : c :: w ∈ Pattern.float) (rest : List Char) :
    Bests (classify c (w ++ rest)) (.float, w.length) := by
  by_cases hc : c.isDigit = true
  · rw [classify_of_isDigit hc]
    exact number_bests_float hw hc rest
  rcases hw with (hwhole | hpoint) | hwhole
  · exact absurd (exists_of_cons_mem_several_mul hwhole).1 hc
  · obtain ⟨rfl, part, hpart, exp, hexp, rfl⟩ := cons_mem_singleton_mul.mp hpoint
    obtain ⟨hne, hdigits⟩ := mem_several.mp hpart
    have hfraction := fraction_complete hdigits hexp rest
    have hrun := run_append hdigits (exp ++ rest)
    have hpos := List.length_pos_iff.mpr hne
    show Bests (if run Char.isDigit (part ++ exp ++ rest) == 0 then (.symbol .dot, 0) else _) _
    rw [List.append_assoc, if_neg (by simp only [beq_iff_eq]; omega), List.length_append]
    exact .of_le Token.Kind.noConfusion hfraction
  · exact absurd (exists_of_cons_mem_several_mul hwhole).1 hc

/-- No name is longer than what is found at its place, bare or in any of the three
    kinds of quotes. -/
theorem bests_identifier (hw : c :: w ∈ Token.Kind.identifier.pattern) (rest : List Char) :
    Bests (classify c (w ++ rest)) (.identifier, w.length) := by
  rcases hw with ((hword | hquoted) | hquoted) | hbracketed
  · rw [classify_of_startsWord (cons_mem_head.mp hword.1).1]
    exact word_bests_bareWord hword rest
  · obtain ⟨rfl, hw⟩ := cons_mem_singleton_mul.mp hquoted
    exact bests_closed Token.Kind.noConfusion (quoted_complete hw rest) _
  · obtain ⟨rfl, hw⟩ := cons_mem_singleton_mul.mp hquoted
    exact bests_closed Token.Kind.noConfusion (quoted_complete hw rest) _
  · obtain ⟨rfl, hw⟩ := cons_mem_singleton_mul.mp hbracketed
    exact bests_closed Token.Kind.noConfusion ⟨_, bracketed_complete hw rest, Nat.le_refl _⟩ _

/-- What `classify` finds is at least as long as any text that is allowed there, and
    no other kind has a text of the same length. This is the complete half of the
    longest match. -/
theorem bests_classify (hw : c :: w ∈ k.pattern) (rest : List Char) :
    Bests (classify c (w ++ rest)) (k, w.length) := by
  cases k with
  | symbol s => exact bests_symbol hw rest
  | identifier => exact bests_identifier hw rest
  | string =>
    obtain ⟨rfl, htail⟩ := cons_mem_singleton_mul.mp hw
    exact bests_closed Token.Kind.noConfusion (quoted_complete htail rest) _
  | integer =>
    have hc : c.isDigit = true := by
      rcases hw with hdigits | hhex
      · exact (cons_mem_several.mp hdigits).1
      · rw [(cons_mem_singleton_mul.mp hhex).1]
        rfl
    rw [classify_of_isDigit hc]
    exact number_bests_integer hw rest
  | float => exact bests_float hw rest
  | blob =>
    have hc : startsWord c = true := by
      obtain ⟨hmark, -⟩ := cons_mem_one_mul.mp hw
      rcases Bool.or_eq_true_iff.mp hmark with h | h <;> rw [eq_of_beq h] <;> rfl
    rw [classify_of_startsWord hc]
    exact word_bests_blob hw rest
  | bindVariable => exact bests_bindVariable hw rest
  | whitespace =>
    obtain ⟨hc, hall⟩ := cons_mem_several.mp hw
    rw [classify_of_isBlank hc, run_append hall]
    exact .of_le Token.Kind.noConfusion (Nat.le_add_right ..)
  | lineComment =>
    obtain ⟨text, htext, heq⟩ := mem_singleton_mul.mp hw
    cases heq
    have hrun := run_append (mem_kstar_one.mp htext) rest
    have hle : text.length + 1 ≤ 1 + run (· != '\n') (text ++ rest) := by omega
    exact .of_le Token.Kind.noConfusion hle
  | blockComment =>
    obtain ⟨text, htext, heq⟩ := mem_singleton_mul.mp hw
    cases heq
    show Bests (classify '/' ('*' :: (text ++ rest))) _
    rw [classify_comment (comment_complete htext rest)]
    have hle : text.length + 1 ≤ 1 + text.length := by omega
    exact .of_le Token.Kind.noConfusion hle
  | keyword k =>
    rw [classify_of_startsWord (cons_mem_head.mp hw.1).1]
    exact word_bests_bareWord hw rest
  | illegal | endOfInput => exact hw.elim

/-- A text that a kind allows is one lexeme of that kind, so no text has two kinds.
    It is one of the candidates, and the lexeme beats them all without being longer
    than the text. -/
theorem classify_of_mem (hw : c :: w ∈ k.pattern) : classify c w = (k, w.length) := by
  obtain ⟨-, hlt | heq⟩ := bests_classify hw []
  · have hle := (allowed_classify c w).1
    rw [List.append_nil] at hlt
    exact absurd hle (Nat.not_le.mpr hlt)
  · rwa [List.append_nil] at heq

end Classes

end Lexeme

namespace Token.Kind

open Pattern

/-- No kind allows the empty text. So every lexeme takes something of the text, and
    the lexer ends. -/
theorem nil_notMem_pattern (k : Token.Kind) : [] ∉ k.pattern := by
  have hfloat : ([] : List Char) ∉ Pattern.float := by
    rintro ((⟨_, hdigits, rest, -, hnil⟩ | hpoint) | ⟨_, hdigits, rest, -, hnil⟩)
    · rw [(List.append_eq_nil_iff.mp hnil).1] at hdigits
      exact nil_notMem_several hdigits
    · exact nil_notMem_singleton_mul hpoint
    · rw [(List.append_eq_nil_iff.mp hnil).1] at hdigits
      exact nil_notMem_several hdigits
  cases k with
  | symbol s =>
    show [] ∉ s.spellings.map String.toList
    cases s <;> simp [Symbol.spellings, Symbol.entry]
  | identifier =>
    rintro (((hword | hquoted) | hquoted) | hbracketed)
    · exact nil_notMem_head hword.1
    · exact nil_notMem_singleton_mul hquoted
    · exact nil_notMem_singleton_mul hquoted
    · exact nil_notMem_singleton_mul hbracketed
  | string => exact nil_notMem_singleton_mul
  | integer => exact fun h => h.elim nil_notMem_several nil_notMem_singleton_mul
  | float => exact hfloat
  | blob => exact nil_notMem_one_mul
  | bindVariable => exact fun h => h.elim nil_notMem_singleton_mul nil_notMem_one_mul
  | whitespace => exact nil_notMem_several
  | lineComment | blockComment =>
    rintro ⟨_, rfl, rest, -, hnil⟩
    cases hnil
  | keyword k => exact fun h => nil_notMem_head h.1
  | illegal | endOfInput => exact Language.notMem_zero []

end Token.Kind

namespace Lexeme

variable {c : Char} {cs w : List Char}

/-- A legal lexeme belongs to the pattern of its kind and is the longest text that
    some kind allows at its place. -/
theorem longest_of_legal (hlegal : (classify c cs).1 ≠ .illegal) :
    c :: cs.take (classify c cs).2 ∈ (classify c cs).1.pattern ∧
      ∀ k text, text ∈ Token.Kind.pattern k → text <+: c :: cs →
        text.length ≤ (classify c cs).2 + 1 := by
  refine ⟨(allowed_classify c cs).2 hlegal, ?_⟩
  rintro k text hmem ⟨rest, hrest⟩
  cases text with
  | nil => exact Nat.zero_le _
  | cons d w =>
    cases hrest
    obtain ⟨-, hlt | heq⟩ := bests_classify hmem rest
    · exact Nat.add_le_add_right hlt.le 1
    · exact Nat.add_le_add_right (congrArg Prod.snd heq).ge 1

/-- Where a lexeme is illegal, no kind allows any text, not even a shorter one. If a
    kind allowed one, a legal lexeme at least as long would be found there. -/
theorem none_of_illegal (hillegal : (classify c cs).1 = .illegal) (k : Token.Kind)
    {text : List Char} (htext : text <+: c :: cs) : text ∉ k.pattern := by
  intro hmem
  obtain ⟨rest, hrest⟩ := htext
  cases text with
  | nil => exact Token.Kind.nil_notMem_pattern k hmem
  | cons d w =>
    cases hrest
    exact (bests_classify hmem rest).1 hillegal

end Lexeme

end SqlStatement

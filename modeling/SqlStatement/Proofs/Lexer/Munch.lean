import SqlStatement.Proofs.Lexer.Pattern

namespace SqlStatement

open scoped Computability

namespace Lexeme

open Pattern

/-- What was found is legal, and either longer than a candidate or the candidate
    itself. Each reader of the lexer has this of every text of its pattern, which is
    what makes it take the longest one. -/
def Bests (found candidate : Token.Kind × Nat) : Prop :=
  found.1 ≠ .illegal ∧ (candidate.2 < found.2 ∨ found = candidate)

/-- Something longer beats a candidate of any kind. -/
theorem Bests.of_lt {k k' : Token.Kind} {m n : Nat} (hk : k ≠ .illegal) (h : m < n) :
    Bests (k, n) (k', m) :=
  ⟨hk, .inl h⟩

/-- Something of the same kind beats a candidate already if it is not shorter. Of
    equal candidates of one kind it does not matter which one is found. -/
theorem Bests.of_le {k : Token.Kind} {m n : Nat} (hk : k ≠ .illegal) (h : m ≤ n) :
    Bests (k, n) (k, m) := by
  refine ⟨hk, ?_⟩
  rcases Nat.lt_or_eq_of_le h with hlt | rfl
  · exact .inl hlt
  · exact .inr rfl

section Runs

variable {p : Char → Bool} {cs w rest : List Char}

/-- What a run counts are the characters of the class at the front. -/
theorem take_run (p : Char → Bool) (cs : List Char) : cs.take (run p cs) = cs.takeWhile p :=
  (List.prefix_iff_eq_take.mp (List.takeWhile_prefix p)).symm

/-- All characters that a run counts belong to its class, so they match the
    repetition of the class in a pattern. -/
theorem forall_take_run (p : Char → Bool) (cs : List Char) :
    ∀ c ∈ cs.take (run p cs), p c = true := by
  rw [take_run]
  exact List.all_eq_true.mp List.all_takeWhile

theorem run_le (p : Char → Bool) (cs : List Char) : run p cs ≤ cs.length :=
  (List.takeWhile_prefix p).length_le

/-- Characters of the class in front of a text make its run longer by as much as
    they are. -/
theorem run_append (hw : ∀ c ∈ w, p c = true) (rest : List Char) :
    run p (w ++ rest) = w.length + run p rest := by
  rw [run, List.takeWhile_append_of_pos hw, List.length_append, run]

/-- A run is empty where the next character is not of its class or there is none. -/
theorem run_eq_zero (hrest : ∀ c ∈ rest.head?, p c = false) : run p rest = 0 := by
  cases rest with
  | nil => rfl
  | cons c cs => simp [run, hrest c rfl]

/-- Behind a run there is what is left without the characters of the class. -/
theorem drop_run (p : Char → Bool) (cs : List Char) : cs.drop (run p cs) = cs.dropWhile p := by
  calc cs.drop (run p cs)
      = (cs.takeWhile p ++ cs.dropWhile p).drop (cs.takeWhile p).length := by
        rw [List.takeWhile_append_dropWhile, run]
    _ = cs.dropWhile p := List.drop_left

/-- What ends a run before the text does is a character of another class. At the end
    of the text a run ends without such a character. -/
theorem getElem?_run (h : run p cs < cs.length) : ∃ c, cs[run p cs]? = some c ∧ p c = false := by
  have hne : cs.dropWhile p ≠ [] := by
    rw [← drop_run]
    simpa using h
  refine ⟨(cs.dropWhile p).head hne, ?_, List.head_dropWhile_not p hne⟩
  rw [← List.head?_eq_some_head, ← drop_run, List.head?_drop]

end Runs

section Quotes

variable {q : Char} {cs w : List Char} {n : Nat}

/-- What is found behind an opening quote is closed, and all of it is in the text.
    The recursion is that of the search, which goes on behind a doubled quote. -/
theorem quoted_sound (h : quoted q cs = some n) :
    n ≤ cs.length ∧ cs.take n ∈ quotedTail q := by
  fun_induction quoted q cs generalizing n with
  | case1 => cases h
  | case2 c hc =>
    cases h
    exact ⟨Nat.le_refl 1, cons_mem_quotedTail.mpr (.inr ⟨eq_of_beq hc, .inl rfl⟩)⟩
  | case3 c hc d ds hd n hds ih =>
    cases h
    obtain ⟨hle, hmem⟩ := ih hds
    rw [eq_of_beq hc, eq_of_beq hd]
    exact ⟨Nat.add_le_add_right hle 2,
      cons_mem_quotedTail.mpr (.inr ⟨rfl, .inr ⟨ds.take n, hmem, rfl⟩⟩)⟩
  | case4 c hc | case5 c hc =>
    cases h
    exact ⟨Nat.le_add_left .., cons_mem_quotedTail.mpr (.inr ⟨eq_of_beq hc, .inl rfl⟩)⟩
  | case6 c ds hc ih =>
    obtain ⟨n, hds, rfl⟩ := Option.map_eq_some_iff.mp h
    obtain ⟨hle, hmem⟩ := ih hds
    exact ⟨Nat.add_le_add_right hle 1, cons_mem_quotedTail.mpr (.inl ⟨by simpa using hc, hmem⟩)⟩

/-- A quote closes the text, if not later: a doubled quote that leads nowhere closes
    at its first half. -/
theorem quoted_quote (q : Char) (cs : List Char) : ∃ n, quoted q (q :: cs) = some n ∧ 1 ≤ n := by
  rw [quoted.eq_def]
  simp only [beq_self_eq_true, if_true]
  split
  · exact ⟨1, rfl, Nat.le_refl 1⟩
  · split
    · split
      · exact ⟨_, rfl, Nat.le_add_left ..⟩
      · exact ⟨1, rfl, Nat.le_refl 1⟩
    · exact ⟨1, rfl, Nat.le_refl 1⟩

theorem quoted_of_ne {c : Char} (hc : ¬(c == q) = true) (cs : List Char) :
    quoted q (c :: cs) = (quoted q cs).map (· + 1) := by
  rw [quoted.eq_def]
  simp only [hc, Bool.false_eq_true, if_false]

/-- Where a quoted text is, one at least as long is found. It may be longer, when a
    further quote follows the closing one. -/
theorem quoted_complete (hw : w ∈ quotedTail q) (rest : List Char) :
    ∃ n, quoted q (w ++ rest) = some n ∧ w.length ≤ n := by
  fun_induction quoted q w with
  | case1 => exact absurd hw nil_notMem_quotedTail
  | case2 c hc =>
    rw [eq_of_beq hc]
    exact quoted_quote q rest
  | case3 c hc d ds hd n hds ih | case4 c hc d ds hd hds ih =>
    rw [eq_of_beq hc, eq_of_beq hd, cons_mem_quotedTail] at hw
    rcases hw with ⟨hne, -⟩ | ⟨-, hnil | ⟨v, hv, heq⟩⟩
    · exact absurd rfl hne
    · cases hnil
    · cases heq
      obtain ⟨m, hm, hle⟩ := ih hv
      refine ⟨m + 2, ?_, Nat.add_le_add_right hle 2⟩
      simp [quoted, hc, hd, hm]
  | case5 c hc d ds hd =>
    rw [cons_mem_quotedTail] at hw
    rcases hw with ⟨hne, -⟩ | ⟨-, hnil | ⟨v, -, heq⟩⟩
    · exact absurd (eq_of_beq hc) hne
    · cases hnil
    · cases heq
      exact absurd (beq_self_eq_true q) hd
  | case6 c ds hc ih =>
    rw [cons_mem_quotedTail] at hw
    rcases hw with ⟨-, hds⟩ | ⟨heq, -⟩
    · obtain ⟨m, hm, hle⟩ := ih hds
      refine ⟨m + 1, ?_, Nat.add_le_add_right hle 1⟩
      simp [quoted_of_ne hc, hm]
    · exact absurd (beq_iff_eq.mpr heq) hc

end Quotes

section Comments

variable {cs w : List Char} {n : Nat}

/-- What is found behind the mark of a comment is closed, and all of it is in the
    text. -/
theorem comment_sound (h : comment cs = some n) : n ≤ cs.length ∧ cs.take n ∈ commentTail := by
  fun_induction comment cs generalizing n with
  | case1 | case2 => cases h
  | case3 c hc d ds hd =>
    cases h
    rw [eq_of_beq hd]
    exact ⟨Nat.le_add_left .., cons_mem_commentTail.mpr (.inr ⟨eq_of_beq hc, .inl rfl⟩)⟩
  | case4 c hc d ds hd ih =>
    obtain ⟨n, hds, rfl⟩ := Option.map_eq_some_iff.mp h
    obtain ⟨hle, hmem⟩ := ih hds
    exact ⟨Nat.add_le_add_right hle 2, cons_mem_commentTail.mpr
      (.inr ⟨eq_of_beq hc, .inr ⟨d, ds.take n, by simpa using hd, hmem, rfl⟩⟩)⟩
  | case5 c ds hc ih =>
    obtain ⟨n, hds, rfl⟩ := Option.map_eq_some_iff.mp h
    obtain ⟨hle, hmem⟩ := ih hds
    exact ⟨Nat.add_le_add_right hle 1, cons_mem_commentTail.mpr (.inl ⟨by simpa using hc, hmem⟩)⟩

theorem comment_of_ne {c : Char} (hc : ¬(c == '*') = true) (cs : List Char) :
    comment (c :: cs) = (comment cs).map (· + 1) := by
  rw [comment.eq_def]
  simp only [hc, Bool.false_eq_true, if_false]

/-- Where a comment is, that one is found: no comment is the start of another one,
    whatever follows it. -/
theorem comment_complete (hw : w ∈ commentTail) (rest : List Char) :
    comment (w ++ rest) = some w.length := by
  fun_induction comment w with
  | case1 => exact absurd hw nil_notMem_commentTail
  | case2 c hc =>
    rw [cons_mem_commentTail] at hw
    rcases hw with ⟨hne, -⟩ | ⟨-, heq | ⟨d, v, -, -, heq⟩⟩
    · exact absurd (eq_of_beq hc) hne
    · cases heq
    · cases heq
  | case3 c hc d ds hd =>
    rw [cons_mem_commentTail] at hw
    rcases hw with ⟨hne, -⟩ | ⟨-, heq | ⟨d, v, hslash, -, heq⟩⟩
    · exact absurd (eq_of_beq hc) hne
    · cases heq
      simp [comment, hc]
    · cases heq
      exact absurd (eq_of_beq hd) hslash
  | case4 c hc d ds hd ih =>
    rw [cons_mem_commentTail] at hw
    rcases hw with ⟨hne, -⟩ | ⟨-, heq | ⟨d, v, -, hv, heq⟩⟩
    · exact absurd (eq_of_beq hc) hne
    · cases heq
      exact absurd (beq_self_eq_true '/') hd
    · cases heq
      simp [comment, hc, hd, ih hv]
  | case5 c ds hc ih =>
    rw [cons_mem_commentTail] at hw
    rcases hw with ⟨-, hds⟩ | ⟨heq, -⟩
    · simp [comment_of_ne hc, ih hds]
    · exact absurd (beq_iff_eq.mpr heq) hc

end Comments

section Brackets

variable {cs w : List Char} {n : Nat}

/-- What is found behind an opening bracket is closed, and all of it is in the
    text. -/
theorem bracketed_sound (h : bracketed cs = some n) :
    n ≤ cs.length ∧ cs.take n ∈ (one (· != ']'))∗ * {[']']} := by
  obtain ⟨hlt, rfl⟩ : run (· != ']') cs < cs.length ∧ run (· != ']') cs + 1 = n := by
    simpa [bracketed] using h
  refine ⟨hlt, ?_⟩
  obtain ⟨c, hnext, hc⟩ := getElem?_run hlt
  rw [List.take_add_one, hnext, show c = ']' by simpa using hc]
  exact Language.append_mem_mul (mem_kstar_one.mpr (forall_take_run _ cs)) rfl

/-- Where a bracketed name is, that one is found, because it ends at the first
    closing bracket. -/
theorem bracketed_complete (hw : w ∈ (one (· != ']'))∗ * {[']']}) (rest : List Char) :
    bracketed (w ++ rest) = some w.length := by
  obtain ⟨name, hmem, _, rfl, rfl⟩ := hw
  have hname := mem_kstar_one.mp hmem
  have hrun : run (· != ']') (name ++ (']' :: rest)) = name.length := by
    rw [run_append hname, run_eq_zero (by simp)]
    rfl
  simp [bracketed, List.append_assoc, hrun]

end Brackets

section Numbers

variable {c : Char} {cs w : List Char}

/-- Signs, digits and the marks of exponents and hexadecimal numbers exclude one
    another. The cases of a number are told apart by this. -/
theorem not_isSign_of_isDigit (hc : c.isDigit = true) : isSign c = false := by
  apply Bool.eq_false_iff.mpr
  intro hsign
  rcases Bool.or_eq_true_iff.mp hsign with h | h <;>
    exact absurd (eq_of_beq h ▸ hc) (by decide)

theorem not_isDigit_of_isExponentMark (hc : isExponentMark c = true) : c.isDigit = false := by
  rcases Bool.or_eq_true_iff.mp hc with h | h <;> rw [eq_of_beq h] <;> decide

theorem not_isHexMark_of_isDigit (hc : c.isDigit = true) : isHexMark c = false := by
  apply Bool.eq_false_iff.mpr
  intro hmark
  rcases Bool.or_eq_true_iff.mp hmark with h | h <;>
    exact absurd (eq_of_beq h ▸ hc) (by decide)

theorem not_isHexMark_of_isExponentMark (hc : isExponentMark c = true) : isHexMark c = false := by
  rcases Bool.or_eq_true_iff.mp hc with h | h <;> rw [eq_of_beq h] <;> decide

/-- A run that is not empty matches its class in a pattern. -/
theorem take_run_mem_several {p : Char → Bool} (h : run p cs ≠ 0) :
    cs.take (run p cs) ∈ several p := by
  refine mem_several.mpr ⟨?_, forall_take_run p cs⟩
  intro hnil
  have hlength := congrArg List.length hnil
  rw [List.length_take, Nat.min_eq_left (run_le p cs)] at hlength
  exact h hlength

theorem exponent_le (cs : List Char) : exponent cs ≤ cs.length := by
  unfold exponent
  split
  · split
    · split
      · dsimp only
        split
        · exact Nat.zero_le _
        · exact Nat.add_le_add_right (run_le ..) 2
      · dsimp only
        split
        · exact Nat.zero_le _
        · exact Nat.add_le_add_right (run_le ..) 1
    · exact Nat.zero_le _
  · exact Nat.zero_le _

/-- What is found behind a number is an exponent, with its mark and its digits. A
    sign may stand between the mark and the digits. -/
theorem exponent_sound (h : exponent cs ≠ 0) : cs.take (exponent cs) ∈ Pattern.exponent := by
  revert h
  unfold exponent
  split
  · next e s cs =>
    split
    · next he =>
      split
      · next hs =>
        dsimp only
        split
        · exact fun h => absurd rfl h
        · next hdigits =>
          intro _
          have hmem := take_run_mem_several (by simpa using hdigits)
          exact cons_mem_exponent.mpr ⟨he, .inr (cons_mem_one_mul.mpr ⟨hs, hmem⟩)⟩
      · dsimp only
        split
        · exact fun h => absurd rfl h
        · next hdigits =>
          intro _
          have hmem := take_run_mem_several (by simpa using hdigits)
          exact cons_mem_exponent.mpr ⟨he, .inl hmem⟩
    · exact fun h => absurd rfl h
  · exact fun h => absurd rfl h

/-- Behind a number there is an exponent or nothing, in the form in which the
    patterns of numbers say it. -/
theorem take_exponent_mem (cs : List Char) : cs.take (exponent cs) ∈ 1 + Pattern.exponent := by
  by_cases h : exponent cs = 0
  · rw [h]
    exact .inl rfl
  · exact .inr (exponent_sound h)

/-- Where several characters of a class are, a run counts them and perhaps more. The
    rest may start with more characters of the class. -/
theorem le_run_of_mem_several {p : Char → Bool} (hw : w ∈ several p) (rest : List Char) :
    w.length ≤ run p (w ++ rest) ∧ run p (w ++ rest) ≠ 0 := by
  obtain ⟨hne, hall⟩ := mem_several.mp hw
  have hpos := List.length_pos_iff.mpr hne
  rw [run_append hall]
  omega

/-- Where an exponent is, one at least as long is found. The digits behind the mark
    may go on into the rest of the text. -/
theorem exponent_complete (hw : w ∈ Pattern.exponent) (rest : List Char) :
    w.length ≤ exponent (w ++ rest) := by
  cases w with
  | nil => exact absurd hw nil_notMem_one_mul
  | cons e w =>
    obtain ⟨he, hdigits | hsigned⟩ := cons_mem_exponent.mp hw
    · obtain ⟨hle, hne⟩ := le_run_of_mem_several hdigits rest
      cases w with
      | nil => exact absurd hdigits nil_notMem_several
      | cons d w =>
        have hsign : (d == '+' || d == '-') = false :=
          not_isSign_of_isDigit (cons_mem_several.mp hdigits).1
        have he' : (e == 'e' || e == 'E') = true := he
        simp only [List.cons_append] at hle hne
        simp only [List.cons_append, exponent, he', hsign, if_true, Bool.false_eq_true, if_false,
          beq_iff_eq, hne]
        exact Nat.add_le_add_right hle 1
    · cases w with
      | nil => exact absurd hsigned nil_notMem_one_mul
      | cons s w =>
        obtain ⟨hs, hdigits⟩ := cons_mem_one_mul.mp hsigned
        obtain ⟨hle, hne⟩ := le_run_of_mem_several hdigits rest
        have he' : (e == 'e' || e == 'E') = true := he
        have hs' : (s == '+' || s == '-') = true := hs
        simp only [List.cons_append, exponent, he', hs', if_true, if_false, beq_iff_eq, hne]
        exact Nat.add_le_add_right hle 2

/-- What is found behind a leading zero is a mark with digits behind it. At least
    one digit is required there. -/
theorem hexadecimal_sound (h : hexadecimal cs ≠ 0) : hexadecimal cs ≤ cs.length ∧
    cs.take (hexadecimal cs) ∈ one isHexMark * several isHexDigit := by
  unfold hexadecimal at h ⊢
  split at h
  · next x cs =>
    split at h
    · next hx =>
      dsimp only at h
      split at h
      · exact absurd rfl h
      · next hdigits =>
        simp only [hx, if_true, hdigits, Bool.false_eq_true, if_false]
        have hmem := take_run_mem_several (by simpa using hdigits)
        exact ⟨Nat.add_le_add_right (run_le ..) 1, cons_mem_one_mul.mpr ⟨hx, hmem⟩⟩
    · exact absurd rfl h
  · exact absurd rfl h

/-- Where a hexadecimal number goes on, one at least as long is found. It is longer
    where the rest starts with more digits. -/
theorem hexadecimal_complete (hw : w ∈ one isHexMark * several isHexDigit) (rest : List Char) :
    w.length ≤ hexadecimal (w ++ rest) ∧ hexadecimal (w ++ rest) ≠ 0 := by
  cases w with
  | nil => exact absurd hw nil_notMem_one_mul
  | cons x w =>
    obtain ⟨hx, hdigits⟩ := cons_mem_one_mul.mp hw
    obtain ⟨hle, hne⟩ := le_run_of_mem_several hdigits rest
    have hmark : (x == 'x' || x == 'X') = true := hx
    simp only [List.cons_append, hexadecimal, hmark, if_true, beq_iff_eq, hne, if_false]
    exact ⟨Nat.add_le_add_right hle 1, Nat.succ_ne_zero _⟩

/-- Without the mark there is no hexadecimal number. -/
theorem hexadecimal_eq_zero (h : ∀ x ∈ cs.head?, isHexMark x = false) : hexadecimal cs = 0 := by
  cases cs with
  | nil => rfl
  | cons x cs =>
    have hmark : (x == 'x' || x == 'X') = false := h x rfl
    simp [hexadecimal, hmark]

/-- The first of the three forms of a number: a leading zero with a mark and digits
    behind it. -/
theorem number_hex (h : hexadecimal cs ≠ 0) : number '0' cs = (.integer, hexadecimal cs) := by
  simp [number, h]

/-- The second form: digits with a point behind them, whether or not a fraction
    follows. -/
theorem number_point {ds : List Char} (hhex : c = '0' → hexadecimal cs = 0)
    (hdrop : cs.drop (run Char.isDigit cs) = '.' :: ds) :
    number c cs = (.float, run Char.isDigit cs + 1 + run Char.isDigit ds +
      exponent (ds.drop (run Char.isDigit ds))) := by
  have hnone : (if c == '0' then hexadecimal cs else 0) = 0 := by simpa using hhex
  unfold number
  simp only [hnone, bne_self_eq_false, Bool.false_eq_true, if_false, hdrop]

/-- The third form: digits alone, or with an exponent directly behind them. It is an
    integer without the exponent and a float with it. -/
theorem number_plain (hhex : c = '0' → hexadecimal cs = 0)
    (hdrop : ∀ ds, cs.drop (run Char.isDigit cs) ≠ '.' :: ds) :
    number c cs = if exponent (cs.drop (run Char.isDigit cs)) = 0
      then (.integer, run Char.isDigit cs)
      else (.float, run Char.isDigit cs + exponent (cs.drop (run Char.isDigit cs))) := by
  have hnone : (if c = '0' then hexadecimal cs else 0) = 0 := by simpa using hhex
  unfold number
  simp only [hnone, bne_self_eq_false, Bool.false_eq_true, if_false, beq_iff_eq]

/-- What is read as a number is in the text and in the pattern of its kind. The
    three forms are gone through, and in each of them the text is a product of
    runs. -/
theorem number_sound (hc : c.isDigit = true) (cs : List Char) :
    (number c cs).2 ≤ cs.length ∧ c :: cs.take (number c cs).2 ∈ (number c cs).1.pattern := by
  have hwhole : c :: cs.take (run Char.isDigit cs) ∈ several Char.isDigit :=
    cons_mem_several.mpr ⟨hc, forall_take_run _ cs⟩
  have hle := run_le Char.isDigit cs
  by_cases hhex : c = '0' → hexadecimal cs = 0
  · by_cases hpoint : ∃ ds, cs.drop (run Char.isDigit cs) = '.' :: ds
    · obtain ⟨ds, hdrop⟩ := hpoint
      rw [number_point hhex hdrop]
      have hlength := congrArg List.length hdrop
      have hpart := run_le Char.isDigit ds
      have hexp := exponent_le (ds.drop (run Char.isDigit ds))
      simp only [List.length_drop, List.length_cons] at hlength hexp
      refine ⟨by dsimp only; omega, .inl (.inl ?_)⟩
      dsimp only
      rw [Nat.add_assoc, Nat.add_assoc, List.take_add, hdrop, Nat.add_comm 1,
        List.take_succ_cons, List.take_add]
      exact Language.append_mem_mul hwhole (cons_mem_singleton_mul.mpr
        ⟨rfl, Language.append_mem_mul (mem_kstar_one.mpr (forall_take_run _ ds))
          (take_exponent_mem _)⟩)
    · rw [number_plain hhex (not_exists.mp hpoint)]
      split
      · exact ⟨hle, .inl hwhole⟩
      · next hne =>
        have hexp := exponent_le (cs.drop (run Char.isDigit cs))
        rw [List.length_drop] at hexp
        refine ⟨by dsimp only; omega, .inr ?_⟩
        dsimp only
        rw [List.take_add]
        exact Language.append_mem_mul hwhole (exponent_sound hne)
  · obtain ⟨rfl, hne⟩ := Classical.not_imp.mp hhex
    rw [number_hex hne]
    obtain ⟨hbound, hmem⟩ := hexadecimal_sound hne
    exact ⟨hbound, .inr (cons_mem_singleton_mul.mpr ⟨rfl, hmem⟩)⟩

theorem hexadecimal_of_isDigit (hc : c.isDigit = true) (cs : List Char) :
    hexadecimal (c :: cs) = 0 := by
  apply hexadecimal_eq_zero
  rintro x hx
  cases hx
  exact not_isHexMark_of_isDigit hc

/-- Behind digits, nothing makes a leading zero the start of a hexadecimal number.
    The mark would have to be directly behind the zero, where there is a digit. -/
theorem hexadecimal_append {digits rest : List Char} (hdigits : ∀ d ∈ digits, d.isDigit = true)
    (hrest : hexadecimal rest = 0) : hexadecimal (digits ++ rest) = 0 := by
  cases digits with
  | nil => exact hrest
  | cons d ds => exact hexadecimal_of_isDigit (hdigits d List.mem_cons_self) _

/-- A run over characters of its class ends where they end, if nothing behind them
    belongs to it. -/
theorem drop_run_append {p : Char → Bool} (hw : ∀ c ∈ w, p c = true) {rest : List Char}
    (hrest : run p rest = 0) :
    run p (w ++ rest) = w.length ∧ (w ++ rest).drop (run p (w ++ rest)) = rest := by
  rw [run_append hw, hrest]
  exact ⟨rfl, List.drop_left⟩

/-- No integer at a place is longer than the number that is read there. The number
    may be a longer float, since digits alone start one. -/
theorem number_bests_integer (hw : c :: w ∈ Pattern.integer) (rest : List Char) :
    Bests (number c (w ++ rest)) (.integer, w.length) := by
  rcases hw with hdigits | hmarked
  · obtain ⟨hc, hall⟩ := cons_mem_several.mp hdigits
    by_cases hhex : c = '0' → hexadecimal (w ++ rest) = 0
    · have hrun := run_append hall rest
      by_cases hpoint : ∃ ds, (w ++ rest).drop (run Char.isDigit (w ++ rest)) = '.' :: ds
      · obtain ⟨ds, hdrop⟩ := hpoint
        rw [number_point hhex hdrop]
        exact .of_lt Token.Kind.noConfusion (by omega)
      · rw [number_plain hhex (not_exists.mp hpoint)]
        split
        · exact .of_le Token.Kind.noConfusion (by omega)
        · exact .of_lt Token.Kind.noConfusion (by omega)
    · obtain ⟨rfl, hne⟩ := Classical.not_imp.mp hhex
      rw [number_hex hne]
      cases w with
      | nil => exact .of_le Token.Kind.noConfusion (Nat.zero_le _)
      | cons d w => exact absurd (hexadecimal_of_isDigit (hall d List.mem_cons_self) _) hne
  · obtain ⟨rfl, hmem⟩ := cons_mem_singleton_mul.mp hmarked
    obtain ⟨hle, hne⟩ := hexadecimal_complete hmem rest
    rw [number_hex hne]
    exact .of_le Token.Kind.noConfusion hle

/-- An exponent starts with its mark. -/
theorem exists_of_mem_exponent (hw : w ∈ Pattern.exponent) :
    ∃ e es, w = e :: es ∧ isExponentMark e = true := by
  cases w with
  | nil => exact absurd hw nil_notMem_one_mul
  | cons e es => exact ⟨e, es, rfl, (cons_mem_exponent.mp hw).1⟩

/-- An exponent is not taken for further digits, so the digits in front of it end
    where it starts. -/
theorem run_of_mem_exponent (hw : w ∈ Pattern.exponent) (rest : List Char) :
    run Char.isDigit (w ++ rest) = 0 := by
  obtain ⟨e, es, rfl, he⟩ := exists_of_mem_exponent hw
  apply run_eq_zero
  rintro c hc
  cases hc
  exact not_isDigit_of_isExponentMark he

/-- What follows the point of a number is read at least up to where a text of the
    pattern ends. -/
theorem fraction_complete {part exp : List Char} (hpart : ∀ d ∈ part, d.isDigit = true)
    (hexp : exp ∈ 1 + Pattern.exponent) (rest : List Char) :
    part.length + exp.length ≤ run Char.isDigit (part ++ (exp ++ rest)) +
      exponent ((part ++ (exp ++ rest)).drop (run Char.isDigit (part ++ (exp ++ rest)))) := by
  rcases hexp with rfl | hexp
  · rw [run_append hpart]
    simp only [List.length_nil]
    omega
  · obtain ⟨hrun, hdrop⟩ := drop_run_append hpart (run_of_mem_exponent hexp rest)
    rw [hdrop, hrun]
    exact Nat.add_le_add_left (exponent_complete hexp rest) _

/-- No number with a point is longer than the number that is read. The number may go
    on into the rest, and then it is a float as well. -/
theorem number_bests_point {whole part exp : List Char}
    (hwhole : ∀ d ∈ whole, d.isDigit = true) (hpart : ∀ d ∈ part, d.isDigit = true)
    (hexp : exp ∈ 1 + Pattern.exponent) (rest : List Char) :
    Bests (number c (whole ++ '.' :: (part ++ (exp ++ rest))))
      (.float, (whole ++ '.' :: (part ++ exp)).length) := by
  have hhex : c = '0' → hexadecimal (whole ++ '.' :: (part ++ (exp ++ rest))) = 0 :=
    fun _ => hexadecimal_append hwhole rfl
  have hpoint : run Char.isDigit ('.' :: (part ++ (exp ++ rest))) = 0 := rfl
  obtain ⟨hrun, hdrop⟩ := drop_run_append hwhole hpoint
  rw [number_point hhex hdrop, hrun]
  apply Bests.of_le Token.Kind.noConfusion
  have hfraction := fraction_complete hpart hexp rest
  simp only [List.length_append, List.length_cons]
  omega

/-- No number with an exponent and without a point is longer than the number that is
    read. -/
theorem number_bests_exponent {whole exp : List Char} (hwhole : ∀ d ∈ whole, d.isDigit = true)
    (hexp : exp ∈ Pattern.exponent) (rest : List Char) :
    Bests (number c (whole ++ (exp ++ rest))) (.float, (whole ++ exp).length) := by
  obtain ⟨e, es, heq, he⟩ := exists_of_mem_exponent hexp
  have hhead : (exp ++ rest).head? = some e := by rw [heq]; rfl
  have hhex : c = '0' → hexadecimal (whole ++ (exp ++ rest)) = 0 := by
    intro _
    refine hexadecimal_append hwhole (hexadecimal_eq_zero ?_)
    rintro x hx
    cases hx.symm.trans hhead
    exact not_isHexMark_of_isExponentMark he
  obtain ⟨hrun, hdrop⟩ := drop_run_append hwhole (run_of_mem_exponent hexp rest)
  have hpoint : ∀ ds, (whole ++ (exp ++ rest)).drop
      (run Char.isDigit (whole ++ (exp ++ rest))) ≠ '.' :: ds := by
    intro ds hds
    rw [hdrop] at hds
    rw [hds] at hhead
    cases hhead
    exact absurd he (by decide)
  have hle := exponent_complete hexp rest
  have hpos : 0 < exp.length := by rw [heq]; exact Nat.succ_pos _
  rw [number_plain hhex hpoint, hdrop, hrun, if_neg (by omega), List.length_append]
  exact .of_le Token.Kind.noConfusion (by omega)

/-- No float that starts with a digit is longer than the number that is read there.
    The float may have a point and an exponent, or an exponent alone. -/
theorem number_bests_float (hw : c :: w ∈ Pattern.float) (hc : c.isDigit = true)
    (rest : List Char) : Bests (number c (w ++ rest)) (.float, w.length) := by
  rcases hw with (hpoint | hbare) | hexponent
  · obtain ⟨-, whole, _, hwhole, ⟨_, rfl, _, ⟨part, hpart, exp, hexp, rfl⟩, rfl⟩, rfl⟩ :=
      exists_of_cons_mem_several_mul hpoint
    have hbests := number_bests_point (c := c) hwhole (mem_kstar_one.mp hpart) hexp rest
    simpa only [List.append_assoc, List.cons_append, List.nil_append] using hbests
  · rw [(cons_mem_singleton_mul.mp hbare).1] at hc
    exact absurd hc (by decide)
  · obtain ⟨-, whole, exp, hwhole, hexp, rfl⟩ := exists_of_cons_mem_several_mul hexponent
    rw [List.append_assoc]
    exact number_bests_exponent hwhole hexp rest

end Numbers

section Words

variable {c : Char} {cs w : List Char}

/-- What is found behind the letter of a blob are hexadecimal digits in quotes. They
    may be none at all, but the second quote is required. -/
theorem blob_sound (h : blob cs ≠ 0) :
    blob cs ≤ cs.length ∧ cs.take (blob cs) ∈ {['\'']} * ((one isHexDigit)∗ * {['\'']}) := by
  unfold blob at h ⊢
  split at h
  · next cs =>
    dsimp only at h
    split at h
    · next ds hdrop =>
      have hlength := congrArg List.length hdrop
      simp only [List.length_drop, List.length_cons] at hlength
      have hle := run_le isHexDigit cs
      simp only [hdrop, List.length_cons]
      refine ⟨by omega, ?_⟩
      rw [List.take_succ_cons, List.take_add, hdrop]
      exact cons_mem_singleton_mul.mpr
        ⟨rfl, Language.append_mem_mul (mem_kstar_one.mpr (forall_take_run _ cs)) rfl⟩
    · exact absurd rfl h
  · exact absurd rfl h

/-- Where the digits and quotes of a blob are, those are found. A quote ends the run
    of digits, so it cannot be longer. -/
theorem blob_complete (hw : w ∈ {['\'']} * ((one isHexDigit)∗ * {['\'']})) (rest : List Char) :
    blob (w ++ rest) = w.length ∧ w.length ≠ 0 := by
  obtain ⟨_, rfl, _, ⟨digits, hdigits, _, rfl, rfl⟩, rfl⟩ := hw
  have hquote : run isHexDigit ('\'' :: rest) = 0 := rfl
  obtain ⟨hrun, hdrop⟩ := drop_run_append (mem_kstar_one.mp hdigits) hquote
  rw [hrun] at hdrop
  refine ⟨?_, Nat.succ_ne_zero _⟩
  simp [blob, hrun]

/-- A letter that no quote follows starts no blob. -/
theorem blob_eq_zero (h : cs.head? ≠ some '\'') : blob cs = 0 := by
  unfold blob
  split
  · exact absurd rfl h
  · rfl

/-- The kind of a bare word that reads as `k`. -/
def wordKind (k : Option Keyword) : Token.Kind :=
  k.elim .identifier .keyword

theorem wordKind_ne_illegal (k : Option Keyword) : wordKind k ≠ .illegal := by
  cases k <;> exact Token.Kind.noConfusion

/-- A word is read as a blob or as a bare word. In the latter case its letters alone
    decide whether it is a keyword. -/
theorem word_eq (c : Char) (cs : List Char) :
    word c cs = if isHexMark c = true ∧ blob cs ≠ 0 then (.blob, blob cs)
      else (wordKind (Keyword.ofWord? (String.ofList (c :: cs.take (run inWord cs)))),
        run inWord cs) := by
  unfold word
  by_cases hblob : isHexMark c = true ∧ blob cs ≠ 0
  · have hmark : (c == 'x' || c == 'X') = true := hblob.1
    simp [hmark, hblob]
  · have hnone : (if (c == 'x' || c == 'X') = true then blob cs else 0) = 0 := by
      rw [not_and_or, not_not] at hblob
      rcases hblob with hmark | hzero
      · exact if_neg hmark
      · rw [hzero, ite_self]
    simp only [hnone, bne_self_eq_false, Bool.false_eq_true, if_false, if_neg hblob]
    cases Keyword.ofWord? (String.ofList (c :: cs.take (run inWord cs))) <;> rfl

/-- What is read as a word is in the text and in the pattern of its kind. A blob is
    tried first, and any other word is a keyword or an identifier. -/
theorem word_sound (hc : startsWord c = true) (cs : List Char) :
    (word c cs).2 ≤ cs.length ∧ c :: cs.take (word c cs).2 ∈ (word c cs).1.pattern := by
  rw [word_eq]
  split
  · next hblob =>
    obtain ⟨hle, hmem⟩ := blob_sound hblob.2
    exact ⟨hle, cons_mem_one_mul.mpr ⟨hblob.1, hmem⟩⟩
  · refine ⟨run_le .., ?_⟩
    have hword : c :: cs.take (run inWord cs) ∈ head startsWord inWord :=
      cons_mem_head.mpr ⟨hc, forall_take_run _ cs⟩
    dsimp only
    cases hk : Keyword.ofWord? (String.ofList (c :: cs.take (run inWord cs))) with
    | none => exact .inl (.inl (.inl ⟨hword, hk⟩))
    | some k => exact ⟨hword, hk⟩

/-- Where a blob is, it is read and not the bare word that its letter starts. The
    blob is longer, as the bare word ends in front of the quote. -/
theorem word_bests_blob (hw : c :: w ∈ Pattern.blob) (rest : List Char) :
    Bests (word c (w ++ rest)) (.blob, w.length) := by
  obtain ⟨hc, hmem⟩ := cons_mem_one_mul.mp hw
  obtain ⟨hblob, hne⟩ := blob_complete hmem rest
  rw [word_eq, hblob, if_pos ⟨hc, hne⟩]
  exact .of_le Token.Kind.noConfusion (Nat.le_refl _)

/-- No bare word at a place is longer than the word that is read there, and one of
    the same length has the same kind. -/
theorem word_bests_bareWord {k : Option Keyword} (hw : c :: w ∈ bareWord k) (rest : List Char) :
    Bests (word c (w ++ rest)) (wordKind k, w.length) := by
  obtain ⟨hword, hk⟩ := hw
  obtain ⟨-, hall⟩ := cons_mem_head.mp hword
  rw [word_eq]
  split
  · next hblob =>
    cases w with
    | nil => exact .of_lt Token.Kind.noConfusion (Nat.pos_of_ne_zero hblob.2)
    | cons d w =>
      have hd : (d :: w ++ rest).head? ≠ some '\'' := by
        rintro ⟨⟩
        exact absurd (hall _ List.mem_cons_self) (by decide)
      exact absurd (blob_eq_zero hd) hblob.2
  · by_cases hrest : run inWord rest = 0
    · obtain ⟨hrun, -⟩ := drop_run_append hall hrest
      rw [hrun, List.take_left, hk]
      exact .of_le (wordKind_ne_illegal k) (Nat.le_refl _)
    · rw [run_append hall]
      exact .of_lt (wordKind_ne_illegal _) (by omega)

end Words

end Lexeme

end SqlStatement

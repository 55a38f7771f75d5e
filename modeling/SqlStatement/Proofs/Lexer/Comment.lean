import Mathlib.Algebra.Group.Nat.Even
import SqlStatement.Proofs.Lexer.Relex

namespace SqlStatement

open Token (Kind)

/-- The same token `n` bytes further on. -/
def Token.shift (n : Nat) (t : Token) : Token :=
  { t with span := ⟨n + t.span.start, n + t.span.stop⟩ }

namespace Lexeme

variable {body : List Char}

/-- The closing mark behind a comment's text is the first one. -/
def ClosesOnce (body : List Char) : Prop :=
  ∀ front rest, body ++ ['*', '/'] = front ++ '*' :: '/' :: rest → rest = []

/-- What closes once still does so without its first character. -/
theorem ClosesOnce.tail {c : Char} (h : ClosesOnce (c :: body)) : ClosesOnce body := by
  intro front rest heq
  exact h (c :: front) rest (congrArg (c :: ·) heq)

/-- A text with a closing mark in it does not close once. -/
theorem not_closesOnce (rest : List Char) : ¬ClosesOnce ('*' :: '/' :: rest) := by
  intro h
  exact List.append_ne_nil_of_right_ne_nil rest (List.cons_ne_nil _ _) (h [] _ rfl)

theorem closesOnce_nil : ClosesOnce [] := by
  intro front rest heq
  match front with
  | [] => simpa using heq
  | [_] => simp at heq
  | _ :: _ :: front => simp at heq

/-- No star of the text has a slash behind it. Unlike the definition this can be
    decided. -/
theorem closesOnce_iff : ClosesOnce body ↔ body.IsChain fun c d => c = '*' → d ≠ '/' := by
  induction body with
  | nil => exact iff_of_true closesOnce_nil .nil
  | cons c body ih =>
    rw [List.isChain_cons, ← ih]
    constructor
    · refine fun h => ⟨?_, h.tail⟩
      rintro d hd rfl rfl
      obtain ⟨ds, rfl⟩ := List.head?_eq_some_iff.mp hd
      exact not_closesOnce ds h
    · rintro ⟨hhead, htail⟩ front rest heq
      cases front with
      | nil =>
        obtain ⟨rfl, hrest⟩ := List.cons.inj heq
        cases body with
        | nil => cases hrest
        | cons d ds => exact absurd (List.cons.inj hrest).1 (hhead d rfl rfl)
      | cons _ front => exact htail front rest (List.cons.inj heq).2

instance (body : List Char) : Decidable (ClosesOnce body) :=
  decidable_of_iff _ closesOnce_iff.symm

/-- The number of stars at the end of a text. -/
def starsAtEnd (body : List Char) : Nat := run (· == '*') body.reverse

theorem starsAtEnd_le (body : List Char) : starsAtEnd body ≤ body.length := by
  have hle := run_le (· == '*') body.reverse
  rwa [List.length_reverse] at hle

/-- A character in front of a text counts only if all of the text is stars.
    Otherwise the stars at the end are those of the text behind it. -/
theorem starsAtEnd_cons (c : Char) (cs : List Char) : starsAtEnd (c :: cs) =
    if starsAtEnd cs = cs.length then cs.length + run (· == '*') [c] else starsAtEnd cs := by
  rw [starsAtEnd, run, List.reverse_cons, List.takeWhile_append, List.length_reverse,
    apply_ite List.length, List.length_append, List.length_reverse]
  rfl

/-- A character that is no star adds none. -/
theorem starsAtEnd_cons_of_ne {c : Char} (hc : ¬(c == '*') = true) (cs : List Char) :
    starsAtEnd (c :: cs) = starsAtEnd cs := by
  have hrun : run (· == '*') [c] = 0 := by simp [run, hc]
  rw [starsAtEnd_cons, hrun]
  split <;> omega

/-- A star and the character that it takes do not change whether the stars at the
    end pair up. Comments are read in such pairs. -/
theorem even_starsAtEnd_pair (d : Char) (cs : List Char) :
    Even (starsAtEnd ('*' :: d :: cs)) ↔ Even (starsAtEnd cs) := by
  by_cases hd : (d == '*') = true
  · have hstar : run (· == '*') ['*'] = 1 := rfl
    rw [eq_of_beq hd, starsAtEnd_cons, starsAtEnd_cons, hstar, List.length_cons]
    by_cases hall : starsAtEnd cs = cs.length
    · rw [if_pos hall, if_pos rfl, hall, Nat.add_assoc, Nat.even_add]
      exact iff_true_right (by decide)
    · have hle : starsAtEnd cs ≠ cs.length + 1 := by
        have hle := starsAtEnd_le cs
        omega
      rw [if_neg hall, if_neg hle]
  · have hshort : starsAtEnd cs ≠ (d :: cs).length := by
      have hle := starsAtEnd_le cs
      rw [List.length_cons]
      omega
    rw [starsAtEnd_cons, starsAtEnd_cons_of_ne hd, if_neg hshort]

/-- Where the comment ends that a text opens: at the closing mark behind it, or, if
    a star is left over, where the text behind that mark closes it. -/
theorem comment_body (hbody : ClosesOnce body) (rest : List Char) :
    comment (body ++ '*' :: '/' :: rest) =
      if Even (starsAtEnd body) then some (body.length + 2)
      else (comment rest).map (· + (body.length + 2)) := by
  fun_induction comment body with
  | case1 => rfl
  | case2 c hc =>
    rw [eq_of_beq hc]
    have hodd : ¬Even (starsAtEnd ['*']) := by decide
    have hslash : ¬('/' == '*') = true := by decide
    rw [if_neg hodd, List.singleton_append, comment, if_pos (beq_self_eq_true _)]
    rw [if_neg (by decide), comment_of_ne hslash, Option.map_map]
    rfl
  | case3 c hc d ds hd =>
    rw [eq_of_beq hc, eq_of_beq hd] at hbody
    exact absurd hbody (not_closesOnce ds)
  | case4 c hc d ds hd ih =>
    rw [eq_of_beq hc] at hbody ⊢
    simp only [List.cons_append, comment, beq_self_eq_true, if_true, hd, Bool.false_eq_true,
      if_false, ih hbody.tail.tail, even_starsAtEnd_pair, List.length_cons]
    split
    · rfl
    · rw [Option.map_map]
      rfl
  | case5 c cs hc ih =>
    rw [List.cons_append, comment_of_ne hc, ih hbody.tail, starsAtEnd_cons_of_ne hc,
      List.length_cons]
    split
    · rfl
    · rw [Option.map_map]
      rfl

end Lexeme

namespace Lexer

open Lexeme

/-- Pieces that are placed further on become the same tokens further on. -/
theorem place_add (n offset : Nat) (ps : List Piece) :
    place (n + offset) ps = (place offset ps).map (Token.shift n) := by
  induction ps generalizing offset with
  | nil => rfl
  | cons p ps ih =>
    rw [place, place, List.map_cons, ← ih, Nat.add_assoc]
    rfl

/-- Pieces behind others are placed behind their bytes. The size of the front is
    counted in bytes, as places are. -/
theorem place_append (offset : Nat) (xs ys : List Piece) :
    place offset (xs ++ ys) = place offset xs ++ place (offset + size xs) ys := by
  induction xs generalizing offset with
  | nil => rfl
  | cons p xs ih =>
    rw [List.cons_append, place, place, ih, size_cons, Nat.add_assoc, List.cons_append]

/-- Nothing is joined over legal pieces. -/
theorem joinIllegal_append_of_legal {xs : List Piece} (hlegal : ∀ p ∈ xs, p.kind ≠ .illegal)
    (ys : List Piece) : joinIllegal (xs ++ ys) = xs ++ joinIllegal ys := by
  induction xs with
  | nil => rfl
  | cons p xs ih =>
    obtain ⟨hp, hxs⟩ := List.forall_mem_cons.mp hlegal
    rw [List.cons_append, joinIllegal_cons_of_legal hp, ih hxs, List.cons_append]

/-- Behind legal pieces a text has the tokens that it has alone, moved by the bytes
    of the pieces. -/
theorem lex_of_pieces {source rest : String} {xs : List Piece}
    (hlegal : ∀ p ∈ xs, p.kind ≠ .illegal)
    (h : pieces source.toList = xs ++ pieces rest.toList) :
    lex source = (place 0 xs).filter (!·.kind.isTrivia) ++
      (lex rest).map (Token.shift (size xs)) := by
  have hbehind : place (0 + size xs) (joinIllegal (pieces rest.toList)) =
      (place 0 (joinIllegal (pieces rest.toList))).map (Token.shift (size xs)) := by
    rw [← place_add, Nat.add_comm]
  rw [lex, h, joinIllegal_append_of_legal hlegal, place_append, hbehind, List.filter_append,
    List.filter_map, lex]
  rfl

/-- A closed comment is one piece. What is behind its end is cut into pieces as if
    it were the text. -/
theorem pieces_comment {cs : List Char} {n : Nat} (h : comment cs = some n) :
    pieces ('/' :: '*' :: cs) =
      ⟨.blockComment, '/' :: '*' :: cs.take n⟩ :: pieces (cs.drop n) := by
  rw [pieces, classify_comment h]
  simp only [Nat.add_comm 1 n, List.take_succ_cons, List.drop_succ_cons]

/-- An opening mark without a closing one is read as two operators, a slash and a
    star. -/
theorem pieces_open {cs : List Char} (h : comment cs = none) :
    pieces ('/' :: '*' :: cs) =
      ⟨.symbol .slash, ['/']⟩ :: ⟨.symbol .star, ['*']⟩ :: pieces cs := by
  have hstar : classify '*' cs = (.symbol .star, 0) := by cases cs <;> rfl
  rw [pieces, classify_open h]
  simp only [List.take_zero, List.drop_zero]
  rw [pieces, hstar]
  simp only [List.take_zero, List.drop_zero]

theorem toList_opened (text : String) : ("/*" ++ text).toList = '/' :: '*' :: text.toList :=
  String.toList_append

/-- The text behind a closed comment has the tokens that it has alone: the comment
    hides itself and nothing else. -/
theorem lex_closed {hidden rest : String}
    (h : comment (hidden ++ rest).toList = some hidden.toList.length) :
    lex ("/*" ++ hidden ++ rest) = (lex rest).map (Token.shift ("/*" ++ hidden).utf8ByteSize) := by
  have hpieces : pieces ("/*" ++ hidden ++ rest).toList =
      [⟨.blockComment, ("/*" ++ hidden).toList⟩] ++ pieces rest.toList := by
    rw [String.append_assoc, toList_opened, pieces_comment h, String.toList_append, List.take_left,
      List.drop_left, toList_opened, List.singleton_append]
  have hsize : size [⟨.blockComment, ("/*" ++ hidden).toList⟩] = ("/*" ++ hidden).utf8ByteSize := by
    rw [size, List.flatMap_singleton, String.ofList_toList]
  have hlex := lex_of_pieces (by simp) hpieces
  rwa [hsize] at hlex

/-- An opening mark that nothing closes is two operators in front of the text behind
    it. -/
theorem lex_open {text : String} (h : comment text.toList = none) :
    lex ("/*" ++ text) = ⟨.symbol .slash, "/", ⟨0, 1⟩⟩ :: ⟨.symbol .star, "*", ⟨1, 2⟩⟩ ::
      (lex text).map (Token.shift 2) := by
  have hpieces : pieces ("/*" ++ text).toList =
      [⟨.symbol .slash, ['/']⟩, ⟨.symbol .star, ['*']⟩] ++ pieces text.toList := by
    rw [toList_opened, pieces_open h]
    rfl
  exact lex_of_pieces (by decide) hpieces

/-- No comment ends where the text has no end of one. So the slash and the star in
    front of it are operators. -/
theorem comment_eq_none {text : String} (h : ∀ hidden rest, text = hidden ++ rest →
    hidden.toList ∉ Pattern.commentTail) : comment text.toList = none := by
  refine Option.eq_none_iff_forall_ne_some.mpr fun n hn => ?_
  obtain ⟨-, hmem⟩ := comment_sound hn
  have hcut : text = String.ofList (text.toList.take n) ++ String.ofList (text.toList.drop n) := by
    rw [← String.ofList_append, List.take_append_drop, String.ofList_toList]
  exact h _ _ hcut (String.toList_ofList ▸ hmem)

/-- A block comment hides itself and nothing else, if the stars in front of its
    closing mark are even in number. If one is left over, it takes the star of the
    mark: the comment then also hides the text behind the mark up to where that
    closes a comment, and if it closes none, nothing is hidden and the opening mark
    is two operators. -/
theorem lex_comment {body : String} (hbody : ClosesOnce body.toList) (behind : String) :
    (Even (starsAtEnd body.toList) → lex ("/*" ++ body ++ "*/" ++ behind) =
      (lex behind).map (Token.shift ("/*" ++ body ++ "*/").utf8ByteSize)) ∧
    (¬Even (starsAtEnd body.toList) →
      (∀ hidden rest, behind = hidden ++ rest → hidden.toList ∈ Pattern.commentTail →
        lex ("/*" ++ body ++ "*/" ++ behind) =
          (lex rest).map (Token.shift ("/*" ++ body ++ "*/" ++ hidden).utf8ByteSize)) ∧
      ((∀ hidden rest, behind = hidden ++ rest → hidden.toList ∉ Pattern.commentTail) →
        lex ("/*" ++ body ++ "*/" ++ behind) =
          ⟨.symbol .slash, "/", ⟨0, 1⟩⟩ :: ⟨.symbol .star, "*", ⟨1, 2⟩⟩ ::
            (lex (body ++ "*/" ++ behind)).map (Token.shift 2))) := by
  have hcomment := comment_body hbody
  have htext (rest : String) :
      (body ++ "*/" ++ rest).toList = body.toList ++ '*' :: '/' :: rest.toList := by
    rw [String.append_assoc, String.toList_append, String.toList_append]
    rfl
  refine ⟨fun heven => ?_, fun hodd => ⟨?_, fun hnone => ?_⟩⟩
  · have hclosed : comment (body ++ "*/" ++ behind).toList =
        some (body ++ "*/").toList.length := by
      rw [htext, hcomment, if_pos heven, String.toList_append, List.length_append]
      rfl
    have hlex := lex_closed hclosed
    rwa [← String.append_assoc] at hlex
  · rintro hidden rest rfl hhidden
    have hclosed : comment (body ++ "*/" ++ hidden ++ rest).toList =
        some (body ++ "*/" ++ hidden).toList.length := by
      rw [String.append_assoc, htext, hcomment, if_neg hodd, String.toList_append,
        comment_complete hhidden, htext, List.length_append]
      simp only [Option.map_some, List.length_cons]
      congr 1
      omega
    have hlex := lex_closed hclosed
    simp only [← String.append_assoc] at hlex ⊢
    exact hlex
  · have hopen : comment (body ++ "*/" ++ behind).toList = none := by
      rw [htext, hcomment, if_neg hodd, comment_eq_none hnone, Option.map_none]
    have hlex := lex_open hopen
    simp only [← String.append_assoc] at hlex ⊢
    exact hlex

/-- A star is left over in front of the closing mark, and the next comment's mark
    ends this one: the statement between them is hidden. -/
theorem lex_comment_hidesStatement :
    ClosesOnce "*".toList ∧ ¬Even (starsAtEnd "*".toList) ∧
    " DROP TABLE t; /***/".toList ∈ Pattern.commentTail ∧
    lex ("/*" ++ "*" ++ "*/" ++ " DROP TABLE t; /***/ SELECT 1") =
      (lex " SELECT 1").map
        (Token.shift ("/*" ++ "*" ++ "*/" ++ " DROP TABLE t; /***/").utf8ByteSize) := by
  have hbody : ClosesOnce "*".toList := by decide
  have hodd : ¬Even (starsAtEnd "*".toList) := by decide
  -- The first two of the three stars are a pair, the third one closes.
  have hcomment : comment " DROP TABLE t; /***/".toList = some 20 := by decide +kernel
  have hhidden : " DROP TABLE t; /***/".toList ∈ Pattern.commentTail :=
    (comment_sound hcomment).2
  exact ⟨hbody, hodd, hhidden,
    ((lex_comment hbody " DROP TABLE t; /***/ SELECT 1").2 hodd).1
      " DROP TABLE t; /***/" " SELECT 1" (by decide) hhidden⟩

/-- The closing mark of a comment of one star is the first one, yet without a
    further comment its marks are operators. -/
theorem lex_stars_ne :
    ClosesOnce "*".toList ∧
    lex ("/*" ++ "*" ++ "*/" ++ " SELECT 1") ≠
      (lex " SELECT 1").map (Token.shift ("/*" ++ "*" ++ "*/").utf8ByteSize) :=
  ⟨by decide, by decide +kernel⟩

end Lexer

end SqlStatement

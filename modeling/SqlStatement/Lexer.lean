import SqlStatement.Lexer.Lexeme
import SqlStatement.Token

namespace SqlStatement.Lexer

open Token (Kind)

/-- A lexeme without its place. -/
structure Piece where
  kind : Kind
  text : List Char
  deriving DecidableEq, Repr

/-- The lexemes of a text, cut off from left to right. -/
def pieces : List Char → List Piece
  | [] => []
  | c :: cs =>
    let (kind, more) := Lexeme.classify c cs
    ⟨kind, c :: cs.take more⟩ :: pieces (cs.drop more)
termination_by cs => cs.length
decreasing_by
  simp only [List.length_drop, List.length_cons]
  omega

/-- Joins neighbouring illegal pieces, so that a run of them is one token. -/
def joinIllegal : List Piece → List Piece
  | [] => []
  | p :: ps =>
    match joinIllegal ps with
    | [] => [p]
    | q :: qs =>
      if p.kind == .illegal && q.kind == .illegal then ⟨.illegal, p.text ++ q.text⟩ :: qs
      else p :: q :: qs

/-- Joining pieces keeps their text, character by character. -/
theorem text_joinIllegal (ps : List Piece) :
    (joinIllegal ps).flatMap Piece.text = ps.flatMap Piece.text := by
  induction ps with
  | nil => rfl
  | cons p ps ih =>
    rw [joinIllegal]
    cases hrest : joinIllegal ps with
    | nil =>
      rw [hrest] at ih
      simpa using ih
    | cons q qs =>
      rw [hrest] at ih
      by_cases hboth : (p.kind == .illegal && q.kind == .illegal) = true
      · simpa [hboth, List.append_assoc] using ih
      · simpa [hboth] using ih

/-- Gives every piece its bytes, the first one starting at `offset`. -/
def place (offset : Nat) : List Piece → List Token
  | [] => []
  | p :: ps =>
    let text := String.ofList p.text
    let stop := offset + text.utf8ByteSize
    ⟨p.kind, text, ⟨offset, stop⟩⟩ :: place stop ps

/-- The tokens of a text, without blanks and comments. These are dropped once every
    piece has its place, so no byte of the text is lost. -/
def lex (source : String) : List Token :=
  (place 0 (joinIllegal (pieces source.toList))).filter (!·.kind.isTrivia)

end SqlStatement.Lexer

import SqlStatement.Token.KindSet

namespace SqlStatement

/-- A half-open range of places. -/
structure Span where
  start : Nat
  stop : Nat
  deriving DecidableEq, Repr

namespace Span

def isEmpty (s : Span) : Bool := s.start == s.stop

def length (s : Span) : Nat := s.stop - s.start

end Span

/-- A piece of source text with its kind and the bytes of UTF-8 that it covers. -/
structure Token where
  kind : Token.Kind
  text : String
  span : Span
  deriving DecidableEq, Repr

namespace Token

def isSemicolon (t : Token) : Bool := t.kind == .symbol .semicolon

/-- The index of the first token that ends at or after a byte offset: a caret inside
    or at the end of a word selects that word. -/
def indexAt (tokens : List Token) (offset : Nat) : Nat :=
  tokens.findIdx fun t => offset ≤ t.span.stop

end Token

end SqlStatement

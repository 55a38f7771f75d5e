import SqlStatement.Token.Keyword

namespace SqlStatement

/-- Punctuation and operators. -/
inductive Symbol where
  | leftParen | rightParen | comma | semicolon | dot
  | plus | minus | star | slash | percent
  | ampersand | bar | tilde | shiftLeft | shiftRight
  | less | lessEqual | greater | greaterEqual | equal | notEqual | concat
  deriving DecidableEq, Repr

namespace Symbol

/-- The name that exported grammar tables use, and the spelling that messages show. -/
def entry : Symbol → String × String
  | .leftParen => ("Lp", "(")
  | .rightParen => ("Rp", ")")
  | .comma => ("Comma", ",")
  | .semicolon => ("Semi", ";")
  | .dot => ("Dot", ".")
  | .plus => ("Plus", "+")
  | .minus => ("Minus", "-")
  | .star => ("Star", "*")
  | .slash => ("Slash", "/")
  | .percent => ("Rem", "%")
  | .ampersand => ("BitAnd", "&")
  | .bar => ("BitOr", "|")
  | .tilde => ("BitNot", "~")
  | .shiftLeft => ("LShift", "<<")
  | .shiftRight => ("RShift", ">>")
  | .less => ("Lt", "<")
  | .lessEqual => ("Le", "<=")
  | .greater => ("Gt", ">")
  | .greaterEqual => ("Ge", ">=")
  | .equal => ("Eq", "=")
  | .notEqual => ("Ne", "!=")
  | .concat => ("Concat", "||")

/-- All symbols, in the order of their numbers. -/
def all : List Symbol :=
  [.leftParen, .rightParen, .comma, .semicolon, .dot, .plus, .minus, .star, .slash, .percent,
   .ampersand, .bar, .tilde, .shiftLeft, .shiftRight, .less, .lessEqual, .greater,
   .greaterEqual, .equal, .notEqual, .concat]

def index (s : Symbol) : Nat := s.ctorIdx

end Symbol

namespace Token

/-- The vocabulary shared by the lexer and by grammar tables. Symbols come first,
    then the kinds whose text varies, then the reserved words, and last the two
    kinds that no written text stands for. -/
inductive Kind where
  | symbol (s : Symbol)
  /-- A bare or quoted name. -/
  | identifier
  | string
  | integer
  | float
  | blob
  | bindVariable
  | whitespace
  | lineComment
  | blockComment
  | keyword (k : Keyword)
  /-- A run of characters that no token starts with. -/
  | illegal
  /-- What follows the last token. -/
  | endOfInput
  deriving DecidableEq, Repr

namespace Kind

/-- The kinds between the symbols and the reserved words. -/
def varied : List Kind :=
  [.identifier, .string, .integer, .float, .blob, .bindVariable, .whitespace, .lineComment,
   .blockComment]

/-- All kinds, in the order of their numbers. -/
def all : List Kind :=
  Symbol.all.map .symbol ++ varied ++ Keyword.all.map .keyword ++ [.illegal, .endOfInput]

/-- The number of a kind. It is the place of the kind in `all`, which is what sets
    of kinds store. -/
def index : Kind → Nat
  | .symbol s => s.index
  | .identifier => 22
  | .string => 23
  | .integer => 24
  | .float => 25
  | .blob => 26
  | .bindVariable => 27
  | .whitespace => 28
  | .lineComment => 29
  | .blockComment => 30
  | .keyword k => 31 + k.index
  | .illegal => 144
  | .endOfInput => 145

/-- The kind with a number, if there is one. -/
def ofIndex? (i : Nat) : Option Kind := all[i]?

/-- Every kind is found again under its number, so a set that stores numbers loses
    nothing of the kinds it was made of. -/
theorem ofIndex?_index (k : Kind) : ofIndex? k.index = some k := by
  cases k with
  | symbol s => cases s <;> rfl
  | keyword k => cases k <;> rfl
  | _ => rfl

/-- No kind is missing in the list, so what is decided for all of its members holds
    of every kind. -/
theorem mem_all (k : Kind) : k ∈ all :=
  List.mem_of_getElem? (ofIndex?_index k)

/-- Two kinds never share a number. -/
theorem index_injective {a b : Kind} (hindex : a.index = b.index) : a = b := by
  have ha := ofIndex?_index a
  rw [hindex, ofIndex?_index b] at ha
  exact (Option.some.inj ha).symm

/-- The list has as many kinds as the table of the dialect. -/
theorem length_all : all.length = 146 := by
  simp [all, Symbol.all, varied, Keyword.all]

/-- The numbers of kinds fit into three words of 64 bits, with room to spare. -/
theorem index_lt (k : Kind) : k.index < 146 := by
  obtain ⟨hbound, _⟩ := List.getElem?_eq_some_iff.mp (ofIndex?_index k)
  exact length_all ▸ hbound

/-- The name that exported grammar tables use. -/
def name : Kind → String
  | .symbol s => s.entry.1
  | .identifier => "Id"
  | .string => "String"
  | .integer => "Integer"
  | .float => "Float"
  | .blob => "Blob"
  | .bindVariable => "Variable"
  | .whitespace => "Whitespace"
  | .lineComment => "LineComment"
  | .blockComment => "BlockComment"
  | .keyword k => k.name
  | .illegal => "Illegal"
  | .endOfInput => "Eof"

def ofName? (s : String) : Option Kind := all.find? (·.name == s)

/-- The text that messages and suggestions show for a kind. -/
def text : Kind → String
  | .symbol s => s.entry.2
  | .identifier => "identifier"
  | .string => "string"
  | .integer => "integer"
  | .float => "float"
  | .blob => "blob"
  | .bindVariable => "variable"
  | .whitespace => "whitespace"
  | .lineComment => "comment"
  | .blockComment => "comment"
  | .keyword k => k.spelling
  | .illegal => "illegal token"
  | .endOfInput => "end of input"

/-- Blanks and comments, which the lexer drops. -/
def isTrivia : Kind → Bool
  | .whitespace | .lineComment | .blockComment => true
  | _ => false

def isKeyword : Kind → Bool
  | .keyword _ => true
  | _ => false

end Kind

end Token

end SqlStatement

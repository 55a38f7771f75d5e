import SqlStatement.Text.Width

namespace SqlStatement.Text

/-- Characters that change the direction of the text around them. -/
def isDirectional (c : Char) : Bool :=
  inRanges [(0x202a, 0x202e), (0x2066, 0x2069)] c

/-- The visible form of a character, to be pointed at in a report: tabs as four
    blanks, control characters as their pictures. Joiners have none, and the end of
    a line is kept. -/
def visibleChar (c : Char) : List Char :=
  if c == '\n' then ['\n']
  else if c == '\t' then [' ', ' ', ' ', ' ']
  else if c.toNat < 0x20 then [Char.ofNat (0x2400 + c.toNat)]
  else if c == '\x7f' then ['\u2421']
  else if c == '\u200d' then []
  else if isDirectional c then ['\ufffd']
  else [c]

def visible (cs : List Char) : List Char := cs.flatMap visibleChar

/-- The columns of a text are those of its visible form. -/
def columns (cs : List Char) : Nat := glyphsWidth (visible cs)

/-- Characters that separate words. -/
def isBlank (c : Char) : Bool :=
  inRanges [(0x9, 0xd), (0x20, 0x20), (0x85, 0x85), (0xa0, 0xa0), (0x1680, 0x1680),
    (0x2000, 0x200a), (0x2028, 0x2029), (0x202f, 0x202f), (0x205f, 0x205f), (0x3000, 0x3000)] c

def trim (cs : List Char) : List Char :=
  ((cs.dropWhile isBlank).reverse.dropWhile isBlank).reverse

def byteLength : List Char → Nat
  | [] => 0
  | c :: cs => c.utf8Size + byteLength cs

/-- The characters that fit into the first `n` bytes of a text. -/
def takeBytes (n : Nat) : List Char → List Char
  | [] => []
  | c :: cs => if c.utf8Size ≤ n then c :: takeBytes (n - c.utf8Size) cs else []

end SqlStatement.Text

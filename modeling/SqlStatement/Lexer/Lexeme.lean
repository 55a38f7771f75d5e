import SqlStatement.Token.Kind

namespace SqlStatement.Lexeme

open Token (Kind)

def isBlank (c : Char) : Bool :=
  c == ' ' || c == '\t' || c == '\r' || c == '\n' || c == '\x0c'

def startsWord (c : Char) : Bool := c.isAlpha || c == '_'

def inName (c : Char) : Bool := c.isAlphanum || c == '_'

def inWord (c : Char) : Bool := inName c || c == '$'

def isHexDigit (c : Char) : Bool :=
  c.isDigit || ('a' ≤ c && c ≤ 'f') || ('A' ≤ c && c ≤ 'F')

/-- How many characters at the front satisfy `p`. -/
def run (p : Char → Bool) (cs : List Char) : Nat := (cs.takeWhile p).length

/-- The length of the longest quoted text behind an opening quote `q`, its closing
    quote included. Inside, a quote is written twice; a doubled quote that leads
    nowhere closes at its first half. -/
def quoted (q : Char) : List Char → Option Nat
  | [] => none
  | c :: cs =>
    if c == q then
      match cs with
      | [] => some 1
      | d :: ds =>
        if d == q then
          match quoted q ds with
          | some n => some (n + 2)
          | none => some 1
        else some 1
    else (quoted q cs).map (· + 1)

/-- The length of a bracketed name behind its opening bracket, the closing one
    included. -/
def bracketed (cs : List Char) : Option Nat :=
  let n := run (· != ']') cs
  if n < cs.length then some (n + 1) else none

/-- The length of a block comment behind its opening mark, the closing mark
    included. A star that no slash follows takes the next character with it. -/
def comment : List Char → Option Nat
  | [] => none
  | c :: cs =>
    if c == '*' then
      match cs with
      | [] => none
      | d :: ds => if d == '/' then some 2 else (comment ds).map (· + 2)
    else (comment cs).map (· + 1)

/-- The length of an exponent, 0 if there is none. -/
def exponent : List Char → Nat
  | e :: s :: cs =>
    if e == 'e' || e == 'E' then
      if s == '+' || s == '-' then
        let digits := run Char.isDigit cs
        if digits == 0 then 0 else digits + 2
      else
        let digits := run Char.isDigit (s :: cs)
        if digits == 0 then 0 else digits + 1
    else 0
  | _ => 0

/-- The digits of a hexadecimal number behind its leading zero, mark included; 0 if
    there are none. -/
def hexadecimal : List Char → Nat
  | x :: cs =>
    if x == 'x' || x == 'X' then
      let digits := run isHexDigit cs
      if digits == 0 then 0 else digits + 1
    else 0
  | [] => 0

/-- A number whose first digit is `c`. -/
def number (c : Char) (cs : List Char) : Kind × Nat :=
  let hex := if c == '0' then hexadecimal cs else 0
  if hex != 0 then (.integer, hex)
  else
    let whole := run Char.isDigit cs
    match cs.drop whole with
    | '.' :: ds =>
      let part := run Char.isDigit ds
      (.float, whole + 1 + part + exponent (ds.drop part))
    | ds =>
      let exp := exponent ds
      if exp == 0 then (.integer, whole) else (.float, whole + exp)

/-- The length of a blob literal behind its letter, 0 if there is none. -/
def blob : List Char → Nat
  | '\'' :: cs =>
    let digits := run isHexDigit cs
    match cs.drop digits with
    | '\'' :: _ => digits + 2
    | _ => 0
  | _ => 0

/-- A blob literal or a bare word whose first character is `c`. -/
def word (c : Char) (cs : List Char) : Kind × Nat :=
  let bytes := if c == 'x' || c == 'X' then blob cs else 0
  if bytes != 0 then (.blob, bytes)
  else
    let more := run inWord cs
    match Keyword.ofWord? (String.ofList (c :: cs.take more)) with
    | some k => (.keyword k, more)
    | none => (.identifier, more)

/-- A quoted text of the given kind, or the rest of the text if it is not closed. -/
def closed (kind : Kind) (length : Option Nat) (cs : List Char) : Kind × Nat :=
  match length with
  | some n => (kind, n)
  | none => (.illegal, cs.length)

/-- A symbol of one character, or one of two characters if `next` completes it. -/
def symbol (one : Symbol) (pairs : List (Char × Symbol)) (cs : List Char) : Kind × Nat :=
  match cs.head?.bind fun c => pairs.lookup c with
  | some two => (.symbol two, 1)
  | none => (.symbol one, 0)

/-- The kind of the lexeme that starts with `c`, and how many of the characters
    behind it belong to it. It is the longest piece that some kind allows there, or
    an illegal piece: the rest of the text behind a quote that nothing closes, and a
    single character anywhere else. -/
def classify (c : Char) (cs : List Char) : Kind × Nat :=
  if isBlank c then (.whitespace, run isBlank cs)
  else if startsWord c then word c cs
  else if c.isDigit then number c cs
  else match c with
    | '(' => symbol .leftParen [] cs
    | ')' => symbol .rightParen [] cs
    | ',' => symbol .comma [] cs
    | ';' => symbol .semicolon [] cs
    | '+' => symbol .plus [] cs
    | '*' => symbol .star [] cs
    | '%' => symbol .percent [] cs
    | '&' => symbol .ampersand [] cs
    | '~' => symbol .tilde [] cs
    | '|' => symbol .bar [('|', .concat)] cs
    | '<' => symbol .less [('<', .shiftLeft), ('=', .lessEqual), ('>', .notEqual)] cs
    | '>' => symbol .greater [('>', .shiftRight), ('=', .greaterEqual)] cs
    | '=' => symbol .equal [('=', .equal)] cs
    | '!' =>
      match cs with
      | '=' :: _ => (.symbol .notEqual, 1)
      | _ => (.illegal, 0)
    | '.' =>
      let part := run Char.isDigit cs
      if part == 0 then (.symbol .dot, 0) else (.float, part + exponent (cs.drop part))
    | '-' =>
      match cs with
      | '-' :: ds => (.lineComment, 1 + run (· != '\n') ds)
      | _ => (.symbol .minus, 0)
    | '/' =>
      match cs with
      | '*' :: ds =>
        match comment ds with
        | some n => (.blockComment, 1 + n)
        | none => (.symbol .slash, 0)
      | _ => (.symbol .slash, 0)
    | '\'' => closed .string (quoted '\'' cs) cs
    | '"' => closed .identifier (quoted '"' cs) cs
    | '\x60' => closed .identifier (quoted '\x60' cs) cs
    | '[' => closed .identifier (bracketed cs) cs
    | '?' => (.bindVariable, run Char.isDigit cs)
    | _ =>
      if c == ':' || c == '@' || c == '$' then
        let more := run inName cs
        if more == 0 then (.illegal, 0) else (.bindVariable, more)
      else (.illegal, 0)

end SqlStatement.Lexeme

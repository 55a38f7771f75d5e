import Mathlib.Computability.Language
import SqlStatement.Lexer.Lexeme

namespace SqlStatement

open scoped Computability

open Lexeme (isBlank startsWord inName inWord isHexDigit)

/-- Every way to write a symbol. -/
def Symbol.spellings : Symbol → List String
  | .equal => ["=", "=="]
  | .notEqual => ["!=", "<>"]
  | s => [s.entry.2]

namespace Pattern

/-- The texts of one character that `p` allows. -/
def one (p : Char → Bool) : Language Char :=
  {w | ∃ c, p c = true ∧ w = [c]}

/-- A character that `p` allows, and characters that `q` allows behind it. -/
def head (p q : Char → Bool) : Language Char :=
  one p * (one q)∗

/-- At least one character, all of which `p` allows. -/
def several (p : Char → Bool) : Language Char :=
  head p p

/-- The bare words that read as `k`, or as no keyword. -/
def bareWord (k : Option Keyword) : Language Char :=
  {w | w ∈ head startsWord inWord ∧ Keyword.ofWord? (String.ofList w) = k}

/-- What follows the opening quote `q`: the quote inside is written twice. -/
def quotedTail (q : Char) : Language Char :=
  (one (· != q) + {[q, q]})∗ * {[q]}

def quoted (q : Char) : Language Char :=
  {[q]} * quotedTail q

def bracketed : Language Char :=
  {['[']} * ((one (· != ']'))∗ * {[']']})

def isExponentMark (c : Char) : Bool := c == 'e' || c == 'E'

def isHexMark (c : Char) : Bool := c == 'x' || c == 'X'

def isSign (c : Char) : Bool := c == '+' || c == '-'

def isSigil (c : Char) : Bool := c == ':' || c == '@' || c == '$'

def exponent : Language Char :=
  one isExponentMark * ((1 + one isSign) * several Char.isDigit)

def integer : Language Char :=
  several Char.isDigit + {['0']} * (one isHexMark * several isHexDigit)

def float : Language Char :=
  several Char.isDigit * ({['.']} * ((one Char.isDigit)∗ * (1 + exponent))) +
    {['.']} * (several Char.isDigit * (1 + exponent)) +
    several Char.isDigit * exponent

def blob : Language Char :=
  one isHexMark * ({['\'']} * ((one isHexDigit)∗ * {['\'']}))

def bindVariable : Language Char :=
  {['?']} * (one Char.isDigit)∗ + one isSigil * several inName

def lineComment : Language Char :=
  {['-', '-']} * (one (· != '\n'))∗

/-- What follows the opening mark of a block comment: a star takes the next
    character with it, unless that one is a slash, which closes the comment. -/
def commentTail : Language Char :=
  (one (· != '*') + {['*']} * one (· != '/'))∗ * {['*', '/']}

def blockComment : Language Char :=
  {['/', '*']} * commentTail

end Pattern

namespace Token.Kind

/-- The texts that a kind allows, as a regular language over characters. A bare word
    belongs to the keyword that it reads as, or to the names if it reads as none.
    What no pattern allows, and the end of the text, have the empty language. -/
def pattern : Token.Kind → Language Char
  | .symbol s => {w | w ∈ s.spellings.map String.toList}
  | .identifier =>
    Pattern.bareWord none + Pattern.quoted '"' + Pattern.quoted '\x60' + Pattern.bracketed
  | .string => Pattern.quoted '\''
  | .integer => Pattern.integer
  | .float => Pattern.float
  | .blob => Pattern.blob
  | .bindVariable => Pattern.bindVariable
  | .whitespace => Pattern.several isBlank
  | .lineComment => Pattern.lineComment
  | .blockComment => Pattern.blockComment
  | .keyword k => Pattern.bareWord (some k)
  | .illegal => 0
  | .endOfInput => 0

end Token.Kind

namespace Pattern

section Membership

variable {p q : Char → Bool} {l m : Language Char} {c d : Char} {w : List Char}

@[simp]
theorem nil_notMem_one_mul : [] ∉ one p * l := by
  rintro ⟨_, ⟨c, -, rfl⟩, _, -, hnil⟩
  cases hnil

/-- One character of a class, cut off a text. With this and the laws below,
    membership in a pattern is decided from left to right. -/
@[simp]
theorem cons_mem_one_mul : c :: w ∈ one p * l ↔ p c = true ∧ w ∈ l := by
  constructor
  · rintro ⟨_, ⟨d, hd, rfl⟩, rest, hrest, heq⟩
    cases heq
    exact ⟨hd, hrest⟩
  · rintro ⟨hc, hw⟩
    exact ⟨[c], ⟨c, hc, rfl⟩, w, hw, rfl⟩

@[simp]
theorem mem_singleton {v : List Char} : w ∈ ({v} : Language Char) ↔ w = v := Iff.rfl

/-- A text that is written out is cut off as a whole. -/
theorem mem_singleton_mul {v : List Char} :
    w ∈ ({v} : Language Char) * l ↔ ∃ rest ∈ l, v ++ rest = w := by
  simp [Language.mem_mul]

/-- One character of a text that is written out, cut off in the same way as one of a
    class. -/
@[simp]
theorem cons_mem_singleton_mul : c :: w ∈ ({[d]} : Language Char) * l ↔ c = d ∧ w ∈ l := by
  rw [mem_singleton_mul]
  constructor
  · rintro ⟨rest, hrest, heq⟩
    cases heq
    exact ⟨rfl, hrest⟩
  · rintro ⟨rfl, hw⟩
    exact ⟨w, hw, rfl⟩

@[simp]
theorem nil_notMem_singleton_mul : [] ∉ ({[d]} : Language Char) * l := by
  rw [mem_singleton_mul]
  rintro ⟨rest, -, heq⟩
  cases heq

@[simp]
theorem cons_cons_mem_singleton_mul {a b : Char} :
    c :: d :: w ∈ ({[a, b]} : Language Char) * l ↔ c = a ∧ d = b ∧ w ∈ l := by
  rw [mem_singleton_mul]
  constructor
  · rintro ⟨rest, hrest, heq⟩
    cases heq
    exact ⟨rfl, rfl, hrest⟩
  · rintro ⟨rfl, rfl, hw⟩
    exact ⟨w, hw, rfl⟩

/-- A repetition in front of `m` is `m` itself or one item more. The patterns of
    quoted texts and comments are unfolded by this. -/
theorem kstar_mul (l m : Language Char) : l∗ * m = m + l * (l∗ * m) := by
  conv_lhs => rw [← Language.one_add_self_mul_kstar_eq_kstar, add_mul, one_mul, mul_assoc]

theorem kstar_eq (l : Language Char) : l∗ = 1 + l * l∗ :=
  (Language.one_add_self_mul_kstar_eq_kstar l).symm

/-- The repetitions of a class of characters are the texts with no other character
    in them. -/
@[simp]
theorem mem_kstar_one : w ∈ (one p)∗ ↔ ∀ c ∈ w, p c = true := by
  induction w with
  | nil => simp [Language.nil_mem_kstar]
  | cons c w ih =>
    rw [kstar_eq, Language.mem_add, cons_mem_one_mul, ih]
    simp

/-- A first character of one class and any number of another one, read off the
    text. -/
@[simp]
theorem cons_mem_head : c :: w ∈ head p q ↔ p c = true ∧ ∀ d ∈ w, q d = true := by
  simp [head]

@[simp]
theorem nil_notMem_head : [] ∉ head p q :=
  nil_notMem_one_mul

/-- At least one character of a class, read off the text. -/
@[simp]
theorem cons_mem_several : c :: w ∈ several p ↔ p c = true ∧ ∀ d ∈ w, p d = true :=
  cons_mem_head

@[simp]
theorem nil_notMem_several : [] ∉ several p :=
  nil_notMem_one_mul

/-- The same without a first character: a text of the class that is not empty. -/
theorem mem_several : w ∈ several p ↔ w ≠ [] ∧ ∀ c ∈ w, p c = true := by
  cases w <;> simp

/-- A text that starts with several characters of one class is cut behind them.
    Where exactly is not determined, since what follows may start with the same
    class. -/
theorem exists_of_cons_mem_several_mul {p : Char → Bool} {l : Language Char}
    (hw : c :: w ∈ several p * l) :
    p c = true ∧ ∃ a b, (∀ d ∈ a, p d = true) ∧ b ∈ l ∧ a ++ b = w := by
  obtain ⟨digits, hdigits, b, hb, heq⟩ := hw
  cases digits with
  | nil => exact absurd hdigits nil_notMem_several
  | cons d a =>
    cases heq
    obtain ⟨hc, ha⟩ := cons_mem_several.mp hdigits
    exact ⟨hc, a, b, ha, hb, rfl⟩

end Membership

section Derivatives

variable {q c : Char} {w : List Char}

/-- A quoted text is closed at once, or goes on with another character or with a
    doubled quote. -/
theorem mem_quotedTail : w ∈ quotedTail q ↔
    w = [q] ∨ w ∈ one (· != q) * quotedTail q ∨ w ∈ {[q, q]} * quotedTail q := by
  conv_lhs => rw [quotedTail, kstar_mul, ← quotedTail, add_mul]
  rfl

theorem nil_notMem_quotedTail : [] ∉ quotedTail q := by
  rw [mem_quotedTail]
  rintro (heq | hone | ⟨_, rfl, v, -, heq⟩)
  · cases heq
  · exact nil_notMem_one_mul hone
  · cases heq

/-- Read off character by character, a quoted text stops at the first quote that no
    other one follows. -/
theorem cons_mem_quotedTail : c :: w ∈ quotedTail q ↔
    c ≠ q ∧ w ∈ quotedTail q ∨ c = q ∧ (w = [] ∨ ∃ v ∈ quotedTail q, w = q :: v) := by
  simp only [mem_quotedTail (w := c :: w), List.cons.injEq, cons_mem_one_mul, bne_iff_ne,
    mem_singleton_mul, List.cons_append, List.nil_append]
  constructor
  · rintro (⟨rfl, rfl⟩ | ⟨hc, hw⟩ | ⟨v, hv, rfl, rfl⟩)
    · exact .inr ⟨rfl, .inl rfl⟩
    · exact .inl ⟨hc, hw⟩
    · exact .inr ⟨rfl, .inr ⟨v, hv, rfl⟩⟩
  · rintro (⟨hc, hw⟩ | ⟨rfl, rfl | ⟨v, hv, rfl⟩⟩)
    · exact .inr (.inl ⟨hc, hw⟩)
    · exact .inl ⟨rfl, rfl⟩
    · exact .inr (.inr ⟨v, hv, rfl, rfl⟩)

/-- A comment is closed at once, or goes on with a character that is no star, or
    with a star and the character that it takes. -/
theorem mem_commentTail : w ∈ commentTail ↔
    w = ['*', '/'] ∨ w ∈ one (· != '*') * commentTail ∨
      w ∈ {['*']} * (one (· != '/') * commentTail) := by
  conv_lhs => rw [commentTail, kstar_mul, ← commentTail, add_mul, mul_assoc]
  rfl

theorem nil_notMem_commentTail : [] ∉ commentTail := by
  rw [mem_commentTail]
  rintro (heq | hone | hstar)
  · cases heq
  · exact nil_notMem_one_mul hone
  · exact nil_notMem_singleton_mul hstar

/-- Read off character by character, a star is followed by the closing slash or by
    the character that it takes with it, whatever that is. -/
theorem cons_mem_commentTail : c :: w ∈ commentTail ↔
    c ≠ '*' ∧ w ∈ commentTail ∨
      c = '*' ∧ (w = ['/'] ∨ ∃ d v, d ≠ '/' ∧ v ∈ commentTail ∧ w = d :: v) := by
  simp only [mem_commentTail (w := c :: w), List.cons.injEq, cons_mem_one_mul, bne_iff_ne,
    cons_mem_singleton_mul]
  constructor
  · rintro (⟨rfl, rfl⟩ | ⟨hc, hw⟩ | ⟨rfl, hw⟩)
    · exact .inr ⟨rfl, .inl rfl⟩
    · exact .inl ⟨hc, hw⟩
    · cases w with
      | nil => exact absurd hw nil_notMem_one_mul
      | cons d v =>
        simp only [cons_mem_one_mul, bne_iff_ne] at hw
        exact .inr ⟨rfl, .inr ⟨d, v, hw.1, hw.2, rfl⟩⟩
  · rintro (⟨hc, hw⟩ | ⟨rfl, rfl | ⟨d, v, hd, hv, rfl⟩⟩)
    · exact .inr (.inl ⟨hc, hw⟩)
    · exact .inl ⟨rfl, rfl⟩
    · simp [hd, hv]

theorem cons_mem_exponent : c :: w ∈ Pattern.exponent ↔
    isExponentMark c = true ∧
      (w ∈ several Char.isDigit ∨ w ∈ one isSign * several Char.isDigit) := by
  rw [Pattern.exponent, cons_mem_one_mul, add_mul, one_mul, Language.mem_add]

end Derivatives

end Pattern

end SqlStatement

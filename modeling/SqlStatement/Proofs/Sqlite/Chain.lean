import SqlStatement.Proofs.Grammar.Leaves
import SqlStatement.Proofs.Lexer.Spelling

namespace SqlStatement.Sqlite

/-- The kinds of the tokens between integers in a chain: symbols, and the two
    operators that are words. -/
def isMark : Token.Kind → Bool
  | .symbol _ => true
  | .keyword k => k == .OR || k == .AND
  | _ => false

/-- The tiers of binary operators, from loose to tight. -/
inductive Tier where
  | disjunction
  | conjunction
  | equality
  | order
  | bits
  | sums
  | products
  | concatenation
  deriving DecidableEq, Repr

namespace Tier

def all : List Tier :=
  [disjunction, conjunction, equality, order, bits, sums, products, concatenation]

theorem mem_all (t : Tier) : t ∈ all := by
  cases t <;> decide

/-- The kinds of the operators of a tier. -/
def operators : Tier → List Token.Kind
  | disjunction => [.keyword .OR]
  | conjunction => [.keyword .AND]
  | equality => [.symbol .equal, .symbol .notEqual]
  | order => [.symbol .less, .symbol .lessEqual, .symbol .greater, .symbol .greaterEqual]
  | bits => [.symbol .shiftLeft, .symbol .shiftRight, .symbol .ampersand, .symbol .bar]
  | sums => [.symbol .plus, .symbol .minus]
  | products => [.symbol .star, .symbol .slash, .symbol .percent]
  | concatenation => [.symbol .concat]

/-- The operators of the tiers are marks. -/
theorem isMark_of_mem_operators {t : Tier} {k : Token.Kind} (hk : k ∈ t.operators) :
    isMark k = true := by
  have hall : ∀ t ∈ all, ∀ k ∈ t.operators, isMark k = true := by decide
  exact hall t (mem_all t) k hk

/-- The production that reads a tier. -/
def name : Tier → String
  | disjunction => "or-expr"
  | conjunction => "and-expr"
  | equality => "eq-expr"
  | order => "ineq-expr"
  | bits => "bitwise-expr"
  | sums => "add-expr"
  | products => "mult-expr"
  | concatenation => "concat-expr"

end Tier

/-- The words that an expression knows by their text, whatever kind of token they
    are. -/
def textWords : List String :=
  ["LIKE", "GLOB", "REGEXP", "MATCH", "CURRENT_TIME", "CURRENT_DATE", "CURRENT_TIMESTAMP"]

/-- A mark that was read from a text is not one of these words: a symbol does not
    start like a word, and a keyword has only its own spellings. -/
theorem unlike_of_mem_lex {source : String} {t : Token} (ht : t ∈ Lexer.lex source)
    (hmark : isMark t.kind = true) : t.Unlike textWords := by
  intro word hword
  cases hkind : t.kind with
  | symbol s =>
    have halpha : ∀ word ∈ textWords, word.toList.head?.any (·.toUpper.isAlpha) = true := by
      decide +kernel
    exact Lexer.sameWord_of_mem_lex ht hkind (halpha word hword)
  | keyword k =>
    have hother : ∀ k ∈ [Keyword.OR, Keyword.AND], ∀ word ∈ textWords,
        Keyword.ofWord? word ≠ some k := by decide +kernel
    rw [hkind] at hmark
    have hread := Lexer.ofWord?_of_mem_lex ht hkind
    apply Bool.eq_false_iff.mpr
    intro hsame
    rw [Keyword.ofWord?_congr (by simpa [Text.sameWord] using hsame)] at hread
    exact hother k (by simpa [isMark] using hmark) word hword hread
  | _ =>
    rw [hkind] at hmark
    cases hmark

/-- A token of one of some kinds, with a text that does not make it another word. -/
structure Mark (kinds : List Token.Kind) where
  token : Token
  kind_mem : token.kind ∈ kinds
  unlike : token.Unlike textWords

/-- The operators and parentheses of a text are marks as they stand there. -/
def Mark.ofLexed {source : String} {kinds : List Token.Kind} (t : Token)
    (ht : t ∈ Lexer.lex source) (hkind : t.kind ∈ kinds) (hmark : isMark t.kind = true) :
    Mark kinds :=
  ⟨t, hkind, unlike_of_mem_lex ht hmark⟩

/-- An operator of one of the tiers. -/
structure Operator where
  tier : Tier
  mark : Mark tier.operators

namespace Operator

def token (op : Operator) : Token := op.mark.token

def text (op : Operator) : String := op.token.text

end Operator

/-- Operands with operators between them. -/
inductive Chain (α : Type) where
  | single (o : α)
  | link (o : α) (op : Operator) (rest : Chain α)

namespace Chain

variable {α β : Type}

/-- The same chain with other operands. -/
def map (f : α → β) : Chain α → Chain β
  | single o => single (f o)
  | link o op c => link (f o) op (c.map f)

/-- The operand that a chain starts with. -/
def first : Chain α → α
  | single o => o
  | link o _ _ => o

/-- The operators, each with the operand behind it. -/
def links : Chain α → List (Operator × α)
  | single _ => []
  | link _ op c => (op, c.first) :: c.links

/-- Puts an operand and an operator in front of the first of several pieces. -/
def prepend (o : α) (op : Operator) : Chain (Chain α) → Chain (Chain α)
  | single piece => single (link o op piece)
  | link piece op' rest => link (link o op piece) op' rest

/-- The pieces between the operators of a tier. -/
def cut (t : Tier) : Chain α → Chain (Chain α)
  | single o => single (single o)
  | link o op c => if op.tier = t then link (single o) op (c.cut t) else (c.cut t).prepend o op

/-- Every operator is of one of some tiers. -/
def Within (ts : List Tier) : Chain α → Prop
  | single _ => True
  | link _ op c => op.tier ∈ ts ∧ c.Within ts

end Chain

/-- A named list of parts in parentheses. -/
def enclosed (name : String) (parts : List String) : String :=
  "(" ++ name ++ " " ++ " ".intercalate parts ++ ")"

namespace Tier

/-- What an operator and the operand behind it add to a rendering. A test for
    equality is a part of its own. -/
def parts : Tier → Operator × String → List String
  | equality, (op, operand) => [enclosed "eq-expr-op" [op.text, operand]]
  | _, (op, operand) => [op.text, operand]

/-- The rendering of rendered operands with operators of one tier between them. -/
def write (t : Tier) (c : Chain String) : String :=
  match c.links with
  | [] => c.first
  | links => enclosed t.name (c.first :: links.flatMap t.parts)

end Tier

/-- The rendering of rendered operands with operators of some tiers between them. A
    tier without operators in the chain leaves it in one piece, so the loosest tier
    with one counts. -/
def Chain.write : List Tier → Chain String → String
  | [], c => c.first
  | t :: ts, c => t.write ((c.cut t).map (Chain.write ts))

/-- An integer, or a chain in parentheses. -/
inductive Operand where
  | integer (t : Token) (hkind : t.kind = .integer)
  | group (left : Mark [.symbol .leftParen]) (inner : Chain Operand)
      (right : Mark [.symbol .rightParen])

mutual

def Operand.tokens : Operand → List Token
  | .integer t _ => [t]
  | .group left inner right => left.token :: (inner.tokens ++ [right.token])
  termination_by structural o => o

/-- The tokens of a chain in the order in which it is written. -/
def Chain.tokens : Chain Operand → List Token
  | .single o => o.tokens
  | .link o op c => o.tokens ++ op.token :: Chain.tokens c
  termination_by structural c => c

end

section Kinds

mutual

/-- The kinds of the tokens of an operand. -/
inductive OperandKinds : List Token.Kind → Prop
  | integer : OperandKinds [.integer]
  | group {ks : List Token.Kind} (hinner : ChainKinds ks) :
      OperandKinds (.symbol .leftParen :: (ks ++ [.symbol .rightParen]))

/-- The kinds of the tokens of a chain. -/
inductive ChainKinds : List Token.Kind → Prop
  | single {ks : List Token.Kind} (ho : OperandKinds ks) : ChainKinds ks
  | link {ks ls : List Token.Kind} {t : Tier} {k : Token.Kind} (ho : OperandKinds ks)
      (hk : k ∈ t.operators) (hc : ChainKinds ls) : ChainKinds (ks ++ k :: ls)

end

variable {source : String}

mutual

/-- Tokens of a text with the kinds of an operand are one, because their texts do
    not make them other words. -/
theorem OperandKinds.exists_operand :
    ∀ {ks : List Token.Kind} {ts : List Token}, OperandKinds ks →
      (∀ t ∈ ts, t ∈ Lexer.lex source) → ts.map (·.kind) = ks → ∃ o : Operand, o.tokens = ts
  | _, ts, .integer, hlex, hkinds => by
    obtain ⟨t, rfl, hkind⟩ := List.map_eq_singleton_iff.mp hkinds
    exact ⟨.integer t hkind, rfl⟩
  | _, ts, .group hinner, hlex, hkinds => by
    obtain ⟨left, rest, rfl, hleft, hrest⟩ := List.map_eq_cons_iff.mp hkinds
    obtain ⟨inside, last, rfl, hinside, hlast⟩ := List.map_eq_append_iff.mp hrest
    obtain ⟨right, rfl, hright⟩ := List.map_eq_singleton_iff.mp hlast
    obtain ⟨c, rfl⟩ := hinner.exists_chain (fun t ht => hlex t (by simp [ht])) hinside
    let opening : Mark [.symbol .leftParen] :=
      .ofLexed left (hlex left (by simp)) (by simp [hleft]) (by rw [hleft]; rfl)
    let closing : Mark [.symbol .rightParen] :=
      .ofLexed right (hlex right (by simp)) (by simp [hright]) (by rw [hright]; rfl)
    exact ⟨.group opening c closing, rfl⟩

/-- Tokens of a text with the kinds of a chain are one. The two statements follow
    the recursion of the kinds. -/
theorem ChainKinds.exists_chain :
    ∀ {ks : List Token.Kind} {ts : List Token}, ChainKinds ks →
      (∀ t ∈ ts, t ∈ Lexer.lex source) → ts.map (·.kind) = ks → ∃ c : Chain Operand, c.tokens = ts
  | _, ts, .single ho, hlex, hkinds => by
    obtain ⟨o, rfl⟩ := ho.exists_operand hlex hkinds
    exact ⟨.single o, rfl⟩
  | _, ts, .link ho hk hc, hlex, hkinds => by
    obtain ⟨front, rest, rfl, hfront, hrest⟩ := List.map_eq_append_iff.mp hkinds
    obtain ⟨t, behind, rfl, ht, hbehind⟩ := List.map_eq_cons_iff.mp hrest
    obtain ⟨o, rfl⟩ := ho.exists_operand (fun u hu => hlex u (by simp [hu])) hfront
    obtain ⟨c, rfl⟩ := hc.exists_chain (fun u hu => hlex u (by simp [hu])) hbehind
    have hmark := Tier.isMark_of_mem_operators hk
    exact ⟨.link o ⟨_, .ofLexed t (hlex t (by simp)) (ht ▸ hk) (ht ▸ hmark)⟩ c, rfl⟩

end

end Kinds

mutual

def Operand.render : Operand → String
  | .integer t _ => t.text
  | .group left inner right =>
    enclosed "expr-term" [left.token.text, inner.rendered.write Tier.all, right.token.text]
  termination_by structural o => o

/-- The chain with its operands rendered. -/
def Chain.rendered : Chain Operand → Chain String
  | .single o => .single o.render
  | .link o op c => .link o.render op (Chain.rendered c)
  termination_by structural c => c

end

/-- How a chain is read. -/
def Chain.render (c : Chain Operand) : String := c.rendered.write Tier.all

end SqlStatement.Sqlite

import SqlStatement.Proofs.Lexer.Relex
import SqlStatement.Proofs.Match.Scene
import SqlStatement.Proofs.Sqlite.Legal
import SqlStatement.Proofs.Sqlite.Placed
import SqlStatement.Proofs.Tree.Tiling

namespace SqlStatement.Sqlite

open Grammar Grammar.Vocabulary
open SqlStatement.Tree (Key)

/-- The words that a token is not read as: a symbol is never the same as a word. -/
def otherWords : Token.Kind → List String
  | .symbol _ => literals
  | _ => []

/-- A token of a text is seen to be of its kind and to be none of the words. Its
    text is none of theirs, since the lexer takes a word for a keyword or an
    identifier by its spelling. -/
theorem seen_of_mem_lex {source : String} {tokens : Array Token} {i : Nat} {t : Token}
    (ht : tokens[i]? = some t) (hlex : t ∈ Lexer.lex source) :
    Seen otherWords tokens i (some t.kind) where
  kind := by
    rw [ht]
    rfl
  unlike u hu := by
    cases ht.symm.trans hu
    intro word hword
    cases hkind : t.kind with
    | symbol s =>
      rw [hkind] at hword
      exact Lexer.sameWord_of_mem_lex hlex hkind (literals_alpha word hword)
    | _ =>
      rw [hkind] at hword
      cases hword

theorem seen_end (tokens : Array Token) : Seen otherWords tokens tokens.size none where
  kind := by simp
  unlike t ht := by simp at ht

def left : Token.Kind := .symbol .leftParen

def right : Token.Kind := .symbol .rightParen

/-- A token of some kind in pairs of parentheses. -/
inductive Nested (tokens : Array Token) (atom : Token.Kind) : Nat → Nat → Nat → Prop
  | atom {i : Nat} (h : Seen otherWords tokens i (some atom)) : Nested tokens atom 0 i (i + 1)
  | layer {n i j : Nat} (hopen : Seen otherWords tokens i (some left))
      (hinner : Nested tokens atom n (i + 1) j) (hclose : Seen otherWords tokens j (some right)) :
      Nested tokens atom (n + 1) i (j + 1)

/-- The kinds of such tokens. -/
def nestedKinds (atom : Token.Kind) (n : Nat) : List Token.Kind :=
  List.replicate n left ++ atom :: List.replicate n right

/-- One more pair of parentheses is around all others. -/
theorem nestedKinds_succ (atom : Token.Kind) (n : Nat) :
    nestedKinds atom (n + 1) = left :: (nestedKinds atom n ++ [right]) := by
  simp [nestedKinds, List.replicate_succ, ← List.replicate_succ']

section Text

open Lexer

/-- A text in pairs of parentheses, behind some words with a blank behind each of
    them. -/
def nestedText (words : List String) (text : String) (n : Nat) : String :=
  String.join (words.map (· ++ " ")) ++ String.ofList (List.replicate n '(') ++ text ++
    String.ofList (List.replicate n ')')

/-- Parentheses are lexemes of their own, however many of them follow one another.
    The longest token that starts with one is the parenthesis itself. -/
theorem scans_closings (n : Nat) :
    Scans (List.replicate n ')') (List.replicate n ⟨right, [')']⟩) := by
  have hfound (cs : List Char) : Lexeme.classify ')' cs = (right, 0) := by cases cs <;> rfl
  induction n with
  | zero => exact .nil
  | succ n ih =>
    rw [List.replicate_succ, List.replicate_succ]
    exact ih.symbol (hfound _)

/-- So are opening ones, whatever they stand in front of. The scan of what they
    stand in front of does not change. -/
theorem scans_openings {cs : List Char} {ps : List Lexer.Piece}
    (h : Scans cs ps) (n : Nat) :
    Scans (List.replicate n '(' ++ cs) (List.replicate n ⟨left, ['(']⟩ ++ ps) := by
  have hfound (cs : List Char) : Lexeme.classify '(' cs = (left, 0) := by cases cs <;> rfl
  induction n with
  | zero => exact h
  | succ n ih =>
    rw [List.replicate_succ, List.replicate_succ]
    exact ih.symbol (hfound _)

/-- Words that end with a blank do not change how the text behind them is read. The
    blank ends the word in front of it, and what follows does not start with a
    blank. -/
theorem scans_words {words : List Token} (hwords : ∀ u ∈ words, u.Legal) {cs : List Char}
    {ps : List Lexer.Piece} (h : Scans cs ps) (hcs : ∀ d ∈ cs.head?, Lexeme.isBlank d = false) :
    Scans (words.flatMap (fun u => u.text.toList ++ [' ']) ++ cs)
      (words.flatMap (fun u => [u.piece, ⟨.whitespace, [' ']⟩]) ++ ps) := by
  induction words with
  | nil => exact h
  | cons u words ih =>
    obtain ⟨hu, hrest⟩ := List.forall_mem_cons.mp hwords
    have hblank : ∀ d ∈ (words.flatMap (fun u => u.text.toList ++ [' ']) ++ cs).head?,
        Lexeme.isBlank d = false := by
      cases words with
      | nil => exact hcs
      | cons v words =>
        rw [List.flatMap_cons, List.append_assoc, List.append_assoc]
        exact (List.forall_mem_cons.mp hrest).1.not_isBlank_head? _
    have hscan := ((ih hrest).blank hblank).token hu (by simp [Pattern.stops])
    rw [List.flatMap_cons, List.flatMap_cons, List.append_assoc, List.append_assoc]
    exact hscan

/-- What is left of the pieces of such words without the blanks are the words. A
    legal token is none of the trivia. -/
theorem filter_words {words : List Token} (hwords : ∀ u ∈ words, u.Legal) :
    (words.flatMap (fun u => [u.piece, ⟨.whitespace, [' ']⟩])).filter (!·.kind.isTrivia) =
      words.map Token.piece := by
  induction words with
  | nil => rfl
  | cons u words ih =>
    obtain ⟨hu, hrest⟩ := List.forall_mem_cons.mp hwords
    have hblank : Token.Kind.whitespace.isTrivia = true := rfl
    simp [hu.1, hblank, ← ih hrest]

/-- However deep a token is nested, the tokens of the text are the words, the
    parentheses and the token. Nothing of it is read in another way because of what
    stands next to it. -/
theorem map_kind_lex_nestedText {words : List Token} (hwords : ∀ u ∈ words, u.Legal) {t : Token}
    (ht : t.Legal) (n : Nat) :
    (lex (nestedText (words.map (·.text)) t.text n)).map (·.kind) =
      words.map (·.kind) ++ nestedKinds t.kind n := by
  have hstop : ∀ d ∈ (List.replicate n ')').head?, d ∈ Pattern.stops := by
    cases n <;> simp [List.replicate_succ, Pattern.stops]
  have hstart : ∀ d ∈ (List.replicate n '(' ++ (t.text.toList ++ List.replicate n ')')).head?,
      Lexeme.isBlank d = false := by
    cases n with
    | zero => exact ht.not_isBlank_head? _
    | succ n => rintro d ⟨⟩; rfl
  have hscan := scans_words hwords (scans_openings ((scans_closings n).token ht hstop) n) hstart
  have htext : (nestedText (words.map (·.text)) t.text n).toList =
      words.flatMap (fun u => u.text.toList ++ [' ']) ++
        (List.replicate n '(' ++ (t.text.toList ++ List.replicate n ')')) := by
    simp [nestedText, String.toList_join, List.flatMap_map]
  rw [← htext] at hscan
  have hlegal : ∀ p ∈ words.flatMap (fun u => [u.piece, ⟨.whitespace, [' ']⟩]) ++
      (List.replicate n ⟨left, ['(']⟩ ++ t.piece :: List.replicate n ⟨right, [')']⟩),
      p.kind ≠ .illegal := by
    intro p hp
    simp only [List.mem_append, List.mem_flatMap, List.mem_cons, List.mem_replicate,
      List.not_mem_nil, or_false] at hp
    rcases hp with ⟨u, hu, rfl | rfl⟩ | ⟨-, rfl⟩ | rfl | ⟨-, rfl⟩
    · exact (hwords u hu).kind_ne_illegal
    · nofun
    · nofun
    · exact ht.kind_ne_illegal
    · nofun
  have hleft : left.isTrivia = false := rfl
  have hright : right.isTrivia = false := rfl
  rw [hscan.map_kind_lex hlegal, List.filter_append, filter_words hwords]
  simp [nestedKinds, ht.1, hleft, hright]

end Text

namespace Nested

variable {source : String} {tokens : Array Token} {atom : Token.Kind} {n i j : Nat}

/-- Tokens of a text with the kinds of a nested token are one, by induction on the
    pairs. -/
theorem of_kinds {ts : List Token} (hlex : ∀ t ∈ ts, t ∈ Lexer.lex source)
    (hspelled : Spelled tokens ts i j) (hkinds : ts.map (·.kind) = nestedKinds atom n) :
    Nested tokens atom n i j := by
  induction n generalizing ts i j with
  | zero =>
    obtain ⟨t, rfl, hkind⟩ := List.map_eq_singleton_iff.mp hkinds
    obtain ⟨ht, rfl⟩ := hspelled.one
    have hseen := seen_of_mem_lex ht (hlex t List.mem_cons_self)
    rw [hkind] at hseen
    exact .atom hseen
  | succ n ih =>
    rw [nestedKinds_succ] at hkinds
    obtain ⟨t, rest, rfl, ht, hrest⟩ := List.map_eq_cons_iff.mp hkinds
    obtain ⟨inner, last, rfl, hinner, hlast⟩ := List.map_eq_append_iff.mp hrest
    obtain ⟨u, rfl, hu⟩ := List.map_eq_singleton_iff.mp hlast
    obtain ⟨m, hinside, hend⟩ := hspelled.tail.split
    obtain ⟨hclose, rfl⟩ := hend.one
    have hleft := seen_of_mem_lex hspelled.head (hlex t (by simp))
    have hright := seen_of_mem_lex hclose (hlex u (by simp))
    rw [ht] at hleft
    rw [hu] at hright
    refine .layer hleft (ih (fun v hv => hlex v ?_) hinside hinner) hright
    exact List.mem_cons_of_mem _ (List.mem_append_left _ hv)

/-- A nested token covers some tokens. -/
theorem start_lt_stop (h : Nested tokens atom n i j) : i < j := by
  induction h with
  | atom => exact Nat.lt_succ_self _
  | layer _ _ _ ih => omega

/-- A token in parentheses starts with itself or with a parenthesis. Which of them
    it is depends on the number of parentheses. -/
theorem starts (h : Nested tokens atom n i j) :
    ∃ first ∈ [atom, left], Seen otherWords tokens i (some first) := by
  cases h with
  | atom h => exact ⟨atom, by simp, h⟩
  | layer hopen => exact ⟨left, by simp, hopen⟩

end Nested

/-- What may stand behind a closing parenthesis here. -/
def ends : List (Option Token.Kind) := [none, some right]

/-- How the body of a production goes over some pieces. -/
def foretold (p : Production) (next : Option Token.Kind) (pieces : List Piece) :
    Option (Forecast (Bool × List Sign)) :=
  let s := scene otherWords next pieces
  p.body.forecast s (grammar.reference s 19) 0

/-- The productions around what a statement selects. -/
def statementRules : List String := ["select-stmt", "result-column"]

/-- A production that reads a token, and itself in parentheses. -/
structure Nest where
  name : String
  rule : Production
  find : grammar.find? name = some rule
  atom : Token.Kind
  /-- The role of the token, if it is an identifier. -/
  role : Option String
  /-- The productions around the token. -/
  core : List String
  /-- The productions around the parentheses. -/
  shell : List String
  /-- What starts a statement in front of the production. -/
  front : List Token.Kind
  /-- How that is written. -/
  words : List String
  /-- What the token costs. -/
  base : Nat
  /-- What the parentheses cost. -/
  layer : Nat
  /-- What the rest of the statement costs. -/
  frame : Nat
  lexed_words : let tokens := Lexer.lex (" ".intercalate words)
    tokens.map (·.kind) = front ∧ tokens.map (·.text) = words ∧ ∀ t ∈ tokens, t.kind ≠ .illegal
  foretold_core : ∀ next ∈ ends, foretold rule next [.token atom] =
    some ⟨some ((true, core.map .production ++ role.toList.map (.identifier · 0)), 1), ⟨base, 0⟩⟩
  foretold_shell : ∀ first ∈ [atom, left], ∀ next ∈ ends,
    foretold rule next [.token left, .production name first, .token right] =
      some ⟨some ((true, shell.map .production ++ [.known]), 3), ⟨layer, 1⟩⟩
  foretold_statement : ∀ first ∈ [atom, left],
    foretold sqlStmt none (front.map .token ++ [.production name first]) =
      some ⟨some ((false, statementRules.map .production ++ [.known]), front.length + 1),
        ⟨frame, 1⟩⟩

/-- Signs of productions stand for the productions. -/
theorem meaning_productions {g : Grammar} {s : Sight} {tokens : Array Token}
    (st : Stage g s tokens) (names : List String) :
    (names.map Sign.production).flatMap st.meaning = names.map Key.production := by
  induction names with
  | nil => rfl
  | cons name names ih =>
    rw [List.map_cons, List.flatMap_cons, ih]
    rfl

/-- What goes once into what is known costs that much more. -/
theorem fuel_known (charges cost : Nat) : (⟨charges, 1⟩ : Price).fuel cost = charges + cost := by
  simp [Price.fuel]

/-- Behind them stands what the known production is asked for. -/
theorem meaning_known {g : Grammar} {s : Sight} {tokens : Array Token} (st : Stage g s tokens)
    (names : List String) : (names.map Sign.production ++ [Sign.known]).flatMap st.meaning =
      names.map Key.production ++ st.inner := by
  rw [List.flatMap_append, meaning_productions]
  exact congrArg _ (List.append_nil st.inner)

/-- Tokens in front of what is known can be seen as well, one after the other. The
    scene gets the kinds of these tokens in front, and the places behind them are
    those from before. -/
theorem exists_front {source : String} {tokens : Array Token} {next : Option Token.Kind}
    {pieces : List Piece} (st : Stage grammar (scene otherWords next pieces) tokens)
    {ts : List Token} {i : Nat} (hlex : ∀ t ∈ ts, t ∈ Lexer.lex source)
    (hspelled : Spelled tokens ts i (st.position 0)) :
    ∃ st' : Stage grammar
        (scene otherWords next ((ts.map (·.kind)).map .token ++ pieces)) tokens,
      st'.position 0 = i ∧ (∀ p, st'.position (ts.length + p) = st.position p) ∧
        st'.inner = st.inner ∧ st'.cost = st.cost ∧ st'.levels = st.levels := by
  induction ts generalizing i with
  | nil => exact ⟨st, hspelled.1, fun p => by rw [List.length_nil, Nat.zero_add], rfl, rfl, rfl⟩
  | cons t ts ih =>
    obtain ⟨hhead, htail⟩ := List.forall_mem_cons.mp hlex
    obtain ⟨st', hzero, hplaces, hkeys, hcost, hlevels⟩ := ih htail hspelled.tail
    have hseen := seen_of_mem_lex hspelled.head hhead
    refine ⟨st'.token hseen hzero, rfl, fun p => ?_, hkeys, hcost, hlevels⟩
    rw [List.length_cons, Nat.succ_add]
    exact hplaces p

namespace Nest

variable (nest : Nest)

/-- The text of a statement with a token in parentheses. -/
def text (atom : String) (n : Nat) : String := nestedText nest.words atom n

/-- The text of such a statement has the kinds that the statement is read by. So the
    assumption on kinds is met by a text for every number of pairs. -/
theorem map_kind_lex_text {t : Token} (ht : t.Legal) (hkind : t.kind = nest.atom) (n : Nat) :
    (Lexer.lex (nest.text t.text n)).map (·.kind) = nest.front ++ nestedKinds nest.atom n := by
  obtain ⟨hkinds, htexts, hlegal⟩ := nest.lexed_words
  have hwords : ∀ u ∈ Lexer.lex (" ".intercalate nest.words), u.Legal :=
    fun u hu => Lexer.legal_of_mem_lex hu (hlegal u hu)
  have hlex := map_kind_lex_nestedText hwords ht n
  rwa [htexts, hkinds, hkind] at hlex

/-- What the tree of a token in parentheses is asked for, the token being at an
    index. -/
def keys (index : Nat) : Nat → List Key
  | 0 => .production nest.name ::
      (nest.core.map .production ++ nest.role.toList.map (.identifier · index))
  | n + 1 => .production nest.name :: (nest.shell.map .production ++ keys index n)

def cost (n : Nat) : Nat := nest.base + nest.layer * n

/-- What the tree of a statement is asked for. -/
def statementKeys (n : Nat) : List Key :=
  .production "sql-stmt" ::
    (statementRules.map .production ++ nest.keys (nest.front.length + n) n)

variable {tokens : Array Token} {n i j : Nat} {next : Option Token.Kind}

/-- Without parentheses the production reads the token, at the cost that the
    forecast gives for it. -/
theorem runs_core (hatom : Seen otherWords tokens i (some nest.atom))
    (hnext : Seen otherWords tokens (i + 1) next) (hend : next ∈ ends) :
    grammar.Runs tokens nest.name (nest.keys i 0) 20 (nest.cost 0) i (i + 1) := by
  let st : Stage grammar (scene otherWords next [.token nest.atom]) tokens :=
    (Stage.finish [] 0 0 hnext).token hatom rfl
  have hruns := runs_of_forecast st nest.find (Nat.zero_le _) (nest.foretold_core next hend)
  have hkeys : (nest.core.map Sign.production ++ nest.role.toList.map (Sign.identifier · 0)).flatMap
      st.meaning = nest.core.map .production ++ nest.role.toList.map (.identifier · i) := by
    rw [List.flatMap_append, meaning_productions]
    cases nest.role <;> rfl
  rw [hkeys] at hruns
  exact hruns

/-- A pair of parentheses costs the same, whatever is inside. The forecast takes
    what is inside as known, so one computation holds for every depth. -/
theorem runs_shell {first : Token.Kind} {keys : List Key} {levels cost : Nat}
    (hopen : Seen otherWords tokens i (some left))
    (hstart : Seen otherWords tokens (i + 1) (some first)) (hfirst : first ∈ [nest.atom, left])
    (hlt : i + 1 < j) (hinner : grammar.Runs tokens nest.name keys levels cost (i + 1) j)
    (hclose : Seen otherWords tokens j (some right)) (hnext : Seen otherWords tokens (j + 1) next)
    (hend : next ∈ ends) :
    grammar.Runs tokens nest.name (.production nest.name :: (nest.shell.map .production ++ keys))
      (levels + 20) (nest.layer + cost) i (j + 1) := by
  obtain ⟨_, -, -, hj⟩ := hclose.exists_token
  let inside : Stage grammar (scene otherWords next [.token right]) tokens :=
    (Stage.finish keys cost levels hnext).token hclose rfl
  let st : Stage grammar
      (scene otherWords next [.token left, .production nest.name first, .token right]) tokens :=
    (inside.production hstart hlt (Nat.le_of_lt hj) hinner).token hopen rfl
  have hruns := runs_of_forecast st nest.find (Nat.zero_le _)
    (nest.foretold_shell first hfirst next hend)
  rw [meaning_known, fuel_known] at hruns
  exact hruns

/-- Every pair of parentheses adds the same cost: the layers are added up by
    induction. -/
theorem runs (h : Nested tokens nest.atom n i j) (hnext : Seen otherWords tokens j next)
    (hend : next ∈ ends) :
    grammar.Runs tokens nest.name (nest.keys (i + n) n) (20 * (n + 1)) (nest.cost n) i j := by
  induction h generalizing next with
  | atom hatom => exact nest.runs_core hatom hnext hend
  | @layer n i j hopen hinner hclose ih =>
    obtain ⟨first, hfirst, hstart⟩ := hinner.starts
    have hinside := ih hclose (by decide)
    have hruns := nest.runs_shell hopen hstart hfirst hinner.start_lt_stop hinside hclose hnext hend
    have hindex : i + (n + 1) = i + 1 + n := by omega
    have hcost : nest.cost (n + 1) = nest.layer + nest.cost n := by
      unfold cost
      rw [Nat.mul_succ]
      omega
    rw [hindex, hcost]
    exact hruns

/-- A statement costs what is inside and always the same on top. What is around the
    parentheses is read off the table by computation. -/
theorem runs_statement {source : String} {ts : List Token} (hlex : ∀ t ∈ ts, t ∈ Lexer.lex source)
    (hkinds : ts.map (·.kind) = nest.front ++ nestedKinds nest.atom n) :
    grammar.Runs ts.toArray "sql-stmt" (nest.statementKeys n) (20 * (n + 2))
      (nest.frame + nest.cost n) 0 ts.length := by
  obtain ⟨before, rest, rfl, hbefore, hrest⟩ := List.map_eq_append_iff.mp hkinds
  generalize htokens : (before ++ rest).toArray = tokens
  have hwhole := Spelled.whole (before ++ rest)
  rw [htokens] at hwhole
  have hsize : (before ++ rest).length = tokens.size := by simp [← htokens]
  rw [hsize] at hwhole ⊢
  obtain ⟨m, hfront, hspelled⟩ := hwhole.split
  have hnested : Nested tokens nest.atom n m tokens.size :=
    .of_kinds (fun t ht => hlex t (List.mem_append_right _ ht)) hspelled hrest
  obtain ⟨first, hfirst, hstart⟩ := hnested.starts
  have hinner := nest.runs hnested (seen_end tokens) (by decide)
  let inside : Stage grammar (scene otherWords none [.production nest.name first]) tokens :=
    (Stage.finish _ _ _ (seen_end tokens)).production hstart hnested.start_lt_stop (Nat.le_refl _)
      hinner
  obtain ⟨st, hzero, hplaces, hkeys, hcost, hlevels⟩ := exists_front inside
    (fun t ht => hlex t (List.mem_append_left _ ht)) hfront
  have hforetold := nest.foretold_statement first hfirst
  have hlength : nest.front.length = before.length := by simp [← hbefore]
  rw [hlength, ← hbefore] at hforetold
  have hfind : grammar.find? "sql-stmt" = some sqlStmt := rfl
  have hruns := runs_of_forecast st hfind (Nat.zero_le _) hforetold
  have hmiddle : before.length = m := by
    have hstop := hfront.1
    omega
  have hstop : st.position (before.length + 1) = tokens.size := hplaces 1
  rw [meaning_known, fuel_known, hkeys, hcost, hlevels, hzero, hstop] at hruns
  rw [statementKeys, hlength, hmiddle]
  exact hruns

end Nest

def tables : Nest where
  name := "join-clause"
  rule := joinClause
  find := rfl
  atom := .identifier
  role := some "table name"
  core := ["table-or-subquery"]
  shell := ["table-or-subquery"]
  front := [.keyword .SELECT, .symbol .star, .keyword .FROM]
  words := ["SELECT", "*", "FROM"]
  base := 36
  layer := 35
  frame := 39
  lexed_words := by decide +kernel
  foretold_core := by decide +kernel
  foretold_shell := by decide +kernel
  foretold_statement := by decide +kernel

def values : Nest where
  name := "expr"
  rule := expr
  find := rfl
  atom := .integer
  role := none
  core := ["or-expr", "and-expr", "eq-expr", "ineq-expr", "bitwise-expr", "add-expr", "mult-expr",
    "concat-expr", "unary-expr", "collate-expr", "expr-term", "literal-value"]
  shell := ["or-expr", "and-expr", "eq-expr", "ineq-expr", "bitwise-expr", "add-expr", "mult-expr",
    "concat-expr", "unary-expr", "collate-expr", "expr-term"]
  front := [.keyword .SELECT]
  words := ["SELECT"]
  base := 95
  layer := 123
  frame := 44
  lexed_words := by decide +kernel
  foretold_core := by decide +kernel
  foretold_shell := by decide +kernel
  foretold_statement := by decide +kernel

/-- What a statement with a nested table costs, as a linear function. -/
theorem cost_tables (n : Nat) : tables.frame + tables.cost n = 35 * n + 75 := by
  simp only [Nest.cost, tables]
  omega

theorem cost_values (n : Nat) : values.frame + values.cost n = 123 * n + 139 := by
  simp only [Nest.cost, values]
  omega

/-- The token in parentheses stands behind the opening ones. There are as many of
    them as pairs. -/
theorem exists_atom {ts : List Token} {front : List Token.Kind} {atom : Token.Kind} {n : Nat}
    (hkinds : ts.map (·.kind) = front ++ nestedKinds atom n) :
    ∃ t, ts[n + front.length]? = some t := by
  have hlength := congrArg List.length hkinds
  simp only [nestedKinds, List.length_map, List.length_append, List.length_cons,
    List.length_replicate] at hlength
  exact ⟨_, List.getElem?_eq_getElem (by omega)⟩

section Tables

variable {parsed : Parsed} {n : Nat}

/-- There is a join clause around each pair of parentheses, and one inside. The
    induction is on the pairs, each of which adds one. -/
theorem count_tables (index n : Nat) :
    (tables.keys index n).count (.production "join-clause") = n + 1 := by
  induction n with
  | zero => rfl
  | succ n ih =>
    have hlayer : tables.keys index (n + 1) =
      .production "join-clause" :: .production "table-or-subquery" :: tables.keys index n := rfl
    rw [hlayer, List.count_cons_self, List.count_cons_of_ne (by decide), ih]

/-- The only identifier is the table. -/
theorem filterMap_identified?_tables (p : Parsed) (index n : Nat) :
    (tables.keys index n).filterMap p.identified? = [("table name", p.textAt index)] := by
  induction n with
  | zero => rfl
  | succ n ih => exact ih

/-- Each pair of parentheses around a table opens a join clause, in the one around
    all of them. -/
theorem length_findAll_of_tables (hkeys : Tree.keys [parsed.root] = tables.statementKeys n) :
    (parsed.findAll "join-clause").length = n + 1 := by
  rw [parsed.length_findAll, hkeys]
  exact count_tables _ n

/-- Parentheses do not hide the name of a table. The key of an identifier has the
    number of its token, which is behind all of the opening ones. -/
theorem identifiers_of_tables {t : Token} (hkeys : Tree.keys [parsed.root] = tables.statementKeys n)
    (ht : parsed.tokens[n + 3]? = some t) : parsed.identifiers = [("table name", t.text)] := by
  have htext : parsed.textAt (3 + n) = t.text := by
    rw [Parsed.textAt, Nat.add_comm, ht]
  rw [parsed.identifiers_eq, hkeys, ← htext]
  exact filterMap_identified?_tables parsed _ n

end Tables

end SqlStatement.Sqlite

namespace SqlStatement.Parser

open Sqlite

/-- A root production that covers all tokens is all there is to read, at its cost.
    The limits have to allow for the levels and for the fuel that it takes. -/
theorem parse_of_runs {p : Parser} {source : List Token} {keys : List Tree.Key} {levels cost : Nat}
    (hpatience : p.patience = none)
    (h : p.grammar.Runs source.toArray p.root keys levels cost 0 source.length)
    (hdepth : levels ≤ p.limits.depth) (hfuel : cost ≤ p.limits.fuel) :
    ∃ parsed, p.parse source = .ok parsed ∧ parsed.tokens = source.toArray ∧
      Tree.keys [parsed.root] = keys ∧ p.fuelUsed (p.run .reading source.toArray) = cost := by
  obtain ⟨tree, hspan, hkeys, hspends⟩ := h ⟨source.toArray, .reading, []⟩ rfl
  obtain ⟨left, hleft⟩ := Nat.exists_eq_add_of_le hfuel
  obtain ⟨houtcome, hstate⟩ := hspends p.limits.depth hdepth left
  rw [← hleft, ← hpatience] at houtcome hstate
  have hmatched : (p.run .reading source.toArray).outcome = .matched tree := houtcome
  have hnone : trailing? source.toArray tree = none := by simp [trailing?, hspan]
  refine ⟨⟨tree, source.toArray⟩, parse_iff.mpr ⟨hmatched, hnone⟩, rfl, hkeys, ?_⟩
  have hrun : (p.run .reading source.toArray).state = ⟨source.length, left, p.patience⟩ := hstate
  rw [fuelUsed, hrun, hleft]
  exact Nat.add_sub_cancel ..

/-- A statement with a token in parentheses is accepted, and its cost is known. The
    cost is linear in the number of pairs, for tables and for values. -/
theorem parse_nest (nest : Nest) (limits : Limits) {text : String} {n : Nat}
    (hkinds : (Lexer.lex text).map (·.kind) = nest.front ++ nestedKinds nest.atom n)
    (hdepth : 20 * (n + 2) ≤ limits.depth) (hfuel : nest.frame + nest.cost n ≤ limits.fuel) :
    let p : Parser := { ofGrammar Sqlite.grammar with limits }
    ∃ parsed, p.parse (Lexer.lex text) = .ok parsed ∧ parsed.tokens = (Lexer.lex text).toArray ∧
      Tree.keys [parsed.root] = nest.statementKeys n ∧
      p.fuelUsed (p.run .reading (Lexer.lex text).toArray) = nest.frame + nest.cost n :=
  parse_of_runs rfl (nest.runs_statement (fun _ ht => ht) hkinds) hdepth hfuel

/-- Nested parentheses cost linear fuel, around a table and around an integer, and
    are read as they are written. Whatever candidates a parenthesis opens in vain,
    what is inside is read once. -/
theorem nested_linear : ∃ a b : Nat, ∀ (n : Nat) (limits : Limits),
    20 * (n + 2) ≤ limits.depth → a * n + b ≤ limits.fuel →
    let p : Parser := { ofGrammar Sqlite.grammar with limits }
    (∀ text, let tokens := Lexer.lex text
      tokens.map (·.kind) =
        [.keyword .SELECT, .symbol .star, .keyword .FROM] ++ nestedKinds .identifier n →
      ∃ parsed t, p.parse tokens = .ok parsed ∧
        (parsed.findAll "join-clause").length = n + 1 ∧
        tokens[n + 3]? = some t ∧ parsed.identifiers = [("table name", t.text)] ∧
        p.fuelUsed (p.run .reading tokens.toArray) ≤ a * n + b) ∧
    (∀ text, let tokens := Lexer.lex text
      tokens.map (·.kind) = [.keyword .SELECT] ++ nestedKinds .integer n →
      ∃ parsed, p.parse tokens = .ok parsed ∧
        p.fuelUsed (p.run .reading tokens.toArray) ≤ a * n + b) := by
  refine ⟨123, 139, fun n limits hdepth hfuel => ⟨fun text hkinds => ?_, fun text hkinds => ?_⟩⟩
  · have hcost := cost_tables n
    obtain ⟨parsed, hparse, htokens, hkeys, hused⟩ :=
      parse_nest tables limits hkinds hdepth (by omega)
    obtain ⟨t, ht⟩ := exists_atom hkinds
    refine ⟨parsed, t, hparse, length_findAll_of_tables hkeys, ht, ?_, by omega⟩
    apply identifiers_of_tables hkeys
    rw [htokens, List.getElem?_toArray]
    exact ht
  · have hcost := cost_values n
    obtain ⟨parsed, hparse, -, -, hused⟩ :=
      parse_nest values limits hkinds hdepth (by omega)
    exact ⟨parsed, hparse, by omega⟩

/-- Two pairs of parentheses around a table and around an integer. Both are texts,
    so the lexer is part of the statement. -/
theorem nested_linear_pair : ∃ (limits : Limits) (tables values : Parsed),
    let p : Parser := { ofGrammar Sqlite.grammar with limits }
    p.parse (Lexer.lex "SELECT * FROM ((t))") = .ok tables ∧
      (tables.findAll "join-clause").length = 3 ∧ tables.identifiers = [("table name", "t")] ∧
      p.parse (Lexer.lex "SELECT ((1))") = .ok values := by
  obtain ⟨a, b, h⟩ := nested_linear
  obtain ⟨htables, hvalues⟩ := h 2 ⟨a * 2 + b, 80⟩ (Nat.le_refl 80) (Nat.le_refl _)
  have hname : (⟨.identifier, "t", ⟨0, 1⟩⟩ : Token) ∈ Lexer.lex "t" := by decide +kernel
  have hnumber : (⟨.integer, "1", ⟨0, 1⟩⟩ : Token) ∈ Lexer.lex "1" := by decide +kernel
  have htable : Sqlite.tables.text "t" 2 = "SELECT * FROM ((t))" := by decide +kernel
  have hlexed := Sqlite.tables.map_kind_lex_text (Lexer.legal_of_mem_lex hname nofun) rfl 2
  rw [htable] at hlexed
  obtain ⟨tables, t, hparse, hcount, ht, hidentifiers, -⟩ := htables _ hlexed
  obtain ⟨values, hvalue, -⟩ := hvalues (Sqlite.values.text "1" 2)
    (Sqlite.values.map_kind_lex_text (Lexer.legal_of_mem_lex hnumber nofun) rfl 2)
  have htext : t.text = "t" := by
    have hsome : (Lexer.lex "SELECT * FROM ((t))")[5]?.map (·.text) = some "t" := by decide +kernel
    rw [ht] at hsome
    exact Option.some.inj hsome
  rw [htext] at hidentifiers
  exact ⟨_, tables, values, hparse, hcount, hidentifiers, hvalue⟩

end SqlStatement.Parser

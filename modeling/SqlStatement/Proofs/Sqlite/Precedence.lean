import SqlStatement.Proofs.Match.Reads
import SqlStatement.Proofs.Match.Scene
import SqlStatement.Proofs.Sqlite.Placed
import SqlStatement.Proofs.Tree.Tiling
import SqlStatement.Sqlite

namespace SqlStatement.Sqlite

open Grammar Grammar.Vocabulary
variable {tokens : Array Token} {c : Context} {i j : Nat}

/-- A production of the table reads a range of tokens as a single part. -/
structure ReadAs (tokens : Array Token) (name text : String) (start stop : Nat) : Prop where
  lt : start < stop
  le : stop ≤ tokens.size
  calls : ∀ c : Context, c.tokens = tokens → grammar.Calls c name start [text] stop

namespace ReadAs

variable {name text : String}

theorem reads (h : ReadAs c.tokens name text i j) : (rule name).Reads grammar c i [text] j :=
  Term.reads_production h.lt (h.calls c rfl)

/-- A production that reads several parts encloses them. How much the row gains does
    not matter, as the production matches in any case. -/
theorem of_row {p : Production} {parts : List String} (hfind : grammar.find? name = some p)
    (hlt : i < j) (hle : j ≤ tokens.size) (hparts : Parsed.enclose .plain name parts = [text])
    (h : ∀ c : Context, c.tokens = tokens → ∃ gain, Row grammar c i p.body.terms parts gain j) :
    ReadAs tokens name text i j := by
  obtain ⟨_, _, ⟨terms, commit⟩⟩ := p
  refine ⟨hlt, hle, fun c hc => ?_⟩
  obtain ⟨gain, hrow⟩ := h { c with stack := name :: c.stack } hc
  rw [← hparts]
  exact calls_of_reads hfind (hrow.reads commit)

/-- A production that reads a single part is not seen. Its text is that of the part,
    without parentheses. -/
theorem of_single {p : Production} (hfind : grammar.find? name = some p) (hlt : i < j)
    (hle : j ≤ tokens.size)
    (h : ∀ c : Context, c.tokens = tokens → ∃ gain, Row grammar c i p.body.terms [text] gain j) :
    ReadAs tokens name text i j :=
  of_row hfind hlt hle rfl h

end ReadAs

theorem enclose_plain (name first second : String) (rest : List String) :
    Parsed.enclose .plain name (first :: second :: rest) =
      [enclosed name (first :: second :: rest)] := by
  simp [Parsed.enclose, enclosed, Palette.paintProduction, Palette.plain]

section Tiers

/-- The part of the table between the operands of a tier. -/
def Tier.separator (t : Tier) : Term :=
  match t.operators with
  | [k] => kind k
  | ks => oneOf (ks.map kind)

/-- The production that reads the operands of a tier. -/
def Tier.operand : Tier → String
  | .disjunction => "and-expr"
  | .conjunction => "eq-expr"
  | .equality => "ineq-expr"
  | .order => "bitwise-expr"
  | .bits => "add-expr"
  | .sums => "mult-expr"
  | .products => "concat-expr"
  | .concatenation => "unary-expr"

/-- The tests that may follow an operand in the tier of equality. -/
def tests : List Term :=
  [rule "eq-expr-op", rule "eq-expr-is", rule "eq-expr-in", rule "eq-expr-like",
    rule "eq-expr-between"]

/-- What a tier is in the table. -/
def Tier.terms : Tier → List Term
  | .equality => [rule "ineq-expr", many 0 [oneOf tests]]
  | t => [listBy t.separator 1 [rule t.operand]]

/-- Every tier is in the table as its terms say, with one token needed to commit. -/
theorem find?_tier (t : Tier) : grammar.find? t.name = some (production t.name 1 t.terms) := by
  cases t <;> rfl

/-- What is known in front of a token of some kind that is not read as one of some
    words. -/
def ahead (words : List String) (next : Option Token.Kind) : Sight :=
  scene (fun _ => words) next []

/-- How a term of the table ends in front of a kind of token. Three levels of
    references are enough to tell wherever it is asked. -/
def outlook (words : List String) (next : Option Token.Kind) (t : Term) :
    Option (Option (List Sign × Nat)) :=
  t.outlook grammar (ahead words next) 3 0

/-- In front of what may follow a tier no operator of it stands, for each kind that
    may follow. -/
theorem separator_refuses : ∀ t ∈ Tier.all, ∀ next ∈ Follow.kinds [t],
    outlook textWords next t.separator = some none := by
  decide +kernel

/-- The same for the tests of the tier of equality. -/
theorem tests_refuse : ∀ next ∈ Follow.kinds [.equality],
    outlook textWords next (oneOf tests) = some none := by
  decide +kernel

/-- A place in front of a token of some kind, which is not read as one of some
    words. -/
def stage {words : List String} {next : Option Token.Kind} (hnext : tokens[i]?.map (·.kind) = next)
    (hunlike : ∀ t, tokens[i]? = some t → t.Unlike words) :
    Stage grammar (ahead words next) tokens :=
  .finish [] 0 0 ⟨hnext, hunlike⟩

/-- What is seen to fail in front of a kind settles to nothing there. The outlook of
    a term is computed from the kind alone. -/
theorem settles_none {words : List String} {next : Option Token.Kind}
    (hnext : c.tokens[i]?.map (·.kind) = next)
    (hunlike : ∀ t, c.tokens[i]? = some t → t.Unlike words) {t : Term}
    (h : outlook words next t = some none) : t.Settles grammar c i none i :=
  t.settles_none_of_outlook (stage hnext hunlike) (Nat.le_refl 0) h

/-- What is seen to be skipped in front of a kind leaves nothing. It costs no token,
    whatever is behind it. -/
theorem settles_nil {words : List String} {next : Option Token.Kind}
    (hnext : c.tokens[i]?.map (·.kind) = next)
    (hunlike : ∀ t, c.tokens[i]? = some t → t.Unlike words) (hi : i ≤ c.tokens.size) {t : Term}
    (h : outlook words next t = some (some ([], 0))) : t.Settles grammar c i (some []) i :=
  t.settles_nil_of_outlook (stage hnext hunlike) (Nat.le_refl 0) hi h

/-- A choice between kinds takes the first one that the token is of. It takes one
    token and shows its text. -/
theorem reads_oneOf {t : Token} {ks : List Token.Kind} (ht : c.tokens[i]? = some t)
    (hkind : t.kind ∈ ks) : (oneOf (ks.map kind)).Reads grammar c i [t.text] (i + 1) := by
  obtain ⟨front, rest, rfl, hfresh⟩ := List.eq_append_cons_of_mem hkind
  have hone : (kind t.kind).Reads grammar c i [t.text] (i + 1) :=
    Term.reads_leaf ht (by simp [Leaf.accepts])
  have hs : (seq 1 [kind t.kind]).Reads grammar c true i [t.text] (i + 1) :=
    (Row.one (Nat.lt_succ_self i) hone).commits (Nat.le_refl 1)
  have hfront : ∀ s ∈ front.map fun k => seq 1 [kind k], s.Settles grammar c i none i := by
    intro s hmem
    obtain ⟨k, hk, rfl⟩ := List.mem_map.mp hmem
    apply Sequence.settles_none _ Nat.zero_lt_one
    apply Term.settles_leaf_none
    intro u hu
    have hsame : t = u := Option.some.inj (ht.symm.trans hu)
    subst hsame
    have hne : t.kind ≠ k := fun heq => hfresh (heq ▸ hk)
    simpa [Leaf.accepts] using hne
  have hreads := Term.reads_alternation (Nat.lt_succ_self i) hfront hs
    (rest.map fun k => seq 1 [kind k])
  simpa [oneOf, choice, Function.comp_def] using hreads

/-- Between operands stands an operator of the tier, which is shown by its text. A
    tier with one operator has a leaf for a separator, and the others have a choice
    between kinds. -/
theorem separator_reads {op : Operator} (hop : c.tokens[i]? = some op.token) :
    op.tier.separator.Reads grammar c i [op.text] (i + 1) := by
  have hkind : op.token.kind ∈ op.tier.operators := op.mark.kind_mem
  unfold Tier.separator
  split
  · next k hk =>
    rw [hk] at hkind
    apply Term.reads_leaf hop
    simpa [Leaf.accepts] using hkind
  · exact reads_oneOf hop hkind

variable {t : Tier} {chain : Chain String}

/-- The rounds of a tier behind its first operand, given one round of it. The
    induction is on the chain. -/
theorem rounds_of_placed {item : Sequence} {separator : Option Sequence}
    (hover : Rounds grammar c item separator false j 0 [] j)
    (hround : ∀ (op : Operator) operand m m' count rest, op.tier = t →
      c.tokens[m]? = some op.token → ReadAs c.tokens t.operand operand (m + 1) m' →
      Rounds grammar c item separator false m' count rest j →
      Rounds grammar c item separator false m (count + 1) (t.parts (op, operand) ++ rest) j)
    (hplaced : Placed c.tokens (ReadAs c.tokens t.operand) chain i j) (hwithin : chain.Within [t]) :
    ∃ m count, ReadAs c.tokens t.operand chain.first i m ∧
      Rounds grammar c item separator false m count (chain.links.flatMap t.parts) j ∧
      (m < j ∨ m = j ∧ chain.links = []) := by
  induction hplaced with
  | single ho => exact ⟨_, 0, ho, hover, .inr ⟨rfl, rfl⟩⟩
  | link ho hop _ ih =>
    obtain ⟨htier, hrest⟩ := hwithin
    obtain ⟨m, count, hfirst, hrounds, hstop⟩ := ih hover hround hrest
    have hprogress := hfirst.lt
    refine ⟨_, count + 1, ho, ?_, .inl (by omega)⟩
    exact hround _ _ _ _ _ _ (List.mem_singleton.mp htier) hop hfirst hrounds

/-- In most tiers an operator and its operand are two parts. -/
theorem Tier.parts_of_ne (ht : t ≠ .equality) (link : Operator × String) :
    t.parts link = [link.1.text, link.2] := by
  cases t with
  | equality => exact absurd rfl ht
  | _ => rfl

/-- And the tier is a list of operands with operators between them. -/
theorem Tier.terms_of_ne (ht : t ≠ .equality) :
    t.terms = [listBy t.separator 1 [rule t.operand]] := by
  cases t with
  | equality => exact absurd rfl ht
  | _ => rfl

/-- Most tiers are lists of their operands. The operators of the tier are the
    separators, and everything that binds closer is in the operands. -/
theorem row_of_ne (ht : t ≠ .equality)
    (hplaced : Placed c.tokens (ReadAs c.tokens t.operand) chain i j) (hwithin : chain.Within [t])
    (hfollow : Follow [t] c.tokens[j]?) :
    ∃ gain, Row grammar c i t.terms (chain.first :: chain.links.flatMap t.parts) gain j := by
  have hend : t.separator.Settles grammar c j none j :=
    settles_none rfl (fun _ => hfollow.unlike) (separator_refuses t t.mem_all _ hfollow.kind_mem)
  have hover : Rounds grammar c (seq 1 [rule t.operand]) (some (seq 1 [t.separator])) false j 0 []
      j := .stop (Sequence.settles_none hend Nat.zero_lt_one)
  have hround (op : Operator) (operand : String) (m m' count : Nat) (rest : List String)
      (htier : op.tier = t) (hop : c.tokens[m]? = some op.token)
      (ho : ReadAs c.tokens t.operand operand (m + 1) m')
      (hrest : Rounds grammar c (seq 1 [rule t.operand]) (some (seq 1 [t.separator])) false m'
        count rest j) :
      Rounds grammar c (seq 1 [rule t.operand]) (some (seq 1 [t.separator])) false m (count + 1)
        (t.parts (op, operand) ++ rest) j := by
    have hmark : t.separator.Reads grammar c m [op.text] (m + 1) := htier ▸ separator_reads hop
    have hseparator := (Row.one (Nat.lt_succ_self m) hmark).commits (Nat.le_refl 1)
    have hitem := (Row.one ho.lt ho.reads).commits (Nat.le_refl 1)
    rw [Tier.parts_of_ne ht]
    exact .separated (Nat.lt_succ_self m) ho.lt ho.le hseparator hitem hrest
  obtain ⟨m, count, hfirst, hrounds, hstop⟩ := rounds_of_placed hover hround hplaced hwithin
  have hprogress := hfirst.lt
  have hlt : i < j := by omega
  have hitem := (Row.one hfirst.lt hfirst.reads).commits (Nat.le_refl 1)
  have hlist := Rounds.reads hlt (Nat.le_add_left 1 count)
    (.bare rfl hfirst.lt hfirst.le hitem hrounds)
  rw [Tier.terms_of_ne ht]
  exact ⟨1, Row.one hlt hlist⟩

/-- A test for equality is a production of its own, which its operator commits. The
    operand behind it binds closer than a test for equality. -/
theorem eqExprOp_readAs {op : Operator} {operand : String} (htier : op.tier = .equality)
    (hop : tokens[i]? = some op.token) (ho : ReadAs tokens "ineq-expr" operand (i + 1) j) :
    ReadAs tokens "eq-expr-op" (enclosed "eq-expr-op" [op.text, operand]) i j := by
  have hlt : i < j := Nat.lt_trans (Nat.lt_succ_self i) ho.lt
  have hfind : grammar.find? "eq-expr-op" = some eqExprOp := rfl
  have hparts := enclose_plain "eq-expr-op" op.text operand []
  refine .of_row hfind hlt ho.le hparts fun c hc => ?_
  subst hc
  have hmark : Tier.equality.separator.Reads grammar c i [op.text] (i + 1) :=
    htier ▸ separator_reads hop
  exact ⟨2, Row.step (Nat.lt_succ_self i) hmark (Row.one ho.lt ho.reads)⟩

/-- The tier of equality is an operand with tests behind it, each a production of
    its own. -/
theorem row_equality
    (hplaced : Placed c.tokens (ReadAs c.tokens Tier.equality.operand) chain i j)
    (hwithin : chain.Within [.equality]) (hfollow : Follow [.equality] c.tokens[j]?) :
    ∃ gain, Row grammar c i Tier.equality.terms
      (chain.first :: chain.links.flatMap Tier.equality.parts) gain j := by
  have hend : (oneOf tests).Settles grammar c j none j :=
    settles_none rfl (fun _ => hfollow.unlike) (tests_refuse _ hfollow.kind_mem)
  have hnone : (seq 1 [oneOf tests]).Settles grammar c j none j :=
    Sequence.settles_none hend Nat.zero_lt_one
  have hround (op : Operator) (operand : String) (m m' count : Nat) (rest : List String)
      (htier : op.tier = .equality) (hop : c.tokens[m]? = some op.token)
      (ho : ReadAs c.tokens Tier.equality.operand operand (m + 1) m')
      (hrest : Rounds grammar c (seq 1 [oneOf tests]) none false m' count rest j) :
      Rounds grammar c (seq 1 [oneOf tests]) none false m (count + 1)
        (Tier.equality.parts (op, operand) ++ rest) j := by
    have htest := eqExprOp_readAs htier hop ho
    have hfirst := (Row.one htest.lt htest.reads).commits (Nat.le_refl 1)
    have hchoice : (oneOf tests).Reads grammar c m _ m' :=
      Term.reads_alternation_first htest.lt hfirst _
    have hitem := (Row.one htest.lt hchoice).commits (Nat.le_refl 1)
    exact .bare rfl htest.lt htest.le hitem hrest
  obtain ⟨m, count, hfirst, hrounds, hstop⟩ := rounds_of_placed (.stop hnone) hround hplaced hwithin
  -- a repetition without rounds leaves no node, so a lone operand is a case of its own
  rcases hstop with hlt | ⟨rfl, hlinks⟩
  · have htests := Rounds.reads hlt (Nat.zero_le _) (hrounds.of_bare true)
    exact ⟨2, Row.step hfirst.lt hfirst.reads (Row.one hlt htests)⟩
  · rw [hlinks]
    exact ⟨1, Row.step hfirst.lt hfirst.reads (Row.skip (Term.settles_repetition_empty hnone) .nil)⟩

/-- A production over the parts of a tier is shown as the tier has to be. A single
    operand is shown as it is, without parentheses. -/
theorem Tier.enclose_write (t : Tier) (chain : Chain String) :
    Parsed.enclose .plain t.name (chain.first :: chain.links.flatMap t.parts) =
      [t.write chain] := by
  unfold write
  cases chain.links with
  | nil => rfl
  | cons link links =>
    cases t <;> exact enclose_plain ..

/-- The range of a chain whose operands are read. An operand covers a token, and so
    does the chain. -/
theorem Placed.range {name : String} (h : Placed tokens (ReadAs tokens name) chain i j) :
    i < j ∧ j ≤ tokens.size := by
  induction h with
  | single ho => exact ⟨ho.lt, ho.le⟩
  | link ho _ _ ih =>
    have hlt := ho.lt
    obtain ⟨hrest, hle⟩ := ih
    exact ⟨by omega, hle⟩

/-- A tier reads a chain of its operands, and ends in front of whatever may follow
    it. -/
theorem readAs_tier (hplaced : Placed tokens (ReadAs tokens t.operand) chain i j)
    (hwithin : chain.Within [t]) (hfollow : Follow [t] tokens[j]?) :
    ReadAs tokens t.name (t.write chain) i j := by
  obtain ⟨hlt, hle⟩ := hplaced.range
  refine .of_row (find?_tier t) hlt hle (t.enclose_write chain) fun c hc => ?_
  subst hc
  by_cases ht : t = .equality
  · subst ht
    exact row_equality hplaced hwithin hfollow
  · exact row_of_ne ht hplaced hwithin hfollow

end Tiers

/-- The production that reads chains with operators of some tiers. -/
def reader : List Tier → String
  | [] => "unary-expr"
  | t :: _ => t.name

/-- Tiers that follow each other in the table. -/
def Linked : List Tier → Prop
  | [] => True
  | t :: ts => t.operand = reader ts ∧ t ∉ ts ∧ Linked ts

/-- In the table the tiers follow each other from loose to tight, with no tier
    twice. -/
theorem linked_all : Linked Tier.all := by
  simp [Linked, Tier.all, Tier.operand, reader, Tier.name]

/-- The tiers in turn read a chain as it has to be read. The induction is on the
    tiers, from loose to tight. -/
theorem readAs_write {ts : List Tier} (hts : Linked ts) {chain : Chain String}
    (hplaced : Placed tokens (ReadAs tokens "unary-expr") chain i j) (hwithin : chain.Within ts)
    (hfollow : Follow ts tokens[j]?) : ReadAs tokens (reader ts) (chain.write ts) i j := by
  -- from the tightest tier outwards: the pieces between the operators of `t` are read already
  induction ts generalizing chain i j with
  | nil =>
    cases hplaced with
    | single ho => exact ho
    | link => exact nomatch hwithin.1
  | cons t ts ih =>
    obtain ⟨hoperand, ht, hlinked⟩ := hts
    obtain ⟨hpieces, hbetween⟩ := hplaced.cut hwithin
    have hfollowed := hpieces.followed hbetween ht (hfollow.mono (List.subset_cons_self t ts))
    have hread : Placed tokens (ReadAs tokens t.operand) ((chain.cut t).map (Chain.write ts)) i
        j := by
      apply hfollowed.map
      rintro piece m m' ⟨⟨hpiece, hwithin⟩, hfollow⟩
      rw [hoperand]
      exact ih hlinked hpiece hwithin hfollow
    apply readAs_tier hread (hbetween.map _)
    apply hfollow.mono
    simp

/-- An expression reads a chain with operators of any tier. It reads the loosest
    tier, and the operands of that read the others. -/
theorem readAs_expr {chain : Chain String}
    (hplaced : Placed tokens (ReadAs tokens "unary-expr") chain i j)
    (hfollow : Follow Tier.all tokens[j]?) : ReadAs tokens "expr" (chain.write Tier.all) i j := by
  have hread := readAs_write linked_all hplaced chain.within_all hfollow
  have hfind : grammar.find? "expr" = some expr := rfl
  refine .of_single hfind hread.lt hread.le fun c hc => ?_
  subst hc
  exact ⟨1, Row.one hread.lt hread.reads⟩

section Operands

/-- The kinds that an operand starts with. -/
def startKinds : List Token.Kind := [.integer, .symbol .leftParen]

/-- In front of an operand there is no sign. -/
theorem sign_skips : ∀ k ∈ startKinds,
    outlook [] (some k) (opt [oneOf [mark .minus, mark .plus, word .NOT]]) =
      some (some ([], 0)) := by
  decide +kernel

theorem complement_skips : ∀ k ∈ startKinds,
    outlook [] (some k) (opt [mark .tilde]) = some (some ([], 0)) := by
  decide +kernel

/-- What starts like an operand starts no query. -/
theorem subquery_refuses : ∀ k ∈ startKinds,
    outlook [] (some k) (rule "select-stmt") = some none := by
  decide +kernel

/-- Behind an operand there is no collation. -/
theorem collation_skips : ∀ next ∈ Follow.kinds [],
    outlook textWords next (optAfter 1 [word .COLLATE, ident "collation name"]) =
      some (some ([], 0)) := by
  decide +kernel

/-- The kind of the next token, where there is one. -/
theorem kind_of_start {t : Token} (ht : tokens[i]? = some t) :
    tokens[i]?.map (·.kind) = some t.kind := by
  rw [ht]
  rfl

theorem unlike_nil (t : Token) : t.Unlike [] := by
  intro word hword
  cases hword

/-- An operand has no sign, no complement and no collation. Its first token can
    start an operand, and the token behind it is none that an operand goes on with. -/
theorem readAs_unary {text : String} {t : Token} (ht : tokens[i]? = some t)
    (hstart : t.kind ∈ startKinds) (hfollow : Follow [] tokens[j]?)
    (hterm : ReadAs tokens "expr-term" text i j) : ReadAs tokens "unary-expr" text i j := by
  have hle : i ≤ tokens.size := Nat.le_trans (Nat.le_of_lt hterm.lt) hterm.le
  have hcollate : ReadAs tokens "collate-expr" text i j := by
    have hfind : grammar.find? "collate-expr" = some collateExpr := rfl
    refine .of_single hfind hterm.lt hterm.le fun c hc => ?_
    subst hc
    have hcomplement := settles_nil (kind_of_start ht) (fun t _ => unlike_nil t) hle
      (complement_skips _ hstart)
    have hcollation := settles_nil rfl (fun _ => hfollow.unlike) hterm.le
      (collation_skips _ hfollow.kind_mem)
    exact ⟨1, .skip hcomplement (.step hterm.lt hterm.reads (.skip hcollation .nil))⟩
  have hfind : grammar.find? "unary-expr" = some unaryExpr := rfl
  refine .of_single hfind hcollate.lt hcollate.le fun c hc => ?_
  subst hc
  have hsign := settles_nil (kind_of_start ht) (fun t _ => unlike_nil t) hle
    (sign_skips _ hstart)
  exact ⟨1, .skip hsign (.one hcollate.lt hcollate.reads)⟩

/-- What an operand may be, in the order of the table. -/
def candidates : List Sequence :=
  match exprTerm.body.terms with
  | [_, .alternation candidates] => candidates
  | _ => []

def subquery : Sequence :=
  seq 2
    [opt [opt [word .NOT], word .EXISTS], mark .leftParen, rule "select-stmt", mark .rightParen]

def parenthesized : Sequence := seq 1 [mark .leftParen, rule "expr", mark .rightParen]

/-- An integer is a literal value, which the first candidate that takes it shows by
    its text. -/
theorem readAs_integer {t : Token} (ht : tokens[i]? = some t) (hkind : t.kind = .integer) :
    ReadAs tokens "expr-term" t.text i (i + 1) := by
  have hlt := Nat.lt_succ_self i
  obtain ⟨hle, -⟩ := Array.getElem?_eq_some_iff.mp ht
  have hliteral : ReadAs tokens "literal-value" t.text i (i + 1) := by
    have hfind : grammar.find? "literal-value" = some literalValue := rfl
    refine .of_single hfind hlt hle fun c hc => ?_
    subst hc
    have hinteger : (kind .integer).Reads grammar c i [t.text] (i + 1) :=
      Term.reads_leaf ht (by simp [Leaf.accepts, hkind])
    have hfirst := (Row.one hlt hinteger).commits (Nat.le_refl 1)
    exact ⟨1, .one hlt (Term.reads_alternation_first hlt hfirst _)⟩
  have hfind : grammar.find? "expr-term" = some exprTerm := rfl
  refine .of_single hfind hlt hle fun c hc => ?_
  subst hc
  have hfirst := (Row.one hlt hliteral.reads).commits (Nat.le_refl 1)
  exact ⟨1, .skip Term.settles_breakpoint (.one hlt (Term.reads_alternation_first hlt hfirst _))⟩

/-- In front of a parenthesis neither `NOT` nor `EXISTS` stands. -/
theorem exists_skips : outlook textWords (some (.symbol .leftParen))
    (opt [opt [word .NOT], word .EXISTS]) = some (some ([], 0)) := by
  decide +kernel

/-- What the table tries before a subquery does not start with a parenthesis. -/
theorem candidates_refuse : ∀ s ∈ candidates.take 6,
    s.outlook grammar (ahead textWords (some (.symbol .leftParen))) 3 0 = some none := by
  decide +kernel

/-- A parenthesis in front of an operand does not open a subquery, nor anything that
    the table tries before. -/
theorem before_parenthesized {left : Mark [.symbol .leftParen]} {t : Token}
    (hleft : c.tokens[i]? = some left.token) (ht : c.tokens[i + 1]? = some t)
    (hstart : t.kind ∈ startKinds) : ∀ s ∈ candidates.take 7, s.Settles grammar c i none i := by
  have hkind : left.token.kind = .symbol .leftParen := List.mem_singleton.mp left.kind_mem
  have hnext : c.tokens[i]?.map (·.kind) = some (.symbol .leftParen) := by
    rw [hleft]
    exact congrArg some hkind
  have hunlike : ∀ t, c.tokens[i]? = some t → t.Unlike textWords := by
    intro u hu
    cases hleft.symm.trans hu
    exact left.unlike
  obtain ⟨hlt, -⟩ := Array.getElem?_eq_some_iff.mp hleft
  have hsplit : candidates.take 7 = candidates.take 6 ++ [subquery] := rfl
  intro s hs
  rw [hsplit] at hs
  -- the subquery alone gets past the parenthesis, but needs one more token to commit
  rcases List.mem_append.mp hs with hearlier | hlast
  · exact s.settles_none_of_outlook (stage hnext hunlike) (Nat.le_refl 0)
      (candidates_refuse s hearlier)
  · rw [List.mem_singleton.mp hlast]
    have hexists := settles_nil hnext hunlike (Nat.le_of_lt hlt) exists_skips
    have hopen : (mark .leftParen).Settles grammar c i (some [.leaf .token i]) (i + 1) :=
      Term.settles_leaf hleft (by simp [Leaf.accepts, hkind])
    have hselect := settles_none (kind_of_start ht) (fun t _ => unlike_nil t)
      (subquery_refuses _ hstart)
    have hfront := Walk.skip hexists (.step (Nat.lt_succ_self i) hopen .nil)
    exact Sequence.settles_stuck hfront hselect [mark .rightParen] (Nat.lt_succ_self 1)

/-- An expression in parentheses is read past the candidates that the parenthesis
    opens in vain, and is shown with its parentheses. -/
theorem readAs_group {left : Mark [.symbol .leftParen]} {right : Mark [.symbol .rightParen]}
    {text : String} {t : Token} (hleft : tokens[i]? = some left.token)
    (hright : tokens[j]? = some right.token) (ht : tokens[i + 1]? = some t)
    (hstart : t.kind ∈ startKinds) (hinner : ReadAs tokens "expr" text (i + 1) j) :
    ReadAs tokens "expr-term" (enclosed "expr-term" [left.token.text, text, right.token.text]) i
      (j + 1) := by
  have hinside := hinner.lt
  have hlt : i < j + 1 := by omega
  obtain ⟨hle, -⟩ := Array.getElem?_eq_some_iff.mp hright
  have hfind : grammar.find? "expr-term" = some exprTerm := rfl
  have hparts := enclose_plain "expr-term" left.token.text text [right.token.text]
  refine .of_row hfind hlt hle hparts fun c hc => ?_
  subst hc
  have hopen : (mark .leftParen).Reads grammar c i [left.token.text] (i + 1) :=
    Term.reads_leaf hleft (by simpa [Leaf.accepts] using left.kind_mem)
  have hclose : (mark .rightParen).Reads grammar c j [right.token.text] (j + 1) :=
    Term.reads_leaf hright (by simpa [Leaf.accepts] using right.kind_mem)
  have hrow := Row.step (Nat.lt_succ_self i) hopen
    (.step hinner.lt hinner.reads (.one (Nat.lt_succ_self j) hclose))
  have hcommits : parenthesized.Reads grammar c true i _ (j + 1) := hrow.commits (by decide)
  have hchoice := Term.reads_alternation hlt (before_parenthesized hleft ht hstart) hcommits
    (candidates.drop 8)
  exact ⟨1, .skip Term.settles_breakpoint (.one hlt hchoice)⟩

/-- An operand starts with an integer or with a parenthesis. -/
theorem Operand.starts (o : Operand) : ∃ t rest, o.tokens = t :: rest ∧ t.kind ∈ startKinds := by
  cases o with
  | integer t hkind => exact ⟨t, [], rfl, by simp [startKinds, hkind]⟩
  | group left inner right =>
    have hkind := List.mem_singleton.mp left.kind_mem
    exact ⟨left.token, inner.tokens ++ [right.token], rfl, by simp [startKinds, hkind]⟩

/-- And so does a chain. It starts with its first operand. -/
theorem Chain.starts (c : Chain Operand) :
    ∃ t rest, c.tokens = t :: rest ∧ t.kind ∈ startKinds := by
  cases c with
  | single o => exact o.starts
  | link o op rest =>
    obtain ⟨t, more, htokens, hstart⟩ := o.starts
    refine ⟨t, more ++ op.token :: rest.tokens, ?_, hstart⟩
    rw [Chain.tokens, htokens, List.cons_append]

mutual

/-- An operand is read where any operator may follow. Together with the next
    statement this is the recursion into groups. -/
theorem Operand.readAs {i j : Nat} :
    ∀ o : Operand, Spelled tokens o.tokens i j → Follow [] tokens[j]? →
      ReadAs tokens "unary-expr" o.render i j
  | .integer t hkind, h, hfollow => by
    obtain ⟨ht, rfl⟩ := h.one
    have hstart : t.kind ∈ startKinds := by simp [startKinds, hkind]
    exact readAs_unary ht hstart hfollow (readAs_integer ht hkind)
  | .group left inner right, h, hfollow => by
    obtain ⟨m, hinner, hlast⟩ := h.tail.split
    obtain ⟨hright, rfl⟩ := hlast.one
    -- inside, it is the closing parenthesis that follows, whatever follows the operand
    have hclose {ts : List Tier} : Follow ts tokens[m]? := by
      rw [hright]
      exact .close right
    obtain ⟨t, rest, htokens, hstart⟩ := inner.starts
    have ht : tokens[i + 1]? = some t := by
      rw [htokens] at hinner
      exact hinner.head
    have hexpr := readAs_expr (inner.placed hinner hclose) hclose
    have hleft : left.token.kind ∈ startKinds := by
      simp [startKinds, List.mem_singleton.mp left.kind_mem]
    exact readAs_unary h.head hleft hfollow (readAs_group h.head hright ht hstart hexpr)
  termination_by structural o => o

/-- The operands of a chain are read where they stand. What follows an operand is
    the operator behind it or the end of the chain, and neither of them makes the
    operand longer. -/
theorem Chain.placed {i j : Nat} :
    ∀ c : Chain Operand, Spelled tokens c.tokens i j → Follow [] tokens[j]? →
      Placed tokens (ReadAs tokens "unary-expr") c.rendered i j
  | .single o, h, hfollow => .single (o.readAs h hfollow)
  | .link o op c, h, hfollow => by
    obtain ⟨m, ho, hrest⟩ := Spelled.split h
    have hop := hrest.head
    have hnext : Follow [] tokens[m]? := by
      rw [hop]
      exact .operator op List.not_mem_nil
    exact .link (o.readAs ho hnext) hop (Chain.placed c hrest.tail hfollow)
  termination_by structural c => c

end

end Operands

end SqlStatement.Sqlite

namespace SqlStatement.Parser

open Sqlite

/-- A root production that reads all tokens as a single part is all there is to see
    of them. -/
theorem parse_of_calls {g : Grammar} {root text : String} {source : List Token}
    (h : g.Calls ⟨source.toArray, .reading, []⟩ root 0 [text] source.length) :
    ∃ (fuel depth : Nat) (parsed : Parsed), parsed.root.span = ⟨0, source.length⟩ ∧
      parsed.compact .plain = text ++ "\n" ∧
      ∀ limits : Limits, fuel ≤ limits.fuel → depth ≤ limits.depth →
        (⟨g, root, limits, none⟩ : Parser).parse source = .ok parsed := by
  obtain ⟨nodes, ⟨cost, levels, hsettles⟩, hshows⟩ := h
  generalize htree : Tree.node (.production root) ⟨0, source.length⟩ nodes = tree at hsettles hshows
  have hspan : tree.span = ⟨0, source.length⟩ := by
    rw [← htree]
    rfl
  have hparts := hshows ⟨tree, source.toArray⟩ rfl
  rw [Parsed.compactForest, Parsed.compactForest, List.append_nil] at hparts
  have hcompact : (⟨tree, source.toArray⟩ : Parsed).compact .plain = text ++ "\n" := by
    rw [Parsed.compact, hparts]
    rfl
  refine ⟨cost, levels, ⟨tree, source.toArray⟩, hspan, hcompact, fun limits hfuel hdepth => ?_⟩
  obtain ⟨left, hleft⟩ := Nat.exists_eq_add_of_le hfuel
  obtain ⟨houtcome, -⟩ := hsettles limits.depth hdepth left
  have hmatched : ((⟨g, root, limits, none⟩ : Parser).run .reading source.toArray).outcome =
      .matched tree := by
    rw [run, hleft]
    exact houtcome
  apply parse_of_concludeAll
  simp [concludeAll, conclude, hmatched, trailing?, hspan]

/-- An expression reads all tokens of a chain and shows them as it should. Nothing
    follows the last one, so every tier ends there. -/
theorem calls_chain (c : Chain Operand) :
    Sqlite.grammar.Calls ⟨c.tokens.toArray, .reading, []⟩ "expr" 0 [c.render] c.tokens.length := by
  have hfinish {ts : List Tier} : Follow ts c.tokens.toArray[c.tokens.length]? := by
    simpa using Follow.finish
  exact (readAs_expr (c.placed (.whole c.tokens) hfinish) hfinish).calls _ rfl

/-- Every chain is read as it has to be read: tighter operators bind tighter,
    operators of one tier stand side by side, and parentheses override both. -/
theorem parse_chain (c : Chain Operand) :
    ∃ (fuel depth : Nat) (parsed : Parsed), parsed.root.span = ⟨0, c.tokens.length⟩ ∧
      parsed.compact .plain = c.render ++ "\n" ∧
      ∀ limits : Limits, fuel ≤ limits.fuel → depth ≤ limits.depth →
        (⟨Sqlite.grammar, "expr", limits, none⟩ : Parser).parse c.tokens = .ok parsed :=
  parse_of_calls (calls_chain c)

/-- A text that is written as a chain is one: what its tokens are only depends on
    their kinds, so nothing else has to be known of the text. -/
theorem parse_lex_of_chainKinds {source : String}
    (hkinds : ChainKinds ((Lexer.lex source).map (·.kind))) :
    ∃ (c : Chain Operand) (fuel depth : Nat) (parsed : Parsed), c.tokens = Lexer.lex source ∧
      parsed.root.span = ⟨0, (Lexer.lex source).length⟩ ∧
      parsed.compact .plain = c.render ++ "\n" ∧
      ∀ limits : Limits, fuel ≤ limits.fuel → depth ≤ limits.depth →
        (⟨Sqlite.grammar, "expr", limits, none⟩ : Parser).parse (Lexer.lex source) =
          .ok parsed := by
  obtain ⟨c, htokens⟩ := hkinds.exists_chain (fun _ ht => ht) rfl
  obtain ⟨fuel, depth, parsed, h⟩ := parse_of_calls (calls_chain c)
  rw [htokens] at h
  exact ⟨c, fuel, depth, parsed, htokens, h⟩

/-- A mark of the text `1 + 2 * (3 - 4) = 5 OR 6`. -/
def mixedMark {kinds : List Token.Kind} (t : Token)
    (h : t ∈ Lexer.lex "1 + 2 * (3 - 4) = 5 OR 6" ∧ t.kind ∈ kinds ∧ isMark t.kind = true) :
    Mark kinds :=
  .ofLexed t h.1 h.2.1 h.2.2

/-- The chain that this text is. -/
def mixedChain : Chain Operand :=
  .link (.integer ⟨.integer, "1", ⟨0, 1⟩⟩ rfl)
    ⟨.sums, mixedMark ⟨.symbol .plus, "+", ⟨2, 3⟩⟩ (by decide +kernel)⟩
    (.link (.integer ⟨.integer, "2", ⟨4, 5⟩⟩ rfl)
      ⟨.products, mixedMark ⟨.symbol .star, "*", ⟨6, 7⟩⟩ (by decide +kernel)⟩
      (.link
        (.group (mixedMark ⟨.symbol .leftParen, "(", ⟨8, 9⟩⟩ (by decide +kernel))
          (.link (.integer ⟨.integer, "3", ⟨9, 10⟩⟩ rfl)
            ⟨.sums, mixedMark ⟨.symbol .minus, "-", ⟨11, 12⟩⟩ (by decide +kernel)⟩
            (.single (.integer ⟨.integer, "4", ⟨13, 14⟩⟩ rfl)))
          (mixedMark ⟨.symbol .rightParen, ")", ⟨14, 15⟩⟩ (by decide +kernel)))
        ⟨.equality, mixedMark ⟨.symbol .equal, "=", ⟨16, 17⟩⟩ (by decide +kernel)⟩
        (.link (.integer ⟨.integer, "5", ⟨18, 19⟩⟩ rfl)
          ⟨.disjunction, mixedMark ⟨.keyword .OR, "OR", ⟨20, 22⟩⟩ (by decide +kernel)⟩
          (.single (.integer ⟨.integer, "6", ⟨23, 24⟩⟩ rfl)))))

/-- The text is read with the product inside the sum, the sum inside the test, and
    the difference where its parentheses are. -/
theorem parse_mixedChain : Lexer.lex "1 + 2 * (3 - 4) = 5 OR 6" = mixedChain.tokens ∧
    ∃ limits parsed,
      (⟨Sqlite.grammar, "expr", limits, none⟩ : Parser).parse mixedChain.tokens = .ok parsed ∧
        parsed.root.span = ⟨0, 13⟩ ∧
        parsed.compact .plain = "(or-expr (eq-expr (add-expr 1 + (mult-expr 2 * " ++
          "(expr-term ( (add-expr 3 - 4) )))) (eq-expr-op = 5)) OR 6)\n" := by
  obtain ⟨fuel, depth, parsed, hspan, hcompact, hparse⟩ := parse_chain mixedChain
  have hrender : mixedChain.render = "(or-expr (eq-expr (add-expr 1 + (mult-expr 2 * " ++
      "(expr-term ( (add-expr 3 - 4) )))) (eq-expr-op = 5)) OR 6)" := by decide +kernel
  refine ⟨by decide +kernel, ⟨fuel, depth⟩, parsed,
    hparse ⟨fuel, depth⟩ (Nat.le_refl _) (Nat.le_refl _), hspan, ?_⟩
  rw [hcompact, hrender]
  rfl

end SqlStatement.Parser

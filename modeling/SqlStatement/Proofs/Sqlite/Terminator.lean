import SqlStatement.Proofs.Completion.Truncation
import SqlStatement.Proofs.Grammar.Idle
import SqlStatement.Proofs.Grammar.Leaves
import SqlStatement.Proofs.Match.Tested

namespace SqlStatement

open Grammar (Derives Leaf Sequence Term)

/-- A semicolon that is spelled like one. -/
def Token.IsTerminator (t : Token) : Prop := t.kind = .symbol .semicolon ∧ t.text = ";"

instance (t : Token) : Decidable t.IsTerminator :=
  inferInstanceAs (Decidable (t.kind = .symbol .semicolon ∧ t.text = ";"))

/-- Where a terminator stands does not matter to a leaf. -/
theorem Grammar.Leaf.accepts_terminator {t : Token} (ht : t.IsTerminator) (l : Leaf) :
    l.accepts t = l.accepts ⟨.symbol .semicolon, ";", ⟨0, 1⟩⟩ := by
  cases l <;> simp [accepts, ht.1, ht.2]

namespace Sqlite

open Grammar Grammar.Vocabulary Matcher

/-- The productions that may have the empty word. -/
def empties : List String := ["conflict-clause", "join-constraint"]

/-- No other production of the table may have the empty word. -/
theorem grammar_nullableWithin : grammar.NullableWithin empties := by decide +kernel

/-- The productions that no semicolon belongs to. -/
def plain : List String :=
  (productions.map (·.name)).filter (· ∉ ["sql-stmt", "create-trigger-stmt"])

/-- Whether a leaf does not ask for a semicolon. -/
def Ignores (l : Leaf) : Prop :=
  l.accepts ⟨.symbol .semicolon, ";", ⟨0, 1⟩⟩ = false ∧ .keyword ";" ∉ l.expectations

instance (l : Leaf) : Decidable (Ignores l) :=
  inferInstanceAs (Decidable (l.accepts ⟨.symbol .semicolon, ";", ⟨0, 1⟩⟩ = false ∧
    .keyword ";" ∉ l.expectations))

/-- The productions that no semicolon belongs to refer to each other only. -/
theorem plain_closed : grammar.Closed plain := by decide +kernel

/-- None of their leaves asks for a semicolon. -/
theorem plain_ignores : ∀ l ∈ grammar.leavesOf plain, Ignores l := by decide +kernel

/-- The only leaf that accepts a terminator asks for a semicolon. The leaves of the
    table are gone through, which a terminator of any place stands for. -/
theorem leaf_of_accepts_terminator {l : Leaf} (hl : l ∈ grammar.leaves) {t : Token}
    (ht : t.IsTerminator) (haccepts : l.accepts t = true) : l = .kind (.symbol .semicolon) := by
  have hleaves : ∀ l ∈ grammar.leaves, l.accepts ⟨.symbol .semicolon, ";", ⟨0, 1⟩⟩ = true →
      l = .kind (.symbol .semicolon) := by decide +kernel
  rw [l.accepts_terminator ht] at haccepts
  exact hleaves l hl haccepts

/-- The place of a terminator, or the end of the tokens. -/
def Terminated (tokens : Array Token) (n : Nat) : Prop :=
  ∀ t, tokens[n]? = some t → t.IsTerminator

section Tests

variable {tokens : Array Token} {n depth : Nat} {c : Context} {i : Nat}

/-- A leaf that does not ask for a semicolon leaves the place of a terminator
    untested. -/
theorem allowed_of_ignores (hplace : Terminated tokens n) {l : Leaf} (hl : Ignores l) :
    (Discipline.untested tokens n ";").Allowed l := by
  refine ⟨fun t ht => ?_, hl.2⟩
  rw [l.accepts_terminator (hplace t ht)]
  exact hl.1

/-- So do the productions that no semicolon belongs to. -/
theorem untested_plain (hplace : Terminated tokens n) (depth : Nat) {name : String}
    (hname : name ∈ plain) : Untested tokens n ";" (fun _ => True) (grammar.matcher depth name) :=
  (Discipline.untested tokens n ";").keeps_matcher_of_closed plain_closed
    (fun l hl => allowed_of_ignores hplace (plain_ignores l hl)) depth hname

/-- Whether a term has nothing to do with semicolons. -/
def PlainTerm (t : Term) : Prop := t.RefersTo plain ∧ ∀ l ∈ t.leaves, Ignores l

instance (t : Term) : Decidable (PlainTerm t) :=
  inferInstanceAs (Decidable (t.RefersTo plain ∧ ∀ l ∈ t.leaves, Ignores l))

/-- And a term that refers to these only. -/
theorem untested_term (hplace : Terminated tokens n) (depth : Nat) {t : Term} (ht : PlainTerm t) :
    Untested tokens n ";" (fun _ => True) (t.matcher (grammar.matcher depth)) :=
  ((Discipline.untested tokens n ";").fold_of_names fun _ hname =>
    untested_plain hplace depth hname).1 t ht.1 fun l hl => allowed_of_ignores hplace (ht.2 l hl)

/-- Terms in order that have nothing to do with semicolons match what they derive
    and leave the place untested. -/
theorem realizes_plain (hplace : Terminated tokens n) (depth : Nat) {front : List Term}
    (hfront : ∀ t ∈ front, PlainTerm t) :
    List.Forall₂ (fun t m => RealizesTerm grammar tokens t m ∧
      Untested tokens n ";" (fun _ => True) m) front
      (termMatchers (grammar.matcher depth) front) :=
  forall₂_termMatchers fun t ht =>
    ⟨realizes_termMatcher grammar tokens depth t, untested_term hplace depth (hfront t ht)⟩

/-- A statement in the body of a trigger. -/
def triggerStatement : Term :=
  oneOf [rule "update-stmt", rule "insert-stmt", rule "delete-stmt", rule "select-stmt"]

/-- What stands in front of the body of a trigger. -/
def triggerFront : List Term := createTriggerStmt.body.terms.take 13

/-- The body of a trigger is a list of statements with semicolons, between its front
    and its `END`. -/
theorem triggerTerms : createTriggerStmt.body.terms =
    triggerFront ++ [many 1 [triggerStatement, mark .semicolon], word .END] := rfl

/-- A place where no `END` stands. -/
def NoEnd (tokens : Array Token) (j : Nat) : Prop :=
  ∀ t, tokens[j]? = some t → t.kind ≠ .keyword .END

/-- The statements of a trigger and the productions that they may start with. -/
def openings : List String :=
  ["update-stmt", "insert-stmt", "delete-stmt", "select-stmt", "with-clause"]

/-- No statement in the body of a trigger starts with `END`, so the list of them has
    to end in front of it. -/
theorem noEnd_of_triggerStatement {i j : Nat} {nodes : List Tree}
    (h : Derives grammar tokens (.term triggerStatement) i j nodes) : NoEnd tokens i := by
  intro t ht hend
  have hidle : grammar.IdleWithin (Leaf.rejects [] (some (.keyword .END))) openings empties := by
    decide +kernel
  have hstays := h.eq_of_idle grammar_nullableWithin hidle (by decide +kernel) fun l hl u hu => by
    rw [ht] at hu
    cases hu
    rw [← hend] at hl
    have hunlike : t.Unlike [] := nofun
    exact Leaf.accepts_of_rejects hunlike hl
  have hmoves := h.lt_of_not_nullable grammar_nullableWithin (by decide +kernel)
  omega

/-- A trigger gets past every semicolon that it tests, or it is aborted. By the time
    it reads a semicolon it has committed. -/
theorem passes_trigger (hplace : Terminated tokens n) (hc : c.tokens = tokens)
    (hi : i ≤ tokens.size) (depth : Nat) :
    (grammar.matcher depth "create-trigger-stmt").Passes n ";" c i := by
  have hfind : grammar.find? "create-trigger-stmt" = some createTriggerStmt := rfl
  cases depth with
  | zero =>
    rw [Grammar.matcher, hfind]
    exact fun _ _ => trivial
  | succ depth =>
  rw [Grammar.matcher, hfind]
  apply passes_production
  rw [Sequence.matcher_eq, triggerTerms, termMatchers_append]
  apply passes_sequence
  refine stepsPass_append grammar_nullableWithin
    (realizes_plain hplace depth (by decide +kernel)) hc hi fun earned committed j hearned hj => ?_
  have hcommits : 3 ≤ 0 + triggerFront.countP (!·.nullable empties) := by decide +kernel
  refine stepsPass_closed (NoEnd tokens) (Nat.le_trans hcommits hearned) ?_ fun k => ?_
  · -- the statements of the body, each in front of a semicolon
    have hitem := realizes_sequenceMatcher grammar tokens depth
      (seq 2 [triggerStatement, mark .semicolon])
    refine .charge (repetition_ends 1 hc hj hitem fun k hk => ?_)
    exact ends_item 2 hc hk (realizes_termMatcher grammar tokens depth _)
      (untested_term hplace depth (by decide +kernel)) fun _ => noEnd_of_triggerStatement
  · -- the closing keyword
    refine .charge (.leaf (fun t ht hl => ?_) fun _ => trivial)
    have hkind : t.kind = .keyword .END := by simpa [Leaf.accepts] using hl
    refine ⟨rfl, fun hno => hno t (hc ▸ ht) hkind, fun htests => ?_⟩
    cases Log.tests_read htests
    have hsemicolon := (hplace t (hc ▸ ht)).1
    rw [hkind] at hsemicolon
    cases hsemicolon

/-- The statements, in the order in which they are tried. -/
def statements : List String :=
  ["select-stmt", "update-stmt", "insert-stmt", "alter-table-stmt", "analyze-stmt", "attach-stmt",
   "begin-stmt", "commit-stmt", "create-index-stmt", "create-table-stmt", "create-trigger-stmt",
   "create-view-stmt", "create-virtual-table-stmt", "delete-stmt", "detach-stmt",
   "drop-index-stmt", "drop-table-stmt", "drop-trigger-stmt", "drop-view-stmt", "pragma-stmt",
   "reindex-stmt", "release-stmt", "rollback-stmt", "savepoint-stmt", "vacuum-stmt"]

/-- `EXPLAIN`, with or without a query plan. -/
def explain : Term := optAfter 1 [word .EXPLAIN, optAfter 1 [word .QUERY, word .PLAN]]

/-- A statement is one of its kinds, behind an `EXPLAIN` or not. -/
theorem sqlStmtTerms : sqlStmt.body.terms = [explain] ++ [oneOf (statements.map rule)] := rfl

/-- Every kind of statement commits as a candidate, and gets past every semicolon
    that it tests. -/
theorem decides_statement (hplace : Terminated tokens n) (hc : c.tokens = tokens)
    (hi : i ≤ tokens.size) (depth : Nat) {name : String} (hname : name ∈ statements) :
    ((seq 1 [rule name]).matcher (grammar.matcher depth)).Decides n ";" c i := by
  have hknown : ∀ name ∈ statements,
      (name ∈ plain ∨ name = "create-trigger-stmt") ∧ (rule name).nullable empties = false := by
    decide +kernel
  obtain ⟨hkind, hmoves⟩ := hknown name hname
  have hcall : (grammar.matcher depth name).Passes n ";" c i := by
    rcases hkind with hplain | rfl
    · exact (untested_plain hplace depth hplain c i hc).imp
        (fun _ _ _ hlog htests => absurd htests hlog.2) (fun _ _ => id) fun _ _ => id
    · exact passes_trigger hplace hc hi depth
  refine decides_single (.charge (.bind (hcall.imp (fun tree j log hpast => .pure fun htests => ?_)
    (fun _ _ => id) fun _ _ => id))) ?_
  · exact hpast (by simpa using htests)
  · exact (realizes_termMatcher grammar tokens depth (rule name) c i hc hi).imp
      (fun _ _ hnodes => hnodes.lt_of_not_nullable grammar_nullableWithin hmoves) fun _ _ => trivial

/-- A choice between productions gets past a semicolon if each of them does. What is
    tested before the choice is made is tested by one of them. -/
theorem passes_oneOf {names : List String} {call : String → Matcher Tree}
    (h : ∀ name ∈ names, ((seq 1 [rule name]).matcher call).Decides n ";" c i) :
    ((oneOf (names.map rule)).matcher call).Passes n ";" c i := by
  refine .charge (passes_alternation (forall_candidateMatchers fun s hs => ?_))
  obtain ⟨t, ht, rfl⟩ := List.mem_map.mp hs
  obtain ⟨name, hname, rfl⟩ := List.mem_map.mp ht
  exact h name hname

/-- A statement gets past every semicolon that it tests, or it is aborted. Behind an
    `EXPLAIN` or not, it is a choice between its kinds, of which only a trigger
    tests a semicolon. -/
theorem passes_sqlStmt (hplace : Terminated tokens n) (hc : c.tokens = tokens)
    (hi : i ≤ tokens.size) (depth : Nat) :
    (grammar.matcher depth "sql-stmt").Passes n ";" c i := by
  have hfind : grammar.find? "sql-stmt" = some sqlStmt := rfl
  cases depth with
  | zero =>
    rw [Grammar.matcher, hfind]
    exact fun _ _ => trivial
  | succ depth =>
  rw [Grammar.matcher, hfind]
  apply passes_production
  rw [Sequence.matcher_eq, sqlStmtTerms, termMatchers_append]
  apply passes_sequence
  refine stepsPass_append grammar_nullableWithin
    (realizes_plain hplace depth (by decide +kernel)) hc hi fun earned committed j _ hj => ?_
  have hinside : Context.tokens { c with stack := sqlStmt.name :: c.stack } = tokens := hc
  have hlast (name : String) (hname : name ∈ statements) :=
    decides_statement hplace hinside hj depth hname
  exact stepsPass_last (passes_oneOf hlast)

/-- Whatever is matched gets past every semicolon that it tests, or it is aborted.
    All but two of the productions leave the place untested. -/
theorem passes_matcher (hplace : Terminated tokens n) (hc : c.tokens = tokens)
    (hi : i ≤ tokens.size) (depth : Nat) (name : String) :
    (grammar.matcher depth name).Passes n ";" c i := by
  by_cases hknown : name ∈ productions.map (·.name)
  · by_cases hplain : name ∈ plain
    · exact (untested_plain hplace depth hplain c i hc).imp
        (fun _ _ _ hlog htests => absurd htests hlog.2) (fun _ _ => id) fun _ _ => id
    · have hother : name = "sql-stmt" ∨ name = "create-trigger-stmt" := by
        by_contra hneither
        exact hplain (List.mem_filter.mpr ⟨hknown, by simpa using hneither⟩)
      rcases hother with rfl | rfl
      · exact passes_sqlStmt hplace hc hi depth
      · exact passes_trigger hplace hc hi depth
  · have hfind : grammar.find? name = none := by
      refine List.find?_eq_none.mpr fun p hp hname => hknown ?_
      exact List.mem_map.mpr ⟨p, hp, eq_of_beq hname⟩
    cases depth <;> rw [Grammar.matcher, hfind] <;> exact fun _ _ => trivial

end Tests

/-- A parser of SQLite statements. -/
def parser (limits : Limits) : Parser := { Parser.ofGrammar grammar with limits }

/-- A parser of any part of SQLite. -/
def rooted (root : String) (limits : Limits) : Parser := { grammar, root, limits }

/-- A match that tests the place of a terminator gets past it. Only the body of a
    trigger tests it, and that goes on behind it at least to its `END`. -/
theorem past_of_tests (root : String) (limits : Limits) {tokens : Array Token} {n : Nat}
    (hplace : Terminated tokens n) {purpose : Purpose}
    (htests : ((rooted root limits).run purpose tokens).record.log.Tests n ";") {tree : Tree}
    (htree : ((rooted root limits).run purpose tokens).outcome = .matched tree) :
    n + 1 < ((rooted root limits).run purpose tokens).state.position :=
  (passes_matcher hplace rfl (Nat.zero_le _) limits.depth root).matched
    (s := ⟨0, limits.fuel, none⟩) rfl htree htests

/-- A run that tests the end of the tokens is aborted. A match would have got past
    the end, and a failure would not have tested it. -/
theorem aborted_of_tests (root : String) (limits : Limits) (front : List Token) {purpose : Purpose}
    (htests : ((rooted root limits).run purpose front.toArray).record.log.Tests front.length ";") :
    ∃ e, ((rooted root limits).run purpose front.toArray).outcome = .aborted e := by
  have hplace : Terminated front.toArray front.length := by
    intro t ht
    simp at ht
  cases houtcome : ((rooted root limits).run purpose front.toArray).outcome with
  | aborted e => exact ⟨e, rfl⟩
  | failed =>
    have hnone := (passes_matcher hplace rfl (Nat.zero_le _) limits.depth root).failed
      (s := ⟨0, limits.fuel, none⟩) rfl houtcome
    exact absurd htests hnone
  | matched tree =>
    have hpast := past_of_tests root limits hplace htests houtcome
    have hle := ((rooted root limits).within_run purpose front.toArray).le_high
    rw [List.size_toArray] at hle
    omega

/-- The leaves that a run tries at a place tell how a run over more tokens goes on
    there. -/
theorem exists_tried (root : String) (limits : Limits) (front : List Token) : ∃ tried,
    ((rooted root limits).run .completing front.toArray).Tried front.toArray grammar.leaves
      (fun w => (rooted root limits).run w.purpose (w.tokens front.toArray)) tried :=
  Parser.exists_tried (p := rooted root limits) grammar_orderly.setsOmitEnd rfl front

/-- How a run over some tokens compares to one that has a terminator and more tokens
    in sight behind them. They end alike, or the terminator stands in the body of a
    trigger. There the first one is aborted, and a match of the second one gets past
    the terminator and the token behind it. -/
inductive Parted (size : Nat) (short long : Result Tree) : Prop
  | alike (houtcome : short.outcome.Alike long.outcome)
  | inside (hshort : ∃ e, short.outcome = .aborted e)
      (hlong : ∀ tree, long.outcome = .matched tree → size + 1 < long.state.position)

/-- A run over the tokens in front of a semicolon and one over more tokens differ
    only inside the body of a trigger, and there neither of them ends at the
    semicolon. -/
theorem parted_of_terminator (root : String) (limits : Limits) (front : List Token)
    {w : Continuation} (hw : w.token.IsTerminator) :
    Parted front.length ((rooted root limits).run .completing front.toArray)
      ((rooted root limits).run w.purpose (w.tokens front.toArray)) := by
  obtain ⟨tried, htried⟩ := exists_tried root limits front
  by_cases hreject : ∀ l ∈ tried, l.accepts w.token = false
  · exact .alike (htried.alike w hreject).1
  push Not at hreject
  obtain ⟨l, hl, haccepts⟩ := hreject
  have haccepts : l.accepts w.token = true := by simpa using haccepts
  refine .inside (aborted_of_tests root limits front (.inr ?_)) fun tree htree => ?_
  · have hsemicolon := leaf_of_accepts_terminator (htried.known l hl) hw haccepts
    have hexpects : .keyword ";" ∈ l.expectations := by
      rw [hsemicolon]
      exact List.mem_singleton.mpr rfl
    exact (htried.misses _).mpr ⟨l, hl, hexpects⟩
  · have hplace : Terminated (w.tokens front.toArray) front.length := by
      intro t ht
      have hat := w.getElem?_tokens_size front.toArray
      rw [List.size_toArray, ht] at hat
      cases hat
      exact hw
    have hread := htried.reads w l hl haccepts
    exact past_of_tests root limits hplace (.inl ⟨w.token, List.mem_filter.mpr ⟨hread, rfl⟩⟩) htree

/-- A match that ends no further than behind a terminator has nothing to do with
    what follows it, and is one of the tokens in front of the terminator. -/
theorem matched_iff_of_rooted (root : String) (limits : Limits) {front : List Token}
    {semicolon : Token} (hsemicolon : semicolon.IsTerminator) (behind : List Token) {tree : Tree}
    (hstop : tree.span.stop ≤ front.length + 1) :
    ((rooted root limits).run .reading front.toArray).outcome = .matched tree ↔
      ((rooted root limits).run .reading (front ++ semicolon :: behind).toArray).outcome =
        .matched tree := by
  have hread := Parser.condenses_read (p := rooted root limits) grammar_orderly front.toArray
  have hparted :=
    parted_of_terminator root limits front (w := ⟨.reading, semicolon, behind⟩) hsemicolon
  have htokens : Continuation.tokens ⟨.reading, semicolon, behind⟩ front.toArray =
      (front ++ semicolon :: behind).toArray := by
    simp [Continuation.tokens]
  rw [htokens] at hparted
  have hshort : ((rooted root limits).run .reading front.toArray).outcome = .matched tree ↔
      ((rooted root limits).run .completing front.toArray).outcome = .matched tree :=
    hread.outcome.matched_iff
  rw [hshort]
  cases hparted with
  | alike houtcome => exact houtcome.matched_iff
  | inside haborted hlong =>
    obtain ⟨e, haborted⟩ := haborted
    rw [haborted]
    constructor
    · intro hnever
      cases hnever
    · intro htree
      have hpast := hlong tree htree
      rw [← Parser.stop_of_run htree] at hpast
      omega

/-- The same for a parser of statements. -/
theorem matched_iff_of_terminator (limits : Limits) {front : List Token} {semicolon : Token}
    (hsemicolon : semicolon.IsTerminator) (behind : List Token) {tree : Tree}
    (hstop : tree.span.stop ≤ front.length + 1) :
    ((parser limits).run .reading front.toArray).outcome = .matched tree ↔
      ((parser limits).run .reading (front ++ semicolon :: behind).toArray).outcome =
        .matched tree :=
  matched_iff_of_rooted grammar.root limits hsemicolon behind hstop

/-- A terminator at the end does not matter to tokens that do not end with one. The
    two runs end alike, or the semicolon is read in the body of a trigger. There the
    first one is aborted, and a match of the second one would go further than the
    tokens do. -/
theorem parse_iff_terminated {limits : Limits} {front : List Token} {semicolon : Token}
    (hsemicolon : semicolon.IsTerminator)
    (hfront : ∀ t, front.getLast? = some t → t.isSemicolon = false) {tree : Tree} :
    (parser limits).parse front = .ok ⟨tree, front.toArray⟩ ↔
      (parser limits).parse (front ++ [semicolon]) =
        .ok ⟨tree, (front ++ [semicolon]).toArray⟩ := by
  rw [Parser.parse_iff, Parser.parse_iff]
  constructor
  · rintro ⟨hmatched, hnone⟩
    have hstop : tree.span.stop = front.length := by
      rcases Parser.stop_of_trailing?_eq_none (Parser.stop_le_size hmatched) hnone with
        hend | ⟨hlast, hany⟩
      · rw [hend, List.size_toArray]
      · obtain ⟨t, ht, htrue⟩ := (Option.any_eq_true _ _).mp hany
        rw [List.size_toArray] at hlast
        rw [List.getElem?_toArray, Nat.eq_sub_of_add_eq hlast, ← List.getLast?_eq_getElem?] at ht
        rw [hfront t ht] at htrue
        cases htrue
    have hlong := (matched_iff_of_terminator limits hsemicolon [] (by omega)).mp hmatched
    refine ⟨hlong, ?_⟩
    simp [Parser.trailing?, hstop, Token.isSemicolon, hsemicolon.1]
  · rintro ⟨hlong, hnone⟩
    have hle := Parser.stop_le_size hlong
    have hmatched := (matched_iff_of_terminator limits hsemicolon [] (by simpa using hle)).mpr hlong
    refine ⟨hmatched, ?_⟩
    have hshort := Parser.stop_le_size hmatched
    rw [List.size_toArray] at hshort
    have hstop : tree.span.stop = front.length := by
      rcases Parser.stop_of_trailing?_eq_none hle hnone with hend | ⟨hlast, -⟩
      · rw [List.size_toArray, List.length_append, List.length_singleton] at hend
        omega
      · rw [List.size_toArray, List.length_append, List.length_singleton] at hlast
        omega
    simp [Parser.trailing?, hstop]

/-- A statement is read in front of a terminator as it is read alone, whatever
    stands behind the terminator, and a terminator at the end does not change the
    tree. -/
theorem parse_terminated (limits : Limits) (front behind : List Token) (semicolon : Token)
    (tree : Tree) (hsemicolon : semicolon.IsTerminator)
    (hfront : ∀ t, front.getLast? = some t → t.isSemicolon = false) :
    (tree.span = ⟨0, front.length⟩ →
      ((parser limits).parse front = .ok ⟨tree, front.toArray⟩ ↔
        (parser limits).parsePrefix (front ++ semicolon :: behind) =
          .ok ⟨⟨tree, (front ++ semicolon :: behind).toArray⟩, front.length⟩)) ∧
    ((parser limits).parse front = .ok ⟨tree, front.toArray⟩ ↔
      (parser limits).parse (front ++ [semicolon]) =
        .ok ⟨tree, (front ++ [semicolon]).toArray⟩) := by
  refine ⟨fun hspan => ?_, parse_iff_terminated hsemicolon hfront⟩
  have hstop : tree.span.stop = front.length := by rw [hspan]
  have hbound : tree.span.stop ≤ front.length + 1 := by omega
  rw [Parser.parse_iff, Parser.parsePrefix_iff,
    matched_iff_of_terminator limits hsemicolon behind hbound]
  simp [hstop, Parser.trailing?]

/-- The tokens of `CREATE TRIGGER a DELETE ON b BEGIN SELECT 1; END`. -/
def trigger : List Token :=
  [⟨.keyword .CREATE, "CREATE", ⟨0, 6⟩⟩, ⟨.keyword .TRIGGER, "TRIGGER", ⟨7, 14⟩⟩,
    ⟨.identifier, "a", ⟨15, 16⟩⟩, ⟨.keyword .DELETE, "DELETE", ⟨17, 23⟩⟩,
    ⟨.keyword .ON, "ON", ⟨24, 26⟩⟩, ⟨.identifier, "b", ⟨27, 28⟩⟩,
    ⟨.keyword .BEGIN, "BEGIN", ⟨29, 34⟩⟩, ⟨.keyword .SELECT, "SELECT", ⟨35, 41⟩⟩,
    ⟨.integer, "1", ⟨42, 43⟩⟩, ⟨.symbol .semicolon, ";", ⟨43, 44⟩⟩,
    ⟨.keyword .END, "END", ⟨45, 48⟩⟩]

/-- The trigger is read alone and in front of a semicolon, though there is one
    inside of it. With a token behind the second semicolon it is still the prefix of
    the script. -/
theorem parse_terminated_trigger : ∃ (semicolon : Token) (behind : List Token) (tree : Tree),
    tree.span = ⟨0, 11⟩ ∧ (parser {}).parse trigger = .ok ⟨tree, trigger.toArray⟩ ∧
      behind.map (·.text) = ["END"] ∧
      (parser {}).parsePrefix (trigger ++ semicolon :: behind) =
        .ok ⟨⟨tree, (trigger ++ semicolon :: behind).toArray⟩, 11⟩ ∧
      (parser {}).parse (trigger ++ [semicolon]) =
        .ok ⟨tree, (trigger ++ [semicolon]).toArray⟩ := by
  have hspan : ((parser {}).parse trigger).toOption.map (·.root.span) = some ⟨0, 11⟩ := by
    decide +kernel
  cases hparse : (parser {}).parse trigger with
  | error err =>
    rw [hparse] at hspan
    cases hspan
  | ok parsed =>
    rw [hparse] at hspan
    have hroot : parsed.root.span = ⟨0, 11⟩ := Option.some.inj hspan
    have hparsed : (parser {}).parse trigger = .ok ⟨parsed.root, trigger.toArray⟩ :=
      Parser.parse_iff.mpr (Parser.concludeAll_eq_ok (Parser.parse_eq_ok hparse))
    have hboth := parse_terminated {} trigger [⟨.keyword .END, "END", ⟨50, 53⟩⟩]
      ⟨.symbol .semicolon, ";", ⟨48, 49⟩⟩ parsed.root (by decide) (by decide)
    rw [hparse] at hparsed
    exact ⟨_, _, parsed.root, hroot, hparsed, rfl, (hboth.1 hroot).mp (hparse.trans hparsed),
      hboth.2.mp (hparse.trans hparsed)⟩

end Sqlite

end SqlStatement

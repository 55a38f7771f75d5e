import SqlStatement.Proofs.Match.Nesting
import SqlStatement.Proofs.Match.Raised
import SqlStatement.Proofs.Match.Stops
import SqlStatement.Sqlite

namespace SqlStatement.Grammar

/-- A sequence has terms, and its threshold can be reached. -/
def Sequence.Whole (s : Sequence) : Prop := s.terms ≠ [] ∧ s.commit ≤ s.terms.length

/-- A term has something to choose from, and refers to a production that is
    defined. -/
def Term.Filled (defined : String → Bool) : Term → Prop
  | .leaf (.oneOf kinds) => kinds ≠ .empty
  | .production name => defined name = true
  | .alternation candidates => candidates ≠ []
  | _ => True

/-- A term is filled, and so are the sequences right under it. -/
def Term.Whole (defined : String → Bool) (t : Term) : Prop :=
  t.Filled defined ∧ ∀ s ∈ t.sequences, s.Whole

section Flaw

variable {defined : String → Bool}

/-- A leaf has a flaw only if it chooses from no kinds at all. Other leaves have
    nothing that could be wrong. -/
theorem Leaf.flaw?_eq_none_iff (l : Leaf) :
    (Term.leaf l).flaw? defined = none ↔ (Term.leaf l).Whole defined := by
  cases l with
  | oneOf kinds =>
    simp [Term.flaw?, Term.Whole, Term.Filled, Term.sequences, Token.KindSet.isEmpty_iff]
  | kind | literal | identifier | stringLiteral =>
    simp [Term.flaw?, Term.Whole, Term.Filled, Term.sequences]

mutual

/-- A term is free of flaws if and only if all of its parts are whole. The recursion
    is that of the check. -/
theorem Term.flaw?_eq_none_iff :
    ∀ t : Term, t.flaw? defined = none ↔ ∀ u ∈ t.parts, u.Whole defined
  | .leaf l => by
    rw [l.flaw?_eq_none_iff]
    simp [Term.parts]
  | .production name => by simp [Term.flaw?, Term.parts, Term.Whole, Term.Filled, Term.sequences]
  | .breakpoint => by simp [Term.flaw?, Term.parts, Term.Whole, Term.Filled, Term.sequences]
  | .optional body => by
    rw [Term.flaw?, Option.map_eq_none_iff, body.flaw?_eq_none_iff, Term.parts,
      List.forall_mem_cons]
    simp [Term.Whole, Term.Filled, Term.sequences]
  | .alternation [] => by
    simp [Term.flaw?, Term.parts, candidateParts, Term.Whole, Term.Filled]
  | .alternation (c :: cs) => by
    rw [Term.flaw?, candidatesFlaw?_eq_none_iff, Term.parts, List.forall_mem_cons]
    simp [Term.Whole, Term.Filled, Term.sequences]
  | .repetition item none least => by
    rw [Term.flaw?, Option.map_eq_none_iff, item.flaw?_eq_none_iff, Term.parts,
      List.forall_mem_cons]
    simp [Term.Whole, Term.Filled, Term.sequences]
  | .repetition item (some separator) least => by
    rw [Term.flaw?, Option.or_eq_none_iff, Option.map_eq_none_iff, Option.map_eq_none_iff,
      item.flaw?_eq_none_iff, separator.flaw?_eq_none_iff, Term.parts, List.forall_mem_cons,
      List.forall_mem_append]
    simp only [Term.Whole, Term.Filled, Term.sequences, Option.toList_some, List.forall_mem_cons,
      List.not_mem_nil, false_implies, implies_true, and_true, true_and]
    exact and_and_and_comm

/-- A sequence is free of flaws if it is whole itself and its parts are. The
    recursion is mutual with those on terms and candidates, as that of the check
    is. -/
theorem Sequence.flaw?_eq_none_iff : ∀ s : Sequence,
    s.flaw? defined = none ↔ s.Whole ∧ ∀ u ∈ s.parts, u.Whole defined
  | ⟨[], commit⟩ => by simp [Sequence.flaw?, Sequence.Whole]
  | ⟨t :: ts, commit⟩ => by
    rw [Sequence.flaw?, Sequence.parts, ← termsFlaw?_eq_none_iff (t :: ts) 0]
    by_cases hcommit : commit ≤ (t :: ts).length
    · rw [if_neg (Nat.not_lt.mpr hcommit)]
      exact (and_iff_right ⟨List.cons_ne_nil t ts, hcommit⟩).symm
    · rw [if_pos (Nat.lt_of_not_le hcommit)]
      exact ⟨nofun, fun h => absurd h.1.2 hcommit⟩

/-- The same for terms in order, wherever the count of them starts. -/
theorem termsFlaw?_eq_none_iff : ∀ (ts : List Term) (index : Nat),
    termsFlaw? defined index ts = none ↔ ∀ u ∈ termParts ts, u.Whole defined
  | [], _ => by simp [termsFlaw?, termParts]
  | t :: ts, index => by
    rw [termsFlaw?, Option.or_eq_none_iff, Option.map_eq_none_iff, t.flaw?_eq_none_iff,
      termsFlaw?_eq_none_iff ts, termParts, List.forall_mem_append]

/-- The same for candidates in order. Each of them has to be whole itself as well. -/
theorem candidatesFlaw?_eq_none_iff : ∀ (cs : List Sequence) (index : Nat),
    candidatesFlaw? defined index cs = none ↔
      (∀ s ∈ cs, s.Whole) ∧ ∀ u ∈ candidateParts cs, u.Whole defined
  | [], _ => by simp [candidatesFlaw?, candidateParts]
  | c :: cs, index => by
    rw [candidatesFlaw?, Option.or_eq_none_iff, Option.map_eq_none_iff, c.flaw?_eq_none_iff,
      candidatesFlaw?_eq_none_iff cs, candidateParts, List.forall_mem_append, List.forall_mem_cons]
    exact and_and_and_comm

end

end Flaw

/-- No name is reported as repeated just when the names differ, from one another and
    from those that were seen before. -/
theorem firstRepeated_eq_none_iff (seen names : List String) :
    firstRepeated seen names = none ↔ names.Nodup ∧ ∀ n ∈ names, n ∉ seen := by
  induction names generalizing seen with
  | nil => simp [firstRepeated]
  | cons n ns ih =>
    rw [firstRepeated, List.nodup_cons, List.forall_mem_cons]
    by_cases hseen : n ∈ seen
    · simp [hseen]
    · simp only [List.contains_iff_mem, hseen, if_false, ih, List.mem_cons]
      grind

/-- What a table needs to be built: its names differ, its root is defined and its
    parts are whole, at every depth. -/
structure WellFormed (g : Grammar) : Prop where
  names_nodup : (g.productions.map (·.name)).Nodup
  root_defined : g.defines g.root = true
  /-- In bodies, options, candidates, items and separators. -/
  sequences_whole : ∀ s ∈ g.sequences, s.terms ≠ [] ∧ s.commit ≤ s.terms.length
  candidates_ne_nil : ∀ candidates, .alternation candidates ∈ g.parts → candidates ≠ []
  kinds_ne_empty : ∀ kinds, .leaf (.oneOf kinds) ∈ g.parts → kinds ≠ Token.KindSet.empty
  references_defined : ∀ name, .production name ∈ g.parts → g.defines name = true

/-- Taken production by production, as the check goes over the table. The parts and
    the sequences of a table are those of its productions. -/
theorem wellFormed_iff {g : Grammar} : g.WellFormed ↔
    (g.productions.map (·.name)).Nodup ∧ g.defines g.root = true ∧
      ∀ p ∈ g.productions, p.body.Whole ∧ ∀ u ∈ p.body.parts, u.Whole g.defines := by
  constructor
  · intro ⟨hnames, hroot, hsequences, hcandidates, hkinds, hreferences⟩
    refine ⟨hnames, hroot, fun p hp => ⟨hsequences _ ?_, fun u hu => ?_⟩⟩
    · exact List.mem_append_left _ (List.mem_map_of_mem hp)
    · have hpart : u ∈ g.parts := List.mem_flatMap.mpr ⟨p, hp, hu⟩
      refine ⟨?_, fun s hs => hsequences s (mem_sequences hpart hs)⟩
      match u with
      | .leaf (.oneOf kinds) => exact hkinds kinds hpart
      | .production name => exact hreferences name hpart
      | .alternation candidates => exact hcandidates candidates hpart
      | .leaf (.kind _) | .leaf (.literal _) | .leaf (.identifier _ _) | .leaf (.stringLiteral _)
      | .optional _ | .repetition _ _ _ | .breakpoint => trivial
  · intro ⟨hnames, hroot, hbodies⟩
    have hpart {u : Term} (hu : u ∈ g.parts) : u.Whole g.defines := by
      obtain ⟨p, hp, hmem⟩ := List.mem_flatMap.mp hu
      exact (hbodies p hp).2 u hmem
    refine ⟨hnames, hroot, fun s hs => ?_, fun _ h => (hpart h).1, fun _ h => (hpart h).1,
      fun _ h => (hpart h).1⟩
    rcases List.mem_append.mp hs with hbody | hnested
    · obtain ⟨p, hp, rfl⟩ := List.mem_map.mp hbody
      exact (hbodies p hp).1
    · obtain ⟨u, hu, hmem⟩ := List.mem_flatMap.mp hnested
      exact (hpart hu).2 s hmem

/-- A table has no defect if and only if it is well-formed. Its checks come one
    after the other, so the table passes if it passes each of them. -/
theorem defect?_eq_none_iff {g : Grammar} : g.defect? = none ↔ g.WellFormed := by
  have hnames := firstRepeated_eq_none_iff [] (g.productions.map (·.name))
  rw [wellFormed_iff]
  unfold defect?
  split
  · next name hrepeated =>
    rw [hrepeated] at hnames
    simp_all
  · next hdistinct =>
    have hnodup := (hnames.mp hdistinct).1
    split
    · next hroot =>
      simp [hnodup, hroot, Sequence.flaw?_eq_none_iff]
    · next hroot => simp [hroot]

/-- What is built is the table that was given. The check does not change it, and no
    check is left out. -/
theorem build_eq_ok_iff {name root : String} {productions : List Production} {g : Grammar} :
    build name root productions = .ok g ↔
      g = ⟨name, root, productions⟩ ∧ (⟨name, root, productions⟩ : Grammar).WellFormed := by
  rw [← defect?_eq_none_iff, build]
  cases (⟨name, root, productions⟩ : Grammar).defect? with
  | some d => simp
  | none => simp [eq_comm]

/-- A table that is not built is answered with its defect. It is the first one, in
    the order in which the checks are made. -/
theorem build_eq_error_iff {name root : String} {productions : List Production} {d : Defect} :
    build name root productions = .error d ↔
      (⟨name, root, productions⟩ : Grammar).defect? = some d := by
  rw [build]
  cases (⟨name, root, productions⟩ : Grammar).defect? <;> simp

/-- The matcher of a production only asks in vain for a production if it is itself
    undefined. Below it every reference leads to one. -/
theorem Resolved.unknown_iff {g : Grammar} (hg : g.Resolved) (depth : Nat) (name : String)
    (c : Context) (s : State) (n : String) :
    (g.matcher depth name c s).outcome = .aborted (.unknownProduction n) ↔
      g.defines name = false ∧ n = name := by
  cases hname : g.defines name with
  | true =>
    obtain ⟨-, ⟨-, hopen⟩ | ⟨hdeep, -⟩⟩ := hg.deepensTo (Nat.le_refl depth) hname c s
    · simp only [Bool.true_eq_false, false_and, iff_false]
      exact fun hunknown => Bool.noConfusion (hopen _ hunknown)
    · simp [hdeep]
  | false =>
    have hfind : g.find? name = none :=
      Option.not_isSome_iff_eq_none.mp (by simp [find?_isSome, hname])
    cases depth <;>
    · rw [matcher, hfind]
      simp [Matcher.abort, eq_comm]

end SqlStatement.Grammar

namespace SqlStatement.Parser

open Grammar (Production)

/-- A table is built if and only if it is well-formed. No parse over it ends in an
    unknown production, unless the parser is asked for one, and then that is the one
    reported. -/
theorem build_closed (name root : String) (productions : List Production) :
    ((∃ g, Grammar.build name root productions = .ok g) ↔
        (⟨name, root, productions⟩ : Grammar).WellFormed) ∧
      ∀ g, Grammar.build name root productions = .ok g → g = ⟨name, root, productions⟩ ∧
        ∀ p : Parser, p.grammar = g → ∀ (tokens : List Token) (caret : Nat) (n : String),
          (p.parse tokens = .error (.unknownProduction n) ↔
            g.defines p.root = false ∧ n = p.root) ∧
          (p.parsePrefix tokens = .error (.unknownProduction n) ↔
            g.defines p.root = false ∧ n = p.root) ∧
          (p.complete tokens caret = .error (.unknownProduction n) ↔
            g.defines p.root = false ∧ n = p.root) := by
  refine ⟨⟨fun ⟨g, hbuilt⟩ => (Grammar.build_eq_ok_iff.mp hbuilt).2, fun hwell =>
    ⟨_, Grammar.build_eq_ok_iff.mpr ⟨rfl, hwell⟩⟩⟩, fun g hbuilt => ?_⟩
  obtain ⟨rfl, hwell⟩ := Grammar.build_eq_ok_iff.mp hbuilt
  refine ⟨rfl, fun p hp tokens caret n => ?_⟩
  have hrun (purpose : Purpose) (tokens : Array Token) :
      (p.run purpose tokens).outcome = .aborted (.unknownProduction n) ↔
        p.grammar.defines p.root = false ∧ n = p.root := by
    rw [← hp] at hwell
    exact Grammar.Resolved.unknown_iff hwell.references_defined ..
  rw [← hp]
  refine ⟨?_, ?_, ?_⟩
  · exact (p.parse_stop_iff tokens rfl).trans (hrun ..)
  · exact (p.parsePrefix_stop_iff tokens rfl).trans (hrun ..)
  · exact (p.complete_stop_iff tokens rfl caret).trans (hrun ..)

/-- The table of SQLite is built. A parser that starts from a name it does not
    define is told so whatever the tokens are, and one that starts from a statement
    never is. -/
theorem build_closed_sqlite :
    Grammar.build "sqlite" "sql-stmt" Sqlite.productions = .ok Sqlite.grammar ∧
      Sqlite.grammar.WellFormed ∧
      (∀ tokens, ({ ofGrammar Sqlite.grammar with root := "statement" } : Parser).parse tokens =
        .error (.unknownProduction "statement")) ∧
      ∀ tokens caret n, (ofGrammar Sqlite.grammar).complete tokens caret ≠
        .error (.unknownProduction n) := by
  obtain ⟨hiff, hanswers⟩ := build_closed "sqlite" "sql-stmt" Sqlite.productions
  have hbuilt : Grammar.build "sqlite" "sql-stmt" Sqlite.productions = .ok Sqlite.grammar :=
    Grammar.build_eq_ok_iff.mpr ⟨rfl, Grammar.defect?_eq_none_iff.mp (by decide +kernel)⟩
  obtain ⟨-, hanswers⟩ := hanswers _ hbuilt
  refine ⟨hbuilt, hiff.mp ⟨_, hbuilt⟩, fun tokens => ?_, fun tokens caret n hunknown => ?_⟩
  · exact (hanswers { ofGrammar Sqlite.grammar with root := "statement" } rfl tokens 0
      "statement").1.mpr ⟨by decide +kernel, rfl⟩
  · have hroot : Sqlite.grammar.defines "sql-stmt" = true := by decide +kernel
    have hundefined := ((hanswers _ rfl tokens caret n).2.2.mp hunknown).1
    exact Bool.noConfusion (hundefined.symm.trans hroot)

end SqlStatement.Parser

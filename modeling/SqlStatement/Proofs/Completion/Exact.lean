import SqlStatement.Parser
import SqlStatement.Proofs.Completion.Lockstep
import SqlStatement.Sqlite

namespace SqlStatement

open Grammar (Leaf)

/-- A leaf that accepts a token expects something: a kind, a word, a role, or the
    members of a set that has one. -/
theorem Grammar.Leaf.expectations_ne_nil {l : Leaf} {t : Token} (haccepts : l.accepts t = true) :
    l.expectations ≠ [] := by
  cases l with
  | oneOf kinds =>
    have hmem : t.kind ∈ kinds.toList := List.mem_filter.mpr ⟨t.kind.mem_all, haccepts⟩
    exact List.ne_nil_of_mem (List.mem_map_of_mem hmem)
  | _ => nofun

/-- A list without its repetitions has none. The elements like the first one are
    taken out of the rest before the rest is gone through, so the induction is on
    the length. -/
theorem nodup_eraseDups {α : Type} [BEq α] [LawfulBEq α] (xs : List α) : xs.eraseDups.Nodup := by
  induction hlength : xs.length using Nat.strongRecOn generalizing xs with
  | _ length ih =>
  cases xs with
  | nil => exact List.nodup_nil
  | cons x xs =>
    rw [List.eraseDups_cons]
    have hshorter : (xs.filter fun y => !y == x).length < length := by
      have hle := List.length_filter_le (fun y => !y == x) xs
      rw [List.length_cons] at hlength
      omega
    exact List.nodup_cons.mpr ⟨by simp, ih _ hshorter _ rfl⟩

/-- What is expected at a place is what was missed there, each expectation once.
    Misses at other places are left out. -/
theorem Miss.mem_expectedAt {misses : List Miss} {position : Nat} {e : Expectation} :
    e ∈ Miss.expectedAt misses position ↔ (⟨position, e⟩ : Miss) ∈ misses := by
  simp only [expectedAt, List.mem_eraseDups, List.mem_map, List.mem_filter, beq_iff_eq]
  constructor
  · rintro ⟨miss, ⟨hmem, rfl⟩, rfl⟩
    exact hmem
  · intro hmem
    exact ⟨_, ⟨hmem, rfl⟩, rfl⟩

namespace Parser

/-- Whether a run over the tokens matches the one at `index` by a leaf, and what
    token it is. -/
def Reads (p : Parser) (purpose : Purpose) (tokens : List Token) (index : Nat) (t : Token) : Prop :=
  .leaf t index ∈ (p.run purpose tokens.toArray).record.events.toList

/-- The leaves that a run tries at a caret are what it suggests there, and they tell
    what can be read there. -/
theorem exists_tried {p : Parser} (hsets : p.grammar.SetsOmitEnd) (hpatience : p.patience = none)
    (front : List Token) : ∃ tried,
      (p.run .completing front.toArray).Tried front.toArray p.grammar.leaves
        (fun w => p.run w.purpose (w.tokens front.toArray)) tried := by
  have hlockstep := (Discipline.lockstep front.toArray p.grammar.leaves).keeps_matcher
    (fun l hl => ⟨hl, hsets l hl⟩) p.limits.depth p.root
  exact (hlockstep [] ⟨0, p.limits.fuel, p.patience⟩ (Nat.zero_le _) hpatience).2

/-- A completion is made of the misses at its caret. Whether the run has matched or
    failed does not matter to that. -/
theorem suggest_eq_ok {caret : Nat} {r : Result Tree} {completion : Completion}
    (hok : suggest caret r = .ok completion) :
    completion.caret = caret ∧
      completion.suggestions = Miss.expectedAt r.record.misses.toList caret := by
  unfold suggest at hok
  split at hok
  · cases hok
    exact ⟨rfl, rfl⟩
  · cases hok
    exact ⟨rfl, rfl⟩
  · cases hok
    exact ⟨rfl, rfl⟩
  · cases hok

/-- The leaves tried at the caret, for a completion that is not given up. They are
    the link between what is suggested, which is what they expect, and what is read,
    which is what they accept. -/
theorem exists_tried_of_complete {p : Parser} (hsets : p.grammar.SetsOmitEnd)
    (hpatience : p.patience = none) {tokens : List Token} {caret : Nat}
    (hcaret : caret ≤ tokens.length) {completion : Completion}
    (hok : p.complete tokens caret = .ok completion) : ∃ tried : List Leaf,
      (∀ l ∈ tried, l ∈ p.grammar.leaves) ∧
      (∀ e, e ∈ completion.suggestions ↔ ∃ l ∈ tried, e ∈ l.expectations) ∧
      (∀ purpose token rest, (∃ l ∈ tried, l.accepts token = true) →
        p.Reads purpose (tokens.take caret ++ token :: rest) caret token) ∧
      ∀ purpose token rest, (∃ t, p.Reads purpose (tokens.take caret ++ token :: rest) caret t) →
        ∃ l ∈ tried, l.accepts token = true := by
  obtain ⟨tried, htried⟩ := exists_tried hsets hpatience (tokens.take caret)
  have hsize : (tokens.take caret).toArray.size = caret := by simp [hcaret]
  have htokens (w : Continuation) :
      w.tokens (tokens.take caret).toArray = (tokens.take caret ++ w.token :: w.rest).toArray := by
    simp [Continuation.tokens]
  refine ⟨tried, htried.known, fun e => ?_, fun purpose token rest haccepts => ?_,
    fun purpose token rest hreads => ?_⟩
  · have hmisses := htried.misses e
    rw [hsize] at hmisses
    rw [complete, Nat.min_eq_left hcaret] at hok
    rw [(suggest_eq_ok hok).2, Miss.mem_expectedAt, hmisses]
  · obtain ⟨l, hl, hacc⟩ := haccepts
    have hread := htried.reads ⟨purpose, token, rest⟩ l hl hacc
    rw [hsize, htokens] at hread
    exact hread
  · by_contra hnone
    have hreject (l : Leaf) (hl : l ∈ tried) : l.accepts token = false := by
      by_contra hacc
      exact hnone ⟨l, hl, by simpa using hacc⟩
    obtain ⟨t, ht⟩ := hreads
    have hquiet := (htried.alike ⟨purpose, token, rest⟩ hreject).2.2 t
    rw [hsize, htokens] at hquiet
    exact hquiet ht

/-- The suggestions at a caret are what can be read there, whatever the tokens
    behind the caret are and whatever they are read for. -/
structure ExactAt (p : Parser) (tokens : List Token) (caret : Nat)
    (suggestions : List Expectation) : Prop where
  /-- A suggestion is what a leaf expects that reads the next token wherever it accepts it. -/
  sound : ∀ e ∈ suggestions, ∃ l ∈ p.grammar.leaves, e ∈ l.expectations ∧
    ∀ purpose token rest, l.accepts token = true →
      p.Reads purpose (tokens.take caret ++ token :: rest) caret token
  /-- Where a leaf reads a token, what a leaf that accepts the next token expects is suggested. -/
  complete : ∀ purpose token rest,
    (∃ t, p.Reads purpose (tokens.take caret ++ token :: rest) caret t) →
      ∃ l ∈ p.grammar.leaves, l.accepts token = true ∧ l.expectations ≠ [] ∧
        ∀ e ∈ l.expectations, e ∈ suggestions

/-- Completion is exact with respect to matching, for every grammar whose sets omit
    the end of the input: the suggestions at a caret are exactly what the leaves
    expect that can read the next token there. The SQLite table is such a grammar. -/
theorem complete_exact : Sqlite.grammar.SetsOmitEnd ∧
    ∀ (p : Parser) (tokens : List Token) (caret : Nat) (completion : Completion),
      p.grammar.SetsOmitEnd → p.patience = none → caret ≤ tokens.length →
      p.complete tokens caret = .ok completion →
      p.ExactAt tokens caret completion.suggestions := by
  refine ⟨by decide +kernel, fun p tokens caret completion hsets hpatience hcaret hok => ?_⟩
  obtain ⟨tried, hknown, hsuggested, hreads, hread⟩ :=
    exists_tried_of_complete hsets hpatience hcaret hok
  constructor
  · intro e he
    obtain ⟨l, hl, hmem⟩ := (hsuggested e).mp he
    refine ⟨l, hknown l hl, hmem, ?_⟩
    intro purpose token rest hacc
    apply hreads
    exact ⟨l, hl, hacc⟩
  · intro purpose token rest hsome
    obtain ⟨l, hl, hacc⟩ := hread purpose token rest hsome
    refine ⟨l, hknown l hl, hacc, Leaf.expectations_ne_nil hacc, ?_⟩
    intro e he
    rw [hsuggested]
    exact ⟨l, hl, he⟩

/-- Behind `SELECT * FROM` the SQLite table suggests what can stand there. These are
    the names that a table can start with, or a parenthesis around a query or around
    tables. -/
theorem complete_exact_select_from :
    (ofGrammar Sqlite.grammar).ExactAt
      [⟨.keyword .SELECT, "SELECT", ⟨0, 6⟩⟩, ⟨.symbol .star, "*", ⟨7, 8⟩⟩,
        ⟨.keyword .FROM, "FROM", ⟨9, 13⟩⟩] 3
      [.label "database name", .label "table function name", .label "table name",
        .keyword "("] :=
  complete_exact.2 (ofGrammar Sqlite.grammar) _ 3
    ⟨3, _, [["sql-stmt", "select-stmt", "join-clause", "table-or-subquery"]]⟩
    (by decide +kernel) rfl (by decide) (by decide +kernel)

end Parser

end SqlStatement

import SqlStatement.Proofs.Tree.Tiling
import SqlStatement.Script

namespace SqlStatement

namespace Parser

variable {p : Parser} {tokens : List Token}

/-- A run that is concluded with a tree is a prefix that ends where the tree does.
    It is the same run, of which a prefix also tells the end. -/
theorem parsePrefix_of_conclude {tree : Tree}
    (h : conclude tokens.toArray (p.run .reading tokens.toArray) = .ok tree) :
    p.parsePrefix tokens = .ok ⟨⟨tree, tokens.toArray⟩, tree.span.stop⟩ := by
  simp only [parsePrefix, h]
  rfl

/-- A prefix ends where its tree does. A prefix is concluded as a parse is, but for
    the tokens that are left over. -/
theorem conclude_of_parsePrefix {front : Prefix} (h : p.parsePrefix tokens = .ok front) :
    ∃ tree, conclude tokens.toArray (p.run .reading tokens.toArray) = .ok tree ∧
      tree.span.stop = front.consumed := by
  cases hconclude : conclude tokens.toArray (p.run .reading tokens.toArray) with
  | ok tree =>
    rw [parsePrefix_of_conclude hconclude] at h
    cases h
    exact ⟨tree, rfl, rfl⟩
  | error err =>
    simp [parsePrefix, hconclude, Bind.bind, Except.bind] at h

/-- A prefix is no longer than the tokens. The tree that it has is one over these
    tokens. -/
theorem consumed_le {front : Prefix} (h : p.parsePrefix tokens = .ok front) :
    front.consumed ≤ tokens.length := by
  obtain ⟨tree, hconclude, hstop⟩ := conclude_of_parsePrefix h
  obtain ⟨production, nodes, -, htree, hbody⟩ := derivesTree_of_run (conclude_eq_ok hconclude)
  have hle := hbody.stop_le_size (Nat.zero_le _)
  rw [List.size_toArray] at hle
  rw [← hstop, htree]
  exact hle

/-- Where a prefix ends in front of something else than a semicolon, reading on to
    the end of the input fails. -/
theorem parse_of_overrun {front : Prefix} {t : Token} (h : p.parsePrefix tokens = .ok front)
    (hnext : tokens[front.consumed]? = some t) (ht : t.isSemicolon = false) :
    ∃ e, p.parse tokens = .error (.input e) := by
  obtain ⟨tree, hconclude, hstop⟩ := conclude_of_parsePrefix h
  obtain ⟨hlt, -⟩ := List.getElem?_eq_some_iff.mp hnext
  have hsemicolon : tokens.toArray[front.consumed]?.any Token.isSemicolon = false := by
    rw [List.getElem?_toArray, hnext]
    exact ht
  have htrailing : trailing? tokens.toArray tree = some front.consumed := by
    simp only [trailing?, hstop, hsemicolon, Bool.false_eq_true, if_false, List.size_toArray, hlt,
      if_true]
  simp [parse, concludeAll, hconclude, htrailing, Bind.bind, Except.bind]

end Parser

namespace Script

variable {p : Parser}

/-- How a check of the tokens goes: a script starts with a stray semicolon or with a
    statement, and the check goes on behind it or ends there. There is one rule for
    each way to go on or to end. -/
inductive Checked (p : Parser) : List Token → Except ParseError (List Diagnostic) → Prop
  | nil : Checked p [] (.ok [])
  | stray {semicolon : Token} {rest : List Token} {answer : Except ParseError (List Diagnostic)}
      (hstray : semicolon.isSemicolon = true) (hrest : Checked p rest answer) :
      Checked p (semicolon :: rest)
        (answer.map (.ofKind .emptyStatement semicolon.span :: ·))
  /-- A statement that ends the script. -/
  | last {first : Token} {rest : List Token} {front : Prefix}
      (hfirst : first.isSemicolon = false) (hread : p.parsePrefix (first :: rest) = .ok front)
      (hend : front.consumed = (first :: rest).length) : Checked p (first :: rest) (.ok [])
  /-- A statement in front of a semicolon. -/
  | statement {first t : Token} {rest : List Token} {front : Prefix}
      {answer : Except ParseError (List Diagnostic)} (hfirst : first.isSemicolon = false)
      (hread : p.parsePrefix (first :: rest) = .ok front)
      (hnext : (first :: rest)[front.consumed]? = some t) (ht : t.isSemicolon = true)
      (hbehind : Checked p ((first :: rest).drop (front.consumed + 1)) answer) :
      Checked p (first :: rest) answer
  /-- A statement in front of something else, which is reported as trailing. -/
  | overrun {first t : Token} {rest : List Token} {front : Prefix} {e : InputError}
      (hfirst : first.isSemicolon = false) (hread : p.parsePrefix (first :: rest) = .ok front)
      (hnext : (first :: rest)[front.consumed]? = some t) (ht : t.isSemicolon = false)
      (herror : p.parse (first :: rest) = .error (.input e)) :
      Checked p (first :: rest) (.ok [.ofInputError e (first :: rest)])
  | failed {first : Token} {rest : List Token} {e : InputError}
      (hfirst : first.isSemicolon = false)
      (herror : p.parsePrefix (first :: rest) = .error (.input e)) :
      Checked p (first :: rest) (.ok [.ofInputError e (first :: rest)])
  /-- A limit is exhausted, or the check is cancelled. -/
  | aborted {first : Token} {rest : List Token} {err : ParseError}
      (hfirst : first.isSemicolon = false) (herror : p.parsePrefix (first :: rest) = .error err)
      (hlimit : ∀ e, err ≠ .input e) : Checked p (first :: rest) (.error err)

/-- The answers to all items in order, up to the first error. -/
def answer (items : List Item) : Except ParseError (List Diagnostic) := do
  pure (← items.mapM Item.diagnostics).flatten

theorem answer_cons_ok {item : Item} {ds : List Diagnostic} (h : item.diagnostics = .ok ds)
    (items : List Item) : answer (item :: items) = (answer items).map (ds ++ ·) := by
  simp only [answer, List.mapM_cons, h]
  cases items.mapM Item.diagnostics <;> rfl

/-- An item that is given up gives up the check. -/
theorem answer_cons_error {item : Item} {err : ParseError} (h : item.diagnostics = .error err)
    (items : List Item) : answer (item :: items) = .error err := by
  simp only [answer, List.mapM_cons, h]
  rfl

/-- The attempt to read a statement at the start of the tokens. -/
def attemptAt (p : Parser) (start : Nat) (tokens : List Token) : Attempt :=
  ⟨start, tokens, p.run .reading tokens.toArray⟩

section Attempt

variable {tokens : List Token}

@[simp] theorem tokens_attemptAt (start : Nat) : (attemptAt p start tokens).tokens = tokens := rfl

@[simp] theorem result_attemptAt (start : Nat) :
    (attemptAt p start tokens).result = p.run .reading tokens.toArray := rfl

@[simp] theorem tree_attemptAt (start : Nat) : (attemptAt p start tokens).tree =
    Parser.conclude tokens.toArray (p.run .reading tokens.toArray) := rfl

theorem length?_attemptAt {front : Prefix} (h : p.parsePrefix tokens = .ok front) (start : Nat) :
    (attemptAt p start tokens).length? = some front.consumed := by
  obtain ⟨tree, hconclude, hstop⟩ := Parser.conclude_of_parsePrefix h
  simp [Attempt.length?, hconclude, hstop]

theorem length?_attemptAt_of_error {err : ParseError} (h : p.parsePrefix tokens = .error err)
    (start : Nat) : (attemptAt p start tokens).length? = none := by
  have hconclude := Parser.parsePrefix_eq_error h
  simp [Attempt.length?, hconclude]

/-- A statement in front of a semicolon, or at the end, is nothing to report.
    Reading goes on behind the semicolon, if there is one. -/
theorem diagnostics_of_read {front : Prefix} (h : p.parsePrefix tokens = .ok front)
    (hnext : ∀ t, tokens[front.consumed]? = some t → t.isSemicolon = true) (start : Nat) :
    (Item.attempt (attemptAt p start tokens)).diagnostics = .ok [] := by
  obtain ⟨tree, hconclude, -⟩ := Parser.conclude_of_parsePrefix h
  have hoverrun : (attemptAt p start tokens).overrun? = none := by
    rw [Attempt.overrun?, length?_attemptAt h, Option.filter_eq_none_iff]
    rintro n hn
    cases hn
    rw [tokens_attemptAt]
    cases hget : tokens[front.consumed]? with
    | none => simp
    | some t => simp [hnext t hget]
  simp [Item.diagnostics, Attempt.diagnostics, hoverrun, hconclude]

/-- A statement in front of anything else is reported with the error of reading on.
    The statement is read once more as if it had to take all of the tokens, which it
    fails to do. -/
theorem diagnostics_of_overrun {front : Prefix} {t : Token} {e : InputError}
    (h : p.parsePrefix tokens = .ok front) (hnext : tokens[front.consumed]? = some t)
    (ht : t.isSemicolon = false) (herror : p.parse tokens = .error (.input e)) (start : Nat) :
    (Item.attempt (attemptAt p start tokens)).diagnostics = .ok [.ofInputError e tokens] := by
  have hoverrun : (attemptAt p start tokens).overrun? = some front.consumed := by
    rw [Attempt.overrun?, length?_attemptAt h, Option.filter_eq_some_iff]
    simp [hnext, ht]
  have hall := Parser.parse_eq_error herror
  simp [Item.diagnostics, Attempt.diagnostics, hoverrun, hall]

/-- An input error is reported as it is. Where the statement could not even be read
    in part, it is not read again. -/
theorem diagnostics_of_failed {e : InputError} (h : p.parsePrefix tokens = .error (.input e))
    (start : Nat) :
    (Item.attempt (attemptAt p start tokens)).diagnostics = .ok [.ofInputError e tokens] := by
  have hoverrun : (attemptAt p start tokens).overrun? = none := by
    simp [Attempt.overrun?, length?_attemptAt_of_error h]
  have hconclude := Parser.parsePrefix_eq_error h
  simp [Item.diagnostics, Attempt.diagnostics, hoverrun, hconclude]

/-- Any other error gives up the check. Such an error is about a limit or about the
    table, and not about the tokens. -/
theorem diagnostics_of_aborted {err : ParseError} (h : p.parsePrefix tokens = .error err)
    (hlimit : ∀ e, err ≠ .input e) (start : Nat) :
    (Item.attempt (attemptAt p start tokens)).diagnostics = .error err := by
  have hoverrun : (attemptAt p start tokens).overrun? = none := by
    simp [Attempt.overrun?, length?_attemptAt_of_error h]
  have hconclude := Parser.parsePrefix_eq_error h
  cases err with
  | input e => exact absurd rfl (hlimit e)
  | outOfFuel | tooDeep | cancelled | unknownProduction =>
    simp [Item.diagnostics, Attempt.diagnostics, hoverrun, hconclude]

/-- Behind a statement the check goes on only where a semicolon stands. It starts
    again behind that semicolon. -/
theorem next?_attemptAt {front : Prefix} (h : p.parsePrefix tokens = .ok front) (start : Nat) :
    (attemptAt p start tokens).next? = if tokens[front.consumed]?.any (·.isSemicolon) then
      some (start + front.consumed + 1, tokens.drop (front.consumed + 1)) else none := by
  rw [Attempt.next?, length?_attemptAt h]
  rfl

/-- Behind an attempt that reads nothing the check ends. -/
theorem next?_attemptAt_of_error {err : ParseError} (h : p.parsePrefix tokens = .error err)
    (start : Nat) : (attemptAt p start tokens).next? = none := by
  rw [Attempt.next?, length?_attemptAt_of_error h]

end Attempt

/-- A semicolon where a statement may start is an item of its own. -/
theorem itemsFrom_stray {semicolon : Token} (h : semicolon.isSemicolon = true) (start : Nat)
    (rest : List Token) :
    itemsFrom p start (semicolon :: rest) = .stray semicolon :: itemsFrom p (start + 1) rest := by
  rw [itemsFrom, if_pos h]

/-- Anything else there is an attempt at a statement, with the items behind it.
    Behind it the script goes on where the attempt says, if it does. -/
theorem itemsFrom_attempt {first : Token} (h : first.isSemicolon = false) (start : Nat)
    (rest : List Token) :
    itemsFrom p start (first :: rest) = .attempt (attemptAt p start (first :: rest)) ::
      ((attemptAt p start (first :: rest)).next?.elim [] fun next =>
        itemsFrom p next.1 next.2) := by
  rw [itemsFrom, if_neg (by simp [h])]
  dsimp only
  split <;> simp_all [attemptAt]

/-- The rules say what the answer is, wherever the tokens stand. The induction is on
    the rules. Each of them is the case of one first item, and tells what is
    answered for the items behind it. -/
theorem Checked.answer_eq {tokens : List Token} {result : Except ParseError (List Diagnostic)}
    (h : Checked p tokens result) (start : Nat) :
    answer (itemsFrom p start tokens) = result := by
  induction h generalizing start with
  | nil =>
    rw [itemsFrom]
    rfl
  | stray hstray _ ih =>
    rw [itemsFrom_stray hstray, answer_cons_ok rfl, ih]
    rfl
  | last hfirst hread hend =>
    have hnone := List.getElem?_eq_none (Nat.le_of_eq hend.symm)
    have hquiet := diagnostics_of_read hread (fun t ht => by rw [hnone] at ht; cases ht) start
    rw [itemsFrom_attempt hfirst, answer_cons_ok hquiet, next?_attemptAt hread, hnone]
    rfl
  | statement hfirst hread hnext ht _ ih =>
    have hquiet := diagnostics_of_read hread (fun u hu => by
      rw [hnext] at hu
      cases hu
      exact ht) start
    rw [itemsFrom_attempt hfirst, answer_cons_ok hquiet, next?_attemptAt hread, hnext,
      Option.any_some, if_pos ht, Option.elim_some, ih]
    exact congrFun Except.map_id _
  | overrun hfirst hread hnext ht herror =>
    have hblame := diagnostics_of_overrun hread hnext ht herror start
    rw [itemsFrom_attempt hfirst, answer_cons_ok hblame, next?_attemptAt hread, hnext,
      Option.any_some, if_neg (by simp [ht])]
    rfl
  | failed hfirst herror =>
    rw [itemsFrom_attempt hfirst, answer_cons_ok (diagnostics_of_failed herror start),
      next?_attemptAt_of_error herror]
    rfl
  | aborted hfirst herror hlimit =>
    rw [itemsFrom_attempt hfirst, answer_cons_error (diagnostics_of_aborted herror hlimit start)]

/-- Every script is checked by the rules: what is left to check gets shorter. A
    stray semicolon is one token, and a statement with its semicolon is at least
    one. -/
theorem exists_checked (p : Parser) (tokens : List Token) : ∃ result, Checked p tokens result := by
  induction hlength : tokens.length using Nat.strongRecOn generalizing tokens with
  | _ length ih =>
  cases tokens with
  | nil => exact ⟨_, .nil⟩
  | cons first rest =>
  rw [List.length_cons] at hlength
  by_cases hfirst : first.isSemicolon = true
  · obtain ⟨result, hrest⟩ := ih rest.length (by omega) rest rfl
    exact ⟨_, .stray hfirst hrest⟩
  rw [Bool.not_eq_true] at hfirst
  cases hread : p.parsePrefix (first :: rest) with
  | error err =>
    by_cases hlimit : ∀ e, err ≠ .input e
    · exact ⟨_, .aborted hfirst hread hlimit⟩
    · push Not at hlimit
      obtain ⟨e, rfl⟩ := hlimit
      exact ⟨_, .failed hfirst hread⟩
  | ok front =>
    cases hnext : (first :: rest)[front.consumed]? with
    | none =>
      have hend := List.getElem?_eq_none_iff.mp hnext
      exact ⟨_, .last hfirst hread (Nat.le_antisymm (Parser.consumed_le hread) hend)⟩
    | some t =>
      by_cases ht : t.isSemicolon = true
      · have hshorter : ((first :: rest).drop (front.consumed + 1)).length < length := by
          rw [List.length_drop, List.length_cons]
          omega
        obtain ⟨result, hbehind⟩ := ih _ hshorter _ rfl
        exact ⟨_, .statement hfirst hread hnext ht hbehind⟩
      · rw [Bool.not_eq_true] at ht
        obtain ⟨e, herror⟩ := Parser.parse_of_overrun hread hnext ht
        exact ⟨_, .overrun hfirst hread hnext ht herror⟩

/-- The rules are the ways of `check`, all of them and no others. So a property of
    checks is proved rule by rule. -/
theorem checked_iff {tokens : List Token} {result : Except ParseError (List Diagnostic)} :
    Checked p tokens result ↔ check p tokens = result := by
  have hcheck : check p tokens = answer (itemsFrom p 0 tokens) := rfl
  constructor
  · intro h
    rw [hcheck, h.answer_eq]
  · intro h
    obtain ⟨other, hother⟩ := exists_checked p tokens
    rw [hcheck, hother.answer_eq] at h
    exact h ▸ hother

end Script

end SqlStatement

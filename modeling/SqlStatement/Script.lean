import SqlStatement.Diagnostic
import SqlStatement.Parser

namespace SqlStatement

namespace Script

/-- A statement that the parser was run on. -/
structure Attempt where
  /-- The index of its first token in the script. -/
  start : Nat
  tokens : List Token
  result : Result Tree

/-- What stands at a place where a statement may start. -/
inductive Item where
  | stray (semicolon : Token)
  | attempt (a : Attempt)

namespace Attempt

/-- The tree of the statement, or why there is none. -/
def tree (a : Attempt) : Except ParseError Tree :=
  Parser.conclude a.tokens.toArray a.result

/-- The number of tokens of a statement that has been read; none if it has not. -/
def length? (a : Attempt) : Option Nat :=
  match a.tree with
  | .ok tree => some tree.span.stop
  | .error _ => none

/-- The number of tokens of a statement that is followed by something else than a
    semicolon or the end of the script. -/
def overrun? (a : Attempt) : Option Nat :=
  a.length?.filter fun n => a.tokens[n]?.any (!·.isSemicolon)

/-- The tokens behind the semicolon of a statement and where they start. -/
def next? (a : Attempt) : Option (Nat × List Token) :=
  match a.length? with
  | some n =>
    if a.tokens[n]?.any (·.isSemicolon) then some (a.start + n + 1, a.tokens.drop (n + 1))
    else none
  | none => none

/-- What there is to say about a statement. -/
def diagnostics (a : Attempt) : Except ParseError (List Diagnostic) :=
  let outcome := match a.overrun? with
    | some _ => Parser.concludeAll a.tokens.toArray a.result
    | none => a.tree
  match outcome with
  | .ok _ => .ok []
  | .error (.input e) => .ok [.ofInputError e a.tokens]
  | .error e => .error e

/-- Behind a statement and its semicolon there is less to read, so the walk through
    a script ends. -/
theorem length_next? {a : Attempt} {start : Nat} {rest : List Token}
    (hnext : a.next? = some (start, rest)) : rest.length < a.tokens.length := by
  unfold next? at hnext
  split at hnext
  · rename_i n _
    split at hnext
    · rename_i hsemicolon
      have hbound : n < a.tokens.length := by
        refine Nat.lt_of_not_le fun hout => ?_
        rw [List.getElem?_eq_none hout] at hsemicolon
        exact absurd hsemicolon (by simp)
      obtain ⟨-, rfl⟩ := Prod.mk.inj (Option.some.inj hnext)
      rw [List.length_drop]
      omega
    · exact absurd hnext (by simp)
  · exact absurd hnext (by simp)

end Attempt

def itemsFrom (p : Parser) (start : Nat) (tokens : List Token) : List Item :=
  match tokens with
  | [] => []
  | first :: rest =>
    if first.isSemicolon then .stray first :: itemsFrom p (start + 1) rest
    else
      let a : Attempt := ⟨start, first :: rest, p.run .reading (first :: rest).toArray⟩
      match _ : a.next? with
      | some (next, behind) => .attempt a :: itemsFrom p next behind
      | none => [.attempt a]
termination_by tokens.length
decreasing_by
  · simp
  · exact Attempt.length_next? (by assumption)

/-- What stands in a script: statements with semicolons between them, read one after
    the other up to the first one that fails, and semicolons with no statement in
    front. -/
def items (p : Parser) (tokens : List Token) : List Item := itemsFrom p 0 tokens

/-- What there is to say about an item. -/
def Item.diagnostics : Item → Except ParseError (List Diagnostic)
  | .stray semicolon => .ok [.ofKind .emptyStatement semicolon.span]
  | .attempt a => a.diagnostics

/-- What there is to say about a script. Exhausted limits and cancellation end the
    whole check. -/
def check (p : Parser) (tokens : List Token) : Except ParseError (List Diagnostic) := do
  pure (← (items p tokens).mapM Item.diagnostics).flatten

end Script

end SqlStatement

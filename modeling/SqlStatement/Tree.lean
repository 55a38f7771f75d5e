import SqlStatement.Token

namespace SqlStatement

namespace Tree

/-- What a single token stands for. -/
inductive Role where
  /-- A keyword, a literal text or a member of a set. -/
  | token
  | identifier (description : String)
  | stringLiteral (description : String)
  deriving DecidableEq, Repr

/-- The part of the grammar that a node was matched by. -/
inductive Label where
  | production (name : String)
  /-- The chosen candidate of an alternation. -/
  | alternation (branch : Nat)
  | optional
  | repetition
  | item
  | separator
  deriving DecidableEq, Repr

end Tree

/-- A leaf is one token in a role; a node is a part of the grammar over a range of
    tokens. Both refer to tokens by index. Parts that match no token leave no node,
    so the children of a node tile its range. -/
inductive Tree where
  | leaf (role : Tree.Role) (index : Nat)
  | node (label : Tree.Label) (span : Span) (children : List Tree)

namespace Tree

def span : Tree → Span
  | .leaf _ index => ⟨index, index + 1⟩
  | .node _ span _ => span

def children : Tree → List Tree
  | .leaf _ _ => []
  | .node _ _ children => children

def production? : Tree → Option String
  | .node (.production name) _ _ => some name
  | _ => none

def branch? : Tree → Option Nat
  | .node (.alternation branch) _ _ => some branch
  | _ => none

end Tree

end SqlStatement

import SqlStatement.Json
import SqlStatement.Tree.Dump

namespace SqlStatement

def Span.toJson (s : Span) : Json :=
  .object [("start", .number s.start), ("end", .number s.stop)]

namespace Tree

def Role.name? : Role → Option String
  | .token => none
  | .identifier description => some description
  | .stringLiteral description => some description

def Label.name? : Label → Option String
  | .production name => some name
  | _ => none

def Label.branch? : Label → Option Nat
  | .alternation branch => some branch
  | _ => none

end Tree

namespace Parsed

mutual

/-- A tree as an object with its kind and range. The name, the branch, the text of
    the token and the children are left out where there are none. -/
def treeToJson (p : Parsed) : Tree → Json
  | .leaf role index =>
    .object ([("kind", .string role.tag)] ++ Json.field? "name" .string role.name?
      ++ [("span", Span.toJson ⟨index, index + 1⟩), ("text", .string (p.textAt index))])
  | .node label span children =>
    let below := match children with
      | [] => []
      | t :: ts => [("children", .array (p.treeToJson t :: p.forestToJson ts))]
    .object ([("kind", .string label.tag)] ++ Json.field? "name" .string label.name?
      ++ Json.field? "branch" .number label.branch? ++ [("span", span.toJson)] ++ below)
  termination_by structural t => t

def forestToJson (p : Parsed) : List Tree → List Json
  | [] => []
  | t :: ts => p.treeToJson t :: p.forestToJson ts
  termination_by structural ts => ts

end

/-- The tree of a statement as a document. -/
def toJson (p : Parsed) : Json := p.treeToJson p.root

end Parsed

end SqlStatement

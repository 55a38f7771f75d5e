import SqlStatement.Grammar
import SqlStatement.Json

namespace SqlStatement.Grammar

def Leaf.toJson : Leaf → Json
  | .kind k => .object [("Keyword", .string k.name)]
  | .literal text => .object [("LiteralText", .string text)]
  | .oneOf kinds =>
    .object [("TokenSet", .array (kinds.toList.map fun k => .string k.name))]
  | .identifier description bindable =>
    .object [("Identifier", .object
      [("description", .string description), ("allows_bind_variable", .bool bindable)])]
  | .stringLiteral description =>
    .object [("LiteralString", .object [("description", .string description)])]

mutual

def Term.toJson : Term → Json
  | .leaf l => l.toJson
  | .production name => .object [("Production", .string name)]
  | .optional body => .object [("Optional", body.toJson)]
  | .alternation candidates => .object [("Alternation", .array (candidatesToJson candidates))]
  | .repetition item none least =>
    .object [("Repetition", .object
      [("item", item.toJson), ("separator", .null), ("min_count", .number least)])]
  | .repetition item (some separator) least =>
    .object [("Repetition", .object
      [("item", item.toJson), ("separator", separator.toJson), ("min_count", .number least)])]
  | .breakpoint => .string "Breakpoint"
  termination_by structural t => t

def Sequence.toJson : Sequence → Json
  | ⟨terms, commit⟩ =>
    .object [("terms", .array (termsToJson terms)), ("commit", .number commit)]
  termination_by structural s => s

def termsToJson : List Term → List Json
  | [] => []
  | t :: ts => t.toJson :: termsToJson ts
  termination_by structural ts => ts

def candidatesToJson : List Sequence → List Json
  | [] => []
  | c :: cs => c.toJson :: candidatesToJson cs
  termination_by structural cs => cs

end

/-- A production with its label, null if there is none. -/
def Production.toJson (p : Production) : Json :=
  .object [("name", .string p.name), ("label", Json.ofOption .string p.label),
    ("body", p.body.toJson)]

/-- A grammar table as a document, with its productions by name in the order of the
    table. -/
def toJson (g : Grammar) : Json :=
  .object [("name", .string g.name), ("root", .string g.root),
    ("productions", .object (g.productions.map fun p => (p.name, p.toJson)))]

end SqlStatement.Grammar

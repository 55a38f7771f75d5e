import SqlStatement.Completion
import SqlStatement.Json
import SqlStatement.Tree.Export

namespace SqlStatement

def Expectation.toJson : Expectation → Json
  | .keyword text => .object [("Keyword", .string text)]
  | .label text => .object [("Label", .string text)]
  | .endOfInput => .string "EndOfInput"

/-- A completion with the bytes that a chosen suggestion replaces, null if there are
    none. -/
def Completion.toJson (c : Completion) (replaced : Option Span) : Json :=
  .object [("caret", .number c.caret),
    ("suggestions", .array (c.suggestions.map Expectation.toJson)),
    ("contexts", .array (c.contexts.map fun stack => .array (stack.map .string))),
    ("replace", Json.ofOption Span.toJson replaced)]

end SqlStatement

import SqlStatement.Match.Failure
import SqlStatement.Token

namespace SqlStatement

inductive Severity where
  | error
  | warning
  deriving DecidableEq, Repr

def Severity.text : Severity → String
  | .error => "error"
  | .warning => "warning"

namespace Diagnostic

inductive Kind where
  /-- A token that the grammar does not allow there. -/
  | unexpectedToken
  /-- The input ended inside a statement. -/
  | unexpectedEnd
  /-- Tokens behind a complete statement. -/
  | trailingInput
  /-- A semicolon without a statement in front. -/
  | emptyStatement
  deriving DecidableEq, Repr

/-- Only a stray semicolon is harmless. -/
def Kind.severity : Kind → Severity
  | .emptyStatement => .warning
  | _ => .error

def Kind.title : Kind → String
  | .unexpectedToken => "unexpected token"
  | .unexpectedEnd => "unexpected end of input"
  | .trailingInput => "unexpected input after statement"
  | .emptyStatement => "empty statement"

end Diagnostic

/-- What is wrong with a source, with the bytes that it is about. An input error
    names a token; its diagnostic names the bytes that the token was read from. -/
structure Diagnostic where
  kind : Diagnostic.Kind
  span : Span
  message : String
  deriving DecidableEq, Repr

namespace Diagnostic

def severity (d : Diagnostic) : Severity := d.kind.severity

/-- A diagnostic that says no more than its kind. -/
def ofKind (kind : Kind) (span : Span) : Diagnostic := ⟨kind, span, kind.title⟩

/-- The bytes of a token, or the empty range behind the last token. -/
def place (tokens : List Token) (position : Nat) : Span :=
  match tokens[position]? with
  | some token => token.span
  | none =>
    match tokens.getLast? with
    | some last => ⟨last.span.stop, last.span.stop⟩
    | none => ⟨0, 0⟩

/-- The kind of an input error: nothing but the end of the input is expected behind
    a complete statement. -/
def kindOf (e : InputError) : Kind :=
  if e.isAtEnd then .unexpectedEnd
  else if e.expected = [.endOfInput] then .trailingInput
  else .unexpectedToken

def ofInputError (e : InputError) (tokens : List Token) : Diagnostic :=
  ⟨kindOf e, place tokens e.position, e.message⟩

/-- The diagnostics of a parse error. Exhausted limits and cancellation are not
    about the source, so they have none. -/
def ofParseError (e : ParseError) (tokens : List Token) : List Diagnostic :=
  match e with
  | .input error => [ofInputError error tokens]
  | _ => []

def describe (d : Diagnostic) : String :=
  s!"{d.severity.text} at {d.span.start}..{d.span.stop}: {d.message}"

def count (severity : Severity) (ds : List Diagnostic) : Nat :=
  ds.countP (·.severity = severity)

def any (severity : Severity) (ds : List Diagnostic) : Bool :=
  List.any ds fun d => d.severity = severity

def list (ds : List Diagnostic) : String := "\n".intercalate (ds.map describe)

end Diagnostic

end SqlStatement

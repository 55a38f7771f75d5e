import SqlStatement.CommandLine.Parameter

namespace SqlStatement.CommandLine

/-- What a command accepts. -/
structure Signature where
  options : List Parameter
  positional : List Parameter

namespace Signature

def long? (s : Signature) (name : String) : Option Parameter :=
  s.options.find? (·.longName? == some name)

def short? (s : Signature) (letter : Char) : Option Parameter :=
  s.options.find? (·.letter? == some letter)

end Signature

inductive Shape where
  /-- Two dashes. -/
  | terminator
  | long (name : String) (value : Option String)
  | short (letters : List Char)
  | plain
  deriving DecidableEq, Repr

def cutAtEquals (cs : List Char) : String × Option String :=
  let name := String.ofList (cs.takeWhile (· != '='))
  match cs.dropWhile (· != '=') with
  | [] => (name, none)
  | _ :: value => (name, some (String.ofList value))

def Shape.ofArgument (argument : String) : Shape :=
  match argument.toList with
  | ['-', '-'] => .terminator
  | '-' :: '-' :: cs =>
    let (name, value) := cutAtEquals cs
    .long name value
  | '-' :: c :: cs => .short (c :: cs)
  | _ => .plain

structure Reader where
  settings : Settings := {}
  /-- An option or positional parameter with its value, neither of them looked at yet. -/
  pending : Option (Parameter × Option String) := none
  positional : List Parameter

namespace Reader

/-- Looks at what is pending. -/
def settle (r : Reader) : Except Refusal Reader :=
  match r.pending with
  | none => .ok r
  | some (_, none) => .error .invalidValue
  | some (p, some value) => do
    pure { r with settings := ← r.settings.setValue p value, pending := none }

def raise (r : Reader) (p : Parameter) : Except Refusal Reader := do
  let r ← r.settle
  pure { r with settings := ← r.settings.raise p }

def readOption (r : Reader) (p : Parameter) (value : Option String) : Except Refusal Reader := do
  let r ← r.settle
  match value with
  | some value => pure { r with settings := ← r.settings.setValue p value }
  | none => pure { r with pending := some (p, none) }

def readLong (r : Reader) (s : Signature) (name : String) (value : Option String) :
    Except Refusal Reader :=
  match s.long? name, value with
  | none, _ => .error .unknownArgument
  | some p, value =>
    if p.takesValue then r.readOption p value
    else if value.isSome then .error .unneededValue
    else r.raise p

/-- Reads letters. The first one that takes a value takes the letters behind it. -/
def readShort (s : Signature) (r : Reader) : List Char → Except Refusal Reader
  | [] => .ok r
  | letter :: letters =>
    match s.short? letter with
    | none => .error .unknownArgument
    | some p =>
      if p.takesValue then
        match letters with
        | [] => r.readOption p none
        | '=' :: value => r.readOption p (some (String.ofList value))
        | value => r.readOption p (some (String.ofList value))
      else do readShort s (← r.raise p) letters

def readPositional (r : Reader) (argument : String) : Except Refusal Reader :=
  match r.positional with
  | [] => .error .unknownArgument
  | p :: positional => do
    pure { ← r.settle with pending := some (p, some argument), positional }

/-- Reads an argument that is neither an option nor the terminator. -/
def readPlain (r : Reader) (argument : String) : Except Refusal Reader :=
  match r.pending with
  | some (p, none) => .ok { r with pending := some (p, some argument) }
  | _ => r.readPositional argument

/-- Reads arguments from left to right. The value of an option may be attached to it
    or be the next argument; in the latter case it is looked at only when the
    argument behind it is known to belong to the command. What follows two dashes is
    given by its position. -/
def read (s : Signature) (r : Reader) : List String → Except Refusal Reader
  | [] => .ok r
  | argument :: arguments =>
    match Shape.ofArgument argument with
    | .terminator => arguments.foldlM readPositional r
    | .long name value => do read s (← r.readLong s name value) arguments
    | .short letters => do read s (← r.readShort s letters) arguments
    | .plain => do read s (← r.readPlain argument) arguments

end Reader

def Signature.read (s : Signature) (arguments : List String) : Except Refusal Settings := do
  let r ← Reader.read s { positional := s.positional } arguments
  let settings := (← r.settle).settings
  if settings.clash then .error .conflict else pure settings

end SqlStatement.CommandLine

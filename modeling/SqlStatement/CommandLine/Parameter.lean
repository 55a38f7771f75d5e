namespace SqlStatement.CommandLine

/-- Why a command line is refused. -/
inductive Refusal where
  | help
  | nothingGiven
  | unknownCommand
  | unknownArgument
  | invalidValue
  | malformedValue
  | conflict
  | unneededValue
  deriving DecidableEq, Repr

def Refusal.status : Refusal → Nat
  | .help => 0
  | _ => 2

/-- When to use colours. -/
inductive ColourChoice where
  | auto
  | always
  | never
  deriving DecidableEq, Repr

namespace ColourChoice

def ofName? : String → Option ColourChoice
  | "auto" => some .auto
  | "always" => some .always
  | "never" => some .never
  | _ => none

/-- Whether to use colours on a terminal or elsewhere. -/
def enabled (terminal : Bool) : ColourChoice → Bool
  | .always => true
  | .never => false
  | .auto => terminal

end ColourChoice

/-- What can be given behind a command. -/
inductive Parameter where
  | path
  | text
  | root
  | fuel
  | depth
  | colour
  | verbose
  | spans
  | json
  | caret
  | offset
  | production
  | help
  deriving DecidableEq, Repr

namespace Parameter

/-- The long name of a parameter; none for those that are given by their position. -/
def longName? : Parameter → Option String
  | .path | .production => none
  | .text => some "sql"
  | .root => some "root"
  | .fuel => some "fuel"
  | .depth => some "recursion-limit"
  | .colour => some "color"
  | .verbose => some "verbose"
  | .spans => some "spans"
  | .json => some "json"
  | .caret => some "caret"
  | .offset => some "offset"
  | .help => some "help"

def letter? : Parameter → Option Char
  | .text => some 's'
  | .verbose => some 'v'
  | .help => some 'h'
  | _ => none

def takesValue : Parameter → Bool
  | .verbose | .spans | .json | .help => false
  | _ => true

end Parameter

def digits? (cs : List Char) : Option Nat :=
  if cs.isEmpty || !cs.all Char.isDigit then none
  else some (cs.foldl (fun n c => 10 * n + (c.toNat - 48)) 0)

/-- A natural number up to a limit, which may have a plus sign. -/
def natural? (limit : Nat) (s : String) : Option Nat :=
  let value := match s.toList with
    | '+' :: cs => digits? cs
    | cs => digits? cs
  value.filter (· ≤ limit)

/-- A 32-bit number. Zero may have a minus sign. -/
def count? (s : String) : Option Nat :=
  match s.toList with
  | '-' :: cs => (digits? cs).filter (· = 0)
  | _ => natural? 4294967295 s

/-- A 64-bit number. -/
def place? (s : String) : Option Nat := natural? 18446744073709551615 s

/-- What has been given so far. -/
structure Settings where
  path : Option String := none
  text : Option String := none
  root : Option String := none
  fuel : Option Nat := none
  depth : Option Nat := none
  colour : Option ColourChoice := none
  verbose : Nat := 0
  spans : Bool := false
  json : Bool := false
  caret : Option Nat := none
  offset : Option Nat := none
  production : Option String := none
  deriving DecidableEq, Repr

namespace Settings

/-- Gives a value to a parameter that has none yet. -/
def once (old : Option α) (new : Option α) (otherwise : Refusal) : Except Refusal (Option α) :=
  match old, new with
  | some _, _ => .error .conflict
  | none, some value => .ok (some value)
  | none, none => .error otherwise

/-- Sets the value of a parameter. One other than the verbosity may be given once. -/
def setValue (s : Settings) (p : Parameter) (value : String) : Except Refusal Settings := do
  match p with
  | .path =>
    let path ← once s.path (if value.isEmpty then none else some value) .invalidValue
    pure { s with path }
  | .text => pure { s with text := ← once s.text (some value) .invalidValue }
  | .root => pure { s with root := ← once s.root (some value) .invalidValue }
  | .production => pure { s with production := ← once s.production (some value) .invalidValue }
  | .colour =>
    let colour ← once s.colour (ColourChoice.ofName? value) .invalidValue
    pure { s with colour }
  | .fuel => pure { s with fuel := ← once s.fuel (count? value) .malformedValue }
  | .depth => pure { s with depth := ← once s.depth (count? value) .malformedValue }
  | .caret => pure { s with caret := ← once s.caret (place? value) .malformedValue }
  | .offset => pure { s with offset := ← once s.offset (place? value) .malformedValue }
  | .verbose | .spans | .json | .help => .error .unneededValue

/-- Raises a flag. The verbosity can be raised again and again, up to a limit. -/
def raise (s : Settings) : Parameter → Except Refusal Settings
  | .verbose => .ok { s with verbose := min (s.verbose + 1) 255 }
  | .spans => if s.spans then .error .conflict else .ok { s with spans := true }
  | .json => if s.json then .error .conflict else .ok { s with json := true }
  | .help => .error .help
  | _ => .error .invalidValue

/-- Whether arguments exclude each other: a file and inline text, or two ways to
    give a caret. -/
def clash (s : Settings) : Bool :=
  (s.path.isSome && s.text.isSome) || (s.caret.isSome && s.offset.isSome)

end Settings

end SqlStatement.CommandLine

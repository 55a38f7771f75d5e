import SqlStatement.CommandLine.Reader
import SqlStatement.Parser

namespace SqlStatement.CommandLine

/-- The source that a command reads and the parser that it uses. -/
structure Input where
  path : Option String
  text : Option String
  root : Option String
  limits : Limits
  deriving DecidableEq, Repr

inductive Task where
  | check
  | tree (spans json : Bool)
  | complete (caret offset : Option Nat) (json : Bool)
  | trace
  deriving DecidableEq, Repr

inductive Subject where
  | input (task : Task) (input : Input)
  | grammar (production : Option String) (json : Bool)
  deriving DecidableEq, Repr

/-- What a command line asks for. -/
structure Request where
  subject : Subject
  colour : ColourChoice
  verbose : Nat
  deriving DecidableEq, Repr

inductive Command where
  | check
  | tree
  | complete
  | grammar
  | trace
  deriving DecidableEq, Repr

namespace Command

def name : Command → String
  | .check => "check"
  | .tree => "tree"
  | .complete => "complete"
  | .grammar => "grammar"
  | .trace => "trace"

def ofName? (s : String) : Option Command :=
  [.check, .tree, .complete, .grammar, .trace].find? (·.name == s)

/-- What each command accepts. All commands on statements accept the same options;
    each looks only at those that concern it. -/
def signature : Command → Signature
  | .grammar => ⟨[.json, .colour, .verbose, .help], [.production]⟩
  | _ =>
    ⟨[.text, .root, .fuel, .depth, .colour, .verbose, .spans, .json, .caret, .offset, .help],
      [.path]⟩

end Command

def Settings.input (s : Settings) : Input :=
  let usual : Limits := {}
  ⟨s.path, s.text, s.root, ⟨s.fuel.getD usual.fuel, s.depth.getD usual.depth⟩⟩

def Command.subject (c : Command) (s : Settings) : Subject :=
  match c with
  | .check => .input .check s.input
  | .tree => .input (.tree s.spans s.json) s.input
  | .complete => .input (.complete s.caret s.offset s.json) s.input
  | .trace => .input .trace s.input
  | .grammar => .grammar s.production s.json

def Command.request (c : Command) (arguments : List String) : Except Refusal Request := do
  let s ← c.signature.read arguments
  pure ⟨c.subject s, s.colour.getD .auto, s.verbose⟩

/-- Refuses a request for help. Only a command, or the word `help` alone, can follow
    `help`. -/
def helpOn : List String → Refusal
  | [] | ["help"] => .help
  | [name] => if (Command.ofName? name).isSome then .help else .unknownCommand
  | _ => .unknownCommand

/-- Refuses letters where a command is needed. Only the letter for help is known
    there. -/
def refuseLetters : List Char → Refusal
  | 'h' :: _ => .help
  | _ => .unknownArgument

/-- Refuses what stands behind two dashes in place of a command. -/
def refuseBehindTerminator : List String → Refusal
  | [] => .nothingGiven
  | argument :: _ =>
    if argument == "help" || (Command.ofName? argument).isSome then .unknownArgument
    else .unknownCommand

/-- What a command line without the program's name asks for. -/
def Request.ofArguments : List String → Except Refusal Request
  | [] => .error .nothingGiven
  | first :: rest =>
    match Command.ofName? first with
    | some c => c.request rest
    | none =>
      if first == "help" then .error (helpOn rest)
      else
        match Shape.ofArgument first with
        | .terminator => .error (refuseBehindTerminator rest)
        | .long "help" none => .error .help
        | .long "help" (some _) => .error .unneededValue
        | .long _ _ => .error .unknownArgument
        | .short letters => .error (refuseLetters letters)
        | .plain => .error .unknownCommand

end SqlStatement.CommandLine

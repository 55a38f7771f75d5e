import SqlStatement.CommandLine.Request
import SqlStatement.Completion.Export
import SqlStatement.Grammar.Export
import SqlStatement.Grammar.Listing
import SqlStatement.Grammar.Printed
import SqlStatement.Lexer
import SqlStatement.Log
import SqlStatement.Report
import SqlStatement.Sqlite
import SqlStatement.Trace

namespace SqlStatement.CommandLine

/-- What a run leaves behind. -/
structure Output where
  status : Nat
  stdout : String
  stderr : String
  deriving DecidableEq, Repr

inductive Origin where
  | stdin
  | file (path : String)
  deriving DecidableEq, Repr

inductive ReadFailure where
  | notText
  | noSuchFile
  | isDirectory
  | notDirectory
  | nameTooLong
  | other (reason : String)
  deriving DecidableEq, Repr

def ReadFailure.message : ReadFailure → String
  | .notText => "stream did not contain valid UTF-8"
  | .noSuchFile => "No such file or directory (os error 2)"
  | .isDirectory => "Is a directory (os error 21)"
  | .notDirectory => "Not a directory (os error 20)"
  | .nameTooLong => "File name too long (os error 36)"
  | .other reason => reason

def Origin.failure (f : ReadFailure) : Origin → String
  | .stdin => s!"failed to read stdin: {f.message}"
  | .file path => s!"failed to read '{path}': {f.message}"

def Origin.name : Origin → String
  | .stdin => "<stdin>"
  | .file path => path

def Input.origin? (i : Input) : Option Origin :=
  match i.text, i.path with
  | some _, _ => none
  | none, some "-" => some .stdin
  | none, some path => some (.file path)
  | none, none => none

/-- A source with the name that reports give to it. -/
structure Loaded where
  name : Option String
  text : String

/-- Reads the source of an input, or says why that is not possible. -/
def Input.load (i : Input) (read : Origin → Except ReadFailure ByteArray) :
    Except String Loaded :=
  match i.text, i.origin? with
  | some text, _ => .ok ⟨none, text⟩
  | none, none => .error "SQL is required: use a positional file, `-` for stdin, or -s/--sql"
  | none, some origin =>
    match read origin with
    | .error f => .error (origin.failure f)
    | .ok bytes =>
      match String.fromUTF8? bytes with
      | some text => .ok ⟨some origin.name, text⟩
      | none => .error (origin.failure .notText)

def Input.parser (i : Input) : Parser :=
  { grammar := Sqlite.grammar, root := i.root.getD Sqlite.grammar.root, limits := i.limits }

def success (stdout log : String) : Output := ⟨0, stdout, log⟩

def failure (stdout log message : String) : Output :=
  ⟨1, stdout, log ++ "error: " ++ message ++ "\n"⟩

/-- Failure of a parse. Errors of the input are reported on their source. -/
def parseFailure (stdout log : String) (s : Report.Setting) (tokens : List Token) (e : ParseError) :
    Output :=
  match Diagnostic.ofParseError e tokens with
  | [] => failure stdout log e.message
  | ds => ⟨1, stdout, log ++ Diagnostic.reports s ds ++ "\n"⟩

/-- Checks a script. It is silent about one without flaws. -/
def runCheck (p : Parser) (tokens : List Token) (s : Report.Setting) (log : String) : Output :=
  match Script.check p tokens with
  | .error e => failure "" log e.message
  | .ok ds =>
    let reports := if ds.isEmpty then "" else Diagnostic.reports s ds ++ "\n"
    ⟨if Diagnostic.any .error ds then 1 else 0, "", log ++ reports⟩

def runTree (p : Parser) (tokens : List Token) (s : Report.Setting) (log : String)
    (spans json : Bool) : Output :=
  match p.parse tokens with
  | .error e => parseFailure "" log s tokens e
  | .ok parsed =>
    if json then success (parsed.toJson.pretty ++ "\n") log
    else success (parsed.dump (.ofBool s.coloured) spans) log

def runTrace (p : Parser) (tokens : List Token) (s : Report.Setting) (log : String)
    (verbose : Bool) : Output :=
  let palette := Palette.ofBool s.coloured
  let steps := Trace.render verbose palette
    (p.run .reading tokens.toArray).record.events.toList
  match p.parse tokens with
  | .error e => parseFailure steps log s tokens e
  | .ok parsed =>
    success (steps ++ palette.paintDim "---" ++ "\n" ++ Trace.summary parsed ++ "\n") log

def runComplete (p : Parser) (tokens : List Token) (caret : Nat) (log : String)
    (coloured json : Bool) : Output :=
  match p.complete tokens caret with
  | .error e => failure "" log e.message
  | .ok c =>
    if json then
      success ((c.toJson (Completion.replaced? tokens caret)).pretty ++ "\n") log
    else success (c.list (.ofBool coloured)) log

def runTask (task : Task) (input : Input) (verbose : Nat) (coloured : Bool)
    (read : Origin → Except ReadFailure ByteArray) : Output :=
  match input.load read with
  | .error message => failure "" "" message
  | .ok loaded =>
    let p := input.parser
    let tokens := Lexer.lex loaded.text
    let s : Report.Setting := ⟨loaded.text, loaded.name, coloured⟩
    let log := Log.render verbose
    match task with
    | .check => runCheck p tokens s (log (Log.ofScript p tokens))
    | .tree spans json =>
      runTree p tokens s (log (Log.ofParse p tokens true (p.run .reading tokens.toArray)))
        spans json
    | .trace =>
      runTrace p tokens s (log (Log.ofParse p tokens false (p.run .reading tokens.toArray)))
        (verbose != 0)
    | .complete index offset json =>
      let caret := Completion.resolveCaret tokens index offset
      runComplete p tokens caret (log (Log.ofCompletion p tokens caret)) coloured json

def unknownProduction (name : String) : String :=
  let hint := match Sqlite.grammar.suggest name with
    | some suggestion => s!"\n\nDid you mean '{suggestion}'?"
    | none => ""
  s!"unknown production '{name}'" ++ hint ++ "\n\nRun 'sqlgram grammar' for the full list."

def runGrammar (production : Option String) (coloured json : Bool) : Output :=
  let g := Sqlite.grammar
  match production with
  | none =>
    if json then success (g.toJson.pretty ++ "\n") ""
    else success (g.list (.ofBool coloured)) ""
  | some name =>
    match g.find? name with
    | none => failure "" "" (unknownProduction name)
    | some p => success ((if json then p.toJson.pretty else p.print) ++ "\n") ""

/-- The answer to a request: an exit status and what is written to the two output
    streams. Failures are reported on the error stream with status one. -/
def Request.run (r : Request) (terminal : Bool) (read : Origin → Except ReadFailure ByteArray) :
    Output :=
  let coloured := r.colour.enabled terminal
  match r.subject with
  | .input task input => runTask task input r.verbose coloured read
  | .grammar production json => runGrammar production coloured json

def Request.origin? (r : Request) : Option Origin :=
  match r.subject with
  | .input _ input => input.origin?
  | .grammar _ _ => none

end SqlStatement.CommandLine

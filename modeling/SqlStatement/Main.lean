import SqlStatement.CommandLine.Run

namespace SqlStatement.CommandLine

def usage : String :=
  "Usage: sqlgram <COMMAND> [OPTIONS]

Commands:
  check     Check the statements of a script
  tree      Print the parse tree of a statement
  complete  List what may follow at a caret
  grammar   List the productions of the grammar, or show one
  trace     Print the steps of a parse
  help      Print this text

Options of the commands on statements:
  [FILE]                   The file to read, - for the standard input
  -s, --sql <TEXT>         The text to read
  --root <NAME>            The production to start from
  --fuel <N>               How many terms may be attempted
  --recursion-limit <N>    How many productions may be open at once
  --color <WHEN>           auto, always or never
  --spans                  Show ranges of tokens
  --json                   Print JSON
  --caret <INDEX>          The token to complete at
  --offset <BYTES>         The byte to complete at
  -v, --verbose            Log what the parser does, twice for each step
"

def Refusal.message : Refusal → String
  | .help | .nothingGiven => usage
  | .unknownCommand => "error: unrecognized command\n"
  | .unknownArgument => "error: unexpected argument\n"
  | .invalidValue => "error: a value is missing or not one of the possible values\n"
  | .malformedValue => "error: a value cannot be read\n"
  | .conflict => "error: arguments cannot be used together\n"
  | .unneededValue => "error: a flag takes no value\n"

def readFailure : IO.Error → ReadFailure
  | .noFileOrDirectory .. => .noSuchFile
  | .inappropriateType .. => .isDirectory
  | e => .other (toString e)

partial def readToEnd (s : IO.FS.Stream) (read : ByteArray) : IO ByteArray := do
  let more ← s.read 65536
  if more.isEmpty then pure read else readToEnd s (read ++ more)

def readOrigin (origin : Origin) : IO (Except ReadFailure ByteArray) := do
  try
    match origin with
    | .stdin => return .ok (← readToEnd (← IO.getStdin) ByteArray.empty)
    | .file path => return .ok (← IO.FS.readBinFile path)
  catch e => return .error (readFailure e)

def Output.write (o : Output) : IO UInt32 := do
  let stdout ← IO.getStdout
  stdout.putStr o.stdout
  stdout.flush
  (← IO.getStderr).putStr o.stderr
  return o.status.toUInt32

/-- Reads the arguments and the source that they name, and writes what the request
    is answered by. -/
def answer (arguments : List String) : IO UInt32 := do
  match Request.ofArguments arguments with
  | .error .help => Output.write ⟨0, usage, ""⟩
  | .error r => Output.write ⟨r.status, "", r.message⟩
  | .ok request =>
    let contents ← match request.origin? with
      | some origin => readOrigin origin
      | none => pure (.ok ByteArray.empty)
    let terminal := (← (← IO.getStdout).isTty) && (← (← IO.getStderr).isTty)
    (request.run terminal fun _ => contents).write

end SqlStatement.CommandLine

def main (arguments : List String) : IO UInt32 := SqlStatement.CommandLine.answer arguments

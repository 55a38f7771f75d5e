import SqlStatement.Report.Excerpt

namespace SqlStatement

namespace Report

/-- Where the source of a report comes from and how the report is shown. -/
structure Setting where
  source : String
  /-- The name of the source. -/
  path : Option String
  coloured : Bool

/-- The pieces of a text between line feeds. -/
def paragraphs (cs : List Char) : List (List Char) :=
  cs.foldr (fun c pieces =>
    if c == '\n' then [] :: pieces
    else
      match pieces with
      | [] => [[c]]
      | piece :: rest => (c :: piece) :: rest) [[]]

/-- The message behind its severity. Further lines of the message start below its
    first one. -/
def titleRows (d : Diagnostic) : List Row :=
  let severity := d.severity.text.toList
  let margin := Row.text .plain (List.replicate (severity.length + 2) ' ')
  match paragraphs (Text.visible d.message.toList) with
  | [] => []
  | first :: rest =>
    (Row.text .mark severity ++ Row.text .strong ([':', ' '] ++ first))
      :: rest.map (margin ++ Row.text .strong ·)

/-- The place of a region under the title. -/
def originRow (digits : Nat) (path : String) (r : Region) : Row :=
  Row.text .plain (List.replicate digits ' ') ++ Row.text .frame ['-', '-', '>', ' ']
    ++ Row.text .plain s!"{path}:{r.firstLine + 1}:{r.column + 1}".toList

def rows (s : Setting) (d : Diagnostic) : List Row :=
  let lines := sourceLines s.source
  let size := s.source.utf8ByteSize
  let span := markedSpan d.span size
  let r := region lines span
  let digits := (toString (lastNumber lines size span)).length
  let marked := markedLines lines r
  let l := layout digits d.kind.title marked
  titleRows d ++ (s.path.map (originRow digits · r)).toList ++ [l.emptyRow] ++ l.rows lines marked

end Report

/-- The report of a diagnostic shows its message and, under it, the part of the
    source that it is about. The title of its kind is the label of that part. -/
def Diagnostic.report (s : Report.Setting) (d : Diagnostic) : String :=
  "\n".intercalate ((Report.rows s d).map (·.render d.severity s.coloured))

def Diagnostic.reports (s : Report.Setting) (ds : List Diagnostic) : String :=
  "\n".intercalate (ds.map (Diagnostic.report s))

end SqlStatement

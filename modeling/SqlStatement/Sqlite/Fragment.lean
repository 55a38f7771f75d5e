import SqlStatement.Grammar.Vocabulary

namespace SqlStatement.Sqlite

open Grammar Grammar.Vocabulary

/-- Reserved words that a column type may also be made of. -/
def typeWords : List Keyword :=
  [.EXPLAIN, .QUERY, .PLAN, .BEGIN, .DEFERRED, .IMMEDIATE, .EXCLUSIVE, .END, .ROLLBACK,
   .SAVEPOINT, .RELEASE, .IF, .TEMP, .WITHOUT, .ABORT, .ACTION, .AFTER, .ANALYZE, .ASC,
   .ATTACH, .BEFORE, .BY, .CASCADE, .CAST, .COLUMN, .CONFLICT, .DATABASE, .DESC, .DETACH,
   .EACH, .FAIL, .FOR, .IGNORE, .INITIALLY, .INSTEAD, .LIKE, .MATCH, .NO, .KEY, .OF, .OFFSET,
   .PRAGMA, .RAISE, .RECURSIVE, .REPLACE, .RESTRICT, .ROW, .TRIGGER, .VACUUM, .VIEW, .VIRTUAL,
   .WITH, .REINDEX, .RENAME, .CURRENT_TIME, .AUTOINCREMENT, .DEFERRABLE]

def typeNameWords : List Token.Kind := typeWords.map .keyword

/-- A database in front of a name. -/
def schemaName : Term := opt [ident "database name", mark .dot]

def ifNotExists : Term := optAfter 1 [word .IF, word .NOT, word .EXISTS]

def ifExists : Term := optAfter 1 [word .IF, word .EXISTS]

def columnNames : List Term :=
  [mark .leftParen, commaList 1 [ident "column name"], mark .rightParen]

/-- Another name, with or without `AS`. -/
def aliased (description : String) : Term := opt [opt [word .AS], ident description]

/-- An order and a limit behind a change; the limit is mandatory. -/
def limitedTail : Term :=
  optAfter 2
    [opt [word .ORDER, word .BY, commaList 1 [rule "ordering-term"]], word .LIMIT, rule "expr",
     optAfter 1 [oneOf [word .OFFSET, mark .comma], rule "expr"]]

/-- What to do with a row that breaks a constraint. -/
def conflictResolution : Term :=
  oneOf [word .ROLLBACK, word .ABORT, word .FAIL, word .IGNORE, word .REPLACE]

def dropStatement (name : String) (object : Keyword) (description : String) : Production :=
  production name 2 [word .DROP, word object, ifExists, schemaName, ident description]

end SqlStatement.Sqlite

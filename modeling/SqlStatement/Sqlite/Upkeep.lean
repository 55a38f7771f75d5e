import SqlStatement.Sqlite.Fragment

namespace SqlStatement.Sqlite

open Grammar Grammar.Vocabulary

/-- `ANALYZE`, of everything or of what is named. -/
def analyzeStmt : Production :=
  production "analyze-stmt" 1
    [word .ANALYZE,
     opt
       [ident "database, table, or index name",
        optAfter 1 [mark .dot, ident "table or index name"]]]

/-- `ATTACH`: the file may be any expression. -/
def attachStmt : Production :=
  production "attach-stmt" 1
    [word .ATTACH, opt [word .DATABASE], rule "expr", word .AS, ident "database name"]

/-- `BEGIN`, with its locking mode. -/
def beginStmt : Production :=
  production "begin-stmt" 1
    [word .BEGIN, opt [oneOf [word .DEFERRED, word .IMMEDIATE, word .EXCLUSIVE]],
     opt [word .TRANSACTION]]

def commitStmt : Production :=
  production "commit-stmt" 1
    [oneOf [word .COMMIT, word .END], opt [word .TRANSACTION]]

/-- `ROLLBACK`, of all or back to a savepoint. -/
def rollbackStmt : Production :=
  production "rollback-stmt" 1
    [word .ROLLBACK, opt [word .TRANSACTION],
     optAfter 1 [word .TO, opt [word .SAVEPOINT], ident "savepoint name"]]

def savepointStmt : Production :=
  production "savepoint-stmt" 1
    [word .SAVEPOINT, ident "savepoint name"]

def releaseStmt : Production :=
  production "release-stmt" 1
    [word .RELEASE, opt [word .SAVEPOINT], ident "savepoint name"]

def detachStmt : Production :=
  production "detach-stmt" 1
    [word .DETACH, opt [word .DATABASE], ident "database name"]

def pragmaStmt : Production :=
  production "pragma-stmt" 1
    [word .PRAGMA, schemaName, ident "pragma name",
     opt
       [choice
          [seq 1 [mark .equal, rule "pragma-value"],
           seq 1 [mark .leftParen, rule "pragma-value", mark .rightParen]]]]

def pragmaValue : Production :=
  labelled "pragma-value" "pragma value" 1
    [oneOf
       [rule "signed-number", ident "name", quoted "string", word .ON, word .DELETE,
        word .DEFAULT]]

def reindexStmt : Production :=
  production "reindex-stmt" 1
    [word .REINDEX, opt [schemaName, ident "table, index, or collation name"]]

def vacuumStmt : Production := production "vacuum-stmt" 1 [word .VACUUM]

end SqlStatement.Sqlite

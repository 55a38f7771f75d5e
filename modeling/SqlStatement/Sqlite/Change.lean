import SqlStatement.Sqlite.Fragment

namespace SqlStatement.Sqlite

open Grammar Grammar.Vocabulary

def insertStmt : Production :=
  production "insert-stmt" 2
    [opt [rule "with-clause"],
     choice
       [seq 1 [word .INSERT, optAfter 1 [word .OR, conflictResolution]], seq 1 [word .REPLACE]],
     word .INTO, schemaName, ident "table name", opt columnNames,
     choice
       [seq 1
          [word .VALUES,
           commaList 1 [mark .leftParen, commaList 1 [rule "expr"], mark .rightParen]],
        seq 1 [rule "select-stmt"], seq 1 [word .DEFAULT, word .VALUES]]]

def updateStmt : Production :=
  production "update-stmt" 2
    [opt [rule "with-clause"], word .UPDATE, optAfter 1 [word .OR, conflictResolution],
     rule "qualified-table-name", word .SET,
     commaList 1 [ident "column name", mark .equal, rule "expr"],
     optAfter 1 [word .WHERE, rule "expr"], limitedTail]

def deleteStmt : Production :=
  production "delete-stmt" 2
    [opt [rule "with-clause"], word .DELETE, word .FROM, rule "qualified-table-name",
     optAfter 1 [word .WHERE, rule "expr"], limitedTail]

/-- The table that a change works on. -/
def qualifiedTableName : Production :=
  production "qualified-table-name" 2
    [breakpoint, schemaName, ident "table name",
     opt
       [choice
          [seq 1 [word .INDEXED, word .BY, ident "index name"], seq 1 [word .NOT, word .INDEXED]]]]

end SqlStatement.Sqlite

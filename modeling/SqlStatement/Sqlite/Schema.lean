import SqlStatement.Sqlite.Fragment

namespace SqlStatement.Sqlite

open Grammar Grammar.Vocabulary

/-- `ALTER TABLE`: a new name, or one more column. -/
def alterTableStmt : Production :=
  production "alter-table-stmt" 1
    [word .ALTER, word .TABLE, schemaName, ident "table name",
     choice
       [seq 1 [word .RENAME, word .TO, ident "new table name"],
        seq 1 [word .ADD, opt [word .COLUMN], rule "column-def"]]]

def createIndexStmt : Production :=
  production "create-index-stmt" 3
    [word .CREATE, opt [word .UNIQUE], word .INDEX, ifNotExists, schemaName, ident "index name",
     word .ON, ident "table name", mark .leftParen, commaList 1 [rule "indexed-column"],
     mark .rightParen, optAfter 1 [word .WHERE, rule "expr"]]

def indexedColumn : Production :=
  labelled "indexed-column" "indexed column" 1
    [oneOf [rule "expr", ident "column name"], optAfter 1 [word .COLLATE, ident "collation name"],
     opt [oneOf [word .ASC, word .DESC]]]

/-- `CREATE TABLE`, from definitions or from a query. Column definitions may follow
    table constraints. -/
def createTableStmt : Production :=
  production "create-table-stmt" 3
    [word .CREATE, opt [word .TEMP], word .TABLE, ifNotExists, schemaName, ident "table name",
     choice
       [seq 1
          [mark .leftParen, commaList 1 [oneOf [rule "table-constraint", rule "column-def"]],
           mark .rightParen, optAfter 1 [word .WITHOUT, literal "ROWID"]],
        seq 1 [word .AS, rule "select-stmt"]]]

def columnDef : Production :=
  labelled "column-def" "column definition" 1
    [ident "column name", opt [rule "type-name"], many 0 [rule "column-constraint"]]

/-- A column type: any words, some of them reserved elsewhere, and up to two sizes. -/
def typeName : Production :=
  labelled "type-name" "type name" 1
    [many 1 [oneOf [ident "data type", oneOfKinds typeNameWords]],
     opt
       [mark .leftParen, rule "signed-number", opt [mark .comma, rule "signed-number"],
        mark .rightParen]]

/-- A constraint on one column. Its name alone does not commit it. -/
def columnConstraint : Production :=
  labelled "column-constraint" "column constraint" 2
    [optAfter 1 [word .CONSTRAINT, ident "constraint name"],
     choice
       [seq 1
          [word .PRIMARY, word .KEY, opt [oneOf [word .ASC, word .DESC]], rule "conflict-clause",
           opt [word .AUTOINCREMENT]],
        seq 1 [word .NOT, word .NULL, rule "conflict-clause"],
        seq 1 [word .NULL, rule "conflict-clause"],
        seq 1 [word .UNIQUE, rule "conflict-clause"],
        seq 1 [word .CHECK, mark .leftParen, rule "expr", mark .rightParen],
        seq 1
          [word .DEFAULT,
           choice
             [seq 1 [rule "signed-number"], seq 1 [rule "literal-value"],
              seq 1 [mark .leftParen, rule "expr", mark .rightParen]]],
        seq 1 [word .COLLATE, ident "collation name"], seq 1 [rule "foreign-key-clause"]]]

def signedNumber : Production :=
  labelled "signed-number" "number" 2
    [opt [oneOf [mark .plus, mark .minus]], oneOf [kind .integer, kind .float]]

/-- A constraint on the whole table. Its name alone does not commit it. -/
def tableConstraint : Production :=
  labelled "table-constraint" "table constraint" 2
    [optAfter 1 [word .CONSTRAINT, ident "constraint name"],
     choice
       [seq 1
          [choice [seq 1 [word .PRIMARY, word .KEY], seq 1 [word .UNIQUE]], mark .leftParen,
           commaList 1 [rule "indexed-column"], mark .rightParen,
           rule "conflict-clause"],
        seq 1 [word .CHECK, mark .leftParen, rule "expr", mark .rightParen],
        seq 1
          [word .FOREIGN, word .KEY, mark .leftParen, commaList 1 [ident "column name"],
           mark .rightParen, rule "foreign-key-clause"]]]

/-- What a foreign key refers to, and what happens when that changes. -/
def foreignKeyClause : Production :=
  production "foreign-key-clause" 1
    [word .REFERENCES, ident "foreign table name", opt columnNames,
     many 0
       [choice
          [seq 1
             [word .ON, oneOf [word .DELETE, word .UPDATE],
              choice
                [seq 1 [word .SET, oneOf [word .NULL, word .DEFAULT]], seq 1 [word .CASCADE],
                 seq 1 [word .RESTRICT], seq 1 [word .NO, word .ACTION]]],
           seq 1 [word .MATCH, ident "match type"]]],
     opt
       [opt [word .NOT], word .DEFERRABLE,
        optAfter 1 [word .INITIALLY, oneOf [word .DEFERRED, word .IMMEDIATE]]]]

/-- What a violated constraint does. May be empty. -/
def conflictClause : Production :=
  production "conflict-clause" 1
    [optAfter 2 [word .ON, word .CONFLICT, conflictResolution]]

/-- `CREATE TRIGGER`. Each statement of the body ends with a semicolon. -/
def createTriggerStmt : Production :=
  production "create-trigger-stmt" 3
    [word .CREATE, opt [word .TEMP], word .TRIGGER, ifNotExists, schemaName, ident "trigger name",
     opt [choice [seq 1 [word .BEFORE], seq 1 [word .AFTER], seq 1 [word .INSTEAD, word .OF]]],
     choice
       [seq 1 [word .DELETE], seq 1 [word .INSERT],
        seq 1 [word .UPDATE, optAfter 1 [word .OF, commaList 1 [ident "column name"]]]],
     word .ON, ident "table name", optAfter 1 [word .FOR, word .EACH, word .ROW],
     optAfter 1 [word .WHEN, rule "expr"], word .BEGIN,
     many 1
       [oneOf [rule "update-stmt", rule "insert-stmt", rule "delete-stmt", rule "select-stmt"],
        mark .semicolon],
     word .END]

def createViewStmt : Production :=
  production "create-view-stmt" 3
    [word .CREATE, opt [word .TEMP], word .VIEW, ifNotExists, schemaName, ident "view name",
     optAfter 1 columnNames, word .AS, rule "select-stmt"]

def createVirtualTableStmt : Production :=
  production "create-virtual-table-stmt" 2
    [word .CREATE, word .VIRTUAL, word .TABLE, ifNotExists, schemaName, ident "table name",
     word .USING, ident "module name",
     optAfter 1 [mark .leftParen, commaList 1 [rule "expr"], mark .rightParen]]

def dropIndexStmt : Production := dropStatement "drop-index-stmt" .INDEX "index name"

def dropTableStmt : Production := dropStatement "drop-table-stmt" .TABLE "table name"

def dropTriggerStmt : Production := dropStatement "drop-trigger-stmt" .TRIGGER "trigger name"

def dropViewStmt : Production := dropStatement "drop-view-stmt" .VIEW "view name"

end SqlStatement.Sqlite

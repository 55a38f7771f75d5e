import SqlStatement.Sqlite.Fragment

namespace SqlStatement.Sqlite

open Grammar Grammar.Vocabulary

/-- A query. A `WITH` prefix alone does not commit it, since a change may follow. -/
def selectStmt : Production :=
  production "select-stmt" 2
    [optAfter 1 [word .WITH, opt [word .RECURSIVE], commaList 1 [rule "common-table-expression"]],
     listBy (rule "compound-operator") 1
       [choice
          [seq 1
             [word .SELECT, opt [oneOf [word .DISTINCT, word .ALL]],
              commaList 1 [rule "result-column"],
              optAfter 1 [word .FROM, rule "join-clause"],
              optAfter 1 [word .WHERE, rule "expr"],
              optAfter 1
                [word .GROUP, word .BY, commaList 1 [rule "expr"],
                 optAfter 1 [word .HAVING, rule "expr"]]],
           seq 1
             [word .VALUES,
              commaList 1 [mark .leftParen, commaList 1 [rule "expr"], mark .rightParen]]]],
     optAfter 1 [word .ORDER, word .BY, commaList 1 [rule "ordering-term"]],
     optAfter 1
       [word .LIMIT, rule "expr", optAfter 1 [oneOf [word .OFFSET, mark .comma], rule "expr"]]]

/-- Tables and their joins; a plain list is a chain of commas. -/
def joinClause : Production :=
  production "join-clause" 1
    [rule "table-or-subquery",
     many 0
       [choice [seq 1 [rule "join-operator", rule "table-or-subquery", rule "join-constraint"]]]]

def tableOrSubquery : Production :=
  labelled "table-or-subquery" "table or subquery" 1
    [breakpoint,
     choice
       [seq 3
          [schemaName, ident "table function name", mark .leftParen, commaList 0 [rule "expr"],
           mark .rightParen, aliased "table alias"],
        seq 2
          [schemaName, ident "table name", aliased "table alias",
           opt
             [choice
                [seq 1 [word .INDEXED, word .BY, ident "index name"],
                 seq 1 [word .NOT, word .INDEXED]]]],
        seq 2 [mark .leftParen, rule "select-stmt", mark .rightParen, aliased "table alias"],
        seq 1 [mark .leftParen, rule "join-clause", mark .rightParen]]]

def resultColumn : Production :=
  labelled "result-column" "result column" 1
    [breakpoint,
     choice
       [seq 1 [mark .star], seq 3 [ident "table name", mark .dot, mark .star],
        seq 1 [rule "expr", aliased "column alias"]]]

def joinOperator : Production :=
  production "join-operator" 1
    [choice
       [seq 1 [mark .comma],
        seq 1
          [opt [literal "NATURAL"],
           opt
             [choice
                [seq 1 [literal "LEFT", opt [literal "OUTER"]], seq 1 [literal "INNER"],
                 seq 1 [literal "CROSS"]]],
           word .JOIN]]]

/-- What a join matches on. May be empty. -/
def joinConstraint : Production :=
  production "join-constraint" 1
    [opt
       [choice
          [seq 1 [word .ON, rule "expr"],
           seq 1
             [word .USING, mark .leftParen, commaList 1 [ident "column name"], mark .rightParen]]]]

def orderingTerm : Production :=
  production "ordering-term" 1
    [rule "expr", optAfter 1 [word .COLLATE, ident "collation name"],
     opt [oneOf [word .ASC, word .DESC]]]

def compoundOperator : Production :=
  production "compound-operator" 1
    [choice [seq 1 [word .UNION, opt [word .ALL]], seq 1 [word .INTERSECT], seq 1 [word .EXCEPT]]]

/-- Common table expressions in front of a change. -/
def withClause : Production :=
  production "with-clause" 1
    [word .WITH, opt [word .RECURSIVE], commaList 1 [rule "common-table-expression"]]

/-- The name of a common table expression, with its columns. -/
def cteTableName : Production :=
  production "cte-table-name" 1
    [ident "table name", optAfter 1 columnNames]

/-- A named query. -/
def commonTableExpression : Production :=
  production "common-table-expression" 1
    [rule "cte-table-name", word .AS, mark .leftParen, rule "select-stmt", mark .rightParen]

end SqlStatement.Sqlite

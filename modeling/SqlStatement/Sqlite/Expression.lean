import SqlStatement.Sqlite.Fragment

namespace SqlStatement.Sqlite

open Grammar Grammar.Vocabulary

/-- Precedence is the shape of these productions: each tier of binary operators is a
    list of the next tighter tier, separated by the operators of its own. From loose
    to tight they are disjunction, conjunction, equality, order, bits, sums,
    products, concatenation, sign, complement and collation. -/
def expr : Production := labelled "expr" "expression" 1 [rule "or-expr"]

def orExpr : Production := production "or-expr" 1 [listBy (word .OR) 1 [rule "and-expr"]]

def andExpr : Production := production "and-expr" 1 [listBy (word .AND) 1 [rule "eq-expr"]]

/-- Comparisons for equality and the other tests of their tier, from left to right. -/
def eqExpr : Production :=
  production "eq-expr" 1
    [rule "ineq-expr",
     many 0
       [oneOf
          [rule "eq-expr-op", rule "eq-expr-is", rule "eq-expr-in", rule "eq-expr-like",
           rule "eq-expr-between"]]]

def eqExprOp : Production :=
  production "eq-expr-op" 1
    [oneOf [mark .equal, mark .notEqual], rule "ineq-expr"]

def eqExprIs : Production :=
  production "eq-expr-is" 1
    [choice
       [seq 1 [word .IS, opt [word .NOT], rule "ineq-expr"], seq 1 [word .ISNULL],
        seq 1 [word .NOTNULL], seq 2 [word .NOT, word .NULL]]]

def eqExprIn : Production :=
  production "eq-expr-in" 2
    [opt [word .NOT], word .IN,
     choice
       [seq 1
          [mark .leftParen, opt [oneOf [rule "select-stmt", commaList 1 [rule "expr"]]],
           mark .rightParen],
        seq 2 [schemaName, ident "table name"]]]

/-- Pattern tests, with an escape character. -/
def eqExprLike : Production :=
  production "eq-expr-like" 2
    [opt [word .NOT], oneOf [literal "LIKE", literal "GLOB", literal "REGEXP", literal "MATCH"],
     rule "ineq-expr", optAfter 1 [word .ESCAPE, rule "ineq-expr"]]

def eqExprBetween : Production :=
  production "eq-expr-between" 2
    [opt [word .NOT], word .BETWEEN, rule "ineq-expr", word .AND, rule "ineq-expr"]

def ineqExpr : Production :=
  production "ineq-expr" 1
    [listBy (oneOf [mark .less, mark .lessEqual, mark .greater, mark .greaterEqual]) 1
       [rule "bitwise-expr"]]

def bitwiseExpr : Production :=
  production "bitwise-expr" 1
    [listBy (oneOf [mark .shiftLeft, mark .shiftRight, mark .ampersand, mark .bar]) 1
       [rule "add-expr"]]

def addExpr : Production :=
  production "add-expr" 1
    [listBy (oneOf [mark .plus, mark .minus]) 1 [rule "mult-expr"]]

def multExpr : Production :=
  production "mult-expr" 1
    [listBy (oneOf [mark .star, mark .slash, mark .percent]) 1 [rule "concat-expr"]]

def concatExpr : Production :=
  production "concat-expr" 1
    [listBy (mark .concat) 1 [rule "unary-expr"]]

/-- One optional sign or negation. -/
def unaryExpr : Production :=
  production "unary-expr" 2
    [opt [oneOf [mark .minus, mark .plus, word .NOT]], rule "collate-expr"]

/-- One optional bit complement, and a collation. -/
def collateExpr : Production :=
  production "collate-expr" 2
    [opt [mark .tilde], rule "expr-term", optAfter 1 [word .COLLATE, ident "collation name"]]

/-- The tightest expressions. Qualified columns come longest first, so that `t.x` is
    not cut short at `t`, and a call comes before the bare column that starts like
    it. -/
def exprTerm : Production :=
  production "expr-term" 1
    [breakpoint,
     choice
       [seq 1 [rule "literal-value"], seq 1 [bind "variable name"],
        seq 4
          [ident "database name", mark .dot, ident "table name", mark .dot, ident "column name"],
        seq 2 [ident "table name", mark .dot, ident "column name"],
        seq 2
          [ident "function name", mark .leftParen,
           opt
             [choice [seq 1 [mark .star], seq 2 [opt [word .DISTINCT], commaList 1 [rule "expr"]]]],
           mark .rightParen],
        seq 1 [ident "column name"],
        seq 2
          [opt [opt [word .NOT], word .EXISTS], mark .leftParen, rule "select-stmt",
           mark .rightParen],
        seq 1 [mark .leftParen, rule "expr", mark .rightParen],
        seq 1
          [word .CAST, mark .leftParen, rule "expr", word .AS, rule "type-name", mark .rightParen],
        seq 1
          [word .CASE, opt [rule "expr"],
           many 1 [word .WHEN, rule "expr", word .THEN, rule "expr"],
           optAfter 1 [word .ELSE, rule "expr"], word .END],
        seq 1 [rule "raise-function"]]]

/-- `RAISE`, in the body of a trigger. -/
def raiseFunction : Production :=
  production "raise-function" 1
    [word .RAISE, mark .leftParen,
     choice
       [seq 1 [word .IGNORE],
        seq 1
          [oneOf [word .ROLLBACK, word .ABORT, word .FAIL], mark .comma, quoted "error message"]],
     mark .rightParen]

def literalValue : Production :=
  labelled "literal-value" "literal value" 1
    [oneOf
       [kind .integer, kind .float, kind .string, kind .blob, word .NULL, literal "CURRENT_TIME",
        literal "CURRENT_DATE", literal "CURRENT_TIMESTAMP"]]

end SqlStatement.Sqlite

import SqlStatement.Sqlite.Expression
import SqlStatement.Sqlite.Query
import SqlStatement.Sqlite.Change
import SqlStatement.Sqlite.Schema
import SqlStatement.Sqlite.Upkeep

namespace SqlStatement.Sqlite

open Grammar Grammar.Vocabulary

/-- A statement, possibly under `EXPLAIN`. `EXPLAIN` alone does not commit it. -/
def sqlStmt : Production :=
  production "sql-stmt" 2
    [optAfter 1 [word .EXPLAIN, optAfter 1 [word .QUERY, word .PLAN]],
     oneOf
       [rule "select-stmt", rule "update-stmt", rule "insert-stmt", rule "alter-table-stmt",
        rule "analyze-stmt", rule "attach-stmt", rule "begin-stmt", rule "commit-stmt",
        rule "create-index-stmt", rule "create-table-stmt", rule "create-trigger-stmt",
        rule "create-view-stmt", rule "create-virtual-table-stmt", rule "delete-stmt",
        rule "detach-stmt", rule "drop-index-stmt", rule "drop-table-stmt",
        rule "drop-trigger-stmt", rule "drop-view-stmt", rule "pragma-stmt",
        rule "reindex-stmt", rule "release-stmt", rule "rollback-stmt",
        rule "savepoint-stmt", rule "vacuum-stmt"]]

def productions : List Production :=
  [sqlStmt, alterTableStmt, analyzeStmt, attachStmt, beginStmt, commitStmt, rollbackStmt,
   savepointStmt, releaseStmt, createIndexStmt, indexedColumn, createTableStmt, columnDef,
   typeName, columnConstraint, signedNumber, tableConstraint, foreignKeyClause, conflictClause,
   createTriggerStmt, createViewStmt, createVirtualTableStmt, withClause, cteTableName,
   commonTableExpression, deleteStmt, detachStmt, dropIndexStmt, dropTableStmt, dropTriggerStmt,
   dropViewStmt, expr, orExpr, andExpr, eqExpr, eqExprOp, eqExprIs, eqExprIn, eqExprLike,
   eqExprBetween, ineqExpr, bitwiseExpr, addExpr, multExpr, concatExpr, unaryExpr, collateExpr,
   exprTerm, raiseFunction, literalValue, insertStmt, pragmaStmt, pragmaValue, reindexStmt,
   selectStmt, joinClause, tableOrSubquery, resultColumn, joinOperator, joinConstraint,
   orderingTerm, compoundOperator, updateStmt, qualifiedTableName, vacuumStmt]

/-- The grammar table of SQLite statements. Within an alternation the order of the
    candidates is what tells readings apart. -/
def grammar : Grammar := ⟨"sqlite", "sql-stmt", productions⟩

end SqlStatement.Sqlite

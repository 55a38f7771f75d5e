import SqlStatement.Text.Case

namespace SqlStatement

/-- Reserved words of the dialect, spelled as SQL spells them and in the order in
    which sets of token kinds list them. Words that the grammar never tells apart
    share one keyword. -/
inductive Keyword where
  | ABORT | ACTION | ADD | AFTER | ALL | ALTER | ANALYZE | AND | AS | ASC | ATTACH | AUTOINCREMENT
  | BEFORE | BEGIN | BETWEEN | BY | CASCADE | CASE | CAST | CHECK | COLLATE | COLUMN | COMMIT
  | CONFLICT | CONSTRAINT | CREATE | CURRENT_TIME | DATABASE | DEFAULT | DEFERRABLE | DEFERRED
  | DELETE | DESC | DETACH | DISTINCT | DROP | EACH | ELSE | END | ESCAPE | EXCEPT | EXCLUSIVE
  | EXISTS | EXPLAIN | FAIL | FOR | FOREIGN | FROM | GROUP | HAVING | IF | IGNORE | IMMEDIATE | IN
  | INDEX | INDEXED | INITIALLY | INSERT | INSTEAD | INTERSECT | INTO | IS | ISNULL | JOIN
  | NATURAL | KEY | LIKE | LIMIT | MATCH | NO | NOT | NOTNULL | NULL | OF | OFFSET | ON | OR
  | ORDER | PLAN | PRAGMA | PRIMARY | QUERY | RAISE | RECURSIVE | REFERENCES | REINDEX | RELEASE
  | RENAME | REPLACE | RESTRICT | ROLLBACK | ROW | SAVEPOINT | SELECT | SET | TABLE | TEMP | THEN
  | TO | TRANSACTION | TRIGGER | UNION | UNIQUE | UPDATE | USING | VACUUM | VALUES | VIEW | VIRTUAL
  | WHEN | WHERE | WITH | WITHOUT
  deriving DecidableEq, Repr

namespace Keyword

/-- How a reserved word is written. The first spelling of a keyword stands for all
    of them. -/
structure Entry where
  /-- The name that exported grammar tables use. -/
  name : String
  /-- The spelling that messages and suggestions show. -/
  spelling : String
  /-- Further words that read as the same keyword. -/
  synonyms : List String := []

/-- The table of reserved words. -/
def entry : Keyword → Entry
  | .ABORT => ⟨"Abort", "ABORT", []⟩
  | .ACTION => ⟨"Action", "ACTION", []⟩
  | .ADD => ⟨"Add", "ADD", []⟩
  | .AFTER => ⟨"After", "AFTER", []⟩
  | .ALL => ⟨"All", "ALL", []⟩
  | .ALTER => ⟨"Alter", "ALTER", []⟩
  | .ANALYZE => ⟨"Analyze", "ANALYZE", []⟩
  | .AND => ⟨"And", "AND", []⟩
  | .AS => ⟨"As", "AS", []⟩
  | .ASC => ⟨"Asc", "ASC", []⟩
  | .ATTACH => ⟨"Attach", "ATTACH", []⟩
  | .AUTOINCREMENT => ⟨"Autoincr", "AUTOINCREMENT", []⟩
  | .BEFORE => ⟨"Before", "BEFORE", []⟩
  | .BEGIN => ⟨"Begin", "BEGIN", []⟩
  | .BETWEEN => ⟨"Between", "BETWEEN", []⟩
  | .BY => ⟨"By", "BY", []⟩
  | .CASCADE => ⟨"Cascade", "CASCADE", []⟩
  | .CASE => ⟨"Case", "CASE", []⟩
  | .CAST => ⟨"Cast", "CAST", []⟩
  | .CHECK => ⟨"Check", "CHECK", []⟩
  | .COLLATE => ⟨"Collate", "COLLATE", []⟩
  | .COLUMN => ⟨"ColumnKw", "COLUMN", []⟩
  | .COMMIT => ⟨"Commit", "COMMIT", []⟩
  | .CONFLICT => ⟨"Conflict", "CONFLICT", []⟩
  | .CONSTRAINT => ⟨"Constraint", "CONSTRAINT", []⟩
  | .CREATE => ⟨"Create", "CREATE", []⟩
  | .CURRENT_TIME => ⟨"CtimeKw", "CURRENT_TIME", ["CURRENT_DATE", "CURRENT_TIMESTAMP"]⟩
  | .DATABASE => ⟨"Database", "DATABASE", []⟩
  | .DEFAULT => ⟨"Default", "DEFAULT", []⟩
  | .DEFERRABLE => ⟨"Deferrable", "DEFERRABLE", []⟩
  | .DEFERRED => ⟨"Deferred", "DEFERRED", []⟩
  | .DELETE => ⟨"Delete", "DELETE", []⟩
  | .DESC => ⟨"Desc", "DESC", []⟩
  | .DETACH => ⟨"Detach", "DETACH", []⟩
  | .DISTINCT => ⟨"Distinct", "DISTINCT", []⟩
  | .DROP => ⟨"Drop", "DROP", []⟩
  | .EACH => ⟨"Each", "EACH", []⟩
  | .ELSE => ⟨"Else", "ELSE", []⟩
  | .END => ⟨"End", "END", []⟩
  | .ESCAPE => ⟨"Escape", "ESCAPE", []⟩
  | .EXCEPT => ⟨"Except", "EXCEPT", []⟩
  | .EXCLUSIVE => ⟨"Exclusive", "EXCLUSIVE", []⟩
  | .EXISTS => ⟨"Exists", "EXISTS", []⟩
  | .EXPLAIN => ⟨"Explain", "EXPLAIN", []⟩
  | .FAIL => ⟨"Fail", "FAIL", []⟩
  | .FOR => ⟨"For", "FOR", []⟩
  | .FOREIGN => ⟨"Foreign", "FOREIGN", []⟩
  | .FROM => ⟨"From", "FROM", []⟩
  | .GROUP => ⟨"Group", "GROUP", []⟩
  | .HAVING => ⟨"Having", "HAVING", []⟩
  | .IF => ⟨"If", "IF", []⟩
  | .IGNORE => ⟨"Ignore", "IGNORE", []⟩
  | .IMMEDIATE => ⟨"Immediate", "IMMEDIATE", []⟩
  | .IN => ⟨"In", "IN", []⟩
  | .INDEX => ⟨"Index", "INDEX", []⟩
  | .INDEXED => ⟨"Indexed", "INDEXED", []⟩
  | .INITIALLY => ⟨"Initially", "INITIALLY", []⟩
  | .INSERT => ⟨"Insert", "INSERT", []⟩
  | .INSTEAD => ⟨"Instead", "INSTEAD", []⟩
  | .INTERSECT => ⟨"Intersect", "INTERSECT", []⟩
  | .INTO => ⟨"Into", "INTO", []⟩
  | .IS => ⟨"Is", "IS", []⟩
  | .ISNULL => ⟨"IsNull", "ISNULL", []⟩
  | .JOIN => ⟨"Join", "JOIN", []⟩
  | .NATURAL => ⟨"JoinKw", "NATURAL", ["LEFT", "RIGHT", "FULL", "OUTER", "INNER", "CROSS"]⟩
  | .KEY => ⟨"Key", "KEY", []⟩
  | .LIKE => ⟨"LikeKw", "LIKE", ["GLOB", "REGEXP"]⟩
  | .LIMIT => ⟨"Limit", "LIMIT", []⟩
  | .MATCH => ⟨"Match", "MATCH", []⟩
  | .NO => ⟨"No", "NO", []⟩
  | .NOT => ⟨"Not", "NOT", []⟩
  | .NOTNULL => ⟨"NotNull", "NOTNULL", []⟩
  | .NULL => ⟨"Null", "NULL", []⟩
  | .OF => ⟨"Of", "OF", []⟩
  | .OFFSET => ⟨"Offset", "OFFSET", []⟩
  | .ON => ⟨"On", "ON", []⟩
  | .OR => ⟨"Or", "OR", []⟩
  | .ORDER => ⟨"Order", "ORDER", []⟩
  | .PLAN => ⟨"Plan", "PLAN", []⟩
  | .PRAGMA => ⟨"Pragma", "PRAGMA", []⟩
  | .PRIMARY => ⟨"Primary", "PRIMARY", []⟩
  | .QUERY => ⟨"Query", "QUERY", []⟩
  | .RAISE => ⟨"Raise", "RAISE", []⟩
  | .RECURSIVE => ⟨"Recursive", "RECURSIVE", []⟩
  | .REFERENCES => ⟨"References", "REFERENCES", []⟩
  | .REINDEX => ⟨"Reindex", "REINDEX", []⟩
  | .RELEASE => ⟨"Release", "RELEASE", []⟩
  | .RENAME => ⟨"Rename", "RENAME", []⟩
  | .REPLACE => ⟨"Replace", "REPLACE", []⟩
  | .RESTRICT => ⟨"Restrict", "RESTRICT", []⟩
  | .ROLLBACK => ⟨"Rollback", "ROLLBACK", []⟩
  | .ROW => ⟨"Row", "ROW", []⟩
  | .SAVEPOINT => ⟨"Savepoint", "SAVEPOINT", []⟩
  | .SELECT => ⟨"Select", "SELECT", []⟩
  | .SET => ⟨"Set", "SET", []⟩
  | .TABLE => ⟨"Table", "TABLE", []⟩
  | .TEMP => ⟨"Temp", "TEMP", ["TEMPORARY"]⟩
  | .THEN => ⟨"Then", "THEN", []⟩
  | .TO => ⟨"To", "TO", []⟩
  | .TRANSACTION => ⟨"Transaction", "TRANSACTION", []⟩
  | .TRIGGER => ⟨"Trigger", "TRIGGER", []⟩
  | .UNION => ⟨"Union", "UNION", []⟩
  | .UNIQUE => ⟨"Unique", "UNIQUE", []⟩
  | .UPDATE => ⟨"Update", "UPDATE", []⟩
  | .USING => ⟨"Using", "USING", []⟩
  | .VACUUM => ⟨"Vacuum", "VACUUM", []⟩
  | .VALUES => ⟨"Values", "VALUES", []⟩
  | .VIEW => ⟨"View", "VIEW", []⟩
  | .VIRTUAL => ⟨"Virtual", "VIRTUAL", []⟩
  | .WHEN => ⟨"When", "WHEN", []⟩
  | .WHERE => ⟨"Where", "WHERE", []⟩
  | .WITH => ⟨"With", "WITH", []⟩
  | .WITHOUT => ⟨"Without", "WITHOUT", []⟩

def name (k : Keyword) : String := k.entry.name

def spelling (k : Keyword) : String := k.entry.spelling

/-- Every spelling that reads as `k`. -/
def spellings (k : Keyword) : List String := k.entry.spelling :: k.entry.synonyms

/-- All keywords, in the order of their numbers. -/
def all : List Keyword :=
  [.ABORT, .ACTION, .ADD, .AFTER, .ALL, .ALTER, .ANALYZE, .AND, .AS, .ASC, .ATTACH, .AUTOINCREMENT,
   .BEFORE, .BEGIN, .BETWEEN, .BY, .CASCADE, .CASE, .CAST, .CHECK, .COLLATE, .COLUMN, .COMMIT,
   .CONFLICT, .CONSTRAINT, .CREATE, .CURRENT_TIME, .DATABASE, .DEFAULT, .DEFERRABLE, .DEFERRED,
   .DELETE, .DESC, .DETACH, .DISTINCT, .DROP, .EACH, .ELSE, .END, .ESCAPE, .EXCEPT, .EXCLUSIVE,
   .EXISTS, .EXPLAIN, .FAIL, .FOR, .FOREIGN, .FROM, .GROUP, .HAVING, .IF, .IGNORE, .IMMEDIATE, .IN,
   .INDEX, .INDEXED, .INITIALLY, .INSERT, .INSTEAD, .INTERSECT, .INTO, .IS, .ISNULL, .JOIN,
   .NATURAL, .KEY, .LIKE, .LIMIT, .MATCH, .NO, .NOT, .NOTNULL, .NULL, .OF, .OFFSET, .ON, .OR,
   .ORDER, .PLAN, .PRAGMA, .PRIMARY, .QUERY, .RAISE, .RECURSIVE, .REFERENCES, .REINDEX, .RELEASE,
   .RENAME, .REPLACE, .RESTRICT, .ROLLBACK, .ROW, .SAVEPOINT, .SELECT, .SET, .TABLE, .TEMP, .THEN,
   .TO, .TRANSACTION, .TRIGGER, .UNION, .UNIQUE, .UPDATE, .USING, .VACUUM, .VALUES, .VIEW, .VIRTUAL,
   .WHEN, .WHERE, .WITH, .WITHOUT]
/-- The keyword that a bare word reads as, if it is reserved. The case of its
    letters does not matter. -/
def ofWord? (word : String) : Option Keyword :=
  let folded := Text.upper word
  all.find? fun k => k.spellings.contains folded

/-- The number of a keyword, counted from the first one. -/
def index (k : Keyword) : Nat := k.ctorIdx

/-- A word is reserved by its letters without their case, so two spellings that
    differ in case only are the same keyword or none. -/
theorem ofWord?_congr {a b : String} (hsame : Text.upper a = Text.upper b) :
    ofWord? a = ofWord? b := by
  simp [ofWord?, hsame]

end Keyword

end SqlStatement

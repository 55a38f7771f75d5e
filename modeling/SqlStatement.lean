import SqlStatement.Main
import SqlStatement.Grammar.Defect
import SqlStatement.Session
import SqlStatement.Proofs.Match.Discipline
import SqlStatement.Proofs.Match.Run
import SqlStatement.Proofs.Match.Bounds
import SqlStatement.Proofs.Match.Fuel
import SqlStatement.Proofs.Match.Blame
import SqlStatement.Proofs.Completion.Lockstep
import SqlStatement.Proofs.Completion.Exact
import SqlStatement.Proofs.Completion.Condenses
import SqlStatement.Proofs.Completion.Summary
import SqlStatement.Proofs.Completion.Agreement
import SqlStatement.Proofs.Completion.Truncation
import SqlStatement.Proofs.Grammar.Derivation
import SqlStatement.Proofs.Grammar.Parts
import SqlStatement.Proofs.Grammar.Nullable
import SqlStatement.Proofs.Match.Ensures
import SqlStatement.Proofs.Match.Soundness
import SqlStatement.Proofs.Tree.Tiling
import SqlStatement.Proofs.Machine.Store
import SqlStatement.Proofs.Machine.Table
import SqlStatement.Proofs.Machine.Follows
import SqlStatement.Proofs.Machine.Simulation
import SqlStatement.Proofs.Machine.Refinement
import SqlStatement.Proofs.Machine.Rollback
import SqlStatement.Proofs.Machine.Balance
import SqlStatement.Proofs.Match.Stops
import SqlStatement.Proofs.Match.Nesting
import SqlStatement.Proofs.Match.Cancellation
import SqlStatement.Proofs.Grammar.Built
import SqlStatement.Proofs.Match.Settles
import SqlStatement.Proofs.Match.Walk
import SqlStatement.Proofs.Match.Forecast
import SqlStatement.Proofs.Match.Foreseen
import SqlStatement.Proofs.Match.Scene
import SqlStatement.Proofs.Match.Reads
import SqlStatement.Proofs.Tree.Compact
import SqlStatement.Proofs.Lexer.Spelling
import SqlStatement.Proofs.Sqlite.Chain
import SqlStatement.Proofs.Sqlite.Placed
import SqlStatement.Proofs.Sqlite.Precedence
import SqlStatement.Proofs.Diagnostic.WellFormed
import SqlStatement.Proofs.Sqlite.Terminator
import SqlStatement.Proofs.Script.Segments
import SqlStatement.Proofs.Script.Compose
import SqlStatement.Proofs.Lexer.Case
import SqlStatement.Proofs.Match.Outline
import SqlStatement.Proofs.Match.Blind
import SqlStatement.Proofs.Match.Heeds
import SqlStatement.Proofs.Machine.Independence
import SqlStatement.Proofs.Lexer.Pattern
import SqlStatement.Proofs.Lexer.Munch
import SqlStatement.Proofs.Lexer.Longest
import SqlStatement.Proofs.Lexer.Lossless
import SqlStatement.Proofs.Sqlite.Legal
import SqlStatement.Proofs.Sqlite.Parentheses
import SqlStatement.Proofs.Script.Caseless
import SqlStatement.Proofs.Lexer.Relex
import SqlStatement.Proofs.Sqlite.Relexed
import SqlStatement.Proofs.Lexer.Comment
import SqlStatement.Proofs.Completion.Replacement
import SqlStatement.Proofs.Diagnostic.Marked
import SqlStatement.Proofs.Grammar.Leading
import SqlStatement.Proofs.Match.Shallow
import SqlStatement.Proofs.Match.Bracketed
import SqlStatement.Proofs.Match.Traced
import SqlStatement.Proofs.Machine.Choice
import SqlStatement.Proofs.Machine.Commitment
import SqlStatement.Proofs.Completion.Contexts
import SqlStatement.Proofs.Machine.Checker
import SqlStatement.Proofs.Grammar.Blamed
import SqlStatement.Proofs.Tree.Places
import SqlStatement.Proofs.Tree.Queries
import SqlStatement.Proofs.Json.Reading
import SqlStatement.Proofs.Tree.Exported
import SqlStatement.Proofs.Tree.Grouping
import SqlStatement.Proofs.Token.Members

import SqlStatement.Grammar

namespace SqlStatement.Grammar.Vocabulary

open Token (Kind)

/-- Short names for terms, so that a table reads like the statements it describes. -/
def seq (commit : Nat) (terms : List Term) : Sequence := ⟨terms, commit⟩

def kind (k : Kind) : Term := .leaf (.kind k)

def word (k : Keyword) : Term := kind (.keyword k)

def mark (s : Symbol) : Term := kind (.symbol s)

def literal (text : String) : Term := .leaf (.literal text)

def oneOfKinds (kinds : List Kind) : Term := .leaf (.oneOf (.ofList kinds))

def ident (description : String) : Term := .leaf (.identifier description false)

def bind (description : String) : Term := .leaf (.identifier description true)

def quoted (description : String) : Term := .leaf (.stringLiteral description)

def rule (name : String) : Term := .production name

/-- A place where completion reports its context. -/
def breakpoint : Term := .breakpoint

/-- An optional group that commits after `commit` matched terms. -/
def optAfter (commit : Nat) (terms : List Term) : Term := .optional (seq commit terms)

/-- An optional group that commits when it is complete. -/
def opt (terms : List Term) : Term := optAfter terms.length terms

/-- Candidates tried in order. -/
def choice (candidates : List Sequence) : Term := .alternation candidates

/-- Single terms tried in order. -/
def oneOf (terms : List Term) : Term := choice (terms.map fun t => seq 1 [t])

/-- Items that commit once they are complete. -/
def many (least : Nat) (item : List Term) : Term :=
  .repetition (seq item.length item) none least

def listBy (separator : Term) (least : Nat) (item : List Term) : Term :=
  .repetition (seq item.length item) (some (seq 1 [separator])) least

def commaList (least : Nat) (item : List Term) : Term := listBy (mark .comma) least item

/-- A production without a label. -/
def production (name : String) (commit : Nat) (terms : List Term) : Production :=
  ⟨name, none, seq commit terms⟩

/-- A production that messages call by its label when it fails at its first token. -/
def labelled (name label : String) (commit : Nat) (terms : List Term) : Production :=
  ⟨name, some label, seq commit terms⟩

end SqlStatement.Grammar.Vocabulary

import SqlStatement.Grammar.Defect

namespace SqlStatement.Grammar

/-- A check that keeps one path to where it is, to which each visit adds a step that
    it takes away when it is left, and may find a flaw. -/
abbrev Check := List Step → Option Flaw × List Step

namespace Check

/-- Finds nothing. -/
def pass : Check := fun path => (none, path)

/-- A fault at the place itself is found there. -/
def blame (fault : Fault) : Check := fun path => (some ⟨path, fault⟩, path)

/-- The flaw of two checks in order is the first one's, or else the second one's. -/
def next (first second : Check) : Check := fun path =>
  match first path with
  | (some flaw, path) => (some flaw, path)
  | (none, path) => second path

/-- A check one step below finds the flaw with this step in front, and takes the
    step away again. -/
def nested (step : Step) (check : Check) : Check := fun path =>
  let (flaw, path) := check (path ++ [step])
  (flaw, path.dropLast)

end Check

mutual

/-- The check of a term, in the order in which the table is gone over. -/
def Term.check (defined : String → Bool) : Term → Check
  | .leaf (.oneOf kinds) => if kinds.isEmpty then .blame .emptyKindSet else .pass
  | .leaf _ => .pass
  | .production name => if defined name then .pass else .blame (.unresolved name)
  | .optional body => .nested .optional (body.check defined)
  | .alternation [] => .blame .emptyAlternation
  | .alternation (c :: cs) => checkCandidates defined 0 (c :: cs)
  | .repetition item none _ => .nested .item (item.check defined)
  | .repetition item (some separator) _ =>
    .next (.nested .item (item.check defined)) (.nested .separator (separator.check defined))
  | .breakpoint => .pass
  termination_by structural t => t

/-- The check of a sequence. Its own faults come before those of its terms. -/
def Sequence.check (defined : String → Bool) : Sequence → Check
  | ⟨[], _⟩ => .blame .emptySequence
  | ⟨t :: ts, commit⟩ =>
    if commit > (t :: ts).length then .blame (.commitOutOfRange commit (t :: ts).length)
    else checkTerms defined 0 (t :: ts)
  termination_by structural s => s

def checkTerms (defined : String → Bool) (index : Nat) : List Term → Check
  | [] => .pass
  | t :: ts => .next (.nested (.term index) (t.check defined)) (checkTerms defined (index + 1) ts)
  termination_by structural ts => ts

def checkCandidates (defined : String → Bool) (index : Nat) : List Sequence → Check
  | [] => .pass
  | c :: cs =>
    .next (.nested (.candidate index) (c.check defined)) (checkCandidates defined (index + 1) cs)
  termination_by structural cs => cs

end

/-- The flaw as the checker finds it that has come along a path. -/
def Flaw.along (path : List Step) (flaw : Flaw) : Flaw := ⟨path ++ flaw.steps, flaw.fault⟩

/-- The check finds the flaw, if there is one, behind the path, and leaves the path
    as it was. -/
def Check.Finds (check : Check) (flaw? : Option Flaw) : Prop :=
  ∀ path, check path = (flaw?.map (Flaw.along path), path)

namespace Check.Finds

variable {check first second : Check} {flaw? a? b? : Option Flaw}

theorem pass : Check.pass.Finds none := fun _ => rfl

theorem blame (fault : Fault) : (Check.blame fault).Finds (some ⟨[], fault⟩) := fun path => by
  simp [Check.blame, Flaw.along]

theorem next (hfirst : first.Finds a?) (hsecond : second.Finds b?) :
    (first.next second).Finds (a?.or b?) := fun path => by
  rw [Check.next, hfirst path]
  cases a? with
  | none => exact hsecond path
  | some flaw => rfl

theorem nested (step : Step) (h : check.Finds flaw?) :
    (Check.nested step check).Finds (flaw?.map (Flaw.under step)) := fun path => by
  rw [Check.nested, h (path ++ [step])]
  cases flaw? <;> simp [Flaw.along, Flaw.under]

end Check.Finds

section

variable (defined : String → Bool)

mutual

/-- The check of a term finds its first flaw with the path that leads to it, and
    leaves the path as it was. -/
theorem Term.check_finds : ∀ t : Term, (t.check defined).Finds (t.flaw? defined)
  | .leaf (.oneOf kinds) => by
    rw [Term.check, Term.flaw?]
    split
    · exact .blame _
    · exact .pass
  | .leaf (.kind _) | .leaf (.literal _) | .leaf (.identifier _ _) | .leaf (.stringLiteral _) =>
    .pass
  | .production name => by
    rw [Term.check, Term.flaw?]
    split
    · exact .pass
    · exact .blame _
  | .optional body => .nested _ body.check_finds
  | .alternation [] => .blame _
  | .alternation (c :: cs) => checkCandidates_finds (c :: cs) 0
  | .repetition item none _ => .nested _ item.check_finds
  | .repetition item (some separator) _ =>
    .next (.nested _ item.check_finds) (.nested _ separator.check_finds)
  | .breakpoint => .pass

/-- The same for a sequence. -/
theorem Sequence.check_finds : ∀ s : Sequence, (s.check defined).Finds (s.flaw? defined)
  | ⟨[], _⟩ => .blame _
  | ⟨t :: ts, commit⟩ => by
    rw [Sequence.check, Sequence.flaw?]
    split
    · exact .blame _
    · exact checkTerms_finds (t :: ts) 0

theorem checkTerms_finds : ∀ (ts : List Term) (index : Nat),
    (checkTerms defined index ts).Finds (termsFlaw? defined index ts)
  | [], _ => .pass
  | t :: ts, index => .next (.nested _ t.check_finds) (checkTerms_finds ts (index + 1))

theorem checkCandidates_finds : ∀ (cs : List Sequence) (index : Nat),
    (checkCandidates defined index cs).Finds (candidatesFlaw? defined index cs)
  | [], _ => .pass
  | c :: cs, index => .next (.nested _ c.check_finds) (checkCandidates_finds cs (index + 1))

end

end

end SqlStatement.Grammar

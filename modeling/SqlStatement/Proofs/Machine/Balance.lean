import Mathlib.Data.List.Forall2
import SqlStatement.Proofs.Machine.Table

namespace SqlStatement

/-- As many productions are counted as are open, and no more than may be. -/
def Store.Balanced (k : Setting) (σ : Store) : Prop :=
  σ.stack.length = σ.depth ∧ σ.depth ≤ k.limit

instance (k : Setting) (σ : Store) : Decidable (σ.Balanced k) :=
  inferInstanceAs (Decidable (_ ∧ _))

namespace Machine

variable {α β : Type}

/-- A machine that runs as one which is not guarded may be guarded as well. -/
def guarded (m : Machine α) : Machine α := fun k σ =>
  if σ.Balanced k then (m k σ).filter fun x => x.2.Balanced k else none

/-- From the store `σ` the machine `m'` runs as `m` does, and leaves a balanced
    store. -/
def RunsAt (k : Setting) (σ : Store) (m' m : Machine α) : Prop :=
  m' k σ = m k σ ∧ ∀ o τ, m k σ = some (o, τ) → τ.Balanced k

/-- From a balanced store `m'` runs as `m` does, and the store stays balanced. -/
def Runs (m' m : Machine α) : Prop := ∀ k σ, σ.Balanced k → RunsAt k σ m' m

namespace Runs

theorem guarded {m' m : Machine α} (h : Runs m' m) : Runs m'.guarded m := by
  intro k σ hσ
  obtain ⟨hsame, hkeeps⟩ := h k σ hσ
  refine ⟨?_, hkeeps⟩
  rw [Machine.guarded, if_pos hσ, hsame]
  cases hrun : m k σ with
  | none => rfl
  | some x => exact Option.filter_some_pos (decide_eq_true (hkeeps x.1 x.2 hrun))

/-- A step that neither opens nor closes a production. What it does besides has no
    bearing on the balance. -/
theorem of_level {m : Machine α}
    (h : ∀ k σ o τ, m k σ = some (o, τ) → τ.stack = σ.stack ∧ τ.depth = σ.depth) : Runs m m := by
  refine fun k σ hσ => ⟨rfl, fun o τ hrun => ?_⟩
  obtain ⟨hstack, hdepth⟩ := h k σ o τ hrun
  rwa [Store.Balanced, hstack, hdepth]

/-- What runs in a balanced store and leaves one runs in front of what does the
    same. -/
theorem bind {m' m : Machine α} {f' f : α → Machine β} (hm : Runs m' m)
    (hf : ∀ a, Runs (f' a) (f a)) : Runs (m' >>= f') (m >>= f) := by
  intro k σ hσ
  obtain ⟨hsame, hkeeps⟩ := hm k σ hσ
  show RunsAt k σ (Machine.bind m' f') (Machine.bind m f)
  unfold RunsAt Machine.bind
  rw [hsame]
  match hrun : m k σ with
  | none => exact ⟨rfl, nofun⟩
  | some (.matched a, τ) => exact hf a k τ (hkeeps _ _ hrun)
  | some (.failed, τ) =>
    refine ⟨rfl, fun o υ h => ?_⟩
    cases h
    exact hkeeps _ _ hrun
  | some (.aborted e, τ) =>
    refine ⟨rfl, fun o υ h => ?_⟩
    cases h
    exact hkeeps _ _ hrun

/-- An attempt runs what it attempts. What it makes of a failure leaves the store
    alone. -/
theorem attempt {m' m : Machine α} (hm : Runs m' m) : Runs m'.attempt m.attempt := by
  intro k σ hσ
  obtain ⟨hsame, hkeeps⟩ := hm k σ hσ
  unfold RunsAt Machine.attempt
  rw [hsame]
  match hrun : m k σ with
  | none => exact ⟨rfl, nofun⟩
  | some (.matched a, τ) | some (.failed, τ) | some (.aborted e, τ) =>
    refine ⟨rfl, fun o υ h => ?_⟩
    cases h
    exact hkeeps _ _ hrun

/-- A child vector of its own has nothing to do with the balance. What is captured
    starts with the stack and the depth that there are. -/
theorem capture {m' m : Machine α} (hm : Runs m' m) : Runs m'.capture m.capture := by
  intro k σ hσ
  obtain ⟨hsame, hkeeps⟩ := hm k { σ with out := [] } hσ
  unfold RunsAt Machine.capture
  rw [hsame]
  match hrun : m k { σ with out := [] } with
  | none => exact ⟨rfl, nofun⟩
  | some (o, τ) =>
    refine ⟨rfl, fun o' υ h => ?_⟩
    cases h
    exact hkeeps o τ hrun

section Step

theorem pure (a : α) : Runs (Pure.pure a : Machine α) (Pure.pure a) :=
  of_level fun _ _ _ _ h => by cases h; exact ⟨rfl, rfl⟩

theorem fail : Runs (Machine.fail : Machine α) Machine.fail :=
  of_level fun _ _ _ _ h => by cases h; exact ⟨rfl, rfl⟩

theorem abort (e : ParseError) : Runs (Machine.abort e : Machine α) (Machine.abort e) :=
  of_level fun _ _ _ _ h => by cases h; exact ⟨rfl, rfl⟩

theorem broken : Runs (Machine.broken : Machine α) Machine.broken := of_level nofun

theorem read (f : Setting → Store → α) : Runs (Machine.read f) (Machine.read f) :=
  of_level fun _ _ _ _ h => by cases h; exact ⟨rfl, rfl⟩

/-- A condition is looked at, and what is done without it may rely on that. So it is
    enough to compare the rest at stores at which the condition is false. -/
theorem branch {condition : Setting → Store → Bool} {m' m rest' rest : Machine α}
    (hm : Runs m' m)
    (hrest : ∀ k σ, σ.Balanced k → condition k σ = false → RunsAt k σ rest' rest) :
    Runs (Machine.read condition >>= fun b => if b then m' else rest')
      (Machine.read condition >>= fun b => if b then m else rest) := by
  intro k σ hσ
  have hread (then' else' : Machine α) :
      (Machine.read condition >>= fun b => if b then then' else else') k σ =
        (if condition k σ then then' else else') k σ := rfl
  rw [RunsAt, hread, hread]
  cases hcondition : condition k σ with
  | true => exact hm k σ hσ
  | false => exact hrest k σ hσ hcondition

/-- A change of anything but the stack and the count keeps the balance. -/
theorem update {f : Store → Store} (hstack : ∀ σ, (f σ).stack = σ.stack)
    (hdepth : ∀ σ, (f σ).depth = σ.depth) : Runs (Machine.update f) (Machine.update f) :=
  of_level fun _ σ _ _ h => by cases h; exact ⟨hstack σ, hdepth σ⟩

theorem require (condition : Setting → Store → Bool) :
    Runs (Machine.require condition) (Machine.require condition) := by
  refine of_level fun k σ o τ h => ?_
  unfold Machine.require at h
  split at h
  · cases h
    exact ⟨rfl, rfl⟩
  · cases h

theorem report (e : Event) : Runs (Machine.report e) (Machine.report e) :=
  update (fun _ => rfl) fun _ => rfl

theorem reset (target : Nat) : Runs (Machine.reset target) (Machine.reset target) :=
  bind (require _) fun _ => update (fun _ => rfl) fun _ => rfl

theorem charge : Runs Machine.charge Machine.charge := by
  refine bind (read _) fun fuel => ?_
  split
  · exact abort _
  · exact update (fun _ => rfl) fun _ => rfl

theorem checkPatience : Runs Machine.checkPatience Machine.checkPatience := by
  refine bind (read _) fun patience => ?_
  split
  · exact bind (read _) fun _ => bind (report _) fun _ => abort _
  · exact pure _

theorem since (mark : Nat) : Runs (Machine.since mark) (Machine.since mark) :=
  bind (require _) fun _ => read _

theorem push (tree : Tree) : Runs (Machine.push tree) (Machine.push tree) :=
  update (fun _ => rfl) fun _ => rfl

theorem truncate (length : Nat) : Runs (Machine.truncate length) (Machine.truncate length) :=
  update (fun _ => rfl) fun _ => rfl

/-- Leaving takes a name off the stack and one off the count. Both go down together,
    so they are as many as before. -/
theorem leave : Runs Machine.leave Machine.leave := by
  refine bind (require _) fun _ k σ hσ => ⟨rfl, fun o τ h => ?_⟩
  cases h
  obtain ⟨hlength, hlimit⟩ := hσ
  constructor
  · simp [hlength]
  · exact Nat.le_trans (Nat.sub_le ..) hlimit

end Step

/-- To collect is to capture and then to end as the machine has ended. -/
theorem collect {m' m : Machine α} (hm : Runs m' m) : Runs m'.collect m.collect := by
  refine bind hm.capture fun x => ?_
  obtain ⟨o, children⟩ := x
  match o with
  | .matched a => exact pure _
  | .failed => exact fail
  | .aborted e => exact abort e

theorem gather {m' m : Machine α} (hm : Runs m' m) : Runs m'.gather m.gather :=
  hm.collect.attempt

section Combinator

theorem blame (mark : Nat) : Runs (Machine.blame mark : Machine α) (Machine.blame mark) :=
  bind (since mark) fun _ => bind (read _) fun _ => bind (read _) fun _ =>
    bind (report _) fun _ => abort _

theorem backtrack (target : Nat) : Runs (Machine.backtrack target) (Machine.backtrack target) := by
  refine bind (read _) fun here => ?_
  split
  · exact pure _
  · exact bind (report _) fun _ => reset target

theorem pushSpan (label : Tree.Label) (start : Nat) (children : List Tree) :
    Runs (Machine.pushSpan label start children) (Machine.pushSpan label start children) := by
  refine bind (read _) fun stop => ?_
  split
  · exact push _
  · exact pure _

theorem leaf (l : Grammar.Leaf) : Runs (Machine.leaf l) (Machine.leaf l) := by
  have hmiss (next : Option Token) (here : Nat) :
      Runs (Machine.expect (l.misses next) >>= fun _ =>
          Machine.report (.miss l.announced here) >>= fun _ => Machine.fail)
        (Machine.expect (l.misses next) >>= fun _ =>
          Machine.report (.miss l.announced here) >>= fun _ => (Machine.fail : Machine Unit)) :=
    bind (update (fun _ => rfl) fun _ => rfl) fun _ => bind (report _) fun _ => fail
  refine bind (read _) fun here => bind (read _) fun next => ?_
  cases next with
  | none => exact hmiss none here
  | some token =>
    dsimp only
    split
    · refine bind (report _) fun _ => bind ?_ fun _ => push _
      exact bind (require _) fun _ => update (fun _ => rfl) fun _ => rfl
    · exact hmiss (some token) here

theorem commitAt (threshold earned : Nat) (committed : Bool) :
    Runs (Machine.commitAt threshold earned committed)
      (Machine.commitAt threshold earned committed) := by
  unfold Machine.commitAt
  split
  · exact bind (read _) fun _ => bind (report _) fun _ => pure _
  · exact pure _

/-- The steps of a sequence, one after the other, by induction on the terms. Between
    two terms only the committed flag and what is earned have changed. -/
theorem steps {parts' parts : List (Machine Unit)} (hparts : List.Forall₂ Runs parts' parts)
    (threshold earned : Nat) (committed : Bool) :
    Runs (Machine.steps threshold parts' earned committed)
      (Machine.steps threshold parts earned committed) := by
  induction hparts generalizing earned committed with
  | nil => exact bind (commitAt _ _ _) fun _ => pure _
  | cons hstep _ ih =>
    refine bind checkPatience fun _ => bind (commitAt _ _ _) fun committed => ?_
    refine bind (read _) fun before => bind hstep.attempt fun found => ?_
    cases found with
    | none => exact pure _
    | some _ => exact bind (read _) fun after => ih _ _

/-- A sequence runs as its terms do, whether it is truncated or blamed in the end.
    Neither of these looks at the stack or the depth. -/
theorem sequence {parts' parts : List (Machine Unit)} (hparts : List.Forall₂ Runs parts' parts)
    (threshold : Nat) :
    Runs (Machine.sequence threshold parts') (Machine.sequence threshold parts) := by
  refine bind (read _) fun start => bind (read _) fun mark => bind (read _) fun kept => ?_
  refine bind (steps hparts _ _ _) fun ending => ?_
  match ending with
  | .finished committed => exact pure _
  | .stuck true => exact blame mark
  | .stuck false => exact bind (truncate kept) fun _ => bind (backtrack start) fun _ => fail

variable {item' item : Machine Bool} {separator' separator : Option (Machine Bool)}

theorem optional (hitem : Runs item' item) :
    Runs (Machine.optional item') (Machine.optional item) := by
  refine bind (read _) fun start => bind hitem.gather fun found => ?_
  match found with
  | some (_, children) => exact pushSpan _ _ _
  | none => exact pure _

/-- The candidates of an alternation, one after the other. The induction is on the
    candidates. -/
theorem choose {candidates' candidates : List (Machine Bool)}
    (hcandidates : List.Forall₂ Runs candidates' candidates) (start : Nat) (owner : String)
    (branch : Nat) (best : Option Matcher.Provisional) :
    Runs (Machine.choose start owner candidates' branch best)
      (Machine.choose start owner candidates branch best) := by
  induction hcandidates generalizing branch best with
  | nil =>
    cases best with
    | none => exact bind (backtrack start) fun _ => fail
    | some best => exact bind (reset best.stop) fun _ => pushSpan _ _ _
  | cons hcandidate _ ih =>
    refine bind (reset start) fun _ => bind (report _) fun _ => ?_
    refine bind hcandidate.gather fun found => ?_
    match found with
    | some (true, children) => exact pushSpan _ _ _
    | some (false, children) => exact bind (read _) fun stop => ih _ _
    | none => exact ih _ _

theorem alternation {candidates' candidates : List (Machine Bool)}
    (hcandidates : List.Forall₂ Runs candidates' candidates) :
    Runs (Machine.alternation candidates') (Machine.alternation candidates) :=
  bind (read _) fun start => bind (read _) fun owner => choose hcandidates start owner 0 none

theorem finish (start kept itemStart : Nat) (children : List Tree) :
    Runs (Machine.finish start kept itemStart children)
      (Machine.finish start kept itemStart children) := by
  refine bind (read _) fun here => ?_
  split
  · exact bind (truncate kept) fun _ => pure _
  · exact bind (pushSpan _ _ _) fun _ => pure _

/-- A turn runs as its item and its separator do. The separator is left out in the
    first turn, on both sides. -/
theorem turn (hitem : Runs item' item) (hseparator : Option.Rel Runs separator' separator) :
    Runs (Machine.turn item' separator') (Machine.turn item separator) := by
  cases hseparator with
  | none =>
    refine bind (read _) fun start => bind (read _) fun kept => bind hitem.gather fun found => ?_
    match found with
    | some (_, children) => exact finish _ _ _ _
    | none => exact pure _
  | some hseparator =>
    refine bind (read _) fun start => bind (read _) fun kept => bind (read _) fun mark => ?_
    refine bind hseparator.gather fun found => ?_
    match found with
    | some (_, children) =>
      refine bind (pushSpan _ _ _) fun _ => bind (read _) fun itemStart => ?_
      refine bind hitem.gather fun found => ?_
      match found with
      | some (_, children) => exact finish _ _ _ _
      | none => exact pure _
    | none => exact pure _

theorem iteration (hitem : Runs item' item) (hseparator : Option.Rel Runs separator' separator) :
    Runs (Machine.iteration item' separator') (Machine.iteration item separator) := by
  refine bind checkPatience fun _ => bind charge fun _ => ?_
  refine bind (turn hitem hseparator) fun ending => ?_
  match ending with
  | .over => exact pure _
  | .itemMissing mark => exact blame mark
  | .next => exact pure _

/-- The turns of a repetition, by induction on the budget. A turn that ends the
    repetition ends it on both sides. -/
theorem loop (hitem : Runs item' item) (hseparator : Option.Rel Runs separator' separator)
    (budget count : Nat) :
    Runs (Machine.loop item' separator' budget count)
      (Machine.loop item separator budget count) := by
  induction budget generalizing count with
  | zero => exact broken
  | succ budget ih =>
    have hfront : Option.Rel Runs (if count = 0 then none else separator')
        (if count = 0 then none else separator) := by
      split
      · exact .none
      · exact hseparator
    refine bind (iteration hitem hfront) fun more => ?_
    split
    · exact ih _
    · exact pure _

/-- A repetition runs as its turns do. The number of turns that it asks for is
    compared alike. -/
theorem repetition (hitem : Runs item' item) (hseparator : Option.Rel Runs separator' separator)
    (least : Nat) :
    Runs (Machine.repetition item' separator' least) (Machine.repetition item separator least) := by
  refine bind (read _) fun start => bind (read _) fun size => ?_
  refine bind (loop hitem hseparator _ _).collect fun counted => ?_
  obtain ⟨count, children⟩ := counted
  dsimp only
  split
  · exact bind (backtrack start) fun _ => fail
  · exact pushSpan _ _ _

theorem breakpoint : Runs Machine.breakpoint Machine.breakpoint := by
  refine bind (read _) fun here => bind (read _) fun stack => bind (report _) fun _ => ?_
  refine bind (read _) fun atEnd => ?_
  split
  · exact update (fun _ => rfl) fun _ => rfl
  · exact pure _

theorem collapse (mark start : Nat) (label : String) :
    Runs (Machine.collapse mark start label) (Machine.collapse mark start label) := by
  refine bind (since mark) fun misses => ?_
  split
  · exact pure _
  · exact update (fun _ => rfl) fun _ => rfl

theorem conclude (p : Grammar.Production) (start mark : Nat) (children : List Tree)
    (result : Outcome Bool) : Runs (Machine.conclude p start mark children result)
      (Machine.conclude p start mark children result) := by
  cases result with
  | matched committed => exact bind (read _) fun _ => bind (require _) fun _ => pure _
  | failed =>
    unfold Machine.conclude
    cases p.label with
    | none => exact fail
    | some label =>
      refine bind (read _) fun purpose => ?_
      split
      · exact bind (collapse _ _ _) fun _ => fail
      · exact fail
  | aborted e => exact abort e

/-- Where there is room for one more production, one is opened and closed again. In
    between, the stack has one name more and the depth is one more, so the body
    starts balanced as well. -/
theorem production (p : Grammar.Production) {body' body : Machine Bool} (hbody : Runs body' body)
    {k : Setting} {σ : Store} (hσ : σ.Balanced k) (hroom : σ.depth < k.limit) :
    RunsAt k σ (Machine.production p body') (Machine.production p body) := by
  have hopened : Runs
      (Machine.report (.enter p.name σ.position) >>= fun _ => body'.capture >>= fun x =>
        Machine.position >>= fun stop =>
          Machine.report (.exit p.name x.1.isMatched stop) >>= fun _ => Machine.leave >>= fun _ =>
            Machine.conclude p σ.position σ.log.length x.2 x.1)
      (Machine.report (.enter p.name σ.position) >>= fun _ => body.capture >>= fun x =>
        Machine.position >>= fun stop =>
          Machine.report (.exit p.name x.1.isMatched stop) >>= fun _ => Machine.leave >>= fun _ =>
            Machine.conclude p σ.position σ.log.length x.2 x.1) :=
    bind (report _) fun _ => bind hbody.capture fun _ => bind (read _) fun _ =>
      bind (report _) fun _ => bind leave fun _ => conclude _ _ _ _ _
  exact hopened k { σ with stack := p.name :: σ.stack, depth := σ.depth + 1 }
    ⟨congrArg (· + 1) hσ.1, hroom⟩

end Combinator

end Runs

end Machine

namespace Grammar

open Machine (charge Runs)

mutual

/-- The machine of a term, guarded in all of its parts. -/
def Term.guardedMachine (call : String → Machine Tree) : Term → Machine Unit
  | .leaf l => Machine.guarded do
    charge
    Machine.leaf l
  | .production name => Machine.guarded do
    charge
    let tree ← call name
    if tree.span.isEmpty then pure () else Machine.push tree
  | .optional body => Machine.guarded do
    charge
    Machine.optional (body.guardedMachine call)
  | .alternation candidates => Machine.guarded do
    charge
    Machine.alternation (candidateGuardedMachines call candidates)
  | .repetition item none least => Machine.guarded do
    charge
    Machine.repetition (item.guardedMachine call) none least
  | .repetition item (some separator) least => Machine.guarded do
    charge
    Machine.repetition (item.guardedMachine call) (some (separator.guardedMachine call)) least
  | .breakpoint => Machine.guarded do
    charge
    Machine.breakpoint
  termination_by structural t => t

/-- The machine of a sequence, guarded in all of its parts. -/
def Sequence.guardedMachine (call : String → Machine Tree) : Sequence → Machine Bool
  | ⟨terms, commit⟩ => (Machine.sequence commit (termGuardedMachines call terms)).guarded
  termination_by structural s => s

/-- The guarded machines of terms in order. -/
def termGuardedMachines (call : String → Machine Tree) : List Term → List (Machine Unit)
  | [] => []
  | t :: ts => t.guardedMachine call :: termGuardedMachines call ts
  termination_by structural ts => ts

/-- The guarded machines of candidates in order. -/
def candidateGuardedMachines (call : String → Machine Tree) : List Sequence → List (Machine Bool)
  | [] => []
  | c :: cs => c.guardedMachine call :: candidateGuardedMachines call cs
  termination_by structural cs => cs

end

/-- The machine of a production by its name, guarded in all of its parts. -/
def guardedMachine (g : Grammar) : (calls : Nat) → (name : String) → Machine Tree
  | calls, name => Machine.guarded <|
    match g.find? name with
    | none => .abort (.unknownProduction name)
    | some p => do
      if ← Machine.read fun k σ => decide (k.limit ≤ σ.depth) then .abort .tooDeep
      else
        match calls with
        | 0 => .broken
        | calls + 1 => .production p (p.body.guardedMachine (g.guardedMachine calls))

section Runs

variable {call' call : String → Machine Tree}

mutual

/-- The machine of a term that is guarded in all of its parts runs as the one that
    is not. -/
theorem Term.runs_guardedMachine (hcall : ∀ name, Runs (call' name) (call name)) :
    ∀ t : Term, Runs (t.guardedMachine call') (t.machine call)
  | .leaf l => .guarded (.bind .charge fun _ => .leaf l)
  | .production name => .guarded <| .bind .charge fun _ => .bind (hcall name) fun tree => by
    split
    · exact .pure _
    · exact .push _
  | .optional body => .guarded (.bind .charge fun _ => .optional (body.runs_guardedMachine hcall))
  | .alternation candidates =>
    .guarded (.bind .charge fun _ => .alternation (runs_candidateGuardedMachines hcall candidates))
  | .repetition item none least => .guarded <| .bind .charge fun _ =>
    .repetition (item.runs_guardedMachine hcall) .none least
  | .repetition item (some separator) least => .guarded <| .bind .charge fun _ =>
    .repetition (item.runs_guardedMachine hcall) (.some (separator.runs_guardedMachine hcall)) least
  | .breakpoint => .guarded (.bind .charge fun _ => .breakpoint)

theorem Sequence.runs_guardedMachine (hcall : ∀ name, Runs (call' name) (call name)) :
    ∀ s : Sequence, Runs (s.guardedMachine call') (s.machine call)
  | ⟨terms, commit⟩ => .guarded (.sequence (runs_termGuardedMachines hcall terms) commit)

theorem runs_termGuardedMachines (hcall : ∀ name, Runs (call' name) (call name)) :
    ∀ ts : List Term, List.Forall₂ Runs (termGuardedMachines call' ts) (termMachines call ts)
  | [] => .nil
  | t :: ts => .cons (t.runs_guardedMachine hcall) (runs_termGuardedMachines hcall ts)

/-- The same for candidates in order. -/
theorem runs_candidateGuardedMachines (hcall : ∀ name, Runs (call' name) (call name)) :
    ∀ cs : List Sequence,
      List.Forall₂ Runs (candidateGuardedMachines call' cs) (candidateMachines call cs)
  | [] => .nil
  | c :: cs => .cons (c.runs_guardedMachine hcall) (runs_candidateGuardedMachines hcall cs)

end

/-- The productions that are open are always counted, and never more than may be. A
    guarded machine breaks down where they are not, and from a balanced store it
    runs as the one that is not guarded. -/
theorem runs_guardedMachine (g : Grammar) (calls : Nat) (name : String) :
    Runs (g.guardedMachine calls name) (g.machine calls name) := by
  induction calls generalizing name with
  | zero =>
    rw [guardedMachine, machine]
    refine .guarded ?_
    cases g.find? name with
    | none => exact .abort _
    | some p =>
      refine .bind (.read _) fun full => ?_
      split
      · exact .abort _
      · exact .broken
  | succ calls ih =>
    rw [guardedMachine, machine]
    refine .guarded ?_
    cases g.find? name with
    | none => exact .abort _
    | some p =>
      refine .branch (.abort _) fun k σ hσ hroom => ?_
      rw [decide_eq_false_iff_not, Nat.not_le] at hroom
      exact Runs.production p (p.body.runs_guardedMachine ih) hσ hroom

end Runs

end Grammar

end SqlStatement

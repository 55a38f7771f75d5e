import SqlStatement.Proofs.Machine.Independence
import SqlStatement.Proofs.Machine.Rollback

namespace SqlStatement

/-- The store behind a report. -/
def Store.told (σ : Store) (e : Event) : Store :=
  { σ with
    events := σ.events ++ [e]
    patience := if e.isStep then σ.patience.map (· - 1) else σ.patience }

namespace Machine

variable {k : Setting} {n : Nat} {σ τ υ : Store} {ms front : List (Machine Unit)}
  {gained commits : Nat}

/-- Whatever a machine does from a store with the cursor inside the tokens, it
    restores the store where it fails, and keeps to the marks. -/
def Restores {α : Type} (k : Setting) (m : Machine α) : Prop :=
  ∀ σ : Store, σ.position ≤ k.tokens.size → ∃ o τ, m k σ = some (o, τ) ∧ σ.Restored k o τ

/-- A sequence has reported as often as it should that it commits. -/
def Settled (n gained commits : Nat) : Prop := commits = if n ≤ gained then 1 else 0

/-- Terms match in a row from the store `σ`, and `gained` of them have consumed a
    token. The sequence that they belong to has reported `commits` times that it
    commits, which it does where `n` of them have. -/
inductive Row (k : Setting) (n : Nat) (σ : Store) : List (Machine Unit) → (gained : Nat) →
    (commits : Nat) → Store → Prop
  | nil : Row k n σ [] 0 0 σ
  | commit {ms : List (Machine Unit)} {gained : Nat} {τ : Store} (h : Row k n σ ms gained 0 τ)
      (hgained : n ≤ gained) : Row k n σ ms gained 1 (τ.told (.commit τ.position))
  | step {ms : List (Machine Unit)} {m : Machine Unit} {gained commits : Nat} {τ υ : Store}
      (h : Row k n σ ms gained commits τ) (hsettled : Settled n gained commits)
      (hm : m k τ = some (.matched (), υ)) :
      Row k n σ (ms ++ [m]) (if τ.position < υ.position then gained + 1 else gained) commits υ

/-- How the terms of a sequence end. -/
inductive StepsEnd (k : Setting) (n : Nat) (σ : Store) (ms : List (Machine Unit)) :
    Outcome Ending → Store → Prop
  | finished {gained commits : Nat} {τ : Store} (hrow : Row k n σ ms gained commits τ)
      (hsettled : Settled n gained commits) :
      StepsEnd k n σ ms (.matched (.finished (decide (n ≤ gained)))) τ
  | stuck {front back : List (Machine Unit)} {m : Machine Unit} {gained commits : Nat}
      {τ υ : Store} (hms : ms = front ++ m :: back) (hrow : Row k n σ front gained commits τ)
      (hsettled : Settled n gained commits) (hm : m k τ = some (.failed, υ)) :
      StepsEnd k n σ ms (.matched (.stuck (decide (n ≤ gained)))) υ
  | passed {front back : List (Machine Unit)} {m : Machine Unit} {gained commits : Nat}
      {τ υ : Store} {e : ParseError} (hms : ms = front ++ m :: back)
      (hrow : Row k n σ front gained commits τ) (hsettled : Settled n gained commits)
      (hm : m k τ = some (.aborted e, υ)) : StepsEnd k n σ ms (.aborted e) υ
  | cancelled {front back : List (Machine Unit)} {m : Machine Unit} {gained commits : Nat}
      {τ : Store} (hms : ms = front ++ m :: back) (hrow : Row k n σ front gained commits τ)
      (hpatience : τ.patience = some 0) :
      StepsEnd k n σ ms (.aborted .cancelled) (τ.told (.interrupted τ.position))

/-- A sequence reports at most once that it commits, and only where enough terms
    have consumed a token. -/
theorem Row.commits_le (h : Row k n σ ms gained commits τ) :
    commits ≤ if n ≤ gained then 1 else 0 := by
  induction h with
  | nil => exact Nat.zero_le _
  | commit _ hgained _ => simp [hgained]
  | step h hsettled hm ih =>
    split <;> split at ih <;> split <;> omega

/-- Terms in a row that restore what they have to leave the cursor at least as many
    tokens behind as have consumed one, and keep what the log has had. -/
theorem Row.advanced (h : Row k n σ ms gained commits τ) (hms : ∀ m ∈ ms, Restores k m)
    (hσ : σ.position ≤ k.tokens.size) :
    σ.position + gained ≤ τ.position ∧ τ.position ≤ k.tokens.size ∧ σ.log <+: τ.log := by
  induction h with
  | nil => exact ⟨Nat.le_refl _, hσ, List.prefix_refl _⟩
  | commit _ _ ih => exact ih hms
  | @step ms m gained commits τ υ h hsettled hm ih =>
    obtain ⟨hfront, hlast⟩ := List.forall_mem_append.mp hms
    obtain ⟨hplace, hsize, hlog⟩ := ih hfront
    obtain ⟨o, υ', hrun, hrestored⟩ := hlast m (List.mem_singleton_self m) τ hsize
    obtain ⟨rfl, rfl⟩ : .matched () = o ∧ υ = υ' := by simpa [hm] using hrun
    have hle := hrestored.advanced.le
    refine ⟨?_, hrestored.advanced.le_size, hlog.trans hrestored.log_prefix⟩
    split <;> omega

/-- A sequence reports where it commits, unless it has done so. One report is made
    when the threshold is first reached, and no other one. -/
theorem run_commitAt_row (hrow : Row k n σ front gained commits τ) : ∃ commits' τ',
    commitAt n gained (commits == 1) k τ = some (.matched (decide (n ≤ gained)), τ') ∧
      Row k n σ front gained commits' τ' ∧ Settled n gained commits' ∧
      τ'.position = τ.position := by
  have hle := hrow.commits_le
  by_cases hgained : n ≤ gained
  · rw [if_pos hgained] at hle
    obtain rfl | rfl : commits = 0 ∨ commits = 1 := by omega
    · refine ⟨1, τ.told (.commit τ.position), ?_, .commit hrow hgained, ?_, rfl⟩
      · unfold commitAt
        simp only [hgained, decide_true]
        rfl
      · simp [Settled, hgained]
    · refine ⟨1, τ, ?_, hrow, ?_, rfl⟩
      · simp only [hgained, decide_true]
        rfl
      · simp [Settled, hgained]
  · rw [if_neg hgained] at hle
    obtain rfl : commits = 0 := Nat.le_zero.mp hle
    refine ⟨0, τ, ?_, hrow, ?_, rfl⟩
    · unfold commitAt
      simp only [hgained, decide_false]
      rfl
    · simp [Settled, hgained]

/-- Whether a sequence has reported its commitment says whether it has earned it. -/
theorem Settled.eq_decide (h : Settled n gained commits) :
    (commits == 1) = decide (n ≤ gained) := by
  unfold Settled at h
  split at h <;> simp [*]

/-- Whoever is not cancelled goes on. A test of the flag writes nothing down. -/
theorem run_checkPatience_of_ne (hpatience : σ.patience ≠ some 0) :
    checkPatience k σ = some (.matched (), σ) := by
  have hread : Machine.read (fun _ σ => σ.patience) k σ = some (.matched σ.patience, σ) := rfl
  unfold checkPatience
  rw [run_bind_matched hread, if_neg hpatience]
  rfl

/-- Whoever is cancelled says where, and ends the parse. The event of the
    interruption is at the cursor. -/
theorem run_checkPatience_cancelled (hpatience : σ.patience = some 0) :
    checkPatience k σ = some (.aborted .cancelled, σ.told (.interrupted σ.position)) := by
  have hread : Machine.read (fun _ σ => σ.patience) k σ = some (.matched σ.patience, σ) := rfl
  unfold checkPatience
  rw [run_bind_matched hread, if_pos hpatience]
  rfl

/-- The terms of a sequence go on from those that match in a row. The induction is
    on the terms that are left. -/
theorem steps_end (hrow : Row k n σ front gained commits τ) (hms : ∀ m ∈ ms, Restores k m)
    (hτ : τ.position ≤ k.tokens.size) : ∃ o υ,
      steps n ms gained (commits == 1) k τ = some (o, υ) ∧ StepsEnd k n σ (front ++ ms) o υ := by
  induction ms generalizing front gained commits τ with
  | nil =>
    obtain ⟨commits', τ', hcommitAt, hrow', hsettled, -⟩ := run_commitAt_row hrow
    refine ⟨_, τ', ?_, .finished ((List.append_nil front).symm ▸ hrow') hsettled⟩
    rw [steps, run_bind_matched hcommitAt]
    rfl
  | cons m rest ih =>
    obtain ⟨hm, hrest⟩ := List.forall_mem_cons.mp hms
    by_cases hpatience : τ.patience = some 0
    · refine ⟨_, _, ?_, .cancelled rfl hrow hpatience⟩
      rw [steps, run_bind_aborted (run_checkPatience_cancelled hpatience)]
    · obtain ⟨commits', τ', hcommitAt, hrow', hsettled, hposition⟩ := run_commitAt_row hrow
      obtain ⟨o, υ, hrun, hrestored⟩ := hm τ' (hposition ▸ hτ)
      have hattempt : m.attempt k τ' = some (o.attempted, υ) := by
        rw [run_attempt, hrun]
        rfl
      have hbefore : Machine.position k τ' = some (.matched τ'.position, τ') := rfl
      rw [steps, run_bind_matched (run_checkPatience_of_ne hpatience), run_bind_matched hcommitAt,
        run_bind_matched hbefore]
      cases o with
      | matched _ =>
        have hafter : Machine.position k υ = some (.matched υ.position, υ) := rfl
        obtain ⟨o', ω, hsteps, hend⟩ := ih (hrow'.step hsettled hrun) hrest
          hrestored.advanced.le_size
        rw [List.append_assoc, List.singleton_append] at hend
        refine ⟨o', ω, ?_, hend⟩
        rw [run_bind_matched hattempt, ← hsettled.eq_decide]
        exact hsteps
      | failed =>
        refine ⟨_, υ, ?_, .stuck rfl hrow' hsettled hrun⟩
        rw [run_bind_matched hattempt]
        rfl
      | aborted e =>
        refine ⟨_, υ, ?_, .passed rfl hrow' hsettled hrun⟩
        rw [run_bind_aborted hattempt]

/-- How a sequence with the threshold `n` ends. -/
inductive SequenceEnds (k : Setting) (n : Nat) (σ : Store) (ms : List (Machine Unit)) :
    Outcome Bool → Store → Prop
  /-- All terms match. The sequence has committed if and only if enough of them have
      consumed a token. -/
  | matched {gained commits : Nat} {τ : Store} (hrow : Row k n σ ms gained commits τ)
      (hsettled : Settled n gained commits) :
      SequenceEnds k n σ ms (.matched (decide (n ≤ gained))) τ
  /-- A term fails behind enough others. The log behind the start of the sequence
      says what is blamed. -/
  | blamed {front back : List (Machine Unit)} {m : Machine Unit} {gained : Nat} {τ υ : Store}
      {error : InputError} (hms : ms = front ++ m :: back) (hrow : Row k n σ front gained 1 τ)
      (hm : m k τ = some (.failed, υ)) (hgained : n ≤ gained)
      (hplace : σ.position + n ≤ υ.position)
      (herror : error = .ofMisses k.tokens υ.position (υ.log.drop σ.log.length)) :
      SequenceEnds k n σ ms (.aborted (.input error)) (υ.told (.blamed error.position))
  /-- A term fails before enough others have consumed a token. The sequence fails and goes back. -/
  | failed {front back : List (Machine Unit)} {m : Machine Unit} {gained : Nat} {τ υ ω : Store}
      (hms : ms = front ++ m :: back) (hrow : Row k n σ front gained 0 τ)
      (hm : m k τ = some (.failed, υ)) (hgained : gained < n) (hback : σ.RolledBack ω)
      (hlog : ω.log = υ.log) : SequenceEnds k n σ ms .failed ω
  /-- A term ends the parse. -/
  | passed {front back : List (Machine Unit)} {m : Machine Unit} {gained commits : Nat}
      {τ υ : Store} {e : ParseError} (hms : ms = front ++ m :: back)
      (hrow : Row k n σ front gained commits τ) (hsettled : Settled n gained commits)
      (hm : m k τ = some (.aborted e, υ)) : SequenceEnds k n σ ms (.aborted e) υ
  /-- The parse is cancelled in front of a term. -/
  | cancelled {front back : List (Machine Unit)} {m : Machine Unit} {gained commits : Nat}
      {τ : Store} (hms : ms = front ++ m :: back) (hrow : Row k n σ front gained commits τ)
      (hcommits : commits ≤ 1) (hpatience : τ.patience = some 0) :
      SequenceEnds k n σ ms (.aborted .cancelled) (τ.told (.interrupted τ.position))

/-- Going back writes nothing into the log. Inside the input the machine does not
    break down by it. -/
theorem run_backtrack {target : Nat} (htarget : target ≤ k.tokens.size) :
    ∃ τ, backtrack target k σ = some (.matched (), τ) ∧ τ.log = σ.log := by
  have hhere : Machine.position k σ = some (.matched σ.position, σ) := rfl
  by_cases hthere : σ.position = target
  · refine ⟨σ, ?_, rfl⟩
    unfold backtrack
    rw [run_bind_matched hhere, if_pos hthere]
    rfl
  · have hrange : Machine.require (fun k _ => decide (target ≤ k.tokens.size)) k
        (σ.told (.backtrack target)) = some (.matched (), σ.told (.backtrack target)) := by
      simp [require, htarget]
    refine ⟨{ σ.told (.backtrack target) with position := target }, ?_, rfl⟩
    unfold backtrack
    rw [run_bind_matched hhere, if_neg hthere,
      run_bind_matched (a := ()) (τ := σ.told (.backtrack target)) rfl]
    unfold reset
    rw [run_bind_matched hrange]
    rfl

/-- Whoever is blamed ends the parse with an error that the log behind the mark
    says. -/
theorem run_blame {mark : Nat} (hmark : mark ≤ σ.log.length) :
    let error := InputError.ofMisses k.tokens σ.position (σ.log.drop mark)
    (blame mark : Machine Bool) k σ =
      some (.aborted (.input error), σ.told (.blamed error.position)) := by
  unfold blame
  rw [run_bind_matched (Follows.run_since hmark)]
  rfl

/-- A sequence commits on what its terms consume, and ends as said. The terms are
    run as a row first, which counts those that consume a token. The ending then
    goes by how the row has ended and whether it has committed. -/
theorem sequence_end (hms : ∀ m ∈ ms, Restores k m) (hself : Restores k (sequence n ms))
    (hσ : σ.position ≤ k.tokens.size) :
    ∃ o τ, sequence n ms k σ = some (o, τ) ∧ SequenceEnds k n σ ms o τ := by
  obtain ⟨o, τ, hrun, hrestored⟩ := hself σ hσ
  refine ⟨o, τ, hrun, ?_⟩
  obtain ⟨ending, υ, hsteps', hend⟩ := steps_end (n := n) .nil hms hσ
  have hsteps : steps n ms 0 false k σ = some (ending, υ) := hsteps'
  unfold sequence at hrun
  rw [run_bind_matched (a := σ.position) rfl, run_bind_matched (a := σ.log.length) rfl,
    run_bind_matched (a := σ.out.length) rfl] at hrun
  rw [List.nil_append] at hend
  cases hend with
  | finished hrow hsettled =>
    rw [run_bind_matched hsteps] at hrun
    cases hrun
    exact .matched hrow hsettled
  | @stuck front back m gained commits υ' _ hsplit hrow hsettled hm =>
    have hparts : (∀ u ∈ front, Restores k u) ∧ ∀ u ∈ m :: back, Restores k u :=
      List.forall_mem_append.mp (hsplit ▸ hms)
    obtain ⟨hplace, hsize, hlog⟩ := hrow.advanced hparts.1 hσ
    obtain ⟨o', ω, hm', hstuck⟩ := hparts.2 m List.mem_cons_self υ' hsize
    obtain ⟨rfl, rfl⟩ : .failed = o' ∧ υ = ω := by simpa [hm] using hm'
    have hposition : υ.position = υ'.position := (hstuck.rolledBack rfl).position_eq
    have hmark : σ.log.length ≤ υ.log.length := (hlog.trans hstuck.log_prefix).length_le
    by_cases hgained : n ≤ gained
    · obtain rfl : commits = 1 := by simpa [Settled, hgained] using hsettled
      rw [decide_eq_true hgained] at hsteps
      rw [run_bind_matched hsteps] at hrun
      have hblame : (blame σ.log.length : Machine Bool) k υ = some (o, τ) := hrun
      rw [run_blame hmark] at hblame
      cases hblame
      exact .blamed hsplit hrow hm hgained (by omega) rfl
    · obtain rfl : commits = 0 := by simpa [Settled, hgained] using hsettled
      rw [decide_eq_false hgained] at hsteps
      obtain ⟨ω, hback, hlog'⟩ := run_backtrack (k := k)
        (σ := { υ with out := υ.out.take σ.out.length }) hσ
      rw [run_bind_matched hsteps] at hrun
      have hfail : (truncate σ.out.length >>= fun _ => backtrack σ.position >>= fun _ => fail :
          Machine Bool) k υ = some (o, τ) := hrun
      have htruncate : truncate σ.out.length k υ =
          some (.matched (), { υ with out := υ.out.take σ.out.length }) := rfl
      rw [run_bind_matched htruncate, run_bind_matched hback] at hfail
      cases hfail
      exact .failed hsplit hrow hm (Nat.lt_of_not_le hgained) (hrestored.rolledBack rfl) hlog'
  | passed hsplit hrow hsettled hm =>
    rw [run_bind_aborted hsteps] at hrun
    cases hrun
    exact .passed hsplit hrow hsettled hm
  | @cancelled front back m gained commits υ' hsplit hrow hpatience =>
    rw [run_bind_aborted hsteps] at hrun
    cases hrun
    have hcommits : commits ≤ 1 := by
      have hle := hrow.commits_le
      split at hle <;> omega
    exact .cancelled hsplit hrow hcommits hpatience

end Machine

namespace Grammar

open Machine (Restores SequenceEnds)

/-- What holds of the machine of each term holds of the machines of all terms. -/
theorem forall_termMachines {P : Machine Unit → Prop} {call : String → Machine Tree}
    {ts : List Term} (h : ∀ t ∈ ts, P (t.machine call)) : ∀ m ∈ termMachines call ts, P m := by
  induction ts with
  | nil => nofun
  | cons t ts ih =>
    obtain ⟨ht, hts⟩ := List.forall_mem_cons.mp h
    exact List.forall_mem_cons.mpr ⟨ht, ih hts⟩

/-- From every store with the cursor inside the tokens a sequence ends as said. It
    has committed if and only if as many of its terms as its threshold says have
    consumed a token. A failure of a term behind so many others ends the parse, with
    an error that what was missed since the start of the sequence says, and any
    other is a failure of the sequence. -/
theorem sequence_commits (g : Grammar) (k : Setting) (σ : Store)
    (hσ : σ.position ≤ k.tokens.size) (s : Sequence) :
    ∃ o τ, s.machine (g.machine k.limit) k σ = some (o, τ) ∧
      SequenceEnds k s.commit σ (termMachines (g.machine k.limit) s.terms) o τ := by
  have hself : Restores k (s.machine (g.machine k.limit)) := by
    intro σ hσ
    obtain ⟨o, τ, hrun, -, hrestored⟩ := (g.machine_restores k σ hσ).2.1 s
    exact ⟨o, τ, hrun, hrestored⟩
  have hterms : ∀ m ∈ termMachines (g.machine k.limit) s.terms, Restores k m := by
    apply forall_termMachines
    intro t _ σ hσ
    obtain ⟨o, τ, hrun, -, hrestored⟩ := (g.machine_restores k σ hσ).1 t
    exact ⟨o, τ, hrun, hrestored⟩
  obtain ⟨terms, commit⟩ := s
  exact Machine.sequence_end hterms hself hσ

/-- Parentheses behind an absent integer commit on the opening one. What is blamed
    is that the closing one is missing, whatever was missed before the sequence. -/
theorem sequence_commits_unclosed :
    let k : Setting :=
      ⟨#[⟨.symbol .leftParen, "(", ⟨0, 1⟩⟩, ⟨.identifier, "a", ⟨1, 2⟩⟩], .reading, 160⟩
    let σ : Store := ⟨0, 100, none, [⟨2, .keyword "FROM"⟩], [], [], ["expr-term"], 1, []⟩
    let s : Sequence := ⟨[.optional ⟨[.leaf (.kind .integer)], 1⟩,
      .leaf (.kind (.symbol .leftParen)), .leaf (.kind (.symbol .rightParen))], 1⟩
    let calls := machine ⟨"", "", []⟩ k.limit
    σ.position ≤ k.tokens.size ∧ ∃ τ,
      s.machine calls k σ = some (.aborted (.input ⟨1, [.keyword ")"], some "a"⟩), τ) ∧
      SequenceEnds k 1 σ (termMachines calls s.terms)
        (.aborted (.input ⟨1, [.keyword ")"], some "a"⟩)) τ := by
  intro k σ s calls
  obtain ⟨o, τ, hrun, hends⟩ := sequence_commits ⟨"", "", []⟩ k σ (Nat.zero_le _) s
  have houtcome : (s.machine calls k σ).map (·.1) =
      some (.aborted (.input ⟨1, [.keyword ")"], some "a"⟩)) := by
    decide +kernel
  rw [hrun] at houtcome
  obtain rfl := Option.some.inj houtcome
  exact ⟨Nat.zero_le _, τ, hrun, hends⟩

end Grammar

end SqlStatement

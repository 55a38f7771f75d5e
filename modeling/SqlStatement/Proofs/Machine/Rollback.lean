import SqlStatement.Proofs.Machine.Refinement
import SqlStatement.Proofs.Match.Bounds
import SqlStatement.Sqlite

namespace SqlStatement

open Grammar (Sequence Term)

namespace Store

/-- What a run from `σ` that has ended with `o` in `τ` has left as it was. -/
structure Restored {α : Type} (k : Setting) (σ : Store) (o : Outcome α) (τ : Store) : Prop where
  /-- A failure gives back the cursor and the child vector. -/
  rolledBack : o = .failed → σ.RolledBack τ
  stack_eq : τ.stack = σ.stack
  depth_eq : τ.depth = σ.depth
  log_prefix : σ.log <+: τ.log
  /-- What is appended to the log was missed where the run has started or later. -/
  appended : ∀ miss ∈ τ.log.drop σ.log.length, σ.position ≤ miss.position
  /-- The entries behind a mark that was in range can still be taken. -/
  since : ∀ mark ≤ σ.log.length, (Machine.since mark k τ).isSome = true
  advanced : σ.Advanced k τ

end Store

namespace Machine

variable {α β : Type} {k : Setting} {σ : Store}

/-- A machine that follows a matcher with bounds restores what a failure has to.
    That the log only grows is in the store behind the run of the matcher, and that
    the cursor and the child vector are back is what the machine is known to leave
    where it fails. -/
theorem Follows.restored {m : Machine β} {spec : Matcher α} {post : α → β → Store → Prop}
    (h : Follows k σ m spec post σ.RolledBack) (hσ : σ.position ≤ k.tokens.size)
    (hbounded : spec.Bounded k.tokens σ.position fun _ => True) : ∃ o τ, m k σ = some (o, τ) ∧
      (spec (σ.context k) σ.state).outcome.Agrees (fun a b => post a b τ) (σ.RolledBack τ) o ∧
      σ.Restored k o τ := by
  obtain ⟨o, τ, hrun, hτ, hends⟩ := h
  have hwithin := hbounded (σ.context k) σ.state rfl (Nat.le_refl _) hσ
  have hlog : τ.log = σ.log ++ (spec (σ.context k) σ.state).record.misses.toList := by
    rw [hτ]
    rfl
  have hposition : τ.position = (spec (σ.context k) σ.state).state.position := by
    rw [hτ]
    rfl
  refine ⟨o, τ, hrun, hends, ?_⟩
  constructor
  · intro hfailed
    subst hfailed
    cases hspec : (spec (σ.context k) σ.state).outcome <;> rw [hspec] at hends
    · exact hends.elim
    · exact hends
    · exact hends.elim
  · rw [hτ]
    rfl
  · rw [hτ]
    rfl
  · rw [hlog]
    exact List.prefix_append _ _
  · intro miss hmiss
    rw [hlog, List.drop_left] at hmiss
    exact (hwithin.misses miss hmiss).1
  · intro mark hmark
    have hrange : mark ≤ τ.log.length := by
      rw [hlog, List.length_append]
      omega
    rw [run_since hrange]
    rfl
  · constructor
    · rw [hposition]
      exact hwithin.low_le
    · rw [hposition]
      exact hwithin.le_high

end Machine

namespace Grammar

/-- From every store with its cursor inside the tokens the machine of a term, of a
    sequence and of a production runs without breaking down, ends as the matcher
    does, and restores the store. It leaves every production that it enters and only
    appends to the log, so that marks stay in range. -/
theorem machine_restores (g : Grammar) (k : Setting) (σ : Store)
    (hσ : σ.position ≤ k.tokens.size) :
    (∀ t : Term, ∃ o τ, t.machine (g.machine k.limit) k σ = some (o, τ) ∧
      (t.matcher (g.matcher (k.limit - σ.depth)) (σ.context k) σ.state).outcome.Agrees
        (fun nodes _ => τ.out = σ.out ++ nodes) (σ.RolledBack τ) o ∧ σ.Restored k o τ) ∧
    (∀ s : Sequence, ∃ o τ, s.machine (g.machine k.limit) k σ = some (o, τ) ∧
      (s.matcher (g.matcher (k.limit - σ.depth)) (σ.context k) σ.state).outcome.Agrees
        (fun x committed => committed = x.1 ∧ τ.out = σ.out ++ x.2) (σ.RolledBack τ) o ∧
      σ.Restored k o τ) ∧
    ∀ name, ∃ o τ, g.machine k.limit name k σ = some (o, τ) ∧
      (g.matcher (k.limit - σ.depth) name (σ.context k) σ.state).outcome.Agrees
        (fun tree tree' => tree' = tree ∧ τ.out = σ.out) (σ.RolledBack τ) o ∧
      σ.Restored k o τ := by
  have hcall := g.follows_machine k (Nat.sub_le k.limit σ.depth)
  have hfold := follows_fold hcall
  have hbounds := (Discipline.bounds k.tokens σ.position).keeps_matcher (g := g)
    (fun _ _ => trivial) (k.limit - σ.depth)
  have hboundsFold := (Discipline.bounds k.tokens σ.position).fold hbounds
  refine ⟨fun t => ?_, fun s => ?_, fun name => ?_⟩
  · obtain ⟨o, τ, hrun, hends, hrestored⟩ := (hfold.term t σ hσ rfl).restored hσ
      (hboundsFold.term t fun _ _ => trivial)
    exact ⟨o, τ, hrun, hends.imp (fun _ _ h => h.2) id, hrestored⟩
  · obtain ⟨o, τ, hrun, hends, hrestored⟩ := (hfold.ofSequence s σ hσ rfl).restored hσ
      (hboundsFold.ofSequence s fun _ _ => trivial)
    exact ⟨o, τ, hrun, hends.imp (fun _ _ h => ⟨h.1, h.2.2⟩) id, hrestored⟩
  · obtain ⟨o, τ, hrun, hends, hrestored⟩ := (hcall name σ hσ rfl).restored hσ (hbounds name)
    exact ⟨o, τ, hrun, hends.imp (fun _ _ h => ⟨h.1, h.2.2⟩) id, hrestored⟩

/-- On `x NOT NULL` a range test is tried behind the `x`. It consumes the `NOT` and
    pushes a node for it before it misses its `BETWEEN`. Both are undone, and the
    log keeps what was missed. -/
theorem machine_restores_notNull :
    let tokens : Array Token := #[⟨.identifier, "x", ⟨0, 1⟩⟩, ⟨.keyword .NOT, "NOT", ⟨2, 5⟩⟩,
      ⟨.keyword .NULL, "NULL", ⟨6, 10⟩⟩]
    let k : Setting := ⟨tokens, .reading, 160⟩
    let σ : Store := ⟨1, 100, none, [⟨1, .keyword "IS"⟩], [], [], ["eq-expr"], 1,
      [.leaf (.identifier "column name") 0]⟩
    ∃ τ, Sqlite.eqExprBetween.body.machine (Sqlite.grammar.machine 160) k σ = some (.failed, τ) ∧
      τ.events = [.leaf ⟨.keyword .NOT, "NOT", ⟨2, 5⟩⟩ 1, .commit 2,
        .miss (some (.keyword "BETWEEN")) 2, .backtrack 1] ∧
      τ.position = 1 ∧ τ.out = [.leaf (.identifier "column name") 0] ∧
      τ.log = [⟨1, .keyword "IS"⟩, ⟨2, .keyword "BETWEEN"⟩] ∧
      σ.Restored k (.failed : Outcome Bool) τ := by
  intro tokens k σ
  have hposition : σ.position ≤ k.tokens.size := by decide
  have hfailed : (Sqlite.eqExprBetween.body.machine (Sqlite.grammar.machine 160) k σ).map
      (fun x => (x.1, x.2.events, x.2.log)) =
      some (.failed, [.leaf ⟨.keyword .NOT, "NOT", ⟨2, 5⟩⟩ 1, .commit 2,
        .miss (some (.keyword "BETWEEN")) 2, .backtrack 1],
        [⟨1, .keyword "IS"⟩, ⟨2, .keyword "BETWEEN"⟩]) := by
    decide +kernel
  obtain ⟨o, τ, hrun, -, hrestored⟩ :=
    (machine_restores Sqlite.grammar k σ hposition).2.1 Sqlite.eqExprBetween.body
  change Sqlite.eqExprBetween.body.machine (Sqlite.grammar.machine 160) k σ = _ at hrun
  rw [hrun] at hfailed
  simp only [Option.map_some, Option.some.injEq, Prod.mk.injEq] at hfailed
  obtain ⟨rfl, hevents, hlog⟩ := hfailed
  have hback := hrestored.rolledBack rfl
  exact ⟨τ, hrun, hevents, hback.position_eq, hback.out_eq, hlog, hrestored⟩

end Grammar

end SqlStatement

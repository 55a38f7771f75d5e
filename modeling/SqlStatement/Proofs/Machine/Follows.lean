import SqlStatement.Proofs.Machine.Store
import SqlStatement.Proofs.Match.Run

namespace SqlStatement

/-- The same ending, with related values or the same error. -/
def Outcome.Agrees {α β : Type} (post : α → β → Prop) (fallback : Prop) :
    Outcome α → Outcome β → Prop
  | .matched a, .matched b => post a b
  | .failed, .failed => fallback
  | .aborted e, .aborted e' => e = e'
  | _, _ => False

namespace Outcome

variable {α β γ : Type} {post : α → β → Prop} {fallback : Prop} {o : Outcome α} {o' : Outcome β}

/-- What is said of the endings may be weakened. How they end is the same, so only
    what is said of values and of failures changes. -/
theorem Agrees.imp {post' : α → β → Prop} {fallback' : Prop} (h : o.Agrees post fallback o')
    (hpost : ∀ a b, post a b → post' a b) (hfallback : fallback → fallback') :
    o.Agrees post' fallback' o' := by
  cases o <;> cases o' <;> simp only [Agrees] at h ⊢
  · exact hpost _ _ h
  · exact hfallback h
  · exact h

theorem Agrees.eq {o o' : Outcome α} (h : o.Agrees (fun a b => b = a) fallback o') : o' = o := by
  cases o <;> cases o' <;> simp_all [Agrees]

theorem Agrees.attempted {post : Option α → Option β → Prop}
    (h : o.Agrees (fun a b => post (some a) (some b)) (post none none) o') :
    o.attempted.Agrees post fallback o'.attempted := by
  cases o <;> cases o' <;> simp_all [Agrees, Outcome.attempted]

theorem Agrees.map_left {f : α → γ} {post : γ → β → Prop}
    (h : o.Agrees (fun a b => post (f a) b) fallback o') : (o.map f).Agrees post fallback o' := by
  cases o <;> cases o' <;> simp_all [Agrees, Outcome.map]

theorem Agrees.map_right {f : β → γ} {post : α → γ → Prop}
    (h : o.Agrees (fun a b => post a (f b)) fallback o') : o.Agrees post fallback (o'.map f) := by
  cases o <;> cases o' <;> simp_all [Agrees, Outcome.map]

end Outcome

namespace Store

variable {α β : Type}

/-- What a matcher is told about a store. -/
def context (σ : Store) (k : Setting) : Context := ⟨k.tokens, k.purpose, σ.stack⟩

/-- The part of a store that a matcher changes. -/
def state (σ : Store) : State := ⟨σ.position, σ.fuel, σ.patience⟩

/-- The store behind a run of a matcher. -/
def after (σ : Store) (r : Result α) (out : List Tree) : Store where
  position := r.state.position
  fuel := r.state.fuel
  patience := r.state.patience
  log := σ.log ++ r.record.misses.toList
  events := σ.events ++ r.record.events.toList
  breakpoints := σ.breakpoints ++ r.record.breakpoints.toList
  stack := σ.stack
  depth := σ.depth
  out

/-- Behind a run that writes nothing down, only the child vector may differ. That
    vector is the one part of a store that no matcher knows of. -/
theorem after_of_quiet {σ : Store} {r : Result α} (hstate : r.state = σ.state)
    (hmisses : r.record.misses.toList = []) (hevents : r.record.events.toList = [])
    (hbreakpoints : r.record.breakpoints.toList = []) (out : List Tree) :
    σ.after r out = { σ with out } := by
  simp [after, hstate, hmisses, hevents, hbreakpoints, state]

/-- Behind two runs one after the other, the store is that behind both of them
    together. -/
theorem after_after (σ : Store) (r : Result α) (r' : Result β) (out out' : List Tree) :
    (σ.after r out).after r' out' = σ.after ⟨r'.outcome, r'.state, r.record ++ r'.record⟩ out' := by
  simp [after]

/-- Nothing has changed that a matcher could go back to. -/
structure Still (σ τ : Store) : Prop where
  position_eq : τ.position = σ.position
  log_eq : τ.log = σ.log
  out_eq : τ.out = σ.out
  stack_eq : τ.stack = σ.stack
  depth_eq : τ.depth = σ.depth

end Store

namespace Machine

variable {α β γ δ : Type} {k : Setting} {σ τ : Store}

/-- Behind a match the rest runs from the store that the match has left. -/
theorem run_bind_matched {m : Machine α} {f : α → Machine β} {a : α}
    (h : m k σ = some (.matched a, τ)) : (m >>= f) k σ = f a k τ := by
  simp only [Bind.bind, Machine.bind, h]

theorem run_bind_failed {m : Machine α} {f : α → Machine β} (h : m k σ = some (.failed, τ)) :
    (m >>= f) k σ = some (.failed, τ) := by
  simp only [Bind.bind, Machine.bind, h]

theorem run_bind_aborted {m : Machine α} {f : α → Machine β} {e : ParseError}
    (h : m k σ = some (.aborted e, τ)) : (m >>= f) k σ = some (.aborted e, τ) := by
  simp only [Bind.bind, Machine.bind, h]

/-- An attempt changes the ending and leaves the store alone. What a failing part
    has left in the store is for the caller to restore. -/
theorem run_attempt (m : Machine α) :
    m.attempt k σ = (m k σ).map fun x => (x.1.attempted, x.2) := by
  unfold attempt
  cases h : m k σ with
  | none => rfl
  | some x =>
    obtain ⟨o, τ⟩ := x
    cases o <;> rfl

theorem run_collect {m : Machine α} {o : Outcome α} (h : m k { σ with out := [] } = some (o, τ)) :
    m.collect k σ = some (o.map fun a => (a, τ.out), { τ with out := σ.out }) := by
  have hcapture : capture m k σ = some (.matched (o, τ.out), { τ with out := σ.out }) := by
    simp only [capture, h]
  unfold collect
  rw [run_bind_matched hcapture]
  cases o <;> rfl

/-- From the store `σ` a machine does as the matcher `spec` does: it does not break
    down, ends as the matcher does and appends what the matcher writes down. What
    becomes of the child vector, which the matcher does not know, is said along with
    the values. -/
def Follows (k : Setting) (σ : Store) (m : Machine β) (spec : Matcher α)
    (post : α → β → Store → Prop) (fallback : Store → Prop) : Prop :=
  ∃ (o : Outcome β) (τ : Store), m k σ = some (o, τ) ∧
    τ = σ.after (spec (σ.context k) σ.state) τ.out ∧
    (spec (σ.context k) σ.state).outcome.Agrees (fun a b => post a b τ) (fallback τ) o

namespace Follows

variable {m : Machine β} {spec : Matcher α} {post : α → β → Store → Prop} {fallback : Store → Prop}

/-- What is said of values and failures may be weakened. The stack and the count are
    what they were, which may be used for it. -/
theorem imp {post' : α → β → Store → Prop} {fallback' : Store → Prop}
    (h : Follows k σ m spec post fallback)
    (hpost : ∀ a b τ, τ.stack = σ.stack → τ.depth = σ.depth → post a b τ → post' a b τ)
    (hfallback : ∀ τ, τ.stack = σ.stack → τ.depth = σ.depth → fallback τ → fallback' τ) :
    Follows k σ m spec post' fallback' := by
  obtain ⟨o, τ, hrun, hτ, hends⟩ := h
  have hstack : τ.stack = σ.stack := by rw [hτ]; rfl
  have hdepth : τ.depth = σ.depth := by rw [hτ]; rfl
  exact ⟨o, τ, hrun, hτ, hends.imp (fun a b => hpost a b τ hstack hdepth)
    (hfallback τ hstack hdepth)⟩

/-- A step on both sides that writes nothing down. Only the child vector may change,
    of which the matcher knows nothing. -/
theorem of_quiet (o : Outcome β) (out : List Tree)
    (hrun : m k σ = some (o, { σ with out }))
    (hstate : (spec (σ.context k) σ.state).state = σ.state)
    (hmisses : (spec (σ.context k) σ.state).record.misses.toList = [])
    (hevents : (spec (σ.context k) σ.state).record.events.toList = [])
    (hbreakpoints : (spec (σ.context k) σ.state).record.breakpoints.toList = [])
    (hends : (spec (σ.context k) σ.state).outcome.Agrees (fun a b => post a b { σ with out })
      (fallback { σ with out }) o) :
    Follows k σ m spec post fallback :=
  ⟨o, _, hrun, (Store.after_of_quiet hstate hmisses hevents hbreakpoints out).symm, hends⟩

theorem pure {a : α} {b : β} (h : post a b σ) :
    Follows k σ (Pure.pure b) (Pure.pure a) post fallback :=
  of_quiet (.matched b) σ.out rfl rfl rfl rfl rfl h

theorem fail (h : fallback σ) : Follows k σ Machine.fail Matcher.fail post fallback :=
  of_quiet .failed σ.out rfl rfl rfl rfl rfl h

theorem abort (e : ParseError) : Follows k σ (Machine.abort e) (Matcher.abort e) post fallback :=
  of_quiet (.aborted e) σ.out rfl rfl rfl rfl rfl rfl

/-- Two steps that follow one another on both sides. The rest is followed from
    whatever store the first step leaves. -/
theorem bind {f : β → Machine δ} {g : α → Matcher γ} {post : γ → δ → Store → Prop}
    (h : Follows k σ m spec (fun a b τ => Follows k τ (f b) (g a) post fallback) fallback) :
    Follows k σ (m >>= f) (spec >>= g) post fallback := by
  obtain ⟨o, τ, hrun, hτ, hends⟩ := h
  cases hspec : (spec (σ.context k) σ.state).outcome with
  | matched a =>
    cases o with
    | matched b =>
      simp only [hspec, Outcome.Agrees] at hends
      obtain ⟨o', υ, hrun', hυ, hends'⟩ := hends
      have hcontext : τ.context k = σ.context k := by rw [hτ]; rfl
      have hstate : τ.state = (spec (σ.context k) σ.state).state := by rw [hτ]; rfl
      rw [hcontext, hstate] at hυ hends'
      refine ⟨o', υ, (run_bind_matched hrun).trans hrun', ?_, ?_⟩
      · rw [Matcher.run_bind_matched hspec, ← Store.after_after σ _ _ τ.out, ← hτ]
        exact hυ
      · rw [Matcher.run_bind_matched hspec]
        exact hends'
    | failed | aborted => simp only [hspec, Outcome.Agrees] at hends
  | failed =>
    cases o with
    | failed =>
      simp only [hspec, Outcome.Agrees] at hends
      refine ⟨.failed, τ, run_bind_failed hrun, ?_, ?_⟩
      · rw [Matcher.run_bind_failed hspec]
        exact hτ
      · rw [Matcher.run_bind_failed hspec]
        exact hends
    | matched | aborted => simp only [hspec, Outcome.Agrees] at hends
  | aborted e =>
    cases o with
    | aborted e' =>
      simp only [hspec, Outcome.Agrees] at hends
      refine ⟨.aborted e', τ, run_bind_aborted hrun, ?_, ?_⟩
      · rw [Matcher.run_bind_aborted hspec]
        exact hτ
      · rw [Matcher.run_bind_aborted hspec]
        exact hends
    | matched | failed => simp only [hspec, Outcome.Agrees] at hends

section Machine

variable {f : γ → Machine β}

/-- A step of the machine alone. It may only change the child vector. -/
theorem aside {step : Machine γ} {c : γ} (out : List Tree)
    (hrun : step k σ = some (.matched c, { σ with out }))
    (h : Follows k { σ with out } (f c) spec post fallback) :
    Follows k σ (step >>= f) spec post fallback := by
  obtain ⟨o, τ, hrun', hτ, hends⟩ := h
  exact ⟨o, τ, (run_bind_matched hrun).trans hrun', hτ, hends⟩

/-- To read the store is a step of the machine alone. -/
theorem read {r : Setting → Store → γ} (h : Follows k σ (f (r k σ)) spec post fallback) :
    Follows k σ (Machine.read r >>= f) spec post fallback :=
  aside σ.out rfl h

end Machine

section Matcher

variable {g : γ → Matcher α} {p : Matcher γ}

/-- A step of the matcher alone, which changes nothing. The machine does without it,
    so what is left to compare is the rest of the matcher. -/
theorem unseen {c : γ} (houtcome : (p (σ.context k) σ.state).outcome = .matched c)
    (hstate : (p (σ.context k) σ.state).state = σ.state)
    (hmisses : (p (σ.context k) σ.state).record.misses.toList = [])
    (hevents : (p (σ.context k) σ.state).record.events.toList = [])
    (hbreakpoints : (p (σ.context k) σ.state).record.breakpoints.toList = [])
    (h : Follows k σ m (g c) post fallback) : Follows k σ m (p >>= g) post fallback := by
  obtain ⟨o, τ, hrun, hτ, hends⟩ := h
  refine ⟨o, τ, hrun, ?_, ?_⟩
  · rw [Matcher.run_bind_matched houtcome, ← Store.after_after σ _ _ σ.out,
      Store.after_of_quiet hstate hmisses hevents hbreakpoints, hstate]
    exact hτ
  · rw [Matcher.run_bind_matched houtcome, hstate]
    exact hends

/-- To ask for the position is one, and the cursor of the store is the answer. -/
theorem specPosition {g : Nat → Matcher α} (h : Follows k σ m (g σ.position) post fallback) :
    Follows k σ m (Matcher.position >>= g) post fallback :=
  unseen rfl rfl rfl rfl rfl h

theorem specPeek {g : Option Token → Matcher α}
    (h : Follows k σ m (g k.tokens[σ.position]?) post fallback) :
    Follows k σ m (Matcher.peek >>= g) post fallback :=
  unseen rfl rfl rfl rfl rfl h

theorem specContext {g : Context → Matcher α}
    (h : Follows k σ m (g (σ.context k)) post fallback) :
    Follows k σ m (Matcher.context >>= g) post fallback :=
  unseen rfl rfl rfl rfl rfl h

end Matcher

section Step

variable {post : Unit → Unit → Store → Prop}

theorem report {e : Event} (h : ∀ τ, σ.Still τ → post () () τ) :
    Follows k σ (Machine.report e) (Matcher.report e) post fallback := by
  refine ⟨.matched (), _, rfl, ?_, h _ ⟨rfl, rfl, rfl, rfl, rfl⟩⟩
  simp [Store.after, Matcher.report, Store.state]

/-- To set the cursor is to seek, if the target is inside the input. Both sides are
    left with the cursor at the target and nothing else changed. -/
theorem reset {target : Nat} (htarget : target ≤ k.tokens.size)
    (h : post () () { σ with position := target }) :
    Follows k σ (Machine.reset target) (Matcher.seek target) post fallback := by
  refine ⟨.matched (), { σ with position := target }, ?_, ?_, h⟩
  · unfold Machine.reset
    rw [run_bind_matched (a := ()) (τ := σ) (by simp [Machine.require, htarget])]
    rfl
  · simp [Store.after, Matcher.seek, Store.state]

theorem bump (hlt : σ.position < k.tokens.size)
    (h : post () () { σ with position := σ.position + 1 }) :
    Follows k σ Machine.bump Matcher.advance post fallback := by
  refine ⟨.matched (), { σ with position := σ.position + 1 }, ?_, ?_, h⟩
  · unfold Machine.bump
    rw [run_bind_matched (a := ()) (τ := σ) (by simp [Machine.require, hlt])]
    rfl
  · simp [Store.after, Matcher.advance, Store.state]

/-- What is expected is appended to the log of misses on both sides. The entries are
    at the cursor, which is at the same place. -/
theorem expect {expected : List Expectation}
    (h : ∀ log, post () () { σ with log }) :
    Follows k σ (Machine.expect expected) (Matcher.expect expected) post fallback := by
  refine ⟨.matched (), _, rfl, ?_, h _⟩
  simp [Store.after, Matcher.expect, Store.state, Record.empty]

/-- The fuel goes down by one on both sides, or both run out of it. Nothing of a
    store has changed then that could be gone back to. -/
theorem charge (h : ∀ τ, σ.Still τ → post () () τ) :
    Follows k σ Machine.charge Matcher.charge post fallback := by
  have hread : (Machine.read fun _ σ => σ.fuel) k σ = some (.matched σ.fuel, σ) := rfl
  unfold Machine.charge Matcher.charge
  cases hfuel : σ.fuel with
  | zero =>
    refine ⟨.aborted .outOfFuel, σ, ?_, ?_, ?_⟩
    · rw [run_bind_matched hread, if_pos hfuel]
      rfl
    · cases σ
      simp_all [Store.after, Store.state]
    · simp [Store.state, hfuel, Outcome.Agrees]
  | succ fuel =>
    refine ⟨.matched (), { σ with fuel }, ?_, ?_, ?_⟩
    · rw [run_bind_matched hread, if_neg (by simp [hfuel])]
      simp [Machine.update, hfuel]
    · simp [Store.after, Store.state, hfuel]
    · simp only [Store.state, hfuel, Outcome.Agrees]
      exact h _ ⟨rfl, rfl, rfl, rfl, rfl⟩

theorem checkPatience (h : post () () σ) :
    Follows k σ Machine.checkPatience Matcher.checkPatience post fallback := by
  have hread : (Machine.read fun _ σ => σ.patience) k σ = some (.matched σ.patience, σ) := rfl
  unfold Machine.checkPatience Matcher.checkPatience
  by_cases hpatience : σ.patience = some 0
  · refine ⟨.aborted .cancelled, { σ with events := σ.events ++ [.interrupted σ.position] },
      ?_, ?_, ?_⟩
    · rw [run_bind_matched hread, if_pos hpatience]
      rfl
    · simp [Store.after, Store.state, hpatience]
    · simp [Store.state, hpatience, Outcome.Agrees]
  · refine ⟨.matched (), σ, ?_, ?_, ?_⟩
    · rw [run_bind_matched hread, if_neg hpatience]
      rfl
    · simp [Store.after, Store.state, hpatience]
    · simp only [Store.state, hpatience, Outcome.Agrees]
      exact h

end Step

/-- An attempt follows where what is attempted does. A failure of the part is a
    value now, so the place to go on from is known from what held of failures. -/
theorem attempt {post : Option α → Option β → Store → Prop}
    (h : Follows k σ m spec (fun a b τ => post (some a) (some b) τ) (post none none)) :
    Follows k σ m.attempt spec.attempt post fallback := by
  obtain ⟨o, τ, hrun, hτ, hends⟩ := h
  refine ⟨o.attempted, τ, ?_, ?_, ?_⟩
  · rw [run_attempt, hrun]
    rfl
  · rw [Matcher.run_attempt]
    exact hτ
  · rw [Matcher.run_attempt]
    exact Outcome.Agrees.attempted hends

/-- A child vector of its own is empty in the beginning and given back in the end.
    The nodes that it has collected are a value of the matcher's run as well. -/
theorem collect {post : α → β × List Tree → Store → Prop}
    (h : Follows k { σ with out := [] } m spec
      (fun a b τ => post a (b, τ.out) { τ with out := σ.out })
      (fun τ => fallback { τ with out := σ.out })) :
    Follows k σ m.collect spec post fallback := by
  obtain ⟨o, τ, hrun, hτ, hends⟩ := h
  refine ⟨_, _, run_collect hrun, ?_, Outcome.Agrees.map_right hends⟩
  rw [hτ]
  rfl

/-- The same for an attempt. -/
theorem gather {post : Option α → Option (β × List Tree) → Store → Prop}
    (h : Follows k { σ with out := [] } m spec
      (fun a b τ => post (some a) (some (b, τ.out)) { τ with out := σ.out })
      (fun τ => post none none { τ with out := σ.out })) :
    Follows k σ m.gather spec.attempt post fallback :=
  attempt (collect h)

/-- What the matcher listens to is what is appended to the log. The machine reads
    this off its log, from the length that the log had before. -/
theorem listen {post : α × Journal Miss → β → Store → Prop}
    (h : Follows k σ m spec (fun a b τ => ∀ misses : Journal Miss,
      τ.log = σ.log ++ misses.toList → post (a, misses) b τ) fallback) :
    Follows k σ m spec.listen post fallback := by
  obtain ⟨o, τ, hrun, hτ, hends⟩ := h
  have hlog : τ.log = σ.log ++ (spec (σ.context k) σ.state).record.misses.toList := by
    rw [hτ]
    rfl
  refine ⟨o, τ, hrun, ?_, ?_⟩
  · rw [Matcher.run_listen]
    exact hτ
  · rw [Matcher.run_listen]
    exact Outcome.Agrees.map_left (hends.imp (fun a b hpost => hpost _ hlog) id)

end Follows

end Machine

end SqlStatement

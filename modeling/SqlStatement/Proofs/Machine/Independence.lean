import SqlStatement.Proofs.Machine.Refinement
import SqlStatement.Proofs.Match.Blind
import SqlStatement.Proofs.Match.Heeds
import SqlStatement.Sqlite

namespace SqlStatement

open Grammar (Leaf Sequence Term)

namespace Machine

variable {α β : Type} {k : Setting} {σ τ : Store}

/-- How a bind ends: with its first part, or with the rest of it. The store in the
    first case is the one that the first part has left. -/
theorem bind_cases {m : Machine α} {f : α → Machine β} {o : Outcome β}
    (h : (m >>= f) k σ = some (o, τ)) :
    (∃ o' : Outcome α, m k σ = some (o', τ) ∧ ∀ a, o' ≠ .matched a) ∨
      ∃ a υ, m k σ = some (.matched a, υ) ∧ f a k υ = some (o, τ) := by
  cases hrun : m k σ with
  | none => simp [Bind.bind, Machine.bind, hrun] at h
  | some x =>
    obtain ⟨o', υ⟩ := x
    cases o' with
    | matched a =>
      rw [run_bind_matched hrun] at h
      exact .inr ⟨a, υ, rfl, h⟩
    | failed =>
      rw [run_bind_failed hrun] at h
      cases h
      exact .inl ⟨.failed, rfl, fun _ h => by cases h⟩
    | aborted e =>
      rw [run_bind_aborted hrun] at h
      cases h
      exact .inl ⟨.aborted e, rfl, fun _ h => by cases h⟩

/-- However `m` ends, the child vector is what it was. -/
def KeepsOut (m : Machine α) : Prop := ∀ k σ o τ, m k σ = some (o, τ) → τ.out = σ.out

/-- Where `m` ends the parse, the child vector is what it was. -/
def SparesOut (m : Machine α) : Prop :=
  ∀ k σ e τ, m k σ = some (.aborted e, τ) → τ.out = σ.out

namespace KeepsOut

/-- Steps that keep the child vector keep it in a row. If the first one ends early,
    the second one does not push at all. -/
theorem bind {m : Machine α} {f : α → Machine β} (hm : KeepsOut m) (hf : ∀ a, KeepsOut (f a)) :
    KeepsOut (m >>= f) := by
  intro k σ o τ h
  rcases bind_cases h with ⟨o', hrun, -⟩ | ⟨a, υ, hrun, hrest⟩
  · exact hm k σ o' τ hrun
  · exact (hf a k υ o τ hrest).trans (hm k σ _ υ hrun)

/-- Only the last part may push onto the child vector, if it does not end the parse
    then. -/
theorem spares {m : Machine α} {f : α → Machine β} (hm : KeepsOut m) (hf : ∀ a, SparesOut (f a)) :
    SparesOut (m >>= f) := by
  intro k σ e τ h
  rcases bind_cases h with ⟨o', hrun, -⟩ | ⟨a, υ, hrun, hrest⟩
  · exact hm k σ o' τ hrun
  · exact (hf a k υ e τ hrest).trans (hm k σ _ υ hrun)

/-- What always keeps the child vector keeps it where it ends the parse. -/
theorem sparesOut {m : Machine α} (hm : KeepsOut m) : SparesOut m :=
  fun k σ e τ h => hm k σ (.aborted e) τ h

theorem pure (a : α) : KeepsOut (Pure.pure a : Machine α) := fun _ _ _ _ h => by cases h; rfl

theorem fail : KeepsOut (Machine.fail : Machine α) := fun _ _ _ _ h => by cases h; rfl

theorem abort (e : ParseError) : KeepsOut (Machine.abort e : Machine α) :=
  fun _ _ _ _ h => by cases h; rfl

theorem broken : KeepsOut (Machine.broken : Machine α) := nofun

theorem read (f : Setting → Store → α) : KeepsOut (Machine.read f) :=
  fun _ _ _ _ h => by cases h; rfl

/-- A change of anything else keeps the child vector. -/
theorem update {f : Store → Store} (hf : ∀ σ, (f σ).out = σ.out) : KeepsOut (Machine.update f) :=
  fun _ σ _ _ h => by cases h; exact hf σ

theorem require (condition : Setting → Store → Bool) : KeepsOut (Machine.require condition) := by
  intro k σ o τ h
  unfold Machine.require at h
  split at h
  · cases h
    rfl
  · cases h

theorem report (e : Event) : KeepsOut (Machine.report e) := update fun _ => rfl

theorem reset (target : Nat) : KeepsOut (Machine.reset target) :=
  bind (require _) fun _ => update fun _ => rfl

theorem charge : KeepsOut Machine.charge := by
  refine bind (read _) fun fuel => ?_
  split
  · exact abort _
  · exact update fun _ => rfl

theorem since (mark : Nat) : KeepsOut (Machine.since mark) := bind (require _) fun _ => read _

theorem attempt {m : Machine α} (hm : KeepsOut m) : KeepsOut m.attempt := by
  intro k σ o τ h
  rw [run_attempt] at h
  obtain ⟨⟨o', υ⟩, hrun, hx⟩ := Option.map_eq_some_iff.mp h
  cases hx
  exact hm k σ o' υ hrun

/-- What is pushed meanwhile goes onto another vector. -/
theorem capture (m : Machine α) : KeepsOut m.capture := by
  intro k σ o τ h
  unfold Machine.capture at h
  split at h
  · cases h
  · cases h
    rfl

/-- The vector of its own is handed on as a value. The outer vector is put back
    before the value is returned. -/
theorem collect (m : Machine α) : KeepsOut m.collect := by
  refine bind (capture m) fun x => ?_
  obtain ⟨o, children⟩ := x
  match o with
  | .matched a => exact pure _
  | .failed => exact fail
  | .aborted e => exact abort e

theorem gather (m : Machine α) : KeepsOut m.gather := (collect m).attempt

theorem blame (mark : Nat) : KeepsOut (Machine.blame mark : Machine α) :=
  bind (since mark) fun _ => bind (read _) fun _ => bind (read _) fun _ =>
    bind (report _) fun _ => abort _

/-- Going back only moves the cursor. -/
theorem backtrack (target : Nat) : KeepsOut (Machine.backtrack target) := by
  refine bind (read _) fun here => ?_
  split
  · exact pure _
  · exact bind (report _) fun _ => reset target

theorem conclude (p : Grammar.Production) (start mark : Nat) (children : List Tree)
    (result : Outcome Bool) : KeepsOut (Machine.conclude p start mark children result) := by
  have hcollapse (label : String) : KeepsOut (Machine.collapse mark start label) := by
    refine bind (since mark) fun misses => ?_
    split
    · exact pure _
    · exact update fun _ => rfl
  cases result with
  | matched committed => exact bind (read _) fun _ => bind (require _) fun _ => pure _
  | failed =>
    unfold Machine.conclude
    cases p.label with
    | none => exact fail
    | some label =>
      refine bind (read _) fun purpose => ?_
      split
      · exact bind (hcollapse label) fun _ => fail
      · exact fail
  | aborted e => exact abort e

/-- The nodes of a production go into its tree. -/
theorem production (p : Grammar.Production) (body : Machine Bool) :
    KeepsOut (Machine.production p body) :=
  bind (read _) fun _ => bind (read _) fun _ => bind (update fun _ => rfl) fun _ =>
    bind (report _) fun _ => bind (capture body) fun _ => bind (read _) fun _ =>
      bind (report _) fun _ =>
        bind (bind (require _) fun _ => update fun _ => rfl) fun _ => conclude _ _ _ _ _

end KeepsOut

namespace SparesOut

theorem push (tree : Tree) : SparesOut (Machine.push tree) := nofun

/-- Nor does a node over the tokens since some place. -/
theorem pushSpan (label : Tree.Label) (start : Nat) (children : List Tree) :
    SparesOut (Machine.pushSpan label start children) := by
  refine (KeepsOut.read _).spares fun stop => ?_
  split
  · exact push _
  · exact (KeepsOut.pure _).sparesOut

/-- A leaf pushes where it has accepted its token. Where it fails, only the log has
    got longer. -/
theorem leaf (l : Leaf) : SparesOut (Machine.leaf l) := by
  have hmiss (next : Option Token) (here : Nat) :
      KeepsOut (Machine.expect (l.misses next) >>= fun _ =>
        Machine.report (.miss l.announced here) >>= fun _ => (Machine.fail : Machine Unit)) :=
    .bind (.update fun _ => rfl) fun _ => .bind (.report _) fun _ => .fail
  refine (KeepsOut.read _).spares fun here => (KeepsOut.read _).spares fun next => ?_
  cases next with
  | none => exact (hmiss none here).sparesOut
  | some token =>
    dsimp only
    split
    · have hbump : KeepsOut Machine.bump := .bind (.require _) fun _ => .update fun _ => rfl
      exact (KeepsOut.report _).spares fun _ => hbump.spares fun _ => push _
    · exact (hmiss (some token) here).sparesOut

/-- An optional part pushes one node when its body has ended. If the body aborts, it
    has pushed onto a vector of its own. -/
theorem optional (body : Machine Bool) : SparesOut (Machine.optional body) := by
  refine (KeepsOut.read _).spares fun start => (KeepsOut.gather body).spares fun found => ?_
  match found with
  | some (_, children) => exact pushSpan _ _ _
  | none => exact (KeepsOut.pure _).sparesOut

/-- An alternation pushes one node when it is decided. The candidates push onto a
    vector of their own meanwhile. -/
theorem choose (start : Nat) (owner : String) (candidates : List (Machine Bool)) (branch : Nat)
    (best : Option Matcher.Provisional) :
    SparesOut (Machine.choose start owner candidates branch best) := by
  induction candidates generalizing branch best with
  | nil =>
    cases best with
    | none => exact ((KeepsOut.backtrack start).bind fun _ => .fail).sparesOut
    | some best => exact (KeepsOut.reset _).spares fun _ => pushSpan _ _ _
  | cons candidate rest ih =>
    refine (KeepsOut.reset start).spares fun _ => (KeepsOut.report _).spares fun _ => ?_
    refine (KeepsOut.gather candidate).spares fun found => ?_
    match found with
    | some (true, children) => exact pushSpan _ _ _
    | some (false, children) => exact (KeepsOut.read _).spares fun stop => ih _ _
    | none => exact ih _ _

/-- A repetition pushes one node over all of its turns. The turns themselves go onto
    another vector. -/
theorem repetition (item : Machine Bool) (separator : Option (Machine Bool)) (least : Nat) :
    SparesOut (Machine.repetition item separator least) := by
  refine (KeepsOut.read _).spares fun start => (KeepsOut.read _).spares fun size => ?_
  refine (KeepsOut.collect _).spares fun counted => ?_
  obtain ⟨count, children⟩ := counted
  dsimp only
  split
  · exact ((KeepsOut.backtrack start).bind fun _ => .fail).sparesOut
  · exact pushSpan _ _ _

theorem breakpoint : SparesOut Machine.breakpoint := by
  refine (KeepsOut.read _).spares fun here => (KeepsOut.read _).spares fun stack => ?_
  refine (KeepsOut.report _).spares fun _ => (KeepsOut.read _).spares fun atEnd => ?_
  split
  · exact KeepsOut.sparesOut (.update fun _ => rfl)
  · exact (KeepsOut.pure _).sparesOut

end SparesOut

end Machine

namespace Grammar

open Machine (KeepsOut SparesOut)

/-- A term pushes its node when nothing can go wrong any more. So what is on the
    vector when a term fails or ends the parse is what was there. -/
theorem Term.sparesOut {call : String → Machine Tree} (hcall : ∀ name, KeepsOut (call name))
    (t : Term) : SparesOut (t.machine call) := by
  cases t with
  | leaf l => exact KeepsOut.charge.spares fun _ => .leaf l
  | production name =>
    refine KeepsOut.charge.spares fun _ => (hcall name).spares fun tree => ?_
    split
    · exact (KeepsOut.pure _).sparesOut
    · exact .push _
  | optional body => exact KeepsOut.charge.spares fun _ => .optional _
  | alternation candidates =>
    exact KeepsOut.charge.spares fun _ => (KeepsOut.read _).spares fun _ =>
      (KeepsOut.read _).spares fun _ => .choose _ _ _ _ _
  | repetition item separator least =>
    cases separator with
    | none | some => exact KeepsOut.charge.spares fun _ => .repetition _ _ _
  | breakpoint => exact KeepsOut.charge.spares fun _ => .breakpoint

/-- A production never changes the child vector that it finds. Its tree is a value,
    and its body has a vector to itself. -/
theorem keepsOut_machine (g : Grammar) (calls : Nat) (name : String) :
    KeepsOut (g.machine calls name) := by
  unfold machine
  cases g.find? name with
  | none => exact .abort _
  | some p =>
    refine .bind (.read _) fun full => ?_
    split
    · exact .abort _
    · cases calls with
      | zero => exact .broken
      | succ calls => exact .production p _

end Grammar

/-- The nodes of the terms that match one behind the other, up to the first one that
    does not. -/
def Matcher.gathered (c : Context) : List (Matcher (List Tree)) → State → List Tree
  | [], _ => []
  | m :: ms, s =>
    match (m c s).outcome with
    | .matched nodes => nodes ++ gathered c ms (m c s).state
    | _ => []

/-- Which nodes are gathered does not depend on the open productions. The stack is
    for reports and breakpoints only. -/
theorem Matcher.gathered_blind {ms : List (Matcher (List Tree))}
    (hms : ∀ m ∈ ms, Blind (fun _ => True) m) (c : Context) (stack : List String) (s : State) :
    gathered { c with stack } ms s = gathered c ms s := by
  induction ms generalizing s with
  | nil => rfl
  | cons m ms ih =>
    obtain ⟨hm, hms⟩ := List.forall_mem_cons.mp hms
    obtain ⟨-, h⟩ := hm c stack s
    rw [gathered, gathered, h.outcome_eq, h.state_eq]
    cases (m c s).outcome with
    | matched nodes => exact congrArg (nodes ++ ·) (ih hms _)
    | failed | aborted => rfl

namespace Machine

variable {k : Setting} {σ τ : Store} {d : Nat} {ms : List (Machine Unit)}
  {specs : List (Matcher (List Tree))}

/-- Without a limit on patience, a test for cancellation does nothing. -/
theorem run_checkPatience (hpatience : σ.patience = none) :
    checkPatience k σ = some (.matched (), σ) := by
  have hread : (Machine.read fun _ σ => σ.patience) k σ = some (.matched none, σ) := by
    rw [← hpatience]
    rfl
  unfold checkPatience
  rw [run_bind_matched hread]
  rfl

/-- To report a commitment changes nothing but the events. So the cursor, the
    allowances and the child vector are those from before. -/
theorem run_commitAt (hpatience : σ.patience = none) (threshold earned : Nat) (committed : Bool) :
    ∃ committed' events,
      commitAt threshold earned committed k σ = some (.matched committed', { σ with events }) := by
  unfold commitAt
  split
  · refine ⟨true, σ.events ++ [.commit σ.position], ?_⟩
    have hposition : Machine.position k σ = some (.matched σ.position, σ) := rfl
    have hreport : Machine.report (.commit σ.position) k σ =
        some (.matched (), { σ with events := σ.events ++ [.commit σ.position] }) := by
      unfold Machine.report Machine.update
      simp [hpatience, Event.isStep]
    rw [run_bind_matched hposition, run_bind_matched hreport]
    rfl
  · exact ⟨committed, σ.events, rfl⟩

/-- The machine of a term follows its matcher, and pushes nothing where it ends the
    parse. -/
structure FollowsSparing (k : Setting) (d : Nat) (m : Machine Unit)
    (spec : Matcher (List Tree)) : Prop where
  follows : FollowsTerm k d m spec
  sparesOut : SparesOut m
  unhurried : ∀ c place fuel, (spec c ⟨place, fuel, none⟩).state.patience = none

/-- However the steps of a sequence end, they have pushed the nodes of those that
    match. -/
theorem steps_out (hms : List.Forall₂ (FollowsSparing k d) ms specs) (threshold earned : Nat)
    (committed : Bool) (hσ : σ.position ≤ k.tokens.size) (hd : k.limit - σ.depth = d)
    (hpatience : σ.patience = none) {o : Outcome Ending}
    (hrun : steps threshold ms earned committed k σ = some (o, τ)) :
    τ.out = σ.out ++ Matcher.gathered (σ.context k) specs σ.state := by
  induction hms generalizing earned committed σ with
  | nil =>
    obtain ⟨committed', events, hcommitAt⟩ := run_commitAt (k := k) hpatience threshold earned
      committed
    rw [steps, run_bind_matched hcommitAt] at hrun
    cases hrun
    exact (List.append_nil _).symm
  | @cons m spec ms specs hstep _ ih =>
    obtain ⟨committed', events, hcommitAt⟩ := run_commitAt (k := k) hpatience threshold earned
      committed
    rw [steps, run_bind_matched (run_checkPatience hpatience), run_bind_matched hcommitAt,
      run_bind_matched (a := σ.position) rfl] at hrun
    obtain ⟨o', υ, hm, hυ, hends⟩ := hstep.follows { σ with events } hσ hd
    have hattempt : m.attempt k { σ with events } = some (o'.attempted, υ) := by
      rw [run_attempt, hm]
      rfl
    have hunhurried : (spec (σ.context k) σ.state).state.patience = none := by
      rw [Store.state, hpatience]
      exact hstep.unhurried ..
    have hcontext : υ.context k = σ.context k := by rw [hυ]; rfl
    have hstate : υ.state = (spec (σ.context k) σ.state).state := by rw [hυ]; rfl
    have hdepth : υ.depth = σ.depth := by rw [hυ]; rfl
    change (spec (σ.context k) σ.state).outcome.Agrees _ _ o' at hends
    rw [Matcher.gathered]
    cases hspec : (spec (σ.context k) σ.state).outcome with
    | matched nodes =>
      cases o' with
      | matched _ =>
        simp only [hspec, Outcome.Agrees] at hends
        obtain ⟨hadvanced, hout⟩ := hends
        rw [run_bind_matched hattempt] at hrun
        have hleft : υ.patience = none := (congrArg State.patience hstate).trans hunhurried
        rw [ih _ _ hadvanced.le_size (hdepth ▸ hd) hleft hrun, hout, hcontext, hstate,
          List.append_assoc]
      | failed | aborted => simp only [hspec, Outcome.Agrees] at hends
    | failed =>
      cases o' with
      | failed =>
        simp only [hspec, Outcome.Agrees] at hends
        rw [run_bind_matched hattempt] at hrun
        cases hrun
        exact hends.out_eq.trans (List.append_nil _).symm
      | matched | aborted => simp only [hspec, Outcome.Agrees] at hends
    | aborted e =>
      cases o' with
      | aborted e' =>
        rw [run_bind_aborted hattempt] at hrun
        cases hrun
        exact (hstep.sparesOut k _ e' _ hm).trans (List.append_nil _).symm
      | matched | failed => simp only [hspec, Outcome.Agrees] at hends

/-- Going back never ends the parse. It neither charges nor tests for cancellation. -/
theorem backtrack_matched {target : Nat} {o : Outcome Unit}
    (h : backtrack target k σ = some (o, τ)) : o = .matched () := by
  rcases bind_cases h with ⟨_, hread, hunmatched⟩ | ⟨here, υ, hread, hrest⟩
  · cases hread
    exact absurd rfl (hunmatched _)
  · split at hrest
    · cases hrest
      rfl
    · rcases bind_cases hrest with ⟨_, hreport, hunmatched⟩ | ⟨_, ω, hreport, hreset⟩
      · cases hreport
        exact absurd rfl (hunmatched _)
      · rcases bind_cases hreset with ⟨_, hrequire, hunmatched⟩ | ⟨_, _, _, hupdate⟩
        · unfold require at hrequire
          split at hrequire
          · cases hrequire
            exact absurd rfl (hunmatched _)
          · cases hrequire
        · cases hupdate
          rfl

/-- A sequence that ends the parse leaves the nodes of its terms up to then. Nothing
    is truncated, because nothing goes on from there. -/
theorem sequence_aborted_out (hms : List.Forall₂ (FollowsSparing k d) ms specs) (threshold : Nat)
    (hσ : σ.position ≤ k.tokens.size) (hd : k.limit - σ.depth = d) (hpatience : σ.patience = none)
    {e : ParseError} (hrun : sequence threshold ms k σ = some (.aborted e, τ)) :
    τ.out = σ.out ++ Matcher.gathered (σ.context k) specs σ.state := by
  have hsteps {o : Outcome Ending} {υ : Store}
      (h : steps threshold ms 0 false k σ = some (o, υ)) :
      υ.out = σ.out ++ Matcher.gathered (σ.context k) specs σ.state :=
    steps_out hms threshold 0 false hσ hd hpatience h
  unfold sequence at hrun
  rw [run_bind_matched (a := σ.position) rfl, run_bind_matched (a := σ.log.length) rfl,
    run_bind_matched (a := σ.out.length) rfl] at hrun
  rcases bind_cases hrun with ⟨o', hends, -⟩ | ⟨ending, υ, hends, hrest⟩
  · exact hsteps hends
  · match ending with
    | .finished committed => cases hrest
    | .stuck true => exact (KeepsOut.blame _ k υ _ τ hrest).trans (hsteps hends)
    | .stuck false =>
      rcases bind_cases hrest with ⟨_, htruncate, hunmatched⟩ | ⟨_, ω, _, hback⟩
      · cases htruncate
        exact absurd rfl (hunmatched _)
      · rcases bind_cases hback with ⟨_, hmatched, hunmatched⟩ | ⟨_, _, _, hfail⟩
        · exact absurd (backtrack_matched hmatched) (hunmatched _)
        · cases hfail

end Machine

/-- Two stores at the same token, with the same allowances and nobody to cancel the
    match. -/
structure Store.Beside (k : Setting) (σ : Store) (k' : Setting) (σ' : Store) : Prop where
  tokens_eq : k'.tokens = k.tokens
  purpose_eq : k'.purpose = k.purpose
  position_eq : σ'.position = σ.position
  position_le : σ.position ≤ k.tokens.size
  fuel_eq : σ'.fuel = σ.fuel
  /-- As many more productions may be opened. -/
  levels_eq : k'.limit - σ'.depth = k.limit - σ.depth
  patience_eq : σ.patience = none
  patience_eq' : σ'.patience = none

namespace Store.Beside

variable {k k' : Setting} {σ σ' : Store}

/-- Stores beside each other are told apart by a matcher only by the open
    productions. -/
theorem context_eq (h : σ.Beside k k' σ') :
    σ'.context k' = { σ.context k with stack := σ'.stack } := by
  unfold Store.context
  rw [h.tokens_eq, h.purpose_eq]

theorem state_eq (h : σ.Beside k k' σ') : σ'.state = σ.state := by
  unfold Store.state
  rw [h.position_eq, h.fuel_eq, h.patience_eq, h.patience_eq']

end Store.Beside

namespace Machine

variable {α β : Type} {k k' : Setting} {σ σ' : Store}

/-- From their stores two machines end in the same way, at the same token and with
    as much fuel left, and append the same to the log and to the child vector. -/
def Concur (k : Setting) (σ : Store) (k' : Setting) (σ' : Store) (m m' : Machine α) : Prop :=
  ∃ (o : Outcome α) (τ τ' : Store) (misses : List Miss) (nodes : List Tree),
    m k σ = some (o, τ) ∧ m' k' σ' = some (o, τ') ∧
    τ'.position = τ.position ∧ τ'.fuel = τ.fuel ∧
    τ.log = σ.log ++ misses ∧ τ'.log = σ'.log ++ misses ∧
    τ.out = σ.out ++ nodes ∧ τ'.out = σ'.out ++ nodes

/-- Machines concur that follow the same matcher, if it does not look at the open
    productions. What they leave in the child vector where they end the parse has to
    be said apart, because the matcher has no nodes then. -/
theorem Concur.of_follows {m m' : Machine β} {spec : Matcher α} (value : α → β)
    (nodes : α → List Tree) (hbeside : σ.Beside k k' σ') (hblind : spec.Blind fun _ => True)
    (h : Follows k σ m spec (fun a b τ => b = value a ∧ τ.out = σ.out ++ nodes a) σ.RolledBack)
    (h' : Follows k' σ' m' spec (fun a b τ => b = value a ∧ τ.out = σ'.out ++ nodes a)
      σ'.RolledBack)
    (left : List Tree)
    (haborted : ∀ e τ, m k σ = some (.aborted e, τ) → τ.out = σ.out ++ left)
    (haborted' : ∀ e τ, m' k' σ' = some (.aborted e, τ) → τ.out = σ'.out ++ left) :
    Concur k σ k' σ' m m' := by
  obtain ⟨o, τ, hrun, hτ, hends⟩ := h
  obtain ⟨o', τ', hrun', hτ', hends'⟩ := h'
  obtain ⟨-, halike⟩ := hblind (σ.context k) σ'.stack σ.state
  rw [hbeside.context_eq, hbeside.state_eq] at hτ' hends'
  rw [halike.outcome_eq] at hends'
  have hposition : τ'.position = τ.position := by
    rw [hτ', hτ]
    exact congrArg State.position halike.state_eq
  have hfuel : τ'.fuel = τ.fuel := by
    rw [hτ', hτ]
    exact congrArg State.fuel halike.state_eq
  have hlog : τ.log = σ.log ++ (spec (σ.context k) σ.state).record.misses.toList := by
    rw [hτ]
    rfl
  have hlog' : τ'.log = σ'.log ++ (spec (σ.context k) σ.state).record.misses.toList := by
    rw [hτ', ← halike.misses_eq]
    rfl
  obtain ⟨rfl, more, hout, hout'⟩ : o' = o ∧ ∃ more, τ.out = σ.out ++ more ∧
      τ'.out = σ'.out ++ more := by
    cases hspec : (spec (σ.context k) σ.state).outcome with
    | matched a =>
      cases o <;> simp only [hspec, Outcome.Agrees] at hends
      cases o' <;> simp only [hspec, Outcome.Agrees] at hends'
      exact ⟨by rw [hends.1, hends'.1], nodes a, hends.2, hends'.2⟩
    | failed =>
      cases o <;> simp only [hspec, Outcome.Agrees] at hends
      cases o' <;> simp only [hspec, Outcome.Agrees] at hends'
      exact ⟨rfl, [], by rw [hends.out_eq, List.append_nil],
        by rw [hends'.out_eq, List.append_nil]⟩
    | aborted e =>
      cases o <;> simp only [hspec, Outcome.Agrees] at hends
      cases o' <;> simp only [hspec, Outcome.Agrees] at hends'
      exact ⟨by rw [← hends, ← hends'], left, haborted _ τ hrun, haborted' _ τ' hrun'⟩
  exact ⟨o', τ, τ', _, more, hrun, hrun', hposition, hfuel, hlog, hlog', hout, hout'⟩

end Machine

namespace Grammar

open Machine (Concur FollowsProduction Follows KeepsOut FollowsSparing)
open Matcher (Heeds)

section Steps

variable {k : Setting} {d : Nat} {machines : String → Machine Tree} {call : String → Matcher Tree}

/-- The machines of terms are steps of a sequence. They follow their matchers, and
    they push nothing before they can no longer fail or abort. -/
theorem sparing_termMachines (hfollows : ∀ name, FollowsProduction k d (machines name) (call name))
    (hkeeps : ∀ name, KeepsOut (machines name))
    (hheeds : ∀ name, Heeds 0 1 (fun _ => True) (call name)) (ts : List Term) :
    List.Forall₂ (FollowsSparing k d) (termMachines machines ts) (termMatchers call ts) := by
  induction ts with
  | nil => exact .nil
  | cons t ts ih =>
    exact .cons ⟨(follows_fold hfollows).term t, t.sparesOut hkeeps, fun c place fuel =>
      ((heeds_fold hheeds).term t c place fuel 0).2.patience_eq⟩ ih

end Steps

/-- From two stores that agree on the cursor and on the allowances, a term, a
    sequence and a production do the same: the logs, the open productions, the
    breakpoints and the child vectors that they find have no bearing on how they end
    or on what they append. -/
theorem machine_independent (g : Grammar) {k k' : Setting} {σ σ' : Store}
    (h : σ.Beside k k' σ') :
    (∀ t : Term,
      Concur k σ k' σ' (t.machine (g.machine k.limit)) (t.machine (g.machine k'.limit))) ∧
    (∀ s : Sequence,
      Concur k σ k' σ' (s.machine (g.machine k.limit)) (s.machine (g.machine k'.limit))) ∧
    ∀ name, Concur k σ k' σ' (g.machine k.limit name) (g.machine k'.limit name) := by
  have hposition' : σ'.position ≤ k'.tokens.size := by
    rw [h.position_eq, h.tokens_eq]
    exact h.position_le
  -- both runs follow the matchers with as many levels as are left
  generalize hlevels : k.limit - σ.depth = d
  have hlevels' : k'.limit - σ'.depth = d := h.levels_eq.trans hlevels
  have hcall := g.follows_machine k (show d ≤ k.limit by omega)
  have hcall' := g.follows_machine k' (show d ≤ k'.limit by omega)
  have hkeeps := g.keepsOut_machine k.limit
  have hkeeps' := g.keepsOut_machine k'.limit
  have hblind := Discipline.blind.keeps_matcher (g := g) (fun _ _ => trivial) d
  have hblindFold := Discipline.blind.fold hblind
  refine ⟨fun t => ?_, fun s => ?_, fun name => ?_⟩
  · refine Concur.of_follows (fun _ => ()) id h
      (hblindFold.term t fun _ _ => trivial)
      (((follows_fold hcall).term t σ h.position_le hlevels).imp
        (fun _ _ _ _ _ hτ => ⟨rfl, hτ.2⟩) fun _ _ _ => id)
      (((follows_fold hcall').term t σ' hposition' hlevels').imp
        (fun _ _ _ _ _ hτ => ⟨rfl, hτ.2⟩) fun _ _ _ => id) [] ?_ ?_
    · exact fun e τ hrun =>
        (t.sparesOut hkeeps k σ e τ hrun).trans (List.append_nil _).symm
    · exact fun e τ hrun =>
        (t.sparesOut hkeeps' k' σ' e τ hrun).trans (List.append_nil _).symm
  · obtain ⟨terms, commit⟩ := s
    have hheeds := g.heeds_matcher d
    have hunread := Discipline.blind.forall_keeps_of_forall₂ (hblindFold.terms terms)
      fun _ _ _ _ => trivial
    refine Concur.of_follows Prod.fst Prod.snd h
      (hblindFold.ofSequence ⟨terms, commit⟩ fun _ _ => trivial)
      (((follows_fold hcall).ofSequence ⟨terms, commit⟩ σ h.position_le hlevels).imp
        (fun _ _ _ _ _ hτ => ⟨hτ.1, hτ.2.2⟩) fun _ _ _ => id)
      (((follows_fold hcall').ofSequence ⟨terms, commit⟩ σ' hposition' hlevels').imp
        (fun _ _ _ _ _ hτ => ⟨hτ.1, hτ.2.2⟩) fun _ _ _ => id)
      (Matcher.gathered (σ.context k) (termMatchers (g.matcher d) terms) σ.state) ?_ ?_
    · exact fun e τ hrun => Machine.sequence_aborted_out
        (sparing_termMachines hcall hkeeps hheeds terms) commit h.position_le hlevels
        h.patience_eq hrun
    · intro e τ hrun
      have hout := Machine.sequence_aborted_out
        (sparing_termMachines hcall' hkeeps' hheeds terms) commit hposition' hlevels'
        h.patience_eq' hrun
      rwa [h.context_eq, h.state_eq, Matcher.gathered_blind hunread] at hout
  · refine Concur.of_follows id (fun _ => []) h (hblind name)
      ((hcall name σ h.position_le hlevels).imp
        (fun _ _ _ _ _ hτ => ⟨hτ.1, hτ.2.2.trans (List.append_nil _).symm⟩) fun _ _ _ => id)
      ((hcall' name σ' hposition' hlevels').imp
        (fun _ _ _ _ _ hτ => ⟨hτ.1, hτ.2.2.trans (List.append_nil _).symm⟩) fun _ _ _ => id)
      [] ?_ ?_
    · exact fun e τ hrun => (hkeeps name k σ _ τ hrun).trans (List.append_nil _).symm
    · exact fun e τ hrun => (hkeeps' name k' σ' _ τ hrun).trans (List.append_nil _).symm

/-- A range test on `NOT BETWEEN DROP TABLE` is blamed for its third token wherever
    it is tried: on its own, or inside an expression, behind a column and after the
    fourth token was missed. -/
theorem machine_independent_between :
    let tokens : Array Token := #[⟨.keyword .NOT, "NOT", ⟨0, 3⟩⟩,
      ⟨.keyword .BETWEEN, "BETWEEN", ⟨4, 11⟩⟩, ⟨.keyword .DROP, "DROP", ⟨12, 16⟩⟩,
      ⟨.keyword .TABLE, "TABLE", ⟨17, 22⟩⟩]
    let k : Setting := ⟨tokens, .reading, 160⟩
    let k' : Setting := ⟨tokens, .reading, 159⟩
    let σ : Store := ⟨0, 100, none, [⟨3, .keyword "EXPLAIN"⟩], [], [], ["eq-expr"], 1,
      [.leaf (.identifier "column name") 0]⟩
    let σ' : Store := ⟨0, 100, none, [], [], [], [], 0, []⟩
    σ.Beside k k' σ' ∧
      Concur k σ k' σ' (Sqlite.eqExprBetween.body.machine (Sqlite.grammar.machine k.limit))
        (Sqlite.eqExprBetween.body.machine (Sqlite.grammar.machine k'.limit)) ∧
      ∃ e τ, Sqlite.eqExprBetween.body.machine (Sqlite.grammar.machine k.limit) k σ =
          some (.aborted (.input e), τ) ∧
        e.position = 2 ∧ τ.position = 2 ∧ τ.out.length = 3 := by
  intro tokens k k' σ σ'
  have hbeside : σ.Beside k k' σ' := ⟨rfl, rfl, rfl, by decide, rfl, rfl, rfl, rfl⟩
  refine ⟨hbeside, (machine_independent Sqlite.grammar hbeside).2.1 Sqlite.eqExprBetween.body, ?_⟩
  have hblamed : (Sqlite.eqExprBetween.body.machine (Sqlite.grammar.machine k.limit) k σ).any
      (fun x => x.1.inputError?.any (·.position == 2) && x.2.position == 2 &&
        x.2.out.length == 3) = true := by
    decide +kernel
  rw [Option.any_eq_true] at hblamed
  obtain ⟨⟨o, τ⟩, hrun, hends⟩ := hblamed
  simp only [Bool.and_eq_true, beq_iff_eq] at hends
  obtain ⟨⟨hraised, hposition⟩, hlength⟩ := hends
  obtain ⟨e, rfl, he⟩ := Outcome.exists_of_any_inputError? hraised
  exact ⟨e, τ, hrun, eq_of_beq he, hposition, hlength⟩

end Grammar

end SqlStatement

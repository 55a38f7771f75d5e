import SqlStatement.Parser
import SqlStatement.Proofs.Machine.Simulation

namespace SqlStatement

/-- The furthest miss lies past a place just when not all misses are at it or in
    front. -/
theorem Miss.furthest_any (misses : List Miss) (start : Nat) :
    (Miss.furthest misses).any (start < ·) = !misses.all (·.position ≤ start) := by
  rw [Bool.eq_iff_iff]
  cases hmax : Miss.furthest misses with
  | none =>
    have hnil : misses = [] := by simpa [Miss.furthest] using hmax
    simp [hnil]
  | some furthest =>
    obtain ⟨hmem, hle⟩ := List.max?_eq_some_iff.mp hmax
    constructor
    · intro hlt
      obtain ⟨miss, hmiss, rfl⟩ := List.mem_map.mp hmem
      have hlt : start < miss.position := by simpa using hlt
      simp only [Bool.not_eq_true', List.all_eq_false]
      exact ⟨miss, hmiss, by simpa using hlt⟩
    · intro hall
      simp only [Bool.not_eq_true', List.all_eq_false] at hall
      obtain ⟨miss, hmiss, hlt⟩ := hall
      have hlt : start < miss.position := by simpa using hlt
      have hfurthest := hle _ (List.mem_map_of_mem hmiss)
      have hpast : start < furthest := by omega
      simpa using hpast

namespace Store

/-- The store in which the body of a production starts. -/
def opened (σ : Store) (name : String) : Store :=
  { σ with
    patience := σ.patience.map (· - 1)
    events := σ.events ++ [.enter name σ.position]
    stack := name :: σ.stack
    depth := σ.depth + 1
    out := [] }

/-- The store `τ` behind the body of a production once the production is left. -/
def closed (σ τ : Store) (name : String) (matched : Bool) : Store :=
  { τ with
    patience := τ.patience.map (· - 1)
    events := τ.events ++ [.exit name matched τ.position]
    stack := τ.stack.tail
    depth := τ.depth - 1
    out := σ.out }

end Store

namespace Machine

variable {k : Setting} {σ τ : Store} {d : Nat}

/-- A production runs its body in a store of its own and then concludes, however the
    body ends. -/
theorem run_production {p : Grammar.Production} {body : Machine Bool} {o : Outcome Bool}
    (hrun : body k (σ.opened p.name) = some (o, τ)) (hdepth : 0 < τ.depth) :
    production p body k σ = conclude p σ.position σ.log.length τ.out o k
      (σ.closed τ p.name o.isMatched) := by
  have hopened : production p body k σ = (capture body >>= fun x => position >>= fun stop =>
      report (.exit p.name x.1.isMatched stop) >>= fun _ => leave >>= fun _ =>
        conclude p σ.position σ.log.length x.2 x.1) k { σ.opened p.name with out := σ.out } := rfl
  have hcapture : capture body k { σ.opened p.name with out := σ.out } =
      some (.matched (o, τ.out), { τ with out := σ.out }) := by
    have hrun' : body k { σ.opened p.name with out := [] } = some (o, τ) := hrun
    simp only [capture, hrun']
  have hleave : leave k { σ.closed τ p.name o.isMatched with stack := τ.stack, depth := τ.depth } =
      some (.matched (), σ.closed τ p.name o.isMatched) := by
    unfold leave
    rw [run_bind_matched (a := ()) (τ := { σ.closed τ p.name o.isMatched with
      stack := τ.stack, depth := τ.depth }) (by simp [require, hdepth])]
    rfl
  rw [hopened, run_bind_matched hcapture]
  exact run_bind_matched hleave

/-- To collapse the log behind a mark is to put a label there, unless something got
    past the start. -/
theorem run_collapse {mark start : Nat} {label : String} (hmark : mark ≤ σ.log.length) :
    collapse mark start label k σ = some (.matched (), { σ with
      log := if (σ.log.drop mark).all (·.position ≤ start) then
        σ.log.take mark ++ [⟨start, .label label⟩] else σ.log }) := by
  unfold collapse
  rw [run_bind_matched (Follows.run_since hmark), Miss.furthest_any]
  cases (σ.log.drop mark).all (·.position ≤ start) <;> rfl

/-- A failed production leaves behind its mark what the matcher sums its misses up
    to. -/
theorem run_conclude_failed (p : Grammar.Production) (k : Setting) (start : Nat)
    (children : List Tree) {log misses : List Miss} (hlog : σ.log = log ++ misses) :
    conclude p start log.length children .failed k σ =
      some (.failed, { σ with log := log ++ p.summary k.purpose start misses }) := by
  have hmark : log.length ≤ σ.log.length := by
    rw [hlog, List.length_append]
    omega
  have hkept : ({ σ with log := log ++ misses } : Store) = σ := by rw [← hlog]
  cases hlabel : p.label with
  | none =>
    have hrun : conclude p start log.length children .failed k σ = some (.failed, σ) := by
      simp [conclude, hlabel, fail]
    simp only [Grammar.Production.summary, hlabel, hkept, hrun]
  | some label =>
    by_cases hreading : k.purpose = .reading
    · have hrun : conclude p start log.length children .failed k σ =
          (collapse log.length start label >>= fun _ => fail) k σ := by
        simp [conclude, hlabel, hreading, Bind.bind, Machine.bind, read]
      rw [hrun, run_bind_matched (run_collapse hmark), hlog, List.drop_left, List.take_left]
      simp only [Grammar.Production.summary, hlabel, hreading, beq_self_eq_true, Bool.true_and,
        apply_ite (log ++ ·)]
      rfl
    · have hrun : conclude p start log.length children .failed k σ = some (.failed, σ) := by
        simp [conclude, hlabel, hreading, Bind.bind, Machine.bind, read, fail]
      have hpurpose : (k.purpose == .reading) = false := by simpa using hreading
      simp only [Grammar.Production.summary, hlabel, hpurpose, Bool.false_and, Bool.false_eq_true,
        if_false, hkept, hrun]

/-- A production may be opened where at least one more may. Its body runs with one
    fewer. -/
theorem follows_production {p : Grammar.Production} {body : Machine Bool}
    {spec : Matcher (Bool × List Tree)} (hbody : FollowsSequence k d body spec) :
    FollowsProduction k (d + 1) (production p body) (Matcher.production p spec) := by
  intro σ hσ hd
  have hinner : k.limit - (σ.opened p.name).depth = d := by
    show k.limit - (σ.depth + 1) = d
    omega
  obtain ⟨o, τ, hrun, hτ, hends⟩ := hbody (σ.opened p.name) hσ hinner
  change τ = (σ.opened p.name).after (Matcher.runBody p spec (σ.context k) σ.state) τ.out at hτ
  change (Matcher.runBody p spec (σ.context k) σ.state).outcome.Agrees _ _ o at hends
  generalize hr : Matcher.runBody p spec (σ.context k) σ.state = r at hτ hends
  have hposition : τ.position = r.state.position := by rw [hτ]; rfl
  have hlog : τ.log = σ.log ++ r.record.misses.toList := by rw [hτ]; rfl
  have hdepth : 0 < τ.depth := by rw [hτ]; exact Nat.succ_pos _
  have hproduction := run_production hrun hdepth
  -- But for the log of a failure, the store is the one that the matcher's record calls for.
  have hclosed {misses : List Miss}
      (hmisses : (Matcher.production p spec (σ.context k) σ.state).record.misses.toList = misses)
      (hmatched : o.isMatched = r.outcome.isMatched) :
      ({ σ.closed τ p.name o.isMatched with log := σ.log ++ misses } : Store) =
        σ.after (Matcher.production p spec (σ.context k) σ.state) σ.out := by
    unfold Store.after
    rw [hmisses, Matcher.run_production_state, Matcher.run_production_events,
      Matcher.run_production_breakpoints, hr, hmatched, hτ]
    simp [Store.closed, Store.opened, Store.after, Store.state]
  have hkept
      (hmisses : (Matcher.production p spec (σ.context k) σ.state).record.misses.toList =
        r.record.misses.toList) (hmatched : o.isMatched = r.outcome.isMatched) :
      σ.closed τ p.name o.isMatched =
        σ.after (Matcher.production p spec (σ.context k) σ.state) σ.out := by
    rw [← hclosed hmisses hmatched, ← hlog]
    rfl
  cases houtcome : r.outcome with
  | matched x =>
    obtain ⟨committed, nodes⟩ := x
    obtain ⟨hspec, hmisses⟩ := Matcher.run_production_matched (hr ▸ houtcome)
    rw [houtcome] at hends
    cases o with
    | failed | aborted => exact hends.elim
    | matched committed' =>
      obtain ⟨-, hadvanced, hout⟩ := hends
      have hnodes : τ.out = nodes := hout
      have hle : σ.position ≤ τ.position := hadvanced.le
      have hconclude : conclude p σ.position σ.log.length τ.out (.matched committed') k
          (σ.closed τ p.name true) = some (.matched (.node (.production p.name)
            ⟨σ.position, τ.position⟩ τ.out), σ.closed τ p.name true) := by
        have hrequire : (require fun _ _ => decide (σ.position ≤ τ.position)) k
            (σ.closed τ p.name true) = some (.matched (), σ.closed τ p.name true) := by
          simp [require, hle]
        exact run_bind_matched hrequire
      refine ⟨_, _, hproduction.trans hconclude, ?_, ?_⟩
      · rw [hr] at hmisses
        exact hkept hmisses (by rw [houtcome]; rfl)
      · rw [hspec, hr]
        refine ⟨?_, ⟨hle, hadvanced.le_size⟩, rfl⟩
        rw [hnodes, hposition]
        rfl
  | failed =>
    obtain ⟨hspec, hmisses⟩ := Matcher.run_production_failed (hr ▸ houtcome)
    rw [houtcome] at hends
    cases o with
    | matched | aborted => exact hends.elim
    | failed =>
      have hconclude := run_conclude_failed (σ := σ.closed τ p.name false) p k σ.position τ.out hlog
      refine ⟨_, _, hproduction.trans hconclude, ?_, ?_⟩
      · rw [hr] at hmisses
        exact hclosed hmisses (by rw [houtcome]; rfl)
      · rw [hspec]
        exact ⟨hends.position_eq, rfl⟩
  | aborted e =>
    obtain ⟨hspec, hmisses⟩ := Matcher.run_production_aborted (hr ▸ houtcome)
    rw [houtcome] at hends
    cases o with
    | matched | failed => exact hends.elim
    | aborted e' =>
      refine ⟨_, _, hproduction, ?_, ?_⟩
      · rw [hr] at hmisses
        exact hkept hmisses (by rw [houtcome]; rfl)
      · rw [hspec]
        exact hends

/-- A charge in front is taken on both sides. A term of the table is charged for
    before it is tried. -/
theorem FollowsTerm.charged {m : Machine Unit} {spec : Matcher (List Tree)}
    (h : FollowsTerm k d m spec) :
    FollowsTerm k d (charge >>= fun _ => m) (Matcher.charge >>= fun _ => spec) := by
  intro σ hσ hd
  refine .bind (.charge fun τ hτ => ?_)
  have hτd : k.limit - τ.depth = d := by rw [hτ.depth_eq, hd]
  refine (h τ (hτ.advanced hσ).le_size hτd).imp (fun nodes _ υ _ _ hυ => ?_)
    (fun υ _ _ hυ => ?_)
  · obtain ⟨hadvanced, hout⟩ := hυ
    refine ⟨(hτ.advanced hσ).trans hadvanced, ?_⟩
    rw [hout, hτ.out_eq]
  · exact hτ.rolledBack hυ

end Machine

namespace Grammar

open Machine (Follows FollowsTerm FollowsSequence FollowsProduction)

variable {k : Setting} {d : Nat} {machines : String → Machine Tree} {call : String → Matcher Tree}

/-- What holds of each term and its two sides holds of the lists of them. -/
theorem follows_termMachines {ts : List Term} {specs : List (Matcher (List Tree))}
    (h : List.Forall₂ (fun t spec => FollowsTerm k d (t.machine machines) spec) ts specs) :
    List.Forall₂ (FollowsTerm k d) (termMachines machines ts) specs := by
  induction h with
  | nil => exact .nil
  | cons hhead _ ih => exact .cons hhead ih

/-- The same for candidates. -/
theorem follows_candidateMachines {cs : List Sequence} {specs : List (Matcher (Bool × List Tree))}
    (h : List.Forall₂ (fun s spec => FollowsSequence k d (s.machine machines) spec) cs specs) :
    List.Forall₂ (FollowsSequence k d) (candidateMachines machines cs) specs := by
  induction h with
  | nil => exact .nil
  | cons hhead _ ih => exact .cons hhead ih

/-- A reference pushes the tree of its production unless it covers no token. A tree
    over no tokens would be a node over none, which both sides leave out. -/
theorem follows_reference {name : String}
    (h : FollowsProduction k d (machines name) (call name)) :
    FollowsTerm k d (machines name >>= fun tree =>
        if tree.span.isEmpty then pure () else Machine.push tree)
      (call name >>= fun tree => pure (if tree.span.isEmpty then [] else [tree])) := by
  intro σ hσ hd
  refine .bind ((h σ hσ hd).imp (fun tree tree' τ _ _ hτ => ?_) (fun τ _ _ => id))
  obtain ⟨htree, hadvanced, hout⟩ := hτ
  subst htree
  by_cases hempty : tree'.span.isEmpty = true
  · rw [if_pos hempty, if_pos hempty]
    exact .pure ⟨hadvanced, hout.trans (List.append_nil _).symm⟩
  · rw [if_neg hempty, if_neg hempty]
    exact .of_quiet (.matched ()) (τ.out ++ [tree']) rfl rfl rfl rfl rfl
      ⟨⟨hadvanced.le, hadvanced.le_size⟩, by rw [hout]⟩

/-- Terms and sequences follow their matchers if the productions that they refer to
    do. -/
theorem follows_fold (hcall : ∀ name, FollowsProduction k d (machines name) (call name)) :
    Fold call (fun t spec => FollowsTerm k d (t.machine machines) spec)
      (fun s spec => FollowsSequence k d (s.machine machines) spec) where
  leaf l := (Machine.follows_leaf l).charged
  production name := (follows_reference (hcall name)).charged
  optional hbody := (Machine.follows_optional hbody).charged
  alternation hcandidates :=
    (Machine.follows_alternation (follows_candidateMachines hcandidates)).charged
  repetition {item separator _ _} least hitem hseparator := by
    cases hseparator with
    | none => exact (Machine.follows_repetition least hitem .none).charged
    | some hs => exact (Machine.follows_repetition least hitem (.some hs)).charged
  breakpoint := Machine.follows_breakpoint.charged
  sequence commit hterms := Machine.follows_sequence (follows_termMachines hterms) commit

/-- Where `d` more productions may be opened, at most `d` are. So the machine of a
    production, which counts those that are open, follows the matcher, which counts
    the levels that are left. -/
theorem follows_machine (g : Grammar) (k : Setting) {d calls : Nat} (hcalls : d ≤ calls)
    (name : String) : FollowsProduction k d (g.machine calls name) (g.matcher d name) := by
  induction d generalizing calls name with
  | zero =>
    intro σ hσ hd
    rw [machine, matcher]
    cases hfind : g.find? name with
    | none => exact .abort _
    | some p =>
      refine .read ?_
      rw [if_pos (decide_eq_true (by omega))]
      exact .abort _
  | succ d ih =>
    intro σ hσ hd
    rw [machine, matcher]
    cases hfind : g.find? name with
    | none => exact .abort _
    | some p =>
      refine .read ?_
      rw [if_neg (by rw [decide_eq_true_eq]; omega)]
      cases calls with
      | zero => omega
      | succ calls =>
        have hbody := (follows_fold (ih (Nat.le_of_succ_le_succ hcalls))).ofSequence p.body
        exact Machine.follows_production hbody σ hσ hd

end Grammar

/-- The store that a parse starts with. -/
def Store.fresh (p : Parser) : Store where
  position := 0
  fuel := p.limits.fuel
  patience := p.patience
  log := []
  events := []
  breakpoints := []
  stack := []
  depth := 0
  out := []

/-- Matching in place ends as a run of the parser does and writes down the same. The
    store in the end is the one that it had in the beginning, with the state and the
    record of the run, and with the nodes of the root production. -/
theorem Parser.machine_run (p : Parser) (purpose : Purpose) (tokens : Array Token) : ∃ out,
    p.grammar.machine p.limits.depth p.root ⟨tokens, purpose, p.limits.depth⟩ (.fresh p) =
      some ((p.run purpose tokens).outcome, (Store.fresh p).after (p.run purpose tokens) out) := by
  obtain ⟨o, τ, hrun, hτ, hends⟩ := p.grammar.follows_machine
    ⟨tokens, purpose, p.limits.depth⟩ (Nat.le_refl p.limits.depth) p.root (.fresh p)
    (Nat.zero_le _) rfl
  change τ = (Store.fresh p).after (p.run purpose tokens) τ.out at hτ
  have hsame : (p.run purpose tokens).outcome.Agrees (fun tree tree' => tree' = tree) _ o :=
    hends.imp (fun _ _ h => h.1) id
  exact ⟨τ.out, by rw [hrun, hsame.eq, ← hτ]⟩

end SqlStatement

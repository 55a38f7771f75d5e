import SqlStatement.Proofs.Grammar.Derivation
import SqlStatement.Proofs.Match.Discipline
import SqlStatement.Proofs.Match.Run

namespace SqlStatement

/-- The ending with a value, or the failure. -/
def Outcome.ofOption {α : Type} : Option α → Outcome α
  | some a => .matched a
  | none => .failed

/-- Whatever fuel there is, a matcher finds a value, or none, on the way from
    `start` to `stop`, and leaves the fuel as it is. -/
def Matcher.Free {α : Type} (c : Context) (start : Nat) (m : Matcher α) (found : Option α)
    (stop : Nat) : Prop :=
  ∀ fuel, (m c ⟨start, fuel, none⟩).outcome = .ofOption found ∧
    (m c ⟨start, fuel, none⟩).state = ⟨stop, fuel, none⟩

/-- Given some levels of nesting or more, and `cost` fuel or more, the matchers of a
    family find the same value, or none, on the way from `start` to `stop`, and
    spend exactly `cost`. -/
def Matcher.Spends {α : Type} (c : Context) (levels cost start : Nat) (family : Nat → Matcher α)
    (found : Option α) (stop : Nat) : Prop :=
  ∀ d, levels ≤ d → ∀ left,
    (family d c ⟨start, cost + left, none⟩).outcome = .ofOption found ∧
      (family d c ⟨start, cost + left, none⟩).state = ⟨stop, left, none⟩

/-- Given enough levels of nesting and enough fuel, the matchers of a family find
    the same value, or none, on the way from `start` to `stop`. How much is enough
    is left open, where `Spends` says what it costs. -/
def Matcher.Settles {α : Type} (c : Context) (start : Nat) (family : Nat → Matcher α)
    (found : Option α) (stop : Nat) : Prop :=
  ∃ cost levels, Matcher.Spends c levels cost start family found stop

namespace Matcher

variable {α β : Type} {c : Context} {start mid stop levels cost cost' : Nat}
  {family : Nat → Matcher α} {found : Option α}

namespace Free

/-- Steps that are free one after the other are free together. The fuel that is left
    is passed through. -/
theorem bind {m : Matcher α} {f : α → Matcher β} {found : Option β} {a : α}
    (h : Free c start m (some a) mid) (hf : Free c mid (f a) found stop) :
    Free c start (m >>= f) found stop := by
  intro fuel
  obtain ⟨houtcome, hstate⟩ := h fuel
  rw [run_bind_matched houtcome, hstate]
  exact hf fuel

theorem pure (a : α) : Free c start (Pure.pure a) (some a) start := fun _ => ⟨rfl, rfl⟩

theorem fail : Free c start (Matcher.fail : Matcher α) none start := fun _ => ⟨rfl, rfl⟩

theorem position : Free c start Matcher.position (some start) start := fun _ => ⟨rfl, rfl⟩

theorem context : Free c start Matcher.context (some c) start := fun _ => ⟨rfl, rfl⟩

theorem seek (target : Nat) : Free c start (Matcher.seek target) (some ()) target :=
  fun _ => ⟨rfl, rfl⟩

theorem report (e : Event) : Free c start (Matcher.report e) (some ()) start := by
  refine fun fuel => ⟨rfl, ?_⟩
  unfold Matcher.report
  split <;> rfl

theorem checkPatience : Free c start Matcher.checkPatience (some ()) start := fun _ => ⟨rfl, rfl⟩

theorem backtrack (target : Nat) : Free c start (Matcher.backtrack target) (some ()) target := by
  refine bind position ?_
  by_cases hthere : start = target
  · subst hthere
    simpa using pure ()
  · have haway : (start != target) = true := by simpa using hthere
    simp only [haway, if_true]
    exact bind (report _) (seek target)

theorem wrap (label : Tree.Label) (first : Nat) (children : List Tree) :
    Free c start (Matcher.wrap label first children)
      (some (Tree.covering label first start children)) start :=
  bind position (pure _)

/-- A sequence reports once that it has committed, at no cost. The value says
    whether it has, by now or before. -/
theorem commitAt (threshold earned : Nat) (committed : Bool) :
    Free c start (Matcher.commitAt threshold earned committed)
      (some (committed || decide (threshold ≤ earned))) start := by
  unfold Matcher.commitAt
  by_cases hcommit : (!committed && decide (threshold ≤ earned)) = true
  · simp only [hcommit, if_true]
    have htrue : (committed || decide (threshold ≤ earned)) = true := by simp_all
    rw [htrue]
    exact bind position (bind (report _) (pure _))
  · have hsame : (committed || decide (threshold ≤ earned)) = committed := by
      cases committed <;> simp_all
    simp only [hcommit, hsame]
    exact pure _

/-- A leaf on a token that it accepts is free, since the charge stands in front of
    it. -/
theorem leaf_accepts {l : Grammar.Leaf} {t : Token} (htoken : c.tokens[start]? = some t)
    (hl : l.accepts t = true) :
    Free c start (Matcher.leaf l) (some [.leaf l.role start]) (start + 1) := by
  intro fuel
  have hrun := run_leaf_accepts (s := ⟨start, fuel, none⟩) htoken hl
  exact ⟨hrun.1, hrun.2.1⟩

/-- A leaf that rejects its token is free as well and stays where it is. -/
theorem leaf_rejects {l : Grammar.Leaf}
    (hl : ∀ t, c.tokens[start]? = some t → l.accepts t = false) :
    Free c start (Matcher.leaf l) none start := by
  intro fuel
  have hrun := run_leaf_misses (s := ⟨start, fuel, none⟩) hl
  exact ⟨hrun.1, hrun.2.1⟩

theorem breakpoint : Free c start Matcher.breakpoint (some []) start := by
  intro fuel
  have hrun := run_breakpoint c ⟨start, fuel, none⟩
  exact ⟨hrun.1, hrun.2.1⟩

end Free

namespace Spends

/-- What is free can be put in front of or behind what costs fuel. -/
theorem of_free {m : Matcher α} (h : Free c start m found stop) :
    Spends c levels 0 start (fun _ => m) found stop := by
  intro d _ left
  rw [Nat.zero_add]
  exact h left

/-- One unit of fuel is all that anything costs; every cost is a number of charges. -/
theorem charge : Spends c levels 1 start (fun _ => Matcher.charge) (some ()) start := by
  intro d _ left
  rw [Nat.add_comm]
  exact ⟨rfl, rfl⟩

/-- More levels of nesting than needed change nothing, the cost included. -/
theorem mono {more : Nat} (h : Spends c levels cost start family found stop) (hle : levels ≤ more) :
    Spends c more cost start family found stop :=
  fun d hd => h d (Nat.le_trans hle hd)

/-- The costs of two steps one after the other add up. The first step leaves exactly
    the fuel for the second, and what is left over. -/
theorem bind {rest : Nat → α → Matcher β} {found : Option β} {a : α}
    (h : Spends c levels cost start family (some a) mid)
    (hrest : Spends c levels cost' mid (fun d => rest d a) found stop) :
    Spends c levels (cost + cost') start (fun d => family d >>= rest d) found stop := by
  intro d hd left
  beta_reduce
  obtain ⟨houtcome, hstate⟩ := h d hd (cost' + left)
  rw [← Nat.add_assoc] at houtcome hstate
  rw [run_bind_matched houtcome, hstate]
  exact hrest d hd left

/-- A step in front that is free. Nothing is added to the cost of what follows. -/
theorem free_bind {m : Matcher α} {rest : Nat → α → Matcher β} {found : Option β} {a : α}
    (h : Free c start m (some a) mid)
    (hrest : Spends c levels cost mid (fun d => rest d a) found stop) :
    Spends c levels cost start (fun d => m >>= rest d) found stop := by
  intro d hd left
  beta_reduce
  obtain ⟨houtcome, hstate⟩ := h (cost + left)
  rw [run_bind_matched houtcome, hstate]
  exact hrest d hd left

/-- A last step that is free. Nor to that of what came before. -/
theorem bind_free {rest : Nat → α → Matcher β} {found : Option β} {a : α}
    (h : Spends c levels cost start family (some a) mid)
    (hrest : ∀ d, Free c mid (rest d a) found stop) :
    Spends c levels cost start (fun d => family d >>= rest d) found stop := by
  intro d hd left
  beta_reduce
  obtain ⟨houtcome, hstate⟩ := h d hd left
  rw [run_bind_matched houtcome, hstate]
  exact hrest d left

/-- Behind a failure nothing is spent any more. The fuel that was spent until then
    is the cost of the whole. -/
theorem bind_failed {rest : Nat → α → Matcher β}
    (h : Spends c levels cost start family none stop) :
    Spends c levels cost start (fun d => family d >>= rest d) none stop := by
  intro d hd left
  beta_reduce
  obtain ⟨houtcome, hstate⟩ := h d hd left
  rw [run_bind_failed houtcome]
  exact ⟨rfl, hstate⟩

/-- An attempt costs what is attempted, whether or not it succeeds. Its value is
    what was found, or that nothing was. -/
theorem attempt (h : Spends c levels cost start family found stop) :
    Spends c levels cost start (fun d => (family d).attempt) (some found) stop := by
  intro d hd left
  beta_reduce
  obtain ⟨houtcome, hstate⟩ := h d hd left
  rw [run_attempt, houtcome]
  refine ⟨?_, hstate⟩
  cases found <;> rfl

/-- Where no blame is laid, what was missed does not matter. The verdict then goes
    on for free. -/
theorem judge (verdict : α → Option (Matcher β)) {found : Option β} {a : α} {next : Matcher β}
    (h : Spends c levels cost start family (some a) mid) (hverdict : verdict a = some next)
    (hnext : Free c mid next found stop) :
    Spends c levels cost start
      (fun d => (family d).listen >>= fun x => ((verdict x.1).getD (blame x.2) : Matcher β))
      found stop := by
  intro d hd left
  beta_reduce
  obtain ⟨houtcome, hstate⟩ := h d hd left
  have hheard := run_listen (family d) c ⟨start, cost + left, none⟩
  rw [houtcome] at hheard
  rw [run_bind_matched (by rw [hheard]; rfl), hheard]
  dsimp only
  rw [hstate, hverdict]
  exact hnext left

/-- A family that spends one level of nesting. References to productions are the
    only place where levels are used up. -/
theorem succ {deeper : Nat → Matcher α} (hdeeper : ∀ d, deeper (d + 1) = family d)
    (h : Spends c levels cost start family found stop) :
    Spends c (levels + 1) cost start deeper found stop := by
  intro d hd left
  obtain ⟨d, rfl⟩ : ∃ d', d = d' + 1 := ⟨d - 1, by omega⟩
  rw [hdeeper]
  exact h d (by omega) left

section Optional

variable {body : Nat → Matcher (Bool × List Tree)}

/-- What is optional and matches leaves a node over what it covers, or nothing if
    that is empty. -/
theorem optional {committed : Bool} {nodes : List Tree}
    (h : Spends c levels cost start body (some (committed, nodes)) stop) :
    Spends c levels cost start (fun d => Matcher.optional (body d))
      (some (Tree.covering .optional start stop nodes)) stop :=
  free_bind .position (bind_free (attempt h) fun _ => .wrap _ _ _)

/-- What is optional and fails is skipped at the price of the attempt. -/
theorem optional_skipped (h : Spends c levels cost start body none start) :
    Spends c levels cost start (fun d => Matcher.optional (body d)) (some []) start :=
  free_bind .position (bind_free (attempt h) fun _ => .pure [])

end Optional

/-- The run of the body inside a production, with the production open. The two tests
    for cancellation and the reports at both ends are free. -/
theorem production (p : Grammar.Production) {body : Nat → Matcher (Bool × List Tree)}
    {committed : Bool} {nodes : List Tree}
    (h : Spends { c with stack := p.name :: c.stack } levels cost start body
      (some (committed, nodes)) stop) :
    Spends c levels cost start (fun d => Matcher.production p (body d))
      (some (.node (.production p.name) ⟨start, stop⟩ nodes)) stop := by
  intro d hd left
  beta_reduce
  obtain ⟨houtcome, hstate⟩ := h d hd left
  have hbody : (runBody p (body d) c ⟨start, cost + left, none⟩).outcome =
      .matched (committed, nodes) := houtcome
  have hstop : (runBody p (body d) c ⟨start, cost + left, none⟩).state = ⟨stop, left, none⟩ :=
    hstate
  rw [(run_production_matched hbody).1, run_production_state, hstop]
  exact ⟨rfl, rfl⟩

/-- A production whose body fails costs what the body has spent. Its label only
    changes what was missed. -/
theorem production_failed (p : Grammar.Production) {body : Nat → Matcher (Bool × List Tree)}
    (h : Spends { c with stack := p.name :: c.stack } levels cost start body none stop) :
    Spends c levels cost start (fun d => Matcher.production p (body d)) none stop := by
  intro d hd left
  beta_reduce
  obtain ⟨houtcome, hstate⟩ := h d hd left
  have hbody : (runBody p (body d) c ⟨start, cost + left, none⟩).outcome = .failed := houtcome
  have hstop : (runBody p (body d) c ⟨start, cost + left, none⟩).state = ⟨stop, left, none⟩ :=
    hstate
  rw [(run_production_failed hbody).1, run_production_state, hstop]
  exact ⟨rfl, rfl⟩

section Sequence

variable {threshold earned : Nat} {committed : Bool} {nodes : List Tree}
  {step : Nat → Matcher (List Tree)} {parts : Nat → List (Matcher (List Tree))}

/-- At its end a sequence has committed if it has done so on the way or has earned
    enough. -/
theorem steps_nil : Spends c levels 0 start (fun _ => steps threshold [] earned committed)
    (some (.finished (committed || decide (threshold ≤ earned)) [])) start :=
  of_free (.bind (.commitAt _ _ _) (.pure _))

/-- A step that matches comes in front of the others. It has earned something if it
    has got past a token, and the commitment is settled before it is taken. -/
theorem steps_cons {ending : Ending} (hstep : Spends c levels cost start step (some nodes) mid)
    (hparts : Spends c levels cost' mid
      (fun d => steps threshold (parts d) (if start < mid then earned + 1 else earned)
        (committed || decide (threshold ≤ earned))) (some ending) stop) :
    Spends c levels (cost + cost') start
      (fun d => steps threshold (step d :: parts d) earned committed)
      (some (ending.prepend nodes)) stop := by
  refine free_bind .checkPatience (free_bind (.commitAt _ _ _) (free_bind .position ?_))
  exact bind (attempt hstep) (free_bind .position (bind_free hparts fun _ => .pure _))

/-- A sequence is stuck at a step that fails, with what it has earned until then. -/
theorem steps_stuck (hstep : Spends c levels cost start step none start) :
    Spends c levels cost start (fun d => steps threshold (step d :: parts d) earned committed)
      (some (.stuck (committed || decide (threshold ≤ earned)))) start := by
  refine free_bind .checkPatience (free_bind (.commitAt _ _ _) (free_bind .position ?_))
  exact bind_free (attempt hstep) fun _ => .pure _

/-- A sequence that gets through its steps settles to their nodes. -/
theorem sequence (h : Spends c levels cost start (fun d => steps threshold (parts d) 0 false)
      (some (.finished committed nodes)) stop) :
    Spends c levels cost start (fun d => Matcher.sequence threshold (parts d))
      (some (committed, nodes)) stop := by
  simp only [sequence_eq]
  exact free_bind .position (judge (Ending.verdict start) h rfl (.pure _))

/-- A sequence that is stuck without a commitment fails, back where it started. With
    a commitment it would give up, which is not among the ways of `Spends` to end. -/
theorem sequence_stuck
    (h : Spends c levels cost start (fun d => steps threshold (parts d) 0 false)
      (some (.stuck false)) stop) :
    Spends c levels cost start (fun d => Matcher.sequence threshold (parts d)) none start := by
  simp only [sequence_eq]
  refine free_bind .position (judge (Ending.verdict start) h rfl ?_)
  exact .bind (.backtrack start) .fail

end Sequence

section Choice

variable {branch first : Nat} {best : Option Provisional} {nodes : List Tree}
  {found : Option (List Tree)}
  {candidate : Nat → Matcher (Bool × List Tree)}
  {more : Nat → List (Matcher (Bool × List Tree))}

/-- Without a candidate that matches there is no choice. -/
theorem choose_nobody : Spends c levels 0 start (fun _ => choose first [] branch none) none start :=
  of_free .fail

/-- Behind the last candidate the best one is taken, whose tokens are stepped over
    again at no cost. -/
theorem choose_best (winner : Provisional) :
    Spends c levels 0 first (fun _ => choose start [] branch (some winner))
      (some (Tree.covering (.alternation winner.branch) start winner.stop winner.nodes))
      winner.stop :=
  of_free (.bind (.seek _) (.wrap _ _ _))

/-- A candidate that fails leaves the choice to the next ones, and what it has spent
    is spent. -/
theorem choose_failed (h : Spends c levels cost start candidate none mid)
    (hmore : Spends c levels cost' mid (fun d => choose start (more d) (branch + 1) best) found
      stop) :
    Spends c levels (cost + cost') first
      (fun d => choose start (candidate d :: more d) branch best) found stop := by
  refine free_bind (.seek start) (free_bind .context (free_bind (.report _) ?_))
  exact bind (attempt h) hmore

/-- A candidate that commits is taken at once. -/
theorem choose_committed (h : Spends c levels cost start candidate (some (true, nodes)) stop) :
    Spends c levels cost first (fun d => choose start (candidate d :: more d) branch best)
      (some (Tree.covering (.alternation branch) start stop nodes)) stop := by
  refine free_bind (.seek start) (free_bind .context (free_bind (.report _) ?_))
  exact bind_free (attempt h) fun _ => .wrap _ _ _

/-- A candidate that does not commit is compared with the best one so far. The next
    candidates start from the same place, whatever it has matched. -/
theorem choose_provisional (h : Spends c levels cost start candidate (some (false, nodes)) mid)
    (hmore : Spends c levels cost' mid
      (fun d => choose start (more d) (branch + 1)
        (some (Provisional.better best ⟨mid, branch, nodes⟩))) found stop) :
    Spends c levels (cost + cost') first
      (fun d => choose start (candidate d :: more d) branch best) found stop := by
  refine free_bind (.seek start) (free_bind .context (free_bind (.report _) ?_))
  exact bind (attempt h) (free_bind .position hmore)

end Choice

section Repetition

variable {item : Nat → Matcher (Bool × List Tree)} {nodes : List Tree}

/-- A turn without a separator in front is a match of the item. -/
theorem turn {committed : Bool}
    (h : Spends c levels cost start item (some (committed, nodes)) stop) :
    Spends c levels cost start (fun d => Matcher.turn (item d) none)
      (some (.next (Tree.covering .item start stop nodes))) stop :=
  free_bind .position (bind_free (attempt h) fun _ => .bind (.wrap _ _ _) (.pure _))

/-- Without an item there is no further turn. -/
theorem turn_over (h : Spends c levels cost start item none start) :
    Spends c levels cost start (fun d => Matcher.turn (item d) none) (some .over) start :=
  free_bind .position (bind_free (attempt h) fun _ => .pure _)

/-- A turn with a separator has a node for it in front of the node for the item.
    Either is left out if it covers no token. -/
theorem turn_separated {separator : Nat → Matcher (Bool × List Tree)} {front : List Tree}
    {committed committed' : Bool}
    (hseparator : Spends c levels cost start separator (some (committed, front)) mid)
    (hitem : Spends c levels cost' mid item (some (committed', nodes)) stop) :
    Spends c levels (cost + cost') start (fun d => Matcher.turn (item d) (some (separator d)))
      (some (.next (Tree.covering .separator start mid front ++
        Tree.covering .item mid stop nodes))) stop := by
  refine free_bind .position (bind (attempt hseparator) (free_bind (.wrap _ _ _) ?_))
  exact free_bind .position (bind_free (attempt hitem) fun _ => .bind (.wrap _ _ _) (.pure _))

/-- Without a separator there is no further turn, and the item is not tried. -/
theorem turn_separated_over {separator : Nat → Matcher (Bool × List Tree)}
    (h : Spends c levels cost start separator none start) :
    Spends c levels cost start (fun d => Matcher.turn (item d) (some (separator d))) (some .over)
      start :=
  free_bind .position (bind_free (attempt h) fun _ => .pure _)

variable {separator : Nat → Option (Matcher (Bool × List Tree))}

/-- A turn costs one more than its parts. -/
theorem iteration (h : Spends c levels cost start (fun d => Matcher.turn (item d) (separator d))
      (some (.next nodes)) stop) :
    Spends c levels (1 + cost) start (fun d => Matcher.iteration (item d) (separator d))
      (some (some nodes)) stop := by
  simp only [iteration_eq]
  exact free_bind .checkPatience (bind charge (judge Turn.verdict h rfl (.pure _)))

/-- The turn that is not taken is charged too. So a repetition costs one charge more
    than it has turns. -/
theorem iteration_over
    (h : Spends c levels cost start (fun d => Matcher.turn (item d) (separator d)) (some .over)
      stop) :
    Spends c levels (1 + cost) start (fun d => Matcher.iteration (item d) (separator d))
      (some none) stop := by
  simp only [iteration_eq]
  exact free_bind .checkPatience (bind charge (judge Turn.verdict h rfl (.pure _)))

variable {first : Bool}

/-- A repetition is over at the turn that is not taken. That turn may be the first
    one, with the item alone, or a later one. -/
theorem iterate_over
    (h : Spends c levels cost start
      (fun d => Matcher.iteration (item d) (if first then none else separator d)) (some none)
      stop) :
    Spends c levels cost start (fun d => Matcher.iterate (item d) (separator d) first)
      (some (0, [])) stop := by
  intro d hd left
  beta_reduce
  obtain ⟨houtcome, hstate⟩ := h d hd left
  rw [run_iterate_over rfl houtcome]
  exact ⟨rfl, hstate⟩

/-- A turn that gets further comes in front of the turns behind it, which all start
    with the separator. -/
theorem iterate_next {count : Nat} {more : List Tree} (hlt : start < mid)
    (hle : mid ≤ c.tokens.size)
    (h : Spends c levels cost start
      (fun d => Matcher.iteration (item d) (if first then none else separator d))
      (some (some nodes)) mid)
    (hmore : Spends c levels cost' mid (fun d => Matcher.iterate (item d) (separator d) false)
      (some (count, more)) stop) :
    Spends c levels (cost + cost') start (fun d => Matcher.iterate (item d) (separator d) first)
      (some (count + 1, nodes ++ more)) stop := by
  intro d hd left
  beta_reduce
  obtain ⟨houtcome, hstate⟩ := h d hd (cost' + left)
  obtain ⟨houtcome', hstate'⟩ := hmore d hd left
  rw [← Nat.add_assoc] at houtcome hstate
  rw [run_iterate_next rfl houtcome (by rw [hstate]; dsimp only; omega), hstate, houtcome', hstate']
  exact ⟨rfl, rfl⟩

/-- A repetition with enough turns settles to a node over all of them. Without a
    token there is no node, but then there are no turns that count. -/
theorem repetition {least count : Nat} (hleast : least ≤ count)
    (h : Spends c levels cost start (fun d => Matcher.iterate (item d) (separator d) true)
      (some (count, nodes)) stop) :
    Spends c levels cost start (fun d => Matcher.repetition (item d) (separator d) least)
      (some (Tree.covering .repetition start stop nodes)) stop := by
  refine free_bind .position (bind_free h fun _ => ?_)
  simp only [Nat.not_lt.mpr hleast, if_false]
  exact .wrap _ _ _

/-- A repetition with too few turns fails, back where it started. What was spent on
    the turns is spent. -/
theorem repetition_failed {least count : Nat} (hfew : count < least)
    (h : Spends c levels cost start (fun d => Matcher.iterate (item d) (separator d) true)
      (some (count, nodes)) stop) :
    Spends c levels cost start (fun d => Matcher.repetition (item d) (separator d) least) none
      start := by
  refine free_bind .position (bind_free h fun _ => ?_)
  simp only [hfew, if_true]
  exact .bind (.backtrack start) .fail

end Repetition

end Spends

namespace Settles

theorem of_free {m : Matcher α} (h : Free c start m found stop) :
    Settles c start (fun _ => m) found stop :=
  ⟨0, 0, .of_free h⟩

/-- What an attempt comes to, charge included. -/
theorem charged (h : Settles c start family found stop) :
    Settles c start (fun d => charge >>= fun _ => family d) found stop := by
  obtain ⟨cost, levels, h⟩ := h
  exact ⟨1 + cost, levels, .bind .charge h⟩

/-- Two parts together have enough of the levels that each of them has enough of.
    The larger number of levels will do for both, since more levels change nothing. -/
theorem both {c' : Context} {start' stop' : Nat} {family' : Nat → Matcher β} {found' : Option β}
    (h : Settles c start family found stop) (h' : Settles c' start' family' found' stop') :
    ∃ levels cost cost', Spends c levels cost start family found stop ∧
      Spends c' levels cost' start' family' found' stop' := by
  obtain ⟨cost, levels, h⟩ := h
  obtain ⟨cost', levels', h'⟩ := h'
  exact ⟨max levels levels', cost, cost', h.mono (Nat.le_max_left ..),
    h'.mono (Nat.le_max_right ..)⟩

end Settles

end Matcher

end SqlStatement

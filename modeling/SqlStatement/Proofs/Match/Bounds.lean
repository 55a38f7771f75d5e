import SqlStatement.Proofs.Match.Discipline
import SqlStatement.Proofs.Match.Run

namespace SqlStatement

/-- A run that ends and misses tokens only between two places, with a value as said.
    All of it holds however the run ends, so it also bounds where errors point. -/
structure Result.Within {α : Type} (low high : Nat) (Q : α → Prop) (r : Result α) : Prop where
  low_le : low ≤ r.state.position
  le_high : r.state.position ≤ high
  misses : ∀ miss ∈ r.record.misses.toList, low ≤ miss.position ∧ miss.position ≤ high
  value : ∀ a, r.outcome = .matched a → Q a

/-- Runs over `tokens` that start at `low` or later stay there. -/
def Matcher.Bounded {α : Type} (tokens : Array Token) (low : Nat) (Q : α → Prop) (m : Matcher α) :
    Prop :=
  ∀ c s, c.tokens = tokens → low ≤ s.position → s.position ≤ tokens.size →
    (m c s).Within low tokens.size Q

namespace Matcher.Bounded

variable {α β : Type} {tokens : Array Token} {low : Nat}

/-- A step that stays where it is and misses nothing. Most of the primitive steps
    are of this kind. -/
theorem of_still {Q : α → Prop} {m : Matcher α}
    (hposition : ∀ c s, (m c s).state.position = s.position)
    (hmisses : ∀ c s, (m c s).record.misses.toList = [])
    (hvalue : ∀ c s a, low ≤ s.position → s.position ≤ tokens.size →
      (m c s).outcome = .matched a → Q a) : Bounded tokens low Q m := by
  intro c s _ hlow hhigh
  refine ⟨?_, ?_, ?_, fun a ha => hvalue c s a hlow hhigh ha⟩
  · rw [hposition]
    exact hlow
  · rw [hposition]
    exact hhigh
  · rw [hmisses]
    nofun

/-- What stays between two places, and goes on from there, stays there. However the
    second part ends, the misses of the first are kept, and they are between the two
    places as well. -/
theorem bind {Q : α → Prop} {R : β → Prop} {m : Matcher α} {f : α → Matcher β}
    (hm : Bounded tokens low Q m) (hf : ∀ a, Q a → Bounded tokens low R (f a)) :
    Bounded tokens low R (m >>= f) := by
  intro c s hc hlow hhigh
  have hfirst := hm c s hc hlow hhigh
  cases h : (m c s).outcome with
  | matched a =>
    have hrest := hf a (hfirst.value a h) c (m c s).state hc hfirst.low_le hfirst.le_high
    rw [run_bind_matched h]
    refine ⟨hrest.low_le, hrest.le_high, fun miss hmiss => ?_, hrest.value⟩
    rcases List.mem_append.mp (Record.misses_append .. ▸ hmiss) with hold | hnew
    · exact hfirst.misses miss hold
    · exact hrest.misses miss hnew
  | failed =>
    rw [run_bind_failed h]
    exact ⟨hfirst.low_le, hfirst.le_high, hfirst.misses, nofun⟩
  | aborted e =>
    rw [run_bind_aborted h]
    exact ⟨hfirst.low_le, hfirst.le_high, hfirst.misses, nofun⟩

/-- An attempt stays where its matcher does. -/
theorem attempt {m : Matcher α} (hm : Bounded tokens low (fun _ => True) m) :
    Bounded tokens low (fun _ => True) m.attempt := by
  intro c s hc hlow hhigh
  obtain ⟨hl, hh, hmisses, _⟩ := hm c s hc hlow hhigh
  rw [run_attempt]
  exact ⟨hl, hh, hmisses, fun _ _ => trivial⟩

theorem listen {m : Matcher α} (hm : Bounded tokens low (fun _ => True) m) :
    Bounded tokens low (fun _ => True) m.listen := by
  intro c s hc hlow hhigh
  obtain ⟨hl, hh, hmisses, _⟩ := hm c s hc hlow hhigh
  rw [run_listen]
  exact ⟨hl, hh, hmisses, fun _ _ => trivial⟩

/-- A leaf goes one token further or stays, and misses where it stands. There is a
    token to go past where it matches, so it does not leave the input. -/
theorem leaf (l : Grammar.Leaf) : Bounded tokens low (fun _ => True) (Matcher.leaf l) := by
  intro c s hc hlow hhigh
  subst hc
  by_cases haccept : ∃ t, c.tokens[s.position]? = some t ∧ l.accepts t = true
  · obtain ⟨t, htoken, hl⟩ := haccept
    obtain ⟨_, hstate, hmisses, _⟩ := run_leaf_accepts htoken hl
    have hbound := (Array.getElem?_eq_some_iff.mp htoken).1
    refine ⟨?_, ?_, ?_, fun _ _ => trivial⟩
    · rw [hstate]
      exact Nat.le_succ_of_le hlow
    · rw [hstate]
      exact hbound
    · rw [hmisses]
      nofun
  · have hl : ∀ t, c.tokens[s.position]? = some t → l.accepts t = false := fun t htoken =>
      Bool.eq_false_iff.mpr fun h => haccept ⟨t, htoken, h⟩
    obtain ⟨_, hstate, hmisses, _⟩ := run_leaf_misses hl
    refine ⟨?_, ?_, fun miss hmiss => ?_, fun _ _ => trivial⟩
    · rw [hstate]
      exact hlow
    · rw [hstate]
      exact hhigh
    · rw [hmisses] at hmiss
      obtain ⟨e, _, rfl⟩ := List.mem_map.mp hmiss
      exact ⟨hlow, hhigh⟩

/-- A production stays where its body does. Its label stands for misses at its
    start, which is between the same places. -/
theorem production (p : Grammar.Production) {body : Matcher (Bool × List Tree)}
    (hbody : Bounded tokens low (fun _ => True) body) :
    Bounded tokens low (fun _ => True) (Matcher.production p body) := by
  intro c s hc hlow hhigh
  have hinner : (runBody p body c s).Within low tokens.size fun _ => True :=
    hbody _ _ hc hlow hhigh
  refine ⟨?_, ?_, ?_, fun _ _ => trivial⟩
  · rw [run_production_state]
    exact hinner.low_le
  · rw [run_production_state]
    exact hinner.le_high
  · cases h : (runBody p body c s).outcome with
    | matched value =>
      rw [(run_production_matched h).2]
      exact hinner.misses
    | failed =>
      intro miss hmiss
      rw [(run_production_failed h).2] at hmiss
      rcases Grammar.Production.mem_summary hmiss with hstart | hold
      · rw [hstart]
        exact ⟨hlow, hhigh⟩
      · exact hinner.misses miss hold
    | aborted e =>
      rw [(run_production_aborted h).2]
      exact hinner.misses

/-- Blaming moves nothing. Where the error points is left to the misses that it is
    laid to. -/
theorem blame (misses : Journal Miss) :
    Bounded tokens low (fun _ => True) (Matcher.blame misses : Matcher α) :=
  of_still (fun _ _ => rfl) (fun _ _ => rfl) fun _ _ _ _ _ _ => trivial

/-- A repetition stays where its turns do, by induction on the tokens that are
    left. -/
theorem iterate {item : Matcher (Bool × List Tree)}
    {separator : Option (Matcher (Bool × List Tree))}
    (hturn : ∀ first : Bool, Bounded tokens low (fun _ => True)
      (iteration item (if first then none else separator))) (first : Bool) :
    Bounded tokens low (fun _ => True) (Matcher.iterate item separator first) := by
  intro c s hc hlow hhigh
  induction hmeasure : c.tokens.size - s.position using Nat.strongRecOn
    generalizing first s with
  | _ measure ih =>
  have hfirst := hturn first c s hc hlow hhigh
  generalize hr : iteration item (if first then none else separator) c s = r at hfirst
  obtain ⟨hl, hh, hmisses, _⟩ := hfirst
  cases h : r.outcome with
  | matched found =>
    cases found with
    | none =>
      rw [run_iterate_over hr h]
      exact ⟨hl, hh, hmisses, fun _ _ => trivial⟩
    | some nodes =>
      by_cases hprogress : c.tokens.size - r.state.position < c.tokens.size - s.position
      · have hrest := ih _ (hmeasure ▸ hprogress) false r.state hl hh rfl
        rw [run_iterate_next hr h hprogress]
        refine ⟨hrest.low_le, hrest.le_high, fun miss hmiss => ?_, fun _ _ => trivial⟩
        rcases List.mem_append.mp (Record.misses_append .. ▸ hmiss) with hold | hnew
        · exact hmisses miss hold
        · exact hrest.misses miss hnew
      · rw [run_iterate_still hr h hprogress]
        exact ⟨hl, hh, hmisses, fun _ _ => trivial⟩
  | failed =>
    rw [run_iterate_failed hr h]
    exact ⟨hl, hh, hmisses, fun _ _ => trivial⟩
  | aborted e =>
    rw [run_iterate_aborted hr h]
    exact ⟨hl, hh, hmisses, fun _ _ => trivial⟩

end Matcher.Bounded

namespace Discipline

open Matcher

/-- Staying between two places is a discipline, so it holds of every parse. A
    matcher starts no later than it ends, and nothing is missed past the end of the
    input. -/
def bounds (tokens : Array Token) (low : Nat) : Discipline where
  Holds := Bounded tokens low
  Place n := low ≤ n ∧ n ≤ tokens.size
  Allowed _ := True
  pure ha := Bounded.of_still (fun _ _ => rfl) (fun _ _ => rfl) fun _ _ _ _ _ h => by
    cases h
    exact ha
  bind := Bounded.bind
  fail := Bounded.of_still (fun _ _ => rfl) (fun _ _ => rfl) nofun
  unknown _ := Bounded.of_still (fun _ _ => rfl) (fun _ _ => rfl) nofun
  tooDeep := Bounded.of_still (fun _ _ => rfl) (fun _ _ => rfl) nofun
  position := Bounded.of_still (fun _ _ => rfl) (fun _ _ => rfl) fun _ _ _ hlow hhigh h => by
    cases h
    exact ⟨hlow, hhigh⟩
  seek htarget _ _ _ _ _ := ⟨htarget.1, htarget.2, nofun, fun _ _ => trivial⟩
  report _ := Bounded.of_still (fun _ _ => rfl) (fun _ _ => rfl) fun _ _ _ _ _ _ => trivial
  charge := by
    refine Bounded.of_still (fun c s => ?_) (fun c s => ?_) fun _ _ _ _ _ _ => trivial <;>
    · unfold Matcher.charge
      split <;> rfl
  checkPatience := by
    refine Bounded.of_still (fun c s => ?_) (fun c s => ?_) fun _ _ _ _ _ _ => trivial <;>
    · unfold Matcher.checkPatience
      split <;> rfl
  attempt := Bounded.attempt
  candidate branch start hm := Bounded.bind
    (Bounded.of_still (Q := fun _ => True) (fun _ _ => rfl) (fun _ _ => rfl)
      fun _ _ _ _ _ _ => trivial)
    fun _ _ => Bounded.bind
      (Bounded.of_still (Q := fun _ => True) (fun _ _ => rfl) (fun _ _ => rfl)
        fun _ _ _ _ _ _ => trivial)
      fun _ _ => hm
  judge {_ _ m verdict} hm hverdict := Bounded.bind (Bounded.listen hm) fun x _ => by
    cases h : verdict x.1 with
    | none => exact Bounded.blame x.2
    | some next => exact hverdict x.1 next h
  leaf _ := Bounded.leaf _
  breakpoint := Bounded.of_still (fun c s => by rw [(run_breakpoint c s).2.1])
    (fun c s => (run_breakpoint c s).2.2.1) fun _ _ _ _ _ _ => trivial
  production p _ hbody := Bounded.production p hbody
  iterate := Bounded.iterate

end Discipline

end SqlStatement

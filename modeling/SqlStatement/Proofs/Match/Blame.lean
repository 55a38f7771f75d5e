import SqlStatement.Proofs.Match.Discipline
import SqlStatement.Proofs.Match.Run

namespace SqlStatement

/-- An error that is laid to some of the misses, without saying which. That is
    enough to know where it points and what it lists. -/
def InputError.Founded (tokens : Array Token) (misses : List Miss) (e : InputError) : Prop :=
  ∃ current slice, slice ⊆ misses ∧ e = .ofMisses tokens current slice

theorem InputError.Founded.mono {tokens : Array Token} {misses more : List Miss} {e : InputError}
    (h : e.Founded tokens misses) (hsubset : misses ⊆ more) : e.Founded tokens more := by
  obtain ⟨current, slice, hslice, rfl⟩ := h
  exact ⟨current, slice, List.Subset.trans hslice hsubset, rfl⟩

/-- However a run ends, it blames what it has missed, and its values are as said. A
    run that is cancelled or out of fuel blames nothing. -/
structure Result.Blames {α : Type} (tokens : Array Token) (Q : α → Prop) (r : Result α) : Prop where
  value : ∀ a, r.outcome = .matched a → Q a
  founded : ∀ e, r.outcome = .aborted (.input e) → e.Founded tokens r.record.misses.toList

/-- Every run of a matcher blames what it has missed. -/
def Matcher.Blames {α : Type} (Q : α → Prop) (m : Matcher α) : Prop :=
  ∀ c s, (m c s).Blames c.tokens Q

namespace Matcher.Blames

variable {α β : Type}

theorem of_mild {Q : α → Prop} {m : Matcher α}
    (hvalue : ∀ c s a, (m c s).outcome = .matched a → Q a)
    (hmild : ∀ c s e, (m c s).outcome ≠ .aborted (.input e)) : Blames Q m :=
  fun c s => ⟨hvalue c s, fun e he => absurd he (hmild c s e)⟩

/-- An error of a later part is laid to misses of that part, which are in the record
    of the whole. -/
theorem bind {Q : α → Prop} {R : β → Prop} {m : Matcher α} {f : α → Matcher β} (hm : Blames Q m)
    (hf : ∀ a, Q a → Blames R (f a)) : Blames R (m >>= f) := by
  intro c s
  have hfirst := hm c s
  cases h : (m c s).outcome with
  | matched a =>
    have hrest := hf a (hfirst.value a h) c (m c s).state
    rw [run_bind_matched h]
    refine ⟨hrest.value, fun e he => ?_⟩
    rw [Record.misses_append]
    exact (hrest.founded e he).mono (List.subset_append_right _ _)
  | failed =>
    rw [run_bind_failed h]
    exact ⟨nofun, nofun⟩
  | aborted e =>
    rw [run_bind_aborted h]
    refine ⟨nofun, fun e' he' => hfirst.founded e' ?_⟩
    rw [h, Outcome.aborted.inj he']

/-- A matcher whose runs differ from those of `m` only in their values. An abort is
    one of `m`, with the record that it is founded on. -/
theorem mapped {m : Matcher α} {whole : Matcher β} (hm : Blames (fun _ => True) m)
    (houtcome : ∀ c s e, (whole c s).outcome = .aborted e → (m c s).outcome = .aborted e)
    (hrecord : ∀ c s, (whole c s).record = (m c s).record) : Blames (fun _ => True) whole := by
  refine fun c s => ⟨fun _ _ => trivial, fun e he => ?_⟩
  rw [hrecord]
  exact (hm c s).founded e (houtcome c s _ he)

theorem attempt {m : Matcher α} (hm : Blames (fun _ => True) m) :
    Blames (fun _ => True) m.attempt := by
  refine hm.mapped (fun c s e he => ?_) (fun c s => by rw [run_attempt])
  rw [run_attempt] at he
  cases h : (m c s).outcome <;> simp_all [Outcome.attempted]

/-- Blame is laid to what `m` has missed, which is part of the record. This is the
    one place where an input error comes from. -/
theorem judge {m : Matcher α} {verdict : α → Option (Matcher β)} (hm : Blames (fun _ => True) m)
    (hverdict : ∀ a next, verdict a = some next → Blames (fun _ => True) next) :
    Blames (fun _ => True)
      (m.listen >>= fun x => ((verdict x.1).getD (Matcher.blame x.2) : Matcher β)) := by
  intro c s
  have hheard : m.listen c s = ⟨(m c s).outcome.map fun a => (a, (m c s).record.misses),
    (m c s).state, (m c s).record⟩ := run_listen m c s
  refine ⟨fun _ _ => trivial, fun e he => ?_⟩
  cases h : (m c s).outcome with
  | matched a =>
    have hmatched : (m.listen c s).outcome = .matched (a, (m c s).record.misses) := by
      rw [hheard, h]
      rfl
    rw [run_bind_matched hmatched, hheard] at he ⊢
    rw [Record.misses_append]
    cases hnext : verdict a with
    | some next =>
      simp only [hnext, Option.getD_some] at he ⊢
      have hrest := hverdict a next hnext c (m c s).state
      exact (hrest.founded e he).mono (List.subset_append_right _ _)
    | none =>
      simp only [hnext, Option.getD_none] at he ⊢
      have hblamed : e = .ofMisses c.tokens (m c s).state.position
          (m c s).record.misses.toList := by
        cases he
        rfl
      exact ⟨_, _, List.subset_append_left _ _, hblamed⟩
  | failed =>
    rw [run_bind_failed (by rw [hheard, h]; rfl)] at he
    cases he
  | aborted e' =>
    have haborted : (m.listen c s).outcome = .aborted e' := by
      rw [hheard, h]
      rfl
    rw [run_bind_aborted haborted, hheard] at he ⊢
    apply (hm c s).founded e
    rw [h, Outcome.aborted.inj he]

theorem leaf (l : Grammar.Leaf) : Blames (fun _ => True) (Matcher.leaf l) := by
  refine of_mild (fun _ _ _ _ => trivial) fun c s e => ?_
  by_cases haccept : ∃ t, c.tokens[s.position]? = some t ∧ l.accepts t = true
  · obtain ⟨t, htoken, hl⟩ := haccept
    rw [(run_leaf_accepts htoken hl).1]
    nofun
  · have hl (t : Token) (htoken : c.tokens[s.position]? = some t) : l.accepts t = false :=
      Bool.eq_false_iff.mpr fun h => haccept ⟨t, htoken, h⟩
    rw [(run_leaf_misses hl).1]
    nofun

/-- A production passes errors on and writes no miss of its own in front of them,
    because its label replaces misses only behind a failure. -/
theorem production (p : Grammar.Production) {body : Matcher (Bool × List Tree)}
    (hbody : Blames (fun _ => True) body) : Blames (fun _ => True) (Matcher.production p body) := by
  refine fun c s => ⟨fun _ _ => trivial, fun e he => ?_⟩
  have hinner : (runBody p body c s).Blames c.tokens fun _ => True :=
    hbody { c with stack := p.name :: c.stack } _
  cases h : (runBody p body c s).outcome with
  | matched x =>
    rw [(run_production_matched h).1] at he
    cases he
  | failed =>
    rw [(run_production_failed h).1] at he
    cases he
  | aborted e' =>
    obtain ⟨houtcome, hmisses⟩ := run_production_aborted h
    rw [houtcome] at he
    rw [hmisses]
    apply hinner.founded e
    rw [h, Outcome.aborted.inj he]

/-- A turn that is blamed is blamed for its own misses, and the turns in front of it
    do not matter. -/
theorem iterate {item : Matcher (Bool × List Tree)}
    {separator : Option (Matcher (Bool × List Tree))}
    (hturn : ∀ first : Bool, Blames (fun _ => True)
      (iteration item (if first then none else separator))) (first : Bool) :
    Blames (fun _ => True) (Matcher.iterate item separator first) := by
  intro c s
  induction hleft : c.tokens.size - s.position using Nat.strongRecOn generalizing first s with
  | _ left ih =>
  have hfirst := hturn first c s
  generalize hr : iteration item (if first then none else separator) c s = r at hfirst
  refine ⟨fun _ _ => trivial, fun e he => ?_⟩
  cases h : r.outcome with
  | matched found =>
    cases found with
    | none =>
      rw [run_iterate_over hr h] at he
      cases he
    | some nodes =>
      by_cases hprogress : c.tokens.size - r.state.position < c.tokens.size - s.position
      · have hrest := ih _ (hleft ▸ hprogress) false r.state rfl
        rw [run_iterate_next hr h hprogress] at he ⊢
        rw [Record.misses_append]
        refine (hrest.founded e ?_).mono (List.subset_append_right _ _)
        cases hends : (Matcher.iterate item separator false c r.state).outcome <;>
          simp_all [Outcome.map]
      · rw [run_iterate_still hr h hprogress] at he
        cases he
  | failed =>
    rw [run_iterate_failed hr h] at he
    cases he
  | aborted e' =>
    rw [run_iterate_aborted hr h] at he ⊢
    apply hfirst.founded e
    rw [h, Outcome.aborted.inj he]

end Matcher.Blames

namespace Discipline

open Matcher

/-- Blaming what was missed is a discipline, so every input error of a parse is made
    of misses that were written down. -/
def blames : Discipline where
  Holds := Blames
  Place _ := True
  Allowed _ := True
  pure ha := .of_mild (fun _ _ _ h => by cases h; exact ha) nofun
  bind := Blames.bind
  fail := .of_mild nofun nofun
  unknown _ := .of_mild nofun nofun
  tooDeep := .of_mild nofun nofun
  position := .of_mild (fun _ _ _ _ => trivial) nofun
  seek _ := .of_mild (fun _ _ _ _ => trivial) nofun
  report _ := .of_mild (fun _ _ _ _ => trivial) nofun
  charge := .of_mild (fun _ _ _ _ => trivial) fun c s e h => by
    unfold Matcher.charge at h
    split at h <;> cases h
  checkPatience := .of_mild (fun _ _ _ _ => trivial) fun c s e h => by
    unfold Matcher.checkPatience at h
    split at h <;> cases h
  attempt := Blames.attempt
  candidate branch start hm := .bind (Q := fun _ => True) (.of_mild (fun _ _ _ _ => trivial) nofun)
    fun _ _ => .bind (Q := fun _ => True) (.of_mild (fun _ _ _ _ => trivial) nofun) fun _ _ => hm
  judge := Blames.judge
  leaf _ := Blames.leaf _
  breakpoint := .of_mild (fun _ _ _ _ => trivial) fun c s e h => by
    rw [(run_breakpoint c s).1] at h
    cases h
  production p _ hbody := Blames.production p hbody
  iterate := Blames.iterate

end Discipline

end SqlStatement

import SqlStatement.Proofs.Match.Discipline
import SqlStatement.Proofs.Match.Run

namespace SqlStatement

open Grammar (Leaf)

/-- Who has written a miss down: one of the leaves, which asks for what the miss
    says was expected and has reported that it failed at this place. The label of a
    production has no such witness. -/
def Miss.ByLeaf (leaves : List Leaf) (events : List Event) (miss : Miss) : Prop :=
  ∃ l ∈ leaves, miss.expected ∈ l.expectations ∧ .miss l.announced miss.position ∈ events

theorem Miss.ByLeaf.mono {leaves : List Leaf} {events more : List Event} {miss : Miss}
    (h : miss.ByLeaf leaves events) (hsubset : events ⊆ more) : miss.ByLeaf leaves more := by
  obtain ⟨l, hl, hexpects, hfailed⟩ := h
  exact ⟨l, hl, hexpects, hsubset hfailed⟩

/-- A record in which every miss was written down by a leaf. -/
def Record.Attested (leaves : List Leaf) (r : Record) : Prop :=
  ∀ miss ∈ r.misses.toList, miss.ByLeaf leaves r.events.toList

namespace Record.Attested

variable {leaves : List Leaf} {a b r : Record}

/-- A record without misses has nothing to attest. -/
theorem of_misses_eq_nil (h : r.misses.toList = []) : r.Attested leaves := by
  intro miss hmiss
  rw [h] at hmiss
  cases hmiss

/-- Two records put together are attested by what both have reported. What each of
    them reports is among what both report. -/
theorem append (ha : a.Attested leaves) (hb : b.Attested leaves) : (a ++ b).Attested leaves := by
  intro miss hmiss
  rw [Record.misses_append] at hmiss
  rw [Record.events_append]
  rcases List.mem_append.mp hmiss with hfront | hrest
  · exact (ha miss hfront).mono (List.subset_append_left _ _)
  · exact (hb miss hrest).mono (List.subset_append_right _ _)

end Record.Attested

/-- Whatever a leaf misses in front of a token or of the end of the input, it asks
    for. At the end of the input a set of kinds may ask for less than its members,
    and never for more. -/
theorem Grammar.Leaf.misses_subset (l : Leaf) (next : Option Token) :
    l.misses next ⊆ l.expectations := by
  unfold misses
  split
  · split
    · exact List.nil_subset _
    · exact List.Subset.refl _
  · exact List.Subset.refl _

/-- A matcher that writes no miss down but those of its leaves. This holds of runs
    that complete: only a run that reads puts the labels of productions in the place
    of misses. -/
def Matcher.Attests {α : Type} (leaves : List Leaf) (Q : α → Prop) (m : Matcher α) : Prop :=
  ∀ c s, c.purpose = .completing →
    (∀ a, (m c s).outcome = .matched a → Q a) ∧ (m c s).record.Attested leaves

namespace Matcher.Attests

variable {α β : Type} {leaves : List Leaf}

/-- A step that writes no miss down. -/
theorem of_quiet {Q : α → Prop} {m : Matcher α}
    (hvalue : ∀ c s a, (m c s).outcome = .matched a → Q a)
    (hquiet : ∀ c s, (m c s).record.misses.toList = []) : Attests leaves Q m :=
  fun c s _ => ⟨hvalue c s, .of_misses_eq_nil (hquiet c s)⟩

/-- The misses of both parts are attested by what was reported in them. A part that
    does not run has missed nothing. -/
theorem bind {Q : α → Prop} {R : β → Prop} {m : Matcher α} {f : α → Matcher β}
    (hm : Attests leaves Q m) (hf : ∀ a, Q a → Attests leaves R (f a)) :
    Attests leaves R (m >>= f) := by
  intro c s hc
  obtain ⟨hvalue, hfirst⟩ := hm c s hc
  cases h : (m c s).outcome with
  | matched a =>
    obtain ⟨hresult, hrest⟩ := hf a (hvalue a h) c (m c s).state hc
    rw [run_bind_matched h]
    exact ⟨hresult, hfirst.append hrest⟩
  | failed =>
    rw [run_bind_failed h]
    exact ⟨nofun, hfirst⟩
  | aborted e =>
    rw [run_bind_aborted h]
    exact ⟨nofun, hfirst⟩

theorem attempt {m : Matcher α} (hm : Attests leaves (fun _ => True) m) :
    Attests leaves (fun _ => True) m.attempt := by
  intro c s hc
  rw [run_attempt]
  exact ⟨fun _ _ => trivial, (hm c s hc).2⟩

theorem listen {m : Matcher α} (hm : Attests leaves (fun _ => True) m) :
    Attests leaves (fun _ => True) m.listen := by
  intro c s hc
  rw [run_listen]
  exact ⟨fun _ _ => trivial, (hm c s hc).2⟩

/-- A leaf that fails reports so at the place where it writes down what it asks for.
    One that matches has nothing to attest. -/
theorem leaf {l : Leaf} (hl : l ∈ leaves) : Attests leaves (fun _ => True) (Matcher.leaf l) := by
  refine fun c s _ => ⟨fun _ _ => trivial, ?_⟩
  by_cases haccept : ∃ t, c.tokens[s.position]? = some t ∧ l.accepts t = true
  · obtain ⟨t, htoken, haccepts⟩ := haccept
    exact .of_misses_eq_nil (run_leaf_accepts htoken haccepts).2.2.1
  · have hrejects (t : Token) (htoken : c.tokens[s.position]? = some t) : l.accepts t = false :=
      Bool.eq_false_iff.mpr fun h => haccept ⟨t, htoken, h⟩
    obtain ⟨-, -, hmisses, hevents, -⟩ := run_leaf_misses hrejects
    intro miss hmiss
    rw [hmisses] at hmiss
    obtain ⟨x, hx, rfl⟩ := List.mem_map.mp hmiss
    refine ⟨l, hl, l.misses_subset _ hx, ?_⟩
    rw [hevents]
    exact List.mem_singleton_self _

/-- A production that is completed keeps the misses of its body, and reports more
    than the body. So the misses are attested by the leaves that the body has
    tried. -/
theorem production (p : Grammar.Production) {body : Matcher (Bool × List Tree)}
    (hbody : Attests leaves (fun _ => True) body) :
    Attests leaves (fun _ => True) (Matcher.production p body) := by
  refine fun c s hc => ⟨fun _ _ => trivial, fun miss hmiss => ?_⟩
  have hinner : (runBody p body c s).record.Attested leaves :=
    (hbody { c with stack := p.name :: c.stack } _ hc).2
  have hmisses : (Matcher.production p body c s).record.misses.toList =
      (runBody p body c s).record.misses.toList := by
    cases h : (runBody p body c s).outcome with
    | matched x => exact (run_production_matched h).2
    | failed => rw [(run_production_failed h).2, hc, Grammar.Production.summary_completing]
    | aborted e => exact (run_production_aborted h).2
  rw [hmisses] at hmiss
  apply (hinner miss hmiss).mono
  rw [run_production_events]
  exact fun event hevent => List.mem_append_left _ (List.mem_cons_of_mem _ hevent)

theorem iterate {item : Matcher (Bool × List Tree)}
    {separator : Option (Matcher (Bool × List Tree))}
    (hturn : ∀ first : Bool, Attests leaves (fun _ => True)
      (iteration item (if first then none else separator))) (first : Bool) :
    Attests leaves (fun _ => True) (Matcher.iterate item separator first) := by
  refine fun c s hc => ⟨fun _ _ => trivial, ?_⟩
  -- each turn that goes on comes closer to the end of the tokens
  induction hleft : c.tokens.size - s.position using Nat.strongRecOn generalizing first s with
  | _ left ih =>
  obtain ⟨-, hfirst⟩ := hturn first c s hc
  generalize hr : iteration item (if first then none else separator) c s = r at hfirst
  by_cases hgoes : GoesOn c s.position r
  · obtain ⟨nodes, houtcome, hprogress⟩ := hgoes
    rw [run_iterate_next hr houtcome hprogress]
    exact hfirst.append (ih _ (hleft ▸ hprogress) false r.state rfl)
  · rw [run_iterate_ended hr hgoes]
    exact hfirst

end Matcher.Attests

namespace Discipline

open Matcher

/-- Writing down only what leaves miss is a discipline. Blame writes nothing down. -/
def attests (leaves : List Leaf) : Discipline where
  Holds := Attests leaves
  Place _ := True
  Allowed l := l ∈ leaves
  pure ha := .of_quiet (fun _ _ _ h => by cases h; exact ha) fun _ _ => rfl
  bind := Attests.bind
  fail := .of_quiet nofun fun _ _ => rfl
  unknown _ := .of_quiet nofun fun _ _ => rfl
  tooDeep := .of_quiet nofun fun _ _ => rfl
  position := .of_quiet (fun _ _ _ _ => trivial) fun _ _ => rfl
  seek _ := .of_quiet (fun _ _ _ _ => trivial) fun _ _ => rfl
  report _ := .of_quiet (fun _ _ _ _ => trivial) fun _ _ => rfl
  charge := .of_quiet (fun _ _ _ _ => trivial) fun _ _ => by
    unfold Matcher.charge
    split <;> rfl
  checkPatience := .of_quiet (fun _ _ _ _ => trivial) fun _ _ => by
    unfold Matcher.checkPatience
    split <;> rfl
  attempt := Attests.attempt
  candidate branch start hm :=
    .bind (Q := fun _ => True) (.of_quiet (fun _ _ _ _ => trivial) fun _ _ => rfl) fun _ _ =>
      .bind (Q := fun _ => True) (.of_quiet (fun _ _ _ _ => trivial) fun _ _ => rfl) fun _ _ => hm
  judge {_ _ m verdict} hm hverdict := .bind (.listen hm) fun x _ => by
    cases h : verdict x.1 with
    | none => exact .of_quiet (fun _ _ _ _ => trivial) fun _ _ => rfl
    | some next => exact hverdict x.1 next h
  leaf hl := Attests.leaf hl
  breakpoint := .of_quiet (fun _ _ _ _ => trivial) fun c s => (run_breakpoint c s).2.2.1
  production p _ hbody := Attests.production p hbody
  iterate := Attests.iterate

end Discipline

end SqlStatement

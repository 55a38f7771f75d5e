import SqlStatement.Grammar.Defect
import SqlStatement.Proofs.Grammar.Leaves

namespace SqlStatement.Grammar

mutual

/-- The parts of a term, itself first. They go to every depth, but not behind a
    reference. -/
def Term.parts : Term → List Term
  | .optional body => .optional body :: body.parts
  | .alternation candidates => .alternation candidates :: candidateParts candidates
  | .repetition item none least => .repetition item none least :: item.parts
  | .repetition item (some separator) least =>
    .repetition item (some separator) least :: (item.parts ++ separator.parts)
  | .leaf l => [.leaf l]
  | .production name => [.production name]
  | .breakpoint => [.breakpoint]
  termination_by structural t => t

/-- The parts of a sequence. -/
def Sequence.parts : Sequence → List Term
  | ⟨terms, _⟩ => termParts terms
  termination_by structural s => s

/-- The parts of terms in order. -/
def termParts : List Term → List Term
  | [] => []
  | t :: ts => t.parts ++ termParts ts
  termination_by structural ts => ts

/-- The parts of candidates in order. -/
def candidateParts : List Sequence → List Term
  | [] => []
  | c :: cs => c.parts ++ candidateParts cs
  termination_by structural cs => cs

end

theorem Term.mem_parts_self (t : Term) : t ∈ t.parts := by
  cases t with
  | repetition item separator least => cases separator <;> exact List.mem_cons_self
  | leaf | production | optional | alternation | breakpoint => exact List.mem_cons_self

/-- The parts of a term are parts of the terms that it stands among. The induction
    is on the terms. -/
theorem parts_subset_termParts {ts : List Term} {t : Term} (ht : t ∈ ts) :
    t.parts ⊆ termParts ts := by
  induction ts with
  | nil => cases ht
  | cons first rest ih =>
    rcases List.mem_cons.mp ht with rfl | hrest
    · exact List.subset_append_left _ _
    · exact List.subset_append_of_subset_right _ (ih hrest)

/-- The same for a candidate. So what holds of all parts of an alternation holds of
    those of each candidate. -/
theorem parts_subset_candidateParts {cs : List Sequence} {c : Sequence} (hc : c ∈ cs) :
    c.parts ⊆ candidateParts cs := by
  induction cs with
  | nil => cases hc
  | cons first rest ih =>
    rcases List.mem_cons.mp hc with rfl | hrest
    · exact List.subset_append_left _ _
    · exact List.subset_append_of_subset_right _ (ih hrest)

/-- What holds of the parts of a term holds of the parts of what the term is made
    of. -/
theorem passes_parts (P : Term → Prop) :
    Passes (fun t => ∀ u ∈ t.parts, P u) (fun s => ∀ u ∈ s.parts, P u) where
  optional h u hu := h u (List.mem_cons_of_mem _ hu)
  candidates h c hc u hu := h u (List.mem_cons_of_mem _ (parts_subset_candidateParts hc hu))
  item {_ separator _} h u hu := by
    cases separator with
    | none => exact h u (List.mem_cons_of_mem _ hu)
    | some s => exact h u (List.mem_cons_of_mem _ (List.mem_append_left _ hu))
  separator h u hu := h u (List.mem_cons_of_mem _ (List.mem_append_right _ hu))
  terms h t ht u hu := h u (parts_subset_termParts ht hu)

/-- The parts of all productions. -/
def parts (g : Grammar) : List Term := g.productions.flatMap (·.body.parts)

theorem mem_parts_of_find? {g : Grammar} {name : String} {p : Production} {u : Term}
    (hfind : g.find? name = some p) (hu : u ∈ p.body.parts) : u ∈ g.parts :=
  List.mem_flatMap.mpr ⟨p, List.mem_of_find?_eq_some hfind, hu⟩

mutual

/-- A part that is a leaf is one of the leaves. Both lists are made by the same
    recursion. -/
theorem Term.leaf_mem_leaves {l : Leaf} :
    ∀ t : Term, .leaf l ∈ t.parts → l ∈ t.leaves
  | .leaf l', h => by
    cases List.mem_singleton.mp h
    exact List.mem_singleton_self l
  | .production name, h => nomatch List.mem_singleton.mp h
  | .breakpoint, h => nomatch List.mem_singleton.mp h
  | .optional body, h => by
    rcases List.mem_cons.mp h with hself | hbody
    · cases hself
    · exact body.leaf_mem_leaves hbody
  | .alternation candidates, h => by
    rcases List.mem_cons.mp h with hself | hcandidates
    · cases hself
    · exact leaf_mem_candidateLeaves candidates hcandidates
  | .repetition item none least, h => by
    rcases List.mem_cons.mp h with hself | hitem
    · cases hself
    · exact item.leaf_mem_leaves hitem
  | .repetition item (some separator) least, h => by
    rcases List.mem_cons.mp h with hself | hrest
    · cases hself
    · rcases List.mem_append.mp hrest with hitem | hseparator
      · exact List.mem_append_left _ (item.leaf_mem_leaves hitem)
      · exact List.mem_append_right _ (separator.leaf_mem_leaves hseparator)

theorem Sequence.leaf_mem_leaves {l : Leaf} :
    ∀ s : Sequence, .leaf l ∈ s.parts → l ∈ s.leaves
  | ⟨terms, _⟩, h => leaf_mem_termLeaves terms h

theorem leaf_mem_termLeaves {l : Leaf} :
    ∀ ts : List Term, .leaf l ∈ termParts ts → l ∈ termLeaves ts
  | [], h => nomatch h
  | t :: ts, h => by
    rcases List.mem_append.mp h with hhead | hrest
    · exact List.mem_append_left _ (t.leaf_mem_leaves hhead)
    · exact List.mem_append_right _ (leaf_mem_termLeaves ts hrest)

theorem leaf_mem_candidateLeaves {l : Leaf} :
    ∀ cs : List Sequence, .leaf l ∈ candidateParts cs → l ∈ candidateLeaves cs
  | [], h => nomatch h
  | c :: cs, h => by
    rcases List.mem_append.mp h with hhead | hrest
    · exact List.mem_append_left _ (c.leaf_mem_leaves hhead)
    · exact List.mem_append_right _ (leaf_mem_candidateLeaves cs hrest)

end

theorem leaf_mem_of_mem_parts {g : Grammar} {l : Leaf} (h : .leaf l ∈ g.parts) : l ∈ g.leaves := by
  obtain ⟨p, hp, hl⟩ := List.mem_flatMap.mp h
  exact List.mem_flatMap.mpr ⟨p, hp, p.body.leaf_mem_leaves hl⟩

section Flaw

variable {defined : String → Bool} {u : Term}

mutual

/-- A part of a term without flaws has none, by the recursion of the check. The
    check visits every part before it finds that there is no flaw. -/
theorem Term.flaw?_of_mem_parts :
    ∀ t : Term, t.flaw? defined = none → u ∈ t.parts → u.flaw? defined = none
  | .leaf l, h, hu => by
    cases List.mem_singleton.mp hu
    exact h
  | .production name, h, hu => by
    cases List.mem_singleton.mp hu
    exact h
  | .breakpoint, h, hu => by
    cases List.mem_singleton.mp hu
    exact h
  | .optional body, h, hu => by
    rcases List.mem_cons.mp hu with rfl | hbody
    · exact h
    · exact body.flaw?_of_mem_parts (Option.map_eq_none_iff.mp h) hbody
  | .alternation [], h, hu => nomatch h
  | .alternation (c :: cs), h, hu => by
    rcases List.mem_cons.mp hu with rfl | hcandidates
    · exact h
    · exact flaw?_of_mem_candidateParts (c :: cs) 0 h hcandidates
  | .repetition item none least, h, hu => by
    rcases List.mem_cons.mp hu with rfl | hitem
    · exact h
    · exact item.flaw?_of_mem_parts (Option.map_eq_none_iff.mp h) hitem
  | .repetition item (some separator) least, h, hu => by
    rcases List.mem_cons.mp hu with rfl | hrest
    · exact h
    · obtain ⟨hitem, hseparator⟩ := Option.or_eq_none_iff.mp h
      rcases List.mem_append.mp hrest with hmem | hmem
      · exact item.flaw?_of_mem_parts (Option.map_eq_none_iff.mp hitem) hmem
      · exact separator.flaw?_of_mem_parts (Option.map_eq_none_iff.mp hseparator) hmem

theorem Sequence.flaw?_of_mem_parts :
    ∀ s : Sequence, s.flaw? defined = none → u ∈ s.parts → u.flaw? defined = none
  | ⟨[], _⟩, h, _ => nomatch h
  | ⟨t :: ts, commit⟩, h, hu => by
    rw [Sequence.flaw?] at h
    split at h
    · cases h
    · exact flaw?_of_mem_termParts (t :: ts) 0 h hu

theorem flaw?_of_mem_termParts : ∀ (ts : List Term) (index : Nat),
    termsFlaw? defined index ts = none → u ∈ termParts ts → u.flaw? defined = none
  | [], _, _, hu => nomatch hu
  | t :: ts, index, h, hu => by
    obtain ⟨hhead, hrest⟩ := Option.or_eq_none_iff.mp h
    rcases List.mem_append.mp hu with hmem | hmem
    · exact t.flaw?_of_mem_parts (Option.map_eq_none_iff.mp hhead) hmem
    · exact flaw?_of_mem_termParts ts (index + 1) hrest hmem

theorem flaw?_of_mem_candidateParts : ∀ (cs : List Sequence) (index : Nat),
    candidatesFlaw? defined index cs = none → u ∈ candidateParts cs → u.flaw? defined = none
  | [], _, _, hu => nomatch hu
  | c :: cs, index, h, hu => by
    obtain ⟨hhead, hrest⟩ := Option.or_eq_none_iff.mp h
    rcases List.mem_append.mp hu with hmem | hmem
    · exact c.flaw?_of_mem_parts (Option.map_eq_none_iff.mp hhead) hmem
    · exact flaw?_of_mem_candidateParts cs (index + 1) hrest hmem

end

end Flaw

/-- No part of a grammar without defects has a flaw. That is the form in which
    proofs about single parts use the check. -/
theorem flaw?_of_defect? {g : Grammar} (hdefect : g.defect? = none) {u : Term} (hu : u ∈ g.parts) :
    u.flaw? g.defines = none := by
  obtain ⟨p, hp, hmem⟩ := List.mem_flatMap.mp hu
  unfold defect? at hdefect
  split at hdefect
  · cases hdefect
  · split at hdefect
    · have hbody := List.findSome?_eq_none_iff.mp hdefect p hp
      exact p.body.flaw?_of_mem_parts (Option.map_eq_none_iff.mp hbody) hmem
    · cases hdefect

/-- Whether a set of kinds holds no more than its members. -/
def Leaf.holdsMembers : Leaf → Bool
  | .oneOf kinds => kinds == .ofList kinds.toList
  | _ => true

/-- Every set of kinds is made of the kinds that it contains. -/
def SetsHoldMembers (g : Grammar) : Prop := ∀ l ∈ g.leaves, l.holdsMembers = true

instance (g : Grammar) : Decidable g.SetsHoldMembers :=
  inferInstanceAs (Decidable (∀ l ∈ g.leaves, l.holdsMembers = true))

end SqlStatement.Grammar

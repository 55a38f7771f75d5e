import SqlStatement.Proofs.Grammar.Parts
import SqlStatement.Proofs.Match.Discipline

namespace SqlStatement

namespace Grammar

/-- Whether two ways to match productions agree on those that are referred to in
    some parts. -/
def Agree (call call' : String → Matcher Tree) (parts : List Term) : Prop :=
  ∀ name, .production name ∈ parts → call name = call' name

section Agree

variable {call call' : String → Matcher Tree}

mutual

/-- The matcher of a term depends on the productions that its parts refer to, and on
    no others. The recursion is that of the matcher. -/
theorem Term.matcher_congr :
    ∀ t : Term, Agree call call' t.parts → t.matcher call = t.matcher call'
  | .leaf _, _ => rfl
  | .production name, h => by
    simp only [Term.matcher, h name (List.mem_singleton_self _)]
  | .optional body, h => by
    have hbody := body.matcher_congr fun name hname => h name (List.mem_cons_of_mem _ hname)
    simp only [Term.matcher, hbody]
  | .alternation candidates, h => by
    have hcandidates := candidateMatchers_congr candidates fun name hname =>
      h name (List.mem_cons_of_mem _ hname)
    simp only [Term.matcher, hcandidates]
  | .repetition item none _, h => by
    have hitem := item.matcher_congr fun name hname => h name (List.mem_cons_of_mem _ hname)
    simp only [Term.matcher, hitem]
  | .repetition item (some separator) _, h => by
    have hitem := item.matcher_congr fun name hname =>
      h name (List.mem_cons_of_mem _ (List.mem_append_left _ hname))
    have hseparator := separator.matcher_congr fun name hname =>
      h name (List.mem_cons_of_mem _ (List.mem_append_right _ hname))
    simp only [Term.matcher, hitem, hseparator]
  | .breakpoint, _ => rfl

theorem Sequence.matcher_congr :
    ∀ s : Sequence, Agree call call' s.parts → s.matcher call = s.matcher call'
  | ⟨terms, _⟩, h => by
    simp only [Sequence.matcher, termMatchers_congr terms h]

/-- The same for the terms of a sequence. -/
theorem termMatchers_congr : ∀ ts : List Term, Agree call call' (termParts ts) →
    termMatchers call ts = termMatchers call' ts
  | [], _ => rfl
  | t :: ts, h => by
    have ht := t.matcher_congr fun name hname => h name (List.mem_append_left _ hname)
    have hts := termMatchers_congr ts fun name hname => h name (List.mem_append_right _ hname)
    simp only [termMatchers, ht, hts]

/-- The same for the candidates of an alternation. -/
theorem candidateMatchers_congr : ∀ cs : List Sequence, Agree call call' (candidateParts cs) →
    candidateMatchers call cs = candidateMatchers call' cs
  | [], _ => rfl
  | c :: cs, h => by
    have hc := c.matcher_congr fun name hname => h name (List.mem_append_left _ hname)
    have hcs := candidateMatchers_congr cs fun name hname => h name (List.mem_append_right _ hname)
    simp only [candidateMatchers, hc, hcs]

end

end Agree

/-- The names of the productions that a term refers to. -/
def Term.target? : Term → Option String
  | .production name => some name
  | _ => none

/-- A term refers to productions with the given names only. -/
def Term.RefersTo (names : List String) (t : Term) : Prop :=
  ∀ u ∈ t.parts, ∀ n ∈ u.target?, n ∈ names

instance (names : List String) (t : Term) : Decidable (t.RefersTo names) :=
  inferInstanceAs (Decidable (∀ u ∈ t.parts, ∀ n ∈ u.target?, n ∈ names))

/-- A sequence refers to productions with the given names only. -/
def Sequence.RefersTo (names : List String) (s : Sequence) : Prop :=
  ∀ u ∈ s.parts, ∀ n ∈ u.target?, n ∈ names

instance (names : List String) (s : Sequence) : Decidable (s.RefersTo names) :=
  inferInstanceAs (Decidable (∀ u ∈ s.parts, ∀ n ∈ u.target?, n ∈ names))

/-- The productions with the given names refer to each other only. -/
def Closed (g : Grammar) (names : List String) : Prop :=
  ∀ p ∈ g.productions, p.name ∈ names → p.body.RefersTo names

instance (g : Grammar) (names : List String) : Decidable (g.Closed names) :=
  inferInstanceAs (Decidable (∀ p ∈ g.productions, p.name ∈ names → p.body.RefersTo names))

/-- The leaves of the productions with the given names. -/
def leavesOf (g : Grammar) (names : List String) : List Leaf :=
  (g.productions.filter (names.contains ·.name)).flatMap (·.body.leaves)

/-- The leaves of a named production are among those of all named ones. What is
    checked of the latter holds of the leaves that a run of the production may try. -/
theorem mem_leavesOf {g : Grammar} {names : List String} {name : String} {p : Production}
    {l : Leaf} (hname : name ∈ names) (hfind : g.find? name = some p) (hl : l ∈ p.body.leaves) :
    l ∈ g.leavesOf names := by
  refine List.mem_flatMap.mpr ⟨p, List.mem_filter.mpr ⟨List.mem_of_find?_eq_some hfind, ?_⟩, hl⟩
  rw [name_of_find? hfind]
  exact List.contains_iff_mem.mpr hname

end Grammar

namespace Discipline

open Grammar

variable (d : Discipline) {g : Grammar} {names : List String} {call : String → Matcher Tree}

/-- Terms and sequences of allowed leaves that refer to disciplined productions only
    are disciplined, whatever the other productions do. -/
theorem fold_of_names (hcall : ∀ n ∈ names, d.Keeps (call n)) :
    (∀ t : Term, t.RefersTo names → (∀ l ∈ t.leaves, d.Allowed l) → d.Keeps (t.matcher call)) ∧
      ∀ s : Sequence, s.RefersTo names → (∀ l ∈ s.leaves, d.Allowed l) →
        d.Keeps (s.matcher call) := by
  have hpasses := (passes_parts fun u => ∀ n ∈ u.target?, n ∈ names).and (passes_leaves d.Allowed)
  have hfold := d.fold_of_passes hpasses (fun l h => d.leaf (h.2 l (List.mem_singleton_self l)))
    (fun name h => hcall name (h.1 _ (List.mem_singleton_self _) name rfl)) fun _ => d.breakpoint
  exact ⟨fun t ht hl => hfold.term t ⟨ht, hl⟩, fun s hs hl => hfold.ofSequence s ⟨hs, hl⟩⟩

/-- A closed set of productions with allowed leaves is disciplined. The leaves of
    the rest of the table need not be allowed, since no match inside the set gets
    there. -/
theorem keeps_matcher_of_closed (hclosed : g.Closed names)
    (hallowed : ∀ l ∈ g.leavesOf names, d.Allowed l) (depth : Nat) {name : String}
    (hname : name ∈ names) : d.Keeps (g.matcher depth name) := by
  induction depth generalizing name with
  | zero =>
    rw [Grammar.matcher]
    cases g.find? name with
    | none => exact d.unknown name
    | some p => exact d.tooDeep
  | succ depth ih =>
    rw [Grammar.matcher]
    cases hfind : g.find? name with
    | none => exact d.unknown name
    | some p =>
      have hp : p.name ∈ names := name_of_find? hfind ▸ hname
      refine d.production p ((d.fold_of_names fun n hn => ih hn).2 p.body ?_ fun l hl => ?_)
      · exact hclosed p (List.mem_of_find?_eq_some hfind) hp
      · exact hallowed l (mem_leavesOf hname hfind hl)

end Discipline

end SqlStatement

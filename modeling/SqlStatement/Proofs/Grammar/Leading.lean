import Mathlib.Logic.Relation
import SqlStatement.Proofs.Grammar.Nullable

namespace SqlStatement.Grammar

/-- Terms in order may ask for a production before they have got past a token. -/
inductive Asks (g : Grammar) : List Term → String → Prop
  | production {name : String} {ts : List Term} : Asks g (.production name :: ts) name
  | optional {body : Sequence} {ts : List Term} {name : String} (hbody : Asks g body.terms name) :
      Asks g (.optional body :: ts) name
  | alternation {candidates : List Sequence} {s : Sequence} {ts : List Term} {name : String}
      (hs : s ∈ candidates) (hbody : Asks g s.terms name) :
      Asks g (.alternation candidates :: ts) name
  | item {item : Sequence} {separator : Option Sequence} {least : Nat} {ts : List Term}
      {name : String} (hitem : Asks g item.terms name) :
      Asks g (.repetition item separator least :: ts) name
  | separator {item separator : Sequence} {least : Nat} {ts : List Term} {name : String}
      (hempty : g.Produces (.terms item.terms) []) (hseparator : Asks g separator.terms name) :
      Asks g (.repetition item (some separator) least :: ts) name
  | behind {t : Term} {ts : List Term} {name : String} (hempty : g.Produces (.term t) [])
      (hrest : Asks g ts name) : Asks g (t :: ts) name

/-- A production asks for the next one before it has got past a token. A table in
    which no production leads back to itself is not left-recursive. -/
def LeadsTo (g : Grammar) (name next : String) : Prop :=
  ∃ p, g.find? name = some p ∧ g.Asks p.body.terms next

mutual

/-- The productions that a term asks for first, if no production but the `known`
    ones may have the empty word. -/
def Term.leading (known : List String) : Term → List String
  | .leaf _ => []
  | .production name => [name]
  | .optional body => body.leading known
  | .alternation candidates => candidatesLeading known candidates
  | .repetition item none _ => item.leading known
  | .repetition item (some separator) _ =>
    item.leading known ++ if item.nullable known then separator.leading known else []
  | .breakpoint => []
  termination_by structural t => t

/-- The productions that a sequence asks for first. -/
def Sequence.leading (known : List String) : Sequence → List String
  | ⟨terms, _⟩ => termsLeading known terms
  termination_by structural s => s

/-- The productions that terms in order ask for first. -/
def termsLeading (known : List String) : List Term → List String
  | [] => []
  | t :: ts => t.leading known ++ if t.nullable known then termsLeading known ts else []
  termination_by structural ts => ts

/-- The productions that one of several candidates asks for first. -/
def candidatesLeading (known : List String) : List Sequence → List String
  | [] => []
  | c :: cs => c.leading known ++ candidatesLeading known cs
  termination_by structural cs => cs

end

section Lists

variable {known : List String}

theorem Sequence.leading_eq (known : List String) (s : Sequence) :
    s.leading known = termsLeading known s.terms := by
  cases s
  rfl

/-- Terms in order ask for what the first of them asks for. -/
theorem leading_subset_termsLeading (t : Term) (ts : List Term) :
    t.leading known ⊆ termsLeading known (t :: ts) := by
  rw [termsLeading]
  exact List.subset_append_left _ _

/-- Behind a term that may be empty, they also ask for what the others ask for. -/
theorem termsLeading_subset_cons {t : Term} (ht : t.nullable known = true) (ts : List Term) :
    termsLeading known ts ⊆ termsLeading known (t :: ts) := by
  rw [termsLeading, if_pos ht]
  exact List.subset_append_right _ _

/-- A repetition starts with its item. Whether it has a separator does not matter to
    its first round. -/
theorem leading_subset_repetition (item : Sequence) (separator : Option Sequence) (least : Nat) :
    item.leading known ⊆ (Term.repetition item separator least).leading known := by
  cases separator with
  | none => exact List.Subset.refl _
  | some separator => exact List.subset_append_left _ _

/-- If the item may be empty, the separator comes next. Then the item may match
    nothing in the first round, and the second one starts with the separator. -/
theorem separator_subset_repetition {item : Sequence} (hitem : item.nullable known = true)
    (separator : Sequence) (least : Nat) :
    separator.leading known ⊆ (Term.repetition item (some separator) least).leading known := by
  rw [Term.leading, if_pos hitem]
  exact List.subset_append_right _ _

/-- An alternation asks for what each candidate asks for. Any of them may be the one
    that matches. -/
theorem leading_subset_candidatesLeading {cs : List Sequence} {c : Sequence} (hc : c ∈ cs) :
    c.leading known ⊆ candidatesLeading known cs := by
  induction cs with
  | nil => cases hc
  | cons first rest ih =>
    rw [candidatesLeading]
    rcases List.mem_cons.mp hc with rfl | hrest
    · exact List.subset_append_left _ _
    · exact List.subset_append_of_subset_right _ (ih hrest)

end Lists

variable {g : Grammar} {known : List String}

/-- The test finds every production that is asked for first. The cases are the ways
    to ask for one: a term that is it, a part of the first term, or what follows
    terms that may match nothing. -/
theorem Asks.mem_leading (hknown : g.NullableWithin known) {ts : List Term} {name : String}
    (h : g.Asks ts name) : name ∈ termsLeading known ts := by
  induction h with
  | production => exact leading_subset_termsLeading _ _ (List.mem_singleton_self _)
  | optional _ ih =>
    rw [← Sequence.leading_eq] at ih
    exact leading_subset_termsLeading _ _ ih
  | item _ ih =>
    rw [← Sequence.leading_eq] at ih
    exact leading_subset_termsLeading _ _ (leading_subset_repetition _ _ _ ih)
  | separator hempty _ ih =>
    rw [← Sequence.leading_eq] at ih
    have hitem := (Sequence.nullable_eq ..).trans (hempty.nullable hknown rfl)
    exact leading_subset_termsLeading _ _ (separator_subset_repetition hitem _ _ ih)
  | alternation hs _ ih =>
    rw [← Sequence.leading_eq] at ih
    exact leading_subset_termsLeading _ _ (leading_subset_candidatesLeading hs ih)
  | behind hempty _ ih => exact termsLeading_subset_cons (hempty.nullable hknown rfl) _ ih

/-- No chain of productions that lead to one another from a production is longer
    than `levels`. -/
def leadsWithin (g : Grammar) (known : List String) : (levels : Nat) → (name : String) → Bool
  | 0, name => (g.find? name).isNone
  | levels + 1, name =>
    match g.find? name with
    | none => true
    | some p => (p.body.leading known).all (g.leadsWithin known levels)

/-- A production that is not in the table asks for nothing. -/
theorem leadsWithin_of_unknown {name : String} (hfind : g.find? name = none) (levels : Nat) :
    g.leadsWithin known levels name = true := by
  cases levels <;> simp [leadsWithin, hfind]

/-- What a production asks for first has one level less. The test goes down one
    level with each production, and fails at level zero. -/
theorem exists_leadsWithin_next {levels : Nat} {name : String} {p : Production}
    (h : g.leadsWithin known levels name = true) (hfind : g.find? name = some p) :
    ∃ fewer, levels = fewer + 1 ∧
      ∀ next ∈ p.body.leading known, g.leadsWithin known fewer next = true := by
  cases levels with
  | zero => simp [leadsWithin, hfind] at h
  | succ fewer =>
    simp only [leadsWithin, hfind] at h
    exact ⟨fewer, rfl, List.all_eq_true.mp h⟩

/-- No chain of productions that lead to one another is longer than `levels`. -/
def LeadsWithin (g : Grammar) (known : List String) (levels : Nat) : Prop :=
  ∀ p ∈ g.productions, g.leadsWithin known levels p.name = true

instance (g : Grammar) (known : List String) (levels : Nat) :
    Decidable (g.LeadsWithin known levels) :=
  inferInstanceAs (Decidable (∀ p ∈ g.productions, g.leadsWithin known levels p.name = true))

/-- What is said of the productions of the table holds of every name. A name without
    a production in the table leads nowhere. -/
theorem LeadsWithin.leadsWithin {levels : Nat} (h : g.LeadsWithin known levels) (name : String) :
    g.leadsWithin known levels name = true := by
  cases hfind : g.find? name with
  | none => exact leadsWithin_of_unknown hfind levels
  | some p =>
    have hp := h p (List.mem_of_find?_eq_some hfind)
    rwa [name_of_find? hfind] at hp

/-- From a production to the next one the levels get fewer. What leads to it was
    found among what the body asks for first. -/
theorem LeadsTo.exists_fewer (hknown : g.NullableWithin known) {name next : String}
    (h : g.LeadsTo name next) {levels : Nat} (hlevels : g.leadsWithin known levels name = true) :
    ∃ fewer < levels, g.leadsWithin known fewer next = true := by
  obtain ⟨p, hfind, hasks⟩ := h
  obtain ⟨fewer, rfl, hfewer⟩ := exists_leadsWithin_next hlevels hfind
  have hnext := hasks.mem_leading hknown
  rw [← Sequence.leading_eq] at hnext
  exact ⟨fewer, Nat.lt_succ_self fewer, hfewer next hnext⟩

/-- Along a chain of productions that lead to one another the levels get fewer. So a
    production that leads to itself would have fewer levels than it has. -/
theorem exists_fewer_of_transGen (hknown : g.NullableWithin known) {name next : String}
    (h : Relation.TransGen g.LeadsTo name next) {levels : Nat}
    (hlevels : g.leadsWithin known levels name = true) :
    ∃ fewer < levels, g.leadsWithin known fewer next = true := by
  induction h with
  | single hleads => exact hleads.exists_fewer hknown hlevels
  | tail _ hleads ih =>
    obtain ⟨mid, hmid, hlevels'⟩ := ih
    obtain ⟨fewer, hfewer, hnext⟩ := hleads.exists_fewer hknown hlevels'
    exact ⟨fewer, Nat.lt_trans hfewer hmid, hnext⟩

/-- A table with bounded chains is not left-recursive, since the levels would get
    fewer for ever. -/
theorem LeadsWithin.not_transGen (hknown : g.NullableWithin known) {levels : Nat}
    (h : g.LeadsWithin known levels) (name : String) : ¬Relation.TransGen g.LeadsTo name name := by
  intro hcycle
  have hlevels := h.leadsWithin name
  clear h
  induction levels using Nat.strongRecOn with
  | _ levels ih =>
    obtain ⟨fewer, hlt, hfewer⟩ := exists_fewer_of_transGen hknown hcycle hlevels
    exact ih fewer hlt hfewer

end SqlStatement.Grammar

import SqlStatement.Proofs.Grammar.Nullable

namespace SqlStatement.Grammar

section Test

variable (rejects : Leaf → Bool) (names known : List String)

mutual

/-- Whether a term gets past no token that the leaves in question reject. This is a
    test on the table, given the names of productions that get past no such token
    and of those that may have the empty word. -/
def Term.idle : Term → Bool
  | .leaf l => rejects l
  | .production name => names.contains name
  | .optional body => body.idle
  | .alternation candidates => candidatesIdle candidates
  | .repetition item _ _ => item.idle
  | .breakpoint => true
  termination_by structural t => t

/-- Whether a sequence gets past no such token. -/
def Sequence.idle : Sequence → Bool
  | ⟨terms, _⟩ => termsIdle terms
  termination_by structural s => s

/-- Whether terms in order get past no such token. What stands behind a term that
    has no empty word does not matter. -/
def termsIdle : List Term → Bool
  | [] => true
  | t :: ts => t.idle && (!t.nullable known || termsIdle ts)
  termination_by structural ts => ts

/-- Whether no candidate gets past such a token. -/
def candidatesIdle : List Sequence → Bool
  | [] => true
  | c :: cs => c.idle && candidatesIdle cs
  termination_by structural cs => cs

end

/-- Whether a part gets past no such token. Later turns of a repetition are not
    asked for: there are none if the first one gets nowhere. -/
def Part.idle : Part → Bool
  | .term t => t.idle rejects names known
  | .terms ts => termsIdle rejects names known ts
  | .turn item none => item.idle rejects names known
  | .turn _ (some _) => false
  | .turns item _ first _ => first && item.idle rejects names known

end Test

variable {rejects : Leaf → Bool} {names known : List String}

theorem Sequence.idle_eq (s : Sequence) :
    s.idle rejects names known = termsIdle rejects names known s.terms := by
  cases s
  rfl

/-- What is said of all candidates holds of each. The induction is on the
    candidates, as the check goes over them. -/
theorem candidatesIdle_of_mem {cs : List Sequence} {c : Sequence} (hc : c ∈ cs)
    (h : candidatesIdle rejects names known cs = true) : c.idle rejects names known = true := by
  induction cs with
  | nil => cases hc
  | cons first rest ih =>
    rw [candidatesIdle, Bool.and_eq_true] at h
    rcases List.mem_cons.mp hc with rfl | hrest
    · exact h.1
    · exact ih hrest h.2

/-- The productions with the given names get past no token that the leaves in
    question reject. -/
def IdleWithin (g : Grammar) (rejects : Leaf → Bool) (names known : List String) : Prop :=
  ∀ p ∈ g.productions, p.name ∈ names → p.body.idle rejects names known = true

instance (g : Grammar) (rejects : Leaf → Bool) (names known : List String) :
    Decidable (g.IdleWithin rejects names known) :=
  inferInstanceAs
    (Decidable (∀ p ∈ g.productions, p.name ∈ names → p.body.idle rejects names known = true))

/-- A part that passes the test covers no token wherever it starts at one that the
    leaves in question reject. The induction is on the derivation, so the names that
    are given only need to agree with one another. -/
theorem Derives.eq_of_idle {g : Grammar} (hknown : g.NullableWithin known)
    (hidle : g.IdleWithin rejects names known) {tokens : Array Token} {part : Part} {i j : Nat}
    {trees : List Tree} (h : Derives g tokens part i j trees)
    (hpart : part.idle rejects names known = true)
    (hrejects : ∀ l, rejects l = true → ∀ t, tokens[i]? = some t → l.accepts t = false) :
    j = i := by
  induction h with
  | leaf htoken haccepts =>
    rw [hrejects _ hpart _ htoken] at haccepts
    cases haccepts
  | skip | breakpoint | nil | stop => rfl
  | @production name p _ _ _ hfind _ ih =>
    have hname : p.name ∈ names := by
      rw [name_of_find? hfind]
      exact List.contains_iff_mem.mp hpart
    have hbody := hidle p (List.mem_of_find?_eq_some hfind) hname
    exact ih ((Sequence.idle_eq _).symm.trans hbody) hrejects
  | optional _ ih => exact ih ((Sequence.idle_eq _).symm.trans hpart) hrejects
  | alternation hbranch _ ih =>
    have hcandidate := candidatesIdle_of_mem (List.mem_of_getElem? hbranch) hpart
    exact ih ((Sequence.idle_eq _).symm.trans hcandidate) hrejects
  | repetition _ _ ih => exact ih hpart hrejects
  | @cons t ts i j k _ _ hterm _ ih ih' =>
    obtain ⟨ht, hts⟩ := Bool.and_eq_true_iff.mp hpart
    have hji := ih ht hrejects
    subst hji
    rcases Bool.or_eq_true_iff.mp hts with hcovers | hrest
    · have hnot : t.nullable known = false := by simpa using hcovers
      exact absurd (hterm.lt_of_not_nullable hknown hnot) (Nat.lt_irrefl j)
    · exact ih' hrest hrejects
  | bare _ ih => exact ih ((Sequence.idle_eq _).symm.trans hpart) hrejects
  | separated => cases hpart
  | @next item separator first count i j k _ _ _ hprogress _ ih _ =>
    obtain ⟨rfl, hitem⟩ := Bool.and_eq_true_iff.mp hpart
    have hji := ih hitem hrejects
    omega

end SqlStatement.Grammar

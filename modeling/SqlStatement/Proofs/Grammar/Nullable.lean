import SqlStatement.Proofs.Grammar.Derivation
import SqlStatement.Proofs.Grammar.Parts

namespace SqlStatement.Grammar

mutual

/-- Whether a term may have the empty word, if no production but the `known` ones
    has it. This is a test on the table alone. -/
def Term.nullable (known : List String) : Term → Bool
  | .leaf _ => false
  | .production name => known.contains name
  | .optional _ => true
  | .alternation candidates => anyNullable known candidates
  | .repetition item _ least => least == 0 || item.nullable known
  | .breakpoint => true
  termination_by structural t => t

/-- Whether a sequence may have the empty word. -/
def Sequence.nullable (known : List String) : Sequence → Bool
  | ⟨terms, _⟩ => allNullable known terms
  termination_by structural s => s

/-- Whether terms in order may have the empty word. -/
def allNullable (known : List String) : List Term → Bool
  | [] => true
  | t :: ts => t.nullable known && allNullable known ts
  termination_by structural ts => ts

/-- Whether one of several candidates may have the empty word. -/
def anyNullable (known : List String) : List Sequence → Bool
  | [] => false
  | c :: cs => c.nullable known || anyNullable known cs
  termination_by structural cs => cs

end

theorem Sequence.nullable_eq (known : List String) (s : Sequence) :
    s.nullable known = allNullable known s.terms := by
  cases s
  rfl

/-- An alternation may have it if one candidate may. The others do not have to be
    looked at. -/
theorem anyNullable_of_mem {known : List String} {cs : List Sequence} {c : Sequence} (hc : c ∈ cs)
    (h : c.nullable known = true) : anyNullable known cs = true := by
  induction cs with
  | nil => cases hc
  | cons first rest ih =>
    rw [anyNullable, Bool.or_eq_true]
    rcases List.mem_cons.mp hc with rfl | hrest
    · exact .inl h
    · exact .inr (ih hrest)

/-- Whether a part may have the empty word. A repetition may without any turn. -/
def Part.nullable (known : List String) : Part → Bool
  | .term t => t.nullable known
  | .terms ts => allNullable known ts
  | .turn item _ => allNullable known item.terms
  | .turns item _ _ count => count == 0 || allNullable known item.terms

/-- No production but the `known` ones may have the empty word. -/
def NullableWithin (g : Grammar) (known : List String) : Prop :=
  ∀ p ∈ g.productions, p.body.nullable known = true → p.name ∈ known

instance (g : Grammar) (known : List String) : Decidable (g.NullableWithin known) :=
  inferInstanceAs (Decidable (∀ p ∈ g.productions, p.body.nullable known = true → p.name ∈ known))

/-- The test finds every part that has the empty word. It may find others, as it
    does not ask whether a leaf accepts any token at all. -/
theorem Produces.nullable {g : Grammar} {known : List String} (hknown : g.NullableWithin known)
    {part : Part} {w : List Token} (h : g.Produces part w) (hw : w = []) :
    part.nullable known = true := by
  induction h with
  | leaf => cases hw
  | production hfind _ ih =>
    have hbody := (Sequence.nullable_eq ..).trans (ih hw)
    have hmem := hknown _ (List.mem_of_find?_eq_some hfind) hbody
    rw [name_of_find? hfind] at hmem
    exact List.contains_iff_mem.mpr hmem
  | skip | optional | breakpoint | nil => rfl
  | alternation hs _ ih => exact anyNullable_of_mem hs ((Sequence.nullable_eq ..).trans (ih hw))
  | @repetition _ _ least count _ hleast _ ih =>
    have hturns := ih hw
    simp only [Part.nullable, Term.nullable, Sequence.nullable_eq, Bool.or_eq_true,
      beq_iff_eq] at hturns ⊢
    rcases hturns with hzero | hitem
    · left
      omega
    · exact .inr hitem
  | cons _ _ ih ih' =>
    obtain ⟨hterm, hrest⟩ := List.append_eq_nil_iff.mp hw
    exact Bool.and_eq_true_iff.mpr ⟨ih hterm, ih' hrest⟩
  | bare _ ih => exact ih hw
  | separated _ _ _ ih =>
    obtain ⟨-, hitem⟩ := List.append_eq_nil_iff.mp hw
    exact ih hitem
  | stop => rfl
  | @next item _ _ count _ _ _ _ ih _ =>
    obtain ⟨hturn, -⟩ := List.append_eq_nil_iff.mp hw
    have hitem : allNullable known item.terms = true := ih hturn
    simp [Part.nullable, hitem]

/-- A part that the test does not find covers a token wherever it is derived.
    Otherwise it would match nothing, and `known` holds all productions that may. -/
theorem Derives.ne_of_not_nullable {g : Grammar} {known : List String}
    (hknown : g.NullableWithin known) {tokens : Array Token} {part : Part}
    (hpart : part.nullable known = false) {i j : Nat} {trees : List Tree}
    (h : Derives g tokens part i j trees) : j ≠ i := by
  rintro rfl
  have hnullable := h.produces.nullable hknown (by simp)
  rw [hpart] at hnullable
  cases hnullable

/-- A term that the test does not find gets past a token wherever it is derived. A
    derivation never goes back, so it ends behind its start where it ends anywhere
    else. -/
theorem Derives.lt_of_not_nullable {g : Grammar} {known : List String}
    (hknown : g.NullableWithin known) {tokens : Array Token} {t : Term}
    (ht : t.nullable known = false) {i j : Nat} {trees : List Tree}
    (h : Derives g tokens (.term t) i j trees) : i < j := by
  have hpart : (Part.term t).nullable known = false := ht
  have hne := h.ne_of_not_nullable hknown hpart
  have hle := h.start_le_stop
  omega

/-- Whether a repetition that needs items has items that cover a token. -/
def Term.itemsCover (known : List String) : Term → Bool
  | .repetition item _ least => least == 0 || !item.nullable known
  | _ => true

end SqlStatement.Grammar

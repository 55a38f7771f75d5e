import SqlStatement.Proofs.Grammar.Derivation
import SqlStatement.Tree.Dump

namespace SqlStatement

/-- The compact view of a row of trees is the row of their views. -/
theorem Parsed.compactForest_append (p : Parsed) (palette : Palette) (front back : List Tree) :
    p.compactForest palette (front ++ back) =
      p.compactForest palette front ++ p.compactForest palette back := by
  induction front with
  | nil => rfl
  | cons t ts ih => rw [List.cons_append, compactForest, ih, compactForest, List.append_assoc]

/-- The parts that trees over some tokens have in the compact view without colours. -/
def Tree.Shows (tokens : Array Token) (trees : List Tree) (parts : List String) : Prop :=
  ∀ p : Parsed, p.tokens = tokens → p.compactForest .plain trees = parts

namespace Tree.Shows

variable {tokens : Array Token} {trees more : List Tree} {parts rest : List String} {i j : Nat}

theorem nil : Shows tokens [] [] := fun _ _ => rfl

theorem append (h : Shows tokens trees parts) (hmore : Shows tokens more rest) :
    Shows tokens (trees ++ more) (parts ++ rest) := by
  intro p hp
  rw [Parsed.compactForest_append, h p hp, hmore p hp]

/-- A leaf shows the text of its token. -/
theorem leaf {t : Token} (ht : tokens[i]? = some t) (role : Tree.Role) :
    Shows tokens [.leaf role i] [t.text] := by
  intro p hp
  subst hp
  simp [Parsed.compactForest, Parsed.compactParts, Parsed.textAt, ht]

/-- A node that is no production shows what its children show. The compact view
    leaves such nodes out. -/
theorem covering {label : Tree.Label} (hlabel : ∀ name, label ≠ .production name) (hlt : i < j)
    (h : Shows tokens trees parts) : Shows tokens (Tree.covering label i j trees) parts := by
  intro p hp
  rw [Tree.covering, if_pos hlt, Parsed.compactForest, Parsed.compactForest, List.append_nil,
    Parsed.compactParts, h p hp]
  exact hlabel

/-- A production encloses what its children show, unless that is a single part. A
    production around one part is left out as well. -/
theorem production (name : String) (span : Span) (h : Shows tokens trees parts) :
    Shows tokens [.node (.production name) span trees]
      (Parsed.enclose .plain name parts) := by
  intro p hp
  rw [Parsed.compactForest, Parsed.compactForest, List.append_nil, Parsed.compactParts, h p hp]

end Tree.Shows

end SqlStatement

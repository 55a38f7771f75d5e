import SqlStatement.Proofs.Tree.Tiling

namespace SqlStatement

namespace Tree

/-- The tree at a place, which is the way from a tree to one below it by the indices
    of the children that it goes through. Places are ordered as preorder visits
    them. -/
def at? : Tree → List Nat → Option Tree
  | t, [] => some t
  | t, i :: place => t.children[i]?.bind fun child => child.at? place

/-- The trees at the places where `P` holds: each of them once, and in preorder. -/
def Lists (t : Tree) (P : List Nat → Tree → Prop) (us : List Tree) : Prop :=
  ∃ entries : List (List Nat × Tree), us = entries.map (·.2) ∧
    entries.Pairwise (fun x y => List.Lex (· < ·) x.1 y.1) ∧
    ∀ place u, (place, u) ∈ entries ↔ t.at? place = some u ∧ P place u

mutual

/-- Induction over a tree from the children of each node. -/
theorem forall_of_children {P : Tree → Prop} (h : ∀ t : Tree, (∀ c ∈ t.children, P c) → P t) :
    ∀ t, P t
  | .leaf role index => h (.leaf role index) nofun
  | .node label span children => h (.node label span children) (forall_mem_of_children h children)

theorem forall_mem_of_children {P : Tree → Prop} (h : ∀ t : Tree, (∀ c ∈ t.children, P c) → P t) :
    ∀ ts : List Tree, ∀ t ∈ ts, P t
  | [] => List.forall_mem_nil _
  | t :: ts => List.forall_mem_cons.mpr ⟨forall_of_children h t, forall_mem_of_children h ts⟩

end

theorem forestSubtrees_eq_flatMap (ts : List Tree) : forestSubtrees ts = ts.flatMap subtrees := by
  induction ts with
  | nil => rfl
  | cons t ts ih => rw [forestSubtrees, ih, List.flatMap_cons]

/-- The same for the nearest productions. -/
theorem forestProductions_eq_flatMap (ts : List Tree) :
    forestProductions ts = ts.flatMap nearestProductions := by
  induction ts with
  | nil => rfl
  | cons t ts ih => rw [forestProductions, ih, List.flatMap_cons]

/-- What is at a place is a subtree. The induction is on the place, one child after
    the other. -/
theorem mem_subtrees_of_at? {t u : Tree} {place : List Nat} (h : t.at? place = some u) :
    u ∈ t.subtrees := by
  induction place generalizing t with
  | nil =>
    rw [subtrees_eq, ← Option.some.inj h]
    exact List.mem_cons_self
  | cons i place ih =>
    obtain ⟨child, hchild, hu⟩ := Option.bind_eq_some_iff.mp h
    rw [subtrees_eq]
    exact List.mem_cons_of_mem _
      (mem_forestSubtrees.mpr ⟨child, List.mem_of_getElem? hchild, ih hu⟩)

/-- A place goes on from where its front has led. So the places below a tree are
    those in it, behind its own place. -/
theorem at?_append (t : Tree) (front place : List Nat) :
    t.at? (front ++ place) = (t.at? front).bind (·.at? place) := by
  induction front generalizing t with
  | nil => rfl
  | cons i front ih =>
    simp only [List.cons_append, at?, Option.bind_assoc]
    exact congrArg _ (funext fun child => ih child)

namespace Lists

variable {t : Tree} {P Q : List Nat → Tree → Prop} {us : List Tree}

/-- What is listed depends only on where the property holds. Elsewhere there is no
    tree that it could hold of. -/
theorem congr (h : t.Lists P us)
    (hiff : ∀ place u, t.at? place = some u → (P place u ↔ Q place u)) : t.Lists Q us := by
  obtain ⟨entries, hus, hsorted, hmem⟩ := h
  refine ⟨entries, hus, hsorted, fun place u => (hmem place u).trans ?_⟩
  exact and_congr_right (hiff place u)

/-- The trees of a list that are as asked for. They stay in the order of the list. -/
theorem filter (h : t.Lists P us) (q : Tree → Bool) :
    t.Lists (fun place u => P place u ∧ q u = true) (us.filter q) := by
  obtain ⟨entries, rfl, hsorted, hmem⟩ := h
  refine ⟨entries.filter (q ·.2), List.filter_map, hsorted.filter _, fun place u => ?_⟩
  rw [List.mem_filter, hmem, and_assoc]

/-- A tree comes before what is below it. Its own place is the empty one, which is
    in front of every other place. -/
theorem cons (hroot : P [] t) (h : t.Lists (fun place u => place ≠ [] ∧ P place u) us) :
    t.Lists P (t :: us) := by
  obtain ⟨entries, rfl, hsorted, hmem⟩ := h
  refine ⟨([], t) :: entries, rfl, List.pairwise_cons.mpr ⟨?_, hsorted⟩, fun place u => ?_⟩
  · rintro ⟨place, u⟩ hentry
    cases place with
    | nil => exact absurd rfl ((hmem _ _).mp hentry).2.1
    | cons i place => exact .nil
  · rw [List.mem_cons, hmem]
    cases place with
    | nil =>
      simp only [at?, Prod.mk.injEq, true_and, ne_eq, not_true_eq_false, false_and, and_false,
        or_false, Option.some.injEq]
      constructor
      · rintro rfl
        exact ⟨rfl, hroot⟩
      · exact fun hu => hu.1.symm
    | cons i place => simp

/-- If the tree itself is not asked for, only what is below it is listed. -/
theorem of_below (hroot : ¬P [] t) (h : t.Lists (fun place u => place ≠ [] ∧ P place u) us) :
    t.Lists P us := by
  refine h.congr fun place u hu => and_iff_right_of_imp fun hP hnil => ?_
  subst hnil
  obtain rfl := Option.some.inj hu
  exact hroot hP

theorem nil (h : ∀ place u, t.at? place = some u → ¬P place u) : t.Lists P [] :=
  ⟨[], rfl, .nil, fun place u => ⟨nofun, fun hu => absurd hu.2 (h place u hu.1)⟩⟩

/-- The lists of some trees, one behind the other, with the index of each in front
    of its places. The induction is on the trees. -/
theorem exists_entries {f : Tree → List Tree} (cs : List Tree) (k : Nat)
    (h : ∀ (i : Nat) (c : Tree), cs[i]? = some c →
      c.Lists (fun place u => P ((k + i) :: place) u) (f c)) :
    ∃ entries : List (List Nat × Tree), cs.flatMap f = entries.map (·.2) ∧
      entries.Pairwise (fun x y => List.Lex (· < ·) x.1 y.1) ∧
      ∀ place u, (place, u) ∈ entries ↔ ∃ i rest c, place = (k + i) :: rest ∧
        cs[i]? = some c ∧ c.at? rest = some u ∧ P place u := by
  induction cs generalizing k with
  | nil => exact ⟨[], rfl, .nil, by simp⟩
  | cons c cs ih =>
    have hnext (i : Nat) : k + (i + 1) = k + 1 + i := by omega
    obtain ⟨front, hfront, hfrontSorted, hfrontMem⟩ := h 0 c rfl
    obtain ⟨back, hback, hbackSorted, hbackMem⟩ := ih (k + 1) fun i c' hc' => by
      rw [← hnext]
      exact h (i + 1) c' hc'
    refine ⟨front.map (fun x => (k :: x.1, x.2)) ++ back, ?_, ?_, fun place u => ?_⟩
    · rw [List.flatMap_cons, hfront, hback, List.map_append, List.map_map]
      rfl
    · refine List.pairwise_append.mpr ⟨?_, hbackSorted, ?_⟩
      · exact List.pairwise_map.mpr (hfrontSorted.imp .cons)
      · rintro _ hx ⟨place, u⟩ hy
        obtain ⟨x, -, rfl⟩ := List.mem_map.mp hx
        obtain ⟨i, rest, -, rfl, -⟩ := (hbackMem place u).mp hy
        exact .rel (by omega)
    · rw [List.mem_append, hbackMem]
      constructor
      · rintro (hx | ⟨i, rest, c', hplace, hc', hu⟩)
        · obtain ⟨⟨rest, _⟩, hentry, heq⟩ := List.mem_map.mp hx
          cases heq
          exact ⟨0, rest, c, rfl, rfl, (hfrontMem rest _).mp hentry⟩
        · exact ⟨i + 1, rest, c', by rw [hnext, hplace], hc', hu⟩
      · rintro ⟨i, rest, c', hplace, hc', hu⟩
        cases i with
        | zero =>
          subst hplace
          cases Option.some.inj hc'
          exact .inl (List.mem_map.mpr ⟨(rest, u), (hfrontMem rest u).mpr hu, rfl⟩)
        | succ i => exact .inr ⟨i, rest, c', by rw [← hnext, hplace], hc', hu⟩

/-- What is below a tree is what is in its children. The place of a tree there is
    the number of the child, with its place in the child behind it. -/
theorem below {f : Tree → List Tree} (h : ∀ (i : Nat) (c : Tree), t.children[i]? = some c →
      c.Lists (fun place u => P (i :: place) u) (f c)) :
    t.Lists (fun place u => place ≠ [] ∧ P place u) (t.children.flatMap f) := by
  obtain ⟨entries, hus, hsorted, hmem⟩ := exists_entries t.children 0 (by simpa using h)
  refine ⟨entries, hus, hsorted, fun place u => (hmem place u).trans ?_⟩
  constructor
  · rintro ⟨i, rest, c, rfl, hc, hu, hP⟩
    rw [Nat.zero_add] at hP ⊢
    exact ⟨Option.bind_eq_some_iff.mpr ⟨c, hc, hu⟩, List.cons_ne_nil _ _, hP⟩
  · rintro ⟨hu, hne, hP⟩
    cases place with
    | nil => exact absurd rfl hne
    | cons i rest =>
      obtain ⟨c, hc, hu⟩ := Option.bind_eq_some_iff.mp hu
      exact ⟨i, rest, c, by rw [Nat.zero_add], hc, hu, hP⟩

end Lists

/-- The subtrees of a tree are all trees below it and itself, each once and in
    preorder. -/
theorem lists_subtrees (t : Tree) : t.Lists (fun _ _ => True) t.subtrees := by
  induction t using forall_of_children with
  | h t ih =>
    rw [subtrees_eq, forestSubtrees_eq_flatMap]
    exact .cons trivial (.below fun _ c hc => ih c (List.mem_of_getElem? hc))

/-- Below a tree there is a production at the place, and none between it and the
    tree. -/
def HasChildAt (t : Tree) (place : List Nat) (u : Tree) : Prop :=
  place ≠ [] ∧ u.production? ≠ none ∧ ∀ front v, front <+: place → front ≠ [] → front ≠ place →
    t.at? front = some v → v.production? = none

/-- A production is the nearest one to itself. What is below it is not looked at. -/
theorem nearestProductions_of_ne_none {t : Tree} (h : t.production? ≠ none) :
    t.nearestProductions = [t] := by
  cases t with
  | leaf role index => exact absurd rfl h
  | node label span children =>
    cases label with
    | production name => rfl
    | alternation | optional | repetition | item | separator => exact absurd rfl h

/-- Anything else leads to those of its children. They are found in the children one
    after the other. -/
theorem nearestProductions_of_eq_none {t : Tree} (h : t.production? = none) :
    t.nearestProductions = t.childProductions := by
  cases t with
  | leaf role index => rfl
  | node label span children =>
    cases label with
    | production name => cases h
    | alternation | optional | repetition | item | separator => rfl

/-- The child productions of a tree are those that have no other production above
    them. -/
theorem lists_childProductions (t : Tree) : t.Lists t.HasChildAt t.childProductions := by
  induction t using forall_of_children with
  | h t ih =>
    rw [childProductions, forestProductions_eq_flatMap]
    refine (Lists.below (P := t.HasChildAt) fun i c hc => ?_).congr fun place u _ => ?_
    · have hat (front : List Nat) : t.at? (i :: front) = c.at? front := by
        rw [at?, hc, Option.bind_some]
      by_cases hproduction : c.production? = none
      · rw [nearestProductions_of_eq_none hproduction]
        refine .of_below (fun h => h.2.1 hproduction) ?_
        refine (ih c (List.mem_of_getElem? hc)).congr fun place u _ => ?_
        constructor
        · rintro ⟨hne, hu, hnone⟩
          refine ⟨hne, List.cons_ne_nil _ _, hu, fun front v hfront hsome hshort hv => ?_⟩
          obtain ⟨rest, rfl, hrest⟩ := (List.prefix_cons_iff.mp hfront).resolve_left hsome
          rw [hat] at hv
          by_cases hnil : rest = []
          · subst hnil
            cases Option.some.inj hv
            exact hproduction
          · exact hnone rest v hrest hnil (fun h => hshort (h ▸ rfl)) hv
        · rintro ⟨hne, -, hu, hnone⟩
          refine ⟨hne, hu, fun front v hfront _ hshort hv => ?_⟩
          exact hnone (i :: front) v ((List.prefix_cons_inj i).mpr hfront) (List.cons_ne_nil _ _)
            (fun h => hshort (List.cons.inj h).2) ((hat front).trans hv)
      · rw [nearestProductions_of_ne_none hproduction]
        refine .cons ⟨List.cons_ne_nil _ _, hproduction, fun front v hfront hne hshort _ => ?_⟩
          (.nil fun place u _ h => ?_)
        · obtain ⟨front, rfl, hnil⟩ := (List.prefix_cons_iff.mp hfront).resolve_left hne
          exact absurd (congrArg _ (List.prefix_nil.mp hnil)) hshort
        · obtain ⟨hne, -, -, hnone⟩ := h
          refine hproduction (hnone [i] c ?_ (List.cons_ne_nil _ _) ?_ (hat []))
          · exact (List.prefix_cons_inj i).mpr List.nil_prefix
          · exact fun h => hne (List.cons.inj h).2.symm
    · exact and_iff_right_of_imp (·.1)

/-- Trees in a row start behind the start of the row. Each starts where the one in
    front of it ends. -/
theorem Tiles.le_start {ts : List Tree} {i j : Nat} (h : Tiles ts i j) :
    ∀ t ∈ ts, i ≤ t.span.start := by
  induction ts generalizing i with
  | nil => nofun
  | cons t ts ih =>
    obtain ⟨hstart, hlt, hrest⟩ := h
    refine List.forall_mem_cons.mpr ⟨Nat.le_of_eq hstart.symm, fun u hu => ?_⟩
    have hle := ih hrest u hu
    omega

/-- Of the trees in a row, the first one ends before the others start. Those between
    them cover what is between them. -/
theorem Tiles.stop_le_start {ts : List Tree} {i j m n : Nat} {t u : Tree} (h : Tiles ts i j)
    (ht : ts[m]? = some t) (hu : ts[n]? = some u) (hlt : m < n) :
    t.span.stop ≤ u.span.start := by
  induction ts generalizing i m n with
  | nil => cases ht
  | cons first rest ih =>
    obtain ⟨-, -, hrest⟩ := h
    cases n with
    | zero => cases hlt
    | succ n =>
      cases m with
      | zero =>
        cases Option.some.inj ht
        exact hrest.le_start u (List.mem_of_getElem? hu)
      | succ m => exact ih hrest ht hu (Nat.lt_of_succ_lt_succ hlt)

namespace Tiled

variable {t u v : Tree}

/-- What is below a tree starts no sooner than the tree. The induction is on how the
    tree is tiled. -/
theorem start_le (h : t.Tiled) (hu : u ∈ t.subtrees) : t.span.start ≤ u.span.start := by
  induction h with
  | leaf role index =>
    cases List.mem_singleton.mp hu
    exact Nat.le_refl _
  | node label span children hcover _ ih =>
    rcases List.mem_cons.mp hu with rfl | hbelow
    · exact Nat.le_refl _
    · obtain ⟨child, hchild, hmem⟩ := mem_forestSubtrees.mp hbelow
      exact Nat.le_trans (hcover.le_start child hchild) (ih child hchild hmem)

/-- What comes first in preorder leads to the other or ends before it starts. Where
    their places part, they are in two children of one tree, of which the first one
    ends before the other starts. -/
theorem stop_le_start (h : t.Tiled) {m n : List Nat} (hlex : List.Lex (· < ·) m n)
    (hu : t.at? m = some u) (hv : t.at? n = some v) : m <+: n ∨ u.span.stop ≤ v.span.start := by
  induction hlex generalizing t with
  | nil => exact .inl List.nil_prefix
  | rel hlt =>
    obtain ⟨c, hc, hcu⟩ := Option.bind_eq_some_iff.mp hu
    obtain ⟨d, hd, hdv⟩ := Option.bind_eq_some_iff.mp hv
    cases h with
    | leaf role index => cases hc
    | node label span children hcover hchildren =>
      have hfirst := (hchildren c (List.mem_of_getElem? hc)).stop_le (mem_subtrees_of_at? hcu)
      have hmiddle := hcover.stop_le_start hc hd hlt
      have hlast := (hchildren d (List.mem_of_getElem? hd)).start_le (mem_subtrees_of_at? hdv)
      exact .inr (by omega)
  | @cons i m n _ ih =>
    obtain ⟨c, hc, hcu⟩ := Option.bind_eq_some_iff.mp hu
    obtain ⟨d, hd, hdv⟩ := Option.bind_eq_some_iff.mp hv
    obtain rfl : c = d := Option.some.inj (hc.symm.trans hd)
    cases h with
    | leaf role index => cases hc
    | node label span children hcover hchildren =>
      have hchild := hchildren c (List.mem_of_getElem? hc)
      exact (ih hchild hcu hdv).imp_left (List.prefix_cons_inj i).mpr

/-- Behind a tree with nothing below it comes what starts where it ends, or further
    on. -/
theorem stop_le_start_of_children_eq_nil (h : t.Tiled) {m n : List Nat}
    (hlex : List.Lex (· < ·) m n) (hu : t.at? m = some u) (hv : t.at? n = some v)
    (hnil : u.children = []) : u.span.stop ≤ v.span.start := by
  refine (h.stop_le_start hlex hu hv).resolve_left ?_
  rintro ⟨rest, rfl⟩
  rw [at?_append, hu, Option.bind_some] at hv
  cases rest with
  | nil =>
    rw [List.append_nil] at hlex
    exact List.lt_irrefl m hlex
  | cons i rest => simp [at?, hnil] at hv

end Tiled

end Tree

end SqlStatement

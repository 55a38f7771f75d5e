import SqlStatement.Proofs.Tree.Places
import SqlStatement.Tree.Parsed

namespace SqlStatement

namespace Tree

/-- A step of the traversal on a stack that is changed in place: the tree at its end
    is taken, and the children of it are pushed, the last one first. -/
def pop? (stack : Array Tree) : Option (Tree × Array Tree) :=
  stack.back?.map fun t => (t, stack.pop ++ t.children.reverse)

/-- The trees that are popped from a stack until it is empty. -/
inductive Pops : Array Tree → List Tree → Prop
  | done {stack : Array Tree} (hempty : pop? stack = none) : Pops stack []
  | next {stack rest : Array Tree} {t : Tree} {ts : List Tree} (hpop : pop? stack = some (t, rest))
      (hrest : Pops rest ts) : Pops stack (t :: ts)

/-- The stack of a traversal has its end in front. The array has it at its end,
    where it is popped from. -/
theorem next?_reverse (stack : Array Tree) :
    (Traversal.mk stack.toList.reverse).next? =
      (pop? stack).map fun x => (x.1, ⟨x.2.toList.reverse⟩) := by
  obtain ⟨stack⟩ := stack
  rcases stack.eq_nil_or_concat with rfl | ⟨rest, t, rfl⟩
  · rfl
  · simp [Traversal.next?, pop?]

/-- The stack yields the same trees as the traversal, by induction on what is left
    to visit. -/
theorem pops_toList (s : Traversal) (stack : Array Tree) (hstack : s.stack = stack.toList.reverse) :
    Pops stack s.toList := by
  have hnext : s.next? = (pop? stack).map fun x => (x.1, ⟨x.2.toList.reverse⟩) := by
    rw [← next?_reverse, ← hstack]
  fun_induction Traversal.toList s generalizing stack with
  | case1 => exact .done (Option.map_eq_none_iff.mp hnext.symm)
  | case2 t rest ih =>
    obtain ⟨⟨t', stack'⟩, hpop, heq⟩ := Option.map_eq_some_iff.mp hnext.symm
    obtain ⟨rfl, hrest⟩ := Prod.mk.inj heq
    have hrest := (Traversal.mk.inj hrest).symm
    exact .next hpop (ih stack' hrest (by rw [← next?_reverse, ← hrest]))

/-- The identifier that a leaf stands for, with its token. -/
def identifierLeaf? : Tree → Option (String × Nat)
  | .leaf (.identifier description) index => some (description, index)
  | _ => none

/-- Only identifier leaves stand for identifiers. -/
theorem identifierLeaf?_eq_some_iff {t : Tree} {description : String} {index : Nat} :
    t.identifierLeaf? = some (description, index) ↔
      t = .leaf (.identifier description) index := by
  cases t with
  | leaf role i => cases role <;> simp [identifierLeaf?]
  | node label span children => simp [identifierLeaf?]

end Tree

/-- The queries on a parsed tree answer what the places of the tree and its tokens
    say. -/
structure Parsed.Answers (parsed : Parsed) : Prop where
  /-- The identifiers are the texts of the identifier leaves, in the order of the tokens. -/
  identifiers : ∃ leaves : List (String × Nat), leaves.Pairwise (·.2 < ·.2) ∧
    (∀ description index, (description, index) ∈ leaves ↔
      .leaf (.identifier description) index ∈ parsed.root.subtrees) ∧
    parsed.identifiers.map some = leaves.map fun (description, index) =>
      parsed.tokens[index]?.map fun token => (description, token.text)
  /-- The text in a role is that of the first identifier in it. -/
  identifier : ∀ description text, parsed.identifier? description = some text ↔
    ∃ front back, parsed.identifiers = front ++ (description, text) :: back ∧
      ∀ x ∈ front, x.1 ≠ description
  findAll : ∀ name, parsed.root.Lists (fun _ u => u.production? = some name) (parsed.findAll name)
  find : ∀ name, parsed.find? name = (parsed.findAll name).head?
  childProductions : ∀ t ∈ parsed.root.subtrees, t.Lists t.HasChildAt t.childProductions
  /-- Child productions cover tokens, one behind the other. -/
  disjoint : ∀ t ∈ parsed.root.subtrees,
    (∀ u ∈ t.childProductions, u.span.start < u.span.stop) ∧
      t.childProductions.Pairwise fun u v => u.span.stop ≤ v.span.start

/-- The identifiers of a tree are read off its subtrees in preorder. The texts are
    looked up among the tokens. -/
theorem Parsed.identifiers_eq_map (parsed : Parsed) :
    parsed.identifiers = (parsed.root.subtrees.filterMap Tree.identifierLeaf?).map
      fun (description, index) => (description, parsed.textAt index) := by
  rw [identifiers, Tree.descendants_eq_subtrees, List.map_filterMap]
  congr 1
  funext t
  cases t with
  | leaf role index => cases role <;> rfl
  | node label span children => rfl

namespace Tree.Tiled

variable {parsed : Parsed}

/-- The identifiers of a tree stand at tokens that get further and further on. Of
    two leaves the one that comes first in preorder ends before the other starts. -/
theorem pairwise_identifierLeaves {t : Tree} (h : t.Tiled) :
    (t.subtrees.filterMap identifierLeaf?).Pairwise (·.2 < ·.2) := by
  obtain ⟨entries, hsubtrees, hsorted, hmem⟩ := t.lists_subtrees
  rw [hsubtrees, List.filterMap_map, List.pairwise_filterMap]
  refine hsorted.imp_of_mem fun {x y} hx hy hlex => ?_
  rintro ⟨_, i⟩ hi ⟨_, j⟩ hj
  have hxleaf : x.2 = .leaf _ i := identifierLeaf?_eq_some_iff.mp hi
  have hyleaf : y.2 = .leaf _ j := identifierLeaf?_eq_some_iff.mp hj
  have hle := h.stop_le_start_of_children_eq_nil hlex ((hmem _ _).mp hx).1 ((hmem _ _).mp hy).1
    (by rw [hxleaf]; rfl)
  rw [hxleaf, hyleaf] at hle
  exact hle

/-- The child productions of a tree stand side by side. None of them is below
    another one, so the first ends before the other starts. -/
theorem pairwise_childProductions {t : Tree} (h : t.Tiled) :
    t.childProductions.Pairwise fun u v => u.span.stop ≤ v.span.start := by
  obtain ⟨entries, hproductions, hsorted, hmem⟩ := t.lists_childProductions
  rw [hproductions, List.pairwise_map]
  refine hsorted.imp_of_mem fun {x y} hx hy hlex => ?_
  obtain ⟨hxat, hxne, hxproduction, -⟩ := (hmem _ _).mp hx
  obtain ⟨hyat, -, -, hynone⟩ := (hmem _ _).mp hy
  refine (h.stop_le_start hlex hxat hyat).resolve_left fun hprefix => ?_
  refine hxproduction (hynone x.1 x.2 hprefix hxne (fun heq => ?_) hxat)
  rw [heq] at hlex
  exact List.lt_irrefl _ hlex

/-- Each of them covers a token. They are below the tree, where nothing covers no
    token. -/
theorem nonempty_childProductions {t : Tree} (h : t.Tiled) :
    ∀ u ∈ t.childProductions, u.span.start < u.span.stop := by
  obtain ⟨entries, hproductions, hsorted, hmem⟩ := t.lists_childProductions
  rw [hproductions, List.forall_mem_map]
  rintro ⟨place, u⟩ hentry
  obtain ⟨hat, hne, -⟩ := (hmem place u).mp hentry
  cases place with
  | nil => exact absurd rfl hne
  | cons i place =>
    obtain ⟨child, hchild, hu⟩ := Option.bind_eq_some_iff.mp hat
    exact h.nonempty_below (mem_forestSubtrees.mpr
      ⟨child, List.mem_of_getElem? hchild, mem_subtrees_of_at? hu⟩)

/-- A tree that leaves no token out answers queries as its places say. Each query
    lists the subtrees of its kind, in preorder, so the first one that is found is
    the first in preorder. -/
theorem answers (h : parsed.root.Tiled) (hstop : parsed.root.span.stop ≤ parsed.tokens.size) :
    parsed.Answers where
  identifiers := by
    refine ⟨_, h.pairwise_identifierLeaves, fun description index => ?_, ?_⟩
    · simp [List.mem_filterMap, identifierLeaf?_eq_some_iff]
    · rw [parsed.identifiers_eq_map, List.map_map]
      refine List.map_congr_left ?_
      rintro ⟨description, index⟩ hmem
      obtain ⟨t, ht, hleaf⟩ := List.mem_filterMap.mp hmem
      obtain rfl := identifierLeaf?_eq_some_iff.mp hleaf
      have hlt : index < parsed.tokens.size := Nat.lt_of_lt_of_le (h.stop_le ht) hstop
      simp [Parsed.textAt, hlt]
  identifier description text := by
    simp only [Parsed.identifier?, List.lookup_eq_some_iff, bne_iff_ne]
    grind
  findAll name := by
    have hfilter := parsed.root.lists_subtrees.filter (·.production? == some name)
    rw [Parsed.findAll, descendants_eq_subtrees]
    exact hfilter.congr fun _ u _ => by simp
  find name := by rw [Parsed.find?, Parsed.findAll, List.head?_filter]
  childProductions t _ := t.lists_childProductions
  disjoint t ht :=
    have htiled := h.of_mem_subtrees ht
    ⟨htiled.nonempty_childProductions, htiled.pairwise_childProductions⟩

end Tree.Tiled

namespace Parser

/-- A traversal by a stack visits what a tree is made of, each tree once and in
    preorder. Every tree that `parse` or `parsePrefix` returns answers its queries
    as its places say. -/
theorem returns_answers (p : Parser) (source : List Token) :
    (∀ t : Tree, Tree.Pops #[t] t.subtrees ∧ t.descendants = t.subtrees ∧
      t.Lists (fun _ _ => True) t.descendants) ∧
    ∀ parsed, p.Returns source parsed → parsed.Answers := by
  refine ⟨fun t => ⟨?_, Tree.descendants_eq_subtrees t, ?_⟩, fun parsed h => ?_⟩
  · rw [← Tree.descendants_eq_subtrees]
    exact Tree.pops_toList _ _ rfl
  · rw [Tree.descendants_eq_subtrees]
    exact t.lists_subtrees
  · exact h.tiled.answers h.stop_le

/-- The identifiers of `SELECT t.a FROM main.t`. The qualified names come apart into
    their roles, in the order of the text. -/
theorem returns_answers_qualified : ∃ parsed : Parsed,
    (ofGrammar Sqlite.grammar).parse [⟨.keyword .SELECT, "SELECT", ⟨0, 6⟩⟩,
      ⟨.identifier, "t", ⟨7, 8⟩⟩, ⟨.symbol .dot, ".", ⟨8, 9⟩⟩, ⟨.identifier, "a", ⟨9, 10⟩⟩,
      ⟨.keyword .FROM, "FROM", ⟨11, 15⟩⟩, ⟨.identifier, "main", ⟨16, 20⟩⟩,
      ⟨.symbol .dot, ".", ⟨20, 21⟩⟩, ⟨.identifier, "t", ⟨21, 22⟩⟩] = .ok parsed ∧
    parsed.identifiers = [("table name", "t"), ("column name", "a"), ("database name", "main"),
      ("table name", "t")] ∧ parsed.Answers := by
  generalize hsource : ([⟨.keyword .SELECT, "SELECT", ⟨0, 6⟩⟩,
      ⟨.identifier, "t", ⟨7, 8⟩⟩, ⟨.symbol .dot, ".", ⟨8, 9⟩⟩, ⟨.identifier, "a", ⟨9, 10⟩⟩,
      ⟨.keyword .FROM, "FROM", ⟨11, 15⟩⟩, ⟨.identifier, "main", ⟨16, 20⟩⟩,
      ⟨.symbol .dot, ".", ⟨20, 21⟩⟩, ⟨.identifier, "t", ⟨21, 22⟩⟩] : List Token) = source
  have hidentifiers : ((ofGrammar Sqlite.grammar).parse source).toOption.map (·.identifiers) =
      some [("table name", "t"), ("column name", "a"), ("database name", "main"),
        ("table name", "t")] := by
    subst hsource
    decide +kernel
  cases hparse : (ofGrammar Sqlite.grammar).parse source with
  | ok parsed =>
    rw [hparse] at hidentifiers
    exact ⟨parsed, rfl, Option.some.inj hidentifiers,
      (returns_answers _ source).2 parsed (.inl hparse)⟩
  | error e =>
    rw [hparse] at hidentifiers
    cases hidentifiers

end Parser

end SqlStatement

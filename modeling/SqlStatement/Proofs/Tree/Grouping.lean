import SqlStatement.Proofs.Tree.Exported
import SqlStatement.Tree.Dump

namespace SqlStatement

namespace Tree

/-- A part of the compact view: a token, or a production around the several parts
    that its children leave. -/
inductive Grouping where
  | token (index : Nat)
  /-- A production around what its children leave, if that is more than one part.
      The name does not say which production it is: there may be one of the same
      name right below. -/
  | production (name : String) (span : Span) (children : List Tree) (parts : List Grouping)

namespace Grouping

/-- The production that a part was enclosed by. -/
def owner? : Grouping → Option Tree
  | .token _ => none
  | .production name span children _ => some (.node (.production name) span children)

/-- The tokens in a part, without the marks of productions. -/
def tokens : Grouping → List Nat
  | .token index => [index]
  | .production _ _ _ parts => parts.flatMap tokens

/-- The productions that enclose something in a part, in preorder. -/
def owners : Grouping → List Tree
  | .token _ => []
  | .production name span children parts =>
    .node (.production name) span children :: parts.flatMap owners

/-- A part as text, with the given codes around the names of productions. -/
def write (p : Parsed) (before after : String) : Grouping → String
  | .token index => p.textAt index
  | .production name _ _ parts =>
    "(" ++ before ++ name ++ after ++ " " ++ " ".intercalate (parts.map (write p before after)) ++
      ")"

/-- What a production leaves of the parts that its children leave. -/
def enclose (name : String) (span : Span) (children : List Tree) : List Grouping → List Grouping
  | first :: second :: rest => [.production name span children (first :: second :: rest)]
  | parts => parts

end Grouping

mutual

/-- The parts of a tree in the compact view. A production with one part below it
    leaves that part, and one without any leaves none. -/
def groupings : Tree → List Grouping
  | .leaf _ index => [.token index]
  | .node (.production name) span children =>
    Grouping.enclose name span children (forestGroupings children)
  | .node _ _ children => forestGroupings children
  termination_by structural t => t

def forestGroupings : List Tree → List Grouping
  | [] => []
  | t :: ts => t.groupings ++ forestGroupings ts
  termination_by structural ts => ts

end

/-- A production whose children leave more than one part. -/
def isGroup (t : Tree) : Bool :=
  t.production?.isSome && decide (1 < (forestGroupings t.children).length)

namespace Grouping

variable {name : String} {span : Span} {children : List Tree}

/-- Enclosing parts leaves their tokens as they are. -/
theorem flatMap_tokens_enclose (gs : List Grouping) :
    (enclose name span children gs).flatMap tokens = gs.flatMap tokens := by
  match gs with
  | [] | [_] => rfl
  | first :: second :: rest =>
    rw [enclose, List.flatMap_singleton, tokens]

/-- Enclosing parts marks the production if there are several parts. A single part
    is handed on without the production. -/
theorem flatMap_owners_enclose (gs : List Grouping) :
    (enclose name span children gs).flatMap owners =
      (if 1 < gs.length then [.node (.production name) span children] else []) ++
        gs.flatMap owners := by
  match gs with
  | [] | [_] => rfl
  | first :: second :: rest =>
    have hlong : 1 < (first :: second :: rest).length := by simp
    rw [enclose, List.flatMap_singleton, owners, if_pos hlong,
      List.singleton_append]

/-- Parts are enclosed in the text as they are in the tree. Both leave out the
    production around a single part. -/
theorem map_write_enclose (p : Parsed) (palette : Palette) (gs : List Grouping) :
    (enclose name span children gs).map (write p palette.production palette.reset) =
      Parsed.enclose palette name (gs.map (write p palette.production palette.reset)) := by
  match gs with
  | [] | [_] => rfl
  | first :: second :: rest =>
    simp [enclose, write, Parsed.enclose, Palette.paintProduction,
      String.append_assoc]

/-- The production that a part was enclosed by is one of those in the part. It is
    the outermost of them. -/
theorem mem_owners_of_owner? {g : Grouping} {t : Tree} (h : g.owner? = some t) : t ∈ g.owners := by
  cases g with
  | token index => cases h
  | production name span children parts =>
    rw [owners, ← Option.some.inj h]
    exact List.mem_cons_self

/-- A production is one part if its children leave any, and it is enclosed by itself
    if and only if they leave more than one. -/
theorem enclose_eq_singleton {gs : List Grouping} (hne : gs ≠ [])
    (hfree : ∀ g ∈ gs, g.owner? ≠ some (.node (.production name) span children)) :
    ∃ g, enclose name span children gs = [g] ∧
      (g.owner? = some (.node (.production name) span children) ↔ 1 < gs.length) := by
  match gs with
  | [] => exact absurd rfl hne
  | [g] => exact ⟨g, rfl, by simpa using hfree g (List.mem_singleton_self g)⟩
  | first :: second :: rest => exact ⟨_, rfl, by simp [owner?]⟩

end Grouping

mutual

/-- The tokens in the parts of a tree are its leaves. Enclosing parts neither drops
    nor adds a leaf. -/
theorem flatMap_tokens_groupings :
    ∀ t : Tree, t.groupings.flatMap Grouping.tokens = leafIndices [t]
  | .leaf _ _ => by
    rw [groupings, List.flatMap_singleton, Grouping.tokens]
    rfl
  | .node label span children => by
    rw [leafIndices_node, ← flatMap_tokens_forestGroupings children]
    cases label with
    | production name => rw [groupings, Grouping.flatMap_tokens_enclose]
    | _ => rfl

theorem flatMap_tokens_forestGroupings :
    ∀ ts : List Tree, (forestGroupings ts).flatMap Grouping.tokens = leafIndices ts
  | [] => rfl
  | t :: ts => by
    rw [forestGroupings, List.flatMap_append, flatMap_tokens_groupings t,
      flatMap_tokens_forestGroupings ts, leafIndices_cons t ts]

end

mutual

/-- The productions that enclose parts of a tree are the groups in it. The recursion
    is that of the tree. A production over one part marks nothing, in the tree as in
    the parts. -/
theorem flatMap_owners_groupings :
    ∀ t : Tree, t.groupings.flatMap Grouping.owners = t.subtrees.filter isGroup
  | .leaf _ _ => by
    rw [groupings, List.flatMap_singleton, Grouping.owners]
    rfl
  | .node label span children => by
    have hchildren := flatMap_owners_forestGroupings children
    rw [subtrees, List.filter_cons, ← hchildren]
    cases label with
    | production name =>
      rw [groupings, Grouping.flatMap_owners_enclose]
      by_cases hlong : 1 < (forestGroupings children).length
      · simp [isGroup, production?, Tree.children, hlong]
      · simp [isGroup, production?, Tree.children, hlong]
    | _ => rfl

theorem flatMap_owners_forestGroupings :
    ∀ ts : List Tree, (forestGroupings ts).flatMap Grouping.owners =
      (forestSubtrees ts).filter isGroup
  | [] => rfl
  | t :: ts => by
    rw [forestGroupings, forestSubtrees, List.flatMap_append, List.filter_append,
      flatMap_owners_groupings t, flatMap_owners_forestGroupings ts]

end

mutual

/-- What is below a tree is no larger. The recursion is mutual with the one for
    trees in a row. -/
theorem size_le_of_mem_subtrees : ∀ t : Tree, ∀ u ∈ t.subtrees, u.size ≤ t.size
  | .leaf role index => fun u hu => by
    cases List.mem_singleton.mp hu
    exact Nat.le_refl _
  | .node label span children => fun u hu => by
    rcases List.mem_cons.mp hu with rfl | hbelow
    · exact Nat.le_refl _
    · exact Nat.le_succ_of_le (size_le_of_mem_forestSubtrees children u hbelow)

theorem size_le_of_mem_forestSubtrees :
    ∀ ts : List Tree, ∀ u ∈ forestSubtrees ts, u.size ≤ forestSize ts
  | [] => nofun
  | t :: ts => fun u hu => by
    rw [forestSize]
    rcases List.mem_append.mp hu with hhead | hrest
    · exact Nat.le_add_right_of_le (size_le_of_mem_subtrees t u hhead)
    · exact Nat.le_add_left_of_le (size_le_of_mem_forestSubtrees ts u hrest)

end

/-- No tree is below itself, since it would be smaller than itself. -/
theorem notMem_forestSubtrees_children (t : Tree) : t ∉ forestSubtrees t.children := fun hmem => by
  have hle := size_le_of_mem_forestSubtrees t.children t hmem
  rw [size_eq] at hle
  omega

/-- What a child leaves is not enclosed by the production above it. -/
theorem owner?_ne_of_mem_forestGroupings {t : Tree} {g : Grouping}
    (hg : g ∈ forestGroupings t.children) : g.owner? ≠ some t := fun howner => by
  have hmem : t ∈ (forestGroupings t.children).flatMap Grouping.owners :=
    List.mem_flatMap.mpr ⟨g, hg, Grouping.mem_owners_of_owner? howner⟩
  rw [flatMap_owners_forestGroupings] at hmem
  exact t.notMem_forestSubtrees_children (List.mem_filter.mp hmem).1

end Tree

namespace Parsed

variable (p : Parsed) (palette : Palette)

mutual

/-- The compact view is written from the parts of the tree. So what is shown can be
    said of the parts, whatever they are written with. -/
theorem compactParts_eq_map : ∀ t : Tree, p.compactParts palette t =
    t.groupings.map (Tree.Grouping.write p palette.production palette.reset)
  | .leaf _ _ => by
    rw [compactParts, Tree.groupings, List.map_singleton, Tree.Grouping.write]
  | .node label span children => by
    have hchildren := compactForest_eq_map children
    cases label with
    | production name =>
      rw [compactParts, hchildren, Tree.groupings, Tree.Grouping.map_write_enclose]
    | _ => exact hchildren

/-- And so it is for a row of trees. -/
theorem compactForest_eq_map : ∀ ts : List Tree, p.compactForest palette ts =
    (Tree.forestGroupings ts).map (Tree.Grouping.write p palette.production palette.reset)
  | [] => rfl
  | t :: ts => by
    rw [compactForest, Tree.forestGroupings, List.map_append, compactParts_eq_map t,
      compactForest_eq_map ts]

end

/-- A row of trees has as many texts as parts, in whatever colours. -/
theorem length_compactForest (ts : List Tree) :
    (p.compactForest palette ts).length = (Tree.forestGroupings ts).length := by
  rw [compactForest_eq_map, List.length_map]

/-- What the compact view keeps of a tree. -/
structure Keeps (t : Tree) : Prop where
  /-- The colours of a palette change nothing but the codes around names. -/
  written : ∀ palette : Palette, p.compactParts palette t =
    t.groupings.map (Tree.Grouping.write p palette.production palette.reset)
  nonempty : p.compactParts .plain t ≠ []
  /-- Without the marks of productions, the parts are the texts of the tokens. -/
  texts : (t.groupings.flatMap Tree.Grouping.tokens).map p.textAt =
    (p.tokens.extract t.span.start t.span.stop).toList.map (·.text)
  /-- The marks are those of the productions whose children leave more than one part. -/
  marks : t.groupings.flatMap Tree.Grouping.owners = t.subtrees.filter fun u =>
    u.production?.isSome && decide (1 < (p.compactForest .plain u.children).length)
  /-- A production is one part, and encloses it itself if its children leave more than one. -/
  single : ∀ name, t.production? = some name → ∃ g, t.groupings = [g] ∧
    (g.owner? = some t ↔ 1 < (p.compactForest .plain t.children).length)

end Parsed

namespace Tree.Tiled

variable {p : Parsed} {t : Tree}

/-- A tree that covers a token leaves a part. It has a leaf below it, and enclosing
    parts never drops one. -/
theorem groupings_ne_nil (h : t.Tiled) (hlt : t.span.start < t.span.stop) :
    t.groupings ≠ [] := by
  intro hnil
  have hlength := congrArg List.length h.leafIndices_eq
  rw [← flatMap_tokens_groupings, hnil, List.flatMap_nil, List.length_nil,
    List.length_range'] at hlength
  omega

/-- A tree that leaves no token out keeps its tokens and its productions in the
    compact view. -/
theorem keeps (h : t.Tiled) (hlt : t.span.start < t.span.stop)
    (hstop : t.span.stop ≤ p.tokens.size) : p.Keeps t where
  written palette := p.compactParts_eq_map palette t
  nonempty := by
    rw [p.compactParts_eq_map, ne_eq, List.map_eq_nil_iff]
    exact h.groupings_ne_nil hlt
  texts := by rw [flatMap_tokens_groupings, h.leafIndices_eq, p.map_textAt_range' hstop]
  marks := by
    simp only [flatMap_owners_groupings, p.length_compactForest]
    rfl
  single name hname := by
    have hne := h.groupings_ne_nil hlt
    match t, hname with
    | .node (.production _) span children, rfl =>
      rw [p.length_compactForest]
      refine Grouping.enclose_eq_singleton ?_ fun g hg => owner?_ne_of_mem_forestGroupings hg
      intro hnil
      rw [groupings, hnil] at hne
      exact hne rfl

end Tree.Tiled

namespace Parser

/-- The compact view of every tree that `parse` or `parsePrefix` returns keeps its
    tokens and its productions, and so do the views of the trees in it that cover a
    token. Its text in colours is that without them but for the codes around the
    names of productions. -/
theorem compact_keeps (p : Parser) (source : List Token) (parsed : Parsed)
    (h : p.Returns source parsed) :
    (∀ t ∈ parsed.root.subtrees, t.span.start < t.span.stop → parsed.Keeps t) ∧
    ∀ palette : Palette, parsed.compact palette = " ".intercalate (parsed.root.groupings.map
      (Tree.Grouping.write parsed palette.production palette.reset)) ++ "\n" := by
  refine ⟨fun t ht hlt => ?_, fun palette => ?_⟩
  · have hle := Nat.le_trans (h.tiled.stop_le ht) h.stop_le
    exact (h.tiled.of_mem_subtrees ht).keeps hlt hle
  · rw [Parsed.compact, parsed.compactParts_eq_map]

/-- The compact view of `SELECT 1 + 2;` has two productions with several parts. The
    productions in between have one part each, and are left out. -/
theorem compact_keeps_sum : ∃ parsed : Parsed,
    (ofGrammar Sqlite.grammar).parse [⟨.keyword .SELECT, "SELECT", ⟨0, 6⟩⟩,
      ⟨.integer, "1", ⟨7, 8⟩⟩, ⟨.symbol .plus, "+", ⟨9, 10⟩⟩, ⟨.integer, "2", ⟨11, 12⟩⟩,
      ⟨.symbol .semicolon, ";", ⟨12, 13⟩⟩] = .ok parsed ∧
    parsed.compact .plain = "(select-stmt SELECT (add-expr 1 + 2))\n" ∧
    parsed.Keeps parsed.root := by
  generalize hsource : ([⟨.keyword .SELECT, "SELECT", ⟨0, 6⟩⟩,
      ⟨.integer, "1", ⟨7, 8⟩⟩, ⟨.symbol .plus, "+", ⟨9, 10⟩⟩, ⟨.integer, "2", ⟨11, 12⟩⟩,
      ⟨.symbol .semicolon, ";", ⟨12, 13⟩⟩] : List Token) = source
  have hview : ((ofGrammar Sqlite.grammar).parse source).toOption.map
      (fun parsed => (parsed.root.span, parsed.compact .plain)) =
      some (⟨0, 4⟩, "(select-stmt SELECT (add-expr 1 + 2))\n") := by
    subst hsource
    decide +kernel
  cases hparse : (ofGrammar Sqlite.grammar).parse source with
  | ok parsed =>
    rw [hparse] at hview
    obtain ⟨hspan, hcompact⟩ := Prod.mk.inj (Option.some.inj hview)
    refine ⟨parsed, rfl, hcompact, ?_⟩
    apply (compact_keeps _ source parsed (.inl hparse)).1
    · rw [Tree.subtrees_eq]
      exact List.mem_cons_self
    · rw [hspan]
      decide
  | error e =>
    rw [hparse] at hview
    cases hview

end Parser

end SqlStatement

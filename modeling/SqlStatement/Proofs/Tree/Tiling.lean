import SqlStatement.Proofs.Match.Soundness

namespace SqlStatement

namespace Tree

/-- The trees cover the tokens from `start` to `stop` in order, and each covers a
    token. -/
def Tiles : List Tree → (start stop : Nat) → Prop
  | [], start, stop => start = stop
  | t :: ts, start, stop => t.span.start = start ∧ start < t.span.stop ∧ Tiles ts t.span.stop stop

/-- Every node of a tree is tiled by its children. -/
inductive Tiled : Tree → Prop
  | leaf (role : Role) (index : Nat) : Tiled (.leaf role index)
  | node (label : Label) (span : Span) (children : List Tree)
      (hcover : Tiles children span.start span.stop) (hchildren : ∀ t ∈ children, Tiled t) :
      Tiled (.node label span children)

/-- Trees that tile a range and trees that tile the next one tile both. The
    induction is on the trees of the first range. -/
theorem tiles_append {ts us : List Tree} {i j k : Nat} (hts : Tiles ts i j) (hus : Tiles us j k) :
    Tiles (ts ++ us) i k := by
  induction ts generalizing i with
  | nil =>
    have hij : i = j := hts
    rw [hij]
    exact hus
  | cons t ts ih =>
    obtain ⟨hstart, hlt, hrest⟩ := hts
    exact ⟨hstart, hlt, ih hrest⟩

/-- A node over a range tiles it, and so does no node over no tokens. -/
theorem tiles_covering (label : Label) {i j : Nat} (hle : i ≤ j) (children : List Tree) :
    Tiles (Tree.covering label i j children) i j := by
  unfold Tree.covering
  split
  · next hlt => exact ⟨rfl, hlt, rfl⟩
  · exact Nat.le_antisymm hle (by omega)

/-- Each of the trees covers a token. A row has no place for a tree that covers
    none. -/
theorem Tiles.nonempty {ts : List Tree} {i j : Nat} (h : Tiles ts i j) :
    ∀ t ∈ ts, t.span.start < t.span.stop := by
  induction ts generalizing i with
  | nil => nofun
  | cons t ts ih =>
    obtain ⟨hstart, hlt, hrest⟩ := h
    rw [List.forall_mem_cons]
    constructor
    · omega
    · exact ih hrest

/-- A row of trees goes forwards. Each of its trees does. -/
theorem Tiles.start_le_stop {ts : List Tree} {i j : Nat} (h : Tiles ts i j) : i ≤ j := by
  induction ts generalizing i with
  | nil => exact Nat.le_of_eq h
  | cons t ts ih =>
    obtain ⟨-, hlt, hrest⟩ := h
    have hle := ih hrest
    omega

/-- And none of them ends behind the end of the row. The trees behind it go
    forwards, too. -/
theorem Tiles.stop_le {ts : List Tree} {i j : Nat} (h : Tiles ts i j) :
    ∀ t ∈ ts, t.span.stop ≤ j := by
  induction ts generalizing i with
  | nil => nofun
  | cons t ts ih =>
    obtain ⟨-, -, hrest⟩ := h
    exact List.forall_mem_cons.mpr ⟨hrest.start_le_stop, ih hrest⟩

/-- A subtree of a row of trees is one of a tree in it. -/
theorem mem_forestSubtrees {ts : List Tree} {u : Tree} :
    u ∈ forestSubtrees ts ↔ ∃ t ∈ ts, u ∈ t.subtrees := by
  induction ts with
  | nil => simp [forestSubtrees]
  | cons t ts ih => simp [forestSubtrees, ih]

/-- The tokens of the leaves of some trees, in preorder. -/
def leafIndices (ts : List Tree) : List Nat :=
  ((forestSubtrees ts).filter isLeaf).map (·.span.start)

theorem leafIndices_cons (t : Tree) (ts : List Tree) :
    leafIndices (t :: ts) = leafIndices [t] ++ leafIndices ts := by
  simp [leafIndices, forestSubtrees]

theorem leafIndices_node (label : Label) (span : Span) (children : List Tree) :
    leafIndices [.node label span children] = leafIndices children := by
  simp [leafIndices, forestSubtrees, subtrees, isLeaf]

/-- Trees whose leaves are their tokens, in order, have all tokens that they tile as
    leaves. -/
theorem Tiles.leafIndices_eq {ts : List Tree} {i j : Nat} (h : Tiles ts i j)
    (hleaves : ∀ t ∈ ts,
      leafIndices [t] = List.range' t.span.start (t.span.stop - t.span.start)) :
    leafIndices ts = List.range' i (j - i) := by
  induction ts generalizing i with
  | nil =>
    have hij : i = j := h
    simp [leafIndices, forestSubtrees, hij]
  | cons t ts ih =>
    obtain ⟨hstart, hlt, hrest⟩ := h
    obtain ⟨ht, hts⟩ := List.forall_mem_cons.mp hleaves
    have hle := Tiles.start_le_stop hrest
    have hmiddle : i + (t.span.stop - i) = t.span.stop := by omega
    have hlength : j - i = (t.span.stop - i) + (j - t.span.stop) := by omega
    rw [leafIndices_cons, ht, hstart, ih hrest hts, hlength, ← List.range'_append_1, hmiddle]

namespace Tiled

variable {t u : Tree}

/-- Every tree below one that is tiled is tiled as well. The induction is on how the
    tree is tiled, which says that its children are. -/
theorem of_mem_subtrees (h : t.Tiled) (hu : u ∈ t.subtrees) : u.Tiled := by
  induction h with
  | leaf role index =>
    cases List.mem_singleton.mp hu
    exact .leaf role index
  | node label span children hcover hchildren ih =>
    rcases List.mem_cons.mp hu with rfl | hbelow
    · exact .node label span children hcover hchildren
    · obtain ⟨child, hchild, hmem⟩ := mem_forestSubtrees.mp hbelow
      exact ih child hchild hmem

/-- A tree ends no sooner than it starts. -/
theorem start_le_stop (h : t.Tiled) : t.span.start ≤ t.span.stop := by
  cases h with
  | leaf role index => exact Nat.le_succ index
  | node label span children hcover _ => exact hcover.start_le_stop

/-- No tree below ends further than the tree itself. A child ends where the next one
    starts, or where the tree does. -/
theorem stop_le (h : t.Tiled) (hu : u ∈ t.subtrees) : u.span.stop ≤ t.span.stop := by
  induction h with
  | leaf role index =>
    cases List.mem_singleton.mp hu
    exact Nat.le_refl _
  | node label span children hcover _ ih =>
    rcases List.mem_cons.mp hu with rfl | hbelow
    · exact Nat.le_refl _
    · obtain ⟨child, hchild, hmem⟩ := mem_forestSubtrees.mp hbelow
      exact Nat.le_trans (ih child hchild hmem) (hcover.stop_le child hchild)

/-- Only a tree itself may cover no token, nothing below it does. A child covers a
    token by the row that it stands in. -/
theorem nonempty_below (h : t.Tiled) (hu : u ∈ forestSubtrees t.children) :
    u.span.start < u.span.stop := by
  induction h with
  | leaf role index => cases hu
  | node label span children hcover hchildren ih =>
    obtain ⟨child, hchild, hmem⟩ := mem_forestSubtrees.mp hu
    rw [subtrees_eq] at hmem
    rcases List.mem_cons.mp hmem with rfl | hbelow
    · exact hcover.nonempty _ hchild
    · exact ih child hchild hbelow

/-- The leaves of a tree that is tiled are its tokens in their order. The ranges of
    the children make up that of the tree. -/
theorem leafIndices_eq (h : t.Tiled) :
    leafIndices [t] = List.range' t.span.start (t.span.stop - t.span.start) := by
  induction h with
  | leaf role index =>
    have hleaf : leafIndices [.leaf role index] = [index] := rfl
    simp [hleaf, span]
  | node label span children hcover hchildren ih =>
    rw [leafIndices_node]
    exact hcover.leafIndices_eq ih

end Tiled

/-- A tree from the first token on that leaves out none of the tokens that it
    covers. -/
structure Complete (t : Tree) : Prop where
  /-- Each composite node is tiled by its children. -/
  tiles : ∀ u ∈ t.descendants, u.isLeaf = false → Tiles u.children u.span.start u.span.stop
  /-- Each leaf covers one token and has nothing below it. -/
  leaf : ∀ u ∈ t.descendants, u.isLeaf = true → u.span.length = 1 ∧ u.children = []
  /-- A composite node that covers a token has a child. -/
  inhabited : ∀ u ∈ t.descendants, u.isLeaf = false → u.span.start < u.span.stop → u.children ≠ []
  /-- The leaves in preorder are the tokens in order. -/
  leaves : (t.descendants.filter isLeaf).map (·.span.start) =
    List.range' t.span.start (t.span.stop - t.span.start)
  start_eq : t.span.start = 0
  /-- Only the root may cover no token. -/
  nonempty : ∀ u ∈ t.descendants.tail, u.span.start < u.span.stop

/-- A tree that is tiled and starts with the first token is complete. Its leaves and
    the ranges of its nodes are those of all tokens up to its end. -/
theorem Tiled.complete {t : Tree} (h : t.Tiled) (hstart : t.span.start = 0) : t.Complete where
  tiles u hu hcomposite := by
    rw [descendants_eq_subtrees] at hu
    cases h.of_mem_subtrees hu with
    | leaf role index => cases hcomposite
    | node label span children hcover _ => exact hcover
  leaf u hu hleaf := by
    cases u with
    | leaf role index => exact ⟨Nat.add_sub_cancel_left .., rfl⟩
    | node label span children => cases hleaf
  inhabited u hu hcomposite hlt hnil := by
    rw [descendants_eq_subtrees] at hu
    cases h.of_mem_subtrees hu with
    | leaf role index => cases hcomposite
    | node label span children hcover _ =>
      have hchildren : children = [] := hnil
      subst hchildren
      exact Nat.ne_of_lt hlt hcover
  leaves := by
    have hindices := h.leafIndices_eq
    simpa [leafIndices, forestSubtrees, descendants_eq_subtrees] using hindices
  start_eq := hstart
  nonempty u hu := by
    rw [descendants_eq_subtrees, subtrees_eq, List.tail_cons] at hu
    exact h.nonempty_below hu

end Tree

namespace Grammar.Derives

open SqlStatement.Tree (Tiles Tiled)

variable {g : Grammar} {tokens : Array Token} {part : Part} {i j : Nat} {trees : List Tree}

/-- A node over trees that tile its range is tiled if they are. Over no token there
    is no node. -/
theorem forall_tiled_covering {label : Tree.Label} (hcover : Tiles trees i j)
    (htrees : ∀ t ∈ trees, t.Tiled) : ∀ t ∈ Tree.covering label i j trees, t.Tiled := by
  unfold Tree.covering
  split
  · intro t ht
    rw [List.mem_singleton.mp ht]
    exact .node label ⟨i, j⟩ trees hcover htrees
  · nofun

theorem forall_tiled_append {front rest : List Tree} (hfront : ∀ t ∈ front, t.Tiled)
    (hrest : ∀ t ∈ rest, t.Tiled) : ∀ t ∈ front ++ rest, t.Tiled := by
  intro t ht
  exact (List.mem_append.mp ht).elim (hfront t) (hrest t)

/-- The trees of a derivation tile its range of tokens, and so do the children of
    every node. The induction is on the derivation. -/
theorem tiled (h : Derives g tokens part i j trees) : Tiles trees i j ∧ ∀ t ∈ trees, t.Tiled := by
  induction h with
  | leaf => exact ⟨⟨rfl, Nat.lt_succ_self _, rfl⟩, by simp [Tiled.leaf]⟩
  | skip | breakpoint | nil | stop => exact ⟨rfl, nofun⟩
  | production _ hbody ih | optional hbody ih | alternation _ hbody ih | repetition _ hbody ih
  | bare hbody ih =>
    exact ⟨Tree.tiles_covering _ hbody.start_le_stop _, forall_tiled_covering ih.1 ih.2⟩
  | cons _ _ ih ih' | next _ _ _ ih ih' =>
    exact ⟨Tree.tiles_append ih.1 ih'.1, forall_tiled_append ih.2 ih'.2⟩
  | separated hseparator hitem ih ih' =>
    constructor
    · exact Tree.tiles_append (Tree.tiles_covering _ hseparator.start_le_stop _)
        (Tree.tiles_covering _ hitem.start_le_stop _)
    · exact forall_tiled_append (forall_tiled_covering ih.1 ih.2)
        (forall_tiled_covering ih'.1 ih'.2)

end Grammar.Derives

namespace Parser

variable {p : Parser} {tokens : Array Token} {tree : Tree}

/-- The tree of a match is tiled, as the tree of a derivation. Its nodes are those
    of the terms that were matched. -/
theorem tiled_of_run {purpose : Purpose}
    (hmatched : (p.run purpose tokens).outcome = .matched tree) : tree.Tiled := by
  obtain ⟨production, nodes, -, rfl, hbody⟩ := derivesTree_of_run hmatched
  obtain ⟨hcover, hnodes⟩ := hbody.tiled
  exact .node _ _ _ hcover hnodes

/-- And it is complete, as it starts with the first token. -/
theorem complete_of_run {purpose : Purpose}
    (hmatched : (p.run purpose tokens).outcome = .matched tree) : tree.Complete := by
  obtain ⟨production, nodes, -, rfl, hbody⟩ := derivesTree_of_run hmatched
  obtain ⟨hcover, hnodes⟩ := hbody.tiled
  exact (Tree.Tiled.node _ _ _ hcover hnodes).complete rfl

/-- The front of an input is read by a run that matches. Any other ending is turned
    into an error. -/
theorem conclude_eq_ok {r : Result Tree} (hok : conclude tokens r = .ok tree) :
    r.outcome = .matched tree := by
  unfold conclude at hok
  split at hok
  · cases hok
    assumption
  · cases hok
  · cases hok

/-- All of it is read by such a run with nothing left over. A token that is left
    over is an error as well. -/
theorem concludeAll_eq_ok {r : Result Tree} (hok : concludeAll tokens r = .ok tree) :
    r.outcome = .matched tree ∧ trailing? tokens tree = none := by
  unfold concludeAll at hok
  split at hok
  · cases hok
  · next hconclude =>
    split at hok
    · next htrailing =>
      cases hok
      exact ⟨conclude_eq_ok hconclude, htrailing⟩
    · cases hok

/-- A tree ends inside the input. -/
theorem stop_le_size {purpose : Purpose}
    (hmatched : (p.run purpose tokens).outcome = .matched tree) :
    tree.span.stop ≤ tokens.size := by
  obtain ⟨production, nodes, -, rfl, hbody⟩ := derivesTree_of_run hmatched
  exact hbody.stop_le_size (Nat.zero_le _)

/-- Where nothing trails, all tokens are covered but a semicolon at the end. One
    semicolon behind the tree is overlooked, if nothing stands behind it. -/
theorem stop_of_trailing?_eq_none (hstop : tree.span.stop ≤ tokens.size)
    (htrailing : trailing? tokens tree = none) : tree.span.stop = tokens.size ∨
      tree.span.stop + 1 = tokens.size ∧ tokens[tree.span.stop]?.any Token.isSemicolon = true := by
  unfold trailing? at htrailing
  by_cases hsemicolon : tokens[tree.span.stop]?.any Token.isSemicolon = true
  · have hlt : tree.span.stop < tokens.size := by
      by_contra hge
      rw [Array.getElem?_eq_none (Nat.le_of_not_lt hge)] at hsemicolon
      cases hsemicolon
    simp only [hsemicolon, if_true] at htrailing
    split at htrailing
    · cases htrailing
    · exact .inr ⟨by omega, hsemicolon⟩
  · rw [Bool.not_eq_true] at hsemicolon
    simp only [hsemicolon, Bool.false_eq_true, if_false] at htrailing
    split at htrailing
    · cases htrailing
    · exact .inl (by omega)

theorem parse_eq_ok {source : List Token} {parsed : Parsed} (hok : p.parse source = .ok parsed) :
    concludeAll source.toArray (p.run .reading source.toArray) = .ok parsed.root := by
  unfold parse at hok
  cases hall : concludeAll source.toArray (p.run .reading source.toArray) with
  | error e => simp [hall, Bind.bind, Except.bind] at hok
  | ok tree =>
    simp only [hall, Bind.bind, Except.bind, Pure.pure, Except.pure, Except.ok.injEq] at hok
    rw [← hok]

theorem parse_of_concludeAll {source : List Token} {tree : Tree}
    (h : concludeAll source.toArray (p.run .reading source.toArray) = .ok tree) :
    p.parse source = .ok ⟨tree, source.toArray⟩ := by
  simp only [parse, h]
  rfl

theorem parse_eq_error {source : List Token} {err : ParseError}
    (h : p.parse source = .error err) :
    concludeAll source.toArray (p.run .reading source.toArray) = .error err := by
  unfold parse at h
  cases hall : concludeAll source.toArray (p.run .reading source.toArray) with
  | ok tree => simp [hall, Bind.bind, Except.bind, Pure.pure, Except.pure] at h
  | error e =>
    simp only [hall, Bind.bind, Except.bind, Except.error.injEq] at h
    rw [h]

theorem parsePrefix_eq_ok {source : List Token} {front : Prefix}
    (hok : p.parsePrefix source = .ok front) :
    conclude source.toArray (p.run .reading source.toArray) = .ok front.parsed.root := by
  unfold parsePrefix at hok
  cases hall : conclude source.toArray (p.run .reading source.toArray) with
  | error e => simp [hall, Bind.bind, Except.bind] at hok
  | ok tree =>
    simp only [hall, Bind.bind, Except.bind, Pure.pure, Except.pure, Except.ok.injEq] at hok
    rw [← hok]

theorem parsePrefix_eq_error {source : List Token} {err : ParseError}
    (h : p.parsePrefix source = .error err) :
    conclude source.toArray (p.run .reading source.toArray) = .error err := by
  unfold parsePrefix at h
  cases hconclude : conclude source.toArray (p.run .reading source.toArray) with
  | ok tree => simp [hconclude, Bind.bind, Except.bind, Pure.pure, Except.pure] at h
  | error e =>
    simp only [hconclude, Bind.bind, Except.bind, Except.error.injEq] at h
    rw [h]

/-- A parse answers with the tree of its run where nothing is left over. The input
    of the tree is all of the tokens, also where a semicolon is not covered. -/
theorem parse_iff {source : List Token} : p.parse source = .ok ⟨tree, source.toArray⟩ ↔
    (p.run .reading source.toArray).outcome = .matched tree ∧
      trailing? source.toArray tree = none := by
  constructor
  · exact fun h => concludeAll_eq_ok (parse_eq_ok h)
  · rintro ⟨hmatched, hnone⟩
    apply parse_of_concludeAll
    simp [concludeAll, conclude, hmatched, hnone]

/-- A prefix parse answers with the tree of its run and with where it ends. The
    tokens behind that place are not looked at. -/
theorem parsePrefix_iff {source : List Token} {n : Nat} :
    p.parsePrefix source = .ok ⟨⟨tree, source.toArray⟩, n⟩ ↔
      (p.run .reading source.toArray).outcome = .matched tree ∧ tree.span.stop = n := by
  constructor
  · intro h
    have hmatched := conclude_eq_ok (parsePrefix_eq_ok h)
    simp only [parsePrefix, conclude, hmatched, Bind.bind, Except.bind, Pure.pure, Except.pure,
      Except.ok.injEq, Prefix.mk.injEq] at h
    exact ⟨hmatched, h.2⟩
  · rintro ⟨hmatched, rfl⟩
    simp only [parsePrefix, conclude, hmatched]
    rfl

/-- What `parse` or `parsePrefix` returns for some tokens. -/
def Returns (p : Parser) (source : List Token) (parsed : Parsed) : Prop :=
  p.parse source = .ok parsed ∨ ∃ consumed, p.parsePrefix source = .ok ⟨parsed, consumed⟩

/-- What is returned is the tree of a match over all the tokens. That holds of a
    parse and of a prefix of one. -/
theorem Returns.matched {source : List Token} {parsed : Parsed} (h : p.Returns source parsed) :
    (p.run .reading source.toArray).outcome = .matched parsed.root ∧
      parsed.tokens = source.toArray := by
  rcases h with hparse | ⟨consumed, hprefix⟩
  · have hall := parse_eq_ok hparse
    refine ⟨(concludeAll_eq_ok hall).1, ?_⟩
    rw [parse_of_concludeAll hall] at hparse
    exact congrArg Parsed.tokens (Except.ok.inj hparse).symm
  · have hmatched := conclude_eq_ok (parsePrefix_eq_ok hprefix)
    refine ⟨hmatched, ?_⟩
    rw [parsePrefix_iff.mpr ⟨hmatched, rfl⟩] at hprefix
    exact congrArg (·.parsed.tokens) (Except.ok.inj hprefix).symm

theorem Returns.tiled {source : List Token} {parsed : Parsed} (h : p.Returns source parsed) :
    parsed.root.Tiled :=
  tiled_of_run h.matched.1

theorem Returns.stop_le {source : List Token} {parsed : Parsed} (h : p.Returns source parsed) :
    parsed.root.span.stop ≤ parsed.tokens.size := by
  rw [h.matched.2]
  exact stop_le_size h.matched.1

/-- Every tree that `parse` or `parsePrefix` returns is complete, and the one that
    `parse` returns covers all tokens but a semicolon at the end. -/
theorem tree_complete (p : Parser) (source : List Token) :
    (∀ parsed, p.parse source = .ok parsed → parsed.root.Complete ∧
      (parsed.root.span.stop = source.length ∨ parsed.root.span.stop + 1 = source.length ∧
        source[parsed.root.span.stop]?.any Token.isSemicolon = true)) ∧
    ∀ front, p.parsePrefix source = .ok front →
      front.parsed.root.Complete ∧ front.parsed.root.span.stop ≤ source.length := by
  have hstop {tree : Tree} (hmatched : (p.run .reading source.toArray).outcome = .matched tree) :
      tree.span.stop ≤ source.toArray.size := by
    obtain ⟨production, nodes, -, rfl, hbody⟩ := derivesTree_of_run hmatched
    exact hbody.stop_le_size (Nat.zero_le _)
  constructor
  · intro parsed hok
    obtain ⟨hmatched, htrailing⟩ := concludeAll_eq_ok (parse_eq_ok hok)
    refine ⟨complete_of_run hmatched, ?_⟩
    simpa using stop_of_trailing?_eq_none (hstop hmatched) htrailing
  · intro front hok
    have hmatched := conclude_eq_ok (parsePrefix_eq_ok hok)
    exact ⟨complete_of_run hmatched, by simpa using hstop hmatched⟩

/-- The tree of `SELECT 1;` leaves out the semicolon. Its two leaves are the other
    tokens. -/
theorem tree_complete_select : ∃ parsed : Parsed,
    (ofGrammar Sqlite.grammar).parse [⟨.keyword .SELECT, "SELECT", ⟨0, 6⟩⟩,
      ⟨.integer, "1", ⟨7, 8⟩⟩, ⟨.symbol .semicolon, ";", ⟨8, 9⟩⟩] = .ok parsed ∧
    parsed.root.span = ⟨0, 2⟩ ∧ parsed.root.Complete := by
  generalize hsource : ([⟨.keyword .SELECT, "SELECT", ⟨0, 6⟩⟩, ⟨.integer, "1", ⟨7, 8⟩⟩,
    ⟨.symbol .semicolon, ";", ⟨8, 9⟩⟩] : List Token) = source
  have hspan : ((ofGrammar Sqlite.grammar).parse source).toOption.map (·.root.span) =
      some ⟨0, 2⟩ := by
    subst hsource
    decide +kernel
  cases hparse : (ofGrammar Sqlite.grammar).parse source with
  | ok parsed =>
    rw [hparse] at hspan
    exact ⟨parsed, rfl, Option.some.inj hspan, ((tree_complete _ source).1 parsed hparse).1⟩
  | error e =>
    rw [hparse] at hspan
    cases hspan

end Parser

end SqlStatement

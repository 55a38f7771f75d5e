import SqlStatement.Proofs.Lexer.Relex
import SqlStatement.Proofs.Match.Outline
import SqlStatement.Proofs.Sqlite.Legal
import SqlStatement.Proofs.Sqlite.Terminator

namespace SqlStatement

/-- What a match sees of a token is part of the token without its place. -/
theorem Token.map_outline_eq {ts us : List Token} (h : ts.map bare = us.map bare) :
    ts.map outline = us.map outline := by
  have houtline : outline = (fun b : Kind × String => ⟨b.1, Text.upper b.2, ⟨0, 0⟩⟩) ∘ bare := rfl
  rw [houtline, ← List.map_map, h, List.map_map]

/-- The tokens of a tree. -/
def Parsed.tokensOf (p : Parsed) (t : Tree) : List Token :=
  (p.tokens.extract t.span.start t.span.stop).toList

/-- The text of a tree and the part of the source that it covers have the tokens of
    the tree. -/
structure Parsed.Relexes (p : Parsed) (source : String) (t : Tree) : Prop where
  text : (Lexer.lex (p.text t)).map Token.bare = (p.tokensOf t).map Token.bare
  slice : ∃ span slice, p.sourceSpan? t = some span ∧ span.Selects source slice ∧
    (Lexer.lex slice).map Token.bare = (p.tokensOf t).map Token.bare

namespace Lexer

variable {source : String} {t : Token}

/-- A semicolon of a text is spelled like one. The semicolon is the only spelling of
    its kind. -/
theorem isTerminator_of_mem_lex (ht : t ∈ lex source) (hsemicolon : t.isSemicolon = true) :
    t.IsTerminator := by
  have hkind : t.kind = .symbol .semicolon := eq_of_beq hsemicolon
  obtain ⟨-, hmem⟩ := legal_of_mem_lex ht (by rw [hkind]; nofun)
  rw [hkind] at hmem
  refine ⟨hkind, String.toList_injective ?_⟩
  exact List.mem_singleton.mp hmem

end Lexer

namespace Parsed

variable {source : String} {p : Parsed} {t : Tree}

theorem tokensOf_eq {ts : List Token} (htokens : p.tokens = ts.toArray) (t : Tree) :
    p.tokensOf t = (ts.drop t.span.start).take (t.span.stop - t.span.start) := by
  simp [tokensOf, htokens, List.extract]

theorem mem_lex_of_mem_tokensOf (htokens : p.tokens = (Lexer.lex source).toArray) {u : Token}
    (hu : u ∈ p.tokensOf t) : u ∈ Lexer.lex source := by
  rw [tokensOf_eq htokens] at hu
  exact List.mem_of_mem_drop (List.mem_of_mem_take hu)

/-- The text of a tree over legal tokens has these tokens, with blanks between
    them. -/
theorem map_bare_lex_text (htokens : p.tokens = (Lexer.lex source).toArray)
    (hlegal : ∀ u ∈ p.tokensOf t, u.kind ≠ .illegal) :
    (Lexer.lex (p.text t)).map Token.bare = (p.tokensOf t).map Token.bare :=
  Lexer.map_bare_lex_spaced fun u hu =>
    Lexer.legal_of_mem_lex (mem_lex_of_mem_tokensOf htokens hu) (hlegal u hu)

/-- The part of the source that a tree over legal tokens covers has these tokens. It
    starts and ends where tokens do, so the pieces of the source that lie inside of
    it are those of the slice. -/
theorem exists_slice (htokens : p.tokens = (Lexer.lex source).toArray)
    (hlegal : ∀ u ∈ p.tokensOf t, u.kind ≠ .illegal) (hlt : t.span.start < t.span.stop)
    (hstop : t.span.stop ≤ (Lexer.lex source).length) :
    ∃ span slice, p.sourceSpan? t = some span ∧ span.Selects source slice ∧
      (Lexer.lex slice).map Token.bare = (p.tokensOf t).map Token.bare := by
  have htokensOf := tokensOf_eq htokens t
  obtain ⟨first, hfirst⟩ : ∃ first, (Lexer.lex source)[t.span.start]? = some first :=
    ⟨_, List.getElem?_eq_getElem (by omega)⟩
  obtain ⟨last, hlast⟩ : ∃ last, (Lexer.lex source)[t.span.stop - 1]? = some last :=
    ⟨_, List.getElem?_eq_getElem (by omega)⟩
  have hparts : Lexer.lex source = (Lexer.lex source).take t.span.start ++
      (p.tokensOf t ++ ((Lexer.lex source).drop t.span.start).drop
        (t.span.stop - t.span.start)) := by
    rw [htokensOf, List.take_append_drop, List.take_append_drop]
  have hhead : (p.tokensOf t).head? = some first := by
    rw [htokensOf, List.head?_take, if_neg (by omega), List.head?_drop, hfirst]
  have hend : (p.tokensOf t).getLast? = some last := by
    have hindex : t.span.start + (t.span.stop - t.span.start - 1) = t.span.stop - 1 := by omega
    rw [htokensOf, List.getLast?_take, if_neg (by omega), List.getElem?_drop, hindex, hlast,
      Option.some_or]
  obtain ⟨slice, hselects, hslice⟩ := Lexer.exists_slice hparts hlegal hhead hend
  refine ⟨_, slice, ?_, hselects, hslice⟩
  have hempty : t.span.isEmpty = false := beq_false_of_ne hlt.ne
  simp [sourceSpan?, hempty, htokens, hfirst, hlast]

end Parsed

namespace Sqlite

variable {source root : String} {limits : Limits}

section Run

variable {p : Parser} {tree : Tree}

/-- Under every node of a tree there are legal tokens only. Each of them is accepted
    by a leaf of the table, and none of these accepts an illegal token of a text. -/
theorem legal_tokensOf (hg : p.grammar = grammar)
    (hmatched : (p.run .reading (Lexer.lex source).toArray).outcome = .matched tree) {t : Tree}
    (hinside : t.span.stop ≤ tree.span.stop) :
    ∀ u ∈ (⟨tree, (Lexer.lex source).toArray⟩ : Parsed).tokensOf t, u.kind ≠ .illegal := by
  intro u hu
  rw [Parsed.tokensOf_eq rfl, ← List.drop_take] at hu
  exact legal_of_run hg (fun _ => id) hmatched u
    (List.take_subset_take_left _ hinside (List.mem_of_mem_drop hu))

/-- Every node with a token can be read back from its text and from its part of the
    source. -/
theorem relexes_of_run (hg : p.grammar = grammar)
    (hmatched : (p.run .reading (Lexer.lex source).toArray).outcome = .matched tree) {t : Tree}
    (ht : t ∈ tree.descendants) (hne : t.span.isEmpty = false) :
    (⟨tree, (Lexer.lex source).toArray⟩ : Parsed).Relexes source t := by
  have htiled := Parser.tiled_of_run hmatched
  rw [Tree.descendants_eq_subtrees] at ht
  have hlegal := legal_tokensOf hg hmatched (htiled.stop_le ht)
  have hlt := Nat.lt_of_le_of_ne (htiled.of_mem_subtrees ht).start_le_stop (ne_of_beq_false hne)
  have hsize := Parser.stop_le_size hmatched
  rw [List.size_toArray] at hsize
  exact ⟨Parsed.map_bare_lex_text rfl hlegal,
    Parsed.exists_slice rfl hlegal hlt (Nat.le_trans (htiled.stop_le ht) hsize)⟩

end Run

/-- A statement is read without the semicolon that may follow it. The run over the
    tokens in front of it matches the same tree, since a terminator there does not
    matter to a match. -/
theorem parse_front {tree : Tree} (hall : Parser.concludeAll (Lexer.lex source).toArray
      ((rooted root limits).run .reading (Lexer.lex source).toArray) = .ok tree) :
    (rooted root limits).parse ((Lexer.lex source).take tree.span.stop) =
      .ok ⟨tree, ((Lexer.lex source).take tree.span.stop).toArray⟩ := by
  obtain ⟨hmatched, hnone⟩ := Parser.concludeAll_eq_ok hall
  rcases Parser.stop_of_trailing?_eq_none (Parser.stop_le_size hmatched) hnone with
    hend | ⟨hlast, hsemicolon⟩
  · rw [hend, List.size_toArray, List.take_length]
    exact Parser.parse_of_concludeAll hall
  · rw [List.size_toArray] at hlast
    rw [List.getElem?_toArray] at hsemicolon
    obtain ⟨semicolon, hnext, hkind⟩ := (Option.any_eq_true _ _).mp hsemicolon
    have hlength : ((Lexer.lex source).take tree.span.stop).length = tree.span.stop := by
      rw [List.length_take]
      omega
    have hfront : (Lexer.lex source).take tree.span.stop ++ [semicolon] = Lexer.lex source := by
      calc (Lexer.lex source).take tree.span.stop ++ [semicolon]
          = (Lexer.lex source).take (tree.span.stop + 1) := by
            rw [List.take_add_one, hnext]
            rfl
        _ = Lexer.lex source := by rw [hlast, List.take_length]
    have hterminator := Lexer.isTerminator_of_mem_lex (List.mem_of_getElem? hnext) hkind
    rw [Parser.parse_iff, matched_iff_of_rooted root limits hterminator [] (by omega), hfront]
    exact ⟨hmatched, by simp [Parser.trailing?, hlength]⟩

/-- The text of a tree that was read from a source, and the part of the source that
    the tree covers, have its tokens again, and so the text of the whole tree is
    read as the same tree. No illegal token is part of a statement, a match does not
    look at the places of tokens, and it does not depend on the semicolon behind the
    statement, which the text leaves out. -/
theorem reread (root : String) (limits : Limits) {parsed : Parsed}
    (hparse : (rooted root limits).parse (Lexer.lex source) = .ok parsed) :
    (∀ t ∈ parsed.root.descendants, t.span.isEmpty = false → parsed.Relexes source t) ∧
      ((rooted root limits).parse (Lexer.lex (parsed.text parsed.root))).map (·.root) =
        .ok parsed.root := by
  have hall := Parser.parse_eq_ok hparse
  obtain ⟨hmatched, -⟩ := Parser.concludeAll_eq_ok hall
  obtain ⟨tree, tokens⟩ := parsed
  cases hparse.symm.trans (Parser.parse_of_concludeAll hall)
  refine ⟨fun t ht hne => relexes_of_run rfl hmatched ht hne, ?_⟩
  have htext := Parsed.map_bare_lex_text rfl (legal_tokensOf rfl hmatched (Nat.le_refl _))
  rw [Parsed.tokensOf_eq rfl, (Parser.complete_of_run hmatched).start_eq, List.drop_zero,
    Nat.sub_zero] at htext
  have hagain := Parser.parse_of_outlines (p := rooted root limits) (Token.map_outline_eq htext)
  rw [parse_front hall] at hagain
  exact Parser.mapError_eq_ok.mp hagain

/-- A query with a comment in it, a semicolon behind it and a quote inside a string.
    The comment is lost in the text of the tree, and the quote that stands for
    itself is kept. -/
theorem reread_select : ∃ parsed : Parsed,
    (rooted "select-stmt" {}).parse (Lexer.lex "SELECT a/* ; */,'b''c'FROM t\n;") = .ok parsed ∧
      parsed.Relexes "SELECT a/* ; */,'b''c'FROM t\n;" parsed.root ∧
      parsed.text parsed.root = "SELECT a , 'b''c' FROM t" ∧
      ((rooted "select-stmt" {}).parse (Lexer.lex "SELECT a , 'b''c' FROM t")).map (·.root) =
        .ok parsed.root := by
  have hread : ((rooted "select-stmt" {}).parse
      (Lexer.lex "SELECT a/* ; */,'b''c'FROM t\n;")).toOption.map
        (fun parsed => (parsed.root.span, parsed.text parsed.root)) =
      some (⟨0, 6⟩, "SELECT a , 'b''c' FROM t") := by
    decide +kernel
  cases hparse : (rooted "select-stmt" {}).parse
      (Lexer.lex "SELECT a/* ; */,'b''c'FROM t\n;") with
  | error err =>
    rw [hparse] at hread
    cases hread
  | ok parsed =>
    rw [hparse] at hread
    obtain ⟨hspan, htext⟩ := Prod.mk.inj (Option.some.inj hread)
    obtain ⟨hrelexes, hagain⟩ := reread "select-stmt" {} hparse
    have hroot : parsed.root ∈ parsed.root.descendants := by
      rw [Tree.descendants_eq_subtrees, Tree.subtrees_eq]
      exact List.mem_cons_self
    have hne : parsed.root.span.isEmpty = false := by rw [hspan]; rfl
    exact ⟨parsed, rfl, hrelexes _ hroot hne, htext, htext ▸ hagain⟩

end Sqlite

end SqlStatement

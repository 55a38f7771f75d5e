import SqlStatement.Proofs.Completion.Truncation
import SqlStatement.Proofs.Grammar.Leaves
import SqlStatement.Proofs.Lexer.Spelling
import SqlStatement.Proofs.Script.Segments

namespace SqlStatement

open Token (Kind)

namespace Lexeme

/-- What is classified as illegal does not start like a word. What does start like
    one is a blob, a keyword or an identifier. -/
theorem not_startsWord_of_illegal {c : Char} {cs : List Char}
    (h : (classify c cs).1 = .illegal) : startsWord c = false := by
  apply Bool.eq_false_iff.mpr
  intro hc
  rw [classify_of_startsWord hc] at h
  rcases word_kind c cs with hblob | hname | ⟨k, hkeyword, -⟩
  · cases hblob.symm.trans h
  · cases hname.symm.trans h
  · cases hkeyword.symm.trans h

end Lexeme

namespace Lexer

/-- A joined piece starts like one of its parts, which has its kind. So what is
    known of how pieces start is known of joined ones as well. -/
theorem exists_of_mem_joinIllegal {ps : List Piece} {p : Piece} (h : p ∈ joinIllegal ps) :
    ∃ q ∈ ps, ∃ more, p.kind = q.kind ∧ p.text = q.text ++ more := by
  induction ps generalizing p with
  | nil => cases h
  | cons q qs ih =>
    have hself : ∃ r ∈ q :: qs, ∃ more, q.kind = r.kind ∧ q.text = r.text ++ more :=
      ⟨q, List.mem_cons_self, [], rfl, (List.append_nil _).symm⟩
    rw [joinIllegal] at h
    split at h
    · cases List.mem_singleton.mp h
      exact hself
    · next r rs hrest =>
      rw [hrest] at ih
      have hbehind {p : Piece} (hp : p ∈ r :: rs) :
          ∃ r ∈ q :: qs, ∃ more, p.kind = r.kind ∧ p.text = r.text ++ more := by
        obtain ⟨s, hs, more, heq⟩ := ih hp
        exact ⟨s, List.mem_cons_of_mem q hs, more, heq⟩
      split at h
      · next hboth =>
        rcases List.mem_cons.mp h with rfl | hmem
        · obtain ⟨hq, -⟩ := Bool.and_eq_true_iff.mp hboth
          exact ⟨q, List.mem_cons_self, r.text, (eq_of_beq hq).symm, rfl⟩
        · exact hbehind (List.mem_cons_of_mem r hmem)
      · rcases List.mem_cons.mp h with rfl | hmem
        · exact hself
        · exact hbehind hmem

variable {source : String} {t : Token}

/-- An illegal token starts with something that starts no word, be it joined from
    several pieces or not. -/
theorem exists_of_illegal (ht : t ∈ lex source) (hkind : t.kind = .illegal) :
    ∃ c cs, t.text = String.ofList (c :: cs) ∧ Lexeme.startsWord c = false := by
  obtain ⟨hplace, -⟩ := List.mem_filter.mp ht
  obtain ⟨p, hp, hsame, htext⟩ := piece_of_mem_place hplace
  obtain ⟨q, hq, more, hpkind, hptext⟩ := exists_of_mem_joinIllegal hp
  obtain ⟨c, rest, rfl⟩ := classify_of_mem_pieces hq
  rw [hptext] at htext
  exact ⟨c, _, htext, Lexeme.not_startsWord_of_illegal (hpkind.symm.trans (hsame.symm.trans hkind))⟩

/-- An illegal token is not the same as a word that starts with a letter. It starts
    with a character that starts no word. -/
theorem unlike_of_illegal (ht : t ∈ lex source) (hkind : t.kind = .illegal) {words : List String}
    (hwords : ∀ word ∈ words, word.toList.head?.any (·.toUpper.isAlpha) = true) :
    t.Unlike words := by
  intro word hword
  obtain ⟨c, cs, htext, hc⟩ := exists_of_illegal ht hkind
  apply Bool.eq_false_iff.mpr
  intro hsame
  rw [htext] at hsame
  have halpha := Text.isAlpha_of_sameWord hsame (hwords word hword)
  simp [Lexeme.startsWord, halpha] at hc

end Lexer

namespace Grammar

/-- The leaves of what is derived. -/
def Part.leaves : Part → List Leaf
  | .term t => t.leaves
  | .terms ts => termLeaves ts
  | .turn item separator | .turns item separator _ _ =>
    item.leaves ++ separator.elim [] Sequence.leaves

theorem Sequence.leaves_eq (s : Sequence) : s.leaves = (Part.terms s.terms).leaves := by
  cases s
  rfl

/-- The leaves of a repetition are those of its item and of its separator. -/
theorem Part.leaves_repetition (item : Sequence) (separator : Option Sequence) (least : Nat) :
    (Term.repetition item separator least).leaves =
      item.leaves ++ separator.elim [] Sequence.leaves := by
  cases separator with
  | none => exact (List.append_nil _).symm
  | some s => rfl

/-- Every token of a word is accepted by a leaf. The induction is on the production
    of the word. -/
theorem Produces.accepted {g : Grammar} {part : Part} {w : List Token} (h : Produces g part w)
    (hpart : ∀ l ∈ part.leaves, l ∈ g.leaves) : ∀ t ∈ w, ∃ l ∈ g.leaves, l.accepts t = true := by
  induction h with
  | @leaf l t haccepts =>
    exact List.forall_mem_singleton.mpr ⟨l, hpart l (List.mem_singleton_self l), haccepts⟩
  | production hfind _ ih =>
    rw [← Sequence.leaves_eq] at ih
    exact ih fun l hl => mem_leaves_of_find? hfind hl
  | skip | breakpoint | nil | stop => exact fun t ht => absurd ht List.not_mem_nil
  | @optional body w _ ih =>
    rw [← Sequence.leaves_eq] at ih
    exact ih hpart
  | @alternation candidates s w hs _ ih =>
    rw [← Sequence.leaves_eq] at ih
    exact ih fun l hl => hpart l (mem_candidateLeaves hs hl)
  | @repetition item separator least count w _ _ ih =>
    refine ih fun l hl => hpart l ?_
    rwa [Part.leaves, Part.leaves_repetition]
  | cons _ _ ih ih' =>
    refine List.forall_mem_append.mpr ⟨ih fun l hl => hpart l ?_, ih' fun l hl => hpart l ?_⟩
    · exact List.mem_append_left _ hl
    · exact List.mem_append_right _ hl
  | @bare item w _ ih =>
    rw [← Sequence.leaves_eq] at ih
    exact ih fun l hl => hpart l (List.mem_append_left _ hl)
  | @separated item separator w v _ _ ih ih' =>
    refine List.forall_mem_append.mpr ⟨ih fun l hl => hpart l ?_, ih' fun l hl => hpart l ?_⟩
    · rw [← Sequence.leaves_eq] at hl
      exact List.mem_append_right _ hl
    · rw [← Sequence.leaves_eq] at hl
      exact List.mem_append_left _ hl
  | @next item separator first count w v _ _ ih ih' =>
    refine List.forall_mem_append.mpr ⟨ih fun l hl => hpart l ?_, ih' hpart⟩
    cases first with
    | false => exact hl
    | true =>
      rcases List.mem_append.mp hl with hitem | hnone
      · exact List.mem_append_left _ hitem
      · exact absurd hnone List.not_mem_nil

end Grammar

namespace Parser

variable {p : Parser} {tree : Tree}

/-- Every token under the tree of a run is accepted by a leaf. A derivation of the
    tree has a leaf for each of them. -/
theorem accepted_of_run {purpose : Purpose} {tokens : Array Token}
    (hmatched : (p.run purpose tokens).outcome = .matched tree) :
    ∀ t ∈ tokens.toList.take tree.span.stop, ∃ l ∈ p.grammar.leaves, l.accepts t = true := by
  obtain ⟨production, nodes, hfind, rfl, hbody⟩ := derivesTree_of_run hmatched
  have hword := hbody.produces.accepted fun l hl =>
    Grammar.mem_leaves_of_find? hfind ((Grammar.Sequence.leaves_eq production.body).symm ▸ hl)
  simpa [Tree.span] using hword

end Parser

namespace Sqlite

open Grammar (Leaf)

/-- The words that the table knows by their text. -/
def literals : List String :=
  grammar.leaves.filterMap fun
    | .literal text => some text
    | _ => none

/-- The words that the table knows by their text start with letters. -/
theorem literals_alpha : ∀ word ∈ literals, word.toList.head?.any (·.toUpper.isAlpha) = true := by
  decide +kernel

/-- No leaf asks for an illegal token, whatever its text is, unless it is one of the
    words. -/
theorem rejects_illegal : ∀ l ∈ grammar.leaves, l.rejects literals (some .illegal) = true := by
  decide +kernel

variable {source : String} {t : Token} {p : Parser}

/-- A token of a text that a leaf of the table accepts is legal. No leaf goes by the
    kind of illegal tokens, and the words that leaves go by start with letters. -/
theorem legal_of_accepts {l : Leaf} (ht : t ∈ Lexer.lex source) (hl : l ∈ grammar.leaves)
    (haccepts : l.accepts t = true) : t.kind ≠ .illegal := by
  intro hkind
  have hunlike := Lexer.unlike_of_illegal ht hkind literals_alpha
  have hrejects := Leaf.accepts_of_rejects hunlike (hkind ▸ rejects_illegal l hl)
  rw [haccepts] at hrejects
  cases hrejects

/-- No statement has an illegal token, since each of its tokens is accepted by a
    leaf. -/
theorem legal_of_run (hg : p.grammar = grammar) {purpose : Purpose} {tokens : List Token}
    (htokens : ∀ t ∈ tokens, t ∈ Lexer.lex source) {tree : Tree}
    (hmatched : (p.run purpose tokens.toArray).outcome = .matched tree) :
    ∀ t ∈ tokens.take tree.span.stop, t.kind ≠ .illegal := by
  intro t ht
  obtain ⟨l, hl, haccepts⟩ := Parser.accepted_of_run hmatched t ht
  exact legal_of_accepts (htokens t (List.mem_of_mem_take ht)) (hg ▸ hl) haccepts

/-- Behind the legal tokens of a statement there is a semicolon, and legal tokens
    behind that. -/
theorem legal_of_cut {tokens : List Token} {n : Nat}
    (hfront : ∀ t ∈ tokens.take n, t.kind ≠ .illegal)
    (hsemicolon : ∀ t, tokens[n]? = some t → t.isSemicolon = true)
    (hbehind : ∀ t ∈ tokens.drop (n + 1), t.kind ≠ .illegal) : ∀ t ∈ tokens, t.kind ≠ .illegal := by
  rw [← List.take_append_drop n tokens]
  refine List.forall_mem_append.mpr ⟨hfront, ?_⟩
  cases hdrop : tokens.drop n with
  | nil => exact fun t ht => absurd ht List.not_mem_nil
  | cons next rest =>
    have hnext : tokens[n]? = some next := by
      rw [← Nat.add_zero n, ← List.getElem?_drop, hdrop]
      rfl
    refine List.forall_mem_cons.mpr ⟨fun hkind => ?_, fun t ht => hbehind t ?_⟩
    · have hkind' := eq_of_beq (hsemicolon next hnext)
      cases hkind.symm.trans hkind'
    · rw [← List.drop_drop, hdrop]
      exact ht

/-- Nor has a text that is read as one statement; a semicolon at its end is legal
    too. -/
theorem legal_of_parse (hg : p.grammar = grammar) {tokens : List Token}
    (htokens : ∀ t ∈ tokens, t ∈ Lexer.lex source) {parsed : Parsed}
    (hok : p.parse tokens = .ok parsed) : ∀ t ∈ tokens, t.kind ≠ .illegal := by
  obtain ⟨hmatched, hnone⟩ := Parser.concludeAll_eq_ok (Parser.parse_eq_ok hok)
  have hlegal := legal_of_run hg htokens hmatched
  rcases Parser.stop_of_trailing?_eq_none (Parser.stop_le_size hmatched) hnone with
    hend | ⟨hlast, hsemicolon⟩
  · rw [List.size_toArray] at hend
    rwa [hend, List.take_length] at hlegal
  · rw [List.getElem?_toArray] at hsemicolon
    rw [List.size_toArray] at hlast
    refine legal_of_cut hlegal (fun t ht => ?_) fun t ht => ?_
    · rwa [ht] at hsemicolon
    · rw [hlast, List.drop_length] at ht
      exact absurd ht List.not_mem_nil

/-- A script that splits into statements and stray semicolons has no illegal token.
    Each statement is under a tree whose leaves accept legal tokens only, and a
    stray semicolon is a symbol. -/
theorem legal_of_splits (hg : p.grammar = grammar) {tokens : List Token}
    (h : Script.Splits p tokens) (htokens : ∀ t ∈ tokens, t ∈ Lexer.lex source) :
    ∀ t ∈ tokens, t.kind ≠ .illegal := by
  induction h with
  | nil => exact fun t ht => absurd ht List.not_mem_nil
  | @stray semicolon rest hstray _ ih =>
    obtain ⟨-, hrest⟩ := List.forall_mem_cons.mp htokens
    refine List.forall_mem_cons.mpr ⟨fun hkind => ?_, ih hrest⟩
    have hsemicolon := eq_of_beq hstray
    cases hkind.symm.trans hsemicolon
  | @last first rest front _ hread hend =>
    obtain ⟨tree, hconclude, hstop⟩ := Parser.conclude_of_parsePrefix hread
    have hlegal := legal_of_run hg htokens (Parser.conclude_eq_ok hconclude)
    rwa [hstop, hend, List.take_length] at hlegal
  | @statement first t rest front _ hread _ hnext ht _ ih =>
    obtain ⟨tree, hconclude, hstop⟩ := Parser.conclude_of_parsePrefix hread
    have hlegal := legal_of_run hg htokens (Parser.conclude_eq_ok hconclude)
    rw [hstop] at hlegal
    refine legal_of_cut hlegal (fun u hu => ?_) (ih fun u hu => htokens u (List.mem_of_mem_drop hu))
    cases hnext.symm.trans hu
    exact ht

/-- A text with something illegal in it is not read as a statement, and a check of
    it finds an error, whatever production the parser starts from and whatever its
    limits are. -/
theorem legal_of_accepted (root : String) (limits : Limits) (patience : Option Nat)
    (source : String)
    (h : (∃ ds, Script.check ⟨grammar, root, limits, patience⟩ (Lexer.lex source) = .ok ds ∧
        ∀ d ∈ ds, d.severity ≠ .error) ∨
      ∃ parsed, Parser.parse ⟨grammar, root, limits, patience⟩ (Lexer.lex source) = .ok parsed) :
    ∀ t ∈ Lexer.lex source, t.kind ≠ .illegal := by
  rcases h with ⟨ds, hcheck, hclean⟩ | ⟨parsed, hparse⟩
  · have hverdict := (Script.checked_iff.mpr hcheck).verdict rfl
    exact legal_of_splits rfl (hverdict.clean_iff.mp hclean) fun t ht => ht
  · exact legal_of_parse rfl (fun t ht => ht) hparse

/-- The check of `SELECT 1; -- end` finds nothing, and its tokens are legal. There
    is no error in it, although it has a comment behind the semicolon. -/
theorem legal_of_accepted_select : ∃ ds,
    Script.check ⟨grammar, grammar.root, {}, none⟩ (Lexer.lex "SELECT 1; -- end") = .ok ds ∧
      (∀ d ∈ ds, d.severity ≠ .error) ∧
      ∀ t ∈ Lexer.lex "SELECT 1; -- end", t.kind ≠ .illegal := by
  have hnone : (Script.check ⟨grammar, grammar.root, {}, none⟩
      (Lexer.lex "SELECT 1; -- end")).toOption = some [] := by
    decide +kernel
  cases hcheck : Script.check ⟨grammar, grammar.root, {}, none⟩ (Lexer.lex "SELECT 1; -- end") with
  | error err =>
    rw [hcheck] at hnone
    cases hnone
  | ok ds =>
    rw [hcheck] at hnone
    cases Option.some.inj hnone
    have hclean : ∀ d ∈ ([] : List Diagnostic), d.severity ≠ .error := nofun
    exact ⟨[], rfl, hclean, legal_of_accepted grammar.root {} none _ (.inl ⟨[], hcheck, hclean⟩)⟩

end Sqlite

end SqlStatement

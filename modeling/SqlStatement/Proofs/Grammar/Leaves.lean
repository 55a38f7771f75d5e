import SqlStatement.Match.Combinator

namespace SqlStatement

/-- A token that is not read as one of some words on account of its text. -/
def Token.Unlike (words : List String) (t : Token) : Prop :=
  ∀ word ∈ words, Text.sameWord t.text word = false

instance (words : List String) (t : Token) : Decidable (t.Unlike words) :=
  inferInstanceAs (Decidable (∀ word ∈ words, Text.sameWord t.text word = false))

namespace Grammar

mutual

/-- The leaves of a term. -/
def Term.leaves : Term → List Leaf
  | .leaf l => [l]
  | .production _ => []
  | .optional body => body.leaves
  | .alternation candidates => candidateLeaves candidates
  | .repetition item none _ => item.leaves
  | .repetition item (some separator) _ => item.leaves ++ separator.leaves
  | .breakpoint => []
  termination_by structural t => t

/-- The leaves of a sequence. -/
def Sequence.leaves : Sequence → List Leaf
  | ⟨terms, _⟩ => termLeaves terms
  termination_by structural s => s

/-- The leaves of terms in order. -/
def termLeaves : List Term → List Leaf
  | [] => []
  | t :: ts => t.leaves ++ termLeaves ts
  termination_by structural ts => ts

/-- The leaves of candidates in order. -/
def candidateLeaves : List Sequence → List Leaf
  | [] => []
  | c :: cs => c.leaves ++ candidateLeaves cs
  termination_by structural cs => cs

end

/-- The leaves of a term are leaves of the terms that it stands among. The induction
    is on the terms. -/
theorem mem_termLeaves {ts : List Term} {t : Term} {l : Leaf} (ht : t ∈ ts) (hl : l ∈ t.leaves) :
    l ∈ termLeaves ts := by
  induction ts with
  | nil => cases ht
  | cons first rest ih =>
    rcases List.mem_cons.mp ht with rfl | hrest
    · exact List.mem_append_left _ hl
    · exact List.mem_append_right _ (ih hrest)

/-- The same for a candidate. What is known of the leaves of an alternation holds of
    those of each candidate. -/
theorem mem_candidateLeaves {cs : List Sequence} {c : Sequence} {l : Leaf} (hc : c ∈ cs)
    (hl : l ∈ c.leaves) : l ∈ candidateLeaves cs := by
  induction cs with
  | nil => cases hc
  | cons first rest ih =>
    rcases List.mem_cons.mp hc with rfl | hrest
    · exact List.mem_append_left _ hl
    · exact List.mem_append_right _ (ih hrest)

/-- Whatever holds of terms and of sequences as said holds of what they are made
    of. -/
structure Passes (T : Term → Prop) (S : Sequence → Prop) : Prop where
  optional {body : Sequence} (h : T (.optional body)) : S body
  candidates {candidates : List Sequence} (h : T (.alternation candidates)) : ∀ c ∈ candidates, S c
  item {item : Sequence} {separator : Option Sequence} {least : Nat}
    (h : T (.repetition item separator least)) : S item
  separator {item separator : Sequence} {least : Nat}
    (h : T (.repetition item (some separator) least)) : S separator
  terms {terms : List Term} {commit : Nat} (h : S ⟨terms, commit⟩) : ∀ t ∈ terms, T t

/-- Two properties that are passed on are passed on together. This is how one walk
    over a table is used for several properties. -/
theorem Passes.and {T T' : Term → Prop} {S S' : Sequence → Prop} (h : Passes T S)
    (h' : Passes T' S') : Passes (fun t => T t ∧ T' t) (fun s => S s ∧ S' s) where
  optional ht := ⟨h.optional ht.1, h'.optional ht.2⟩
  candidates ht c hc := ⟨h.candidates ht.1 c hc, h'.candidates ht.2 c hc⟩
  item ht := ⟨h.item ht.1, h'.item ht.2⟩
  separator ht := ⟨h.separator ht.1, h'.separator ht.2⟩
  terms hs t ht := ⟨h.terms hs.1 t ht, h'.terms hs.2 t ht⟩

/-- What holds of the leaves of a term holds of the leaves of what the term is made
    of. -/
theorem passes_leaves (P : Leaf → Prop) :
    Passes (fun t => ∀ l ∈ t.leaves, P l) (fun s => ∀ l ∈ s.leaves, P l) where
  optional h := h
  candidates h c hc l hl := h l (mem_candidateLeaves hc hl)
  item {_ separator _} h l hl := by
    cases separator with
    | none => exact h l hl
    | some s => exact h l (List.mem_append_left _ hl)
  separator h l hl := h l (List.mem_append_right _ hl)
  terms h t ht l hl := h l (mem_termLeaves ht hl)

/-- The leaves of all productions. -/
def leaves (g : Grammar) : List Leaf := g.productions.flatMap (·.body.leaves)

theorem mem_leaves_of_find? {g : Grammar} {name : String} {p : Production} {l : Leaf}
    (hfind : g.find? name = some p) (hl : l ∈ p.body.leaves) : l ∈ g.leaves :=
  List.mem_flatMap.mpr ⟨p, List.mem_of_find?_eq_some hfind, hl⟩

/-- Whether a leaf asks for a token; a set of kinds with the end of the input in it
    does not. -/
def Leaf.omitsEnd : Leaf → Bool
  | .oneOf kinds => !kinds.contains .endOfInput
  | _ => true

/-- No set of kinds asks for the end of the input. -/
def SetsOmitEnd (g : Grammar) : Prop := ∀ l ∈ g.leaves, l.omitsEnd = true

instance (g : Grammar) : Decidable g.SetsOmitEnd :=
  inferInstanceAs (Decidable (∀ l ∈ g.leaves, l.omitsEnd = true))

namespace Leaf

/-- Whether a leaf rejects every token of a kind whose text is unlike some words. -/
def rejects (words : List String) (next : Option Token.Kind) : Leaf → Bool
  | .kind k => next != some k
  | .literal text => words.contains text || next == none
  | .oneOf kinds => !next.any kinds.contains
  | .identifier _ bindable => next != some (if bindable then .bindVariable else .identifier)
  | .stringLiteral _ => next != some .string

/-- Whether a leaf accepts every token of a kind. -/
def admits (k : Token.Kind) : Leaf → Bool
  | .kind k' => k == k'
  | .literal _ => false
  | .oneOf kinds => kinds.contains k
  | .identifier _ bindable => k == if bindable then .bindVariable else .identifier
  | .stringLiteral _ => k == .string

variable {t : Token} {l : Leaf}

/-- A leaf that rejects a kind rejects every token of it that is none of the words.
    The kind decides for a leaf that goes by kinds, and the text for one that goes
    by words. -/
theorem accepts_of_rejects {words : List String} (hunlike : t.Unlike words)
    (h : l.rejects words (some t.kind) = true) : l.accepts t = false := by
  cases l with
  | literal text =>
    apply hunlike
    simpa [rejects] using h
  | kind k => simpa [rejects, accepts] using h
  | oneOf kinds => simpa [rejects, accepts] using h
  | identifier description bindable => simpa [rejects, accepts] using h
  | stringLiteral description => simpa [rejects, accepts] using h

/-- A leaf that admits a kind accepts every token of it, whatever its text is. -/
theorem accepts_of_admits (h : l.admits t.kind = true) : l.accepts t = true := by
  cases l with
  | literal text => cases h
  | _ => exact h

end Leaf

end Grammar

end SqlStatement

import SqlStatement.Proofs.Grammar.Leaves
import SqlStatement.Proofs.Match.Foreseen
import SqlStatement.Proofs.Match.Soundness

namespace SqlStatement

namespace Grammar

/-- A token of some kind, or what a production is known to match, with the kind of
    its first token. A scene is laid out from such pieces, from the end. -/
inductive Piece where
  | token (kind : Token.Kind)
  | production (name : String) (first : Token.Kind)

namespace Piece

/-- The kind of the first token of a piece. -/
def first : Piece → Token.Kind
  | token kind => kind
  | production _ first => first

/-- Whether a leaf takes the piece, which must be a token for it. -/
def admits (l : Leaf) : Piece → Bool
  | token kind => l.admits kind
  | production _ _ => false

/-- The production that a piece is known to be, if it is one. -/
def known? : Piece → Option String
  | token _ => none
  | production name _ => some name

end Piece

/-- The kind of the next token at a place, or of the one behind all pieces. -/
def kindAt (next : Option Token.Kind) : List Piece → Nat → Option Token.Kind
  | [], _ => next
  | p :: _, 0 => some p.first
  | _ :: ps, place + 1 => kindAt next ps place

section Scene

variable (words : Token.Kind → List String) (next : Option Token.Kind)

/-- What is known of some pieces and what is behind them, where tokens of a kind are
    not read as some words. A forecast for it holds wherever there are such tokens. -/
def scene (pieces : List Piece) : Sight where
  last := pieces.length
  rejects place l :=
    l.rejects (((kindAt next pieces place).map words).getD []) (kindAt next pieces place)
  accepts place l := pieces[place]?.any (·.admits l)
  known place := pieces[place]?.bind (·.known?)

/-- The next token of an input is of a kind, or there is none, and it is not read as
    one of some words. -/
structure Seen (tokens : Array Token) (i : Nat) (kind : Option Token.Kind) : Prop where
  kind : tokens[i]?.map (·.kind) = kind
  unlike : ∀ t, tokens[i]? = some t → t.Unlike (words t.kind)

variable {words next} {tokens : Array Token} {i : Nat} {g : Grammar} {pieces : List Piece}

/-- What a leaf rejects by kind it rejects here, because the token is none of the
    words that could make it accept. -/
theorem Seen.rejects {kind : Option Token.Kind} (h : Seen words tokens i kind) {l : Leaf}
    (hl : l.rejects ((kind.map words).getD []) kind = true) :
    ∀ t, tokens[i]? = some t → l.accepts t = false := by
  intro t ht
  have hkind := h.kind
  rw [ht] at hkind
  subst hkind
  exact Leaf.accepts_of_rejects (h.unlike t ht) hl

/-- What is seen to be of a kind is a token of the input. -/
theorem Seen.exists_token {kind : Token.Kind} (h : Seen words tokens i (some kind)) :
    ∃ t, tokens[i]? = some t ∧ t.kind = kind ∧ i < tokens.size := by
  obtain ⟨t, ht, hkind⟩ := Option.map_eq_some_iff.mp h.kind
  obtain ⟨hlt, -⟩ := Array.getElem?_eq_some_iff.mp ht
  exact ⟨t, ht, hkind, hlt⟩

namespace Stage

/-- No pieces, in front of what is next. -/
def finish (inner : List Tree.Key) (cost levels : Nat) (hnext : Seen words tokens i next) :
    Stage g (scene words next []) tokens where
  position _ := i
  inner := inner
  cost := cost
  levels := levels
  ascends hlt hle := absurd (Nat.lt_of_lt_of_le hlt hle) (Nat.not_lt_zero _)
  within hlt hle := absurd (Nat.lt_of_lt_of_le hlt hle) (Nat.lt_irrefl _)
  rejects _ hl := hnext.rejects hl
  accepts hl := by cases hl
  known hknown := by cases hknown

variable (st : Stage g (scene words next pieces) tokens)

/-- One more place in front. -/
def before (start : Nat) : Nat → Nat
  | 0 => start
  | place + 1 => st.position place

/-- One more place in front of the others keeps their order. It is enough that it
    lies in front of the first of them. -/
theorem before_ascends (hlt : i < st.position 0) {p q : Nat} (hpq : p < q)
    (hq : q ≤ pieces.length + 1) : st.before i p < st.before i q := by
  obtain ⟨q, rfl⟩ : ∃ q', q = q' + 1 := ⟨q - 1, by omega⟩
  cases p with
  | succ p => exact st.ascends (by omega) (by exact Nat.le_of_succ_le_succ hq)
  | zero =>
    rcases Nat.eq_zero_or_pos q with rfl | hpos
    · exact hlt
    · exact Nat.lt_trans hlt (st.ascends hpos (Nat.le_of_succ_le_succ hq))

/-- And it is a place of the input if the others are. -/
theorem before_within (hle : st.position 0 ≤ tokens.size) {p : Nat} (hpos : 0 < p)
    (hp : p ≤ pieces.length + 1) : st.before i p ≤ tokens.size := by
  obtain ⟨p, rfl⟩ : ∃ p', p = p' + 1 := ⟨p - 1, by omega⟩
  rcases Nat.eq_zero_or_pos p with rfl | hpos
  · exact hle
  · exact st.within hpos (Nat.le_of_succ_le_succ hp)

/-- What leaves reject at the new place follows from the kind of its token, and at
    the others from what was known. -/
theorem before_rejects {p : Piece} (hseen : Seen words tokens i (some p.first)) {place : Nat}
    {l : Leaf} (hplace : place ≤ pieces.length + 1)
    (hl : (scene words next (p :: pieces)).rejects place l = true) :
    ∀ t, tokens[st.before i place]? = some t → l.accepts t = false := by
  cases place with
  | zero => exact hseen.rejects hl
  | succ place => exact st.rejects (Nat.le_of_succ_le_succ hplace) hl

/-- A token in front. -/
def token {kind : Token.Kind} (hseen : Seen words tokens i (some kind))
    (hnext : st.position 0 = i + 1) :
    Stage g (scene words next (.token kind :: pieces)) tokens where
  position := st.before i
  inner := st.inner
  cost := st.cost
  levels := st.levels
  ascends := st.before_ascends (by omega)
  within := st.before_within (by
    obtain ⟨_, -, -, hlt⟩ := hseen.exists_token
    omega)
  rejects := st.before_rejects hseen
  accepts {p l} hl := by
    cases p with
    | zero =>
      obtain ⟨t, ht, rfl, -⟩ := hseen.exists_token
      exact ⟨Nat.succ_pos _, hnext, t, ht, Leaf.accepts_of_admits hl⟩
    | succ p =>
      obtain ⟨hlt, hrest⟩ := st.accepts hl
      exact ⟨Nat.succ_lt_succ hlt, hrest⟩
  known {p name} hknown := by
    cases p with
    | zero => cases hknown
    | succ p =>
      obtain ⟨hlt, hrest⟩ := st.known hknown
      exact ⟨Nat.succ_lt_succ hlt, hrest⟩

/-- A known production in front. -/
def production {name : String} {first : Token.Kind} (hseen : Seen words tokens i (some first))
    (hlt : i < st.position 0) (hle : st.position 0 ≤ tokens.size)
    (h : g.Runs tokens name st.inner st.levels st.cost i (st.position 0)) :
    Stage g (scene words next (.production name first :: pieces)) tokens where
  position := st.before i
  inner := st.inner
  cost := st.cost
  levels := st.levels
  ascends := st.before_ascends hlt
  within := st.before_within hle
  rejects := st.before_rejects hseen
  accepts {p l} hl := by
    cases p with
    | zero => cases hl
    | succ p =>
      obtain ⟨hlt, hrest⟩ := st.accepts hl
      exact ⟨Nat.succ_lt_succ hlt, hrest⟩
  known {p name'} hknown := by
    cases p with
    | zero =>
      cases hknown
      exact ⟨Nat.succ_pos _, h⟩
    | succ p =>
      obtain ⟨hlt, hrest⟩ := st.known hknown
      exact ⟨Nat.succ_lt_succ hlt, hrest⟩

end Stage

end Scene

section Settling

variable {g : Grammar} {s : Sight} {c : Context} {levels place : Nat}

/-- How a term ends, with a value and a place, or without if it fails. -/
def Term.outlook (g : Grammar) (s : Sight) (levels place : Nat) (t : Term) :
    Option (Option (List Sign × Nat)) :=
  (t.forecast s (g.reference s levels) place).map (·.found)

/-- How a sequence ends. -/
def Sequence.outlook (g : Grammar) (s : Sight) (levels place : Nat) (b : Sequence) :
    Option (Option ((Bool × List Sign) × Nat)) :=
  (b.forecast s (g.reference s levels) place).map (·.found)

/-- A sequence that is seen to fail settles to nothing. What it costs is not asked
    for. -/
theorem Sequence.settles_none_of_outlook (st : Stage g s c.tokens) (hplace : place ≤ s.last)
    {b : Sequence} (h : b.outlook g s levels place = some none) :
    b.Settles g c (st.position place) none (st.position place) := by
  obtain ⟨f, hf, hfound⟩ := Option.map_eq_some_iff.mp h
  cases b.fits (foresees_reference st levels rfl) hplace hf with
  | refuses hspends => exact ⟨_, _, hspends⟩
  | finds => cases hfound

/-- A term that is seen to fail settles to nothing. How a term ends in front of a
    kind of token is thereby computed. -/
theorem Term.settles_none_of_outlook (st : Stage g s c.tokens) (hplace : place ≤ s.last)
    {t : Term} (h : t.outlook g s levels place = some none) :
    t.Settles g c (st.position place) none (st.position place) := by
  obtain ⟨f, hf, hfound⟩ := Option.map_eq_some_iff.mp h
  cases t.fits (foresees_reference st levels rfl) hplace hf with
  | refuses hspends => exact ⟨_, _, hspends⟩
  | finds => cases hfound

/-- A term that goes nowhere leaves no tree. A leaf always goes somewhere, and a
    node covers a token. -/
theorem Term.settles_nil_of_outlook (st : Stage g s c.tokens) (hplace : place ≤ s.last)
    (hsize : st.position place ≤ c.tokens.size) {t : Term} {signs : List Sign}
    (h : t.outlook g s levels place = some (some (signs, place))) :
    t.Settles g c (st.position place) (some []) (st.position place) := by
  obtain ⟨f, hf, hfound⟩ := Option.map_eq_some_iff.mp h
  cases t.fits (foresees_reference st levels rfl) hplace hf with
  | refuses => cases hfound
  | @finds _ nodes _ price hle hlast hshows hspends =>
    cases hfound
    obtain ⟨houtcome, hstate⟩ := hspends _ (Nat.le_refl _) 0
    have hderives :=
      (Matcher.realizes_termMatcher g c.tokens _ t c _ rfl hsize).matched rfl houtcome
    rw [hstate] at hderives
    obtain rfl := hderives.nil_of_eq rfl
    exact ⟨_, _, hspends⟩

end Settling

end Grammar

end SqlStatement

import SqlStatement.Proofs.Sqlite.Chain

namespace SqlStatement.Sqlite

variable {α β : Type} {tokens : Array Token} {i j k : Nat}

/-- The operands of a chain have their places, and its operators are the tokens
    between them. -/
inductive Placed (tokens : Array Token) (R : α → Nat → Nat → Prop) : Chain α → Nat → Nat → Prop
  | single {o : α} {i j : Nat} (ho : R o i j) : Placed tokens R (.single o) i j
  | link {o : α} {op : Operator} {c : Chain α} {i j k : Nat} (ho : R o i j)
      (hop : tokens[j]? = some op.token) (hrest : Placed tokens R c (j + 1) k) :
      Placed tokens R (.link o op c) i k

/-- What may stand behind a chain with operators of some tiers: the end, a closing
    parenthesis or an operator of another tier. -/
inductive Follow (ts : List Tier) : Option Token → Prop
  | finish : Follow ts none
  | close (right : Mark [.symbol .rightParen]) : Follow ts (some right.token)
  | operator (op : Operator) (hop : op.tier ∉ ts) : Follow ts (some op.token)

namespace Follow

variable {ts : List Tier} {next : Option Token}

/-- What may stand behind a chain with operators of more tiers may stand behind one
    of fewer. -/
theorem mono {us : List Tier} (h : Follow ts next) (hsub : us ⊆ ts) : Follow us next := by
  cases h with
  | finish => exact .finish
  | close right => exact .close right
  | operator op hop => exact .operator op fun hmem => hop (hsub hmem)

/-- The kinds of what may follow, none at the end of the input. -/
def kinds (ts : List Tier) : List (Option Token.Kind) :=
  none :: some (.symbol .rightParen) ::
    ((Tier.all.filter (· ∉ ts)).flatMap Tier.operators).map some

/-- There are only so many kinds that may follow, so what the table does in front of
    them can be computed. -/
theorem kind_mem (h : Follow ts next) : next.map (·.kind) ∈ kinds ts := by
  cases h with
  | finish => exact List.mem_cons_self
  | close right =>
    have hkind := List.mem_singleton.mp right.kind_mem
    simp [kinds, hkind]
  | operator op hop =>
    apply List.mem_cons_of_mem
    apply List.mem_cons_of_mem
    apply List.mem_map_of_mem
    apply List.mem_flatMap.mpr
    exact ⟨op.tier, by simpa [op.tier.mem_all] using hop, op.mark.kind_mem⟩

/-- What may follow is no word that the table knows by its text. It is an operator,
    a closing parenthesis or nothing at all. -/
theorem unlike (h : Follow ts next) {t : Token} (ht : next = some t) : t.Unlike textWords := by
  subst ht
  cases h with
  | close right => exact right.unlike
  | operator op _ => exact op.mark.unlike

end Follow

namespace Chain

/-- Every operator is of some tier. -/
theorem within_all (c : Chain α) : c.Within Tier.all := by
  induction c with
  | single => trivial
  | link o op c ih => exact ⟨op.tier.mem_all, ih⟩

theorem Within.map {ts : List Tier} {c : Chain α} (h : c.Within ts) (f : α → β) :
    (c.map f).Within ts := by
  induction c with
  | single => trivial
  | link o op c ih => exact ⟨h.1, ih h.2⟩

/-- An operator in front of a piece is not one between pieces. -/
theorem Within.prepend {ts : List Tier} {pieces : Chain (Chain α)} (h : pieces.Within ts) (o : α)
    (op : Operator) : (pieces.prepend o op).Within ts := by
  cases pieces with
  | single => trivial
  | link => exact h

end Chain

namespace Placed

variable {R : α → Nat → Nat → Prop} {c : Chain α}

theorem map {S : β → Nat → Nat → Prop} {f : α → β} (h : Placed tokens R c i j)
    (hf : ∀ o i j, R o i j → S (f o) i j) : Placed tokens S (c.map f) i j := by
  induction h with
  | single ho => exact .single (hf _ _ _ ho)
  | link ho hop _ ih => exact .link (hf _ _ _ ho) hop ih

theorem prepend {Q : Chain α → Nat → Nat → Prop} {o : α} {op : Operator} {pieces : Chain (Chain α)}
    (h : Placed tokens Q pieces j k) (hpiece : ∀ piece m, Q piece j m → Q (.link o op piece) i m) :
    Placed tokens Q (pieces.prepend o op) i k := by
  cases h with
  | single ho => exact .single (hpiece _ _ ho)
  | link ho hop hrest => exact .link (hpiece _ _ ho) hop hrest

/-- The pieces of a chain have tighter operators only, and the operators between
    them are of the tier it is cut at. Every piece stays in its place. -/
theorem cut {t : Tier} {ts : List Tier} (h : Placed tokens R c i j)
    (hwithin : c.Within (t :: ts)) :
    Placed tokens (fun piece i j => Placed tokens R piece i j ∧ piece.Within ts) (c.cut t) i j ∧
      (c.cut t).Within [t] := by
  induction h with
  | single ho => exact ⟨.single ⟨.single ho, trivial⟩, trivial⟩
  | @link o op c i j k ho hop _ ih =>
    obtain ⟨htier, hrest⟩ := hwithin
    obtain ⟨hplaced, hbetween⟩ := ih hrest
    by_cases hcut : op.tier = t
    · rw [Chain.cut, if_pos hcut]
      exact ⟨.link ⟨.single ho, trivial⟩ hop hplaced, List.mem_singleton.mpr hcut, hbetween⟩
    · have htighter : op.tier ∈ ts := (List.mem_cons.mp htier).resolve_left hcut
      rw [Chain.cut, if_neg hcut]
      refine ⟨hplaced.prepend fun piece m hpiece => ?_, hbetween.prepend o op⟩
      exact ⟨.link ho hop hpiece.1, htighter, hpiece.2⟩

/-- Between operators of a looser tier, every operand is followed as the whole chain
    is. -/
theorem followed {t : Tier} {ts : List Tier} (h : Placed tokens R c i j) (hwithin : c.Within [t])
    (ht : t ∉ ts) (hfollow : Follow ts tokens[j]?) :
    Placed tokens (fun o i j => R o i j ∧ Follow ts tokens[j]?) c i j := by
  induction h with
  | single ho => exact .single ⟨ho, hfollow⟩
  | @link o op c i j k ho hop _ ih =>
    obtain ⟨htier, hrest⟩ := hwithin
    refine .link ⟨ho, ?_⟩ hop (ih hrest hfollow)
    rw [hop]
    apply Follow.operator
    rw [List.mem_singleton.mp htier]
    exact ht

end Placed

/-- Some tokens stand between two places of the input. -/
def Spelled (tokens : Array Token) (ts : List Token) (i j : Nat) : Prop :=
  j = i + ts.length ∧ ∀ n t, ts[n]? = some t → tokens[i + n]? = some t

namespace Spelled

variable {t : Token} {ts us : List Token}

theorem whole (ts : List Token) : Spelled ts.toArray ts 0 ts.length := by
  refine ⟨(Nat.zero_add _).symm, fun n t h => ?_⟩
  rw [Nat.zero_add]
  simpa using h

theorem head (h : Spelled tokens (t :: ts) i j) : tokens[i]? = some t := h.2 0 t rfl

theorem tail (h : Spelled tokens (t :: ts) i j) : Spelled tokens ts (i + 1) j := by
  obtain ⟨hstop, hts⟩ := h
  constructor
  · rw [List.length_cons] at hstop
    omega
  · intro n u hn
    have hu := hts (n + 1) u hn
    rw [← Nat.add_assoc] at hu
    rw [Nat.add_right_comm]
    exact hu

theorem one (h : Spelled tokens [t] i j) : tokens[i]? = some t ∧ j = i + 1 :=
  ⟨h.head, h.1⟩

/-- Two rows of tokens one behind the other stand side by side. The place between
    them is the end of the one and the start of the other. -/
theorem split (h : Spelled tokens (ts ++ us) i k) :
    ∃ j, Spelled tokens ts i j ∧ Spelled tokens us j k := by
  obtain ⟨hstop, hall⟩ := h
  refine ⟨i + ts.length, ⟨rfl, fun n t hn => ?_⟩, ?_, fun n t hn => ?_⟩
  · obtain ⟨hlt, -⟩ := List.getElem?_eq_some_iff.mp hn
    apply hall
    rw [List.getElem?_append_left hlt]
    exact hn
  · rw [List.length_append] at hstop
    omega
  · rw [Nat.add_assoc]
    apply hall
    rw [List.getElem?_append_right (Nat.le_add_right _ _), Nat.add_sub_cancel_left]
    exact hn

end Spelled

end SqlStatement.Sqlite

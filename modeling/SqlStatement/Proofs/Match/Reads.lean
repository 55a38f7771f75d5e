import SqlStatement.Proofs.Match.Walk
import SqlStatement.Proofs.Tree.Compact

namespace SqlStatement.Grammar

variable {g : Grammar} {c : Context} {i j k : Nat} {parts rest : List String}

/-- A term settles to trees that show some parts of the compact view. The rules for
    this follow the shape of a table, so an input is read by applying them term by
    term. -/
def Term.Reads (g : Grammar) (c : Context) (t : Term) (start : Nat) (parts : List String)
    (stop : Nat) : Prop :=
  ∃ nodes, t.Settles g c start (some nodes) stop ∧ Tree.Shows c.tokens nodes parts

/-- A sequence settles, committed or not, to trees that show some parts. -/
def Sequence.Reads (g : Grammar) (c : Context) (s : Sequence) (committed : Bool) (start : Nat)
    (parts : List String) (stop : Nat) : Prop :=
  ∃ nodes, s.Settles g c start (some (committed, nodes)) stop ∧ Tree.Shows c.tokens nodes parts

/-- Terms in order read some parts, and `gain` of them get past a token. -/
def Row (g : Grammar) (c : Context) (start : Nat) (ts : List Term) (parts : List String)
    (gain stop : Nat) : Prop :=
  ∃ nodes, Walk g c start ts nodes gain stop ∧ Tree.Shows c.tokens nodes parts

/-- A production settles to a tree that shows some parts. -/
def Calls (g : Grammar) (c : Context) (name : String) (start : Nat) (parts : List String)
    (stop : Nat) : Prop :=
  ∃ nodes, Matcher.Settles c start (fun d => g.matcher d name)
    (some (.node (.production name) ⟨start, stop⟩ nodes)) stop ∧
    Tree.Shows c.tokens [.node (.production name) ⟨start, stop⟩ nodes] parts

namespace Row

theorem nil : Row g c i [] [] 0 i := ⟨[], .nil, .nil⟩

/-- A term that gets past a token counts towards the commitment and shows its parts
    first. -/
theorem step {t : Term} {ts : List Term} {gain : Nat} (hlt : i < j) (ht : t.Reads g c i parts j)
    (hrest : Row g c j ts rest gain k) : Row g c i (t :: ts) (parts ++ rest) (gain + 1) k := by
  obtain ⟨nodes, hsettles, hshows⟩ := ht
  obtain ⟨more, hwalk, hmore⟩ := hrest
  exact ⟨nodes ++ more, .step hlt hsettles hwalk, hshows.append hmore⟩

/-- A term that matches nothing is passed over. -/
theorem skip {t : Term} {ts : List Term} {gain : Nat} (ht : t.Settles g c i (some []) i)
    (hrest : Row g c i ts parts gain j) : Row g c i (t :: ts) parts gain j := by
  obtain ⟨nodes, hwalk, hshows⟩ := hrest
  exact ⟨nodes, .skip ht hwalk, hshows⟩

theorem one {t : Term} (hlt : i < j) (ht : t.Reads g c i parts j) : Row g c i [t] parts 1 j := by
  have h := step hlt ht nil
  rw [List.append_nil] at h
  exact h

variable {ts : List Term} {gain : Nat}

/-- A sequence reads what the row of its terms reads, and has committed if enough of
    them got past a token. -/
theorem reads (h : Row g c i ts parts gain j) (commit : Nat) :
    Sequence.Reads g c ⟨ts, commit⟩ (decide (commit ≤ gain)) i parts j := by
  obtain ⟨nodes, hwalk, hshows⟩ := h
  exact ⟨nodes, Sequence.settles_of_walk hwalk commit, hshows⟩

/-- The usual case of it, with the commitment made. -/
theorem commits {commit : Nat} (h : Row g c i ts parts gain j) (hcommit : commit ≤ gain) :
    Sequence.Reads g c ⟨ts, commit⟩ true i parts j := by
  have hreads := h.reads commit
  rw [decide_eq_true hcommit] at hreads
  exact hreads

end Row

namespace Term

theorem reads_leaf {l : Leaf} {t : Token} (ht : c.tokens[i]? = some t) (hl : l.accepts t = true) :
    Reads g c (.leaf l) i [t.text] (i + 1) :=
  ⟨_, settles_leaf ht hl, .leaf ht _⟩

/-- An alternation reads what its first candidate that does not fail reads, if that
    one commits. -/
theorem reads_alternation {front : List Sequence} {s : Sequence} (hlt : i < j)
    (hfront : ∀ s ∈ front, s.Settles g c i none i) (hs : s.Reads g c true i parts j)
    (more : List Sequence) : Reads g c (.alternation (front ++ s :: more)) i parts j := by
  obtain ⟨nodes, hsettles, hshows⟩ := hs
  exact ⟨_, settles_alternation hfront hsettles, hshows.covering (by simp) hlt⟩

/-- The case in which the first candidate is taken. -/
theorem reads_alternation_first {s : Sequence} (hlt : i < j) (hs : s.Reads g c true i parts j)
    (more : List Sequence) : Reads g c (.alternation (s :: more)) i parts j := by
  have hnone : ∀ s ∈ ([] : List Sequence), s.Settles g c i none i := by simp
  exact reads_alternation hlt hnone hs more

theorem reads_production {name : String} (hlt : i < j) (h : g.Calls c name i parts j) :
    Reads g c (.production name) i parts j := by
  obtain ⟨nodes, hsettles, hshows⟩ := h
  exact ⟨_, settles_production rfl hlt hsettles, hshows⟩

end Term

/-- The turns of a repetition, from a later one on, read some parts. -/
def Rounds (g : Grammar) (c : Context) (item : Sequence) (separator : Option Sequence)
    (first : Bool) (start count : Nat) (parts : List String) (stop : Nat) : Prop :=
  ∃ nodes, Turns g c item separator first start count nodes stop ∧ Tree.Shows c.tokens nodes parts

namespace Rounds

variable {item : Sequence} {separator : Option Sequence} {first committed : Bool} {count : Nat}

/-- The rounds are over where the next one would start with something that fails. -/
theorem stop (h : (opening item (if first then none else separator)).Settles g c i none i) :
    Rounds g c item separator first i 0 [] i :=
  ⟨[], .stop h, .nil⟩

/-- A round without a separator. It has to get past a token, or the repetition would
    end with it. -/
theorem bare (hnone : (if first then none else separator) = none) (hlt : i < j)
    (hle : j ≤ c.tokens.size) (hitem : item.Reads g c committed i parts j)
    (hrest : Rounds g c item separator false j count rest k) :
    Rounds g c item separator first i (count + 1) (parts ++ rest) k := by
  obtain ⟨nodes, hsettles, hshows⟩ := hitem
  obtain ⟨more, hturns, hmore⟩ := hrest
  exact ⟨_, .bare hnone hlt hle hsettles hturns, (hshows.covering (by simp) hlt).append hmore⟩

/-- A round with a separator in front of the item. Only later rounds have one. -/
theorem separated {s : Sequence} {front : List String} {committed' : Bool} {m : Nat}
    (him : i < m) (hmj : m < j) (hle : j ≤ c.tokens.size)
    (hs : s.Reads g c committed i front m) (hitem : item.Reads g c committed' m parts j)
    (hrest : Rounds g c item (some s) false j count rest k) :
    Rounds g c item (some s) false i (count + 1) (front ++ parts ++ rest) k := by
  obtain ⟨nodes, hsettles, hshows⟩ := hs
  obtain ⟨nodes', hsettles', hshows'⟩ := hitem
  obtain ⟨more, hturns, hmore⟩ := hrest
  refine ⟨_, .separated rfl (Nat.lt_trans him hmj) hle hsettles hsettles' hturns, ?_⟩
  exact ((hshows.covering (by simp) him).append (hshows'.covering (by simp) hmj)).append hmore

theorem of_bare (h : Rounds g c item none first i count parts j) (first' : Bool) :
    Rounds g c item none first' i count parts j := by
  obtain ⟨nodes, hturns, hshows⟩ := h
  exact ⟨nodes, hturns.of_bare first', hshows⟩

/-- A repetition reads what its rounds read. -/
theorem reads {least : Nat} (hlt : i < j) (hleast : least ≤ count)
    (h : Rounds g c item separator true i count parts j) :
    Term.Reads g c (.repetition item separator least) i parts j := by
  obtain ⟨nodes, hturns, hshows⟩ := h
  exact ⟨_, Term.settles_repetition hleast hturns, hshows.covering (by simp) hlt⟩

end Rounds

/-- A production reads what its body reads, inside itself. -/
theorem calls_of_reads {name : String} {p : Production} {committed : Bool}
    (hfind : g.find? name = some p)
    (h : p.body.Reads g { c with stack := name :: c.stack } committed i parts j) :
    g.Calls c name i (Parsed.enclose .plain name parts) j := by
  obtain ⟨nodes, hsettles, hshows⟩ := h
  exact ⟨nodes, settles_call hfind hsettles, hshows.production name _⟩

end SqlStatement.Grammar

import SqlStatement.Proofs.Match.Forecast
import SqlStatement.Proofs.Match.Walk
import SqlStatement.Tree.Parsed

namespace SqlStatement

namespace Tree

/-- What a tree is asked for. -/
inductive Key where
  | production (name : String)
  | identifier (description : String) (index : Nat)
  deriving DecidableEq, Repr

/-- What a tree is asked for itself, if it is a production or an identifier. -/
def key? : Tree → Option Key
  | .leaf (.identifier description) index => some (.identifier description index)
  | .node (.production name) _ _ => some (.production name)
  | _ => none

/-- The productions and identifiers of some trees, in preorder. -/
def keys (ts : List Tree) : List Key := (forestSubtrees ts).filterMap key?

/-- Trees side by side are asked for what each of them is, in order. -/
theorem keys_append (ts us : List Tree) : keys (ts ++ us) = keys ts ++ keys us := by
  unfold keys
  rw [forestSubtrees_append, List.filterMap_append]

/-- A node is asked for itself and then for what is below it. A node of a kind that
    no query asks for has no key of its own. -/
theorem keys_node (label : Label) (span : Span) (children : List Tree) :
    keys [.node label span children] =
      (node label span children).key?.toList ++ keys children := by
  unfold keys
  rw [forestSubtrees, subtrees, forestSubtrees, List.append_nil, List.filterMap_cons]
  cases (node label span children).key? <;> rfl

/-- A part that is no production adds nothing to what its children are asked for,
    and without a token there are no children. -/
theorem keys_covering {label : Label} {start stop : Nat} (children : List Tree)
    (hlabel : ∀ name, label ≠ .production name) :
    keys (covering label start stop children) = if start < stop then keys children else [] := by
  unfold covering
  split
  · have hkey : (node label ⟨start, stop⟩ children).key? = none := by
      cases label with
      | production name => exact absurd rfl (hlabel name)
      | _ => rfl
    rw [keys_node, hkey]
    rfl
  · rfl

/-- What a tree is asked for comes from its subtrees in preorder. -/
theorem keys_root (t : Tree) : keys [t] = t.descendants.filterMap key? := by
  unfold keys
  rw [descendants_eq_subtrees, forestSubtrees, forestSubtrees, List.append_nil]

end Tree

namespace Parsed

/-- The nodes that are found for a name are counted by the keys of the root. A node
    is found by its name, and that is its key. -/
theorem length_findAll (p : Parsed) (name : String) :
    (p.findAll name).length = (Tree.keys [p.root]).count (.production name) := by
  rw [Tree.keys_root, findAll, ← List.countP_eq_length_filter, List.count, List.countP_filterMap]
  congr 1
  funext t
  cases t with
  | leaf role index => cases role <;> rfl
  | node label span children => cases label <;> simp [Tree.production?, Tree.key?]

/-- The identifier that is asked for, with its text. -/
def identified? (p : Parsed) : Tree.Key → Option (String × String)
  | .identifier description index => some (description, p.textAt index)
  | .production _ => none

/-- The identifiers that a parse lists are those among the keys of its root. Their
    texts are looked up by the index in the key. -/
theorem identifiers_eq (p : Parsed) :
    p.identifiers = (Tree.keys [p.root]).filterMap p.identified? := by
  rw [Tree.keys_root, List.filterMap_filterMap, identifiers]
  congr 1
  funext t
  cases t with
  | leaf role index => cases role <;> rfl
  | node label span children => cases label <;> rfl

end Parsed

namespace Grammar

/-- Wherever a production is called, it matches a range of tokens with a tree that
    is asked for some things, and spends the same fuel. -/
def Runs (g : Grammar) (tokens : Array Token) (name : String) (keys : List Tree.Key)
    (levels cost start stop : Nat) : Prop :=
  ∀ c : Context, c.tokens = tokens → ∃ tree : Tree, tree.span = ⟨start, stop⟩ ∧
    Tree.keys [tree] = keys ∧
    Matcher.Spends c levels cost start (fun d => g.matcher d name) (some tree) stop

/-- The places of a sight in an input, and what is known of them, which holds there.
    Where a forecast speaks of the known production, a stage says what it costs and
    what its tree is asked for. -/
structure Stage (g : Grammar) (s : Sight) (tokens : Array Token) where
  position : Nat → Nat
  /-- What the tree of the known production is asked for. -/
  inner : List Tree.Key
  /-- The fuel that the known production costs. -/
  cost : Nat
  /-- The levels of nesting that are enough for the known production. -/
  levels : Nat
  ascends : ∀ {p q}, p < q → q ≤ s.last → position p < position q
  within : ∀ {p}, 0 < p → p ≤ s.last → position p ≤ tokens.size
  rejects : ∀ {p l}, p ≤ s.last → s.rejects p l = true →
    ∀ t, tokens[position p]? = some t → l.accepts t = false
  accepts : ∀ {p l}, s.accepts p l = true → p < s.last ∧ position (p + 1) = position p + 1 ∧
    ∃ t, tokens[position p]? = some t ∧ l.accepts t = true
  known : ∀ {p name}, s.known p = some name →
    p < s.last ∧ g.Runs tokens name inner levels cost (position p) (position (p + 1))

variable {g : Grammar} {s : Sight} {tokens : Array Token}

namespace Stage

variable (st : Stage g s tokens)

/-- What a sign stands for. -/
def meaning : Sign → List Tree.Key
  | .production name => [.production name]
  | .identifier description place => [.identifier description (st.position place)]
  | .known => st.inner

/-- Trees are asked for what some signs stand for. -/
def Shows (signs : List Sign) (nodes : List Tree) : Prop :=
  Tree.keys nodes = signs.flatMap st.meaning

/-- A sequence commits as said and leaves trees as said. -/
def Ends (x : Bool × List Sign) (y : Bool × List Tree) : Prop :=
  y.1 = x.1 ∧ st.Shows x.2 y.2

/-- A repetition counts as said and leaves trees as said. -/
def Counts (x : Nat × List Sign) (y : Nat × List Tree) : Prop :=
  y.1 = x.1 ∧ st.Shows x.2 y.2

/-- A turn is over or leaves trees, as said. -/
inductive Goes : Option (List Sign) → Matcher.Turn → Prop
  | ended : Goes none .over
  | next {signs : List Sign} {nodes : List Tree} (h : st.Shows signs nodes) :
      Goes (some signs) (.next nodes)

variable {st} {start stop place : Nat} {signs more : List Sign} {nodes trees : List Tree}

theorem Shows.nil : st.Shows [] [] := rfl

theorem Shows.append (h : st.Shows signs nodes) (hmore : st.Shows more trees) :
    st.Shows (signs ++ more) (nodes ++ trees) := by
  unfold Shows at *
  rw [Tree.keys_append, h, hmore, List.flatMap_append]

/-- A leaf is asked for at the position of its place. -/
theorem Shows.leaf (l : Leaf) (place : Nat) :
    st.Shows (l.signs place) [.leaf l.role (st.position place)] := by
  cases l <;> rfl

/-- Places are in the order of their positions. So a node covers a token just when
    its places differ. -/
theorem position_lt (hstart : start ≤ s.last) (hstop : stop ≤ s.last) :
    st.position start < st.position stop ↔ start < stop := by
  refine ⟨fun hlt => ?_, fun hlt => st.ascends hlt hstop⟩
  rcases Nat.lt_trichotomy start stop with h | rfl | h
  · exact h
  · exact absurd hlt (Nat.lt_irrefl _)
  · exact absurd (Nat.lt_trans hlt (st.ascends h hstart)) (Nat.lt_irrefl _)

/-- A node over some places has the signs of its children, if a token is among
    them. -/
theorem Shows.covering (h : st.Shows signs nodes) (label : Tree.Label)
    (hlabel : ∀ name, label ≠ .production name) (hle : start ≤ stop) (hlast : stop ≤ s.last) :
    st.Shows (covered start stop signs)
      (Tree.covering label (st.position start) (st.position stop) nodes) := by
  unfold Shows at *
  rw [Tree.keys_covering nodes hlabel, h]
  simp only [covered, position_lt (Nat.le_trans hle hlast) hlast]
  split <;> rfl

/-- A reference leaves a tree if it covers a token. The forecast leaves the signs of
    an empty one out as well. -/
theorem Shows.reference {tree : Tree} (hspan : tree.span = ⟨st.position start, st.position stop⟩)
    (h : st.Shows signs [tree]) (hle : start ≤ stop) (hlast : stop ≤ s.last) :
    st.Shows (covered start stop signs) (if tree.span.isEmpty then [] else [tree]) := by
  rw [hspan]
  rcases Nat.lt_or_eq_of_le hle with hlt | rfl
  · have hne := Nat.ne_of_lt (st.ascends hlt hlast)
    simpa [covered, hlt, Span.isEmpty, hne] using h
  · simpa [covered, Span.isEmpty] using Shows.nil

/-- A production puts its own sign in front of those of its children. -/
theorem Shows.production (h : st.Shows signs nodes) (name : String) (span : Span) :
    st.Shows (.production name :: signs) [.node (.production name) span nodes] := by
  unfold Shows at *
  rw [Tree.keys_node, h]
  rfl

end Stage

/-- The matchers of a family end as a forecast says, with a value that fits the one
    it gives, and spend the fuel that it says. -/
inductive Forecast.Fits {α β : Type} (st : Stage g s tokens) (c : Context) (levels : Nat)
    (R : β → α → Prop) (start place : Nat) (family : Nat → Matcher α) : Forecast β → Prop
  | refuses {price : Price} (h : Matcher.Spends c levels (price.fuel st.cost) start family none
      (st.position place)) : Fits st c levels R start place family ⟨none, price⟩
  | finds {b : β} {a : α} {stop : Nat} {price : Price} (hle : place ≤ stop) (hlast : stop ≤ s.last)
      (hfits : R b a) (h : Matcher.Spends c levels (price.fuel st.cost) start family (some a)
      (st.position stop)) : Fits st c levels R start place family ⟨some (b, stop), price⟩

namespace Forecast.Fits

variable {α β : Type} {st : Stage g s tokens} {c : Context} {levels start place : Nat}
  {R : β → α → Prop} {family : Nat → Matcher α}

/-- What goes on as a forecast says, behind a part that costs as much as is put in
    front of it. -/
theorem after {start' : Nat} {family' : Nat → Matcher α} {f : Forecast β}
    (h : Fits st c levels R start place family f) (price : Price)
    (hbehind : ∀ {cost found stop}, Matcher.Spends c levels cost start family found stop →
      Matcher.Spends c levels (price.fuel st.cost + cost) start' family' found stop) :
    Fits st c levels R start' place family' (f.after price) := by
  cases h with
  | refuses h =>
    refine .refuses ?_
    rw [Price.fuel_add]
    exact hbehind h
  | finds hle hlast hfits h =>
    refine .finds hle hlast hfits ?_
    rw [Price.fuel_add]
    exact hbehind h

/-- A forecast fits another family that spends the same. In particular for one that
    starts at another place, if it goes to the start first. -/
theorem imp {start' : Nat} {family' : Nat → Matcher α} {f : Forecast β}
    (h : Fits st c levels R start place family f)
    (himp : ∀ {cost found stop}, Matcher.Spends c levels cost start family found stop →
      Matcher.Spends c levels cost start' family' found stop) :
    Fits st c levels R start' place family' f := by
  cases h with
  | refuses h => exact .refuses (himp h)
  | finds hle hlast hfits h => exact .finds hle hlast hfits (himp h)

/-- A charge in front is in the forecast as well. It costs one unit, whatever comes
    behind it. -/
theorem charged {f : Forecast β} (h : Fits st c levels R start place family f) :
    Fits st c levels R start place (fun d => Matcher.charge >>= fun _ => family d) f.charged := by
  refine h.after .charge fun h => ?_
  rw [Price.fuel_charge]
  exact .bind .charge h

variable {body : Nat → Matcher (Bool × List Tree)} {f : Forecast (Bool × List Sign)}

/-- A forecast of an optional part, given that of its body. A body that fails leaves
    no signs and costs what it has spent. -/
theorem optional (hplace : place ≤ s.last)
    (h : Fits st c levels st.Ends (st.position place) place body f) :
    Fits st c levels st.Shows (st.position place) place (fun d => Matcher.optional (body d))
      (f.optional place) := by
  cases h with
  | refuses h => exact .finds (Nat.le_refl _) hplace .nil (.optional_skipped h)
  | finds hle hlast hends h =>
    exact .finds hle hlast (hends.2.covering _ (by simp) hle hlast) (.optional h)

/-- A reference goes one level further down than the body. A production that covers
    no token leaves no sign, as its tree is left out. -/
theorem reference {name : String} {p : Production} (hfind : g.find? name = some p)
    (h : Fits st { c with stack := name :: c.stack } levels st.Ends (st.position place) place
      (fun d => p.body.matcher (g.matcher d)) f) :
    Fits st c (levels + 1) st.Shows (st.position place) place
      (fun d => (Term.production name).matcher (g.matcher d)) (f.reference name place).charged := by
  cases h with
  | refuses h =>
    refine .refuses ?_
    rw [Price.fuel_add, Price.fuel_charge]
    exact Term.spends_production_none (spends_call_none hfind h)
  | finds hle hlast hends h =>
    refine .finds hle hlast ((hends.2.production name _).reference rfl hle hlast) ?_
    rw [Price.fuel_add, Price.fuel_charge]
    exact Term.spends_production (spends_call hfind h)

section Repetition

variable {item : Nat → Matcher (Bool × List Tree)}

/-- A forecast of a repetition, given that of its turns. With too few turns it fails
    at the same cost. -/
theorem repetition {separator : Nat → Option (Matcher (Bool × List Tree))}
    {turns : Forecast (Nat × List Sign)} (least : Nat)
    (h : Fits st c levels st.Counts (st.position place) place
      (fun d => Matcher.iterate (item d) (separator d) true) turns) :
    Fits st c levels st.Shows (st.position place) place
      (fun d => Matcher.repetition (item d) (separator d) least)
      (turns.repetition place least) := by
  cases h with
  | refuses h => exact .refuses (.free_bind .position (.bind_failed h))
  | @finds x y stop price hle hlast hcounts h =>
    obtain ⟨count, signs⟩ := x
    obtain ⟨_, nodes⟩ := y
    obtain ⟨rfl, hshows⟩ := hcounts
    unfold Forecast.repetition
    dsimp only
    split
    · next hfew => exact .refuses (.repetition_failed hfew h)
    · next hleast =>
      have hcovers := hshows.covering .repetition (by simp) hle hlast
      exact .finds hle hlast hcovers (.repetition (Nat.not_lt.mp hleast) h)

/-- A turn ends as forecast, over or with trees. Where the item fails the turn is
    over, and it costs what the item has spent. -/
theorem turn {itemForecast : Nat → Option (Forecast (Bool × List Sign))}
    (hitem : ∀ {p f}, p ≤ s.last → itemForecast p = some f →
      Fits st c levels st.Ends (st.position p) p item f)
    {f : Forecast (Option (List Sign))} (hplace : place ≤ s.last)
    (h : turnForecast itemForecast none place = some f) :
    Fits st c levels st.Goes (st.position place) place (fun d => Matcher.turn (item d) none) f := by
  obtain ⟨f, hf, rfl⟩ := Option.map_eq_some_iff.mp h
  cases hitem hplace hf with
  | refuses hnone => exact .finds (Nat.le_refl _) hplace .ended (.turn_over hnone)
  | finds hle hlast hends hsome =>
    exact .finds hle hlast (.next (hends.2.covering _ (by simp) hle hlast)) (.turn hsome)

/-- A turn with a separator ends as forecast. A separator without an item behind it
    is an error, of which no forecast speaks. -/
theorem turn_separated {itemForecast separatorForecast : Nat → Option (Forecast (Bool × List Sign))}
    {separator : Nat → Matcher (Bool × List Tree)}
    (hitem : ∀ {p f}, p ≤ s.last → itemForecast p = some f →
      Fits st c levels st.Ends (st.position p) p item f)
    (hseparator : ∀ {p f}, p ≤ s.last → separatorForecast p = some f →
      Fits st c levels st.Ends (st.position p) p separator f)
    {f : Forecast (Option (List Sign))} (hplace : place ≤ s.last)
    (h : turnForecast itemForecast (some separatorForecast) place = some f) :
    Fits st c levels st.Goes (st.position place) place
      (fun d => Matcher.turn (item d) (some (separator d))) f := by
  obtain ⟨f, hf, h⟩ := Option.bind_eq_some_iff.mp h
  cases hseparator hplace hf with
  | refuses hnone =>
    cases h
    exact .finds (Nat.le_refl _) hplace .ended (.turn_separated_over hnone)
  | finds hle hlast hends hfront =>
    obtain ⟨f', hf', h⟩ := Option.bind_eq_some_iff.mp h
    cases hitem hlast hf' with
    | refuses => cases h
    | finds hle' hlast' hends' hback =>
      cases h
      have hcovers := (hends.2.covering .separator (by simp) hle hlast).append
        (hends'.2.covering .item (by simp) hle' hlast')
      refine .finds (Nat.le_trans hle hle') hlast' (.next hcovers) ?_
      · rw [Price.fuel_add]
        exact .turn_separated hfront hback

/-- The turns of a repetition end as forecast if each of them does. The induction is
    on the number of rounds that the forecast looks ahead. -/
theorem turns {itemForecast : Nat → Option (Forecast (Bool × List Sign))}
    {separatorForecast : Option (Nat → Option (Forecast (Bool × List Sign)))}
    {separator : Nat → Option (Matcher (Bool × List Tree))} (hc : c.tokens = tokens)
    (hturn : ∀ {first : Bool} {p f}, p ≤ s.last →
      turnForecast itemForecast (if first then none else separatorForecast) p = some f →
      Fits st c levels st.Goes (st.position p) p
        (fun d => Matcher.turn (item d) (if first then none else separator d)) f)
    {rounds : Nat} {first : Bool} {f : Forecast (Nat × List Sign)} (hplace : place ≤ s.last)
    (h : turnsForecast itemForecast separatorForecast rounds first place = some f) :
    Fits st c levels st.Counts (st.position place) place
      (fun d => Matcher.iterate (item d) (separator d) first) f := by
  subst hc
  induction rounds generalizing first place f with
  | zero => cases h
  | succ rounds ih =>
    obtain ⟨f, hf, h⟩ := Option.bind_eq_some_iff.mp h
    cases hturn hplace hf with
    | refuses => cases h
    | finds hle hlast hgoes hspends =>
      cases hgoes with
      | ended =>
        cases h
        have hcounts : st.Counts (0, []) (0, []) := ⟨rfl, .nil⟩
        refine .finds hle hlast hcounts ?_
        rw [Forecast.fuel_charged]
        exact .iterate_over (.iteration_over hspends)
      | next hshows =>
        dsimp only at h
        split at h
        · next hlt =>
          obtain ⟨f', hf', h⟩ := Option.bind_eq_some_iff.mp h
          cases ih hlast hf' with
          | refuses => cases h
          | finds hle' hlast' hcounts hrest =>
            cases h
            have hmore : st.Counts (_ + 1, _) (_ + 1, _) :=
              ⟨congrArg (· + 1) hcounts.1, hshows.append hcounts.2⟩
            refine .finds (Nat.le_trans hle hle') hlast' hmore ?_
            rw [Price.fuel_add, Forecast.fuel_charged]
            have hend := st.within (Nat.zero_lt_of_lt hlt) hlast
            exact .iterate_next (st.ascends hlt hlast) hend (.iteration hspends) hrest
        · cases h

end Repetition

end Forecast.Fits

/-- The steps of a sequence end as forecast, stuck without a commitment or
    finished. -/
inductive Forecast.Proceeds (st : Stage g s tokens) (c : Context) (levels place : Nat)
    (family : Nat → Matcher Matcher.Ending) : Forecast (Bool × List Sign) → Prop
  | stuck {stop : Nat} {price : Price} (h : Matcher.Spends c levels (price.fuel st.cost)
      (st.position place) family (some (.stuck false)) stop) :
      Proceeds st c levels place family ⟨none, price⟩
  | finished {committed : Bool} {signs : List Sign} {nodes : List Tree} {stop : Nat} {price : Price}
      (hle : place ≤ stop) (hlast : stop ≤ s.last) (hshows : st.Shows signs nodes)
      (h : Matcher.Spends c levels (price.fuel st.cost) (st.position place) family
        (some (.finished committed nodes)) (st.position stop)) :
      Proceeds st c levels place family ⟨some ((committed, signs), stop), price⟩

/-- The best candidate so far is the one of the forecast. -/
inductive Stage.Leads (st : Stage g s tokens) (place : Nat) :
    Option (List Sign × Nat) → Option Matcher.Provisional → Prop
  | nobody : Leads st place none none
  | somebody {signs : List Sign} {nodes : List Tree} {stop branch : Nat} (hle : place ≤ stop)
      (hlast : stop ≤ s.last) (hshows : st.Shows signs nodes) :
      Leads st place (some (signs, stop)) (some ⟨st.position stop, branch, nodes⟩)

/-- The better one of two candidates is the same for the forecast as for the
    matcher, because places are in the order of positions. -/
theorem Stage.Leads.better {st : Stage g s tokens} {place stop : Nat}
    {best : Option (List Sign × Nat)} {best' : Option Matcher.Provisional} {signs : List Sign}
    {nodes : List Tree} (h : st.Leads place best best') (hle : place ≤ stop) (hlast : stop ≤ s.last)
    (hshows : st.Shows signs nodes) (branch : Nat) :
    st.Leads place (some (better best (signs, stop)))
      (some (Matcher.Provisional.better best' ⟨st.position stop, branch, nodes⟩)) := by
  cases h with
  | nobody => exact .somebody hle hlast hshows
  | somebody hle' hlast' hshows' =>
    simp only [Grammar.better, Matcher.Provisional.better, Stage.position_lt hlast' hlast]
    split
    · exact .somebody hle hlast hshows
    · exact .somebody hle' hlast' hshows'

/-- References end as forecast. -/
structure Foresees (st : Stage g s tokens) (c : Context) (levels : Nat)
    (call : String → Nat → Option (Forecast (List Sign))) : Prop where
  tokens : c.tokens = tokens
  reference : ∀ {name p f}, p ≤ s.last → call name p = some f →
    Forecast.Fits st c levels st.Shows (st.position p) p
      (fun d => (Term.production name).matcher (g.matcher d)) f.charged

section Soundness

variable {st : Stage g s tokens} {c : Context} {levels : Nat}
  {call : String → Nat → Option (Forecast (List Sign))}

open Forecast (Fits Proceeds)

/-- A leaf takes the token of a place or does not, as far as that is known. In both
    cases the charge in front of the leaf is its price. -/
theorem fits_leaf (htokens : c.tokens = tokens) {place : Nat} {l : Leaf}
    {f : Forecast (List Sign)} (hplace : place ≤ s.last)
    (h : (Term.leaf l).forecast s call place = some f) :
    Fits st c levels st.Shows (st.position place) place
      (fun d => (Term.leaf l).matcher (g.matcher d)) f := by
  subst htokens
  rw [Term.forecast] at h
  split at h
  · next hrejects =>
    cases h
    refine .refuses ?_
    rw [Price.fuel_charge]
    exact .bind_free .charge fun _ => .leaf_rejects (st.rejects hplace hrejects)
  · split at h
    · next haccepts =>
      cases h
      obtain ⟨hlast, hnext, t, ht, hl⟩ := st.accepts haccepts
      refine .finds (Nat.le_succ place) hlast (.leaf l place) ?_
      rw [Price.fuel_charge, hnext]
      exact .bind_free .charge fun _ => .leaf_accepts ht hl
    · cases h

/-- A sequence commits where it has earned enough, whether or not it had before. -/
theorem committed_or {committed : Bool} {commit earned : Nat}
    (h : committed = true → commit ≤ earned) :
    (committed || decide (commit ≤ earned)) = decide (commit ≤ earned) := by
  cases committed with
  | false => rfl
  | true => simp [h rfl]

mutual

/-- A term ends as forecast. Together with the three statements below it follows the
    recursion of the forecast, one case for each kind of term. -/
theorem Term.fits (hc : Foresees st c levels call) {place : Nat} {f : Forecast (List Sign)}
    (hplace : place ≤ s.last) : ∀ t : Term, t.forecast s call place = some f →
      Fits st c levels st.Shows (st.position place) place (fun d => t.matcher (g.matcher d)) f
  | .leaf l, h => fits_leaf hc.tokens hplace h
  | .production name, h => by
    obtain ⟨f, hf, rfl⟩ := Option.map_eq_some_iff.mp h
    exact hc.reference hplace hf
  | .optional body, h => by
    obtain ⟨f, hf, rfl⟩ := Option.map_eq_some_iff.mp h
    exact ((body.fits hc hplace hf).optional hplace).charged
  | .alternation candidates, h => by
    obtain ⟨f, hf, rfl⟩ := Option.map_eq_some_iff.mp h
    have hchoice := fits_of_choice hc hplace candidates hf .nobody 0 _ fun _ => rfl
    refine Fits.charged (hchoice.imp fun hchoose => ?_)
    exact .free_bind .position hchoose
  | .repetition item none least, h => by
    obtain ⟨f, hf, rfl⟩ := Option.map_eq_some_iff.mp h
    refine Fits.charged (.repetition least ?_)
    refine .turns hc.tokens (fun {first _ _} hp hf => ?_) hplace hf
    simp only [ite_self] at hf ⊢
    exact .turn (item.fits hc) hp hf
  | .repetition item (some separator) least, h => by
    obtain ⟨f, hf, rfl⟩ := Option.map_eq_some_iff.mp h
    refine Fits.charged (.repetition least ?_)
    refine .turns hc.tokens (fun {first _ _} hp hf => ?_) hplace hf
    cases first with
    | true => exact .turn (item.fits hc) hp hf
    | false => exact .turn_separated (item.fits hc) (separator.fits hc) hp hf
  | .breakpoint, h => by
    cases h
    refine .finds (Nat.le_refl _) hplace .nil ?_
    rw [Price.fuel_charge]
    exact .bind_free .charge fun _ => .breakpoint

/-- A sequence ends as forecast, with the commitment that it earns. Its steps start
    with nothing earned, at the place of the sequence. -/
theorem Sequence.fits (hc : Foresees st c levels call) {place : Nat}
    {f : Forecast (Bool × List Sign)} (hplace : place ≤ s.last) :
    ∀ b : Sequence, b.forecast s call place = some f →
      Fits st c levels st.Ends (st.position place) place (fun d => b.matcher (g.matcher d)) f
  | ⟨terms, commit⟩, h => by
    cases proceeds_of_steps hc hplace terms h false (by simp) with
    | stuck hsteps => exact .refuses (.sequence_stuck hsteps)
    | @finished committed signs nodes stop price hle hlast hshows hsteps =>
      have hends : st.Ends (committed, signs) (committed, nodes) := ⟨rfl, hshows⟩
      exact .finds hle hlast hends (.sequence hsteps)

/-- The steps of a sequence end as forecast, from whatever they have earned before.
    A forecast that gets stuck behind the threshold says nothing, since the parse
    would end there. -/
theorem proceeds_of_steps (hc : Foresees st c levels call) {place commit earned : Nat}
    {f : Forecast (Bool × List Sign)} (hplace : place ≤ s.last) :
    ∀ ts : List Term, stepsForecast s call ts commit earned place = some f →
      ∀ committed : Bool, (committed = true → commit ≤ earned) →
        Proceeds st c levels place
          (fun d => Matcher.steps commit (termMatchers (g.matcher d) ts) earned committed) f
  | [], h, committed, hcommitted => by
    cases h
    have hsteps : Matcher.Spends c levels 0 (st.position place)
        (fun _ => Matcher.steps commit [] earned committed) _ (st.position place) := .steps_nil
    rw [committed_or hcommitted, ← Price.fuel_free st.cost] at hsteps
    exact .finished (Nat.le_refl _) hplace .nil hsteps
  | t :: ts, h, committed, hcommitted => by
    obtain ⟨f, hf, h⟩ := Option.bind_eq_some_iff.mp h
    cases t.fits hc hplace hf with
    | refuses hnone =>
      dsimp only at h
      split at h
      · cases h
      · next hfew =>
        cases h
        have hstuck : Matcher.Spends c levels _ (st.position place)
            (fun d => Matcher.steps commit (termMatchers (g.matcher d) (t :: ts)) earned committed)
            _ (st.position place) := .steps_stuck hnone
        rw [committed_or hcommitted, decide_eq_false hfew] at hstuck
        exact .stuck hstuck
    | @finds signs nodes stop price hle hlast hshows hterm =>
      obtain ⟨f', hf', rfl⟩ := Option.map_eq_some_iff.mp h
      have hgain : (if st.position place < st.position stop then earned + 1 else earned) =
          if place < stop then earned + 1 else earned := by
        simp only [Stage.position_lt hplace hlast]
      have hearned : decide (commit ≤ earned) = true →
          commit ≤ if place < stop then earned + 1 else earned := by
        intro hcommit
        have hle := of_decide_eq_true hcommit
        split <;> omega
      have hrest := proceeds_of_steps hc hlast ts hf' _ hearned
      rw [← hgain, ← committed_or hcommitted] at hrest
      cases hrest with
      | stuck hrest =>
        have hsteps := Matcher.Spends.steps_cons hterm hrest
        rw [← Price.fuel_add] at hsteps
        exact .stuck hsteps
      | finished hle' hlast' hshows' hrest =>
        have hsteps := Matcher.Spends.steps_cons hterm hrest
        rw [← Price.fuel_add] at hsteps
        exact .finished (Nat.le_trans hle hle') hlast' (hshows.append hshows') hsteps

/-- The candidates of an alternation end as forecast, behind candidates that have
    not committed. -/
theorem fits_of_choice (hc : Foresees st c levels call) {place : Nat} {f : Forecast (List Sign)}
    (hplace : place ≤ s.last) {best : Option (List Sign × Nat)}
    {best' : Option Matcher.Provisional} :
    ∀ cs : List Sequence, choiceForecast s call cs best place = some f →
      st.Leads place best best' → ∀ branch start, (best = none → start = st.position place) →
        Fits st c levels st.Shows start place
          (fun d => Matcher.choose (st.position place) (candidateMatchers (g.matcher d) cs) branch
            best') f
  | [], h, hleads, branch, start, hstart => by
    cases hleads with
    | nobody =>
      cases h
      obtain rfl := hstart rfl
      refine .refuses ?_
      rw [Price.fuel_free]
      exact .choose_nobody
    | @somebody _ _ _ winner hle hlast hshows =>
      cases h
      have hlabel (name : String) : Tree.Label.alternation winner ≠ .production name := by simp
      refine .finds hle hlast (hshows.covering _ hlabel hle hlast) ?_
      rw [Price.fuel_free]
      exact .choose_best ⟨_, winner, _⟩
  | b :: cs, h, hleads, branch, start, hstart => by
    obtain ⟨f, hf, h⟩ := Option.bind_eq_some_iff.mp h
    cases b.fits hc hplace hf with
    | refuses hnone =>
      obtain ⟨f', hf', rfl⟩ := Option.map_eq_some_iff.mp h
      have hmore := fits_of_choice hc hplace cs hf' hleads (branch + 1) _ fun _ => rfl
      exact hmore.after _ fun hmore => .choose_failed hnone hmore
    | @finds x y stop price hle hlast hends hsome =>
      obtain ⟨_, signs⟩ := x
      obtain ⟨committed, nodes⟩ := y
      obtain ⟨rfl, hshows⟩ := hends
      cases committed with
      | true =>
        cases h
        exact .finds hle hlast (hshows.covering _ (by simp) hle hlast) (.choose_committed hsome)
      | false =>
        obtain ⟨f', hf', rfl⟩ := Option.map_eq_some_iff.mp h
        have hbetter := hleads.better hle hlast hshows branch
        have hmore := fits_of_choice hc hplace cs hf' hbetter (branch + 1)
          (st.position stop) (by simp)
        exact hmore.after _ fun hmore => .choose_provisional hsome hmore

end

/-- The known production ends at the next place. Its price is that of one call,
    which the stage puts a number to. -/
theorem fits_told (st : Stage g s tokens) (hc : c.tokens = tokens) (levels : Nat) {name : String}
    {place : Nat} {f : Forecast (List Sign)} (h : s.told name place = some f) :
    Fits st c (st.levels + levels) st.Shows (st.position place) place
      (fun d => (Term.production name).matcher (g.matcher d)) f.charged := by
  unfold Sight.told at h
  split at h
  · next hknown =>
    cases h
    obtain ⟨hlast, htree⟩ := st.known hknown
    obtain ⟨tree, hspan, hkeys, hspends⟩ := htree c hc
    have hshows : st.Shows [.known] [tree] := by
      unfold Stage.Shows
      rw [hkeys]
      exact (List.append_nil _).symm
    have hreference := hshows.reference hspan (Nat.le_succ place) hlast
    rw [covered, if_pos (Nat.lt_succ_self place)] at hreference
    refine .finds (Nat.le_succ place) hlast hreference ?_
    have hprice : ((Price.charge + ⟨0, 1⟩).fuel st.cost) = 1 + st.cost := by
      rw [Price.fuel_add, Price.fuel_charge]
      simp [Price.fuel]
    rw [hprice]
    exact Term.spends_production (hspends.mono (Nat.le_add_right ..))
  · cases h

/-- References end as forecast, with as many levels more as are looked into. The
    induction is on the levels: a reference is either told or looked into. -/
theorem foresees_reference (st : Stage g s tokens) (levels : Nat) (hc : c.tokens = tokens) :
    Foresees st c (st.levels + levels) (g.reference s levels) where
  tokens := hc
  reference {name place f} hplace h := by
    induction levels generalizing c name place f with
    | zero => exact fits_told st hc 0 h
    | succ levels ih =>
      rcases Option.or_eq_some_iff.mp h with htold | ⟨-, h⟩
      · exact fits_told st hc (levels + 1) htold
      · obtain ⟨p, hfind, h⟩ := Option.bind_eq_some_iff.mp h
        obtain ⟨f, hf, rfl⟩ := Option.map_eq_some_iff.mp h
        have hinside : ({ c with stack := name :: c.stack } : Context).tokens = tokens := hc
        have hforesees : Foresees st { c with stack := name :: c.stack } (st.levels + levels)
            (g.reference s levels) := ⟨hinside, ih hinside⟩
        exact (p.body.fits hforesees hplace hf).reference hfind

/-- A production ends as its body is forecast. What a table does with a few tokens,
    and the fuel it spends, is thereby computed instead of matched step by step. -/
theorem runs_of_forecast (st : Stage g s tokens) {name : String} {p : Production}
    (hfind : g.find? name = some p) {levels place stop : Nat} {committed : Bool}
    {signs : List Sign} {price : Price} (hplace : place ≤ s.last)
    (h : p.body.forecast s (g.reference s levels) place =
      some ⟨some ((committed, signs), stop), price⟩) :
    g.Runs tokens name (.production name :: signs.flatMap st.meaning) (st.levels + levels + 1)
      (price.fuel st.cost) (st.position place) (st.position stop) := by
  intro c hc
  have hforesees : Foresees st { c with stack := name :: c.stack } (st.levels + levels)
      (g.reference s levels) := foresees_reference st levels hc
  cases p.body.fits hforesees hplace h with
  | @finds _ y _ _ hle hlast hends hspends =>
    obtain ⟨_, nodes⟩ := y
    exact ⟨_, rfl, hends.2.production name _, spends_call hfind hspends⟩

end Soundness

end Grammar

end SqlStatement

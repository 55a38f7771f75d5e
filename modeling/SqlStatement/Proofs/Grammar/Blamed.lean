import SqlStatement.Proofs.Grammar.Built
import SqlStatement.Proofs.Machine.Checker

namespace SqlStatement.Grammar

/-- A place that a path can lead to. -/
inductive Node where
  | sequence (s : Sequence)
  | term (t : Term)

namespace Node

/-- The place one step below. -/
def child? : Node → Step → Option Node
  | .sequence s, .term i => s.terms[i]?.map .term
  | .term (.optional body), .optional => some (.sequence body)
  | .term (.alternation candidates), .candidate i => candidates[i]?.map .sequence
  | .term (.repetition item _ _), .item => some (.sequence item)
  | .term (.repetition _ separator _), .separator => separator.map .sequence
  | _, _ => none

/-- The place that a path leads to. -/
def at? (n : Node) : List Step → Option Node
  | [] => some n
  | step :: steps => (n.child? step).bind (·.at? steps)

/-- Nothing is wrong with the place itself. -/
def Sound (defined : String → Bool) : Node → Prop
  | .sequence s => s.Whole
  | .term t => t.Filled defined

/-- The places one step below, in the order of the table. -/
def children : Node → List (Step × Node)
  | .sequence s => s.terms.zipIdx.map fun (t, i) => (.term i, .term t)
  | .term (.optional body) => [(.optional, .sequence body)]
  | .term (.alternation candidates) =>
    candidates.zipIdx.map fun (c, i) => (.candidate i, .sequence c)
  | .term (.repetition item none _) => [(.item, .sequence item)]
  | .term (.repetition item (some separator) _) =>
    [(.item, .sequence item), (.separator, .sequence separator)]
  | .term _ => []

/-- The first flaw at a place or below it, as the check of the table finds it. -/
def flaw? (defined : String → Bool) : Node → Option Flaw
  | .sequence s => s.flaw? defined
  | .term t => t.flaw? defined

end Node

/-- The order of the places right below one place. -/
def Step.Precedes : Step → Step → Prop
  | .term i, .term j => i < j
  | .candidate i, .candidate j => i < j
  | .item, .separator => True
  | _, _ => False

theorem Step.Precedes.irrefl (step : Step) : ¬step.Precedes step := by
  cases step <;> simp [Precedes]

/-- Of two places right below one place, at most one comes before the other. -/
theorem Step.Precedes.asymm {a b : Step} (h : a.Precedes b) : ¬b.Precedes a := by
  cases a <;> cases b <;> simp [Precedes] at h ⊢
  · exact Nat.le_of_lt h
  · exact Nat.le_of_lt h

namespace Node

section Children

variable {α : Type} {f : α → Node} {s : Nat → Step}

/-- The children of a numbered kind, such as terms, are reached by their numbers.
    The number is the place in the list, counted from where the numbering starts. -/
theorem mem_numbered {xs : List α} {step : Step} {m : Node} :
    (step, m) ∈ xs.zipIdx.map (fun (x, i) => (s i, f x)) ↔
      ∃ i, step = s i ∧ xs[i]?.map f = some m := by
  simp only [List.mem_map, Prod.exists, List.mk_mem_zipIdx_iff_getElem?, Prod.mk.injEq,
    Option.map_eq_some_iff]
  constructor
  · rintro ⟨x, i, hx, rfl, rfl⟩
    exact ⟨i, rfl, x, hx, rfl⟩
  · rintro ⟨i, rfl, x, hx, rfl⟩
    exact ⟨x, i, hx, rfl, rfl⟩

/-- Numbered children stand in the order of their numbers. The numbers are given by
    `zipIdx`, in the order of the list. -/
theorem pairwise_numbered {xs : List α} (hs : ∀ i j, i < j → (s i).Precedes (s j)) :
    (xs.zipIdx.map (fun (x, i) => (s i, f x))).Pairwise fun a b => a.1.Precedes b.1 := by
  have hindices : (xs.zipIdx.map Prod.snd).Pairwise (· < ·) := by
    rw [List.zipIdx_map_snd]
    exact List.pairwise_lt_range'
  rw [List.pairwise_map] at hindices ⊢
  exact hindices.imp fun h => hs _ _ h

end Children

/-- The children in order are those that a step leads to, and there are no others.
    Paths are read with `child?`, and the check goes over `children`. -/
theorem child?_eq_some_iff {n m : Node} {step : Step} :
    n.child? step = some m ↔ (step, m) ∈ n.children := by
  cases n with
  | sequence s =>
    rw [children, mem_numbered]
    cases step <;> simp [child?]
  | term t =>
    cases t with
    | alternation candidates =>
      rw [children, mem_numbered]
      cases step <;> simp [child?]
    | repetition item separator least =>
      cases separator <;> cases step <;> simp [child?, children, eq_comm]
    | optional body => cases step <;> simp [child?, children, eq_comm]
    | leaf | production | breakpoint => cases step <;> simp [child?, children]

/-- The children of a place are listed in the order of the table. So the first flaw
    among them is the one with nothing wrong before it. -/
theorem pairwise_children (n : Node) : n.children.Pairwise fun a b => a.1.Precedes b.1 := by
  cases n with
  | sequence s => exact pairwise_numbered fun _ _ h => h
  | term t =>
    cases t with
    | alternation candidates => exact pairwise_numbered fun _ _ h => h
    | repetition item separator least =>
      cases separator <;> simp [children, Step.Precedes]
    | optional | leaf | production | breakpoint => simp [children]

end Node

/-- The order of the table: a place comes before those below it, and these come
    before what stands behind it. -/
def Before : List Step → List Step → Prop := List.Lex Step.Precedes

/-- The place has the fault, with the numbers and the name that the fault is
    reported with. -/
def Fault.Found (defined : String → Bool) : Fault → Node → Prop
  | .emptySequence, .sequence s => s.terms = []
  | .commitOutOfRange commit length, .sequence s =>
    s.terms ≠ [] ∧ commit = s.commit ∧ length = s.terms.length ∧ length < commit
  | .emptyAlternation, .term t => t = .alternation []
  | .emptyKindSet, .term t => t = .leaf (.oneOf .empty)
  | .unresolved target, .term t => t = .production target ∧ defined target = false
  | _, _ => False

/-- What a search below a place may answer: the first flaw there is, or that there
    is none. -/
def Blames (defined : String → Bool) (n : Node) : Option Flaw → Prop
  | none => ∀ steps m, n.at? steps = some m → m.Sound defined
  | some flaw => (∃ m, n.at? flaw.steps = some m ∧ flaw.fault.Found defined m) ∧
    ∀ steps m, Before steps flaw.steps → n.at? steps = some m → m.Sound defined

section Blames

variable {defined : String → Bool}

/-- A fault of the place itself comes first. -/
theorem Blames.here {n : Node} {fault : Fault} (h : fault.Found defined n) :
    Blames defined n (some ⟨[], fault⟩) :=
  ⟨⟨n, rfl, h⟩, fun _ _ hbefore => nomatch hbefore⟩

/-- The first flaw below a place that has no fault itself. The children in front of
    the one that has it are sound at every depth. -/
theorem Blames.below {n : Node} (hsound : n.Sound defined)
    (hchildren : ∀ c ∈ n.children, Blames defined c.2 (c.2.flaw? defined)) :
    Blames defined n
      (n.children.findSome? fun c => (c.2.flaw? defined).map (Flaw.under c.1)) := by
  cases hfirst : n.children.findSome? fun c => (c.2.flaw? defined).map (Flaw.under c.1) with
  | none =>
    intro steps m hm
    cases steps with
    | nil => exact Option.some.inj hm ▸ hsound
    | cons step steps =>
      obtain ⟨child, hchild, hm⟩ := Option.bind_eq_some_iff.mp hm
      have hc := Node.child?_eq_some_iff.mp hchild
      have hnone := Option.map_eq_none_iff.mp (List.findSome?_eq_none_iff.mp hfirst _ hc)
      have hblames := hchildren _ hc
      rw [hnone] at hblames
      exact hblames steps m hm
  | some flaw =>
    obtain ⟨front, ⟨step, child⟩, back, hsplit, hflaw, hfront⟩ :=
      List.findSome?_eq_some_iff.mp hfirst
    obtain ⟨inner, hinner, rfl⟩ := Option.map_eq_some_iff.mp hflaw
    have hc : (step, child) ∈ n.children :=
      hsplit ▸ List.mem_append_right _ List.mem_cons_self
    have hchild := Node.child?_eq_some_iff.mpr hc
    have hblames := hchildren _ hc
    rw [hinner] at hblames
    obtain ⟨⟨m, hm, hfound⟩, hbefore⟩ := hblames
    refine ⟨⟨m, ?_, hfound⟩, ?_⟩
    · change (n.child? step).bind (·.at? inner.steps) = some m
      rw [hchild]
      exact hm
    · intro steps other hother hat
      cases hother with
      | nil => exact Option.some.inj hat ▸ hsound
      | @rel earlier rest _ _ hprecedes =>
        obtain ⟨sibling, hsibling, hat⟩ := Option.bind_eq_some_iff.mp hat
        have hs : (earlier, sibling) ∈ front := by
          have hall := Node.child?_eq_some_iff.mp hsibling
          have hsorted := n.pairwise_children
          rw [hsplit] at hall hsorted
          obtain ⟨-, hback, -⟩ := List.pairwise_append.mp hsorted
          rcases List.mem_append.mp hall with hfront | hrest
          · exact hfront
          · rcases List.mem_cons.mp hrest with heq | hlater
            · cases heq
              exact absurd hprecedes (Step.Precedes.irrefl _)
            · exact absurd hprecedes (List.rel_of_pairwise_cons hback hlater).asymm
        have hsound := hchildren _ (Node.child?_eq_some_iff.mp hsibling)
        rw [Option.map_eq_none_iff.mp (hfront _ hs)] at hsound
        exact hsound rest other hat
      | @cons _ rest _ hrest =>
        change (n.child? step).bind (·.at? rest) = some other at hat
        rw [hchild] at hat
        exact hbefore rest other hrest hat

/-- The check of terms in order, as a search over their numbers. A flaw that is
    found is put under the number of its term. -/
theorem termsFlaw?_eq_findSome? (ts : List Term) (index : Nat) :
    termsFlaw? defined index ts = (ts.zipIdx index).findSome? fun (t, i) =>
      (t.flaw? defined).map (Flaw.under (.term i)) := by
  induction ts generalizing index with
  | nil => rfl
  | cons t ts ih =>
    simp only [termsFlaw?, ih, List.zipIdx_cons, List.findSome?_cons]
    cases t.flaw? defined <;> rfl

/-- The check of candidates in order, in the same form. Here it is put under the
    number of the candidate. -/
theorem candidatesFlaw?_eq_findSome? (cs : List Sequence) (index : Nat) :
    candidatesFlaw? defined index cs = (cs.zipIdx index).findSome? fun (c, i) =>
      (c.flaw? defined).map (Flaw.under (.candidate i)) := by
  induction cs generalizing index with
  | nil => rfl
  | cons c cs ih =>
    simp only [candidatesFlaw?, ih, List.zipIdx_cons, List.findSome?_cons]
    cases c.flaw? defined <;> rfl

namespace Node

/-- A place with nothing wrong itself has the first flaw of the places right below
    it. -/
theorem flaw?_of_sound {n : Node} (hsound : n.Sound defined) :
    n.flaw? defined =
      n.children.findSome? fun c => (c.2.flaw? defined).map (Flaw.under c.1) := by
  cases n with
  | sequence s =>
    obtain ⟨terms, commit⟩ := s
    obtain ⟨hterms, hcommit⟩ := hsound
    cases terms with
    | nil => exact absurd rfl hterms
    | cons t ts =>
      rw [flaw?, Sequence.flaw?, if_neg (Nat.not_lt.mpr hcommit), termsFlaw?_eq_findSome?, children,
        List.findSome?_map]
      rfl
  | term t =>
    cases t with
    | leaf l =>
      cases l with
      | oneOf kinds =>
        have hwhole : (Term.leaf (.oneOf kinds)).Whole defined := ⟨hsound, nofun⟩
        exact (Leaf.flaw?_eq_none_iff (.oneOf kinds)).mpr hwhole
      | kind | literal | identifier | stringLiteral => rfl
    | production name => simp [flaw?, Term.flaw?, children, show defined name = true from hsound]
    | breakpoint => rfl
    | optional body =>
      rw [flaw?, Term.flaw?, children, List.findSome?_cons, flaw?]
      cases body.flaw? defined <;> rfl
    | alternation candidates =>
      cases candidates with
      | nil => exact absurd rfl hsound
      | cons c cs =>
        rw [flaw?, Term.flaw?, candidatesFlaw?_eq_findSome?, children, List.findSome?_map]
        rfl
    | repetition item separator least =>
      cases separator with
      | none =>
        rw [flaw?, Term.flaw?, children, List.findSome?_cons, flaw?]
        cases item.flaw? defined <;> rfl
      | some separator =>
        rw [flaw?, Term.flaw?, children, List.findSome?_cons, List.findSome?_cons, flaw?, flaw?]
        cases item.flaw? defined <;> cases separator.flaw? defined <;> rfl

/-- A place with something wrong itself has that as its flaw. The check looks below
    a place only when it has found nothing wrong with the place. -/
theorem flaw?_of_not_sound {n : Node} (hfaulty : ¬n.Sound defined) :
    ∃ fault, n.flaw? defined = some ⟨[], fault⟩ ∧ fault.Found defined n := by
  cases n with
  | sequence s =>
    obtain ⟨terms, commit⟩ := s
    cases terms with
    | nil => exact ⟨.emptySequence, rfl, rfl⟩
    | cons t ts =>
      have hcommit : (t :: ts).length < commit :=
        Nat.lt_of_not_le fun hle => hfaulty ⟨List.cons_ne_nil t ts, hle⟩
      refine ⟨.commitOutOfRange commit (t :: ts).length, ?_, List.cons_ne_nil t ts, rfl, rfl,
        hcommit⟩
      rw [flaw?, Sequence.flaw?, if_pos hcommit]
  | term t =>
    cases t with
    | leaf l =>
      cases l with
      | oneOf kinds =>
        have hempty : kinds = .empty := Classical.not_not.mp hfaulty
        subst hempty
        exact ⟨.emptyKindSet, rfl, rfl⟩
      | kind | literal | identifier | stringLiteral => exact absurd trivial hfaulty
    | production name =>
      have hundefined : defined name = false := Bool.eq_false_iff.mpr hfaulty
      refine ⟨.unresolved name, ?_, rfl, hundefined⟩
      simp [flaw?, Term.flaw?, hundefined]
    | alternation candidates =>
      cases Classical.not_not.mp hfaulty
      exact ⟨.emptyAlternation, rfl, rfl⟩
    | optional | repetition | breakpoint => exact absurd trivial hfaulty

/-- Either way the flaw that is found is the first one, if that holds of the
    children. -/
theorem blames_of_children {n : Node}
    (hchildren : ∀ c ∈ n.children, Blames defined c.2 (c.2.flaw? defined)) :
    Blames defined n (n.flaw? defined) := by
  by_cases hsound : n.Sound defined
  · rw [flaw?_of_sound hsound]
    exact .below hsound hchildren
  · obtain ⟨fault, hflaw, hfound⟩ := flaw?_of_not_sound hsound
    exact hflaw ▸ .here hfound

end Node

mutual

/-- The flaw of a term is the first one at it or below it, by induction on the
    term. -/
theorem Term.blames : ∀ t : Term, Blames defined (.term t) (t.flaw? defined)
  | .optional body => Node.blames_of_children fun c hc => by
    cases List.mem_singleton.mp hc
    exact body.blames
  | .alternation candidates => Node.blames_of_children fun ⟨_, _⟩ hc => by
    obtain ⟨i, -, hi⟩ := Node.mem_numbered.mp hc
    obtain ⟨s, hs, rfl⟩ := Option.map_eq_some_iff.mp hi
    exact blames_of_mem_candidates candidates s (List.mem_of_getElem? hs)
  | .repetition item none least => Node.blames_of_children fun c hc => by
    cases List.mem_singleton.mp hc
    exact item.blames
  | .repetition item (some separator) least => Node.blames_of_children fun c hc => by
    rcases List.mem_cons.mp hc with rfl | hc
    · exact item.blames
    · cases List.mem_singleton.mp hc
      exact separator.blames
  | .leaf _ | .production _ | .breakpoint => Node.blames_of_children fun _ hc => nomatch hc

/-- The same for a sequence. Its children are its terms, so this is the induction
    hypothesis for each of them. -/
theorem Sequence.blames : ∀ s : Sequence, Blames defined (.sequence s) (s.flaw? defined)
  | ⟨terms, commit⟩ => Node.blames_of_children fun ⟨_, _⟩ hc => by
    obtain ⟨i, -, hi⟩ := Node.mem_numbered.mp hc
    obtain ⟨t, ht, rfl⟩ := Option.map_eq_some_iff.mp hi
    exact blames_of_mem_terms terms t (List.mem_of_getElem? ht)

theorem blames_of_mem_terms : ∀ (ts : List Term), ∀ t ∈ ts,
    Blames defined (.term t) (t.flaw? defined)
  | [] => List.forall_mem_nil _
  | t :: ts => List.forall_mem_cons.mpr ⟨t.blames, blames_of_mem_terms ts⟩

theorem blames_of_mem_candidates : ∀ (cs : List Sequence), ∀ c ∈ cs,
    Blames defined (.sequence c) (c.flaw? defined)
  | [] => List.forall_mem_nil _
  | c :: cs => List.forall_mem_cons.mpr ⟨c.blames, blames_of_mem_candidates cs⟩

end

end Blames

theorem repr_injective {i j : Nat} (h : i.repr = j.repr) : i = j := by
  rw [Nat.repr_eq_ofList_toDigits, Nat.repr_eq_ofList_toDigits, String.ofList_inj] at h
  rw [← Nat.ofDigitChars_ten_toDigits (n := i), h, Nat.ofDigitChars_ten_toDigits]

/-- A number is written in digits, which is how it is told from the letters of a
    step. -/
theorem isDigit_of_mem_repr {i : Nat} {c : Char} (hc : c ∈ i.repr.toList) : c.isDigit = true := by
  rw [Nat.repr_eq_ofList_toDigits, String.toList_ofList] at hc
  exact Nat.isDigit_of_mem_toDigits (by decide) (by decide) hc

/-- The first letter tells what kind of step it is. The number of a term is written
    in digits and has no letter at all. -/
theorem Step.find?_describe (step : Step) :
    step.describe.toList.find? (!·.isDigit) = match step with
      | .term _ => none
      | .optional => some 'o'
      | .candidate _ => some 'a'
      | .item => some 'i'
      | .separator => some 's' := by
  cases step with
  | term i =>
    refine List.find?_eq_none.mpr fun c hc => ?_
    simp [isDigit_of_mem_repr hc]
  | candidate i =>
    rw [describe, String.toList_append]
    rfl
  | optional | item | separator => decide

/-- Each step is written in its own way. Steps of different kinds differ in that
    letter, and those of one kind in their numbers. -/
theorem Step.describe_injective {a b : Step} (h : a.describe = b.describe) : a = b := by
  have hletter := congrArg (fun s => s.toList.find? (!·.isDigit)) h
  simp only [find?_describe] at hletter
  cases a <;> cases b <;> simp only [reduceCtorEq, Option.some.injEq, Char.reduceEq] at hletter
  case term.term => exact congrArg _ (repr_injective h)
  case candidate.candidate i j =>
    have htext := congrArg String.toList h
    simp only [describe, String.toList_append, List.append_cancel_left_eq] at htext
    exact congrArg _ (repr_injective (String.toList_inj.mp htext))
  all_goals rfl

/-- The slash between steps is in none of them. So a written path can be cut at its
    slashes. -/
theorem Step.slash_not_mem_describe (step : Step) : '/' ∉ step.describe.toList := by
  cases step with
  | term i => exact fun hslash => absurd (isDigit_of_mem_repr hslash) (by decide)
  | candidate i =>
    intro hslash
    rw [describe, String.toList_append] at hslash
    rcases List.mem_append.mp hslash with halt | hdigits
    · revert halt
      decide
    · exact absurd (isDigit_of_mem_repr hdigits) (by decide)
  | optional | item | separator => decide

/-- A path that is written out leads to one place only. The steps are separated by
    slashes, none of them contains one, and each of them can be read back. -/
theorem describePath_injective {production : String} {a b : List Step}
    (h : describePath production a = describePath production b) : a = b := by
  have hsteps (steps : List Step) (hne : steps ≠ []) :
      (describePath production steps).toList =
        production.toList ++ '/' :: ['/'].intercalate (steps.map (·.describe.toList)) := by
    rw [describePath, String.intercalate_cons_of_ne_nil (by simpa using hne), String.toList_append,
      String.toList_append, String.toList_intercalate, List.map_map, List.append_assoc]
    rfl
  have hsplit (steps : List Step) (hne : steps ≠ []) :
      (['/'].intercalate (steps.map (·.describe.toList))).splitOn '/' =
        steps.map (·.describe.toList) :=
    List.splitOn_intercalate '/' (by simpa using fun s _ => s.slash_not_mem_describe)
      (by simpa using hne)
  have htext := congrArg String.toList h
  have hempty : (describePath production []).toList = production.toList := by
    rw [describePath, List.map_nil, String.intercalate_singleton]
  by_cases ha : a = [] <;> by_cases hb : b = []
  · rw [ha, hb]
  · rw [ha, hempty, hsteps b hb] at htext
    simp at htext
  · rw [hb, hempty, hsteps a ha] at htext
    simp at htext
  · rw [hsteps a ha, hsteps b hb] at htext
    have hrest := List.append_cancel_left htext
    have hwords : a.map (·.describe.toList) = b.map (·.describe.toList) := by
      rw [← hsplit a ha, ← hsplit b hb, List.cons.inj hrest |>.2]
    exact List.map_injective_iff.mpr
      (fun x y hxy => Step.describe_injective (String.toList_inj.mp hxy)) hwords

/-- A flaw in the body of a production is the first one of a table, and the path
    with which it is reported leads to it. -/
structure Flaw.IsFirst (g : Grammar) (p : Production) (flaw : Flaw) : Prop where
  found : ∃ n, (Node.sequence p.body).at? flaw.steps = some n ∧ flaw.fault.Found g.defines n
  /-- Nothing is wrong before it in its production. -/
  sound_before : ∀ steps n, Before steps flaw.steps →
    (Node.sequence p.body).at? steps = some n → n.Sound g.defines
  /-- Nothing is wrong at any place of an earlier production. -/
  sound_earlier : ∃ front back, g.productions = front ++ p :: back ∧
    ∀ q ∈ front, ∀ steps n, (Node.sequence q.body).at? steps = some n → n.Sound g.defines
  /-- The path that is written out leads to no other place. -/
  steps_unique : ∀ steps, describePath p.name steps = describePath p.name flaw.steps →
    steps = flaw.steps
  /-- A checker that keeps one path finds the flaw behind it, and leaves it as it was. -/
  checked : ∀ path, p.body.check g.defines path = (some (flaw.along path), path)

/-- A production that is defined once is found by its name. No production in front
    of it has that name. -/
theorem find?_of_nodup {g : Grammar} {p : Production} {front back : List Production}
    (hnodup : (g.productions.map (·.name)).Nodup) (hsplit : g.productions = front ++ p :: back) :
    g.find? p.name = some p := by
  refine List.find?_eq_some_iff_append.mpr ⟨beq_self_eq_true p.name, front, back, hsplit, ?_⟩
  intro q hq
  rw [hsplit, List.map_append, List.map_cons] at hnodup
  have hne := (List.nodup_append.mp hnodup).2.2 q.name (List.mem_map_of_mem hq) p.name
    List.mem_cons_self
  simpa using hne

/-- Where a table is not built although its names differ and its root is defined,
    the production of the name that is reported has the first flaw of the table,
    where the path leads. Nothing is wrong in front of that place: neither in an
    earlier production, nor at the places that come before it in this one. -/
theorem build_blamed {name root : String} {productions : List Production} {d : Defect}
    (hbuild : build name root productions = .error d)
    (hnames : ∀ n, d ≠ .duplicateProduction n) (hroot : ∀ n, d ≠ .unknownRoot n) :
    let g : Grammar := ⟨name, root, productions⟩
    ∃ p flaw, d = .flawed p.name flaw ∧ g.find? p.name = some p ∧ flaw.IsFirst g p := by
  intro g
  have hdefect : g.defect? = some d := build_eq_error_iff.mp hbuild
  unfold defect? at hdefect
  split at hdefect
  · cases hdefect
    exact absurd rfl (hnames _)
  next hdistinct =>
  split at hdefect
  · obtain ⟨front, p, back, hsplit, hreported, hfront⟩ := List.findSome?_eq_some_iff.mp hdefect
    obtain ⟨flaw, hflaw, rfl⟩ := Option.map_eq_some_iff.mp hreported
    have hfind : g.find? p.name = some p :=
      find?_of_nodup ((firstRepeated_eq_none_iff [] _).mp hdistinct).1 hsplit
    have hblames : Blames g.defines (.sequence p.body) _ := p.body.blames
    rw [hflaw] at hblames
    refine ⟨p, flaw, rfl, hfind, hblames.1, hblames.2, ⟨front, back, hsplit, fun q hq => ?_⟩,
      fun _ => describePath_injective, fun path => ?_⟩
    · have hclean : Blames g.defines (.sequence q.body) _ := q.body.blames
      rw [Option.map_eq_none_iff.mp (hfront q hq)] at hclean
      exact hclean
    · rw [p.body.check_finds g.defines path, hflaw]
      rfl
  · cases hdefect
    exact absurd rfl (hroot _)

/-- The second candidate of the second term of `b` asks for more terms than it has.
    The production in front of `b` has no flaw, and neither has the repetition in
    front of the alternation. -/
theorem build_blamed_candidate :
    let select : Term := .leaf (.kind (.keyword .SELECT))
    let values : Term := .leaf (.kind (.keyword .VALUES))
    let a : Production := ⟨"a", none, ⟨[select, .optional ⟨[.production "b"], 1⟩], 1⟩⟩
    let b : Production := ⟨"b", none,
      ⟨[.repetition ⟨[values], 1⟩ (some ⟨[select], 1⟩) 1,
        .alternation [⟨[select], 1⟩, ⟨[values], 2⟩]], 1⟩⟩
    let flaw : Flaw := ⟨[.term 1, .candidate 1], .commitOutOfRange 2 1⟩
    build "toy" "a" [a, b] = .error (.flawed "b" flaw) ∧
      (Defect.flawed "b" flaw).message =
        "b/1/alt1: commit threshold 2 exceeds sequence length 1" ∧
      flaw.IsFirst ⟨"toy", "a", [a, b]⟩ b := by
  intro select values a b flaw
  have hbuild : build "toy" "a" [a, b] = .error (.flawed "b" flaw) := by rfl
  obtain ⟨p, found, hd, hfind, hfirst⟩ := build_blamed hbuild nofun nofun
  obtain ⟨hname, rfl⟩ := Defect.flawed.inj hd
  rw [← hname] at hfind
  obtain rfl : b = p := Option.some.inj hfind
  exact ⟨hbuild, by decide +kernel, hfirst⟩

end SqlStatement.Grammar

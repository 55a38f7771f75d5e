import SqlStatement.Proofs.Completion.Exact
import SqlStatement.Proofs.Grammar.Parts
import SqlStatement.Proofs.Match.Bracketed

namespace SqlStatement

/-- Productions that each refer to the next one, the last of which has a breakpoint
    of its own. These are the paths on which a breakpoint can be reached. -/
inductive Grammar.Trail (g : Grammar) : List String → Prop
  | stop {name : String} {p : Production} (hfind : g.find? name = some p)
      (hbreakpoint : .breakpoint ∈ p.body.parts) : Trail g [name]
  | next {name target : String} {p : Production} {rest : List String}
      (hfind : g.find? name = some p) (hreference : .production target ∈ p.body.parts)
      (hrest : Trail g (target :: rest)) : Trail g (name :: target :: rest)

/-- The breakpoint that an event reports, where the tokens of the input are all
    consumed. -/
def Event.reached? (size : Nat) : Event → Option Breakpoint
  | .breakpoint stack position => if size ≤ position then some ⟨position, stack⟩ else none
  | _ => none

/-- A record in which breakpoints are reported at the end of paths as said, inside
    the productions that are open around it. Where the input is to be completed
    those at its end are kept. -/
structure Record.Marked (P : List String → Prop) (c : Context) (r : Record) : Prop where
  paths : ∀ stack position, .breakpoint stack position ∈ r.events.toList →
    ∃ path, P path ∧ stack = c.stack.reverse ++ path
  kept : c.purpose = .completing →
    r.breakpoints.toList = r.events.toList.filterMap (Event.reached? c.tokens.size)

namespace Record.Marked

variable {P P' : List String → Prop} {c : Context} {r : Record} {a b : Record}

/-- A record without breakpoints. Nothing is reported in it that would have to be
    placed on a path, and nothing is kept. -/
theorem of_none (hevents : ∀ stack position, .breakpoint stack position ∉ r.events.toList)
    (hbreakpoints : r.breakpoints.toList = []) : r.Marked P c where
  paths stack position h := absurd h (hevents stack position)
  kept _ := by
    rw [hbreakpoints, eq_comm, List.filterMap_eq_nil_iff]
    intro e he
    cases e with
    | breakpoint stack position => exact absurd he (hevents stack position)
    | _ => rfl

/-- Two records in which breakpoints are reported on paths as said do so together.
    What is kept follows from what is reported, event by event, so it can be said of
    the two one after the other. -/
theorem append (ha : a.Marked P c) (hb : b.Marked P c) : (a ++ b).Marked P c where
  paths stack position h := by
    rw [Record.events_append] at h
    rcases List.mem_append.mp h with hfront | hback
    · exact ha.paths stack position hfront
    · exact hb.paths stack position hback
  kept hc := by
    rw [Record.events_append, Record.breakpoints_append, List.filterMap_append, ha.kept hc,
      hb.kept hc]

/-- What is said of the paths may be weakened. -/
theorem imp (h : r.Marked P c) (hP : ∀ path, P path → P' path) : r.Marked P' c where
  paths stack position hmem := by
    obtain ⟨path, hpath, hstack⟩ := h.paths stack position hmem
    exact ⟨path, hP path hpath, hstack⟩
  kept := h.kept

end Record.Marked

namespace Matcher

/-- Runs report breakpoints at the end of paths as said, and have values as said. -/
def Marks {α : Type} (P : List String → Prop) (Q : α → Prop) (m : Matcher α) : Prop :=
  ∀ c s, (m c s).record.Marked P c ∧ ∀ a, (m c s).outcome = .matched a → Q a

namespace Marks

variable {α β : Type} {P P' : List String → Prop} {Q : α → Prop} {R : β → Prop}

/-- A step that reports no breakpoint. -/
theorem of_none {m : Matcher α}
    (h : ∀ c s, (∀ stack position, .breakpoint stack position ∉ (m c s).record.events.toList) ∧
      (m c s).record.breakpoints.toList = [] ∧ ∀ a, (m c s).outcome = .matched a → Q a) :
    Marks P Q m := by
  intro c s
  obtain ⟨hevents, hbreakpoints, hvalue⟩ := h c s
  exact ⟨.of_none hevents hbreakpoints, hvalue⟩

theorem imp {m : Matcher α} (h : Marks P Q m) (hP : ∀ path, P path → P' path) : Marks P' Q m :=
  fun c s => ⟨(h c s).1.imp hP, (h c s).2⟩

/-- What is open around a step is the same for the rest of the matcher, so both
    report the ends of the same paths. -/
theorem bind {m : Matcher α} {f : α → Matcher β} (hm : Marks P Q m)
    (hf : ∀ a, Q a → Marks P R (f a)) : Marks P R (m >>= f) := by
  intro c s
  obtain ⟨hmarked, hvalue⟩ := hm c s
  cases houtcome : (m c s).outcome with
  | matched a =>
    obtain ⟨hmore, hlast⟩ := hf a (hvalue a houtcome) c (m c s).state
    rw [run_bind_matched houtcome]
    exact ⟨hmarked.append hmore, hlast⟩
  | failed =>
    rw [run_bind_failed houtcome]
    exact ⟨hmarked, nofun⟩
  | aborted e =>
    rw [run_bind_aborted houtcome]
    exact ⟨hmarked, nofun⟩

/-- An attempt reports what is attempted, also where it fails. So a breakpoint
    counts although its branch was given up. -/
theorem attempt {m : Matcher α} (hm : Marks P (fun _ => True) m) :
    Marks P (fun _ => True) m.attempt := by
  intro c s
  rw [run_attempt]
  exact ⟨(hm c s).1, fun _ _ => trivial⟩

theorem listen {m : Matcher α} (hm : Marks P (fun _ => True) m) :
    Marks P (fun _ => True) m.listen := by
  intro c s
  rw [run_listen]
  exact ⟨(hm c s).1, fun _ _ => trivial⟩

theorem context : Marks P (fun _ => True) Matcher.context :=
  of_none fun _ _ => ⟨by simp [Matcher.context], rfl, fun _ _ => trivial⟩

theorem position : Marks P (fun _ => True) Matcher.position :=
  of_none fun _ _ => ⟨by simp [Matcher.position], rfl, fun _ _ => trivial⟩

theorem report {e : Event} (he : ∀ stack position, e ≠ .breakpoint stack position) :
    Marks P (fun _ => True) (Matcher.report e) :=
  of_none fun _ _ => ⟨fun stack position h => he stack position (List.mem_singleton.mp h).symm, rfl,
    fun _ _ => trivial⟩

theorem charge : Marks P (fun _ => True) Matcher.charge := by
  refine of_none fun c s => ?_
  unfold Matcher.charge
  split <;> simp

theorem checkPatience : Marks P (fun _ => True) Matcher.checkPatience := by
  refine of_none fun c s => ?_
  unfold Matcher.checkPatience
  split <;> simp

theorem blame (misses : Journal Miss) :
    Marks P (fun _ => True) (Matcher.blame misses : Matcher α) :=
  bind context fun _ _ => bind position fun _ _ => bind (report nofun) fun _ _ =>
    of_none fun _ _ => ⟨by simp [Matcher.abort], rfl, fun _ _ => trivial⟩

theorem leaf (l : Grammar.Leaf) : Marks P (fun _ => True) (Matcher.leaf l) := by
  refine of_none fun c s => ?_
  by_cases haccepts : ∃ t, c.tokens[s.position]? = some t ∧ l.accepts t = true
  · obtain ⟨t, htoken, hl⟩ := haccepts
    obtain ⟨-, -, -, hevents, hbreakpoints⟩ := run_leaf_accepts htoken hl
    exact ⟨by simp [hevents], hbreakpoints, fun _ _ => trivial⟩
  · push Not at haccepts
    obtain ⟨-, -, -, hevents, hbreakpoints⟩ :=
      run_leaf_misses fun t htoken => Bool.eq_false_iff.mpr (haccepts t htoken)
    exact ⟨by simp [hevents], hbreakpoints, fun _ _ => trivial⟩

/-- A breakpoint is at the end of the path that is open. From the place of the
    breakpoint no further production is entered, hence the empty path behind it. -/
theorem breakpoint (hP : P []) : Marks P (fun _ => True) Matcher.breakpoint := by
  intro c s
  obtain ⟨-, -, -, hevents, hbreakpoints⟩ := run_breakpoint c s
  refine ⟨⟨fun stack position h => ?_, fun hc => ?_⟩, fun _ _ => trivial⟩
  · rw [hevents] at h
    cases List.mem_singleton.mp h
    exact ⟨[], hP, (List.append_nil _).symm⟩
  · rw [hevents, hbreakpoints]
    by_cases hend : c.tokens.size ≤ s.position
    · simp [Event.reached?, hc, hend]
    · simp [Event.reached?, hend]

/-- What is reported inside a production lies behind it on a path. The name of the
    production is pushed for its body and taken off again, so every path from there
    starts with it. -/
theorem production (p : Grammar.Production) {body : Matcher (Bool × List Tree)}
    (hbody : Marks P (fun _ => True) body) :
    Marks (fun path => ∃ rest, path = p.name :: rest ∧ P rest) (fun _ => True)
      (Matcher.production p body) := by
  intro c s
  obtain ⟨hpaths, hkept⟩ : (runBody p body c s).record.Marked P _ := (hbody _ _).1
  refine ⟨⟨fun stack position h => ?_, fun hc => ?_⟩, fun _ _ => trivial⟩
  · rw [run_production_events] at h
    have hinner : .breakpoint stack position ∈ (runBody p body c s).record.events.toList := by
      simpa using h
    obtain ⟨path, hpath, rfl⟩ := hpaths stack position hinner
    exact ⟨p.name :: path, ⟨path, rfl, hpath⟩, by simp⟩
  · rw [run_production_events, run_production_breakpoints, hkept hc, List.filterMap_append]
    exact (List.append_nil _).symm

/-- A repetition reports what its turns report. There are always finitely many
    turns, since each of those that go on consumes a token. -/
theorem iterate {item : Matcher (Bool × List Tree)}
    {separator : Option (Matcher (Bool × List Tree))}
    (hturn : ∀ first : Bool,
      Marks P (fun _ => True) (iteration item (if first then none else separator)))
    (first : Bool) : Marks P (fun _ => True) (Matcher.iterate item separator first) := by
  refine fun c s => ⟨?_, fun _ _ => trivial⟩
  -- Each turn that goes on comes closer to the end of the tokens.
  induction hleft : c.tokens.size - s.position using Nat.strongRecOn generalizing s first with
  | _ left ih =>
  have hthis := (hturn first c s).1
  generalize hr : iteration item (if first then none else separator) c s = r at hthis
  by_cases hon : GoesOn c s.position r
  · obtain ⟨nodes, houtcome, hprogress⟩ := hon
    rw [run_iterate_next hr houtcome hprogress]
    exact hthis.append (ih _ (hleft ▸ hprogress) false r.state rfl)
  · rw [run_iterate_ended hr hon]
    exact hthis

end Marks

end Matcher

open Matcher in
/-- Reporting breakpoints at the end of paths as said is kept by the combinators. -/
def Combinators.marks (P : List String → Prop) : Combinators where
  Holds := Marks P
  Place _ := True
  pure ha := .of_none fun _ _ => ⟨fun _ _ => List.not_mem_nil, rfl, fun _ h => by cases h; exact ha⟩
  bind := Marks.bind
  fail := .of_none fun _ _ => ⟨by simp [Matcher.fail], rfl, nofun⟩
  position := Marks.position
  seek _ := .of_none fun _ _ => ⟨by simp [Matcher.seek], rfl, fun _ _ => trivial⟩
  report {e} hmove := Marks.report fun _ _ he => by
    subst he
    cases hmove
  charge := Marks.charge
  checkPatience := Marks.checkPatience
  attempt := Marks.attempt
  candidate branch start hm := .bind .context fun _ _ => .bind (.report nofun) fun _ _ => hm
  judge {_ _ m verdict} hm hverdict := .bind (.listen hm) fun x _ => by
    cases h : verdict x.1 with
    | none => exact .blame x.2
    | some next => exact hverdict x.1 next h
  iterate := Marks.iterate

namespace Grammar

open Matcher (Marks)

/-- A path from a production that is no longer than there are levels. -/
def Leads (g : Grammar) (levels : Nat) (name : String) (path : List String) : Prop :=
  path.head? = some name ∧ g.Trail path ∧ path.length ≤ levels

/-- What lies behind a production on a path, with as many levels below it: its own
    breakpoint, or a path from a production that it refers to. -/
def Production.Continues (g : Grammar) (levels : Nat) (p : Production) : List String → Prop
  | [] => .breakpoint ∈ p.body.parts
  | target :: rest => .production target ∈ p.body.parts ∧ g.Leads levels target (target :: rest)

/-- What lies behind a production on a path makes a path with the production in
    front. -/
theorem Production.Continues.leads {g : Grammar} {levels : Nat} {name : String} {p : Production}
    {path : List String} (h : p.Continues g levels path) (hfind : g.find? name = some p) :
    g.Leads (levels + 1) name (name :: path) := by
  cases path with
  | nil => exact ⟨rfl, .stop hfind h, Nat.succ_le_succ (Nat.zero_le levels)⟩
  | cons target rest =>
    obtain ⟨hreference, -, htrail, hlength⟩ := h
    exact ⟨rfl, .next hfind hreference htrail, Nat.succ_le_succ hlength⟩

/-- The body of a production has the breakpoints and asks for the productions that
    it is made of. -/
theorem marks_body {g : Grammar} {levels : Nat} {call : String → Matcher Tree}
    (hcall : ∀ name, Marks (g.Leads levels name) (fun _ => True) (call name)) (p : Production) :
    Marks (p.Continues g levels) (fun _ => True) (p.body.matcher call) := by
  refine ((Combinators.marks (p.Continues g levels)).fold_of_passes
    (passes_parts (· ∈ p.body.parts)) (fun l _ => .leaf l) ?_ ?_).ofSequence p.body fun u hu => hu
  · intro name hname
    refine (hcall name).imp fun path hpath => ?_
    obtain ⟨hhead, htrail, hlength⟩ := hpath
    cases path with
    | nil => cases hhead
    | cons target rest =>
      obtain rfl : target = name := Option.some.inj hhead
      exact ⟨hname _ (List.mem_singleton_self _), rfl, htrail, hlength⟩
  · exact fun hbreakpoint => .breakpoint (hbreakpoint _ (List.mem_singleton_self _))

/-- The breakpoints that the matcher of a production reports are at the end of paths
    from it. A path is no longer than there are levels of nesting, and the induction
    is on these. -/
theorem marks_matcher (g : Grammar) (depth : Nat) (name : String) :
    Marks (g.Leads depth name) (fun _ => True) (g.matcher depth name) := by
  have habort (e : ParseError) (P : List String → Prop) :
      Marks P (fun _ => True) (Matcher.abort e : Matcher Tree) :=
    .of_none fun _ _ => ⟨by simp [Matcher.abort], rfl, fun _ _ => trivial⟩
  induction depth generalizing name with
  | zero =>
    rw [matcher]
    cases g.find? name with
    | none => exact habort _ _
    | some p => exact habort _ _
  | succ depth ih =>
    rw [matcher]
    cases hfind : g.find? name with
    | none => exact habort _ _
    | some p =>
      refine (Marks.production p (marks_body ih p)).imp ?_
      rintro _ ⟨path, rfl, hpath⟩
      rw [name_of_find? hfind]
      exact hpath.leads hfind

end Grammar

namespace Parser

/-- The contexts of a completion are the stacks of the breakpoints that are
    remembered at the caret, each once. -/
theorem contexts_of_suggest {caret : Nat} {r : Result Tree} {completion : Completion}
    (hok : suggest caret r = .ok completion) :
    completion.contexts.Nodup ∧ ∀ stack, stack ∈ completion.contexts ↔
      (⟨caret, stack⟩ : Breakpoint) ∈ r.record.breakpoints.toList := by
  have hcontexts : completion.contexts =
      ((r.record.breakpoints.toList.filter (·.position == caret)).map (·.stack)).eraseDups := by
    unfold suggest at hok
    split at hok
    · cases hok
      rfl
    · cases hok
      rfl
    · cases hok
      rfl
    · cases hok
  rw [hcontexts]
  refine ⟨nodup_eraseDups _, fun stack => ?_⟩
  simp only [List.mem_eraseDups, List.mem_map, List.mem_filter, beq_iff_eq]
  constructor
  · rintro ⟨b, ⟨hmem, rfl⟩, rfl⟩
    exact hmem
  · exact fun hmem => ⟨_, ⟨hmem, rfl⟩, rfl⟩

/-- The contexts of a completion are all different. Each is a path of references
    from the root to a production with a breakpoint, no longer than productions may
    nest. They are the productions that are open where a breakpoint is reached with
    all tokens in front of the caret consumed, whatever was tried and given up
    before. -/
theorem contexts_reached (p : Parser) (tokens : List Token) (caret : Nat) {completion : Completion}
    (hok : p.complete tokens caret = .ok completion) :
    let front := tokens.take (min caret tokens.length)
    let events := (p.run .completing front.toArray).record.events.toList
    completion.contexts.Nodup ∧
    (∀ stack ∈ completion.contexts,
      stack.head? = some p.root ∧ p.grammar.Trail stack ∧ stack.length ≤ p.limits.depth) ∧
    (∀ stack, stack ∈ completion.contexts ↔
      ∃ before after, events = before ++ .breakpoint stack front.length :: after) ∧
    ∀ before stack position after, events = before ++ .breakpoint stack position :: after →
      stack = (opened [] before).reverse := by
  intro front events
  have hlength : front.length = min caret tokens.length := by simp [front]
  obtain ⟨hnodup, hmem⟩ := contexts_of_suggest hok
  obtain ⟨hpaths, hkept⟩ :=
    (p.grammar.marks_matcher p.limits.depth p.root ⟨front.toArray, .completing, []⟩
      ⟨0, p.limits.fuel, p.patience⟩).1
  have hkept : (p.run .completing front.toArray).record.breakpoints.toList =
      events.filterMap (Event.reached? front.toArray.size) := hkept rfl
  have hreached (stack : List String) :
      stack ∈ completion.contexts ↔ .breakpoint stack front.length ∈ events := by
    rw [hmem, hkept, List.mem_filterMap, hlength, List.size_toArray, hlength]
    constructor
    · rintro ⟨e, he, hevent⟩
      cases e with
      | breakpoint stack' position =>
        simp only [Event.reached?, Option.ite_none_right_eq_some, Option.some.injEq,
          Breakpoint.mk.injEq] at hevent
        obtain ⟨-, rfl, rfl⟩ := hevent
        exact he
      | _ => cases hevent
    · exact fun he => ⟨_, he, by simp [Event.reached?]⟩
  refine ⟨hnodup, fun stack hstack => ?_, fun stack => ?_, ?_⟩
  · obtain ⟨path, hpath, rfl⟩ := hpaths stack _ ((hreached stack).mp hstack)
    exact hpath
  · rw [hreached, List.mem_iff_append]
  · intro before stack position after hsplit
    exact (p.grammar.tellsFrom_matcher p.limits.depth p.root ⟨front.toArray, .completing, []⟩
      ⟨0, p.limits.fuel, p.patience⟩).bracketed.fits before _ after hsplit

/-- Behind `SELECT * FROM` the one context leads to the names of tables. Its path is
    one of references from the root, and it is within the limit on depth. -/
theorem contexts_reached_select_from :
    let path := ["sql-stmt", "select-stmt", "join-clause", "table-or-subquery"]
    (ofGrammar Sqlite.grammar).complete
      [⟨.keyword .SELECT, "SELECT", ⟨0, 6⟩⟩, ⟨.symbol .star, "*", ⟨7, 8⟩⟩,
        ⟨.keyword .FROM, "FROM", ⟨9, 13⟩⟩] 3 =
      .ok ⟨3, [.label "database name", .label "table function name", .label "table name",
        .keyword "("], [path]⟩ ∧
    Sqlite.grammar.Trail path ∧ path.length ≤ (ofGrammar Sqlite.grammar).limits.depth := by
  intro path
  have hok : (ofGrammar Sqlite.grammar).complete
      [⟨.keyword .SELECT, "SELECT", ⟨0, 6⟩⟩, ⟨.symbol .star, "*", ⟨7, 8⟩⟩,
        ⟨.keyword .FROM, "FROM", ⟨9, 13⟩⟩] 3 =
      .ok ⟨3, [.label "database name", .label "table function name", .label "table name",
        .keyword "("], [path]⟩ := by
    decide +kernel
  obtain ⟨-, hpaths, -⟩ := contexts_reached (ofGrammar Sqlite.grammar) _ 3 hok
  obtain ⟨-, htrail, hlength⟩ := hpaths path (List.mem_singleton_self path)
  exact ⟨hok, htrail, hlength⟩

end Parser

end SqlStatement

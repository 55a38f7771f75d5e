import SqlStatement.Proofs.Grammar.Nullable
import SqlStatement.Proofs.Match.Closed
import SqlStatement.Proofs.Match.Logs
import SqlStatement.Proofs.Match.Soundness

namespace SqlStatement

open Grammar (Derives Leaf Sequence Term)

/-- A token was read at `n`, or the word was missed there. Parts of a table whose
    leaves neither accept the token nor expect the word do neither. -/
def Log.Tests (n : Nat) (word : String) (log : Log) : Prop :=
  (∃ t, .leaf t n ∈ log.findings) ∨ ⟨n, .keyword word⟩ ∈ log.misses

variable {n : Nat} {word : String}

namespace Log

@[simp] theorem tests_append (a b : Log) :
    (a ++ b).Tests n word ↔ a.Tests n word ∨ b.Tests n word := by
  simp only [Tests, findings_append, misses_append, List.mem_append, exists_or]
  exact or_or_or_comm ..

@[simp] theorem not_tests_nil : ¬ nil.Tests n word := by
  simp [Tests]

/-- What neither of two logs tests is not tested in both. -/
theorem not_tests_append {a b : Log} (ha : ¬ a.Tests n word) (hb : ¬ b.Tests n word) :
    ¬ (a ++ b).Tests n word := by
  simp [ha, hb]

theorem tests_read {t : Token} {i : Nat} (h : (⟨[], [.leaf t i]⟩ : Log).Tests n word) : n = i := by
  rcases h with ⟨u, hu⟩ | hmiss
  · exact (Event.leaf.inj (List.mem_singleton.mp hu)).2
  · cases hmiss

/-- A leaf that misses a token tests its place for the words that it expects. It
    writes nothing else down. -/
theorem tests_missed {l : Leaf} {next : Option Token} {i : Nat}
    (h : (⟨(l.misses next).map (⟨i, ·⟩), [.miss l.announced i]⟩ : Log).Tests n word) :
    n = i ∧ .keyword word ∈ l.expectations := by
  rcases h with ⟨u, hu⟩ | hmiss
  · cases List.mem_singleton.mp hu
  · obtain ⟨e, he, heq⟩ := List.mem_map.mp hmiss
    cases heq
    refine ⟨rfl, ?_⟩
    unfold Leaf.misses at he
    split at he
    · split at he
      · cases he
      · exact he
    · exact he

/-- A failed production misses a word only if its body does, because a label is no
    word. -/
theorem tests_summary {p : Grammar.Production} {purpose : Purpose} {start : Nat} {log : Log}
    (h : (⟨p.summary purpose start log.misses, log.findings⟩ : Log).Tests n word) :
    log.Tests n word := by
  rcases h with hread | hmiss
  · exact .inl hread
  · unfold Grammar.Production.summary at hmiss
    split at hmiss
    · split at hmiss
      · cases List.mem_singleton.mp hmiss
      · exact .inr hmiss
    · exact .inr hmiss

end Log

namespace Matcher

variable {α β : Type} {g : Grammar} {tokens : Array Token} {c : Context} {i : Nat}

/-- From `i` the place is not tested, and a value is as said. -/
def Leaves (n : Nat) (word : String) (Q : α → Prop) (c : Context) (i : Nat) (m : Matcher α) :
    Prop :=
  m.Logs c i ⟨fun a _ log => Q a ∧ ¬ log.Tests n word, fun _ log => ¬ log.Tests n word,
    fun _ _ => True⟩

/-- From `i` a match that tests the place gets past it and past the token behind it,
    and the place is not tested in vain. -/
def Passes (n : Nat) (word : String) (c : Context) (i : Nat) (m : Matcher α) : Prop :=
  m.Logs c i ⟨fun _ stop log => log.Tests n word → n + 1 < stop, fun _ log => ¬ log.Tests n word,
    fun _ _ => True⟩

/-- From `i` steps that test the place get past it and past the token behind it, or
    they get stuck when their sequence has committed. -/
def StepsPass (n : Nat) (word : String) (c : Context) (i : Nat) (m : Matcher Ending) : Prop :=
  m.Logs c i ⟨fun ending stop log => log.Tests n word → match ending with
      | .finished _ _ => n + 1 < stop
      | .stuck committed => committed = true,
    fun _ _ => False, fun _ _ => True⟩

/-- Runs over the tokens do not test the place. -/
def Untested (tokens : Array Token) (n : Nat) (word : String) (Q : α → Prop) (m : Matcher α) :
    Prop :=
  ∀ c i, c.tokens = tokens → m.Leaves n word Q c i

namespace Untested

variable {Q : α → Prop} {m : Matcher α}

/-- Neither part tests the place, and so the whole does not. -/
theorem bind {R : β → Prop} {f : α → Matcher β} (hm : Untested tokens n word Q m)
    (hf : ∀ a, Q a → Untested tokens n word R (f a)) : Untested tokens n word R (m >>= f) := by
  refine fun c i hc => .bind ((hm c i hc).imp (fun a stop log ha => ?_) (fun _ _ => id)
    fun _ _ => id)
  exact (hf a ha.1 c stop hc).imp (fun _ _ _ hb => ⟨hb.1, Log.not_tests_append ha.2 hb.2⟩)
    (fun _ _ => Log.not_tests_append ha.2) fun _ _ => id

/-- A leaf that rejects the token and does not expect the word leaves the place
    untested. -/
theorem leaf {l : Leaf} (hrejects : ∀ t, tokens[n]? = some t → l.accepts t = false)
    (hword : .keyword word ∉ l.expectations) :
    Untested tokens n word (fun _ => True) (Matcher.leaf l) := by
  rintro c i rfl
  refine .leaf (fun t ht hl => ⟨trivial, fun htests => ?_⟩)
    fun _ htests => hword (Log.tests_missed htests).2
  cases Log.tests_read htests
  rw [hrejects t ht] at hl
  cases hl

/-- A verdict behind an untested run, or an error, of which nothing is asked.
    Neither going back nor blame tests a place. -/
theorem judge {m : Matcher α} {verdict : α → Option (Matcher β)}
    (hm : Untested tokens n word (fun _ => True) m)
    (hverdict : ∀ a next, verdict a = some next → Untested tokens n word (fun _ => True) next) :
    Untested tokens n word (fun _ => True)
      (m.listen >>= fun x => ((verdict x.1).getD (blame x.2) : Matcher β)) := by
  refine fun c i hc => .judge ((hm c i hc).imp (fun a stop log ha next hnext => ?_)
    (fun _ _ => id) fun _ _ => id) fun _ _ _ _ _ _ _ => trivial
  exact (hverdict a next hnext c stop hc).imp
    (fun _ _ _ hb => ⟨hb.1, Log.not_tests_append ha.2 hb.2⟩)
    (fun _ _ => Log.not_tests_append ha.2) fun _ _ => id

/-- A repetition leaves a place untested if its turns do. The induction is on the
    tokens that are left. -/
theorem iterate {item : Matcher (Bool × List Tree)}
    {separator : Option (Matcher (Bool × List Tree))}
    (hturn : ∀ first : Bool, Untested tokens n word (fun _ => True)
      (iteration item (if first then none else separator))) (first : Bool) :
    Untested tokens n word (fun _ => True) (Matcher.iterate item separator first) := by
  intro c i hc
  refine .iterate (fun _ => True) (fun _ =>
    ⟨fun _ _ log => True ∧ ¬ log.Tests n word, fun _ log => ¬ log.Tests n word, fun _ _ => True⟩)
    (fun first i _ => ?_) first trivial
  refine (hturn first c i hc).imp (fun found stop log hlog => ?_) (fun _ _ => id) fun _ _ => id
  cases found with
  | none => exact hlog
  | some nodes =>
    exact ⟨fun _ => ⟨trivial, fun _ _ _ hmore => ⟨trivial, Log.not_tests_append hlog.2 hmore.2⟩,
      fun _ _ => Log.not_tests_append hlog.2, fun _ _ _ => trivial⟩, fun _ => hlog⟩

end Untested

end Matcher

namespace Discipline

open Matcher

/-- Leaving a place untested is a discipline. -/
def untested (tokens : Array Token) (n : Nat) (word : String) : Discipline where
  Holds := Untested tokens n word
  Place _ := True
  Allowed l := (∀ t, tokens[n]? = some t → l.accepts t = false) ∧ .keyword word ∉ l.expectations
  pure ha _ _ _ := .pure ⟨ha, Log.not_tests_nil⟩
  bind := Untested.bind
  fail _ _ _ := .fail Log.not_tests_nil
  unknown _ _ _ _ _ _ := trivial
  tooDeep _ _ _ _ _ := trivial
  position _ _ _ _ _ := ⟨trivial, Log.not_tests_nil⟩
  seek _ _ _ _ _ _ := ⟨trivial, Log.not_tests_nil⟩
  report {e} he _ _ _ := .report_last ⟨trivial, fun htests => by
    rcases htests with ⟨t, ht⟩ | hmiss
    · exact Event.ne_leaf (Event.isTest_of_isMove he) t n
        (List.mem_singleton.mp (List.mem_of_mem_filter ht)).symm
    · cases hmiss⟩
  charge _ _ _ := .charge_last ⟨trivial, Log.not_tests_nil⟩
  checkPatience _ _ _ := .checkPatience_last ⟨trivial, Log.not_tests_nil⟩
  attempt hm c i hc := .attempt ((hm c i hc).imp (fun _ _ _ h => h)
    (fun _ _ h => ⟨trivial, h⟩) fun _ _ h => h)
  candidate branch start hm c i hc := .context (.report rfl (hm c i hc))
  judge := Untested.judge
  leaf hl := Untested.leaf hl.1 hl.2
  breakpoint _ _ _ := .breakpoint ⟨trivial, Log.not_tests_nil⟩
  production p _ hbody c i hc := .production
    ((hbody { c with stack := p.name :: c.stack } i hc).imp (fun _ _ _ h => h)
      (fun _ _ hnone htests => hnone (Log.tests_summary htests)) fun _ _ _ => trivial)
  iterate := Untested.iterate

end Discipline

namespace Matcher

variable {g : Grammar} {tokens : Array Token} {c : Context} {i : Nat}

section Passes

variable {threshold earned : Nat} {committed : Bool}

/-- The last step of a sequence may be the one that tests the place. -/
theorem stepsPass_last {m : Matcher (List Tree)} (hm : m.Passes n word c i) :
    (steps threshold [m] earned committed).StepsPass n word c i := by
  refine .steps_cons (hm.imp (fun nodes j log hpast => ?_) (fun j log hnone htests => ?_)
    fun _ _ => id)
  · exact .steps_nil fun htests => hpast (by simpa using htests)
  · exact absurd htests hnone

/-- Steps that do not test the place lead to the steps behind them, with what they
    have earned. -/
theorem stepsPass_append {known : List String} (hknown : g.NullableWithin known)
    {front : List Term} {ms rest : List (Matcher (List Tree))}
    (hms : List.Forall₂ (fun t m => RealizesTerm g tokens t m ∧
      Untested tokens n word (fun _ => True) m) front ms)
    (hc : c.tokens = tokens) (hi : i ≤ tokens.size)
    (hrest : ∀ earned' committed' j, earned + front.countP (!·.nullable known) ≤ earned' →
      j ≤ tokens.size → (steps threshold rest earned' committed').StepsPass n word c j) :
    (steps threshold (ms ++ rest) earned committed).StepsPass n word c i := by
  induction hms generalizing earned committed i with
  | nil => exact hrest earned committed i (Nat.le_refl _) hi
  | @cons t m front ms ht _ ih =>
    have hstep := (ht.2 c i hc).and_ensures (ht.1 c i hc hi)
    refine .steps_cons (hstep.imp (fun nodes j log hnodes => ?_)
      (fun j log hnone htests => absurd htests hnone.2) fun _ _ => id)
    obtain ⟨hnodes, -, hlog⟩ := hnodes
    have hgain : earned + (t :: front).countP (!·.nullable known) ≤
        (if i < j then earned + 1 else earned) + front.countP (!·.nullable known) := by
      rw [List.countP_cons]
      cases hnullable : t.nullable known with
      | true =>
        simp only [Bool.not_true, Bool.false_eq_true, if_false]
        split <;> omega
      | false =>
        rw [if_pos (hnodes.lt_of_not_nullable hknown hnullable)]
        simp only [Bool.not_false, if_true]
        omega
    refine (ih (hnodes.stop_le_size hi) fun earned' committed' k hearned hk =>
      hrest earned' committed' k (Nat.le_trans hgain hearned) hk).imp
      (fun ending k more hending htests => ?_) (fun _ _ => id) fun _ _ => id
    have hresolved := hending (by simpa [hlog] using htests)
    cases ending <;> exact hresolved

/-- A sequence whose steps get past the place does so too: having committed, it
    aborts rather than going back. -/
theorem passes_sequence {ms : List (Matcher (List Tree))}
    (hms : (steps threshold ms 0 false).StepsPass n word c i) :
    (sequence threshold ms).Passes n word c i := by
  refine .sequence (hms.imp (fun ending j log hending => ?_) (fun _ _ => id) fun _ _ => id)
    fun _ _ _ _ _ => trivial
  match ending with
  | .finished committed nodes => exact hending
  | .stuck true => trivial
  | .stuck false => exact fun htests => Bool.false_ne_true (hending htests)

/-- From `i` a match commits and gets past the place if it tests it. -/
def Decides (n : Nat) (word : String) (c : Context) (i : Nat) (m : Matcher (Bool × List Tree)) :
    Prop :=
  m.Logs c i ⟨fun x stop log => x.1 = true ∧ (log.Tests n word → n + 1 < stop),
    fun _ log => ¬ log.Tests n word, fun _ _ => True⟩

/-- A sequence of one term commits if the term gets past a token. So the candidate
    is not given up for a longer one. -/
theorem decides_single {m : Matcher (List Tree)} (hm : m.Passes n word c i)
    (hmoves : m.Ensures c i (fun _ j => i < j) fun _ => True) :
    (sequence 1 [m]).Decides n word c i := by
  have hsteps : (steps 1 [m] 0 false).Logs c i
      ⟨fun ending j log => match ending with
        | .finished committed _ => committed = true ∧ (log.Tests n word → n + 1 < j)
        | .stuck _ => ¬ log.Tests n word,
        fun _ _ => False, fun _ _ => True⟩ := by
    refine .steps_cons ((hm.and_ensures hmoves).imp (fun nodes j log hnodes => .steps_nil ?_)
      (fun _ _ hnone => hnone.2) fun _ _ => id)
    refine ⟨by simp [hnodes.1], fun htests => hnodes.2 (by simpa using htests)⟩
  refine .sequence (hsteps.imp (fun ending j log hending => ?_) (fun _ _ => id) fun _ _ => id)
    fun _ _ _ _ _ => trivial
  match ending with
  | .finished committed nodes => exact hending
  | .stuck true => trivial
  | .stuck false => exact hending

/-- Candidates that commit wherever they match are not given up for another one. One
    that fails has not tested the place, and the next one starts afresh. -/
theorem passes_choose {start : Nat} {candidates : List (Matcher (Bool × List Tree))}
    (hcandidates : ∀ m ∈ candidates, m.Decides n word c start) (branch : Nat) :
    (choose start candidates branch none).Passes n word c i := by
  induction candidates generalizing branch i with
  | nil => exact .choose_nil Log.not_tests_nil
  | cons candidate rest ih =>
    obtain ⟨hcandidate, hrest⟩ := List.forall_mem_cons.mp hcandidates
    refine .choose_cons (hcandidate.imp (fun x j log hx => ?_) (fun j log hnone => ?_)
      fun _ _ => id)
    · match x with
      | (true, nodes) => exact fun _ => hx.2
      | (false, nodes) => exact absurd hx.1 Bool.false_ne_true
    · have hnone : ¬ log.Tests n word := hnone
      exact (ih hrest (branch + 1)).imp
        (fun _ _ _ hpast htests => hpast (by simpa [hnone] using htests))
        (fun _ _ => Log.not_tests_append hnone) fun _ _ => id

/-- So an alternation of such candidates gets past the place. -/
theorem passes_alternation {candidates : List (Matcher (Bool × List Tree))}
    (hcandidates : ∀ m ∈ candidates, m.Decides n word c i) :
    (alternation candidates).Passes n word c i :=
  .position (passes_choose hcandidates 0)

/-- A production gets past the place where its body does, and misses the word only
    with it. -/
theorem passes_production {p : Grammar.Production} {body : Matcher (Bool × List Tree)}
    (hbody : body.Passes n word { c with stack := p.name :: c.stack } i) :
    (Matcher.production p body).Passes n word c i :=
  .production (hbody.imp (fun _ _ _ => id)
    (fun _ _ hnone htests => hnone (Log.tests_summary htests)) fun _ _ => id)

end Passes

-- A list of items with a terminator each, and what stands behind it. The place may be that
-- of a terminator, and it may lie behind an item that has none; then the list ends in front of
-- the item, and what stands behind the list does not start there.

section Items

variable {Bars : Nat → Prop}

/-- From `i` a match that tests the place gets past it, and a failure that tests it
    bars the way for what stands behind. -/
def Ends (Bars : Nat → Prop) (n : Nat) (word : String) (c : Context) (i : Nat)
    (m : Matcher (Bool × List Tree)) : Prop :=
  m.Logs c i ⟨fun _ j log => log.Tests n word → n < j, fun j log => log.Tests n word → Bars j,
    fun _ _ => True⟩

/-- An item fails that has no terminator. It has tested the place for the
    terminator, and what is matched in front of it bars the way. -/
theorem ends_item {t : Term} {m : Matcher (List Tree)} {l : Leaf} (threshold : Nat)
    (hc : c.tokens = tokens) (hi : i ≤ tokens.size) (hm : RealizesTerm g tokens t m)
    (huntested : Untested tokens n word (fun _ => True) m)
    (hbars : ∀ nodes, Derives g tokens (.term t) i n nodes → Bars i) :
    (sequence threshold [m, do charge; leaf l]).Ends Bars n word c i := by
  have hsteps : (steps threshold [m, do charge; leaf l] 0 false).Logs c i
      ⟨fun ending j log => match ending with
        | .finished _ _ => log.Tests n word → n < j
        | .stuck _ => log.Tests n word → Bars i,
        fun _ _ => False, fun _ _ => True⟩ := by
    have hitem := (huntested c i hc).and_ensures (hm c i hc hi)
    refine .steps_cons (hitem.imp (fun nodes j log hnodes => ?_)
      (fun j log hnone htests => absurd htests hnone.2) fun _ _ => id)
    obtain ⟨hnodes, -, hlog⟩ := hnodes
    refine .steps_cons (.charge (.leaf (fun t' ht' hl => .steps_nil fun htests => ?_)
      fun hl htests => ?_))
    · have hplace : n = j := Log.tests_read (by simpa [hlog] using htests)
      omega
    · have hplace := (Log.tests_missed (by simpa [hlog] using htests)).1
      exact hbars nodes (hplace ▸ hnodes)
  refine .sequence (hsteps.imp (fun ending j log hending => ?_) (fun _ _ => id) fun _ _ => id)
    fun _ _ _ _ _ => trivial
  match ending with
  | .finished committed nodes => exact hending
  | .stuck true => trivial
  | .stuck false => exact hending

/-- A list of such items gets past the place, or it ends where the way is barred.
    The induction on the turns keeps that they do not go back, so an earlier turn
    past the place stays past it. -/
theorem repetition_ends {item : Sequence} {m : Matcher (Bool × List Tree)} (least : Nat)
    (hc : c.tokens = tokens) (hi : i ≤ tokens.size) (hm : RealizesSequence g tokens item m)
    (hitem : ∀ i ≤ tokens.size, m.Ends Bars n word c i) :
    (repetition m none least).Logs c i
      ⟨fun _ j log => log.Tests n word → n < j ∨ Bars j, fun _ _ => True, fun _ _ => True⟩ := by
  have hturns : Logs c i (iterate m none true)
      ⟨fun _ j log => i ≤ j ∧ (log.Tests n word → n < j ∨ Bars j), fun _ _ => False,
        fun _ _ => True⟩ := by
    refine .iterate (· ≤ tokens.size) (fun i =>
      ⟨fun _ j log => i ≤ j ∧ (log.Tests n word → n < j ∨ Bars j), fun _ _ => False,
        fun _ _ => True⟩) (fun first i hi => ?_) true hi
    rw [ite_self]
    have hone := (hitem i hi).and_ensures (hm c i hc hi)
    refine .iteration (.turn_bare (hone.imp (fun x j log hx _ => ?_) (fun j log hnone => ?_)
      fun _ _ => id)) fun _ _ _ _ _ => trivial
    · obtain ⟨hnodes, hpast⟩ := hx
      have hle := hnodes.start_le_stop
      refine ⟨fun _ => ⟨hnodes.stop_le_size hi, ?_⟩, fun _ => ⟨hle, fun h => .inl (hpast h)⟩⟩
      refine ⟨fun _ k more hrest => ⟨Nat.le_trans hle hrest.1, fun htests => ?_⟩,
        fun _ _ => id, fun _ _ => id⟩
      rcases (Log.tests_append ..).mp htests with hfront | hmore
      · exact .inl (Nat.lt_of_lt_of_le (hpast hfront) hrest.1)
      · exact hrest.2 hmore
    · exact ⟨Nat.le_of_eq hnone.1.symm, fun h => .inr (hnone.2 h)⟩
  refine .repetition (hturns.imp (fun x j log hx => ?_) (fun _ _ => id) fun _ _ => id)
  split
  · trivial
  · exact fun _ => hx.2

/-- Behind such a list a sequence that has committed gets past the place with its
    last step, or it is given up. -/
theorem stepsPass_closed (Bars : Nat → Prop) {m last : Matcher (List Tree)}
    {threshold earned : Nat} {committed : Bool} (hearned : threshold ≤ earned)
    (hm : m.Logs c i
      ⟨fun _ j log => log.Tests n word → n < j ∨ Bars j, fun _ _ => True, fun _ _ => True⟩)
    (hlast : ∀ j, last.Logs c j
      ⟨fun _ stop log => stop = j + 1 ∧ ¬ Bars j ∧ ¬ log.Tests n word, fun _ _ => True,
        fun _ _ => True⟩) :
    (steps threshold [m, last] earned committed).StepsPass n word c i := by
  have hcommitted : (committed || decide (threshold ≤ earned)) = true := by simp [hearned]
  refine .steps_cons (hm.imp (fun nodes j log hpast => ?_) (fun _ _ _ _ => hcommitted)
    fun _ _ => id)
  rw [hcommitted]
  refine .steps_cons ((hlast j).imp (fun more stop log' hend => .steps_nil fun htests => ?_)
    (fun _ _ _ _ => rfl) fun _ _ => id)
  obtain ⟨rfl, hopen, hlog'⟩ := hend
  rcases hpast (by simpa [hlog'] using htests) with hlt | hbarred
  · exact Nat.add_lt_add_right hlt 1
  · exact absurd hbarred hopen

end Items

end Matcher

end SqlStatement

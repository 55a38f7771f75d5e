import SqlStatement.Parser
import SqlStatement.Proofs.Match.Discipline
import SqlStatement.Proofs.Match.Run
import SqlStatement.Proofs.Lexer.Case

namespace SqlStatement

/-- A way to look at tokens that keeps what leaves test: the kind, and the text up
    to letter case. -/
structure View where
  token : Token → Token
  /-- What it leaves of a text. -/
  quote : String → String
  text_token : ∀ t, (token t).text = quote t.text
  accepts_token : ∀ (l : Grammar.Leaf) t, l.accepts (token t) = l.accepts t

/-- The token itself. -/
def View.whole : View := ⟨id, id, fun _ => rfl, fun _ _ => rfl⟩

/-- The kind of a token and its text in upper case, without its place. -/
def Token.outline (t : Token) : Token := ⟨t.kind, Text.upper t.text, ⟨0, 0⟩⟩

/-- No leaf looks at the place of a token or at the case of its letters. Words are
    compared without regard to case, and the other leaves go by the kind. -/
theorem Grammar.Leaf.accepts_outline (l : Grammar.Leaf) (t : Token) :
    l.accepts t.outline = l.accepts t := by
  cases l with
  | literal text => simp [accepts, Token.outline, Text.sameWord, Text.upper_upper]
  | kind | oneOf | identifier | stringLiteral => rfl

/-- The outlines of the tokens, as a view of them. -/
def View.outline : View :=
  ⟨Token.outline, Text.upper, fun _ => rfl, Grammar.Leaf.accepts_outline⟩

/-- What a leaf misses in front of a token does not depend on the token. -/
theorem Grammar.Leaf.misses_some (l : Grammar.Leaf) (t u : Token) :
    l.misses (some t) = l.misses (some u) := by
  cases l <;> rfl

/-- The error, quoting what is left of the text. -/
def InputError.quote (q : String → String) (e : InputError) : InputError :=
  { e with found := e.found.map q }

/-- An error about tokens that are looked at quotes what the look leaves of their
    texts. Its position and its expectations come from the misses alone. -/
theorem InputError.ofMisses_view (v : View) (tokens : Array Token) (current : Nat)
    (misses : List Miss) : ofMisses (tokens.map v.token) current misses =
      (ofMisses tokens current misses).quote v.quote := by
  simp [ofMisses, quote, v.text_token, Function.comp_def]

/-- The same for outlines, in which the text that an error quotes is in upper case. -/
theorem InputError.ofMisses_outline (tokens : Array Token) (current : Nat) (misses : List Miss) :
    ofMisses (tokens.map Token.outline) current misses =
      (ofMisses tokens current misses).quote Text.upper :=
  ofMisses_view .outline tokens current misses

/-- The error, quoting what is left of the text if it is an input error. -/
def ParseError.quote (q : String → String) : ParseError → ParseError
  | .input e => .input (e.quote q)
  | e => e

/-- The error, quoting in upper case. -/
def ParseError.upper (e : ParseError) : ParseError := e.quote Text.upper

/-- The outcome, with an error that quotes what is left of the text. -/
def Outcome.quote {α : Type} (q : String → String) : Outcome α → Outcome α
  | .aborted e => .aborted (e.quote q)
  | o => o

/-- The context with its tokens looked at, inside of other productions. -/
def Context.view (v : View) (stack : List String) (c : Context) : Context :=
  { c with tokens := c.tokens.map v.token, stack }

/-- However tokens are looked at, there are as many of them. -/
theorem Context.size_view (v : View) (stack : List String) (c : Context) :
    (c.view v stack).tokens.size = c.tokens.size :=
  Array.size_map

/-- A run ends as another one does, quoting what is left of a text, and has missed
    the same. What it has reported may differ. -/
structure Result.Quotes {α : Type} (q : String → String) (r r' : Result α) : Prop where
  outcome_eq : r.outcome = r'.outcome.quote q
  state_eq : r.state = r'.state
  misses_eq : r.record.misses = r'.record.misses

namespace Outcome

variable {α β : Type} {q : String → String}

/-- A match quotes nothing, so its value is the same. -/
theorem quote_eq_matched {o : Outcome α} {a : α} : o.quote q = .matched a ↔ o = .matched a := by
  cases o <;> simp [quote]

theorem quote_map (f : α → β) (o : Outcome α) : (o.map f).quote q = (o.quote q).map f := by
  cases o <;> rfl

theorem quote_attempted (o : Outcome α) : o.attempted.quote q = (o.quote q).attempted := by
  cases o <;> rfl

theorem quote_given (o : Outcome α) : (o.given : Outcome β).quote q = (o.quote q).given := by
  cases o <;> rfl

theorem quote_id (o : Outcome α) : o.quote id = o := by
  cases o with
  | aborted e => cases e <;> simp [quote, ParseError.quote, InputError.quote]
  | matched | failed => rfl

end Outcome

/-- However its tokens are looked at and whatever productions are open, a matcher
    does the same, with values as said. So where a token stands in its source and in
    which case its letters are matters to no match, except that an error quotes the
    text it has found. -/
def Matcher.Sees {α : Type} (v : View) (Q : α → Prop) (m : Matcher α) : Prop :=
  ∀ c stack s, (∀ a, (m c s).outcome = .matched a → Q a) ∧
    (m (c.view v stack) s).Quotes v.quote (m c s)

namespace Matcher

variable {α β : Type} {v : View}

namespace Sees

/-- A step that does not read the context and does not blame a token. -/
theorem of_unread {Q : α → Prop} {m : Matcher α} (hsame : ∀ c c' s, m c s = m c' s)
    (hquotes : ∀ c s, (m c s).outcome.quote v.quote = (m c s).outcome)
    (hvalue : ∀ c s a, (m c s).outcome = .matched a → Q a) : Sees v Q m :=
  fun c stack s => ⟨hvalue c s, by
    rw [hsame (c.view v stack) c]
    exact ⟨(hquotes c s).symm, rfl, rfl⟩⟩

/-- What comes behind a match starts from the same state with the same value, so it
    is enough that it does the same itself. -/
theorem bind {Q : α → Prop} {R : β → Prop} {m : Matcher α} {f : α → Matcher β} (hm : Sees v Q m)
    (hf : ∀ a, Q a → Sees v R (f a)) : Sees v R (m >>= f) := by
  intro c stack s
  obtain ⟨hvalue, h⟩ := hm c stack s
  by_cases hmatched : ∃ a, (m c s).outcome = .matched a
  · obtain ⟨a, houtcome⟩ := hmatched
    have houtcome' := h.outcome_eq.trans (Outcome.quote_eq_matched.mpr houtcome)
    obtain ⟨hvalue', h'⟩ := hf a (hvalue a houtcome) c stack (m c s).state
    rw [run_bind_matched houtcome, run_bind_matched houtcome', h.state_eq]
    refine ⟨hvalue', h'.outcome_eq, h'.state_eq, ?_⟩
    show (m (c.view v stack) s).record.misses ++ _ = (m c s).record.misses ++ _
    rw [h.misses_eq, h'.misses_eq]
  · have hunmatched : ∀ a, (m (c.view v stack) s).outcome ≠ .matched a := fun a ha =>
      hmatched ⟨a, Outcome.quote_eq_matched.mp (h.outcome_eq ▸ ha)⟩
    rw [run_bind_unmatched fun a ha => hmatched ⟨a, ha⟩, run_bind_unmatched hunmatched]
    refine ⟨fun b hb => absurd hb (Outcome.given_ne_matched _ _), ?_, h.state_eq, h.misses_eq⟩
    rw [h.outcome_eq, Outcome.quote_given]

/-- An attempt ends as its matcher does up to the failure that it turns into a
    value. -/
theorem attempt {m : Matcher α} (hm : Sees v (fun _ => True) m) :
    Sees v (fun _ => True) m.attempt := by
  intro c stack s
  obtain ⟨-, h⟩ := hm c stack s
  rw [run_attempt, run_attempt]
  refine ⟨fun _ _ => trivial, ?_, h.state_eq, h.misses_eq⟩
  rw [h.outcome_eq, Outcome.quote_attempted]

/-- The misses that are listened to are the same on both sides. Errors are made of
    them, and quote a text only when they are raised. -/
theorem listen {m : Matcher α} (hm : Sees v (fun _ => True) m) :
    Sees v (fun _ => True) m.listen := by
  intro c stack s
  obtain ⟨-, h⟩ := hm c stack s
  rw [run_listen, run_listen]
  refine ⟨fun _ _ => trivial, ?_, h.state_eq, h.misses_eq⟩
  dsimp only
  rw [h.outcome_eq, h.misses_eq, Outcome.quote_map]

/-- What is made of the misses of a failure depends on these misses only. They are
    expectations at places, in which no text of the input occurs. -/
theorem onFailure (f : Journal Miss → Journal Miss) {m : Matcher α}
    (hm : Sees v (fun _ => True) m) : Sees v (fun _ => True) (m.onFailure f) := by
  intro c stack s
  obtain ⟨-, h⟩ := hm c stack s
  rw [run_onFailure, run_onFailure]
  refine ⟨fun _ _ => trivial, h.outcome_eq, h.state_eq, ?_⟩
  dsimp only
  rw [h.outcome_eq]
  cases (m c s).outcome with
  | failed => exact congrArg f h.misses_eq
  | matched | aborted => exact h.misses_eq

/-- Another open production on both stacks makes no difference. The stack is
    arbitrary in what is to be shown. -/
theorem within (name : String) {m : Matcher α} (hm : Sees v (fun _ => True) m) :
    Sees v (fun _ => True) (m.within name) := by
  intro c stack s
  obtain ⟨-, h⟩ := hm { c with stack := name :: c.stack } (name :: stack)
    ⟨s.position, s.fuel, s.patience.map (· - 1)⟩
  refine ⟨fun _ _ => trivial, h.outcome_eq, ?_, ?_⟩
  · exact congrArg (fun s : State => { s with patience := s.patience.map (· - 1) }) h.state_eq
  · exact congrArg (fun misses => Journal.empty ++ misses ++ Journal.empty) h.misses_eq

/-- What is done with the context reads neither the tokens nor the stack. That is
    the case for the purpose and for the number of tokens. -/
theorem context {Q : α → Prop} {f : Context → Matcher α}
    (hunread : ∀ c stack, f (c.view v stack) = f c) (hf : ∀ c, Sees v Q (f c)) :
    Sees v Q (Matcher.context >>= f) := by
  intro c stack s
  obtain ⟨hvalue, h⟩ := hf c c stack s
  have hrun (c : Context) : (Matcher.context >>= f) c s =
      ⟨(f c c s).outcome, (f c c s).state, .empty ++ (f c c s).record⟩ := rfl
  rw [hrun, hrun, hunread c]
  exact ⟨hvalue, h.outcome_eq, h.state_eq, congrArg (Journal.empty ++ ·) h.misses_eq⟩

theorem pure {Q : α → Prop} {a : α} (ha : Q a) : Sees v Q (Pure.pure a) :=
  of_unread (fun _ _ _ => rfl) (fun _ _ => rfl) fun _ _ _ h => Outcome.matched.inj h ▸ ha

theorem position : Sees v (fun _ => True) Matcher.position :=
  of_unread (fun _ _ _ => rfl) (fun _ _ => rfl) fun _ _ _ _ => trivial

theorem report (e : Event) : Sees v (fun _ => True) (Matcher.report e) :=
  of_unread (fun _ _ _ => rfl) (fun _ _ => rfl) fun _ _ _ _ => trivial

/-- Blame names the same place and the same expectations, and quotes the token
    there. -/
theorem blame (misses : Journal Miss) :
    Sees v (fun _ => True) (Matcher.blame misses : Matcher α) := by
  intro c stack s
  refine ⟨fun _ _ => trivial, ?_, rfl, rfl⟩
  exact congrArg (fun e => Outcome.aborted (.input e)) (InputError.ofMisses_view v ..)

/-- Looking at the next token, if what comes then does the same. The token that is
    found is looked at on the other side. -/
theorem peek {Q : α → Prop} {f : Option Token → Matcher α}
    (hf : ∀ next c stack s, (∀ a, (f next c s).outcome = .matched a → Q a) ∧
      (f (next.map v.token) (c.view v stack) s).Quotes v.quote (f next c s)) :
    Sees v Q (Matcher.peek >>= f) := by
  intro c stack s
  obtain ⟨hvalue, h⟩ := hf c.tokens[s.position]? c stack s
  have hnext : (c.view v stack).tokens[s.position]? = c.tokens[s.position]?.map v.token :=
    Array.getElem?_map ..
  have hrun (c : Context) : (Matcher.peek >>= f) c s =
      ⟨(f c.tokens[s.position]? c s).outcome, (f c.tokens[s.position]? c s).state,
        .empty ++ (f c.tokens[s.position]? c s).record⟩ := rfl
  rw [hrun, hrun, hnext]
  exact ⟨hvalue, h.outcome_eq, h.state_eq, congrArg (Journal.empty ++ ·) h.misses_eq⟩

/-- A leaf only reports the token that it accepts, and tests nothing of it that the
    view does not keep. -/
theorem leaf (l : Grammar.Leaf) : Sees v (fun _ => True) (Matcher.leaf l) := by
  have hmiss (next : Option Token) (here : Nat) : Sees v (fun _ => True)
      (Matcher.expect (l.misses next) >>= fun _ =>
        Matcher.report (.miss l.announced here) >>= fun _ =>
          (Matcher.fail : Matcher (List Tree))) :=
    of_unread (fun _ _ _ => rfl) (fun _ _ => rfl) fun _ _ _ _ => trivial
  refine bind position fun here _ => peek fun next c stack s => ?_
  cases next with
  | none => exact hmiss none here c stack s
  | some t =>
    simp only [Option.map_some, v.accepts_token, l.misses_some (v.token t) t]
    split
    · exact ⟨fun _ _ => trivial, rfl, rfl, rfl⟩
    · exact hmiss (some t) here c stack s

/-- Where the input ends is the same however the tokens are looked at. The open
    productions are reported, which are not compared. -/
theorem breakpoint : Sees v (fun _ => True) Matcher.breakpoint := by
  intro c stack s
  have hmisses (c : Context) : (Matcher.breakpoint c s).record.misses =
      if c.purpose == .completing && c.tokens.size ≤ s.position then
        .empty ++ (.empty ++ (.empty ++ (.empty ++ .empty)))
      else .empty ++ (.empty ++ (.empty ++ .empty)) := by
    simp only [Matcher.breakpoint, Bind.bind, Matcher.bind, Matcher.context, Matcher.position,
      Matcher.report]
    split <;> rfl
  obtain ⟨houtcome, hstate, -⟩ := run_breakpoint c s
  obtain ⟨houtcome', hstate', -⟩ := run_breakpoint (c.view v stack) s
  refine ⟨fun _ _ => trivial, ?_, hstate'.trans hstate.symm, ?_⟩
  · rw [houtcome, houtcome']
    rfl
  · rw [hmisses, hmisses, Context.size_view]
    rfl

/-- A production does the same if its body does, since its name and its label are
    not taken from the tokens. -/
theorem production (p : Grammar.Production) {body : Matcher (Bool × List Tree)}
    (hbody : Sees v (fun _ => True) body) :
    Sees v (fun _ => True) (Matcher.production p body) := by
  refine bind position fun start _ => context (fun _ _ => rfl) fun c => ?_
  refine bind (onFailure _ (within p.name hbody)) fun x _ => ?_
  exact bind position fun stop _ => pure trivial

/-- A repetition goes on as long as its turns get further, which is the same on both
    sides. -/
theorem iterate {item : Matcher (Bool × List Tree)}
    {separator : Option (Matcher (Bool × List Tree))}
    (hturn : ∀ first : Bool, Sees v (fun _ => True)
      (iteration item (if first then none else separator))) (first : Bool) :
    Sees v (fun _ => True) (Matcher.iterate item separator first) := by
  intro c stack s
  refine ⟨fun _ _ => trivial, ?_⟩
  -- each turn that goes on comes closer to the end of the tokens
  induction hleft : c.tokens.size - s.position using Nat.strongRecOn generalizing first s with
  | _ left ih =>
  obtain ⟨-, h⟩ := hturn first c stack s
  generalize hr : iteration item (if first then none else separator) c s = r at h
  generalize hr' : iteration item (if first then none else separator) (c.view v stack) s = r' at h
  have hgoes_iff : GoesOn (c.view v stack) s.position r' ↔ GoesOn c s.position r := by
    simp only [GoesOn, h.outcome_eq, h.state_eq, Outcome.quote_eq_matched, Context.size_view]
  by_cases hgoes : GoesOn c s.position r
  · obtain ⟨nodes, houtcome, hprogress⟩ := hgoes
    have houtcome' := h.outcome_eq.trans (Outcome.quote_eq_matched.mpr houtcome)
    have hprogress' : (c.view v stack).tokens.size - r'.state.position <
        (c.view v stack).tokens.size - s.position := by
      rwa [h.state_eq, Context.size_view]
    have h' := ih _ (hleft ▸ hprogress) false r.state rfl
    rw [run_iterate_next hr houtcome hprogress, run_iterate_next hr' houtcome' hprogress',
      h.state_eq]
    refine ⟨?_, h'.state_eq, ?_⟩
    · dsimp only
      rw [h'.outcome_eq, Outcome.quote_map]
    · show r'.record.misses ++ _ = r.record.misses ++ _
      rw [h.misses_eq, h'.misses_eq]
  · rw [run_iterate_ended hr hgoes, run_iterate_ended hr' fun h' => hgoes (hgoes_iff.mp h')]
    refine ⟨?_, h.state_eq, h.misses_eq⟩
    dsimp only
    rw [h.outcome_eq, Outcome.quote_map]

/-- Trying a candidate only reports the innermost open production. Reports are not
    compared either. -/
theorem candidate {Q : α → Prop} {m : Matcher α} (branch start : Nat) (hm : Sees v Q m) :
    Sees v Q (Matcher.context >>= fun c =>
      Matcher.report (.candidate (c.stack.head?.getD "") branch start) >>= fun _ => m) := by
  intro c stack s
  obtain ⟨hvalue, h⟩ := hm c stack ⟨s.position, s.fuel, s.patience.map (· - 1)⟩
  exact ⟨hvalue, h.outcome_eq, h.state_eq,
    congrArg (fun misses => Journal.empty ++ (Journal.empty ++ misses)) h.misses_eq⟩

end Sees

end Matcher

namespace Discipline

open Matcher

/-- Seeing no more of the tokens than a view of them is a discipline. -/
def sees (v : View) : Discipline where
  Holds := Sees v
  Place _ := True
  Allowed _ := True
  pure := Sees.pure
  bind := Sees.bind
  fail := .of_unread (fun _ _ _ => rfl) (fun _ _ => rfl) nofun
  unknown _ := .of_unread (fun _ _ _ => rfl) (fun _ _ => rfl) nofun
  tooDeep := .of_unread (fun _ _ _ => rfl) (fun _ _ => rfl) nofun
  position := Sees.position
  seek _ := .of_unread (fun _ _ _ => rfl) (fun _ _ => rfl) fun _ _ _ _ => trivial
  report _ := Sees.report _
  charge := .of_unread (fun _ _ _ => rfl) (fun _ s => by rcases s with ⟨p, _ | n, q⟩ <;> rfl)
    fun _ _ _ _ => trivial
  checkPatience := .of_unread (fun _ _ _ => rfl)
    (fun _ s => by unfold Matcher.checkPatience; split <;> rfl) fun _ _ _ _ => trivial
  attempt := Sees.attempt
  candidate := Sees.candidate
  judge {_ _ m verdict} hm hverdict := .bind (.listen hm) fun x _ => by
    cases h : verdict x.1 with
    | none => exact .blame x.2
    | some next => exact hverdict x.1 next h
  leaf _ := Sees.leaf _
  breakpoint := Sees.breakpoint
  production p _ hbody := Sees.production p hbody
  iterate := Sees.iterate

end Discipline

namespace Parser

variable (p : Parser)

/-- A parser sees no more of its tokens than their outlines. -/
theorem quotes_run (purpose : Purpose) (tokens : Array Token) :
    (p.run purpose (tokens.map Token.outline)).Quotes Text.upper (p.run purpose tokens) :=
  ((Discipline.sees .outline).keeps_matcher (g := p.grammar) (fun _ _ => trivial) p.limits.depth
    p.root ⟨tokens, purpose, []⟩ [] ⟨0, p.limits.fuel, p.patience⟩).2

/-- What a parser makes of a run is the same up to what an error quotes. The misses
    are the same, and so is the place that an error names. -/
theorem conclude_outline {tokens : Array Token} {r r' : Result Tree}
    (h : r.Quotes Text.upper r') : conclude (tokens.map Token.outline) r =
      (conclude tokens r').mapError ParseError.upper := by
  unfold conclude
  rw [h.outcome_eq, h.state_eq, h.misses_eq]
  cases r'.outcome with
  | matched tree => rfl
  | failed =>
    dsimp only [Outcome.quote]
    rw [InputError.ofMisses_outline]
    rfl
  | aborted e => rfl

/-- Tokens behind the tree are left over in the same way, except that the error
    about them quotes one. -/
theorem trailing?_outline (tokens : Array Token) (tree : Tree) :
    trailing? (tokens.map Token.outline) tree = trailing? tokens tree := by
  have hsemicolon : (tokens.map Token.outline)[tree.span.stop]?.any Token.isSemicolon =
      tokens[tree.span.stop]?.any Token.isSemicolon := by
    rw [Array.getElem?_map, Option.any_map]
    rfl
  simp only [trailing?, hsemicolon, Array.size_map]

/-- The same for a parse of the whole input. A token that trails a match is quoted
    too, and is looked at like the others. -/
theorem concludeAll_outline {tokens : Array Token} {r r' : Result Tree}
    (h : r.Quotes Text.upper r') : concludeAll (tokens.map Token.outline) r =
      (concludeAll tokens r').mapError ParseError.upper := by
  unfold concludeAll
  rw [conclude_outline h]
  cases conclude tokens r' with
  | error e => rfl
  | ok tree =>
    dsimp only [Except.mapError]
    rw [trailing?_outline]
    cases trailing? tokens tree with
    | none => rfl
    | some next =>
      dsimp only
      rw [h.state_eq, h.misses_eq, InputError.ofMisses_outline]
      rfl

theorem mapError_eq_ok {ε ε' α : Type} {f : ε → ε'} {x : Except ε α} {a : α} :
    x.mapError f = .ok a ↔ x = .ok a := by
  cases x <;> simp [Except.mapError]

theorem mapError_eq_error {ε ε' α : Type} {f : ε → ε'} {x : Except ε α} {e' : ε'} :
    x.mapError f = .error e' ↔ ∃ e, x = .error e ∧ f e = e' := by
  cases x <;> simp [Except.mapError]

section Congr

variable {p} {tokens others : List Token}

theorem map_outline_toArray (tokens : List Token) :
    tokens.toArray.map Token.outline = (tokens.map Token.outline).toArray :=
  List.map_toArray ..

/-- Tokens with the same outlines have the same tree, or errors that differ in what
    they quote. -/
theorem conclude_of_outlines (h : tokens.map Token.outline = others.map Token.outline) :
    (conclude tokens.toArray (p.run .reading tokens.toArray)).mapError ParseError.upper =
      (conclude others.toArray (p.run .reading others.toArray)).mapError ParseError.upper := by
  rw [← conclude_outline (p.quotes_run ..), ← conclude_outline (p.quotes_run ..),
    map_outline_toArray, map_outline_toArray, h]

/-- The same for a parse of the whole input, left-over tokens included. -/
theorem concludeAll_of_outlines (h : tokens.map Token.outline = others.map Token.outline) :
    (concludeAll tokens.toArray (p.run .reading tokens.toArray)).mapError ParseError.upper =
      (concludeAll others.toArray (p.run .reading others.toArray)).mapError ParseError.upper := by
  rw [← concludeAll_outline (p.quotes_run ..), ← concludeAll_outline (p.quotes_run ..),
    map_outline_toArray, map_outline_toArray, h]

/-- The root that a parse answers is what it concludes from its run. -/
theorem map_parse (tokens : List Token) : (p.parse tokens).map (·.root) =
    concludeAll tokens.toArray (p.run .reading tokens.toArray) := by
  simp only [parse, Bind.bind, Except.bind]
  cases concludeAll tokens.toArray (p.run .reading tokens.toArray) <;> rfl

/-- Tokens with the same outlines are parsed to the same tree. Letter case and white
    space are of no account. -/
theorem parse_of_outlines (h : tokens.map Token.outline = others.map Token.outline) :
    ((p.parse tokens).map (·.root)).mapError ParseError.upper =
      ((p.parse others).map (·.root)).mapError ParseError.upper := by
  rw [map_parse, map_parse, concludeAll_of_outlines h]

end Congr

end Parser

end SqlStatement

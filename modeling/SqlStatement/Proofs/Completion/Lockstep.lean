import SqlStatement.Proofs.Match.Bounds

namespace SqlStatement

open Grammar (Leaf)

/-- Tokens that stand behind a caret, and what they are read for. -/
structure Continuation where
  purpose : Purpose
  token : Token
  rest : List Token

/-- All tokens, with those in front of the caret. -/
def Continuation.tokens (w : Continuation) (front : Array Token) : Array Token :=
  front ++ (w.token :: w.rest).toArray

namespace Continuation

variable (w : Continuation) (front : Array Token)

/-- A continuation has at least one token more than there are in front of the
    caret. -/
theorem size_tokens : (w.tokens front).size = front.size + (w.rest.length + 1) := by
  simp [tokens]

theorem getElem?_tokens_of_lt {i : Nat} (hi : i < front.size) :
    (w.tokens front)[i]? = front[i]? := by
  simp [tokens, Array.getElem?_append_left hi]

theorem getElem?_tokens_size : (w.tokens front)[front.size]? = some w.token := by
  simp [tokens]

end Continuation

/-- The same ending, up to the error of an abort. -/
def Outcome.Alike {α : Type} : Outcome α → Outcome α → Prop
  | .matched a, .matched b => a = b
  | .failed, .failed => True
  | .aborted _, .aborted _ => True
  | _, _ => False

namespace Outcome

variable {α : Type} {a : α} {o o' : Outcome α}

theorem Alike.refl (o : Outcome α) : o.Alike o := by
  cases o <;> simp [Alike]

theorem Alike.matched_iff (h : o.Alike o') : o = .matched a ↔ o' = .matched a := by
  cases o <;> cases o' <;> simp_all [Alike]

theorem Alike.matched (h : o.Alike o') (ho : o = .matched a) : o' = .matched a := by
  cases o' <;> simp_all [Alike]

theorem Alike.failed (h : o.Alike o') (ho : o = .failed) : o' = .failed := by
  cases o' <;> simp_all [Alike]

theorem Alike.aborted {e : ParseError} (h : o.Alike o') (ho : o = .aborted e) :
    ∃ e', o' = .aborted e' := by
  cases o' <;> simp_all [Alike]

theorem Alike.attempted (h : o.Alike o') : o.attempted.Alike o'.attempted := by
  cases o <;> cases o' <;> simp_all [Alike, Outcome.attempted]

theorem Alike.map {β : Type} (f : α → β) (h : o.Alike o') : (o.map f).Alike (o'.map f) := by
  cases o <;> cases o' <;> simp_all [Alike, Outcome.map]

end Outcome

/-- The leaves `tried` account for a run `r` over the tokens in front of a caret:
    they are all that it misses at the caret, a run over a continuation reads the
    next token there if one of them accepts it, and does as `r` does if none of them
    does. So they tell for every continuation whether it gets past the caret. -/
structure Result.Tried {α : Type} (front : Array Token) (leaves : List Leaf) (r : Result α)
    (longer : Continuation → Result α) (tried : List Leaf) : Prop where
  position_le : r.state.position ≤ front.size
  patience : r.state.patience = none
  known : ∀ l ∈ tried, l ∈ leaves
  misses : ∀ e, ⟨front.size, e⟩ ∈ r.record.misses.toList ↔ ∃ l ∈ tried, e ∈ l.expectations
  reads : ∀ w : Continuation, ∀ l ∈ tried, l.accepts w.token = true →
    .leaf w.token front.size ∈ (longer w).record.events.toList
  alike : ∀ w : Continuation, (∀ l ∈ tried, l.accepts w.token = false) →
    r.outcome.Alike (longer w).outcome ∧ (longer w).state = r.state ∧
      ∀ t, .leaf t front.size ∉ (longer w).record.events.toList

namespace Result.Tried

variable {α β : Type} {front : Array Token} {leaves tried tried' : List Leaf} {r : Result α}
  {longer : Continuation → Result α} {r' : Result β} {longer' both : Continuation → Result β}

/-- A run that tests no leaf at the caret, and does the same over every
    continuation. -/
theorem of_quiet (hposition : r.state.position ≤ front.size) (hpatience : r.state.patience = none)
    (hmisses : ∀ e, ⟨front.size, e⟩ ∉ r.record.misses.toList)
    (halike : ∀ w, r.outcome.Alike (longer w).outcome ∧ (longer w).state = r.state ∧
      ∀ t, .leaf t front.size ∉ (longer w).record.events.toList) :
    r.Tried front leaves longer [] where
  position_le := hposition
  patience := hpatience
  known := nofun
  misses e := ⟨fun h => absurd h (hmisses e), fun ⟨_, h, _⟩ => nomatch h⟩
  reads _ := nofun
  alike w _ := halike w

/-- Two runs one behind the other try what both of them try. The second one need
    only be compared over continuations whose first token no leaf of the first one
    accepts. -/
theorem append (h : r.Tried front leaves longer tried) (h' : r'.Tried front leaves longer' tried')
    (hevents : ∀ w, (longer w).record.events.toList ⊆ (both w).record.events.toList)
    (hboth : ∀ w : Continuation, (∀ l ∈ tried, l.accepts w.token = false) → both w =
      ⟨(longer' w).outcome, (longer' w).state, (longer w).record ++ (longer' w).record⟩) :
    (⟨r'.outcome, r'.state, r.record ++ r'.record⟩ : Result β).Tried front leaves both
      (tried ++ tried') where
  position_le := h'.position_le
  patience := h'.patience
  known l hl := (List.mem_append.mp hl).elim (h.known l) (h'.known l)
  misses e := by
    rw [Record.misses_append, List.mem_append, h.misses, h'.misses]
    simp only [List.mem_append, or_and_right, exists_or]
  reads w l hl hacc := by
    by_cases hnone : ∀ l ∈ tried, l.accepts w.token = false
    · have hl' : l ∈ tried' := by
        rcases List.mem_append.mp hl with hold | hnew
        · rw [hnone l hold] at hacc
          cases hacc
        · exact hnew
      rw [hboth w hnone, Record.events_append]
      exact List.mem_append_right _ (h'.reads w l hl' hacc)
    · push Not at hnone
      obtain ⟨first, hfirst, haccepts⟩ := hnone
      exact hevents w (h.reads w first hfirst (by simpa using haccepts))
  alike w hnone := by
    have hold : ∀ l ∈ tried, l.accepts w.token = false := fun l hl =>
      hnone l (List.mem_append_left _ hl)
    obtain ⟨_, _, hquiet⟩ := h.alike w hold
    obtain ⟨houtcome, hstate, hquiet'⟩ := h'.alike w fun l hl =>
      hnone l (List.mem_append_right _ hl)
    rw [hboth w hold]
    refine ⟨houtcome, hstate, fun t ht => ?_⟩
    rcases List.mem_append.mp (Record.events_append .. ▸ ht) with hmem | hmem
    · exact hquiet t hmem
    · exact hquiet' t hmem

/-- A run that ends early in both tries no more. It has what was recorded until
    then, in both runs, and only over continuations that no leaf accepts do the
    endings have to be alike. -/
theorem ended (h : r.Tried front leaves longer tried) {o : Outcome β}
    (hevents : ∀ w, (longer w).record.events.toList ⊆ (both w).record.events.toList)
    (hboth : ∀ w : Continuation, (∀ l ∈ tried, l.accepts w.token = false) →
      o.Alike (both w).outcome ∧ (both w).state = (longer w).state ∧
        (both w).record = (longer w).record) :
    (⟨o, r.state, r.record⟩ : Result β).Tried front leaves both tried where
  position_le := h.position_le
  patience := h.patience
  known := h.known
  misses := h.misses
  reads w l hl hacc := hevents w (h.reads w l hl hacc)
  alike w hnone := by
    obtain ⟨houtcome, hstate, hrecord⟩ := hboth w hnone
    obtain ⟨_, hsame, hquiet⟩ := h.alike w hnone
    rw [hstate, hrecord]
    exact ⟨houtcome, hsame, hquiet⟩

theorem mapped (h : r.Tried front leaves longer tried) (f : α → β) :
    (⟨r.outcome.map f, r.state, r.record⟩ : Result β).Tried front leaves
      (fun w => ⟨(longer w).outcome.map f, (longer w).state, (longer w).record⟩) tried :=
  h.ended (fun _ => List.Subset.refl _) fun w hnone => ⟨(h.alike w hnone).1.map f, rfl, rfl⟩

end Result.Tried

/-- At the end of the input a leaf that omits the end misses all that it expects. -/
theorem Grammar.Leaf.misses_none {l : Leaf} (homits : l.omitsEnd = true) :
    l.misses none = l.expectations := by
  cases l with
  | oneOf kinds => simp_all [misses, omitsEnd]
  | _ => rfl

/-- Such a leaf misses something wherever it fails. It may be silent only about a
    token that is there, and at the end it expects something. -/
theorem Grammar.Leaf.misses_ne_nil {l : Leaf} (hexpects : l.expectations ≠ [])
    (homits : l.omitsEnd = true) (next : Option Token) : l.misses next ≠ [] := by
  cases next with
  | none =>
    rw [misses_none homits]
    exact hexpects
  | some t =>
    have hmisses : l.misses (some t) = l.expectations := by cases l <;> rfl
    rw [hmisses]
    exact hexpects

/-- From every place up to the caret a matcher tries some leaves there, whatever
    comes after. -/
def Matcher.Lockstep {α : Type} (front : Array Token) (leaves : List Leaf) (Q : α → Prop)
    (m : Matcher α) : Prop :=
  ∀ stack s, s.position ≤ front.size → s.patience = none →
    (∀ a, (m ⟨front, .completing, stack⟩ s).outcome = .matched a → Q a) ∧
    ∃ tried, (m ⟨front, .completing, stack⟩ s).Tried front leaves
      (fun w => m ⟨w.tokens front, w.purpose, stack⟩ s) tried

namespace Matcher.Lockstep

variable {α β : Type} {front : Array Token} {leaves : List Leaf}

/-- A step that tests no leaf and does not look at the tokens. So it does the same
    over every continuation, with the same productions open, and it tries no leaf. -/
theorem of_blind {Q : α → Prop} {m : Matcher α}
    (hsame : ∀ c c' s, c.stack = c'.stack →
      (m c s).outcome.Alike (m c' s).outcome ∧ (m c' s).state = (m c s).state)
    (hstate : ∀ c s, s.position ≤ front.size → s.patience = none →
      (m c s).state.position ≤ front.size ∧ (m c s).state.patience = none)
    (hmisses : ∀ c s, (m c s).record.misses.toList = [])
    (hevents : ∀ c s t, .leaf t front.size ∉ (m c s).record.events.toList)
    (hvalue : ∀ c s a, s.position ≤ front.size → (m c s).outcome = .matched a → Q a) :
    Lockstep front leaves Q m := by
  intro stack s hposition hpatience
  obtain ⟨hp, hn⟩ := hstate ⟨front, .completing, stack⟩ s hposition hpatience
  refine ⟨fun a => hvalue _ s a hposition, [], .of_quiet hp hn ?_ fun w => ?_⟩
  · intro e he
    rw [hmisses] at he
    cases he
  · obtain ⟨halike, hstates⟩ := hsame ⟨front, .completing, stack⟩ ⟨w.tokens front, w.purpose, stack⟩
      s rfl
    exact ⟨halike, hstates, fun t => hevents _ s t⟩

/-- The rest is compared over the continuations that the first part does not read
    into; over the others the token was read already. -/
theorem bind {Q : α → Prop} {R : β → Prop} {m : Matcher α} {f : α → Matcher β}
    (hm : Lockstep front leaves Q m) (hf : ∀ a, Q a → Lockstep front leaves R (f a)) :
    Lockstep front leaves R (m >>= f) := by
  intro stack s hposition hpatience
  obtain ⟨hvalue, tried, h⟩ := hm stack s hposition hpatience
  cases ho : (m ⟨front, .completing, stack⟩ s).outcome with
  | matched a =>
    obtain ⟨hvalue', tried', h'⟩ := hf a (hvalue a ho) stack _ h.position_le h.patience
    rw [run_bind_matched ho]
    refine ⟨hvalue', _, h.append h' (fun w => events_subset_bind ..) fun w hnone => ?_⟩
    obtain ⟨halike, hstate, _⟩ := h.alike w hnone
    rw [run_bind_matched (halike.matched ho), hstate]
  | failed =>
    rw [run_bind_failed ho]
    refine ⟨nofun, tried, h.ended (fun w => events_subset_bind ..) fun w hnone => ?_⟩
    rw [run_bind_failed ((h.alike w hnone).1.failed ho)]
    exact ⟨trivial, rfl, rfl⟩
  | aborted e =>
    rw [run_bind_aborted ho]
    refine ⟨nofun, tried, h.ended (fun w => events_subset_bind ..) fun w hnone => ?_⟩
    obtain ⟨e', he'⟩ := (h.alike w hnone).1.aborted ho
    rw [run_bind_aborted he']
    exact ⟨trivial, rfl, rfl⟩

/-- A step that writes nothing down. It has no miss and no event of a leaf, as it
    has none at all. -/
theorem of_silent {Q : α → Prop} {m : Matcher α}
    (hsame : ∀ c c' s, (m c s).outcome.Alike (m c' s).outcome ∧ (m c' s).state = (m c s).state)
    (hstate : ∀ c s, s.position ≤ front.size → s.patience = none →
      (m c s).state.position ≤ front.size ∧ (m c s).state.patience = none)
    (hrecord : ∀ c s, (m c s).record = .empty)
    (hvalue : ∀ c s a, s.position ≤ front.size → (m c s).outcome = .matched a → Q a) :
    Lockstep front leaves Q m := by
  refine of_blind (fun c c' s _ => hsame c c' s) hstate (fun c s => ?_) (fun c s t => ?_) hvalue
  · rw [hrecord, Record.misses_empty]
  · rw [hrecord, Record.events_empty]
    exact List.not_mem_nil

/-- A step that leaves the state as it is and writes nothing down. That its ending
    is a function `o` of the state excludes that it looks at the tokens. -/
theorem of_still {Q : α → Prop} {m : Matcher α} (o : State → Outcome α)
    (hm : ∀ c s, m c s = ⟨o s, s, .empty⟩)
    (hvalue : ∀ s a, s.position ≤ front.size → o s = .matched a → Q a) :
    Lockstep front leaves Q m := by
  refine of_silent (fun c c' s => ?_) (fun c s hposition hpatience => ?_) (fun c s => ?_)
    fun c s a hposition hmatched => ?_
  · rw [hm, hm]
    exact ⟨.refl _, rfl⟩
  · rw [hm]
    exact ⟨hposition, hpatience⟩
  · rw [hm]
  · rw [hm] at hmatched
    exact hvalue s a hposition hmatched

/-- A report of anything but a leaf tests nothing. Nothing is missed by it, and the
    event that tells a token from another one is that of a leaf. -/
theorem report {e : Event} (hstep : ∀ token index, e ≠ .leaf token index) :
    Lockstep front leaves (fun _ => True) (Matcher.report e) := by
  refine of_blind (fun _ _ _ _ => ⟨.refl _, rfl⟩) (fun _ s hp hn => ⟨hp, ?_⟩) (fun _ _ => rfl)
    (fun _ _ t ht => hstep t _ (List.mem_singleton.mp ht).symm) fun _ _ _ _ _ => trivial
  cases h : e.isStep <;> simp [Matcher.report, h, hn]

/-- Trying a candidate looks at the open productions, which are the same in both
    runs. -/
theorem candidate {Q : α → Prop} {m : Matcher α} (branch start : Nat)
    (hm : Lockstep front leaves Q m) :
    Lockstep front leaves Q (Matcher.context >>= fun c =>
      Matcher.report (.candidate (c.stack.head?.getD "") branch start) >>= fun _ => m) := by
  intro stack s hposition hpatience
  have hreport : Lockstep front leaves (fun _ => True)
      (Matcher.report (.candidate (stack.head?.getD "") branch start)) := report nofun
  obtain ⟨hvalue, tried, h⟩ := bind hreport (fun _ _ => hm) stack s hposition hpatience
  have hlook : (⟨.matched (), s, .empty⟩ : Result Unit).Tried front leaves
      (fun _ => ⟨.matched (), s, .empty⟩) [] :=
    .of_quiet hposition hpatience (fun _ => List.not_mem_nil)
      fun _ => ⟨.refl _, rfl, fun _ => List.not_mem_nil⟩
  exact ⟨hvalue, _, hlook.append h (fun _ => List.nil_subset _) fun _ _ => rfl⟩

/-- An attempt tries what is attempted. A failure becomes a value in both runs, and
    nothing is recorded by that. -/
theorem attempt {m : Matcher α} (hm : Lockstep front leaves (fun _ => True) m) :
    Lockstep front leaves (fun _ => True) m.attempt := by
  intro stack s hposition hpatience
  obtain ⟨_, tried, h⟩ := hm stack s hposition hpatience
  refine ⟨fun _ _ => trivial, tried, ?_⟩
  simp only [run_attempt]
  exact h.ended (fun w => List.Subset.refl _) fun w hnone =>
    ⟨(h.alike w hnone).1.attempted, rfl, rfl⟩

/-- Both runs are blamed, for misses that may differ. The error of an abort is left
    out of the comparison for this. -/
theorem blame (misses : Journal Miss) (misses' : Continuation → Journal Miss) (stack : List String)
    {s : State} (hposition : s.position ≤ front.size) (hpatience : s.patience = none) :
    (Matcher.blame misses ⟨front, .completing, stack⟩ s : Result α).Tried front leaves
      (fun w => Matcher.blame (misses' w) ⟨w.tokens front, w.purpose, stack⟩ s) [] := by
  refine .of_quiet hposition hpatience nofun fun w => ⟨trivial, rfl, fun t ht => ?_⟩
  cases List.mem_singleton.mp ht

/-- Two runs end in the same way up to the caret, so they have the same verdict or
    are both blamed. -/
theorem judge {m : Matcher α} {verdict : α → Option (Matcher β)}
    (hm : Lockstep front leaves (fun _ => True) m)
    (hverdict : ∀ a next, verdict a = some next → Lockstep front leaves (fun _ => True) next) :
    Lockstep front leaves (fun _ => True)
      (m.listen >>= fun x => ((verdict x.1).getD (Matcher.blame x.2) : Matcher β)) := by
  intro stack s hposition hpatience
  obtain ⟨_, tried, h⟩ := hm stack s hposition hpatience
  have hheard (c : Context) : (m.listen c s).record.events.toList ⊆
      ((m.listen >>= fun x => ((verdict x.1).getD (Matcher.blame x.2) : Matcher β)) c
        s).record.events.toList := events_subset_bind ..
  simp only [run_listen] at hheard
  refine ⟨fun _ _ => trivial, ?_⟩
  cases ho : (m ⟨front, .completing, stack⟩ s).outcome with
  | matched a =>
    -- The journals of the two runs differ, but only an error is made of them.
    obtain ⟨tried', h'⟩ : ∃ tried', (((verdict a).getD
        (Matcher.blame (m ⟨front, .completing, stack⟩ s).record.misses) : Matcher β)
          ⟨front, .completing, stack⟩ (m ⟨front, .completing, stack⟩ s).state).Tried front leaves
        (fun w => ((verdict a).getD
          (Matcher.blame (m ⟨w.tokens front, w.purpose, stack⟩ s).record.misses) : Matcher β)
            ⟨w.tokens front, w.purpose, stack⟩ (m ⟨front, .completing, stack⟩ s).state)
        tried' := by
      cases hnext : verdict a with
      | none => exact ⟨[], blame _ _ stack h.position_le h.patience⟩
      | some next => exact (hverdict a next hnext stack _ h.position_le h.patience).2
    rw [run_bind_matched (by rw [run_listen, ho]; rfl)]
    simp only [run_listen]
    refine ⟨_, h.append h' (fun w => hheard _) fun w hnone => ?_⟩
    obtain ⟨halike, hstate, _⟩ := h.alike w hnone
    rw [run_bind_matched (by rw [run_listen, halike.matched ho]; rfl)]
    simp only [run_listen, hstate]
  | failed =>
    rw [run_bind_failed (by rw [run_listen, ho]; rfl)]
    simp only [run_listen]
    refine ⟨tried, h.ended (fun w => hheard _) fun w hnone => ?_⟩
    rw [run_bind_failed (by rw [run_listen, (h.alike w hnone).1.failed ho]; rfl)]
    exact ⟨trivial, by simp, by simp⟩
  | aborted e =>
    rw [run_bind_aborted (by rw [run_listen, ho]; rfl)]
    simp only [run_listen]
    refine ⟨tried, h.ended (fun w => hheard _) fun w hnone => ?_⟩
    obtain ⟨e', he'⟩ := (h.alike w hnone).1.aborted ho
    rw [run_bind_aborted (by rw [run_listen, he']; rfl)]
    exact ⟨trivial, by simp, by simp⟩

/-- A leaf at the caret is tried there. In front of the caret both runs test the
    same token, and behind it the shorter one does not get. -/
theorem leaf {l : Leaf} (hl : l ∈ leaves) (homits : l.omitsEnd = true) :
    Lockstep front leaves (fun _ => True) (Matcher.leaf l) := by
  intro stack s hposition hpatience
  refine ⟨fun _ _ => trivial, ?_⟩
  have hstill : (⟨s.position, s.fuel, s.patience.map (· - 1)⟩ : State) = s := by
    cases s
    simp_all
  rcases Nat.lt_or_eq_of_le hposition with hbefore | hcaret
  · -- In front of the caret both runs see the same token.
    have hsame (w : Continuation) : (w.tokens front)[s.position]? = front[s.position]? :=
      w.getElem?_tokens_of_lt front hbefore
    refine ⟨[], ?_⟩
    by_cases haccept : ∃ t, front[s.position]? = some t ∧ l.accepts t = true
    · obtain ⟨t, htoken, hacc⟩ := haccept
      obtain ⟨houtcome, hstate, hmisses, -⟩ := run_leaf_accepts
        (c := ⟨front, .completing, stack⟩) htoken hacc
      refine .of_quiet ?_ ?_ ?_ fun w => ?_
      · rw [hstate]
        exact hbefore
      · rw [hstate, hpatience]
        rfl
      · rw [hmisses]
        nofun
      · obtain ⟨houtcome', hstate', -, hevents', -⟩ := run_leaf_accepts
          (c := ⟨w.tokens front, w.purpose, stack⟩) ((hsame w).trans htoken) hacc
        rw [houtcome, houtcome', hstate, hstate', hevents']
        refine ⟨rfl, rfl, fun u hu => ?_⟩
        obtain ⟨-, hindex⟩ := Event.leaf.inj (List.mem_singleton.mp hu)
        exact absurd hindex (Nat.ne_of_gt hbefore)
    · have hrefuse (t : Token) (htoken : front[s.position]? = some t) : l.accepts t = false :=
        Bool.eq_false_iff.mpr fun h => haccept ⟨t, htoken, h⟩
      obtain ⟨houtcome, hstate, hmisses, -⟩ := run_leaf_misses
        (c := ⟨front, .completing, stack⟩) hrefuse
      rw [hstill] at hstate
      refine .of_quiet ?_ ?_ ?_ fun w => ?_
      · rw [hstate]
        exact hposition
      · rw [hstate]
        exact hpatience
      · intro e he
        rw [hmisses] at he
        obtain ⟨_, _, heq⟩ := List.mem_map.mp he
        exact absurd (congrArg Miss.position heq) (Nat.ne_of_lt hbefore)
      · obtain ⟨houtcome', hstate', -, hevents', -⟩ := run_leaf_misses
          (c := ⟨w.tokens front, w.purpose, stack⟩)
          fun t htoken => hrefuse t ((hsame w).symm.trans htoken)
        rw [hstill] at hstate'
        rw [houtcome, houtcome', hstate, hstate', hevents']
        exact ⟨trivial, rfl, fun u hu => nomatch List.mem_singleton.mp hu⟩
  · -- At the caret the first run fails, and the other one tests the next token.
    have hend : front[s.position]? = none := by simp [hcaret]
    have hnext (w : Continuation) : (w.tokens front)[s.position]? = some w.token :=
      hcaret ▸ w.getElem?_tokens_size front
    obtain ⟨houtcome, hstate, hmisses, -⟩ := run_leaf_misses (l := l)
      (c := ⟨front, .completing, stack⟩) (s := s) (fun t ht => by simp [hend] at ht)
    rw [hstill] at hstate
    refine ⟨[l], ⟨?_, ?_, ?_, fun e => ?_, fun w l' hl' hacc => ?_, fun w hnone => ?_⟩⟩
    · rw [hstate]
      exact hposition
    · rw [hstate]
      exact hpatience
    · intro l' hl'
      exact List.mem_singleton.mp hl' ▸ hl
    · rw [hmisses, hend, Leaf.misses_none homits, hcaret]
      simp
    · cases List.mem_singleton.mp hl'
      obtain ⟨-, -, -, hevents', -⟩ := run_leaf_accepts
        (c := ⟨w.tokens front, w.purpose, stack⟩) (hnext w) hacc
      rw [hevents', hcaret]
      exact List.mem_singleton_self _
    · obtain ⟨houtcome', hstate', -, hevents', -⟩ := run_leaf_misses (l := l)
        (c := ⟨w.tokens front, w.purpose, stack⟩) (s := s) fun t ht => by
          cases (hnext w).symm.trans ht
          exact hnone l (List.mem_singleton_self l)
      rw [hstill] at hstate'
      rw [houtcome, houtcome', hstate, hstate', hevents']
      exact ⟨trivial, rfl, fun u hu => nomatch List.mem_singleton.mp hu⟩

/-- A production tries what its body tries. What goes on around the body does not
    look at the tokens, and in both runs the body has the same productions open. -/
theorem production (p : Grammar.Production) {body : Matcher (Bool × List Tree)}
    (hbody : Lockstep front leaves (fun _ => True) body) :
    Lockstep front leaves (fun _ => True) (Matcher.production p body) := by
  intro stack s hposition hpatience
  refine ⟨fun _ _ => trivial, ?_⟩
  have hinner : ∃ tried, (runBody p body ⟨front, .completing, stack⟩ s).Tried front leaves
      (fun w => runBody p body ⟨w.tokens front, w.purpose, stack⟩ s) tried :=
    (hbody (p.name :: stack) ⟨s.position, s.fuel, s.patience.map (· - 1)⟩ hposition
      (by simp [hpatience])).2
  obtain ⟨tried, h⟩ := hinner
  have hevents (c : Context) (t : Token) :
      .leaf t front.size ∈ (Matcher.production p body c s).record.events.toList ↔
        .leaf t front.size ∈ (runBody p body c s).record.events.toList := by
    have hlist := run_production_events p body c s
    rw [hlist]
    simp
  refine ⟨tried, ⟨?_, ?_, h.known, fun e => ?_, fun w l hl hacc => ?_, fun w hnone => ?_⟩⟩
  · rw [run_production_state]
    exact h.position_le
  · rw [run_production_state, h.patience]
    rfl
  · -- While the input is being completed, no label sums up what was missed.
    rw [← h.misses e]
    cases ho : (runBody p body ⟨front, .completing, stack⟩ s).outcome with
    | matched value => rw [(run_production_matched ho).2]
    | failed => rw [(run_production_failed ho).2, p.summary_completing]
    | aborted e => rw [(run_production_aborted ho).2]
  · exact (hevents _ _).mpr (h.reads w l hl hacc)
  · obtain ⟨halike, hstate, hquiet⟩ := h.alike w hnone
    refine ⟨?_, ?_, fun t ht => hquiet t ((hevents _ _).mp ht)⟩
    · cases ho : (runBody p body ⟨front, .completing, stack⟩ s).outcome with
      | matched value =>
        rw [(run_production_matched ho).1, (run_production_matched (halike.matched ho)).1, hstate]
        exact rfl
      | failed =>
        rw [(run_production_failed ho).1, (run_production_failed (halike.failed ho)).1]
        trivial
      | aborted e =>
        obtain ⟨e', he'⟩ := halike.aborted ho
        rw [(run_production_aborted ho).1, (run_production_aborted he').1]
        trivial
    · rw [run_production_state, run_production_state, hstate]

/-- A repetition tries what its turns try, up to the one that ends it. If no leaf
    that a turn tries at the caret accepts the next token, the turn ends alike over
    the continuation, and both runs go on to the next one or neither does. -/
theorem iterate {item : Matcher (Bool × List Tree)}
    {separator : Option (Matcher (Bool × List Tree))}
    (hturn : ∀ first : Bool, Lockstep front leaves (fun _ => True)
      (iteration item (if first then none else separator))) (first : Bool) :
    Lockstep front leaves (fun _ => True) (Matcher.iterate item separator first) := by
  intro stack s hposition hpatience
  refine ⟨fun _ _ => trivial, ?_⟩
  induction hmeasure : front.size - s.position using Nat.strongRecOn generalizing first s with
  | _ measure ih =>
  obtain ⟨_, tried, h⟩ := hturn first stack s hposition hpatience
  have hevents (w : Continuation) := events_subset_iterate item separator first
    ⟨w.tokens front, w.purpose, stack⟩ s
  generalize hr : iteration item (if first then none else separator)
    ⟨front, .completing, stack⟩ s = r at h
  -- Both runs agree on whether a turn has consumed something, although they measure it by the
  -- distance to different ends.
  have hprogress_iff (w : Continuation) :
      (w.tokens front).size - r.state.position < (w.tokens front).size - s.position ↔
        front.size - r.state.position < front.size - s.position := by
    have hsize := w.size_tokens front
    have hend := h.position_le
    omega
  cases ho : r.outcome with
  | matched found =>
    cases found with
    | none =>
      rw [run_iterate_over hr ho]
      refine ⟨tried, h.ended hevents fun w hnone => ?_⟩
      rw [run_iterate_over rfl ((h.alike w hnone).1.matched ho)]
      exact ⟨rfl, rfl, rfl⟩
    | some nodes =>
      by_cases hprogress : front.size - r.state.position < front.size - s.position
      · obtain ⟨tried', h'⟩ :=
          ih _ (hmeasure ▸ hprogress) false r.state h.position_le h.patience rfl
        have hmore := h'.mapped fun x : Nat × List Tree => (x.1 + 1, nodes ++ x.2)
        rw [run_iterate_next hr ho hprogress]
        refine ⟨_, h.append hmore hevents fun w hnone => ?_⟩
        obtain ⟨halike, hstate, _⟩ := h.alike w hnone
        rw [run_iterate_next rfl (halike.matched ho)
          (by rw [hstate]; exact (hprogress_iff w).mpr hprogress), hstate]
      · rw [run_iterate_still hr ho hprogress]
        refine ⟨tried, h.ended hevents fun w hnone => ?_⟩
        obtain ⟨halike, hstate, _⟩ := h.alike w hnone
        rw [run_iterate_still rfl (halike.matched ho)
          (by rw [hstate]; exact fun hlt => hprogress ((hprogress_iff w).mp hlt))]
        exact ⟨rfl, rfl, rfl⟩
  | failed =>
    rw [run_iterate_failed hr ho]
    refine ⟨tried, h.ended hevents fun w hnone => ?_⟩
    rw [run_iterate_failed rfl ((h.alike w hnone).1.failed ho)]
    exact ⟨trivial, rfl, rfl⟩
  | aborted e =>
    rw [run_iterate_aborted hr ho]
    refine ⟨tried, h.ended hevents fun w hnone => ?_⟩
    obtain ⟨e', he'⟩ := (h.alike w hnone).1.aborted ho
    rw [run_iterate_aborted rfl he']
    exact ⟨trivial, rfl, rfl⟩

end Matcher.Lockstep

namespace Discipline

open Matcher

/-- Marching in lockstep is a discipline, unless a set of kinds asks for the end of
    the input. -/
def lockstep (front : Array Token) (leaves : List Leaf) : Discipline where
  Holds := Lockstep front leaves
  Place n := n ≤ front.size
  Allowed l := l ∈ leaves ∧ l.omitsEnd = true
  pure {_ _ a} ha := .of_still (fun _ => .matched a) (fun _ _ => rfl) fun _ _ _ h => by
    cases h
    exact ha
  bind := Lockstep.bind
  fail := .of_still (fun _ => .failed) (fun _ _ => rfl) nofun
  unknown _ := .of_still (fun _ => .aborted _) (fun _ _ => rfl) nofun
  tooDeep := .of_still (fun _ => .aborted _) (fun _ _ => rfl) nofun
  position := .of_still (fun s => .matched s.position) (fun _ _ => rfl) fun _ _ hposition h => by
    cases h
    exact hposition
  seek htarget := .of_silent (fun _ _ _ => ⟨.refl _, rfl⟩) (fun _ _ _ hn => ⟨htarget, hn⟩)
    (fun _ _ => rfl) fun _ _ _ _ _ => trivial
  report hmove := Lockstep.report (Event.ne_leaf (Event.isTest_of_isMove hmove))
  charge := by
    refine .of_silent (fun _ _ _ => ⟨.refl _, rfl⟩) (fun _ s hp hn => ?_) (fun _ s => ?_)
      fun _ _ _ _ _ => trivial
    · unfold Matcher.charge
      split <;> exact ⟨hp, hn⟩
    · unfold Matcher.charge
      split <;> rfl
  checkPatience := by
    refine .of_blind (fun _ _ _ _ => ⟨.refl _, rfl⟩) (fun _ s hp hn => ?_) (fun _ s => ?_)
      (fun _ s t ht => ?_) fun _ _ _ _ _ => trivial
    · unfold Matcher.checkPatience
      split <;> exact ⟨hp, hn⟩
    · unfold Matcher.checkPatience
      split <;> rfl
    · unfold Matcher.checkPatience at ht
      split at ht
      · cases List.mem_singleton.mp ht
      · cases ht
  attempt := Lockstep.attempt
  candidate branch start hm := Lockstep.candidate branch start hm
  judge := Lockstep.judge
  leaf hl := Lockstep.leaf hl.1 hl.2
  breakpoint := .of_blind
    (fun c c' s _ => by
      rw [(run_breakpoint c s).1, (run_breakpoint c' s).1, (run_breakpoint c s).2.1,
        (run_breakpoint c' s).2.1]
      exact ⟨rfl, rfl⟩)
    (fun c s hp hn => by
      rw [(run_breakpoint c s).2.1]
      exact ⟨hp, by simp [hn]⟩)
    (fun c s => (run_breakpoint c s).2.2.1)
    (fun c s t ht => by
      rw [(run_breakpoint c s).2.2.2.1] at ht
      cases List.mem_singleton.mp ht)
    fun _ _ _ _ _ => trivial
  production p _ hbody := Lockstep.production p hbody
  iterate := Lockstep.iterate

end Discipline

end SqlStatement

import SqlStatement.Match.Table
import SqlStatement.Proofs.Match.Run

namespace SqlStatement

/-- A match has a value that satisfies `post`, and a failure satisfies `fallback`.
    Of an abort nothing is asked. -/
def Outcome.Meets {α : Type} (post : α → Prop) (fallback : Prop) : Outcome α → Prop
  | .matched a => post a
  | .failed => fallback
  | .aborted _ => True

namespace Matcher

variable {α β : Type} {c : Context} {start : Nat}

/-- From `start` a matcher only matches a value and stops where `post` says so, and
    it only fails where `fallback` says so. There is one rule for each primitive
    step. -/
def Ensures (c : Context) (start : Nat) (m : Matcher α) (post : α → Nat → Prop)
    (fallback : Nat → Prop) : Prop :=
  ∀ s : State, s.position = start → (m c s).outcome.Meets (fun a => post a (m c s).state.position)
    (fallback (m c s).state.position)

namespace Ensures

variable {post : α → Nat → Prop} {fallback : Nat → Prop} {m : Matcher α}

theorem matched (h : m.Ensures c start post fallback) {s : State} (hs : s.position = start) {a : α}
    (ha : (m c s).outcome = .matched a) : post a (m c s).state.position := by
  have hmeets := h s hs
  rw [ha] at hmeets
  exact hmeets

theorem failed (h : m.Ensures c start post fallback) {s : State} (hs : s.position = start)
    (hfail : (m c s).outcome = .failed) : fallback (m c s).state.position := by
  have hmeets := h s hs
  rw [hfail] at hmeets
  exact hmeets

/-- What is ensured may be weakened. Most rules are used through this one, with a
    postcondition that is easy to state. -/
theorem imp {post' : α → Nat → Prop} {fallback' : Nat → Prop}
    (h : m.Ensures c start post fallback) (hpost : ∀ a stop, post a stop → post' a stop)
    (hfallback : ∀ stop, fallback stop → fallback' stop) :
    m.Ensures c start post' fallback' := by
  intro s hs
  cases hm : (m c s).outcome with
  | matched a => exact hpost _ _ (h.matched hs hm)
  | failed => exact hfallback _ (h.failed hs hm)
  | aborted => trivial

/-- Nothing is asked, so nothing needs to be shown. -/
theorem any : m.Ensures c start (fun _ _ => True) (fun _ => True) := by
  intro s _
  cases (m c s).outcome <;> trivial

theorem pure {a : α} (ha : post a start) :
    (Pure.pure a : Matcher α).Ensures c start post fallback := by
  rintro s rfl
  exact ha

theorem fail (hfallback : fallback start) :
    (Matcher.fail : Matcher α).Ensures c start post fallback := by
  rintro s rfl
  exact hfallback

theorem abort (e : ParseError) : (Matcher.abort e : Matcher α).Ensures c start post fallback :=
  fun _ _ => trivial

/-- What the first part ensures is what the second part starts from, so the
    postcondition of the first is all that is said of the second. -/
theorem bind {f : α → Matcher β} {post : β → Nat → Prop}
    (h : m.Ensures c start (fun a stop => (f a).Ensures c stop post fallback) fallback) :
    (m >>= f).Ensures c start post fallback := by
  intro s hs
  cases hm : (m c s).outcome with
  | matched a =>
    rw [run_bind_matched hm]
    exact h.matched hs hm _ rfl
  | failed =>
    rw [run_bind_failed hm]
    exact h.failed hs hm
  | aborted e =>
    rw [run_bind_aborted hm]
    trivial

/-- A failure counts as the value `none`, and the postcondition says what holds
    where it failed. -/
theorem attempt {post : Option α → Nat → Prop}
    (h : m.Ensures c start (fun a => post (some a)) (post none)) :
    m.attempt.Ensures c start post fallback := by
  intro s hs
  rw [run_attempt]
  cases hm : (m c s).outcome with
  | matched a => exact h.matched hs hm
  | failed => exact h.failed hs hm
  | aborted => trivial

/-- The postcondition must hold whatever was missed. Where a matcher stops never
    depends on its misses. -/
theorem listen {post : α × Journal Miss → Nat → Prop}
    (h : m.Ensures c start (fun a stop => ∀ misses, post (a, misses) stop) fallback) :
    m.listen.Ensures c start post fallback := by
  intro s hs
  rw [run_listen]
  cases hm : (m c s).outcome with
  | matched a => exact h.matched hs hm _
  | failed => exact h.failed hs hm
  | aborted => trivial

theorem position {post : Nat → Nat → Prop} (hpost : post start start) :
    Matcher.position.Ensures c start post fallback := by
  rintro s rfl
  exact hpost

theorem context {post : Context → Nat → Prop} (hpost : post c start) :
    Matcher.context.Ensures c start post fallback := by
  rintro s rfl
  exact hpost

section Step

variable {post : Unit → Nat → Prop}

theorem seek {target : Nat} (hpost : post () target) :
    (Matcher.seek target).Ensures c start post fallback :=
  fun _ _ => hpost

theorem report {e : Event} (hpost : post () start) :
    (Matcher.report e).Ensures c start post fallback := by
  rintro s rfl
  exact hpost

theorem charge (hpost : post () start) : Matcher.charge.Ensures c start post fallback := by
  rintro s rfl
  unfold Matcher.charge
  split
  · trivial
  · exact hpost

theorem checkPatience (hpost : post () start) :
    Matcher.checkPatience.Ensures c start post fallback := by
  rintro s rfl
  unfold Matcher.checkPatience
  split
  · trivial
  · exact hpost

/-- Going back is told, but ends where it goes. Whether it is told makes no
    difference to the place. -/
theorem backtrack {target : Nat} (hpost : post () target) :
    (Matcher.backtrack target).Ensures c start post fallback := by
  refine bind (position ?_)
  by_cases hthere : start = target
  · subst hthere
    simpa using pure hpost
  · simpa [hthere] using bind (report (seek hpost))

end Step

/-- Whoever is blamed neither matches nor fails. -/
theorem blame (misses : Journal Miss) : (Matcher.blame misses).Ensures c start post fallback :=
  bind <| context <| bind <| position <| bind <| report <| abort _

/-- A node goes over what has been stepped over, and there is none if that is
    nothing. -/
theorem wrap {label : Tree.Label} {first : Nat} {children : List Tree}
    {post : List Tree → Nat → Prop}
    (hpost : post (if first < start then [.node label ⟨first, start⟩ children] else []) start) :
    (Matcher.wrap label first children).Ensures c start post fallback :=
  bind (position (pure hpost))

/-- Whether a sequence has committed may come out either way here. It stays where it
    is in both cases. -/
theorem commitAt {threshold earned : Nat} {committed : Bool} {post : Bool → Nat → Prop}
    (hpost : ∀ committed, post committed start) :
    (Matcher.commitAt threshold earned committed).Ensures c start post fallback := by
  unfold Matcher.commitAt
  split
  · exact bind (position (bind (report (pure (hpost true)))))
  · exact pure (hpost committed)

end Ensures

end Matcher

end SqlStatement

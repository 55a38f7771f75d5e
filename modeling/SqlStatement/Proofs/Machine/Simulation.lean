import SqlStatement.Proofs.Machine.Follows
import SqlStatement.Proofs.Machine.Table
import SqlStatement.Proofs.Match.Fold

namespace SqlStatement

namespace Store

/-- The cursor has not gone back and is inside the tokens. -/
structure Advanced (k : Setting) (σ τ : Store) : Prop where
  le : σ.position ≤ τ.position
  le_size : τ.position ≤ k.tokens.size

/-- The cursor and the child vector are what they were. -/
structure RolledBack (σ τ : Store) : Prop where
  position_eq : τ.position = σ.position
  out_eq : τ.out = σ.out

variable {k : Setting} {σ τ υ : Store}

/-- To stay is to advance by nothing. It has to be inside of the input for that. -/
theorem Advanced.of_eq (hσ : σ.position ≤ k.tokens.size) (hposition : τ.position = σ.position) :
    σ.Advanced k τ where
  le := Nat.le_of_eq hposition.symm
  le_size := by
    rw [hposition]
    exact hσ

theorem Advanced.trans (h : σ.Advanced k τ) (h' : τ.Advanced k υ) : σ.Advanced k υ where
  le := Nat.le_trans h.le h'.le
  le_size := h'.le_size

theorem RolledBack.advanced (h : σ.RolledBack τ) (hσ : σ.position ≤ k.tokens.size) :
    σ.Advanced k τ :=
  .of_eq hσ h.position_eq

theorem Still.advanced (h : σ.Still τ) (hσ : σ.position ≤ k.tokens.size) : σ.Advanced k τ :=
  .of_eq hσ h.position_eq

/-- What is rolled back to a store that is still as before is rolled back. -/
theorem Still.rolledBack (h : σ.Still τ) (h' : τ.RolledBack υ) : σ.RolledBack υ where
  position_eq := h'.position_eq.trans h.position_eq
  out_eq := h'.out_eq.trans h.out_eq

end Store

namespace Machine

open Grammar (Leaf)

variable {α β : Type} {k : Setting} {σ τ : Store} {d : Nat}

/-- To end with the value of the last step is to end with the last step. Where the
    machine breaks down or ends early, neither side has a value to hand on. -/
theorem bind_pure (m : Machine α) : m >>= Pure.pure = m := by
  funext k σ
  cases h : m k σ with
  | none => simp only [Bind.bind, Machine.bind, h]
  | some x =>
    obtain ⟨o, τ⟩ := x
    cases o with
    | matched a => exact run_bind_matched h
    | failed => exact run_bind_failed h
    | aborted e => exact run_bind_aborted h

namespace Follows

variable {fallback : Store → Prop}

/-- Another value on the side of the matcher. -/
theorem specMap {m : Machine β} {spec : Matcher α} {γ : Type} {f : α → γ}
    {post : γ → β → Store → Prop} (h : Follows k σ m spec (fun a b τ => post (f a) b τ) fallback) :
    Follows k σ m (spec >>= fun a => Pure.pure (f a)) post fallback := by
  have hbind : Follows k σ (m >>= Pure.pure) (spec >>= fun a => Pure.pure (f a)) post fallback :=
    .bind (h.imp (fun _ _ _ _ _ hpost => .pure hpost) (fun _ _ _ => id))
  rwa [bind_pure] at hbind

/-- Both sides report that they go back only where they do. Behind it the cursor
    stands at the target on both sides. -/
theorem backtrack {target : Nat} {post : Unit → Unit → Store → Prop}
    (htarget : target ≤ k.tokens.size)
    (h : ∀ τ, Store.Still { σ with position := target } τ → post () () τ) :
    Follows k σ (Machine.backtrack target) (Matcher.backtrack target) post fallback := by
  refine .read (.specPosition ?_)
  by_cases hthere : σ.position = target
  · have hstill : Store.Still { σ with position := target } σ := ⟨hthere, rfl, rfl, rfl, rfl⟩
    simpa [hthere] using Follows.pure (h σ hstill)
  · have hmove : Follows k σ (Machine.report (.backtrack target) >>= fun _ => Machine.reset target)
        (Matcher.report (.backtrack target) >>= fun _ => Matcher.seek target) post fallback := by
      refine .bind (.report fun τ hτ => .reset htarget (h _ ?_))
      exact ⟨rfl, hτ.log_eq, hτ.out_eq, hτ.stack_eq, hτ.depth_eq⟩
    simpa [hthere] using hmove

/-- Both sides report a commitment in the same case. The values are the flags, which
    are equal, and the event is the same. -/
theorem commitAt {threshold earned : Nat} {committed : Bool} {post : Bool → Bool → Store → Prop}
    (h : ∀ committed τ, σ.Still τ → post committed committed τ) :
    Follows k σ (Machine.commitAt threshold earned committed)
      (Matcher.commitAt threshold earned committed) post fallback := by
  unfold Machine.commitAt Matcher.commitAt
  split
  · exact .read (.specPosition (.bind (.report fun τ hτ => .pure (h true τ hτ))))
  · exact .pure (h committed σ ⟨rfl, rfl, rfl, rfl, rfl⟩)

/-- The entries behind a mark that is in range can be taken. Behind the end of the
    log the machine would break down. -/
theorem run_since {mark : Nat} (hmark : mark ≤ σ.log.length) :
    since mark k σ = some (.matched (σ.log.drop mark), σ) := by
  unfold since
  rw [run_bind_matched (a := ()) (τ := σ) (by simp [Machine.require, hmark])]
  rfl

/-- What is blamed are the entries of the log behind the mark. These are the misses
    that the matcher has listened to, and so the error is the same. -/
theorem blame {mark : Nat} {misses : Journal Miss} {post : α → β → Store → Prop}
    (hmark : mark ≤ σ.log.length) (hmisses : σ.log.drop mark = misses.toList) :
    Follows k σ (Machine.blame mark : Machine β) (Matcher.blame misses : Matcher α) post
      fallback := by
  refine .aside σ.out (run_since hmark) (.read (.specContext (.read (.specPosition ?_))))
  rw [hmisses]
  exact .bind (.report fun τ _ => .abort _)

/-- To push a node over some tokens is to wrap the children, where the matcher
    leaves the node to its caller. -/
theorem pushSpan {label : Tree.Label} {start : Nat} {children : List Tree}
    {post : List Tree → Unit → Store → Prop}
    (h : ∀ nodes, post nodes () { σ with out := σ.out ++ nodes }) :
    Follows k σ (Machine.pushSpan label start children) (Matcher.wrap label start children) post
      fallback := by
  refine .read (.specPosition ?_)
  by_cases hspan : start < σ.position
  · have hpush := h [.node label ⟨start, σ.position⟩ children]
    rw [if_pos hspan, if_pos hspan]
    exact .of_quiet (.matched ()) _ rfl rfl rfl rfl rfl hpush
  · have hnothing := h []
    rw [List.append_nil] at hnothing
    rw [if_neg hspan, if_neg hspan]
    exact .pure hnothing

end Follows

/-- The machine of a term follows its matcher wherever `d` more productions may be
    opened. A match appends its nodes to the child vector, and a failure leaves the
    cursor and the child vector as they were. -/
def FollowsTerm (k : Setting) (d : Nat) (m : Machine Unit) (spec : Matcher (List Tree)) : Prop :=
  ∀ σ : Store, σ.position ≤ k.tokens.size → k.limit - σ.depth = d →
    Follows k σ m spec (fun nodes _ τ => σ.Advanced k τ ∧ τ.out = σ.out ++ nodes) σ.RolledBack

/-- The machine of a sequence follows its matcher wherever `d` more productions may
    be opened. -/
def FollowsSequence (k : Setting) (d : Nat) (m : Machine Bool) (spec : Matcher (Bool × List Tree)) :
    Prop :=
  ∀ σ : Store, σ.position ≤ k.tokens.size → k.limit - σ.depth = d →
    Follows k σ m spec
      (fun x committed τ => committed = x.1 ∧ σ.Advanced k τ ∧ τ.out = σ.out ++ x.2) σ.RolledBack

/-- The machine of a production follows its matcher wherever `d` more productions
    may be opened. -/
def FollowsProduction (k : Setting) (d : Nat) (m : Machine Tree) (spec : Matcher Tree) : Prop :=
  ∀ σ : Store, σ.position ≤ k.tokens.size → k.limit - σ.depth = d →
    Follows k σ m spec (fun tree tree' τ => tree' = tree ∧ σ.Advanced k τ ∧ τ.out = σ.out)
      σ.RolledBack

/-- A leaf pushes where the matcher has a leaf for a value. Both test the token at
    the cursor, and where they do not accept it they write down the same misses. -/
theorem follows_leaf (l : Leaf) : FollowsTerm k d (leaf l) (Matcher.leaf l) := by
  intro σ hσ _
  have hmissed (expected : List Expectation) (e : Event) :
      Follows k σ (expect expected >>= fun _ => report e >>= fun _ => fail)
        (Matcher.expect expected >>= fun _ => Matcher.report e >>= fun _ => Matcher.fail)
        (fun nodes (_ : Unit) τ => σ.Advanced k τ ∧ τ.out = σ.out ++ nodes) σ.RolledBack := by
    refine .bind (.expect fun log => .bind (.report fun τ hτ => .fail ?_))
    exact ⟨hτ.position_eq, hτ.out_eq⟩
  refine .read (.specPosition (.read (.specPeek ?_)))
  cases htoken : k.tokens[σ.position]? with
  | none => exact hmissed _ _
  | some t =>
    have hlt := (Array.getElem?_eq_some_iff.mp htoken).1
    by_cases haccepts : l.accepts t = true
    · dsimp only
      rw [if_pos haccepts, if_pos haccepts]
      refine .bind (.report fun τ hτ => ?_)
      have hposition : τ.position = σ.position := hτ.position_eq
      refine .bind (.bump (by omega) ?_)
      have hadvanced : σ.Advanced k { τ with
          position := τ.position + 1
          out := τ.out ++ [.leaf l.role σ.position] } := by
        constructor
        · show σ.position ≤ τ.position + 1
          omega
        · show τ.position + 1 ≤ k.tokens.size
          omega
      refine .of_quiet (.matched ()) (τ.out ++ [.leaf l.role σ.position]) rfl rfl rfl rfl rfl
        ⟨hadvanced, ?_⟩
      rw [hτ.out_eq]
    · dsimp only
      rw [if_neg haccepts, if_neg haccepts]
      exact hmissed _ _

/-- The steps end alike. They only ever push onto the child vector. -/
def Ending.Tracks (k : Setting) (σ τ : Store) : Matcher.Ending → Ending → Prop
  | .finished committed nodes, .finished committed' =>
    committed' = committed ∧ σ.Advanced k τ ∧ τ.out = σ.out ++ nodes
  | .stuck committed, .stuck committed' => committed' = committed ∧ σ.out <+: τ.out
  | _, _ => False

/-- The steps of a sequence push as they go, and may leave nodes behind where they
    get stuck. The induction is on the terms. -/
theorem follows_steps {ms : List (Machine Unit)} {specs : List (Matcher (List Tree))}
    (hms : List.Forall₂ (FollowsTerm k d) ms specs) (threshold earned : Nat) (committed : Bool)
    (hσ : σ.position ≤ k.tokens.size) (hd : k.limit - σ.depth = d) :
    Follows k σ (steps threshold ms earned committed)
      (Matcher.steps threshold specs earned committed)
      (fun spec ending τ => ending.Tracks k σ τ spec) (fun _ => False) := by
  induction hms generalizing earned committed σ with
  | nil =>
    refine .bind (.commitAt fun committed τ hτ => .pure ⟨rfl, hτ.advanced hσ, ?_⟩)
    rw [hτ.out_eq, List.append_nil]
  | @cons m spec ms specs hterm _ ih =>
    refine .bind (.checkPatience (.bind (.commitAt fun committed τ hτ => ?_)))
    refine .read (.specPosition (.bind (.attempt ?_)))
    have hτd : k.limit - τ.depth = d := by rw [hτ.depth_eq, hd]
    refine (hterm τ (hτ.advanced hσ).le_size hτd).imp (fun nodes _ υ _ hdepth hυ => ?_)
      (fun υ _ _ hυ => ?_)
    · obtain ⟨hadvanced, hout⟩ := hυ
      refine .read (.specPosition (.specMap ?_))
      have hυd : k.limit - υ.depth = d := by rw [hdepth, hτd]
      refine (ih _ committed hadvanced.le_size hυd).imp (fun spec ending ω _ _ hω => ?_)
        (fun _ _ _ => False.elim)
      match spec, ending, hω with
      | .finished committed more, .finished _, ⟨hcommitted, hfurther, hmore⟩ =>
        refine ⟨hcommitted, (hτ.advanced hσ).trans (hadvanced.trans hfurther), ?_⟩
        rw [hmore, hout, hτ.out_eq, List.append_assoc]
      | .stuck committed, .stuck _, ⟨hcommitted, hleads⟩ =>
        refine ⟨hcommitted, List.IsPrefix.trans ?_ hleads⟩
        rw [hout, hτ.out_eq]
        exact List.prefix_append _ _
    · have hback := hτ.rolledBack hυ
      have hleads : σ.out <+: υ.out := by simp [hback.out_eq]
      exact .pure ⟨rfl, hleads⟩

/-- A sequence that fails has truncated the child vector and gone back. The matcher
    has the nodes of the terms in its value and drops them. On the machine they are
    on the vector, above what was there before. -/
theorem follows_sequence {ms : List (Machine Unit)} {specs : List (Matcher (List Tree))}
    (hms : List.Forall₂ (FollowsTerm k d) ms specs) (threshold : Nat) :
    FollowsSequence k d (sequence threshold ms) (Matcher.sequence threshold specs) := by
  intro σ hσ hd
  refine .specPosition (.read (.read (.read (.bind (.listen ?_)))))
  refine (follows_steps hms threshold 0 false hσ hd).imp
    (fun spec ending τ _ _ hτ misses hlog => ?_) (fun _ _ _ => False.elim)
  match spec, ending, hτ with
  | .finished committed nodes, .finished _, ⟨hcommitted, hadvanced, hout⟩ =>
    exact .pure ⟨hcommitted, hadvanced, hout⟩
  | .stuck true, .stuck _, ⟨hcommitted, _⟩ =>
    subst hcommitted
    refine .blame ?_ ?_
    · rw [hlog, List.length_append]
      omega
    · rw [hlog, List.drop_left]
  | .stuck false, .stuck _, ⟨hcommitted, hleads⟩ =>
    subst hcommitted
    have htruncated : τ.out.take σ.out.length = σ.out := (List.prefix_iff_eq_take.mp hleads).symm
    have hrun : truncate σ.out.length k τ = some (.matched (), { τ with out := σ.out }) := by
      simp [truncate, update, htruncated]
    refine .aside _ hrun (.bind (.backtrack hσ fun υ hυ => .fail ?_))
    exact ⟨hυ.position_eq, hυ.out_eq⟩

/-- An optional part collects its nodes on a vector of its own. Where it fails the
    vector is as before, and no node is pushed for it. -/
theorem follows_optional {m : Machine Bool} {spec : Matcher (Bool × List Tree)}
    (hm : FollowsSequence k d m spec) : FollowsTerm k d (optional m) (Matcher.optional spec) := by
  intro σ hσ hd
  refine .specPosition (.read (.bind (.gather ?_)))
  refine (hm { σ with out := [] } hσ hd).imp (fun x _ τ _ _ hτ => ?_) (fun τ _ _ hτ => ?_)
  · obtain ⟨-, hadvanced, hout⟩ := hτ
    have hnodes : τ.out = x.2 := hout
    rw [hnodes]
    exact .pushSpan fun nodes => ⟨⟨hadvanced.le, hadvanced.le_size⟩, rfl⟩
  · have hadvanced : Store.Advanced k σ { τ with out := σ.out } := .of_eq hσ hτ.position_eq
    exact .pure ⟨hadvanced, (List.append_nil _).symm⟩

/-- The rest of an alternation keeps the best candidate so far as a value, with its
    nodes off the child vector. That is why a failure has nothing to truncate. -/
theorem follows_choose {ms : List (Machine Bool)} {specs : List (Matcher (Bool × List Tree))}
    (hms : List.Forall₂ (FollowsSequence k d) ms specs) {start : Nat} {owner : String}
    (branch : Nat) {best : Option Matcher.Provisional} (hstart : start ≤ k.tokens.size)
    (hσ : σ.position ≤ k.tokens.size) (hd : k.limit - σ.depth = d)
    (howner : σ.stack.head?.getD "" = owner)
    (hbest : ∀ b ∈ best, start ≤ b.stop ∧ b.stop ≤ k.tokens.size)
    (hfirst : best = none → σ.position = start) :
    Follows k σ (choose start owner ms branch best) (Matcher.choose start specs branch best)
      (fun nodes _ τ => start ≤ τ.position ∧ τ.position ≤ k.tokens.size ∧
        τ.out = σ.out ++ nodes)
      (fun τ => τ.position = start ∧ τ.out = σ.out) := by
  induction hms generalizing branch best σ with
  | nil =>
    cases best with
    | none =>
      have hthere : backtrack start k σ = some (.matched (), σ) := by
        simp [backtrack, position, Bind.bind, Machine.bind, read, hfirst rfl, Pure.pure,
          Machine.pure]
      exact .aside σ.out hthere (.fail ⟨hfirst rfl, rfl⟩)
    | some b =>
      obtain ⟨hle, hstop⟩ := hbest b rfl
      exact .bind (.reset hstop (.pushSpan fun nodes => ⟨hle, hstop, rfl⟩))
  | @cons m spec ms specs hm _ ih =>
    refine .bind (.reset hstart (.specContext ?_))
    have howner' : ({ σ with position := start } : Store).stack.head?.getD "" = owner := howner
    simp only [Store.context, howner']
    refine .bind (.report fun τ hτ => .bind (.gather ?_))
    have hposition : τ.position = start := hτ.position_eq
    have hout : τ.out = σ.out := hτ.out_eq
    have hstack : τ.stack = σ.stack := hτ.stack_eq
    have hτd : k.limit - τ.depth = d := by rw [hτ.depth_eq, hd]
    have hnext {υ : Store} {best : Option Matcher.Provisional} (hυ : υ.position ≤ k.tokens.size)
        (hυstack : υ.stack = τ.stack) (hυdepth : υ.depth = τ.depth)
        (hbest : ∀ b ∈ best, start ≤ b.stop ∧ b.stop ≤ k.tokens.size)
        (hfirst : best = none → υ.position = start) :
        Follows k { υ with out := τ.out } (choose start owner ms (branch + 1) best)
          (Matcher.choose start specs (branch + 1) best)
          (fun nodes _ τ => start ≤ τ.position ∧ τ.position ≤ k.tokens.size ∧
            τ.out = σ.out ++ nodes)
          (fun τ => τ.position = start ∧ τ.out = σ.out) := by
      have hrest := ih (σ := { υ with out := τ.out }) (branch + 1) hυ (by rw [hυdepth, hτd])
        (by rw [hυstack, hstack, howner]) hbest hfirst
      simpa only [hout] using hrest
    have hτsize : τ.position ≤ k.tokens.size := by omega
    refine (hm { τ with out := [] } hτsize hτd).imp
      (fun x committed υ hυstack hυdepth hυ => ?_) (fun υ hυstack hυdepth hυ => ?_)
    · obtain ⟨hcommitted, hadvanced, hnodes⟩ := hυ
      have hle : start ≤ υ.position := by
        rw [← hposition]
        exact hadvanced.le
      obtain ⟨committed', nodes⟩ := x
      subst hcommitted
      have hnodes : υ.out = nodes := hnodes
      rw [hnodes]
      cases committed with
      | true =>
        refine .pushSpan fun nodes => ⟨hle, hadvanced.le_size, ?_⟩
        rw [← hout]
      | false =>
        refine .read (.specPosition (hnext hadvanced.le_size hυstack hυdepth ?_
          fun hnone => absurd hnone (Option.some_ne_none _)))
        intro b hb
        cases hb
        cases best with
        | none => exact ⟨hle, hadvanced.le_size⟩
        | some old =>
          unfold Matcher.Provisional.better
          dsimp only
          split
          · exact ⟨hle, hadvanced.le_size⟩
          · exact hbest old rfl
    · have hthere : υ.position = start := hυ.position_eq.trans hposition
      have hυsize : υ.position ≤ k.tokens.size := by omega
      exact hnext hυsize hυstack hυdepth hbest fun _ => hthere

/-- An alternation tries all of its candidates from one place. The best of them is
    pushed when all have been tried, and the cursor is set to its end. -/
theorem follows_alternation {ms : List (Machine Bool)}
    {specs : List (Matcher (Bool × List Tree))}
    (hms : List.Forall₂ (FollowsSequence k d) ms specs) :
    FollowsTerm k d (alternation ms) (Matcher.alternation specs) := by
  intro σ hσ hd
  refine .read (.specPosition (.read ?_))
  have hnone : ∀ b ∈ (none : Option Matcher.Provisional),
      σ.position ≤ b.stop ∧ b.stop ≤ k.tokens.size := nofun
  refine (follows_choose hms 0 hσ hσ hd rfl hnone fun _ => rfl).imp (fun nodes _ τ _ _ hτ => ?_)
    (fun τ _ _ hτ => ?_)
  · exact ⟨⟨hτ.1, hτ.2.1⟩, hτ.2.2⟩
  · exact ⟨hτ.1, hτ.2⟩

section Repetition

variable {m : Machine Bool} {spec : Matcher (Bool × List Tree)} {separator : Option (Machine Bool)}
  {specs : Option (Matcher (Bool × List Tree))}

/-- The turns end alike, but for one without a token, which the machine takes to be
    over. -/
def Turn.Tracks (k : Setting) (σ τ : Store) : Matcher.Turn → Turn → Prop
  | .next nodes, .next =>
    σ.position < τ.position ∧ τ.position ≤ k.tokens.size ∧ τ.out = σ.out ++ nodes
  | .itemMissing, .itemMissing mark => mark = σ.log.length
  | .over, .over | .next _, .over => σ.RolledBack τ
  | _, _ => False

/-- The end of a turn pushes its node, or truncates where no token was consumed.
    What the separator has pushed in front of the item stays only if the turn has
    got further. -/
theorem follows_finish (front : List Tree) {children : List Tree} {itemStart : Nat}
    (hle : σ.position ≤ τ.position) (hsize : τ.position ≤ k.tokens.size)
    (hout : τ.out = σ.out ++ front) :
    Follows k τ (finish σ.position σ.out.length itemStart children)
      (Matcher.wrap .item itemStart children >>= fun nodes =>
        Pure.pure (.next (front ++ nodes) : Matcher.Turn))
      (fun spec ending υ => ending.Tracks k σ υ spec) (fun _ => False) := by
  refine .read ?_
  by_cases hstill : τ.position = σ.position
  · have hrun : truncate σ.out.length k τ = some (.matched (), { τ with out := σ.out }) := by
      simp [truncate, update, hout]
    rw [if_pos hstill]
    exact .aside _ hrun (.unseen rfl rfl rfl rfl rfl (.pure ⟨hstill, rfl⟩))
  · rw [if_neg hstill]
    refine .bind (.pushSpan fun nodes => .pure ⟨?_, hsize, ?_⟩)
    · exact Nat.lt_of_le_of_ne hle (Ne.symm hstill)
    · rw [hout, List.append_assoc]

/-- A turn ends alike on both sides, but for one without a token. With a separator
    there are two vectors, one for its nodes and one for those of the item. -/
theorem follows_turn (hm : FollowsSequence k d m spec)
    (hseparator : Option.Rel (FollowsSequence k d) separator specs)
    (hσ : σ.position ≤ k.tokens.size) (hd : k.limit - σ.depth = d) :
    Follows k σ (turn m separator) (Matcher.turn spec specs)
      (fun spec ending τ => ending.Tracks k σ τ spec) (fun _ => False) := by
  cases hseparator with
  | none =>
    refine .read (.specPosition (.read (.bind (.gather ?_))))
    refine (hm { σ with out := [] } hσ hd).imp (fun x _ τ _ _ hτ => ?_) (fun τ _ _ hτ => ?_)
    · obtain ⟨-, hadvanced, hout⟩ := hτ
      have hnodes : τ.out = x.2 := hout
      rw [hnodes]
      exact follows_finish (σ := σ) (τ := { τ with out := σ.out }) [] hadvanced.le
        hadvanced.le_size (List.append_nil _).symm
    · exact .pure ⟨hτ.position_eq, rfl⟩
  | some hseparator =>
    refine .read (.specPosition (.read (.read (.bind (.gather ?_)))))
    refine (hseparator { σ with out := [] } hσ hd).imp (fun x _ τ _ hdepth hτ => ?_)
      (fun τ _ _ hτ => ?_)
    · obtain ⟨-, hadvanced, hout⟩ := hτ
      have hfront : τ.out = x.2 := hout
      rw [hfront]
      refine .bind (.pushSpan fun front => .read (.specPosition (.bind (.gather ?_))))
      have hτd : k.limit - τ.depth = d := by rw [hdepth, hd]
      refine (hm { τ with out := [] } hadvanced.le_size hτd).imp (fun y _ υ _ _ hυ => ?_)
        (fun υ _ _ hυ => .pure rfl)
      obtain ⟨-, hfurther, hout'⟩ := hυ
      have hnodes : υ.out = y.2 := hout'
      have hle : σ.position ≤ υ.position := Nat.le_trans hadvanced.le hfurther.le
      rw [hnodes]
      exact follows_finish (σ := σ) (τ := { υ with out := σ.out ++ front }) front hle
        hfurther.le_size rfl
    · exact .pure ⟨hτ.position_eq, rfl⟩

/-- The machine goes on with the next turn where the matcher does and a token was
    consumed. -/
def TracksIteration (k : Setting) (σ τ : Store) : Option (List Tree) → Bool → Prop
  | some nodes, true =>
    σ.position < τ.position ∧ τ.position ≤ k.tokens.size ∧ τ.out = σ.out ++ nodes
  | none, true => False
  | _, false => σ.RolledBack τ

/-- The same behind the test and the charge, with the blame where an item is
    missing. -/
theorem follows_iteration (hm : FollowsSequence k d m spec)
    (hseparator : Option.Rel (FollowsSequence k d) separator specs)
    (hσ : σ.position ≤ k.tokens.size) (hd : k.limit - σ.depth = d) :
    Follows k σ (iteration m separator) (Matcher.iteration spec specs)
      (fun found goesOn τ => TracksIteration k σ τ found goesOn) (fun _ => False) := by
  refine .bind (.checkPatience (.bind (.charge fun τ hτ => .bind (.listen ?_))))
  have hτd : k.limit - τ.depth = d := by rw [hτ.depth_eq, hd]
  refine (follows_turn hm hseparator (hτ.advanced hσ).le_size hτd).imp
    (fun spec ending υ _ _ hυ misses hlog => ?_) (fun _ _ _ => False.elim)
  match spec, ending, hυ with
  | .next nodes, .next, ⟨hlt, hsize, hout⟩ =>
    rw [hτ.position_eq] at hlt
    rw [hτ.out_eq] at hout
    exact .pure ⟨hlt, hsize, hout⟩
  | .itemMissing, .itemMissing mark, hmark =>
    have hmark : mark = τ.log.length := hmark
    subst hmark
    refine .blame ?_ ?_
    · rw [hlog, List.length_append]
      omega
    · rw [hlog, List.drop_left]
  | .over, .over, hback | .next nodes, .over, hback =>
    exact .pure (hτ.rolledBack hback)

/-- The loop over the turns ends before its budget does, for each turn that goes on
    consumes a token. -/
theorem follows_loop (hm : FollowsSequence k d m spec)
    (hseparator : Option.Rel (FollowsSequence k d) separator specs) {budget : Nat} (count : Nat)
    {first : Bool} (hfirst : first = decide (count = 0)) (hσ : σ.position ≤ k.tokens.size)
    (hd : k.limit - σ.depth = d) (hbudget : k.tokens.size - σ.position < budget) :
    Follows k σ (loop m separator budget count) (Matcher.iterate spec specs first)
      (fun x total τ => total = count + x.1 ∧ σ.Advanced k τ ∧ τ.out = σ.out ++ x.2)
      (fun _ => False) := by
  induction budget generalizing σ count first with
  | zero => omega
  | succ budget ih =>
    subst hfirst
    have hturn : Option.Rel (FollowsSequence k d) (if count = 0 then none else separator)
        (if decide (count = 0) then none else specs) := by
      by_cases hcount : count = 0
      · simp [hcount]
      · simpa [hcount] using hseparator
    obtain ⟨o, τ, hrun, hτ, hends⟩ := follows_iteration hm hturn hσ hd
    generalize hr : Matcher.iteration spec (if decide (count = 0) then none else specs)
      (σ.context k) σ.state = r at hτ hends
    have hposition : τ.position = r.state.position := by rw [hτ]; rfl
    have hdepth : τ.depth = σ.depth := by rw [hτ]; rfl
    have hover (count : Nat) (hback : σ.RolledBack τ) :
        count = count + 0 ∧ σ.Advanced k τ ∧ τ.out = σ.out ++ [] := by
      refine ⟨rfl, hback.advanced hσ, ?_⟩
      rw [hback.out_eq, List.append_nil]
    cases houtcome : r.outcome with
    | failed =>
      rw [houtcome] at hends
      cases o <;> exact hends.elim
    | aborted e =>
      rw [houtcome] at hends
      cases o with
      | aborted e' =>
        refine ⟨.aborted e', τ, run_bind_aborted hrun, ?_, ?_⟩
        · rw [Matcher.run_iterate_aborted hr houtcome]
          exact hτ
        · rw [Matcher.run_iterate_aborted hr houtcome]
          exact hends
      | matched | failed => exact hends.elim
    | matched found =>
      rw [houtcome] at hends
      cases o with
      | failed | aborted => exact hends.elim
      | matched goesOn =>
        have hstop : (loop m separator (budget + 1) count) k σ =
            (if goesOn then loop m separator budget (count + 1) else Pure.pure count) k τ :=
          run_bind_matched hrun
        match found, goesOn, hends with
        | none, false, hback =>
          refine ⟨.matched count, τ, hstop, ?_, ?_⟩
          · rw [Matcher.run_iterate_over hr houtcome]
            exact hτ
          · rw [Matcher.run_iterate_over hr houtcome]
            exact hover count hback
        | some nodes, false, hback =>
          have hstill : ¬ (σ.context k).tokens.size - r.state.position <
              (σ.context k).tokens.size - σ.state.position := by
            have hsame : r.state.position = σ.state.position :=
              hposition.symm.trans hback.position_eq
            rw [hsame]
            exact Nat.lt_irrefl _
          refine ⟨.matched count, τ, hstop, ?_, ?_⟩
          · rw [Matcher.run_iterate_still hr houtcome hstill]
            exact hτ
          · rw [Matcher.run_iterate_still hr houtcome hstill]
            exact hover count hback
        | some nodes, true, ⟨hlt, hsize, hout⟩ =>
          have hprogress : k.tokens.size - r.state.position < k.tokens.size - σ.position := by
            omega
          have hlater : false = decide (count + 1 = 0) := by simp
          obtain ⟨o', υ, hrun', hυ, hends'⟩ := ih (count + 1) hlater hsize (by rw [hdepth, hd])
            (by omega)
          have hcontext : τ.context k = σ.context k := by rw [hτ]; rfl
          have hstate : τ.state = r.state := by rw [hτ]; rfl
          rw [hcontext, hstate] at hυ hends'
          refine ⟨o', υ, hstop.trans hrun', ?_, ?_⟩
          · rw [Matcher.run_iterate_next hr houtcome hprogress, hυ, hτ, Store.after_after]
            rfl
          · rw [Matcher.run_iterate_next hr houtcome hprogress]
            refine Outcome.Agrees.map_left (hends'.imp (fun x total hx => ?_) id)
            obtain ⟨htotal, hfurther, hmore⟩ := hx
            have hadvanced : σ.Advanced k τ := ⟨Nat.le_of_lt hlt, hsize⟩
            refine ⟨?_, hadvanced.trans hfurther, ?_⟩
            · dsimp only
              omega
            · rw [hmore, hout, List.append_assoc]

/-- A repetition collects the nodes of its turns on a vector of its own, and goes
    back where there are too few. -/
theorem follows_repetition (least : Nat) (hm : FollowsSequence k d m spec)
    (hseparator : Option.Rel (FollowsSequence k d) separator specs) :
    FollowsTerm k d (repetition m separator least) (Matcher.repetition spec specs least) := by
  intro σ hσ hd
  refine .read (.specPosition (.read (.bind (.collect ?_))))
  refine (follows_loop (σ := { σ with out := [] }) hm hseparator 0 rfl hσ hd (by omega)).imp
    (fun x total τ _ _ hτ => ?_) (fun _ _ _ => False.elim)
  obtain ⟨htotal, hadvanced, hout⟩ := hτ
  obtain ⟨count, nodes⟩ := x
  have hcount : total = count := htotal.trans (Nat.zero_add _)
  have hnodes : τ.out = nodes := hout
  dsimp only
  rw [hcount, hnodes]
  by_cases hleast : count < least
  · rw [if_pos hleast, if_pos hleast]
    exact .bind (.backtrack hσ fun υ hυ => .fail ⟨hυ.position_eq, hυ.out_eq⟩)
  · rw [if_neg hleast, if_neg hleast]
    exact .pushSpan fun nodes => ⟨⟨hadvanced.le, hadvanced.le_size⟩, rfl⟩

end Repetition

/-- Both sides remember a breakpoint in the same case. It is remembered with the
    open productions if it is at the caret of a completion. -/
theorem follows_breakpoint : FollowsTerm k d breakpoint Matcher.breakpoint := by
  intro σ hσ _
  refine .read (.specContext (.specPosition (.read (.bind (.report fun τ hτ => .read ?_)))))
  have hdone {υ : Store} (hposition : υ.position = τ.position) (hout : υ.out = τ.out) :
      σ.Advanced k υ ∧ υ.out = σ.out ++ [] := by
    refine ⟨.of_eq hσ (hposition.trans hτ.position_eq), ?_⟩
    rw [hout, hτ.out_eq, List.append_nil]
  by_cases hend : (k.purpose == .completing && decide (k.tokens.size ≤ σ.position)) = true
  · have hend' : ((σ.context k).purpose == .completing &&
        decide ((σ.context k).tokens.size ≤ σ.position)) = true := hend
    dsimp only
    rw [if_pos hend, if_pos hend']
    refine .specMap ⟨.matched (), _, rfl, ?_, hdone rfl rfl⟩
    simp [Store.after, Matcher.mark, Store.state, Record.empty, Store.context]
  · have hend' : ¬ ((σ.context k).purpose == .completing &&
        decide ((σ.context k).tokens.size ≤ σ.position)) = true := hend
    dsimp only
    rw [if_neg hend, if_neg hend']
    exact .pure (hdone rfl rfl)

end Machine

end SqlStatement

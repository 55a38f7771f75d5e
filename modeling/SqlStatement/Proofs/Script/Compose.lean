import SqlStatement.Proofs.Script.Segments
import SqlStatement.Proofs.Sqlite.Terminator

namespace SqlStatement.Script

open Sqlite (parser)

variable {limits : Limits} {front behind : List Token} {semicolon : Token}

/-- In front of a terminator that ends the tokens, a prefix ends before it, and ends
    in the same place if more tokens follow. -/
theorem parsePrefix_append (hlast : front.getLast? = some semicolon)
    (hsemicolon : semicolon.IsTerminator) {read : Prefix}
    (hread : (parser limits).parsePrefix front = .ok read) (behind : List Token) :
    read.consumed < front.length ∧ ∃ read', (parser limits).parsePrefix (front ++ behind) =
      .ok read' ∧ read'.consumed = read.consumed := by
  obtain ⟨init, rfl⟩ := List.getLast?_eq_some_iff.mp hlast
  obtain ⟨tree, hconclude, hconsumed⟩ := Parser.conclude_of_parsePrefix hread
  have hmatched := Parser.conclude_eq_ok hconclude
  have hstop := Parser.stop_le_size hmatched
  rw [List.size_toArray, List.length_append, List.length_singleton] at hstop
  have halone := (Sqlite.matched_iff_of_terminator limits hsemicolon [] hstop).mpr hmatched
  have hlonger := (Sqlite.matched_iff_of_terminator limits hsemicolon behind hstop).mp halone
  have hbefore := Parser.stop_le_size halone
  rw [List.size_toArray] at hbefore
  constructor
  · rw [← hconsumed, List.length_append, List.length_singleton]
    omega
  · rw [List.append_assoc]
    exact ⟨_, Parser.parsePrefix_iff.mpr ⟨hlonger, hconsumed⟩, rfl⟩

/-- Each rule of a clean check is one of the longer script. A rule that ends the
    check would have to end it in front of the last semicolon, which none does. -/
theorem Checked.append {ds : List Diagnostic} {result : Except ParseError (List Diagnostic)}
    (h : Checked (parser limits) front result) (hok : result = .ok ds)
    (hclean : ∀ d ∈ ds, d.severity ≠ .error)
    (hend : ∀ t, front.getLast? = some t → t.IsTerminator)
    {answer : Except ParseError (List Diagnostic)}
    (hbehind : Checked (parser limits) behind answer) :
    Checked (parser limits) (front ++ behind) (answer.map (ds ++ ·)) := by
  induction h generalizing ds with
  | nil =>
    cases hok
    cases answer <;> exact hbehind
  | @stray stray rest result hstray _ ih =>
    cases result with
    | error err => cases hok
    | ok ds' =>
      cases hok
      have hrest := ih rfl (fun d hd => hclean d (List.mem_cons_of_mem _ hd))
        fun t ht => hend t (List.mem_getLast?_cons ht)
      have hwhole := Checked.stray hstray hrest
      cases answer <;> exact hwhole
  | @last first rest read hfirst hread hdone =>
    have hlast := List.getLast?_cons (a := first) (l := rest)
    obtain ⟨hshort, -⟩ := parsePrefix_append hlast (hend _ hlast) hread behind
    omega
  | @statement first t rest read result hfirst hread hnext ht _ ih =>
    have hlast := List.getLast?_cons (a := first) (l := rest)
    obtain ⟨hshort, read', hread', hsame⟩ := parsePrefix_append hlast (hend _ hlast) hread behind
    have hnext' : (first :: rest ++ behind)[read'.consumed]? = some t := by
      rw [hsame, List.getElem?_append_left hshort, hnext]
    have hrest : Checked (parser limits) ((first :: rest ++ behind).drop (read'.consumed + 1))
        (answer.map (ds ++ ·)) := by
      rw [hsame, List.drop_append_of_le_length hshort]
      refine ih hok hclean fun u hu => hend u ?_
      rw [List.getLast?_drop] at hu
      split at hu
      · cases hu
      · exact hu
    exact .statement hfirst hread' hnext' ht hrest
  | overrun | failed =>
    cases hok
    simp [severity_ofInputError] at hclean
  | aborted => cases hok

/-- Behind a clean script that ends with a semicolon, a check says what it says of
    that script and then what it says of the one behind it, or is given up as it is
    on the one behind it. -/
theorem check_append (limits : Limits) (front behind : List Token) (ds : List Diagnostic)
    (hcheck : check (parser limits) front = .ok ds) (hclean : ∀ d ∈ ds, d.severity ≠ .error)
    (hend : ∀ t, front.getLast? = some t → t.IsTerminator) :
    check (parser limits) (front ++ behind) =
      (check (parser limits) behind).map (ds ++ ·) :=
  checked_iff.mp ((checked_iff.mpr hcheck).append rfl hclean hend (checked_iff.mpr rfl))

/-- A trigger and a stray semicolon, with a statement behind them that ends too
    early. The trigger has a semicolon inside, at which the script is not cut, and
    only the second semicolon behind it is reported. -/
theorem check_append_trigger : ∃ (front behind : List Token) (warning error : Diagnostic),
    front.map (·.text) = Sqlite.trigger.map (·.text) ++ [";", ";"] ∧
      behind.map (·.text) = ["SELECT"] ∧ warning.severity ≠ .error ∧
      check (parser {}) front = .ok [warning] ∧ check (parser {}) behind = .ok [error] ∧
      check (parser {}) (front ++ behind) = .ok [warning, error] := by
  obtain ⟨semicolon, hsemicolon⟩ : ∃ t : Token, t = ⟨.symbol .semicolon, ";", ⟨48, 49⟩⟩ := ⟨_, rfl⟩
  obtain ⟨word, hword⟩ : ∃ t : Token, t = ⟨.keyword .SELECT, "SELECT", ⟨52, 58⟩⟩ := ⟨_, rfl⟩
  have hconsumed : ((parser {}).parsePrefix (Sqlite.trigger ++ [semicolon, semicolon])).toOption.map
      (·.consumed) = some 11 := by
    subst hsemicolon
    decide +kernel
  have hinput : (Parser.inputError? ((parser {}).parsePrefix [word])).any
      (fun _ => true) = true := by
    subst hword
    decide +kernel
  obtain ⟨e, herror, -⟩ := Parser.exists_of_any_inputError? hinput
  have hmark : semicolon.isSemicolon = true := by rw [hsemicolon]; rfl
  have hfront : check (parser {}) (Sqlite.trigger ++ [semicolon, semicolon]) =
      .ok [.ofKind .emptyStatement semicolon.span] := by
    cases hread : (parser {}).parsePrefix (Sqlite.trigger ++ [semicolon, semicolon]) with
    | error err =>
      rw [hread] at hconsumed
      cases hconsumed
    | ok read =>
      rw [hread] at hconsumed
      have heleven : read.consumed = 11 := Option.some.inj hconsumed
      refine checked_iff.mp (.statement rfl hread ?_ hmark ?_)
      · rw [heleven]
        rfl
      · rw [heleven]
        exact .stray hmark .nil
  have hbehind : check (parser {}) [word] = .ok [.ofInputError e [word]] := by
    refine checked_iff.mp (.failed ?_ herror)
    rw [hword]
    rfl
  have hmild : ∀ d ∈ [Diagnostic.ofKind .emptyStatement semicolon.span], d.severity ≠ .error := by
    intro d hd
    cases List.mem_singleton.mp hd
    nofun
  have hboth := check_append {} _ [word] _ hfront hmild fun t ht => by
    cases ht
    rw [hsemicolon]
    decide
  rw [hbehind] at hboth
  refine ⟨_, [word], _, _, ?_, ?_, ?_, hfront, hbehind, hboth⟩
  · rw [hsemicolon]
    rfl
  · rw [hword]
    rfl
  · exact hmild _ (List.mem_singleton_self _)

end SqlStatement.Script

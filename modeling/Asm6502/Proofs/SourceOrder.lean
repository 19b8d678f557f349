import Asm6502.Proofs.FailedLines

/-!
# The order of a source

A source is read from front to back.  Every token begins before the next one, by line and
column, and an operand begins with one of its tokens.  So the operands of all statements
of a source, taken one statement after another, stand at positions that only go up.
-/

namespace Asm6502

/-!
## Positions
-/

namespace Position

/-- On an earlier line, or on the same line and further to the left. -/
def Before (p q : Position) : Prop :=
  p.line < q.line ∨ p.line = q.line ∧ p.column < q.column

instance (p q : Position) : Decidable (p.Before q) :=
  inferInstanceAs (Decidable (_ ∨ _))

variable {p q r : Position}

theorem Before.trans (h : p.Before q) (h' : q.Before r) : p.Before r := by
  unfold Before at *
  omega

theorem before_next (p : Position) (c : Char) : p.Before (p.next c) := by
  unfold Before next
  split
  · exact .inl (Int.lt_succ p.line)
  · exact .inr ⟨rfl, Int.lt_succ p.column⟩

theorem before_after (p : Position) {t : Text} (h : t ≠ []) : p.Before (p.after t) := by
  induction t generalizing p with
  | nil => exact absurd rfl h
  | cons c rest ih =>
      rw [after_cons]
      by_cases hrest : rest = []
      · rw [hrest, after_nil]
        exact before_next p c
      · exact (before_next p c).trans (ih (p.next c) hrest)

end Position

/-!
## Tokens
-/

theorem Lexeme.before_read (p : Position) (c : Char) (t : Text) :
    p.Before (read p c t).position := by
  rcases takes_read p c t with ⟨used, htext, hposition⟩
  rw [hposition]
  apply Position.before_after
  rintro rfl
  have hle := read_rest_le p c t
  rw [List.nil_append] at htext
  rw [← htext, List.length_cons] at hle
  exact Nat.not_succ_le_self _ hle

namespace Scan

/-- The tokens that are found from a position on begin there or later, each of them
before the next. -/
theorem ordered_findings (p : Position) (t : Text) :
    (∀ q : Position, q.Before p ->
      ∀ token ∈ (findings p t).filterMap Finding.token, q.Before token.position) ∧
    ((findings p t).filterMap Finding.token).Pairwise fun s t =>
      s.position.Before t.position := by
  fun_induction findings p t with
  | case1 p => simp
  | case2 p c t ih =>
      rcases ih with ⟨hlater, hpairwise⟩
      have hp := Lexeme.before_read p c t
      rw [List.filterMap_cons]
      cases htoken : (Lexeme.read p c t).token with
      | none =>
          simp only [Finding.ofReading, htoken, Option.map_none]
          exact ⟨fun q hq => hlater q (hq.trans hp), hpairwise⟩
      | some found =>
          simp only [Finding.ofReading, htoken, Option.map_some]
          refine ⟨?_, List.pairwise_cons.mpr ⟨hlater p hp, hpairwise⟩⟩
          intro q hq token hmem
          rcases List.mem_cons.mp hmem with rfl | hmem
          · exact hq
          · exact hlater q (hq.trans hp) token hmem

theorem ordered_words (t : Text) :
    (ofText t).words.Pairwise fun s t => s.position.Before t.position := by
  rw [words_ofText]
  exact (ordered_findings .start t).2

theorem line_pos_of_mem_words {t : Text} {token : Token}
    (h : token ∈ (ofText t).words) : 0 < token.position.line := by
  rw [words_ofText] at h
  have hzero : Position.Before ⟨1, 0⟩ .start := by decide
  have hbefore := (ordered_findings .start t).1 _ hzero token h
  unfold Position.Before at hbefore
  dsimp only at hbefore
  omega

end Scan

/-!
## Operands of a statement
-/

namespace Grammar

variable {ts : List Token} {os : List Operand} {s : Statement}

theorem DerivesOperand.sublist {o : Operand} (h : DerivesOperand ts o) :
    [o.position].Sublist (ts.map Token.position) := by
  cases h with
  | immediate _ _ => simp
  | indirect _ _ _ => simp
  | indexed _ _ _ _ _ => simp
  | string _ => simp
  | value _ => simp

theorem DerivesOperands.sublist (h : DerivesOperands ts os) :
    (os.map Operand.position).Sublist (ts.map Token.position) := by
  induction h with
  | last hoperand => exact hoperand.sublist
  | comma hoperand _ _ ih =>
      rw [List.map_append, List.map_cons, List.map_cons, ← List.singleton_append]
      exact hoperand.sublist.append (ih.cons _)

theorem DerivesArguments.sublist (h : DerivesArguments ts os) :
    (os.map Operand.position).Sublist (ts.map Token.position) := by
  induction h with
  | last hoperand => exact hoperand.sublist
  | comma hoperand _ _ ih =>
      rw [List.map_append, List.map_cons, List.map_cons, ← List.singleton_append]
      exact hoperand.sublist.append (ih.cons _)
  | blank hoperand _ ih =>
      rw [List.map_append, List.map_cons, ← List.singleton_append]
      exact hoperand.sublist.append ih

theorem DerivesTail.sublist (h : DerivesTail ts s) :
    (s.operands.map Operand.position).Sublist (ts.map Token.position) := by
  cases h with
  | implied _ => exact List.nil_sublist _
  | instruction _ hos => exact hos.sublist.cons _
  | bare _ => exact List.nil_sublist _
  | directive _ hos => exact hos.sublist.cons _
  | assignment _ _ _ => exact .cons_cons _ (.cons _ (List.Sublist.refl _))

end Grammar

/-!
## Operands of a source
-/

def Event.operandPositions (events : List Event) : List Position :=
  (events.filterMap Event.statement?).flatMap fun s => s.operands.map Operand.position

theorem Event.operandPositions_append (events more : List Event) :
    operandPositions (events ++ more) = operandPositions events ++ operandPositions more := by
  simp [operandPositions]

theorem Event.operandPositions_reports (ds : List Diagnostic) :
    operandPositions (ds.map .report) = [] := by
  simp [operandPositions, Event.statement?]

namespace Row

theorem sublist_lastEvents (line : Int) (follow : Sighting) (failed : Bool)
    (start : Sighting) (rest : List Sighting) :
    (Event.operandPositions (lastEvents line follow failed start rest)).Sublist
      ((start :: rest).map fun seen => seen.token.position) := by
  rw [lastEvents_eq, Event.operandPositions_append, Event.operandPositions_reports,
    List.nil_append]
  split
  · exact List.nil_sublist _
  · cases hstatement : Grammar.statement follow.token start.token
        (rest.map Sighting.token) with
    | error d => exact List.nil_sublist _
    | ok s =>
        have hsublist := (Grammar.derives_of_statement hstatement).sublist
        simpa [Event.operandPositions, Grammar.eventOf, Event.statement?,
          Function.comp_def] using hsublist

/-- The statements of a row take their operands from its tokens, in order; labels have
no operands. -/
theorem sublist_eventsOnto (done : List Event) (line : Int) (follow : Sighting)
    (failed : Bool) (seen : List Sighting) :
    (Event.operandPositions (eventsOnto done line follow failed seen)).Sublist
      (Event.operandPositions done.reverse ++ seen.map fun s => s.token.position) := by
  fun_induction eventsOnto done line follow failed seen with
  | case1 done => simp
  | case2 done start =>
      rw [Event.operandPositions_append]
      exact (List.Sublist.refl _).append (sublist_lastEvents ..)
  | case3 done name colon rest _ found _ =>
      rw [Event.operandPositions_append, Event.operandPositions_reports]
      exact (List.Sublist.refl _).append (List.nil_sublist _)
  | case4 done name colon rest _ found _ label ih =>
      refine ih.trans ?_
      rw [List.reverse_append, List.reverse_cons, List.reverse_reverse,
        Event.operandPositions_append, Event.operandPositions_append,
        Event.operandPositions_reports]
      have hlabel : Event.operandPositions [label] = [] := rfl
      rw [hlabel, List.append_nil, List.append_nil]
      exact (List.Sublist.refl _).append (.cons _ (.cons _ (List.Sublist.refl _)))
  | case5 done name colon rest _ =>
      rw [Event.operandPositions_append]
      exact (List.Sublist.refl _).append (sublist_lastEvents ..)

theorem flatMap_ofScan (scan : Scan) :
    (ofScan scan).flatMap (fun row => row.sightings.map fun s => s.token.position) =
      scan.words.map Token.position := by
  let final : Sighting := ⟨scan.final.token, []⟩
  let groups := (sightingsOf scan).splitBy fun s t =>
    s.token.position.line == t.token.position.line
  let follows := (groups.drop 1).map (fun group => group.headD final) ++ [final]
  have hlength : groups.length ≤ follows.length := by
    simp only [follows, List.length_append, List.length_map, List.length_drop,
      List.length_singleton]
    omega
  have hrows : (ofScan scan).map Row.sightings = groups := by
    have hfirst := List.map_fst_zip hlength
    rw [List.zip_eq_zipWith, List.map_zipWith] at hfirst
    show (List.zipWith Row.mk groups follows).map Row.sightings = groups
    rw [List.map_zipWith]
    exact hfirst
  have hflatten : groups.flatten = Sighting.all scan.lexemes [scan.final] := by
    rw [List.flatten_splitBy, sightingsOf_eq]
  calc (ofScan scan).flatMap (fun row => row.sightings.map fun s => s.token.position)
    _ = ((ofScan scan).map Row.sightings).flatten.map fun s => s.token.position := by
        rw [List.flatMap_def, List.map_flatten, List.map_map]
        rfl
    _ = ((Sighting.all scan.lexemes [scan.final]).map Sighting.token).map
          Token.position := by
        rw [hrows, hflatten, List.map_map]
        rfl
    _ = scan.words.map Token.position := by
        rw [Sighting.map_token_all]
        rfl

end Row

namespace Script

theorem sublist_turnsFrom (bad : List Int) (rows : List Row) :
    (Event.operandPositions ((turnsFrom bad rows).flatMap Turn.events)).Sublist
      (rows.flatMap fun row => row.sightings.map fun s => s.token.position) := by
  induction rows generalizing bad with
  | nil => exact List.nil_sublist _
  | cons row rows ih =>
      rw [turnsFrom, List.flatMap_cons, List.flatMap_cons, Event.operandPositions_append]
      exact (Row.sublist_eventsOnto [] ..).append (ih _)

theorem sublist_words (source : Text) :
    (Event.operandPositions (ofText source).events).Sublist
      ((Scan.ofText source).words.map Token.position) := by
  have hevents : (ofText source).events =
      (turns (Scan.ofText source)).flatMap Turn.events :=
    events_ofScan (Scan.ofText source)
  rw [hevents, ← Row.flatMap_ofScan]
  exact sublist_turnsFrom ..

theorem ordered_operands (source : Text) :
    (Event.operandPositions (ofText source).events).Pairwise Position.Before := by
  refine List.Pairwise.sublist (sublist_words source) ?_
  rw [List.pairwise_map]
  exact Scan.ordered_words source

theorem line_pos_of_mem_operands {source : Text} {p : Position}
    (h : p ∈ Event.operandPositions (ofText source).events) : 0 < p.line := by
  rcases List.mem_map.mp ((sublist_words source).subset h) with ⟨token, htoken, rfl⟩
  exact Scan.line_pos_of_mem_words htoken

end Script
end Asm6502

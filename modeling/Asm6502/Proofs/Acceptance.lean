import Asm6502.Proofs.Turns

/-!
# Lines that are accepted

The reader accepts the lines of its grammar and no others.  What a line says is taken
from the turn that the reader takes on it: the statements, and the diagnostics that are
not lexical.  A line without a lexical diagnostic is accepted if and only if the grammar
derives its tokens, and then it says what the derivation says.
-/

namespace Asm6502

/-!
## Statements by line
-/

theorem Event.statement?_eq_some {e : Event} {s : Statement}
    (h : e.statement? = some s) : e = .statement s := by
  cases e with
  | statement found => exact congrArg Event.statement (Option.some.inj h)
  | report d => cases h

theorem Event.filterMap_filter_isOwn (events : List Event) :
    (events.filter Event.isOwn).filterMap Event.statement? =
      events.filterMap Event.statement? := by
  rw [List.filterMap_filter]
  congr 1
  funext e
  cases e with
  | statement s => rfl
  | report d =>
      cases Event.isOwn (.report d) with
      | true => rfl
      | false => rfl

theorem Grammar.position_of_statement {after start : Token} {ts : List Token}
    {s : Statement} (h : Grammar.statement after start ts = .ok s) :
    s.position = start.position := by
  cases Grammar.derives_of_statement h with
  | implied _ => rfl
  | instruction _ _ => rfl
  | bare _ => rfl
  | directive _ _ => rfl
  | assignment _ _ _ => rfl

namespace Row

theorem position_of_lastEvents {line : Int} {follow start : Sighting} {failed : Bool}
    {rest : List Sighting} {s : Statement}
    (h : .statement s ∈ lastEvents line follow failed start rest) :
    s.position = start.token.position := by
  rw [lastEvents_eq] at h
  rcases List.mem_append.mp h with h | h
  · rcases List.mem_map.mp h with ⟨d, _, heq⟩
    cases heq
  · split at h
    · cases h
    · exact Grammar.position_of_statement (Grammar.statement_mem_eventOf h)

theorem position_of_eventsOnto {done : List Event} {line : Int} {follow : Sighting}
    {failed : Bool} {seen : List Sighting} {s : Statement}
    (h : .statement s ∈ eventsOnto done line follow failed seen) :
    .statement s ∈ done ∨ ∃ t ∈ seen, s.position = t.token.position := by
  fun_induction eventsOnto done line follow failed seen with
  | case1 done => exact Or.inl (List.mem_reverse.mp h)
  | case2 done start =>
      rcases List.mem_append.mp h with h | h
      · exact Or.inl (List.mem_reverse.mp h)
      · exact Or.inr ⟨start, List.mem_singleton_self _, position_of_lastEvents h⟩
  | case3 done name colon rest _ found _ =>
      rcases List.mem_append.mp h with h | h
      · exact Or.inl (List.mem_reverse.mp h)
      · rcases List.mem_map.mp h with ⟨d, _, heq⟩
        cases heq
  | case4 done name colon rest _ found _ label ih =>
      rcases ih h with h | ⟨t, ht, hposition⟩
      · rcases List.mem_append.mp h with h | h
        · rcases List.mem_cons.mp h with heq | h
          · rw [Event.statement.inj heq]
            exact Or.inr ⟨name, List.mem_cons_self .., rfl⟩
          · rcases List.mem_map.mp (List.mem_reverse.mp h) with ⟨d, _, heq⟩
            cases heq
        · exact Or.inl h
      · exact Or.inr ⟨t, List.mem_cons_of_mem _ (List.mem_cons_of_mem _ ht), hposition⟩
  | case5 done name colon rest _ =>
      rcases List.mem_append.mp h with h | h
      · exact Or.inl (List.mem_reverse.mp h)
      · exact Or.inr ⟨name, List.mem_cons_self .., position_of_lastEvents h⟩

end Row

namespace Script

variable {scan : Scan} {line : Int}

theorem line_of_statement (hproper : scan.Proper) {turn : Turn} (hturn : turn ∈ turns scan)
    {s : Statement} (h : .statement s ∈ turn.events) :
    s.position.line = turn.row.line := by
  rcases exists_passage_of_mem hproper.ordered hturn with ⟨p, hrow, _⟩
  rcases Row.position_of_eventsOnto h with h | ⟨t, ht, hposition⟩
  · cases h
  · rw [hrow] at ht
    have htoken : t.token ∈ p.tokens := by
      rw [Passage.tokens, ← Sighting.map_token_all p.group (p.follow :: p.later)]
      exact List.mem_map_of_mem ht
    rcases List.mem_map.mp htoken with ⟨x, hx, heq⟩
    rw [hposition, ← heq]
    exact p.line_of_group x hx

theorem filter_statements (hproper : scan.Proper) (line : Int) {ts : List Turn}
    (hts : ∀ turn ∈ ts, turn ∈ turns scan) :
    ((ts.flatMap Turn.events).filterMap Event.statement?).filter
        (fun s => s.position.line = line) =
      ((ts.filter fun turn => turn.row.line = line).flatMap Turn.events).filterMap
        Event.statement? := by
  induction ts with
  | nil => rfl
  | cons turn rest ih =>
      have hline : ∀ s ∈ turn.events.filterMap Event.statement?,
          s.position.line = turn.row.line := by
        intro s hs
        rcases List.mem_filterMap.mp hs with ⟨e, he, heq⟩
        rw [Event.statement?_eq_some heq] at he
        exact line_of_statement hproper (hts turn (List.mem_cons_self ..)) he
      rw [List.flatMap_cons, List.filterMap_append, List.filter_append,
        ih fun t ht => hts t (List.mem_cons_of_mem _ ht)]
      by_cases hturn : turn.row.line = line
      · rw [List.filter_cons_of_pos (by simp [hturn]), List.flatMap_cons,
          List.filterMap_append, List.filter_eq_self.mpr]
        intro s hs
        simp [hline s hs, hturn]
      · rw [List.filter_cons_of_neg (by simp [hturn]), List.filter_eq_nil_iff.mpr,
          List.nil_append]
        intro s hs
        simp [hline s hs, hturn]

theorem statements_at (hproper : scan.Proper) (line : Int) :
    (ofScan scan).statements.filter (fun s => s.position.line = line) =
      (eventsAt scan line).filterMap Event.statement? := by
  have hstatements : (ofScan scan).statements =
      ((turns scan).flatMap Turn.events).filterMap Event.statement? := by
    rw [← events_ofScan]
    rfl
  rw [hstatements, filter_statements hproper line fun turn hturn => hturn]
  rfl

end Script

/-!
## Acceptance
-/

def Scan.tokensOn (scan : Scan) (line : Int) : List Token :=
  scan.words.filter fun t => t.position.line = line

namespace Script

variable {scan : Scan} {line : Int}

theorem tokensOn_eq (p : Passage scan line) : scan.tokensOn line = p.tokens := by
  unfold Scan.tokensOn Scan.words Passage.tokens
  rw [List.filter_map, p.group_eq]
  rfl

theorem own_eventsAt (hproper : scan.Proper) (hclean : ¬scan.FailsOn line) :
    ∃ after, (eventsAt scan line).filter Event.isOwn =
      Grammar.lineEvents after (scan.tokensOn line) := by
  by_cases hline : ∃ x ∈ scan.lexemes, x.token.position.line = line
  · rcases exists_turnsAt_eq hproper.ordered hline with ⟨p, known, hturns, hknown⟩
    refine ⟨p.follow.token, ?_⟩
    rw [eventsAt, hturns, List.flatMap_singleton, p.own_events hproper hknown hclean,
      tokensOn_eq p]
  · have hnone : ∀ x ∈ scan.lexemes, x.token.position.line ≠ line :=
      fun x hx heq => hline ⟨x, hx, heq⟩
    have htokens : scan.tokensOn line = [] := by
      unfold Scan.tokensOn Scan.words
      rw [List.filter_eq_nil_iff]
      intro t ht
      rcases List.mem_map.mp ht with ⟨x, hx, rfl⟩
      simp [hnone x hx]
    refine ⟨scan.final.token, ?_⟩
    rw [eventsAt, turnsAt_eq_nil hproper.ordered hnone, htokens]
    rfl

/-- Only lexical diagnostics are reported on a line if and only if the grammar derives
it. -/
theorem silent_iff_derives (hproper : scan.Proper) (hclean : ¬scan.FailsOn line) :
    (∀ d, .report d ∈ eventsAt scan line -> d.kind = .lexical) ↔
      ∃ ss, Grammar.DerivesLine (scan.tokensOn line) ss := by
  rcases own_eventsAt hproper hclean with ⟨after, hown⟩
  constructor
  · intro hsilent
    have hreports : ∀ d, .report d ∉ Grammar.lineEvents after (scan.tokensOn line) := by
      intro d hd
      rw [← hown] at hd
      rcases List.mem_filter.mp hd with ⟨hmem, hkind⟩
      exact (of_decide_eq_true hkind) (hsilent d hmem)
    exact Grammar.derives_of_lineEvents hreports
  · rintro ⟨ss, hderives⟩ d hd
    by_contra hkind
    have hmem : .report d ∈ (eventsAt scan line).filter Event.isOwn :=
      List.mem_filter.mpr ⟨hd, decide_eq_true hkind⟩
    rw [hown, Grammar.lineEvents_of_derives hderives] at hmem
    rcases List.mem_map.mp hmem with ⟨s, _, heq⟩
    cases heq

theorem statements_of_derives (hproper : scan.Proper) (hclean : ¬scan.FailsOn line)
    {ss : List Statement} (h : Grammar.DerivesLine (scan.tokensOn line) ss) :
    (eventsAt scan line).filterMap Event.statement? = ss := by
  rcases own_eventsAt hproper hclean with ⟨after, hown⟩
  rw [← Event.filterMap_filter_isOwn, hown, Grammar.lineEvents_of_derives h,
    List.filterMap_map]
  exact List.filterMap_some

end Script

/-- A line that no lexical diagnostic points to is read without a diagnostic if and
only if the grammar derives its tokens, and the statements on the line are then those of
the derivation. -/
theorem silent_iff_derives_line (t : Text) (line : Int)
    (hclean : ¬(Scan.ofText t).FailsOn line) :
    ((∀ d, .report d ∈ Script.eventsAt (Scan.ofText t) line -> d.kind = .lexical) ↔
        ∃ ss, Grammar.DerivesLine ((Scan.ofText t).tokensOn line) ss) ∧
      ∀ ss, Grammar.DerivesLine ((Scan.ofText t).tokensOn line) ss ->
        (Script.eventsAt (Scan.ofText t) line).filterMap Event.statement? = ss ∧
        (Script.ofText t).statements.filter (fun s => s.position.line = line) = ss := by
  have hproper := Scan.proper_ofText t
  refine ⟨Script.silent_iff_derives hproper hclean, ?_⟩
  intro ss hderives
  have hstatements := Script.statements_of_derives hproper hclean hderives
  exact ⟨hstatements, (Script.statements_at hproper line).trans hstatements⟩

/-- The second line of a source whose first line is not read at all. -/
theorem silent_iff_derives_second_line :
    ¬(Scan.ofText "nop @\nloop: lda ($10),y".toList).FailsOn 2 ∧
      (∃ ss, Grammar.DerivesLine
        ((Scan.ofText "nop @\nloop: lda ($10),y".toList).tokensOn 2) ss) ∧
      (Script.ofText "nop @\nloop: lda ($10),y".toList).statements.filter
          (fun s => s.position.line = 2) =
        [⟨.label "loop".toList, ⟨2, 1⟩⟩,
          ⟨.instruction (.cpu .lda) [⟨.indirect (.number 16) false, ⟨2, 11⟩⟩,
            ⟨.register .y, ⟨2, 17⟩⟩], ⟨2, 7⟩⟩] := by
  have hclean : ¬(Scan.ofText "nop @\nloop: lda ($10),y".toList).FailsOn 2 := by
    decide +kernel
  have hevents : Script.eventsAt (Scan.ofText "nop @\nloop: lda ($10),y".toList) 2 =
      [.statement ⟨.label "loop".toList, ⟨2, 1⟩⟩,
        .statement ⟨.instruction (.cpu .lda)
          [⟨.indirect (.number 16) false, ⟨2, 11⟩⟩, ⟨.register .y, ⟨2, 17⟩⟩], ⟨2, 7⟩⟩] := by
    decide +kernel
  rcases silent_iff_derives_line _ 2 hclean with ⟨hiff, hsays⟩
  rcases hiff.mp (by rw [hevents]; simp) with ⟨ss, hderives⟩
  rcases hsays ss hderives with ⟨hfound, hstatements⟩
  refine ⟨hclean, ⟨ss, hderives⟩, ?_⟩
  rw [hstatements, ← hfound, hevents]
  rfl

end Asm6502

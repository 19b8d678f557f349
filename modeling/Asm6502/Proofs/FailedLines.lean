import Asm6502.Proofs.Acceptance
import Asm6502.Proofs.Located

/-!
# Lines with lexical diagnostics

A line with a lexical diagnostic should say nothing: no statement begins on it, and no
diagnostic of another kind points to it.  The reader keeps to this with two exceptions.

A label is complete when two more lexemes have been read, and the reader does not wait
for the rest of the line.  So a label in front of a line is given although a diagnostic
further on spoils the line.  And where a line ends inside parentheses, the diagnostic
points to the next token there is, which may stand on a line that is spoiled.

The main result says that there are no other exceptions, and that each of these is one.
-/

namespace Asm6502

/-!
## Positions of derived statements
-/

namespace Grammar

variable {ts rest : List Token} {o : Operand} {os : List Operand}

theorem DerivesOperand.beginsIn (h : DerivesOperand ts o) :
    BeginsIn ts o.position := by
  cases h with
  | immediate _ _ => exact ⟨_, List.mem_cons_self .., rfl⟩
  | indirect _ _ _ => exact ⟨_, List.mem_cons_self .., rfl⟩
  | indexed _ _ _ _ _ => exact ⟨_, List.mem_cons_self .., rfl⟩
  | string _ => exact ⟨_, List.mem_cons_self .., rfl⟩
  | value _ => exact ⟨_, List.mem_cons_self .., rfl⟩

theorem DerivesOperand.beginsIn_cons (h : DerivesOperand ts o)
    (hos : ∀ o ∈ os, BeginsIn rest o.position) :
    ∀ p ∈ o :: os, BeginsIn (ts ++ rest) p.position := by
  intro p hp
  rcases List.mem_cons.mp hp with rfl | hp
  · exact h.beginsIn.mono (List.subset_append_left ..)
  · exact (hos p hp).mono (List.subset_append_right ..)

theorem DerivesOperands.beginsIn (h : DerivesOperands ts os) :
    ∀ o ∈ os, BeginsIn ts o.position := by
  induction h with
  | last hoperand =>
      intro o ho
      rw [List.mem_singleton.mp ho]
      exact hoperand.beginsIn
  | comma hoperand _ _ ih =>
      apply hoperand.beginsIn_cons
      intro o ho
      exact (ih o ho).mono (List.subset_cons_self ..)

theorem DerivesArguments.beginsIn (h : DerivesArguments ts os) :
    ∀ o ∈ os, BeginsIn ts o.position := by
  induction h with
  | last hoperand =>
      intro o ho
      rw [List.mem_singleton.mp ho]
      exact hoperand.beginsIn
  | comma hoperand _ _ ih =>
      apply hoperand.beginsIn_cons
      intro o ho
      exact (ih o ho).mono (List.subset_cons_self ..)
  | blank hoperand _ ih => exact hoperand.beginsIn_cons ih

theorem DerivesTail.beginsIn {s : Statement} (h : DerivesTail ts s) :
    ∀ p ∈ s.positions, BeginsIn ts p := by
  have hall : ∀ {start : Token} {rest : List Token} {os : List Operand},
      (∀ o ∈ os, BeginsIn rest o.position) ->
      ∀ p ∈ start.position :: os.map Operand.position, BeginsIn (start :: rest) p := by
    intro start rest os hos p hp
    rcases List.mem_cons.mp hp with rfl | hp
    · exact ⟨start, List.mem_cons_self .., rfl⟩
    · rcases List.mem_map.mp hp with ⟨o, ho, rfl⟩
      exact (hos o ho).mono (List.subset_cons_self ..)
  cases h with
  | implied _ => exact hall fun o ho => absurd ho List.not_mem_nil
  | instruction _ hos => exact hall hos.beginsIn
  | bare _ => exact hall fun o ho => absurd ho List.not_mem_nil
  | directive _ hos => exact hall hos.beginsIn
  | @assignment name equals t form _ _ _ =>
      intro p hp
      have hcases : p = name.position ∨ p = t.position := by
        simpa [Statement.positions, Statement.operands] using hp
      rcases hcases with rfl | rfl
      · exact ⟨name, by simp, rfl⟩
      · exact ⟨t, by simp, rfl⟩

theorem beginsIn_of_mem_lineEvents {after : Token} {s : Statement}
    (h : .statement s ∈ lineEvents after ts) : ∀ p ∈ s.positions, BeginsIn ts p := by
  have hlast : ∀ {start : Token} {rest : List Token},
      .statement s ∈ [eventOf (statement after start rest)] ->
      ∀ p ∈ s.positions, BeginsIn (start :: rest) p := by
    intro start rest hmem
    exact (derives_of_statement (statement_mem_eventOf hmem)).beginsIn
  fun_induction lineEvents after ts with
  | case1 => cases h
  | case2 start => exact hlast h
  | case3 name colon rest _ ih =>
      intro p hp
      rcases List.mem_cons.mp h with heq | h
      · cases heq
        rw [List.mem_singleton.mp hp]
        exact ⟨name, List.mem_cons_self .., rfl⟩
      · refine (ih h p hp).mono ?_
        exact List.Subset.trans (List.subset_cons_self ..) (List.subset_cons_self ..)
  | case4 name colon rest _ => exact hlast h

end Grammar

/-!
## Events and passages
-/

namespace Script

variable {scan : Scan} {line : Int}

theorem exists_passage_of_event (hordered : Lexeme.Ordered scan.toList) {e : Event}
    (h : e ∈ (ofScan scan).events) :
    ∃ (line : Int) (p : Passage scan line) (known : List Int),
      p.Knows known ∧
        Turn.mk p.row known ∈ turns scan ∧ e ∈ (Turn.mk p.row known).events := by
  rw [events_ofScan] at h
  rcases List.mem_flatMap.mp h with ⟨turn, hturn, he⟩
  rcases exists_passage_of_mem hordered hturn with ⟨p, hrow, hknown⟩
  refine ⟨turn.row.line, p, turn.bad, hknown, ?_⟩
  rw [← hrow]
  exact ⟨hturn, he⟩

theorem mem_events_of_passage (hordered : Lexeme.Ordered scan.toList)
    (p : Passage scan line) :
    ∃ known, p.Knows known ∧
      ∀ e ∈ (Turn.mk p.row known).events, e ∈ (ofScan scan).events := by
  rcases turnsAt_eq hordered p with ⟨known, hturns, hknown⟩
  refine ⟨known, hknown, ?_⟩
  intro e he
  have hturn : Turn.mk p.row known ∈ turnsAt scan line := by
    rw [hturns]
    exact List.mem_singleton_self _
  rw [events_ofScan]
  exact List.mem_flatMap.mpr ⟨_, (List.mem_filter.mp hturn).1, he⟩

end Script

theorem Passage.line_of_beginsIn {scan : Scan} {line : Int} (p : Passage scan line)
    {position : Position} (h : Grammar.BeginsIn p.tokens position) :
    position.line = line := by
  rcases h with ⟨t, ht, rfl⟩
  rcases List.mem_map.mp ht with ⟨x, hx, rfl⟩
  exact p.line_of_group x hx

/-!
## The two exceptions
-/

namespace Script

variable {scan : Scan} {line : Int}

/-- No label in front of the line comes too early, and no line that is in order ends
inside parentheses with its next token on the line. -/
structure Quiet (scan : Scan) (line : Int) : Prop where
  label : ∀ p : Passage scan line, ¬p.EarlyLabel
  parenthesis : ∀ {other : Int} (p : Passage scan other), ¬scan.FailsOn other ->
    Grammar.OpenLine p.tokens -> p.follow.token.position.line ≠ line

/-- A statement that has something to do with a line that fails is a label in front of
it, and this label comes too early. -/
theorem label_of_statement (hproper : scan.Proper) (hfails : scan.FailsOn line)
    {s : Statement} (hs : .statement s ∈ (ofScan scan).events) {position : Position}
    (hposition : position ∈ s.positions) (hline : position.line = line) :
    (∃ name, s.body = .label name) ∧ ∃ p : Passage scan line, p.EarlyLabel := by
  rcases exists_passage_of_event hproper.ordered hs with
    ⟨other, p, known, hknown, hturn, hs⟩
  have hown : (Event.statement s).isOwn = true := rfl
  by_cases hother : scan.FailsOn other
  · rcases p.label_of_failsOn hproper hknown hother hown hs with ⟨name, at', heq⟩
    have hstart := line_of_statement hproper hturn hs
    cases heq
    rw [List.mem_singleton.mp hposition] at hline
    rw [p.line_row] at hstart
    cases hline.symm.trans hstart
    refine ⟨⟨name, rfl⟩, p, ?_⟩
    by_contra hearly
    have hmem := List.mem_filter.mpr ⟨hs, hown⟩
    rw [p.own_events_of_failsOn hproper hknown hfails hearly] at hmem
    cases hmem
  · have hmem := List.mem_filter.mpr ⟨hs, hown⟩
    rw [p.own_events hproper hknown hother] at hmem
    have hbegins := Grammar.beginsIn_of_mem_lineEvents hmem position hposition
    rw [← p.line_of_beginsIn hbegins, hline] at hother
    exact absurd hfails hother

/-- A diagnostic of the grammar on a line that fails is about a parenthesis left open on
another line. -/
theorem openLine_of_report (hproper : scan.Proper) (hfails : scan.FailsOn line)
    {d : Diagnostic} (hkind : d.kind ≠ .lexical) (hd : .report d ∈ (ofScan scan).events)
    (hline : d.position.line = line) :
    ∃ (other : Int) (p : Passage scan other), ¬scan.FailsOn other ∧
      Grammar.OpenLine p.tokens ∧ p.follow.token.position.line = line := by
  rcases exists_passage_of_event hproper.ordered hd with
    ⟨other, p, known, hknown, _, hd⟩
  have hown : (Event.report d).isOwn = true := decide_eq_true hkind
  by_cases hother : scan.FailsOn other
  · rcases p.label_of_failsOn hproper hknown hother hown hd with ⟨_, _, heq⟩
    cases heq
  · have hmem := List.mem_filter.mpr ⟨hd, hown⟩
    rw [p.own_events hproper hknown hother] at hmem
    rcases Grammar.blames_of_mem_lineEvents hmem with
      ⟨_, hbegins⟩ | ⟨hopen, _, t, ht, heq⟩
    · rw [← p.line_of_beginsIn hbegins, hline] at hother
      exact absurd hfails hother
    · rw [heq, List.mem_singleton.mp ht] at hline
      exact ⟨other, p, hother, hopen, hline⟩

theorem exists_statement_of_earlyLabel (hordered : Lexeme.Ordered scan.toList)
    {p : Passage scan line} (h : p.EarlyLabel) :
    ∃ s, .statement s ∈ (ofScan scan).events ∧ s.position.line = line := by
  rcases mem_events_of_passage hordered p with ⟨known, hknown, hevents⟩
  rcases p.label_mem_events hknown h with ⟨s, hs, hline⟩
  exact ⟨s, hevents _ hs, hline⟩

theorem exists_report_of_openLine (hproper : scan.Proper) {p : Passage scan line}
    (hclean : ¬scan.FailsOn line) (h : Grammar.OpenLine p.tokens) :
    ∃ wanted, .report (Grammar.unexpected p.follow.token wanted) ∈ (ofScan scan).events := by
  rcases mem_events_of_passage hproper.ordered p with ⟨known, hknown, hevents⟩
  rcases Grammar.report_of_open h p.follow.token with ⟨wanted, hwanted⟩
  rw [← p.own_events hproper hknown hclean] at hwanted
  exact ⟨wanted, hevents _ (List.mem_filter.mp hwanted).1⟩

theorem lexical_of_mem_opening {t : Text} {d : Diagnostic}
    (h : d ∈ (ofText t).opening) : d.kind = .lexical := by
  rcases List.mem_flatMap.mp h with ⟨x, hx, hd⟩
  exact (Scan.proper_ofText t).lexical x (List.mem_of_mem_take hx) d hd

end Script

/-- For every line of a source with a lexical diagnostic: no statement begins on it and
every diagnostic of a run that points to it is lexical, if and only if no label in front
of it is complete before the diagnostic is known and no other line ends inside
parentheses with its next token on this one.  In any case, only labels begin on it. -/
theorem failed_line_silent_iff (options : Options) (t : Text) (line : Int)
    (hfails : (Scan.ofText t).FailsOn line) :
    (((∀ s ∈ (Script.ofText t).statements, s.position.line ≠ line) ∧
        ∀ d ∈ (assemble options t).diagnostics,
          d.position.line = line -> d.kind = .lexical) ↔
      Script.Quiet (Scan.ofText t) line) ∧
    ∀ s ∈ (Script.ofText t).statements, s.position.line = line ->
      ∃ name, s.body = .label name := by
  have hproper := Scan.proper_ofText t
  have hstart : ∀ s : Statement, s.position ∈ s.positions := fun s => List.mem_cons_self ..
  refine ⟨⟨?_, ?_⟩, ?_⟩
  · rintro ⟨hstatements, hdiagnostics⟩
    constructor
    · intro p hearly
      rcases Script.exists_statement_of_earlyLabel hproper.ordered hearly with
        ⟨s, hs, hline⟩
      exact hstatements s (Script.mem_statements_iff.mpr hs) hline
    · intro other p hclean hopen hline
      rcases Script.exists_report_of_openLine hproper hclean hopen with ⟨wanted, hreport⟩
      have hmem := mem_diagnostics_of_script options
        (Script.mem_diagnostics_iff.mpr (Or.inr hreport))
      cases hdiagnostics _ hmem hline
  · intro hquiet
    constructor
    · intro s hs hline
      rcases Script.label_of_statement hproper hfails (Script.mem_statements_iff.mp hs)
        (hstart s) hline with ⟨_, p, hearly⟩
      exact hquiet.label p hearly
    · intro d hd hline
      by_contra hkind
      rcases located_of_mem_diagnostics hd with hd | ⟨s, hs, hposition⟩
      · rcases Script.mem_diagnostics_iff.mp hd with hd | hd
        · exact hkind (Script.lexical_of_mem_opening hd)
        · rcases Script.openLine_of_report hproper hfails hkind hd hline with
            ⟨other, p, hclean, hopen, hfollow⟩
          exact hquiet.parenthesis p hclean hopen hfollow
      · rcases Script.label_of_statement hproper hfails
          (Script.mem_statements_iff.mp hs) hposition hline with ⟨_, p, hearly⟩
        exact hquiet.label p hearly
  · intro s hs hline
    exact (Script.label_of_statement hproper hfails (Script.mem_statements_iff.mp hs)
      (hstart s) hline).1

/-- The label of the first line is given although the line is spoiled, and the second
line, which is spoiled from its beginning, says nothing. -/
theorem failed_line_silent_iff_label :
    (Scan.ofText "loop: lda #@1\n@ nop".toList).FailsOn 1 ∧
      ¬Script.Quiet (Scan.ofText "loop: lda #@1\n@ nop".toList) 1 ∧
      (Scan.ofText "loop: lda #@1\n@ nop".toList).FailsOn 2 ∧
      Script.Quiet (Scan.ofText "loop: lda #@1\n@ nop".toList) 2 := by
  have hfirst : (Scan.ofText "loop: lda #@1\n@ nop".toList).FailsOn 1 := by
    decide +kernel
  have hsecond : (Scan.ofText "loop: lda #@1\n@ nop".toList).FailsOn 2 := by
    decide +kernel
  refine ⟨hfirst, ?_, hsecond, ?_⟩
  · intro hquiet
    have hsilent := ((failed_line_silent_iff {} _ 1 hfirst).1.mpr hquiet).1
    revert hsilent
    decide +kernel
  · apply (failed_line_silent_iff {} _ 2 hsecond).1.mp
    decide +kernel

end Asm6502

import Asm6502.Proofs.FailedLines
import Asm6502.Proofs.Recovery

/-!
# The lines that refusals name

The reader refuses a statement with one diagnostic, which should name the line on which
the statement starts.  The readers of values, operands and arguments see to this: where
the line ends too early, they blame the last token on it.  The reader of parentheses
does not, and its diagnostic strays to the line of the next token.

The main result says that there is no other way to stray.  So the diagnostics of the
grammar go down the source, and two of them name the same line only where one of them
has strayed there.
-/

namespace Asm6502

/-!
## Refused statements
-/

/-- The line on which a refused statement starts, and what is said of it. -/
structure Refusal where
  line : Int
  diagnostic : Diagnostic
  deriving DecidableEq

namespace Script

def Turn.refusals (turn : Turn) : List Refusal :=
  ((turn.events.filter Event.isOwn).filterMap Event.diagnostic?).map
    (Refusal.mk turn.row.line)

def refusals (scan : Scan) : List Refusal :=
  (turns scan).flatMap Turn.refusals

end Script

/-- The statement that starts on the line, perhaps after some labels, is refused with the
diagnostic. -/
def Refusal.Of (scan : Scan) (r : Refusal) : Prop :=
  ∃ (p : Passage scan r.line) (labels rest : List Token) (start : Token),
    p.tokens = labels ++ start :: rest ∧ start.position.line = r.line ∧
      Grammar.statement p.follow.token start rest = .error r.diagnostic

/-- The line ends inside parentheses, and what comes next in the source, be it the end of
input, is on another line. -/
def Scan.StraysTo (scan : Scan) (line other : Int) : Prop :=
  ∃ p : Passage scan line, Grammar.OpenLine p.tokens ∧
    p.follow.token.position.line = other ∧ line < other

namespace Scan.StraysTo

variable {scan : Scan} {line other : Int}

theorem lt (h : scan.StraysTo line other) : line < other := by
  rcases h with ⟨_, _, _, hlt⟩
  exact hlt

theorem eq (h : scan.StraysTo line other) {other' : Int}
    (h' : scan.StraysTo line other') : other = other' := by
  rcases h with ⟨p, _, rfl, _⟩
  rcases h' with ⟨q, _, rfl, _⟩
  rw [p.eq q]

end Scan.StraysTo

/-!
## Diagnostics of one line
-/

theorem Event.mem_filterMap_diagnostic? {events : List Event} {d : Diagnostic} :
    d ∈ events.filterMap Event.diagnostic? ↔ .report d ∈ events := by
  rw [List.mem_filterMap]
  constructor
  · rintro ⟨e, he, heq⟩
    cases e with
    | statement s => cases heq
    | report found =>
        cases heq
        exact he
  · intro h
    exact ⟨.report d, h, rfl⟩

theorem Event.diagnostics_filter_isOwn (events : List Event) :
    (events.filter Event.isOwn).filterMap Event.diagnostic? =
      (events.filterMap Event.diagnostic?).filter fun d => d.kind ≠ .lexical := by
  rw [List.filterMap_filter, List.filter_filterMap]
  congr 1
  funext e
  cases e with
  | statement s => rfl
  | report d =>
      by_cases hkind : d.kind = .lexical
      · simp [Event.isOwn, Event.diagnostic?, Option.filter, hkind]
      · simp [Event.isOwn, Event.diagnostic?, Option.filter, hkind]

namespace Grammar

variable {after : Token} {ts : List Token} {d d' : Diagnostic}

theorem reports_lineEvents (after : Token) (ts : List Token) :
    (lineEvents after ts).filterMap Event.diagnostic? = [] ∨
      ∃ d, (lineEvents after ts).filterMap Event.diagnostic? = [d] := by
  rcases Nat.le_one_iff_eq_zero_or_eq_one.mp (length_diagnostics_lineEvents after ts) with
    hnone | hone
  · exact Or.inl (List.length_eq_zero_iff.mp hnone)
  · exact Or.inr (List.length_eq_one_iff.mp hone)

theorem eq_of_report_mem_lineEvents (h : .report d ∈ lineEvents after ts)
    (h' : .report d' ∈ lineEvents after ts) : d = d' := by
  rw [← Event.mem_filterMap_diagnostic?] at h h'
  rcases reports_lineEvents after ts with hnone | ⟨found, hone⟩
  · rw [hnone] at h
    cases h
  · rw [hone, List.mem_singleton] at h h'
    rw [h, h']

theorem exists_statement_of_report (h : .report d ∈ lineEvents after ts) :
    ∃ labels start rest, ts = labels ++ start :: rest ∧
      statement after start rest = .error d := by
  fun_induction lineEvents after ts with
  | case1 => cases h
  | case2 start => exact ⟨[], start, [], rfl, report_mem_eventOf h⟩
  | case3 name colon rest _ ih =>
      rcases List.mem_cons.mp h with heq | h
      · cases heq
      · rcases ih h with ⟨labels, start, more, rfl, hread⟩
        exact ⟨name :: colon :: labels, start, more, rfl, hread⟩
  | case4 name colon rest _ => exact ⟨[], name, colon :: rest, rfl, report_mem_eventOf h⟩

end Grammar

namespace Passage

variable {scan : Scan} {line : Int} {d : Diagnostic}

theorem line_le_follow (p : Passage scan line) (hordered : Lexeme.Ordered scan.toList) :
    line ≤ p.follow.token.position.line := by
  rcases List.exists_mem_of_ne_nil _ p.group_ne with ⟨x, hx⟩
  rw [p.toList_eq] at hordered
  have hgroup := (List.pairwise_append.mp hordered).2.1
  have hfollow := (List.pairwise_append.mp hgroup).2.2 x hx p.follow
    (List.mem_cons_self ..)
  exact Int.le_trans (Int.le_of_eq (p.line_of_group x hx).symm) hfollow.1

theorem follow_le_line (p : Passage scan line) {other : Int} (q : Passage scan other)
    (hordered : Lexeme.Ordered scan.toList) (h : line < other) :
    p.follow.token.position.line ≤ other := by
  rcases List.exists_mem_of_ne_nil _ q.group_ne with ⟨y, hy⟩
  have hline := q.line_of_group y hy
  have hmem : y ∈ p.before ++ p.group ++ p.rest := by
    rw [← p.lexemes_eq, q.lexemes_eq]
    exact List.mem_append_left _ (List.mem_append_right _ hy)
  have hrest : y ∈ p.rest := by
    rcases List.mem_append.mp hmem with hy | hy
    · rcases List.mem_append.mp hy with hy | hy
      · have hbefore := p.line_of_before y hy
        omega
      · have hgroup := p.line_of_group y hy
        omega
    · exact hy
  have hlast : Lexeme.Ordered (p.follow :: p.later) := by
    rw [p.toList_eq] at hordered
    exact (List.pairwise_append.mp (List.pairwise_append.mp hordered).2.1).2.1
  have hfrom : y ∈ p.follow :: p.later := by
    rw [← p.rest_eq]
    exact List.mem_append_left _ hrest
  rw [← hline]
  rcases List.mem_cons.mp hfrom with heq | hlater
  · exact Int.le_of_eq (by rw [heq])
  · exact ((List.pairwise_cons.mp hlast).1 y hlater).1

/-- An open line is blamed on what comes next, and every other line on a token of its
own. -/
theorem line_of_report (p : Passage scan line)
    (h : .report d ∈ Grammar.lineEvents p.follow.token p.tokens) :
    Grammar.OpenLine p.tokens ∧ d.position.line = p.follow.token.position.line ∨
      ¬Grammar.OpenLine p.tokens ∧ d.position.line = line := by
  by_cases hopen : Grammar.OpenLine p.tokens
  · rcases Grammar.report_of_open hopen p.follow.token with ⟨wanted, hwanted⟩
    rw [Grammar.eq_of_report_mem_lineEvents h hwanted]
    exact Or.inl ⟨hopen, rfl⟩
  · rcases Grammar.blames_of_mem_lineEvents h with ⟨_, hbegins⟩ | ⟨hyes, _⟩
    · exact Or.inr ⟨hopen, p.line_of_beginsIn hbegins⟩
    · exact absurd hyes hopen

end Passage

/-!
## Refusals of a source
-/

namespace Script

variable {scan : Scan}

theorem Stands.pairwise_turnsFrom {behind ahead : List Lexeme} {bad : List Int}
    (h : Stands scan behind ahead bad) :
    (∀ turn ∈ turnsFrom bad (Row.ofScan ⟨ahead, scan.final⟩),
        ∃ x ∈ ahead, turn.row.line = x.token.position.line) ∧
      (turnsFrom bad (Row.ofScan ⟨ahead, scan.final⟩)).Pairwise fun turn next =>
        turn.row.line < next.row.line := by
  induction h using Stands.induction with
  | @nil behind bad h =>
      have hnone : turnsFrom bad (Row.ofScan ⟨[], scan.final⟩) = [] := rfl
      rw [hnone]
      exact ⟨fun turn hturn => absurd hturn List.not_mem_nil, .nil⟩
  | @passage line bad p h ih =>
      rcases ih with ⟨hlines, hpairwise⟩
      rcases List.exists_mem_of_ne_nil _ p.group_ne with ⟨x, hx⟩
      rw [turnsFrom_passage]
      refine ⟨?_, List.pairwise_cons.mpr ⟨?_, hpairwise⟩⟩
      · intro turn hturn
        rcases List.mem_cons.mp hturn with rfl | hturn
        · refine ⟨x, List.mem_append_left _ hx, ?_⟩
          exact p.line_row.trans (p.line_of_group x hx).symm
        · rcases hlines turn hturn with ⟨y, hy, hline⟩
          exact ⟨y, List.mem_append_right _ hy, hline⟩
      · intro turn hturn
        rcases hlines turn hturn with ⟨y, hy, hline⟩
        rw [hline, p.line_row]
        exact p.line_of_rest y hy

theorem refusals_turn {line : Int} {known : List Int} (p : Passage scan line)
    (hproper : scan.Proper) (hknown : p.Knows known) :
    (Turn.mk p.row known).refusals = [] ∨
      (Turn.mk p.row known).refusals =
        ((Grammar.lineEvents p.follow.token p.tokens).filterMap Event.diagnostic?).map
          (Refusal.mk line) := by
  unfold Turn.refusals
  rw [p.line_row]
  by_cases hfails : scan.FailsOn line
  · refine Or.inl (List.map_eq_nil_iff.mpr (List.eq_nil_iff_forall_not_mem.mpr ?_))
    intro d hd
    rcases List.mem_filter.mp (Event.mem_filterMap_diagnostic?.mp hd) with ⟨hevent, hown⟩
    rcases p.label_of_failsOn hproper hknown hfails hown hevent with ⟨_, _, heq⟩
    cases heq
  · rw [p.own_events hproper hknown hfails]
    exact Or.inr rfl

theorem pairwise_refusals (hproper : scan.Proper) :
    (refusals scan).Pairwise fun r s => r.line < s.line := by
  refine List.pairwise_flatMap.mpr ⟨?_, ?_⟩
  · intro turn hturn
    rcases exists_passage_of_mem hproper.ordered hturn with ⟨p, hrow, hknown⟩
    have hturn : turn = ⟨p.row, turn.bad⟩ := by rw [← hrow]
    rw [hturn]
    rcases refusals_turn p hproper hknown with hnone | hall
    · rw [hnone]
      exact .nil
    · rcases Grammar.reports_lineEvents p.follow.token p.tokens with hnone | ⟨d, hone⟩
      · rw [hall, hnone]
        exact .nil
      · rw [hall, hone]
        exact List.pairwise_singleton ..
  · refine (stands_start hproper.ordered).pairwise_turnsFrom.2.imp ?_
    intro turn next hline r hr s hs
    rcases List.mem_map.mp hr with ⟨_, _, rfl⟩
    rcases List.mem_map.mp hs with ⟨_, _, rfl⟩
    exact hline

theorem exists_report_of_refusal (hproper : scan.Proper) {r : Refusal}
    (h : r ∈ refusals scan) :
    ∃ p : Passage scan r.line,
      .report r.diagnostic ∈ Grammar.lineEvents p.follow.token p.tokens := by
  rcases List.mem_flatMap.mp h with ⟨turn, hturn, hr⟩
  rcases exists_passage_of_mem hproper.ordered hturn with ⟨p, hrow, hknown⟩
  have hturn : turn = ⟨p.row, turn.bad⟩ := by rw [← hrow]
  rw [hturn] at hr
  rcases refusals_turn p hproper hknown with hnone | hall
  · rw [hnone] at hr
    cases hr
  · rw [hall] at hr
    rcases List.mem_map.mp hr with ⟨d, hd, rfl⟩
    exact ⟨p, Event.mem_filterMap_diagnostic?.mp hd⟩

theorem diagnostics_own (t : Text) :
    ((ofText t).diagnostics.filter fun d => d.kind ≠ .lexical) =
      ((ofText t).events.filter Event.isOwn).filterMap Event.diagnostic? := by
  have hopening : (ofText t).opening.filter (fun d => d.kind ≠ .lexical) = [] := by
    rw [List.filter_eq_nil_iff]
    intro d hd
    simp [lexical_of_mem_opening hd]
  have hreports : ∀ ds : List Diagnostic,
      (ds.map Event.report).filterMap Event.diagnostic? = ds := by
    intro ds
    rw [List.filterMap_map]
    exact List.filterMap_some
  rw [diagnostics, toList, List.filterMap_append, List.filter_append, hreports,
    hopening, List.nil_append, Event.diagnostics_filter_isOwn]

theorem diagnostics_refusals (t : Text) :
    (refusals (Scan.ofText t)).map Refusal.diagnostic =
      (ofText t).diagnostics.filter fun d => d.kind ≠ .lexical := by
  have hevents : (ofText t).events =
      (turns (Scan.ofText t)).flatMap Turn.events := events_ofScan _
  have hturn : ∀ turn : Turn, turn.refusals.map Refusal.diagnostic =
      (turn.events.filter Event.isOwn).filterMap Event.diagnostic? := by
    intro turn
    rw [Turn.refusals, List.map_map]
    exact List.map_id _
  rw [diagnostics_own, hevents, List.filter_flatMap, List.filterMap_flatMap, refusals,
    List.map_flatMap]
  exact congrArg (fun f => (turns (Scan.ofText t)).flatMap f) (funext hturn)

theorem line_of_refusal (hproper : scan.Proper) {r : Refusal} (h : r ∈ refusals scan) :
    scan.StraysTo r.line r.diagnostic.position.line ∨
      (∀ other, ¬scan.StraysTo r.line other) ∧
        r.diagnostic.position.line = r.line := by
  rcases exists_report_of_refusal hproper h with ⟨p, hreport⟩
  have hle := p.line_le_follow hproper.ordered
  rcases p.line_of_report hreport with ⟨hopen, hline⟩ | ⟨hclosed, hline⟩
  · by_cases hlt : r.line < p.follow.token.position.line
    · exact Or.inl ⟨p, hopen, hline.symm, hline ▸ hlt⟩
    · refine Or.inr ⟨?_, by omega⟩
      rintro other ⟨q, _, rfl, hother⟩
      rw [q.eq p] at hother
      exact hlt hother
  · refine Or.inr ⟨?_, hline⟩
    rintro other ⟨q, hopen, _⟩
    rw [q.eq p] at hopen
    exact hclosed hopen

theorem refusal_of_mem (hproper : scan.Proper) {r : Refusal} (h : r ∈ refusals scan) :
    r.Of scan ∧ (r.diagnostic.kind = .grammar ∨ r.diagnostic.kind = .range) := by
  rcases exists_report_of_refusal hproper h with ⟨p, hreport⟩
  rcases Grammar.exists_statement_of_report hreport with
    ⟨labels, start, rest, htokens, hstatement⟩
  refine ⟨⟨p, labels, rest, start, htokens, ?_, hstatement⟩,
    (Grammar.blames_of_mem_lineEvents hreport).kind⟩
  apply p.line_of_beginsIn
  rw [htokens]
  exact ⟨start, List.mem_append_right _ (List.mem_cons_self ..), rfl⟩

/-- Two refusals name the same line if and only if the earlier one has strayed to the
line of the later one, which has not strayed itself. -/
theorem lines_of_refusals (hproper : scan.Proper) {r s : Refusal}
    (hr : r ∈ refusals scan) (hs : s ∈ refusals scan) (hline : r.line < s.line) :
    r.diagnostic.position.line ≤ s.diagnostic.position.line ∧
      (r.diagnostic.position.line = s.diagnostic.position.line ↔
        scan.StraysTo r.line s.line ∧ ∀ other, ¬scan.StraysTo s.line other) := by
  rcases exists_report_of_refusal hproper hs with ⟨q, _⟩
  have hreach : ∀ {other : Int}, scan.StraysTo r.line other -> other ≤ s.line := by
    rintro other ⟨p, _, rfl, _⟩
    exact p.follow_le_line q hproper.ordered hline
  rcases line_of_refusal hproper hr with hstrays | ⟨hstays, heq⟩
  · have hle := hreach hstrays
    rcases line_of_refusal hproper hs with hnext | ⟨hlast, heq⟩
    · have hlt : s.line < s.diagnostic.position.line := hnext.lt
      refine ⟨by omega, ⟨fun hsame => ?_, fun hboth => absurd hnext (hboth.2 _)⟩⟩
      omega
    · rw [heq]
      refine ⟨hle, ⟨fun hsame => ⟨hsame ▸ hstrays, hlast⟩, fun hboth => ?_⟩⟩
      exact hstrays.eq hboth.1
  · have hge : s.line ≤ s.diagnostic.position.line := by
      rcases line_of_refusal hproper hs with hnext | ⟨_, hsame⟩
      · exact Int.le_of_lt hnext.lt
      · exact Int.le_of_eq hsame.symm
    refine ⟨by omega, ⟨fun hsame => by omega, fun hboth => absurd hboth.1 (hstays _)⟩⟩

end Script

/-- For every source: the diagnostics of the reader that are not lexical are those of
its refusals, and each of them is about a statement that starts on the line of the
refusal.  It names that line if and only if the line does not end inside parentheses in
front of another line, and otherwise it names that other line.  The refusals go down
line by line and the lines that they name never go up; two of them name the same line if
and only if the first has strayed there and the second has not strayed. -/
theorem refusals_name_own_line_iff (t : Text) :
    (Script.refusals (Scan.ofText t)).map Refusal.diagnostic =
        (Script.ofText t).diagnostics.filter (fun d => d.kind ≠ .lexical) ∧
      (∀ r ∈ Script.refusals (Scan.ofText t),
        r.Of (Scan.ofText t) ∧
        (r.diagnostic.kind = .grammar ∨ r.diagnostic.kind = .range) ∧
        (r.diagnostic.position.line = r.line ↔
          ∀ other, ¬(Scan.ofText t).StraysTo r.line other) ∧
        ∀ other, (Scan.ofText t).StraysTo r.line other ->
          r.diagnostic.position.line = other) ∧
      (Script.refusals (Scan.ofText t)).Pairwise fun r s =>
        r.line < s.line ∧
        r.diagnostic.position.line ≤ s.diagnostic.position.line ∧
        (r.diagnostic.position.line = s.diagnostic.position.line ↔
          (Scan.ofText t).StraysTo r.line s.line ∧
            ∀ other, ¬(Scan.ofText t).StraysTo s.line other) := by
  have hproper := Scan.proper_ofText t
  refine ⟨Script.diagnostics_refusals t, ?_, ?_⟩
  · intro r hr
    rcases Script.refusal_of_mem hproper hr with ⟨hof, hkind⟩
    refine ⟨hof, hkind, ?_⟩
    rcases Script.line_of_refusal hproper hr with hstrays | ⟨hstays, hline⟩
    · refine ⟨⟨fun hline => ?_, fun hstays => absurd hstrays (hstays _)⟩, ?_⟩
      · exact absurd hline (Int.ne_of_gt hstrays.lt)
      · intro other hother
        exact hstrays.eq hother
    · exact ⟨⟨fun _ => hstays, fun _ => hline⟩,
        fun other hother => absurd hother (hstays other)⟩
  · refine (Script.pairwise_refusals hproper).imp_of_mem ?_
    intro r s hr hs hline
    exact ⟨hline, Script.lines_of_refusals hproper hr hs hline⟩

/-- The parenthesis of the first line is blamed on the second line, and so is the second
line itself. -/
theorem refusals_name_own_line_iff_open :
    let scan := Scan.ofText "jmp ($12\nloop\nrts".toList
    (Script.refusals scan).map (fun r => (r.line, r.diagnostic.position)) =
        [(1, ⟨2, 1⟩), (2, ⟨2, 1⟩)] ∧
      scan.StraysTo 1 2 ∧ ∀ other, ¬scan.StraysTo 2 other := by
  intro scan
  have hrefusals : Script.refusals scan =
      [⟨1, Grammar.unexpected ⟨.identifier, "loop".toList, ⟨2, 1⟩⟩ .closingParenthesis⟩,
        ⟨2, Grammar.fault ⟨2, 1⟩ (.unknownInstruction "loop".toList)⟩] := by
    decide +kernel
  rcases refusals_name_own_line_iff "jmp ($12\nloop\nrts".toList with ⟨_, _, hpairwise⟩
  change (Script.refusals scan).Pairwise _ at hpairwise
  rw [hrefusals] at hpairwise ⊢
  have hsame := ((List.pairwise_cons.mp hpairwise).1 _ (List.mem_cons_self ..)).2.2.mp rfl
  exact ⟨rfl, hsame⟩

end Asm6502

import Asm6502.Proofs.Acceptance
import Asm6502.Proofs.Lines
import Asm6502.Proofs.Relocation

/-!
# Recovery line by line

As long as the characters of a source are in order, each of its lines is read as if it
stood alone.  A line that is not in the grammar costs one diagnostic and nothing else:
the lines before and after it give the statements that they give by themselves, as many
lines further down as they stand in the source.
-/

namespace Asm6502

/-!
## Events further down
-/

/-- A statement and the same one further down, or two diagnostics of one kind. -/
inductive Event.Echoes (n : Int) : Event -> Event -> Prop where
  | statement (s : Statement) : Echoes n (.statement s) (.statement (s.down n))
  | report {d e : Diagnostic} : d.kind = e.kind -> Echoes n (.report d) (.report e)

namespace Grammar

theorem eventOf_echoes {n : Int} {x y : Except Diagnostic Statement}
    (h : Echoes (Statement.down n) x y) : Event.Echoes n (eventOf x) (eventOf y) := by
  cases h with
  | ok s => exact .statement s
  | error hkind => exact .report hkind

theorem isLabel_down (n : Int) (name colon : Token) :
    isLabel (name.down n) (colon.down n) = isLabel name colon :=
  rfl

theorem lineEvents_echoes (n : Int) (after after' : Token) (ts : List Token) :
    List.Forall₂ (Event.Echoes n) (lineEvents after ts)
      (lineEvents after' (ts.map (Token.down n))) := by
  fun_induction lineEvents after ts with
  | case1 => exact .nil
  | case2 start => exact .cons (eventOf_echoes (statement_echoes n after after' start [])) .nil
  | case3 name colon rest hlabel ih =>
      rw [List.map_cons, List.map_cons, lineEvents, isLabel_down, if_pos hlabel]
      exact .cons (.statement _) ih
  | case4 name colon rest hlabel =>
      rw [List.map_cons, List.map_cons, lineEvents, isLabel_down, if_neg hlabel]
      exact .cons (eventOf_echoes (statement_echoes n after after' name (colon :: rest))) .nil

theorem length_diagnostics_lineEvents (after : Token) (ts : List Token) :
    ((lineEvents after ts).filterMap Event.diagnostic?).length ≤ 1 := by
  have hlast : ∀ e : Event, ([e].filterMap Event.diagnostic?).length ≤ 1 := by
    intro e
    exact List.length_filterMap_le ..
  fun_induction lineEvents after ts with
  | case1 => exact Nat.zero_le 1
  | case2 start => exact hlast _
  | case3 name colon rest _ ih => exact ih
  | case4 name colon rest _ => exact hlast _

end Grammar

theorem Event.statements_of_echoes {n : Int} {xs ys : List Event}
    (h : List.Forall₂ (Event.Echoes n) xs ys) :
    ys.filterMap Event.statement? =
      (xs.filterMap Event.statement?).map (Statement.down n) := by
  induction h with
  | nil => rfl
  | @cons x y xs ys hxy _ ih =>
      cases hxy with
      | statement s => exact congrArg (s.down n :: ·) ih
      | report _ => exact ih

theorem Event.kinds_of_echoes {n : Int} {xs ys : List Event}
    (h : List.Forall₂ (Event.Echoes n) xs ys) :
    (ys.filterMap Event.diagnostic?).map Diagnostic.kind =
      (xs.filterMap Event.diagnostic?).map Diagnostic.kind := by
  induction h with
  | nil => rfl
  | @cons x y xs ys hxy _ ih =>
      cases hxy with
      | statement _ => exact ih
      | @report d e hkind =>
          simp only [List.filterMap_cons, Event.diagnostic?, List.map_cons, hkind, ih]

/-!
## Rows without lexical diagnostics
-/

namespace Row

theorem eventsOnto_clean (done : List Event) (line : Int) (follow : Token) :
    (tokens : List Token) ->
    eventsOnto done line follow.sighting false (tokens.map Token.sighting) =
      done.reverse ++ Grammar.lineEvents follow tokens
  | [] => by rw [List.map_nil, eventsOnto, Grammar.lineEvents, List.append_nil]
  | [start] => by
      have hfound := unveiled_clean follow [start]
      rw [List.map_cons, List.map_nil] at hfound ⊢
      rw [eventsOnto, lastEvents_eq, hfound]
      rfl
  | name :: colon :: rest => by
      have hfound := unveiled_clean follow (name :: colon :: rest)
      have hahead : ((rest.map Token.sighting).headD follow.sighting).ahead = [] := by
        cases rest with
        | nil => rfl
        | cons t more => rfl
      have htokens : (colon.sighting :: rest.map Token.sighting).map Sighting.token =
          colon :: rest := by
        simp [Token.sighting, Function.comp_def]
      have hmore := eventsOnto_clean
        (.statement ⟨.label name.text, name.position⟩ :: done) line follow rest
      rw [List.map_cons, List.map_cons] at hfound ⊢
      rw [eventsOnto, lastEvents_eq, hfound, hahead, htokens, Grammar.lineEvents]
      change (if Grammar.isLabel name colon = true then
        eventsOnto (.statement ⟨.label name.text, name.position⟩ :: done) line
          follow.sighting false (rest.map Token.sighting) else _) = _
      rw [hmore, List.reverse_cons, List.append_assoc]
      split
      · rfl
      · rfl

end Row

/-!
## Scans without lexical diagnostics
-/

namespace Sighting

theorem of_clean (x : Lexeme) {rest : List Lexeme} (h : ∀ y ∈ rest, y.faults = []) :
    of x rest = x.token.sighting := by
  cases rest with
  | nil => rfl
  | cons next more =>
      rw [of, List.take_succ_cons, List.take_zero, List.flatMap_singleton,
        h next (List.mem_cons_self ..)]
      rfl

theorem all_clean (xs : List Lexeme) {rest : List Lexeme}
    (h : ∀ y ∈ xs ++ rest, y.faults = []) :
    all xs rest = (xs.map Lexeme.token).map Token.sighting := by
  induction xs with
  | nil => rfl
  | cons x more ih =>
      have hmore : ∀ y ∈ more ++ rest, y.faults = [] :=
        fun y hy => h y (List.mem_cons_of_mem x hy)
      rw [all, of_clean x hmore, ih hmore]
      rfl

end Sighting

def Scan.clean (words : List Token) (final : Token) : Scan :=
  ⟨words.map Lexeme.clean, .clean final⟩

theorem Lexeme.map_token_clean (ts : List Token) :
    (ts.map Lexeme.clean).map Lexeme.token = ts := by
  rw [List.map_map]
  exact List.map_id ts

theorem Lexeme.faults_of_mem_clean {ts : List Token} {x : Lexeme}
    (hx : x ∈ ts.map Lexeme.clean) : x.faults = [] := by
  rcases List.mem_map.mp hx with ⟨t, _, rfl⟩
  rfl

theorem Lexeme.map_clean_token {xs : List Lexeme} (h : ∀ x ∈ xs, x.faults = []) :
    (xs.map Lexeme.token).map Lexeme.clean = xs := by
  rw [List.map_map]
  refine (List.map_congr_left ?_).trans (List.map_id xs)
  intro x hx
  have hfaults := h x hx
  cases x
  cases hfaults
  rfl

theorem Scan.eq_clean {scan : Scan} (h : scan.faults = []) :
    scan = Scan.clean scan.words scan.final.token := by
  have hfaults := List.flatMap_eq_nil_iff.mp h
  rcases scan with ⟨lexemes, ⟨final, faults⟩⟩
  have hlexemes := Lexeme.map_clean_token fun x hx =>
    hfaults x (List.mem_append_left _ hx)
  have hfinal : faults = [] :=
    hfaults _ (List.mem_append_right _ (List.mem_singleton_self _))
  unfold Scan.clean Scan.words
  rw [hlexemes, hfinal]
  rfl

namespace Script

def cleanEvents (words : List Token) (final : Token) : List Event :=
  (turnsFrom [] (Row.ofScan (Scan.clean words final))).flatMap Turn.events

theorem ofScan_clean_eq (words : List Token) (final : Token) :
    ofScan (Scan.clean words final) = ⟨[], cleanEvents words final⟩ := by
  have hopening : ((Scan.clean words final).toList.take 2).flatMap Lexeme.faults = [] := by
    rw [List.flatMap_eq_nil_iff]
    intro x hx
    exact Scan.faults_of_mem_clean (List.mem_of_mem_take hx)
  have hevents := events_ofScan (Scan.clean words final)
  rw [turns, hopening] at hevents
  have hscript : ofScan (Scan.clean words final) =
      ⟨((Scan.clean words final).toList.take 2).flatMap Lexeme.faults,
        (ofScan (Scan.clean words final)).events⟩ :=
    rfl
  rw [hscript, hopening, hevents]
  rfl

/-- The tokens of one line give the events of that line, and those of later lines give
theirs. -/
theorem cleanEvents_append {line : Int} {group rest : List Token} (final : Token)
    (hline : ∀ t ∈ group, t.position.line = line)
    (hnext : ∀ t ∈ rest, t.position.line ≠ line) :
    cleanEvents (group ++ rest) final =
      Grammar.lineEvents (rest.headD final) group ++ cleanEvents rest final := by
  by_cases hne : group = []
  · rw [hne, Grammar.lineEvents]
    rfl
  · have hfollow : rest.map Lexeme.clean ++ [.clean final] =
        .clean (rest.headD final) :: ((rest ++ [final]).tail.map Lexeme.clean) := by
      cases rest with
      | nil => rfl
      | cons t more => simp
    have hgroup : ∀ x ∈ group.map Lexeme.clean, x.token.position.line = line := by
      intro x hx
      rcases List.mem_map.mp hx with ⟨t, ht, rfl⟩
      exact hline t ht
    have hrest : ∀ x ∈ (rest.map Lexeme.clean).head?, x.token.position.line ≠ line := by
      intro x hx
      rcases List.mem_map.mp (List.mem_of_mem_head? hx) with ⟨t, ht, rfl⟩
      exact hnext t ht
    have hclean : ∀ x ∈ group.map Lexeme.clean ++ .clean (rest.headD final) ::
        (rest ++ [final]).tail.map Lexeme.clean, x.faults = [] := by
      intro x hx
      rw [← List.map_cons, ← List.map_append] at hx
      exact Lexeme.faults_of_mem_clean hx
    have hrows := Row.ofScan_append (by simpa using hne) hgroup hrest hfollow
    rw [Sighting.all_clean _ hclean, Lexeme.map_token_clean,
      Sighting.of_clean _ fun x hx => Lexeme.faults_of_mem_clean hx,
      ← List.map_append] at hrows
    unfold cleanEvents
    rw [Scan.clean, hrows, turnsFrom, Row.badLines_clean, List.flatMap_cons]
    congr 1
    exact Row.eventsOnto_clean [] _ _ group

end Script

/-!
## Lines of a source
-/

namespace Scan

theorem line_of_findings {p : Position} {t : Text} (h : '\n' ∉ t) {word : Token}
    (hword : word ∈ (findings p t).filterMap Finding.token) :
    word.position.line = p.line := by
  fun_induction findings p t with
  | case1 p => cases hword
  | case2 p c t ih =>
      rcases Lexeme.takes_read p c t with ⟨used, htext, hposition⟩
      have hused : used.count '\n' = 0 := by
        rw [List.count_eq_zero]
        intro hmem
        apply h
        rw [htext]
        exact List.mem_append_left _ hmem
      have hrest : '\n' ∉ (Lexeme.read p c t).rest := by
        intro hmem
        apply h
        rw [htext]
        exact List.mem_append_right _ hmem
      have hline : (Lexeme.read p c t).position.line = p.line := by
        rw [hposition, Position.line_after_count, hused]
        exact Int.add_zero _
      rw [List.filterMap_cons] at hword
      cases htoken : (Finding.ofReading p (Lexeme.read p c t)).token with
      | none =>
          rw [htoken] at hword
          exact (ih hrest hword).trans hline
      | some found =>
          rw [htoken] at hword
          rcases List.mem_cons.mp hword with rfl | hword
          · rcases Option.map_eq_some_iff.mp htoken with ⟨⟨kind, text⟩, _, rfl⟩
            rfl
          · exact (ih hrest hword).trans hline

theorem line_of_words {t : Text} (h : '\n' ∉ t) {word : Token}
    (hword : word ∈ (ofText t).words) : word.position.line = 1 := by
  rw [words_ofText] at hword
  exact line_of_findings h hword

def IsLine (line : Text) : Prop :=
  '\n' ∉ line ∧ (ofText line).faults = []

def wordsOf (lines : List Text) (index : Nat) : List Token :=
  (lines.zipIdx index).flatMap fun line => (ofText line.1).words.map (Token.down line.2)

theorem wordsOf_cons (line : Text) (lines : List Text) (index : Nat) :
    wordsOf (line :: lines) index =
      (ofText line).words.map (Token.down index) ++ wordsOf lines (index + 1) := by
  rw [wordsOf, List.zipIdx_cons, List.flatMap_cons]
  rfl

theorem wordsOf_down (lines : List Text) (index : Nat) :
    (wordsOf lines index).map (Token.down 1) = wordsOf lines (index + 1) := by
  induction lines generalizing index with
  | nil => rfl
  | cons line lines ih =>
      have hdown : Token.down 1 ∘ Token.down index = Token.down ((index + 1 : Nat) : Int) :=
        funext fun t => t.down_down index 1
      rw [wordsOf_cons, wordsOf_cons, List.map_append, List.map_map, ih, hdown]

theorem line_of_wordsOf {lines : List Text} (hlines : ∀ line ∈ lines, IsLine line)
    {index : Nat} {word : Token} (hword : word ∈ wordsOf lines index) :
    1 + index ≤ word.position.line := by
  rcases List.mem_flatMap.mp hword with ⟨⟨line, i⟩, hline, hword⟩
  rcases List.mem_map.mp hword with ⟨alone, halone, rfl⟩
  have hindex := List.le_snd_of_mem_zipIdx hline
  have hone := line_of_words (hlines line (List.fst_mem_of_mem_zipIdx hline)).1 halone
  change (1 : Int) + index ≤ alone.position.line + i
  dsimp only at hindex
  omega

/-- Lines joined by line feeds are scanned one by one. -/
theorem ofText_intercalate {lines : List Text} (hlines : ∀ line ∈ lines, IsLine line) :
    (ofText (['\n'].intercalate lines)).words = wordsOf lines 0 ∧
      (ofText (['\n'].intercalate lines)).faults = [] := by
  match lines with
  | [] =>
      change (ofText []).words = [] ∧ (ofText []).faults = []
      rw [words_ofText, faults_ofText, findings]
      exact ⟨rfl, rfl⟩
  | [line] =>
      have hzero : Token.down ((0 : Nat) : Int) = id := funext Token.down_zero
      rw [List.intercalate_singleton, wordsOf_cons, hzero, List.map_id]
      exact ⟨(List.append_nil _).symm, (hlines line (List.mem_singleton_self line)).2⟩
  | line :: next :: more =>
      rcases hlines line (List.mem_cons_self ..) with ⟨hfeed, hfaults⟩
      have hmore := ofText_intercalate fun l hl => hlines l (List.mem_cons_of_mem line hl)
      have hjoined := lines_of_not_endsInEscape (not_endsInEscape_of_faults hfaults)
        (['\n'].intercalate (next :: more))
      have hzero : Token.down ((0 : Nat) : Int) = id := funext Token.down_zero
      have htext : ['\n'].intercalate (line :: next :: more) =
          line ++ '\n' :: ['\n'].intercalate (next :: more) := by
        rw [List.intercalate_cons_cons, List.append_assoc]
        rfl
      rw [List.count_eq_zero.mpr hfeed, hmore.1, hmore.2, hfaults] at hjoined
      rw [htext, wordsOf_cons, ← wordsOf_down, hzero, List.map_id]
      exact hjoined

end Scan

namespace Script

variable {line : Text}

theorem ofText_line (h : Scan.IsLine line) :
    ∃ after, Script.ofText line =
      ⟨[], Grammar.lineEvents after (Scan.ofText line).words⟩ := by
  have hevents : cleanEvents ((Scan.ofText line).words ++ [])
      (Scan.ofText line).final.token = _ :=
    cleanEvents_append _ (fun t ht => Scan.line_of_words h.1 ht)
      (fun t ht => absurd ht List.not_mem_nil)
  refine ⟨(Scan.ofText line).final.token, ?_⟩
  rw [List.append_nil] at hevents
  conv => lhs; rw [Script.ofText, Scan.eq_clean h.2, ofScan_clean_eq, hevents]
  exact congrArg (Script.mk []) (List.append_nil _)

theorem events_echo (h : Scan.IsLine line) (n : Int) (after : Token) :
    List.Forall₂ (Event.Echoes n) (Script.ofText line).events
      (Grammar.lineEvents after ((Scan.ofText line).words.map (Token.down n))) := by
  rcases ofText_line h with ⟨alone, hscript⟩
  rw [hscript]
  exact Grammar.lineEvents_echoes n alone after _

theorem diagnostics_line (h : Scan.IsLine line) :
    (Script.ofText line).diagnostics =
      (Script.ofText line).events.filterMap Event.diagnostic? := by
  rcases ofText_line h with ⟨after, hscript⟩
  rw [diagnostics, hscript]
  rfl

theorem cleanEvents_wordsOf {lines : List Text}
    (hlines : ∀ line ∈ lines, Scan.IsLine line) (index : Nat) (final : Token) :
    (cleanEvents (Scan.wordsOf lines index) final).filterMap Event.statement? =
        (lines.zipIdx index).flatMap (fun line =>
          (Script.ofText line.1).statements.map (Statement.down line.2)) ∧
      ((cleanEvents (Scan.wordsOf lines index) final).filterMap
          Event.diagnostic?).map Diagnostic.kind =
        lines.flatMap fun line => (Script.ofText line).diagnostics.map Diagnostic.kind := by
  induction lines generalizing index with
  | nil => exact ⟨rfl, rfl⟩
  | cons line lines ih =>
      have hline := hlines line (List.mem_cons_self ..)
      have hmore : ∀ l ∈ lines, Scan.IsLine l :=
        fun l hl => hlines l (List.mem_cons_of_mem line hl)
      have hfirst : ∀ t ∈ (Scan.ofText line).words.map (Token.down index),
          t.position.line = 1 + index := by
        intro t ht
        rcases List.mem_map.mp ht with ⟨alone, halone, rfl⟩
        change alone.position.line + index = 1 + index
        rw [Scan.line_of_words hline.1 halone]
      have hlater : ∀ t ∈ Scan.wordsOf lines (index + 1),
          t.position.line ≠ 1 + index := by
        intro t ht
        have hle := Scan.line_of_wordsOf hmore ht
        omega
      have hecho := events_echo hline index ((Scan.wordsOf lines (index + 1)).headD final)
      rcases ih hmore (index + 1) with ⟨hstatements, hkinds⟩
      rw [Scan.wordsOf_cons, cleanEvents_append final hfirst hlater]
      constructor
      · rw [List.filterMap_append, hstatements, Event.statements_of_echoes hecho,
          List.zipIdx_cons, List.flatMap_cons]
        rfl
      · rw [List.filterMap_append, List.map_append, hkinds, Event.kinds_of_echoes hecho,
          ← diagnostics_line hline, List.flatMap_cons]

theorem length_diagnostics_eventsAt {scan : Scan} (hproper : scan.Proper)
    (hclean : scan.faults = []) (line : Int) :
    ((eventsAt scan line).filterMap Event.diagnostic?).length ≤ 1 := by
  have hfaults := List.flatMap_eq_nil_iff.mp hclean
  by_cases hline : ∃ x ∈ scan.lexemes, x.token.position.line = line
  · rcases exists_turnsAt_eq hproper.ordered hline with ⟨p, known, hturns, hknown⟩
    have hrow : ∀ x ∈ p.group ++ p.follow :: p.later, x.faults = [] := by
      intro x hx
      apply hfaults
      rw [p.toList_eq]
      exact List.mem_append_right _ hx
    have hnone : ¬scan.FailsOn line := by
      rintro ⟨d, hd, _⟩
      rw [hclean] at hd
      cases hd
    rw [eventsAt, hturns, List.flatMap_singleton, p.events_turn,
      p.contains_eq_false hproper.ordered hknown hnone, Sighting.all_clean p.group hrow,
      Sighting.of_clean p.follow, Row.eventsOnto_clean]
    · exact Grammar.length_diagnostics_lineEvents ..
    · intro y hy
      exact hrow y (List.mem_append_right _ (List.mem_cons_of_mem _ hy))
  · rw [eventsAt, turnsAt_eq_nil hproper.ordered fun x hx heq => hline ⟨x, hx, heq⟩]
    exact Nat.zero_le 1

end Script

/-- Lines whose characters are in order, joined by line feeds, give the statements that
each of them gives alone, as many lines further down as its index says.  No line costs
more than one diagnostic, alone or in its place, and the diagnostics of the whole are of
the kinds of those of the lines. -/
theorem recover_line_by_line (lines : List Text)
    (hlines : ∀ line ∈ lines, '\n' ∉ line ∧ (Scan.ofText line).faults = []) :
    (Script.ofText (['\n'].intercalate lines)).statements =
        lines.zipIdx.flatMap (fun line =>
          (Script.ofText line.1).statements.map (Statement.down line.2)) ∧
      (∀ line ∈ lines, (Script.ofText line).diagnostics.length ≤ 1) ∧
      (∀ n, ((Script.eventsAt (Scan.ofText (['\n'].intercalate lines)) n).filterMap
        Event.diagnostic?).length ≤ 1) ∧
      (Script.ofText (['\n'].intercalate lines)).diagnostics.map Diagnostic.kind =
        lines.flatMap fun line => (Script.ofText line).diagnostics.map Diagnostic.kind := by
  rcases Scan.ofText_intercalate hlines with ⟨hwords, hfaults⟩
  have hscript : Script.ofText (['\n'].intercalate lines) =
      ⟨[], Script.cleanEvents (Scan.wordsOf lines 0)
        (Scan.ofText (['\n'].intercalate lines)).final.token⟩ := by
    conv => lhs; rw [Script.ofText, Scan.eq_clean hfaults, Script.ofScan_clean_eq, hwords]
  rcases Script.cleanEvents_wordsOf hlines 0
    (Scan.ofText (['\n'].intercalate lines)).final.token with ⟨hstatements, hkinds⟩
  refine ⟨?_, ?_, ?_, ?_⟩
  · rw [hscript]
    exact hstatements
  · intro line hline
    rcases Script.ofText_line (hlines line hline) with ⟨after, halone⟩
    rw [Script.diagnostics_line (hlines line hline), halone]
    exact Grammar.length_diagnostics_lineEvents ..
  · intro n
    exact Script.length_diagnostics_eventsAt (Scan.proper_ofText _) hfaults n
  · rw [Script.diagnostics, hscript]
    exact hkinds

/-- A parenthesis left open on the second line takes nothing from the third. -/
theorem recover_line_by_line_open :
    (∀ line ∈ ["loop: nop".toList, "jmp ($12".toList, "rts".toList],
        '\n' ∉ line ∧ (Scan.ofText line).faults = []) ∧
      (Script.ofText "loop: nop\njmp ($12\nrts".toList).statements =
        [⟨.label "loop".toList, ⟨1, 1⟩⟩, ⟨.instruction (.cpu .nop) [], ⟨1, 7⟩⟩,
          ⟨.instruction (.cpu .rts) [], ⟨3, 1⟩⟩] ∧
      (Script.ofText "loop: nop\njmp ($12\nrts".toList).diagnostics.map Diagnostic.kind =
        [.grammar] := by
  have hlines : ∀ line ∈ ["loop: nop".toList, "jmp ($12".toList, "rts".toList],
      '\n' ∉ line ∧ (Scan.ofText line).faults = [] := by
    decide +kernel
  rcases recover_line_by_line _ hlines with ⟨hstatements, _, _, hkinds⟩
  have hjoined : ['\n'].intercalate ["loop: nop".toList, "jmp ($12".toList, "rts".toList] =
      "loop: nop\njmp ($12\nrts".toList := by
    decide
  rw [hjoined] at hstatements hkinds
  refine ⟨hlines, ?_, ?_⟩
  · rw [hstatements]
    decide +kernel
  · rw [hkinds]
    decide +kernel

end Asm6502

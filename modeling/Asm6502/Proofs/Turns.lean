import Asm6502.Proofs.Rows

/-!
# Turns of the reader

The reader takes one turn for each line that holds a token, and in each turn it knows
the lexical diagnostics up to the second token of the line.  A passage is such a line
in its place in the scan.  Every passage has its turn and every turn its passage, so
what the reader says of a line is a matter of the passage alone: if no diagnostic of
the characters points to the line, it is what the grammar makes of its tokens, and if
one does, it is nothing, unless a label comes before the diagnostic is known.
-/

namespace Asm6502

open Lexeme (Ordered FailOn)

/-!
## Turns
-/

namespace Script

/-- A row as the reader comes to it, and the lines known to be bad by then. -/
structure Turn where
  row : Row
  bad : List Int

def Turn.events (turn : Turn) : List Event :=
  turn.row.events turn.bad

def turnsFrom (bad : List Int) : List Row -> List Turn
  | [] => []
  | row :: rows => ⟨row, bad⟩ :: turnsFrom (row.badLines ++ bad) rows

def turns (scan : Scan) : List Turn :=
  turnsFrom (((scan.toList.take 2).flatMap Lexeme.faults).map fun d => d.position.line)
    (Row.ofScan scan)

def turnsAt (scan : Scan) (line : Int) : List Turn :=
  (turns scan).filter fun turn => turn.row.line = line

def eventsAt (scan : Scan) (line : Int) : List Event :=
  (turnsAt scan line).flatMap Turn.events

theorem foldl_step (rows : List Row) (p : Progress) :
    (rows.foldl Progress.step p).events.toList =
      p.events.toList ++ (turnsFrom p.bad rows).flatMap Turn.events := by
  induction rows generalizing p with
  | nil => rw [turnsFrom, List.flatMap_nil, List.append_nil, List.foldl_nil]
  | cons row rows ih =>
      rw [List.foldl_cons, ih, turnsFrom, List.flatMap_cons]
      simp [Progress.step, Turn.events]

/-- The events of a source are those of the turns, one after another. -/
theorem events_ofScan (scan : Scan) :
    (ofScan scan).events = (turns scan).flatMap Turn.events := by
  unfold ofScan
  dsimp only
  rw [foldl_step]
  rfl

theorem mem_turnsAt {scan : Scan} {turn : Turn} (h : turn ∈ turns scan) :
    turn ∈ turnsAt scan turn.row.line :=
  List.mem_filter.mpr ⟨h, decide_eq_true rfl⟩

end Script

/-!
## Passages
-/

namespace Lexeme

theorem Ordered.exists_split {x : Lexeme} {more : List Lexeme}
    (h : Ordered (x :: more)) :
    ∃ run rest, more = run ++ rest ∧
      (∀ y ∈ run, y.token.position.line = x.token.position.line) ∧
      ∀ y ∈ rest, x.token.position.line < y.token.position.line := by
  induction more with
  | nil => exact ⟨[], [], rfl, by simp, by simp⟩
  | cons y more ih =>
      rcases List.pairwise_cons.mp h with ⟨hx, hmore⟩
      by_cases hline : y.token.position.line = x.token.position.line
      · have hskip : Ordered (x :: more) :=
          List.Pairwise.sublist (.cons_cons x (List.sublist_cons_self y more)) h
        rcases ih hskip with ⟨run, rest, rfl, hrun, hrest⟩
        refine ⟨y :: run, rest, rfl, ?_, hrest⟩
        intro z hz
        rcases List.mem_cons.mp hz with rfl | hz
        · exact hline
        · exact hrun z hz
      · have hy := Int.lt_iff_le_and_ne.mpr
          ⟨(hx y (List.mem_cons_self ..)).1, Ne.symm hline⟩
        refine ⟨[], y :: more, rfl, by simp, ?_⟩
        intro z hz
        rcases List.mem_cons.mp hz with rfl | hz
        · exact hy
        · exact Int.lt_of_lt_of_le hy ((List.pairwise_cons.mp hmore).1 z hz).1

end Lexeme

/-- The lexemes of a line in their place in the scan. -/
structure Passage (scan : Scan) (line : Int) where
  before : List Lexeme
  group : List Lexeme
  rest : List Lexeme
  lexemes_eq : scan.lexemes = before ++ group ++ rest
  group_ne : group ≠ []
  line_of_before : ∀ x ∈ before, x.token.position.line < line
  line_of_group : ∀ x ∈ group, x.token.position.line = line
  line_of_rest : ∀ x ∈ rest, line < x.token.position.line

namespace Passage

variable {scan : Scan} {line : Int}

def follow (p : Passage scan line) : Lexeme :=
  p.rest.headD scan.final

def later (p : Passage scan line) : List Lexeme :=
  (p.rest ++ [scan.final]).tail

def tokens (p : Passage scan line) : List Token :=
  p.group.map Lexeme.token

def row (p : Passage scan line) : Row :=
  ⟨Sighting.all p.group (p.follow :: p.later), .of p.follow p.later⟩

def known (p : Passage scan line) : List Lexeme :=
  p.before ++ (p.group ++ p.follow :: p.later).take 2

def Knows (p : Passage scan line) (bad : List Int) : Prop :=
  ∀ m, m ∈ bad ↔ FailOn m p.known

def read (p : Passage scan line) : List Lexeme :=
  p.before ++ (p.group ++ p.follow :: p.later.take 1)

theorem rest_eq (p : Passage scan line) :
    p.rest ++ [scan.final] = p.follow :: p.later := by
  unfold follow later
  cases p.rest with
  | nil => rfl
  | cons x more => rfl

theorem toList_eq (p : Passage scan line) :
    scan.toList = p.before ++ (p.group ++ p.follow :: p.later) := by
  rw [Scan.toList, p.lexemes_eq, ← p.rest_eq, List.append_assoc, List.append_assoc]

theorem group_eq (p : Passage scan line) :
    p.group = scan.lexemes.filter fun x => x.token.position.line = line := by
  have hbefore : p.before.filter (fun x => x.token.position.line = line) = [] := by
    rw [List.filter_eq_nil_iff]
    intro x hx
    simp [Int.ne_of_lt (p.line_of_before x hx)]
  have hgroup : p.group.filter (fun x => x.token.position.line = line) = p.group := by
    rw [List.filter_eq_self]
    intro x hx
    simp [p.line_of_group x hx]
  have hrest : p.rest.filter (fun x => x.token.position.line = line) = [] := by
    rw [List.filter_eq_nil_iff]
    intro x hx
    simp [Int.ne_of_gt (p.line_of_rest x hx)]
  rw [p.lexemes_eq, List.filter_append, List.filter_append, hbefore, hgroup, hrest,
    List.nil_append, List.append_nil]

theorem before_eq (p : Passage scan line) :
    p.before = scan.lexemes.filter fun x => x.token.position.line < line := by
  have hbefore : p.before.filter (fun x => x.token.position.line < line) = p.before := by
    rw [List.filter_eq_self]
    intro x hx
    simp [p.line_of_before x hx]
  have hgroup : p.group.filter (fun x => x.token.position.line < line) = [] := by
    rw [List.filter_eq_nil_iff]
    intro x hx
    simp [p.line_of_group x hx]
  have hrest : p.rest.filter (fun x => x.token.position.line < line) = [] := by
    rw [List.filter_eq_nil_iff]
    intro x hx
    simp [Int.le_of_lt (p.line_of_rest x hx)]
  rw [p.lexemes_eq, List.filter_append, List.filter_append, hbefore, hgroup, hrest,
    List.append_nil, List.append_nil]

theorem eq (p q : Passage scan line) : p = q := by
  have hbefore := p.before_eq.trans q.before_eq.symm
  have hgroup := p.group_eq.trans q.group_eq.symm
  have hrest : p.rest = q.rest := by
    have heq := p.lexemes_eq.symm.trans q.lexemes_eq
    rw [hbefore, hgroup] at heq
    exact List.append_cancel_left heq
  cases p
  cases q
  cases hbefore
  cases hgroup
  cases hrest
  rfl

theorem ofScan_eq (p : Passage scan line) :
    Row.ofScan ⟨p.group ++ p.rest, scan.final⟩ =
      p.row :: Row.ofScan ⟨p.rest, scan.final⟩ :=
  Row.ofScan_append p.group_ne p.line_of_group
    (fun x hx => Int.ne_of_gt (p.line_of_rest x (List.mem_of_mem_head? hx))) p.rest_eq

theorem line_row (p : Passage scan line) : p.row.line = line := by
  rcases List.exists_cons_of_ne_nil p.group_ne with ⟨x, more, hgroup⟩
  have hx := p.line_of_group x (by rw [hgroup]; exact List.mem_cons_self ..)
  refine Eq.trans ?_ hx
  unfold Row.line row
  rw [hgroup]
  rfl

theorem mem_badLines (p : Passage scan line) {bad : List Int}
    (hbad : p.Knows bad) (m : Int) :
    m ∈ p.row.badLines ++ bad ↔ FailOn m p.read := by
  have hunveiled : FailOn m (p.group ++ p.follow :: p.later.take 1) ↔
      FailOn m ((p.group ++ p.follow :: p.later).take 2) ∨
        ∃ d ∈ Row.unveiled p.row.follow p.row.sightings, d.position.line = m := by
    unfold row
    rcases List.exists_cons_of_ne_nil p.group_ne with ⟨x, more, hgroup⟩
    rw [hgroup, Lexeme.failOn_iff, ← Row.faults_unveiled, Lexeme.failOn_iff]
    simp only [List.mem_append, or_and_right, exists_or]
  unfold read
  rw [List.mem_append, hbad m, known, Lexeme.failOn_append, Lexeme.failOn_append, hunveiled,
    Row.badLines, List.mem_map, or_comm, or_assoc]

end Passage

/-!
## The turn of a passage
-/

namespace Script

/-- How far the reader has come between two turns. -/
structure Stands (scan : Scan) (behind ahead : List Lexeme) (bad : List Int) : Prop where
  ordered : Ordered scan.toList
  lexemes_eq : scan.lexemes = behind ++ ahead
  apart : ∀ x ∈ behind, ∀ y ∈ ahead, x.token.position.line < y.token.position.line
  mem_bad : ∀ m, m ∈ bad ↔ FailOn m (behind ++ (ahead ++ [scan.final]).take 2)

variable {scan : Scan} {behind more : List Lexeme} {bad : List Int} {x : Lexeme}

theorem Stands.exists_passage (h : Stands scan behind (x :: more) bad) :
    ∃ p : Passage scan x.token.position.line,
      behind = p.before ∧ x :: more = p.group ++ p.rest := by
  have hahead : Ordered (x :: more) := by
    refine List.Pairwise.sublist ?_ h.ordered
    rw [Scan.toList, h.lexemes_eq]
    exact (List.sublist_append_right ..).trans (List.sublist_append_left ..)
  rcases hahead.exists_split with ⟨run, rest, rfl, hrun, hrest⟩
  refine ⟨⟨behind, x :: run, rest, ?_, List.cons_ne_nil x run, ?_, ?_, hrest⟩, rfl, rfl⟩
  · rw [h.lexemes_eq, List.append_assoc]
    rfl
  · intro y hy
    exact h.apart y hy x (List.mem_cons_self ..)
  · intro y hy
    rcases List.mem_cons.mp hy with rfl | hy
    · rfl
    · exact hrun y hy

theorem Stands.knows {line : Int} {p : Passage scan line}
    (h : Stands scan p.before (p.group ++ p.rest) bad) : p.Knows bad := by
  intro m
  rw [h.mem_bad, List.append_assoc, p.rest_eq]
  rfl

theorem Stands.next {line : Int} {p : Passage scan line}
    (h : Stands scan p.before (p.group ++ p.rest) bad) :
    Stands scan (p.before ++ p.group) p.rest (p.row.badLines ++ bad) := by
  refine ⟨h.ordered, p.lexemes_eq, ?_, ?_⟩
  · intro x hx y hy
    have hy := p.line_of_rest y hy
    rcases List.mem_append.mp hx with hx | hx
    · exact Int.lt_trans (p.line_of_before x hx) hy
    · rw [p.line_of_group x hx]
      exact hy
  · intro m
    rw [p.mem_badLines h.knows, p.rest_eq, List.append_assoc]
    rfl

/-- The reader goes from passage to passage. -/
theorem Stands.induction {scan : Scan}
    {motive : ∀ behind ahead bad, Stands scan behind ahead bad -> Prop}
    (nil : ∀ {behind bad} (h : Stands scan behind [] bad), motive behind [] bad h)
    (passage : ∀ {line bad} (p : Passage scan line)
      (h : Stands scan p.before (p.group ++ p.rest) bad),
      motive (p.before ++ p.group) p.rest (p.row.badLines ++ bad) h.next ->
      motive p.before (p.group ++ p.rest) bad h)
    {behind ahead : List Lexeme} {bad : List Int} (h : Stands scan behind ahead bad) :
    motive behind ahead bad h := by
  induction hlength : ahead.length using Nat.strong_induction_on
    generalizing behind ahead bad with
  | _ length ih =>
  cases ahead with
  | nil => exact nil h
  | cons x more =>
      rcases h.exists_passage with ⟨p, rfl, hp⟩
      have hne := List.length_pos_of_ne_nil p.group_ne
      rw [hp, List.length_append] at hlength
      have hpassage : ∀ {ahead} (h : Stands scan p.before ahead bad),
          ahead = p.group ++ p.rest -> motive p.before ahead bad h := by
        rintro _ h rfl
        exact passage p h (ih p.rest.length (by omega) h.next rfl)
      exact hpassage h hp

theorem turnsFrom_passage {line : Int} (p : Passage scan line) (bad : List Int) :
    turnsFrom bad (Row.ofScan ⟨p.group ++ p.rest, scan.final⟩) =
      ⟨p.row, bad⟩ :: turnsFrom (p.row.badLines ++ bad)
        (Row.ofScan ⟨p.rest, scan.final⟩) := by
  rw [p.ofScan_eq, turnsFrom]

theorem Stands.filter_eq_nil {ahead : List Lexeme} (h : Stands scan behind ahead bad)
    {line : Int} (hline : ∀ x ∈ ahead, x.token.position.line ≠ line) :
    (turnsFrom bad (Row.ofScan ⟨ahead, scan.final⟩)).filter
      (fun turn => turn.row.line = line) = [] := by
  induction h using Stands.induction with
  | nil h => rfl
  | @passage other bad p h ih =>
      have hother : other ≠ line := by
        rcases List.exists_mem_of_ne_nil _ p.group_ne with ⟨x, hx⟩
        rw [← p.line_of_group x hx]
        exact hline x (List.mem_append_left _ hx)
      rw [turnsFrom_passage, List.filter_cons_of_neg]
      · exact ih fun x hx => hline x (List.mem_append_right _ hx)
      · simp [p.line_row, hother]

theorem Stands.exists_filter_eq {ahead : List Lexeme} (h : Stands scan behind ahead bad)
    {line : Int} (hline : ∃ x ∈ ahead, x.token.position.line = line) :
    ∃ (p : Passage scan line) (known : List Int),
      (turnsFrom bad (Row.ofScan ⟨ahead, scan.final⟩)).filter
          (fun turn => turn.row.line = line) = [⟨p.row, known⟩] ∧
        p.Knows known := by
  induction h using Stands.induction with
  | nil h =>
      rcases hline with ⟨x, hx, _⟩
      cases hx
  | @passage other bad p h ih =>
      rw [turnsFrom_passage]
      by_cases hother : other = line
      · cases hother
        have hrest := h.next.filter_eq_nil fun x hx => Int.ne_of_gt (p.line_of_rest x hx)
        refine ⟨p, bad, ?_, h.knows⟩
        rw [List.filter_cons_of_pos (by simp [p.line_row]), hrest]
      · rw [List.filter_cons_of_neg (by simp [p.line_row, hother])]
        apply ih
        rcases hline with ⟨x, hx, hline⟩
        rcases List.mem_append.mp hx with hx | hx
        · exact absurd ((p.line_of_group x hx).symm.trans hline) hother
        · exact ⟨x, hx, hline⟩

theorem stands_start (hordered : Ordered scan.toList) :
    Stands scan [] scan.lexemes
      (((scan.toList.take 2).flatMap Lexeme.faults).map fun d => d.position.line) := by
  refine ⟨hordered, rfl, fun x hx => absurd hx List.not_mem_nil, ?_⟩
  intro m
  rw [List.mem_map, List.nil_append, Lexeme.failOn_iff]
  rfl

theorem turnsAt_eq_nil (hordered : Ordered scan.toList) {line : Int}
    (hline : ∀ x ∈ scan.lexemes, x.token.position.line ≠ line) :
    turnsAt scan line = [] :=
  (stands_start hordered).filter_eq_nil hline

theorem exists_turnsAt_eq (hordered : Ordered scan.toList) {line : Int}
    (hline : ∃ x ∈ scan.lexemes, x.token.position.line = line) :
    ∃ (p : Passage scan line) (known : List Int),
      turnsAt scan line = [⟨p.row, known⟩] ∧ p.Knows known :=
  (stands_start hordered).exists_filter_eq hline

theorem turnsAt_eq (hordered : Ordered scan.toList) {line : Int}
    (p : Passage scan line) :
    ∃ known, turnsAt scan line = [⟨p.row, known⟩] ∧ p.Knows known := by
  rcases List.exists_mem_of_ne_nil _ p.group_ne with ⟨x, hx⟩
  have hmem : x ∈ scan.lexemes := by
    rw [p.lexemes_eq]
    exact List.mem_append_left _ (List.mem_append_right _ hx)
  rcases exists_turnsAt_eq hordered ⟨x, hmem, p.line_of_group x hx⟩ with
    ⟨q, known, hturns, hknown⟩
  rw [q.eq p] at hturns hknown
  exact ⟨known, hturns, hknown⟩

theorem exists_passage_of_mem (hordered : Ordered scan.toList) {turn : Turn}
    (h : turn ∈ turns scan) :
    ∃ p : Passage scan turn.row.line, turn.row = p.row ∧ p.Knows turn.bad := by
  have hturn := mem_turnsAt h
  by_cases hline : ∃ x ∈ scan.lexemes, x.token.position.line = turn.row.line
  · rcases exists_turnsAt_eq hordered hline with ⟨p, known, hturns, hknown⟩
    rw [hturns] at hturn
    have heq := List.mem_singleton.mp hturn
    refine ⟨p, congrArg Turn.row heq, ?_⟩
    rw [congrArg Turn.bad heq]
    exact hknown
  · rw [turnsAt_eq_nil hordered fun x hx heq => hline ⟨x, hx, heq⟩] at hturn
    cases hturn

end Script

/-!
## What the reader says of a passage
-/

theorem Row.mem_eventsOnto_of_mem {e : Event} {done : List Event} (he : e ∈ done)
    (line : Int) (follow : Sighting) (failed : Bool) (seen : List Sighting) :
    e ∈ Row.eventsOnto done line follow failed seen := by
  fun_induction Row.eventsOnto done line follow failed seen with
  | case1 done => exact List.mem_reverse.mpr he
  | case2 done start => exact List.mem_append_left _ (List.mem_reverse.mpr he)
  | case3 done name colon rest _ found _ =>
      exact List.mem_append_left _ (List.mem_reverse.mpr he)
  | case4 done name colon rest _ found _ label ih =>
      exact ih (List.mem_append_right _ he)
  | case5 done name colon rest _ => exact List.mem_append_left _ (List.mem_reverse.mpr he)

namespace Passage

variable {scan : Scan} {line : Int} {known : List Int}

/-- Once the reader is through with a line, nothing more comes to light on it. -/
theorem failsOn_iff (p : Passage scan line) (hordered : Ordered scan.toList) :
    scan.FailsOn line ↔ FailOn line p.read := by
  rw [Scan.failsOn_iff, p.toList_eq]
  constructor
  · rintro ⟨y, hy, d, hd, hline⟩
    by_cases hlater : y ∈ p.later
    · have hrest : p.follow ∈ p.rest := by
        unfold follow
        unfold later at hlater
        cases hrest : p.rest with
        | nil => simp [hrest] at hlater
        | cons x more => exact List.mem_cons_self ..
      have hpair : Ordered (p.follow :: p.later) := by
        rw [p.toList_eq] at hordered
        refine List.Pairwise.sublist ?_ hordered
        exact (List.sublist_append_right ..).trans (List.sublist_append_right ..)
      have hle := ((List.pairwise_cons.mp hpair).1 y hlater).2 d hd
      have hlt := p.line_of_rest _ hrest
      omega
    · refine ⟨y, ?_, d, hd, hline⟩
      unfold read
      simp only [List.mem_append, List.mem_cons] at hy ⊢
      tauto
  · intro hfails
    refine hfails.mono ?_
    intro y hy
    unfold read at hy
    simp only [List.mem_append, List.mem_cons] at hy ⊢
    exact hy.imp_right (Or.imp_right (Or.imp_right List.mem_of_mem_take))

theorem known_subset_read (p : Passage scan line) : p.known ⊆ p.read := by
  unfold known read
  exact List.append_subset.mpr ⟨List.subset_append_left ..,
    List.Subset.trans (Row.take_two_subset ..) (List.subset_append_right ..)⟩

theorem events_turn (p : Passage scan line) (known : List Int) :
    (Script.Turn.mk p.row known).events =
      Row.eventsOnto [] line (.of p.follow p.later) (known.contains line)
        (Sighting.all p.group (p.follow :: p.later)) := by
  unfold Script.Turn.events Row.events
  dsimp only
  rw [p.line_row]
  rfl

theorem contains_iff (p : Passage scan line)
    (hknown : p.Knows known) :
    known.contains line = true ↔ FailOn line p.known :=
  List.contains_iff_mem.trans (hknown line)

theorem contains_eq_false (p : Passage scan line) (hordered : Ordered scan.toList)
    (hknown : p.Knows known) (hclean : ¬scan.FailsOn line) :
    known.contains line = false := by
  rw [Bool.eq_false_iff, Ne, p.contains_iff hknown]
  intro hfails
  exact hclean ((p.failsOn_iff hordered).mpr (hfails.mono p.known_subset_read))

/-- A lexical diagnostic on the line is known when its turn comes, or it comes to light
in that turn. -/
theorem known_or_unveiled (p : Passage scan line) (hordered : Ordered scan.toList)
    (hknown : p.Knows known) (hfails : scan.FailsOn line) :
    (known.contains line || Row.pointsTo line (Row.unveiled (.of p.follow p.later)
      (Sighting.all p.group (p.follow :: p.later)))) = true := by
  rw [p.failsOn_iff hordered, ← p.mem_badLines hknown, List.mem_append] at hfails
  rw [Bool.or_eq_true, List.contains_iff_mem]
  rcases hfails with hmem | hmem
  · exact Or.inr (Row.pointsTo_iff.mpr (List.mem_map.mp hmem))
  · exact Or.inl hmem

theorem lexical (p : Passage scan line) (hproper : scan.Proper) :
    Lexeme.Lexical (p.group ++ p.follow :: p.later) := by
  apply hproper.lexical.mono
  rw [p.toList_eq]
  exact List.subset_append_right ..

theorem own_events (p : Passage scan line) (hproper : scan.Proper)
    (hknown : p.Knows known) (hclean : ¬scan.FailsOn line) :
    (Script.Turn.mk p.row known).events.filter Event.isOwn =
      Grammar.lineEvents p.follow.token p.tokens := by
  rw [p.events_turn, p.contains_eq_false hproper.ordered hknown hclean]
  refine (Row.own_eventsOnto [] p.group (p.lexical hproper) ?_).trans (List.nil_append _)
  intro hfails
  apply hclean
  rw [p.failsOn_iff hproper.ordered]
  exact hfails.mono (List.subset_append_right ..)

theorem label_of_failsOn (p : Passage scan line) (hproper : scan.Proper)
    (hknown : p.Knows known) (hfails : scan.FailsOn line)
    {e : Event} (hown : e.isOwn = true) (he : e ∈ (Script.Turn.mk p.row known).events) :
    ∃ name position, e = .statement ⟨.label name, position⟩ := by
  have hmem := List.mem_filter.mpr ⟨he, hown⟩
  rw [p.events_turn] at hmem
  rcases Row.label_of_mem_eventsOnto [] p.group (p.lexical hproper)
    (p.known_or_unveiled hproper.ordered hknown hfails) hmem with hdone | hlabel
  · cases hdone
  · exact hlabel

/-- The line begins with a label, and none of its lexical diagnostics lies before the
third lexeme after the colon. -/
def EarlyLabel (p : Passage scan line) : Prop :=
  ∃ name colon more, p.group = name :: colon :: more ∧
    Grammar.isLabel name.token colon.token = true ∧
    ¬FailOn line (p.before ++ name :: colon :: (more ++ p.follow :: p.later).take 2)

theorem mem_label_iff (p : Passage scan line) {name colon : Lexeme} {more : List Lexeme}
    (hgroup : p.group = name :: colon :: more) (y : Lexeme) :
    y ∈ p.before ++ name :: colon :: (more ++ p.follow :: p.later).take 2 ↔
      y ∈ p.known ∨ y ∈ (more ++ p.follow :: p.later).take 2 := by
  rw [Passage.known, hgroup]
  simp only [List.cons_append, List.take_succ_cons, List.take_zero, List.mem_append,
    List.mem_cons, List.not_mem_nil, or_false]
  tauto

theorem label_mem_events (p : Passage scan line)
    (hknown : p.Knows known) (hearly : p.EarlyLabel) :
    ∃ s, .statement s ∈ (Script.Turn.mk p.row known).events ∧
      s.position.line = line := by
  rcases hearly with ⟨name, colon, more, hgroup, hlabel, hclean⟩
  have hbegin : known.contains line = false := by
    rw [Bool.eq_false_iff, Ne, p.contains_iff hknown]
    intro hfails
    exact hclean (hfails.mono fun y hy => (p.mem_label_iff hgroup y).mpr (Or.inl hy))
  have hfound : Row.pointsTo line
      (((more ++ p.follow :: p.later).take 2).flatMap Lexeme.faults) = false := by
    rw [Bool.eq_false_iff, Ne, Row.pointsTo_faults]
    intro hfails
    exact hclean (hfails.mono fun y hy => (p.mem_label_iff hgroup y).mpr (Or.inr hy))
  have hname := p.line_of_group name (by rw [hgroup]; exact List.mem_cons_self ..)
  refine ⟨⟨.label name.token.text, name.token.position⟩, ?_, hname⟩
  rw [p.events_turn, hbegin, hgroup, Row.eventsOnto_all, hlabel, if_pos rfl, hfound,
    Bool.false_or, if_neg Bool.false_ne_true]
  exact Row.mem_eventsOnto_of_mem (List.mem_cons_self ..) ..

/-- A line with a lexical diagnostic says nothing, unless it has a label in front that
the reader gives too early. -/
theorem own_events_of_failsOn (p : Passage scan line) (hproper : scan.Proper)
    (hknown : p.Knows known) (hfails : scan.FailsOn line)
    (hearly : ¬p.EarlyLabel) :
    (Script.Turn.mk p.row known).events.filter Event.isOwn = [] := by
  rw [p.events_turn]
  refine Row.own_eventsOnto_failed [] _ p.group (p.lexical hproper)
    (p.known_or_unveiled hproper.ordered hknown hfails) ?_
  intro name colon more hgroup hlabel
  by_contra hneither
  rw [Bool.or_eq_true, p.contains_iff hknown, Row.pointsTo_faults] at hneither
  refine hearly ⟨name, colon, more, hgroup, hlabel, ?_⟩
  rintro ⟨y, hy, hd⟩
  rcases (p.mem_label_iff hgroup y).mp hy with hy | hy
  · exact hneither (Or.inl ⟨y, hy, hd⟩)
  · exact hneither (Or.inr ⟨y, hy, hd⟩)

end Passage

end Asm6502

import Asm6502.Proofs.Cancellation
import Asm6502.Proofs.OwnLines
import Asm6502.Proofs.StatementReader

/-!
# Progress of the reader

A script tells what a reader says of a source.  The reader itself never sees the whole
source: it has two tokens in hand, reads another one whenever it passes one of them, and
goes round after round until the end of input is in front.  A round reads one statement
and passes over the rest of its line where that is refused.  Either way it passes a label
or all that is left of a line.

Nothing goes round in circles.  A token that is read takes characters of the source, and
a round passes at least one token, so the tokens in hand and the characters that are left
become fewer with every round.  The rounds give the events of the script, at most one of
them in each round besides lexical diagnostics.
-/

namespace Asm6502

/-!
## Rounds
-/

/-- What a reader passes at a time, and the statement or the diagnostic of the grammar
that it makes of it. -/
structure Round extends Stretch where
  own : Option Event

def Round.events (round : Round) : List Event :=
  round.found.map .report ++ round.own.toList

namespace Reader

/-- Reads a statement.  The rest of the line is passed over if there is none, and also if
a lexical diagnostic on the line is known by then, in which case nothing is made of it. -/
def round (r : Reader) : Round :=
  let line := r.current.position.line
  let read := (Stretch.start r).statement line
  match read.result with
  | .ok s =>
      if read.stretch.reader.bad.contains line then ⟨read.stretch.passLine line, none⟩
      else ⟨read.stretch, some (.statement s)⟩
  | .error d =>
      let skipped := read.stretch.passLine line
      ⟨skipped, if skipped.reader.bad.contains line then none else some (.report d)⟩

variable {r : Reader}

theorem along_round (h : r.current.kind ≠ .endOfInput) :
    (Stretch.start r).step.Along r.current.position.line r.round.toStretch := by
  let line := r.current.position.line
  let read := (Stretch.start r).statement line
  have honLine : r.current.onLine line = true := Token.onLine_self h
  have hskipped : (Stretch.start r).step.Along line (read.stretch.passLine line) := by
    rw [read.along.passLine_eq, Stretch.passLine_of_onLine honLine]
    exact Stretch.along_passLine ..
  unfold round
  dsimp only
  split
  · rename_i s hresult
    split
    · exact hskipped
    · exact read.along.of_step (Stretch.moves_statement line _ s hresult)
  · exact hskipped

variable {line : Int}

theorem round_of_label (h : r.current.onLine line = true)
    (hlabel : (r.next.onLine line && Grammar.isLabel r.current r.next) = true) :
    r.round =
      let label := (Stretch.start r).step.step
      if label.reader.bad.contains line then ⟨label.passLine line, none⟩
      else ⟨label, some (.statement ⟨.label r.current.text, r.current.position⟩)⟩ := by
  rcases (Bool.and_eq_true _ _).mp hlabel with ⟨hcolon, hname⟩
  unfold round
  dsimp only
  rw [Token.line_of_onLine h, Stretch.statement_of_label (s := .start r) h hcolon hname]
  rfl

/-- Any other round passes the line and makes of it what the grammar does. -/
theorem round_of_no_label (h : r.current.onLine line = true)
    (hlabel : (r.next.onLine line && Grammar.isLabel r.current r.next) = false) :
    r.round =
      let whole := (Stretch.start r).passLine line
      let asked := Grammar.statement whole.reader.current r.current (whole.passed.drop 1)
      ⟨whole, if whole.reader.bad.contains line then none else some (Grammar.eventOf asked)⟩ := by
  let read := (Stretch.start r).statement line
  let whole := (Stretch.start r).passLine line
  let asked := Grammar.statement whole.reader.current r.current (whole.passed.drop 1)
  change r.round =
    ⟨whole, if whole.reader.bad.contains line then none else some (Grammar.eventOf asked)⟩
  have hpassed : whole.passed.drop 1 = (Stretch.start r).step.ahead line := by
    rw [Stretch.passed_passLine, Stretch.ahead_of_onLine h]
    rfl
  have hasked : asked = Grammar.statement ((Stretch.start r).follow line) r.current
      ((Stretch.start r).step.ahead line) := by
    rw [← hpassed]
    rfl
  have hwhole : read.stretch.passLine line = whole := read.along.passLine_eq
  rcases Taken.result_of_told (Stretch.told_statement (s := .start r) h hlabel) with
    ⟨hread, hstretch⟩
  have hresult : read.result = asked := hread.trans hasked.symm
  unfold round
  dsimp only
  rw [Token.line_of_onLine h]
  cases hcase : asked with
  | error d =>
      rw [hresult.trans hcase, hwhole]
      rfl
  | ok s =>
      rw [hresult.trans hcase, hwhole, hstretch s (hresult.trans hcase)]
      exact (apply_ite (Round.mk whole) ..).symm

theorem passed_round_ne_nil (h : r.current.kind ≠ .endOfInput) : r.round.passed ≠ [] := by
  have hpassed := (along_round h).length_passed_le
  rw [Stretch.length_passed_step] at hpassed
  exact List.ne_nil_of_length_pos (Nat.lt_of_lt_of_le (Nat.succ_pos _) hpassed)

theorem extent_round_le (h : r.current.kind ≠ .endOfInput) :
    r.round.passed.length + r.round.reader.size ≤ r.size := by
  calc r.round.extent ≤ (Stretch.start r).step.extent := (along_round h).extent_le
    _ ≤ (Stretch.start r).extent := Stretch.extent_step_le (Token.onLine_self h)
    _ = r.size := Nat.zero_add _

theorem own_round_isOwn (h : r.current.kind ≠ .endOfInput) :
    ∀ e ∈ r.round.own, e.isOwn = true := by
  intro e he
  have honLine := Token.onLine_self h
  cases hlabel : r.next.onLine r.current.position.line &&
      Grammar.isLabel r.current r.next with
  | true =>
      rw [round_of_label honLine hlabel] at he
      dsimp only at he
      split at he
      · cases he
      · cases he
        rfl
  | false =>
      rw [round_of_no_label honLine hlabel] at he
      dsimp only at he
      split at he
      · cases he
      · cases he
        exact isOwn_eventOf ..

theorem own_events_round (h : r.current.kind ≠ .endOfInput) :
    r.round.events.filter Event.isOwn = r.round.own.toList := by
  have hlexical : ∀ d ∈ r.round.found, d.kind = .lexical :=
    (along_round h).lexical (Stretch.lexical_step fun d hd => nomatch hd)
  rw [Round.events, List.filter_append, filter_isOwn_lexical hlexical, List.nil_append,
    List.filter_eq_self]
  intro e he
  exact own_round_isOwn h e (Option.mem_toList.mp he)

def rounds (r : Reader) : List Round :=
  if _ : r.current.kind = .endOfInput then [] else r.round :: rounds r.round.reader
termination_by r.size
decreasing_by
  rename_i h
  have hextent := extent_round_le h
  have hpassed := List.length_pos_of_ne_nil (passed_round_ne_nil h)
  omega

theorem rounds_of_end (h : r.current.kind = .endOfInput) : r.rounds = [] := by
  rw [rounds, dif_pos h]

theorem rounds_eq (h : r.current.kind ≠ .endOfInput) :
    r.rounds = r.round :: r.round.reader.rounds := by
  rw [rounds, dif_neg h]

theorem length_passed_rounds_le (r : Reader) :
    (r.rounds.flatMap fun round => round.passed).length ≤ r.size := by
  fun_induction rounds r with
  | case1 r h => exact Nat.zero_le _
  | case2 r h ih =>
      have hround := extent_round_le h
      rw [List.flatMap_cons, List.length_append]
      omega

theorem length_rounds_le (r : Reader) :
    r.rounds.length ≤ (r.rounds.flatMap fun round => round.passed).length := by
  fun_induction rounds r with
  | case1 r h => exact Nat.zero_le _
  | case2 r h ih =>
      have hpassed := List.length_pos_of_ne_nil (passed_round_ne_nil h)
      rw [List.flatMap_cons, List.length_append, List.length_cons]
      omega

theorem length_own_rounds_le (r : Reader) :
    ((r.rounds.flatMap Round.events).filter Event.isOwn).length ≤ r.rounds.length := by
  fun_induction rounds r with
  | case1 r h => exact Nat.zero_le _
  | case2 r h ih =>
      have hown : r.round.own.toList.length ≤ 1 := by
        cases r.round.own with
        | none => exact Nat.zero_le _
        | some e => exact Nat.le_refl _
      rw [List.flatMap_cons, List.filter_append, own_events_round h, List.length_append,
        List.length_cons]
      omega

def start (t : Text) : Reader :=
  let first := Scan.Cursor.next ⟨.start, t⟩
  let second := first.2.next
  { current := first.1.token
    next := second.1.token
    cursor := second.2
    bad := (first.1.faults ++ second.1.faults).map fun d => d.position.line }

theorem size_start_le (t : Text) : (start t).size ≤ t.length := by
  let c : Scan.Cursor := ⟨.start, t⟩
  have hfirst : c.next.1.token.weight + c.next.2.rest.length ≤ t.length := c.weight_next_le
  have hsecond := c.next.2.weight_next_le
  change c.next.1.token.weight + c.next.2.next.1.token.weight + c.next.2.next.2.rest.length ≤
    t.length
  omega

end Reader

/-!
## Readers in front of a scan

A reader is given the lexemes of the scan one after another.
-/

theorem Scan.faults_lexemeAt (scan : Scan) (n : Nat) :
    (scan.lexemeAt n).faults = ((scan.toList.drop n).take 1).flatMap Lexeme.faults := by
  rw [lexemeAt, ← List.head?_drop]
  cases scan.toList.drop n with
  | nil => rfl
  | cons x more => exact (List.flatMap_singleton ..).symm

/-- What comes to light when lexemes in front of others are passed: the diagnostics of
as many lexemes, from the third one on. -/
def Lexeme.unveiled (xs rest : List Lexeme) : List Diagnostic :=
  (((xs ++ rest).drop 2).take xs.length).flatMap Lexeme.faults

theorem Lexeme.unveiled_append (xs ys rest : List Lexeme) :
    unveiled (xs ++ ys) rest = unveiled xs (ys ++ rest) ++ unveiled ys rest := by
  have hdrop : ((xs ++ (ys ++ rest)).drop 2).drop xs.length = (ys ++ rest).drop 2 := by
    rw [List.drop_drop, Nat.add_comm, ← List.drop_drop, List.drop_left]
  unfold unveiled
  rw [List.length_append, List.take_add, List.flatMap_append, List.append_assoc, hdrop]

theorem Row.unveiled_eq (x follow : Lexeme) (group later : List Lexeme) :
    unveiled (.of follow later) (Sighting.all (x :: group) (follow :: later)) =
      Lexeme.unveiled (x :: group) (follow :: later) := by
  let all := x :: group ++ follow :: later
  have htake : x :: group ++ follow :: later.take 1 =
      all.take 2 ++ (all.drop 2).take (x :: group).length := by
    rw [← List.take_add, Nat.add_comm, List.take_length_add_append]
    rfl
  have hsplit := faults_unveiled x follow group later
  rw [htake, List.flatMap_append] at hsplit
  exact List.append_cancel_left hsplit

namespace Reader

/-- The reader has the first two lexemes of the scan in hand, and the others come next. -/
structure Faces (r : Reader) (scan : Scan) : Prop where
  current : r.current = (scan.lexemeAt 0).token
  next : r.next = (scan.lexemeAt 1).token
  call : ∀ n, r.cursor.call n = scan.lexemeAt (n + 2)

theorem faces_start (t : Text) : (start t).Faces (Scan.ofText t) := by
  have hcall := fun n => Scan.call_eq n ⟨.start, t⟩
  exact ⟨congrArg Lexeme.token (hcall 0), congrArg Lexeme.token (hcall 1),
    fun n => hcall (n + 2)⟩

theorem bad_start (t : Text) :
    (start t).bad = (((Scan.ofText t).toList.take 2).flatMap Lexeme.faults).map
      fun d => d.position.line := by
  have hfirst := congrArg Lexeme.faults (Scan.call_eq 0 ⟨.start, t⟩)
  have hsecond := congrArg Lexeme.faults (Scan.call_eq 1 ⟨.start, t⟩)
  rw [Scan.faults_lexemeAt] at hfirst hsecond
  rw [show 2 = 1 + 1 from rfl, List.take_add, List.flatMap_append]
  exact congrArg _ (congr (congrArg _ hfirst) hsecond)

variable {r r' r'' : Reader} {line : Int} {x follow final : Lexeme}
variable {xs ys group rest later : List Lexeme}

structure Advances (scan : Scan) (xs : List Lexeme) (r r' : Reader) : Prop where
  faces : r'.Faces scan
  bad : r'.bad = r.bad ++ (Lexeme.unveiled xs scan.toList).map fun d => d.position.line

theorem Advances.refl (h : r.Faces ⟨rest, final⟩) : Advances ⟨rest, final⟩ [] r r :=
  ⟨h, (List.append_nil _).symm⟩

theorem unveiled_toList :
    Lexeme.unveiled (xs ++ ys) (Scan.toList ⟨rest, final⟩) =
      Lexeme.unveiled xs (Scan.toList ⟨ys ++ rest, final⟩) ++
        Lexeme.unveiled ys (Scan.toList ⟨rest, final⟩) := by
  rw [Lexeme.unveiled_append, Scan.toList, Scan.toList, List.append_assoc]

theorem Advances.trans (h : Advances ⟨ys ++ rest, final⟩ xs r r')
    (h' : Advances ⟨rest, final⟩ ys r' r'') : Advances ⟨rest, final⟩ (xs ++ ys) r r'' := by
  refine ⟨h'.faces, ?_⟩
  rw [h'.bad, h.bad, unveiled_toList, List.map_append, List.append_assoc]

/-- The reader is in front of what is left of a line.  It is followed by a lexeme of
another line, or by the end of input. -/
structure AtRow (line : Int) (group rest : List Lexeme) (final follow : Lexeme)
    (later : List Lexeme) (r : Reader) : Prop where
  faces : r.Faces ⟨group ++ rest, final⟩
  onLine : ∀ y ∈ group, y.token.onLine line = true
  rest_eq : rest ++ [final] = follow :: later
  onLine_follow : follow.token.onLine line = false

namespace AtRow

theorem after (xs : List Lexeme) (h : AtRow line (xs ++ group) rest final follow later r)
    (hfaces : r'.Faces ⟨group ++ rest, final⟩) :
    AtRow line group rest final follow later r' :=
  ⟨hfaces, fun y hy => h.onLine y (List.mem_append_right xs hy), h.rest_eq, h.onLine_follow⟩

theorem toList_eq (h : AtRow line group rest final follow later r) :
    Scan.toList ⟨group ++ rest, final⟩ = group ++ follow :: later := by
  rw [Scan.toList, List.append_assoc, h.rest_eq]

theorem current_eq (h : AtRow line (x :: group) rest final follow later r) :
    r.current = x.token :=
  h.faces.current

theorem onLine_current (h : AtRow line (x :: group) rest final follow later r) :
    r.current.onLine line = true := by
  rw [h.current_eq]
  exact h.onLine x (List.mem_cons_self ..)

theorem current_eq_follow (h : AtRow line [] rest final follow later r) :
    r.current = follow.token := by
  rw [h.faces.current, Scan.lexemeAt, h.toList_eq]
  rfl

end AtRow
end Reader

namespace Stretch

variable {s s' s'' : Stretch} {rest : List Lexeme} {final : Lexeme} {line : Int}

structure Passes (scan : Scan) (xs : List Lexeme) (s s' : Stretch) : Prop
    extends Reader.Advances scan xs s.reader s'.reader where
  passed : s'.passed = s.passed ++ xs.map Lexeme.token
  found : s'.found = s.found ++ Lexeme.unveiled xs scan.toList

theorem Passes.refl (h : s.reader.Faces ⟨rest, final⟩) : Passes ⟨rest, final⟩ [] s s :=
  ⟨.refl h, (List.append_nil _).symm, (List.append_nil _).symm⟩

theorem Passes.trans {xs ys : List Lexeme} (h : Passes ⟨ys ++ rest, final⟩ xs s s')
    (h' : Passes ⟨rest, final⟩ ys s' s'') : Passes ⟨rest, final⟩ (xs ++ ys) s s'' := by
  refine ⟨h.toAdvances.trans h'.toAdvances, ?_, ?_⟩
  · rw [h'.passed, h.passed, List.map_append, List.append_assoc]
  · rw [h'.found, h.found, Reader.unveiled_toList, List.append_assoc]

theorem passes_step {x : Lexeme} (h : s.reader.Faces ⟨x :: rest, final⟩) :
    Passes ⟨rest, final⟩ [x] s s.step := by
  have hfaults : s.reader.cursor.next.1.faults =
      Lexeme.unveiled [x] (Scan.toList ⟨rest, final⟩) := by
    rw [show s.reader.cursor.next.1 = _ from h.call 0, Scan.faults_lexemeAt]
    rfl
  refine ⟨⟨?_, ?_⟩, ?_, ?_⟩
  · exact ⟨h.next, congrArg Lexeme.token (h.call 0), fun n => h.call (n + 1)⟩
  · exact congrArg _ (congrArg _ hfaults)
  · exact congrArg (fun t => s.passed ++ [t]) h.current
  · exact congrArg _ hfaults

theorem passes_passLine {follow : Lexeme} {group later : List Lexeme}
    (h : s.reader.AtRow line group rest final follow later) :
    Passes ⟨rest, final⟩ group s (s.passLine line) := by
  induction group generalizing s with
  | nil =>
      rw [passLine, h.current_eq_follow, h.onLine_follow, if_neg Bool.false_ne_true]
      exact .refl h.faces
  | cons x group ih =>
      have hstep := passes_step h.faces
      have hnext : s.step.reader.AtRow line group rest final follow later :=
        .after [x] h hstep.faces
      rw [passLine, if_pos h.onLine_current]
      exact hstep.trans (ih hnext)

end Stretch

/-!
## Rounds of a row
-/

theorem Row.eventsOnto_eq (line : Int) (follow : Sighting) (failed : Bool) :
    (seen : List Sighting) -> (done : List Event) ->
    eventsOnto done line follow failed seen =
      done.reverse ++ eventsOnto [] line follow failed seen
  | [], done => (List.append_nil _).symm
  | [start], done => rfl
  | name :: colon :: rest, done => by
      rw [eventsOnto, eventsOnto]
      dsimp only
      split
      · split
        · rfl
        · rw [eventsOnto_eq line follow failed rest (_ :: _ ++ done),
            eventsOnto_eq line follow failed rest (_ :: _ ++ [])]
          simp
      · rfl

namespace Reader

def passed (r : Reader) : List Token :=
  r.rounds.flatMap fun round => round.passed

def events (r : Reader) : List Event :=
  r.rounds.flatMap Round.events

/-- The lexemes in front of the scan are passed in rounds that give the events. -/
structure Takes (scan : Scan) (xs : List Lexeme) (events : List Event) (r r' : Reader) :
    Prop extends Advances scan xs r r' where
  passed : r.passed = xs.map Lexeme.token ++ r'.passed
  events : r.events = events ++ r'.events

variable {r r' r'' : Reader} {scan : Scan} {rest : List Lexeme} {final : Lexeme}

theorem Takes.refl (h : r.Faces ⟨rest, final⟩) : Takes ⟨rest, final⟩ [] [] r r :=
  ⟨.refl h, rfl, rfl⟩

theorem Takes.trans {xs ys : List Lexeme} {events more : List Event}
    (h : Takes ⟨ys ++ rest, final⟩ xs events r r') (h' : Takes ⟨rest, final⟩ ys more r' r'') :
    Takes ⟨rest, final⟩ (xs ++ ys) (events ++ more) r r'' := by
  refine ⟨h.toAdvances.trans h'.toAdvances, ?_, ?_⟩
  · rw [h.passed, h'.passed, List.map_append, List.append_assoc]
  · rw [h.events, h'.events, List.append_assoc]

theorem takes_round {round : Round} {xs : List Lexeme} (hround : r.round = round)
    (hkind : r.current.kind ≠ .endOfInput)
    (hpasses : Stretch.Passes scan xs (.start r) round.toStretch) :
    Takes scan xs ((Lexeme.unveiled xs scan.toList).map .report ++ round.own.toList)
      r round.reader := by
  refine ⟨hpasses.toAdvances, ?_, ?_⟩
  · unfold passed
    rw [rounds_eq hkind, List.flatMap_cons, hround, hpasses.passed]
    rfl
  · unfold events
    rw [rounds_eq hkind, List.flatMap_cons, hround, Round.events, hpasses.found]
    rfl

/-!
Whether a line is known to be bad depends on what was known before and on what comes to
light.
-/

theorem contains_append_lines (bad : List Int) (line : Int) (found : List Diagnostic) :
    (bad ++ found.map fun d => d.position.line).contains line =
      (bad.contains line || Row.pointsTo line found) := by
  rw [Bool.eq_iff_iff, Bool.or_eq_true, List.contains_iff_mem, List.mem_append,
    List.mem_map, List.contains_iff_mem, Row.pointsTo_iff]

theorem Advances.contains_bad {xs : List Lexeme} (h : Advances scan xs r r') (line : Int) :
    r'.bad.contains line =
      (r.bad.contains line || Row.pointsTo line (Lexeme.unveiled xs scan.toList)) := by
  rw [h.bad, contains_append_lines]

variable {line : Int} {x name colon follow : Lexeme} {group later : List Lexeme}

theorem takes_whole (h : r.AtRow line (x :: group) rest final follow later)
    (hlabel : (r.next.onLine line && Grammar.isLabel r.current r.next) = false) :
    Takes ⟨rest, final⟩ (x :: group)
      (Row.lastEvents line (.of follow later) (r.bad.contains line)
        (.of x (group ++ follow :: later)) (Sighting.all group (follow :: later)))
      r ((Stretch.start r).passLine line).reader := by
  let whole := (Stretch.start r).passLine line
  have hpasses : Stretch.Passes ⟨rest, final⟩ (x :: group) (.start r) whole :=
    Stretch.passes_passLine h
  have hround : r.round = ⟨whole, if whole.reader.bad.contains line then none
      else some (Grammar.eventOf
        (Grammar.statement follow.token x.token (group.map Lexeme.token)))⟩ := by
    have hmore : whole.passed.drop 1 = group.map Lexeme.token := by
      rw [hpasses.passed]
      rfl
    have hend : whole.reader.AtRow line [] rest final follow later :=
      .after (x :: group) (List.append_nil (x :: group) ▸ h) hpasses.faces
    rw [round_of_no_label h.onLine_current hlabel, ← h.current_eq, ← hend.current_eq_follow,
      ← hmore]
  have htakes := takes_round hround (Token.kind_ne_of_onLine h.onLine_current) hpasses
  rw [hpasses.contains_bad, Scan.toList, h.rest_eq, ← Row.unveiled_eq,
    apply_ite Option.toList] at htakes
  rw [Row.lastEvents_eq, Sighting.map_token_all, ← Sighting.all]
  exact htakes

/-!
By the time a label is passed, two more lexemes have come to light.  The rest of the line
is given up if one of them has a diagnostic on the line.
-/

theorem passes_label (h : r.AtRow line (name :: colon :: group) rest final follow later) :
    Stretch.Passes ⟨group ++ rest, final⟩ [name, colon] (.start r)
      (Stretch.start r).step.step := by
  have hname : Stretch.Passes ⟨[colon] ++ (group ++ rest), final⟩ [name] (.start r)
      (Stretch.start r).step := Stretch.passes_step h.faces
  exact hname.trans (Stretch.passes_step hname.faces)

theorem atRow_after_label
    (h : r.AtRow line (name :: colon :: group) rest final follow later) :
    (Stretch.start r).step.step.reader.AtRow line group rest final follow later :=
  .after [name, colon] h (passes_label h).faces

theorem contains_bad_label
    (h : r.AtRow line (name :: colon :: group) rest final follow later) :
    (Stretch.start r).step.step.reader.bad.contains line =
      (r.bad.contains line ||
        Row.pointsTo line (((group ++ follow :: later).take 2).flatMap Lexeme.faults)) := by
  rw [(passes_label h).contains_bad, (atRow_after_label h).toList_eq]
  rfl

theorem round_label (h : r.AtRow line (name :: colon :: group) rest final follow later)
    (hlabel : Grammar.isLabel name.token colon.token = true) :
    r.round =
      let label := (Stretch.start r).step.step
      if label.reader.bad.contains line then ⟨label.passLine line, none⟩
      else ⟨label, some (.statement ⟨.label name.token.text, name.token.position⟩)⟩ := by
  have hnext : r.next = colon.token := h.faces.next
  have hcolon := h.onLine colon (List.mem_cons_of_mem _ (List.mem_cons_self ..))
  have hround := round_of_label h.onLine_current
    (by rw [h.current_eq, hnext, hcolon, hlabel, Bool.and_self])
  rw [h.current_eq] at hround
  exact hround

theorem takes_label (h : r.AtRow line (name :: colon :: group) rest final follow later)
    (hlabel : Grammar.isLabel name.token colon.token = true)
    (hbad : (Stretch.start r).step.step.reader.bad.contains line = false) :
    Takes ⟨group ++ rest, final⟩ [name, colon]
      ((((group ++ follow :: later).take 2).flatMap Lexeme.faults).map .report ++
        [.statement ⟨.label name.token.text, name.token.position⟩])
      r (Stretch.start r).step.step.reader := by
  have hround := round_label h hlabel
  simp only [hbad, if_neg Bool.false_ne_true] at hround
  have htakes := takes_round hround (Token.kind_ne_of_onLine h.onLine_current)
    (passes_label h)
  rw [(atRow_after_label h).toList_eq] at htakes
  exact htakes

theorem takes_bad_label (h : r.AtRow line (name :: colon :: group) rest final follow later)
    (hlabel : Grammar.isLabel name.token colon.token = true)
    (hbad : (Stretch.start r).step.step.reader.bad.contains line = true) :
    Takes ⟨rest, final⟩ (name :: colon :: group)
      ((Row.unveiled (.of follow later)
        (Sighting.all (name :: colon :: group) (follow :: later))).map .report)
      r ((Stretch.start r).step.step.passLine line).reader := by
  have hround := round_label h hlabel
  simp only [hbad, if_pos] at hround
  have htakes := takes_round hround (Token.kind_ne_of_onLine h.onLine_current)
    ((passes_label h).trans (Stretch.passes_passLine (atRow_after_label h)))
  rw [Scan.toList, h.rest_eq, Option.toList_none, List.append_nil] at htakes
  rw [Row.unveiled_eq]
  exact htakes

/-- The rounds of a row give its events. -/
theorem AtRow.exists_takes : (group : List Lexeme) -> {r : Reader} ->
    r.AtRow line group rest final follow later ->
    ∃ r', Takes ⟨rest, final⟩ group
      (Row.eventsOnto [] line (.of follow later) (r.bad.contains line)
        (Sighting.all group (follow :: later))) r r'
  | [], r, h => ⟨r, .refl h.faces⟩
  | [x], r, h => by
      have hnext : r.next.onLine line = false := by
        rw [h.faces.next, Scan.lexemeAt, h.toList_eq]
        exact h.onLine_follow
      exact ⟨_, takes_whole h (by rw [hnext]; rfl)⟩
  | name :: colon :: group, r, h => by
      rw [Row.eventsOnto_all, ← contains_bad_label h]
      cases hlabel : Grammar.isLabel name.token colon.token with
      | false =>
          have hnone : (r.next.onLine line && Grammar.isLabel r.current r.next) = false := by
            rw [h.faces.current, h.faces.next]
            exact (congrArg _ hlabel).trans (Bool.and_false _)
          exact ⟨_, takes_whole h hnone⟩
      | true =>
          cases hbad : (Stretch.start r).step.step.reader.bad.contains line with
          | true => exact ⟨_, takes_bad_label h hlabel hbad⟩
          | false =>
              -- Nothing was known before the label either, so the rest goes on as before.
              have hfailed : r.bad.contains line = false :=
                (Bool.or_eq_false_iff.mp ((contains_bad_label h).symm.trans hbad)).1
              rcases exists_takes group (atRow_after_label h) with ⟨r', hrest⟩
              rw [hbad] at hrest
              rw [if_pos rfl, if_neg Bool.false_ne_true, hfailed, Row.eventsOnto_eq,
                List.cons_append, List.append_nil, List.reverse_cons, List.reverse_reverse]
              exact ⟨r', (takes_label h hlabel hbad).trans hrest⟩

end Reader

/-!
## Whole sources
-/

namespace Passage

variable {scan : Scan} {line : Int}

theorem onLine_of_mem (p : Passage scan line)
    (hkinds : ∀ x ∈ scan.lexemes, x.token.kind ≠ .endOfInput) {x : Lexeme}
    (hx : x ∈ p.group) : x.token.onLine line = true := by
  have hmem : x ∈ scan.lexemes := by
    rw [p.lexemes_eq]
    exact List.mem_append_left _ (List.mem_append_right _ hx)
  simp [Token.onLine, hkinds x hmem, p.line_of_group x hx]

theorem onLine_follow (p : Passage scan line)
    (hfinal : scan.final.token.kind = .endOfInput) :
    p.follow.token.onLine line = false := by
  unfold follow
  cases hrest : p.rest with
  | nil => simp [Token.onLine, hfinal]
  | cons x more =>
      have hline := p.line_of_rest x (by rw [hrest]; exact List.mem_cons_self ..)
      simp [Token.onLine, Int.ne_of_gt hline]

theorem badLines_row (p : Passage scan line) :
    p.row.badLines = (Lexeme.unveiled p.group (p.rest ++ [scan.final])).map
      fun d => d.position.line := by
  rcases List.exists_cons_of_ne_nil p.group_ne with ⟨x, more, hgroup⟩
  rw [Row.badLines, row, hgroup, Row.unveiled_eq, p.rest_eq]

end Passage

namespace Reader

open Script (Stands turnsFrom)

/-- From passage to passage, the reader gives the events of the turns. -/
theorem passed_and_events {scan : Scan} {behind ahead : List Lexeme} {bad : List Int}
    (h : Stands scan behind ahead bad)
    (hkinds : ∀ x ∈ scan.lexemes, x.token.kind ≠ .endOfInput)
    (hfinal : scan.final.token.kind = .endOfInput) {r : Reader}
    (hfaces : r.Faces ⟨ahead, scan.final⟩) (hbad : ∀ m, m ∈ r.bad ↔ m ∈ bad) :
    r.passed = ahead.map Lexeme.token ∧
      r.events = (turnsFrom bad (Row.ofScan ⟨ahead, scan.final⟩)).flatMap
        Script.Turn.events := by
  induction h using Stands.induction generalizing r with
  | nil h =>
      have hend : r.current.kind = .endOfInput := by
        rw [hfaces.current]
        exact hfinal
      unfold passed events
      rw [rounds_of_end hend]
      exact ⟨rfl, rfl⟩
  | @passage line bad p h ih =>
      rcases AtRow.exists_takes p.group ⟨hfaces, fun x hx => p.onLine_of_mem hkinds hx,
        p.rest_eq, p.onLine_follow hfinal⟩ with ⟨r', htakes⟩
      -- The reader adds bad lines at the end and a turn in front, so both have the same
      -- lines but not the same list.
      have hbad' : ∀ m, m ∈ r'.bad ↔ m ∈ p.row.badLines ++ bad := by
        intro m
        rw [htakes.bad, p.badLines_row, List.mem_append, List.mem_append, hbad, or_comm]
        rfl
      have hcontains : r.bad.contains line = bad.contains line := by
        rw [Bool.eq_iff_iff, List.contains_iff_mem, List.contains_iff_mem, hbad]
      rcases ih htakes.faces hbad' with ⟨hpassed, hevents⟩
      constructor
      · rw [htakes.passed, hpassed, List.map_append]
      · rw [htakes.events, hevents, Script.turnsFrom_passage, List.flatMap_cons,
          p.events_turn, hcontains]

theorem passed_and_events_start (t : Text) :
    (start t).passed = (Scan.ofText t).words ∧
      (start t).events = (Script.ofText t).events := by
  let scan := Scan.ofText t
  have hkinds : ∀ x ∈ scan.lexemes, x.token.kind ≠ .endOfInput := by
    intro x hx
    rcases Scan.exists_accounts t with ⟨pieces, haccounts⟩
    exact (haccounts.exists_index (List.mem_map_of_mem hx)).1
  have hfinal : scan.final.token.kind = .endOfInput :=
    congrArg Token.kind (Scan.final_onto [] [] .start t)
  have hstands := Script.stands_start (Scan.ordered_ofText t)
  have hevents : (Script.ofText t).events =
      (Script.turns scan).flatMap Script.Turn.events := Script.events_ofScan scan
  rw [hevents]
  exact passed_and_events hstands hkinds hfinal (faces_start t) (fun m => by rw [bad_start])

end Reader

theorem Event.length_own (events : List Event) :
    (events.filterMap Event.statement?).length +
        ((events.filter Event.isOwn).filterMap Event.diagnostic?).length =
      (events.filter Event.isOwn).length := by
  induction events with
  | nil => rfl
  | cons e events ih =>
      cases e with
      | statement s =>
          have hstatement : (statement s).statement? = some s := rfl
          have hdiagnostic : (statement s).diagnostic? = none := rfl
          rw [List.filterMap_cons_some hstatement, List.filter_cons_of_pos rfl,
            List.filterMap_cons_none hdiagnostic, List.length_cons, List.length_cons, ← ih]
          omega
      | report d =>
          have hstatement : (report d).statement? = none := rfl
          have hdiagnostic : (report d).diagnostic? = some d := rfl
          rw [List.filterMap_cons_none hstatement]
          by_cases hown : (report d).isOwn = true
          · rw [List.filter_cons_of_pos hown, List.filterMap_cons_some hdiagnostic,
              List.length_cons, List.length_cons, ← ih]
            rfl
          · rw [List.filter_cons_of_neg hown]
            exact ih

/-- Every call of the scanner in front of the end takes at least one character, and every
round of the reader takes at least one token from what is ahead and gives, besides lexical
diagnostics, at most one statement or one diagnostic.  From the beginning of a source to
its end, the rounds pass all tokens and give all events of the script.  So there are no
more statements and diagnostics of the grammar than rounds, no more rounds than tokens and
no more tokens than characters, and a run that may ask once more than there are tokens
comes to its end. -/
theorem reading_makes_progress (t : Text) :
    let words := (Scan.ofText t).words
    let reader := Reader.start t
    let script := Script.ofText t
    (∀ c : Scan.Cursor, c.rest ≠ [] ->
        ∃ used, used ≠ [] ∧ c.rest = used ++ c.next.2.rest) ∧
      (∀ r : Reader, r.current.kind ≠ .endOfInput ->
        r.round.passed ≠ [] ∧ r.round.passed.length + r.round.reader.size ≤ r.size ∧
          r.round.events.filter Event.isOwn = r.round.own.toList) ∧
      reader.passed = words ∧ reader.events = script.events ∧
      script.statements.length +
          (script.diagnostics.filter fun d => d.kind ≠ .lexical).length ≤
        reader.rounds.length ∧
      reader.rounds.length ≤ words.length ∧ words.length ≤ t.length ∧
      ∀ options, assembleWithin options (words.length + 1) t =
        .finished (assemble options t) := by
  intro words reader script
  have hpassed : reader.passed = words := (Reader.passed_and_events_start t).1
  have hevents : reader.events = script.events := (Reader.passed_and_events_start t).2
  have hcount : script.statements.length +
      (script.diagnostics.filter fun d => d.kind ≠ .lexical).length ≤
        reader.rounds.length := by
    rw [Script.statements, Script.diagnostics_own, Event.length_own, ← hevents]
    exact reader.length_own_rounds_le
  have hrounds : reader.rounds.length ≤ words.length := by
    rw [← hpassed]
    exact reader.length_rounds_le
  have hwords : words.length ≤ t.length := by
    rw [← hpassed]
    exact Nat.le_trans reader.length_passed_rounds_le (Reader.size_start_le t)
  refine ⟨fun c => Scan.Cursor.exists_used, ?_, hpassed, hevents, hcount, hrounds, hwords,
    ?_⟩
  · intro r h
    exact ⟨Reader.passed_round_ne_nil h, Reader.extent_round_le h, Reader.own_events_round h⟩
  · intro options
    apply Session.runWithin_eq_finished
    change script.statements.length < words.length + 1
    omega

/-- Two labels in front of a malformed character, a line that is refused at its first
token, and a label in front of a number.  The third round passes the rest of its line in
silence. -/
theorem reading_makes_progress_with_faults :
    let t := "l: m: lda #'\n)) x\nc: 7".toList
    let reader := Reader.start t
    reader.current.kind ≠ .endOfInput ∧ reader.round.passed ≠ [] ∧
      reader.round.passed.length + reader.round.reader.size ≤ reader.size ∧
      reader.rounds.map (fun round => (round.passed.length, round.own.isSome)) =
        [(2, true), (2, true), (2, false), (3, true), (2, true), (1, true)] ∧
      reader.passed.length = 12 ∧ 12 ≤ t.length := by
  intro t reader
  have hkind : reader.current.kind ≠ .endOfInput := by decide +kernel
  have hlength : (Scan.ofText t).words.length = 12 := by decide +kernel
  rcases reading_makes_progress t with ⟨_, hround, hpassed, _, _, _, hwords, _⟩
  refine ⟨hkind, (hround reader hkind).1, (hround reader hkind).2.1, by decide +kernel, ?_, ?_⟩
  · rw [hpassed, hlength]
  · rw [← hlength]
    exact hwords

end Asm6502

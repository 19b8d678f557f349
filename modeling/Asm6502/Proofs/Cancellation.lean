import Asm6502.Proofs.Acceptance
import Asm6502.Proofs.LaidOut
import Asm6502.Proofs.Located

/-!
# Cancelled runs

A run asks for one statement after another and may be told to stop whenever it asks.
Asking that finds the end counts as well, so a run over some statements asks once more
than there are statements.  What a run reports is never taken back: one that may ask more
often reports the same and perhaps more, up to the run that is not cancelled at all.
-/

namespace Asm6502

namespace Outcome

def isCancelled : Outcome -> Bool
  | finished _ => false
  | cancelled _ => true

def result? : Outcome -> Option Result
  | finished result => some result
  | cancelled _ => none

/-- Everything that was reported while the run went on. -/
def sent : Outcome -> List Diagnostic
  | finished result => result.diagnostics
  | cancelled reported => reported

theorem result?_of_isCancelled {outcome : Outcome} (h : outcome.isCancelled = true) :
    outcome.result? = none := by
  cases outcome with
  | finished result => cases h
  | cancelled reported => rfl

end Outcome

/-!
## Reports are not taken back
-/

namespace Session

theorem isPrefix_report (session : Session) (d : Diagnostic) :
    session.diagnostics.toList <+: (session.report d).diagnostics.toList := by
  rw [report, Array.toList_push]
  exact List.prefix_append ..

theorem isPrefix_emit (options : Options) (session : Session) (s : Statement) :
    session.diagnostics.toList <+: (session.emit options s).diagnostics.toList := by
  cases heffect : session.image.effect options.filler s with
  | ok e =>
      have hsame : (session.emit options s).diagnostics = session.diagnostics := by
        rw [emit_of_ok heffect]
      exact hsame ▸ List.prefix_rfl
  | error d =>
      rw [emit_of_error heffect]
      exact session.isPrefix_report d

theorem isPrefix_finish (session : Session) :
    session.diagnostics.toList <+: session.finish.diagnostics.toList := by
  rw [toList_diagnostics_finish, List.append_assoc]
  exact List.prefix_append ..

/-!
## One statement after another
-/

/-- Seeking a statement passes all events in front of it: there is none and the events
are used up, or it is the first one of them. -/
theorem seek_cases (options : Options) (session : Session) (events : List Event) :
    (∃ last, session.seek events = (last, none) ∧
        events.foldl (handle options) session = last ∧
        (events.filterMap Event.statement?).length = 0 ∧
        session.diagnostics.toList <+: last.diagnostics.toList) ∨
      ∃ next s rest, session.seek events = (next, some (s, rest)) ∧
        events.foldl (handle options) session =
          rest.foldl (handle options) (next.emit options s) ∧
        (events.filterMap Event.statement?).length =
          (rest.filterMap Event.statement?).length + 1 ∧
        session.diagnostics.toList <+: next.diagnostics.toList := by
  induction events generalizing session with
  | nil => exact .inl ⟨session, rfl, rfl, rfl, List.prefix_rfl⟩
  | cons e rest ih =>
      cases e with
      | statement s => exact .inr ⟨session, s, rest, rfl, rfl, rfl, List.prefix_rfl⟩
      | report d =>
          have hreport := session.isPrefix_report d
          rcases ih (session.report d) with
            ⟨last, hseek, hrun, hcount, hkept⟩ |
              ⟨next, s, later, hseek, hrun, hcount, hkept⟩
          · exact .inl ⟨last, hseek, hrun, hcount, hreport.trans hkept⟩
          · exact .inr ⟨next, s, later, hseek, hrun, hcount, hreport.trans hkept⟩

variable (options : Options) {limit : Nat} {session : Session} {events : List Event}

theorem runWithin_of_end {last : Session} (h : session.seek events = (last, none)) :
    runWithin options (limit + 1) session events =
      .finished (.ofSession options last.finish) := by
  rw [runWithin, h]

theorem runWithin_of_statement {next : Session} {s : Statement} {rest : List Event}
    (h : session.seek events = (next, some (s, rest))) :
    runWithin options (limit + 1) session events =
      runWithin options limit (next.emit options s) rest := by
  rw [runWithin, h]

theorem isCancelled_runWithin
    (h : limit ≤ (events.filterMap Event.statement?).length) :
    (runWithin options limit session events).isCancelled = true := by
  induction limit generalizing session events with
  | zero => rfl
  | succ limit ih =>
      rcases seek_cases options session events with
        ⟨last, _, _, hcount, _⟩ | ⟨next, s, rest, hseek, _, hcount, _⟩
      · omega
      · rw [runWithin_of_statement options hseek]
        exact ih (by omega)

theorem runWithin_eq_finished
    (h : (events.filterMap Event.statement?).length < limit) :
    runWithin options limit session events =
      .finished (.ofSession options (events.foldl (handle options) session).finish) := by
  induction limit generalizing session events with
  | zero => cases h
  | succ limit ih =>
      rcases seek_cases options session events with
        ⟨last, hseek, hrun, _, _⟩ | ⟨next, s, rest, hseek, hrun, hcount, _⟩
      · rw [runWithin_of_end options hseek, hrun]
      · rw [runWithin_of_statement options hseek, hrun]
        exact ih (by omega)

theorem isPrefix_sent (limit : Nat) (session : Session) (events : List Event) :
    session.diagnostics.toList <+: (runWithin options limit session events).sent := by
  induction limit generalizing session events with
  | zero => exact List.prefix_rfl
  | succ limit ih =>
      rcases seek_cases options session events with
        ⟨last, hseek, _, _, hkept⟩ | ⟨next, s, rest, hseek, _, _, hkept⟩
      · rw [runWithin_of_end options hseek]
        exact hkept.trans last.isPrefix_finish
      · rw [runWithin_of_statement options hseek]
        exact (hkept.trans (next.isPrefix_emit options s)).trans (ih _ _)

/-- A run that may ask more often reports the same and perhaps more. -/
theorem sent_mono {more : Nat} (h : limit ≤ more) (session : Session)
    (events : List Event) :
    (runWithin options limit session events).sent <+:
      (runWithin options more session events).sent := by
  -- Both runs take the same steps until the shorter one is cancelled.
  induction limit generalizing more session events with
  | zero => exact isPrefix_sent options more session events
  | succ limit ih =>
      cases more with
      | zero => cases h
      | succ more =>
          rcases seek_cases options session events with
            ⟨last, hseek, _, _, _⟩ | ⟨next, s, rest, hseek, _, _, _⟩
          · have hsame : runWithin options (limit + 1) session events =
                runWithin options (more + 1) session events :=
              (runWithin_of_end options hseek).trans (runWithin_of_end options hseek).symm
            exact hsame ▸ List.prefix_rfl
          · rw [runWithin_of_statement options hseek, runWithin_of_statement options hseek]
            exact ih (Nat.le_of_succ_le_succ h) _ _

end Session

/-!
## Whole runs
-/

/-- A run that may ask for a statement, or for the end, `limit` times is cancelled if and
only if the source has at least that many statements.  A cancelled run hands over no
result, and any other the result of a run that is never cancelled.  What a run has
reported when it is cancelled is what the run that goes on reports first. -/
theorem cancelled_iff_le_statements (options : Options) (limit : Nat) (source : Text) :
    let outcome := assembleWithin options limit source
    (outcome.isCancelled = true ↔ limit ≤ (Script.ofText source).statements.length) ∧
      outcome.result? =
        (if outcome.isCancelled then none else some (assemble options source)) ∧
      outcome.sent <+: (assemble options source).diagnostics := by
  intro outcome
  let count := (Script.ofText source).statements.length
  have hcount : count = ((Script.ofText source).events.filterMap Event.statement?).length :=
    rfl
  have hfinished : ∀ {n}, count < n ->
      assembleWithin options n source = .finished (assemble options source) := by
    intro n hn
    exact Session.runWithin_eq_finished options (hcount ▸ hn)
  have hsent : outcome.sent <+: (assemble options source).diagnostics := by
    have hmono := Session.sent_mono options (Nat.le_max_left limit (count + 1))
      (.start options (Script.ofText source).opening) (Script.ofText source).events
    change outcome.sent <+: (assembleWithin options _ source).sent at hmono
    rw [hfinished (Nat.le_max_right limit (count + 1))] at hmono
    exact hmono
  by_cases hlimit : limit ≤ count
  · have hcancelled : outcome.isCancelled = true :=
      Session.isCancelled_runWithin options (hcount ▸ hlimit)
    refine ⟨iff_of_true hcancelled hlimit, ?_, hsent⟩
    rw [hcancelled, if_pos rfl]
    exact Outcome.result?_of_isCancelled hcancelled
  · have houtcome : outcome = .finished (assemble options source) :=
      hfinished (Nat.lt_of_not_le hlimit)
    rw [houtcome] at hsent ⊢
    exact ⟨iff_of_false Bool.false_ne_true hlimit, rfl, hsent⟩

/-- Two statements with a bad line between them, and a name that is never bound.  The run
asks three times, the last time for the end. -/
example :
    let source := "nop\nlda #@\njmp foo".toList
    [0, 1, 2, 3].map (fun n =>
      let outcome := assembleWithin {} n source
      (outcome.isCancelled, outcome.sent.length)) =
      [(true, 0), (true, 0), (true, 1), (false, 2)] := by
  decide +kernel

end Asm6502

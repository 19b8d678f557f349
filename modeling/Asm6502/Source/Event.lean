import Asm6502.Source.Grammar
import Asm6502.Source.Scan

/-!
# Events

Reading a source gives a sequence of events: statements, and diagnostics in the
order in which they come to light.  The reader looks two tokens ahead, so the
diagnostics of a lexeme come to light when the token before it becomes the
current one.  A line on which a lexical diagnostic has come to light gives no
further statement and no diagnostic of the grammar.
-/

namespace Asm6502

inductive Event where
  | report (diagnostic : Diagnostic)
  | statement (statement : Statement)
  deriving DecidableEq

def Event.statement? : Event -> Option Statement
  | .statement s => some s
  | .report _ => none

def Event.diagnostic? : Event -> Option Diagnostic
  | .statement _ => none
  | .report d => some d

/-!
## Rows
-/

/-- A token with the diagnostics of the lexeme after it. -/
structure Sighting where
  token : Token
  ahead : List Diagnostic
  deriving DecidableEq

structure Row where
  sightings : List Sighting
  follow : Sighting
  deriving DecidableEq

namespace Row

def sightingsOf (scan : Scan) : List Sighting :=
  List.zipWith (fun here next => ⟨here.token, next.faults⟩) scan.lexemes
    (scan.toList.drop 1)

/-- The rows of a scan: neighbouring tokens of one line belong together. -/
def ofScan (scan : Scan) : List Row :=
  let final : Sighting := ⟨scan.final.token, []⟩
  let groups := (sightingsOf scan).splitBy fun s t =>
    s.token.position.line == t.token.position.line
  List.zipWith Row.mk groups
    ((groups.drop 1).map (fun group => group.headD final) ++ [final])

/-- What comes to light by the time the first of the tokens, and all after it,
have been passed. -/
def unveiled (follow : Sighting) (ts : List Sighting) : List Diagnostic :=
  (ts.drop 1 ++ [follow]).flatMap Sighting.ahead

def pointsTo (line : Int) (ds : List Diagnostic) : Bool :=
  ds.any fun d => d.position.line == line

/-!
A row begins with any number of labels, each of which is a statement of its own;
whatever is left makes one statement.  `failed` tells whether a lexical
diagnostic on the line is known, and the events found are kept last first.
-/

/-- The events of the last statement of a row, or of its one diagnostic. -/
def lastEvents (line : Int) (follow : Sighting) (failed : Bool)
    (start : Sighting) (rest : List Sighting) : List Event :=
  let found := unveiled follow (start :: rest)
  let outcome :=
    if failed || pointsTo line found then []
    else
      match Grammar.statement follow.token start.token
          (rest.map Sighting.token) with
      | .ok s => [.statement s]
      | .error d => [.report d]
  found.map .report ++ outcome

def eventsOnto (done : List Event) (line : Int) (follow : Sighting)
    (failed : Bool) : List Sighting -> List Event
  | [] => done.reverse
  | [start] => done.reverse ++ lastEvents line follow failed start []
  | name :: colon :: rest =>
      if Grammar.isLabel name.token colon.token then
        let found := colon.ahead ++ (rest.headD follow).ahead
        if failed || pointsTo line found then
          done.reverse ++ (unveiled follow (name :: colon :: rest)).map .report
        else
          let label : Event :=
            .statement ⟨.label name.token.text, name.token.position⟩
          eventsOnto (label :: (found.map .report).reverse ++ done) line follow
            failed rest
      else done.reverse ++ lastEvents line follow failed name (colon :: rest)

def line (row : Row) : Int :=
  (row.sightings.headD row.follow).token.position.line

def events (bad : List Int) (row : Row) : List Event :=
  eventsOnto [] row.line row.follow (bad.contains row.line) row.sightings

def badLines (row : Row) : List Int :=
  (unveiled row.follow row.sightings).map fun d => d.position.line

end Row

/-!
## Readings of a source
-/

/-- A source as it is read: what comes to light before the first statement is
asked for, and what happens afterwards. -/
structure Script where
  opening : List Diagnostic
  events : List Event
  deriving DecidableEq

namespace Script

structure Progress where
  bad : List Int
  events : Array Event

def Progress.step (p : Progress) (row : Row) : Progress :=
  { bad := row.badLines ++ p.bad
    events := p.events ++ row.events p.bad }

def ofScan (scan : Scan) : Script :=
  let opening := (scan.toList.take 2).flatMap Lexeme.faults
  let begin : Progress := ⟨opening.map fun d => d.position.line, #[]⟩
  ⟨opening, ((Row.ofScan scan).foldl Progress.step begin).events.toList⟩

def ofText (t : Text) : Script :=
  ofScan (Scan.ofText t)

def toList (script : Script) : List Event :=
  script.opening.map .report ++ script.events

def statements (script : Script) : List Statement :=
  script.events.filterMap Event.statement?

def diagnostics (script : Script) : List Diagnostic :=
  script.toList.filterMap Event.diagnostic?

def countedOnto (done : List (Statement × Nat)) (known : Nat) :
    List Event -> List (Statement × Nat)
  | [] => done.reverse
  | .report _ :: rest => countedOnto done (known + 1) rest
  | .statement s :: rest => countedOnto ((s, known) :: done) known rest

def counted (script : Script) : List (Statement × Nat) :=
  countedOnto [] 0 script.toList

end Script
end Asm6502

import Asm6502.Assembly.Directive
import Asm6502.Assembly.Selection
import Asm6502.Source.Event

/-!
# Assembling a source

The events of a source are handled one by one: a diagnostic is collected, a
statement has its effect on the image or adds a diagnostic of its own.  At the
end the fixups are filled in and the names that stay pending are reported.
-/

namespace Asm6502

structure Options where
  strict : Bool := false
  origin : Int := 0
  filler : UInt8 := 0xEA

def Image.effect (image : Image) (initial : UInt8) (s : Statement) :
    Except Diagnostic Effect :=
  match s.body with
  | .label name => image.define? s.position name ⟨.label, image.pc⟩
  | .instruction operation operands =>
      image.instructionEffect s.position operands operation
  | .directive name operands =>
      match Directive.ofName? name with
      | none => .error (directiveFault s.position (.unknown name))
      | some d => image.directiveEffect initial d ⟨name, s.position, operands⟩

/-!
## Sessions
-/

structure Session where
  image : Image
  diagnostics : Array Diagnostic

namespace Session

def start (options : Options) (opening : List Diagnostic) : Session :=
  ⟨.start options.origin options.filler, opening.toArray⟩

def report (session : Session) (d : Diagnostic) : Session :=
  { session with diagnostics := session.diagnostics.push d }

/-- A statement that fails leaves the image as it is. -/
def emit (options : Options) (session : Session) (s : Statement) : Session :=
  match session.image.effect options.filler s with
  | .ok effect => { session with image := session.image.apply effect }
  | .error d => session.report d

def handle (options : Options) (session : Session) : Event -> Session
  | .report d => session.report d
  | .statement s => session.emit options s

def finish (session : Session) : Session :=
  let image := session.image
  let patched := Fixup.applyAll image.symbols image.bytes image.fixups.toList
  { image := { image with bytes := patched.code, fixups := #[] }
    diagnostics := session.diagnostics ++ patched.faults ++
      image.symbols.undefinedReports }

end Session

/-!
## Results
-/

structure Result where
  code : Array UInt8
  origin : Int
  diagnostics : List Diagnostic
  symbols : List Symbol
  /-- Whether the code was left out because of the diagnostics. -/
  withheld : Bool

namespace Result

/-- A strict run gives no code unless it is free of diagnostics. -/
def ofSession (options : Options) (session : Session) : Result :=
  let diagnostics := session.diagnostics.toList
  let withheld := options.strict && !diagnostics.isEmpty
  { code := if withheld then #[] else session.image.bytes
    origin := session.image.origin
    diagnostics := diagnostics
    symbols := session.image.symbols.symbols
    withheld := withheld }

def count (result : Result) (kind : Diagnostic.Kind) : Nat :=
  result.diagnostics.countP fun d => d.kind = kind

def joined? (result : Result) : Option String :=
  if result.diagnostics.isEmpty then none
  else some ("\n".intercalate (result.diagnostics.map Diagnostic.text))

def error? (result : Result) : Option String :=
  result.joined?.map fun text =>
    if result.withheld then "compilation failed in strict mode: " ++ text
    else text

end Result

/-!
## Runs
-/

def assemble (options : Options) (source : Text) : Result :=
  let script := Script.ofText source
  let session := script.events.foldl (Session.handle options)
    (Session.start options script.opening)
  .ofSession options session.finish

/-- Assembles several sources one after another.  Each is paired with the number
of diagnostics up to then. -/
def assembleAll (options : Options) (sources : List Text) :
    List (Result × Nat) :=
  let step (done : List (Result × Nat)) (source : Text) :=
    let result := assemble options source
    let before := (done.head?.map Prod.snd).getD 0
    (result, before + result.diagnostics.length) :: done
  (sources.foldl step []).reverse

/-!
## Cancellation

A run may be cancelled whenever it is about to ask for the next statement.
-/

inductive Outcome where
  | finished (result : Result)
  | cancelled (reported : List Diagnostic)

def cancelledMessage : String :=
  "assembly cancelled: context canceled"

namespace Session

/-- Goes on to the next statement.  The diagnostics on the way are collected; the
statement and the events after it are left to be handled. -/
def seek (session : Session) :
    List Event -> Session × Option (Statement × List Event)
  | [] => (session, none)
  | .report d :: rest => (session.report d).seek rest
  | .statement s :: rest => (session, some (s, rest))

/-- Goes on statement by statement.  A statement, or the end, may be asked for only
the given number of times. -/
def runWithin (options : Options) : Nat -> Session -> List Event -> Outcome
  | 0, session, _ => .cancelled session.diagnostics.toList
  | limit + 1, session, events =>
      match session.seek events with
      | (session, none) => .finished (.ofSession options session.finish)
      | (session, some (s, rest)) =>
          runWithin options limit (session.emit options s) rest

end Session

def assembleWithin (options : Options) (limit : Nat) (source : Text) :
    Outcome :=
  let script := Script.ofText source
  Session.runWithin options limit (.start options script.opening) script.events

/-!
## Traces
-/

structure TraceStep where
  statement : Option Statement
  /-- The image afterwards. -/
  image : Image
  emitted : List UInt8
  fixups : List Fixup
  diagnostics : List Diagnostic

def TraceStep.between (statement : Option Statement) (before after : Session) :
    TraceStep :=
  { statement := statement
    image := after.image
    emitted := after.image.bytes.toList.drop before.image.bytes.size
    fixups := after.image.fixups.toList.drop before.image.fixups.size
    diagnostics := after.diagnostics.toList.drop before.diagnostics.size }

/-- The steps so far, last first, the session after the last of them and the
session now. -/
structure Trace where
  steps : List TraceStep
  marked : Session
  session : Session

def Trace.handle (options : Options) (trace : Trace) (event : Event) : Trace :=
  let session := trace.session.handle options event
  match event with
  | .report _ => { trace with session := session }
  | .statement s =>
      { steps := .between (some s) trace.marked session :: trace.steps
        marked := session
        session := session }

def traceSteps (options : Options) (source : Text) : List TraceStep :=
  let script := Script.ofText source
  let trace := script.events.foldl (Trace.handle options)
    { steps := [], marked := .start options [],
      session := .start options script.opening }
  let last := TraceStep.between none trace.marked trace.session.finish
  (last :: trace.steps).reverse

end Asm6502

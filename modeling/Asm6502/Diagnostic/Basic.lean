import Asm6502.Diagnostic.Cause

/-!
# Diagnostics

A diagnostic is a cause at a position.
-/

namespace Asm6502

structure Diagnostic where
  cause : Diagnostic.Cause
  position : Position
  deriving DecidableEq

namespace Diagnostic

def kind (d : Diagnostic) : Kind :=
  d.cause.kind

def message (d : Diagnostic) : String :=
  d.cause.message

def text (d : Diagnostic) : String :=
  s!"line {d.position.line}, col {d.position.column}: " ++ d.message

def report (d : Diagnostic) : String :=
  d.kind.name ++ " error " ++ d.text ++ "\n"

end Diagnostic
end Asm6502

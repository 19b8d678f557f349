import Asm6502.Command.Arguments
import Asm6502.Command.Assemble
import Asm6502.Command.Disassemble

/-!
# Running commands

Reads the file that a request names, and carries out the plan made for it.
-/

namespace Asm6502
namespace Command

def reasonOf : IO.Error -> String
  | .noFileOrDirectory .. => "no such file or directory"
  | .permissionDenied .. => "permission denied"
  | e => toString e

def readFile (path : String) : IO (Except String (List UInt8)) := do
  try
    return .ok (<- IO.FS.readBinFile path).toList
  catch e =>
    return .error (openFailure path (reasonOf e))

def emit (report : Report) : IO UInt32 := do
  (<- IO.getStdout).putStr report.stdout
  (<- IO.getStderr).putStr report.stderr
  return report.exitCode

def carryOut : Plan -> IO UInt32
  | .finish report => emit report
  | .write path contents written failed => do
      let failure : Option String <-
        try
          IO.FS.writeBinFile path ⟨contents.toArray⟩
          pure none
        catch e => pure (some (reasonOf e))
      match failure with
      | none => emit written
      | some reason => emit (failed (openFailure path reason))

def run {Request : Type} (arguments : Arguments Request) (path : Request -> String)
    (plan : Request -> Except String (List UInt8) -> Plan) (words : List String) :
    IO UInt32 := do
  match arguments.request words with
  | .error report => emit report
  | .ok request => carryOut (plan request (<- readFile (path request)))

def runAssembler (arguments : Arguments AssembleRequest)
    (dump : List Symbol -> String) : List String -> IO UInt32 :=
  run arguments AssembleRequest.source (AssembleRequest.plan dump)

def runDisassembler (arguments : Arguments DisassembleRequest) :
    List String -> IO UInt32 :=
  run arguments DisassembleRequest.input DisassembleRequest.plan

end Command
end Asm6502

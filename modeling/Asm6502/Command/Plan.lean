import Asm6502.Text.Utf8

/-!
# Plans

A command decides what to do without doing it.  Its plan is either a report or
a file to write, with one report for success and one for failure.  Carrying out
a plan is left to the program around it.
-/

namespace Asm6502
namespace Command

structure Report where
  exitCode : UInt32 := 0
  stdout : String := ""
  stderr : String := ""
  deriving DecidableEq

inductive Plan where
  | finish (report : Report)
  | write (path : String) (contents : List UInt8) (written : Report)
      (failed : String -> Report)

def Report.fail (report : Report) (exitCode : UInt32) (message : String) :
    Report :=
  { report with exitCode := exitCode, stderr := report.stderr ++ message ++ "\n" }

def openFailure (path reason : String) : String :=
  "open " ++ path ++ ": " ++ reason

def Plan.writeOr (path : String) (contents : List UInt8) (written : Report)
    (otherwise : Report) : Plan :=
  .write path contents written fun failure =>
    otherwise.fail 1 ("Error writing output file: " ++ failure)

end Command
end Asm6502

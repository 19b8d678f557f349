import Asm6502.Command.Plan

/-!
# Arguments

A command takes a request from the words of its command line.  How options are
written is left to a reader of arguments; what a command does when that reader
gives no request is not.
-/

namespace Asm6502
namespace Command

/-- A reader of arguments.  It fails without a message if there are none. -/
structure Arguments (Request : Type) where
  read : List String -> Except (Option String) Request
  help : Report

def Arguments.request {Request : Type} (arguments : Arguments Request)
    (words : List String) : Except Report Request :=
  match arguments.read words with
  | .ok request => .ok request
  | .error none => .error { arguments.help with exitCode := 1 }
  | .error (some message) => .error (({} : Report).fail 1 ("Error: " ++ message))

end Command
end Asm6502

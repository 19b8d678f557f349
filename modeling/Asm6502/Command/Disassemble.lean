import Asm6502.Command.Address
import Asm6502.Command.Plan
import Asm6502.Disassembly.Listing

/-!
# The disassembler command

Reads a binary file and shows it as source text, or writes that to a file.
-/

namespace Asm6502
namespace Command

structure DisassembleRequest where
  input : String
  output : Option String := none
  origin : Text := ['0']
  listing : Bool := false

namespace DisassembleRequest

/-- What to do with the contents of the input file, or with the reason why it
could not be read.  The origin is looked at first. -/
def plan (request : DisassembleRequest) (file : Except String (List UInt8)) :
    Plan :=
  let failing (message : String) : Plan := .finish (({} : Report).fail 1 message)
  match Address.read request.origin with
  | .error fault => failing ("Invalid origin: " ++ fault.message)
  | .ok origin =>
      match file with
      | .error failure => failing ("Error reading input file: " ++ failure)
      | .ok code =>
          let style := if request.listing then Style.listing else .source
          match Disassembly.render style origin code with
          | .error misfit => failing ("Disassembly error: " ++ misfit.message)
          | .ok text =>
              match request.output with
              | none => .finish { stdout := String.ofList text }
              | some path =>
                  .writeOr path (Utf8.encode text)
                    { stdout := "Disassembly written to " ++ path ++ "\n" } {}

end DisassembleRequest
end Command
end Asm6502

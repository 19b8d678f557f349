import Asm6502.Assembly.Run
import Asm6502.Command.Plan
import Asm6502.Disassembly.Listing

/-!
# The assembler command

Reads a source file, reports its diagnostics and writes the code to a file, or
else shows it in hexadecimal.  On request it also shows the symbols and a
listing.  How the symbols are laid out is left to a function `dump`.
-/

namespace Asm6502
namespace Command

structure AssembleRequest where
  source : String
  output : Option String := none
  strict : Bool := false
  listing : Bool := false
  symbols : Bool := false
  quiet : Bool := false

def hexDump (code : List UInt8) : Text :=
  Text.ofLines ((Data.rows code).map fun row =>
    Text.upper (Disassembly.byteText row))

namespace AssembleRequest

def diagnostics (request : AssembleRequest) (result : Result) : String :=
  if request.quiet then ""
  else String.join (result.diagnostics.map Diagnostic.report)

def withheld (request : AssembleRequest) (result : Result) : Report :=
  ({ stderr := request.diagnostics result } : Report).fail 2
    (request.source ++
      s!": {result.diagnostics.length} error(s), no output written")

/-- What a run shows before its output: diagnostics, symbols and listing. -/
def preamble (dump : List Symbol -> String) (request : AssembleRequest)
    (result : Result) : Report :=
  let symbols :=
    if request.symbols then "Symbols: " ++ dump result.symbols ++ "\n" else ""
  let shown : Report := { stderr := request.diagnostics result ++ symbols }
  if request.listing then
    match Disassembly.render .listing result.origin result.code.toList with
    | .ok text => { shown with stdout := String.ofList text }
    | .error misfit =>
        { shown with
          stderr := shown.stderr ++ "Listing error: " ++ misfit.message ++ "\n" }
  else shown

def plan (dump : List Symbol -> String) (request : AssembleRequest)
    (file : Except String (List UInt8)) : Plan :=
  match file with
  | .error failure =>
      .finish (({} : Report).fail 1 ("Error reading source file: " ++ failure))
  | .ok bytes =>
      let result := assemble { strict := request.strict } (Utf8.decode bytes)
      if result.withheld then .finish (request.withheld result)
      else
        let report := request.preamble dump result
        match request.output with
        | some path => .writeOr path result.code.toList report report
        | none =>
            if request.listing then .finish report
            else
              .finish
                { report with stdout := String.ofList (hexDump result.code.toList) }

end AssembleRequest
end Command
end Asm6502

import Asm6502.Disassembly.Block
import Asm6502.Disassembly.Data

/-!
# Disassembly

Machine code as source text that is assembled to the same bytes, or as a listing
whose lines also carry addresses and bytes as comments.
-/

namespace Asm6502
namespace Disassembly

structure Misfit where
  size : Nat
  origin : Int
  deriving DecidableEq

def Misfit.message (m : Misfit) : String :=
  s!"{m.size} bytes at " ++ String.ofList (Decoded.hexWord m.origin) ++
    " do not fit the 64K address space"

def byteText (bytes : List UInt8) : Text :=
  [' '].intercalate (bytes.map fun b => Text.hex 2 b.toNat)

def instructionLines (style : Style) (labels : Std.TreeSet Int compare)
    (d : Decoded) : List Text :=
  let label :=
    if labels.contains d.address then [Block.labelName d.address ++ [':']]
    else []
  let target :=
    if d.isFlow && labels.contains d.operand then
      some (Block.labelName d.operand)
    else none
  let line := d.line 4 target
  let shown :=
    match style with
    | .source => Data.indent ++ line
    | .listing =>
        Data.indent ++ Text.padRight 20 line ++ " ; ".toList ++
          Decoded.hexWord d.address ++ [' ', ' '] ++ byteText d.bytes
  label ++ [shown]

/-- The lines of blocks, after those already made, which are kept last first;
strings are numbered through. -/
def linesOnto (style : Style) (labels : Std.TreeSet Int compare)
    (done : List Text) (number : Int) : List Block -> List Text
  | [] => done.reverse
  | .code d :: rest =>
      linesOnto style labels ((instructionLines style labels d).reverse ++ done)
        number rest
  | .data address bytes :: rest =>
      linesOnto style labels
        ((Data.lines style address number bytes).reverse ++ done)
        (wrap64 (number + Data.stringCount bytes)) rest

def lines (style : Style) (origin : Int) (code : List UInt8) : List Text :=
  let blocks := Block.sweep origin code
  let org :=
    if origin = 0 then []
    else [Data.indent ++ ".org ".toList ++ Decoded.hexWord origin]
  org ++ linesOnto style (Block.labels blocks) [] 1 blocks

/-- The text of code at an origin; no code has no text. -/
def render (style : Style) (origin : Int) (code : List UInt8) :
    Except Misfit Text :=
  if origin < 0 || 0x10000 < wrap64 (origin + code.length) then
    .error ⟨code.length, origin⟩
  else if code.isEmpty then .ok []
  else .ok (Text.ofLines (lines style origin code))

def labels (origin : Int) (code : List UInt8) : List Int :=
  (Block.labels (Block.sweep origin code)).toList

end Disassembly

def disassemble (origin : Int) (code : List UInt8) :
    Except Disassembly.Misfit Text :=
  Disassembly.render .source origin code

end Asm6502

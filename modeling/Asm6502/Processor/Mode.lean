/-!
# Addressing modes

The thirteen ways in which an instruction of the processor finds its operand,
with the name of each and the number of bytes that its operand takes.
-/

namespace Asm6502

inductive Mode where
  | implied
  | accumulator
  | immediate
  | zeroPage
  | zeroPageX
  | zeroPageY
  | absolute
  | absoluteX
  | absoluteY
  | indirect
  | indexedIndirect
  | indirectIndexed
  | relative
  deriving DecidableEq

namespace Mode

/-- All modes; the place of a mode in this list is its code. -/
def all : List Mode :=
  [implied, accumulator, immediate, zeroPage, zeroPageX, zeroPageY, absolute,
    absoluteX, absoluteY, indirect, indexedIndirect, indirectIndexed, relative]

theorem mem_all (mode : Mode) : mode ∈ all := by
  cases mode <;> decide

def name : Mode -> String
  | implied => "implied"
  | accumulator => "accumulator"
  | immediate => "immediate"
  | zeroPage => "zero page"
  | zeroPageX => "zero page,X"
  | zeroPageY => "zero page,Y"
  | absolute => "absolute"
  | absoluteX => "absolute,X"
  | absoluteY => "absolute,Y"
  | indirect => "indirect"
  | indexedIndirect => "(indirect,X)"
  | indirectIndexed => "(indirect),Y"
  | relative => "relative"

def operandSize : Mode -> Nat
  | implied | accumulator => 0
  | absolute | absoluteX | absoluteY | indirect => 2
  | _ => 1

theorem operandSize_le_two (mode : Mode) : mode.operandSize ≤ 2 := by
  cases mode <;> decide

/-!
## Codes

A code outside the list stands for no mode; it is named `unknown` and counted
as having a one-byte operand.
-/

def ofCode? (code : Int) : Option Mode :=
  if code < 0 then none else all[code.toNat]?

def nameOfCode (code : Int) : String :=
  (ofCode? code).elim "unknown" name

def operandSizeOfCode (code : Int) : Nat :=
  (ofCode? code).elim 1 operandSize

end Mode
end Asm6502

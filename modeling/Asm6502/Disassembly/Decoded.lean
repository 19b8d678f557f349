import Asm6502.Processor.Field
import Asm6502.Processor.Opcode
import Asm6502.Signed64
import Asm6502.Text.Basic

/-!
# Decoded instructions

The instruction at the head of some code, with its operand and the form that a
source gives it.
-/

namespace Asm6502

structure Decoded where
  address : Int
  instruction : Instruction
  bytes : List UInt8
  /-- The operand as stored; for a branch, the address that it leads to. -/
  operand : Int
  deriving DecidableEq

namespace Decoded

def mnemonic (d : Decoded) : Mnemonic :=
  d.instruction.mnemonic

def mode (d : Decoded) : Mode :=
  d.instruction.mode

def size (d : Decoded) : Nat :=
  d.bytes.length

def name (d : Decoded) : Text :=
  Text.lower d.mnemonic.name.toList

def operandOf (address : Int) (mode : Mode) : List UInt8 -> Int
  | [b] =>
      if mode = .relative then wrap64 (address + 2 + Field.signed b)
      else b.toNat
  | [low, high] => Field.word low high
  | _ => 0

/-- Decodes the head of some code.  An opcode that is not documented and an
instruction that is cut off give none. -/
def ofBytes? (address : Int) (code : List UInt8) : Option Decoded :=
  match code with
  | [] => none
  | opcode :: rest =>
      match Instruction.ofOpcode? opcode with
      | none => none
      | some i =>
          let operand := rest.take i.mode.operandSize
          if operand.length < i.mode.operandSize then none
          else
            some ⟨address, i, opcode :: operand,
              operandOf address i.mode operand⟩

theorem size_pos_of_ofBytes? {address : Int} {code : List UInt8} {d : Decoded}
    (h : ofBytes? address code = some d) : 0 < d.size := by
  unfold ofBytes? at h
  split at h
  · cases h
  · split at h
    · cases h
    · dsimp only at h
      split at h
      · cases h
      · cases h
        exact Nat.succ_pos _

/-!
## Classification
-/

def isFlow (d : Decoded) : Bool :=
  match d.mode with
  | .relative => true
  | .absolute => d.mnemonic = .jmp || d.mnemonic = .jsr
  | _ => false

def isTerminal (d : Decoded) : Bool :=
  match d.mnemonic with
  | .jmp | .rts | .rti | .brk => true
  | _ => false

/-- Whether the written form is assembled to the same bytes.  An address of the
zero page would take the short form where there is one, and a branch has to
lead to an address. -/
def reassembles (d : Decoded) : Bool :=
  match d.mode with
  | .absolute => 0xFF < d.operand || !d.mnemonic.hasMode .zeroPage
  | .absoluteX => 0xFF < d.operand || !d.mnemonic.hasMode .zeroPageX
  | .absoluteY => 0xFF < d.operand || !d.mnemonic.hasMode .zeroPageY
  | .relative => 0 ≤ d.operand && d.operand ≤ 0xFFFF
  | _ => true

/-!
## Written form
-/

def hexByte (n : Int) : Text :=
  '$' :: Text.hex 2 n

def hexWord (n : Int) : Text :=
  '$' :: Text.hex 4 n

/-- The operand as a source writes it, with a name for the address if there is
one.  It is empty for an instruction without operand. -/
def operandText (target : Option Text) (d : Decoded) : Text :=
  match d.mode with
  | .implied => []
  | .accumulator => ['a']
  | .immediate => '#' :: hexByte d.operand
  | .zeroPage => hexByte d.operand
  | .zeroPageX => hexByte d.operand ++ [',', 'x']
  | .zeroPageY => hexByte d.operand ++ [',', 'y']
  | .absolute | .relative => target.getD (hexWord d.operand)
  | .absoluteX => hexWord d.operand ++ [',', 'x']
  | .absoluteY => hexWord d.operand ++ [',', 'y']
  | .indirect => '(' :: hexWord d.operand ++ [')']
  | .indexedIndirect => '(' :: hexByte d.operand ++ [',', 'x', ')']
  | .indirectIndexed => '(' :: hexByte d.operand ++ [')', ',', 'y']

def line (width : Nat) (target : Option Text) (d : Decoded) : Text :=
  let operand := d.operandText target
  if operand.isEmpty then d.name
  else Text.padRight width d.name ++ ' ' :: operand

def text (d : Decoded) : Text :=
  d.line 0 none

end Decoded
end Asm6502

import Asm6502.Processor.Mode
import Asm6502.Processor.Mnemonic

/-!
# The instruction set

Each mnemonic lists the addressing modes it supports with the opcode of each.
Read forwards the table encodes an instruction, read backwards it decodes an
opcode.
-/

namespace Asm6502

/-- The supported addressing modes of a mnemonic, each with its opcode. -/
def Mnemonic.forms : Mnemonic -> List (Mode × UInt8)
  | .adc =>
      [(.immediate, 0x69), (.zeroPage, 0x65), (.zeroPageX, 0x75),
        (.absolute, 0x6d), (.absoluteX, 0x7d), (.absoluteY, 0x79),
        (.indexedIndirect, 0x61), (.indirectIndexed, 0x71)]
  | .and =>
      [(.immediate, 0x29), (.zeroPage, 0x25), (.zeroPageX, 0x35),
        (.absolute, 0x2d), (.absoluteX, 0x3d), (.absoluteY, 0x39),
        (.indexedIndirect, 0x21), (.indirectIndexed, 0x31)]
  | .asl =>
      [(.accumulator, 0x0a), (.zeroPage, 0x06), (.zeroPageX, 0x16),
        (.absolute, 0x0e), (.absoluteX, 0x1e)]
  | .bcc => [(.relative, 0x90)]
  | .bcs => [(.relative, 0xb0)]
  | .beq => [(.relative, 0xf0)]
  | .bit => [(.zeroPage, 0x24), (.absolute, 0x2c)]
  | .bmi => [(.relative, 0x30)]
  | .bne => [(.relative, 0xd0)]
  | .bpl => [(.relative, 0x10)]
  | .brk => [(.implied, 0x00)]
  | .bvc => [(.relative, 0x50)]
  | .bvs => [(.relative, 0x70)]
  | .clc => [(.implied, 0x18)]
  | .cld => [(.implied, 0xd8)]
  | .cli => [(.implied, 0x58)]
  | .clv => [(.implied, 0xb8)]
  | .cmp =>
      [(.immediate, 0xc9), (.zeroPage, 0xc5), (.zeroPageX, 0xd5),
        (.absolute, 0xcd), (.absoluteX, 0xdd), (.absoluteY, 0xd9),
        (.indexedIndirect, 0xc1), (.indirectIndexed, 0xd1)]
  | .cpx => [(.immediate, 0xe0), (.zeroPage, 0xe4), (.absolute, 0xec)]
  | .cpy => [(.immediate, 0xc0), (.zeroPage, 0xc4), (.absolute, 0xcc)]
  | .dec =>
      [(.zeroPage, 0xc6), (.zeroPageX, 0xd6), (.absolute, 0xce),
        (.absoluteX, 0xde)]
  | .dex => [(.implied, 0xca)]
  | .dey => [(.implied, 0x88)]
  | .eor =>
      [(.immediate, 0x49), (.zeroPage, 0x45), (.zeroPageX, 0x55),
        (.absolute, 0x4d), (.absoluteX, 0x5d), (.absoluteY, 0x59),
        (.indexedIndirect, 0x41), (.indirectIndexed, 0x51)]
  | .inc =>
      [(.zeroPage, 0xe6), (.zeroPageX, 0xf6), (.absolute, 0xee),
        (.absoluteX, 0xfe)]
  | .inx => [(.implied, 0xe8)]
  | .iny => [(.implied, 0xc8)]
  | .jmp => [(.absolute, 0x4c), (.indirect, 0x6c)]
  | .jsr => [(.absolute, 0x20)]
  | .lda =>
      [(.immediate, 0xa9), (.zeroPage, 0xa5), (.zeroPageX, 0xb5),
        (.absolute, 0xad), (.absoluteX, 0xbd), (.absoluteY, 0xb9),
        (.indexedIndirect, 0xa1), (.indirectIndexed, 0xb1)]
  | .ldx =>
      [(.immediate, 0xa2), (.zeroPage, 0xa6), (.zeroPageY, 0xb6),
        (.absolute, 0xae), (.absoluteY, 0xbe)]
  | .ldy =>
      [(.immediate, 0xa0), (.zeroPage, 0xa4), (.zeroPageX, 0xb4),
        (.absolute, 0xac), (.absoluteX, 0xbc)]
  | .lsr =>
      [(.accumulator, 0x4a), (.zeroPage, 0x46), (.zeroPageX, 0x56),
        (.absolute, 0x4e), (.absoluteX, 0x5e)]
  | .nop => [(.implied, 0xea)]
  | .ora =>
      [(.immediate, 0x09), (.zeroPage, 0x05), (.zeroPageX, 0x15),
        (.absolute, 0x0d), (.absoluteX, 0x1d), (.absoluteY, 0x19),
        (.indexedIndirect, 0x01), (.indirectIndexed, 0x11)]
  | .pha => [(.implied, 0x48)]
  | .php => [(.implied, 0x08)]
  | .pla => [(.implied, 0x68)]
  | .plp => [(.implied, 0x28)]
  | .rol =>
      [(.accumulator, 0x2a), (.zeroPage, 0x26), (.zeroPageX, 0x36),
        (.absolute, 0x2e), (.absoluteX, 0x3e)]
  | .ror =>
      [(.accumulator, 0x6a), (.zeroPage, 0x66), (.zeroPageX, 0x76),
        (.absolute, 0x6e), (.absoluteX, 0x7e)]
  | .rti => [(.implied, 0x40)]
  | .rts => [(.implied, 0x60)]
  | .sbc =>
      [(.immediate, 0xe9), (.zeroPage, 0xe5), (.zeroPageX, 0xf5),
        (.absolute, 0xed), (.absoluteX, 0xfd), (.absoluteY, 0xf9),
        (.indexedIndirect, 0xe1), (.indirectIndexed, 0xf1)]
  | .sec => [(.implied, 0x38)]
  | .sed => [(.implied, 0xf8)]
  | .sei => [(.implied, 0x78)]
  | .sta =>
      [(.zeroPage, 0x85), (.zeroPageX, 0x95), (.absolute, 0x8d),
        (.absoluteX, 0x9d), (.absoluteY, 0x99), (.indexedIndirect, 0x81),
        (.indirectIndexed, 0x91)]
  | .stx => [(.zeroPage, 0x86), (.zeroPageY, 0x96), (.absolute, 0x8e)]
  | .sty => [(.zeroPage, 0x84), (.zeroPageX, 0x94), (.absolute, 0x8c)]
  | .tax => [(.implied, 0xaa)]
  | .tay => [(.implied, 0xa8)]
  | .tsx => [(.implied, 0xba)]
  | .txa => [(.implied, 0x8a)]
  | .txs => [(.implied, 0x9a)]
  | .tya => [(.implied, 0x98)]

def Mnemonic.opcode? (m : Mnemonic) (mode : Mode) : Option UInt8 :=
  m.forms.lookup mode

def Mnemonic.hasMode (m : Mnemonic) (mode : Mode) : Bool :=
  (m.opcode? mode).isSome

structure Instruction where
  mnemonic : Mnemonic
  mode : Mode
  opcode : UInt8
  deriving DecidableEq

namespace Instruction

def length (i : Instruction) : Nat :=
  1 + i.mode.operandSize

def all : List Instruction :=
  Mnemonic.all.flatMap fun m => m.forms.map fun form => ⟨m, form.1, form.2⟩

def of? (m : Mnemonic) (mode : Mode) : Option Instruction :=
  (m.opcode? mode).map fun opcode => ⟨m, mode, opcode⟩

def ofOpcode? (opcode : UInt8) : Option Instruction :=
  all.find? fun i => i.opcode == opcode

end Instruction
end Asm6502

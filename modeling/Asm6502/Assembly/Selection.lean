import Asm6502.Assembly.Image
import Asm6502.Processor.Opcode

/-!
# Instructions

An instruction statement is resolved in three steps: a shorthand is replaced by
the mnemonic it stands for, the operands select an addressing mode, and the
instruction set gives the opcode.
-/

namespace Asm6502

open Diagnostic

/-!
## Shorthands
-/

namespace Shorthand

def byRegister (onA onFlags : Mnemonic) :
    List Operand -> Except ShorthandFault Mnemonic
  | [⟨.register .a, _⟩] => .ok onA
  | [⟨.register .flags, _⟩] => .ok onFlags
  | _ => .error .needsRegister

/-- A choice by a bit, which is a number written with or without parentheses.
A flag without an instruction that sets it can only be cleared. -/
def byBit (clear : Mnemonic) (set : Option Mnemonic) :
    List Operand -> Except ShorthandFault Mnemonic
  | [⟨.plain (.number n), _⟩] | [⟨.indirect (.number n) _, _⟩] =>
      if n = 0 then .ok clear
      else if n = 1 then
        match set with
        | some m => .ok m
        | none => .error .cannotBeSet
      else .error .needsBit
  | _ => .error .needsBit

def expand (s : Shorthand) (operands : List Operand) :
    Except ShorthandFault (Mnemonic × List Operand) :=
  match s with
  | goto => .ok (.jmp, operands)
  | push => (byRegister .pha .php operands).map (·, [])
  | pull => (byRegister .pla .plp operands).map (·, [])
  | carry => (byBit .clc (some .sec) operands).map (·, [])
  | interrupt => (byBit .cli (some .sei) operands).map (·, [])
  | decimal => (byBit .cld (some .sed) operands).map (·, [])
  | overflow => (byBit .clv none operands).map (·, [])

end Shorthand

/-!
## Addressing modes
-/

namespace Selection

/-- Whether a value is known to be an address of the zero page.  Of names only
constants count, so that the size of an instruction does not depend on where
its labels are. -/
def isZeroPage (table : SymbolTable) : Value -> Bool
  | .number n => 0 ≤ n && n ≤ 0xFF
  | .name name =>
      match table.binding? name with
      | some ⟨.constant, n⟩ => 0 ≤ n && n ≤ 0xFF
      | _ => false

/-- The short form if the value allows it or nothing else exists, and otherwise
the long form. -/
def byAddress (table : SymbolTable) (m : Mnemonic) (v : Value)
    (short long : Mode) : Mode :=
  if isZeroPage table v && m.hasMode short then short
  else if !m.hasMode long && m.hasMode short then short
  else long

def single (table : SymbolTable) (m : Mnemonic) (o : Operand) :
    Except ModeFault (Mode × Option Argument) :=
  match o.form with
  | .register .a => .ok (.accumulator, none)
  | .register r => .error (.register r)
  | .string _ => .error .string
  | .immediate v => .ok (.immediate, some ⟨v, o.position⟩)
  | .indirect v true => .ok (.indexedIndirect, some ⟨v, o.position⟩)
  | .indirect v false => .ok (.indirect, some ⟨v, o.position⟩)
  | .plain v =>
      let mode :=
        if m.hasMode .relative then Mode.relative
        else byAddress table m v .zeroPage .absolute
      .ok (mode, some ⟨v, o.position⟩)

def byX (table : SymbolTable) (m : Mnemonic) (o : Operand) :
    Except ModeFault (Mode × Option Argument) :=
  match o.form with
  | .indirect _ _ => .error .badIndirectIndex
  | .plain v =>
      .ok (byAddress table m v .zeroPageX .absoluteX, some ⟨v, o.position⟩)
  | _ => .error .indexedNonAddress

def byY (table : SymbolTable) (m : Mnemonic) (o : Operand) :
    Except ModeFault (Mode × Option Argument) :=
  match o.form with
  | .indirect v false => .ok (.indirectIndexed, some ⟨v, o.position⟩)
  | .indirect _ true => .error .badIndirectIndex
  | .plain v =>
      .ok (byAddress table m v .zeroPageY .absoluteY, some ⟨v, o.position⟩)
  | _ => .error .indexedNonAddress

/-- The addressing mode that operands select, and the value to encode. -/
def select (table : SymbolTable) (m : Mnemonic) :
    List Operand -> Except ModeFault (Mode × Option Argument)
  | [] =>
      if m.hasMode .implied then .ok (.implied, none)
      else if m.hasMode .accumulator then .ok (.accumulator, none)
      else .error .missingOperand
  | [o] => single table m o
  | [o, index] =>
      match index.form with
      | .register .x => byX table m o
      | .register .y => byY table m o
      | _ => .error .badIndex
  | operands => .error (.tooMany operands.length)

end Selection

/-!
## Encoding
-/

namespace Image

def instructionFault (position : Position) (fault : InstructionFault) :
    Diagnostic :=
  ⟨.instruction fault, position⟩

def encode (image : Image) (i : Instruction) (argument : Option Argument) :
    Except Diagnostic Chunk :=
  let opcode : Chunk := ⟨#[i.opcode], #[]⟩
  match argument with
  | none => .ok opcode
  | some a =>
      let reference :=
        if i.mode = .relative then
          Reference.relative (wrap64 (image.pc + i.length))
        else .absolute
      opcode.addArgument image.symbols a i.mode.operandSize reference

def mnemonicEffect (image : Image) (position : Position) (m : Mnemonic)
    (operands : List Operand) : Except Diagnostic Effect :=
  match Selection.select image.symbols m operands with
  | .error f => .error (instructionFault position (.operands m f))
  | .ok (mode, argument) =>
      match Instruction.of? m mode with
      | none => .error (instructionFault position (.unsupported m mode))
      | some i => do
          let chunk <- image.encode i argument
          image.append? position chunk

def instructionEffect (image : Image) (position : Position)
    (operands : List Operand) : Operation -> Except Diagnostic Effect
  | .cpu m => image.mnemonicEffect position m operands
  | .shorthand s =>
      match s.expand operands with
      | .error f => .error (instructionFault position (.shorthand s f))
      | .ok (m, rest) => image.mnemonicEffect position m rest

end Image
end Asm6502

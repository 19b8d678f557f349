import Asm6502.Processor.Mnemonic

/-!
# Operations

A source names what it wants done either by a mnemonic of the processor or by a
shorthand, which stands for one of several instructions depending on its
operand.
-/

namespace Asm6502

inductive Shorthand where
  | goto
  | push
  | pull
  | carry
  | interrupt
  | decimal
  | overflow
  deriving DecidableEq

namespace Shorthand

def all : List Shorthand :=
  [goto, push, pull, carry, interrupt, decimal, overflow]

def name : Shorthand -> String
  | goto => "GOTO"
  | push => "PUSH"
  | pull => "PULL"
  | carry => "CARRY"
  | interrupt => "INTERRUPT"
  | decimal => "DECIMAL"
  | overflow => "OVERFLOW"

def ofName? (written : String) : Option Shorthand :=
  all.find? (fun s => s.name == written)

end Shorthand

inductive Operation where
  | cpu (mnemonic : Mnemonic)
  | shorthand (shorthand : Shorthand)
  deriving DecidableEq

namespace Operation

def name : Operation -> String
  | cpu m => m.name
  | shorthand s => s.name

def ofName? (written : String) : Option Operation :=
  ((Mnemonic.ofName? written).map cpu).or
    ((Shorthand.ofName? written).map shorthand)

end Operation
end Asm6502

/-!
# Registers

The four register names that a source may write as operands.  `FLAGS` is the
processor status register.
-/

namespace Asm6502

inductive Register where
  | a
  | x
  | y
  | flags
  deriving DecidableEq

namespace Register

def all : List Register :=
  [a, x, y, flags]

def name : Register -> String
  | a => "A"
  | x => "X"
  | y => "Y"
  | flags => "FLAGS"

def ofName? (written : String) : Option Register :=
  all.find? (fun r => r.name == written)

theorem ofName?_name (r : Register) : ofName? r.name = some r := by
  cases r <;> rfl

end Register
end Asm6502

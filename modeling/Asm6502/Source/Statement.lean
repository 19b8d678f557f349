import Asm6502.Processor.Register
import Asm6502.Source.Operation
import Asm6502.Source.Position
import Asm6502.Text.Utf8

/-!
# Statements

What a source says once its tokens are understood: labels, instructions and
directives, with operands in the forms that the notation offers.
-/

namespace Asm6502

inductive Value where
  | number (n : Int)
  | name (name : Text)
  deriving DecidableEq

namespace Operand

inductive Form where
  | plain (value : Value)
  | immediate (value : Value)
  /-- In parentheses, perhaps with the X register inside. -/
  | indirect (value : Value) (indexed : Bool)
  | register (register : Register)
  | string (contents : Text)
  deriving DecidableEq

end Operand

structure Operand where
  form : Operand.Form
  position : Position
  deriving DecidableEq

namespace Operand

def value? (o : Operand) : Option Value :=
  match o.form with
  | .plain v | .immediate v | .indirect v _ => some v
  | .register _ | .string _ => none

def isSymbolic (o : Operand) : Bool :=
  match o.value? with
  | some (.name _) => true
  | _ => false

def isAddress (o : Operand) : Bool :=
  match o.form with
  | .plain _ | .indirect _ _ => true
  | _ => false

def isRegister (r : Register) (o : Operand) : Bool :=
  o.form = .register r

def bytes (o : Operand) : List UInt8 :=
  match o.form with
  | .string contents => Utf8.encode contents
  | _ => []

end Operand

namespace Statement

inductive Body where
  | label (name : Text)
  | instruction (operation : Operation) (operands : List Operand)
  | directive (name : Text) (operands : List Operand)
  deriving DecidableEq

end Statement

structure Statement where
  body : Statement.Body
  position : Position
  deriving DecidableEq

end Asm6502

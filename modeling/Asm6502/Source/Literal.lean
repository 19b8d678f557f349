import Asm6502.Signed64
import Asm6502.Text.Numeral

/-!
# Number literals

A literal is a quoted character, or digits in one of three bases after an
optional minus sign.  The digits may carry one more sign of their own, and
values are those of 64-bit two's complement numbers.
-/

namespace Asm6502
namespace Literal

inductive Fault where
  | range
  | number
  | character
  deriving DecidableEq

def Fault.message (written : Text) : Fault -> String
  | range => "value out of range: " ++ String.ofList written
  | number => "invalid number format: " ++ String.ofList written
  | character => "invalid character literal: " ++ String.ofList written

def splitBase : Text -> Nat × Text
  | '$' :: digits => (16, digits)
  | '0' :: 'x' :: digits => (16, digits)
  | '0' :: 'X' :: digits => (16, digits)
  | '%' :: digits => (2, digits)
  | '0' :: 'b' :: digits => (2, digits)
  | '0' :: 'B' :: digits => (2, digits)
  | digits => (10, digits)

def quoted? : Text -> Option Text
  | '\'' :: rest =>
      if 2 ≤ rest.length && rest.getLast? = some '\'' then some rest.dropLast
      else none
  | _ => none

def unsigned (t : Text) : Except Fault Int :=
  match Numeral.readInt (splitBase t).1 64 (splitBase t).2 with
  | .ok n => .ok n
  | .error .tooLarge => .error .range
  | .error .malformed => .error .number

/-- The negation of the least number is that number again. -/
def negate (n : Int) : Int :=
  wrap64 (-n)

def read (t : Text) : Except Fault Int :=
  match quoted? t with
  | some [c] => .ok c.toNat
  | some _ => .error .character
  | none =>
      match t with
      | '-' :: rest => (unsigned rest).map negate
      | _ => unsigned t

end Literal
end Asm6502

import Asm6502.Text.Basic

/-!
# Numerals

Digits are read from left to right into a natural number with an upper limit.
Reading stops at the first fault, so a number that is already too large is
reported as such even when its later characters are no digits.
-/

namespace Asm6502
namespace Numeral

inductive Fault where
  | malformed
  | tooLarge
  deriving DecidableEq

def digit? (c : Char) : Option Nat :=
  if '0' ≤ c && c ≤ '9' then some (c.toNat - '0'.toNat)
  else if 'a' ≤ c && c ≤ 'z' then some (c.toNat - 'a'.toNat + 10)
  else if 'A' ≤ c && c ≤ 'Z' then some (c.toNat - 'A'.toNat + 10)
  else none

/-- Reads digits after those whose value is `read`. -/
def magnitude (base limit : Nat) : Nat -> Text -> Except Fault Nat
  | read, [] => .ok read
  | read, c :: rest =>
      match digit? c with
      | none => .error .malformed
      | some d =>
          if base ≤ d then .error .malformed
          else if limit < read * base + d then .error .tooLarge
          else magnitude base limit (read * base + d) rest

def splitSign : Text -> Bool × Text
  | '-' :: rest => (true, rest)
  | '+' :: rest => (false, rest)
  | t => (false, t)

def bounded (bits : Nat) (negative : Bool) (m : Nat) : Except Fault Int :=
  if negative then
    if m ≤ Nat.pow 2 (bits - 1) then .ok (-(m : Int)) else .error .tooLarge
  else
    if m < Nat.pow 2 (bits - 1) then .ok m else .error .tooLarge

def readInt (base bits : Nat) (t : Text) : Except Fault Int := do
  let (negative, digits) := splitSign t
  if digits.isEmpty then .error .malformed
  else
    let m <- magnitude base (Nat.pow 2 bits - 1) 0 digits
    bounded bits negative m

end Numeral
end Asm6502

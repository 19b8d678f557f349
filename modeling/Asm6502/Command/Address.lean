import Asm6502.Text.Blank
import Asm6502.Text.Numeral
import Asm6502.Text.Quoted

/-!
# Addresses on the command line

An address is a number of 32 bits in any of four bases, told apart by a mark; a
dollar sign is another mark for base sixteen, and a leading zero means base
eight.  Underscores may stand between digits, or between mark and digit.
-/

namespace Asm6502
namespace Command
namespace Address

inductive Fault where
  | malformed (written : Text)
  | tooLarge (written : Text)
  | outside (written : Text)
  deriving DecidableEq

def Fault.message : Fault -> String
  | malformed t => parsing t ++ ": invalid syntax"
  | tooLarge t => parsing t ++ ": value out of range"
  | outside t => String.ofList t ++ " is outside $0000-$FFFF"
where
  parsing (t : Text) : String :=
    "strconv.ParseInt: parsing " ++ String.ofList t.quoted

def markBase? (c : Char) : Option Nat :=
  [('b', 2), ('o', 8), ('x', 16)].lookup c.toLower

def splitBase (t : Text) : Nat × Text :=
  match t with
  | '0' :: mark :: d :: rest =>
      match markBase? mark with
      | some base => (base, d :: rest)
      | none => (8, mark :: d :: rest)
  | '0' :: rest => (8, rest)
  | _ => (10, t)

def isSeparated (afterDigit : Bool) : Text -> Bool
  | [] => true
  | '_' :: rest => afterDigit && !rest.isEmpty && isSeparated false rest
  | _ :: rest => isSeparated true rest

/-- A base mark counts as a digit in front of an underscore. -/
def hasGoodSeparators (t : Text) : Bool :=
  match t with
  | '0' :: mark :: rest =>
      if (markBase? mark).isSome then isSeparated true rest
      else isSeparated false t
  | _ => isSeparated false t

/-- Reads a signed number.  Separators are looked at after the digits, and the
sign after both. -/
def readInt (t : Text) : Except Numeral.Fault Int := do
  let (negative, digits) := Numeral.splitSign t
  if digits.isEmpty then .error .malformed
  else
    let (base, rest) := splitBase digits
    let m <- Numeral.magnitude base (Nat.pow 2 32 - 1) 0 (rest.filter (· != '_'))
    if !hasGoodSeparators digits then .error .malformed
    else Numeral.bounded 32 negative m

def normalize (t : Text) : Text :=
  match Text.trim t with
  | '$' :: rest => '0' :: 'x' :: rest
  | trimmed => trimmed

def read (t : Text) : Except Fault Int :=
  let written := normalize t
  match readInt written with
  | .error .malformed => .error (.malformed written)
  | .error .tooLarge => .error (.tooLarge written)
  | .ok n =>
      if n < 0 || 0xFFFF < n then .error (.outside written) else .ok n

end Address
end Command
end Asm6502

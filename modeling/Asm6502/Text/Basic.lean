/-!
# Text

Source text, names and listings are lists of characters.  This module holds the
plain operations on them: padding, the case of ASCII letters, and the decimal
and hexadecimal forms of integers.
-/

namespace Asm6502

abbrev Text := List Char

namespace Text

def padRight (width : Nat) (t : Text) : Text :=
  t ++ List.replicate (width - t.length) ' '

def upper (t : Text) : Text :=
  t.map Char.toUpper

def lower (t : Text) : Text :=
  t.map Char.toLower

def decimal (n : Int) : Text :=
  (toString n).toList

/-- Hexadecimal in small letters, filled up with zeros on the left; the sign of
a negative number counts towards the width. -/
def hex (width : Nat) (n : Int) : Text :=
  if n < 0 then '-' :: (Nat.toDigits 16 n.natAbs).leftpad (width - 1) '0'
  else (Nat.toDigits 16 n.toNat).leftpad width '0'

end Text
end Asm6502

import Asm6502.Text.Basic
import Asm6502.Text.Printable

/-!
# Quoted text

Text in double quotes, as messages show it.  The quote and the backslash are
escaped, printable characters stand for themselves, and every other character is
written with a letter escape or as a hexadecimal number of two, four or eight
digits.
-/

namespace Asm6502
namespace Quoted

def letter? (c : Char) : Option Char :=
  [('\x07', 'a'), ('\x08', 'b'), ('\x0c', 'f'), ('\n', 'n'), ('\r', 'r'),
    ('\t', 't'), ('\x0b', 'v')].lookup c

def escape (c : Char) : Text :=
  if c = '"' || c = '\\' then ['\\', c]
  else if isPrintable c then [c]
  else
    match letter? c with
    | some l => ['\\', l]
    | none =>
        if c.toNat < 0x80 then '\\' :: 'x' :: Text.hex 2 c.toNat
        else if c.toNat < 0x10000 then '\\' :: 'u' :: Text.hex 4 c.toNat
        else '\\' :: 'U' :: Text.hex 8 c.toNat

end Quoted

def Text.quoted (t : Text) : Text :=
  '"' :: t.flatMap Quoted.escape ++ ['"']

end Asm6502

/-!
# Fields of the output

A field holds a value in a given number of bytes, least significant byte first.
Only one and two bytes are storable: any other width fits no value and has no
bytes.
-/

namespace Asm6502
namespace Field

/-- A value fits when it is in the signed or in the unsigned range of the width. -/
def fits (value width : Int) : Bool :=
  if width = 1 then -128 ≤ value && value ≤ 0xFF
  else if width = 2 then -32768 ≤ value && value ≤ 0xFFFF
  else false

/-- The bytes of a value, reduced modulo the size of the field. -/
def bytes (value width : Int) : List UInt8 :=
  if width = 1 then [UInt8.ofInt value]
  else if width = 2 then [UInt8.ofInt value, UInt8.ofInt (value / 256)]
  else []

def word (low high : UInt8) : Nat :=
  low.toNat + 256 * high.toNat

def signed (b : UInt8) : Int :=
  Int.bmod b.toNat 256

def store (code : Array UInt8) (place : Nat) : List UInt8 -> Array UInt8
  | [] => code
  | b :: rest => store (code.setIfInBounds place b) (place + 1) rest

theorem size_store (code : Array UInt8) (place : Nat) (bs : List UInt8) :
    (store code place bs).size = code.size := by
  induction bs generalizing code place with
  | nil => rfl
  | cons b rest ih =>
      rw [store, ih, Array.size_setIfInBounds]

end Field
end Asm6502

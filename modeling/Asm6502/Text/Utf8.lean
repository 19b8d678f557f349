import Asm6502.Text.Basic

/-!
# UTF-8

Bytes become text without ever being refused: a byte that begins no well-formed
sequence is read as the replacement character, and reading goes on with the byte
after it.
-/

namespace Asm6502
namespace Utf8

def replacement : Char := '�'

def isTail (b : UInt8) : Bool :=
  0x80 ≤ b && b ≤ 0xBF

/-- The second byte of a sequence has a narrower range after some first bytes:
this excludes overlong forms, surrogates and numbers beyond the last code
point. -/
def isSecond (first b : UInt8) : Bool :=
  if first = 0xE0 then 0xA0 ≤ b && b ≤ 0xBF
  else if first = 0xED then 0x80 ≤ b && b ≤ 0x9F
  else if first = 0xF0 then 0x90 ≤ b && b ≤ 0xBF
  else if first = 0xF4 then 0x80 ≤ b && b ≤ 0x8F
  else isTail b

def tailBits (b : UInt8) : Nat :=
  b.toNat % 0x40

/-- The character at the head of the bytes, and how many bytes after the first
one belong to it. -/
def head (first : UInt8) (rest : List UInt8) : Char × Nat :=
  if first < 0x80 then (Char.ofNat first.toNat, 0)
  else if 0xC2 ≤ first && first ≤ 0xDF then
    match rest with
    | b1 :: _ =>
        if isSecond first b1 then
          (Char.ofNat (first.toNat % 0x20 * 0x40 + tailBits b1), 1)
        else (replacement, 0)
    | _ => (replacement, 0)
  else if 0xE0 ≤ first && first ≤ 0xEF then
    match rest with
    | b1 :: b2 :: _ =>
        if isSecond first b1 && isTail b2 then
          (Char.ofNat
            (first.toNat % 0x10 * 0x1000 + tailBits b1 * 0x40 + tailBits b2), 2)
        else (replacement, 0)
    | _ => (replacement, 0)
  else if 0xF0 ≤ first && first ≤ 0xF4 then
    match rest with
    | b1 :: b2 :: b3 :: _ =>
        if isSecond first b1 && isTail b2 && isTail b3 then
          (Char.ofNat
            (first.toNat % 0x08 * 0x40000 + tailBits b1 * 0x1000 +
              tailBits b2 * 0x40 + tailBits b3), 3)
        else (replacement, 0)
    | _ => (replacement, 0)
  else (replacement, 0)

/-- Decodes after the characters already read, which are kept last first. -/
def decodeOnto (done : Text) : List UInt8 -> Text
  | [] => done.reverse
  | first :: rest =>
      decodeOnto ((head first rest).1 :: done) (rest.drop (head first rest).2)
termination_by bytes => bytes.length
decreasing_by
  simp only [List.length_drop, List.length_cons]
  omega

def decode (bytes : List UInt8) : Text :=
  decodeOnto [] bytes

def encode (t : Text) : List UInt8 :=
  t.flatMap String.utf8EncodeChar

end Utf8
end Asm6502

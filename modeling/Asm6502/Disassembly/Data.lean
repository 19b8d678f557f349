import Asm6502.Disassembly.Decoded

/-!
# Data

Bytes that are not code are written as strings and byte lists.  A string is a
run of at least four printable ASCII characters, together with a zero after it
if there is one; the bytes between strings are listed sixteen to a line.
-/

namespace Asm6502

/-- A source to be assembled, or one that also shows addresses. -/
inductive Style where
  | source
  | listing
  deriving DecidableEq

namespace Data

inductive Segment where
  | string (contents : List UInt8) (terminated : Bool)
  | bytes (contents : List UInt8)
  deriving DecidableEq

def isPrintableByte (b : UInt8) : Bool :=
  0x20 ≤ b && b ≤ 0x7E

def leastString : Nat := 4

/-!
## Segments
-/

def flush (pending : List UInt8) (done : List Segment) : List Segment :=
  if pending.isEmpty then done else .bytes pending.reverse :: done

/-- Divides on after the segments already found, last first, and the bytes
found since the last of them. -/
def segmentsOnto (done : List Segment) (pending : List UInt8) :
    List UInt8 -> List Segment
  | [] => (flush pending done).reverse
  | b :: rest =>
      if isPrintableByte b then
        let run := b :: rest.takeWhile isPrintableByte
        let more := rest.dropWhile isPrintableByte
        if run.length < leastString then
          segmentsOnto done (run.reverse ++ pending) more
        else
          let terminated := more.head? = some 0
          segmentsOnto (.string run terminated :: flush pending done) []
            (if terminated then more.drop 1 else more)
      else segmentsOnto done (b :: pending) rest
termination_by data => data.length
decreasing_by
  · exact Nat.lt_succ_of_le (List.dropWhile_sublist _).length_le
  · have hle := (List.dropWhile_sublist (l := rest) isPrintableByte).length_le
    split
    · rw [List.length_drop, List.length_cons]
      omega
    · exact Nat.lt_succ_of_le hle
  · exact Nat.lt_succ_self _

def segments (data : List UInt8) : List Segment :=
  segmentsOnto [] [] data

def Segment.size : Segment -> Nat
  | string contents terminated =>
      contents.length + (if terminated then 1 else 0)
  | bytes contents => contents.length

def Segment.isString : Segment -> Bool
  | string _ _ => true
  | bytes _ => false

def stringCount (data : List UInt8) : Nat :=
  (segments data).countP Segment.isString

/-!
## Lines
-/

def indent : Text := [' ', ' ', ' ', ' ']

def rows : List UInt8 -> List (List UInt8)
  | [] => []
  | b :: rest => (b :: rest.take 15) :: rows (rest.drop 15)
termination_by data => data.length
decreasing_by
  simp only [List.length_drop, List.length_cons]
  omega

def stringChar (b : UInt8) : Text :=
  let c := Char.ofNat b.toNat
  if c = '"' || c = '\\' then ['\\', c] else [c]

def stringLine (contents : List UInt8) (terminated : Bool) : Text :=
  let directive := if terminated then ".asciiz" else ".text"
  indent ++ directive.toList ++ [' ', '"'] ++ contents.flatMap stringChar ++ ['"']

def byteLine (style : Style) (address : Int) (row : List UInt8) : Text :=
  let items := row.map fun b => Decoded.hexByte b.toNat
  let line := ".byte ".toList ++ [','].intercalate items
  match style with
  | .source => indent ++ line
  | .listing =>
      indent ++ Text.padRight 20 line ++ " ; ".toList ++ Decoded.hexWord address

def Segment.lines (style : Style) (address number : Int) : Segment -> List Text
  | string contents terminated =>
      ["string".toList ++ Text.decimal number ++ [':'],
        stringLine contents terminated]
  | bytes contents =>
      (rows contents).zipIdx.map fun (row, i) =>
        byteLine style (wrap64 (address + 16 * i)) row

/-- The lines of segments that follow each other, after those already made,
which are kept last first. -/
def linesOnto (style : Style) (done : List Text) (address number : Int) :
    List Segment -> List Text
  | [] => done.reverse
  | s :: rest =>
      linesOnto style ((s.lines style address number).reverse ++ done)
        (wrap64 (address + s.size))
        (if s.isString then wrap64 (number + 1) else number) rest

def lines (style : Style) (address number : Int) (data : List UInt8) :
    List Text :=
  linesOnto style [] address number (segments data)

end Data

def Text.ofLines (lines : List Text) : Text :=
  lines.flatMap fun line => line ++ ['\n']

/-- Data at an address as text, with the number that the next string is given. -/
def Data.format (style : Style) (address number : Int) (data : List UInt8) :
    Text × Int :=
  (Text.ofLines (Data.lines style address number data),
    wrap64 (number + Data.stringCount data))

end Asm6502

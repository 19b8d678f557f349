import Asm6502.Processor.Field
import Asm6502.Signed64

/-!
# References

How a value enters a field: as it is, or measured from a base address, as
branches do.  A branch reaches a signed byte in either direction; a value that
is stored as it is has to fit.
-/

namespace Asm6502

inductive Reference where
  | absolute
  | relative (base : Int)
  deriving DecidableEq

namespace Reference

inductive Fault where
  | tooFar (offset : Int)
  | tooWide (value width : Int)
  deriving DecidableEq

/-- The number to store for a value.  Only one-byte offsets are limited. -/
def encode (value width : Int) : Reference -> Except Fault Int
  | absolute =>
      if Field.fits value width then .ok value else .error (.tooWide value width)
  | relative base =>
      let distance := wrap64 (value - base)
      if width = 1 && (distance < -128 || 127 < distance) then
        .error (.tooFar distance)
      else .ok distance

end Reference
end Asm6502

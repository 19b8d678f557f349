import Asm6502.Disassembly.Decoded
import Std.Data.TreeSet

/-!
# Blocks

Code is swept from front to back into blocks.  A block is one instruction, or a
run of bytes that do not decode or would not be assembled to the same bytes
again.  The blocks of a sweep concatenate to the code.
-/

namespace Asm6502

inductive Block where
  | code (instruction : Decoded)
  | data (address : Int) (bytes : List UInt8)
  deriving DecidableEq

namespace Block

def bytes : Block -> List UInt8
  | code d => d.bytes
  | data _ bs => bs

def size (b : Block) : Nat :=
  b.bytes.length

def first (address : Int) (b : UInt8) (rest : List UInt8) : Block :=
  match Decoded.ofBytes? address (b :: rest) with
  | none => data address [b]
  | some d => if d.reassembles then code d else data address d.bytes

/-- Sweeps on after the blocks already found, which are kept last first. -/
def sweepOnto (done : List Block) (address : Int) : List UInt8 -> List Block
  | [] => done.reverse
  | b :: rest =>
      let block := first address b rest
      sweepOnto (block :: done) (wrap64 (address + block.size))
        (rest.drop (block.size - 1))
termination_by code => code.length
decreasing_by
  simp only [List.length_drop, List.length_cons]
  omega

/-- Puts a block in front of others; data joins data. -/
def join (b : Block) (blocks : List Block) : List Block :=
  match b, blocks with
  | data address xs, data _ ys :: rest => data address (xs ++ ys) :: rest
  | _, _ => b :: blocks

def sweep (address : Int) (code : List UInt8) : List Block :=
  (sweepOnto [] (wrap64 address) code).foldr join []

/-!
## Labels

A label is given to every address that some instruction leads to and at which
an instruction begins.
-/

def starts (blocks : List Block) : Std.TreeSet Int compare :=
  blocks.foldl (fun set b =>
    match b with
    | code d => set.insert d.address
    | data _ _ => set) ∅

def labels (blocks : List Block) : Std.TreeSet Int compare :=
  let begins := starts blocks
  blocks.foldl (fun set b =>
    match b with
    | code d =>
        if d.isFlow && begins.contains d.operand then set.insert d.operand
        else set
    | data _ _ => set) ∅

def labelName (address : Int) : Text :=
  'L' :: Text.hex 4 address

end Block
end Asm6502

import Asm6502.Assembly.Fixup
import Asm6502.Signed64
import Asm6502.Source.Statement

/-!
# Images

The image is the output as far as it has come: its bytes, the address of the
first one, the names known so far and the fields still to be filled in.  A
statement changes it in one of four ways, which are the effects; a statement
that fails has none.
-/

namespace Asm6502

/-- Bytes to be appended, with fixups whose offsets count from the first of
them. -/
structure Chunk where
  bytes : Array UInt8
  fixups : Array Fixup

structure Image where
  bytes : Array UInt8
  origin : Int
  /-- Whether a directive has moved the origin. -/
  originSet : Bool
  filler : UInt8
  symbols : SymbolTable
  fixups : Array Fixup

inductive Effect where
  | define (name : Text) (binding : Symbol.Binding)
  | moveOrigin (origin : Int)
  | setFiller (filler : UInt8)
  | append (chunk : Chunk)

namespace Image

def start (origin : Int) (filler : UInt8) : Image :=
  { bytes := #[], origin := origin, originSet := false, filler := filler,
    symbols := .empty, fixups := #[] }

def pc (image : Image) : Int :=
  wrap64 (image.origin + image.bytes.size)

def append (image : Image) (chunk : Chunk) : Image :=
  let size := image.bytes.size
  { image with
    bytes := image.bytes ++ chunk.bytes
    symbols := chunk.fixups.foldl (fun t f => t.mention f.name f.position)
      image.symbols
    fixups := image.fixups ++
      chunk.fixups.map fun f => { f with offset := f.offset + size } }

theorem signed64_pc (image : Image) : Signed64 image.pc :=
  signed64_wrap64 _

theorem pc_append (image : Image) (chunk : Chunk) :
    (image.append chunk).pc = wrap64 (image.pc + chunk.bytes.size) := by
  simp [pc, append, Int.add_assoc]

def apply (image : Image) : Effect -> Image
  | .define name binding =>
      { image with symbols := image.symbols.bind name binding }
  | .moveOrigin origin => { image with origin := origin, originSet := true }
  | .setFiller filler => { image with filler := filler }
  | .append chunk => image.append chunk

/-!
## Effects that can fail
-/

/-- One past the highest address. -/
def addressSpace : Int := 0x10000

def hasRoom (image : Image) (count : Int) : Bool :=
  wrap64 (image.pc + count) ≤ addressSpace

/-- Inside the address space the next addresses are counted on. -/
theorem wrap64_pc_add {image : Image} {count : Nat}
    (h : image.pc + count ≤ addressSpace) :
    wrap64 (image.pc + count) = image.pc + count := by
  have hpc := image.signed64_pc
  unfold Signed64 at hpc
  unfold addressSpace at h
  exact wrap64_of_signed64 ⟨by omega, by omega⟩

theorem hasRoom_of_le {image : Image} {count : Nat}
    (h : image.pc + count ≤ addressSpace) : image.hasRoom count = true := by
  rw [hasRoom, wrap64_pc_add h]
  exact decide_eq_true h

def pastMemory (image : Image) (position : Position) (count : Int) :
    Diagnostic :=
  ⟨.range (.pastMemory count image.pc), position⟩

def append? (image : Image) (position : Position) (chunk : Chunk) :
    Except Diagnostic Effect :=
  if image.hasRoom chunk.bytes.size then .ok (.append chunk)
  else .error (image.pastMemory position chunk.bytes.size)

def pad? (image : Image) (position : Position) (count : Int) (b : UInt8) :
    Except Diagnostic Effect :=
  if image.hasRoom count then
    .ok (.append ⟨Array.replicate count.toNat b, #[]⟩)
  else .error (image.pastMemory position count)

def define? (image : Image) (position : Position) (name : Text)
    (binding : Symbol.Binding) : Except Diagnostic Effect :=
  match image.symbols.duplicate? name with
  | some d => .error ⟨.duplicate d, position⟩
  | none => .ok (.define name binding)

end Image

/-!
## Building chunks
-/

structure Argument where
  value : Value
  position : Position
  deriving DecidableEq

namespace Chunk

def empty : Chunk := ⟨#[], #[]⟩

def addBytes (chunk : Chunk) (bytes : List UInt8) : Chunk :=
  { chunk with bytes := chunk.bytes ++ bytes }

/-- Leaves a field of zeros for a name that is not bound yet. -/
def addFixup (chunk : Chunk) (name : Text) (position : Position) (width : Nat)
    (reference : Reference) : Chunk :=
  { bytes := chunk.bytes ++ List.replicate width (0 : UInt8)
    fixups := chunk.fixups.push
      ⟨chunk.bytes.size, name, width, reference, position⟩ }

def addValue (chunk : Chunk) (value : Int) (position : Position) (width : Nat)
    (reference : Reference) : Except Diagnostic Chunk :=
  match reference.encode value width with
  | .error fault => .error ⟨.range (.reference fault), position⟩
  | .ok n => .ok (chunk.addBytes (Field.bytes n width))

/-- A field for an argument: its value, or a fixup while that is unknown. -/
def addArgument (table : SymbolTable) (chunk : Chunk) (argument : Argument)
    (width : Nat) (reference : Reference) : Except Diagnostic Chunk :=
  match argument.value with
  | .number n => chunk.addValue n argument.position width reference
  | .name name =>
      match table.value? name with
      | some n => chunk.addValue n argument.position width reference
      | none => .ok (chunk.addFixup name argument.position width reference)

end Chunk
end Asm6502

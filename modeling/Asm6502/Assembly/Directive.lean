import Asm6502.Assembly.Image

/-!
# Directives

Directives place data, move the address of the next byte and define names.  A
directive that needs a value at once takes a number, or a name bound earlier.
-/

namespace Asm6502

open Diagnostic

inductive Directive where
  | org
  | byte
  | word
  | text
  | asciiz
  | fill
  | align
  | filler
  | const
  | label
  deriving DecidableEq

namespace Directive

def names : List (String × Directive) :=
  [("org", org), ("byte", byte), ("db", byte), ("word", word), ("dw", word),
    ("text", text), ("asciiz", asciiz), ("fill", fill), ("align", align),
    ("filler", filler), ("const", const), ("equ", const), ("label", label)]

def ofName? (name : Text) : Option Directive :=
  names.lookup (String.ofList name)

def arity : Directive -> Nat × Nat
  | org | align | filler => (1, 1)
  | byte | word | text | asciiz => (1, 65536)
  | fill => (1, 2)
  | const | label => (2, 2)

end Directive

/-- A directive statement: the name as written in small letters, the position
of the statement and the arguments. -/
structure Directive.Use where
  name : Text
  position : Position
  operands : List Operand

namespace Image

def directiveFault (position : Position) (fault : DirectiveFault) : Diagnostic :=
  ⟨.directive fault, position⟩

/-!
## Values known at once
-/

def constValue (image : Image) (o : Operand) : Except Diagnostic Int :=
  match o.form with
  | .indirect _ _ => .error (directiveFault o.position .indirectOperand)
  | .plain (.number n) => .ok n
  | .plain (.name name) =>
      match image.symbols.value? name with
      | some n => .ok n
      | none => .error (directiveFault o.position (.notYetDefined name))
  | _ => .error (directiveFault o.position .notAValue)

def byteValue (image : Image) (o : Operand) : Except Diagnostic UInt8 := do
  let n <- image.constValue o
  if n < 0 || 0xFF < n then .error ⟨.range (.notAByte n), o.position⟩
  else .ok (UInt8.ofInt n)

/-!
## Data
-/

def addByte (image : Image) (name : Text) (chunk : Chunk) (o : Operand) :
    Except Diagnostic Chunk :=
  match o.form with
  | .string contents => .ok (chunk.addBytes (Utf8.encode contents))
  | .plain v | .immediate v =>
      chunk.addArgument image.symbols ⟨v, o.position⟩ 1 .absolute
  | _ => .error (directiveFault o.position (.wantsBytes name))

def addWord (image : Image) (name : Text) (chunk : Chunk) (o : Operand) :
    Except Diagnostic Chunk :=
  match o.form with
  | .plain v => chunk.addArgument image.symbols ⟨v, o.position⟩ 2 .absolute
  | _ => .error (directiveFault o.position (.wantsWords name))

def addString (name : Text) (chunk : Chunk) (o : Operand) :
    Except Diagnostic Chunk :=
  match o.form with
  | .string contents => .ok (chunk.addBytes (Utf8.encode contents))
  | _ => .error (directiveFault o.position (.wantsStrings name))

def dataEffect (image : Image) (use : Directive.Use)
    (add : Chunk -> Operand -> Except Diagnostic Chunk) (final : List UInt8) :
    Except Diagnostic Effect := do
  let chunk <- use.operands.foldlM add Chunk.empty
  image.append? use.position (chunk.addBytes final)

/-!
## Addresses
-/

/-- The first address given before any output moves the origin; later ones pad
up to it. -/
def orgEffect (image : Image) (position : Position) (o : Operand) :
    Except Diagnostic Effect := do
  let address <- image.constValue o
  if !image.originSet && image.bytes.isEmpty then .ok (.moveOrigin address)
  else if address < image.pc then
    .error (directiveFault position (.movesBack address image.pc))
  else image.pad? position (wrap64 (address - image.pc)) image.filler

def fillEffect (image : Image) (position : Position) (count : Operand)
    (byte : Option Operand) : Except Diagnostic Effect := do
  let n <- image.constValue count
  if n < 0 then .error ⟨.range (.negativeCount n), position⟩
  else
    let b <- match byte with
      | some o => image.byteValue o
      | none => .ok image.filler
    image.pad? position n b

/-- The number of bytes to the next multiple; remainders take the sign of the
number that is divided. -/
def alignment (address n : Int) : Int :=
  Int.tmod (wrap64 (n - Int.tmod address n)) n

def alignEffect (image : Image) (position : Position) (o : Operand) :
    Except Diagnostic Effect := do
  let n <- image.constValue o
  if n < 1 then .error ⟨.range (.alignment n), position⟩
  else image.pad? position (alignment image.pc n) image.filler

def isDefault (o : Operand) : Bool :=
  match o.form with
  | .plain (.name name) | .indirect (.name name) _ =>
      name.lower == "default".toList
  | _ => false

/-- Changes the filler; the name `default` stands for the initial one. -/
def fillerEffect (image : Image) (initial : UInt8) (o : Operand) :
    Except Diagnostic Effect :=
  if isDefault o then .ok (.setFiller initial)
  else (image.byteValue o).map .setFiller

/-!
## Names
-/

def bindEffect (image : Image) (directive : Text) (kind : Symbol.Kind)
    (name value : Operand) : Except Diagnostic Effect :=
  match name.form with
  | .plain (.name t) => do
      let n <- image.constValue value
      image.define? name.position t ⟨kind, n⟩
  | _ => .error (directiveFault name.position (.wantsName directive))

/-!
## All directives
-/

/-- The effect of a directive.  Cases with a wrong number of arguments are
ruled out by `arity` beforehand. -/
def directiveEffect (image : Image) (initial : UInt8) (d : Directive)
    (use : Directive.Use) : Except Diagnostic Effect :=
  let (least, most) := d.arity
  let count := use.operands.length
  let miscounted : Except Diagnostic Effect :=
    .error (directiveFault use.position
      (.argumentCount use.name least most count))
  if count < least || most < count then miscounted
  else
    match d, use.operands with
    | .byte, _ => image.dataEffect use (image.addByte use.name) []
    | .word, _ => image.dataEffect use (image.addWord use.name) []
    | .text, _ => image.dataEffect use (addString use.name) []
    | .asciiz, _ => image.dataEffect use (addString use.name) [0]
    | .org, [o] => image.orgEffect use.position o
    | .fill, [n] => image.fillEffect use.position n none
    | .fill, [n, b] => image.fillEffect use.position n (some b)
    | .align, [o] => image.alignEffect use.position o
    | .filler, [o] => image.fillerEffect initial o
    | .const, [name, value] => image.bindEffect use.name .constant name value
    | .label, [name, value] => image.bindEffect use.name .label name value
    | _, _ => miscounted

end Image
end Asm6502

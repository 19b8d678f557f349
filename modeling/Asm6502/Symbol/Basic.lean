import Asm6502.Source.Position

/-!
# Symbols

A symbol is a name that a source mentions or defines.  It is pending until it
is bound, once, to an address or to a named value.
-/

namespace Asm6502

namespace Symbol

inductive Kind where
  | label
  | constant
  deriving DecidableEq

def Kind.name : Kind -> String
  | label => "label"
  | constant => "constant"

def Kind.code : Kind -> Nat
  | label => 0
  | constant => 1

/-- Every code but that of a constant is read as a label. -/
def Kind.ofCode (code : Int) : Kind :=
  if code = 1 then constant else label

structure Binding where
  kind : Kind
  value : Int
  deriving DecidableEq

end Symbol

structure Symbol where
  /-- The name as it was first spelled. -/
  name : Text
  binding : Option Symbol.Binding
  /-- Where the name was first referred to; line zero when it was bound first. -/
  position : Position
  deriving DecidableEq

namespace Symbol

def isDefined (s : Symbol) : Bool :=
  s.binding.isSome

def value (s : Symbol) : Int :=
  s.binding.elim 0 Binding.value

def kind (s : Symbol) : Kind :=
  s.binding.elim .label Binding.kind

end Symbol
end Asm6502

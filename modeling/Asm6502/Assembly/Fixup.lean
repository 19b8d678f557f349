import Asm6502.Diagnostic.Basic

/-!
# Fixups

A fixup is a field of the output that refers to a name not bound yet.  Once all
statements are read it is filled in, provided that its name was bound and the
value can be stored.
-/

namespace Asm6502

structure Fixup where
  /-- The place of the field in the output. -/
  offset : Nat
  name : Text
  width : Int
  reference : Reference
  position : Position
  deriving DecidableEq

namespace Fixup

structure Patched where
  code : Array UInt8
  faults : Array Diagnostic

/-- Fills in one field.  A name that is not bound leaves it as it is. -/
def apply (table : SymbolTable) (p : Patched) (f : Fixup) : Patched :=
  match table.value? f.name with
  | none => p
  | some value =>
      match f.reference.encode value f.width with
      | .error fault =>
          { p with
            faults := p.faults.push ⟨.range (.fixup f.name fault), f.position⟩ }
      | .ok n =>
          { p with code := Field.store p.code f.offset (Field.bytes n f.width) }

def applyAll (table : SymbolTable) (code : Array UInt8) (fixups : List Fixup) :
    Patched :=
  fixups.foldl (apply table) ⟨code, #[]⟩

end Fixup

def SymbolTable.undefinedReports (table : SymbolTable) : List Diagnostic :=
  table.pendingByPosition.map fun s => ⟨.undefined s.name, s.position⟩

end Asm6502

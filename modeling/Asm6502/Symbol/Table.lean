import Asm6502.Symbol.Basic
import Asm6502.Text.LowerCase
import Std.Data.TreeMap

/-!
# The symbol table

A table maps names to symbols without regard to case.  An entry is made by
whichever comes first, a reference or a definition, keeps the spelling of that
first mention, and is bound at most once.
-/

namespace Asm6502

structure SymbolTable where
  /-- Entries by the case-folded name. -/
  entries : Std.TreeMap Text Symbol compare

namespace SymbolTable

/-- A name is bound already: the spelling of its entry, and what it is. -/
structure Duplicate where
  name : Text
  kind : Symbol.Kind
  deriving DecidableEq

def Duplicate.message (d : Duplicate) : String :=
  "duplicate label: " ++ String.ofList d.name ++ " is already defined as a " ++
    d.kind.name

def empty : SymbolTable := ⟨∅⟩

def lookup? (table : SymbolTable) (name : Text) : Option Symbol :=
  table.entries[name.foldCase]?

def binding? (table : SymbolTable) (name : Text) : Option Symbol.Binding :=
  (table.lookup? name).bind Symbol.binding

def value? (table : SymbolTable) (name : Text) : Option Int :=
  (table.binding? name).map Symbol.Binding.value

def duplicate? (table : SymbolTable) (name : Text) : Option Duplicate :=
  match table.lookup? name with
  | some ⟨spelled, some binding, _⟩ => some ⟨spelled, binding.kind⟩
  | _ => none

def enter (table : SymbolTable) (name : Text) (position : Position) :
    SymbolTable :=
  if (table.lookup? name).isSome then table
  else ⟨table.entries.insert name.foldCase ⟨name, none, position⟩⟩

/-- Binds a name, whatever it was bound to before.  A new entry has no
reference yet, so its position is zero. -/
def bind (table : SymbolTable) (name : Text) (binding : Symbol.Binding) :
    SymbolTable :=
  let entered := table.enter name ⟨0, 0⟩
  ⟨entered.entries.modify name.foldCase fun entry =>
    { entry with binding := some binding }⟩

def define (table : SymbolTable) (name : Text) (binding : Symbol.Binding) :
    Except Duplicate SymbolTable :=
  match table.duplicate? name with
  | some d => .error d
  | none => .ok (table.bind name binding)

/-- Records a reference.  The first one that has a line fixes the position. -/
def mention (table : SymbolTable) (name : Text) (position : Position) :
    SymbolTable :=
  let entered := table.enter name position
  ⟨entered.entries.modify name.foldCase fun entry =>
    if entry.position.line = 0 then { entry with position := position }
    else entry⟩

/-!
## Views

Entries are kept in the order of their folded names, so the pending names come
out sorted, and a stable sort by value leaves bound symbols of one value in the
order of their names.
-/

def toList (table : SymbolTable) : List Symbol :=
  table.entries.values

def pending (table : SymbolTable) : List Symbol :=
  table.toList.filter fun s => !s.isDefined

def undefined (table : SymbolTable) : List Text :=
  table.pending.map Symbol.name

def allDefined (table : SymbolTable) : Bool :=
  table.toList.all Symbol.isDefined

def symbols (table : SymbolTable) : List Symbol :=
  (table.toList.filter Symbol.isDefined).mergeSort fun s t => s.value ≤ t.value

def pendingByPosition (table : SymbolTable) : List Symbol :=
  table.pending.mergeSort fun s t =>
    s.position.line < t.position.line ||
      s.position.line == t.position.line && s.position.column ≤ t.position.column

end SymbolTable
end Asm6502

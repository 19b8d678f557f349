import Asm6502.Proofs.Located
import Asm6502.Proofs.SmallLetters

/-!
# Case insensitivity

A source without quotes and the same source in small letters run side by side.  Their
events are the same up to the case of names, and the symbol table finds a name in either
case.  So the two runs give the same bytes and fail at the same places, and a source in
capitals does, too.
-/

namespace Asm6502

/-!
## Symbol tables
-/

def Symbol.small (s : Symbol) : Symbol :=
  { s with name := s.name.lower }

namespace SymbolTable

def Small (table table' : SymbolTable) : Prop :=
  ∀ key : Text, table'.entries[key]? = table.entries[key]?.map Symbol.small

namespace Small

variable {table table' : SymbolTable}

theorem lookup? (h : table.Small table') (name : Text) :
    table'.lookup? name.lower = (table.lookup? name).map Symbol.small := by
  unfold SymbolTable.lookup?
  rw [Text.foldCase_lower]
  exact h _

theorem binding? (h : table.Small table') (name : Text) :
    table'.binding? name.lower = table.binding? name := by
  unfold SymbolTable.binding?
  rw [h.lookup?, Option.bind_map]
  rfl

theorem value? (h : table.Small table') (name : Text) :
    table'.value? name.lower = table.value? name := by
  unfold SymbolTable.value?
  rw [h.binding?]

theorem duplicate? (h : table.Small table') (name : Text) :
    table'.duplicate? name.lower =
      (table.duplicate? name).map fun d => { d with name := d.name.lower } := by
  unfold SymbolTable.duplicate?
  rw [h.lookup?]
  cases table.lookup? name with
  | none => rfl
  | some entry =>
      rcases entry with ⟨spelled, binding, position⟩
      cases binding <;> rfl

theorem bind (h : table.Small table') (name : Text) (binding : Symbol.Binding) :
    (table.bind name binding).Small (table'.bind name.lower binding) := by
  intro key
  rw [getElem?_bind, getElem?_bind, Text.foldCase_lower, h.lookup?]
  split
  · cases table.lookup? name <;> rfl
  · exact h key

theorem mention (h : table.Small table') (name : Text) (position : Position) :
    (table.mention name position).Small (table'.mention name.lower position) := by
  intro key
  rw [getElem?_mention, getElem?_mention, Text.foldCase_lower, h.lookup?]
  split
  · cases table.lookup? name with
    | none =>
        simp only [Option.map_none, Option.getD_none, Option.map_some]
        split <;> rfl
    | some entry =>
        by_cases hline : entry.position.line = 0 <;> simp [Symbol.small, hline]
  · exact h key

theorem toList (h : table.Small table') :
    table'.toList = table.toList.map Symbol.small := by
  have hequiv : table'.entries.Equiv (table.entries.map fun _ => Symbol.small) :=
    .of_forall_constGet?_eq fun key => by rw [Std.TreeMap.getElem?_map, h key]
  rw [toList_eq_map, toList_eq_map, hequiv.toList_eq, Std.TreeMap.toList_map, List.map_map,
    List.map_map]
  rfl

theorem symbols (h : table.Small table') :
    table'.symbols = table.symbols.map Symbol.small := by
  unfold SymbolTable.symbols
  rw [h.toList, List.filter_map]
  refine Eq.symm (List.map_mergeSort ?_)
  intro s _ t _
  rfl

theorem pendingByPosition (h : table.Small table') :
    table'.pendingByPosition = table.pendingByPosition.map Symbol.small := by
  unfold SymbolTable.pendingByPosition pending
  rw [h.toList, List.filter_map]
  refine Eq.symm (List.map_mergeSort ?_)
  intro s _ t _
  rfl

end Small
end SymbolTable

/-!
## Images
-/

def Fixup.small (f : Fixup) : Fixup :=
  { f with name := f.name.lower }

def Chunk.small (chunk : Chunk) : Chunk :=
  { chunk with fixups := chunk.fixups.map Fixup.small }

def Effect.small : Effect -> Effect
  | define name binding => define name.lower binding
  | moveOrigin origin => moveOrigin origin
  | setFiller filler => setFiller filler
  | append chunk => append chunk.small

namespace Image

structure Small (image image' : Image) : Prop where
  bytes : image'.bytes = image.bytes
  origin : image'.origin = image.origin
  originSet : image'.originSet = image.originSet
  filler : image'.filler = image.filler
  symbols : image.symbols.Small image'.symbols
  fixups : image'.fixups = image.fixups.map Fixup.small

theorem small_start (origin : Int) (filler : UInt8) :
    (start origin filler).Small (start origin filler) :=
  ⟨rfl, rfl, rfl, rfl, fun key => by simp [start, SymbolTable.empty], by simp [start]⟩

variable {image image' : Image}

theorem Small.append (h : image.Small image') (chunk : Chunk) :
    (image.append chunk).Small (image'.append chunk.small) := by
  have hmentions : ∀ (fixups : List Fixup) {table table' : SymbolTable},
      table.Small table' ->
      (fixups.foldl (fun t f => t.mention f.name f.position) table).Small
        ((fixups.map Fixup.small).foldl (fun t f => t.mention f.name f.position)
          table') := by
    intro fixups
    induction fixups with
    | nil => exact fun htable => htable
    | cons f rest ih => exact fun htable => ih (htable.mention f.name f.position)
  unfold Image.append
  dsimp only
  refine ⟨by rw [h.bytes]; rfl, h.origin, h.originSet, h.filler, ?_, ?_⟩
  · rw [← Array.foldl_toList, ← Array.foldl_toList]
    simpa [Chunk.small] using hmentions chunk.fixups.toList h.symbols
  · rw [h.fixups, h.bytes, Array.map_append, Array.map_map, Chunk.small]
    dsimp only
    rw [Array.map_map]
    rfl

theorem Small.apply (h : image.Small image') (e : Effect) :
    (image.apply e).Small (image'.apply e.small) := by
  cases e with
  | define name binding =>
      exact ⟨h.bytes, h.origin, h.originSet, h.filler, h.symbols.bind name binding,
        h.fixups⟩
  | moveOrigin origin => exact ⟨h.bytes, rfl, rfl, h.filler, h.symbols, h.fixups⟩
  | setFiller filler => exact ⟨h.bytes, h.origin, h.originSet, rfl, h.symbols, h.fixups⟩
  | append chunk => exact h.append chunk

theorem Small.pc (h : image.Small image') : image'.pc = image.pc := by
  unfold Image.pc
  rw [h.origin, h.bytes]

theorem Small.hasRoom (h : image.Small image') (count : Int) :
    image'.hasRoom count = image.hasRoom count := by
  unfold Image.hasRoom
  rw [h.pc]

end Image

/-!
## Statements
-/

/-- Both succeed, the second with the result in small letters, or both fail alike. -/
abbrev Follows {α β : Type} (change : α -> β) :
    Except Diagnostic α -> Except Diagnostic β -> Prop :=
  Tracks Diagnostic.Alike change

/-- A computation that never shows a name fails in the same way. -/
theorem Follows.of_map {α β : Type} {change : α -> β} {x : Except Diagnostic α}
    {y : Except Diagnostic β} (h : y = x.map change) : Follows change x y := by
  subst h
  cases x with
  | ok a => exact .ok rfl
  | error d => exact .error (.refl d)

abbrev Operand.small : Operand -> Operand :=
  Grammar.Change.small.operand

def Argument.small (a : Argument) : Argument :=
  ⟨Grammar.Change.small.value a.value, a.position⟩

def Selection.small (choice : Mode × Option Argument) : Mode × Option Argument :=
  (choice.1, choice.2.map Argument.small)

namespace SymbolTable.Small

variable {table table' : SymbolTable}

theorem addArgument (h : table.Small table') (chunk : Chunk) (a : Argument) (width : Nat)
    (reference : Reference) :
    chunk.small.addArgument table' a.small width reference =
      (chunk.addArgument table a width reference).map Chunk.small := by
  have hvalue : ∀ n : Int, chunk.small.addValue n a.position width reference =
      (chunk.addValue n a.position width reference).map Chunk.small := by
    intro n
    unfold Chunk.addValue
    cases reference.encode n width <;> rfl
  rcases a with ⟨value, position⟩
  cases value with
  | number n => exact hvalue n
  | name name =>
      simp only [Chunk.addArgument, Argument.small, Grammar.Change.value]
      rw [show table'.value? (Grammar.Change.small.name name) = _ from h.value? name]
      cases table.value? name with
      | some n => exact hvalue n
      | none =>
          have hfixup : chunk.small.addFixup name.lower position width reference =
              (chunk.addFixup name position width reference).small := by
            simp [Chunk.addFixup, Chunk.small, Fixup.small]
          exact congrArg Except.ok hfixup

theorem isZeroPage (h : table.Small table') (v : Value) :
    Selection.isZeroPage table' (Grammar.Change.small.value v) =
      Selection.isZeroPage table v := by
  cases v with
  | number n => rfl
  | name name =>
      simp only [Selection.isZeroPage, Grammar.Change.value]
      rw [show table'.binding? (Grammar.Change.small.name name) = _ from h.binding? name]

theorem byAddress (h : table.Small table') (m : Mnemonic) (v : Value) (short long : Mode) :
    Selection.byAddress table' m (Grammar.Change.small.value v) short long =
      Selection.byAddress table m v short long := by
  unfold Selection.byAddress
  rw [h.isZeroPage]

theorem single (h : table.Small table') (m : Mnemonic) (o : Operand) :
    Selection.single table' m o.small = (Selection.single table m o).map Selection.small := by
  rcases o with ⟨form, position⟩
  cases form with
  | plain v =>
      show Except.ok _ = Except.ok _
      rw [h.byAddress]
      rfl
  | immediate v => rfl
  | indirect v indexed => cases indexed <;> rfl
  | register r => cases r <;> rfl
  | string contents => rfl

theorem byX (h : table.Small table') (m : Mnemonic) (o : Operand) :
    Selection.byX table' m o.small = (Selection.byX table m o).map Selection.small := by
  rcases o with ⟨form, position⟩
  cases form with
  | plain v =>
      show Except.ok _ = Except.ok _
      rw [h.byAddress]
      rfl
  | _ => rfl

theorem byY (h : table.Small table') (m : Mnemonic) (o : Operand) :
    Selection.byY table' m o.small = (Selection.byY table m o).map Selection.small := by
  rcases o with ⟨form, position⟩
  cases form with
  | plain v =>
      show Except.ok _ = Except.ok _
      rw [h.byAddress]
      rfl
  | indirect v indexed => cases indexed <;> rfl
  | _ => rfl

theorem select (h : table.Small table') (m : Mnemonic) (operands : List Operand) :
    Selection.select table' m (operands.map Operand.small) =
      (Selection.select table m operands).map Selection.small := by
  match operands with
  | [] =>
      simp only [List.map_nil, Selection.select]
      split
      · rfl
      · split <;> rfl
  | [o] => exact h.single m o
  | [o, index] =>
      rcases index with ⟨form, position⟩
      cases form with
      | register r =>
          cases r with
          | x => exact h.byX m o
          | y => exact h.byY m o
          | _ => rfl
      | _ => rfl
  | o :: second :: third :: rest => simp [Selection.select, Except.map]

end SymbolTable.Small

namespace Shorthand

theorem byRegister_small (onA onFlags : Mnemonic) (operands : List Operand) :
    byRegister onA onFlags (operands.map Operand.small) =
      byRegister onA onFlags operands := by
  match operands with
  | [] => rfl
  | [o] =>
      rcases o with ⟨form, position⟩
      cases form <;> rfl
  | first :: second :: rest => simp [byRegister]

theorem byBit_small (clear : Mnemonic) (set : Option Mnemonic) (operands : List Operand) :
    byBit clear set (operands.map Operand.small) = byBit clear set operands := by
  match operands with
  | [] => rfl
  | [o] =>
      rcases o with ⟨form, position⟩
      cases form with
      | plain v => cases v <;> rfl
      | indirect v indexed => cases v <;> rfl
      | _ => rfl
  | first :: second :: rest => simp [byBit]

theorem expand_small (s : Shorthand) (operands : List Operand) :
    s.expand (operands.map Operand.small) =
      (s.expand operands).map fun found => (found.1, found.2.map Operand.small) := by
  have hnone : ∀ x : Except Diagnostic.ShorthandFault Mnemonic,
      x.map (·, []) = (x.map (·, ([] : List Operand))).map fun found =>
        (found.1, found.2.map Operand.small) := by
    intro x
    cases x <;> rfl
  unfold expand
  rw [byRegister_small, byRegister_small, byBit_small, byBit_small, byBit_small, byBit_small]
  cases s with
  | goto => rfl
  | _ => exact hnone _

end Shorthand

namespace Image

variable {image image' : Image}

theorem Small.encode (h : image.Small image') (i : Instruction) (a : Option Argument) :
    image'.encode i (a.map Argument.small) = (image.encode i a).map Chunk.small := by
  let opcode : Chunk := ⟨#[i.opcode], #[]⟩
  have hopcode : opcode.small = opcode := by simp [opcode, Chunk.small]
  cases a with
  | none => exact congrArg Except.ok hopcode.symm
  | some a =>
      unfold Image.encode
      dsimp only [Option.map_some]
      rw [h.pc, ← h.symbols.addArgument opcode, hopcode]

theorem Small.append? (h : image.Small image') (position : Position) (chunk : Chunk) :
    image'.append? position chunk.small =
      (image.append? position chunk).map Effect.small := by
  unfold Image.append? Image.pastMemory
  rw [h.hasRoom, h.pc]
  show (if image.hasRoom chunk.bytes.size then _ else _) = _
  split <;> rfl

theorem Small.mnemonicEffect (h : image.Small image') (position : Position) (m : Mnemonic)
    (operands : List Operand) :
    image'.mnemonicEffect position m (operands.map Operand.small) =
      (image.mnemonicEffect position m operands).map Effect.small := by
  unfold Image.mnemonicEffect
  rw [h.symbols.select]
  cases Selection.select image.symbols m operands with
  | error f => rfl
  | ok choice =>
      dsimp only [Except.map, Selection.small]
      cases Instruction.of? m choice.1 with
      | none => rfl
      | some i =>
          show image'.encode i (choice.2.map Argument.small) >>= image'.append? position = _
          rw [h.encode]
          show _ = (image.encode i choice.2 >>= image.append? position).map Effect.small
          cases image.encode i choice.2 with
          | error d => rfl
          | ok chunk => exact h.append? position chunk

theorem Small.instructionEffect (h : image.Small image') (position : Position)
    (operands : List Operand) (operation : Operation) :
    image'.instructionEffect position (operands.map Operand.small) operation =
      (image.instructionEffect position operands operation).map Effect.small := by
  cases operation with
  | cpu m => exact h.mnemonicEffect position m operands
  | shorthand s =>
      unfold Image.instructionEffect
      dsimp only
      rw [s.expand_small]
      cases s.expand operands with
      | error f => rfl
      | ok found => exact h.mnemonicEffect position found.1 found.2

/-!
### Directives
-/

theorem Small.constValue (h : image.Small image') (o : Operand) :
    Follows id (image.constValue o) (image'.constValue o.small) := by
  rcases o with ⟨form, position⟩
  cases form with
  | plain v =>
      cases v with
      | number n => exact .ok rfl
      | name name =>
          simp only [Image.constValue, Grammar.Change.operand, Grammar.Change.form,
            Grammar.Change.value]
          rw [show image'.symbols.value? (Grammar.Change.small.name name) = _ from
            h.symbols.value? name]
          cases image.symbols.value? name with
          | some n => exact .ok rfl
          | none => exact .error ⟨rfl, rfl⟩
  | _ => exact .error ⟨rfl, rfl⟩

theorem Small.byteValue (h : image.Small image') (o : Operand) :
    Follows id (image.byteValue o) (image'.byteValue o.small) := by
  refine (h.constValue o).bind fun n => ?_
  exact .ite (.error ⟨rfl, rfl⟩) (.ok rfl)

theorem Small.addByte (h : image.Small image') (name : Text) (chunk : Chunk)
    (o : Operand) :
    image'.addByte name chunk.small o.small =
      (image.addByte name chunk o).map Chunk.small := by
  rcases o with ⟨form, position⟩
  cases form with
  | plain v => exact h.symbols.addArgument chunk ⟨v, position⟩ 1 .absolute
  | immediate v => exact h.symbols.addArgument chunk ⟨v, position⟩ 1 .absolute
  | _ => rfl

theorem Small.addWord (h : image.Small image') (name : Text) (chunk : Chunk)
    (o : Operand) :
    image'.addWord name chunk.small o.small =
      (image.addWord name chunk o).map Chunk.small := by
  rcases o with ⟨form, position⟩
  cases form with
  | plain v => exact h.symbols.addArgument chunk ⟨v, position⟩ 2 .absolute
  | _ => rfl

theorem addString_small (name : Text) (chunk : Chunk) (o : Operand) :
    addString name chunk.small o.small = (addString name chunk o).map Chunk.small := by
  rcases o with ⟨form, position⟩
  cases form <;> rfl

theorem Small.dataEffect (h : image.Small image') (name : Text) (position : Position)
    {add add' : Chunk -> Operand -> Except Diagnostic Chunk}
    (hadd : ∀ chunk o, add' chunk.small o.small = (add chunk o).map Chunk.small)
    (operands : List Operand) (final : List UInt8) :
    image'.dataEffect ⟨name, position, operands.map Operand.small⟩ add' final =
      (image.dataEffect ⟨name, position, operands⟩ add final).map Effect.small := by
  have hfold : ∀ chunk : Chunk, (operands.map Operand.small).foldlM add' chunk.small =
      (operands.foldlM add chunk).map Chunk.small := by
    induction operands with
    | nil => exact fun chunk => rfl
    | cons o rest ih =>
        intro chunk
        rw [List.map_cons, List.foldlM_cons, List.foldlM_cons, hadd]
        cases add chunk o with
        | error d => rfl
        | ok more => exact ih more
  have hempty : Chunk.empty.small = Chunk.empty := by simp [Chunk.small, Chunk.empty]
  have hstart := hfold Chunk.empty
  rw [hempty] at hstart
  unfold Image.dataEffect
  dsimp only
  rw [hstart]
  cases operands.foldlM add Chunk.empty with
  | error d => rfl
  | ok chunk => exact h.append? position (chunk.addBytes final)

theorem Small.pad? (h : image.Small image') (position : Position) (count : Int)
    (b : UInt8) :
    image'.pad? position count b = (image.pad? position count b).map Effect.small := by
  unfold Image.pad? Image.pastMemory
  rw [h.hasRoom, h.pc]
  split
  · simp [Except.map, Effect.small, Chunk.small]
  · rfl

theorem Small.orgEffect (h : image.Small image') (position : Position) (o : Operand) :
    Follows Effect.small (image.orgEffect position o) (image'.orgEffect position o.small) := by
  refine (h.constValue o).bind fun address => ?_
  rw [h.originSet, h.bytes, h.pc, h.filler]
  exact .ite (.ok rfl) (.ite (.error ⟨rfl, rfl⟩) (Follows.of_map (h.pad? ..)))

theorem Small.fillEffect (h : image.Small image') (position : Position) (count : Operand)
    (byte : Option Operand) :
    Follows Effect.small (image.fillEffect position count byte)
      (image'.fillEffect position count.small (byte.map Operand.small)) := by
  refine (h.constValue count).bind fun n => .ite (.error ⟨rfl, rfl⟩) ?_
  cases byte with
  | none =>
      show Follows Effect.small (image.pad? position n image.filler)
        (image'.pad? position n image'.filler)
      rw [h.filler]
      exact Follows.of_map (h.pad? ..)
  | some o => exact (h.byteValue o).bind fun b => Follows.of_map (h.pad? ..)

theorem Small.alignEffect (h : image.Small image') (position : Position) (o : Operand) :
    Follows Effect.small (image.alignEffect position o)
      (image'.alignEffect position o.small) := by
  refine (h.constValue o).bind fun n => ?_
  rw [h.pc, h.filler]
  exact .ite (.error ⟨rfl, rfl⟩) (Follows.of_map (h.pad? ..))

theorem isDefault_small (o : Operand) : isDefault o.small = isDefault o := by
  have hname : ∀ name : Text, (Grammar.Change.small.name name).lower = name.lower :=
    Text.lower_lower
  rcases o with ⟨form, position⟩
  cases form with
  | plain v =>
      cases v with
      | number n => rfl
      | name name => exact congrArg (· == "default".toList) (hname name)
  | indirect v indexed =>
      cases v with
      | number n => rfl
      | name name => exact congrArg (· == "default".toList) (hname name)
  | _ => rfl

theorem Small.fillerEffect (h : image.Small image') (initial : UInt8) (o : Operand) :
    Follows Effect.small (image.fillerEffect initial o)
      (image'.fillerEffect initial o.small) := by
  unfold Image.fillerEffect
  rw [isDefault_small]
  exact .ite (.ok rfl) ((h.byteValue o).map fun _ _ hbyte => congrArg Effect.setFiller hbyte)

theorem Small.define? (h : image.Small image') (position : Position) (name : Text)
    (binding : Symbol.Binding) :
    Follows Effect.small (image.define? position name binding)
      (image'.define? position name.lower binding) := by
  unfold Image.define?
  rw [h.symbols.duplicate?]
  cases image.symbols.duplicate? name with
  | none => exact .ok rfl
  | some d => exact .error ⟨rfl, rfl⟩

theorem Small.bindEffect (h : image.Small image') (directive : Text) (kind : Symbol.Kind)
    (name value : Operand) :
    Follows Effect.small (image.bindEffect directive kind name value)
      (image'.bindEffect directive kind name.small value.small) := by
  rcases name with ⟨form, position⟩
  cases form with
  | plain v =>
      cases v with
      | number n => exact .error ⟨rfl, rfl⟩
      | name t => exact (h.constValue value).bind fun n => h.define? position t ⟨kind, n⟩
  | _ => exact .error ⟨rfl, rfl⟩

theorem Small.directiveEffect (h : image.Small image') (initial : UInt8) (d : Directive)
    (name : Text) (position : Position) (operands : List Operand) :
    Follows Effect.small (image.directiveEffect initial d ⟨name, position, operands⟩)
      (image'.directiveEffect initial d
        ⟨name, position, operands.map Operand.small⟩) := by
  unfold Image.directiveEffect
  dsimp only
  rw [List.length_map]
  refine .ite (.error (.refl _)) ?_
  cases d with
  | byte => exact Follows.of_map (h.dataEffect name position (h.addByte name) operands [])
  | word => exact Follows.of_map (h.dataEffect name position (h.addWord name) operands [])
  | text =>
      exact Follows.of_map (h.dataEffect name position (addString_small name) operands [])
  | asciiz =>
      exact Follows.of_map (h.dataEffect name position (addString_small name) operands [0])
  | org =>
      match operands with
      | [o] => exact h.orgEffect position o
      | [] | _ :: _ :: _ => exact .error (.refl _)
  | align =>
      match operands with
      | [o] => exact h.alignEffect position o
      | [] | _ :: _ :: _ => exact .error (.refl _)
  | filler =>
      match operands with
      | [o] => exact h.fillerEffect initial o
      | [] | _ :: _ :: _ => exact .error (.refl _)
  | fill =>
      match operands with
      | [n] => exact h.fillEffect position n none
      | [n, b] => exact h.fillEffect position n (some b)
      | [] | _ :: _ :: _ :: _ => exact .error (.refl _)
  | const =>
      match operands with
      | [n, value] => exact h.bindEffect name .constant n value
      | [] | [_] | _ :: _ :: _ :: _ => exact .error (.refl _)
  | label =>
      match operands with
      | [n, value] => exact h.bindEffect name .label n value
      | [] | [_] | _ :: _ :: _ :: _ => exact .error (.refl _)

theorem Small.effect (h : image.Small image') (initial : UInt8) (s : Statement) :
    Follows Effect.small (image.effect initial s)
      (image'.effect initial (Grammar.Change.small.statement s)) := by
  rcases s with ⟨body, position⟩
  cases body with
  | label name =>
      show Follows _ (image.define? position name ⟨.label, image.pc⟩)
        (image'.define? position name.lower ⟨.label, image'.pc⟩)
      rw [h.pc]
      exact h.define? position name _
  | instruction operation operands =>
      exact Follows.of_map (h.instructionEffect position operands operation)
  | directive name operands =>
      unfold Image.effect
      dsimp only [Grammar.Change.statement, Grammar.Change.body]
      cases Directive.ofName? name with
      | none => exact .error ⟨rfl, rfl⟩
      | some d => exact h.directiveEffect initial d name position operands

end Image

/-!
## Runs
-/

theorem Fixup.applyAll_small {table table' : SymbolTable} (h : table.Small table')
    {code code' : Array UInt8} (hsame : code' = code) (fixups : List Fixup) :
    (applyAll table' code' (fixups.map Fixup.small)).code =
        (applyAll table code fixups).code ∧
      List.Forall₂ Diagnostic.Alike (applyAll table code fixups).faults.toList
        (applyAll table' code' (fixups.map Fixup.small)).faults.toList := by
  suffices hfold : ∀ {p p' : Patched}, p'.code = p.code ->
      List.Forall₂ Diagnostic.Alike p.faults.toList p'.faults.toList ->
      ((fixups.map Fixup.small).foldl (apply table') p').code =
          (fixups.foldl (apply table) p).code ∧
        List.Forall₂ Diagnostic.Alike (fixups.foldl (apply table) p).faults.toList
          ((fixups.map Fixup.small).foldl (apply table') p').faults.toList from
    hfold hsame .nil
  induction fixups with
  | nil => exact fun hcode hfaults => ⟨hcode, hfaults⟩
  | cons f rest ih =>
      intro p p' hcode hfaults
      have hvalue : table'.value? f.small.name = table.value? f.name := h.value? f.name
      rw [List.map_cons, List.foldl_cons, List.foldl_cons]
      unfold apply
      rw [hvalue]
      cases table.value? f.name with
      | none => exact ih hcode hfaults
      | some value =>
          dsimp only [Fixup.small]
          cases f.reference.encode value f.width with
          | error fault =>
              refine ih hcode ?_
              rw [Array.toList_push, Array.toList_push]
              exact List.rel_append hfaults (.cons ⟨rfl, rfl⟩ .nil)
          | ok n =>
              refine ih ?_ hfaults
              dsimp only
              rw [hcode]

structure Result.Small (result result' : Result) : Prop where
  code : result'.code = result.code
  origin : result'.origin = result.origin
  diagnostics : List.Forall₂ Diagnostic.Alike result.diagnostics result'.diagnostics
  symbols : result'.symbols = result.symbols.map Symbol.small

theorem SymbolTable.Small.undefinedReports {table table' : SymbolTable}
    (h : table.Small table') :
    List.Forall₂ Diagnostic.Alike table.undefinedReports table'.undefinedReports := by
  unfold SymbolTable.undefinedReports
  rw [h.pendingByPosition, List.map_map, List.forall₂_map_left_iff,
    List.forall₂_map_right_iff]
  exact List.forall₂_same.mpr fun s _ => ⟨rfl, rfl⟩

theorem Session.Paired.finish {session session' : Session}
    (h : Session.Paired Diagnostic.Alike Image.Small session session')
    (options : Options) :
    Result.Small (.ofSession options session.finish)
      (.ofSession options session'.finish) := by
  have hpatched := Fixup.applyAll_small h.image.symbols h.image.bytes
    session.image.fixups.toList
  rw [← Array.toList_map, ← h.image.fixups] at hpatched
  have hdiagnostics : List.Forall₂ Diagnostic.Alike session.finish.diagnostics.toList
      session'.finish.diagnostics.toList := by
    rw [toList_diagnostics_finish, toList_diagnostics_finish]
    exact List.rel_append (List.rel_append h.diagnostics hpatched.2)
      h.image.symbols.undefinedReports
  have hempty : session'.finish.diagnostics.toList.isEmpty =
      session.finish.diagnostics.toList.isEmpty := by
    generalize session.finish.diagnostics.toList = ds at hdiagnostics ⊢
    generalize session'.finish.diagnostics.toList = es at hdiagnostics ⊢
    cases hdiagnostics <;> rfl
  refine ⟨?_, h.image.origin, hdiagnostics, h.image.symbols.symbols⟩
  unfold Result.ofSession
  dsimp only
  rw [hempty]
  split
  · rfl
  · exact hpatched.1

/-- Without quotes, a source in small letters has the same result but for the case of the
names in it. -/
theorem small_assemble (options : Options) {source : Text} (h : source.Unquoted) :
    (assemble options source).Small (assemble options source.lower) := by
  have hstep : Session.InStep Diagnostic.Alike Image.Small
      (fun s t => t = Grammar.Change.small.statement s) options options := by
    rintro image image' s _ himage rfl
    refine Parallel.imp (himage.effect options.filler s) ?_
    rintro e _ rfl
    exact himage.apply e
  rcases Script.ofScan_small (Scan.ofText source) with ⟨hopening, hevents⟩
  rw [← Scan.ofText_lower h] at hopening hevents
  have hstart : Session.Paired Diagnostic.Alike Image.Small
      (Session.start options (Script.ofText source).opening)
      (Session.start options (Script.ofText source.lower).opening) := by
    refine ⟨Image.small_start options.origin options.filler, ?_⟩
    rw [show (Script.ofText source.lower).opening = _ from hopening]
    exact List.forall₂_same.mpr fun d _ => .refl d
  exact (hstart.foldl_handle hstep hevents).finish options

theorem Diagnostic.Alike.map_eq {ds es : List Diagnostic}
    (h : List.Forall₂ Diagnostic.Alike ds es) :
    ds.map (fun d => (d.kind, d.position)) = es.map fun d => (d.kind, d.position) := by
  induction h with
  | nil => rfl
  | cons hde _ ih => rw [List.map_cons, List.map_cons, hde.1, hde.2, ih]

/-- For every source in which neither kind of quote occurs, and all options: the source
and the same source in capitals have the same code and origin, diagnostics of the same
kinds at the same positions, and the same symbols in the same order, up to the case of
their names. -/
theorem assemble_case_insensitive (options : Options) (source : Text)
    (hsingle : '\'' ∉ source) (hdouble : '"' ∉ source) :
    let mixed := assemble options source
    let capital := assemble options source.upper
    mixed.code = capital.code ∧ mixed.origin = capital.origin ∧
      (mixed.diagnostics.map fun d => (d.kind, d.position)) =
        (capital.diagnostics.map fun d => (d.kind, d.position)) ∧
      (mixed.symbols.map fun s => (s.name.lower, s.kind, s.value, s.position)) =
        capital.symbols.map fun s => (s.name.lower, s.kind, s.value, s.position) := by
  intro mixed capital
  have hnone : ∀ {mark : Char}, mark.isAlpha = false -> mark ∉ source ->
      mark ∉ source.upper := by
    intro mark hmark hsource hupper
    rw [← Text.mem_lower_iff hmark, Text.lower_upper, Text.mem_lower_iff hmark] at hupper
    exact hsource hupper
  have hmixed := small_assemble options ⟨hsingle, hdouble⟩
  have hcapital := small_assemble options
    ⟨hnone rfl hsingle, hnone rfl hdouble⟩
  rw [Text.lower_upper] at hcapital
  -- Both agree with the source in small letters.
  refine ⟨hmixed.code.symm.trans hcapital.code, hmixed.origin.symm.trans hcapital.origin,
    ?_, ?_⟩
  · exact (Diagnostic.Alike.map_eq hmixed.diagnostics).trans
      (Diagnostic.Alike.map_eq hcapital.diagnostics).symm
  · let seen (s : Symbol) := (s.name.lower, s.kind, s.value, s.position)
    have hseen : ∀ symbols : List Symbol,
        (symbols.map Symbol.small).map seen = symbols.map seen := by
      intro symbols
      rw [List.map_map]
      refine List.map_congr_left fun s _ => ?_
      exact congrArg (fun name => (name, s.kind, s.value, s.position))
        (Text.lower_lower s.name)
    calc mixed.symbols.map seen
        = (mixed.symbols.map Symbol.small).map seen := (hseen _).symm
      _ = (capital.symbols.map Symbol.small).map seen := by
          rw [← hmixed.symbols, hcapital.symbols]
      _ = capital.symbols.map seen := hseen _

/-- Labels, mnemonics, directives, registers, digits and the marks of bases in either
case. -/
theorem assemble_case_insensitive_mixed :
    let source : Text :=
      "Loop: Lda $aB,x\n.Byte 0Xc, FAR\n bne lOOP\nNine = %1001\n.Org far".toList
    ('\'' ∉ source ∧ '"' ∉ source) ∧
      (assemble {} source).code = (assemble {} source.upper).code ∧
      (assemble {} source.upper).code = #[0xB5, 0xAB, 0x0C, 0x00, 0xD0, 0xFA] ∧
      (assemble {} source.upper).diagnostics.map (fun d => (d.kind, d.position)) =
        [(.grammar, ⟨5, 6⟩), (.undefinedLabel, ⟨2, 12⟩)] := by
  intro source
  have h := assemble_case_insensitive {} source (by decide) (by decide)
  exact ⟨by decide, h.1, h.1.symm.trans (by decide +kernel),
    h.2.2.1.symm.trans (by decide +kernel)⟩

end Asm6502

import Asm6502.Proofs.AddressSpace
import Asm6502.Proofs.SymbolHistory

/-!
# Names that statements refer to

A statement that is accepted refers to the names among its operands, apart from a name
that it defines and from the word that stands for the default filler.  What it enters into
the symbol table are the references to names that are pending at that moment, in the
order of the operands, or else the one name that it defines.  The table of a run therefore
records these references and definitions, one accepted statement after another.
-/

namespace Asm6502

/-- A name and the place of the operand that refers to it. -/
structure Mention where
  name : Text
  position : Position
  deriving DecidableEq

def Operand.mention? (o : Operand) : Option Mention :=
  match o.value? with
  | some (.name name) => some ⟨name, o.position⟩
  | _ => none

namespace Statement

/-- The operands that a statement wants the value of. -/
def valued (s : Statement) : List Operand :=
  match s.body with
  | .label _ => []
  | .instruction _ operands => operands
  | .directive name operands =>
      match Directive.ofName? name with
      | some .const | some .label => operands.drop 1
      | some .filler => operands.filter fun o => !Image.isDefault o
      | _ => operands

def defines? (s : Statement) : Option Text :=
  match s.body with
  | .label name => some name
  | .instruction _ _ => none
  | .directive name operands =>
      match Directive.ofName? name with
      | some .const | some .label =>
          match operands.head?.map Operand.form with
          | some (.plain (.name t)) => some t
          | _ => none
      | _ => none

theorem valued_sublist (s : Statement) : s.valued.Sublist s.operands := by
  unfold valued operands
  cases s.body with
  | label name => exact List.Sublist.refl _
  | instruction operation operands => exact List.Sublist.refl _
  | directive name operands =>
      dsimp only
      split
      · exact List.drop_sublist 1 operands
      · exact List.drop_sublist 1 operands
      · exact List.filter_sublist
      · exact List.Sublist.refl _

end Statement

/-!
## Pending references
-/

namespace SymbolTable

def pending? (table : SymbolTable) (o : Operand) : Option Mention :=
  o.mention?.filter fun m => (table.value? m.name).isNone

variable {table : SymbolTable} {o : Operand}

theorem pending?_of_value (h : o.value? = none) : table.pending? o = none := by
  simp [pending?, Operand.mention?, h]

theorem pending?_of_number {n : Int} (h : o.value? = some (.number n)) :
    table.pending? o = none := by
  simp [pending?, Operand.mention?, h]

theorem pending?_of_name {name : Text} (h : o.value? = some (.name name)) :
    table.pending? o =
      if (table.value? name).isNone then some ⟨name, o.position⟩ else none := by
  simp only [pending?, Operand.mention?, h, Option.filter]

theorem pending?_of_ok {image : Image} {n : Int} (h : image.constValue o = .ok n) :
    image.symbols.pending? o = none := by
  unfold Image.constValue at h
  split at h
  · cases h
  · rename_i m hform
    exact pending?_of_number (by rw [Operand.value?, hform])
  · rename_i name hform
    have hname : o.value? = some (.name name) := by rw [Operand.value?, hform]
    rw [pending?_of_name hname]
    cases hvalue : image.symbols.value? name with
    | none => simp [hvalue] at h
    | some m => rfl
  · cases h

theorem pending?_of_byteValue {image : Image} {b : UInt8} (h : image.byteValue o = .ok b) :
    image.symbols.pending? o = none := by
  rcases exists_ok_of_bind h with ⟨n, hn, _⟩
  exact pending?_of_ok hn

end SymbolTable

/-- The references of a statement to names that are pending when it is reached. -/
def Image.pendingMentions (image : Image) (s : Statement) : List Mention :=
  s.valued.filterMap image.symbols.pending?

/-!
## Chunks
-/

def Chunk.mentions (chunk : Chunk) : List Mention :=
  chunk.fixups.toList.map fun f => ⟨f.name, f.position⟩

namespace Chunk

variable {table : SymbolTable} {chunk chunk' : Chunk}

theorem mentions_addValue {value : Int} {position : Position} {width : Nat}
    {reference : Reference}
    (h : chunk.addValue value position width reference = .ok chunk') :
    chunk'.mentions = chunk.mentions := by
  unfold addValue at h
  cases hencode : reference.encode value width with
  | error fault => simp [hencode] at h
  | ok n =>
      simp only [hencode] at h
      cases h
      rfl

/-- An argument whose value is that of an operand leaves a reference open while its name
is pending. -/
theorem mentions_addArgument {o : Operand} {v : Value} (hvalue : o.value? = some v)
    {width : Nat} {reference : Reference}
    (h : chunk.addArgument table ⟨v, o.position⟩ width reference = .ok chunk') :
    chunk'.mentions = chunk.mentions ++ (table.pending? o).toList := by
  unfold addArgument at h
  cases v with
  | number n =>
      rw [mentions_addValue h, SymbolTable.pending?_of_number hvalue]
      simp
  | name name =>
      rw [SymbolTable.pending?_of_name hvalue]
      cases hname : table.value? name with
      | some n =>
          simp only [hname] at h
          rw [mentions_addValue h]
          simp
      | none =>
          simp only [hname] at h
          cases h
          simp [mentions, addFixup]

theorem mentions_foldlM {add : Chunk -> Operand -> Except Diagnostic Chunk}
    (hadd : ∀ {chunk chunk' : Chunk} {o : Operand}, add chunk o = .ok chunk' ->
      chunk'.mentions = chunk.mentions ++ (table.pending? o).toList)
    {operands : List Operand} (h : operands.foldlM add chunk = .ok chunk') :
    chunk'.mentions = chunk.mentions ++ operands.filterMap table.pending? := by
  induction operands generalizing chunk with
  | nil =>
      cases h
      simp
  | cons o rest ih =>
      rw [List.foldlM_cons] at h
      rcases exists_ok_of_bind h with ⟨middle, hfirst, hrest⟩
      rw [ih hrest, hadd hfirst, List.append_assoc, List.filterMap_cons]
      cases table.pending? o with
      | none => rfl
      | some m => rfl

end Chunk

/-!
## Effects
-/

namespace Effect

def mentions : Effect -> List Mention
  | append chunk => chunk.mentions
  | _ => []

def defines? : Effect -> Option Text
  | define name _ => some name
  | _ => none

/-- What an effect enters into the symbol table. -/
structure Enters (e : Effect) (mentions : List Mention) (name : Option Text) : Prop where
  mentions : e.mentions = mentions
  name : e.defines? = name

end Effect

namespace Image

variable {image : Image} {position : Position} {e : Effect} {o : Operand}

theorem append?_enters {chunk : Chunk} (h : image.append? position chunk = .ok e) :
    e.Enters chunk.mentions none := by
  unfold append? at h
  split at h <;> cases h
  exact ⟨rfl, rfl⟩

theorem pad?_enters {count : Int} {b : UInt8} (h : image.pad? position count b = .ok e) :
    e.Enters [] none := by
  unfold pad? at h
  split at h <;> cases h
  exact ⟨rfl, rfl⟩

theorem define?_enters {name : Text} {binding : Symbol.Binding}
    (h : image.define? position name binding = .ok e) : e.Enters [] (some name) := by
  rw [define?_eq_ok h]
  exact ⟨rfl, rfl⟩

/-!
### Instructions
-/

theorem select_argument? {table : SymbolTable} {m : Mnemonic} {operands : List Operand}
    {mode : Mode} {argument : Option Argument}
    (h : Selection.select table m operands = .ok (mode, argument)) :
    argument = operands.head?.bind argument? ∧
      operands.filterMap table.pending? = (operands.head?.bind table.pending?).toList := by
  rcases Selection.select_selects h with ⟨hselects, hregisters⟩
  refine ⟨hselects.taken, ?_⟩
  cases operands with
  | nil => rfl
  | cons o indexes =>
      have hnone : indexes.filterMap table.pending? = [] := by
        refine List.filterMap_eq_nil_iff.mpr fun index hindex => ?_
        rcases hregisters index hindex with ⟨r, hr⟩
        exact SymbolTable.pending?_of_value (by rw [Operand.value?, hr])
      rw [List.filterMap_cons, hnone]
      cases hfirst : table.pending? o with
      | none => simp [hfirst]
      | some m => simp [hfirst]

theorem mentions_encode {i : Instruction} {first : Option Operand} {chunk : Chunk}
    (h : image.encode i (first.bind argument?) = .ok chunk) :
    chunk.mentions = (first.bind image.symbols.pending?).toList := by
  cases first with
  | none =>
      cases h
      rfl
  | some o =>
      unfold encode at h
      cases hvalue : o.value? with
      | none =>
          simp only [Option.bind_some, argument?, hvalue, Option.map_none] at h
          cases h
          rw [Option.bind_some, SymbolTable.pending?_of_value hvalue]
          rfl
      | some v =>
          simp only [Option.bind_some, argument?, hvalue, Option.map_some] at h
          rw [Chunk.mentions_addArgument hvalue h]
          rfl

theorem mnemonicEffect_enters {m : Mnemonic} {operands : List Operand}
    (h : image.mnemonicEffect position m operands = .ok e) :
    e.Enters (operands.filterMap image.symbols.pending?) none := by
  rcases mnemonicEffect_eq_ok h with ⟨mode, argument, i, chunk, hselect, _, hchunk, rfl⟩
  rcases select_argument? hselect with ⟨rfl, hpending⟩
  rw [hpending]
  exact ⟨mentions_encode hchunk, rfl⟩

theorem pending_of_byRegister {table : SymbolTable} {onA onFlags m : Mnemonic}
    {operands : List Operand} (h : Shorthand.byRegister onA onFlags operands = .ok m) :
    operands.filterMap table.pending? = [] := by
  unfold Shorthand.byRegister at h
  split at h <;> cases h <;>
    simp [SymbolTable.pending?, Operand.mention?, Operand.value?]

theorem pending_of_byBit {table : SymbolTable} {clear m : Mnemonic}
    {set : Option Mnemonic} {operands : List Operand}
    (h : Shorthand.byBit clear set operands = .ok m) :
    operands.filterMap table.pending? = [] := by
  unfold Shorthand.byBit at h
  split at h
  · simp [SymbolTable.pending?, Operand.mention?, Operand.value?]
  · simp [SymbolTable.pending?, Operand.mention?, Operand.value?]
  · cases h

theorem pending_of_expand {table : SymbolTable} {s : Shorthand}
    {operands rest : List Operand} {m : Mnemonic}
    (h : s.expand operands = .ok (m, rest)) :
    operands.filterMap table.pending? = rest.filterMap table.pending? := by
  have hdrop : ∀ {x : Except Diagnostic.ShorthandFault Mnemonic},
      (∀ found, x = .ok found -> operands.filterMap table.pending? = []) ->
      x.map (·, []) = .ok (m, rest) ->
      operands.filterMap table.pending? = rest.filterMap table.pending? := by
    intro x hnone hx
    cases x with
    | error f => cases hx
    | ok found =>
        cases hx
        exact hnone _ rfl
  cases s with
  | goto =>
      cases h
      rfl
  | push | pull => exact hdrop (fun _ => pending_of_byRegister) h
  | carry | interrupt | decimal | overflow => exact hdrop (fun _ => pending_of_byBit) h

theorem instructionEffect_enters {operands : List Operand} {operation : Operation}
    (h : image.instructionEffect position operands operation = .ok e) :
    e.Enters (operands.filterMap image.symbols.pending?) none := by
  cases operation with
  | cpu m => exact mnemonicEffect_enters h
  | shorthand s =>
      unfold instructionEffect at h
      cases hexpand : s.expand operands with
      | error fault => simp [hexpand] at h
      | ok expanded =>
          rcases expanded with ⟨m, rest⟩
          simp only [hexpand] at h
          rw [pending_of_expand hexpand]
          exact mnemonicEffect_enters h

/-!
### Directives
-/

theorem dataEffect_enters {use : Directive.Use}
    {add : Chunk -> Operand -> Except Diagnostic Chunk} {final : List UInt8}
    (hadd : ∀ {chunk chunk' : Chunk} {o : Operand}, add chunk o = .ok chunk' ->
      chunk'.mentions = chunk.mentions ++ (image.symbols.pending? o).toList)
    (h : image.dataEffect use add final = .ok e) :
    e.Enters (use.operands.filterMap image.symbols.pending?) none := by
  rcases exists_ok_of_bind h with ⟨chunk, hchunk, happend⟩
  have henters := append?_enters happend
  have hfinal : (chunk.addBytes final).mentions = chunk.mentions := rfl
  rw [hfinal, Chunk.mentions_foldlM hadd hchunk] at henters
  exact henters

theorem mentions_addString {name : Text} {chunk chunk' : Chunk}
    (h : addString name chunk o = .ok chunk') :
    chunk'.mentions = chunk.mentions ++ (image.symbols.pending? o).toList := by
  unfold addString at h
  split at h <;> cases h
  rename_i contents hform
  rw [SymbolTable.pending?_of_value (by rw [Operand.value?, hform])]
  simp [Chunk.mentions, Chunk.addBytes]

theorem mentions_addByte {name : Text} {chunk chunk' : Chunk}
    (h : image.addByte name chunk o = .ok chunk') :
    chunk'.mentions = chunk.mentions ++ (image.symbols.pending? o).toList := by
  unfold addByte at h
  cases hform : o.form with
  | string contents =>
      have hstring : addString name chunk o = .ok chunk' := by
        simpa only [addString, hform] using h
      exact mentions_addString hstring
  | plain v =>
      simp only [hform] at h
      exact Chunk.mentions_addArgument (by rw [Operand.value?, hform]) h
  | immediate v =>
      simp only [hform] at h
      exact Chunk.mentions_addArgument (by rw [Operand.value?, hform]) h
  | indirect v indexed => simp [hform] at h
  | register r => simp [hform] at h

theorem mentions_addWord {name : Text} {chunk chunk' : Chunk}
    (h : image.addWord name chunk o = .ok chunk') :
    chunk'.mentions = chunk.mentions ++ (image.symbols.pending? o).toList := by
  unfold addWord at h
  split at h
  · rename_i v hform
    exact Chunk.mentions_addArgument (by rw [Operand.value?, hform]) h
  · cases h

theorem orgEffect_enters (h : image.orgEffect position o = .ok e) :
    e.Enters ([o].filterMap image.symbols.pending?) none := by
  rcases exists_ok_of_bind h with ⟨address, haddress, hrest⟩
  rw [List.filterMap_cons, SymbolTable.pending?_of_ok haddress]
  split at hrest
  · cases hrest
    exact ⟨rfl, rfl⟩
  · split at hrest
    · cases hrest
    · exact pad?_enters hrest

theorem fillEffect_enters {count : Operand} {byte : Option Operand}
    (h : image.fillEffect position count byte = .ok e) :
    e.Enters ((count :: byte.toList).filterMap image.symbols.pending?) none := by
  rcases exists_ok_of_bind h with ⟨n, hn, hrest⟩
  rw [List.filterMap_cons, SymbolTable.pending?_of_ok hn]
  split at hrest
  · cases hrest
  · cases byte with
    | none => exact pad?_enters hrest
    | some o =>
        rcases exists_ok_of_bind hrest with ⟨b, hb, hpad⟩
        rw [Option.toList_some, List.filterMap_cons, SymbolTable.pending?_of_byteValue hb]
        exact pad?_enters hpad

theorem alignEffect_enters (h : image.alignEffect position o = .ok e) :
    e.Enters ([o].filterMap image.symbols.pending?) none := by
  rcases exists_ok_of_bind h with ⟨n, hn, hrest⟩
  rw [List.filterMap_cons, SymbolTable.pending?_of_ok hn]
  split at hrest
  · cases hrest
  · exact pad?_enters hrest

theorem fillerEffect_enters {initial : UInt8}
    (h : image.fillerEffect initial o = .ok e) :
    e.Enters (([o].filter fun o => !isDefault o).filterMap image.symbols.pending?) none := by
  unfold fillerEffect at h
  cases hdefault : isDefault o with
  | true =>
      have hnone : ([o].filter fun o => !isDefault o) = [] := by simp [hdefault]
      rw [if_pos hdefault] at h
      cases h
      rw [hnone]
      exact ⟨rfl, rfl⟩
  | false =>
      rw [hdefault, if_neg Bool.false_ne_true] at h
      cases hbyte : image.byteValue o with
      | error d => simp [hbyte, Except.map] at h
      | ok b =>
          have hsame : ([o].filter fun o => !isDefault o) = [o] := by simp [hdefault]
          rw [hbyte] at h
          cases h
          rw [hsame, List.filterMap_cons, SymbolTable.pending?_of_byteValue hbyte]
          exact ⟨rfl, rfl⟩

theorem bindEffect_enters {directive : Text} {kind : Symbol.Kind} {name value : Operand}
    (h : image.bindEffect directive kind name value = .ok e) :
    ∃ t, name.form = .plain (.name t) ∧
      e.Enters ([value].filterMap image.symbols.pending?) (some t) := by
  unfold bindEffect at h
  split at h
  · rename_i t hform
    rcases exists_ok_of_bind h with ⟨n, hn, hdefine⟩
    rw [List.filterMap_cons, SymbolTable.pending?_of_ok hn]
    exact ⟨t, hform, define?_enters hdefine⟩
  · cases h

theorem directiveEffect_enters {initial : UInt8} {d : Directive} {s : Statement}
    {name : Text} {operands : List Operand} (hbody : s.body = .directive name operands)
    (hname : Directive.ofName? name = some d)
    (h : image.directiveEffect initial d ⟨name, position, operands⟩ = .ok e) :
    e.Enters (image.pendingMentions s) s.defines? := by
  unfold directiveEffect at h
  dsimp only at h
  simp only [pendingMentions, Statement.valued, Statement.defines?, hbody, hname]
  split at h
  · cases h
  · split at h
    · exact dataEffect_enters mentions_addByte h
    · exact dataEffect_enters mentions_addWord h
    · exact dataEffect_enters mentions_addString h
    · exact dataEffect_enters mentions_addString h
    · exact orgEffect_enters h
    · exact fillEffect_enters h
    · exact fillEffect_enters h
    · exact alignEffect_enters h
    · exact fillerEffect_enters h
    · rcases bindEffect_enters h with ⟨t, hform, henters⟩
      simpa [hform] using henters
    · rcases bindEffect_enters h with ⟨t, hform, henters⟩
      simpa [hform] using henters
    · cases h

/-- A statement that is accepted enters its references to pending names and the name that
it defines. -/
theorem effect_enters {initial : UInt8} {s : Statement}
    (h : image.effect initial s = .ok e) :
    e.Enters (image.pendingMentions s) s.defines? := by
  unfold effect at h
  cases hbody : s.body with
  | label name =>
      rw [hbody] at h
      simpa [pendingMentions, Statement.valued, Statement.defines?, hbody] using
        define?_enters h
  | instruction operation operands =>
      rw [hbody] at h
      simpa [pendingMentions, Statement.valued, Statement.defines?, hbody] using
        instructionEffect_enters h
  | directive name operands =>
      simp only [hbody] at h
      cases hname : Directive.ofName? name with
      | none => simp [hname] at h
      | some d =>
          simp only [hname] at h
          exact directiveEffect_enters hbody hname h

end Image

end Asm6502

import Asm6502.Proofs.Layout
import Asm6502.Proofs.Selected

/-!
# The layout of a statement

What a statement adds to the output, read off the statement and the image at the
moment it is reached.  The addressing mode of an instruction, the numbers and
strings of a directive and the length of padding are settled here; a name stays a
name.

The main result says everything that a statement can do: its effect binds a name
that is free, moves the origin of an empty output, changes the filler, or appends
a chunk that realizes the layout.
-/

namespace Asm6502

theorem exists_ok_of_bind {α β : Type} {x : Except Diagnostic α}
    {next : α -> Except Diagnostic β} {result : β}
    (h : x >>= next = .ok result) :
    ∃ value, x = .ok value ∧ next value = .ok result := by
  cases x with
  | error d => cases h
  | ok value => exact ⟨value, rfl, h⟩

/-!
## Layouts by kind of statement
-/

def Argument.item (table : SymbolTable) (address : Int) (width : Nat)
    (branch : Bool) (a : Argument) : Item :=
  match a.value with
  | .number n =>
      .literal (Field.littleEndian width
        (if branch then wrap64 (n - (address + width)) else n))
  | .name name => .named ⟨name, width, branch, a.position, table.value? name⟩

namespace Image

def known (image : Image) (o : Operand) : Int :=
  match image.constValue o with
  | .ok n => n
  | .error _ => 0

def mnemonicItems (image : Image) (m : Mnemonic) (operands : List Operand) :
    List Item :=
  match Selection.select image.symbols m operands with
  | .error _ => []
  | .ok (mode, argument) =>
      match m.opcode? mode with
      | none => []
      | some opcode =>
          .literal [opcode] :: argument.toList.map
            (Argument.item image.symbols (image.pc + 1) mode.operandSize
              (mode = .relative))

def instructionItems (image : Image) (operands : List Operand) :
    Operation -> List Item
  | .cpu m => image.mnemonicItems m operands
  | .shorthand s =>
      match s.expand operands with
      | .error _ => []
      | .ok (m, rest) => image.mnemonicItems m rest

def stringItem (o : Operand) : Item :=
  .literal o.bytes

def byteItem (image : Image) (o : Operand) : Item :=
  match o.form with
  | .plain v | .immediate v =>
      Argument.item image.symbols 0 1 false ⟨v, o.position⟩
  | _ => stringItem o

def wordItem (image : Image) (o : Operand) : Item :=
  match o.form with
  | .plain v => Argument.item image.symbols 0 2 false ⟨v, o.position⟩
  | _ => stringItem o

def padItem (count : Int) (b : UInt8) : Item :=
  .literal (List.replicate count.toNat b)

def directiveItems (image : Image) (d : Directive) (operands : List Operand) :
    List Item :=
  match d, operands with
  | .byte, _ => operands.map image.byteItem
  | .word, _ => operands.map image.wordItem
  | .text, _ => operands.map stringItem
  | .asciiz, _ => operands.map stringItem ++ [.literal [0]]
  | .org, [o] =>
      if !image.originSet && image.bytes.isEmpty then []
      else [padItem (wrap64 (image.known o - image.pc)) image.filler]
  | .fill, [n] => [padItem (image.known n) image.filler]
  | .fill, [n, b] => [padItem (image.known n) (UInt8.ofInt (image.known b))]
  | .align, [o] => [padItem (alignment image.pc (image.known o)) image.filler]
  | _, _ => []

/-- The layout of a statement reached with an image. -/
def layout (image : Image) (s : Statement) : List Item :=
  match s.body with
  | .label _ => []
  | .instruction operation operands => image.instructionItems operands operation
  | .directive name operands =>
      match Directive.ofName? name with
      | none => []
      | some d => image.directiveItems d operands

end Image

/-!
## Chunks that realize a layout
-/

namespace Chunk

/-- The bytes and fixups of a chunk at an address are those of a layout. -/
structure Lays (table : SymbolTable) (address : Int) (chunk : Chunk)
    (items : List Item) : Prop where
  bytes : chunk.bytes.toList = Layout.concat Item.placed address items
  fixups : chunk.fixups.toList = Layout.fixups address 0 items
  sound : Layout.All (Item.Sound table) address items

namespace Lays

variable {table : SymbolTable} {address : Int} {chunk chunk' : Chunk}
  {items : List Item}

theorem empty (table : SymbolTable) (address : Int) :
    Chunk.empty.Lays table address [] :=
  ⟨rfl, rfl, trivial⟩

theorem congr {address' : Int} (haddress : wrap64 address = wrap64 address')
    (h : chunk.Lays table address items) : chunk.Lays table address' items :=
  ⟨h.bytes.trans (Layout.concat_congr (fun h item => item.placed_congr h) haddress items),
    h.fixups.trans (Layout.fixups_congr haddress 0 items), h.sound.congr haddress⟩

theorem size (h : chunk.Lays table address items) :
    chunk.bytes.size = Layout.size items := by
  rw [← Array.length_toList, h.bytes, Layout.length_concat_placed]

theorem addBytes (h : chunk.Lays table address items) (bytes : List UInt8) :
    (chunk.addBytes bytes).Lays table address (items ++ [.literal bytes]) := by
  constructor
  · simp [Chunk.addBytes, h.bytes, Layout.concat_append, Layout.concat,
      Item.placed]
  · simp [Chunk.addBytes, h.fixups, Layout.fixups_append, Layout.fixups]
  · rw [Layout.All_append]
    exact ⟨h.sound, trivial, trivial⟩

theorem addKnown (h : chunk.Lays table address items) {f : NamedField}
    {value : Int} (hknown : f.known = some value)
    (hsound : (Item.named f).Sound table (address + Layout.size items)) :
    (chunk.addBytes (Field.littleEndian f.width
      (f.stored (address + Layout.size items) value))).Lays table address
      (items ++ [.named f]) := by
  constructor
  · simp [Chunk.addBytes, h.bytes, Layout.concat_append, Layout.concat,
      Item.placed, hknown]
  · simp [Chunk.addBytes, h.fixups, Layout.fixups_append, Layout.fixups, hknown]
  · rw [Layout.All_append]
    exact ⟨h.sound, hsound, trivial⟩

theorem addFixup (h : chunk.Lays table address items) {f : NamedField}
    (hknown : f.known = none)
    (hsound : (Item.named f).Sound table (address + Layout.size items)) :
    (chunk.addFixup f.name f.position f.width
      (f.reference (address + Layout.size items))).Lays table address
      (items ++ [.named f]) := by
  constructor
  · simp [Chunk.addFixup, h.bytes, Layout.concat_append, Layout.concat,
      Item.placed, hknown, NamedField.zeros]
  · simp [Chunk.addFixup, h.fixups, h.size, Layout.fixups_append,
      Layout.fixups, hknown]
  · rw [Layout.All_append]
    exact ⟨h.sound, hsound, trivial⟩

end Lays

/-- A value is added in the form of a field that admits it, or not at all. -/
theorem addValue_eq_ok {chunk chunk' : Chunk} {f : NamedField} {address value : Int}
    {position : Position} (hwidth : f.width = 1 ∨ f.width = 2)
    (hbranch : f.branch = true -> f.width = 1)
    (h : chunk.addValue value position f.width (f.reference address) = .ok chunk') :
    f.admits (f.stored address value) = true ∧
      chunk' = chunk.addBytes
        (Field.littleEndian f.width (f.stored address value)) := by
  unfold addValue at h
  rw [NamedField.encode_reference hwidth hbranch] at h
  by_cases hadmits : f.admits (f.stored address value) = true
  · simp only [hadmits, if_true, Except.ok.injEq] at h
    rw [Field.bytes_eq_littleEndian hwidth] at h
    exact ⟨hadmits, h.symm⟩
  · simp [hadmits] at h

theorem Lays.addArgument {table : SymbolTable} {address : Int}
    {chunk chunk' : Chunk} {items : List Item}
    (h : chunk.Lays table address items) {width : Nat} {branch : Bool}
    (hwidth : width = 1 ∨ width = 2) (hbranch : branch = true -> width = 1)
    {a : Argument} {reference : Reference}
    (hreference : reference =
      if branch then .relative (wrap64 (address + Layout.size items + width))
      else .absolute)
    (hok : chunk.addArgument table a width reference = .ok chunk') :
    chunk'.Lays table address
      (items ++ [a.item table (address + Layout.size items) width branch]) := by
  subst hreference
  unfold Chunk.addArgument at hok
  unfold Argument.item
  cases hvalue : a.value with
  | number n =>
      simp only [hvalue] at hok
      rcases addValue_eq_ok (f := ⟨[], width, branch, a.position, none⟩)
        hwidth hbranch hok with ⟨_, rfl⟩
      exact h.addBytes _
  | name name =>
      simp only [hvalue] at hok
      cases hname : table.value? name with
      | some value =>
          let f : NamedField := ⟨name, width, branch, a.position, some value⟩
          simp only [hname] at hok ⊢
          rcases addValue_eq_ok (f := f) hwidth hbranch hok with ⟨hadmits, rfl⟩
          refine h.addKnown (f := f) rfl ⟨hwidth, hbranch, ?_⟩
          intro value' hvalue'
          cases hvalue'
          exact ⟨hname, hadmits⟩
      | none =>
          let f : NamedField := ⟨name, width, branch, a.position, none⟩
          simp only [hname, Except.ok.injEq] at hok ⊢
          subst hok
          refine h.addFixup (f := f) rfl ⟨hwidth, hbranch, ?_⟩
          intro value' hvalue'
          cases hvalue'

theorem Lays.addAll {table : SymbolTable} {address : Int}
    {add : Chunk -> Operand -> Except Diagnostic Chunk} {item : Operand -> Item}
    (hadd : ∀ (chunk chunk' : Chunk) (items : List Item) (o : Operand),
      chunk.Lays table address items -> add chunk o = .ok chunk' ->
        chunk'.Lays table address (items ++ [item o]))
    {operands : List Operand} {chunk chunk' : Chunk} {items : List Item}
    (h : chunk.Lays table address items)
    (hok : operands.foldlM add chunk = .ok chunk') :
    chunk'.Lays table address (items ++ operands.map item) := by
  induction operands generalizing chunk items with
  | nil =>
      cases hok
      simpa using h
  | cons o rest ih =>
      rw [List.foldlM_cons] at hok
      rcases exists_ok_of_bind hok with ⟨middle, hfirst, hrest⟩
      have hlays := ih (hadd _ _ _ _ h hfirst) hrest
      simpa using hlays

end Chunk

/-!
## What an effect can be
-/

namespace Image

/-- The effects that a statement with a given layout can have on an image.  An
empty chunk needs no room. -/
inductive Lays (image : Image) : Effect -> List Item -> Prop where
  | define {name : Text} {binding : Symbol.Binding} :
      image.symbols.duplicate? name = none ->
      Lays image (.define name binding) []
  | moveOrigin {origin : Int} :
      image.originSet = false ->
      image.bytes = #[] ->
      Lays image (.moveOrigin origin) []
  | setFiller {filler : UInt8} :
      Lays image (.setFiller filler) []
  | append {chunk : Chunk} {items : List Item} :
      chunk.Lays image.symbols image.pc items ->
      chunk.bytes.size = 0 ∨ image.hasRoom chunk.bytes.size = true ->
      Lays image (.append chunk) items

variable {image : Image} {position : Position} {e : Effect}

theorem append?_lays {chunk : Chunk} {items : List Item}
    (hchunk : chunk.Lays image.symbols image.pc items)
    (h : image.append? position chunk = .ok e) : image.Lays e items := by
  unfold append? at h
  split at h
  · rename_i hroom
    cases h
    exact .append hchunk (.inr hroom)
  · cases h

theorem pad?_lays {count : Int} {b : UInt8}
    (h : image.pad? position count b = .ok e) :
    image.Lays e [padItem count b] := by
  unfold pad? at h
  split at h
  · rename_i hroom
    cases h
    refine .append ⟨?_, rfl, trivial, trivial⟩ ?_
    · simp [padItem, Layout.concat, Item.placed]
    · rw [Array.size_replicate]
      by_cases hcount : 0 ≤ count
      · rw [Int.toNat_of_nonneg hcount]
        exact .inr hroom
      · exact .inl (Int.toNat_of_nonpos (by omega))
  · cases h

theorem define?_lays {name : Text} {binding : Symbol.Binding}
    (h : image.define? position name binding = .ok e) : image.Lays e [] := by
  unfold define? at h
  split at h
  · cases h
  · rename_i hfree
    cases h
    exact .define hfree

/-!
### Instructions
-/

theorem encode_lays {i : Instruction} {argument : Option Argument} {chunk : Chunk}
    (hsize : ∀ a, argument = some a ->
      i.mode.operandSize = 1 ∨ i.mode.operandSize = 2)
    (h : image.encode i argument = .ok chunk) :
    chunk.Lays image.symbols image.pc
      (.literal [i.opcode] :: argument.toList.map
        (Argument.item image.symbols (image.pc + 1) i.mode.operandSize
          (i.mode = .relative))) := by
  have hopcode : (⟨#[i.opcode], #[]⟩ : Chunk).Lays image.symbols image.pc
      [.literal [i.opcode]] :=
    ⟨rfl, rfl, trivial, trivial⟩
  unfold encode at h
  cases argument with
  | none =>
      cases h
      exact hopcode
  | some a =>
      have hbranch : decide (i.mode = .relative) = true ->
          i.mode.operandSize = 1 := by
        intro hrelative
        rw [of_decide_eq_true hrelative]
        rfl
      refine hopcode.addArgument (hsize a rfl) hbranch ?_ h
      simp [Instruction.length, Item.size, Int.add_assoc]

theorem mnemonicEffect_lays {m : Mnemonic} {operands : List Operand}
    (h : image.mnemonicEffect position m operands = .ok e) :
    image.Lays e (image.mnemonicItems m operands) := by
  unfold mnemonicEffect at h
  unfold mnemonicItems
  cases hselect : Selection.select image.symbols m operands with
  | error fault => simp [hselect] at h
  | ok selected =>
      rcases selected with ⟨mode, argument⟩
      simp only [hselect, Instruction.of?] at h ⊢
      cases hopcode : m.opcode? mode with
      | none => simp [hopcode] at h
      | some opcode =>
          simp only [hopcode, Option.map_some] at h ⊢
          rcases exists_ok_of_bind h with ⟨chunk, hchunk, happend⟩
          refine append?_lays (encode_lays ?_ hchunk) happend
          intro a ha
          rw [ha] at hselect
          exact Selection.select_operandSize hselect

theorem instructionEffect_lays {operands : List Operand} {operation : Operation}
    (h : image.instructionEffect position operands operation = .ok e) :
    image.Lays e (image.instructionItems operands operation) := by
  cases operation with
  | cpu m => exact mnemonicEffect_lays h
  | shorthand s =>
      unfold instructionEffect at h
      unfold instructionItems
      cases hexpand : s.expand operands with
      | error fault => simp [hexpand] at h
      | ok expanded =>
          rcases expanded with ⟨m, rest⟩
          simp only [hexpand] at h ⊢
          exact mnemonicEffect_lays h

/-!
### Directives
-/

theorem known_of_ok {o : Operand} {n : Int} (h : image.constValue o = .ok n) :
    image.known o = n := by
  unfold known
  rw [h]

theorem known_of_byteValue {o : Operand} {b : UInt8}
    (h : image.byteValue o = .ok b) : UInt8.ofInt (image.known o) = b := by
  rcases exists_ok_of_bind h with ⟨n, hn, hb⟩
  rw [known_of_ok hn]
  split at hb <;> cases hb
  rfl

theorem dataEffect_lays {use : Directive.Use}
    {add : Chunk -> Operand -> Except Diagnostic Chunk} {item : Operand -> Item}
    (hadd : ∀ (chunk chunk' : Chunk) (items : List Item) (o : Operand),
      chunk.Lays image.symbols image.pc items -> add chunk o = .ok chunk' ->
        chunk'.Lays image.symbols image.pc (items ++ [item o]))
    (h : image.dataEffect use add [] = .ok e) :
    image.Lays e (use.operands.map item) := by
  rcases exists_ok_of_bind h with ⟨chunk, hchunk, happend⟩
  have hlays := Chunk.Lays.addAll hadd (Chunk.Lays.empty _ image.pc) hchunk
  have hsame : chunk.addBytes [] = chunk := by simp [Chunk.addBytes]
  rw [hsame] at happend
  exact append?_lays hlays happend

theorem dataEffect_final_lays {use : Directive.Use}
    {add : Chunk -> Operand -> Except Diagnostic Chunk} {item : Operand -> Item}
    (hadd : ∀ (chunk chunk' : Chunk) (items : List Item) (o : Operand),
      chunk.Lays image.symbols image.pc items -> add chunk o = .ok chunk' ->
        chunk'.Lays image.symbols image.pc (items ++ [item o]))
    {final : List UInt8} (h : image.dataEffect use add final = .ok e) :
    image.Lays e (use.operands.map item ++ [.literal final]) := by
  rcases exists_ok_of_bind h with ⟨chunk, hchunk, happend⟩
  have hlays := Chunk.Lays.addAll hadd (Chunk.Lays.empty _ image.pc) hchunk
  exact append?_lays (hlays.addBytes final) happend

theorem addString_lays {name : Text} {chunk chunk' : Chunk} {items : List Item}
    {o : Operand} (hlays : chunk.Lays image.symbols image.pc items)
    (h : addString name chunk o = .ok chunk') :
    chunk'.Lays image.symbols image.pc (items ++ [stringItem o]) := by
  unfold addString at h
  split at h <;> cases h
  rename_i contents hform
  have hbytes : o.bytes = Utf8.encode contents := by
    simp only [Operand.bytes, hform]
  unfold stringItem
  rw [hbytes]
  exact hlays.addBytes _

theorem item_address (table : SymbolTable) (a : Argument) (width : Nat)
    (address address' : Int) :
    a.item table address width false = a.item table address' width false := by
  unfold Argument.item
  rfl

theorem addByte_lays {name : Text} {chunk chunk' : Chunk} {items : List Item}
    {o : Operand} (hlays : chunk.Lays image.symbols image.pc items)
    (h : image.addByte name chunk o = .ok chunk') :
    chunk'.Lays image.symbols image.pc (items ++ [image.byteItem o]) := by
  have hfield : ∀ v : Value,
      chunk.addArgument image.symbols ⟨v, o.position⟩ 1 .absolute = .ok chunk' ->
        chunk'.Lays image.symbols image.pc (items ++
          [Argument.item image.symbols 0 1 false ⟨v, o.position⟩]) := by
    intro v hv
    rw [item_address _ _ _ 0 (image.pc + Layout.size items)]
    exact hlays.addArgument (.inl rfl) (fun h : false = true => nomatch h) rfl hv
  unfold addByte at h
  unfold byteItem
  cases hform : o.form with
  | plain v =>
      simp only [hform] at h
      exact hfield v h
  | immediate v =>
      simp only [hform] at h
      exact hfield v h
  | string contents =>
      simp only [hform] at h
      have hstring : addString name chunk o = .ok chunk' := by
        simpa only [addString, hform] using h
      exact addString_lays hlays hstring
  | indirect v indexed =>
      simp [hform] at h
  | register r =>
      simp [hform] at h

theorem addWord_lays {name : Text} {chunk chunk' : Chunk} {items : List Item}
    {o : Operand} (hlays : chunk.Lays image.symbols image.pc items)
    (h : image.addWord name chunk o = .ok chunk') :
    chunk'.Lays image.symbols image.pc (items ++ [image.wordItem o]) := by
  unfold addWord at h
  unfold wordItem
  cases hform : o.form with
  | plain v =>
      simp only [hform] at h ⊢
      rw [item_address _ _ _ 0 (image.pc + Layout.size items)]
      exact hlays.addArgument (.inr rfl) (fun h : false = true => nomatch h) rfl h
  | _ => simp [hform] at h

theorem orgEffect_lays {o : Operand} (h : image.orgEffect position o = .ok e) :
    image.Lays e (image.directiveItems .org [o]) := by
  rcases exists_ok_of_bind h with ⟨address, haddress, hrest⟩
  simp only [directiveItems, known_of_ok haddress]
  split at hrest
  · rename_i hfirst
    cases hrest
    rw [if_pos hfirst]
    simp only [Bool.and_eq_true, Bool.not_eq_true', Array.isEmpty_iff] at hfirst
    exact .moveOrigin hfirst.1 hfirst.2
  · rename_i hlater
    rw [if_neg hlater]
    split at hrest
    · cases hrest
    · exact pad?_lays hrest

theorem fillEffect_lays {count : Operand} {byte : Option Operand}
    (h : image.fillEffect position count byte = .ok e) :
    image.Lays e [padItem (image.known count)
      ((byte.map fun o => UInt8.ofInt (image.known o)).getD image.filler)] := by
  rcases exists_ok_of_bind h with ⟨n, hn, hrest⟩
  rw [known_of_ok hn]
  split at hrest
  · cases hrest
  · cases byte with
    | none => exact pad?_lays hrest
    | some o =>
        rcases exists_ok_of_bind hrest with ⟨b, hb, hpad⟩
        rw [Option.map_some, Option.getD_some, known_of_byteValue hb]
        exact pad?_lays hpad

theorem alignEffect_lays {o : Operand}
    (h : image.alignEffect position o = .ok e) :
    image.Lays e [padItem (alignment image.pc (image.known o)) image.filler] := by
  rcases exists_ok_of_bind h with ⟨n, hn, hrest⟩
  rw [known_of_ok hn]
  split at hrest
  · cases hrest
  · exact pad?_lays hrest

theorem fillerEffect_lays {initial : UInt8} {o : Operand}
    (h : image.fillerEffect initial o = .ok e) : image.Lays e [] := by
  unfold fillerEffect at h
  split at h
  · cases h
    exact .setFiller
  · cases hbyte : image.byteValue o with
    | error d => simp [hbyte, Except.map] at h
    | ok b =>
        rw [hbyte] at h
        cases h
        exact .setFiller

theorem bindEffect_lays {directive : Text} {kind : Symbol.Kind}
    {name value : Operand} (h : image.bindEffect directive kind name value = .ok e) :
    image.Lays e [] := by
  unfold bindEffect at h
  split at h
  · rcases exists_ok_of_bind h with ⟨n, _, hdefine⟩
    exact define?_lays hdefine
  · cases h

theorem directiveEffect_lays {initial : UInt8} {d : Directive}
    {use : Directive.Use} (h : image.directiveEffect initial d use = .ok e) :
    image.Lays e (image.directiveItems d use.operands) := by
  unfold directiveEffect at h
  dsimp only at h
  split at h
  · cases h
  · rcases use with ⟨name, position, operands⟩
    dsimp only at h ⊢
    split at h
    · refine dataEffect_lays ?_ h
      intro chunk chunk' items o
      exact addByte_lays
    · refine dataEffect_lays ?_ h
      intro chunk chunk' items o
      exact addWord_lays
    · refine dataEffect_lays ?_ h
      intro chunk chunk' items o
      exact addString_lays
    · refine dataEffect_final_lays ?_ h
      intro chunk chunk' items o
      exact addString_lays
    · exact orgEffect_lays h
    · exact fillEffect_lays h
    · exact fillEffect_lays h
    · exact alignEffect_lays h
    · exact fillerEffect_lays h
    · exact bindEffect_lays h
    · exact bindEffect_lays h
    · cases h

/-!
### All statements
-/

/-- Everything that a statement can do to an image. -/
theorem effect_lays {initial : UInt8} {s : Statement}
    (h : image.effect initial s = .ok e) : image.Lays e (image.layout s) := by
  unfold effect at h
  unfold layout
  cases hbody : s.body with
  | label name =>
      rw [hbody] at h
      exact define?_lays h
  | instruction operation operands =>
      rw [hbody] at h
      exact instructionEffect_lays h
  | directive name operands =>
      simp only [hbody] at h ⊢
      cases hname : Directive.ofName? name with
      | none => simp [hname] at h
      | some d =>
          simp only [hname] at h ⊢
          exact directiveEffect_lays h

end Image
end Asm6502

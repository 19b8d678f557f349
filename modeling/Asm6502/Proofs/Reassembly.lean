import Asm6502.Proofs.LaidOut
import Asm6502.Proofs.PrintedLines

/-!
# Printed statements and the bytes they stand for

A statement of a disassembly is accepted and lays out the bytes that it was printed
for.  Numbers are settled at once.  A name stands for an address: the bytes are the
right ones in any table that binds the name to that address.
-/

namespace Asm6502

/-!
## Operand fields
-/

namespace Field

theorem littleEndian_byte (b : UInt8) : littleEndian 1 b.toNat = [b] := by
  have hb := b.toNat_lt
  have hvalue : ((b.toNat : Int) % 256).toNat = b.toNat := by omega
  simp [littleEndian, List.range_succ, hvalue]

theorem littleEndian_signed (b : UInt8) : littleEndian 1 (signed b) = [b] := by
  have hb := b.toNat_lt
  have hmod : signed b % 256 = (b.toNat : Int) % 256 := Int.bmod_emod
  have hvalue : (signed b % 256).toNat = b.toNat := by omega
  simp [littleEndian, List.range_succ, hvalue]

theorem littleEndian_word (low high : UInt8) :
    littleEndian 2 (word low high) = [low, high] := by
  have hlow := low.toNat_lt
  have hhigh := high.toNat_lt
  have hfirst : ((word low high : Int) % 256).toNat = low.toNat := by
    simp only [word]
    omega
  have hsecond : ((word low high : Int) / 256 % 256).toNat = high.toNat := by
    simp only [word]
    omega
  simp [littleEndian, List.range_succ, hfirst, hsecond]

theorem signed_bounds (b : UInt8) : -128 ≤ signed b ∧ signed b ≤ 127 := by
  have hlow := Int.le_bmod (x := b.toNat) (m := 256) (by decide)
  have hhigh := Int.bmod_lt (x := b.toNat) (m := 256) (by decide)
  unfold signed
  omega

end Field

namespace Decoded

/-- The number in the operand field: for a branch, the distance from the next
instruction. -/
def stored (d : Decoded) : Int :=
  if d.mode = .relative then wrap64 (d.operand - (d.address + 2)) else d.operand

theorem stored_of_relative {d : Decoded} (hmode : d.mode = .relative) {b : UInt8}
    (h : d.operand = operandOf d.address d.mode [b]) : d.stored = Field.signed b := by
  have hbounds := Field.signed_bounds b
  have hback : d.address + 2 + Field.signed b - (d.address + 2) = Field.signed b := by
    omega
  rw [stored, if_pos hmode, h, operandOf, if_pos hmode, wrap64_sub_left, hback,
    wrap64_of_signed64 ⟨by omega, by omega⟩]

theorem Faithful.bytes_eq {d : Decoded} (h : d.Faithful) :
    d.bytes = d.instruction.opcode ::
      Field.littleEndian d.mode.operandSize d.stored := by
  rcases h.bytes with ⟨operand, hlength, hbytes, hoperand⟩
  rw [hbytes]
  congr 1
  -- No mode has more than two bytes of operand.
  match operand with
  | [] =>
      rw [← hlength]
      rfl
  | [b] =>
      rw [← hlength]
      by_cases hmode : d.mode = .relative
      · rw [stored_of_relative hmode hoperand]
        exact (Field.littleEndian_signed b).symm
      · rw [stored, if_neg hmode, hoperand, operandOf, if_neg hmode]
        exact (Field.littleEndian_byte b).symm
  | [low, high] =>
      have hmode : d.mode ≠ .relative := by
        intro hmode
        rw [hmode] at hlength
        cases hlength
      have hvalue : d.operand = Field.word low high := hoperand
      rw [← hlength, stored, if_neg hmode, hvalue]
      exact (Field.littleEndian_word low high).symm
  | _ :: _ :: _ :: _ =>
      have htwo := d.mode.operandSize_le_two
      simp only [List.length_cons] at hlength
      omega

theorem Faithful.admits {d : Decoded} (h : d.Faithful) {f : NamedField}
    (hwidth : f.width = d.mode.operandSize)
    (hbranch : f.branch = decide (d.mode = .relative)) :
    f.admits d.stored = true := by
  rcases h.bytes with ⟨operand, hlength, _, hoperand⟩
  by_cases hmode : d.mode = .relative
  · have hone : operand.length = 1 := by
      rw [hlength, hmode]
      rfl
    rcases List.length_eq_one_iff.mp hone with ⟨b, rfl⟩
    have hdistance : d.stored = Field.signed b := stored_of_relative hmode hoperand
    have hbounds := Field.signed_bounds b
    simp [NamedField.admits, hbranch, hmode, hdistance, hbounds]
  · rcases @operandOf_nat d.address _ _ hlength hmode with ⟨n, hn, hvalue⟩
    have hstored : d.stored = n := by
      rw [stored, if_neg hmode, hoperand, hvalue]
    have hbound : (n : Int) < 2 ^ (8 * d.mode.operandSize) := by
      rw [Int.pow_mul]
      exact_mod_cast hn
    have hlow : -(2 ^ (8 * d.mode.operandSize - 1)) ≤ (n : Int) := by
      have hnonneg : (0 : Int) ≤ 2 ^ (8 * d.mode.operandSize - 1) :=
        Int.pow_nonneg (by decide)
      omega
    simp [NamedField.admits, hbranch, hmode, hstored, hwidth, hbound, hlow]

end Decoded

/-!
## Addressing modes
-/

namespace Statement

theorem body_of_instruction {s : Statement} {operation : Operation}
    {forms : List Operand.Form} (h : s.content = .instruction operation forms) :
    ∃ operands, s.body = .instruction operation operands ∧
      operands.map Operand.form = forms := by
  unfold content at h
  split at h <;> cases h
  rename_i operands hbody
  exact ⟨operands, hbody, rfl⟩

theorem body_of_directive {s : Statement} {name : Text}
    {forms : List Operand.Form} (h : s.content = .directive name forms) :
    ∃ operands, s.body = .directive name operands ∧
      operands.map Operand.form = forms := by
  unfold content at h
  split at h <;> cases h
  rename_i operands hbody
  exact ⟨operands, hbody, rfl⟩

theorem body_of_label {s : Statement} {name : Text}
    (h : s.content = .label name) : s.body = .label name := by
  unfold content at h
  split at h <;> cases h
  rename_i hbody
  exact hbody

end Statement

namespace Operand

theorem eq_one_of_forms {operands : List Operand} {form : Form}
    (h : operands.map Operand.form = [form]) : ∃ p, operands = [⟨form, p⟩] := by
  rcases List.map_eq_cons_iff.mp h with ⟨o, rest, rfl, rfl, hrest⟩
  rw [List.map_eq_nil_iff.mp hrest]
  exact ⟨o.position, rfl⟩

theorem eq_two_of_forms {operands : List Operand} {first second : Form}
    (h : operands.map Operand.form = [first, second]) :
    ∃ p q, operands = [⟨first, p⟩, ⟨second, q⟩] := by
  rcases List.map_eq_cons_iff.mp h with ⟨o, rest, rfl, rfl, hrest⟩
  rcases eq_one_of_forms hrest with ⟨q, rfl⟩
  exact ⟨o.position, q, rfl⟩

end Operand

namespace Selection

variable {table : SymbolTable} {m : Mnemonic} {v : Value} {short long : Mode}

theorem byAddress_short (hzero : isZeroPage table v = true)
    (hshort : m.hasMode short = true) :
    byAddress table m v short long = short := by
  simp [byAddress, hzero, hshort]

theorem byAddress_long (hlong : m.hasMode long = true)
    (h : isZeroPage table v = false ∨ m.hasMode short = false) :
    byAddress table m v short long = long := by
  rcases h with hzero | hshort
  · simp [byAddress, hzero, hlong]
  · simp [byAddress, hshort]

end Selection

namespace Instruction

theorem hasMode_of_of? {m : Mnemonic} {mode : Mode} {i : Instruction}
    (h : of? m mode = some i) :
    m.hasMode mode = true ∧ i.mnemonic = m ∧ i.mode = mode := by
  rcases Option.map_eq_some_iff.mp h with ⟨opcode, hopcode, rfl⟩
  simp [Mnemonic.hasMode, hopcode]

theorem not_relative_of_hasMode {m : Mnemonic} {mode : Mode}
    (h : m.hasMode mode = true) (hmode : mode ≠ .relative) :
    m.hasMode .relative = false := by
  have hall : ∀ m ∈ Mnemonic.all, ∀ mode ∈ Mode.all, m.hasMode mode = true ->
      mode ≠ .relative -> m.hasMode .relative = false := by
    decide +kernel
  exact hall m m.mem_all mode mode.mem_all h hmode

end Instruction

namespace Decoded

def argument (target : Option Text) (d : Decoded) : Option Value :=
  match d.mode with
  | .implied | .accumulator => none
  | .absolute | .relative => some (target.elim (.number d.operand) .name)
  | _ => some (.number d.operand)

theorem Faithful.isZeroPage {d : Decoded} (h : d.Faithful)
    (hsize : d.mode.operandSize = 1) (hmode : d.mode ≠ .relative)
    (table : SymbolTable) :
    Selection.isZeroPage table (.number d.operand) = true := by
  rcases h.bytes with ⟨operand, hlength, _, hoperand⟩
  rcases @operandOf_nat d.address _ _ hlength hmode with ⟨n, hn, hvalue⟩
  rw [hsize] at hn
  simp only [Selection.isZeroPage, hoperand, hvalue, Bool.and_eq_true,
    decide_eq_true_eq]
  omega

/-- An address that is written as a number is not of the zero page where that would
change the mode. -/
theorem Faithful.not_isZeroPage {d : Decoded} {short : Mode}
    (h : (decide (0xFF < d.operand) || !d.mnemonic.hasMode short) = true)
    (table : SymbolTable) :
    Selection.isZeroPage table (.number d.operand) = false ∨
      d.mnemonic.hasMode short = false := by
  rw [Bool.or_eq_true, decide_eq_true_eq, Bool.not_eq_true'] at h
  rcases h with hlarge | hshort
  · left
    simp only [Selection.isZeroPage, Bool.and_eq_false_iff,
      decide_eq_false_iff_not]
    omega
  · exact Or.inr hshort

/-- Only an address of code is written as a name, and no instruction that leads to
one has a short form. -/
theorem byAddress_of_absolute {d : Decoded} (h : d.Faithful)
    (hmode : d.mode = .absolute) {target : Option Text}
    (htarget : target.isSome = true -> d.isFlow = true) (table : SymbolTable) :
    Selection.byAddress table d.mnemonic
      (target.elim (.number d.operand) .name) .zeroPage .absolute = .absolute := by
  have hlong := (Instruction.hasMode_of_of? h.instruction).1
  rw [hmode] at hlong
  apply Selection.byAddress_long hlong
  cases target with
  | none =>
      have hreassembles := h.reassembles
      simp only [Decoded.reassembles, hmode] at hreassembles
      exact Faithful.not_isZeroPage hreassembles table
  | some name =>
      have hflow := htarget rfl
      simp only [isFlow, hmode, Bool.or_eq_true, decide_eq_true_eq] at hflow
      right
      rcases hflow with hjump | hjump <;> rw [hjump] <;> decide

/-- The operands of a printed instruction select its mode. -/
theorem select_forms {d : Decoded} (h : d.Faithful) {target : Option Text}
    (htarget : target.isSome = true -> d.isFlow = true) {operands : List Operand}
    (hoperands : operands.map Operand.form = d.forms target)
    (table : SymbolTable) :
    ∃ argument, Selection.select table d.mnemonic operands =
        .ok (d.mode, argument) ∧
      argument.map Argument.value = d.argument target := by
  have hhas := (Instruction.hasMode_of_of? h.instruction).1
  have hnot := Instruction.not_relative_of_hasMode hhas
  have hreassembles := h.reassembles
  have hzero := h.isZeroPage
  have habsolute := fun hmode => byAddress_of_absolute h hmode htarget table
  unfold forms at hoperands
  unfold argument
  -- Only a plain address leaves a choice, between the short and the long form.
  cases hmode : d.mode <;>
    simp only [hmode, Decoded.reassembles] at hoperands hhas hnot hreassembles hzero
  case implied =>
      rw [List.map_eq_nil_iff.mp hoperands]
      exact ⟨none, by simp [Selection.select, hhas], rfl⟩
  case accumulator =>
      rcases Operand.eq_one_of_forms hoperands with ⟨p, rfl⟩
      exact ⟨none, rfl, rfl⟩
  case immediate | indirect | indexedIndirect =>
      rcases Operand.eq_one_of_forms hoperands with ⟨p, rfl⟩
      exact ⟨some ⟨_, p⟩, rfl, rfl⟩
  case indirectIndexed =>
      rcases Operand.eq_two_of_forms hoperands with ⟨p, q, rfl⟩
      exact ⟨some ⟨_, p⟩, rfl, rfl⟩
  case relative =>
      rcases Operand.eq_one_of_forms hoperands with ⟨p, rfl⟩
      refine ⟨some ⟨target.elim (.number d.operand) .name, p⟩, ?_, rfl⟩
      simp [Selection.select, Selection.single, hhas]
  case absolute =>
      rcases Operand.eq_one_of_forms hoperands with ⟨p, rfl⟩
      refine ⟨some ⟨target.elim (.number d.operand) .name, p⟩, ?_, rfl⟩
      simp [Selection.select, Selection.single, hnot, habsolute hmode]
  case zeroPage =>
      rcases Operand.eq_one_of_forms hoperands with ⟨p, rfl⟩
      refine ⟨some ⟨_, p⟩, ?_, rfl⟩
      have hshort := @Selection.byAddress_short table d.mnemonic _ _ .absolute
        (hzero rfl (by simp) table) hhas
      simp [Selection.select, Selection.single, hnot, hshort]
  case zeroPageX =>
      rcases Operand.eq_two_of_forms hoperands with ⟨p, q, rfl⟩
      refine ⟨some ⟨_, p⟩, ?_, rfl⟩
      have hshort := @Selection.byAddress_short table d.mnemonic _ _ .absoluteX
        (hzero rfl (by simp) table) hhas
      simp [Selection.select, Selection.byX, hshort]
  case zeroPageY =>
      rcases Operand.eq_two_of_forms hoperands with ⟨p, q, rfl⟩
      refine ⟨some ⟨_, p⟩, ?_, rfl⟩
      have hshort := @Selection.byAddress_short table d.mnemonic _ _ .absoluteY
        (hzero rfl (by simp) table) hhas
      simp [Selection.select, Selection.byY, hshort]
  case absoluteX =>
      rcases Operand.eq_two_of_forms hoperands with ⟨p, q, rfl⟩
      refine ⟨some ⟨_, p⟩, ?_, rfl⟩
      have hlong := Selection.byAddress_long hhas
        (Faithful.not_isZeroPage hreassembles table)
      simp [Selection.select, Selection.byX, hlong]
  case absoluteY =>
      rcases Operand.eq_two_of_forms hoperands with ⟨p, q, rfl⟩
      refine ⟨some ⟨_, p⟩, ?_, rfl⟩
      have hlong := Selection.byAddress_long hhas
        (Faithful.not_isZeroPage hreassembles table)
      simp [Selection.select, Selection.byY, hlong]

end Decoded

/-!
## Layouts of known bytes
-/

def SymbolTable.Resolves (table : SymbolTable) (labels : Std.TreeSet Int compare) :
    Prop :=
  ∀ x ∈ labels, table.value? (Block.labelName x) = some x

/-- Those of the labels that the table binds have their addresses. -/
def SymbolTable.Agrees (table : SymbolTable) (labels : Std.TreeSet Int compare) :
    Prop :=
  ∀ x ∈ labels, ∀ n, table.value? (Block.labelName x) = some n -> n = x

namespace Layout

theorem misfits_append (table : SymbolTable) (address : Int)
    (first second : List Item) :
    misfits table address (first ++ second) =
      misfits table address first ++
        misfits table (address + size first) second := by
  induction first generalizing address with
  | nil => simp [misfits]
  | cons item rest ih =>
      simp only [List.cons_append, misfits, ih, size_cons, List.append_assoc,
        Int.natCast_add, Int.add_assoc]

/-- The items make up the bytes as soon as the labels have their addresses. -/
structure Yields (labels : Std.TreeSet Int compare) (address : Int)
    (items : List Item) (bytes : List UInt8) : Prop where
  size : size items = bytes.length
  named : ∀ {f : NamedField}, .named f ∈ items ->
    ∃ x ∈ labels, f.name = Block.labelName x
  encoded : ∀ {table : SymbolTable}, table.Resolves labels ->
    concat (Item.encoded table) address items = bytes
  misfits : ∀ {table : SymbolTable}, table.Resolves labels ->
    misfits table address items = []

namespace Yields

variable {labels : Std.TreeSet Int compare} {address : Int}

theorem nil (address : Int) : Yields labels address [] [] where
  size := rfl
  named h := nomatch h
  encoded _ := rfl
  misfits _ := rfl

theorem congr {a b : Int} {items : List Item} {bytes : List UInt8}
    (h : Yields labels a items bytes) (hsame : wrap64 a = wrap64 b) :
    Yields labels b items bytes := by
  refine ⟨h.size, h.named, fun htable => ?_, fun htable => ?_⟩
  · rw [← concat_congr (fun hsame item => item.encoded_congr hsame _) hsame]
    exact h.encoded htable
  · rw [← misfits_congr hsame]
    exact h.misfits htable

theorem literal (address : Int) (bytes : List UInt8) :
    Yields labels address [.literal bytes] bytes := by
  constructor
  · simp [Item.size]
  · intro f hf
    rw [List.mem_singleton] at hf
    cases hf
  · intro table _
    simp [concat, Item.encoded]
  · intro table _
    rfl

theorem append {first second : List Item} {bytes more : List UInt8}
    (hfirst : Yields labels address first bytes)
    (hsecond : Yields labels (address + bytes.length) second more) :
    Yields labels address (first ++ second) (bytes ++ more) := by
  constructor
  · rw [size_append, hfirst.size, hsecond.size, List.length_append]
  · intro f hf
    rcases List.mem_append.mp hf with hf | hf
    · exact hfirst.named hf
    · exact hsecond.named hf
  · intro table htable
    rw [concat_append, hfirst.encoded htable, hfirst.size, hsecond.encoded htable]
  · intro table htable
    rw [misfits_append, hfirst.misfits htable, hfirst.size,
      hsecond.misfits htable, List.append_nil]

end Yields
end Layout

/-!
## Instructions
-/

namespace Decoded

variable {labels : Std.TreeSet Int compare} {d : Decoded}

def field (d : Decoded) (name : Text) (position : Position) (known : Option Int) :
    NamedField :=
  ⟨name, d.mode.operandSize, d.mode = .relative, position, known⟩

theorem stored_field (d : Decoded) (name : Text) (position : Position)
    (known : Option Int) :
    (d.field name position known).stored (d.address + 1) d.operand = d.stored := by
  by_cases hmode : d.mode = .relative
  · simp only [NamedField.stored, field, stored, hmode, decide_true, if_true]
    show wrap64 (d.operand - (d.address + 1 + 1)) = _
    rw [Int.add_assoc]
    rfl
  · simp [NamedField.stored, field, stored, hmode]

theorem argument_eq_number {target : Option Text} {n : Int}
    (h : d.argument target = some (.number n)) : n = d.operand := by
  unfold argument at h
  cases target <;> split at h <;> simp_all

theorem argument_eq_name {target : Option Text} {name : Text}
    (h : d.argument target = some (.name name)) : target = some name := by
  unfold argument at h
  cases target <;> split at h <;> simp_all

theorem target_eq_some {name : Text} (h : d.target labels = some name) :
    d.isFlow = true ∧ d.operand ∈ labels ∧ name = Block.labelName d.operand := by
  unfold target at h
  split at h
  · rename_i hflow
    rw [Bool.and_eq_true, Std.TreeSet.contains_iff_mem] at hflow
    cases h
    exact ⟨hflow.1, hflow.2, rfl⟩
  · cases h

theorem yields_item (h : d.Faithful) {a : Argument}
    (ha : d.argument (d.target labels) = some a.value) (table : SymbolTable) :
    Layout.Yields labels (d.address + 1)
      [a.item table (d.address + 1) d.mode.operandSize (d.mode = .relative)]
      (Field.littleEndian d.mode.operandSize d.stored) := by
  unfold Argument.item
  cases hvalue : a.value with
  | number n =>
      rw [hvalue] at ha
      have hn := argument_eq_number ha
      have hstored := d.stored_field [] ⟨0, 0⟩ none
      rw [← hstored, hn]
      exact Layout.Yields.literal _ _
  | name name =>
      rw [hvalue] at ha
      rcases target_eq_some (argument_eq_name ha) with ⟨_, hlabel, hname⟩
      let f := d.field name a.position (table.value? name)
      have hstored : f.stored (d.address + 1) d.operand = d.stored :=
        d.stored_field ..
      have hadmits : f.admits d.stored = true := h.admits rfl rfl
      have hoperand : ∀ {final : SymbolTable}, final.Resolves labels ->
          final.value? f.name = some d.operand := by
        intro final hfinal
        rw [show f.name = Block.labelName d.operand from hname]
        exact hfinal d.operand hlabel
      show Layout.Yields labels (d.address + 1) [.named f] _
      constructor
      · simp [Item.size, f, field]
      · intro g hg
        cases List.mem_singleton.mp hg
        exact ⟨d.operand, hlabel, hname⟩
      · intro final hfinal
        simp only [Layout.concat, Item.encoded, hoperand hfinal, hstored, hadmits]
        simp [f, field]
      · intro final hfinal
        simp [Layout.misfits, Item.misfit?, hoperand hfinal, hstored, hadmits]

theorem yields_items (h : d.Faithful) {argument : Option Argument}
    (hargument : argument.map Argument.value = d.argument (d.target labels))
    (hnone : argument = none -> d.mode.operandSize = 0) (table : SymbolTable) :
    Layout.Yields labels d.address
      (.literal [d.instruction.opcode] :: argument.toList.map
        (Argument.item table (d.address + 1) d.mode.operandSize
          (d.mode = .relative))) d.bytes := by
  have hopcode := @Layout.Yields.literal labels d.address [d.instruction.opcode]
  rw [h.bytes_eq]
  cases argument with
  | none =>
      rw [hnone rfl]
      exact hopcode
  | some a => exact hopcode.append (yields_item h hargument.symm table)

theorem reference_field (d : Decoded) (name : Text) (position : Position)
    (known : Option Int) :
    (d.field name position known).reference (d.address + 1) =
      if d.mode = .relative then .relative (wrap64 (d.address + d.instruction.length))
      else .absolute := by
  by_cases hmode : d.mode = .relative
  · have hlength : d.instruction.length = 1 + d.mode.operandSize := rfl
    simp only [NamedField.reference, field, hmode, decide_true, if_true, hlength,
      Int.natCast_add, Int.add_assoc]
    rfl
  · simp [NamedField.reference, field, hmode]

theorem addValue_operand (h : d.Faithful)
    (hwidth : d.mode.operandSize = 1 ∨ d.mode.operandSize = 2) (chunk : Chunk)
    (position : Position) :
    ∃ chunk', chunk.addValue d.operand position d.mode.operandSize
      (if d.mode = .relative then .relative (wrap64 (d.address + d.instruction.length))
        else .absolute) = .ok chunk' := by
  let f := d.field [] position none
  have hbranch : f.branch = true -> f.width = 1 := by
    intro hrelative
    show d.mode.operandSize = 1
    rw [of_decide_eq_true hrelative]
    rfl
  have hencode := NamedField.encode_reference hwidth hbranch (d.address + 1) d.operand
  have hadmits : f.admits d.stored = true := h.admits rfl rfl
  rw [reference_field, stored_field, if_pos hadmits] at hencode
  simp only [Chunk.addValue]
  rw [show (d.mode.operandSize : Int) = f.width from rfl, hencode]
  exact ⟨_, rfl⟩

theorem encode_eq_ok (h : d.Faithful) {image : Image} (hpc : image.pc = d.address)
    {argument : Option Argument}
    (hargument : argument.map Argument.value = d.argument (d.target labels))
    (hwidth : ∀ a, argument = some a ->
      d.mode.operandSize = 1 ∨ d.mode.operandSize = 2)
    (hagrees : image.symbols.Agrees labels) :
    ∃ chunk, image.encode d.instruction argument = .ok chunk := by
  cases argument with
  | none => exact ⟨_, rfl⟩
  | some a =>
      have hvalue := addValue_operand h (hwidth a rfl)
      rw [Option.map_some] at hargument
      unfold Image.encode Chunk.addArgument
      rw [hpc]
      cases hform : a.value with
      | number n =>
          rw [hform] at hargument
          simp only [hform, argument_eq_number hargument.symm]
          exact hvalue _ _
      | name name =>
          rw [hform] at hargument
          rcases target_eq_some (argument_eq_name hargument.symm) with
            ⟨_, hlabel, rfl⟩
          simp only [hform]
          cases hknown : image.symbols.value? (Block.labelName d.operand) with
          | none => exact ⟨_, rfl⟩
          | some n =>
              rw [hagrees d.operand hlabel n hknown]
              exact hvalue _ _

theorem operandSize_of_argument_none {target : Option Text}
    (h : d.argument target = none) : d.mode.operandSize = 0 := by
  unfold argument at h
  split at h
  · rename_i hmode
    rw [hmode]
    rfl
  · rename_i hmode
    rw [hmode]
    rfl
  · cases h
  · cases h
  · cases h

end Decoded

/-!
## Statements that place bytes
-/

/-- The statement appends the bytes, as soon as the labels have their addresses. -/
def Image.Places (image : Image) (initial : UInt8)
    (labels : Std.TreeSet Int compare) (s : Statement) (bytes : List UInt8) : Prop :=
  ∃ chunk items, image.effect initial s = .ok (.append chunk) ∧
    chunk.Lays image.symbols image.pc items ∧
    Layout.Yields labels image.pc items bytes

theorem Image.append?_eq_ok {image : Image} (position : Position) {chunk : Chunk}
    (hroom : image.hasRoom chunk.bytes.size = true) :
    image.append? position chunk = .ok (.append chunk) := by
  rw [append?, if_pos hroom]

theorem Chunk.size_addBytes_empty (bytes : List UInt8) :
    (empty.addBytes bytes).bytes.size = bytes.length := by
  simp [empty, addBytes]

theorem Image.places_bytes {image : Image} {initial : UInt8} {s : Statement}
    {bytes : List UInt8} (labels : Std.TreeSet Int compare)
    (hroom : image.hasRoom bytes.length = true)
    (h : image.effect initial s =
      image.append? s.position (Chunk.empty.addBytes bytes)) :
    image.Places initial labels s bytes := by
  have hlays := (Chunk.Lays.empty image.symbols image.pc).addBytes bytes
  refine ⟨_, _, ?_, hlays, Layout.Yields.literal _ _⟩
  rw [h]
  exact append?_eq_ok s.position (Chunk.size_addBytes_empty bytes ▸ hroom)

namespace Decoded

variable {labels : Std.TreeSet Int compare} {d : Decoded}

theorem places (h : d.Faithful) {image : Image} (hpc : image.pc = d.address)
    (hroom : image.pc + d.bytes.length ≤ Image.addressSpace)
    (hagrees : image.symbols.Agrees labels)
    {s : Statement}
    (hs : s.content = .instruction (.cpu d.mnemonic) (d.forms (d.target labels)))
    (initial : UInt8) : image.Places initial labels s d.bytes := by
  rcases s.body_of_instruction hs with ⟨operands, hbody, hoperands⟩
  have hflow : (d.target labels).isSome = true -> d.isFlow = true := by
    intro hsome
    rcases Option.isSome_iff_exists.mp hsome with ⟨name, hname⟩
    exact (target_eq_some hname).1
  rcases select_forms h hflow hoperands image.symbols with
    ⟨argument, hselect, hargument⟩
  have hwidth : ∀ a, argument = some a ->
      d.mode.operandSize = 1 ∨ d.mode.operandSize = 2 := by
    intro a ha
    exact Selection.select_operandSize (ha ▸ hselect)
  have hnone : argument = none -> d.mode.operandSize = 0 := by
    intro ha
    rw [ha] at hargument
    exact operandSize_of_argument_none hargument.symm
  rcases encode_eq_ok h hpc hargument hwidth hagrees with ⟨chunk, hencode⟩
  have hlays := Image.encode_lays hwidth hencode
  have hyields := yields_items h hargument hnone image.symbols
  rw [← hpc] at hyields
  refine ⟨chunk, _, ?_, hlays, hyields⟩
  have hsize : chunk.bytes.size = d.bytes.length := hlays.size.trans hyields.size
  simp only [Image.effect, hbody, Image.instructionEffect, Image.mnemonicEffect,
    hselect, h.instruction, hencode]
  show image.append? s.position chunk = _
  exact Image.append?_eq_ok s.position (Image.hasRoom_of_le (hsize ▸ hroom))

end Decoded

namespace Chunk

theorem addBytes_addBytes (chunk : Chunk) (bytes more : List UInt8) :
    (chunk.addBytes bytes).addBytes more = chunk.addBytes (bytes ++ more) := by
  simp only [addBytes, Chunk.mk.injEq, and_true]
  exact Array.toList_inj.1 (by simp)

theorem addBytes_nil (chunk : Chunk) : chunk.addBytes [] = chunk := by
  simp [addBytes]

end Chunk

namespace Data

variable {labels : Std.TreeSet Int compare} {image : Image}

theorem addByte_number (image : Image) (name : Text) (chunk : Chunk) (b : UInt8)
    (p : Position) :
    image.addByte name chunk ⟨.plain (.number b.toNat), p⟩ =
      .ok (chunk.addBytes [b]) := by
  have hb := b.toNat_lt
  have hfits : Field.fits (b.toNat : Int) 1 = true := by
    simp only [Field.fits, if_true, Bool.and_eq_true, decide_eq_true_eq]
    omega
  have hbytes : Field.bytes (b.toNat : Int) 1 = [b] :=
    (Field.bytes_eq_littleEndian (.inl rfl) _).trans (Field.littleEndian_byte b)
  simp [Image.addByte, Chunk.addArgument, Chunk.addValue, Reference.encode, hfits,
    hbytes]

theorem foldlM_addByte (name : Text) {row : List UInt8} {operands : List Operand}
    (h : operands.map Operand.form = byteForms row) (chunk : Chunk) :
    operands.foldlM (image.addByte name) chunk = .ok (chunk.addBytes row) := by
  induction row generalizing operands chunk with
  | nil =>
      rw [List.map_eq_nil_iff.mp h, Chunk.addBytes_nil]
      rfl
  | cons b rest ih =>
      rcases List.map_eq_cons_iff.mp h with ⟨⟨form, p⟩, more, rfl, rfl, hmore⟩
      rw [List.foldlM_cons, addByte_number]
      show more.foldlM (image.addByte name) (chunk.addBytes [b]) = _
      rw [ih hmore, Chunk.addBytes_addBytes]
      rfl

theorem encode_charOf {contents : List UInt8}
    (h : ∀ b ∈ contents, isPrintableByte b = true) :
    Utf8.encode (contents.map charOf) = contents := by
  have hascii : ∀ n < 128,
      String.utf8EncodeChar (Char.ofNat n) = [UInt8.ofNat n] := by
    decide +kernel
  induction contents with
  | nil => rfl
  | cons b rest ih =>
      have hb := h b (List.mem_cons_self ..)
      simp only [isPrintableByte, Bool.and_eq_true, decide_eq_true_eq] at hb
      have hlt : b.toNat < 128 := Nat.lt_succ_of_le (Nat.le_succ_of_le hb.2)
      have hrest := ih fun b' hb' => h b' (List.mem_cons_of_mem _ hb')
      have hfirst : String.utf8EncodeChar (charOf b) = [b] := by
        rw [charOf, hascii b.toNat hlt, UInt8.ofNat_toNat]
      simp only [Utf8.encode, List.map_cons, List.flatMap_cons, hfirst] at hrest ⊢
      rw [hrest]
      rfl

theorem places_row {row : List UInt8} (hne : row ≠ []) (hshort : row.length ≤ 16)
    (hroom : image.pc + row.length ≤ Image.addressSpace) {s : Statement}
    (hs : s.content = .directive "byte".toList (byteForms row)) (initial : UInt8) :
    image.Places initial labels s row := by
  rcases s.body_of_directive hs with ⟨operands, hbody, hoperands⟩
  have hcount : operands.length = row.length := by
    rw [← List.length_map, hoperands, byteForms, List.length_map]
  have hpos := List.length_pos_iff.mpr hne
  have hname : Directive.ofName? "byte".toList = some .byte := by decide
  have harity : ¬((decide (operands.length < 1) ||
      decide (65536 < operands.length)) = true) := by
    simp only [Bool.or_eq_true, decide_eq_true_eq]
    omega
  apply Image.places_bytes labels (Image.hasRoom_of_le hroom)
  simp only [Image.effect, hbody, hname]
  refine (if_neg harity).trans ?_
  simp only [Image.dataEffect, foldlM_addByte _ hoperands]
  show image.append? _ ((Chunk.empty.addBytes row).addBytes []) = _
  rw [Chunk.addBytes_nil]

theorem dataEffect_string (contents name : Text) (position p : Position)
    (final : List UInt8) :
    image.dataEffect ⟨name, position, [⟨.string contents, p⟩]⟩ (Image.addString name)
        final =
      image.append? position (Chunk.empty.addBytes (Utf8.encode contents ++ final)) := by
  rw [← Chunk.addBytes_addBytes]
  rfl

theorem places_string {contents : List UInt8} (terminated : Bool)
    (hprintable : ∀ b ∈ contents, isPrintableByte b = true)
    (hroom : image.pc + (Segment.string contents terminated).data.length ≤
      Image.addressSpace) {s : Statement}
    (hs : s.content =
      .directive (if terminated then "asciiz".toList else "text".toList)
        [.string (contents.map charOf)])
    (initial : UInt8) :
    image.Places initial labels s (Segment.string contents terminated).data := by
  rcases s.body_of_directive hs with ⟨operands, hbody, hoperands⟩
  rcases Operand.eq_one_of_forms hoperands with ⟨p, rfl⟩
  have hasciiz : Directive.ofName? "asciiz".toList = some .asciiz := by decide
  have htext : Directive.ofName? "text".toList = some .text := by decide
  have hencode := encode_charOf hprintable
  apply Image.places_bytes labels (Image.hasRoom_of_le hroom)
  unfold Image.effect
  rw [hbody]
  cases terminated with
  | true =>
      simp only [if_true, hasciiz]
      exact (dataEffect_string ..).trans (by rw [hencode]; rfl)
  | false =>
      simp only [Bool.false_eq_true, if_false, htext]
      exact (dataEffect_string ..).trans (by rw [hencode]; rfl)

end Data
end Asm6502

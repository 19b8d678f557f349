import Asm6502.Proofs.Decoding
import Asm6502.Proofs.Reassembly

/-!
# Which mode an instruction is given

An instruction is accepted if and only if its mnemonic has a mode whose shape the
operands have and whose field admits their value, as far as that is known.  Some shapes
belong to two modes, a short and a long one.  Of these the short one is taken for a value
that is known to be an address of the zero page, and the long one for any other, unless
only one of them exists.
-/

namespace Asm6502

/-!
## Shapes and fields
-/

namespace Mode

/-- The operands have the shape of the mode, and this is the value to be encoded. -/
inductive Takes : Mode -> List Operand.Form -> Option Value -> Prop where
  | implied : Takes .implied [] none
  | bare : Takes .accumulator [] none
  | accumulator : Takes .accumulator [.register .a] none
  | immediate (v : Value) : Takes .immediate [.immediate v] (some v)
  | zeroPage (v : Value) : Takes .zeroPage [.plain v] (some v)
  | zeroPageX (v : Value) : Takes .zeroPageX [.plain v, .register .x] (some v)
  | zeroPageY (v : Value) : Takes .zeroPageY [.plain v, .register .y] (some v)
  | absolute (v : Value) : Takes .absolute [.plain v] (some v)
  | absoluteX (v : Value) : Takes .absoluteX [.plain v, .register .x] (some v)
  | absoluteY (v : Value) : Takes .absoluteY [.plain v, .register .y] (some v)
  | indirect (v : Value) : Takes .indirect [.indirect v false] (some v)
  | indexedIndirect (v : Value) : Takes .indexedIndirect [.indirect v true] (some v)
  | indirectIndexed (v : Value) :
      Takes .indirectIndexed [.indirect v false, .register .y] (some v)
  | relative (v : Value) : Takes .relative [.plain v] (some v)

/-- The operand field of an instruction at the address can hold the number.  A branch
reaches as far as a signed byte counted from the next instruction, the distance being
one of 64 bits. -/
def Admits (pc n : Int) (mode : Mode) : Prop :=
  if mode = .relative then -128 ≤ wrap64 (n - (pc + 2)) ∧ wrap64 (n - (pc + 2)) ≤ 127
  else if mode.operandSize = 1 then -128 ≤ n ∧ n ≤ 0xFF
  else -32768 ≤ n ∧ n ≤ 0xFFFF

def Receives (table : SymbolTable) (pc : Int) (value : Option Value) (mode : Mode) :
    Prop :=
  ∀ v ∈ value, ∀ n, v.amount? table = some n -> mode.Admits pc n

theorem receives_none (table : SymbolTable) (pc : Int) (mode : Mode) :
    mode.Receives table pc none := by
  intro v hv
  cases hv

/-- The two forms of an address, by the operands that follow it. -/
inductive Forms : List Operand.Form -> Mode -> Mode -> Prop where
  | plain : Forms [] .zeroPage .absolute
  | x : Forms [.register .x] .zeroPageX .absoluteX
  | y : Forms [.register .y] .zeroPageY .absoluteY

theorem admits_field {mode : Mode} {position : Position}
    (h : mode.operandSize = 1 ∨ mode.operandSize = 2) (pc n : Int) :
    (mode.field position).admits ((mode.field position).stored (pc + 1) n) = true ↔
      mode.Admits pc n := by
  by_cases hmode : mode = .relative
  · subst hmode
    simp [field, NamedField.admits, NamedField.stored, Admits, operandSize, Int.add_assoc]
  · have hstored : (mode.field position).stored (pc + 1) n = n := by
      simp [field, NamedField.stored, hmode]
    rw [hstored, Admits, if_neg hmode]
    rcases h with hsize | hsize
    · simp only [field, NamedField.admits, hmode, hsize, decide_false, Bool.false_eq_true,
        if_false, if_true, Bool.and_eq_true, decide_eq_true_eq]
      omega
    · rw [if_neg (by rw [hsize]; decide)]
      simp only [field, NamedField.admits, hmode, hsize, decide_false, Bool.false_eq_true,
        if_false, Bool.and_eq_true, decide_eq_true_eq]
      omega

end Mode

/-- The value is an address of the zero page: a number, or a name that is bound to one as
a constant. -/
inductive Value.IsShort (table : SymbolTable) : Value -> Prop where
  | number {n : Int} : 0 ≤ n -> n ≤ 0xFF -> IsShort table (.number n)
  | constant {name : Text} {n : Int} : table.binding? name = some ⟨.constant, n⟩ ->
      0 ≤ n -> n ≤ 0xFF -> IsShort table (.name name)

theorem Value.IsShort.amount {table : SymbolTable} {v : Value} (h : v.IsShort table)
    {n : Int} (hn : v.amount? table = some n) : 0 ≤ n ∧ n ≤ 0xFF := by
  cases h with
  | number hlow hhigh =>
      cases hn
      exact ⟨hlow, hhigh⟩
  | constant hname hlow hhigh =>
      simp only [amount?, SymbolTable.value?, hname, Option.map_some,
        Option.some.injEq] at hn
      subst hn
      exact ⟨hlow, hhigh⟩

/-!
## The short and the long form
-/

namespace Selection

variable {table : SymbolTable} {m : Mnemonic} {v : Value} {short long mode : Mode}

theorem isZeroPage_iff : isZeroPage table v = true ↔ v.IsShort table := by
  unfold isZeroPage
  constructor
  · intro h
    cases v with
    | number n =>
        simp only [Bool.and_eq_true, decide_eq_true_eq] at h
        exact .number h.1 h.2
    | name name =>
        simp only at h
        split at h
        · rename_i n hname
          simp only [Bool.and_eq_true, decide_eq_true_eq] at h
          exact .constant hname h.1 h.2
        · cases h
  · intro h
    cases h with
    | number hlow hhigh => simp [hlow, hhigh]
    | constant hname hlow hhigh => simp [hname, hlow, hhigh]

structure Prefers (table : SymbolTable) (m : Mnemonic) (v : Value)
    (short long mode : Mode) : Prop where
  first : v.IsShort table -> m.hasMode short = true -> mode = short
  second : ¬(v.IsShort table ∧ m.hasMode short = true) -> m.hasMode long = true ->
    mode = long
  last : m.hasMode long = false -> mode = short

theorem prefers_byAddress
    (h : m.hasMode (byAddress table m v short long) = true) :
    Prefers table m v short long (byAddress table m v short long) := by
  constructor
  · intro hv hshort
    exact byAddress_short (isZeroPage_iff.mpr hv) hshort
  · intro hnot hlong
    apply byAddress_long hlong
    rw [← isZeroPage_iff, not_and_or, Bool.not_eq_true, Bool.not_eq_true] at hnot
    exact hnot
  · intro hlong
    unfold byAddress at h ⊢
    split
    · rfl
    · rename_i hzero
      rw [if_neg hzero] at h
      split
      · rfl
      · rename_i honly
        rw [if_neg honly, hlong] at h
        cases h

theorem receives_byAddress {pc : Int} (hsize : short.operandSize = 1)
    (hlsize : long.operandSize = 2) (hrelative : short ≠ .relative)
    (hmode : mode = short ∨ mode = long) (hhas : m.hasMode mode = true)
    (hreceives : mode.Receives table pc (some v)) :
    m.hasMode (byAddress table m v short long) = true ∧
      (byAddress table m v short long).Receives table pc (some v) := by
  have hlrelative : long ≠ .relative := by
    rintro rfl
    cases hlsize
  unfold byAddress
  split
  · rename_i hzero
    rw [Bool.and_eq_true, isZeroPage_iff] at hzero
    refine ⟨hzero.2, ?_⟩
    intro w hw n hn
    cases hw
    have hbounds := hzero.1.amount hn
    simp only [Mode.Admits, hrelative, if_false, hsize, if_true]
    omega
  · split
    · rename_i honly
      rw [Bool.and_eq_true, Bool.not_eq_true'] at honly
      rcases hmode with rfl | rfl
      · exact ⟨hhas, hreceives⟩
      · rw [honly.1] at hhas
        cases hhas
    · rename_i hboth
      rcases hmode with rfl | rfl
      · have hlong : m.hasMode long = true := by simpa [hhas] using hboth
        refine ⟨hlong, ?_⟩
        intro w hw n hn
        have hadmits := hreceives w hw n hn
        simp only [Mode.Admits, hrelative, hlrelative, if_false, hsize, hlsize, if_true]
          at hadmits ⊢
        rw [if_neg (by decide)]
        omega
      · exact ⟨hhas, hreceives⟩

end Selection

/-!
## What is selected
-/

namespace Selection

variable {table : SymbolTable} {m : Mnemonic} {mode : Mode} {argument : Option Argument}
  {operands : List Operand}

theorem byAddress_eq_or (table : SymbolTable) (m : Mnemonic) (v : Value)
    (short long : Mode) :
    byAddress table m v short long = short ∨ byAddress table m v short long = long := by
  unfold byAddress
  split
  · exact .inl rfl
  · split
    · exact .inl rfl
    · exact .inr rfl

theorem single_takes {o : Operand} (h : single table m o = .ok (mode, argument)) :
    mode.Takes [o.form] (argument.map Argument.value) := by
  rcases o with ⟨form, position⟩
  cases form with
  | plain v =>
      cases h
      dsimp only
      split
      · exact .relative v
      · rcases byAddress_eq_or table m v .zeroPage .absolute with hmode | hmode
        · rw [hmode]
          exact .zeroPage v
        · rw [hmode]
          exact .absolute v
  | immediate v =>
      cases h
      exact .immediate v
  | indirect v indexed =>
      cases indexed <;> cases h
      · exact .indirect v
      · exact .indexedIndirect v
  | register r =>
      cases r <;> cases h
      exact .accumulator
  | string contents => cases h

theorem byX_takes {o : Operand} (h : byX table m o = .ok (mode, argument)) :
    mode.Takes [o.form, .register .x] (argument.map Argument.value) := by
  rcases o with ⟨form, position⟩
  cases form <;> cases h
  rename_i v
  rcases byAddress_eq_or table m v .zeroPageX .absoluteX with hmode | hmode
  · rw [hmode]
    exact .zeroPageX v
  · rw [hmode]
    exact .absoluteX v

theorem byY_takes {o : Operand} (h : byY table m o = .ok (mode, argument)) :
    mode.Takes [o.form, .register .y] (argument.map Argument.value) := by
  rcases o with ⟨form, position⟩
  cases form with
  | plain v =>
      cases h
      rcases byAddress_eq_or table m v .zeroPageY .absoluteY with hmode | hmode
      · rw [hmode]
        exact .zeroPageY v
      · rw [hmode]
        exact .absoluteY v
  | indirect v indexed =>
      cases indexed <;> cases h
      exact .indirectIndexed v
  | immediate v | register r | string contents => cases h

theorem select_takes (h : select table m operands = .ok (mode, argument)) :
    mode.Takes (operands.map Operand.form) (argument.map Argument.value) := by
  unfold select at h
  split at h
  · split at h
    · cases h
      exact .implied
    · split at h <;> cases h
      exact .bare
  · exact single_takes h
  · split at h
    · rename_i hindex
      rw [List.map_cons, List.map_cons, hindex]
      exact byX_takes h
    · rename_i hindex
      rw [List.map_cons, List.map_cons, hindex]
      exact byY_takes h
    · cases h
  · cases h

theorem select_address {v : Value} {index : List Operand.Form} {short long : Mode}
    (hforms : Mode.Forms index short long) (hm : m.hasMode .relative = false)
    (hoperands : operands.map Operand.form = .plain v :: index) :
    ∃ argument, argument.map Argument.value = some v ∧
      select table m operands = .ok (byAddress table m v short long, argument) := by
  cases hforms with
  | plain =>
      rcases Operand.eq_one_of_forms hoperands with ⟨p, rfl⟩
      exact ⟨some ⟨v, p⟩, rfl, by simp [select, single, hm]⟩
  | x =>
      rcases Operand.eq_two_of_forms hoperands with ⟨p, q, rfl⟩
      exact ⟨some ⟨v, p⟩, rfl, rfl⟩
  | y =>
      rcases Operand.eq_two_of_forms hoperands with ⟨p, q, rfl⟩
      exact ⟨some ⟨v, p⟩, rfl, rfl⟩

/-- If the mnemonic has a mode that the operands fit, then they select one that it has
and that they fit. -/
theorem exists_select {pc : Int} {value : Option Value} (hhas : m.hasMode mode = true)
    (htakes : mode.Takes (operands.map Operand.form) value)
    (hreceives : mode.Receives table pc value) :
    ∃ selected argument, select table m operands = .ok (selected, argument) ∧
      argument.map Argument.value = value ∧ m.hasMode selected = true ∧
      selected.Receives table pc value := by
  -- Only an address leaves a choice.
  have haddress : ∀ {v : Value} {index : List Operand.Form} {short long : Mode},
      Mode.Forms index short long -> mode = short ∨ mode = long ->
      operands.map Operand.form = .plain v :: index -> value = some v ->
      ∃ selected argument, select table m operands = .ok (selected, argument) ∧
        argument.map Argument.value = value ∧ m.hasMode selected = true ∧
        selected.Receives table pc value := by
    rintro v index short long hforms hmode hoperands rfl
    have hm : m.hasMode .relative = false := by
      refine Instruction.not_relative_of_hasMode hhas ?_
      rcases hmode with rfl | rfl <;> cases hforms <;> decide
    rcases @select_address table _ _ _ _ _ _ hforms hm hoperands with
      ⟨argument, hargument, hselect⟩
    refine ⟨_, argument, hselect, hargument, ?_⟩
    cases hforms with
    | plain | x | y => exact receives_byAddress rfl rfl (by decide) hmode hhas hreceives
  generalize hforms : operands.map Operand.form = forms at htakes
  cases htakes with
  | implied =>
      rw [List.map_eq_nil_iff.mp hforms]
      exact ⟨.implied, none, by simp [select, hhas], rfl, hhas, hreceives⟩
  | bare =>
      rw [List.map_eq_nil_iff.mp hforms]
      cases himplied : m.hasMode .implied with
      | true =>
          exact ⟨.implied, none, by simp [select, himplied], rfl, himplied,
            Mode.receives_none _ _ _⟩
      | false =>
          exact ⟨.accumulator, none, by simp [select, himplied, hhas], rfl, hhas,
            Mode.receives_none _ _ _⟩
  | accumulator =>
      rcases Operand.eq_one_of_forms hforms with ⟨p, rfl⟩
      exact ⟨.accumulator, none, rfl, rfl, hhas, hreceives⟩
  | relative v =>
      rcases Operand.eq_one_of_forms hforms with ⟨p, rfl⟩
      refine ⟨.relative, some ⟨v, p⟩, ?_, rfl, hhas, hreceives⟩
      simp [select, single, hhas]
  | immediate v =>
      rcases Operand.eq_one_of_forms hforms with ⟨p, rfl⟩
      exact ⟨.immediate, some ⟨v, p⟩, rfl, rfl, hhas, hreceives⟩
  | indirect v =>
      rcases Operand.eq_one_of_forms hforms with ⟨p, rfl⟩
      exact ⟨.indirect, some ⟨v, p⟩, rfl, rfl, hhas, hreceives⟩
  | indexedIndirect v =>
      rcases Operand.eq_one_of_forms hforms with ⟨p, rfl⟩
      exact ⟨.indexedIndirect, some ⟨v, p⟩, rfl, rfl, hhas, hreceives⟩
  | indirectIndexed v =>
      rcases Operand.eq_two_of_forms hforms with ⟨p, q, rfl⟩
      exact ⟨.indirectIndexed, some ⟨v, p⟩, rfl, rfl, hhas, hreceives⟩
  | zeroPage v => exact haddress .plain (.inl rfl) hforms rfl
  | zeroPageX v => exact haddress .x (.inl rfl) hforms rfl
  | zeroPageY v => exact haddress .y (.inl rfl) hforms rfl
  | absolute v => exact haddress .plain (.inr rfl) hforms rfl
  | absoluteX v => exact haddress .x (.inr rfl) hforms rfl
  | absoluteY v => exact haddress .y (.inr rfl) hforms rfl

end Selection

/-!
## What is encoded
-/

namespace Chunk

theorem exists_addValue_iff {f : NamedField} (hwidth : f.width = 1 ∨ f.width = 2)
    (hbranch : f.branch = true -> f.width = 1) (chunk : Chunk) (position : Position)
    (address n : Int) :
    (∃ chunk', chunk.addValue n position f.width (f.reference address) = .ok chunk') ↔
      f.admits (f.stored address n) = true := by
  unfold addValue
  rw [NamedField.encode_reference hwidth hbranch]
  by_cases hadmits : f.admits (f.stored address n) = true
  · simp [hadmits]
  · simp [hadmits]

theorem exists_addArgument_iff {f : NamedField} (hwidth : f.width = 1 ∨ f.width = 2)
    (hbranch : f.branch = true -> f.width = 1) (table : SymbolTable) (chunk : Chunk)
    (a : Argument) (address : Int) :
    (∃ chunk', chunk.addArgument table a f.width (f.reference address) = .ok chunk') ↔
      ∀ n, a.value.amount? table = some n -> f.admits (f.stored address n) = true := by
  have hvalue := exists_addValue_iff hwidth hbranch chunk a.position address
  unfold addArgument
  cases a.value with
  | number n => simpa [Value.amount?] using hvalue n
  | name name =>
      cases hname : table.value? name with
      | none => simp [Value.amount?, hname]
      | some n => simpa [Value.amount?, hname] using hvalue n

end Chunk

theorem Argument.size_item (table : SymbolTable) (address : Int) (width : Nat)
    (branch : Bool) (a : Argument) : (a.item table address width branch).size = width := by
  unfold item
  split
  · exact Field.length_littleEndian ..
  · rfl

namespace Image

variable {image : Image} {m : Mnemonic} {operands : List Operand} {i : Instruction}
  {argument : Option Argument}

/-- A branch counts from the next instruction, which is where its field ends. -/
theorem reference_eq (image : Image) (i : Instruction) (position : Position) :
    (if i.mode = .relative then Reference.relative (wrap64 (image.pc + i.length))
      else .absolute) = (i.mode.field position).reference (image.pc + 1) := by
  simp [Mode.field, NamedField.reference, Instruction.length, Int.add_assoc]

/-- An instruction can be encoded if and only if its field receives the argument. -/
theorem exists_encode_iff
    (hselect : Selection.select image.symbols m operands = .ok (i.mode, argument)) :
    (∃ chunk, image.encode i argument = .ok chunk) ↔
      i.mode.Receives image.symbols image.pc (argument.map Argument.value) := by
  cases argument with
  | none => exact ⟨fun _ => nofun, fun _ => ⟨_, rfl⟩⟩
  | some a =>
      have hwidth := Selection.select_operandSize hselect
      have hadd := @Chunk.exists_addArgument_iff (i.mode.field a.position) hwidth
        Mode.width_of_branch image.symbols ⟨#[i.opcode], #[]⟩ a (image.pc + 1)
      simp only [encode, image.reference_eq i a.position]
      refine hadd.trans ?_
      simp only [Mode.admits_field hwidth, Mode.Receives, Option.map_some, Option.mem_def,
        Option.some.injEq, forall_eq']

theorem bytes_encode {chunk : Chunk}
    (hselect : Selection.select image.symbols m operands = .ok (i.mode, argument))
    (h : image.encode i argument = .ok chunk) :
    ∃ field, chunk.bytes.toList = i.opcode :: field ∧
      field.length = i.mode.operandSize := by
  rcases (Selection.select_selects hselect).1 with ⟨_, hunsized, hsized⟩
  have hlays := encode_lays hsized h
  refine ⟨_, hlays.bytes, (Layout.length_concat_placed _ _).trans ?_⟩
  cases argument with
  | none => exact (hunsized rfl).symm
  | some a => exact Argument.size_item ..

structure Chooses (image : Image) (m : Mnemonic) (forms : List Operand.Form) (mode : Mode)
    (value : Option Value) : Prop where
  has : m.hasMode mode = true
  takes : mode.Takes forms value
  receives : mode.Receives image.symbols image.pc value
  branch : m.hasMode .relative = true -> mode = .relative
  prefers : ∀ {v : Value} {index : List Operand.Form} {short long : Mode},
    m.hasMode .relative = false -> Mode.Forms index short long ->
      forms = .plain v :: index -> Selection.Prefers image.symbols m v short long mode

theorem chooses_of_mnemonicEffect {position : Position} {e : Effect}
    (h : image.mnemonicEffect position m operands = .ok e) :
    ∃ mode value opcode field chunk, e = .append chunk ∧ m.opcode? mode = some opcode ∧
      chunk.bytes.toList = opcode :: field ∧ field.length = mode.operandSize ∧
      image.Chooses m (operands.map Operand.form) mode value := by
  rcases mnemonicEffect_eq_ok h with ⟨mode, argument, i, chunk, hselect, hi, hencode, rfl⟩
  rcases Instruction.hasMode_of_of? hi with ⟨hhas, rfl, rfl⟩
  rcases bytes_encode hselect hencode with ⟨field, hbytes, hlength⟩
  have hopcode : i.mnemonic.opcode? i.mode = some i.opcode := by
    rcases Option.map_eq_some_iff.mp hi with ⟨opcode, hopcode, heq⟩
    rw [hopcode, ← heq]
  refine ⟨i.mode, _, i.opcode, field, chunk, rfl, hopcode, hbytes, hlength, hhas,
    Selection.select_takes hselect, (exists_encode_iff hselect).mp ⟨chunk, hencode⟩, ?_, ?_⟩
  · intro hbranch
    by_contra hmode
    rw [Instruction.not_relative_of_hasMode hhas hmode] at hbranch
    cases hbranch
  · intro v index short long hm hforms hoperands
    rcases @Selection.select_address image.symbols _ _ _ _ _ _ hforms hm hoperands with
      ⟨argument', _, haddress⟩
    rw [hselect, Except.ok.injEq, Prod.mk.injEq] at haddress
    rw [haddress.1] at hhas ⊢
    exact Selection.prefers_byAddress hhas

theorem exists_mnemonicEffect_iff (hroom : image.pc + 3 ≤ addressSpace)
    (position : Position) :
    (∃ e, image.mnemonicEffect position m operands = .ok e) ↔
      ∃ mode value, m.hasMode mode = true ∧ mode.Takes (operands.map Operand.form) value ∧
        mode.Receives image.symbols image.pc value := by
  constructor
  · rintro ⟨e, h⟩
    rcases chooses_of_mnemonicEffect h with ⟨mode, value, _, _, _, _, _, _, _, hchooses⟩
    exact ⟨mode, value, hchooses.has, hchooses.takes, hchooses.receives⟩
  · rintro ⟨mode, value, hhas, htakes, hreceives⟩
    rcases Selection.exists_select hhas htakes hreceives with
      ⟨selected, argument, hselect, rfl, hselected, hfits⟩
    rcases Option.isSome_iff_exists.mp hselected with ⟨opcode, hopcode⟩
    let i : Instruction := ⟨m, selected, opcode⟩
    have hi : Instruction.of? m selected = some i := by
      simp [Instruction.of?, hopcode, i]
    rcases (@exists_encode_iff image m operands i argument hselect).mpr hfits with
      ⟨chunk, hencode⟩
    rcases bytes_encode (i := i) hselect hencode with ⟨field, hbytes, hlength⟩
    have hsize : chunk.bytes.size ≤ 3 := by
      have htwo := i.mode.operandSize_le_two
      rw [← Array.length_toList, hbytes, List.length_cons]
      omega
    refine ⟨.append chunk, ?_⟩
    simp only [mnemonicEffect, hselect, hi, hencode]
    exact append?_eq_ok position (hasRoom_of_le (by omega))

end Image

theorem Session.accepts_iff {options : Options} {session : Session} {s : Statement} :
    session.accepts options s = true ↔
      ∃ e, session.image.effect options.filler s = .ok e := by
  constructor
  · intro h
    cases heffect : session.image.effect options.filler s with
    | ok e => exact ⟨e, rfl⟩
    | error d =>
        rw [not_accepts_of_error heffect] at h
        cases h
  · rintro ⟨e, heffect⟩
    exact accepts_of_ok heffect

theorem Image.effect_of_mnemonic {image : Image} {initial : UInt8} {s : Statement}
    {operation : Operation} {operands : List Operand} {m : Mnemonic}
    (hbody : s.body = .instruction operation operands)
    (hm : operation = .cpu m ∨ operation = .shorthand .goto ∧ m = .jmp) :
    image.effect initial s = image.mnemonicEffect s.position m operands := by
  unfold effect
  rw [hbody]
  rcases hm with rfl | ⟨rfl, rfl⟩
  · rfl
  · rfl

/-- As long as there is room for three bytes, an instruction is accepted if and only if
its mnemonic has a mode whose shape the operands have and whose field can hold the value,
if that is known now.  What is appended is the opcode of such a mode and its field.  For
an address, plain or with an index, the mode is the short form if the value is a number or
a constant of the zero page and that form exists, otherwise the long form if it exists, and
otherwise the short form; a branch has a form of its own. -/
theorem instruction_accepted_iff_mode {options : Options} {session : Session}
    {s : Statement} {operation : Operation} {operands : List Operand} {m : Mnemonic}
    (hbody : s.body = .instruction operation operands)
    (hm : operation = .cpu m ∨ operation = .shorthand .goto ∧ m = .jmp)
    (hroom : session.image.pc + 3 ≤ 0x10000) :
    let image := session.image
    let forms := operands.map Operand.form
    (session.accepts options s = true ↔
        ∃ mode value, m.hasMode mode = true ∧ mode.Takes forms value ∧
          mode.Receives image.symbols image.pc value) ∧
      (session.accepts options s = true ->
        ∃ mode value opcode field, m.opcode? mode = some opcode ∧
          (session.emit options s).image.bytes.toList =
            image.bytes.toList ++ opcode :: field ∧
          field.length = mode.operandSize ∧ image.Chooses m forms mode value) := by
  intro image forms
  have heffect := @Image.effect_of_mnemonic image options.filler s _ _ _ hbody hm
  constructor
  · rw [Session.accepts_iff, heffect]
    exact Image.exists_mnemonicEffect_iff hroom s.position
  · intro haccepts
    rcases Session.accepts_iff.mp haccepts with ⟨e, he⟩
    have hemit := Session.emit_of_ok he
    rw [heffect] at he
    rcases Image.chooses_of_mnemonicEffect he with
      ⟨mode, value, opcode, field, chunk, rfl, hopcode, hbytes, hlength, hchooses⟩
    refine ⟨mode, value, opcode, field, hopcode, ?_, hlength, hchooses⟩
    rw [hemit]
    simp [Image.apply, Image.append, hbytes, image]

/-- A constant of the zero page with an index takes the short form. -/
theorem instruction_accepted_iff_mode_constant :
    let session := (Script.ofText "zp = $20\nhere: nop".toList).events.foldl
      (Session.handle {}) (Session.start {} [])
    let load : Statement :=
      ⟨.instruction (.cpu .ldx)
        [⟨.plain (.name "ZP".toList), ⟨3, 5⟩⟩, ⟨.register .y, ⟨3, 9⟩⟩], ⟨3, 1⟩⟩
    session.image.pc + 3 ≤ 0x10000 ∧ session.accepts {} load = true ∧
      ∃ field, (session.emit {} load).image.bytes.toList = 0xea :: 0xb6 :: field ∧
        field.length = 1 := by
  intro session load
  have hroom : session.image.pc + 3 ≤ 0x10000 := by decide +kernel
  have haccepts : session.accepts {} load = true := by decide +kernel
  rcases @instruction_accepted_iff_mode {} session load _ _ .ldx rfl (.inl rfl) hroom with
    ⟨_, hmode⟩
  rcases hmode haccepts with
    ⟨mode, value, opcode, field, hopcode, hbytes, hlength, hchooses⟩
  have hzp : session.image.symbols.binding? "ZP".toList = some ⟨.constant, 0x20⟩ := by
    decide +kernel
  have hshort : mode = .zeroPageY :=
    (hchooses.prefers (by decide) .y rfl).first (.constant hzp (by decide) (by decide))
      (by decide)
  subst hshort
  cases hopcode
  have hold : session.image.bytes.toList = [0xea] := by decide +kernel
  exact ⟨hroom, haccepts, field, by rw [hbytes, hold]; rfl, hlength⟩

/-- Where the addresses come round to the lowest one, a branch is accepted whose label
lies almost 2^64 above the next instruction; no mode of its mnemonic reaches so far. -/
theorem branch_accepted_beyond_reach :
    let options : Options := { origin := 0x7FFFFFFFFFFFFFFF }
    let session := (Script.ofText "here:\nnop".toList).events.foldl
      (Session.handle options) (Session.start options [])
    let image := session.image
    let branch : Statement :=
      ⟨.instruction (.cpu .bne) [⟨.plain (.name "HERE".toList), ⟨3, 5⟩⟩], ⟨3, 1⟩⟩
    image.pc + 3 ≤ 0x10000 ∧ session.accepts options branch = true ∧
      ¬∃ mode value, Mnemonic.bne.hasMode mode = true ∧
        mode.Takes [.plain (.name "HERE".toList)] value ∧
        ∀ v ∈ value, ∀ n, v.amount? image.symbols = some n -> mode = .relative ->
          -128 ≤ n - (image.pc + 2) ∧ n - (image.pc + 2) ≤ 127 := by
  intro options session image branch
  refine ⟨by decide +kernel, by decide +kernel, ?_⟩
  rintro ⟨mode, value, hhas, htakes, hreach⟩
  have hhere : (Value.name "HERE".toList).amount? image.symbols =
      some 0x7FFFFFFFFFFFFFFF := by
    decide +kernel
  have hpc : image.pc = -0x8000000000000000 := by decide +kernel
  cases htakes with
  | zeroPage => exact absurd hhas (by decide)
  | absolute => exact absurd hhas (by decide)
  | relative =>
      have hnear := hreach _ rfl _ hhere rfl
      rw [hpc] at hnear
      omega

end Asm6502

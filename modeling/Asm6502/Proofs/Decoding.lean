import Asm6502.Disassembly.Decoded
import Asm6502.Proofs.TwoPass
import Mathlib.Data.List.Nodup

/-!
# Instructions are decoded to what was encoded

The instruction set is read forwards to encode an instruction and backwards to decode
it.  Since no two instructions share an opcode, the two readings agree.  An operand
comes back as far as its field holds it: modulo the size of the field, or exactly where
the field is a distance that a branch can reach.
-/

namespace Asm6502

/-!
## Opcodes
-/

namespace Instruction

theorem nodup_opcodes : (all.map opcode).Nodup := by
  decide +kernel

theorem mem_all_of_of? {m : Mnemonic} {mode : Mode} {i : Instruction}
    (h : of? m mode = some i) : i ∈ all ∧ i.mnemonic = m ∧ i.mode = mode := by
  rcases Option.map_eq_some_iff.mp h with ⟨opcode, hopcode, rfl⟩
  have hform : (mode, opcode) ∈ m.forms := by
    rcases List.lookup_eq_some_iff.mp hopcode with ⟨before, rest, hforms, _⟩
    rw [hforms]
    exact List.mem_append_right _ (List.mem_cons_self ..)
  refine ⟨List.mem_flatMap.mpr ⟨m, m.mem_all, ?_⟩, rfl, rfl⟩
  exact List.mem_map.mpr ⟨(mode, opcode), hform, rfl⟩

theorem ofOpcode?_opcode {i : Instruction} (h : i ∈ all) :
    ofOpcode? i.opcode = some i := by
  have hfound : (ofOpcode? i.opcode).isSome := by
    refine List.find?_isSome.mpr ⟨i, h, ?_⟩
    simp
  rcases Option.isSome_iff_exists.mp hfound with ⟨j, hj⟩
  have hopcode : j.opcode = i.opcode := by simpa using List.find?_some hj
  rw [hj, List.inj_on_of_nodup_map nodup_opcodes (List.mem_of_find?_eq_some hj) h hopcode]

end Instruction

/-!
## Operand fields
-/

namespace Field

theorem toNat_byte (k : Int) :
    ((UInt8.ofNat (k % 256).toNat).toNat : Int) = k % 256 := by
  have hlt : (k % 256).toNat < 256 := by omega
  rw [UInt8.toNat_ofNat_of_lt' hlt]
  omega

theorem littleEndian_one (n : Int) :
    littleEndian 1 n = [UInt8.ofNat (n % 256).toNat] := by
  simp [littleEndian, List.range_succ]

theorem signed_byte {k : Int} (hlow : -128 ≤ k) (hhigh : k ≤ 127) :
    signed (UInt8.ofNat (k % 256).toNat) = k := by
  have hsigned : signed (UInt8.ofNat (k % 256).toNat) = Int.bmod (k % 256) 256 := by
    unfold signed
    rw [toNat_byte]
  rw [hsigned, Int.bmod]
  split
  · omega
  · omega

end Field

namespace Decoded

theorem operandOf_littleEndian (address n : Int) {mode : Mode} (h : mode ≠ .relative) :
    operandOf address mode (Field.littleEndian mode.operandSize n) =
      n % 2 ^ (8 * mode.operandSize) := by
  match hsize : mode.operandSize, mode.operandSize_le_two with
  | 0, _ => simp [Field.littleEndian, operandOf]
  | 1, _ =>
      rw [Field.littleEndian_one, operandOf, if_neg h, Field.toNat_byte]
      rfl
  | 2, _ =>
      have htwo : Field.littleEndian 2 n =
          [UInt8.ofNat (n % 256).toNat, UInt8.ofNat (n / 256 % 256).toNat] := by
        simp [Field.littleEndian, List.range_succ]
      have hlow := Field.toNat_byte n
      have hhigh := Field.toNat_byte (n / 256)
      rw [htwo, operandOf, Field.word]
      omega

theorem operandOf_distance (address : Int) {target : Int}
    (hlow : -128 ≤ wrap64 (target - (address + 2)))
    (hhigh : wrap64 (target - (address + 2)) ≤ 127) :
    operandOf address .relative
        (Field.littleEndian 1 (wrap64 (target - (address + 2)))) =
      wrap64 target := by
  rw [Field.littleEndian_one, operandOf, if_pos rfl, Field.signed_byte hlow hhigh,
    wrap64_add_right]
  congr 1
  omega

end Decoded

namespace Mode

variable {mode : Mode} {position : Position}

def field (mode : Mode) (position : Position) : NamedField :=
  ⟨[], mode.operandSize, mode = .relative, position, none⟩

/-- What remains of a number in the operand field; an address is kept whole. -/
def keep (mode : Mode) (n : Int) : Int :=
  if mode = .relative then wrap64 n else n % 2 ^ (8 * mode.operandSize)

theorem width_of_branch (h : (mode.field position).branch = true) :
    (mode.field position).width = 1 := by
  show mode.operandSize = 1
  rw [of_decide_eq_true h]
  rfl

/-- A number that the operand field admits is read back as far as the field holds it. -/
theorem operandOf_stored {address n : Int}
    (h : (mode.field position).admits ((mode.field position).stored (address + 1) n) =
      true) :
    Decoded.operandOf address mode (Field.littleEndian mode.operandSize
      ((mode.field position).stored (address + 1) n)) = mode.keep n := by
  by_cases hmode : mode = .relative
  · -- The distance counts from the address after the instruction.
    subst hmode
    have hstored : (field .relative position).stored (address + 1) n =
        wrap64 (n - (address + 2)) := by
      simp [field, NamedField.stored, operandSize, Int.add_assoc]
    rw [hstored] at h ⊢
    simp only [NamedField.admits, field, decide_true, if_true, Bool.and_eq_true,
      decide_eq_true_eq] at h
    exact Decoded.operandOf_distance address h.1 h.2
  · have hstored : (mode.field position).stored (address + 1) n = n := by
      simp [field, NamedField.stored, hmode]
    rw [keep, if_neg hmode, hstored]
    exact Decoded.operandOf_littleEndian address n hmode

end Mode

theorem Decoded.ofBytes?_opcode {i : Instruction} (h : i ∈ Instruction.all) (address : Int)
    {operand : List UInt8} (hlength : operand.length = i.mode.operandSize)
    (more : List UInt8) :
    ofBytes? address (i.opcode :: operand ++ more) =
      some ⟨address, i, i.opcode :: operand, operandOf address i.mode operand⟩ := by
  have htake : (operand ++ more).take i.mode.operandSize = operand := by
    rw [← hlength, List.take_left]
  simp [ofBytes?, Instruction.ofOpcode?_opcode h, htake, hlength]

/-!
## Encoded instructions
-/

def Operation.resolve (operands : List Operand) :
    Operation -> Except Diagnostic.ShorthandFault (Mnemonic × List Operand)
  | .cpu m => .ok (m, operands)
  | .shorthand s => s.expand operands

/-- What a value amounts to; none while its name is pending. -/
def Value.amount? (table : SymbolTable) : Value -> Option Int
  | number n => some n
  | name t => table.value? t

def Argument.amount? (table : SymbolTable) : Option Argument -> Option Int
  | none => some 0
  | some a => a.value.amount? table

namespace Selection

variable {table : SymbolTable} {m : Mnemonic} {mode : Mode}

theorem select_argument {operands : List Operand} {argument : Option Argument}
    (h : select table m operands = .ok (mode, argument)) :
    argument.map Argument.value = operands.head?.bind Operand.value? ∧
      (argument = none -> mode.operandSize = 0) := by
  rcases select_selects h with ⟨⟨rfl, hunsized, _⟩, _⟩
  refine ⟨?_, hunsized⟩
  rw [Option.map_bind]
  congr 1
  funext o
  simp [Image.argument?, Function.comp_def]

end Selection

namespace Chunk

theorem addArgument_settled {table : SymbolTable} {chunk chunk' : Chunk} {a : Argument}
    {f : NamedField} {address : Int} (hwidth : f.width = 1 ∨ f.width = 2)
    (hbranch : f.branch = true -> f.width = 1)
    (h : chunk.addArgument table a f.width (f.reference address) = .ok chunk')
    (hsettled : chunk'.fixups.size = chunk.fixups.size) :
    ∃ n, a.value.amount? table = some n ∧ f.admits (f.stored address n) = true ∧
      chunk'.bytes = chunk.bytes ++ Field.littleEndian f.width (f.stored address n) := by
  have hvalue : ∀ {n : Int},
      chunk.addValue n a.position f.width (f.reference address) = .ok chunk' ->
      f.admits (f.stored address n) = true ∧
        chunk'.bytes = chunk.bytes ++ Field.littleEndian f.width (f.stored address n) := by
    intro n hn
    rcases addValue_eq_ok hwidth hbranch hn with ⟨hadmits, rfl⟩
    exact ⟨hadmits, rfl⟩
  unfold addArgument at h
  cases hform : a.value with
  | number n =>
      simp only [hform] at h
      exact ⟨n, rfl, hvalue h⟩
  | name name =>
      simp only [hform] at h
      cases hname : table.value? name with
      | some n =>
          simp only [hname] at h
          exact ⟨n, hname, hvalue h⟩
      | none =>
          simp only [hname, Except.ok.injEq] at h
          subst h
          simp [addFixup] at hsettled

end Chunk

namespace Image

variable {image : Image} {position : Position}

theorem mnemonicEffect_eq_ok {m : Mnemonic} {operands : List Operand} {e : Effect}
    (h : image.mnemonicEffect position m operands = .ok e) :
    ∃ mode argument i chunk,
      Selection.select image.symbols m operands = .ok (mode, argument) ∧
      Instruction.of? m mode = some i ∧ image.encode i argument = .ok chunk ∧
      e = .append chunk := by
  unfold mnemonicEffect at h
  cases hselect : Selection.select image.symbols m operands with
  | error f => simp [hselect] at h
  | ok selected =>
      rcases selected with ⟨mode, argument⟩
      simp only [hselect] at h
      cases hi : Instruction.of? m mode with
      | none => simp [hi] at h
      | some i =>
          simp only [hi] at h
          rcases exists_ok_of_bind h with ⟨chunk, hchunk, happend⟩
          refine ⟨mode, argument, i, chunk, rfl, hi, hchunk, ?_⟩
          unfold append? at happend
          split at happend <;> cases happend
          rfl

theorem instructionEffect_eq_ok {operands : List Operand} {operation : Operation}
    {e : Effect} (h : image.instructionEffect position operands operation = .ok e) :
    ∃ m rest mode argument i chunk, operation.resolve operands = .ok (m, rest) ∧
      Selection.select image.symbols m rest = .ok (mode, argument) ∧
      Instruction.of? m mode = some i ∧ image.encode i argument = .ok chunk ∧
      e = .append chunk := by
  cases operation with
  | cpu m =>
      rcases mnemonicEffect_eq_ok h with ⟨mode, argument, i, chunk, hencoded⟩
      exact ⟨m, operands, mode, argument, i, chunk, rfl, hencoded⟩
  | shorthand s =>
      unfold instructionEffect at h
      cases hexpand : s.expand operands with
      | error f => simp [hexpand] at h
      | ok expanded =>
          rcases expanded with ⟨m, rest⟩
          simp only [hexpand] at h
          rcases mnemonicEffect_eq_ok h with ⟨mode, argument, i, chunk, hencoded⟩
          exact ⟨m, rest, mode, argument, i, chunk, hexpand, hencoded⟩

/-- The bytes of an instruction without a fixup are its opcode and a field that is read
back as the argument. -/
theorem encode_settled {m : Mnemonic} {operands : List Operand} {i : Instruction}
    {argument : Option Argument} {chunk : Chunk}
    (hselect : Selection.select image.symbols m operands = .ok (i.mode, argument))
    (h : image.encode i argument = .ok chunk) (hsettled : chunk.fixups.size = 0) :
    ∃ operand n, chunk.bytes.toList = i.opcode :: operand ∧
      operand.length = i.mode.operandSize ∧
      Argument.amount? image.symbols argument = some n ∧
      Decoded.operandOf image.pc i.mode operand = i.mode.keep n := by
  cases argument with
  | none =>
      cases h
      have hsize := (Selection.select_argument hselect).2 rfl
      exact ⟨[], 0, rfl, hsize.symm, rfl, by simp [Mode.keep, Decoded.operandOf]⟩
  | some a =>
      have hwidth := Selection.select_operandSize hselect
      let f := i.mode.field a.position
      have hreference : (if i.mode = .relative then
          Reference.relative (wrap64 (image.pc + i.length)) else .absolute) =
          f.reference (image.pc + 1) := by
        simp [f, Mode.field, NamedField.reference, Instruction.length, Int.add_assoc]
      simp only [encode, hreference] at h
      rcases Chunk.addArgument_settled hwidth Mode.width_of_branch h hsettled with
        ⟨n, hamount, hadmits, hbytes⟩
      refine ⟨Field.littleEndian f.width (f.stored (image.pc + 1) n), n, ?_, ?_,
        hamount, Mode.operandOf_stored hadmits⟩
      · simp [hbytes, f]
      · exact Field.length_littleEndian ..

end Image

/-- The bytes of an instruction that is accepted and needs no fixup are decoded, at
their address and whatever follows them, to the instruction that was written: the
mnemonic after shorthands are resolved, the mode that the operands selected, and the
value of the operand as far as its field holds it; a branch leads to just the address
that it was sent to. -/
theorem decode_emitted {options : Options} {session : Session} {s : Statement}
    {operation : Operation} {operands : List Operand}
    (hbody : s.body = .instruction operation operands)
    (haccepts : session.accepts options s = true)
    (hsettled : (session.emit options s).image.fixups.size =
      session.image.fixups.size) :
    ∃ m rest mode argument appended d n,
      operation.resolve operands = .ok (m, rest) ∧
      Selection.select session.image.symbols m rest = .ok (mode, argument) ∧
      argument.map Argument.value = rest.head?.bind Operand.value? ∧
      Argument.amount? session.image.symbols argument = some n ∧
      (session.emit options s).image.bytes.toList =
        session.image.bytes.toList ++ appended ∧
      d.size = appended.length ∧ d.name = Text.lower m.name.toList ∧
      d.mode = mode ∧ d.operand = mode.keep n ∧
      (mode = .relative -> Signed64 n -> d.operand = n) ∧
      ∀ more, Decoded.ofBytes? session.image.pc (appended ++ more) = some d := by
  cases heffect : session.image.effect options.filler s with
  | error f =>
      rw [Session.not_accepts_of_error heffect] at haccepts
      cases haccepts
  | ok e =>
      have hinstruction : session.image.instructionEffect s.position operands
          operation = .ok e := by
        simpa only [Image.effect, hbody] using heffect
      rcases Image.instructionEffect_eq_ok hinstruction with
        ⟨m, rest, mode, argument, i, chunk, hresolve, hselect, hi, hencode, rfl⟩
      rcases Instruction.mem_all_of_of? hi with ⟨hmem, rfl, rfl⟩
      have hchunk : chunk.fixups.size = 0 := by
        simpa [Session.emit_of_ok heffect, Image.apply, Image.append] using hsettled
      rcases Image.encode_settled hselect hencode hchunk with
        ⟨operand, n, hbytes, hlength, hamount, hoperand⟩
      refine ⟨i.mnemonic, rest, i.mode, argument, i.opcode :: operand,
        ⟨session.image.pc, i, i.opcode :: operand, i.mode.keep n⟩, n, hresolve, hselect,
        (Selection.select_argument hselect).1, hamount, ?_, rfl, rfl, rfl, rfl, ?_, ?_⟩
      · simp [Session.emit_of_ok heffect, Image.apply, Image.append, hbytes]
      · intro hmode hn
        rw [Mode.keep, if_pos hmode, wrap64_of_signed64 hn]
      · intro more
        rw [Decoded.ofBytes?_opcode hmem _ hlength, hoperand]

/-- A branch back over one byte. -/
theorem decode_emitted_backward :
    let session := (Script.ofText "loop: inx".toList).events.foldl
      (Session.handle {}) (Session.start {} [])
    let branch : Statement :=
      ⟨.instruction (.cpu .bne) [⟨.plain (.name "LOOP".toList), ⟨2, 5⟩⟩], ⟨2, 1⟩⟩
    session.accepts {} branch = true ∧
      (session.emit {} branch).image.fixups.size = session.image.fixups.size ∧
      ∃ d, d.mode = .relative ∧ d.operand = 0 ∧
        ∀ more, Decoded.ofBytes? 1 (0xd0 :: 0xfd :: more) = some d := by
  intro session branch
  have haccepts : session.accepts {} branch = true := by decide +kernel
  have hsettled : (session.emit {} branch).image.fixups.size =
      session.image.fixups.size := by decide +kernel
  rcases decode_emitted rfl haccepts hsettled with
    ⟨m, rest, mode, argument, appended, d, n, hresolve, hselect, -, hamount, hbytes,
      -, -, hmode, hoperand, -, hdecode⟩
  cases hresolve
  cases hselect
  have hn : n = 0 := by
    have hvalue : session.image.symbols.value? "LOOP".toList = some 0 := by
      decide +kernel
    exact Option.some.inj (hamount.symm.trans hvalue)
  have happended : appended = [0xd0, 0xfd] := by
    have hold : session.image.bytes.toList = [0xe8] := by decide +kernel
    have hnew : (session.emit {} branch).image.bytes.toList = [0xe8, 0xd0, 0xfd] := by
      decide +kernel
    rw [hold, hnew] at hbytes
    exact (List.cons.inj hbytes).2.symm
  have hpc : session.image.pc = 1 := by decide +kernel
  refine ⟨haccepts, hsettled, d, hmode, by rw [hoperand, hn]; rfl, ?_⟩
  intro more
  rw [← hpc, ← hdecode more, happended]
  rfl

end Asm6502

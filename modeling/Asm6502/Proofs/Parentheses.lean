import Asm6502.Proofs.ModeSelection
import Asm6502.Proofs.References

/-!
# What becomes of parentheses

An operand in parentheses asks for one of the indirect modes.  A statement with such an
operand is reported unless it is an instruction of one of these modes, with two
exceptions.  The words that set or clear a flag take a bit in parentheses for the bit, and
the directive that changes the filler takes the word for the default in parentheses for
the word.  In both cases the statement does what it does without the parentheses.
-/

namespace Asm6502

namespace Operand

def Unenclosed (o : Operand) : Prop :=
  ∀ v indexed, o.form ≠ .indirect v indexed

def bare (o : Operand) : Operand :=
  match o.form with
  | .indirect v _ => { o with form := .plain v }
  | _ => o

end Operand

namespace Statement

def flagWords : List Shorthand :=
  [.carry, .interrupt, .decimal, .overflow]

def bare (s : Statement) : Statement :=
  match s.body with
  | .label _ => s
  | .instruction operation operands =>
      { s with body := .instruction operation (operands.map Operand.bare) }
  | .directive name operands =>
      { s with body := .directive name (operands.map Operand.bare) }

/-- The statements whose parentheses make no difference. -/
inductive DropsParentheses (s : Statement) : Prop where
  | bit {word : Shorthand} {n : Int} {indexed : Bool} {position : Position} :
      word ∈ flagWords ->
      s.body = .instruction (.shorthand word) [⟨.indirect (.number n) indexed, position⟩] ->
      DropsParentheses s
  | default {name t : Text} {indexed : Bool} {position : Position} :
      Directive.ofName? name = some .filler -> t.lower = "default".toList ->
      s.body = .directive name [⟨.indirect (.name t) indexed, position⟩] ->
      DropsParentheses s

end Statement

/-!
## Instructions
-/

/-- The mode dereferences its operand, and with an index before it does so if and only if
the index is asked for. -/
def Mode.Dereferences (mode : Mode) (indexed : Bool) : Prop :=
  mode ∈ [Mode.indirect, .indexedIndirect, .indirectIndexed] ∧
    (mode = .indexedIndirect ↔ indexed = true)

theorem Mode.Takes.dereferences {mode : Mode} {forms : List Operand.Form}
    {value : Option Value} {v : Value} {indexed : Bool} (h : mode.Takes forms value)
    (hform : .indirect v indexed ∈ forms) : mode.Dereferences indexed := by
  cases h with
  | indirect | indexedIndirect | indirectIndexed =>
      simp only [List.mem_cons, Operand.Form.indirect.injEq, List.not_mem_nil, or_false,
        reduceCtorEq] at hform
      rw [hform.2]
      exact ⟨by decide, by decide⟩
  | _ => simp at hform

theorem Mode.Takes.not_dereferences {mode : Mode} {value : Option Value}
    (h : mode.Takes [] value) (indexed : Bool) : ¬ mode.Dereferences indexed := by
  rintro ⟨hmode, _⟩
  cases h <;> cases hmode <;> contradiction

namespace Shorthand

variable {word : Shorthand} {operands rest : List Operand} {m : Mnemonic}

theorem eq_of_byBit {clear : Mnemonic} {set : Option Mnemonic} {o : Operand} {v : Value}
    {indexed : Bool} (h : byBit clear set operands = .ok m) (ho : o ∈ operands)
    (hform : o.form = .indirect v indexed) :
    ∃ n position, operands = [⟨.indirect (.number n) indexed, position⟩] := by
  unfold byBit at h
  split at h
  · cases List.mem_singleton.mp ho
    cases hform
  · rename_i n indexed' position
    cases List.mem_singleton.mp ho
    cases hform
    exact ⟨n, position, rfl⟩
  · cases h

theorem unenclosed_of_byRegister {onA onFlags : Mnemonic} {o : Operand}
    (h : byRegister onA onFlags operands = .ok m) (ho : o ∈ operands) : o.Unenclosed := by
  intro v indexed hform
  unfold byRegister at h
  split at h
  · cases List.mem_singleton.mp ho
    cases hform
  · cases List.mem_singleton.mp ho
    cases hform
  · cases h

theorem eq_ok_of_map {chosen : Except Diagnostic.ShorthandFault Mnemonic}
    (h : chosen.map (·, ([] : List Operand)) = .ok (m, rest)) :
    chosen = .ok m ∧ rest = [] := by
  cases chosen with
  | error f => cases h
  | ok chosen =>
      cases h
      exact ⟨rfl, rfl⟩

theorem rest_of_flagWord (hword : word ∈ Statement.flagWords)
    (h : word.expand operands = .ok (m, rest)) : rest = [] := by
  simp only [Statement.flagWords, List.mem_cons, List.not_mem_nil, or_false] at hword
  rcases hword with rfl | rfl | rfl | rfl <;> exact (eq_ok_of_map h).2

/-- A word that is given an operand in parentheses hands it on, or else it wants a bit. -/
theorem expand_enclosed {o : Operand} {v : Value} {indexed : Bool}
    (h : word.expand operands = .ok (m, rest)) (ho : o ∈ operands)
    (hform : o.form = .indirect v indexed) :
    rest = operands ∨ word ∈ Statement.flagWords ∧
      ∃ n position, operands = [⟨.indirect (.number n) indexed, position⟩] := by
  cases word with
  | goto =>
      cases h
      exact .inl rfl
  | push | pull =>
      exact absurd hform (unenclosed_of_byRegister (eq_ok_of_map h).1 ho v indexed)
  | carry | interrupt | decimal | overflow =>
      exact .inr ⟨by decide, eq_of_byBit (eq_ok_of_map h).1 ho hform⟩

end Shorthand

/-!
## Directives
-/

namespace Image

variable {image : Image} {o : Operand} {operands : List Operand} {e : Effect}
  {position : Position}

theorem unenclosed_of_constValue {n : Int} (h : image.constValue o = .ok n) :
    o.Unenclosed := by
  intro v indexed hform
  rw [constValue, hform] at h
  cases h

theorem unenclosed_of_byteValue {b : UInt8} (h : image.byteValue o = .ok b) :
    o.Unenclosed := by
  rcases exists_ok_of_bind h with ⟨n, hn, _⟩
  exact unenclosed_of_constValue hn

theorem unenclosed_of_foldlM {add : Chunk -> Operand -> Except Diagnostic Chunk}
    (hadd : ∀ {chunk chunk' : Chunk} {o : Operand}, add chunk o = .ok chunk' -> o.Unenclosed)
    {chunk chunk' : Chunk} (h : operands.foldlM add chunk = .ok chunk') :
    ∀ o ∈ operands, o.Unenclosed := by
  induction operands generalizing chunk with
  | nil => simp
  | cons first rest ih =>
      rw [List.foldlM_cons] at h
      rcases exists_ok_of_bind h with ⟨middle, hfirst, hrest⟩
      exact List.forall_mem_cons.mpr ⟨hadd hfirst, ih hrest⟩

theorem unenclosed_of_dataEffect {use : Directive.Use}
    {add : Chunk -> Operand -> Except Diagnostic Chunk} {final : List UInt8}
    (hadd : ∀ {chunk chunk' : Chunk} {o : Operand}, add chunk o = .ok chunk' -> o.Unenclosed)
    (h : image.dataEffect use add final = .ok e) : ∀ o ∈ use.operands, o.Unenclosed := by
  rcases exists_ok_of_bind h with ⟨chunk, hchunk, _⟩
  exact unenclosed_of_foldlM hadd hchunk

theorem unenclosed_of_addByte {name : Text} {chunk chunk' : Chunk}
    (h : image.addByte name chunk o = .ok chunk') : o.Unenclosed := by
  intro v indexed hform
  rw [addByte, hform] at h
  cases h

theorem unenclosed_of_addWord {name : Text} {chunk chunk' : Chunk}
    (h : image.addWord name chunk o = .ok chunk') : o.Unenclosed := by
  intro v indexed hform
  rw [addWord, hform] at h
  cases h

theorem unenclosed_of_addString {name : Text} {chunk chunk' : Chunk}
    (h : addString name chunk o = .ok chunk') : o.Unenclosed := by
  intro v indexed hform
  rw [addString, hform] at h
  cases h

theorem unenclosed_of_fillEffect {count : Operand} {byte : Option Operand}
    (h : image.fillEffect position count byte = .ok e) :
    ∀ o ∈ count :: byte.toList, o.Unenclosed := by
  rcases exists_ok_of_bind h with ⟨n, hn, hrest⟩
  refine List.forall_mem_cons.mpr ⟨unenclosed_of_constValue hn, ?_⟩
  split at hrest
  · cases hrest
  · cases byte with
    | none => simp
    | some o =>
        rcases exists_ok_of_bind hrest with ⟨b, hb, _⟩
        simpa using unenclosed_of_byteValue hb

theorem unenclosed_of_fillerEffect {initial : UInt8}
    (h : image.fillerEffect initial o = .ok e) : o.Unenclosed ∨ isDefault o = true := by
  unfold fillerEffect at h
  split at h
  · exact .inr ‹_›
  · cases hbyte : image.byteValue o with
    | error d => simp [hbyte, Except.map] at h
    | ok b => exact .inl (unenclosed_of_byteValue hbyte)

theorem unenclosed_of_bindEffect {directive : Text} {kind : Symbol.Kind}
    {name value : Operand} (h : image.bindEffect directive kind name value = .ok e) :
    ∀ o ∈ [name, value], o.Unenclosed := by
  unfold bindEffect at h
  split at h
  · rename_i t hname
    rcases exists_ok_of_bind h with ⟨n, hn, _⟩
    refine List.forall_mem_cons.mpr ⟨?_, by simpa using unenclosed_of_constValue hn⟩
    intro v indexed hform
    rw [hname] at hform
    cases hform
  · cases h

theorem unenclosed_of_directiveEffect {initial : UInt8} {d : Directive} {name : Text}
    (h : image.directiveEffect initial d ⟨name, position, operands⟩ = .ok e) :
    (∀ o ∈ operands, o.Unenclosed) ∨
      d = .filler ∧ ∃ o, operands = [o] ∧ isDefault o = true := by
  unfold directiveEffect at h
  dsimp only at h
  split at h
  · cases h
  · split at h
    · exact .inl (unenclosed_of_dataEffect unenclosed_of_addByte h)
    · exact .inl (unenclosed_of_dataEffect unenclosed_of_addWord h)
    · exact .inl (unenclosed_of_dataEffect unenclosed_of_addString h)
    · exact .inl (unenclosed_of_dataEffect unenclosed_of_addString h)
    · rcases exists_ok_of_bind h with ⟨n, hn, _⟩
      exact .inl (by simpa using unenclosed_of_constValue hn)
    · exact .inl (unenclosed_of_fillEffect h)
    · exact .inl (unenclosed_of_fillEffect h)
    · rcases exists_ok_of_bind h with ⟨n, hn, _⟩
      exact .inl (by simpa using unenclosed_of_constValue hn)
    · rename_i o _
      rcases unenclosed_of_fillerEffect h with ho | hdefault
      · exact .inl (by simpa using ho)
      · exact .inr ⟨rfl, o, rfl, hdefault⟩
    · exact .inl (unenclosed_of_bindEffect h)
    · exact .inl (unenclosed_of_bindEffect h)
    · cases h

/-!
## Statements
-/

/-- Where the parentheses make no difference, leaving them out makes none. -/
theorem effect_bare {s : Statement} (h : s.DropsParentheses) (initial : UInt8) :
    image.effect initial s.bare = image.effect initial s := by
  cases h with
  | @bit word n indexed position hword hbody =>
      simp only [effect, Statement.bare, hbody, List.map_cons, List.map_nil, Operand.bare,
        instructionEffect]
      simp only [Statement.flagWords, List.mem_cons, List.not_mem_nil, or_false] at hword
      rcases hword with rfl | rfl | rfl | rfl <;> rfl
  | @default name t indexed position hname ht hbody =>
      have hword : isDefault ⟨.plain (.name t), position⟩ =
          isDefault ⟨.indirect (.name t) indexed, position⟩ := rfl
      have hyes : isDefault ⟨.indirect (.name t) indexed, position⟩ = true := by
        simp [isDefault, ht]
      simp [effect, Statement.bare, hbody, Operand.bare, hname, directiveEffect,
        Directive.arity, fillerEffect, hword, hyes]

theorem dropsParentheses_of_directive {s : Statement} {name : Text} {initial : UInt8}
    {v : Value} {indexed : Bool} (hbody : s.body = .directive name operands)
    (h : image.effect initial s = .ok e) (ho : o ∈ operands)
    (hform : o.form = .indirect v indexed) : s.DropsParentheses := by
  simp only [effect, hbody] at h
  cases hname : Directive.ofName? name with
  | none => simp [hname] at h
  | some d =>
      simp only [hname] at h
      rcases unenclosed_of_directiveEffect h with hall | ⟨rfl, o', hone, hdefault⟩
      · exact absurd hform (hall o ho v indexed)
      · subst hone
        cases List.mem_singleton.mp ho
        rcases o with ⟨form, position⟩
        cases hform
        cases v with
        | number n => cases hdefault
        | name t => exact .default hname (by simpa [isDefault] using hdefault) hbody

end Image

theorem Session.emit_instruction {options : Options} {session : Session} {s : Statement}
    {operation : Operation} {operands : List Operand} {e : Effect}
    (hbody : s.body = .instruction operation operands)
    (h : session.image.effect options.filler s = .ok e) :
    ∃ m rest i value field, operation.resolve operands = .ok (m, rest) ∧
      i ∈ Instruction.all ∧ i.mode.Takes (rest.map Operand.form) value ∧
      (session.emit options s).image.bytes.toList =
        session.image.bytes.toList ++ i.opcode :: field := by
  have hinstruction : session.image.instructionEffect s.position operands operation =
      .ok e := by
    simpa only [Image.effect, hbody] using h
  rcases Image.instructionEffect_eq_ok hinstruction with
    ⟨m, rest, mode, argument, i, chunk, hresolve, hselect, hi, hencode, rfl⟩
  rcases Instruction.mem_all_of_of? hi with ⟨hmem, rfl, rfl⟩
  rcases Image.bytes_encode hselect hencode with ⟨field, hbytes, _⟩
  refine ⟨i.mnemonic, rest, i, _, field, hresolve, hmem, Selection.select_takes hselect, ?_⟩
  rw [emit_of_ok h]
  simp [Image.apply, Image.append, hbytes]

/-- Suppose that a statement with an operand in parentheses is accepted.  It is an
instruction with the opcode of an indirect mode, the one with the index before if and only
if the index stands in the parentheses, unless it is one of the statements that drop
parentheses; these have the same effect as without them. -/
theorem parentheses_heeded_iff {options : Options} {session : Session} {s : Statement}
    {o : Operand} {v : Value} {indexed : Bool}
    (haccepts : session.accepts options s = true) (ho : o ∈ s.operands)
    (hform : o.form = .indirect v indexed) :
    ((∃ operation operands i field, s.body = .instruction operation operands ∧
        i ∈ Instruction.all ∧
        (session.emit options s).image.bytes.toList =
          session.image.bytes.toList ++ i.opcode :: field ∧
        i.mode.Dereferences indexed) ↔ ¬ s.DropsParentheses) ∧
      (s.DropsParentheses -> session.emit options s = session.emit options s.bare) := by
  rcases Session.accepts_iff.mp haccepts with ⟨e, he⟩
  refine ⟨⟨?_, ?_⟩, ?_⟩
  · rintro ⟨operation, operands, i, field, hbody, hi, hbytes, hmode⟩ hdrops
    cases hdrops with
    | default hname ht hdirective =>
        rw [hdirective] at hbody
        cases hbody
    | bit hword hbit =>
        rw [hbit] at hbody
        cases hbody
        rcases Session.emit_instruction hbit he with
          ⟨m, rest, j, value, field', hresolve, hj, htakes, hbytes'⟩
        -- The word leaves no operands, so the opcode is that of a mode without them.
        have hrest : rest = [] := Shorthand.rest_of_flagWord hword hresolve
        rw [hbytes'] at hbytes
        have hopcode : j.opcode = i.opcode :=
          (List.cons.inj (List.append_cancel_left hbytes)).1
        have hsame : j = i :=
          List.inj_on_of_nodup_map Instruction.nodup_opcodes hj hi hopcode
        subst hrest hsame
        exact htakes.not_dereferences indexed hmode
  · intro hkeeps
    cases hbody : s.body with
    | label name => simp [Statement.operands, hbody] at ho
    | directive name operands =>
        have hmem : o ∈ operands := by simpa [Statement.operands, hbody] using ho
        exact absurd (Image.dropsParentheses_of_directive hbody he hmem hform) hkeeps
    | instruction operation operands =>
        have hmem : o ∈ operands := by simpa [Statement.operands, hbody] using ho
        rcases Session.emit_instruction hbody he with
          ⟨m, rest, i, value, field, hresolve, hi, htakes, hbytes⟩
        refine ⟨operation, operands, i, field, rfl, hi, hbytes, ?_⟩
        have hrest : rest = operands := by
          cases operation with
          | cpu m' =>
              cases hresolve
              rfl
          | shorthand word =>
              rcases Shorthand.expand_enclosed hresolve hmem hform with
                hsame | ⟨hword, n, position, hbit⟩
              · exact hsame
              · subst hbit
                exact absurd (.bit hword hbody) hkeeps
        subst hrest
        exact htakes.dereferences (List.mem_map.mpr ⟨o, hmem, hform⟩)
  · intro hdrops
    unfold Session.emit
    rw [Image.effect_bare hdrops]

/-- A bit in parentheses is taken for the bit; an address in parentheses is not taken for
the address. -/
theorem parentheses_heeded_iff_carry :
    let session := Session.start {} []
    let carry : Statement :=
      ⟨.instruction (.shorthand .carry) [⟨.indirect (.number 1) false, ⟨1, 7⟩⟩], ⟨1, 1⟩⟩
    let load : Statement :=
      ⟨.instruction (.cpu .lda) [⟨.indirect (.number 1) true, ⟨2, 5⟩⟩], ⟨2, 1⟩⟩
    (Script.ofText "carry (1)\nlda (1,x)".toList).events =
        [.statement carry, .statement load] ∧
      session.accepts {} carry = true ∧
      session.emit {} carry = session.emit {} carry.bare ∧
      (¬ ∃ operation operands i field, carry.body = .instruction operation operands ∧
        i ∈ Instruction.all ∧
        (session.emit {} carry).image.bytes.toList = i.opcode :: field ∧
        i.mode.Dereferences false) ∧
      session.accepts {} load = true ∧
      ∃ operation operands i field, load.body = .instruction operation operands ∧
        i ∈ Instruction.all ∧
        (session.emit {} load).image.bytes.toList = i.opcode :: field ∧
        i.mode.Dereferences true := by
  intro session carry load
  have hcarry : session.accepts {} carry = true := by decide +kernel
  have hload : session.accepts {} load = true := by decide +kernel
  have hdrops : carry.DropsParentheses := .bit (by decide) rfl
  have hkeeps : ¬ load.DropsParentheses := by
    rintro (⟨_, hbody⟩ | ⟨_, _, hbody⟩) <;> cases hbody
  rcases parentheses_heeded_iff hcarry (List.mem_singleton.mpr rfl) rfl with ⟨hiff, hbare⟩
  have hheeded := (parentheses_heeded_iff hload (List.mem_singleton.mpr rfl) rfl).1.mpr hkeeps
  exact ⟨by decide +kernel, hcarry, hbare hdrops, fun h => hiff.mp h hdrops, hload, hheeded⟩

end Asm6502

import Asm6502.Proofs.AddressSpace
import Asm6502.Proofs.ModeSelection

/-!
# Sizes do not depend on labels

The choice between the short and the long form of an address looks at numbers and at
constants only.  Two symbol tables with the same constants therefore select the same mode
for the same operands, whatever labels they have and whatever is pending in them.  An
instruction that refers to a label has one opcode and one length, before the label is
bound as well as after.
-/

namespace Asm6502

/-!
## Selection
-/

namespace SymbolTable

/-- The name is the same constant in both tables, or in neither one a constant. -/
def SameConstant (table other : SymbolTable) (name : Text) : Prop :=
  ∀ n, table.binding? name = some ⟨.constant, n⟩ ↔
    other.binding? name = some ⟨.constant, n⟩

def AgreesFor (table other : SymbolTable) (operands : List Operand) : Prop :=
  ∀ o ∈ operands, ∀ name, o.value? = some (.name name) -> table.SameConstant other name

end SymbolTable

namespace Selection

variable {table other : SymbolTable} {v : Value} {o : Operand}

theorem isZeroPage_congr (h : ∀ name, v = .name name -> table.SameConstant other name) :
    isZeroPage table v = isZeroPage other v := by
  rw [Bool.eq_iff_iff, isZeroPage_iff, isZeroPage_iff]
  constructor
  · intro hshort
    cases hshort with
    | number hlow hhigh => exact .number hlow hhigh
    | constant hname hlow hhigh => exact .constant ((h _ rfl _).mp hname) hlow hhigh
  · intro hshort
    cases hshort with
    | number hlow hhigh => exact .number hlow hhigh
    | constant hname hlow hhigh => exact .constant ((h _ rfl _).mpr hname) hlow hhigh

theorem byAddress_congr (h : ∀ name, v = .name name -> table.SameConstant other name)
    (m : Mnemonic) (short long : Mode) :
    byAddress table m v short long = byAddress other m v short long := by
  unfold byAddress
  rw [isZeroPage_congr h]

theorem operand_congr
    (h : ∀ name, o.value? = some (.name name) -> table.SameConstant other name)
    (m : Mnemonic) :
    single table m o = single other m o ∧ byX table m o = byX other m o ∧
      byY table m o = byY other m o := by
  rcases o with ⟨form, position⟩
  cases form with
  | plain v =>
      have hsame := byAddress_congr (fun name hv => h name (congrArg some hv)) m
      simp only [single, byX, byY, hsame, and_self]
  | immediate v | string contents => exact ⟨rfl, rfl, rfl⟩
  | indirect v indexed => cases indexed <;> exact ⟨rfl, rfl, rfl⟩
  | register r => cases r <;> exact ⟨rfl, rfl, rfl⟩

theorem select_congr {operands : List Operand} (h : table.AgreesFor other operands)
    (m : Mnemonic) : select table m operands = select other m operands := by
  match operands with
  | [] => rfl
  | [o] => exact (operand_congr (h o (List.mem_cons_self ..)) m).1
  | [o, index] =>
      rcases operand_congr (h o (List.mem_cons_self ..)) m with ⟨_, hx, hy⟩
      simp only [select, hx, hy]
  | _ :: _ :: _ :: _ => rfl

end Selection

/-!
## Opcode and length
-/

namespace Image

def mnemonicChoice (table : SymbolTable) (position : Position) (m : Mnemonic)
    (operands : List Operand) : Except Diagnostic Instruction :=
  match Selection.select table m operands with
  | .error f => .error (instructionFault position (.operands m f))
  | .ok (mode, _) =>
      match Instruction.of? m mode with
      | none => .error (instructionFault position (.unsupported m mode))
      | some i => .ok i

def choice (table : SymbolTable) (position : Position) (operands : List Operand) :
    Operation -> Except Diagnostic Instruction
  | .cpu m => mnemonicChoice table position m operands
  | .shorthand s =>
      match s.expand operands with
      | .error f => .error (instructionFault position (.shorthand s f))
      | .ok (m, rest) => mnemonicChoice table position m rest

theorem choice_congr {table other : SymbolTable} {operands : List Operand}
    (h : table.AgreesFor other operands) (position : Position) (operation : Operation) :
    choice table position operands operation = choice other position operands operation := by
  cases operation with
  | cpu m => simp only [choice, mnemonicChoice, Selection.select_congr h m]
  | shorthand s =>
      simp only [choice]
      cases hexpand : s.expand operands with
      | error f => rfl
      | ok expanded =>
          rcases expanded with ⟨m, rest⟩
          have hrest : table.AgreesFor other rest :=
            fun o ho => h o (subset_of_expand hexpand ho)
          simp only [mnemonicChoice, Selection.select_congr hrest m]

/-- What becomes of a choice: a diagnostic is reported as it is, and an instruction is
appended with its opcode and its length, unless a number is out of range. -/
inductive Realizes : Except Diagnostic Instruction -> Except Diagnostic Effect -> Prop where
  | refused {d : Diagnostic} : Realizes (.error d) (.error d)
  | encoded {i : Instruction} {chunk : Chunk} {field : List UInt8} :
      chunk.bytes.toList = i.opcode :: field -> chunk.bytes.size = i.length ->
      Realizes (.ok i) (.ok (.append chunk))
  | outOfRange {i : Instruction} {d : Diagnostic} :
      d.kind = .range -> Realizes (.ok i) (.error d)

variable {image : Image}

theorem kind_of_encode {i : Instruction} {argument : Option Argument} {d : Diagnostic}
    (h : image.encode i argument = .error d) : d.kind = .range := by
  have hvalue : ∀ {chunk : Chunk} {n : Int} {position : Position} {width : Nat}
      {reference : Reference},
      chunk.addValue n position width reference = .error d -> d.kind = .range := by
    intro chunk n position width reference hadd
    unfold Chunk.addValue at hadd
    split at hadd <;> cases hadd
    rfl
  cases argument with
  | none => cases h
  | some a =>
      simp only [encode, Chunk.addArgument] at h
      cases hform : a.value with
      | number n =>
          simp only [hform] at h
          exact hvalue h
      | name name =>
          simp only [hform] at h
          cases hname : image.symbols.value? name with
          | none => simp [hname] at h
          | some n =>
              simp only [hname] at h
              exact hvalue h

theorem realizes_mnemonicEffect (image : Image) (position : Position) (m : Mnemonic)
    (operands : List Operand) :
    Realizes (mnemonicChoice image.symbols position m operands)
      (image.mnemonicEffect position m operands) := by
  unfold mnemonicChoice mnemonicEffect
  cases hselect : Selection.select image.symbols m operands with
  | error f => exact .refused
  | ok selected =>
      rcases selected with ⟨mode, argument⟩
      cases hi : Instruction.of? m mode with
      | none =>
          simp only [hi]
          exact .refused
      | some i =>
          simp only [hi]
          rcases Instruction.hasMode_of_of? hi with ⟨_, _, rfl⟩
          cases hencode : image.encode i argument with
          | error d => exact .outOfRange (kind_of_encode hencode)
          | ok chunk =>
              rcases bytes_encode hselect hencode with ⟨field, hbytes, hlength⟩
              have hsize : chunk.bytes.size = i.length := by
                rw [← Array.length_toList, hbytes, List.length_cons, hlength,
                  Instruction.length, Nat.add_comm]
              show Realizes (.ok i) (image.append? position chunk)
              unfold append?
              split
              · exact .encoded hbytes hsize
              · exact .outOfRange rfl

theorem realizes_instructionEffect (image : Image) (position : Position)
    (operands : List Operand) (operation : Operation) :
    Realizes (choice image.symbols position operands operation)
      (image.instructionEffect position operands operation) := by
  cases operation with
  | cpu m => exact realizes_mnemonicEffect image position m operands
  | shorthand s =>
      simp only [choice, instructionEffect]
      cases s.expand operands with
      | error f => exact .refused
      | ok expanded => exact realizes_mnemonicEffect image position expanded.1 expanded.2

/-- Two images that agree on the constants among the operands of an instruction give it
the same opcode and length, or refuse it with the same diagnostic. -/
theorem exists_realizes {image other : Image} {s : Statement} {operation : Operation}
    {operands : List Operand} (hbody : s.body = .instruction operation operands)
    (h : image.symbols.AgreesFor other.symbols operands) (initial : UInt8) :
    ∃ chosen, Realizes chosen (image.effect initial s) ∧
      Realizes chosen (other.effect initial s) := by
  have hfirst := image.realizes_instructionEffect s.position operands operation
  have hsecond := other.realizes_instructionEffect s.position operands operation
  rw [← choice_congr h] at hsecond
  refine ⟨choice image.symbols s.position operands operation, ?_, ?_⟩
  · simpa only [effect, hbody] using hfirst
  · simpa only [effect, hbody] using hsecond

end Image

/-- A name that is a label later on is not a constant before. -/
theorem Session.sameConstant_of_label {options : Options} {session : Session}
    {events : List Event} {name : Text} {n : Int}
    (h : (events.foldl (handle options) session).image.symbols.binding? name =
      some ⟨.label, n⟩) :
    session.image.symbols.SameConstant
      (events.foldl (handle options) session).image.symbols name := by
  intro k
  rw [h]
  constructor
  · intro hconstant
    have hgrows : session.image.symbols.Grows
        (events.foldl (handle options) session).image.symbols :=
      foldl_handle_keeps (P := fun image => session.image.symbols.Grows image.symbols)
        (fun _ heffect hgrows => hgrows.trans (Image.effect_lays heffect).grows) (.refl _)
    rw [hgrows.binding hconstant] at h
    cases h
  · intro hlabel
    cases hlabel

/-- Tables with the same constants, whatever else they hold, select the same mode and
argument for the same operands, or refuse them for the same reason.  So an instruction
whose names are labels in the end is given the same opcode and length wherever it stands,
before its labels are bound or after: at both places it is refused with the same
diagnostic, or appended in this form unless a number is out of range. -/
theorem selection_ignores_labels :
    (∀ (table other : SymbolTable) (m : Mnemonic) (operands : List Operand),
      (∀ name n, table.binding? name = some ⟨.constant, n⟩ ↔
        other.binding? name = some ⟨.constant, n⟩) ->
      Selection.select table m operands = Selection.select other m operands) ∧
    ∀ (options : Options) (before : Session) (events : List Event) (s : Statement)
      (operation : Operation) (operands : List Operand),
      s.body = .instruction operation operands ->
      (∀ o ∈ operands, ∀ name, o.value? = some (.name name) ->
        ∃ n, (events.foldl (Session.handle options) before).image.symbols.binding? name =
          some ⟨.label, n⟩) ->
      ∃ chosen, Image.Realizes chosen (before.image.effect options.filler s) ∧
        Image.Realizes chosen ((events.foldl (Session.handle options) before).image.effect
          options.filler s) := by
  constructor
  · intro table other m operands hsame
    exact Selection.select_congr (fun o _ name _ => hsame name) m
  · intro options before events s operation operands hbody hlabels
    apply Image.exists_realizes hbody
    intro o ho name hname
    rcases hlabels o ho name hname with ⟨n, hn⟩
    exact Session.sameConstant_of_label hn

/-- A label in the zero page that is bound, and one that is pending, in a table of their
own and in a run. -/
theorem selection_ignores_labels_low :
    let operands : List Operand := [⟨.plain (.name "There".toList), ⟨2, 5⟩⟩]
    let load : Statement := ⟨.instruction (.cpu .lda) operands, ⟨2, 1⟩⟩
    let before := Session.start {} []
    let after := (Script.ofText "there: nop".toList).events.foldl (Session.handle {}) before
    Selection.select (SymbolTable.empty.bind "there".toList ⟨.label, 5⟩) .lda operands =
        Selection.select (SymbolTable.empty.mention "there".toList ⟨1, 5⟩) .lda operands ∧
      after.image.symbols.binding? "There".toList = some ⟨.label, 0⟩ ∧
      ∃ chosen, Image.Realizes chosen (before.image.effect 0xEA load) ∧
        Image.Realizes chosen (after.image.effect 0xEA load) := by
  intro operands load before after
  have hlabel : after.image.symbols.binding? "There".toList = some ⟨.label, 0⟩ := by
    decide +kernel
  refine ⟨selection_ignores_labels.1 _ _ .lda operands ?_, hlabel,
    selection_ignores_labels.2 {} before _ load (.cpu .lda) operands rfl ?_⟩
  · intro name n
    have hempty : SymbolTable.empty.binding? name = none := rfl
    rw [SymbolTable.binding?_mention, hempty]
    by_cases hname : Text.foldCase "there".toList = name.foldCase
    · rw [SymbolTable.binding?_bind_same _ _ hname]
      simp
    · rw [SymbolTable.binding?_bind_other _ _ hname, hempty]
  · intro o ho name hname
    cases List.mem_singleton.mp ho
    cases hname
    exact ⟨0, hlabel⟩

end Asm6502

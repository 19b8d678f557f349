import Asm6502.Proofs.Parallel

/-!
# The default filler shows in padding only

Two runs of a source that differ in the default filler go side by side.  The filler is
read by the directives that pad, it is set by one directive, and the word `default` sets
it back.  In all of this it is a byte that is copied and never a number: no address, size,
mode, name or diagnostic depends on it.  So the two outputs differ at most where one run
has the one filler and the other run has the other.
-/

namespace Asm6502

/-!
## Bytes
-/

/-- The bytes are equal, or they are the two fillers. -/
def SameButFiller (f g b c : UInt8) : Prop :=
  b = c ∨ b = f ∧ c = g

structure CodeButFiller (f g : UInt8) (code code' : Array UInt8) : Prop where
  size : code.size = code'.size
  get : ∀ n : Nat, code[n]? = code'[n]? ∨ code[n]? = some f ∧ code'[n]? = some g

namespace CodeButFiller

variable {f g : UInt8} {code code' more more' : Array UInt8}

theorem refl (f g : UInt8) (code : Array UInt8) : CodeButFiller f g code code :=
  ⟨rfl, fun _ => .inl rfl⟩

theorem append (h : CodeButFiller f g code code') (hmore : CodeButFiller f g more more') :
    CodeButFiller f g (code ++ more) (code' ++ more') := by
  constructor
  · rw [Array.size_append, Array.size_append, h.size, hmore.size]
  · intro n
    rw [Array.getElem?_append, Array.getElem?_append, ← h.size]
    split
    · exact h.get n
    · exact hmore.get (n - code.size)

theorem replicate {b c : UInt8} (h : SameButFiller f g b c) (count : Nat) :
    CodeButFiller f g (Array.replicate count b) (Array.replicate count c) := by
  constructor
  · rw [Array.size_replicate, Array.size_replicate]
  · intro n
    rw [Array.getElem?_replicate, Array.getElem?_replicate]
    split
    · rcases h with rfl | ⟨rfl, rfl⟩
      · exact .inl rfl
      · exact .inr ⟨rfl, rfl⟩
    · exact .inl rfl

theorem set (h : CodeButFiller f g code code') (place : Nat) (b : UInt8) :
    CodeButFiller f g (code.setIfInBounds place b) (code'.setIfInBounds place b) := by
  constructor
  · rw [Array.size_setIfInBounds, Array.size_setIfInBounds, h.size]
  · intro n
    rw [Array.getElem?_setIfInBounds, Array.getElem?_setIfInBounds, ← h.size]
    split
    · exact .inl rfl
    · exact h.get n

theorem store (h : CodeButFiller f g code code') (place : Nat) (bytes : List UInt8) :
    CodeButFiller f g (Field.store code place bytes) (Field.store code' place bytes) := by
  induction bytes generalizing code code' place with
  | nil => exact h
  | cons b rest ih => exact ih (h.set place b) (place + 1)

end CodeButFiller

theorem Fixup.applyAll_butFiller {f g : UInt8} (table : SymbolTable)
    {code code' : Array UInt8} (h : CodeButFiller f g code code')
    (fixups : List Fixup) :
    CodeButFiller f g (applyAll table code fixups).code
        (applyAll table code' fixups).code ∧
      (applyAll table code fixups).faults = (applyAll table code' fixups).faults := by
  suffices hfold : ∀ faults : Array Diagnostic,
      CodeButFiller f g (fixups.foldl (apply table) ⟨code, faults⟩).code
          (fixups.foldl (apply table) ⟨code', faults⟩).code ∧
        (fixups.foldl (apply table) ⟨code, faults⟩).faults =
          (fixups.foldl (apply table) ⟨code', faults⟩).faults from hfold #[]
  induction fixups generalizing code code' with
  | nil => exact fun faults => ⟨h, rfl⟩
  | cons fixup rest ih =>
      intro faults
      rw [List.foldl_cons, List.foldl_cons]
      unfold apply
      cases table.value? fixup.name with
      | none => exact ih h faults
      | some value =>
          dsimp only
          cases fixup.reference.encode value fixup.width with
          | error fault => exact ih h _
          | ok n => exact ih (h.store fixup.offset _) faults

/-!
## Images
-/

namespace Image

structure ButFiller (f g : UInt8) (image image' : Image) : Prop where
  bytes : CodeButFiller f g image.bytes image'.bytes
  origin : image.origin = image'.origin
  originSet : image.originSet = image'.originSet
  filler : SameButFiller f g image.filler image'.filler
  symbols : image.symbols = image'.symbols
  fixups : image.fixups = image'.fixups

variable {f g : UInt8} {image image' : Image} {position : Position}

theorem butFiller_start (origin : Int) (f g : UInt8) :
    ButFiller f g (start origin f) (start origin g) :=
  ⟨.refl f g #[], rfl, rfl, .inr ⟨rfl, rfl⟩, rfl, rfl⟩

namespace ButFiller

theorem pc (h : ButFiller f g image image') : image.pc = image'.pc := by
  unfold Image.pc
  rw [h.origin, h.bytes.size]

theorem hasRoom (h : ButFiller f g image image') (count : Int) :
    image.hasRoom count = image'.hasRoom count := by
  unfold Image.hasRoom
  rw [h.pc]

theorem isEmpty (h : ButFiller f g image image') :
    image.bytes.isEmpty = image'.bytes.isEmpty := by
  unfold Array.isEmpty
  rw [h.bytes.size]

theorem append (h : ButFiller f g image image') {chunk chunk' : Chunk}
    (hbytes : CodeButFiller f g chunk.bytes chunk'.bytes)
    (hfixups : chunk.fixups = chunk'.fixups) :
    ButFiller f g (image.append chunk) (image'.append chunk') := by
  refine ⟨h.bytes.append hbytes, h.origin, h.originSet, h.filler, ?_, ?_⟩
  · unfold Image.append
    dsimp only
    rw [h.symbols, hfixups]
  · unfold Image.append
    dsimp only
    rw [h.fixups, hfixups, h.bytes.size]

theorem apply (h : ButFiller f g image image') (e : Effect) :
    ButFiller f g (image.apply e) (image'.apply e) := by
  cases e with
  | define name binding =>
      refine ⟨h.bytes, h.origin, h.originSet, h.filler, ?_, h.fixups⟩
      exact congrArg (fun table => table.bind name binding) h.symbols
  | moveOrigin origin => exact ⟨h.bytes, rfl, rfl, h.filler, h.symbols, h.fixups⟩
  | setFiller filler =>
      exact ⟨h.bytes, h.origin, h.originSet, .inl rfl, h.symbols, h.fixups⟩
  | append chunk => exact h.append (.refl f g _) rfl

/-!
### Statements that do not look at the filler
-/

theorem constValue (h : ButFiller f g image image') (o : Operand) :
    image.constValue o = image'.constValue o := by
  unfold Image.constValue
  rw [h.symbols]

theorem byteValue (h : ButFiller f g image image') (o : Operand) :
    image.byteValue o = image'.byteValue o := by
  unfold Image.byteValue
  rw [h.constValue]

theorem pastMemory (h : ButFiller f g image image') (position : Position)
    (count : Int) : image.pastMemory position count = image'.pastMemory position count := by
  unfold Image.pastMemory
  rw [h.pc]

theorem append? (h : ButFiller f g image image') (position : Position)
    (chunk : Chunk) : image.append? position chunk = image'.append? position chunk := by
  unfold Image.append?
  rw [h.hasRoom, h.pastMemory]

theorem define? (h : ButFiller f g image image') (position : Position) (name : Text)
    (binding : Symbol.Binding) :
    image.define? position name binding = image'.define? position name binding := by
  unfold Image.define?
  rw [h.symbols]

theorem mnemonicEffect (h : ButFiller f g image image') (position : Position)
    (m : Mnemonic) (operands : List Operand) :
    image.mnemonicEffect position m operands =
      image'.mnemonicEffect position m operands := by
  have hencode : image.encode = image'.encode := by
    funext i argument
    unfold Image.encode
    rw [h.symbols, h.pc]
  have happend : image.append? position = image'.append? position :=
    funext (h.append? position)
  unfold Image.mnemonicEffect
  rw [h.symbols, hencode, happend]

theorem instructionEffect (h : ButFiller f g image image') (position : Position)
    (operands : List Operand) (operation : Operation) :
    image.instructionEffect position operands operation =
      image'.instructionEffect position operands operation := by
  unfold Image.instructionEffect
  simp only [h.mnemonicEffect]

theorem dataEffect (h : ButFiller f g image image') (use : Directive.Use)
    (add : Chunk -> Operand -> Except Diagnostic Chunk) (final : List UInt8) :
    image.dataEffect use add final = image'.dataEffect use add final := by
  unfold Image.dataEffect
  simp only [h.append?]

theorem addByte (h : ButFiller f g image image') : image.addByte = image'.addByte := by
  funext name chunk o
  unfold Image.addByte
  rw [h.symbols]

theorem addWord (h : ButFiller f g image image') : image.addWord = image'.addWord := by
  funext name chunk o
  unfold Image.addWord
  rw [h.symbols]

theorem bindEffect (h : ButFiller f g image image') (directive : Text)
    (kind : Symbol.Kind) (name value : Operand) :
    image.bindEffect directive kind name value =
      image'.bindEffect directive kind name value := by
  unfold Image.bindEffect
  simp only [h.constValue, h.define?]

/-!
### Statements that do
-/

/-- The two runs fail alike, or have effects that leave the images as different as they
were. -/
def Keeps (f g : UInt8) (image image' : Image) (x y : Except Diagnostic Effect) : Prop :=
  Parallel Eq (fun e e' => ButFiller f g (image.apply e) (image'.apply e')) x y

theorem keeps (h : ButFiller f g image image') {x y : Except Diagnostic Effect}
    (heq : x = y) : Keeps f g image image' x y := by
  subst heq
  exact .refl (fun _ => rfl) h.apply x

theorem keeps_bind {α : Type} {x y : Except Diagnostic α}
    {next next' : α -> Except Diagnostic Effect} (heq : x = y)
    (hnext : ∀ a, Keeps f g image image' (next a) (next' a)) :
    Keeps f g image image' (x >>= next) (y >>= next') := by
  subst heq
  refine Parallel.bind (.refl (fun _ => rfl) (fun _ => rfl) x) ?_
  rintro a _ rfl
  exact hnext a

theorem pad? (h : ButFiller f g image image') (position : Position) (count : Int)
    {b c : UInt8} (hbyte : SameButFiller f g b c) :
    Keeps f g image image' (image.pad? position count b)
      (image'.pad? position count c) := by
  unfold Keeps Image.pad?
  rw [h.hasRoom, h.pastMemory]
  refine .ite (.ok ?_) (.error rfl)
  exact h.append (.replicate hbyte count.toNat) rfl

theorem orgEffect (h : ButFiller f g image image') (position : Position)
    (o : Operand) :
    Keeps f g image image' (image.orgEffect position o)
      (image'.orgEffect position o) := by
  refine keeps_bind (h.constValue o) fun address => ?_
  rw [h.originSet, h.isEmpty, h.pc]
  refine .ite (h.keeps rfl) (.ite (.error rfl) ?_)
  exact h.pad? position _ h.filler

theorem fillEffect (h : ButFiller f g image image') (position : Position)
    (count : Operand) (byte : Option Operand) :
    Keeps f g image image' (image.fillEffect position count byte)
      (image'.fillEffect position count byte) := by
  refine keeps_bind (h.constValue count) fun n => .ite (.error rfl) ?_
  cases byte with
  | none => exact h.pad? position n h.filler
  | some o =>
      exact keeps_bind (h.byteValue o) fun b => h.pad? position n (.inl rfl)

theorem alignEffect (h : ButFiller f g image image') (position : Position)
    (o : Operand) :
    Keeps f g image image' (image.alignEffect position o)
      (image'.alignEffect position o) := by
  refine keeps_bind (h.constValue o) fun n => ?_
  rw [h.pc]
  exact .ite (.error rfl) (h.pad? position _ h.filler)

/-- The name `default` stands for the one filler here and for the other there. -/
theorem fillerEffect (h : ButFiller f g image image') (o : Operand) :
    Keeps f g image image' (image.fillerEffect f o) (image'.fillerEffect g o) := by
  unfold Image.fillerEffect
  rw [h.byteValue]
  refine .ite (.ok ?_) (h.keeps rfl)
  exact ⟨h.bytes, h.origin, h.originSet, .inr ⟨rfl, rfl⟩, h.symbols, h.fixups⟩

theorem directiveEffect (h : ButFiller f g image image') (d : Directive)
    (use : Directive.Use) :
    Keeps f g image image' (image.directiveEffect f d use)
      (image'.directiveEffect g d use) := by
  unfold Image.directiveEffect
  dsimp only
  refine .ite (.error rfl) ?_
  rcases use with ⟨name, position, operands⟩
  dsimp only
  rw [h.addByte, h.addWord]
  split
  · exact h.keeps (h.dataEffect _ _ _)
  · exact h.keeps (h.dataEffect _ _ _)
  · exact h.keeps (h.dataEffect _ _ _)
  · exact h.keeps (h.dataEffect _ _ _)
  · exact h.orgEffect position _
  · exact h.fillEffect position _ _
  · exact h.fillEffect position _ _
  · exact h.alignEffect position _
  · exact h.fillerEffect _
  · exact h.keeps (h.bindEffect _ _ _ _)
  · exact h.keeps (h.bindEffect _ _ _ _)
  · exact .error rfl

theorem effect (h : ButFiller f g image image') (s : Statement) :
    Keeps f g image image' (image.effect f s) (image'.effect g s) := by
  unfold Image.effect
  cases s.body with
  | label name =>
      refine h.keeps ?_
      rw [h.pc]
      exact h.define? _ _ _
  | instruction operation operands => exact h.keeps (h.instructionEffect _ _ _)
  | directive name operands =>
      dsimp only
      cases Directive.ofName? name with
      | none => exact .error rfl
      | some d => exact h.directiveEffect d _

end ButFiller
end Image

/-!
## Runs
-/

theorem Session.paired_butFiller (options : Options) (f g : UInt8) (script : Script) :
    Session.Paired Eq (Image.ButFiller f g)
      (script.events.foldl (Session.handle { options with filler := f })
        (Session.start { options with filler := f } script.opening))
      (script.events.foldl (Session.handle { options with filler := g })
        (Session.start { options with filler := g } script.opening)) := by
  have hstep : Session.InStep Eq (Image.ButFiller f g) Eq { options with filler := f }
      { options with filler := g } := by
    rintro image image' s _ himage rfl
    exact himage.effect s
  have hevents : List.Forall₂ (Event.Paired Eq Eq) script.events script.events := by
    refine List.forall₂_same.mpr fun e _ => ?_
    cases e with
    | report d => exact .report rfl
    | statement s => exact .statement rfl
  have hstart : Session.Paired Eq (Image.ButFiller f g)
      (Session.start { options with filler := f } script.opening)
      (Session.start { options with filler := g } script.opening) :=
    ⟨Image.butFiller_start options.origin f g, List.forall₂_same.mpr fun _ _ => rfl⟩
  exact hstart.foldl_handle hstep hevents

/-- The last pass reports the same and patches the same places. -/
theorem Session.Paired.finish_butFiller {f g : UInt8} {session session' : Session}
    (h : Session.Paired Eq (Image.ButFiller f g) session session') :
    session.finish.diagnostics = session'.finish.diagnostics ∧
      CodeButFiller f g session.finish.image.bytes session'.finish.image.bytes := by
  have hreports : session.diagnostics = session'.diagnostics := by
    rw [← Array.toList_inj, ← List.forall₂_eq_eq_eq]
    exact h.diagnostics
  have hpatched := Fixup.applyAll_butFiller session'.image.symbols h.image.bytes
    session'.image.fixups.toList
  unfold Session.finish
  dsimp only
  rw [hreports, h.image.symbols, h.image.fixups]
  exact ⟨by rw [hpatched.2], hpatched.1⟩

theorem Result.code_butFiller {f g : UInt8} {options options' : Options}
    {session session' : Session} (hstrict : options.strict = options'.strict)
    (hdiagnostics : session.diagnostics = session'.diagnostics)
    (hbytes : CodeButFiller f g session.image.bytes session'.image.bytes) :
    CodeButFiller f g (Result.ofSession options session).code
      (Result.ofSession options' session').code := by
  unfold Result.ofSession
  dsimp only
  rw [hstrict, hdiagnostics]
  split
  · exact .refl f g #[]
  · exact hbytes

/-- For every source and any two default fillers, all other options being equal: the two
runs have the same origin, symbols and diagnostics and as many bytes, and at every place
they have the same byte, or the first run has the first filler and the second run has the
second. -/
theorem assemble_filler_noninterference (options : Options) (f g : UInt8)
    (source : Text) :
    let first := assemble { options with filler := f } source
    let second := assemble { options with filler := g } source
    first.origin = second.origin ∧ first.symbols = second.symbols ∧
      first.diagnostics = second.diagnostics ∧ first.code.size = second.code.size ∧
      ∀ n : Nat, first.code[n]? = second.code[n]? ∨
        first.code[n]? = some f ∧ second.code[n]? = some g := by
  intro first second
  have hpaired := Session.paired_butFiller options f g (Script.ofText source)
  rcases hpaired.finish_butFiller with ⟨hdiagnostics, hbytes⟩
  have hcode : CodeButFiller f g first.code second.code :=
    Result.code_butFiller rfl hdiagnostics hbytes
  refine ⟨hpaired.image.origin, ?_, ?_, hcode.size, hcode.get⟩
  · exact congrArg SymbolTable.symbols hpaired.image.symbols
  · exact congrArg Array.toList hdiagnostics

example : (assemble { filler := 0xFF } ".byte $FF\n.align 3".toList).code =
    #[0xFF, 0xFF, 0xFF] := by
  decide +kernel

example : (assemble { filler := 0 } ".byte $FF\n.align 3".toList).code =
    #[0xFF, 0, 0] := by
  decide +kernel

end Asm6502

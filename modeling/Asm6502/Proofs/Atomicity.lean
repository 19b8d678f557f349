import Asm6502.Proofs.LaidOut

/-!
# A statement is carried out whole or not at all

A session computes the effect of a statement first and changes its image
afterwards, so that a statement that fails leaves no trace.  An image could also
be changed step by step while the statement is read: a name entered here, a byte
there, with nothing to undo them when a later check fails.  This module describes
that way of working and shows that it comes to the same.  Only a definition makes a
change before its last check: it enters the name, and fails if the name is bound.
But a name that is bound has an entry, so nothing was entered then.
-/

namespace Asm6502

open Diagnostic

/-- A computation on an image that is changed in place.  What has been changed
stays changed, also when the computation fails later on. -/
abbrev InPlace := EStateM Diagnostic Image

namespace InPlace

/-!
## Steps
-/

def ask {α : Type} (question : Image -> Except Diagnostic α) : InPlace α :=
  fun image =>
    match question image with
    | .ok answer => .ok answer image
    | .error d => .error d image

def room (position : Position) (count : Int) : InPlace Unit :=
  ask fun image =>
    if image.hasRoom count then .ok () else .error (image.pastMemory position count)

def pushByte (b : UInt8) : InPlace Unit :=
  modify fun image => { image with bytes := image.bytes.push b }

def pushFixup (f : Fixup) : InPlace Unit := do
  modify fun image =>
    { image with symbols := image.symbols.mention f.name f.position }
  modify fun image =>
    { image with
      fixups := image.fixups.push { f with offset := f.offset + image.bytes.size } }

def commit (position : Position) (chunk : Chunk) : InPlace Unit := do
  room position chunk.bytes.size
  chunk.fixups.toList.forM pushFixup
  chunk.bytes.toList.forM pushByte

def pad (position : Position) (count : Int) (b : UInt8) : InPlace Unit := do
  room position count
  (List.replicate count.toNat b).forM pushByte

def enter (name : Text) : InPlace Unit :=
  modify fun image => { image with symbols := image.symbols.enter name ⟨0, 0⟩ }

def define (position : Position) (name : Text) (binding : Symbol.Binding) :
    InPlace Unit := do
  enter name
  ask fun image =>
    match image.symbols.duplicate? name with
    | some d => .error ⟨.duplicate d, position⟩
    | none => .ok ()
  modify fun image => { image with symbols := image.symbols.bind name binding }

/-!
## Instructions
-/

def mnemonic (position : Position) (m : Mnemonic) (operands : List Operand) :
    InPlace Unit := do
  let (mode, argument) <- ask fun image =>
    (Selection.select image.symbols m operands).mapError fun f =>
      Image.instructionFault position (.operands m f)
  let i <- ask fun _ =>
    match Instruction.of? m mode with
    | some i => .ok i
    | none => .error (Image.instructionFault position (.unsupported m mode))
  let chunk <- ask fun image => image.encode i argument
  commit position chunk

def instruction (position : Position) (operands : List Operand) :
    Operation -> InPlace Unit
  | .cpu m => mnemonic position m operands
  | .shorthand s => do
      let (m, rest) <- ask fun _ => (s.expand operands).mapError fun f =>
        Image.instructionFault position (.shorthand s f)
      mnemonic position m rest

/-!
## Directives
-/

def data (use : Directive.Use)
    (add : Image -> Chunk -> Operand -> Except Diagnostic Chunk)
    (final : List UInt8) : InPlace Unit := do
  let chunk <- ask fun image => use.operands.foldlM (add image) Chunk.empty
  commit use.position (chunk.addBytes final)

def org (position : Position) (o : Operand) : InPlace Unit := do
  let address <- ask fun image => image.constValue o
  let image <- get
  if !image.originSet && image.bytes.isEmpty then do
    modify fun image => { image with origin := address }
    modify fun image => { image with originSet := true }
  else if address < image.pc then
    throw (Image.directiveFault position (.movesBack address image.pc))
  else pad position (wrap64 (address - image.pc)) image.filler

def fill (position : Position) (count : Operand) (byte : Option Operand) :
    InPlace Unit := do
  let n <- ask fun image => image.constValue count
  if n < 0 then throw ⟨.range (.negativeCount n), position⟩
  else
    let b <- ask fun image =>
      match byte with
      | some o => image.byteValue o
      | none => .ok image.filler
    pad position n b

def align (position : Position) (o : Operand) : InPlace Unit := do
  let n <- ask fun image => image.constValue o
  if n < 1 then throw ⟨.range (.alignment n), position⟩
  else
    let image <- get
    pad position (Image.alignment image.pc n) image.filler

def filler (initial : UInt8) (o : Operand) : InPlace Unit :=
  if Image.isDefault o then modify fun image => { image with filler := initial }
  else do
    let b <- ask fun image => image.byteValue o
    modify fun image => { image with filler := b }

def bindName (directive : Text) (kind : Symbol.Kind) (name value : Operand) :
    InPlace Unit :=
  match name.form with
  | .plain (.name t) => do
      let n <- ask fun image => image.constValue value
      define name.position t ⟨kind, n⟩
  | _ => throw (Image.directiveFault name.position (.wantsName directive))

def directive (initial : UInt8) (d : Directive) (use : Directive.Use) :
    InPlace Unit :=
  let miscounted : InPlace Unit :=
    throw (Image.directiveFault use.position
      (.argumentCount use.name d.arity.1 d.arity.2 use.operands.length))
  if use.operands.length < d.arity.1 || d.arity.2 < use.operands.length then
    miscounted
  else
    match d, use.operands with
    | .byte, _ => data use (fun image => image.addByte use.name) []
    | .word, _ => data use (fun image => image.addWord use.name) []
    | .text, _ => data use (fun _ => Image.addString use.name) []
    | .asciiz, _ => data use (fun _ => Image.addString use.name) [0]
    | .org, [o] => org use.position o
    | .fill, [n] => fill use.position n none
    | .fill, [n, b] => fill use.position n (some b)
    | .align, [o] => align use.position o
    | .filler, [o] => filler initial o
    | .const, [name, value] => bindName use.name .constant name value
    | .label, [name, value] => bindName use.name .label name value
    | _, _ => miscounted

/-!
## Statements
-/

def statement (initial : UInt8) (s : Statement) : InPlace Unit :=
  match s.body with
  | .label name => do
      let image <- get
      define s.position name ⟨.label, image.pc⟩
  | .instruction operation operands => instruction s.position operands operation
  | .directive name operands => do
      let d <- ask fun _ =>
        match Directive.ofName? name with
        | some d => .ok d
        | none => .error (Image.directiveFault s.position (.unknown name))
      directive initial d ⟨name, s.position, operands⟩

end InPlace

def Session.emitInPlace (options : Options) (session : Session) (s : Statement) :
    Session :=
  match (InPlace.statement options.filler s).run session.image with
  | .ok _ image => { session with image := image }
  | .error d image => { session with image := image }.report d

/-!
## Both ways come to the same
-/

namespace InPlace

/-- In place and as an effect, the same is done: either a whole effect, or no
change and a diagnostic. -/
def Performs (image : Image) (p : InPlace Unit) : Except Diagnostic Effect -> Prop
  | .ok e => p.run image = .ok () (image.apply e)
  | .error d => p.run image = .error d image

variable {α : Type} {image : Image} {position : Position}

namespace Performs

theorem throw (d : Diagnostic) :
    Performs image (throwThe Diagnostic d) (.error d) := rfl

theorem get {next : Image -> InPlace Unit} {r : Except Diagnostic Effect}
    (h : Performs image (next image) r) :
    Performs image (getThe Image >>= next) r := by
  cases r <;> exact h

theorem ask_ok {question : Image -> Except Diagnostic α} {next : α -> InPlace Unit}
    {answer : α} {r : Except Diagnostic Effect}
    (hanswer : question image = .ok answer)
    (h : Performs image (next answer) r) :
    Performs image (InPlace.ask question >>= next) r := by
  have hrun : (InPlace.ask question >>= next).run image =
      (next answer).run image := by
    show EStateM.bind (InPlace.ask question) next image = _
    simp only [EStateM.bind, InPlace.ask, hanswer]
    rfl
  cases r <;> exact hrun.trans h

theorem ask_error {question : Image -> Except Diagnostic α}
    {next : α -> InPlace Unit} {d : Diagnostic} (hfault : question image = .error d) :
    Performs image (InPlace.ask question >>= next) (.error d) := by
  show EStateM.bind (InPlace.ask question) next image = _
  simp only [EStateM.bind, InPlace.ask, hfault]

theorem ask {question : Image -> Except Diagnostic α} {next : α -> InPlace Unit}
    {effect : α -> Except Diagnostic Effect}
    (h : ∀ answer, Performs image (next answer) (effect answer)) :
    Performs image (InPlace.ask question >>= next)
      (question image >>= effect) := by
  cases hquestion : question image with
  | error d => exact ask_error hquestion
  | ok answer => exact ask_ok hquestion (h answer)

end Performs

theorem run_pushBytes (bytes : List UInt8) :
    (bytes.forM pushByte).run image =
      .ok () { image with bytes := image.bytes ++ bytes } := by
  induction bytes generalizing image with
  | nil =>
      show EStateM.Result.ok () image = _
      simp
  | cons b rest ih =>
      show (rest.forM pushByte).run { image with bytes := image.bytes.push b } = _
      rw [ih]
      simp

theorem run_pushFixups (fixups : List Fixup) :
    (fixups.forM pushFixup).run image =
      .ok () { image with
        symbols := fixups.foldl (fun t f => t.mention f.name f.position)
          image.symbols
        fixups := image.fixups ++ fixups.map fun f =>
          { f with offset := f.offset + image.bytes.size } } := by
  induction fixups generalizing image with
  | nil =>
      show EStateM.Result.ok () image = _
      simp
  | cons f rest ih =>
      show (rest.forM pushFixup).run { image with
          symbols := image.symbols.mention f.name f.position
          fixups := image.fixups.push
            { f with offset := f.offset + image.bytes.size } } = _
      rw [ih]
      simp

theorem room_performs {count : Int} {next : InPlace Unit} {e : Effect}
    (h : next.run image = .ok () (image.apply e)) :
    Performs image (do room position count; next)
      (if image.hasRoom count then .ok e
        else .error (image.pastMemory position count)) := by
  by_cases hroom : image.hasRoom count = true
  · rw [if_pos hroom]
    exact Performs.ask_ok (if_pos hroom) h
  · rw [if_neg hroom]
    exact Performs.ask_error (if_neg hroom)

theorem commit_performs (chunk : Chunk) :
    Performs image (commit position chunk) (image.append? position chunk) := by
  apply room_performs
  show EStateM.bind (chunk.fixups.toList.forM pushFixup) _ image = _
  have hfixups := @run_pushFixups image chunk.fixups.toList
  unfold EStateM.run at hfixups
  rw [EStateM.bind, hfixups]
  refine (run_pushBytes _).trans ?_
  simp only [Image.apply, Image.append, Array.foldl_toList]
  congr 2 <;> exact Array.toList_inj.1 (by simp)

theorem pad_performs (count : Int) (b : UInt8) :
    Performs image (pad position count b) (image.pad? position count b) := by
  apply room_performs
  rw [run_pushBytes]
  simp only [Image.apply, Image.append]
  congr 2 <;> exact Array.toList_inj.1 (by simp)

/-- After its entry is made, a name is checked and bound as before. -/
theorem run_define (name : Text) (binding : Symbol.Binding) :
    (define position name binding).run image =
      match image.symbols.duplicate? name with
      | some d => .error ⟨.duplicate d, position⟩
          { image with symbols := image.symbols.enter name ⟨0, 0⟩ }
      | none => .ok () { image with symbols := image.symbols.bind name binding } := by
  show EStateM.bind (ask _) _
    { image with symbols := image.symbols.enter name ⟨0, 0⟩ } = _
  simp only [EStateM.bind, ask, SymbolTable.duplicate?_enter]
  cases image.symbols.duplicate? name with
  | some d => rfl
  | none =>
      show EStateM.Result.ok () { image with
        symbols := (image.symbols.enter name ⟨0, 0⟩).bind name binding } = _
      rw [SymbolTable.bind_enter]

theorem define_performs (name : Text) (binding : Symbol.Binding) :
    Performs image (define position name binding)
      (image.define? position name binding) := by
  have hrun := @run_define image position name binding
  unfold Image.define?
  cases hfree : image.symbols.duplicate? name with
  | some d =>
      have hentry := SymbolTable.isSome_of_duplicate? hfree
      rw [hfree, SymbolTable.enter_of_isSome hentry] at hrun
      exact hrun
  | none =>
      rw [hfree] at hrun
      exact hrun

theorem mnemonic_performs (m : Mnemonic) (operands : List Operand) :
    Performs image (mnemonic position m operands)
      (image.mnemonicEffect position m operands) := by
  unfold mnemonic Image.mnemonicEffect
  cases hselect : Selection.select image.symbols m operands with
  | error f => exact Performs.ask_error (by rw [hselect]; rfl)
  | ok selected =>
      rcases selected with ⟨mode, argument⟩
      refine Performs.ask_ok (by rw [hselect]; rfl) ?_
      dsimp only
      cases Instruction.of? m mode with
      | none => exact Performs.ask_error rfl
      | some i =>
          refine Performs.ask_ok rfl ?_
          exact Performs.ask commit_performs

theorem instruction_performs (operands : List Operand) (operation : Operation) :
    Performs image (instruction position operands operation)
      (image.instructionEffect position operands operation) := by
  cases operation with
  | cpu m => exact mnemonic_performs m operands
  | shorthand s =>
      simp only [instruction, Image.instructionEffect]
      cases s.expand operands with
      | error f => exact Performs.ask_error rfl
      | ok expanded =>
          refine Performs.ask_ok rfl ?_
          exact mnemonic_performs expanded.1 expanded.2

theorem data_performs (use : Directive.Use)
    (add : Image -> Chunk -> Operand -> Except Diagnostic Chunk)
    (final : List UInt8) :
    Performs image (data use add final)
      (image.dataEffect use (add image) final) :=
  Performs.ask fun chunk => commit_performs (chunk.addBytes final)

theorem org_performs (o : Operand) :
    Performs image (org position o) (image.orgEffect position o) := by
  apply Performs.ask
  intro address
  apply Performs.get
  split
  · rfl
  · split
    · exact Performs.throw _
    · exact pad_performs _ _

theorem fill_performs (count : Operand) (byte : Option Operand) :
    Performs image (fill position count byte)
      (image.fillEffect position count byte) := by
  apply Performs.ask
  intro n
  split
  · exact Performs.throw _
  · cases byte with
    | none => exact Performs.ask_ok rfl (pad_performs n image.filler)
    | some o => exact Performs.ask fun b => pad_performs n b

theorem align_performs (o : Operand) :
    Performs image (align position o) (image.alignEffect position o) := by
  apply Performs.ask
  intro n
  split
  · exact Performs.throw _
  · exact Performs.get (pad_performs _ _)

theorem filler_performs (initial : UInt8) (o : Operand) :
    Performs image (filler initial o) (image.fillerEffect initial o) := by
  unfold filler Image.fillerEffect
  split
  · rfl
  · have hchain : (image.byteValue o).map Effect.setFiller =
        (image.byteValue o >>= fun b => .ok (.setFiller b)) := by
      cases image.byteValue o <;> rfl
    rw [hchain]
    exact Performs.ask fun b => rfl

theorem bindName_performs (directive : Text) (kind : Symbol.Kind)
    (name value : Operand) :
    Performs image (bindName directive kind name value)
      (image.bindEffect directive kind name value) := by
  unfold bindName Image.bindEffect
  cases name.form with
  | plain v =>
      cases v with
      | number n => exact Performs.throw _
      | name t => exact Performs.ask fun n => define_performs _ _
  | _ => exact Performs.throw _

theorem directive_performs (initial : UInt8) (d : Directive)
    (use : Directive.Use) :
    Performs image (directive initial d use)
      (image.directiveEffect initial d use) := by
  rcases use with ⟨name, position, operands⟩
  unfold directive Image.directiveEffect
  dsimp only
  split
  · exact Performs.throw _
  -- A wrong number of arguments falls through in both.
  · cases d with
    | byte => exact data_performs _ (fun image => image.addByte name) _
    | word => exact data_performs _ (fun image => image.addWord name) _
    | text => exact data_performs _ (fun _ => Image.addString name) _
    | asciiz => exact data_performs _ (fun _ => Image.addString name) _
    | org =>
        match operands with
        | [o] => exact org_performs _
        | [] | _ :: _ :: _ => exact Performs.throw _
    | fill =>
        match operands with
        | [n] => exact fill_performs _ _
        | [n, b] => exact fill_performs _ _
        | [] | _ :: _ :: _ :: _ => exact Performs.throw _
    | align =>
        match operands with
        | [o] => exact align_performs _
        | [] | _ :: _ :: _ => exact Performs.throw _
    | filler =>
        match operands with
        | [o] => exact filler_performs _ _
        | [] | _ :: _ :: _ => exact Performs.throw _
    | const =>
        match operands with
        | [name, value] => exact bindName_performs _ _ _ _
        | [] | [_] | _ :: _ :: _ :: _ => exact Performs.throw _
    | label =>
        match operands with
        | [name, value] => exact bindName_performs _ _ _ _
        | [] | [_] | _ :: _ :: _ :: _ => exact Performs.throw _

/-- In place or as an effect, a statement does the same. -/
theorem statement_performs (initial : UInt8) (s : Statement) :
    Performs image (statement initial s) (image.effect initial s) := by
  unfold statement Image.effect
  cases s.body with
  | label name => exact Performs.get (define_performs _ _)
  | instruction operation operands => exact instruction_performs _ _
  | directive name operands =>
      dsimp only
      cases Directive.ofName? name with
      | none => exact Performs.ask_error rfl
      | some d =>
          refine Performs.ask_ok rfl ?_
          exact directive_performs _ _ _

end InPlace

namespace Session

theorem emitInPlace_eq (options : Options) (session : Session) (s : Statement) :
    session.emitInPlace options s = session.emit options s := by
  have h := @InPlace.statement_performs session.image options.filler s
  unfold emitInPlace emit
  cases heffect : session.image.effect options.filler s with
  | ok e =>
      rw [heffect] at h
      have hrun : (InPlace.statement options.filler s).run session.image =
          .ok () (session.image.apply e) := h
      rw [hrun]
  | error d =>
      rw [heffect] at h
      have hrun : (InPlace.statement options.filler s).run session.image =
          .error d session.image := h
      rw [hrun]

/-!
## Runs

The next image depends on the image alone, so a diagnostic more or less does not
change what the rest of a run does.
-/

theorem image_emit_congr {options : Options} {first second : Session}
    (h : first.image = second.image) (s : Statement) :
    (first.emit options s).image = (second.emit options s).image := by
  unfold emit
  rw [h]
  cases second.image.effect options.filler s with
  | ok e => rfl
  | error d => exact h

theorem image_foldl_emit_congr {options : Options} {first second : Session}
    (h : first.image = second.image) (later : List Statement) :
    (later.foldl (emit options) first).image =
      (later.foldl (emit options) second).image := by
  induction later generalizing first second with
  | nil => exact h
  | cons s rest ih => exact ih (image_emit_congr h s)

end Session

/-- A statement adds at most one diagnostic.  If it adds one, then the bytes, the
origin, the filler, the fixups and the symbol table are as before, and all later
statements build the image that they would have built without it.  This is so even
when the image is changed in place. -/
theorem emit_whole_or_not_at_all (options : Options) (session : Session)
    (s : Statement) :
    session.emitInPlace options s = session.emit options s ∧
      ((session.emit options s).diagnostics = session.diagnostics ∨
        ∃ d, (session.emit options s).diagnostics = session.diagnostics.push d ∧
          (session.emit options s).image = session.image ∧
          ∀ later : List Statement,
            (later.foldl (Session.emit options) (session.emit options s)).image =
              (later.foldl (Session.emit options) session).image) := by
  refine ⟨Session.emitInPlace_eq options session s, ?_⟩
  cases heffect : session.image.effect options.filler s with
  | ok e =>
      left
      rw [Session.emit_of_ok heffect]
  | error d =>
      right
      rw [Session.emit_of_error heffect]
      refine ⟨d, rfl, rfl, ?_⟩
      exact Session.image_foldl_emit_congr rfl

end Asm6502

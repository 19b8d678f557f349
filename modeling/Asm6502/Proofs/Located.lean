import Asm6502.Assembly.Run
import Asm6502.Proofs.Selected
import Asm6502.Proofs.SymbolTable

/-!
# Where the diagnostics of a run point

A diagnostic of a run comes from the reader, or it points to a statement: to the place
where the statement begins or to one of its operands.  This holds at once for statements
that fail.  For the diagnostics at the end of a run it holds because fixups and pending
names keep the position of the operand that they come from.
-/

namespace Asm6502

def Statement.operands (s : Statement) : List Operand :=
  match s.body with
  | .label _ => []
  | .instruction _ operands | .directive _ operands => operands

def Statement.positions (s : Statement) : List Position :=
  s.position :: s.operands.map Operand.position

/-!
## Computations that point to given positions
-/

/-- If the computation fails, its diagnostic is at one of the positions and does not wait
for the end of the run; if not, the result has the property. -/
inductive Points {α : Type} (here : Position -> Prop) (good : α -> Prop) :
    Except Diagnostic α -> Prop where
  | ok {a : α} : good a -> Points here good (.ok a)
  | error {d : Diagnostic} : here d.position -> d.kind ≠ .undefinedLabel ->
      Points here good (.error d)

namespace Points

variable {α β : Type} {here : Position -> Prop} {good : α -> Prop} {fine : β -> Prop}

theorem bind {x : Except Diagnostic α} {next : α -> Except Diagnostic β}
    (hx : Points here good x) (hnext : ∀ a, good a -> Points here fine (next a)) :
    Points here fine (x >>= next) := by
  cases hx with
  | ok ha => exact hnext _ ha
  | error hd hkind => exact .error hd hkind

theorem map {x : Except Diagnostic α} {f : α -> β} (hx : Points here good x)
    (hf : ∀ a, good a -> fine (f a)) : Points here fine (x.map f) := by
  cases hx with
  | ok ha => exact .ok (hf _ ha)
  | error hd hkind => exact .error hd hkind

theorem ite {condition : Prop} [Decidable condition] {x y : Except Diagnostic α}
    (hx : Points here good x) (hy : Points here good y) :
    Points here good (if condition then x else y) := by
  split
  · exact hx
  · exact hy

theorem foldlM {step : α -> β -> Except Diagnostic α} {xs : List β} {a : α}
    (ha : good a)
    (hstep : ∀ a, good a -> ∀ b ∈ xs, Points here good (step a b)) :
    Points here good (xs.foldlM step a) := by
  induction xs generalizing a with
  | nil => exact .ok ha
  | cons b rest ih =>
      rw [List.foldlM_cons]
      refine (hstep a ha b (List.mem_cons_self ..)).bind ?_
      intro next hgood
      exact ih hgood fun a ha b hb => hstep a ha b (List.mem_cons_of_mem _ hb)

end Points

/-!
## Chunks
-/

namespace Chunk

variable {here : Position -> Prop}

def Fixed (here : Position -> Prop) (chunk : Chunk) : Prop :=
  ∀ f ∈ chunk.fixups, here f.position

theorem fixed_of_bytes (bytes : Array UInt8) : Fixed here ⟨bytes, #[]⟩ := by
  intro f hf
  simp at hf

theorem Fixed.addBytes {chunk : Chunk} (h : chunk.Fixed here) (bytes : List UInt8) :
    (chunk.addBytes bytes).Fixed here :=
  h

theorem Fixed.addFixup {chunk : Chunk} (h : chunk.Fixed here) (name : Text)
    {position : Position} (hposition : here position) (width : Nat)
    (reference : Reference) :
    (chunk.addFixup name position width reference).Fixed here := by
  intro f hf
  rcases Array.mem_push.mp hf with hf | rfl
  · exact h f hf
  · exact hposition

theorem points_addValue {chunk : Chunk} (h : chunk.Fixed here) (value : Int)
    {position : Position} (hposition : here position) (width : Nat)
    (reference : Reference) :
    Points here (Fixed here) (chunk.addValue value position width reference) := by
  unfold Chunk.addValue
  cases reference.encode value width with
  | error fault => exact .error hposition nofun
  | ok n => exact .ok (h.addBytes _)

theorem points_addArgument (table : SymbolTable) {chunk : Chunk} (h : chunk.Fixed here)
    {argument : Argument} (hposition : here argument.position) (width : Nat)
    (reference : Reference) :
    Points here (Fixed here) (chunk.addArgument table argument width reference) := by
  unfold Chunk.addArgument
  cases argument.value with
  | number n => exact points_addValue h n hposition width reference
  | name name =>
      dsimp only
      cases table.value? name with
      | some n => exact points_addValue h n hposition width reference
      | none => exact .ok (h.addFixup name hposition width reference)

end Chunk

/-!
## Effects
-/

namespace Effect

def Fixed (here : Position -> Prop) : Effect -> Prop
  | .append chunk => chunk.Fixed here
  | _ => True

end Effect

namespace Image

variable {here : Position -> Prop} {position : Position}

theorem points_append? (image : Image) (hposition : here position) {chunk : Chunk}
    (h : chunk.Fixed here) :
    Points here (Effect.Fixed here) (image.append? position chunk) :=
  .ite (.ok h) (.error hposition nofun)

theorem points_pad? (image : Image) (hposition : here position) (count : Int)
    (b : UInt8) : Points here (Effect.Fixed here) (image.pad? position count b) :=
  .ite (.ok (Chunk.fixed_of_bytes _)) (.error hposition nofun)

theorem points_define? (image : Image) (hposition : here position) (name : Text)
    (binding : Symbol.Binding) :
    Points here (Effect.Fixed here) (image.define? position name binding) := by
  unfold Image.define?
  cases image.symbols.duplicate? name with
  | some d => exact .error hposition nofun
  | none => exact .ok trivial

/-!
## Instructions
-/

theorem position_of_select {table : SymbolTable} {m : Mnemonic}
    {operands : List Operand} {mode : Mode} {argument : Argument}
    (h : Selection.select table m operands = .ok (mode, some argument)) :
    ∃ o ∈ operands, argument.position = o.position := by
  have htaken := (Selection.select_selects h).1.taken
  rcases Option.bind_eq_some_iff.mp htaken.symm with ⟨o, ho, hargument⟩
  rcases Option.map_eq_some_iff.mp hargument with ⟨v, _, rfl⟩
  exact ⟨o, List.mem_of_head? ho, rfl⟩

theorem points_encode (image : Image) (i : Instruction) {argument : Option Argument}
    (h : ∀ a ∈ argument, here a.position) :
    Points here (Chunk.Fixed here) (image.encode i argument) := by
  unfold Image.encode
  cases argument with
  | none => exact .ok (Chunk.fixed_of_bytes _)
  | some a =>
      exact Chunk.points_addArgument image.symbols (Chunk.fixed_of_bytes _) (h a rfl) _ _

theorem points_mnemonicEffect (image : Image) (hposition : here position) (m : Mnemonic)
    {operands : List Operand} (hoperands : ∀ o ∈ operands, here o.position) :
    Points here (Effect.Fixed here) (image.mnemonicEffect position m operands) := by
  unfold Image.mnemonicEffect
  cases hselect : Selection.select image.symbols m operands with
  | error f => exact .error hposition nofun
  | ok selected =>
      rcases selected with ⟨mode, argument⟩
      dsimp only
      cases Instruction.of? m mode with
      | none => exact .error hposition nofun
      | some i =>
          refine Points.bind (points_encode image i ?_) fun chunk hchunk =>
            points_append? image hposition hchunk
          intro a ha
          cases ha
          rcases position_of_select hselect with ⟨o, ho, heq⟩
          rw [heq]
          exact hoperands o ho

theorem subset_of_expand {s : Shorthand} {operands rest : List Operand} {m : Mnemonic}
    (h : s.expand operands = .ok (m, rest)) : rest ⊆ operands := by
  have hnone : ∀ {x : Except Diagnostic.ShorthandFault Mnemonic},
      x.map (·, []) = .ok (m, rest) -> rest ⊆ operands := by
    intro x hx
    cases x with
    | error f => cases hx
    | ok found =>
        cases hx
        exact List.nil_subset _
  cases s with
  | goto =>
      cases h
      exact List.Subset.refl _
  | push | pull | carry | interrupt | decimal | overflow => exact hnone h

theorem points_instructionEffect (image : Image) (hposition : here position)
    {operands : List Operand} (hoperands : ∀ o ∈ operands, here o.position)
    (operation : Operation) :
    Points here (Effect.Fixed here)
      (image.instructionEffect position operands operation) := by
  cases operation with
  | cpu m => exact points_mnemonicEffect image hposition m hoperands
  | shorthand s =>
      unfold Image.instructionEffect
      dsimp only
      cases hexpand : s.expand operands with
      | error f => exact .error hposition nofun
      | ok expanded =>
          rcases expanded with ⟨m, rest⟩
          exact points_mnemonicEffect image hposition m fun o ho =>
            hoperands o (subset_of_expand hexpand ho)

/-!
## Directives
-/

theorem points_constValue (image : Image) {o : Operand} (h : here o.position) :
    Points here (fun _ => True) (image.constValue o) := by
  unfold Image.constValue
  split
  · exact .error h nofun
  · exact .ok trivial
  · cases image.symbols.value? _ with
    | some n => exact .ok trivial
    | none => exact .error h nofun
  · exact .error h nofun

theorem points_byteValue (image : Image) {o : Operand} (h : here o.position) :
    Points here (fun _ => True) (image.byteValue o) :=
  (points_constValue image h).bind fun _ _ => .ite (.error h nofun) (.ok trivial)

theorem points_addByte (image : Image) (name : Text) {chunk : Chunk}
    (h : chunk.Fixed here) {o : Operand} (hposition : here o.position) :
    Points here (Chunk.Fixed here) (image.addByte name chunk o) := by
  unfold Image.addByte
  split
  · exact .ok (h.addBytes _)
  · exact Chunk.points_addArgument _ h hposition _ _
  · exact Chunk.points_addArgument _ h hposition _ _
  · exact .error hposition nofun

theorem points_addWord (image : Image) (name : Text) {chunk : Chunk}
    (h : chunk.Fixed here) {o : Operand} (hposition : here o.position) :
    Points here (Chunk.Fixed here) (image.addWord name chunk o) := by
  unfold Image.addWord
  split
  · exact Chunk.points_addArgument _ h hposition _ _
  · exact .error hposition nofun

theorem points_addString (name : Text) {chunk : Chunk} (h : chunk.Fixed here)
    {o : Operand} (hposition : here o.position) :
    Points here (Chunk.Fixed here) (addString name chunk o) := by
  unfold Image.addString
  split
  · exact .ok (h.addBytes _)
  · exact .error hposition nofun

theorem points_dataEffect (image : Image) {use : Directive.Use}
    {add : Chunk -> Operand -> Except Diagnostic Chunk} (final : List UInt8)
    (hposition : here use.position)
    (hadd : ∀ chunk : Chunk, chunk.Fixed here -> ∀ o ∈ use.operands,
      Points here (Chunk.Fixed here) (add chunk o)) :
    Points here (Effect.Fixed here) (image.dataEffect use add final) :=
  (Points.foldlM (Chunk.fixed_of_bytes _) hadd).bind fun _ hchunk =>
    points_append? image hposition (hchunk.addBytes final)

theorem points_orgEffect (image : Image) (hposition : here position) {o : Operand}
    (h : here o.position) :
    Points here (Effect.Fixed here) (image.orgEffect position o) := by
  refine (points_constValue image h).bind fun address _ => ?_
  exact .ite (.ok trivial) (.ite (.error hposition nofun) (points_pad? image hposition _ _))

theorem points_fillEffect (image : Image) (hposition : here position) {count : Operand}
    {byte : Option Operand} (hcount : here count.position)
    (hbyte : ∀ o ∈ byte, here o.position) :
    Points here (Effect.Fixed here) (image.fillEffect position count byte) := by
  refine (points_constValue image hcount).bind fun n _ => .ite (.error hposition nofun) ?_
  cases byte with
  | none => exact points_pad? image hposition _ _
  | some o =>
      exact (points_byteValue image (hbyte o rfl)).bind fun b _ =>
        points_pad? image hposition _ _

theorem points_alignEffect (image : Image) (hposition : here position) {o : Operand}
    (h : here o.position) :
    Points here (Effect.Fixed here) (image.alignEffect position o) :=
  (points_constValue image h).bind fun _ _ =>
    .ite (.error hposition nofun) (points_pad? image hposition _ _)

theorem points_fillerEffect (image : Image) (initial : UInt8) {o : Operand}
    (h : here o.position) :
    Points here (Effect.Fixed here) (image.fillerEffect initial o) :=
  .ite (.ok trivial) ((points_byteValue image h).map fun _ _ => trivial)

theorem points_bindEffect (image : Image) (directive : Text) (kind : Symbol.Kind)
    {name value : Operand} (hname : here name.position) (hvalue : here value.position) :
    Points here (Effect.Fixed here) (image.bindEffect directive kind name value) := by
  unfold Image.bindEffect
  split
  · exact (points_constValue image hvalue).bind fun n _ =>
      points_define? image hname _ _
  · exact .error hname nofun

theorem points_directiveEffect (image : Image) (initial : UInt8) (d : Directive)
    {use : Directive.Use} (hposition : here use.position)
    (hoperands : ∀ o ∈ use.operands, here o.position) :
    Points here (Effect.Fixed here) (image.directiveEffect initial d use) := by
  unfold Image.directiveEffect
  dsimp only
  refine .ite (.error hposition nofun) ?_
  rcases use with ⟨name, position, operands⟩
  dsimp only at hposition hoperands ⊢
  split
  · exact points_dataEffect image [] hposition fun chunk hchunk o ho =>
      points_addByte image name hchunk (hoperands o ho)
  · exact points_dataEffect image [] hposition fun chunk hchunk o ho =>
      points_addWord image name hchunk (hoperands o ho)
  · exact points_dataEffect image [] hposition fun chunk hchunk o ho =>
      points_addString name hchunk (hoperands o ho)
  · exact points_dataEffect image [0] hposition fun chunk hchunk o ho =>
      points_addString name hchunk (hoperands o ho)
  · exact points_orgEffect image hposition (hoperands _ (by simp))
  · exact points_fillEffect image hposition (hoperands _ (by simp)) (by simp)
  · exact points_fillEffect image hposition (hoperands _ (by simp))
      (by simpa using hoperands _ (by simp))
  · exact points_alignEffect image hposition (hoperands _ (by simp))
  · exact points_fillerEffect image initial (hoperands _ (by simp))
  · exact points_bindEffect image name .constant (hoperands _ (by simp))
      (hoperands _ (by simp))
  · exact points_bindEffect image name .label (hoperands _ (by simp))
      (hoperands _ (by simp))
  · exact .error hposition nofun

/-- A statement that fails is blamed on itself or on one of its operands, and so are the
fields that it leaves open. -/
theorem points_effect (image : Image) (initial : UInt8) {s : Statement}
    (h : ∀ p ∈ s.positions, here p) :
    Points here (Effect.Fixed here) (image.effect initial s) := by
  have hposition : here s.position := h _ (List.mem_cons_self ..)
  have hoperands : ∀ o ∈ s.operands, here o.position := by
    intro o ho
    exact h _ (List.mem_cons_of_mem _ (List.mem_map_of_mem ho))
  unfold Image.effect
  unfold Statement.operands at hoperands
  cases hbody : s.body with
  | label name => exact points_define? image hposition _ _
  | instruction operation operands =>
      rw [hbody] at hoperands
      exact points_instructionEffect image hposition hoperands operation
  | directive name operands =>
      rw [hbody] at hoperands
      dsimp only
      cases Directive.ofName? name with
      | none => exact .error hposition nofun
      | some d => exact points_directiveEffect image initial d hposition hoperands

/-- No statement reports a name as undefined; that is left to the end. -/
theorem kind_of_effect {image : Image} {initial : UInt8} {s : Statement} {d : Diagnostic}
    (h : image.effect initial s = .error d) : d.kind ≠ .undefinedLabel := by
  have hpoints : Points (fun _ => True) (Effect.Fixed fun _ => True)
      (image.effect initial s) :=
    points_effect image initial fun _ _ => trivial
  rw [h] at hpoints
  cases hpoints with
  | error _ hkind => exact hkind

end Image

/-!
## Names that are pending
-/

namespace SymbolTable

variable {here : Position -> Prop} {table : SymbolTable}

def PendingAt (here : Position -> Prop) (table : SymbolTable) : Prop :=
  ∀ (key : Text) (symbol : Symbol), table.entries[key]? = some symbol ->
    symbol.binding = none -> here symbol.position

theorem PendingAt.bind (h : table.PendingAt here) (name : Text)
    (binding : Symbol.Binding) : (table.bind name binding).PendingAt here := by
  intro key symbol hentry hpending
  rw [getElem?_bind] at hentry
  split at hentry
  · cases hentry
    cases hpending
  · exact h key symbol hentry hpending

theorem PendingAt.mention (h : table.PendingAt here) (name : Text) {position : Position}
    (hposition : here position) : (table.mention name position).PendingAt here := by
  intro key symbol hentry hpending
  rw [getElem?_mention] at hentry
  split at hentry
  · dsimp only at hentry
    split at hentry
    · cases hentry
      exact hposition
    · cases hfound : table.lookup? name with
      | none =>
          rw [hfound] at hentry
          cases hentry
          exact hposition
      | some entry =>
          rw [hfound] at hentry
          cases hentry
          exact h name.foldCase entry hfound hpending
  · exact h key symbol hentry hpending

theorem PendingAt.foldl_mention (h : table.PendingAt here) {fixups : List Fixup}
    (hfixups : ∀ f ∈ fixups, here f.position) :
    (fixups.foldl (fun t f => t.mention f.name f.position) table).PendingAt here := by
  induction fixups generalizing table with
  | nil => exact h
  | cons f rest ih =>
      rw [List.foldl_cons]
      exact ih (h.mention f.name (hfixups f (List.mem_cons_self ..)))
        fun g hg => hfixups g (List.mem_cons_of_mem _ hg)

theorem PendingAt.undefinedReports (h : table.PendingAt here) {d : Diagnostic}
    (hd : d ∈ table.undefinedReports) : here d.position := by
  unfold SymbolTable.undefinedReports pendingByPosition pending at hd
  rcases List.mem_map.mp hd with ⟨symbol, hsymbol, rfl⟩
  rw [List.mem_mergeSort, List.mem_filter] at hsymbol
  rcases mem_toList.mp hsymbol.1 with ⟨key, hkey⟩
  refine h key symbol hkey ?_
  simpa [Symbol.isDefined] using hsymbol.2

end SymbolTable

/-!
## Sessions
-/

namespace Image

variable {here : Position -> Prop} {image : Image}

structure OpenAt (here : Position -> Prop) (image : Image) : Prop where
  fixups : ∀ f ∈ image.fixups, here f.position
  pending : image.symbols.PendingAt here

theorem openAt_start (origin : Int) (filler : UInt8) : (start origin filler).OpenAt here := by
  constructor
  · intro f hf
    simp [start] at hf
  · intro key symbol hentry
    simp [start, SymbolTable.empty] at hentry

theorem OpenAt.append (h : image.OpenAt here) {chunk : Chunk} (hchunk : chunk.Fixed here) :
    (image.append chunk).OpenAt here := by
  constructor
  · intro f hf
    rcases Array.mem_append.mp hf with hf | hf
    · exact h.fixups f hf
    · rcases Array.mem_map.mp hf with ⟨g, hg, rfl⟩
      exact hchunk g hg
  · unfold Image.append
    dsimp only
    rw [← Array.foldl_toList]
    exact h.pending.foldl_mention fun f hf => hchunk f (Array.mem_toList_iff.mp hf)

theorem OpenAt.apply (h : image.OpenAt here) {e : Effect} (he : e.Fixed here) :
    (image.apply e).OpenAt here := by
  cases e with
  | define name binding => exact ⟨h.fixups, h.pending.bind name binding⟩
  | moveOrigin origin => exact ⟨h.fixups, h.pending⟩
  | setFiller filler => exact ⟨h.fixups, h.pending⟩
  | append chunk => exact h.append he

end Image

namespace Fixup

theorem position_of_mem_faults {here : Position -> Prop} (table : SymbolTable)
    {fixups : List Fixup} (hfixups : ∀ f ∈ fixups, here f.position) {p : Patched}
    (hp : ∀ d ∈ p.faults, here d.position) {d : Diagnostic}
    (hd : d ∈ (fixups.foldl (apply table) p).faults) : here d.position := by
  induction fixups generalizing p with
  | nil => exact hp d hd
  | cons f rest ih =>
      rw [List.foldl_cons] at hd
      refine ih (fun g hg => hfixups g (List.mem_cons_of_mem _ hg)) ?_ hd
      intro e he
      unfold Fixup.apply at he
      split at he
      · exact hp e he
      · split at he
        · rcases Array.mem_push.mp he with he | rfl
          · exact hp e he
          · exact hfixups f (List.mem_cons_self ..)
        · exact hp e he

end Fixup

namespace Session

variable {here : Position -> Prop} {reported : Diagnostic -> Prop} {session : Session}

/-- All that is open comes from the given positions, and every diagnostic so far was
reported by the reader or is at one of them. -/
structure Located (reported : Diagnostic -> Prop) (here : Position -> Prop)
    (session : Session) : Prop where
  image : session.image.OpenAt here
  diagnostics : ∀ d ∈ session.diagnostics, reported d ∨ here d.position

def Admits (reported : Diagnostic -> Prop) (here : Position -> Prop) : Event -> Prop
  | .report d => reported d
  | .statement s => ∀ p ∈ s.positions, here p

theorem Located.report (h : session.Located reported here) {d : Diagnostic}
    (hd : reported d ∨ here d.position) : (session.report d).Located reported here := by
  refine ⟨h.image, ?_⟩
  intro e he
  rcases Array.mem_push.mp he with he | rfl
  · exact h.diagnostics e he
  · exact hd

theorem Located.handle (h : session.Located reported here) (options : Options) {e : Event}
    (he : Admits reported here e) : (session.handle options e).Located reported here := by
  cases e with
  | report d => exact h.report (Or.inl he)
  | statement s =>
      have heffect := session.image.points_effect options.filler he
      unfold Session.handle Session.emit
      dsimp only
      generalize session.image.effect options.filler s = outcome at heffect ⊢
      cases heffect with
      | ok hfixed => exact ⟨h.image.apply hfixed, h.diagnostics⟩
      | error hposition _ => exact h.report (Or.inr hposition)

theorem Located.foldl_handle (h : session.Located reported here) (options : Options)
    {events : List Event} (hevents : ∀ e ∈ events, Admits reported here e) :
    (events.foldl (Session.handle options) session).Located reported here := by
  induction events generalizing session with
  | nil => exact h
  | cons e rest ih =>
      rw [List.foldl_cons]
      exact ih (h.handle options (hevents e (List.mem_cons_self ..)))
        fun e he => hevents e (List.mem_cons_of_mem _ he)

theorem toList_diagnostics_finish (session : Session) :
    session.finish.diagnostics.toList =
      session.diagnostics.toList ++
        (Fixup.applyAll session.image.symbols session.image.bytes
          session.image.fixups.toList).faults.toList ++
        session.image.symbols.undefinedReports := by
  unfold Session.finish
  dsimp only
  rw [Array.toList_appendList, Array.toList_append]

theorem Located.finish (h : session.Located reported here) {d : Diagnostic}
    (hd : d ∈ session.finish.diagnostics.toList) : reported d ∨ here d.position := by
  rw [toList_diagnostics_finish, List.mem_append, List.mem_append] at hd
  rcases hd with (hd | hd) | hd
  · exact h.diagnostics d (Array.mem_toList_iff.mp hd)
  · apply Or.inr
    refine Fixup.position_of_mem_faults session.image.symbols ?_ ?_
      (Array.mem_toList_iff.mp hd)
    · intro f hf
      exact h.image.fixups f (Array.mem_toList_iff.mp hf)
    · intro e he
      simp at he
  · exact Or.inr (h.image.pending.undefinedReports hd)

theorem mem_diagnostics_emit {options : Options} {s : Statement} {d : Diagnostic}
    (hd : d ∈ session.diagnostics) : d ∈ (session.emit options s).diagnostics := by
  unfold Session.emit
  cases session.image.effect options.filler s with
  | ok effect => exact hd
  | error found => exact Array.mem_push.mpr (Or.inl hd)

theorem mem_diagnostics_foldl {options : Options} {events : List Event} {d : Diagnostic}
    (h : d ∈ session.diagnostics ∨ .report d ∈ events) :
    d ∈ (events.foldl (handle options) session).diagnostics := by
  induction events generalizing session with
  | nil =>
      rcases h with h | h
      · exact h
      · cases h
  | cons e rest ih =>
      rw [List.foldl_cons]
      apply ih
      rcases h with h | h
      · apply Or.inl
        cases e with
        | report found => exact Array.mem_push.mpr (Or.inl h)
        | statement s => exact mem_diagnostics_emit h
      · rcases List.mem_cons.mp h with rfl | h
        · exact Or.inl (Array.mem_push.mpr (Or.inr rfl))
        · exact Or.inr h

end Session

/-!
## Runs
-/

variable {t : Text} {d : Diagnostic}

theorem Script.mem_diagnostics_iff {script : Script} :
    d ∈ script.diagnostics ↔ d ∈ script.opening ∨ .report d ∈ script.events := by
  unfold diagnostics
  rw [List.mem_filterMap]
  constructor
  · rintro ⟨e, he, heq⟩
    cases e with
    | statement s => cases heq
    | report found =>
        cases heq
        rcases List.mem_append.mp he with he | he
        · rcases List.mem_map.mp he with ⟨_, hmem, heq⟩
          cases heq
          exact Or.inl hmem
        · exact Or.inr he
  · rintro (h | h)
    · exact ⟨.report d, List.mem_append_left _ (List.mem_map_of_mem h), rfl⟩
    · exact ⟨.report d, List.mem_append_right _ h, rfl⟩

theorem Script.mem_statements_iff {script : Script} {s : Statement} :
    s ∈ script.statements ↔ .statement s ∈ script.events := by
  unfold statements
  rw [List.mem_filterMap]
  constructor
  · rintro ⟨e, he, heq⟩
    cases e with
    | statement found =>
        cases heq
        exact he
    | report d => cases heq
  · intro h
    exact ⟨.statement s, h, rfl⟩

theorem mem_diagnostics_of_script (options : Options)
    (h : d ∈ (Script.ofText t).diagnostics) : d ∈ (assemble options t).diagnostics := by
  change d ∈ (Session.finish _).diagnostics.toList
  rw [Session.toList_diagnostics_finish]
  apply List.mem_append_left
  apply List.mem_append_left
  apply Array.mem_toList_iff.mpr
  apply Session.mem_diagnostics_foldl
  rcases Script.mem_diagnostics_iff.mp h with h | h
  · exact Or.inl (List.mem_toArray.mpr h)
  · exact Or.inr h

theorem located_of_mem_diagnostics {options : Options}
    (h : d ∈ (assemble options t).diagnostics) :
    d ∈ (Script.ofText t).diagnostics ∨
      ∃ s ∈ (Script.ofText t).statements, d.position ∈ s.positions := by
  have hstart : (Session.start options (Script.ofText t).opening).Located
      (· ∈ (Script.ofText t).diagnostics)
      (fun p => ∃ s ∈ (Script.ofText t).statements, p ∈ s.positions) := by
    refine ⟨Image.openAt_start .., ?_⟩
    intro e he
    exact Or.inl (Script.mem_diagnostics_iff.mpr (Or.inl (List.mem_toArray.mp he)))
  refine (hstart.foldl_handle options ?_).finish h
  intro e he
  cases e with
  | report found => exact Script.mem_diagnostics_iff.mpr (Or.inr he)
  | statement s =>
      intro p hp
      exact ⟨s, Script.mem_statements_iff.mpr he, hp⟩

end Asm6502

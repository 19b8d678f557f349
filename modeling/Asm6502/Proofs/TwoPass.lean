import Asm6502.Proofs.LaidOut

/-!
# One pass and two passes

A source is read once, so a name may be used before it has a value; such a field
is left open and filled in at the end.  The result is what an assembler makes
that reads the source twice: first to lay everything out and to learn the values
of all names, and then to encode every item with the final values.
-/

namespace Asm6502

/-!
## Filling in fields
-/

namespace Field

theorem store_append (before old new after : List UInt8)
    (h : old.length = new.length) :
    store (before ++ old ++ after).toArray before.length new =
      (before ++ new ++ after).toArray := by
  induction new generalizing before old with
  | nil =>
      rw [List.eq_nil_of_length_eq_zero h]
      rfl
  | cons b rest ih =>
      cases old with
      | nil => cases h
      | cons o others =>
          have hset : (before ++ o :: others ++ after).toArray.setIfInBounds
              before.length b = ((before ++ [b]) ++ others ++ after).toArray := by
            simp
          have hplace : before.length + 1 = (before ++ [b]).length := by simp
          rw [store, hset, hplace, ih _ _ (Nat.succ.inj h)]
          simp

end Field

theorem NamedField.apply_fixup {f : NamedField}
    (hwidth : f.width = 1 ∨ f.width = 2) (hbranch : f.branch = true -> f.width = 1)
    (hpending : f.known = none) (table : SymbolTable) (address : Int)
    (before after : List UInt8) (faults : List Diagnostic) :
    Fixup.apply table ⟨(before ++ f.zeros ++ after).toArray, faults.toArray⟩
        ⟨before.length, f.name, f.width, f.reference address, f.position⟩ =
      ⟨(before ++ (Item.named f).encoded table address ++ after).toArray,
        (faults ++ ((Item.named f).misfit? table address).toList).toArray⟩ := by
  cases hvalue : table.value? f.name with
  | none => simp [Fixup.apply, Item.encoded, Item.misfit?, hvalue]
  | some value =>
      simp only [Fixup.apply, Item.encoded, Item.misfit?, hvalue]
      rw [encode_reference hwidth hbranch]
      cases hadmits : f.admits (f.stored address value) with
      | false => simp [hpending]
      | true =>
          have hlength : f.zeros.length =
              (Field.littleEndian f.width (f.stored address value)).length := by
            simp [zeros]
          simp only [if_true, Field.bytes_eq_littleEndian hwidth]
          rw [Field.store_append _ _ _ _ hlength]
          simp

namespace Layout

/-- Applying the fixups of a layout turns what the first pass placed into what
the second pass encodes, and reports the fields that do not fit. -/
theorem foldl_apply_fixups (table : SymbolTable) (before : List UInt8)
    (faults : List Diagnostic) (address : Int) (items : List Item)
    (hsound : All (Item.Sound table) address items) :
    (fixups address before.length items).foldl (Fixup.apply table)
        ⟨(before ++ concat Item.placed address items).toArray, faults.toArray⟩ =
      ⟨(before ++ concat (Item.encoded table) address items).toArray,
        (faults ++ misfits table address items).toArray⟩ := by
  -- What stands before the item is encoded already, what comes after it is not.
  induction items generalizing before faults address with
  | nil => simp [fixups, concat, misfits]
  | cons item rest ih =>
      cases item with
      | literal bytes =>
          have hrest := ih (before ++ bytes) faults _ hsound.2
          simpa [fixups, concat, misfits, Item.placed, Item.encoded,
            Item.misfit?, Item.size] using hrest
      | named f =>
          rcases hsound with ⟨⟨hwidth, hbranch, hknown⟩, hsound⟩
          cases hf : f.known with
          | some value =>
              have hvalue := (hknown value hf).1
              have hrest := ih (before ++ Field.littleEndian f.width
                (f.stored address value)) faults _ hsound
              simpa [fixups, concat, misfits, Item.placed, Item.encoded,
                Item.misfit?, Item.size, hf, hvalue] using hrest
          | none =>
              have hfirst := NamedField.apply_fixup hwidth hbranch hf table
                address before (concat Item.placed (address + f.width) rest) faults
              have hrest := ih (before ++ (Item.named f).encoded table address)
                (faults ++ ((Item.named f).misfit? table address).toList) _ hsound
              simp only [fixups, concat, misfits, Item.placed, Item.size, hf,
                List.foldl_cons]
              rw [← List.append_assoc, hfirst]
              simpa [Item.size] using hrest

end Layout

theorem Image.LaidOut.applyAll {image : Image} {items : List Item}
    (h : image.LaidOut items) :
    Fixup.applyAll image.symbols image.bytes image.fixups.toList =
      ⟨(Layout.concat (Item.encoded image.symbols) image.origin items).toArray,
        (Layout.misfits image.symbols image.origin items).toArray⟩ := by
  have hfold := Layout.foldl_apply_fixups image.symbols [] [] image.origin items
    h.sound
  have hbytes : image.bytes =
      (Layout.concat Item.placed image.origin items).toArray := by
    rw [← h.bytes]
  unfold Fixup.applyAll
  rw [h.fixups, hbytes]
  exact hfold

/-!
## Runs
-/

namespace Session

def accepts (options : Options) (session : Session) (s : Statement) : Bool :=
  (session.emit options s).diagnostics.size = session.diagnostics.size

/-- The statements among some events that report nothing, in order, each with the
image that it is reached with. -/
def accepted (options : Options) (session : Session) :
    List Event -> List (Image × Statement)
  | [] => []
  | .report d :: rest => accepted options (session.report d) rest
  | .statement s :: rest =>
      let later := accepted options (session.emit options s) rest
      if session.accepts options s then (session.image, s) :: later else later

/-- The layouts of the statements that report nothing, one after another. -/
def layout (options : Options) (session : Session) (events : List Event) :
    List Item :=
  (session.accepted options events).flatMap fun reached =>
    reached.1.layout reached.2

theorem accepts_of_ok {options : Options} {session : Session} {s : Statement}
    {e : Effect} (h : session.image.effect options.filler s = .ok e) :
    session.accepts options s = true := by
  simp [accepts, emit_of_ok h]

theorem not_accepts_of_error {options : Options} {session : Session}
    {s : Statement} {d : Diagnostic}
    (h : session.image.effect options.filler s = .error d) :
    session.accepts options s = false := by
  simp [accepts, emit_of_error h, report]

/-- A run adds the layouts of the statements that it accepts. -/
theorem foldl_handle_laidOut {options : Options} {session : Session}
    {items : List Item} (h : session.image.LaidOut items) (events : List Event) :
    (events.foldl (handle options) session).image.LaidOut
      (items ++ session.layout options events) := by
  induction events generalizing session items with
  | nil => simpa [layout, accepted] using h
  | cons event rest ih =>
      cases event with
      | report d => exact @ih (session.report d) items h
      | statement s =>
          cases heffect : session.image.effect options.filler s with
          | error d =>
              have hrest := @ih (session.report d) items h
              simpa [handle, layout, accepted, not_accepts_of_error heffect,
                emit_of_error heffect] using hrest
          | ok e =>
              have hnext : (session.emit options s).image.LaidOut
                  (items ++ session.image.layout s) := by
                rw [emit_of_ok heffect]
                exact h.apply (Image.effect_lays heffect)
              have hrest := ih hnext
              simpa [handle, layout, accepted, accepts_of_ok heffect] using hrest

end Session

/-!
## The result
-/

theorem Item.kind_of_misfit? {table : SymbolTable} {address : Int} {item : Item}
    {d : Diagnostic} (h : item.misfit? table address = some d) :
    d.kind = .range := by
  cases item with
  | literal bytes => cases h
  | named f =>
      simp only [misfit?] at h
      split at h
      · cases h
      · split at h <;> cases h
        rfl

theorem Layout.kind_of_mem_misfits {table : SymbolTable} {address : Int}
    {items : List Item} {d : Diagnostic} (h : d ∈ misfits table address items) :
    d.kind = .range := by
  induction items generalizing address with
  | nil => cases h
  | cons item rest ih =>
      rcases List.mem_append.mp h with hfirst | hrest
      · exact Item.kind_of_misfit? (Option.mem_toList.mp hfirst)
      · exact ih hrest

/-- A run that is not strict gives the bytes of the second pass over its layout,
with the names as they are at the end.  Names that were known when their
statement was reached still have the same value then, and it fits.  The reports
of the run are followed by one for each field that was left open and does not fit,
and by those of the names without a value.  The distance of a branch is one of 64
bits. -/
theorem assemble_eq_two_pass (options : Options) (hstrict : options.strict = false)
    (source : Text) :
    let script := Script.ofText source
    let start := Session.start options script.opening
    let last := script.events.foldl (Session.handle options) start
    let items := start.layout options script.events
    let table := last.image.symbols
    let result := assemble options source
    result.code.toList =
        Layout.concat (Item.encoded table) result.origin items ∧
      Layout.All (Item.Sound table) result.origin items ∧
      result.diagnostics = last.diagnostics.toList ++
        Layout.misfits table result.origin items ++ table.undefinedReports ∧
      ∀ d ∈ Layout.misfits table result.origin items, d.kind = .range := by
  intro script start last items table result
  have hlaid : last.image.LaidOut items := by
    have hstart : start.image.LaidOut [] := .start options.origin options.filler
    exact Session.foldl_handle_laidOut hstart script.events
  have horigin : result.origin = last.image.origin := rfl
  rw [horigin]
  refine ⟨?_, hlaid.sound, ?_, fun d => Layout.kind_of_mem_misfits⟩
  · have hcode : result.code = last.finish.image.bytes := by
      simp only [result, assemble, Result.ofSession, hstrict, Bool.false_and,
        Bool.false_eq_true, if_false]
      rfl
    rw [hcode]
    simp only [Session.finish, hlaid.applyAll]
    rfl
  · have hdiagnostics : result.diagnostics = last.finish.diagnostics.toList := rfl
    rw [hdiagnostics]
    simp only [Session.finish, hlaid.applyAll]
    simp [table]

/-- A branch forward, a value that turns out too large, and a name that never
gets one. -/
theorem assemble_eq_two_pass_forward :
    let source := "bne on\nlda #big\njmp off\non: .word on\nbig = 300".toList
    let script := Script.ofText source
    let start := Session.start {} script.opening
    let last := script.events.foldl (Session.handle {}) start
    let items := start.layout {} script.events
    ({} : Options).strict = false ∧
      Layout.concat (Item.encoded last.image.symbols) 0 items =
        [0xd0, 5, 0xa9, 0, 0x4c, 0, 0, 7, 0] ∧
      (Layout.misfits last.image.symbols 0 items).map Diagnostic.position =
        [⟨2, 5⟩] := by
  intro source script start last items
  have hcode : (assemble {} source).code.toList =
      [0xd0, 5, 0xa9, 0, 0x4c, 0, 0, 7, 0] := by decide +kernel
  have horigin : (assemble {} source).origin = 0 := by decide +kernel
  have htwo := (assemble_eq_two_pass {} rfl source).1
  rw [hcode, horigin] at htwo
  exact ⟨rfl, htwo.symm, by decide +kernel⟩

/-- A branch over the highest address.  Its label comes round and is 2^64 below the place
where the branch ends, and yet nothing is reported. -/
theorem branch_encoded_beyond_reach :
    let options : Options := { origin := 0x7FFFFFFFFFFFFFFF }
    let result := assemble options "bne later\nlater: nop".toList
    let label : Int := -0x7FFFFFFFFFFFFFFF
    let next := result.origin + 2
    options.strict = false ∧ result.diagnostics = [] ∧ result.code = #[0xd0, 0, 0xea] ∧
      result.symbols.map Symbol.binding = [some ⟨.label, label⟩] ∧
      ¬(-128 ≤ label - next ∧ label - next ≤ 127) := by
  decide +kernel

end Asm6502

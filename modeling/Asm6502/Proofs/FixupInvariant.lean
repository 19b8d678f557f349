import Asm6502.Proofs.LaidOut

/-!
# Open fields

A fixup stands for a field of the output that is still open.  In every session
that can come about the open fields lie inside the output, in order and apart
from each other, and hold zeros; a distance is measured from the address behind
its field, although the origin may have moved before.  That address is a number of
64 bits, like every other.  So filling them in stays inside the output and touches
nothing else.
-/

namespace Asm6502

def Fixup.Covers (f : Fixup) (i : Nat) : Prop :=
  f.offset ≤ i ∧ (i : Int) < f.offset + f.width

/-!
## Fixups of a layout
-/

namespace Layout

/-- The fixup is that of a pending field among the items. -/
def IsOpen (address : Int) (place : Nat) (items : List Item) (fixup : Fixup) :
    Prop :=
  ∃ before f after, items = before ++ .named f :: after ∧ f.known = none ∧
    fixup = ⟨place + size before, f.name, f.width,
      f.reference (address + size before), f.position⟩

/-- An item in front of a field moves its place and its address alike. -/
theorem IsOpen.cons {address : Int} {place : Nat} {item : Item}
    {rest : List Item} {fixup : Fixup}
    (h : IsOpen (address + item.size) (place + item.size) rest fixup) :
    IsOpen address place (item :: rest) fixup := by
  rcases h with ⟨before, f, after, hitems, hpending, hfixup⟩
  refine ⟨item :: before, f, after, ?_, hpending, ?_⟩
  · rw [hitems]
    rfl
  · rw [hfixup, size_cons, Int.natCast_add, Nat.add_assoc, Int.add_assoc]

theorem isOpen_of_mem_fixups {address : Int} {place : Nat} {items : List Item}
    {fixup : Fixup} (h : fixup ∈ fixups address place items) :
    IsOpen address place items fixup := by
  induction items generalizing address place with
  | nil => cases h
  | cons item rest ih =>
      cases item with
      | literal bytes => exact (ih h).cons
      | named f =>
          simp only [fixups] at h
          cases hknown : f.known with
          | some value =>
              simp only [hknown] at h
              exact (ih h).cons
          | none =>
              simp only [hknown] at h
              rcases List.mem_cons.mp h with hfirst | hrest
              · refine ⟨[], f, rest, rfl, hknown, ?_⟩
                simpa using hfirst
              · exact (ih hrest).cons

theorem le_offset_of_mem_fixups {address : Int} {place : Nat}
    {items : List Item} {fixup : Fixup}
    (h : fixup ∈ fixups address place items) : place ≤ fixup.offset := by
  rcases isOpen_of_mem_fixups h with ⟨before, f, after, _, _, rfl⟩
  exact Nat.le_add_right ..

theorem pairwise_fixups (address : Int) (place : Nat) (items : List Item) :
    (fixups address place items).Pairwise fun f g =>
      (f.offset : Int) + f.width ≤ g.offset := by
  induction items generalizing address place with
  | nil => exact .nil
  | cons item rest ih =>
      cases item with
      | literal bytes => exact ih _ _
      | named f =>
          simp only [fixups]
          cases f.known with
          | some value => exact ih _ _
          | none =>
              refine .cons ?_ (ih _ _)
              intro g hg
              have hle := le_offset_of_mem_fixups hg
              dsimp only
              omega

theorem All.item {p : Int -> Item -> Prop} {address : Int}
    {before after : List Item} {item : Item}
    (h : All p address (before ++ item :: after)) :
    p (address + size before) item :=
  (All_append.mp h).2.1

end Layout

/-!
## The invariant
-/

namespace Image

structure FixupInvariant (image : Image) : Prop where
  ordered : image.fixups.toList.Pairwise fun f g => f.offset < g.offset
  disjoint : image.fixups.toList.Pairwise fun f g =>
    ∀ i, ¬ (f.Covers i ∧ g.Covers i)
  width : ∀ f ∈ image.fixups, f.width = 1 ∨ f.width = 2
  inside : ∀ f ∈ image.fixups, f.offset + f.width ≤ image.bytes.size
  zero : ∀ f ∈ image.fixups, ∀ i, f.Covers i -> image.bytes[i]? = some 0
  entry : ∀ f ∈ image.fixups, (image.symbols.lookup? f.name).isSome
  relative : ∀ f ∈ image.fixups, ∀ base, f.reference = .relative base ->
    f.width = 1 ∧ base = wrap64 (image.origin + f.offset + 1)

variable {image : Image} {items : List Item}

theorem LaidOut.isOpen (h : image.LaidOut items) {fixup : Fixup}
    (hfixup : fixup ∈ image.fixups) :
    Layout.IsOpen image.origin 0 items fixup := by
  apply Layout.isOpen_of_mem_fixups
  rw [← h.fixups]
  exact Array.mem_toList_iff.mpr hfixup

theorem LaidOut.width (h : image.LaidOut items) {fixup : Fixup}
    (hfixup : fixup ∈ image.fixups) : fixup.width = 1 ∨ fixup.width = 2 := by
  rcases h.isOpen hfixup with ⟨before, f, after, rfl, _, rfl⟩
  have hsound := h.sound.item
  rcases hsound.1 with hwidth | hwidth <;> simp [hwidth]

theorem LaidOut.bytes_around (h : image.LaidOut items) {fixup : Fixup}
    (hfixup : fixup ∈ image.fixups) :
    ∃ before after : List UInt8, ∃ width : Nat, before.length = fixup.offset ∧
      fixup.width = width ∧
      image.bytes.toList = before ++ List.replicate width 0 ++ after := by
  rcases h.isOpen hfixup with ⟨before, f, after, rfl, hpending, rfl⟩
  refine ⟨Layout.concat Item.placed image.origin before,
    Layout.concat Item.placed (image.origin + Layout.size before + f.width) after,
    f.width, ?_, rfl, ?_⟩
  · simp
  · rw [h.bytes, Layout.concat_append]
    simp [Layout.concat, Item.placed, Item.size, hpending, NamedField.zeros]

theorem LaidOut.inside (h : image.LaidOut items) {fixup : Fixup}
    (hfixup : fixup ∈ image.fixups) :
    fixup.offset + fixup.width ≤ image.bytes.size := by
  rcases h.bytes_around hfixup with ⟨before, after, width, hbefore, hwidth, hbytes⟩
  rw [← Array.length_toList, hbytes, ← hbefore, hwidth]
  simp only [List.length_append, List.length_replicate]
  omega

theorem LaidOut.zero (h : image.LaidOut items) {fixup : Fixup}
    (hfixup : fixup ∈ image.fixups) {i : Nat} (hi : fixup.Covers i) :
    image.bytes[i]? = some 0 := by
  rcases h.bytes_around hfixup with ⟨before, after, width, hbefore, hwidth, hbytes⟩
  rcases hi with ⟨hle, hlt⟩
  rw [hwidth, ← hbefore] at hlt
  rw [← hbefore] at hle
  rw [← Array.getElem?_toList, hbytes, List.append_assoc,
    List.getElem?_append_right hle, List.getElem?_append_left,
    List.getElem?_replicate]
  · rw [if_pos (by omega)]
  · rw [List.length_replicate]
    omega

theorem LaidOut.relative (h : image.LaidOut items) {fixup : Fixup}
    (hfixup : fixup ∈ image.fixups) {base : Int}
    (hbase : fixup.reference = .relative base) :
    fixup.width = 1 ∧ base = wrap64 (image.origin + fixup.offset + 1) := by
  rcases h.isOpen hfixup with ⟨before, f, after, rfl, _, rfl⟩
  rcases h.sound.item with ⟨_, hbranch, _⟩
  simp only [NamedField.reference] at hbase
  split at hbase
  · rename_i hf
    cases hbase
    rw [hbranch hf]
    simp
  · cases hbase

theorem LaidOut.entry (h : image.LaidOut items) {fixup : Fixup}
    (hfixup : fixup ∈ image.fixups) : (image.symbols.lookup? fixup.name).isSome := by
  rcases h.isOpen hfixup with ⟨before, f, after, rfl, hpending, rfl⟩
  exact h.entered (List.mem_append_right _ (List.mem_cons_self ..)) hpending

theorem LaidOut.fixupInvariant (h : image.LaidOut items) :
    image.FixupInvariant := by
  have hpairwise : image.fixups.toList.Pairwise fun f g =>
      (f.offset : Int) + f.width ≤ g.offset := by
    rw [h.fixups]
    exact Layout.pairwise_fixups image.origin 0 items
  have hwidth : ∀ f ∈ image.fixups.toList, f.width = 1 ∨ f.width = 2 := by
    intro f hf
    exact h.width (Array.mem_toList_iff.mp hf)
  constructor
  · refine hpairwise.imp_of_mem ?_
    intro f g hf _ hfg
    have := hwidth f hf
    omega
  · refine hpairwise.imp ?_
    intro f g hfg i hi
    rcases hi with ⟨⟨_, hlt⟩, hle, _⟩
    omega
  · exact fun f => h.width
  · exact fun f => h.inside
  · exact fun f hf i => h.zero hf
  · exact fun f => h.entry
  · exact fun f hf base => h.relative hf

end Image
/-!
## Filling in
-/

namespace Field

theorem getElem?_store (code : Array UInt8) (place : Nat) (bs : List UInt8)
    {i : Nat} (h : i < place ∨ place + bs.length ≤ i) :
    (store code place bs)[i]? = code[i]? := by
  induction bs generalizing code place with
  | nil => rfl
  | cons b rest ih =>
      rw [List.length_cons] at h
      rw [store, ih _ _ (by omega), Array.getElem?_setIfInBounds_ne (by omega)]

theorem length_bytes_le (n : Int) {width : Int} (h : 0 ≤ width) :
    ((bytes n width).length : Int) ≤ width := by
  unfold bytes
  split
  · simp_all
  · split
    · simp_all
    · simpa using h

end Field

namespace Fixup

theorem size_apply (table : SymbolTable) (p : Patched) (f : Fixup) :
    (apply table p f).code.size = p.code.size := by
  unfold apply
  split
  · rfl
  · split
    · rfl
    · exact Field.size_store ..

theorem getElem?_apply (table : SymbolTable) (p : Patched) {f : Fixup}
    (hwidth : 0 ≤ f.width) {i : Nat} (h : ¬ f.Covers i) :
    (apply table p f).code[i]? = p.code[i]? := by
  unfold apply
  split
  · rfl
  · split
    · rfl
    · rename_i n _
      apply Field.getElem?_store
      have hlength := Field.length_bytes_le n hwidth
      unfold Covers at h
      omega

theorem size_applyAll (table : SymbolTable) (code : Array UInt8)
    (fixups : List Fixup) : (applyAll table code fixups).code.size = code.size := by
  have hfold : ∀ p : Patched,
      (fixups.foldl (apply table) p).code.size = p.code.size := by
    induction fixups with
    | nil => intro p; rfl
    | cons f rest ih =>
        intro p
        rw [List.foldl_cons, ih, size_apply]
  exact hfold ⟨code, #[]⟩

theorem getElem?_applyAll (table : SymbolTable) (code : Array UInt8)
    {fixups : List Fixup} (hwidth : ∀ f ∈ fixups, 0 ≤ f.width) {i : Nat}
    (h : ∀ f ∈ fixups, ¬ f.Covers i) :
    (applyAll table code fixups).code[i]? = code[i]? := by
  have hfold : ∀ p : Patched,
      (fixups.foldl (apply table) p).code[i]? = p.code[i]? := by
    induction fixups with
    | nil => intro p; rfl
    | cons f rest ih =>
        rw [List.forall_mem_cons] at h hwidth
        intro p
        rw [List.foldl_cons, ih hwidth.2 h.2, getElem?_apply table p hwidth.1 h.1]
  exact hfold ⟨code, #[]⟩

end Fixup

/-!
## Sessions
-/

theorem Image.apply_bytes (image : Image) (e : Effect) :
    ∃ added, (image.apply e).bytes = image.bytes ++ added := by
  cases e with
  | append chunk => exact ⟨chunk.bytes, rfl⟩
  | define name binding => exact ⟨#[], by simp [Image.apply]⟩
  | moveOrigin origin => exact ⟨#[], by simp [Image.apply]⟩
  | setFiller filler => exact ⟨#[], by simp [Image.apply]⟩

theorem Session.emit_bytes (options : Options) (session : Session)
    (s : Statement) :
    ∃ added, (session.emit options s).image.bytes = session.image.bytes ++ added := by
  cases heffect : session.image.effect options.filler s with
  | error d =>
      rw [emit_of_error heffect]
      exact ⟨#[], by simp [report]⟩
  | ok e =>
      rw [emit_of_ok heffect]
      exact session.image.apply_bytes e

/-- In every session that can come about the fixups are as the invariant says,
and statements only append to the output.  Filling in the fields one after another
therefore always writes inside the output, keeps its length, and changes no byte
outside the fields. -/
theorem open_fields_of_reachable {options : Options} {session : Session}
    (h : session.Reachable options) :
    let image := session.image
    let fill := fun fixups => (Fixup.applyAll image.symbols image.bytes fixups).code
    image.FixupInvariant ∧
      (∀ s, ∃ added,
        (session.emit options s).image.bytes = image.bytes ++ added) ∧
      (∀ done f rest, image.fixups.toList = done ++ f :: rest ->
        (f.offset : Int) + f.width ≤ (fill done).size) ∧
      (fill image.fixups.toList).size = image.bytes.size ∧
      ∀ i, (∀ f ∈ image.fixups, ¬ f.Covers i) ->
        (fill image.fixups.toList)[i]? = image.bytes[i]? := by
  intro image fill
  rcases h.laidOut with ⟨items, hitems⟩
  have hinvariant := hitems.fixupInvariant
  refine ⟨hinvariant, session.emit_bytes options, ?_, ?_, ?_⟩
  · intro done f rest hsplit
    have hf : f ∈ image.fixups := by
      rw [← Array.mem_toList_iff, hsplit]
      exact List.mem_append_right _ (List.mem_cons_self ..)
    have hsize : (fill done).size = image.bytes.size := Fixup.size_applyAll ..
    rw [hsize]
    exact hinvariant.inside f hf
  · exact Fixup.size_applyAll ..
  · intro i hi
    apply Fixup.getElem?_applyAll
    · intro f hf
      have := hinvariant.width f (Array.mem_toList_iff.mp hf)
      omega
    · intro f hf
      exact hi f (Array.mem_toList_iff.mp hf)

/-- A branch at the last address is measured from one of the first. -/
theorem branch_base_comes_round :
    let options : Options := { origin := 0x7FFFFFFFFFFFFFFF }
    let name : Operand := ⟨.plain (.name "later".toList), ⟨1, 5⟩⟩
    let branch : Statement := ⟨.instruction (.cpu .bne) [name], ⟨1, 1⟩⟩
    let session := (Session.start options []).emit options branch
    session.Reachable options ∧
      ¬∀ f ∈ session.image.fixups, ∀ base, f.reference = .relative base ->
        base = session.image.origin + f.offset + 1 := by
  intro options name branch session
  refine ⟨.emit branch (.start []), fun hplain => ?_⟩
  have hfixups : session.image.fixups =
      #[⟨1, "later".toList, 1, .relative (-0x7FFFFFFFFFFFFFFF), ⟨1, 5⟩⟩] := by
    decide +kernel
  have hbase := hplain _ (hfixups ▸ Array.mem_singleton.mpr rfl) _ rfl
  revert hbase
  decide +kernel

/-- A branch and a word that both refer to a name to come. -/
theorem open_fields_of_reachable_forward :
    let name : Operand := ⟨.plain (.name "on".toList), ⟨1, 5⟩⟩
    let branch : Statement := ⟨.instruction (.cpu .bne) [name], ⟨1, 1⟩⟩
    let words : Statement := ⟨.directive "word".toList [name, name], ⟨2, 1⟩⟩
    let session := ((Session.start {} []).emit {} branch).emit {} words
    session.Reachable {} ∧
      session.image.fixups.toList.map Fixup.offset = [1, 2, 4] ∧
      session.image.FixupInvariant := by
  intro name branch words session
  have hreachable : session.Reachable {} := .emit words (.emit branch (.start []))
  exact ⟨hreachable, by decide +kernel, (open_fields_of_reachable hreachable).1⟩

end Asm6502

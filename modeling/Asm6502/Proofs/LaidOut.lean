import Asm6502.Proofs.StatementLayout

/-!
# Images that are laid out

At every moment of a run the output and its fixups are those of one layout: the
layouts of all statements carried out so far, one after another.  An image keeps
this property under the effect of any statement, because the origin moves only
while there is no output, names are never bound again, and everything else only
appends.
-/

namespace Asm6502

/-!
## Layouts without output
-/

namespace Layout

/-- Fields take room, so a sound layout of size zero has none. -/
theorem literal_of_size_zero {table : SymbolTable} {address : Int}
    {items : List Item} (hsound : All (Item.Sound table) address items)
    (hsize : size items = 0) : ∀ item ∈ items, item = .literal [] := by
  induction items generalizing address with
  | nil =>
      intro item hitem
      cases hitem
  | cons first rest ih =>
      rw [size_cons] at hsize
      have hfirst : first = .literal [] := by
        cases first with
        | literal bytes =>
            have hbytes : bytes.length = 0 := by
              simp only [Item.size] at hsize
              omega
            rw [List.eq_nil_of_length_eq_zero hbytes]
        | named f =>
            have hwidth := hsound.1.1
            simp only [Item.size] at hsize
            omega
      intro item hitem
      rcases List.mem_cons.mp hitem with rfl | hrest
      · exact hfirst
      · exact ih hsound.2 (by omega) item hrest

theorem concat_of_literal {items : List Item}
    (h : ∀ item ∈ items, item = .literal []) (address : Int) :
    concat Item.placed address items = [] := by
  induction items generalizing address with
  | nil => rfl
  | cons first rest ih =>
      rw [h first (List.mem_cons_self ..)]
      exact ih (fun item hitem => h item (List.mem_cons_of_mem _ hitem)) _

theorem fixups_of_literal {items : List Item}
    (h : ∀ item ∈ items, item = .literal []) (address : Int) (place : Nat) :
    fixups address place items = [] := by
  induction items generalizing address place with
  | nil => rfl
  | cons first rest ih =>
      rw [h first (List.mem_cons_self ..)]
      exact ih (fun item hitem => h item (List.mem_cons_of_mem _ hitem)) _ _

theorem All_of_literal {table : SymbolTable} {items : List Item}
    (h : ∀ item ∈ items, item = .literal []) (address : Int) :
    All (Item.Sound table) address items := by
  induction items generalizing address with
  | nil => trivial
  | cons first rest ih =>
      rw [h first (List.mem_cons_self ..)]
      exact ⟨trivial,
        ih (fun item hitem => h item (List.mem_cons_of_mem _ hitem)) _⟩

theorem exists_fixup_of_pending {address : Int} {place : Nat}
    {items : List Item} {f : NamedField} (hf : .named f ∈ items)
    (hpending : f.known = none) :
    ∃ fixup ∈ fixups address place items, fixup.name = f.name := by
  induction items generalizing address place with
  | nil => cases hf
  | cons first rest ih =>
      rcases List.mem_cons.mp hf with rfl | hrest
      · simp only [fixups, hpending]
        exact ⟨_, List.mem_cons_self .., rfl⟩
      · cases first with
        | literal bytes => exact ih hrest
        | named g =>
            simp only [fixups]
            rcases @ih (address + g.width) (place + g.width) hrest with
              ⟨fixup, hfixup, hname⟩
            cases g.known with
            | some value => exact ⟨fixup, hfixup, hname⟩
            | none => exact ⟨fixup, List.mem_cons_of_mem _ hfixup, hname⟩

end Layout

/-!
## Mentions of a chunk
-/

namespace SymbolTable

theorem grows_foldl_mention (table : SymbolTable) (fixups : List Fixup) :
    table.Grows (fixups.foldl (fun t f => t.mention f.name f.position) table) := by
  induction fixups generalizing table with
  | nil => exact .refl table
  | cons f rest ih =>
      exact (Grows.mention table f.name f.position).trans (ih _)

theorem lookup?_foldl_mention {table : SymbolTable} {fixups : List Fixup}
    {f : Fixup} (hf : f ∈ fixups) :
    ((fixups.foldl (fun t f => t.mention f.name f.position) table).lookup?
      f.name).isSome := by
  induction fixups generalizing table with
  | nil => cases hf
  | cons first rest ih =>
      rcases List.mem_cons.mp hf with rfl | hrest
      · exact (grows_foldl_mention _ rest).entry
          (lookup?_mention_isSome table f.name f.position)
      · exact ih hrest

end SymbolTable

/-!
## The invariant
-/

namespace Image

/-- The output and the fixups of the image are those of a layout, and the symbol
table agrees with what the layout takes for known. -/
structure LaidOut (image : Image) (items : List Item) : Prop where
  bytes : image.bytes.toList = Layout.concat Item.placed image.origin items
  fixups : image.fixups.toList = Layout.fixups image.origin 0 items
  sound : Layout.All (Item.Sound image.symbols) image.origin items
  entered : ∀ {f : NamedField}, .named f ∈ items -> f.known = none ->
    (image.symbols.lookup? f.name).isSome

theorem LaidOut.start (origin : Int) (filler : UInt8) :
    (Image.start origin filler).LaidOut [] :=
  ⟨rfl, rfl, trivial, fun h => nomatch h⟩

variable {image : Image} {items more : List Item}

theorem LaidOut.size (h : image.LaidOut items) :
    image.bytes.size = Layout.size items := by
  rw [← Array.length_toList, h.bytes, Layout.length_concat_placed]

theorem LaidOut.define (h : image.LaidOut items) {name : Text}
    {binding : Symbol.Binding} (hfree : image.symbols.duplicate? name = none) :
    (image.apply (.define name binding)).LaidOut items := by
  have hgrows := SymbolTable.Grows.bind binding hfree
  refine ⟨h.bytes, h.fixups, ?_, ?_⟩
  · exact h.sound.imp fun _ _ hitem => hitem.grows hgrows
  · intro f hf hpending
    exact hgrows.entry (h.entered hf hpending)

theorem LaidOut.moveOrigin (h : image.LaidOut items) {origin : Int}
    (hempty : image.bytes = #[]) :
    (image.apply (.moveOrigin origin)).LaidOut items := by
  have hsize : Layout.size items = 0 := by
    rw [← h.size, hempty]
    rfl
  have hliteral := Layout.literal_of_size_zero h.sound hsize
  refine ⟨?_, ?_, ?_, h.entered⟩
  · show image.bytes.toList = Layout.concat Item.placed origin items
    rw [hempty, Layout.concat_of_literal hliteral]
  · show image.fixups.toList = Layout.fixups origin 0 items
    rw [h.fixups, Layout.fixups_of_literal hliteral,
      Layout.fixups_of_literal hliteral]
  · exact Layout.All_of_literal hliteral origin

theorem grows_append (image : Image) (chunk : Chunk) :
    image.symbols.Grows (image.append chunk).symbols := by
  simp only [Image.append, ← Array.foldl_toList]
  exact SymbolTable.grows_foldl_mention _ _

theorem Lays.grows {e : Effect} (h : image.Lays e more) :
    image.symbols.Grows (image.apply e).symbols := by
  cases h with
  | define hfree => exact SymbolTable.Grows.bind _ hfree
  | moveOrigin _ _ => exact .refl _
  | setFiller => exact .refl _
  | append _ _ => exact image.grows_append _

theorem LaidOut.append (h : image.LaidOut items) {chunk : Chunk}
    (hchunk : chunk.Lays image.symbols image.pc more) :
    (image.append chunk).LaidOut (items ++ more) := by
  have hgrows := image.grows_append chunk
  have hpc : wrap64 image.pc = wrap64 (image.origin + Layout.size items) := by
    rw [Image.pc, h.size, wrap64_wrap64]
  replace hchunk := hchunk.congr hpc
  refine ⟨?_, ?_, ?_, ?_⟩
  · show (image.bytes ++ chunk.bytes).toList = _
    rw [Array.toList_append, h.bytes, hchunk.bytes, Layout.concat_append]
    rfl
  · show (image.fixups ++ chunk.fixups.map _).toList = _
    rw [Array.toList_append, Array.toList_map, h.fixups, hchunk.fixups,
      Layout.fixups_shift, Layout.fixups_append, h.size]
    rfl
  · show Layout.All _ image.origin (items ++ more)
    rw [Layout.All_append]
    exact ⟨h.sound.imp fun _ _ hitem => hitem.grows hgrows,
      hchunk.sound.imp fun _ _ hitem => hitem.grows hgrows⟩
  · intro f hf hpending
    rcases List.mem_append.mp hf with hold | hnew
    · exact hgrows.entry (h.entered hold hpending)
    · rcases Layout.exists_fixup_of_pending hnew hpending with
        ⟨fixup, hfixup, hname⟩
      rw [← hchunk.fixups] at hfixup
      simp only [Image.append, ← Array.foldl_toList, ← hname]
      exact SymbolTable.lookup?_foldl_mention hfixup

/-- An effect adds the layout of its statement. -/
theorem LaidOut.apply (h : image.LaidOut items) {e : Effect}
    (he : image.Lays e more) : (image.apply e).LaidOut (items ++ more) := by
  cases he with
  | define hfree =>
      rw [List.append_nil]
      exact h.define hfree
  | moveOrigin _ hempty =>
      rw [List.append_nil]
      exact h.moveOrigin hempty
  | setFiller =>
      rw [List.append_nil]
      exact ⟨h.bytes, h.fixups, h.sound, h.entered⟩
  | append hchunk _ => exact h.append hchunk

end Image

/-!
## Sessions that can come about

A session begins with what the reader has already reported.  After that
statements come in any order, and reports of the reader between them.
-/

namespace Session

inductive Reachable (options : Options) : Session -> Prop where
  | start (opening : List Diagnostic) :
      Reachable options (Session.start options opening)
  | report {session : Session} (d : Diagnostic) :
      Reachable options session -> Reachable options (session.report d)
  | emit {session : Session} (s : Statement) :
      Reachable options session -> Reachable options (session.emit options s)

theorem emit_of_ok {options : Options} {session : Session} {s : Statement}
    {e : Effect} (h : session.image.effect options.filler s = .ok e) :
    session.emit options s = { session with image := session.image.apply e } := by
  simp only [emit, h]

theorem emit_of_error {options : Options} {session : Session} {s : Statement}
    {d : Diagnostic} (h : session.image.effect options.filler s = .error d) :
    session.emit options s = session.report d := by
  simp only [emit, h]

theorem emit_laidOut {options : Options} {session : Session} {items : List Item}
    (h : session.image.LaidOut items) (s : Statement) :
    ∃ more, (session.emit options s).image.LaidOut (items ++ more) := by
  cases heffect : session.image.effect options.filler s with
  | error d =>
      rw [emit_of_error heffect]
      exact ⟨[], by simpa [report] using h⟩
  | ok e =>
      rw [emit_of_ok heffect]
      exact ⟨_, h.apply (Image.effect_lays heffect)⟩

theorem emit_grows (options : Options) (session : Session) (s : Statement) :
    session.image.symbols.Grows (session.emit options s).image.symbols := by
  cases heffect : session.image.effect options.filler s with
  | error d =>
      rw [emit_of_error heffect]
      exact .refl _
  | ok e =>
      rw [emit_of_ok heffect]
      exact (Image.effect_lays heffect).grows

theorem foldl_emit_grows (options : Options) (session : Session)
    (statements : List Statement) :
    session.image.symbols.Grows
      (statements.foldl (emit options) session).image.symbols := by
  induction statements generalizing session with
  | nil => exact .refl _
  | cons s rest ih => exact (emit_grows options session s).trans (ih _)

theorem Reachable.laidOut {options : Options} {session : Session}
    (h : Reachable options session) : ∃ items, session.image.LaidOut items := by
  induction h with
  | start opening => exact ⟨[], .start options.origin options.filler⟩
  | report d _ ih => exact ih
  | emit s _ ih =>
      rcases ih with ⟨items, hitems⟩
      rcases emit_laidOut hitems s with ⟨more, hmore⟩
      exact ⟨items ++ more, hmore⟩

end Session
end Asm6502

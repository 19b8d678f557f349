import Asm6502.Disassembly.Listing
import Asm6502.Proofs.AddressSpace
import Asm6502.Proofs.FixupInvariant

/-!
# Results that can be listed

The disassembler takes code that lies inside the address space.  What is assembled
never goes past its end, so a listing can only fail below its beginning.  The assembler
does not look at that side: the first directive that asks for an address may give a
negative number, and then the result cannot be listed although nothing was reported.
The main result says that there is no other way.
-/

namespace Asm6502

/-!
## Moves of the origin
-/

def Image.MovedBy (image : Image) (s : Statement) (address : Int) : Prop :=
  ∃ o, s.origin? = some o ∧ ¬image.Settled ∧ image.constValue o = .ok address

theorem Image.effect_eq_moveOrigin_iff {image : Image} {s : Statement}
    {initial : UInt8} {address : Int} :
    image.effect initial s = .ok (.moveOrigin address) ↔
      image.MovedBy s address := by
  constructor
  · intro h
    cases effect_brings h with
    | @origin o _ ho haddress => exact ⟨o, ho, (effect_lays h).not_settled, haddress⟩
  · rintro ⟨o, ho, hsettled, haddress⟩
    rw [effect_of_origin? ho]
    simp only [orgEffect, haddress, bind, Except.bind]
    rw [if_pos (not_settled_iff.mp hsettled)]

namespace Session

variable {options : Options} {session : Session} {events : List Event}

/-- Only one statement of a run moves the origin, and it stays where it was moved. -/
theorem origin_of_movedBy {reached : Image × Statement} {address : Int}
    (h : reached ∈ session.accepted options events)
    (hmoved : reached.1.MovedBy reached.2 address) :
    (events.foldl (handle options) session).image.origin = address := by
  rcases resume_of_accepted h with ⟨next, rest, e, heffect, hnext, hrun⟩
  rw [Image.effect_eq_moveOrigin_iff.mpr hmoved] at heffect
  cases heffect
  have hsettled : next.image.Settled := by
    rw [hnext]
    exact .inl rfl
  rw [hrun, (settled_foldl hsettled rest).2, hnext]
  rfl

theorem exists_movedBy_of_origin_ne (events : List Event)
    (h : (events.foldl (handle options) session).image.origin ≠ session.image.origin) :
    ∃ reached ∈ session.accepted options events,
      reached.1.MovedBy reached.2
        (events.foldl (handle options) session).image.origin := by
  induction events generalizing session with
  | nil => exact absurd rfl h
  | cons event rest ih =>
      cases event with
      | report d => exact ih h
      | statement s =>
          cases heffect : session.image.effect options.filler s with
          | error d =>
              have hemit := emit_of_error heffect
              simp only [List.foldl_cons, handle, hemit] at h ⊢
              rcases ih h with ⟨reached, hreached, hmoved⟩
              refine ⟨reached, ?_, hmoved⟩
              simpa [accepted, not_accepts_of_error heffect, hemit] using hreached
          | ok e =>
              have hemit := emit_of_ok heffect
              simp only [List.foldl_cons, handle, accepted, accepts_of_ok heffect,
                if_true] at h ⊢
              by_cases hlater : (rest.foldl (handle options)
                  (session.emit options s)).image.origin =
                  (session.emit options s).image.origin
              · -- The statement itself has moved the origin.
                refine ⟨(session.image, s), List.mem_cons_self .., ?_⟩
                rw [hlater, hemit] at h ⊢
                cases e with
                | moveOrigin address => exact Image.effect_eq_moveOrigin_iff.mp heffect
                | define _ _ | setFiller _ | append _ => exact absurd rfl h
              · rcases ih hlater with ⟨reached, hreached, hmoved⟩
                exact ⟨reached, List.mem_cons_of_mem _ hreached, hmoved⟩

end Session

/-!
## Listings
-/

theorem Disassembly.exists_render_iff (style : Style) (origin : Int) (code : List UInt8) :
    (∃ text, render style origin code = .ok text) ↔
      0 ≤ origin ∧ wrap64 (origin + code.length) ≤ 0x10000 := by
  unfold render
  split
  · rename_i hmisfit
    simp only [Bool.or_eq_true, decide_eq_true_eq] at hmisfit
    constructor
    · rintro ⟨text, htext⟩
      cases htext
    · omega
  · rename_i hfits
    simp only [Bool.or_eq_true, decide_eq_true_eq] at hfits
    constructor
    · omega
    · intro _
      split
      · exact ⟨_, rfl⟩
      · exact ⟨_, rfl⟩

/-- Whatever a source says, what is assembled from it begins at -128 or above and ends
inside the address space, the end being counted in 64 bits; unless there are almost 2^63
bytes it ends inside in truth.  It can be disassembled and listed if and only if no
statement moves the origin to a negative address. -/
theorem listable_iff_not_moved_below (source : Text) :
    let script := Script.ofText source
    let start := Session.start {} script.opening
    let result := assemble {} source
    let code := result.code.toList
    wrap64 (result.origin + code.length) ≤ 0x10000 ∧
      (code.length + 0x10000 < 0x8000000000000000 ->
        result.origin + code.length ≤ 0x10000) ∧ -128 ≤ result.origin ∧
      ((∃ text, disassemble result.origin code = .ok text) ∧
          (∃ text, Disassembly.render .listing result.origin code = .ok text) ↔
        ∀ reached ∈ start.accepted {} script.events, ∀ address,
          reached.1.MovedBy reached.2 address -> 0 ≤ address) := by
  intro script start result code
  let last := script.events.foldl (Session.handle {}) start
  have hsize : code.length = last.image.bytes.size := by
    rw [← Fixup.size_applyAll last.image.symbols last.image.bytes
      last.image.fixups.toList]
    exact Array.length_toList
  have hwithin : last.image.Within (-128) := by
    refine Session.within_foldl (.start _ (by decide) (by decide) (by decide)) (by decide)
      (Int.le_refl _) ?_
    intro s hs
    exact Statement.Parsed.limited ⟨source, Script.mem_statements_iff.mpr hs⟩
  have hend : wrap64 (result.origin + code.length) ≤ 0x10000 := by
    rw [hsize]
    exact hwithin.pc
  have hplain : code.length + 0x10000 < 0x8000000000000000 ->
      result.origin + code.length ≤ 0x10000 := by
    rw [hsize]
    intro hcount
    have hpc := hwithin.pc
    rw [hwithin.exact hcount] at hpc
    exact hpc
  refine ⟨hend, hplain, hwithin.origin, ?_⟩
  simp only [disassemble, Disassembly.exists_render_iff, hend, and_true, and_self]
  constructor
  · intro horigin reached hreached address hmoved
    rw [← Session.origin_of_movedBy hreached hmoved]
    exact horigin
  · intro hnone
    by_cases hfirst : last.image.origin = start.image.origin
    · have hzero : result.origin = 0 := hfirst
      exact Int.le_of_eq hzero.symm
    · rcases Session.exists_movedBy_of_origin_ne script.events hfirst with
        ⟨reached, hreached, hmoved⟩
      exact hnone reached hreached _ hmoved

/-- Nothing is reported, and there is no listing. -/
example :
    let result := assemble {} "low = -3\n.org low\nnop".toList
    result.diagnostics = [] ∧ result.origin = -3 ∧
      Disassembly.render .listing result.origin result.code.toList =
        .error ⟨1, -3⟩ := by
  decide +kernel

end Asm6502

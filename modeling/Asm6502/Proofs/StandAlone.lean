import Asm6502.Proofs.FixupInvariant
import Asm6502.Proofs.Located
import Asm6502.Proofs.ModeSelection
import Asm6502.Proofs.Recovery
import Asm6502.Proofs.RoundTrip
import Asm6502.Proofs.TokenChanges

/-!
# Instructions assembled by themselves

A decoded instruction has a written form, and `Decoded.reassembles` tells beforehand
whether assembling that form, at the address of the instruction, gives its bytes.  The
main result says that it tells the truth in both cases.

Where it says yes, this is one step of the round trip.  Where it says no, the written
form is either that of a short instruction, which has fewer bytes, or a branch that
leaves the address space, and then the number after the mnemonic is refused: below zero
by the scanner, above the highest address by the grammar.
-/

namespace Asm6502

open Lexeme (begins isWordPart)

/-!
## Texts of one statement
-/

namespace Script

theorem scan_of_reads {t : Text} {tokens : Position -> List Token}
    (h : Scan.Reads t tokens []) :
    Scan.ofText t = Scan.clean (tokens .start) ⟨.endOfInput, [], Position.start.after t⟩ := by
  have hscan := h.scan .start []
  rw [List.append_nil, List.append_nil, Scan.onto, List.map_reverse,
    List.reverse_reverse] at hscan
  exact hscan

theorem ofText_of_reads {t : Text} {tokens : Position -> List Token}
    (h : Scan.Reads t tokens []) :
    ∃ after, ofText t = ⟨[], Grammar.lineEvents after (tokens .start)⟩ := by
  have hscan := scan_of_reads h
  have hline : Scan.IsLine t := by
    refine ⟨h.sameLine, ?_⟩
    rw [hscan]
    exact List.flatMap_eq_nil_iff.mpr fun x hx => Scan.faults_of_mem_clean hx
  have hwords : (Scan.ofText t).words = tokens .start := by
    rw [hscan]
    exact Lexeme.map_token_clean _
  rcases ofText_line hline with ⟨after, hscript⟩
  rw [hwords] at hscript
  exact ⟨after, hscript⟩

theorem ofText_of_written {content : Statement.Content} {t : Text}
    (h : content.Written t) :
    ∃ s : Statement, s.content = content ∧ ofText t = ⟨[], [.statement s]⟩ := by
  rcases h with ⟨tokens, hreads, hholds⟩
  rcases hholds .start with ⟨s, hcontent, hs⟩
  have hread := hreads [] rfl
  refine ⟨s, hcontent, ?_⟩
  have hscript := @ofScan_clean 1 [tokens .start] [.statement s]
    ⟨.endOfInput, [], Position.start.after t⟩ ⟨hread.line .start, trivial⟩
    (.cons hs .nil)
  rw [List.flatten_singleton] at hscript
  rw [ofText, scan_of_reads hread]
  exact hscript

end Script

theorem assemble_statement (options : Options) {t : Text} {s : Statement}
    (h : Script.ofText t = ⟨[], [.statement s]⟩) :
    assemble options t =
      .ofSession options ((Session.start options []).emit options s).finish := by
  simp only [assemble, h]
  rfl

theorem Result.code_of_silent {options : Options} {session : Session}
    (h : (ofSession options session).diagnostics = []) :
    (ofSession options session).code = session.image.bytes := by
  have hsilent : session.diagnostics = #[] := by simpa [ofSession] using h
  simp [ofSession, hsilent]

theorem effect_of_silent {options : Options} {t : Text} {s : Statement}
    (hscript : Script.ofText t = ⟨[], [.statement s]⟩)
    (h : (assemble options t).diagnostics = []) :
    ∃ e, (Image.start options.origin options.filler).effect options.filler s = .ok e ∧
      (assemble options t).code.size =
        ((Image.start options.origin options.filler).apply e).bytes.size := by
  rw [assemble_statement options hscript] at h ⊢
  rw [Result.code_of_silent h]
  cases heffect : (Session.start options []).image.effect options.filler s with
  | error d =>
      rw [Session.emit_of_error heffect] at h
      change Array.toList _ = [] at h
      rw [Session.toList_diagnostics_finish] at h
      simp [Session.report] at h
  | ok e =>
      refine ⟨e, heffect, ?_⟩
      rw [Session.emit_of_ok heffect]
      exact Fixup.size_applyAll ..

theorem Session.pc_start (options : Options) (opening : List Diagnostic) :
    (start options opening).image.pc = wrap64 options.origin := by
  simp [start, Image.start, Image.pc]

theorem assemble_of_places {options : Options} {t : Text} {s : Statement}
    {bytes : List UInt8} (hscript : Script.ofText t = ⟨[], [.statement s]⟩)
    (h : (Session.start options []).image.Places options.filler ∅ s bytes) :
    (assemble options t).diagnostics = [] ∧ (assemble options t).code.toList = bytes := by
  have hstart : (Session.start options []).Rebuilds ∅ options.origin options.origin 1 [] :=
    ⟨rfl, rfl, ⟨[], .start _ _, .nil _⟩, SymbolTable.Names.empty ..⟩
  have hresolves : ((Session.start options []).emit options s).image.symbols.Resolves ∅ :=
    fun x hx => absurd hx Std.TreeSet.not_mem_emptyc
  rcases (hstart.place options h).finish hresolves with ⟨hsilent, hbytes⟩
  have hdiagnostics : (assemble options t).diagnostics = [] := by
    rw [assemble_statement options hscript]
    change Array.toList _ = []
    rw [hsilent]
  refine ⟨hdiagnostics, ?_⟩
  rw [assemble_statement options hscript] at hdiagnostics ⊢
  rw [Result.code_of_silent hdiagnostics]
  exact hbytes

/-!
## Numbers that are no addresses
-/

namespace Scan

theorem exists_lexeme_onto (done : List Lexeme) (faults : List Diagnostic) (p : Position)
    (t : Text) :
    ∃ x more, (onto done faults p t).toList = done.reverse ++ x :: more ∧
      ∀ d ∈ faults, d ∈ x.faults := by
  induction p, t using findings.induct generalizing done faults with
  | case1 p =>
      refine ⟨⟨⟨.endOfInput, [], p⟩, faults.reverse⟩, [], ?_, ?_⟩
      · rw [onto, toList]
      · intro d hd
        exact List.mem_reverse.mpr hd
  | case2 p c t ih =>
      rw [onto]
      cases htoken : (Lexeme.read p c t).token with
      | none =>
          rcases ih done ((Lexeme.read p c t).faults.reverse ++ faults) with
            ⟨x, more, hlist, hfaults⟩
          exact ⟨x, more, hlist, fun d hd => hfaults d (List.mem_append_right _ hd)⟩
      | some found =>
          rcases ih (⟨⟨found.1, found.2, p⟩, faults.reverse ++ (Lexeme.read p c t).faults⟩ ::
            done) [] with ⟨x, more, hlist, _⟩
          rw [List.reverse_cons, List.append_assoc] at hlist
          exact ⟨_, _, hlist, fun d hd => List.mem_append_left _ (List.mem_reverse.mpr hd)⟩

theorem report_of_other {done : List Lexeme} {p : Position} {c : Char} {t u : Text}
    (hdone : done.length ≤ 1) (hscan : ofText u = onto done [] p (c :: t))
    (hopening : Lexeme.opening c t = .other) :
    Lexeme.fault p (.unexpectedCharacter c) ∈ (Script.ofText u).diagnostics := by
  have hread : Lexeme.read p c t = Lexeme.unexpected p c t := by
    rw [Lexeme.read, hopening]
  rw [onto, hread] at hscan
  let found := Lexeme.fault p (.unexpectedCharacter c)
  have hnext : ofText u = onto done [found] (p.next c) t := hscan
  rcases exists_lexeme_onto done [found] (p.next c) t with ⟨x, more, hlist, hfaults⟩
  have hx : x ∈ (ofText u).toList.take 2 := by
    rw [hnext, hlist]
    refine List.mem_take_iff_getElem.mpr ⟨done.length, ?_, ?_⟩
    · rw [List.length_append, List.length_reverse, List.length_cons]
      omega
    · simp
  refine Script.mem_diagnostics_iff.mpr (Or.inl ?_)
  exact List.mem_flatMap.mpr ⟨x, hx, hfaults _ (List.mem_singleton_self _)⟩

end Scan

namespace Grammar

theorem lineEvents_of_number_error {name literal : Token} {operation : Operation}
    {d : Diagnostic} (hname : name.kind = .mnemonic operation)
    (hkind : literal.kind = .number) (h : number literal = .error d) (after : Token) :
    lineEvents after [name, literal] = [.report d] := by
  have hlabel : isLabel name literal = false := by simp [isLabel, hname]
  have hatom : atom literal = .error d := by
    rw [atom, hkind]
    simp only [h]
    rfl
  have hoperand : operand name after [literal] = .error d := by
    simp [operand, Token.isMark, hkind, hatom]
  have hstatement : statement after name [literal] = .error d := by
    simp only [statement, hname, instruction, operands_eq, hoperand]
    rfl
  rw [lineEvents, hlabel, if_neg Bool.false_ne_true, hstatement]
  rfl

end Grammar

theorem Mode.Forms.sizes {index : List Operand.Form} {short long : Mode}
    (h : Mode.Forms index short long) :
    short.operandSize = 1 ∧ long.operandSize = 2 ∧ short ≠ .relative ∧ long ≠ .relative := by
  cases h <;> decide

/-!
## Written forms
-/

namespace Decoded

variable {d : Decoded}

theorem text_of_operand (h : d.operandText none ≠ []) :
    d.text = d.name ++ ' ' :: d.operandText none := by
  simp [text, line, h, Text.padRight]

theorem written_text {n : Nat} (hn : n ≤ 0xFFFF) (hoperand : d.operand = n) :
    (Statement.Content.instruction (.cpu d.mnemonic) (d.forms none)).Written d.text := by
  rcases d.name_kind with ⟨hword, _, hkind⟩
  by_cases hmode : d.mode = .implied
  · have hforms : d.forms none = [] := by simp [forms, hmode]
    have htext : d.text = List.replicate 0 ' ' ++ d.name := by
      simp [text, line, operandText_of_implied hmode]
    rw [hforms, htext]
    exact Statement.Content.written_implied hword hkind 0
  · have hwritten := @written_forms d hmode n hn hoperand none (by simp)
    have htext : d.text = List.replicate 0 ' ' ++
        (d.name ++ (List.replicate (0 + 1) ' ' ++ d.operandText none)) := by
      rw [text_of_operand hwritten.ne_nil]
      rfl
    rw [htext]
    exact Statement.Content.written_instruction hword hkind hwritten 0 0

/-- A branch below the first address is written with a sign, which the scanner does not
take. -/
theorem exists_report_of_low (hmode : d.mode = .relative) (h : d.operand < 0) :
    ∃ found, found ∈ (Script.ofText d.text).diagnostics := by
  rcases d.name_kind with ⟨hword, _, _⟩
  let digits := (Nat.toDigits 16 d.operand.natAbs).leftpad 3 '0'
  have htext : d.text = d.name ++ ([' '] ++ '$' :: '-' :: digits) := by
    have hoperand : d.operandText none = '$' :: '-' :: digits := by
      simp [operandText, hmode, hexWord, Text.hex, h, digits]
    rw [text_of_operand (by simp [hoperand]), hoperand]
    rfl
  have hreads : Scan.Reads (d.name ++ [' ']) _ ('$' :: '-' :: digits) :=
    (Scan.Reads.word hword rfl).append (Scan.Reads.blank _)
  have hscan := hreads.scan .start []
  rw [List.append_assoc, ← htext] at hscan
  exact ⟨_, Scan.report_of_other (by simp) hscan rfl⟩

/-- A branch above the highest address is written with a number that the grammar does
not take. -/
theorem exists_report_of_high (hmode : d.mode = .relative) {n : Nat}
    (hoperand : d.operand = n) (hlow : 0xFFFF < n) (hhigh : n < 2 ^ 63) :
    ∃ found, found ∈ (Script.ofText d.text).diagnostics := by
  rcases d.name_kind with ⟨hword, _, hkind⟩
  let literal : Text := '$' :: Text.hex 4 (n : Int)
  let place := (Position.start.after d.name).after [' ']
  have htext : d.text = d.name ++ ([' '] ++ literal) := by
    have hnumber : d.operandText none = literal := by
      simp [operandText, hmode, hexWord, hoperand, literal]
    rw [text_of_operand (by simp [hnumber, literal]), hnumber]
    rfl
  have hdigits : ∀ c ∈ Text.hex 4 (n : Int), Lexeme.isHexDigit c = true := by
    intro c hc
    rcases Text.mem_hex hc with ⟨digit, hdigit, rfl⟩
    exact Lexeme.isHexDigit_digitChar hdigit
  have hnumber : Scan.Reads literal _ [] := .hexNumber (Text.hex_ne_nil 4 n) hdigits rfl
  have hreads := (Scan.Reads.word hword rfl).append ((Scan.Reads.blank _).append hnumber)
  rw [← htext] at hreads
  rcases Script.ofText_of_reads hreads with ⟨after, hscript⟩
  have hrange : Grammar.number ⟨.number, literal, place⟩ =
      .error ⟨.range (.literal literal), place⟩ := by
    rw [Grammar.number, Literal.read_hex hhigh]
    have hlarge : 0xFFFF < (n : Int) := by omega
    simp [hlarge]
  have hevents := @Grammar.lineEvents_of_number_error
    ⟨Lexeme.wordKind d.name, d.name, .start⟩ ⟨.number, literal, place⟩ _ _ hkind rfl hrange
    after
  refine ⟨⟨.range (.literal literal), place⟩, Script.mem_diagnostics_iff.mpr (Or.inr ?_)⟩
  rw [hscript]
  exact hevents ▸ List.mem_singleton_self _

theorem operand_le_of_relative (hmode : d.mode = .relative) {operand : List UInt8}
    (hlength : operand.length = d.mode.operandSize)
    (hoperand : d.operand = operandOf d.address d.mode operand)
    (haddress : 0 ≤ d.address ∧ d.address ≤ 0x10000) :
    d.operand ≤ d.address + 129 := by
  rw [hmode] at hlength hoperand
  rcases List.length_eq_one_iff.mp hlength with ⟨b, rfl⟩
  have hbounds := Field.signed_bounds b
  rw [operandOf, if_pos rfl, wrap64_of_signed64 ⟨by omega, by omega⟩] at hoperand
  omega

theorem cases_of_not_reassembles (h : d.reassembles = false) :
    (∃ index short, Mode.Forms index short d.mode ∧ d.mnemonic.hasMode short = true ∧
      d.forms none = .plain (.number d.operand) :: index ∧ d.operand ≤ 0xFF) ∨
    d.mode = .relative ∧ (d.operand < 0 ∨ 0xFFFF < d.operand) := by
  have hlong : ∀ short,
      (decide (0xFF < d.operand) || !d.mnemonic.hasMode short) = false ->
        d.mnemonic.hasMode short = true ∧ d.operand ≤ 0xFF := by
    intro short hshort
    rw [Bool.or_eq_false_iff, decide_eq_false_iff_not, Bool.not_eq_false'] at hshort
    exact ⟨hshort.2, Int.not_lt.mp hshort.1⟩
  unfold reassembles at h
  split at h
  next hmode =>
    rcases hlong _ h with ⟨hshort, hoperand⟩
    exact Or.inl ⟨_, _, hmode ▸ Mode.Forms.plain, hshort, by simp [forms, hmode], hoperand⟩
  next hmode =>
    rcases hlong _ h with ⟨hshort, hoperand⟩
    exact Or.inl ⟨_, _, hmode ▸ Mode.Forms.x, hshort, by simp [forms, hmode], hoperand⟩
  next hmode =>
    rcases hlong _ h with ⟨hshort, hoperand⟩
    exact Or.inl ⟨_, _, hmode ▸ Mode.Forms.y, hshort, by simp [forms, hmode], hoperand⟩
  next hmode =>
    rw [Bool.and_eq_false_iff, decide_eq_false_iff_not, decide_eq_false_iff_not] at h
    exact Or.inr ⟨hmode, by omega⟩
  next => cases h

/-!
## Both directions
-/

/-- An instruction that says it reassembles does. -/
theorem assemble_text_of_faithful {options : Options} (h : d.Faithful)
    (haddress : d.address = options.origin) (horigin : 0 ≤ options.origin)
    (hfits : options.origin + d.size ≤ 0x10000) :
    (assemble options d.text).diagnostics = [] ∧
      (assemble options d.text).code.toList = d.bytes := by
  rcases h.operand_nat with ⟨n, hn, hoperand⟩
  rcases Script.ofText_of_written (written_text hn hoperand) with ⟨s, hs, hscript⟩
  have hpc : (Session.start options []).image.pc = d.address := by
    rw [Session.pc_start, haddress, wrap64_of_signed64 ⟨by omega, by omega⟩]
  have htarget : d.target ∅ = none := by simp [target]
  apply assemble_of_places hscript
  apply places h hpc
  · rw [hpc, haddress]
    exact hfits
  · intro x hx
    exact absurd hx Std.TreeSet.not_mem_emptyc
  · rw [hs, htarget]

theorem size_of_short {options : Options} {index : List Operand.Form} {short : Mode}
    (hlow : 0 ≤ d.operand) (hhigh : d.operand ≤ 0xFF)
    (hforms : Mode.Forms index short d.mode) (hshort : d.mnemonic.hasMode short = true)
    (hindex : d.forms none = .plain (.number d.operand) :: index)
    (hsilent : (assemble options d.text).diagnostics = []) :
    (assemble options d.text).code.size = 2 := by
  rcases Int.eq_ofNat_of_zero_le hlow with ⟨n, hoperand⟩
  rcases Script.ofText_of_written (@written_text d n (by omega) hoperand) with ⟨s, hs, hscript⟩
  rcases effect_of_silent hscript hsilent with ⟨e, heffect, hsize⟩
  rcases s.body_of_instruction hs with ⟨operands, hbody, hoperands⟩
  rw [Image.effect_of_mnemonic hbody (Or.inl rfl)] at heffect
  rcases Image.chooses_of_mnemonicEffect heffect with
    ⟨mode, value, opcode, field, chunk, rfl, _, hbytes, hlength, hchooses⟩
  rcases hforms.sizes with ⟨hone, _, hbranch, _⟩
  have hrelative : d.mnemonic.hasMode .relative = false :=
    Instruction.not_relative_of_hasMode hshort hbranch
  have hmode : mode = short :=
    (hchooses.prefers hrelative hforms (hoperands.trans hindex)).first
      (.number hlow hhigh) hshort
  have hchunk : chunk.bytes.size = 2 := by
    rw [← Array.length_toList, hbytes, List.length_cons, hlength, hmode, hone]
  rw [hsize, Image.apply, Image.append, Array.size_append, hchunk]
  rfl

end Decoded

/-- Let an instruction be decoded at an address, with all its bytes in the address space.
It says that it reassembles if and only if assembling its written form at that address
reports nothing and gives its bytes. -/
theorem reassembles_iff_assemble_text (options : Options) {code : List UInt8} {d : Decoded}
    (h : Decoded.ofBytes? options.origin code = some d) (horigin : 0 ≤ options.origin)
    (hfits : options.origin + d.size ≤ 0x10000) :
    d.reassembles = true ↔
      (assemble options d.text).diagnostics = [] ∧
        (assemble options d.text).code.toList = d.bytes := by
  rcases Decoded.ofBytes?_eq_some h with
    ⟨haddress, _, hinstruction, operand, hlength, hbytes, hoperand⟩
  constructor
  · intro hreassembles
    exact Decoded.assemble_text_of_faithful
      ⟨hinstruction, ⟨operand, hlength, hbytes, hoperand⟩, hreassembles⟩ haddress horigin
      hfits
  · rintro ⟨hsilent, hcode⟩
    have hquiet : ∀ found, found ∉ (Script.ofText d.text).diagnostics := by
      intro found hfound
      have hreport := mem_diagnostics_of_script options hfound
      rw [hsilent] at hreport
      cases hreport
    by_contra hnot
    rw [Bool.not_eq_true] at hnot
    rcases Decoded.cases_of_not_reassembles hnot with
      ⟨index, short, hforms, hshort, hindex, hhigh⟩ | ⟨hmode, hlow | hhigh⟩
    · -- three bytes were decoded and two are assembled
      rcases hforms.sizes with ⟨_, htwo, _, hbranch⟩
      rcases @Decoded.operandOf_nat d.address _ _ hlength hbranch with ⟨n, _, hn⟩
      have hlow : 0 ≤ d.operand := by
        rw [hoperand, hn]
        exact Int.natCast_nonneg n
      have hsize := Decoded.size_of_short hlow hhigh hforms hshort hindex hsilent
      rw [← Array.length_toList, hcode, hbytes, List.length_cons, hlength, htwo] at hsize
      cases hsize
    · rcases Decoded.exists_report_of_low hmode hlow with ⟨found, hfound⟩
      exact hquiet found hfound
    · have hnear := Decoded.operand_le_of_relative hmode hlength hoperand (by omega)
      have hbound : d.operand.toNat < 2 ^ 63 := by omega
      rcases Decoded.exists_report_of_high hmode (Int.toNat_of_nonneg (by omega)).symm
        (by omega) hbound with ⟨found, hfound⟩
      exact hquiet found hfound

/-- The last two bytes of the address space hold a branch that leads out of it. -/
theorem reassembles_iff_assemble_text_beyond :
    let options : Options := { origin := 0xFFFE }
    let d : Decoded := ⟨0xFFFE, ⟨.bne, .relative, 0xd0⟩, [0xd0, 0x10], 0x10010⟩
    Decoded.ofBytes? options.origin [0xd0, 0x10] = some d ∧ 0 ≤ options.origin ∧
      options.origin + d.size ≤ 0x10000 ∧ d.text = "bne $10010".toList ∧
      d.reassembles = false ∧
      (d.reassembles = true ↔
        (assemble options d.text).diagnostics = [] ∧
          (assemble options d.text).code.toList = d.bytes) := by
  intro options d
  have h : Decoded.ofBytes? options.origin [0xd0, 0x10] = some d := by decide +kernel
  have hfits : options.origin + d.size ≤ 0x10000 := by decide
  exact ⟨h, by decide, hfits, by decide +kernel, by decide,
    reassembles_iff_assemble_text options h (by decide) hfits⟩

end Asm6502

import Asm6502.Proofs.Padding
import Asm6502.Proofs.StandAlone
import Asm6502.Proofs.Utf8Decoding

/-!
# String literals

Between quotes any text can be written: three characters need an escape, three more may
have one, and all others stand for themselves.  The main result follows such a literal
from its characters to the bytes in the image, through every way of writing it and every
directive that takes strings.  The literals that a disassembly prints are among them.
-/

namespace Asm6502

open Lexeme (isWord)

/-!
## Writing a text between quotes
-/

namespace Lexeme

def spellings (c : Char) : List Text :=
  if c = '\n' then [['\\', 'n']]
  else if c = '"' || c = '\\' then [['\\', c]]
  else if c = '\t' then [[c], ['\\', 't']]
  else if c = '\r' then [[c], ['\\', 'r']]
  else if c = '\x00' then [[c], ['\\', '0']]
  else [[c]]

theorem spellings_ne_nil (c : Char) : spellings c ≠ [] := by
  unfold spellings
  split_ifs <;> exact List.cons_ne_nil _ _

theorem spells_of_mem_spellings {c : Char} {t : Text} (h : t ∈ spellings c) :
    Spells t [c] := by
  unfold spellings at h
  split_ifs at h with hline hescaped htab hreturn hnull
  · subst hline
    rw [List.mem_singleton.mp h]
    exact Spells.escape rfl (by decide)
  · rw [Bool.or_eq_true, decide_eq_true_eq, decide_eq_true_eq] at hescaped
    rw [List.mem_singleton.mp h]
    rcases hescaped with rfl | rfl
    · exact Spells.escape rfl (by decide)
    · exact Spells.escape rfl (by decide)
  -- The other characters may stand for themselves.
  all_goals
    rw [Bool.or_eq_true, decide_eq_true_eq, decide_eq_true_eq, not_or] at hescaped
    have hplain : Spells [c] [c] := Spells.plain hescaped.1 hescaped.2 hline
  · rcases List.mem_pair.mp h with rfl | rfl
    · exact hplain
    · exact htab ▸ Spells.escape rfl (by decide)
  · rcases List.mem_pair.mp h with rfl | rfl
    · exact hplain
    · exact hreturn ▸ Spells.escape rfl (by decide)
  · rcases List.mem_pair.mp h with rfl | rfl
    · exact hplain
    · exact hnull ▸ Spells.escape rfl (by decide)
  · rw [List.mem_singleton.mp h]
    exact hplain

end Lexeme

namespace Text

/-- The literal is the text between quotes, with every character in one of its
spellings. -/
def Quotes (contents literal : Text) : Prop :=
  ∃ pieces : List Text,
    List.Forall₂ (fun c piece => piece ∈ Lexeme.spellings c) contents pieces ∧
      literal = '"' :: (pieces.flatten ++ ['"'])

theorem exists_quotes (contents : Text) : ∃ literal, contents.Quotes literal := by
  suffices hpieces : ∃ pieces,
      List.Forall₂ (fun c piece => piece ∈ Lexeme.spellings c) contents pieces by
    rcases hpieces with ⟨pieces, hpieces⟩
    exact ⟨_, pieces, hpieces, rfl⟩
  induction contents with
  | nil => exact ⟨[], .nil⟩
  | cons c rest ih =>
      rcases ih with ⟨pieces, hpieces⟩
      rcases List.exists_mem_of_ne_nil _ (Lexeme.spellings_ne_nil c) with ⟨piece, hpiece⟩
      exact ⟨piece :: pieces, .cons hpiece hpieces⟩

theorem spells_of_pieces {contents : Text} {pieces : List Text}
    (h : List.Forall₂ (fun c piece => piece ∈ Lexeme.spellings c) contents pieces) :
    Lexeme.Spells pieces.flatten contents := by
  induction h with
  | nil => exact .nil
  | cons hfirst _ ih => exact (Lexeme.spells_of_mem_spellings hfirst).append ih

variable {contents literal : Text}

/-- A literal is one token, wherever it stands. -/
theorem Quotes.reads (h : contents.Quotes literal) (rest : Text) :
    Scan.Reads literal (fun p => [⟨.string, contents, p⟩]) rest := by
  rcases h with ⟨pieces, hpieces, rfl⟩
  exact Scan.Reads.string (spells_of_pieces hpieces) rest

theorem Quotes.written (h : contents.Quotes literal) :
    Argument.Written [.string contents] literal := by
  rcases h with ⟨pieces, hpieces, rfl⟩
  exact Argument.written_single (Operand.Form.written_string (spells_of_pieces hpieces))

end Text

/-!
## Bytes that are known at once
-/

/-- The bytes that a directive adds after its strings, if it takes strings. -/
def Directive.afterStrings? : Directive -> Option (List UInt8)
  | byte | text => some []
  | asciiz => some [0]
  | _ => none

theorem Image.effect_of_string {image : Image} {initial : UInt8} {s : Statement}
    {d : Directive} {final : List UInt8} {contents : Text} {p : Position}
    (hfinal : d.afterStrings? = some final) (hs : s.Directs d [⟨.string contents, p⟩]) :
    image.effect initial s = image.append? s.position
      (Chunk.empty.addBytes (Utf8.encode contents ++ final)) := by
  rcases hs with ⟨name, hbody, hname⟩
  have heffect : image.effect initial s =
      image.directiveEffect initial d ⟨name, s.position, [⟨.string contents, p⟩]⟩ := by
    simp only [effect, hbody, hname]
  rw [heffect, ← Data.dataEffect_string contents name s.position p final]
  unfold Directive.afterStrings? at hfinal
  split at hfinal <;> cases hfinal <;> rfl

theorem Session.extends_of_string {options : Options} {session : Session} {s : Statement}
    {d : Directive} {final : List UInt8} {contents : Text} {p : Position}
    (hfinal : d.afterStrings? = some final) (hs : s.Directs d [⟨.string contents, p⟩]) :
    session.Extends options s (Utf8.encode contents ++ final).length
      (Utf8.encode contents ++ final) := by
  have hsize := Chunk.size_addBytes_empty (Utf8.encode contents ++ final)
  have heffect := @Image.effect_of_string session.image options.filler s _ _ _ _ hfinal hs
  rw [Image.append?, hsize] at heffect
  exact extends_of_effect heffect

theorem assemble_string (options : Options) {name t : Text} {d : Directive}
    {final : List UInt8} {contents : Text} (hname : Directive.ofName? name = some d)
    (hfinal : d.afterStrings? = some final)
    (ht : (Statement.Content.directive name [.string contents]).Written t) :
    ((assemble options t).diagnostics = [] ↔
        wrap64 (options.origin + (Utf8.encode contents ++ final).length) ≤ 0x10000) ∧
      ((assemble options t).diagnostics = [] ->
        (assemble options t).code.toList = Utf8.encode contents ++ final) := by
  rcases Script.ofText_of_written ht with ⟨s, hcontent, hscript⟩
  rcases s.body_of_directive hcontent with ⟨operands, hbody, hoperands⟩
  rcases Operand.eq_one_of_forms hoperands with ⟨p, rfl⟩
  have hs : s.Directs d [⟨.string contents, p⟩] := ⟨name, hbody, hname⟩
  have hextends : (Session.start options []).Extends options s
      (Utf8.encode contents ++ final).length (Utf8.encode contents ++ final) :=
    Session.extends_of_string hfinal hs
  have hstart : wrap64 ((Session.start options []).image.pc +
      (Utf8.encode contents ++ final).length) =
        wrap64 (options.origin + (Utf8.encode contents ++ final).length) := by
    rw [Session.pc_start, wrap64_add_left]
  -- Bytes that fit are placed without any name, so nothing is left to report.
  have hplaces : wrap64 (options.origin + (Utf8.encode contents ++ final).length) ≤ 0x10000 ->
      (assemble options t).diagnostics = [] ∧
        (assemble options t).code.toList = Utf8.encode contents ++ final := by
    intro hroom
    apply assemble_of_places hscript
    refine Image.places_bytes ∅ (decide_eq_true ?_) (Image.effect_of_string hfinal hs)
    rw [hstart]
    exact hroom
  have hroom : (assemble options t).diagnostics = [] ->
      wrap64 (options.origin + (Utf8.encode contents ++ final).length) ≤ 0x10000 := by
    intro hsilent
    rcases effect_of_silent hscript hsilent with ⟨e, he, _⟩
    rw [← hstart]
    exact hextends.accepts_iff.mp (Session.accepts_of_ok he)
  exact ⟨⟨hroom, fun h => (hplaces h).1⟩, fun hsilent => (hplaces (hroom hsilent)).2⟩

/-!
## Printed strings
-/

namespace Data

def quoted (contents : List UInt8) : Text :=
  '"' :: (contents.flatMap stringChar ++ ['"'])

theorem stringLine_eq (contents : List UInt8) (terminated : Bool) :
    stringLine contents terminated =
      indent ++ ('.' :: (if terminated then "asciiz" else "text").toList ++
        ([' '] ++ quoted contents)) := by
  cases terminated <;> simp [stringLine, quoted]

theorem stringChar_mem_spellings {b : UInt8} (h : isPrintableByte b = true) :
    stringChar b ∈ Lexeme.spellings (charOf b) := by
  have hall : ∀ n < 256, isPrintableByte (UInt8.ofNat n) = true ->
      stringChar (UInt8.ofNat n) ∈ Lexeme.spellings (charOf (UInt8.ofNat n)) := by
    decide +kernel
  have hb := hall b.toNat b.toNat_lt
  rw [UInt8.ofNat_toNat] at hb
  exact hb h

theorem quotes_quoted {contents : List UInt8}
    (h : ∀ b ∈ contents, isPrintableByte b = true) :
    Text.Quotes (contents.map charOf) (quoted contents) := by
  refine ⟨contents.map stringChar, ?_, by rw [quoted, List.flatMap_def]⟩
  rw [List.forall₂_map_left_iff, List.forall₂_map_right_iff, List.forall₂_same]
  exact fun b hb => stringChar_mem_spellings (h b hb)

end Data

/-- Every text can be written between quotes, and its bytes tell it from all others.

However its characters are written, the literal is one token with the text as its contents
and no diagnostic, by itself and wherever else it stands.  A line with a directive that
takes strings and the literal is one statement, and as a source of its own it assembles
without diagnostics exactly if the bytes of the text, and the zero that some directives
add, fit below the end of the address space, their end being counted in 64 bits; they are
the code then.  So it does whenever they fit in truth.  In any other session too the
statement is accepted exactly if they fit, and adds just these bytes.

The strings of a disassembly are such literals, and the bytes of what they are read as are
those they were printed for. -/
theorem string_literals_carry_text :
    (∀ contents : Text, (∃ literal, contents.Quotes literal) ∧
      Utf8.decode (Utf8.encode contents) = contents) ∧
    (∀ contents literal : Text, contents.Quotes literal ->
      Scan.ofText literal = Scan.clean [⟨.string, contents, .start⟩]
        ⟨.endOfInput, [], Position.start.after literal⟩ ∧
      (∀ rest, Scan.Reads literal (fun p => [⟨.string, contents, p⟩]) rest) ∧
      ∀ (d : Directive) (final : List UInt8), d.afterStrings? = some final ->
        let bytes := Utf8.encode contents ++ final
        (∀ (name : Text) (indent : Nat), isWord name = true ->
          Directive.ofName? name.lower = some d ->
          let line := List.replicate indent ' ' ++ ('.' :: name ++ ([' '] ++ literal))
          (Statement.Content.directive name.lower [.string contents]).Written line ∧
          ∀ options,
            ((assemble options line).diagnostics = [] ↔
              wrap64 (options.origin + bytes.length) ≤ 0x10000) ∧
            (Signed64 options.origin -> options.origin + bytes.length ≤ 0x10000 ->
              (assemble options line).diagnostics = []) ∧
            ((assemble options line).diagnostics = [] ->
              (assemble options line).code.toList = bytes)) ∧
        ∀ (s : Statement) (p : Position), s.Directs d [⟨.string contents, p⟩] ->
          ∀ options session, Session.Extends options session s bytes.length bytes ∧
            (session.image.pc + bytes.length ≤ 0x10000 ->
              session.accepts options s = true)) ∧
    ∀ contents : List UInt8, (∀ b ∈ contents, Data.isPrintableByte b = true) ->
      (∀ terminated, Data.stringLine contents terminated =
        Data.indent ++ ('.' :: (if terminated then "asciiz" else "text").toList ++
          ([' '] ++ Data.quoted contents))) ∧
      ∃ text : Text, text.Quotes (Data.quoted contents) ∧
        Scan.ofText (Data.quoted contents) = Scan.clean [⟨.string, text, .start⟩]
          ⟨.endOfInput, [], Position.start.after (Data.quoted contents)⟩ ∧
        Utf8.encode text = contents := by
  refine ⟨fun contents => ⟨contents.exists_quotes, Utf8.decode_encode contents⟩,
    fun contents literal h => ?_, fun contents hprintable => ?_⟩
  · refine ⟨Script.scan_of_reads (h.reads []), h.reads, fun d final hfinal => ⟨?_, ?_⟩⟩
    · intro name indent hword hname
      have hline := Statement.Content.written_directive hword h.written indent
      refine ⟨hline, fun options => ?_⟩
      rcases assemble_string options hname hfinal hline with ⟨hfits, hcode⟩
      refine ⟨hfits, fun hsigned hend => hfits.mpr ?_, hcode⟩
      have hlow := hsigned.1
      rw [wrap64_of_signed64 ⟨by omega, by omega⟩]
      exact hend
    · intro s p hs options session
      have hextends := @Session.extends_of_string options session s _ _ _ _ hfinal hs
      refine ⟨hextends, fun hend => hextends.accepts_iff.mpr ?_⟩
      rw [Image.wrap64_pc_add hend]
      exact hend
  · have hquotes := Data.quotes_quoted hprintable
    exact ⟨Data.stringLine_eq contents, _, hquotes,
      Script.scan_of_reads (hquotes.reads []), Data.encode_charOf hprintable⟩

/-- A quote and a line feed are escaped, a tab is not, and two characters have more than
one byte: eleven bytes with the zero, which fit just below the end. -/
theorem string_literals_carry_text_at_end :
    let contents : Text := ['a', '"', '\n', '\t', 'é', '😀']
    let literal : Text := ['"', 'a', '\\', '"', '\\', 'n', '\t', 'é', '😀', '"']
    let source := ".asciiz ".toList ++ literal
    contents.Quotes literal ∧
      (assemble { origin := 0xFFF5 } source).code.toList =
        [0x61, 0x22, 0x0A, 0x09, 0xC3, 0xA9, 0xF0, 0x9F, 0x98, 0x80, 0] ∧
      (assemble { origin := 0xFFF6 } source).diagnostics ≠ [] := by
  intro contents literal source
  have hquotes : contents.Quotes literal := by
    refine ⟨[['a'], ['\\', '"'], ['\\', 'n'], ['\t'], ['é'], ['😀']], ?_, rfl⟩
    simp only [contents, List.forall₂_cons, List.forall₂_nil_left_iff]
    decide
  have hencode : Utf8.encode contents ++ [0] =
      [0x61, 0x22, 0x0A, 0x09, 0xC3, 0xA9, 0xF0, 0x9F, 0x98, 0x80, 0] := by decide
  rcases string_literals_carry_text.2.1 contents literal hquotes with ⟨_, _, hdirectives⟩
  rcases (hdirectives .asciiz [0] rfl).1 "asciiz".toList 0 (by decide) (by decide) with
    ⟨_, hruns⟩
  rw [hencode] at hruns
  refine ⟨hquotes, ?_, fun hsilent => ?_⟩
  · exact (hruns { origin := 0xFFF5 }).2.2
      ((hruns { origin := 0xFFF5 }).2.1 (by decide) (by decide))
  · exact absurd ((hruns { origin := 0xFFF6 }).1.mp hsilent) (by decide)

end Asm6502

import Asm6502.Assembly.Run
import Asm6502.Proofs.PrintedLines

/-!
# Listings are read like sources

A listing has the lines of the plain disassembly, and some of them go on with blanks and
a comment.  A line that ends in a complete token is read as the same tokens whether a
comment stands after it or not.  Line by line the two texts therefore have the same
scan, and all that is made of a scan is the same.
-/

namespace Asm6502

open Lexeme (begins isWordPart isWord)

/-!
## Comments
-/

theorem Lexeme.opening_comment (t : Text) : opening ';' t = .comment := by
  have hclass : isBlank ';' = false := by decide
  simp [opening, hclass]

/-- A comment goes on to the end of its line and leaves no token. -/
theorem Scan.Reads.comment {c : Text} (h : '\n' ∉ c) (rest : Text) :
    Reads (';' :: c) (fun _ => []) ('\n' :: rest) := by
  have hrun : ∀ x ∈ c, (x != '\n') = true := by
    intro x hx
    rw [bne_iff_ne]
    rintro rfl
    exact h hx
  have hend : begins (· != '\n') ('\n' :: rest) = false := rfl
  refine ⟨?_, ?_, fun _ _ hnil => nomatch hnil⟩
  · intro p done
    rw [List.cons_append, onto]
    simp only [Lexeme.read, Lexeme.opening_comment, Lexeme.comment,
      Lexeme.takeWhile_run hrun hend, Lexeme.dropWhile_run hrun hend]
    rfl
  · rw [List.mem_cons, not_or]
    exact ⟨by decide, h⟩

namespace Text

/-!
## Lines that may go on with a comment
-/

/-- The text is read as the same tokens in front of everything that no word goes on
into. -/
def Closed (t : Text) : Prop :=
  ∃ tokens : Position -> List Token,
    ∀ rest, begins isWordPart rest = false -> Scan.Reads t tokens rest

namespace Closed

variable {t word : Text}

theorem ofWord (hword : isWord word = true) : Closed word :=
  ⟨_, fun _ hrest => .word hword hrest⟩

theorem indented (h : Closed t) (count : Nat) :
    Closed (List.replicate count ' ' ++ t) := by
  rcases h with ⟨tokens, hreads⟩
  exact ⟨_, fun rest hrest => (Scan.Reads.blanks count _).append (hreads rest hrest)⟩

theorem afterWord (hword : isWord word = true) (h : Closed t) (gap : Nat) :
    Closed (word ++ (List.replicate (gap + 1) ' ' ++ t)) := by
  rcases h.indented (gap + 1) with ⟨tokens, hreads⟩
  exact ⟨_, fun rest hrest => (Scan.Reads.word hword rfl).append (hreads rest hrest)⟩

theorem hexWord (n : Nat) : Closed (Decoded.hexWord n) := by
  refine ⟨_, fun _ hrest => Scan.Reads.hexNumber (hex_ne_nil 4 n) ?_ hrest⟩
  intro c hc
  rcases mem_hex hc with ⟨d, hd, rfl⟩
  exact Lexeme.isHexDigit_digitChar hd

theorem afterDirective (hword : isWord word = true) (h : Closed t) :
    Closed ('.' :: word ++ (List.replicate 1 ' ' ++ t)) := by
  rcases h.indented 1 with ⟨tokens, hreads⟩
  exact ⟨_, fun rest hrest =>
    (Scan.Reads.directive hword rfl).append (hreads rest hrest)⟩

end Closed

/-!
## Lines with the same tokens
-/

def SameTokens (line line' : Text) : Prop :=
  ∃ tokens : Position -> List Token, ∀ rest,
    Scan.Reads line tokens ('\n' :: rest) ∧ Scan.Reads line' tokens ('\n' :: rest)

theorem Tells.sameTokens {line : Text} {content? : Option Statement.Content}
    (h : Tells line content?) : SameTokens line line := by
  rcases h with ⟨tokens, hreads, _⟩
  exact ⟨tokens, fun rest => ⟨hreads rest, hreads rest⟩⟩

theorem Closed.sameTokens_self {t : Text} (h : Closed t) : SameTokens t t := by
  rcases h with ⟨tokens, hreads⟩
  exact ⟨tokens, fun _ => ⟨hreads _ rfl, hreads _ rfl⟩⟩

theorem Closed.sameTokens {t : Text} (h : Closed t) (gap : Nat) {c : Text}
    (hc : '\n' ∉ c) : SameTokens t (t ++ (List.replicate gap ' ' ++ ';' :: c)) := by
  rcases h with ⟨tokens, hreads⟩
  refine ⟨tokens, fun rest => ⟨hreads _ rfl, ?_⟩⟩
  have hend : begins isWordPart
      ((List.replicate gap ' ' ++ ';' :: c) ++ '\n' :: rest) = false := by
    cases gap with
    | zero => rfl
    | succ gap => rfl
  have hall := (hreads _ hend).append
    ((Scan.Reads.blanks gap _).append (Scan.Reads.comment hc rest))
  simpa using hall

theorem onto_of_sameTokens {lines lines' : List Text}
    (h : List.Forall₂ SameTokens lines lines') (line : Int) (done : List Lexeme) :
    ∃ (tokens : List Token) (final : Token),
      Scan.onto done [] ⟨line, 1⟩ (ofLines lines) =
        ⟨done.reverse ++ tokens.map Lexeme.clean, .clean final⟩ ∧
      Scan.onto done [] ⟨line, 1⟩ (ofLines lines') =
        ⟨done.reverse ++ tokens.map Lexeme.clean, .clean final⟩ := by
  induction h generalizing line done with
  | nil =>
      refine ⟨[], ⟨.endOfInput, [], ⟨line, 1⟩⟩, ?_⟩
      rw [ofLines, List.flatMap_nil, Scan.onto]
      simp [Lexeme.clean]
  | @cons text text' lines lines' hsame _ ih =>
      rcases hsame with ⟨first, hreads⟩
      have hread := (hreads (ofLines lines)).1
      have hread' := (hreads (ofLines lines')).2
      have hsplit : ∀ (first : Text) (more : List Text),
          ofLines (first :: more) = first ++ '\n' :: ofLines more := by
        simp [ofLines]
      rcases ih (line + 1) ((first ⟨line, 1⟩).reverse.map Lexeme.clean ++ done) with
        ⟨tokens, final, honto, honto'⟩
      refine ⟨first ⟨line, 1⟩ ++ tokens, final, ?_, ?_⟩
      · rw [hsplit, hread.scan, Scan.onto_newline, Position.line_after hread.sameLine, honto]
        simp
      · rw [hsplit, hread'.scan, Scan.onto_newline, Position.line_after hread'.sameLine,
          honto']
        simp

theorem sameTokens_more {done done' more more' : List Text}
    (hdone : List.Forall₂ SameTokens done.reverse done'.reverse)
    (hmore : List.Forall₂ SameTokens more more') :
    List.Forall₂ SameTokens (more.reverse ++ done).reverse
      (more'.reverse ++ done').reverse := by
  have hall := rel_more hdone hmore
  simpa only [List.reverse_append, List.reverse_reverse] using hall

/-!
## What comments show
-/

theorem newline_not_mem_hex (width : Nat) (n : Int) : '\n' ∉ hex width n := by
  have hdigits : ∀ m width, '\n' ∉ (Nat.toDigits 16 m).leftpad width '0' := by
    intro m width hmem
    rw [← hex_natCast] at hmem
    rcases mem_hex hmem with ⟨d, hd, hdigit⟩
    have hall : ∀ d < 16, '\n' ≠ d.digitChar := by decide
    exact hall d hd hdigit
  unfold hex
  split
  · rw [List.mem_cons, not_or]
    exact ⟨by decide, hdigits _ _⟩
  · exact hdigits _ _

end Text

theorem Disassembly.newline_not_mem_byteText (bytes : List UInt8) :
    '\n' ∉ byteText bytes := by
  induction bytes with
  | nil => exact List.not_mem_nil
  | cons b rest ih =>
      have hfirst := Text.newline_not_mem_hex 2 b.toNat
      cases rest with
      | nil => simpa [byteText, List.intercalate] using hfirst
      | cons b' more =>
          have hsplit : byteText (b :: b' :: more) =
              Text.hex 2 b.toNat ++ ' ' :: byteText (b' :: more) := by
            simp [byteText, List.intercalate]
          rw [hsplit, List.mem_append, List.mem_cons, not_or, not_or]
          exact ⟨hfirst, by decide, ih⟩

/-!
## The lines of a disassembly
-/

namespace Data

theorem sameTokens_byteLine (address : Int) {row : List UInt8} (hne : row ≠ []) :
    Text.SameTokens (byteLine .source address row) (byteLine .listing address row) := by
  rcases written_byteForms hne with ⟨tokens, hreads, _⟩
  have hword : isWord "byte".toList = true := by decide
  have hclosed := (Text.Closed.afterDirective hword ⟨tokens, hreads⟩).indented 4
  have hnote : '\n' ∉ ' ' :: Decoded.hexWord address := by
    simpa [Decoded.hexWord] using Text.newline_not_mem_hex 4 address
  let line : Text :=
    ".byte ".toList ++ [','].intercalate (row.map fun b => Decoded.hexByte b.toNat)
  have hlisted : byteLine .listing address row = (indent ++ line) ++
      (List.replicate (20 - line.length + 1) ' ' ++
        ';' :: ' ' :: Decoded.hexWord address) := by
    simp [byteLine, Text.padRight, line, List.replicate_succ']
  rw [hlisted]
  exact hclosed.sameTokens _ hnote

theorem sameTokens_rows (address : Int) {table : List (List UInt8)}
    (h : ∀ row ∈ table, row ≠ []) (start : Nat) :
    List.Forall₂ Text.SameTokens
      ((table.zipIdx start).map fun (row, i) =>
        byteLine .source (wrap64 (address + 16 * i)) row)
      ((table.zipIdx start).map fun (row, i) =>
        byteLine .listing (wrap64 (address + 16 * i)) row) := by
  induction table generalizing start with
  | nil => exact .nil
  | cons row rest ih =>
      refine .cons (sameTokens_byteLine _ (h row (List.mem_cons_self ..))) ?_
      exact ih (fun row hrow => h row (List.mem_cons_of_mem _ hrow)) (start + 1)

theorem Segment.sameTokens_lines {s : Segment} (h : s.Sound) (address number : Int) :
    List.Forall₂ Text.SameTokens (s.lines .source address number)
      (s.lines .listing address number) := by
  cases s with
  | string contents terminated =>
      exact .cons (tells_stringName number).sameTokens
        (.cons (says_stringLine terminated h).sameTokens .nil)
  | bytes contents =>
      exact sameTokens_rows address (fun row => ne_nil_of_mem_rows) 0

theorem sameTokens_linesOnto {segments : List Segment} (h : ∀ s ∈ segments, s.Sound)
    {done done' : List Text}
    (hdone : List.Forall₂ Text.SameTokens done.reverse done'.reverse)
    (address number : Int) :
    List.Forall₂ Text.SameTokens (linesOnto .source done address number segments)
      (linesOnto .listing done' address number segments) := by
  induction segments generalizing done done' address number with
  | nil => exact hdone
  | cons s rest ih =>
      have hfirst :=
        Segment.sameTokens_lines (h s (List.mem_cons_self ..)) address number
      rw [linesOnto, linesOnto]
      exact ih (fun s hs => h s (List.mem_cons_of_mem _ hs))
        (Text.sameTokens_more hdone hfirst) _ _

end Data

theorem Decoded.closed_line (labels : Std.TreeSet Int compare) {d : Decoded}
    (h : d.Faithful) : (Data.indent ++ d.line 4 (d.target labels)).Closed := by
  have hword := d.name_kind.1
  rcases h.operand_nat with ⟨n, hn, hoperand⟩
  by_cases hmode : d.mode = .implied
  · rw [line, operandText_of_implied hmode]
    exact (Text.Closed.ofWord hword).indented 4
  · have hwritten := written_forms hmode hn hoperand (isName_target labels h)
    rw [line_of_operand hwritten.ne_nil]
    rcases hwritten with ⟨tokens, hreads, _⟩
    exact (Text.Closed.afterWord hword ⟨tokens, hreads⟩ 1).indented 4

namespace Disassembly

theorem sameTokens_instructionLines {labels : Std.TreeSet Int compare}
    (hlabels : ∀ x ∈ labels, 0 ≤ x) {d : Decoded} (h : d.Faithful) :
    List.Forall₂ Text.SameTokens (instructionLines .source labels d)
      (instructionLines .listing labels d) := by
  let line : Text := d.line 4 (d.target labels)
  have hnote : '\n' ∉ ' ' :: (Decoded.hexWord d.address ++
      ([' ', ' '] ++ byteText d.bytes)) := by
    have haddress := Text.newline_not_mem_hex 4 d.address
    have hbytes := newline_not_mem_byteText d.bytes
    simp [Decoded.hexWord, haddress, hbytes]
  have hlisted : Data.indent ++ Text.padRight 20 line ++ " ; ".toList ++
        Decoded.hexWord d.address ++ [' ', ' '] ++ byteText d.bytes =
      (Data.indent ++ line) ++ (List.replicate (20 - line.length + 1) ' ' ++
        ';' :: ' ' :: (Decoded.hexWord d.address ++
          ([' ', ' '] ++ byteText d.bytes))) := by
    simp [Text.padRight, List.replicate_succ']
  have hshown := (d.closed_line labels h).sameTokens (20 - line.length + 1) hnote
  rw [← hlisted] at hshown
  unfold instructionLines
  refine List.rel_append ?_ (.cons hshown .nil)
  split
  · rename_i hlabel
    rcases Int.eq_ofNat_of_zero_le
      (hlabels _ (Std.TreeSet.mem_iff_contains.mpr hlabel)) with ⟨a, ha⟩
    rw [ha]
    exact .cons (Text.says_label (Block.isName_labelName a)).sameTokens .nil
  · exact .nil

theorem sameTokens_linesOnto {labels : Std.TreeSet Int compare}
    (hlabels : ∀ x ∈ labels, 0 ≤ x) {blocks : List Block}
    (h : ∀ d, .code d ∈ blocks -> d.Faithful) {done done' : List Text}
    (hdone : List.Forall₂ Text.SameTokens done.reverse done'.reverse) (number : Int) :
    List.Forall₂ Text.SameTokens (linesOnto .source labels done number blocks)
      (linesOnto .listing labels done' number blocks) := by
  induction blocks generalizing done done' number with
  | nil => exact hdone
  | cons b rest ih =>
      have hrest : ∀ d, .code d ∈ rest -> d.Faithful :=
        fun d hd => h d (List.mem_cons_of_mem _ hd)
      cases b with
      | code d =>
          have hfirst := sameTokens_instructionLines hlabels (h d (List.mem_cons_self ..))
          rw [linesOnto, linesOnto]
          exact ih hrest (Text.sameTokens_more hdone hfirst) number
      | data address bytes =>
          have hfirst : List.Forall₂ Text.SameTokens
              (Data.lines .source address number bytes)
              (Data.lines .listing address number bytes) :=
            Data.sameTokens_linesOnto (fun _ => Data.sound_segments) .nil address number
          rw [linesOnto, linesOnto]
          exact ih hrest (Text.sameTokens_more hdone hfirst) _

/-- Line by line a listing has the tokens of the plain disassembly. -/
theorem sameTokens_lines (origin : Nat) (code : List UInt8) :
    List.Forall₂ Text.SameTokens (lines .source origin code)
      (lines .listing origin code) := by
  unfold lines
  apply List.rel_append
  · split
    · exact .nil
    · have hword : isWord "org".toList = true := by decide
      exact .cons ((Text.Closed.afterDirective hword
        (Text.Closed.hexWord origin)).indented 4).sameTokens_self .nil
  · exact sameTokens_linesOnto (fun _ => Block.nonneg_of_mem_labels)
      (fun _ => Block.faithful_of_mem_sweep) .nil 1

theorem ofText_listing (origin : Nat) (code : List UInt8) :
    Scan.ofText (Text.ofLines (lines .listing origin code)) =
        Scan.ofText (Text.ofLines (lines .source origin code)) ∧
      (Scan.ofText (Text.ofLines (lines .source origin code))).faults = [] := by
  rcases Text.onto_of_sameTokens (sameTokens_lines origin code) 1 [] with
    ⟨tokens, final, hsource, hlisting⟩
  have hofText : Scan.ofText (Text.ofLines (lines .source origin code)) = _ := hsource
  refine ⟨hlisting.trans hsource.symm, ?_⟩
  rw [hofText, Scan.faults, List.flatMap_eq_nil_iff]
  exact fun x hx => Scan.faults_of_mem_clean hx

end Disassembly

/-- A listing fails just where the plain disassembly fails, and in the same way.  Where
they succeed, both texts have the same tokens at the same places, the end of input
included, and no lexical diagnostic; so they are assembled alike, whatever the options. -/
theorem listing_reads_as_disassembly (origin : Int) (code : List UInt8) :
    (∀ misfit, Disassembly.render .listing origin code = .error misfit ↔
      disassemble origin code = .error misfit) ∧
    ∀ source listing, disassemble origin code = .ok source ->
      Disassembly.render .listing origin code = .ok listing ->
      (Scan.ofText listing).tokens = (Scan.ofText source).tokens ∧
        (Scan.ofText listing).faults = [] ∧ (Scan.ofText source).faults = [] ∧
        ∀ options, assemble options listing = assemble options source := by
  unfold disassemble Disassembly.render
  by_cases houtside : (decide (origin < 0) ||
      decide (0x10000 < wrap64 (origin + code.length))) = true
  · rw [if_pos houtside, if_pos houtside]
    exact ⟨fun _ => Iff.rfl, nofun⟩
  rw [if_neg houtside, if_neg houtside]
  by_cases hcode : code.isEmpty = true
  · rw [if_pos hcode, if_pos hcode]
    refine ⟨fun _ => Iff.rfl, ?_⟩
    rintro source listing ⟨⟩ ⟨⟩
    have hempty : (Scan.ofText []).faults = [] := by decide +kernel
    exact ⟨rfl, hempty, hempty, fun _ => rfl⟩
  rw [if_neg hcode, if_neg hcode]
  refine ⟨fun _ => ⟨nofun, nofun⟩, ?_⟩
  rintro source listing ⟨⟩ ⟨⟩
  simp only [Bool.or_eq_true, decide_eq_true_eq, not_or] at houtside
  rcases Int.eq_ofNat_of_zero_le (Int.not_lt.mp houtside.1) with ⟨n, rfl⟩
  rcases Disassembly.ofText_listing n code with ⟨hscan, hfaults⟩
  refine ⟨congrArg Scan.tokens hscan, hscan ▸ hfaults, hfaults, fun options => ?_⟩
  unfold assemble Script.ofText
  rw [hscan]

/-- A byte that is no instruction, a string with a semicolon and quotes in it, and a
branch back to its label. -/
theorem listing_reads_as_disassembly_semicolon :
    let code : List UInt8 := [0xff, 0x22, 0x3b, 0x47, 0x22, 0xea, 0xd0, 0xfd]
    let source := ("    .org $0600\n    .byte $ff\nstring1:\n    .text \"\\\";G\\\"\"\n" ++
      "L0605:\n    nop\n    bne  L0605\n").toList
    let listing := ("    .org $0600\n    .byte $ff            ; $0600\nstring1:\n" ++
      "    .text \"\\\";G\\\"\"\nL0605:\n    nop                  ; $0605  ea\n" ++
      "    bne  L0605           ; $0606  d0 fd\n").toList
    disassemble 0x600 code = .ok source ∧
      Disassembly.render .listing 0x600 code = .ok listing ∧
      (Scan.ofText listing).tokens = (Scan.ofText source).tokens ∧
      (Scan.ofText source).tokens.length = 14 ∧ (Scan.ofText listing).faults = [] ∧
      assemble {} listing = assemble {} source := by
  intro code source listing
  have hsource : disassemble 0x600 code = .ok source := by decide +kernel
  have hlisting : Disassembly.render .listing 0x600 code = .ok listing := by
    decide +kernel
  rcases (listing_reads_as_disassembly 0x600 code).2 source listing hsource hlisting with
    ⟨htokens, hfaults, _, hassemble⟩
  exact ⟨hsource, hlisting, htokens, by decide +kernel, hfaults, hassemble {}⟩

end Asm6502

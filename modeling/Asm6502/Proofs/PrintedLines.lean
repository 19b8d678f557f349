import Asm6502.Disassembly.Listing
import Asm6502.Proofs.StringRuns
import Asm6502.Proofs.Sweep
import Asm6502.Proofs.Written
import Mathlib.Data.List.ReduceOption

/-!
# The lines of a disassembly

Every line that a disassembly prints holds one statement.  The statements of some
blocks are listed here in the order of the lines, with the names that stand for
addresses.
-/

namespace Asm6502

open Lexeme (begins isWordPart isWord)

/-!
## Names of labels
-/

theorem Operation.ofName?_eq_none {written : String}
    (hm : ∀ m ∈ Mnemonic.all, m.name ≠ written)
    (hs : ∀ s ∈ Shorthand.all, s.name ≠ written) : ofName? written = none := by
  have hmnemonic : Mnemonic.ofName? written = none := by
    rw [Mnemonic.ofName?, List.find?_eq_none]
    simpa using hm
  have hshorthand : Shorthand.ofName? written = none := by
    rw [Shorthand.ofName?, List.find?_eq_none]
    simpa using hs
  simp [ofName?, hmnemonic, hshorthand]

namespace Text

theorem isName_of_initial {c : Char} {rest : Text} (hword : isWord (c :: rest) = true)
    (hlong : 3 ≤ rest.length)
    (hs : ∀ s ∈ Shorthand.all, s.name.toList.head? ≠ some c.toUpper)
    (hr : ∀ r ∈ Register.all, r.name.toList.head? ≠ some c.toUpper) :
    IsName (c :: rest) := by
  have hhead : (String.ofList (upper (c :: rest))).toList.head? =
      some c.toUpper := by
    rw [String.toList_ofList]
    rfl
  have hoperation : Operation.ofName? (String.ofList (upper (c :: rest))) = none := by
    apply Operation.ofName?_eq_none
    · intro m hm hname
      have hthree : ∀ m ∈ Mnemonic.all, m.name.toList.length = 3 := by
        decide +kernel
      have hlength := hthree m hm
      rw [hname, String.toList_ofList, upper, List.length_map,
        List.length_cons] at hlength
      omega
    · intro s hmem hname
      apply hs s hmem
      rw [hname, hhead]
  refine ⟨hword, ?_, ?_⟩
  · simp [Lexeme.wordKind, hoperation]
  · rw [Register.ofName?, List.find?_eq_none]
    intro r hmem hname
    apply hr r hmem
    rw [eq_of_beq hname, hhead]

theorem rel_more {α : Type} {r : Text -> α -> Prop} {done more : List Text}
    {before later : List α} (hdone : List.Forall₂ r done.reverse before)
    (hmore : List.Forall₂ r more later) :
    List.Forall₂ r (more.reverse ++ done).reverse (before ++ later) := by
  rw [List.reverse_append, List.reverse_reverse]
  exact List.rel_append hdone hmore

end Text

theorem Block.isName_labelName (n : Nat) : (labelName (n : Int)).IsName := by
  have hdigits : ∀ c ∈ Text.hex 4 (n : Int), isWordPart c = true := by
    intro c hc
    rcases Text.mem_hex hc with ⟨d, hd, rfl⟩
    exact Lexeme.isWordPart_digitChar hd
  have hlength : 4 ≤ (Text.hex 4 (n : Int)).length := by
    rw [Text.hex_natCast, List.length_leftpad]
    omega
  apply Text.isName_of_initial
  · rw [isWord, Bool.and_eq_true, List.all_eq_true]
    exact ⟨rfl, hdigits⟩
  · omega
  · decide
  · decide

namespace Data

def stringName (number : Int) : Text :=
  "string".toList ++ Text.decimal number

theorem isName_string : Text.IsName "string".toList := by
  apply Text.isName_of_initial <;> decide

theorem isName_stringName (n : Nat) : (stringName (n : Int)).IsName := by
  have hdigits : ∀ c ∈ Text.decimal (n : Int), isWordPart c = true := by
    intro c hc
    rcases Text.mem_decimal hc with ⟨d, hd, rfl⟩
    exact Lexeme.isWordPart_digitChar hd
  show Text.IsName ('s' :: ("tring".toList ++ Text.decimal (n : Int)))
  apply Text.isName_of_initial
  · rw [isWord, Bool.and_eq_true, List.all_eq_true]
    refine ⟨rfl, ?_⟩
    intro c hc
    rcases List.mem_append.mp hc with hletter | hdigit
    · have hletters : "tring".toList.all isWordPart = true := by decide
      exact List.all_eq_true.mp hletters c hletter
    · exact hdigits c hdigit
  · rw [List.length_append]
    have hfive : "tring".toList.length = 5 := rfl
    omega
  · decide
  · decide

/-!
## Data
-/

def charOf (b : UInt8) : Char :=
  Char.ofNat b.toNat

theorem spells_stringChar {b : UInt8} (h : isPrintableByte b = true) :
    Lexeme.Spells (stringChar b) [charOf b] := by
  have hnat : ∀ n < 256, 32 ≤ n -> Char.ofNat n ≠ '\n' := by decide +kernel
  have hline : charOf b ≠ '\n' := by
    simp only [isPrintableByte, Bool.and_eq_true, decide_eq_true_eq] at h
    exact hnat b.toNat b.toNat_lt h.1
  unfold stringChar
  dsimp only
  split
  · rename_i hspecial
    rw [Bool.or_eq_true, decide_eq_true_eq, decide_eq_true_eq] at hspecial
    refine Lexeme.Spells.escape ?_ hline
    rcases hspecial with hquote | hbackslash
    · rw [charOf, hquote]
      rfl
    · rw [charOf, hbackslash]
      rfl
  · rename_i hspecial
    rw [Bool.or_eq_true, decide_eq_true_eq, decide_eq_true_eq, not_or] at hspecial
    exact Lexeme.Spells.plain hspecial.1 hspecial.2 hline

theorem written_hexByte (b : UInt8) :
    (Operand.Form.plain (.number b.toNat)).Written (Decoded.hexByte b.toNat) := by
  apply Operand.Form.written_plain
  apply Value.written_hex
  have hlt := b.toNat_lt
  omega

def byteForms (row : List UInt8) : List Operand.Form :=
  row.map fun b => .plain (.number b.toNat)

theorem written_byteForms {row : List UInt8} (hne : row ≠ []) :
    Argument.Written (byteForms row)
      ([','].intercalate (row.map fun b => Decoded.hexByte b.toNat)) := by
  induction row with
  | nil => exact absurd rfl hne
  | cons b rest ih =>
      cases rest with
      | nil =>
          have hlast := Argument.written_single (written_hexByte b)
          simpa [byteForms, List.intercalate] using hlast
      | cons b' more =>
          have hmore := Argument.written_cons (written_hexByte b) (ih (by simp))
          simpa [byteForms, List.intercalate] using hmore

def byteContent (row : List UInt8) : Statement.Content :=
  .directive "byte".toList (byteForms row)

theorem says_byteLine (address : Int) {row : List UInt8} (hne : row ≠ []) :
    Text.Says (byteLine .source address row) (byteContent row) := by
  have hword : isWord "byte".toList = true := by decide
  exact Text.says_directive hword (written_byteForms hne) 4

theorem says_quoted {name : Text} (hname : isWord name = true)
    {contents : List UInt8} (h : ∀ b ∈ contents, isPrintableByte b = true) :
    Text.Says (indent ++ '.' :: name ++ [' ', '"'] ++
        contents.flatMap stringChar ++ ['"'])
      (.directive name.lower [.string (contents.map charOf)]) := by
  have hcontents := Lexeme.Spells.flatMap fun b hb => spells_stringChar (h b hb)
  have hargument :=
    Argument.written_single (Operand.Form.written_string hcontents)
  have hsays := Text.says_directive hname hargument 4
  simpa [indent, List.replicate_succ] using hsays

def stringContent (contents : List UInt8) (terminated : Bool) : Statement.Content :=
  .directive (if terminated then "asciiz".toList else "text".toList)
    [.string (contents.map charOf)]

theorem says_stringLine {contents : List UInt8} (terminated : Bool)
    (h : ∀ b ∈ contents, isPrintableByte b = true) :
    Text.Says (stringLine contents terminated) (stringContent contents terminated) := by
  cases terminated with
  | true => exact says_quoted (by decide) h
  | false => exact says_quoted (by decide) h

/-- The sign of a number is no part of a name, so the line of a string whose number
is below zero is no label. -/
theorem tells_stringName (number : Int) :
    Text.Tells (stringName number ++ [':'])
      (if 0 ≤ number then some (.label (stringName number)) else none) := by
  by_cases hsign : 0 ≤ number
  · rw [if_pos hsign]
    rcases Int.eq_ofNat_of_zero_le hsign with ⟨n, rfl⟩
    exact Text.says_label (isName_stringName n)
  · rcases Text.decimal_of_neg (Int.not_le.mp hsign) with ⟨d, digits, hdecimal, hdigits⟩
    have hline : stringName number ++ [':'] =
        "string".toList ++ (Text.decimal number ++ [':']) := List.append_assoc ..
    rw [if_neg hsign, hline, hdecimal]
    exact Text.tells_none isName_string (hdigits d (List.mem_cons_self ..))
      fun c hc => hdigits c (List.mem_cons_of_mem _ hc)

/-- What the lines of a segment tell. -/
def Segment.told (number : Int) : Segment -> List (Option Statement.Content)
  | string contents terminated =>
      [if 0 ≤ number then some (.label (stringName number)) else none,
        some (stringContent contents terminated)]
  | bytes contents => (rows contents).map fun row => some (byteContent row)

def told (number : Int) : List Segment -> List (Option Statement.Content)
  | [] => []
  | s :: rest =>
      s.told number ++ told (if s.isString then wrap64 (number + 1) else number) rest

theorem tells_rows (address : Int) {table : List (List UInt8)}
    (h : ∀ row ∈ table, row ≠ []) (start : Nat) :
    List.Forall₂ Text.Tells
      ((table.zipIdx start).map fun (row, i) =>
        byteLine .source (wrap64 (address + 16 * i)) row)
      (table.map fun row => some (byteContent row)) := by
  induction table generalizing start with
  | nil => exact .nil
  | cons row rest ih =>
      refine .cons (says_byteLine _ (h row (List.mem_cons_self ..))) ?_
      exact ih (fun row hrow => h row (List.mem_cons_of_mem _ hrow)) (start + 1)

theorem Segment.tells_lines {s : Segment} (h : s.Sound) (address number : Int) :
    List.Forall₂ Text.Tells (s.lines .source address number) (s.told number) := by
  cases s with
  | string contents terminated =>
      exact .cons (tells_stringName number) (.cons (says_stringLine terminated h) .nil)
  | bytes contents => exact tells_rows address (fun row => ne_nil_of_mem_rows) 0

theorem tells_linesOnto {segments : List Segment} (h : ∀ s ∈ segments, s.Sound)
    {done : List Text} {before : List (Option Statement.Content)}
    (hdone : List.Forall₂ Text.Tells done.reverse before) (address number : Int) :
    List.Forall₂ Text.Tells (linesOnto .source done address number segments)
      (before ++ told number segments) := by
  induction segments generalizing done before address number with
  | nil =>
      rw [told, List.append_nil]
      exact hdone
  | cons s rest ih =>
      have hfirst := Segment.tells_lines (h s (List.mem_cons_self ..)) address number
      rw [linesOnto, told, ← List.append_assoc]
      exact ih (fun s hs => h s (List.mem_cons_of_mem _ hs))
        (Text.rel_more hdone hfirst) _ _

/-- The lines of some data tell what its segments do. -/
theorem tells_lines (address number : Int) (data : List UInt8) :
    List.Forall₂ Text.Tells (lines .source address number data)
      (told number (segments data)) :=
  @tells_linesOnto (segments data) (fun _ => sound_segments) [] [] .nil address number

/-!
### Statements
-/

def numberLimit : Nat := 0x8000000000000000

def Segment.contents (number : Nat) : Segment -> List Statement.Content
  | string contents terminated =>
      (if number < numberLimit then [.label (stringName number)] else []) ++
        [stringContent contents terminated]
  | bytes contents => (rows contents).map byteContent

def contents (number : Nat) : List Segment -> List Statement.Content
  | [] => []
  | s :: rest =>
      s.contents number ++ contents (if s.isString then number + 1 else number) rest

theorem wrap64_number {number : Nat} (h : number < numberLimit) :
    wrap64 number = number :=
  wrap64_of_signed64 ⟨by omega, by simp only [numberLimit] at h; omega⟩

theorem wrap64_number_neg {number : Nat} (hlow : numberLimit ≤ number)
    (hhigh : number < 2 * numberLimit) : ¬0 ≤ wrap64 number := by
  simp only [numberLimit] at hlow hhigh
  rw [wrap64_of_le (by omega) (by omega)]
  omega

theorem Segment.reduceOption_told {s : Segment} {number : Nat}
    (h : s.isString = true -> number < 2 * numberLimit) :
    (s.told (wrap64 number)).reduceOption = s.contents number := by
  cases s with
  | string contents terminated =>
      rw [told, Segment.contents]
      by_cases hlimit : number < numberLimit
      · rw [wrap64_number hlimit, if_pos (Int.natCast_nonneg number), if_pos hlimit]
        rfl
      · rw [if_neg (wrap64_number_neg (Nat.le_of_not_lt hlimit) (h rfl)), if_neg hlimit]
        rfl
  | bytes contents =>
      simp [told, Segment.contents, List.reduceOption, List.filterMap_map]

theorem Segment.told_eq {s : Segment} {number : Nat}
    (h : s.isString = true -> number < numberLimit) :
    s.told number = (s.contents number).map some := by
  cases s with
  | string contents terminated =>
      rw [told, Segment.contents, if_pos (Int.natCast_nonneg number), if_pos (h rfl)]
      rfl
  | bytes contents => exact (List.map_map ..).symm

theorem reduceOption_told {number : Nat} {segments : List Segment}
    (h : number + segments.countP Segment.isString < 2 * numberLimit) :
    (told (wrap64 number) segments).reduceOption = contents number segments := by
  induction segments generalizing number with
  | nil => rfl
  | cons s rest ih =>
      rw [List.countP_cons] at h
      rw [told, contents, List.reduceOption_append, Segment.reduceOption_told (by omega)]
      cases hs : s.isString with
      | true =>
          rw [hs, if_pos rfl] at h
          rw [if_pos rfl, if_pos rfl, wrap64_add_left, ← ih (by omega)]
          rfl
      | false =>
          rw [if_neg Bool.false_ne_true, if_neg Bool.false_ne_true, ih (by omega)]

theorem Segment.countP_told {s : Segment} {number : Nat}
    (h : s.isString = true -> number < 2 * numberLimit) :
    (s.told (wrap64 number)).countP Option.isNone =
      if s.isString && numberLimit ≤ number then 1 else 0 := by
  cases s with
  | string contents terminated =>
      rw [told, Segment.isString, Bool.true_and]
      by_cases hlimit : number < numberLimit
      · rw [wrap64_number hlimit, if_pos (Int.natCast_nonneg number),
          if_neg (by simpa using hlimit)]
        rfl
      · rw [if_neg (wrap64_number_neg (Nat.le_of_not_lt hlimit) (h rfl)),
          if_pos (by simpa using hlimit)]
        rfl
  | bytes contents => simp [told, Segment.isString, List.countP_map]

theorem countP_told {number : Nat} {segments : List Segment}
    (h : number + segments.countP Segment.isString < 2 * numberLimit) :
    (told (wrap64 number) segments).countP Option.isNone =
      number + segments.countP Segment.isString - max number numberLimit := by
  induction segments generalizing number with
  | nil =>
      rw [told, List.countP_nil, List.countP_nil]
      omega
  | cons s rest ih =>
      rw [List.countP_cons] at h
      rw [told, List.countP_append, Segment.countP_told (by omega), List.countP_cons]
      cases hs : s.isString with
      | true =>
          rw [hs, if_pos rfl] at h
          have hnext : wrap64 (wrap64 number + 1) = wrap64 (number + 1 : Nat) :=
            wrap64_add_left number 1
          rw [if_pos rfl, if_pos rfl, hnext, ih (by omega), Bool.true_and]
          simp only [decide_eq_true_eq]
          split <;> omega
      | false =>
          rw [if_neg Bool.false_ne_true, if_neg Bool.false_ne_true, ih (by omega),
            Bool.false_and, if_neg Bool.false_ne_true]
          omega

theorem told_eq {number : Nat} {segments : List Segment}
    (h : number + segments.countP Segment.isString < numberLimit) :
    told number segments = (contents number segments).map some := by
  induction segments generalizing number with
  | nil => rfl
  | cons s rest ih =>
      rw [List.countP_cons] at h
      rw [told, contents, List.map_append, Segment.told_eq (by omega)]
      cases hs : s.isString with
      | true =>
          rw [hs, if_pos rfl] at h
          have hlimit : number + 1 < numberLimit := by omega
          have hnext : wrap64 (number + 1) = (number + 1 : Nat) := wrap64_number hlimit
          rw [if_pos rfl, if_pos rfl, hnext, ih (by omega)]
      | false =>
          rw [if_neg Bool.false_ne_true, if_neg Bool.false_ne_true, ih (by omega)]

theorem says_lines (address : Int) {number : Nat} {data : List UInt8}
    (h : number + data.length < numberLimit) :
    List.Forall₂ Text.Says (lines .source address number data)
      (contents number (segments data)) := by
  have hcount := stringCount_le data
  have htells := tells_lines address number data
  rw [told_eq (Nat.lt_of_le_of_lt (Nat.add_le_add_left hcount number) h),
    List.forall₂_map_right_iff] at htells
  exact htells

end Data

/-!
## Instructions
-/

namespace Decoded

def forms (target : Option Text) (d : Decoded) : List Operand.Form :=
  let n : Value := .number d.operand
  match d.mode with
  | .implied => []
  | .accumulator => [.register .a]
  | .immediate => [.immediate n]
  | .zeroPage => [.plain n]
  | .zeroPageX | .absoluteX => [.plain n, .register .x]
  | .zeroPageY | .absoluteY => [.plain n, .register .y]
  | .absolute | .relative => [.plain (target.elim n .name)]
  | .indirect => [.indirect n false]
  | .indexedIndirect => [.indirect n true]
  | .indirectIndexed => [.indirect n false, .register .y]

theorem written_forms {d : Decoded} (hmode : d.mode ≠ .implied) {n : Nat}
    (hn : n ≤ 0xFFFF) (hoperand : d.operand = n) {target : Option Text}
    (htarget : ∀ name ∈ target, Text.IsName name) :
    Operand.Written (d.forms target) (d.operandText target) := by
  have hvalue : ∀ width, (Value.number d.operand).Written
      ('$' :: Text.hex width d.operand) := by
    intro width
    rw [hoperand]
    exact Value.written_hex hn
  have haddress : (target.elim (Value.number d.operand) Value.name).Written
      (target.getD (hexWord d.operand)) := by
    cases target with
    | none => exact hvalue 4
    | some name => exact Value.written_name (htarget name rfl)
  have hx : (Operand.Form.register .x).Written ['x'] :=
    Operand.Form.written_register rfl (by decide +kernel) rfl
  have hy : (Operand.Form.register .y).Written ['y'] :=
    Operand.Form.written_register rfl (by decide +kernel) rfl
  have ha : (Operand.Form.register .a).Written ['a'] :=
    Operand.Form.written_register rfl (by decide +kernel) rfl
  unfold forms operandText
  cases hm : d.mode with
  | implied => exact absurd hm hmode
  | accumulator => exact Operand.written_single ha
  | immediate =>
      exact Operand.written_single (Operand.Form.written_immediate (hvalue 2))
  | zeroPage => exact Operand.written_single (Operand.Form.written_plain (hvalue 2))
  | zeroPageX => exact Operand.written_pair (Operand.Form.written_plain (hvalue 2)) hx
  | zeroPageY => exact Operand.written_pair (Operand.Form.written_plain (hvalue 2)) hy
  | absolute => exact Operand.written_single (Operand.Form.written_plain haddress)
  | relative => exact Operand.written_single (Operand.Form.written_plain haddress)
  | absoluteX => exact Operand.written_pair (Operand.Form.written_plain (hvalue 4)) hx
  | absoluteY => exact Operand.written_pair (Operand.Form.written_plain (hvalue 4)) hy
  | indirect =>
      exact Operand.written_single (Operand.Form.written_indirect (hvalue 4))
  | indexedIndirect =>
      exact Operand.written_single (Operand.Form.written_indexedIndirect (hvalue 2))
  | indirectIndexed =>
      have hpair := Operand.written_pair
        (Operand.Form.written_indirect (hvalue 2)) hy
      simpa [hexByte] using hpair

theorem name_kind (d : Decoded) :
    isWord d.name = true ∧ d.name.length = 3 ∧
      Lexeme.wordKind d.name = .mnemonic (.cpu d.mnemonic) := by
  have hall : ∀ m ∈ Mnemonic.all,
      isWord (Text.lower m.name.toList) = true ∧
        (Text.lower m.name.toList).length = 3 ∧
        Lexeme.wordKind (Text.lower m.name.toList) = .mnemonic (.cpu m) := by
    decide +kernel
  exact hall d.mnemonic (Mnemonic.mem_all d.mnemonic)

theorem operandText_of_implied {d : Decoded} (h : d.mode = .implied)
    (target : Option Text) : d.operandText target = [] := by
  simp [operandText, h]

/-- Mnemonics have three letters, so two blanks follow. -/
theorem line_of_operand {d : Decoded} {target : Option Text}
    (h : d.operandText target ≠ []) :
    d.line 4 target = d.name ++
      (List.replicate (1 + 1) ' ' ++ d.operandText target) := by
  simp [line, h, Text.padRight, d.name_kind.2.1, List.replicate_succ]

theorem says_line {d : Decoded} {n : Nat} (hn : n ≤ 0xFFFF)
    (hoperand : d.operand = n) {target : Option Text}
    (htarget : ∀ name ∈ target, Text.IsName name) :
    Text.Says (Data.indent ++ d.line 4 target)
      (.instruction (.cpu d.mnemonic) (d.forms target)) := by
  rcases d.name_kind with ⟨hword, _, hkind⟩
  by_cases hmode : d.mode = .implied
  · have hforms : d.forms target = [] := by simp [forms, hmode]
    rw [hforms, line, operandText_of_implied hmode]
    exact (Statement.Content.written_implied hword hkind 4).toSays
  · have hwritten := written_forms hmode hn hoperand htarget
    rw [line_of_operand hwritten.ne_nil]
    exact (Statement.Content.written_instruction hword hkind hwritten 4 1).toSays

def target (labels : Std.TreeSet Int compare) (d : Decoded) : Option Text :=
  if d.isFlow && labels.contains d.operand then some (Block.labelName d.operand)
  else none

theorem isName_target (labels : Std.TreeSet Int compare) {d : Decoded}
    (h : d.Faithful) : ∀ name ∈ d.target labels, Text.IsName name := by
  rcases h.operand_nat with ⟨n, _, hoperand⟩
  intro name hname
  unfold target at hname
  split at hname
  · cases hname
    rw [hoperand]
    exact Block.isName_labelName n
  · cases hname

def contents (labels : Std.TreeSet Int compare) (d : Decoded) :
    List Statement.Content :=
  (if labels.contains d.address then [.label (Block.labelName d.address)] else []) ++
    [.instruction (.cpu d.mnemonic) (d.forms (d.target labels))]

theorem says_instructionLines {labels : Std.TreeSet Int compare}
    (hlabels : ∀ x ∈ labels, 0 ≤ x) {d : Decoded} (h : d.Faithful) :
    List.Forall₂ Text.Says (Disassembly.instructionLines .source labels d)
      (d.contents labels) := by
  rcases h.operand_nat with ⟨n, hn, hoperand⟩
  have hline := says_line hn hoperand (isName_target labels h)
  unfold Disassembly.instructionLines contents
  apply List.rel_append
  · split
    · rename_i hlabel
      rcases Int.eq_ofNat_of_zero_le
        (hlabels _ (Std.TreeSet.mem_iff_contains.mpr hlabel)) with ⟨a, ha⟩
      rw [ha]
      exact .cons (Text.says_label (Block.isName_labelName a)) .nil
    · exact .nil
  · exact .cons hline .nil

end Decoded

/-!
## Blocks
-/

namespace Disassembly

def contents (labels : Std.TreeSet Int compare) (number : Nat) :
    List Block -> List Statement.Content
  | [] => []
  | .code d :: rest => d.contents labels ++ contents labels number rest
  | .data _ bytes :: rest =>
      Data.contents number (Data.segments bytes) ++
        contents labels (number + Data.stringCount bytes) rest

theorem says_linesOnto {labels : Std.TreeSet Int compare} (hlabels : ∀ x ∈ labels, 0 ≤ x)
    {address : Int} {blocks : List Block} {code : List UInt8}
    (h : Block.Covers address blocks code) {done : List Text}
    {before : List Statement.Content} (hdone : List.Forall₂ Text.Says done.reverse before)
    {number : Nat} (hnumber : number + code.length < Data.numberLimit) :
    List.Forall₂ Text.Says (linesOnto .source labels done number blocks)
      (before ++ contents labels number blocks) := by
  induction h generalizing done before number with
  | nil address =>
      rw [contents, List.append_nil]
      exact hdone
  | @code address d rest more hfaithful _ _ ih =>
      have hfirst := Decoded.says_instructionLines hlabels hfaithful
      rw [List.length_append] at hnumber
      rw [linesOnto, contents, ← List.append_assoc]
      exact ih (Text.rel_more hdone hfirst) (by omega)
  | @data address bytes rest more _ _ ih =>
      have hcount := Data.stringCount_le bytes
      rw [List.length_append] at hnumber
      have hfirst : List.Forall₂ Text.Says (Data.lines .source address number bytes)
          (Data.contents number (Data.segments bytes)) := Data.says_lines address (by omega)
      have hlimit : number + Data.stringCount bytes < Data.numberLimit := by omega
      have hnext : wrap64 (number + Data.stringCount bytes) =
          (number + Data.stringCount bytes : Nat) := Data.wrap64_number hlimit
      rw [linesOnto, contents, ← List.append_assoc, hnext]
      exact ih (Text.rel_more hdone hfirst) (by omega)

theorem says_org {origin : Nat} (h : origin ≤ 0xFFFF) :
    Text.Says (Data.indent ++ ".org ".toList ++ Decoded.hexWord origin)
      (.directive "org".toList [.plain (.number origin)]) := by
  have hword : isWord "org".toList = true := by decide
  have hvalue : (Value.number origin).Written (Decoded.hexWord origin) :=
    Value.written_hex h
  exact Text.says_directive hword
    (Argument.written_single (Operand.Form.written_plain hvalue)) 4

def program (origin : Int) (code : List UInt8) : List Statement.Content :=
  let blocks := Block.sweep origin code
  (if origin = 0 then []
    else [.directive "org".toList [.plain (.number origin)]]) ++
    contents (Block.labels blocks) 1 blocks

theorem says_lines {origin : Nat} {code : List UInt8} (hne : code ≠ [])
    (h : origin + code.length ≤ 0x10000) :
    List.Forall₂ Text.Says (lines .source origin code) (program origin code) := by
  have hpos := List.length_pos_iff.mpr hne
  have hcovers : Block.Covers origin (Block.sweep origin code) code :=
    Block.covers_sweep ⟨by omega, by omega⟩ ⟨by omega, by omega⟩
  unfold lines program
  apply List.rel_append
  · split
    · exact .nil
    · exact .cons (says_org (by omega)) .nil
  · have hnumber : 1 + code.length < Data.numberLimit := by
      rw [Data.numberLimit]
      omega
    exact @says_linesOnto _ (fun _ => Block.nonneg_of_mem_labels) _ _ _ hcovers [] [] .nil
      1 hnumber

end Disassembly
end Asm6502

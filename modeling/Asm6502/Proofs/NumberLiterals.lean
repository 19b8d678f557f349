import Asm6502.Proofs.LetterCase
import Asm6502.Proofs.SourceSpans
import Mathlib.Data.Nat.Digits.Defs

/-!
# The values of number literals

A literal means what its characters say: a sign, digits in the base of a mark, or one
character in quotes.  The scanner writes the mark anew and the reader of literals takes
the text of the token apart once more, with marks that overlap the digits.  The main
result says that nothing changes on the way.  A literal of any length is read as its
value, unless its magnitude does not fit into 64 bits with a sign, and the grammar takes
the token if and only if the value is one that a source may write.
-/

namespace Asm6502

open Lexeme (Piece)

/-!
## Digits
-/

def digitValue (c : Char) : Nat :=
  "0123456789abcdef".toList.idxOf c.toLower

theorem digit?_of_isHexDigit {c : Char} (h : Lexeme.isHexDigit c = true) :
    Numeral.digit? c = some (digitValue c) ∧ digitValue c < 16 ∧
      (c.isDigit = true -> digitValue c < 10) ∧
      (Lexeme.isBinaryDigit c = true -> digitValue c < 2) := by
  have hall : ∀ n < 128, Lexeme.isHexDigit (Char.ofNat n) = true ->
      Numeral.digit? (Char.ofNat n) = some (digitValue (Char.ofNat n)) ∧
        digitValue (Char.ofNat n) < 16 ∧
        ((Char.ofNat n).isDigit = true -> digitValue (Char.ofNat n) < 10) ∧
        (Lexeme.isBinaryDigit (Char.ofNat n) = true -> digitValue (Char.ofNat n) < 2) := by
    decide +kernel
  have hascii : c.toNat < 128 := by
    have hrange := h
    simp only [Lexeme.isHexDigit, Char.isDigit, Bool.or_eq_true, Bool.and_eq_true,
      decide_eq_true_eq] at hrange
    rcases hrange with (hdigit | hsmall) | hcapital
    · exact Nat.lt_of_le_of_lt hdigit.2 (by decide)
    · exact Nat.lt_of_le_of_lt hsmall.2 (by decide)
    · exact Nat.lt_of_le_of_lt hcapital.2 (by decide)
  have hc := hall c.toNat hascii
  rw [Char.ofNat_toNat] at hc
  exact hc h

namespace Lexeme.Mark

theorem digit?_of_isDigit {mark : Mark} {c : Char} (h : mark.isDigit c = true) :
    Numeral.digit? c = some (digitValue c) ∧ digitValue c < mark.base := by
  have hhex : isHexDigit c = true := by
    cases mark with
    | decimal =>
        have hdecimal : c.isDigit = true := h
        simp [isHexDigit, hdecimal]
    | dollar | hex => exact h
    | percent | binary =>
        have hbit : c = '0' ∨ c = '1' := by simpa [Mark.isDigit, isBinaryDigit] using h
        rcases hbit with rfl | rfl
        · rfl
        · rfl
  rcases digit?_of_isHexDigit hhex with ⟨hdigit, hsixteen, hten, htwo⟩
  refine ⟨hdigit, ?_⟩
  cases mark with
  | decimal => exact hten h
  | dollar | hex => exact hsixteen
  | percent | binary => exact htwo h

theorem base_pos (mark : Mark) : 0 < mark.base := by
  cases mark with
  | decimal | dollar | percent | hex | binary => exact Nat.zero_lt_succ _

end Lexeme.Mark

namespace Numeral

def valueOf (base : Nat) (digits : Text) : Nat :=
  Nat.ofDigits base (digits.reverse.map digitValue)

theorem valueOf_cons (base : Nat) (c : Char) (rest : Text) :
    valueOf base (c :: rest) = digitValue c * base ^ rest.length + valueOf base rest := by
  rw [valueOf, List.reverse_cons, List.map_append, List.map_singleton, Nat.ofDigits_append,
    Nat.ofDigits_singleton, List.length_map, List.length_reverse, Nat.mul_comm, Nat.add_comm]
  rfl

/-- Digits are read as the number that they make in their base, after those already
read, as far as the limit allows. -/
theorem magnitude_eq {base limit read : Nat} (hbase : 0 < base) (hread : read ≤ limit)
    {digits : Text} (h : ∀ c ∈ digits, digit? c = some (digitValue c) ∧ digitValue c < base) :
    magnitude base limit read digits =
      if read * base ^ digits.length + valueOf base digits ≤ limit
      then .ok (read * base ^ digits.length + valueOf base digits)
      else .error .tooLarge := by
  induction digits generalizing read with
  | nil =>
      have hvalue : read * base ^ List.length ([] : Text) + valueOf base [] = read := by
        simp [valueOf]
      rw [hvalue, if_pos hread]
      rfl
  | cons c rest ih =>
      rcases h c (List.mem_cons_self ..) with ⟨hdigit, hlt⟩
      have htotal : read * base ^ (c :: rest).length + valueOf base (c :: rest) =
          (read * base + digitValue c) * base ^ rest.length + valueOf base rest := by
        rw [valueOf_cons, List.length_cons, Nat.pow_succ]
        ring
      simp only [htotal, magnitude, hdigit]
      rw [if_neg (Nat.not_le.mpr hlt)]
      split
      next hlarge =>
        -- what is read so far never gets less
        have hpos : 0 < base ^ rest.length := Nat.pow_pos hbase
        have hle := Nat.le_mul_of_pos_right (read * base + digitValue c) hpos
        rw [if_neg (by omega)]
      next hsmall =>
        exact ih (Nat.not_lt.mp hsmall) fun x hx => h x (List.mem_cons_of_mem _ hx)

theorem splitSign_of_digits {t : Text} (h : ∀ c ∈ t, digit? c = some (digitValue c)) :
    splitSign t = (false, t) := by
  unfold splitSign
  split
  · cases h '-' (List.mem_cons_self ..)
  · cases h '+' (List.mem_cons_self ..)
  · rfl

theorem readInt_eq {base : Nat} (hbase : 0 < base) {digits : Text} (hne : digits ≠ [])
    (h : ∀ c ∈ digits, digit? c = some (digitValue c) ∧ digitValue c < base) :
    readInt base 64 digits =
      if valueOf base digits < 2 ^ 63 then .ok (valueOf base digits : Int)
      else .error .tooLarge := by
  have hmagnitude := magnitude_eq hbase (Nat.zero_le (2 ^ 64 - 1)) h
  rw [Nat.zero_mul, Nat.zero_add] at hmagnitude
  have hsign := splitSign_of_digits fun c hc => (h c hc).1
  have hread : readInt base 64 digits =
      magnitude base (2 ^ 64 - 1) 0 digits >>= bounded 64 false := by
    simp [readInt, hsign, hne]
  rw [hread, hmagnitude]
  by_cases hfits : valueOf base digits < 2 ^ 63
  · rw [if_pos hfits, if_pos (by omega)]
    exact if_pos hfits
  · rw [if_neg hfits]
    split
    · exact if_neg hfits
    · rfl

end Numeral

/-!
## Literals
-/

namespace Lexeme.Number

def magnitude (n : Number) : Nat :=
  Numeral.valueOf n.mark.base n.digits

def value (n : Number) : Int :=
  if n.negative then -(n.magnitude : Int) else n.magnitude

theorem natAbs_value (n : Number) : n.value.natAbs = n.magnitude := by
  unfold value
  split
  · rw [Int.natAbs_neg, Int.natAbs_natCast]
  · exact Int.natAbs_natCast _

end Lexeme.Number

namespace Literal

open Lexeme (Number)

/-- The reader of literals finds the mark and the digits of the scanner. -/
theorem splitBase_shown (n : Number) :
    splitBase (n.mark.shown ++ n.digits) = (n.mark.base, n.digits) := by
  have hfit := n.digits_fit
  cases hmark : n.mark with
  | decimal =>
      rw [hmark] at hfit
      have hno : ∀ {c : Char}, c ∈ n.digits -> c.isDigit = false -> False := by
        intro c hc hnone
        have hdigit : c.isDigit = true := hfit c hc
        rw [hnone] at hdigit
        cases hdigit
      change splitBase n.digits = (10, n.digits)
      -- neither the first character nor the second is one of a mark
      unfold splitBase
      split
      next heq => exact (hno (heq ▸ List.mem_cons_self ..) rfl).elim
      next heq => exact (hno (heq ▸ List.mem_cons_of_mem _ (List.mem_cons_self ..)) rfl).elim
      next heq => exact (hno (heq ▸ List.mem_cons_of_mem _ (List.mem_cons_self ..)) rfl).elim
      next heq => exact (hno (heq ▸ List.mem_cons_self ..) rfl).elim
      next heq => exact (hno (heq ▸ List.mem_cons_of_mem _ (List.mem_cons_self ..)) rfl).elim
      next heq => exact (hno (heq ▸ List.mem_cons_of_mem _ (List.mem_cons_self ..)) rfl).elim
      next => rfl
  | dollar | percent | hex | binary => rfl

theorem unsigned_shown (n : Number) (hne : n.digits ≠ []) :
    unsigned (n.mark.shown ++ n.digits) =
      if n.magnitude < 2 ^ 63 then .ok (n.magnitude : Int) else .error .range := by
  have hread := Numeral.readInt_eq n.mark.base_pos hne
    fun c hc => n.mark.digit?_of_isDigit (n.digits_fit c hc)
  change _ = if n.magnitude < 2 ^ 63 then _ else _ at hread
  by_cases hfits : n.magnitude < 2 ^ 63
  · rw [if_pos hfits] at hread ⊢
    simp only [unsigned, splitBase_shown, hread]
    rfl
  · rw [if_neg hfits] at hread ⊢
    simp only [unsigned, splitBase_shown, hread]

theorem negate_natCast {m : Nat} (h : m < 2 ^ 63) : negate m = -(m : Int) :=
  wrap64_of_signed64 ⟨by omega, by omega⟩

theorem ne_of_mem_shown {n : Number} {c : Char} (h : c ∈ n.mark.shown ++ n.digits) :
    c ≠ '-' ∧ c ≠ '\'' := by
  rcases List.mem_append.mp h with h | h
  · have hall : ∀ mark : Lexeme.Mark, '-' ∉ mark.shown ∧ '\'' ∉ mark.shown := by
      intro mark
      cases mark with
      | decimal | dollar | percent | hex | binary => simp [Lexeme.Mark.shown]
    exact ⟨fun hc => (hall n.mark).1 (hc ▸ h), fun hc => (hall n.mark).2 (hc ▸ h)⟩
  · have hdigit := (n.mark.digit?_of_isDigit (n.digits_fit c h)).1
    constructor
    · rintro rfl
      cases hdigit
    · rintro rfl
      cases hdigit

theorem read_shown (n : Number) (hne : n.digits ≠ []) :
    read n.shown = if 2 ^ 63 - 1 < n.value.natAbs then .error .range else .ok n.value := by
  have hunsigned := unsigned_shown n hne
  rw [n.natAbs_value]
  cases hsign : n.negative with
  | true =>
      have hread : read n.shown = (unsigned (n.mark.shown ++ n.digits)).map negate := by
        rw [Number.shown, hsign, List.append_assoc]
        rfl
      rw [hread, hunsigned]
      by_cases hfits : n.magnitude < 2 ^ 63
      · rw [if_pos hfits, if_neg (by omega), Number.value, hsign, if_pos rfl,
          ← negate_natCast hfits]
        rfl
      · rw [if_neg hfits, if_pos (by omega)]
        rfl
  | false =>
      have hread : read n.shown = unsigned (n.mark.shown ++ n.digits) := by
        rw [Number.shown, hsign, List.append_assoc]
        apply read_eq_unsigned
        · exact fun hquote => (ne_of_mem_shown hquote).2 rfl
        · intro rest heq
          exact (ne_of_mem_shown (heq ▸ List.mem_cons_self ..)).1 rfl
      rw [hread, hunsigned]
      by_cases hfits : n.magnitude < 2 ^ 63
      · rw [if_pos hfits, if_neg (by omega), Number.value, hsign]
        rfl
      · rw [if_neg hfits, if_pos (by omega)]

theorem read_character (c : Char) :
    read ['\'', c, '\''] =
      if 2 ^ 63 - 1 < (c.toNat : Int).natAbs then .error .range else .ok (c.toNat : Int) := by
  have hsmall : c.toNat < 2 ^ 32 := c.val.toNat_lt
  rw [if_neg (by omega)]
  rfl

end Literal

/-!
## Tokens
-/

def Lexeme.Piece.value? : Lexeme.Piece -> Option Int
  | number n => some n.value
  | character c _ => some c.toNat
  | blank _ _ | comment _ _ | word _ _ | directive _ _ | string _ _ | punctuation _ _
  | malformed _ _ _ | unexpected _ => none

theorem Lexeme.Piece.first_of_mem_faults {piece : Piece} {text : Text}
    {f : Text × Diagnostic.LexicalFault} (htoken : piece.token? = some (.number, text))
    (hf : f ∈ piece.faults) : f.1 = [] := by
  cases piece with
  | number n =>
      rw [faults] at hf
      split at hf
      · cases List.mem_singleton.mp hf
        rfl
      · cases hf
  | word | character => cases hf
  | blank | comment | directive | string | punctuation | malformed | unexpected => cases htoken

theorem Lexeme.Piece.read_of_number {piece : Piece} {text : Text}
    (htoken : piece.token? = some (.number, text)) (hfaults : piece.faults = []) :
    ∃ value, piece.value? = some value ∧ Literal.read text =
      if 2 ^ 63 - 1 < value.natAbs then .error .range else .ok value := by
  cases piece with
  | number n =>
      cases htoken
      refine ⟨n.value, rfl, Literal.read_shown n ?_⟩
      intro hnone
      rw [faults, hnone] at hfaults
      cases hfaults
  | character c h =>
      cases htoken
      exact ⟨c.toNat, rfl, Literal.read_character c⟩
  | word word h =>
      have hkind : wordKind word = .number := congrArg Prod.fst (Option.some.inj htoken)
      rcases wordKind_eq_or word with hname | ⟨operation, hoperation⟩
      · cases hname.symm.trans hkind
      · cases hoperation.symm.trans hkind
  | blank | comment | directive | string | punctuation | malformed | unexpected => cases htoken

/-- The grammar takes a literal if its value is one that a source may write. -/
theorem Grammar.atom_of_read {token : Token} {value : Int} (hkind : token.kind = .number)
    (h : Literal.read token.text =
      if 2 ^ 63 - 1 < value.natAbs then .error .range else .ok value) :
    atom token =
      if -128 ≤ value ∧ value ≤ 0xFFFF then .ok (.value (.number value))
      else .error ⟨.range (.literal token.text), token.position⟩ := by
  rw [atom, hkind]
  simp only [number, h]
  by_cases hlarge : 2 ^ 63 - 1 < value.natAbs
  · -- a magnitude of that size is out of the range of a source as well
    rw [if_pos hlarge, if_neg (by omega)]
    rfl
  · rw [if_neg hlarge]
    by_cases hrange : -128 ≤ value ∧ value ≤ 0xFFFF
    · have hinside : ¬(decide (value < -128) || decide (0xFFFF < value)) = true := by
        simp only [Bool.or_eq_true, decide_eq_true_eq]
        omega
      rw [if_pos hrange]
      simp only [if_neg hinside]
      rfl
    · have houtside : (decide (value < -128) || decide (0xFFFF < value)) = true := by
        simp only [Bool.or_eq_true, decide_eq_true_eq]
        omega
      rw [if_neg hrange]
      simp only [if_pos houtside]
      rfl

/-- The token of the lexeme is that of a piece of the text, which begins at the position,
and the diagnostics of the piece are among those of the lexeme. -/
def Lexeme.IsOfPiece (x : Lexeme) (p : Position) (t : Text) : Prop :=
  ∃ before piece rest, t = before ++ (Piece.written piece ++ rest) ∧ piece.Ends rest ∧
    piece.token? = some (x.token.kind, x.token.text) ∧ x.token.position = p.after before ∧
    ∀ f ∈ piece.faults, Piece.diagnose (p.after before) f ∈ x.faults

theorem Lexeme.IsOfPiece.later {x : Lexeme} {p : Position} {s t : Text}
    (h : x.IsOfPiece (p.after s) t) : x.IsOfPiece p (s ++ t) := by
  rcases h with ⟨before, piece, rest, rfl, hpiece⟩
  refine ⟨s ++ before, piece, rest, ?_, ?_⟩
  · rw [List.append_assoc]
  · rw [Position.after_append]
    exact hpiece

theorem Scan.isOfPiece_onto {done : List Lexeme} {faults : List Diagnostic} {p : Position}
    {t : Text} {x : Lexeme} (hx : x ∈ (onto done faults p t).lexemes) :
    x ∈ done ∨ x.IsOfPiece p t := by
  induction p, t using findings.induct generalizing done faults with
  | case1 p =>
      rw [onto] at hx
      exact Or.inl (List.mem_reverse.mp hx)
  | case2 p c t ih =>
      rcases Lexeme.takesPiece_read p c t with ⟨piece, rest, htext, hends, hread⟩
      rw [onto, hread] at hx
      rw [hread] at ih
      rw [htext]
      cases htoken : piece.token? with
      | none =>
          simp only [Piece.reading, htoken] at hx
          exact (ih hx).imp id Lexeme.IsOfPiece.later
      | some found =>
          simp only [Piece.reading, htoken] at hx
          rcases ih hx with hmem | hlater
          · rcases List.mem_cons.mp hmem with rfl | hdone
            · refine Or.inr ⟨[], piece, rest, rfl, hends, htoken, rfl, ?_⟩
              intro f hf
              exact List.mem_append_right _ (List.mem_map_of_mem hf)
            · exact Or.inl hdone
          · exact Or.inr hlater.later

/-- Let a number be found in a source, and no diagnostic at its position.  Then a literal
stands there, a number with its digits or a character in quotes, and the text of the
token is read as the value of the literal, or refused for its range if the magnitude is
more than 2^63 - 1.  The grammar takes the token for the value if and only if it is one
from -128 to $FFFF, and refuses it for its range otherwise. -/
theorem number_literal_read_as_written {t : Text} {x : Lexeme}
    (hx : x ∈ (Scan.ofText t).lexemes) (hkind : x.token.kind = .number)
    (hfaults : ∀ d ∈ x.faults, d.position ≠ x.token.position) :
    ∃ before piece rest value, t = before ++ (Piece.written piece ++ rest) ∧
      piece.Ends rest ∧ piece.token? = some (.number, x.token.text) ∧ piece.faults = [] ∧
      x.token.position = .ofIndex t before.length ∧ piece.value? = some value ∧
      Literal.read x.token.text =
        (if 2 ^ 63 - 1 < value.natAbs then .error .range else .ok value) ∧
      Grammar.atom x.token =
        if -128 ≤ value ∧ value ≤ 0xFFFF then .ok (.value (.number value))
        else .error ⟨.range (.literal x.token.text), x.token.position⟩ := by
  rcases Scan.isOfPiece_onto hx with hnone | hpiece
  · cases hnone
  rcases hpiece with ⟨before, piece, rest, htext, hends, htoken, hposition, hreports⟩
  rw [hkind] at htoken
  have hclean : piece.faults = [] := by
    refine List.eq_nil_iff_forall_not_mem.mpr fun f hf => hfaults _ (hreports f hf) ?_
    rw [hposition, Piece.diagnose, Piece.first_of_mem_faults htoken hf]
    rfl
  rcases Piece.read_of_number htoken hclean with ⟨value, hvalue, hread⟩
  refine ⟨before, piece, rest, value, htext, hends, htoken, hclean, ?_, hvalue, hread,
    Grammar.atom_of_read hkind hread⟩
  rw [hposition, htext]
  exact Position.start_after ..

/-- A hexadecimal number whose digits look like the mark of another base, after a
character that is reported. -/
theorem number_literal_read_as_written_hex :
    let t := "lda #@$0b1".toList
    let x : Lexeme := ⟨⟨.number, "$0b1".toList, ⟨1, 7⟩⟩,
      [Lexeme.fault ⟨1, 6⟩ (.unexpectedCharacter '@')]⟩
    x ∈ (Scan.ofText t).lexemes ∧ x.token.kind = .number ∧
      (∀ d ∈ x.faults, d.position ≠ x.token.position) ∧
      ∃ before piece rest, t = before ++ (Piece.written piece ++ rest) ∧
        x.token.position = .ofIndex t before.length ∧ piece.value? = some 0xb1 ∧
        Literal.read x.token.text = .ok 0xb1 ∧
        Grammar.atom x.token = .ok (.value (.number 0xb1)) := by
  intro t x
  have hx : x ∈ (Scan.ofText t).lexemes := by decide +kernel
  have hfaults : ∀ d ∈ x.faults, d.position ≠ x.token.position := by decide
  rcases number_literal_read_as_written hx rfl hfaults with
    ⟨before, piece, rest, value, htext, _, _, _, hposition, hvalue, hread, hatom⟩
  have hliteral : Literal.read x.token.text = .ok 0xb1 := by decide +kernel
  have hsame : value = 0xb1 := by
    rw [hliteral] at hread
    split at hread
    · cases hread
    · exact (Except.ok.inj hread).symm
  subst hsame
  exact ⟨hx, rfl, hfaults, before, piece, rest, htext, hposition, hvalue, hliteral, hatom⟩

end Asm6502

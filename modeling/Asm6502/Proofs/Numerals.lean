import Asm6502.Disassembly.Decoded
import Asm6502.Source.Lexeme
import Asm6502.Source.Literal
import Asm6502.Text.LowerCase
import Mathlib.Algebra.Ring.Int.Defs
import Mathlib.Algebra.Ring.Nat

/-!
# Written numbers

Numbers are written with the digits of their base, most significant first, and
perhaps with zeros in front.  Reading them gives the number back, so that the text
of a number determines it.
-/

namespace Asm6502

/-!
## Digits
-/

namespace Numeral

theorem digit?_digitChar {d : Nat} (h : d < 16) : digit? d.digitChar = some d := by
  have hall : ∀ d < 16, digit? d.digitChar = some d := by decide
  exact hall d h

theorem magnitude_append (base limit read : Nat) (first second : Text) :
    magnitude base limit read (first ++ second) =
      magnitude base limit read first >>= fun m =>
        magnitude base limit m second := by
  induction first generalizing read with
  | nil => rfl
  | cons c rest ih =>
      simp only [List.cons_append, magnitude]
      cases digit? c with
      | none => rfl
      | some d =>
          dsimp only
          split
          · rfl
          · split
            · rfl
            · exact ih _

theorem magnitude_digitChar {base limit read d : Nat} (hbase : base ≤ 16)
    (hd : d < base) (hlimit : read * base + d ≤ limit) :
    magnitude base limit read [d.digitChar] = .ok (read * base + d) := by
  simp only [magnitude, digit?_digitChar (Nat.lt_of_lt_of_le hd hbase)]
  rw [if_neg (Nat.not_le_of_lt hd), if_neg (Nat.not_lt_of_le hlimit)]

theorem magnitude_toDigits {base limit : Nat} (hone : 1 < base) (hbase : base ≤ 16)
    (n : Nat) (hn : n ≤ limit) :
    magnitude base limit 0 (Nat.toDigits base n) = .ok n := by
  induction n using Nat.strongRecOn with
  | _ n ih =>
      by_cases hsmall : n < base
      · rw [Nat.toDigits_of_lt_base hsmall, magnitude_digitChar hbase hsmall]
        · simp
        · simpa using hn
      · have hle : base ≤ n := Nat.le_of_not_lt hsmall
        have hdiv : n / base < n := Nat.div_lt_self (by omega) hone
        have hvalue : n / base * base + n % base = n := by
          rw [Nat.mul_comm]
          exact Nat.div_add_mod n base
        rw [Nat.toDigits_of_base_le hone hle, magnitude_append,
          ih _ hdiv (by omega)]
        show magnitude base limit (n / base) [(n % base).digitChar] = _
        rw [magnitude_digitChar hbase (Nat.mod_lt n (by omega)) (by omega), hvalue]

theorem magnitude_zeros {base : Nat} (hbase : 0 < base) (limit count : Nat)
    (t : Text) :
    magnitude base limit 0 (List.replicate count '0' ++ t) =
      magnitude base limit 0 t := by
  induction count with
  | zero => rfl
  | succ count ih =>
      have hzero : digit? '0' = some 0 := by decide
      rw [List.replicate_succ, List.cons_append, magnitude, hzero]
      dsimp only
      rw [if_neg (by omega), if_neg (by omega)]
      simpa using ih

end Numeral

/-!
## Hexadecimal and decimal text
-/

namespace Text

theorem hex_natCast (width n : Nat) :
    hex width (n : Int) = (Nat.toDigits 16 n).leftpad width '0' := by
  unfold hex
  rw [if_neg (by omega), Int.toNat_natCast]

theorem decimal_natCast (n : Nat) : decimal (n : Int) = Nat.toDigits 10 n := by
  have hstring : toString (n : Int) = toString n := rfl
  rw [decimal, hstring, Nat.toString_eq_ofList_toDigits, String.toList_ofList]

theorem magnitude_hex {limit : Nat} (width n : Nat) (hn : n ≤ limit) :
    Numeral.magnitude 16 limit 0 (hex width n) = .ok n := by
  rw [hex_natCast, List.leftpad, Numeral.magnitude_zeros (by decide)]
  exact Numeral.magnitude_toDigits (by decide) (by decide) n hn

theorem hex_inj {width n m : Nat} (h : hex width n = hex width m) : n = m := by
  have hn := magnitude_hex width n (Nat.le_max_left n m)
  have hm := magnitude_hex width m (Nat.le_max_right n m)
  rw [h, hm] at hn
  exact (Except.ok.inj hn).symm

theorem decimal_inj {n m : Nat} (h : decimal n = decimal m) : n = m := by
  have hn := @Numeral.magnitude_toDigits 10 _ (by decide) (by decide) n
    (Nat.le_max_left n m)
  have hm := @Numeral.magnitude_toDigits 10 _ (by decide) (by decide) m
    (Nat.le_max_right n m)
  rw [decimal_natCast, decimal_natCast] at h
  rw [h, hm] at hn
  exact (Except.ok.inj hn).symm

theorem mem_toDigits {base n : Nat} (hone : 1 < base) {c : Char}
    (hc : c ∈ Nat.toDigits base n) : ∃ d < base, c = d.digitChar := by
  induction n using Nat.strongRecOn with
  | _ n ih =>
      by_cases hsmall : n < base
      · rw [Nat.toDigits_of_lt_base hsmall, List.mem_singleton] at hc
        exact ⟨n, hsmall, hc⟩
      · have hle : base ≤ n := Nat.le_of_not_lt hsmall
        rw [Nat.toDigits_of_base_le hone hle, List.mem_append,
          List.mem_singleton] at hc
        rcases hc with hfront | hlast
        · exact ih _ (Nat.div_lt_self (by omega) hone) hfront
        · exact ⟨n % base, Nat.mod_lt n (by omega), hlast⟩

theorem mem_hex {width n : Nat} {c : Char} (hc : c ∈ hex width (n : Int)) :
    ∃ d < 16, c = d.digitChar := by
  rw [hex_natCast, List.leftpad, List.mem_append] at hc
  rcases hc with hzero | hdigit
  · exact ⟨0, by decide, List.eq_of_mem_replicate hzero⟩
  · exact mem_toDigits (by decide) hdigit

theorem mem_decimal {n : Nat} {c : Char} (hc : c ∈ decimal (n : Int)) :
    ∃ d < 16, c = d.digitChar := by
  rw [decimal_natCast] at hc
  rcases mem_toDigits (by decide) hc with ⟨d, hd, rfl⟩
  exact ⟨d, by omega, rfl⟩

theorem decimal_of_neg {n : Int} (h : n < 0) :
    ∃ d digits, decimal n = '-' :: d :: digits ∧
      ∀ c ∈ d :: digits, c.isDigit = true := by
  rcases Int.eq_negSucc_of_lt_zero h with ⟨m, rfl⟩
  have hstring : toString (Int.negSucc m) = "-" ++ toString (m + 1) := rfl
  have hdigits : decimal (Int.negSucc m) = '-' :: Nat.toDigits 10 (m + 1) := by
    rw [decimal, hstring, String.toList_append]
    show '-' :: (toString (m + 1)).toList = _
    rw [Nat.toString_eq_ofList_toDigits, String.toList_ofList]
  rcases List.exists_cons_of_ne_nil (Nat.toDigits_ne_nil (n := m + 1) (b := 10)) with
    ⟨d, digits, hne⟩
  refine ⟨d, digits, by rw [hdigits, hne], fun c hc => ?_⟩
  rcases mem_toDigits (by decide) (hne ▸ hc) with ⟨k, hk, rfl⟩
  have hall : ∀ k < 10, k.digitChar.isDigit = true := by decide
  exact hall k hk

theorem hex_ne_nil (width n : Nat) : hex width (n : Int) ≠ [] := by
  rw [hex_natCast, List.leftpad]
  simp

end Text

/-!
## Digits as characters of a source
-/

namespace Lexeme

theorem isHexDigit_digitChar {d : Nat} (h : d < 16) :
    isHexDigit d.digitChar = true := by
  have hall : ∀ d < 16, isHexDigit d.digitChar = true := by decide
  exact hall d h

theorem isWordPart_digitChar {d : Nat} (h : d < 16) :
    isWordPart d.digitChar = true := by
  have hall : ∀ d < 16, isWordPart d.digitChar = true := by decide
  exact hall d h

theorem isWordStart_iff {c : Char} : isWordStart c = true ↔
    c = '_' ∨ ('A' ≤ c ∧ c ≤ 'Z') ∨ ('a' ≤ c ∧ c ≤ 'z') := by
  have hcapital : c.isUpper = true ↔ 'A' ≤ c ∧ c ≤ 'Z' := decide_eq_true_iff
  have hsmall : c.isLower = true ↔ 'a' ≤ c ∧ c ≤ 'z' :=
    Bool.and_eq_true_iff.trans (and_congr decide_eq_true_iff decide_eq_true_iff)
  have halpha : c.isAlpha = true ↔ c.isUpper = true ∨ c.isLower = true :=
    Bool.or_eq_true_iff
  rw [isWordStart, Bool.or_eq_true, decide_eq_true_eq, halpha, hcapital, hsmall]

theorem isWordPart_of_isHexDigit {c : Char} (h : isHexDigit c = true) :
    isWordPart c = true := by
  simp only [isHexDigit, Bool.or_eq_true, Bool.and_eq_true, decide_eq_true_eq] at h
  rw [isWordPart, Bool.or_eq_true, isWordStart_iff]
  rcases h with (hdigit | hsmall) | hcapital
  · exact Or.inr hdigit
  · refine Or.inl (Or.inr (Or.inr ⟨hsmall.1, ?_⟩))
    exact Char.le_trans hsmall.2 (by decide)
  · refine Or.inl (Or.inr (Or.inl ⟨hcapital.1, ?_⟩))
    exact Char.le_trans hcapital.2 (by decide)

end Lexeme

theorem lowerChar_digitChar {d : Nat} (h : d < 16) :
    lowerChar d.digitChar = d.digitChar := by
  have hall : ∀ d < 16, lowerChar d.digitChar = d.digitChar := by decide
  exact hall d h

namespace Text

theorem foldCase_of_digits {t : Text} (h : ∀ c ∈ t, ∃ d < 16, c = d.digitChar) :
    t.foldCase = t := by
  unfold foldCase
  conv => rhs; rw [← List.map_id t]
  apply List.map_congr_left
  intro c hc
  rcases h c hc with ⟨d, hd, rfl⟩
  exact lowerChar_digitChar hd

end Text

/-!
## Literals
-/

namespace Literal

/-- A hexadecimal literal is read as the number that it was written for. -/
theorem read_hex {width n : Nat} (hn : n < 2 ^ 63) :
    read ('$' :: Text.hex width (n : Int)) = .ok (n : Int) := by
  have hlimit : n ≤ Nat.pow 2 64 - 1 := show n ≤ 2 ^ 64 - 1 by omega
  have hvalue := @Text.magnitude_hex _ width n hlimit
  cases hdigits : Text.hex width (n : Int) with
  | nil => exact absurd hdigits (Text.hex_ne_nil width n)
  | cons c rest =>
      have hsign : Numeral.splitSign (c :: rest) = (false, c :: rest) := by
        have hc : c ∈ Text.hex width (n : Int) := by simp [hdigits]
        rcases Text.mem_hex hc with ⟨d, hd, rfl⟩
        have hminus : d.digitChar ≠ '-' := Nat.digitChar_ne '-' (by decide)
        have hplus : d.digitChar ≠ '+' := Nat.digitChar_ne '+' (by decide)
        simp [Numeral.splitSign, hminus, hplus]
      rw [hdigits] at hvalue
      simp only [read, quoted?, unsigned, splitBase, Numeral.readInt, hsign,
        List.isEmpty_cons, Bool.false_eq_true, if_false, hvalue, Numeral.bounded]
      have hlt : n < 9223372036854775808 := hn
      simp [bind, Except.bind, hlt]

end Literal
end Asm6502

import Asm6502.Proofs.LineLocality
import Asm6502.Proofs.TokenChanges

/-!
# The case of letters

Outside of quotes the scanner tells capitals and small letters apart nowhere: the classes
of characters hold both, the marks of the bases and the operations are known in either
case, and a digit has one value.  So a text without quotes and the same text in small
letters have the same tokens up to the case of their letters, and the same diagnostics.
-/

namespace Asm6502

/-!
## Characters
-/

theorem of_range {P : Char -> Prop} {first : Nat}
    (h : ∀ n < 26, P (Char.ofNat (first + n))) {c : Char} (hlow : first ≤ c.toNat)
    (hhigh : c.toNat < first + 26) : P c := by
  have hc := h (c.toNat - first) (by omega)
  rwa [Nat.add_sub_cancel' hlow, Char.ofNat_toNat] at hc

def capital (n : Nat) : Char :=
  Char.ofNat (65 + n)

theorem toLower_eq_or {P : Char -> Prop} (h : ∀ n < 26, P (capital n)) (c : Char) :
    c.toLower = c ∨ P c := by
  by_cases hrange : c.val ≥ 'A'.val ∧ c.val ≤ 'Z'.val
  · exact .inr (of_range h hrange.1 (Nat.lt_succ_of_le hrange.2))
  · exact .inl (dif_neg hrange)

/-- The function does not tell a capital from its small letter. -/
def Caseless {α : Type} (f : Char -> α) : Prop :=
  ∀ c : Char, f c.toLower = f c

theorem Caseless.of_capitals {α : Type} {f : Char -> α}
    (h : ∀ n < 26, f (capital n).toLower = f (capital n)) : Caseless f := by
  intro c
  rcases toLower_eq_or (P := fun c => f c.toLower = f c) h c with hsame | hcapital
  · rw [hsame]
  · exact hcapital

theorem eq_or_eq_toUpper (c : Char) : c = c.toLower ∨ c = c.toLower.toUpper := by
  have hall : ∀ n < 26, capital n = (capital n).toLower.toUpper := by decide
  exact (toLower_eq_or (P := fun c => c = c.toLower.toUpper) hall c).imp Eq.symm id

theorem caseless_toLower : Caseless Char.toLower := .of_capitals (by decide)

theorem caseless_toUpper : Caseless Char.toUpper := .of_capitals (by decide)

theorem caseless_lowerChar : Caseless lowerChar := .of_capitals (by decide)

theorem caseless_isAlpha : Caseless Char.isAlpha := .of_capitals (by decide)

theorem caseless_isDigit : Caseless Char.isDigit := .of_capitals (by decide)

theorem caseless_digit? : Caseless Numeral.digit? := .of_capitals (by decide)

theorem toLower_of_not_isAlpha {c : Char} (h : c.isAlpha = false) : c.toLower = c := by
  have hall : ∀ n < 26, (capital n).isAlpha = true := by decide
  rcases toLower_eq_or (P := fun c => c.isAlpha = true) hall c with hsame | halpha
  · exact hsame
  · rw [h] at halpha
    cases halpha

theorem toLower_eq_iff {mark c : Char} (h : mark.isAlpha = false) :
    c.toLower = mark ↔ c = mark := by
  constructor
  · rintro rfl
    rw [caseless_isAlpha] at h
    exact (toLower_of_not_isAlpha h).symm
  · rintro rfl
    exact toLower_of_not_isAlpha h

theorem toLower_toUpper (c : Char) : c.toUpper.toLower = c.toLower := by
  by_cases h : c.val ≥ 'a'.val ∧ c.val ≤ 'z'.val
  · exact of_range (P := fun c => c.toUpper.toLower = c.toLower) (by decide) h.1
      (Nat.lt_succ_of_le h.2)
  · rw [show c.toUpper = c from dif_neg h]

/-!
## Texts
-/

namespace Text

theorem lower_lower (t : Text) : t.lower.lower = t.lower := by
  simp only [lower, List.map_map]
  exact List.map_congr_left fun c _ => caseless_toLower c

theorem upper_lower (t : Text) : t.lower.upper = t.upper := by
  simp only [lower, upper, List.map_map]
  exact List.map_congr_left fun c _ => caseless_toUpper c

theorem lower_upper (t : Text) : t.upper.lower = t.lower := by
  simp only [lower, upper, List.map_map]
  exact List.map_congr_left fun c _ => toLower_toUpper c

theorem foldCase_lower (t : Text) : t.lower.foldCase = t.foldCase := by
  simp only [lower, foldCase, List.map_map]
  exact List.map_congr_left fun c _ => caseless_lowerChar c

theorem takeWhile_lower {class? : Char -> Bool} (h : Caseless class?) (t : Text) :
    t.lower.takeWhile class? = lower (t.takeWhile class?) := by
  unfold lower
  rw [List.takeWhile_map, show class? ∘ Char.toLower = class? from funext h]

theorem dropWhile_lower {class? : Char -> Bool} (h : Caseless class?) (t : Text) :
    t.lower.dropWhile class? = lower (t.dropWhile class?) := by
  unfold lower
  rw [List.dropWhile_map, show class? ∘ Char.toLower = class? from funext h]

theorem mem_lower_iff {mark : Char} (h : mark.isAlpha = false) {t : Text} :
    mark ∈ t.lower ↔ mark ∈ t := by
  unfold lower
  rw [List.mem_map]
  constructor
  · rintro ⟨c, hc, heq⟩
    rwa [(toLower_eq_iff h).mp heq] at hc
  · intro hmark
    exact ⟨mark, hmark, (toLower_eq_iff h).mpr rfl⟩

end Text

namespace Position

theorem next_toLower (p : Position) (c : Char) : p.next c.toLower = p.next c := by
  have hnewline : c.toLower = '\n' ↔ c = '\n' := toLower_eq_iff rfl
  simp only [next, hnewline]

theorem after_lower (p : Position) (t : Text) : p.after t.lower = p.after t := by
  unfold after Text.lower
  rw [List.foldl_map]
  simp only [next_toLower]

end Position

/-!
## Numbers
-/

theorem Text.lower_ne_cons {mark : Char} {t : Text} (h : ∀ rest, t = mark :: rest -> False)
    (hupper : ∀ rest, t = mark.toUpper :: rest -> False) :
    ∀ rest, t.lower = mark :: rest -> False := by
  intro rest heq
  rcases List.map_eq_cons_iff.mp heq with ⟨c, tail, rfl, rfl, _⟩
  rcases eq_or_eq_toUpper c with hc | hc
  · exact h tail (by rw [← hc])
  · exact hupper tail (by rw [← hc])

namespace Numeral

theorem magnitude_lower (base limit read : Nat) (t : Text) :
    magnitude base limit read t.lower = magnitude base limit read t := by
  induction t generalizing read with
  | nil => rfl
  | cons c rest ih =>
      have hcons : Text.lower (c :: rest) = c.toLower :: Text.lower rest := rfl
      simp only [hcons, magnitude, caseless_digit? c, ih]

theorem splitSign_lower (t : Text) :
    splitSign t.lower = ((splitSign t).1, Text.lower (splitSign t).2) := by
  fun_cases splitSign t with
  | case1 rest => rfl
  | case2 rest => rfl
  | case3 t hminus hplus =>
      rw [splitSign.eq_3 _ (Text.lower_ne_cons hminus hminus)
        (Text.lower_ne_cons hplus hplus)]

theorem readInt_lower (base bits : Nat) (t : Text) :
    readInt base bits t.lower = readInt base bits t := by
  unfold readInt
  rw [splitSign_lower]
  dsimp only
  rw [magnitude_lower, show (Text.lower (splitSign t).2).isEmpty = _ from List.isEmpty_map]

end Numeral

namespace Literal

theorem splitBase_lower (t : Text) :
    splitBase t.lower = ((splitBase t).1, Text.lower (splitBase t).2) := by
  have hbase : ∀ {mark : Char} {t : Text},
      (∀ rest, t = '0' :: mark :: rest -> False) ->
      (∀ rest, t = '0' :: mark.toUpper :: rest -> False) ->
      ∀ rest, t.lower = '0' :: mark :: rest -> False := by
    intro mark t h hupper rest heq
    rcases List.map_eq_cons_iff.mp heq with ⟨c, tail, rfl, hc, htail⟩
    rw [toLower_eq_iff rfl] at hc
    subst hc
    refine Text.lower_ne_cons ?_ ?_ rest htail
    · rintro digits rfl
      exact h digits rfl
    · rintro digits rfl
      exact hupper digits rfl
  fun_cases splitBase t with
  | case1 | case2 | case3 | case4 | case5 | case6 => rfl
  | case7 t hdollar hx hX hpercent hb hB =>
      rw [splitBase.eq_7 _ (Text.lower_ne_cons hdollar hdollar) (hbase hx hX) (hbase hX hX)
        (Text.lower_ne_cons hpercent hpercent) (hbase hb hB) (hbase hB hB)]

theorem unsigned_lower (t : Text) : unsigned t.lower = unsigned t := by
  unfold unsigned
  rw [splitBase_lower]
  dsimp only
  rw [Numeral.readInt_lower]

theorem read_eq_unsigned {t : Text} (hquote : '\'' ∉ t)
    (hminus : ∀ rest, t = '-' :: rest -> False) : read t = unsigned t := by
  have hquoted : quoted? t = none := by
    unfold quoted?
    split
    · simp at hquote
    · rfl
  unfold read
  rw [hquoted]
  dsimp only
  split
  · exact (hminus _ rfl).elim
  · rfl

theorem read_lower {t : Text} (h : '\'' ∉ t) : read t.lower = read t := by
  by_cases hsign : ∃ rest, t = '-' :: rest
  · rcases hsign with ⟨rest, rfl⟩
    exact congrArg (Except.map negate) (unsigned_lower rest)
  · have hminus : ∀ rest, t = '-' :: rest -> False := fun rest heq => hsign ⟨rest, heq⟩
    have hlower : '\'' ∉ t.lower := by rwa [Text.mem_lower_iff rfl]
    rw [read_eq_unsigned h hminus,
      read_eq_unsigned hlower (Text.lower_ne_cons hminus hminus), unsigned_lower]

end Literal

/-!
## Tokens
-/

/-- The text of a token of some class in small letters.  Marks stay as they are, and so
does what is quoted. -/
def Token.Kind.small (kind : Token.Kind) (text : Text) : Text :=
  match kind with
  | mnemonic _ | identifier | directive => text.lower
  | number => if '\'' ∈ text then text else text.lower
  | endOfInput | string | punctuation => text

theorem Token.Kind.small_eq_or (kind : Token.Kind) (text : Text) :
    kind.small text = text ∨ kind.small text = text.lower := by
  cases kind with
  | mnemonic _ | identifier | directive => exact .inr rfl
  | number =>
      by_cases h : '\'' ∈ text
      · exact .inl (if_pos h)
      · exact .inr (if_neg h)
  | endOfInput | string | punctuation => exact .inl rfl

def Token.small (t : Token) : Token :=
  { t with text := t.kind.small t.text }

def Grammar.Change.small : Grammar.Change where
  token := Token.small
  name := Text.lower
  position := id
  kind_token _ := rfl
  position_token _ := rfl
  isMark_token mark t := by
    unfold Token.isMark Token.small
    cases t.kind <;> rfl
  upper_token t := by
    rcases t.kind.small_eq_or t.text with h | h
    · exact congrArg Text.upper h
    · exact (congrArg Text.upper h).trans (Text.upper_lower t.text)
  lower_token t := by
    rcases t.kind.small_eq_or t.text with h | h
    · exact congrArg Text.lower h
    · exact (congrArg Text.lower h).trans (Text.lower_lower t.text)
  text_identifier h := by rw [Token.small, h, Token.Kind.small]
  text_string h := by rw [Token.small, h, Token.Kind.small]
  read_number {t} h := by
    rw [Token.small, h, Token.Kind.small]
    dsimp only
    split
    · rfl
    · rename_i hquote
      exact Literal.read_lower hquote

/-!
## Readings
-/

namespace Lexeme

theorem caseless_isWordStart : Caseless isWordStart := .of_capitals (by decide)

theorem caseless_isWordPart : Caseless isWordPart := .of_capitals (by decide)

theorem caseless_isHexDigit : Caseless isHexDigit := .of_capitals (by decide)

theorem caseless_isBinaryDigit : Caseless isBinaryDigit := .of_capitals (by decide)

theorem begins_lower {class? : Char -> Bool} (h : Caseless class?) (t : Text) :
    begins class? t.lower = begins class? t := by
  cases t with
  | nil => rfl
  | cons c rest => exact h c

theorem toLower_of_not_wordStart {c : Char} (h : ¬isWordStart c = true) :
    c.toLower = c := by
  apply toLower_of_not_isAlpha
  simp only [isWordStart, Bool.or_eq_true, not_or, Bool.not_eq_true] at h
  exact h.2

theorem opening_lower (c : Char) (t : Text) :
    opening c.toLower t.lower = opening c t := by
  by_cases hword : isWordStart c = true
  · rw [opening_word hword, opening_word ((caseless_isWordStart c).trans hword)]
  · unfold opening
    rw [toLower_of_not_wordStart hword, begins_lower caseless_isHexDigit,
      begins_lower caseless_isBinaryDigit, begins_lower caseless_isDigit,
      begins_lower caseless_isWordStart]

def Reading.small (r : Reading) : Reading :=
  { r with
    token := r.token.map fun found => (found.1, found.1.small found.2)
    rest := r.rest.lower }

theorem plain_lower (p : Position) (kind : Token.Kind) (text rest : Text) :
    Reading.plain p kind (kind.small text) rest.lower =
      (Reading.plain p kind text rest).small := by
  have hafter : p.after (kind.small text) = p.after text := by
    rcases kind.small_eq_or text with h | h
    · rw [h]
    · rw [h, Position.after_lower]
  simp only [Reading.plain, Reading.small, hafter, Option.map_some]

theorem small_number {text : Text} (h : '\'' ∉ text) :
    Token.Kind.small .number text = text.lower :=
  if_neg h

theorem quote_notMem_takeWhile {class? : Char -> Bool} (h : class? '\'' = false)
    (t : Text) : '\'' ∉ t.takeWhile class? := by
  intro hquote
  have htrue := List.all_eq_true.mp List.all_takeWhile _ hquote
  rw [h] at htrue
  cases htrue

structure IsMark (text : Text) : Prop where
  lower : text.lower = text
  unquoted : '\'' ∉ text

theorem digits_lower {class? : Char -> Bool} (hclass : Caseless class?)
    (hquote : class? '\'' = false) (p : Position) {sign mark : Text} (hsign : IsMark sign)
    (hmark : IsMark mark) (written t : Text) :
    digits p sign written.lower mark class? t.lower =
      (digits p sign written mark class? t).small := by
  have hunquoted : '\'' ∉ sign ++ mark ++ t.takeWhile class? := by
    simp only [List.mem_append, not_or]
    exact ⟨⟨hsign.unquoted, hmark.unquoted⟩, quote_notMem_takeWhile hquote t⟩
  have htext : sign ++ mark ++ Text.lower (t.takeWhile class?) =
      Text.lower (sign ++ mark ++ t.takeWhile class?) := by
    simp only [Text.lower, List.map_append]
    rw [show sign.map Char.toLower = sign from hsign.lower,
      show mark.map Char.toLower = mark from hmark.lower]
  have hafter : p.after (sign ++ written.lower ++ Text.lower (t.takeWhile class?)) =
      p.after (sign ++ written ++ t.takeWhile class?) := by
    simp only [Position.after_append, Position.after_lower]
  have hempty : (Text.lower (t.takeWhile class?)).isEmpty = (t.takeWhile class?).isEmpty :=
    List.isEmpty_map
  unfold digits
  dsimp only
  rw [Text.takeWhile_lower hclass, Text.dropWhile_lower hclass, hafter, hempty, htext]
  simp only [Reading.small, Option.map_some, small_number hunquoted]

theorem number_lower (p : Position) {sign : Text} (hsign : IsMark sign) {c : Char}
    (hc : c ≠ '\'') (t : Text) :
    number p sign c.toLower t.lower = (number p sign c t).small := by
  have hhex : IsMark ['0', 'x'] := ⟨by decide, by decide⟩
  have hbinary : IsMark ['0', 'b'] := ⟨by decide, by decide⟩
  have hzero : c.toLower = '0' -> c = '0' := (toLower_eq_iff rfl).mp
  fun_cases number p sign c t with
  | case1 t => exact digits_lower caseless_isHexDigit rfl p hsign hhex ['0', 'x'] t
  | case2 t => exact digits_lower caseless_isHexDigit rfl p hsign hhex ['0', 'X'] t
  | case3 t => exact digits_lower caseless_isBinaryDigit rfl p hsign hbinary ['0', 'b'] t
  | case4 t => exact digits_lower caseless_isBinaryDigit rfl p hsign hbinary ['0', 'B'] t
  | case5 c t hx hX hb hB =>
      have hbase : ∀ {mark : Char}, (∀ rest, c = '0' -> t = mark :: rest -> False) ->
          (∀ rest, c = '0' -> t = mark.toUpper :: rest -> False) ->
          ∀ rest, c.toLower = '0' -> t.lower = mark :: rest -> False :=
        fun h hupper rest hlower => Text.lower_ne_cons (fun rest => h rest (hzero hlower))
          (fun rest => hupper rest (hzero hlower)) rest
      have hunquoted : '\'' ∉ sign ++ c :: t.takeWhile Char.isDigit := by
        simp only [List.mem_append, List.mem_cons, not_or]
        exact ⟨hsign.unquoted, hc.symm, quote_notMem_takeWhile rfl t⟩
      have htext : sign ++ c.toLower :: Text.lower (t.takeWhile Char.isDigit) =
          Token.Kind.small .number (sign ++ c :: t.takeWhile Char.isDigit) := by
        rw [small_number hunquoted]
        simp only [Text.lower, List.map_append, List.map_cons]
        rw [show sign.map Char.toLower = sign from hsign.lower]
      rw [number.eq_5 _ _ _ _ (hbase hx hX) (hbase hX hX) (hbase hb hB) (hbase hB hB),
        Text.takeWhile_lower caseless_isDigit, Text.dropWhile_lower caseless_isDigit, htext,
        plain_lower]

theorem word_lower (p : Position) (c : Char) (t : Text) :
    word p c.toLower t.lower = (word p c t).small := by
  have htext : c.toLower :: Text.lower (t.takeWhile isWordPart) =
      Text.lower (c :: t.takeWhile isWordPart) := rfl
  have hkind : ∀ text : Text, wordKind text.lower = wordKind text := by
    intro text
    unfold wordKind
    rw [Text.upper_lower]
  have hsmall : ∀ text : Text, (wordKind text).small text = text.lower := by
    intro text
    unfold wordKind
    split <;> rfl
  unfold word
  dsimp only
  rw [Text.takeWhile_lower caseless_isWordPart, Text.dropWhile_lower caseless_isWordPart,
    htext, hkind, ← plain_lower, hsmall]

theorem directive_lower (p : Position) (t : Text) :
    directive p t.lower = (directive p t).small := by
  unfold directive
  rw [Text.takeWhile_lower caseless_isWordPart, Text.dropWhile_lower caseless_isWordPart,
    ← plain_lower]
  rfl

theorem comment_lower (p : Position) (c : Char) (t : Text) :
    comment p c t.lower = (comment p c t).small := by
  have hline : Caseless (· != '\n') := .of_capitals (by decide)
  unfold comment
  rw [Text.takeWhile_lower hline, Text.dropWhile_lower hline, Position.after_cons,
    Position.after_lower]
  rfl

theorem negative_lower (p : Position) {c : Char} (hmark : IsMark [c]) {t : Text}
    (hdigit : begins Char.isDigit t = true) :
    negative p c t.lower = (negative p c t).small := by
  cases t with
  | nil => cases hdigit
  | cons d rest =>
      refine number_lower p hmark ?_ rest
      rintro rfl
      cases hdigit

/-- Outside of quotes a reading is the same for capitals and for small letters. -/
theorem read_lower (p : Position) {c : Char} (hquote : c ≠ '\'') (hdouble : c ≠ '"')
    (t : Text) : read p c.toLower t.lower = (read p c t).small := by
  unfold read
  rw [opening_lower]
  by_cases hword : opening c t = .word
  · rw [hword]
    exact word_lower p c t
  · -- No other opening is a letter.
    have hsame : c.toLower = c :=
      toLower_of_not_wordStart fun hstart => hword (opening_word hstart t)
    have hmark : IsMark [c] := ⟨congrArg (fun d => [d]) hsame, by simpa using hquote.symm⟩
    have hempty : IsMark [] := ⟨rfl, by simp⟩
    have hfits := fits_opening c t
    rw [hsame]
    cases hopening : opening c t with
    | word => exact (hword hopening).elim
    | character =>
        rw [hopening] at hfits
        exact (hquote hfits).elim
    | string =>
        rw [hopening] at hfits
        exact (hdouble hfits).elim
    | negative =>
        rw [hopening] at hfits
        exact negative_lower p hmark hfits.2
    | blank => rfl
    | comment => exact comment_lower p c t
    | number =>
        have hnumber := number_lower p hempty hquote t
        rwa [hsame] at hnumber
    | hexNumber =>
        have hdigits := digits_lower caseless_isHexDigit rfl p hempty hmark [c] t
        rwa [hmark.lower] at hdigits
    | binaryNumber =>
        have hdigits := digits_lower caseless_isBinaryDigit rfl p hempty hmark [c] t
        rwa [hmark.lower] at hdigits
    | directive => exact directive_lower p t
    | punctuation => exact plain_lower p .punctuation [c] t
    | other => rfl

end Lexeme

/-!
## Scans
-/

def Lexeme.small (l : Lexeme) : Lexeme :=
  { l with token := l.token.small }

def Scan.small (scan : Scan) : Scan :=
  ⟨scan.lexemes.map Lexeme.small, scan.final.small⟩

structure Text.Unquoted (t : Text) : Prop where
  single : '\'' ∉ t
  double : '"' ∉ t

theorem Text.Unquoted.of_suffix {used rest : Text} (h : Text.Unquoted (used ++ rest)) :
    Text.Unquoted rest :=
  ⟨fun hmem => h.single (List.mem_append_right _ hmem),
    fun hmem => h.double (List.mem_append_right _ hmem)⟩

theorem Lexeme.unquoted_rest {p : Position} {c : Char} {t : Text}
    (h : Text.Unquoted (c :: t)) : Text.Unquoted (read p c t).rest := by
  rcases takes_read p c t with ⟨used, htext, _⟩
  rw [htext] at h
  exact h.of_suffix

theorem Scan.onto_lower (done : List Lexeme) (faults : List Diagnostic) (p : Position)
    {t : Text} (h : t.Unquoted) :
    onto (done.map Lexeme.small) faults p t.lower = (onto done faults p t).small := by
  have hcons : ∀ {c : Char} {t : Text}, Text.Unquoted (c :: t) -> ∀ p : Position,
      Lexeme.read p c.toLower t.lower = (Lexeme.read p c t).small := by
    intro c t h p
    refine Lexeme.read_lower p ?_ ?_ t
    · rintro rfl
      exact h.single (List.mem_cons_self ..)
    · rintro rfl
      exact h.double (List.mem_cons_self ..)
  fun_induction findings p t generalizing done faults with
  | case1 p =>
      show onto (done.map Lexeme.small) faults p [] = _
      rw [onto, onto, ← List.map_reverse]
      rfl
  | case2 p c t ih =>
      have hrest := Lexeme.unquoted_rest (p := p) h
      have hlower : Text.lower (c :: t) = c.toLower :: Text.lower t := rfl
      rw [hlower, onto, onto, hcons h]
      cases htoken : (Lexeme.read p c t).token with
      | none =>
          simp only [Lexeme.Reading.small, htoken, Option.map_none]
          exact ih _ _ hrest
      | some found =>
          simp only [Lexeme.Reading.small, htoken, Option.map_some]
          exact ih (⟨⟨found.1, found.2, p⟩, _⟩ :: done) [] hrest

/-- Without quotes, the text in small letters has the same tokens but for their case, and
the same diagnostics. -/
theorem Scan.ofText_lower {t : Text} (h : t.Unquoted) :
    ofText t.lower = (ofText t).small :=
  onto_lower [] [] Position.start h

end Asm6502

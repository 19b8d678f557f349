import Asm6502.Proofs.Readings

/-!
# Pieces of a source

A source is made of pieces: blanks, comments, tokens in their written form, and text that
is skipped with a diagnostic.  A piece says by itself what token it gives, if any, and
which of its characters the diagnostics are about.  The main result says that every
reading takes one such piece, as long as its form allows, and gives what the piece says.
-/

namespace Asm6502
namespace Lexeme

theorem begins_dropWhile (p : Char -> Bool) (t : Text) :
    begins p (t.dropWhile p) = false := by
  cases hrest : t.dropWhile p with
  | nil => rfl
  | cons c rest =>
      have hhead := List.head?_dropWhile_not p t
      rw [hrest] at hhead
      simpa [begins] using hhead

/-!
## Numbers
-/

/-- How the base of a number is marked.  The letter of a mark may be a capital. -/
inductive Mark where
  | decimal
  | dollar
  | percent
  | hex (capital : Bool)
  | binary (capital : Bool)
  deriving DecidableEq

namespace Mark

def written : Mark -> Text
  | decimal => []
  | dollar => ['$']
  | percent => ['%']
  | hex capital => ['0', if capital then 'X' else 'x']
  | binary capital => ['0', if capital then 'B' else 'b']

def shown : Mark -> Text
  | decimal => []
  | dollar => ['$']
  | percent => ['%']
  | hex _ => ['0', 'x']
  | binary _ => ['0', 'b']

def base : Mark -> Nat
  | decimal => 10
  | dollar | hex _ => 16
  | percent | binary _ => 2

def isDigit : Mark -> Char -> Bool
  | decimal => Char.isDigit
  | dollar | hex _ => isHexDigit
  | percent | binary _ => isBinaryDigit

def takesSign : Mark -> Bool
  | dollar | percent => false
  | decimal | hex _ | binary _ => true

/-- After a zero and a letter the digits may be missing, which is reported. -/
def standsAlone : Mark -> Bool
  | hex _ | binary _ => true
  | decimal | dollar | percent => false

theorem takesSign_of_standsAlone {mark : Mark} (h : mark.standsAlone = true) :
    mark.takesSign = true := by
  cases mark with
  | decimal | dollar | percent => cases h
  | hex | binary => rfl

theorem written_ne_nil {mark : Mark} (h : mark.standsAlone = true) : mark.written ≠ [] := by
  cases mark with
  | decimal | dollar | percent => cases h
  | hex | binary => exact List.cons_ne_nil _ _

end Mark

def minus (negative : Bool) : Text :=
  if negative then ['-'] else []

structure Number where
  negative : Bool
  mark : Mark
  digits : Text
  sign_fits : negative = true -> mark.takesSign = true
  digits_fit : ∀ c ∈ digits, mark.isDigit c = true
  digits_present : digits = [] -> mark.standsAlone = true

namespace Number

def written (n : Number) : Text :=
  minus n.negative ++ n.mark.written ++ n.digits

def shown (n : Number) : Text :=
  minus n.negative ++ n.mark.shown ++ n.digits

def Ends (n : Number) (rest : Text) : Prop :=
  begins n.mark.isDigit rest = false ∧
    (n.mark = .decimal -> n.digits = ['0'] ->
      begins ['x', 'X', 'b', 'B'].contains rest = false)

end Number

/-!
## Strings
-/

/-- What stands for at most one character of a string. -/
inductive Part where
  | plain (c : Char) (h : c ≠ '"' ∧ c ≠ '\\' ∧ c ≠ '\n')
  | escape (e c : Char) (h : escaped? e = some c)
  | unknown (e : Char) (h : escaped? e = none)

namespace Part

def written : Part -> Text
  | plain c _ => [c]
  | escape e _ _ => ['\\', e]
  | unknown e _ => ['\\', e]

def contents : Part -> Text
  | plain c _ => [c]
  | escape _ c _ => [c]
  | unknown _ _ => []

def fault? : Part -> Option Diagnostic.LexicalFault
  | plain _ _ => none
  | escape _ _ _ => none
  | unknown e _ => some (.unknownEscape e)

def faults (before : Text) : List Part -> List (Text × Diagnostic.LexicalFault)
  | [] => []
  | x :: rest => (x.fault?.map (before, ·)).toList ++ faults (before ++ x.written) rest

end Part

/-- How a string comes to its end: by its quote, with the line or the input, or with the
input after a backslash. -/
inductive Closing where
  | quote
  | missing
  | cut

namespace Closing

def written : Closing -> Text
  | quote => ['"']
  | missing => []
  | cut => ['\\']

def faults (before : Text) : Closing -> List (Text × Diagnostic.LexicalFault)
  | quote => []
  | missing => [([], .unterminatedString)]
  | cut => [(before, .unknownEscape '\x00'), ([], .unterminatedString)]

def Ends (rest : Text) : Closing -> Prop
  | quote => True
  | missing => begins (· != '\n') rest = false
  | cut => rest = []

end Closing

/-!
## Pieces
-/

inductive Piece where
  | blank (c : Char) (h : isBlank c = true)
  | comment (run : Text) (h : '\n' ∉ run)
  | word (text : Text) (h : isWord text = true)
  | directive (name : Text) (h : isWord name = true)
  | number (n : Number)
  | character (c : Char) (h : c ≠ '\x00' ∧ c ≠ '\n')
  | string (parts : List Part) (closing : Closing)
  | punctuation (c : Char) (h : isPunctuation c = true)
  | malformed (run : Text) (closed : Bool) (h : '\n' ∉ run ∧ '\'' ∉ run)
  | unexpected (c : Char)

namespace Piece

def written : Piece -> Text
  | blank c _ => [c]
  | comment run _ => ';' :: run
  | word text _ => text
  | directive name _ => '.' :: name
  | number n => n.written
  | character c _ => ['\'', c, '\'']
  | string parts closing => '"' :: (parts.flatMap Part.written ++ closing.written)
  | punctuation c _ => [c]
  | malformed run closed _ => '\'' :: (run ++ if closed then ['\''] else [])
  | unexpected c => [c]

def token? : Piece -> Option (Token.Kind × Text)
  | blank _ _ => none
  | comment _ _ => none
  | word text _ => some (wordKind text, text)
  | directive name _ => some (.directive, '.' :: name)
  | number n => some (.number, n.shown)
  | character c _ => some (.number, ['\'', c, '\''])
  | string parts _ => some (.string, parts.flatMap Part.contents)
  | punctuation c _ => some (.punctuation, [c])
  | malformed _ _ _ => none
  | unexpected _ => none

def faults : Piece -> List (Text × Diagnostic.LexicalFault)
  | number n => if n.digits.isEmpty then [([], .missingDigits n.mark.shown)] else []
  | string parts closing =>
      Part.faults ['"'] parts ++ closing.faults ('"' :: parts.flatMap Part.written)
  | malformed _ _ _ => [([], .malformedCharacter)]
  | unexpected c => [([], .unexpectedCharacter c)]
  | blank _ _ | comment _ _ | word _ _ | directive _ _ | character _ _ | punctuation _ _ => []

def Ends (rest : Text) : Piece -> Prop
  | comment _ _ => begins (· != '\n') rest = false
  | word _ _ | directive _ _ => begins isWordPart rest = false
  | number n => n.Ends rest
  | string _ closing => closing.Ends rest
  | malformed _ closed _ => closed = false -> begins (· != '\n') rest = false
  | blank _ _ | character _ _ | punctuation _ _ | unexpected _ => True

def diagnose (p : Position) (x : Text × Diagnostic.LexicalFault) : Diagnostic :=
  fault (p.after x.1) x.2

def reading (piece : Piece) (p : Position) (rest : Text) : Reading :=
  ⟨piece.token?, piece.faults.map (diagnose p), p.after piece.written, rest⟩

end Piece

/-!
## Readings
-/

def Reading.TakesPiece (r : Reading) (p : Position) (t : Text) : Prop :=
  ∃ piece rest, t = Piece.written piece ++ rest ∧ piece.Ends rest ∧ r = piece.reading p rest

theorem mem_run {p : Char -> Bool} {t : Text} {c : Char} (h : c ∈ t.takeWhile p) :
    p c = true :=
  List.all_eq_true.mp List.all_takeWhile c h

theorem isWord_run {c : Char} (h : isWordStart c = true) (t : Text) :
    isWord (c :: t.takeWhile isWordPart) = true := by
  simp only [isWord, h, Bool.true_and, List.all_eq_true]
  intro x hx
  exact mem_run hx

theorem Number.faults_map (n : Number) (p : Position) :
    (Piece.number n).faults.map (Piece.diagnose p) =
      if n.digits.isEmpty then [fault p (.missingDigits n.mark.shown)] else [] := by
  rw [Piece.faults]
  split
  · rfl
  · rfl

theorem takesPiece_digits (p : Position) {negative : Bool} {mark : Mark} {t : Text}
    (hsign : negative = true -> mark.takesSign = true) (hmark : mark ≠ .decimal)
    (hpresent : mark.standsAlone = true ∨ begins mark.isDigit t = true) :
    (digits p (minus negative) mark.written mark.shown mark.isDigit t).TakesPiece p
      (minus negative ++ mark.written ++ t) := by
  let n : Number :=
    { negative := negative
      mark := mark
      digits := t.takeWhile mark.isDigit
      sign_fits := hsign
      digits_fit := fun c hc => mem_run hc
      digits_present := by
        intro hnone
        rcases hpresent with halone | hbegins
        · exact halone
        · cases t with
          | nil => cases hbegins
          | cons c rest =>
              have hc : mark.isDigit c = true := by simpa [begins] using hbegins
              simp [hc] at hnone }
  refine ⟨.number n, t.dropWhile mark.isDigit, ?_, ⟨begins_dropWhile _ _, ?_⟩, ?_⟩
  · change _ = minus negative ++ mark.written ++ t.takeWhile mark.isDigit ++
      t.dropWhile mark.isDigit
    rw [List.append_assoc _ (t.takeWhile mark.isDigit), List.takeWhile_append_dropWhile]
  · intro hdecimal
    exact absurd hdecimal hmark
  · rw [Piece.reading, n.faults_map]
    rfl

theorem takesPiece_decimal (p : Position) (negative : Bool) {c : Char} {t : Text}
    (hc : c.isDigit = true)
    (hzero : c = '0' -> begins ['x', 'X', 'b', 'B'].contains t = false) :
    (Reading.plain p .number (minus negative ++ c :: t.takeWhile Char.isDigit)
      (t.dropWhile Char.isDigit)).TakesPiece p (minus negative ++ c :: t) := by
  let n : Number :=
    { negative := negative
      mark := .decimal
      digits := c :: t.takeWhile Char.isDigit
      sign_fits := fun _ => rfl
      digits_fit := by
        intro x hx
        rcases List.mem_cons.mp hx with rfl | hx
        · exact hc
        · exact mem_run hx
      digits_present := nofun }
  have hwritten : n.written = minus negative ++ c :: t.takeWhile Char.isDigit := by
    simp [Number.written, Mark.written, n]
  have hshown : n.shown = minus negative ++ c :: t.takeWhile Char.isDigit := by
    simp [Number.shown, Mark.shown, n]
  refine ⟨.number n, t.dropWhile Char.isDigit, ?_, ⟨begins_dropWhile _ _, ?_⟩, ?_⟩
  · rw [Piece.written, hwritten, List.append_assoc, List.cons_append,
      List.takeWhile_append_dropWhile]
  · intro _ hlone
    rcases List.cons.inj hlone with ⟨hfirst, hnone⟩
    have hrest : t.dropWhile Char.isDigit = t := by
      rw [← List.nil_append (List.dropWhile _ t), ← hnone, List.takeWhile_append_dropWhile]
    rw [hrest]
    exact hzero hfirst
  · rw [Piece.reading, Piece.token?, Piece.written, hwritten, hshown]
    rfl

theorem takesPiece_number (p : Position) (negative : Bool) {c : Char} (t : Text)
    (hc : c.isDigit = true) :
    (number p (minus negative) c t).TakesPiece p (minus negative ++ c :: t) := by
  have hmarked : ∀ (mark : Mark) (rest : Text), mark.standsAlone = true ->
      c :: t = mark.written ++ rest ->
      (digits p (minus negative) mark.written mark.shown mark.isDigit rest).TakesPiece p
        (minus negative ++ c :: t) := by
    intro mark rest halone htext
    rw [htext, ← List.append_assoc]
    apply takesPiece_digits p _ _ (Or.inl halone)
    · exact fun _ => Mark.takesSign_of_standsAlone halone
    · rintro rfl
      cases halone
  unfold number
  split
  · exact hmarked (.hex false) _ rfl rfl
  · exact hmarked (.hex true) _ rfl rfl
  · exact hmarked (.binary false) _ rfl rfl
  · exact hmarked (.binary true) _ rfl rfl
  next hx hX hb hB =>
    apply takesPiece_decimal p negative hc
    intro hzero
    cases t with
    | nil => rfl
    | cons d rest =>
        refine Bool.eq_false_iff.mpr fun hletter => ?_
        have hmem : d ∈ ['x', 'X', 'b', 'B'] := by simpa [begins] using hletter
        simp only [List.mem_cons, List.not_mem_nil, or_false] at hmem
        rcases hmem with rfl | rfl | rfl | rfl
        · exact hx rest hzero rfl
        · exact hX rest hzero rfl
        · exact hb rest hzero rfl
        · exact hB rest hzero rfl

/-!
### Strings
-/

/-- The reading goes on with a string after its contents and faults so far and the text
that they come from. -/
def Reading.TakesString (r : Reading) (start : Position) (contents : Text)
    (faults : List Diagnostic) (before t : Text) : Prop :=
  ∃ parts closing rest, t = parts.flatMap Part.written ++ (Closing.written closing ++ rest) ∧
    closing.Ends rest ∧
    r = ⟨some (.string, contents.reverse ++ parts.flatMap Part.contents),
      faults.reverse ++ (Part.faults before parts ++
        closing.faults (before ++ parts.flatMap Part.written)).map (Piece.diagnose start),
      start.after (before ++ (parts.flatMap Part.written ++ closing.written)), rest⟩

theorem Reading.TakesString.cons {r : Reading} {start : Position} {contents : Text}
    {faults : List Diagnostic} {before t : Text} (x : Part)
    (h : r.TakesString start (x.contents.reverse ++ contents)
      ((x.fault?.map (before, ·)).toList.map (Piece.diagnose start) ++ faults)
      (before ++ x.written) t) :
    r.TakesString start contents faults before (x.written ++ t) := by
  rcases h with ⟨parts, closing, rest, rfl, hends, rfl⟩
  refine ⟨x :: parts, closing, rest, ?_, hends, ?_⟩
  · rw [List.flatMap_cons, List.append_assoc]
  · have hone : ∀ o : Option Diagnostic.LexicalFault,
        ((o.map (before, ·)).toList.map (Piece.diagnose start)).reverse =
          (o.map (before, ·)).toList.map (Piece.diagnose start) := by
      intro o
      cases o with
      | none => rfl
      | some f => rfl
    simp [Part.faults, hone]

theorem takesString_string (start : Position) (contents : Text) (faults : List Diagnostic)
    (before t : Text) :
    (string start contents faults (start.after before) t).TakesString start contents faults
      before t := by
  have hnext : ∀ (s : Text) (c : Char), (start.after s).next c = start.after (s ++ [c]) := by
    intro s c
    rw [Position.after_append]
    rfl
  generalize hp : start.after before = p
  fun_induction string start contents faults p t generalizing before with
  | case1 contents faults p =>
      subst hp
      refine ⟨[], .missing, [], rfl, rfl, ?_⟩
      simp [string.unterminated, Part.faults, Closing.faults, Closing.written, Piece.diagnose]
  | case2 contents faults p rest =>
      subst hp
      refine ⟨[], .quote, rest, rfl, trivial, ?_⟩
      simp [hnext, Part.faults, Closing.faults, Closing.written]
  | case3 contents faults p ih =>
      subst hp
      refine ⟨[], .cut, [], rfl, rfl, ?_⟩
      simp [string, string.unterminated, hnext, Part.faults, Closing.faults, Closing.written,
        Piece.diagnose]
  | case4 contents faults p e rest c he ih =>
      subst hp
      apply Reading.TakesString.cons (.escape e c he)
      exact ih (before ++ ['\\', e]) (by simp [hnext])
  | case5 contents faults p e rest he ih =>
      subst hp
      apply Reading.TakesString.cons (.unknown e he)
      exact ih (before ++ ['\\', e]) (by simp [hnext])
  | case6 contents faults p rest =>
      subst hp
      refine ⟨[], .missing, '\n' :: rest, rfl, rfl, ?_⟩
      simp [string.unterminated, Part.faults, Closing.faults, Closing.written, Piece.diagnose]
  | case7 contents faults p c rest hquote hlone hescape hline ih =>
      subst hp
      have hbackslash := ne_backslash hlone hescape
      apply Reading.TakesString.cons (.plain c ⟨hquote, hbackslash, hline⟩)
      exact ih (before ++ [c]) (hnext before c).symm

/-!
### Every reading
-/

theorem takesPiece_malformed (p : Position) (t : Text) :
    (⟨none, [fault p .malformedCharacter], p.after ('\'' :: (malformedExtent t).1),
      (malformedExtent t).2⟩ : Reading).TakesPiece p ('\'' :: t) := by
  have hclass : ∀ {c : Char}, c ∈ t.takeWhile (fun c => c != '\n' && c != '\'') ->
      c ≠ '\n' ∧ c ≠ '\'' := by
    intro c hc
    simpa using mem_run hc
  have hrun : '\n' ∉ t.takeWhile (fun c => c != '\n' && c != '\'') ∧
      '\'' ∉ t.takeWhile (fun c => c != '\n' && c != '\'') :=
    ⟨fun hmem => (hclass hmem).1 rfl, fun hmem => (hclass hmem).2 rfl⟩
  have hends := begins_dropWhile (fun c => c != '\n' && c != '\'') t
  have hsplit := List.takeWhile_append_dropWhile (p := fun c => c != '\n' && c != '\'') (l := t)
  unfold malformedExtent
  split
  next rest hrest =>
    rw [hrest] at hsplit
    refine ⟨.malformed _ true hrun, rest, ?_, nofun, rfl⟩
    simpa [Piece.written] using hsplit.symm
  next hopen =>
    refine ⟨.malformed _ false hrun, t.dropWhile (fun c => c != '\n' && c != '\''), ?_,
      fun _ => ?_, ?_⟩
    · simp [Piece.written]
    · -- the run stopped at a line feed if it stopped at all
      cases hrest : t.dropWhile (fun c => c != '\n' && c != '\'') with
      | nil => rfl
      | cons c more =>
          have hquote : c ≠ '\'' := by
            rintro rfl
            exact hopen more hrest
          rw [hrest] at hends
          simpa [begins, hquote] using hends
    · simp [Piece.reading, Piece.written, Piece.token?, Piece.faults, Piece.diagnose]

theorem takesPiece_character (p : Position) (t : Text) :
    (character p t).TakesPiece p ('\'' :: t) := by
  unfold character
  split
  next c rest =>
    split
    · exact takesPiece_malformed p _
    next hc =>
      rw [Bool.or_eq_true, decide_eq_true_eq, decide_eq_true_eq, not_or] at hc
      exact ⟨.character c hc, rest, rfl, trivial, rfl⟩
  next => exact takesPiece_malformed p t

theorem takesPiece_read (p : Position) (c : Char) (t : Text) :
    (read p c t).TakesPiece p (c :: t) := by
  have hfits := fits_opening c t
  unfold read
  cases hopening : opening c t with
  | blank =>
      rw [hopening] at hfits
      exact ⟨.blank c hfits, t, rfl, trivial, rfl⟩
  | comment =>
      rw [hopening] at hfits
      cases hfits
      have hline : '\n' ∉ t.takeWhile (· != '\n') := by
        intro hmem
        have hclass := mem_run hmem
        cases hclass
      refine ⟨.comment _ hline, t.dropWhile (· != '\n'), ?_, begins_dropWhile _ _, rfl⟩
      rw [Piece.written, List.cons_append, List.takeWhile_append_dropWhile]
  | word =>
      rw [hopening] at hfits
      refine ⟨.word _ (isWord_run hfits t), t.dropWhile isWordPart, ?_,
        begins_dropWhile _ _, rfl⟩
      rw [Piece.written, List.cons_append, List.takeWhile_append_dropWhile]
  | number =>
      rw [hopening] at hfits
      exact takesPiece_number p false t hfits
  | hexNumber =>
      rw [hopening] at hfits
      rcases hfits with ⟨rfl, hdigit⟩
      exact @takesPiece_digits p false .dollar t nofun nofun (Or.inr hdigit)
  | binaryNumber =>
      rw [hopening] at hfits
      rcases hfits with ⟨rfl, hdigit⟩
      exact @takesPiece_digits p false .percent t nofun nofun (Or.inr hdigit)
  | negative =>
      rw [hopening] at hfits
      rcases hfits with ⟨rfl, hdigit⟩
      cases t with
      | nil => cases hdigit
      | cons d rest => exact takesPiece_number p true rest (by simpa [begins] using hdigit)
  | character =>
      rw [hopening] at hfits
      cases hfits
      exact takesPiece_character p t
  | string =>
      rw [hopening] at hfits
      cases hfits
      rcases takesString_string p [] [] ['"'] t with ⟨parts, closing, rest, rfl, hends, hread⟩
      refine ⟨.string parts closing, rest, ?_, hends, hread⟩
      rw [Piece.written, List.cons_append, List.append_assoc]
  | directive =>
      rw [hopening] at hfits
      rcases hfits with ⟨rfl, hstart⟩
      cases t with
      | nil => cases hstart
      | cons d rest =>
          have hd : isWordStart d = true := by simpa [begins] using hstart
          have hpart : isWordPart d = true := by simp [isWordPart, hd]
          refine ⟨.directive _ (isWord_run hd rest), rest.dropWhile isWordPart, ?_,
            begins_dropWhile _ _, ?_⟩
          · rw [Piece.written, List.cons_append, List.cons_append,
              List.takeWhile_append_dropWhile]
          · rw [directive, List.takeWhile_cons_of_pos hpart, List.dropWhile_cons_of_pos hpart]
            rfl
  | punctuation =>
      rw [hopening] at hfits
      exact ⟨.punctuation c hfits, t, rfl, trivial, rfl⟩
  | other => exact ⟨.unexpected c, t, rfl, trivial, rfl⟩

end Lexeme

/-!
## Faults

A fault is about a character of its piece: a character by itself, or the first one of a
number, a literal, a string or an escape.
-/

open Lexeme

def Diagnostic.LexicalFault.At (t : Text) : Diagnostic.LexicalFault -> Prop
  | unexpectedCharacter c => t.head? = some c
  | missingDigits mark =>
      ∃ n : Number, ∃ rest, t = n.written ++ rest ∧ n.Ends rest ∧ n.digits = [] ∧
        n.mark.shown = mark
  | malformedCharacter => t.head? = some '\''
  | unterminatedString => t.head? = some '"'
  | unknownEscape e => t.head? = some '\\' ∧ t.tail.headD '\x00' = e

namespace Lexeme

theorem wordKind_eq_or (text : Text) :
    wordKind text = .identifier ∨ ∃ operation, wordKind text = .mnemonic operation := by
  unfold wordKind
  split
  · exact Or.inr ⟨_, rfl⟩
  · exact Or.inl rfl

namespace Piece

theorem written_ne_nil (piece : Piece) : piece.written ≠ [] := by
  cases piece with
  | word text h =>
      rintro rfl
      cases h
  | number n =>
      intro hnone
      rw [written, Number.written, List.append_eq_nil_iff, List.append_eq_nil_iff] at hnone
      exact Mark.written_ne_nil (n.digits_present hnone.2) hnone.1.2
  | blank | comment | directive | character | string | punctuation | malformed | unexpected =>
      exact List.cons_ne_nil _ _

theorem at_of_mem_faults {parts : List Part} {before first : Text}
    {f : Diagnostic.LexicalFault} (h : (first, f) ∈ Part.faults before parts) (rest : Text) :
    ∃ later, before ++ parts.flatMap Part.written = first ++ later ∧ f.At (later ++ rest) := by
  induction parts generalizing before with
  | nil => cases h
  | cons x parts ih =>
      rw [Part.faults, List.mem_append] at h
      rcases h with h | h
      · cases x with
        | plain c hc => cases h
        | escape e c he => cases h
        | unknown e he =>
            cases List.mem_singleton.mp h
            exact ⟨_, rfl, rfl, rfl⟩
      · rcases ih h with ⟨later, htext, hat⟩
        refine ⟨later, ?_, hat⟩
        rw [List.flatMap_cons, ← List.append_assoc]
        exact htext

/-- A fault of a piece stands at a character of the piece. -/
theorem fault_at {piece : Piece} {rest first : Text} {f : Diagnostic.LexicalFault}
    (hends : piece.Ends rest) (h : (first, f) ∈ piece.faults) :
    ∃ later, piece.written = first ++ later ∧ f.At (later ++ rest) := by
  cases piece with
  | number n =>
      rw [faults] at h
      split at h
      next hnone =>
        cases List.mem_singleton.mp h
        exact ⟨_, rfl, n, rest, rfl, hends, List.isEmpty_iff.mp hnone, rfl⟩
      next => cases h
  | string parts closing =>
      rw [faults, List.mem_append] at h
      rcases h with h | h
      · rcases at_of_mem_faults h (closing.written ++ rest) with ⟨later, htext, hat⟩
        refine ⟨later ++ closing.written, ?_, ?_⟩
        · rw [← List.append_assoc, ← htext]
          rfl
        · rwa [List.append_assoc]
      · cases closing with
        | quote => cases h
        | missing =>
            cases List.mem_singleton.mp h
            exact ⟨_, rfl, rfl⟩
        | cut =>
            rcases List.mem_cons.mp h with h | h
            · cases h
              refine ⟨['\\'], rfl, rfl, ?_⟩
              rw [show rest = [] from hends]
              rfl
            · cases List.mem_singleton.mp h
              exact ⟨_, rfl, rfl⟩
  | malformed | unexpected =>
      cases List.mem_singleton.mp h
      exact ⟨_, rfl, rfl⟩
  | blank | comment | word | directive | character | punctuation => cases h

end Piece
end Lexeme
end Asm6502

import Asm6502.Proofs.Lexing

/-!
# Single readings

What one reading does with the text in front of it: it takes a stretch of the text
and moves its position over it, its diagnostics point no further back than where it
began, it is the same reading some lines further down, and a line feed after the
text changes nothing but the rest.  The last point has one exception, a string that
ends in the middle of an escape.
-/

namespace Asm6502

/-!
## Positions further down
-/

namespace Position

def down (n : Int) (p : Position) : Position :=
  ⟨p.line + n, p.column⟩

@[simp] theorem down_zero (p : Position) : p.down 0 = p := by
  simp [down]

theorem down_down (m n : Int) (p : Position) :
    (p.down m).down n = p.down (m + n) := by
  simp [down, Int.add_assoc]

theorem next_down (n : Int) (p : Position) (c : Char) :
    (p.down n).next c = (p.next c).down n := by
  unfold next
  split
  · simp [down, Int.add_right_comm]
  · rfl

theorem after_down (n : Int) (p : Position) (t : Text) :
    (p.down n).after t = (p.after t).down n := by
  induction t generalizing p with
  | nil => rfl
  | cons c rest ih => rw [after_cons, after_cons, next_down, ih]

theorem line_next (p : Position) (c : Char) :
    (p.next c).line = p.line + if c = '\n' then 1 else 0 := by
  unfold next
  split <;> simp

theorem line_after_count (p : Position) (t : Text) :
    (p.after t).line = p.line + t.count '\n' := by
  induction t generalizing p with
  | nil => simp
  | cons c rest ih =>
      rw [after_cons, ih, line_next, List.count_cons]
      by_cases hc : c = '\n'
      · simp [hc, Int.add_assoc, Int.add_comm 1]
      · simp [hc]

theorem line_le_next (p : Position) (c : Char) : p.line ≤ (p.next c).line := by
  rw [line_next]
  split <;> omega

theorem line_le_after (p : Position) (t : Text) : p.line ≤ (p.after t).line := by
  rw [line_after_count]
  omega

end Position

def Token.down (n : Int) (t : Token) : Token :=
  { t with position := t.position.down n }

def Diagnostic.down (n : Int) (d : Diagnostic) : Diagnostic :=
  { d with position := d.position.down n }

@[simp] theorem Token.down_zero (t : Token) : t.down 0 = t := by
  simp [Token.down]

theorem Token.down_down (m n : Int) (t : Token) :
    (t.down m).down n = t.down (m + n) := by
  simp [Token.down, Position.down_down]

namespace Lexeme

/-!
## What is taken
-/

def Reading.Takes (r : Reading) (p : Position) (t : Text) : Prop :=
  ∃ used, t = used ++ r.rest ∧ r.position = p.after used

theorem takes_digits (p : Position) (sign written mark : Text)
    (class? : Char -> Bool) (t : Text) :
    (digits p sign written mark class? t).Takes p (sign ++ written ++ t) := by
  refine ⟨sign ++ written ++ t.takeWhile class?, ?_, rfl⟩
  rw [List.append_assoc (sign ++ written)]
  exact congrArg _ List.takeWhile_append_dropWhile.symm

theorem takes_number (p : Position) (sign : Text) (c : Char) (t : Text) :
    (number p sign c t).Takes p (sign ++ c :: t) := by
  have hmarked : ∀ (written mark : Text) (class? : Char -> Bool) (rest : Text),
      c :: t = written ++ rest ->
      (digits p sign written mark class? rest).Takes p (sign ++ c :: t) := by
    intro written mark class? rest heq
    rw [heq, ← List.append_assoc]
    exact takes_digits p sign written mark class? rest
  unfold number
  split
  · exact hmarked _ _ _ _ rfl
  · exact hmarked _ _ _ _ rfl
  · exact hmarked _ _ _ _ rfl
  · exact hmarked _ _ _ _ rfl
  · refine ⟨sign ++ c :: t.takeWhile Char.isDigit, ?_, rfl⟩
    simp [Reading.plain]

theorem malformedExtent_append (t : Text) :
    (malformedExtent t).1 ++ (malformedExtent t).2 = t := by
  have hsplit := List.takeWhile_append_dropWhile
    (p := fun c => c != '\n' && c != '\'') (l := t)
  unfold malformedExtent
  split
  · rename_i rest heq
    rw [heq] at hsplit
    simpa using hsplit
  · exact hsplit

theorem takes_character (p : Position) (t : Text) :
    (character p t).Takes p ('\'' :: t) := by
  have hmalformed : '\'' :: t =
      ('\'' :: (malformedExtent t).1) ++ (malformedExtent t).2 := by
    rw [List.cons_append, malformedExtent_append]
  unfold character
  split
  · rename_i c rest
    split
    · exact ⟨_, hmalformed, rfl⟩
    · exact ⟨['\'', c, '\''], rfl, rfl⟩
  · exact ⟨_, hmalformed, rfl⟩

theorem Reading.Takes.cons {r : Reading} {p : Position} {c : Char} {t : Text}
    (h : r.Takes (p.next c) t) : r.Takes p (c :: t) := by
  rcases h with ⟨used, htext, hposition⟩
  refine ⟨c :: used, ?_, hposition⟩
  rw [List.cons_append, ← htext]

theorem takes_string (start : Position) (contents : Text) (faults : List Diagnostic)
    (p : Position) (t : Text) : (string start contents faults p t).Takes p t := by
  fun_induction string start contents faults p t with
  | case1 => exact ⟨[], rfl, rfl⟩
  | case2 => exact ⟨['"'], rfl, rfl⟩
  | case3 contents faults p ih => exact ih.cons
  | case4 contents faults p e rest c _ ih => exact ih.cons.cons
  | case5 contents faults p e rest _ ih => exact ih.cons.cons
  | case6 => exact ⟨[], rfl, rfl⟩
  | case7 contents faults p c rest _ _ _ _ ih => exact ih.cons

def Opening.Fits (c : Char) (t : Text) : Opening -> Prop
  | blank => isBlank c = true
  | comment => c = ';'
  | word => isWordStart c = true
  | number => c.isDigit = true
  | hexNumber => c = '$' ∧ begins isHexDigit t = true
  | binaryNumber => c = '%' ∧ begins isBinaryDigit t = true
  | negative => c = '-' ∧ begins Char.isDigit t = true
  | character => c = '\''
  | string => c = '"'
  | directive => c = '.' ∧ begins isWordStart t = true
  | punctuation => isPunctuation c = true
  | other => True

theorem Opening.fits_ite {q : Prop} [Decidable q] {c : Char} {t : Text}
    {first second : Opening} (hfirst : q -> first.Fits c t)
    (hsecond : ¬q -> second.Fits c t) :
    (if q then first else second).Fits c t := by
  by_cases hq : q
  · rw [if_pos hq]
    exact hfirst hq
  · rw [if_neg hq]
    exact hsecond hq

theorem fits_opening (c : Char) (t : Text) : (opening c t).Fits c t := by
  have hboth : ∀ {mark : Char} {r : Bool}, (decide (c = mark) && r) = true ->
      c = mark ∧ r = true := by
    intro mark r h
    rwa [Bool.and_eq_true, decide_eq_true_eq] at h
  unfold opening
  refine Opening.fits_ite (fun hblank => hblank) fun _ => ?_
  refine Opening.fits_ite (fun hsemicolon => hsemicolon) fun _ => ?_
  refine Opening.fits_ite (fun hletter => hletter) fun _ => ?_
  refine Opening.fits_ite (fun hdigit => hdigit) fun _ => ?_
  refine Opening.fits_ite (fun hdollar => hboth hdollar) fun _ => ?_
  refine Opening.fits_ite (fun hpercent => hboth hpercent) fun _ => ?_
  refine Opening.fits_ite (fun hminus => hboth hminus) fun _ => ?_
  refine Opening.fits_ite (fun hquote => hquote) fun _ => ?_
  refine Opening.fits_ite (fun hquote => hquote) fun _ => ?_
  refine Opening.fits_ite (fun hpoint => hboth hpoint) fun _ => ?_
  exact Opening.fits_ite (fun hmark => hmark) fun _ => trivial

theorem takes_read (p : Position) (c : Char) (t : Text) :
    (read p c t).Takes p (c :: t) := by
  have hrun : ∀ class? : Char -> Bool,
      c :: t = (c :: t.takeWhile class?) ++ t.dropWhile class? := by
    intro class?
    rw [List.cons_append, List.takeWhile_append_dropWhile]
  have hfits := fits_opening c t
  unfold read
  cases hopening : opening c t with
  | blank => exact ⟨[c], rfl, rfl⟩
  | comment => exact ⟨_, hrun _, rfl⟩
  | word => exact ⟨_, hrun _, rfl⟩
  | number => exact takes_number p [] c t
  | hexNumber => exact takes_digits p [] [c] [c] isHexDigit t
  | binaryNumber => exact takes_digits p [] [c] [c] isBinaryDigit t
  | negative =>
      cases t with
      | nil => exact ⟨[c], rfl, rfl⟩
      | cons d rest => exact takes_number p [c] d rest
  | character =>
      rw [hopening] at hfits
      rw [show c = '\'' from hfits]
      exact takes_character p t
  | string => exact (takes_string ..).cons
  | directive =>
      rw [hopening] at hfits
      refine ⟨c :: t.takeWhile isWordPart, hrun _, ?_⟩
      rw [hfits.1]
      rfl
  | punctuation => exact ⟨[c], rfl, rfl⟩
  | other => exact ⟨[c], rfl, rfl⟩

/-!
## Diagnostics of a reading
-/

def IsFaultFrom (line : Int) (d : Diagnostic) : Prop :=
  d.kind = .lexical ∧ line ≤ d.position.line

def Reading.FaultsFrom (line : Int) (r : Reading) : Prop :=
  ∀ d ∈ r.faults, IsFaultFrom line d

theorem faultsFrom_string {line : Int} {start p : Position} {contents : Text}
    {faults : List Diagnostic} {t : Text} (hstart : line ≤ start.line)
    (hp : line ≤ p.line) (hfaults : ∀ d ∈ faults, IsFaultFrom line d) :
    (string start contents faults p t).FaultsFrom line := by
  have hnext : ∀ {q : Position} (c : Char), line ≤ q.line -> line ≤ (q.next c).line :=
    fun c hq => Int.le_trans hq (Position.line_le_next _ c)
  have hcons : ∀ {q : Position} {f : Diagnostic.LexicalFault}
      {more : List Diagnostic}, line ≤ q.line ->
      (∀ d ∈ more, IsFaultFrom line d) ->
      ∀ d ∈ fault q f :: more, IsFaultFrom line d := by
    intro q f more hq hmore d hd
    rcases List.mem_cons.mp hd with rfl | hd
    · exact ⟨rfl, hq⟩
    · exact hmore d hd
  fun_induction string start contents faults p t with
  | case1 contents faults p =>
      intro d hd
      exact hcons hstart hfaults d (List.mem_reverse.mp hd)
  | case2 contents faults p rest =>
      intro d hd
      exact hfaults d (List.mem_reverse.mp hd)
  | case3 contents faults p ih => exact ih (hnext _ hp) (hcons hp hfaults)
  | case4 contents faults p e rest c _ ih =>
      exact ih (hnext _ (hnext _ hp)) hfaults
  | case5 contents faults p e rest _ ih =>
      exact ih (hnext _ (hnext _ hp)) (hcons hp hfaults)
  | case6 contents faults p =>
      intro d hd
      exact hcons hstart hfaults d (List.mem_reverse.mp hd)
  | case7 contents faults p c rest _ _ _ _ ih => exact ih (hnext _ hp) hfaults

theorem faultsFrom_of_subset {r : Reading} {p : Position}
    {f : Diagnostic.LexicalFault} (h : r.faults ⊆ [fault p f]) :
    r.FaultsFrom p.line := by
  intro d hd
  rw [List.mem_singleton.mp (h hd)]
  exact ⟨rfl, Int.le_refl _⟩

theorem faultsFrom_nil {line : Int} {r : Reading} (h : r.faults = []) :
    r.FaultsFrom line := by
  intro d hd
  rw [h] at hd
  cases hd

theorem faultsFrom_digits {p : Position} {sign written mark : Text}
    {class? : Char -> Bool} {t : Text} :
    (digits p sign written mark class? t).FaultsFrom p.line := by
  apply faultsFrom_of_subset (f := .missingDigits mark)
  simp only [digits]
  split
  · exact List.Subset.refl _
  · exact List.nil_subset _

theorem faultsFrom_number {p : Position} {sign : Text} {c : Char} {t : Text} :
    (number p sign c t).FaultsFrom p.line := by
  unfold number
  split
  · exact faultsFrom_digits
  · exact faultsFrom_digits
  · exact faultsFrom_digits
  · exact faultsFrom_digits
  · exact faultsFrom_nil rfl

theorem faultsFrom_character {p : Position} {t : Text} :
    (character p t).FaultsFrom p.line := by
  unfold character
  split
  · split
    · exact faultsFrom_of_subset (List.Subset.refl _)
    · exact faultsFrom_nil rfl
  · exact faultsFrom_of_subset (List.Subset.refl _)

/-- A reading reports nothing but faults of the characters, from its own line on. -/
theorem faultsFrom_read (p : Position) (c : Char) (t : Text) :
    (read p c t).FaultsFrom p.line := by
  unfold read
  cases opening c t with
  | blank => exact faultsFrom_nil rfl
  | comment => exact faultsFrom_nil rfl
  | word => exact faultsFrom_nil rfl
  | number => exact faultsFrom_number
  | hexNumber => exact faultsFrom_digits
  | binaryNumber => exact faultsFrom_digits
  | negative =>
      cases t with
      | nil => exact faultsFrom_of_subset (List.Subset.refl _)
      | cons d rest => exact faultsFrom_number
  | character => exact faultsFrom_character
  | string =>
      exact faultsFrom_string (Int.le_refl _) (Position.line_le_next p c)
        (fun d hd => nomatch hd)
  | directive => exact faultsFrom_nil rfl
  | punctuation => exact faultsFrom_nil rfl
  | other => exact faultsFrom_of_subset (List.Subset.refl _)

/-!
## Readings further down
-/

def Reading.down (n : Int) (r : Reading) : Reading :=
  { r with faults := r.faults.map (Diagnostic.down n), position := r.position.down n }

theorem digits_down (n : Int) (p : Position) (sign written mark : Text)
    (class? : Char -> Bool) (t : Text) :
    digits (p.down n) sign written mark class? t =
      (digits p sign written mark class? t).down n := by
  unfold digits Reading.down
  simp only [Position.after_down]
  split <;> rfl

theorem plain_down (n : Int) (p : Position) (kind : Token.Kind) (text rest : Text) :
    Reading.plain (p.down n) kind text rest =
      (Reading.plain p kind text rest).down n := by
  simp only [Reading.plain, Reading.down, Position.after_down, List.map_nil]

theorem number_down (n : Int) (p : Position) (sign : Text) (c : Char) (t : Text) :
    number (p.down n) sign c t = (number p sign c t).down n := by
  unfold number
  split
  · exact digits_down ..
  · exact digits_down ..
  · exact digits_down ..
  · exact digits_down ..
  · exact plain_down ..

theorem character_down (n : Int) (p : Position) (t : Text) :
    character (p.down n) t = (character p t).down n := by
  unfold character
  simp only [Position.after_down]
  split
  · split
    · rfl
    · exact plain_down ..
  · rfl

theorem string_cons (start : Position) (contents : Text) (faults : List Diagnostic)
    (p : Position) {c : Char} (hquote : c ≠ '"') (hbackslash : c ≠ '\\')
    (hline : c ≠ '\n') (rest : Text) :
    string start contents faults p (c :: rest) =
      string start (c :: contents) faults (p.next c) rest :=
  (Spells.plain hquote hbackslash hline).string start contents faults p rest

theorem ne_backslash {c : Char} {rest : Text} (hlone : c = '\\' -> rest = [] -> False)
    (hescape : ∀ e more, c = '\\' -> rest = e :: more -> False) : c ≠ '\\' := by
  intro hc
  cases rest with
  | nil => exact hlone hc rfl
  | cons e more => exact hescape e more hc rfl

theorem string_newline (start : Position) (contents : Text) (faults : List Diagnostic)
    (p : Position) (rest : Text) :
    string start contents faults p ('\n' :: rest) =
      string.unterminated start contents faults p ('\n' :: rest) := by
  rw [string.eq_def]
  rfl

theorem string_down (n : Int) (start : Position) (contents : Text)
    (faults : List Diagnostic) (p : Position) (t : Text) :
    string (start.down n) contents (faults.map (Diagnostic.down n)) (p.down n) t =
      (string start contents faults p t).down n := by
  have hend : ∀ (contents : Text) (faults : List Diagnostic) (p : Position)
      (rest : Text),
      string.unterminated (start.down n) contents (faults.map (Diagnostic.down n))
          (p.down n) rest =
        (string.unterminated start contents faults p rest).down n := by
    intro contents faults p rest
    simp [string.unterminated, Reading.down, fault, Diagnostic.down]
  fun_induction string start contents faults p t with
  | case1 contents faults p => exact hend contents faults p []
  | case2 contents faults p rest =>
      simp [string, Reading.down, Position.next_down]
  | case3 contents faults p ih =>
      rw [← ih, ← Position.next_down]
      rfl
  | case4 contents faults p e rest c he ih =>
      rw [← ih, string]
      simp only [he, Position.next_down]
  | case5 contents faults p e rest he ih =>
      rw [← ih, string]
      simp only [he, Position.next_down]
      rfl
  | case6 contents faults p c rest =>
      rw [string_newline]
      exact hend contents faults p _
  | case7 contents faults p c rest hquote hlone hescape hline ih =>
      rw [← ih, string_cons _ _ _ _ hquote (ne_backslash hlone hescape) hline,
        Position.next_down]

theorem read_down (n : Int) (p : Position) (c : Char) (t : Text) :
    read (p.down n) c t = (read p c t).down n := by
  have hunexpected : unexpected (p.down n) c t = (unexpected p c t).down n := by
    simp [unexpected, Reading.down, fault, Diagnostic.down, Position.next_down]
  unfold read
  cases opening c t with
  | blank => simp only [Reading.down, Position.next_down, List.map_nil]
  | comment => simp only [comment, Reading.down, Position.after_down, List.map_nil]
  | word => exact plain_down ..
  | number => exact number_down ..
  | hexNumber => exact digits_down ..
  | binaryNumber => exact digits_down ..
  | negative =>
      cases t with
      | nil => exact hunexpected
      | cons d rest => exact number_down ..
  | character => exact character_down ..
  | string =>
      show string (p.down n) [] [] ((p.down n).next c) t = _
      rw [Position.next_down]
      exact string_down n p [] [] (p.next c) t
  | directive => exact plain_down ..
  | punctuation => exact plain_down ..
  | other => exact hunexpected

/-!
## Readings in front of a line feed

A line feed belongs to no class of characters that a reading runs through, so most
readings stop at it just as they stop at the end of the text.
-/

theorem isHexDigit_newline : isHexDigit '\n' = false := by decide

theorem isBinaryDigit_newline : isBinaryDigit '\n' = false := by decide

theorem isDigit_newline : Char.isDigit '\n' = false := by decide

theorem takeWhile_newline {class? : Char -> Bool} (h : class? '\n' = false)
    (t more : Text) : (t ++ '\n' :: more).takeWhile class? = t.takeWhile class? := by
  induction t with
  | nil => simp [h]
  | cons c rest ih =>
      rw [List.cons_append, List.takeWhile_cons, List.takeWhile_cons, ih]

theorem dropWhile_newline {class? : Char -> Bool} (h : class? '\n' = false)
    (t more : Text) :
    (t ++ '\n' :: more).dropWhile class? = t.dropWhile class? ++ '\n' :: more := by
  induction t with
  | nil => simp [h]
  | cons c rest ih =>
      rw [List.cons_append, List.dropWhile_cons, List.dropWhile_cons, ih]
      split <;> rfl

theorem begins_newline {class? : Char -> Bool} (h : class? '\n' = false)
    (t more : Text) : begins class? (t ++ '\n' :: more) = begins class? t := by
  cases t with
  | nil => simp [begins, h]
  | cons c rest => rfl

theorem opening_newline (c : Char) (t more : Text) :
    opening c (t ++ '\n' :: more) = opening c t := by
  have hword : isWordStart '\n' = false := by decide
  unfold opening
  rw [begins_newline isHexDigit_newline, begins_newline isBinaryDigit_newline,
    begins_newline isDigit_newline, begins_newline hword]

def Reading.before (more : Text) (r : Reading) : Reading :=
  { r with rest := r.rest ++ more }

theorem plain_newline {class? : Char -> Bool} (h : class? '\n' = false)
    (p : Position) (kind : Token.Kind) (text : Text -> Text) (t more : Text) :
    Reading.plain p kind (text ((t ++ '\n' :: more).takeWhile class?))
        ((t ++ '\n' :: more).dropWhile class?) =
      (Reading.plain p kind (text (t.takeWhile class?))
        (t.dropWhile class?)).before ('\n' :: more) := by
  rw [takeWhile_newline h, dropWhile_newline h]
  rfl

theorem digits_newline {class? : Char -> Bool} (h : class? '\n' = false)
    (p : Position) (sign written mark t more : Text) :
    digits p sign written mark class? (t ++ '\n' :: more) =
      (digits p sign written mark class? t).before ('\n' :: more) := by
  unfold digits
  rw [takeWhile_newline h, dropWhile_newline h]
  rfl

theorem number_newline (p : Position) (sign : Text) (c : Char) (t more : Text) :
    number p sign c (t ++ '\n' :: more) =
      (number p sign c t).before ('\n' :: more) := by
  -- The letter of a base does not come into being by the line feed.
  have hletter : ∀ {c letter : Char} {t : Text}, letter ≠ '\n' ->
      (∀ rest, c = '0' -> t = letter :: rest -> False) ->
      ∀ rest, c = '0' -> t ++ '\n' :: more = letter :: rest -> False := by
    intro c letter t hne h rest hc heq
    cases t with
    | nil => exact hne (List.cons.inj heq).1.symm
    | cons first tail =>
        rw [List.cons_append, List.cons.injEq] at heq
        exact h tail hc (by rw [heq.1])
  fun_cases number p sign c t with
  | case1 t => exact digits_newline isHexDigit_newline ..
  | case2 t => exact digits_newline isHexDigit_newline ..
  | case3 t => exact digits_newline isBinaryDigit_newline ..
  | case4 t => exact digits_newline isBinaryDigit_newline ..
  | case5 c t hx hX hb hB =>
      rw [number.eq_5 _ _ _ _ (hletter (by decide) hx) (hletter (by decide) hX)
        (hletter (by decide) hb) (hletter (by decide) hB)]
      exact plain_newline isDigit_newline p .number (fun run => sign ++ c :: run) t more

theorem malformedExtent_newline (t more : Text) :
    malformedExtent (t ++ '\n' :: more) =
      ((malformedExtent t).1, (malformedExtent t).2 ++ '\n' :: more) := by
  have hclass : (fun c : Char => c != '\n' && c != '\'') '\n' = false := by decide
  unfold malformedExtent
  rw [takeWhile_newline hclass, dropWhile_newline hclass]
  cases t.dropWhile fun c => c != '\n' && c != '\'' with
  | nil => rfl
  | cons c rest =>
      by_cases hc : c = '\''
      · rw [hc]
        rfl
      · simp [hc]

theorem character_malformed (p : Position) {t : Text}
    (h : ∀ c rest, t = c :: '\'' :: rest -> c = '\x00' ∨ c = '\n') :
    character p t =
      ⟨none, [fault p .malformedCharacter],
        p.after ('\'' :: (malformedExtent t).1), (malformedExtent t).2⟩ := by
  unfold character
  split
  · rename_i c rest
    have hc := h c rest rfl
    rw [if_pos (by simpa using hc)]
  · rfl

theorem character_newline (p : Position) (t more : Text) :
    character p (t ++ '\n' :: more) = (character p t).before ('\n' :: more) := by
  by_cases hgood : ∃ c rest, t = c :: '\'' :: rest ∧ ¬(c = '\x00' ∨ c = '\n')
  · rcases hgood with ⟨c, rest, rfl, hc⟩
    have hif : (decide (c = '\x00') || decide (c = '\n')) = false := by
      simpa using hc
    simp only [character, List.cons_append, hif]
    rfl
  · have hshort : ∀ c rest, t = c :: '\'' :: rest -> c = '\x00' ∨ c = '\n' := by
      intro c rest heq
      apply Classical.byContradiction
      intro hc
      exact hgood ⟨c, rest, heq, hc⟩
    have hlong : ∀ c rest, t ++ '\n' :: more = c :: '\'' :: rest ->
        c = '\x00' ∨ c = '\n' := by
      intro c rest heq
      match t with
      | [] => exact Or.inr (List.cons.inj heq).1.symm
      | [_] => simp at heq
      | first :: second :: tail =>
          simp only [List.cons_append, List.cons.injEq] at heq
          exact hshort c tail (by rw [heq.1, heq.2.1])
    rw [character_malformed p hshort, character_malformed p hlong,
      malformedExtent_newline]
    rfl

/-!
A string stops at a line feed too, unless the line feed follows a backslash.
-/

/-- Whether a string, from after its opening quote, ends in the middle of an
escape. -/
def endsInEscape : Text -> Bool
  | [] => false
  | '"' :: _ => false
  | ['\\'] => true
  | '\\' :: _ :: rest => endsInEscape rest
  | c :: rest => c != '\n' && endsInEscape rest

theorem string_before_newline {t : Text} (h : endsInEscape t = false)
    (start : Position) (contents : Text) (faults : List Diagnostic) (p : Position)
    (more : Text) :
    string start contents faults p (t ++ '\n' :: more) =
      (string start contents faults p t).before ('\n' :: more) := by
  fun_induction string start contents faults p t with
  | case1 contents faults p => exact string_newline start contents faults p more
  | case2 contents faults p rest => rfl
  | case3 contents faults p ih => cases h
  | case4 contents faults p e rest c he ih =>
      rw [← ih h, List.cons_append, List.cons_append, string]
      simp only [he]
  | case5 contents faults p e rest he ih =>
      rw [← ih h, List.cons_append, List.cons_append, string]
      simp only [he]
  | case6 contents faults p rest =>
      rw [List.cons_append, string_newline]
      rfl
  | case7 contents faults p c rest hquote hlone hescape hline ih =>
      have hbackslash := ne_backslash hlone hescape
      have hrest : endsInEscape rest = false := by
        simpa [endsInEscape, hquote, hbackslash, hline] using h
      rw [← ih hrest, List.cons_append, string_cons _ _ _ _ hquote hbackslash hline]

/-- A line feed after the text changes nothing but the rest. -/
theorem read_before_newline {c : Char} {t : Text}
    (h : opening c t = .string -> endsInEscape t = false) (p : Position) (more : Text) :
    read p c (t ++ '\n' :: more) = (read p c t).before ('\n' :: more) := by
  have hword : isWordPart '\n' = false := by decide
  have hline : (fun c : Char => c != '\n') '\n' = false := by decide
  have hfits := fits_opening c t
  unfold read
  rw [opening_newline]
  cases hopening : opening c t with
  | blank => rfl
  | comment =>
      have htake := @takeWhile_newline (fun c => c != '\n') hline t more
      have hdrop := @dropWhile_newline (fun c => c != '\n') hline t more
      simp only [comment, htake, hdrop]
      rfl
  | word =>
      simp only [word, takeWhile_newline hword, dropWhile_newline hword]
      rfl
  | number => exact number_newline ..
  | hexNumber => exact digits_newline isHexDigit_newline ..
  | binaryNumber => exact digits_newline isBinaryDigit_newline ..
  | negative =>
      cases t with
      | nil =>
          rw [hopening] at hfits
          cases hfits.2
      | cons d rest => exact number_newline ..
  | character => exact character_newline ..
  | string => exact string_before_newline (h hopening) ..
  | directive => exact plain_newline hword p .directive (fun run => '.' :: run) t more
  | punctuation => rfl
  | other => rfl

/-!
In the middle of an escape the line feed is taken for the escaped character.
-/

theorem string_faults (start : Position) (contents : Text) (faults : List Diagnostic)
    (p : Position) (t : Text) :
    ∃ later, (string start contents faults p t).faults = faults.reverse ++ later := by
  fun_induction string start contents faults p t with
  | case1 contents faults p => exact ⟨_, List.reverse_cons⟩
  | case2 contents faults p rest => exact ⟨[], (List.append_nil _).symm⟩
  | case3 contents faults p ih =>
      rcases ih with ⟨later, hlater⟩
      exact ⟨_, by rw [hlater, List.reverse_cons, List.append_assoc]⟩
  | case4 contents faults p e rest c he ih => exact ih
  | case5 contents faults p e rest he ih =>
      rcases ih with ⟨later, hlater⟩
      exact ⟨_, by rw [hlater, List.reverse_cons, List.append_assoc]⟩
  | case6 contents faults p rest => exact ⟨_, List.reverse_cons⟩
  | case7 contents faults p c rest _ _ _ _ ih => exact ih

theorem string_of_endsInEscape {t : Text} (h : endsInEscape t = true)
    (start : Position) (contents : Text) (faults : List Diagnostic) (p : Position)
    (more : Text) :
    ∃ known q, ∃ later : List Diagnostic,
      (string start contents faults p t).faults =
          known ++ [fault q (.unknownEscape '\x00'), fault start .unterminatedString] ∧
        (string start contents faults p (t ++ '\n' :: more)).faults =
          known ++ fault q (.unknownEscape '\n') :: later := by
  fun_induction string start contents faults p t with
  | case1 contents faults p => cases h
  | case2 contents faults p rest => cases h
  | case3 contents faults p ih =>
      rcases string_faults start contents (fault p (.unknownEscape '\n') :: faults)
        ((p.next '\\').next '\n') more with ⟨later, hlater⟩
      rw [List.reverse_cons, List.append_assoc] at hlater
      refine ⟨faults.reverse, p, later, ?_, hlater⟩
      simp [string, string.unterminated]
  | case4 contents faults p e rest c he ih =>
      rcases ih h with ⟨known, q, later, hshort, hlong⟩
      refine ⟨known, q, later, hshort, ?_⟩
      rw [← hlong, List.cons_append, List.cons_append, string]
      simp only [he]
  | case5 contents faults p e rest he ih =>
      rcases ih h with ⟨known, q, later, hshort, hlong⟩
      refine ⟨known, q, later, hshort, ?_⟩
      rw [← hlong, List.cons_append, List.cons_append, string]
      simp only [he]
  | case6 contents faults p rest => cases h
  | case7 contents faults p c rest hquote hlone hescape hline ih =>
      have hbackslash := ne_backslash hlone hescape
      have hrest : endsInEscape rest = true := by
        simpa [endsInEscape, hquote, hbackslash, hline] using h
      rcases ih hrest with ⟨known, q, later, hshort, hlong⟩
      refine ⟨known, q, later, hshort, ?_⟩
      rw [← hlong, List.cons_append, string_cons _ _ _ _ hquote hbackslash hline]

end Lexeme
end Asm6502

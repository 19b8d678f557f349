import Asm6502.Proofs.Readings

/-!
# Scanning line by line

A text is read piece by piece, and no piece runs on over a line feed.  So the lines
of a source are scanned one by one: the tokens and the diagnostics of a text are
those of its first lines, and then those of the others, further down.

The exception is a string with a backslash at the end of its line.  The backslash
takes the line feed with it, and the string goes on on the next line.  The main
result says that this is the only exception.
-/

namespace Asm6502

namespace Scan

def words (scan : Scan) : List Token :=
  scan.lexemes.map Lexeme.token

/-!
## Findings
-/

/-- What one reading contributes to the scan. -/
structure Finding where
  token : Option Token
  faults : List Diagnostic
  deriving DecidableEq

def Finding.down (n : Int) (f : Finding) : Finding :=
  ⟨f.token.map (Token.down n), f.faults.map (Diagnostic.down n)⟩

def Finding.ofReading (p : Position) (r : Lexeme.Reading) : Finding :=
  ⟨r.token.map fun (kind, text) => ⟨kind, text, p⟩, r.faults⟩

def findings (p : Position) : Text -> List Finding
  | [] => []
  | c :: t =>
      .ofReading p (Lexeme.read p c t) ::
        findings (Lexeme.read p c t).position (Lexeme.read p c t).rest
termination_by t => t.length
decreasing_by exact Nat.lt_succ_of_le (Lexeme.read_rest_le p c t)

theorem findings_cons (p : Position) (c : Char) (t : Text) :
    findings p (c :: t) = .ofReading p (Lexeme.read p c t) ::
      findings (Lexeme.read p c t).position (Lexeme.read p c t).rest := by
  rw [findings]

theorem words_onto (done : List Lexeme) (faults : List Diagnostic) (p : Position)
    (t : Text) :
    (onto done faults p t).words =
      done.reverse.map Lexeme.token ++ (findings p t).filterMap Finding.token := by
  fun_induction findings p t generalizing done faults with
  | case1 p => simp [onto, words]
  | case2 p c t ih =>
      rw [onto, List.filterMap_cons]
      cases htoken : (Lexeme.read p c t).token with
      | none => simp [ih, Finding.ofReading, htoken]
      | some found => simp [ih, Finding.ofReading, htoken]

theorem faults_onto (done : List Lexeme) (faults : List Diagnostic) (p : Position)
    (t : Text) :
    (onto done faults p t).faults =
      done.reverse.flatMap Lexeme.faults ++ faults.reverse ++
        (findings p t).flatMap Finding.faults := by
  fun_induction findings p t generalizing done faults with
  | case1 p => simp [onto, Scan.faults, toList]
  | case2 p c t ih =>
      rw [onto, List.flatMap_cons]
      cases htoken : (Lexeme.read p c t).token with
      | none => simp [ih, Finding.ofReading]
      | some found => simp [ih, Finding.ofReading]

theorem words_ofText (t : Text) :
    (ofText t).words = (findings .start t).filterMap Finding.token :=
  words_onto [] [] .start t

theorem faults_ofText (t : Text) :
    (ofText t).faults = (findings .start t).flatMap Finding.faults :=
  faults_onto [] [] .start t

/-!
## Findings further down
-/

theorem findings_down (n : Int) (p : Position) (t : Text) :
    findings (p.down n) t = (findings p t).map (Finding.down n) := by
  fun_induction findings p t with
  | case1 p => rw [findings, List.map_nil]
  | case2 p c t ih =>
      rw [findings_cons, Lexeme.read_down, List.map_cons, ← ih]
      congr 1
      simp only [Finding.ofReading, Finding.down, Lexeme.Reading.down, Option.map_map]
      rfl

theorem filterMap_down (n : Int) (found : List Finding) :
    (found.map (Finding.down n)).filterMap Finding.token =
      (found.filterMap Finding.token).map (Token.down n) := by
  rw [List.filterMap_map, List.map_filterMap]
  rfl

theorem flatMap_down (n : Int) (found : List Finding) :
    (found.map (Finding.down n)).flatMap Finding.faults =
      (found.flatMap Finding.faults).map (Diagnostic.down n) := by
  rw [List.flatMap_map, List.map_flatMap]
  rfl

/-!
## Texts that end in the middle of an escape
-/

/-- Read from the position, the text ends in a string that is still open, right after
a backslash that begins an escape. -/
inductive EndsInEscape : Position -> Text -> Prop where
  | string {p : Position} {t : Text} :
      Lexeme.endsInEscape t = true -> EndsInEscape p ('"' :: t)
  | later {p : Position} {c : Char} {t : Text} :
      EndsInEscape (Lexeme.read p c t).position (Lexeme.read p c t).rest ->
      EndsInEscape p (c :: t)

theorem complete_of_not_endsInEscape {p : Position} {c : Char} {t : Text}
    (h : ¬EndsInEscape p (c :: t)) :
    Lexeme.opening c t = .string -> Lexeme.endsInEscape t = false := by
  intro hopening
  have hfits := Lexeme.fits_opening c t
  rw [hopening] at hfits
  cases hends : Lexeme.endsInEscape t with
  | false => rfl
  | true =>
      rw [show c = '"' from hfits] at h
      exact absurd (.string hends) h

theorem findings_newline {p : Position} {s : Text} (h : ¬EndsInEscape p s) (t : Text) :
    findings p (s ++ '\n' :: t) =
      findings p s ++ ⟨none, []⟩ :: findings ((p.after s).next '\n') t := by
  fun_induction findings p s with
  | case1 p =>
      rw [List.nil_append, findings_cons]
      rfl
  | case2 p c s ih =>
      rcases Lexeme.takes_read p c s with ⟨used, htext, hposition⟩
      have hrest : ¬EndsInEscape (Lexeme.read p c s).position
          (Lexeme.read p c s).rest :=
        fun hends => h (.later hends)
      rw [List.cons_append, findings_cons,
        Lexeme.read_before_newline (complete_of_not_endsInEscape h)]
      show Finding.ofReading p (Lexeme.read p c s) ::
        findings (Lexeme.read p c s).position
          ((Lexeme.read p c s).rest ++ '\n' :: t) = _
      rw [ih hrest, htext, Position.after_append, ← hposition]
      rfl

/-- The two lists of diagnostics begin alike and then differ: an escape that is one of
nothing in the first list is one of the line feed in the second. -/
def PartAtEscape (alone joined : List Diagnostic) : Prop :=
  ∃ known q alone' joined',
    alone = known ++ Lexeme.fault q (.unknownEscape '\x00') :: alone' ∧
      joined = known ++ Lexeme.fault q (.unknownEscape '\n') :: joined'

theorem PartAtEscape.append_left {alone joined : List Diagnostic}
    (h : PartAtEscape alone joined) (before : List Diagnostic) :
    PartAtEscape (before ++ alone) (before ++ joined) := by
  rcases h with ⟨known, q, alone', joined', rfl, rfl⟩
  exact ⟨before ++ known, q, alone', joined', (List.append_assoc ..).symm,
    (List.append_assoc ..).symm⟩

theorem PartAtEscape.append_right {alone joined : List Diagnostic}
    (h : PartAtEscape alone joined) (after after' : List Diagnostic) :
    PartAtEscape (alone ++ after) (joined ++ after') := by
  rcases h with ⟨known, q, alone', joined', rfl, rfl⟩
  exact ⟨known, q, alone' ++ after, joined' ++ after', List.append_assoc ..,
    List.append_assoc ..⟩

theorem PartAtEscape.ne_append {alone joined : List Diagnostic}
    (h : PartAtEscape alone joined) (more : List Diagnostic) :
    joined ≠ alone ++ more := by
  rcases h with ⟨known, q, alone', joined', rfl, rfl⟩
  rw [List.append_assoc, Ne, List.append_right_inj]
  intro heq
  cases heq

/-- In the middle of an escape the line feed shows in the diagnostics. -/
theorem faults_of_endsInEscape {p : Position} {s : Text} (h : EndsInEscape p s)
    (t : Text) :
    PartAtEscape ((findings p s).flatMap Finding.faults)
      ((findings p (s ++ '\n' :: t)).flatMap Finding.faults) := by
  have hstring : ∀ {p : Position} {s : Text}, Lexeme.endsInEscape s = true ->
      PartAtEscape ((findings p ('"' :: s)).flatMap Finding.faults)
        ((findings p ('"' :: s ++ '\n' :: t)).flatMap Finding.faults) := by
    intro p s hends
    rcases Lexeme.string_of_endsInEscape hends p [] [] (p.next '"') t with
      ⟨known, q, later, halone, hjoined⟩
    rw [List.cons_append, findings_cons, findings_cons, List.flatMap_cons,
      List.flatMap_cons]
    apply PartAtEscape.append_right
    simp only [Finding.ofReading, Lexeme.read, Lexeme.opening_string]
    exact ⟨known, q, _, later, halone, hjoined⟩
  induction h with
  | string hends => exact hstring hends
  | @later p c s hends ih =>
      by_cases hopen : Lexeme.opening c s = .string ∧ Lexeme.endsInEscape s = true
      · have hfits := Lexeme.fits_opening c s
        rw [hopen.1] at hfits
        rw [show c = '"' from hfits]
        exact hstring hopen.2
      · have hcomplete : Lexeme.opening c s = .string ->
            Lexeme.endsInEscape s = false :=
          fun hopening => Bool.eq_false_iff.mpr fun htrue => hopen ⟨hopening, htrue⟩
        rw [List.cons_append, findings_cons, findings_cons,
          Lexeme.read_before_newline hcomplete, List.flatMap_cons, List.flatMap_cons]
        exact ih.append_left _

/-- A text that does not end in the middle of an escape is scanned by itself, and so
is the text after the line feed. -/
theorem lines_of_not_endsInEscape {s : Text} (h : ¬EndsInEscape .start s) (t : Text) :
    (ofText (s ++ '\n' :: t)).words =
        (ofText s).words ++ (ofText t).words.map (Token.down (1 + s.count '\n')) ∧
      (ofText (s ++ '\n' :: t)).faults =
        (ofText s).faults ++
          (ofText t).faults.map (Diagnostic.down (1 + s.count '\n')) := by
  have hdown : (Position.start.after s).next '\n' =
      Position.start.down (1 + s.count '\n') := by
    show (⟨(Position.start.after s).line + 1, 1⟩ : Position) = ⟨1 + _, 1⟩
    rw [Position.line_after_count, Int.add_assoc, Int.add_comm 1]
    rfl
  have hfindings := findings_newline h t
  rw [hdown, findings_down] at hfindings
  constructor
  · rw [words_ofText, hfindings, List.filterMap_append, List.filterMap_cons,
      filterMap_down, ← words_ofText, ← words_ofText]
  · rw [faults_ofText, hfindings, List.flatMap_append, List.flatMap_cons,
      flatMap_down, ← faults_ofText, ← faults_ofText]
    rfl

theorem not_endsInEscape_of_faults {s : Text} (h : (ofText s).faults = []) :
    ¬EndsInEscape .start s := by
  intro hends
  rcases faults_of_endsInEscape hends [] with ⟨known, q, alone', joined', halone, _⟩
  rw [← faults_ofText, h] at halone
  exact absurd halone (by simp)

end Scan

/-- For any two texts: the tokens and the diagnostics of the first text, a line feed
and the second text are those of the first and then those of the second, as many
lines further down as the first has, if and only if the first text does not end in
the middle of an escape. -/
theorem scan_lines_iff (s t : Text) :
    ((Scan.ofText (s ++ '\n' :: t)).words =
          (Scan.ofText s).words ++
            (Scan.ofText t).words.map (Token.down (1 + s.count '\n')) ∧
        (Scan.ofText (s ++ '\n' :: t)).faults =
          (Scan.ofText s).faults ++
            (Scan.ofText t).faults.map (Diagnostic.down (1 + s.count '\n'))) ↔
      ¬Scan.EndsInEscape .start s := by
  constructor
  · rintro ⟨_, hfaults⟩ hends
    rw [Scan.faults_ofText, Scan.faults_ofText s] at hfaults
    exact (Scan.faults_of_endsInEscape hends t).ne_append _ hfaults
  · intro hcomplete
    exact Scan.lines_of_not_endsInEscape hcomplete t

/-- The string of the first line goes on on the second. -/
example : (Scan.ofText ".text \"a\\\nnop".toList).words.map Token.text =
    [".text".toList, "anop".toList] := by
  decide +kernel

end Asm6502

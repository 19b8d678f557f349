import Asm6502.Proofs.Numerals
import Asm6502.Source.Scan

/-!
# Lexing piece by piece

A source is scanned from front to back, so the tokens of a text are those of its
pieces, as long as no piece runs on into the next one.  `Scan.Reads` says what a
piece is read as in front of a given rest; it is closed under putting pieces
together.
-/

namespace Asm6502

theorem Position.line_after {t : Text} (h : '\n' ∉ t) (p : Position) :
    (p.after t).line = p.line := by
  induction t generalizing p with
  | nil => rfl
  | cons c rest ih =>
      rw [List.mem_cons, not_or] at h
      rw [after_cons, ih h.2, next, if_neg (Ne.symm h.1)]

def Lexeme.clean (token : Token) : Lexeme := ⟨token, []⟩

namespace Scan

/-- In front of the rest the text is read without diagnostics and without a new
line.  Its tokens are given for every position that it may begin at. -/
structure Reads (t : Text) (tokens : Position -> List Token) (rest : Text) :
    Prop where
  scan : ∀ p done, onto done [] p (t ++ rest) =
    onto ((tokens p).reverse.map Lexeme.clean ++ done) [] (p.after t) rest
  sameLine : '\n' ∉ t
  line : ∀ p, ∀ token ∈ tokens p, token.position.line = p.line

namespace Reads

variable {s t rest : Text} {first second : Position -> List Token}

theorem nil (rest : Text) : Reads [] (fun _ => []) rest :=
  ⟨fun _ _ => rfl, List.not_mem_nil, fun _ _ h => nomatch h⟩

theorem append (hs : Reads s first (t ++ rest)) (ht : Reads t second rest) :
    Reads (s ++ t) (fun p => first p ++ second (p.after s)) rest := by
  refine ⟨?_, ?_, ?_⟩
  · intro p done
    rw [List.append_assoc, hs.scan, ht.scan, Position.after_append]
    simp
  · rw [List.mem_append, not_or]
    exact ⟨hs.sameLine, ht.sameLine⟩
  · intro p token htoken
    rcases List.mem_append.mp htoken with hfirst | hsecond
    · exact hs.line p token hfirst
    · rw [ht.line _ token hsecond, Position.line_after hs.sameLine]

theorem token {c : Char} {kind : Token.Kind} {text : Text}
    (hread : ∀ p, Lexeme.read p c (t ++ rest) =
      ⟨some (kind, text), [], p.after (c :: t), rest⟩)
    (hline : '\n' ∉ c :: t) :
    Reads (c :: t) (fun p => [⟨kind, text, p⟩]) rest := by
  refine ⟨?_, hline, ?_⟩
  · intro p done
    rw [List.cons_append, onto, hread p]
    rfl
  · intro p token htoken
    rw [List.mem_singleton.mp htoken]

theorem eq_nil_of_nil (h : Reads [] first []) (p : Position) : first p = [] := by
  have hscan := h.scan p []
  rw [List.append_nil, onto, Position.after_nil, onto] at hscan
  simpa using (Scan.mk.inj hscan).1

/-!
### Pieces
-/

theorem blank (rest : Text) : Reads [' '] (fun _ => []) rest := by
  refine ⟨?_, by decide, fun _ _ h => nomatch h⟩
  intro p done
  rw [List.singleton_append, onto]
  rfl

theorem blanks (count : Nat) (rest : Text) :
    Reads (List.replicate count ' ') (fun _ => []) rest := by
  induction count with
  | zero => exact nil rest
  | succ count ih => exact (blank _).append ih

end Reads
end Scan

namespace Lexeme

/-!
## Runs of characters
-/

theorem takeWhile_run {p : Char -> Bool} {run rest : Text}
    (hrun : ∀ c ∈ run, p c = true) (hrest : begins p rest = false) :
    (run ++ rest).takeWhile p = run := by
  rw [List.takeWhile_append_of_pos hrun]
  cases rest with
  | nil => simp
  | cons c more =>
      have hc : p c = false := by simpa [begins] using hrest
      simp [hc]

theorem dropWhile_run {p : Char -> Bool} {run rest : Text}
    (hrun : ∀ c ∈ run, p c = true) (hrest : begins p rest = false) :
    (run ++ rest).dropWhile p = rest := by
  rw [List.dropWhile_append_of_pos hrun]
  cases rest with
  | nil => rfl
  | cons c more =>
      have hc : p c = false := by simpa [begins] using hrest
      simp [hc]

theorem begins_hexDigit {rest : Text} (h : begins isWordPart rest = false) :
    begins isHexDigit rest = false := by
  cases rest with
  | nil => rfl
  | cons c more =>
      have hc : isWordPart c = false := by simpa [begins] using h
      have hdigit : isHexDigit c = false := by
        cases hx : isHexDigit c with
        | false => rfl
        | true => rw [isWordPart_of_isHexDigit hx] at hc; cases hc
      simpa [begins] using hdigit

theorem begins_digit {rest : Text} (h : begins isWordPart rest = false) :
    begins Char.isDigit rest = false := by
  cases rest with
  | nil => rfl
  | cons c more =>
      have hc : isWordPart c = false := by simpa [begins] using h
      rw [isWordPart, Bool.or_eq_false_iff] at hc
      simpa [begins] using hc.2

theorem not_newline_of_wordPart {c : Char} (h : isWordPart c = true) : c ≠ '\n' := by
  rintro rfl
  revert h
  decide

def isWord : Text -> Bool
  | [] => false
  | c :: run => isWordStart c && run.all isWordPart

theorem isWordPart_of_isWord {t : Text} (h : isWord t = true) :
    ∀ c ∈ t, isWordPart c = true := by
  cases t with
  | nil => cases h
  | cons c run =>
      simp only [isWord, Bool.and_eq_true, List.all_eq_true] at h
      intro x hx
      rcases List.mem_cons.mp hx with rfl | hx
      · simp [isWordPart, h.1]
      · exact h.2 x hx

theorem not_newline_of_isWord {t : Text} (h : isWord t = true) : '\n' ∉ t :=
  fun hmem => not_newline_of_wordPart (isWordPart_of_isWord h _ hmem) rfl

theorem opening_word {c : Char} (h : isWordStart c = true) (t : Text) :
    opening c t = .word := by
  have hnat : c.toNat = 95 ∨ (65 ≤ c.toNat ∧ c.toNat ≤ 90) ∨
      (97 ≤ c.toNat ∧ c.toNat ≤ 122) := by
    rcases isWordStart_iff.mp h with rfl | hcapital | hsmall
    · exact Or.inl rfl
    · exact Or.inr (Or.inl hcapital)
    · exact Or.inr (Or.inr hsmall)
  have hblank : isBlank c = false := by
    simp only [isBlank, blankRanges, List.any_cons, List.any_nil, Bool.or_false,
      Bool.or_eq_false_iff, Bool.and_eq_false_iff, decide_eq_false_iff_not]
    omega
  have hcomment : c ≠ ';' := by
    rintro rfl
    revert h
    decide
  simp [opening, hblank, hcomment, h]

theorem opening_mark {c : Char} (h : isPunctuation c = true) (t : Text) :
    opening c t = .punctuation := by
  have hmem : c ∈ [':', ',', '#', '(', ')', '='] := by
    simpa [isPunctuation] using h
  simp only [List.mem_cons, List.not_mem_nil, or_false] at hmem
  rcases hmem with rfl | rfl | rfl | rfl | rfl | rfl <;> rfl

theorem opening_hexNumber {t : Text} (h : begins isHexDigit t = true) :
    opening '$' t = .hexNumber := by
  have hclass : isBlank '$' = false ∧ isWordStart '$' = false := by decide
  simp [opening, hclass, h]

theorem opening_directive {t : Text} (h : begins isWordStart t = true) :
    opening '.' t = .directive := by
  have hclass : isBlank '.' = false ∧ isWordStart '.' = false := by decide
  simp [opening, hclass, h]

/-!
## Strings
-/

/-- Inside quotes the text stands for the contents. -/
structure Spells (t contents : Text) : Prop where
  string : ∀ start done faults p rest,
    string start done faults p (t ++ rest) =
      string start (contents.reverse ++ done) faults (p.after t) rest
  sameLine : '\n' ∉ t

namespace Spells

theorem nil : Spells [] [] :=
  ⟨fun _ _ _ _ _ => rfl, List.not_mem_nil⟩

theorem append {s t first second : Text} (hs : Spells s first)
    (ht : Spells t second) : Spells (s ++ t) (first ++ second) := by
  constructor
  · intro start done faults p rest
    rw [List.append_assoc, hs.string, ht.string, Position.after_append]
    simp
  · rw [List.mem_append, not_or]
    exact ⟨hs.sameLine, ht.sameLine⟩

theorem escape {e c : Char} (h : escaped? e = some c) (hline : e ≠ '\n') :
    Spells ['\\', e] [c] := by
  constructor
  · intro start done faults p rest
    show Lexeme.string start done faults p ('\\' :: e :: rest) = _
    rw [Lexeme.string]
    simp only [h]
    rfl
  · simp [Ne.symm hline]

theorem plain {c : Char} (hquote : c ≠ '"') (hbackslash : c ≠ '\\')
    (hline : c ≠ '\n') : Spells [c] [c] := by
  constructor
  · intro start done faults p rest
    show Lexeme.string start done faults p (c :: rest) = _
    conv => lhs; rw [Lexeme.string.eq_def]
    split
    · simp_all
    · simp_all
    · simp_all
    · simp_all
    · rename_i heq
      cases heq
      rw [if_neg hline]
      rfl
  · simp [Ne.symm hline]

theorem flatMap {α : Type} {spell : α -> Text} {stands : α -> Char} {xs : List α}
    (h : ∀ x ∈ xs, Spells (spell x) [stands x]) :
    Spells (xs.flatMap spell) (xs.map stands) := by
  induction xs with
  | nil => exact nil
  | cons x rest ih =>
      have hrest := ih fun y hy => h y (List.mem_cons_of_mem _ hy)
      exact (h x (List.mem_cons_self ..)).append hrest

end Spells

theorem opening_string (t : Text) : opening '"' t = .string := by
  have hclass : isBlank '"' = false ∧ isWordStart '"' = false := by decide
  simp [opening, hclass]

end Lexeme

/-!
## Tokens
-/

namespace Scan.Reads

open Lexeme

variable {c : Char} {t run rest : Text}

theorem word (ht : isWord t = true) (hrest : begins isWordPart rest = false) :
    Reads t (fun p => [⟨wordKind t, t, p⟩]) rest := by
  have hline := not_newline_of_isWord ht
  cases t with
  | nil => cases ht
  | cons c run =>
      simp only [isWord, Bool.and_eq_true, List.all_eq_true] at ht
      refine token (fun p => ?_) hline
      simp only [Lexeme.read, opening_word ht.1, Lexeme.word,
        takeWhile_run ht.2 hrest, dropWhile_run ht.2 hrest, Reading.plain]

/-- A hexadecimal number ends where no word would go on. -/
theorem hexNumber (hne : run ≠ []) (hrun : ∀ x ∈ run, isHexDigit x = true)
    (hrest : begins isWordPart rest = false) :
    Reads ('$' :: run) (fun p => [⟨.number, '$' :: run, p⟩]) rest := by
  have hend := begins_hexDigit hrest
  have hopening : opening '$' (run ++ rest) = .hexNumber := by
    apply opening_hexNumber
    cases run with
    | nil => exact absurd rfl hne
    | cons x more => simpa [begins] using hrun x (List.mem_cons_self ..)
  apply token
  · intro p
    simp only [Lexeme.read, hopening, digits, takeWhile_run hrun hend,
      dropWhile_run hrun hend]
    simp [hne]
  · rw [List.mem_cons, not_or]
    refine ⟨by decide, fun hmem => ?_⟩
    exact not_newline_of_wordPart (isWordPart_of_isHexDigit (hrun _ hmem)) rfl

theorem negative {d : Char} (hd : d.isDigit = true) (hrun : ∀ x ∈ run, x.isDigit = true)
    (hrest : begins isWordPart rest = false) :
    Reads ('-' :: d :: run) (fun p => [⟨.number, '-' :: d :: run, p⟩]) rest := by
  have hend := begins_digit hrest
  have hopening : opening '-' (d :: (run ++ rest)) = .negative := by
    have hclass : isBlank '-' = false ∧ isWordStart '-' = false := by decide
    simp [opening, hclass, begins, hd]
  -- No letter follows that would make a zero in front the mark of a base.
  have hletter : ∀ letter, letter.isDigit = false -> isWordPart letter = true ->
      ∀ more, d = '0' -> run ++ rest = letter :: more -> False := by
    intro letter hdigit hpart more _ heq
    cases run with
    | cons x run =>
        rw [List.cons_append, List.cons.injEq] at heq
        rw [← heq.1, hrun x (List.mem_cons_self ..)] at hdigit
        cases hdigit
    | nil =>
        rw [List.nil_append] at heq
        rw [heq, begins, List.head?_cons, Option.any_some, hpart] at hrest
        cases hrest
  apply token
  · intro p
    simp only [List.cons_append, Lexeme.read, hopening, Lexeme.negative]
    rw [number.eq_5 _ _ _ _ (hletter 'x' (by decide) (by decide))
      (hletter 'X' (by decide) (by decide)) (hletter 'b' (by decide) (by decide))
      (hletter 'B' (by decide) (by decide)), takeWhile_run hrun hend,
      dropWhile_run hrun hend]
    rfl
  · have hdigits : ∀ x ∈ d :: run, x.isDigit = true := List.forall_mem_cons.mpr ⟨hd, hrun⟩
    rw [List.mem_cons, not_or]
    exact ⟨by decide, fun hmem => absurd (hdigits _ hmem) (by decide)⟩

theorem mark (hc : isPunctuation c = true) (rest : Text) :
    Reads [c] (fun p => [⟨.punctuation, [c], p⟩]) rest := by
  apply token
  · intro p
    simp only [Lexeme.read, List.nil_append, opening_mark hc]
    rfl
  · rw [List.mem_singleton]
    rintro rfl
    revert hc
    decide

theorem directive (ht : isWord t = true) (hrest : begins isWordPart rest = false) :
    Reads ('.' :: t) (fun p => [⟨.directive, '.' :: t, p⟩]) rest := by
  have hall := isWordPart_of_isWord ht
  have hopening : opening '.' (t ++ rest) = .directive := by
    apply opening_directive
    cases t with
    | nil => cases ht
    | cons c run =>
        simp only [isWord, Bool.and_eq_true] at ht
        simpa [begins] using ht.1
  apply token
  · intro p
    simp only [Lexeme.read, hopening, Lexeme.directive, takeWhile_run hall hrest,
      dropWhile_run hall hrest, Reading.plain]
  · rw [List.mem_cons, not_or]
    exact ⟨by decide, not_newline_of_isWord ht⟩

theorem string {contents : Text} (h : Spells t contents) (rest : Text) :
    Reads ('"' :: (t ++ ['"'])) (fun p => [⟨.string, contents, p⟩]) rest := by
  apply token
  · intro p
    rw [List.append_assoc, List.singleton_append]
    simp only [Lexeme.read, opening_string]
    rw [h.string, Lexeme.string]
    simp [Position.after_append]
  · simp [h.sameLine]

end Scan.Reads
end Asm6502

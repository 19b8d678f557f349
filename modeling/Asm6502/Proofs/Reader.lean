import Asm6502.Proofs.SourceSpans

/-!
# Readers

A script tells what a reader says of a source.  The reader itself never sees the whole
source: it has two tokens in hand and reads another one whenever it passes one of them.
A token that is read takes characters of the source, so the tokens in hand and the
characters that are left become fewer with every token that is passed.
-/

namespace Asm6502

/-!
## Tokens take characters
-/

/-- A token counts one, but for the end of input, which is never passed. -/
def Token.weight (t : Token) : Nat :=
  if t.kind = .endOfInput then 0 else 1

theorem Token.weight_eq_one {t : Token} (h : t.kind ≠ .endOfInput) : t.weight = 1 :=
  if_neg h

theorem Token.weight_le_one (t : Token) : t.weight ≤ 1 := by
  unfold weight
  split
  · exact Nat.zero_le 1
  · exact Nat.le_refl 1

def Token.onLine (line : Int) (t : Token) : Bool :=
  t.kind ≠ .endOfInput && t.position.line = line

theorem Token.kind_ne_of_onLine {line : Int} {t : Token} (h : t.onLine line = true) :
    t.kind ≠ .endOfInput :=
  of_decide_eq_true ((Bool.and_eq_true _ _).mp h).1

theorem Token.line_of_onLine {line : Int} {t : Token} (h : t.onLine line = true) :
    t.position.line = line :=
  of_decide_eq_true ((Bool.and_eq_true _ _).mp h).2

theorem Token.onLine_self {t : Token} (h : t.kind ≠ .endOfInput) :
    t.onLine t.position.line = true := by
  simp [onLine, h]

namespace Scan

theorem exists_used_readOn (faults : List Diagnostic) (p : Position) (t : Text) :
    ∃ used, t = used ++ (readOn faults p t).2.rest ∧ (t ≠ [] -> used ≠ []) := by
  fun_induction readOn faults p t with
  | case1 faults p => exact ⟨[], rfl, id⟩
  | case2 faults p c t reading _ ih =>
      rcases Lexeme.takesPiece_read p c t with ⟨piece, rest, htext, _, hread⟩
      rcases ih with ⟨more, hmore, _⟩
      refine ⟨piece.written ++ more, ?_, fun _ => ?_⟩
      · rw [List.append_assoc, ← hmore, htext]
        exact congrArg _ (congrArg Lexeme.Reading.rest hread).symm
      · exact List.append_ne_nil_of_left_ne_nil piece.written_ne_nil more
  | case3 faults p c t reading kind text _ =>
      rcases Lexeme.takesPiece_read p c t with ⟨piece, rest, htext, _, hread⟩
      refine ⟨piece.written, ?_, fun _ => piece.written_ne_nil⟩
      rw [htext]
      exact congrArg _ (congrArg Lexeme.Reading.rest hread).symm

theorem lexical_readOn {faults : List Diagnostic} (h : ∀ d ∈ faults, d.kind = .lexical)
    (p : Position) (t : Text) :
    ∀ d ∈ (readOn faults p t).1.faults, d.kind = .lexical := by
  have hmore : ∀ (faults : List Diagnostic) (p : Position) (c : Char) (t : Text),
      (∀ d ∈ faults, d.kind = .lexical) ->
        ∀ d ∈ faults ++ (Lexeme.read p c t).faults, d.kind = .lexical := by
    intro faults p c t h d hd
    rcases List.mem_append.mp hd with hd | hd
    · exact h d hd
    · exact (Lexeme.faultsFrom_read p c t d hd).1
  fun_induction readOn faults p t with
  | case1 faults p => exact h
  | case2 faults p c t reading _ ih => exact ih (hmore faults p c t h)
  | case3 faults p c t reading kind text _ => exact hmore faults p c t h

namespace Cursor

theorem exists_used {c : Cursor} (h : c.rest ≠ []) :
    ∃ used, used ≠ [] ∧ c.rest = used ++ c.next.2.rest := by
  rcases exists_used_readOn [] c.position c.rest with ⟨used, hrest, hused⟩
  exact ⟨used, hused h, hrest⟩

/-- A token that is read takes at least one character. -/
theorem weight_next_le (c : Cursor) :
    c.next.1.token.weight + c.next.2.rest.length ≤ c.rest.length := by
  rcases c with ⟨p, t⟩
  cases t with
  | nil =>
      rw [next, readOn]
      exact Nat.le_refl 0
  | cons first t =>
      rcases exists_used (c := ⟨p, first :: t⟩) (List.cons_ne_nil _ _) with
        ⟨used, hused, hrest⟩
      have hweight := (next ⟨p, first :: t⟩).1.token.weight_le_one
      have hlength := congrArg List.length hrest
      have hpos := List.length_pos_iff.mpr hused
      rw [List.length_append] at hlength
      omega

end Cursor
end Scan

/-!
## The way along a line
-/

/-- A reader on its way: the token in front, the one after it, the place where it reads
on, and the lines that lexical diagnostics have pointed to so far. -/
structure Reader where
  current : Token
  next : Token
  cursor : Scan.Cursor
  bad : List Int

def Reader.size (r : Reader) : Nat :=
  r.current.weight + r.next.weight + r.cursor.rest.length

/-- What a reader passes and what comes to light meanwhile, up to the place where it
stands. -/
structure Stretch where
  passed : List Token
  found : List Diagnostic
  reader : Reader

namespace Stretch

def start (r : Reader) : Stretch :=
  ⟨[], [], r⟩

def step (s : Stretch) : Stretch :=
  let read := s.reader.cursor.next
  { passed := s.passed ++ [s.reader.current]
    found := s.found ++ read.1.faults
    reader :=
      { current := s.reader.next
        next := read.1.token
        cursor := read.2
        bad := s.reader.bad ++ read.1.faults.map fun d => d.position.line } }

def extent (s : Stretch) : Nat :=
  s.passed.length + s.reader.size

variable {s s' s'' : Stretch} {line : Int}

theorem length_passed_step (s : Stretch) :
    s.step.passed.length = s.passed.length + 1 :=
  List.length_append

theorem extent_step_le (h : s.reader.current.onLine line = true) :
    s.step.extent ≤ s.extent := by
  have hread := s.reader.cursor.weight_next_le
  have hweight := Token.weight_eq_one (Token.kind_ne_of_onLine h)
  have hpassed := s.length_passed_step
  simp only [extent, Reader.size, step] at hpassed ⊢
  omega

theorem size_step_lt (h : s.reader.current.onLine line = true) :
    s.step.reader.size < s.reader.size := by
  have hextent := extent_step_le h
  have hpassed := s.length_passed_step
  unfold extent at hextent
  omega

def passLine (line : Int) (s : Stretch) : Stretch :=
  if s.reader.current.onLine line then passLine line s.step else s
termination_by s.reader.size
decreasing_by exact size_step_lt (by assumption)

def ahead (line : Int) (s : Stretch) : List Token :=
  if s.reader.current.onLine line then s.reader.current :: ahead line s.step else []
termination_by s.reader.size
decreasing_by exact size_step_lt (by assumption)

def follow (line : Int) (s : Stretch) : Token :=
  (s.passLine line).reader.current

def previous (s : Stretch) : Token :=
  s.passed.getLastD s.reader.current

theorem passLine_of_onLine (h : s.reader.current.onLine line = true) :
    s.passLine line = s.step.passLine line := by
  rw [passLine, if_pos h]

theorem passLine_of_not_onLine (h : s.reader.current.onLine line = false) :
    s.passLine line = s := by
  rw [passLine, h, if_neg Bool.false_ne_true]

theorem ahead_of_onLine (h : s.reader.current.onLine line = true) :
    s.ahead line = s.reader.current :: s.step.ahead line := by
  rw [ahead, if_pos h]

theorem ahead_of_not_onLine (h : s.reader.current.onLine line = false) :
    s.ahead line = [] := by
  rw [ahead, h, if_neg Bool.false_ne_true]

theorem not_onLine_of_ahead (h : s.ahead line = []) :
    s.reader.current.onLine line = false := by
  rw [← Bool.not_eq_true]
  intro honLine
  rw [ahead_of_onLine honLine] at h
  exact List.cons_ne_nil _ _ h

theorem follow_eq_current (h : s.reader.current.onLine line = false) :
    s.follow line = s.reader.current := by
  rw [follow, passLine_of_not_onLine h]

theorem follow_step (h : s.reader.current.onLine line = true) :
    s.step.follow line = s.follow line := by
  rw [follow, follow, passLine_of_onLine h]

theorem previous_step (s : Stretch) : s.step.previous = s.reader.current := by
  unfold previous step
  exact List.getLastD_concat ..

theorem passed_passLine (line : Int) (s : Stretch) :
    (s.passLine line).passed = s.passed ++ s.ahead line := by
  fun_induction passLine line s with
  | case1 s h ih =>
      rw [ih, ahead_of_onLine h]
      exact List.append_assoc s.passed [_] _
  | case2 s h =>
      rw [ahead_of_not_onLine (Bool.not_eq_true _ ▸ h), List.append_nil]

/-- The reader passes tokens of a line only. -/
inductive Along (line : Int) : Stretch -> Stretch -> Prop where
  | stay (s : Stretch) : Along line s s
  | step {s s' : Stretch} :
      s.reader.current.onLine line = true -> Along line s.step s' -> Along line s s'

namespace Along

theorem trans (h : Along line s s') (h' : Along line s' s'') : Along line s s'' := by
  induction h with
  | stay s => exact h'
  | step honLine _ ih => exact .step honLine (ih h')

theorem extent_le (h : Along line s s') : s'.extent ≤ s.extent := by
  induction h with
  | stay s => exact Nat.le_refl _
  | step honLine _ ih => exact Nat.le_trans ih (extent_step_le honLine)

theorem length_passed_le (h : Along line s s') : s.passed.length ≤ s'.passed.length := by
  induction h with
  | stay s => exact Nat.le_refl _
  | @step s s' _ _ ih =>
      rw [length_passed_step] at ih
      exact Nat.le_of_succ_le ih

/-- What is left of the line takes the reader to the same place. -/
theorem passLine_eq (h : Along line s s') : s'.passLine line = s.passLine line := by
  induction h with
  | stay s => rfl
  | step honLine _ ih => rw [ih, passLine_of_onLine honLine]

theorem follow_eq (h : Along line s s') : s'.follow line = s.follow line := by
  rw [follow, follow, h.passLine_eq]

theorem of_step (h : Along line s s') (hpassed : s.passed.length < s'.passed.length) :
    Along line s.step s' := by
  cases h with
  | stay => exact absurd hpassed (Nat.lt_irrefl _)
  | step _ hrest => exact hrest

theorem size_lt (h : Along line s s') (hpassed : s.passed.length < s'.passed.length) :
    s'.reader.size < s.reader.size := by
  have hextent := h.extent_le
  unfold extent at hextent
  omega

end Along

theorem along_passLine (line : Int) (s : Stretch) : Along line s (s.passLine line) := by
  fun_induction passLine line s with
  | case1 s h ih => exact .step h ih
  | case2 s h => exact .stay s

theorem lexical_step (h : ∀ d ∈ s.found, d.kind = .lexical) :
    ∀ d ∈ s.step.found, d.kind = .lexical := by
  intro d hd
  rcases List.mem_append.mp hd with hd | hd
  · exact h d hd
  · exact Scan.lexical_readOn (fun d hd => absurd hd List.not_mem_nil) _ _ d hd

theorem Along.lexical (h : Along line s s') (hs : ∀ d ∈ s.found, d.kind = .lexical) :
    ∀ d ∈ s'.found, d.kind = .lexical := by
  induction h with
  | stay s => exact hs
  | step _ _ ih => exact ih (lexical_step hs)

end Stretch

end Asm6502

import Asm6502.Proofs.Pieces
import Asm6502.Proofs.SourceOrder

/-!
# Where the pieces of a source stand

The scanner counts lines and columns while it goes along, and it may be asked for one
token at a time.  This module looks at the source as a whole instead.  The pieces of a
source lie side by side from its first character to its last one, and every position of
the scan is that of a character, by the line feeds in front of it and the characters
since the last of them.

The main result says that nothing is lost without notice: every character lies in exactly
one piece, and a piece is a blank, a comment, a token of the scan, or text with a
diagnostic.
-/

namespace Asm6502

open Lexeme (Piece)

/-!
## Positions by index
-/

namespace Position

/-- The position of the character at an index: as many lines as there are line feeds in
front of it, and as many columns as there are characters since the last of them, each
counted from one. -/
def ofIndex (t : Text) (i : Nat) : Position :=
  ⟨1 + (t.take i).count '\n', 1 + ((t.take i).reverse.takeWhile (· != '\n')).length⟩

theorem start_after_reverse (s : Text) :
    start.after s.reverse = ⟨1 + s.count '\n', 1 + (s.takeWhile (· != '\n')).length⟩ := by
  induction s with
  | nil => rfl
  | cons c rest ih =>
      rw [List.reverse_cons, after_append, ih, after_cons, after_nil, next]
      by_cases hc : c = '\n'
      · simp [hc, Int.add_assoc]
      · simp [hc, Int.add_assoc]

theorem start_after (s t : Text) : start.after s = ofIndex (s ++ t) s.length := by
  have hcount := start_after_reverse s.reverse
  rw [List.reverse_reverse, List.count_reverse] at hcount
  rw [hcount, ofIndex, List.take_left]

example : ofIndex ['a', '\n', 'b', 'c'] 3 = ⟨2, 2⟩ := by decide

theorem before_ofIndex {t : Text} {i j : Nat} (hij : i < j) (hj : j ≤ t.length) :
    (ofIndex t i).Before (ofIndex t j) := by
  have hfirst := start_after (t.take i) (t.drop i)
  have hsecond := start_after (t.take j) (t.drop j)
  rw [List.take_append_drop, List.length_take, Nat.min_eq_left (by omega)] at hfirst hsecond
  have hsplit : t.take j = t.take i ++ (t.drop i).take (j - i) := by
    rw [← List.take_add, Nat.add_sub_cancel' (Nat.le_of_lt hij)]
  rw [← hfirst, ← hsecond, hsplit, after_append]
  apply before_after
  rw [Ne, List.take_eq_nil_iff, List.drop_eq_nil_iff]
  omega

end Position

theorem Diagnostic.LexicalFault.At.ne_nil {f : Diagnostic.LexicalFault} {t : Text}
    (h : f.At t) : t ≠ [] := by
  rintro rfl
  cases f with
  | unexpectedCharacter c => cases h
  | missingDigits mark =>
      rcases h with ⟨n, rest, htext, _⟩
      exact (Piece.number n).written_ne_nil (List.append_eq_nil_iff.mp htext.symm).1
  | malformedCharacter => cases h
  | unterminatedString => cases h
  | unknownEscape e => cases h.1

/-!
## Pieces side by side
-/

namespace Lexeme

/-- The pieces make up the text, and each of them is as long as its form allows. -/
inductive Piece.Divide : List Piece -> Text -> Prop where
  | nil : Divide [] []
  | cons {piece : Piece} {pieces : List Piece} {rest : Text} :
      piece.Ends rest -> Divide pieces rest -> Divide (piece :: pieces) (piece.written ++ rest)

structure Placed where
  start : Nat
  piece : Piece

def Piece.place (start : Nat) : List Piece -> List Placed
  | [] => []
  | x :: rest => ⟨start, x⟩ :: place (start + x.written.length) rest

namespace Placed

def Covers (x : Placed) (i : Nat) : Prop :=
  x.start ≤ i ∧ i < x.start + x.piece.written.length

def token? (t : Text) (x : Placed) : Option Token :=
  x.piece.token?.map fun found => ⟨found.1, found.2, .ofIndex t x.start⟩

def faults (t : Text) (x : Placed) : List Diagnostic :=
  x.piece.faults.map fun f => fault (.ofIndex t (x.start + f.1.length)) f.2

end Placed

namespace Piece

variable {pieces : List Piece} {t : Text} {x : Placed} {start i : Nat}

theorem le_start_of_mem_place (h : x ∈ place start pieces) : start ≤ x.start := by
  induction pieces generalizing start with
  | nil => cases h
  | cons piece pieces ih =>
      rcases List.mem_cons.mp h with rfl | h
      · exact Nat.le_refl _
      · exact Nat.le_trans (Nat.le_add_right _ _) (ih h)

theorem Divide.exists_split (h : Divide pieces t) (hx : x ∈ place start pieces) :
    ∃ before rest, t = before ++ (x.piece.written ++ rest) ∧ x.piece.Ends rest ∧
      x.start = start + before.length := by
  induction h generalizing start with
  | nil => cases hx
  | @cons piece pieces rest hends _ ih =>
      rcases List.mem_cons.mp hx with rfl | hx
      · exact ⟨[], rest, rfl, hends, rfl⟩
      · rcases ih hx with ⟨before, more, htext, hmore, hstart⟩
        refine ⟨piece.written ++ before, more, ?_, hmore, ?_⟩
        · rw [htext, List.append_assoc]
        · rw [hstart, List.length_append, Nat.add_assoc]

/-- Every index lies in one piece and no other. -/
theorem Divide.existsUnique_covers (h : Divide pieces t) (hlow : start ≤ i)
    (hhigh : i < start + t.length) : ∃! x, x ∈ place start pieces ∧ x.Covers i := by
  induction h generalizing start with
  | nil => exact absurd hlow (Nat.not_le.mpr hhigh)
  | @cons piece pieces rest _ _ ih =>
      rw [List.length_append] at hhigh
      by_cases hfirst : i < start + piece.written.length
      · refine ⟨⟨start, piece⟩, ⟨List.mem_cons_self .., hlow, hfirst⟩, ?_⟩
        rintro y ⟨hy, hcovers⟩
        rcases List.mem_cons.mp hy with hy | hy
        · exact hy
        · have hle := le_start_of_mem_place hy
          exact absurd hcovers.1 (by omega)
      · rcases @ih (start + piece.written.length) (by omega) (by omega) with
          ⟨x, ⟨hx, hcovers⟩, hunique⟩
        refine ⟨x, ⟨List.mem_cons_of_mem _ hx, hcovers⟩, ?_⟩
        rintro y ⟨hy, hcoversy⟩
        rcases List.mem_cons.mp hy with rfl | hy
        · exact absurd hcoversy.2 hfirst
        · exact hunique y ⟨hy, hcoversy⟩

/-- Only blanks and comments are passed over without notice. -/
theorem silent_or_noticed (piece : Piece) :
    piece.token?.isSome = true ∨ piece.faults ≠ [] ∨ (∃ run h, piece = comment run h) ∨
      ∃ c h, piece = blank c h := by
  cases piece with
  | blank c h => exact Or.inr (Or.inr (Or.inr ⟨c, h, rfl⟩))
  | comment run h => exact Or.inr (Or.inr (Or.inl ⟨run, h, rfl⟩))
  | word | directive | number | character | string | punctuation => exact Or.inl rfl
  | malformed | unexpected => exact Or.inr (Or.inl (List.cons_ne_nil _ _))

theorem kind_ne_endOfInput {piece : Piece} {found : Token.Kind × Text}
    (h : piece.token? = some found) : found.1 ≠ .endOfInput := by
  cases piece with
  | word text h' =>
      cases h
      dsimp only
      rcases wordKind_eq_or text with hname | ⟨operation, hoperation⟩
      · rw [hname]
        nofun
      · rw [hoperation]
        nofun
  | directive | number | character | string | punctuation =>
      cases h
      nofun
  | blank | comment | malformed | unexpected => cases h

theorem Divide.fault_at (h : Divide pieces t) (hx : x ∈ place 0 pieces) {d : Diagnostic}
    (hd : d ∈ x.faults t) :
    ∃ i f, i < t.length ∧ d = fault (.ofIndex t i) f ∧ f.At (t.drop i) := by
  rcases List.mem_map.mp hd with ⟨⟨first, f⟩, hf, rfl⟩
  rcases h.exists_split hx with ⟨before, rest, htext, hends, hstart⟩
  rcases Piece.fault_at hends hf with ⟨later, hwritten, hat⟩
  rw [Nat.zero_add] at hstart
  have hdrop : t.drop (x.start + first.length) = later ++ rest := by
    rw [htext, hwritten, hstart, List.append_assoc, ← List.append_assoc before,
      ← List.length_append, List.drop_left]
  refine ⟨x.start + first.length, f, ?_, rfl, ?_⟩
  · refine Nat.not_le.mp fun hle => hat.ne_nil ?_
    rw [← hdrop, List.drop_eq_nil_iff]
    exact hle
  · rw [hdrop]
    exact hat

end Piece
end Lexeme

namespace Scan

def Finding.ofPlaced (t : Text) (x : Lexeme.Placed) : Finding :=
  ⟨x.token? t, x.faults t⟩

theorem Finding.ofReading_piece {piece : Piece} {rest : Text} (hends : piece.Ends rest)
    (before : Text) :
    ofReading (Position.start.after before)
        (piece.reading (Position.start.after before) rest) =
      ofPlaced (before ++ (piece.written ++ rest)) ⟨before.length, piece⟩ := by
  have hfaults : piece.faults.map (Piece.diagnose (Position.start.after before)) =
      Lexeme.Placed.faults (before ++ (piece.written ++ rest)) ⟨before.length, piece⟩ := by
    apply List.map_congr_left
    rintro ⟨first, f⟩ hf
    rcases Piece.fault_at hends hf with ⟨later, hwritten, _⟩
    have hplace := Position.start_after (before ++ first) (later ++ rest)
    rw [Piece.diagnose, ← Position.after_append, hplace, hwritten]
    simp
  rw [Position.start_after before (piece.written ++ rest)] at hfaults ⊢
  exact congrArg (Finding.mk _) hfaults

/-- From any place on, the scan finds what the pieces of the rest say. -/
theorem exists_division (before rest : Text) :
    ∃ pieces, Piece.Divide pieces rest ∧
      findings (Position.start.after before) rest =
        (Piece.place before.length pieces).map (Finding.ofPlaced (before ++ rest)) := by
  generalize hp : Position.start.after before = p
  fun_induction findings p rest generalizing before with
  | case1 p => exact ⟨[], .nil, rfl⟩
  | case2 p c t ih =>
      subst hp
      rcases Lexeme.takesPiece_read (Position.start.after before) c t with
        ⟨piece, rest, htext, hends, hread⟩
      rw [hread] at ih ⊢
      rcases ih (before ++ piece.written) (Position.after_append ..) with
        ⟨pieces, hpieces, hmore⟩
      refine ⟨piece :: pieces, htext ▸ .cons hends hpieces, ?_⟩
      rw [List.length_append, List.append_assoc] at hmore
      rw [htext, Piece.place, List.map_cons, ← Finding.ofReading_piece hends]
      exact congrArg _ hmore

/-!
## Reading on demand
-/

structure Cursor where
  position : Position
  rest : Text

/-- Reads on to the next token, after the diagnostics already met on the way to it. -/
def readOn (faults : List Diagnostic) (p : Position) : Text -> Lexeme × Cursor
  | [] => (⟨⟨.endOfInput, [], p⟩, faults⟩, ⟨p, []⟩)
  | c :: t =>
      let reading := Lexeme.read p c t
      match reading.token with
      | none => readOn (faults ++ reading.faults) reading.position reading.rest
      | some (kind, text) =>
          (⟨⟨kind, text, p⟩, faults ++ reading.faults⟩, ⟨reading.position, reading.rest⟩)
termination_by t => t.length
decreasing_by exact Nat.lt_succ_of_le (Lexeme.read_rest_le p c t)

namespace Cursor

def next (c : Cursor) : Lexeme × Cursor :=
  readOn [] c.position c.rest

/-- What a reader is given when it asks once more after the given number of times. -/
def call : Nat -> Cursor -> Lexeme
  | 0, c => c.next.1
  | n + 1, c => call n c.next.2

end Cursor

/-- The lexemes in order, after which there is nothing but the end of input. -/
def lexemeAt (scan : Scan) (n : Nat) : Lexeme :=
  scan.toList[n]?.getD (.clean scan.final.token)

theorem onto_eq (done : List Lexeme) (faults : List Diagnostic) (p : Position) (t : Text) :
    onto done faults p t =
      ⟨done.reverse ++ (onto [] faults p t).lexemes, (onto [] faults p t).final⟩ := by
  induction p, t using findings.induct generalizing done faults with
  | case1 p => simp [onto]
  | case2 p c t ih =>
      rw [onto, onto]
      cases (Lexeme.read p c t).token with
      | none => exact ih done _
      | some found =>
          dsimp only
          rw [ih (_ :: done), ih [_]]
          simp

theorem lexemeAt_readOn (faults : List Diagnostic) (p : Position) (t : Text) :
    (onto [] faults.reverse p t).lexemeAt 0 = (readOn faults p t).1 ∧
      ∀ n, (onto [] faults.reverse p t).lexemeAt (n + 1) =
        (onto [] [] (readOn faults p t).2.position (readOn faults p t).2.rest).lexemeAt n := by
  fun_induction readOn faults p t with
  | case1 faults p =>
      rw [onto, onto]
      refine ⟨by simp [lexemeAt, toList], fun n => ?_⟩
      cases n with
      | zero => rfl
      | succ n => rfl
  | case2 faults p c t reading htoken ih =>
      rw [onto]
      simp only [show (Lexeme.read p c t).token = none from htoken, ← List.reverse_append]
      exact ih
  | case3 faults p c t reading kind text htoken =>
      rw [onto]
      simp only [show (Lexeme.read p c t).token = some (kind, text) from htoken]
      rw [onto_eq [_]]
      exact ⟨by simp [lexemeAt, toList, reading], fun n => rfl⟩

theorem call_eq (n : Nat) (c : Cursor) :
    c.call n = (onto [] [] c.position c.rest).lexemeAt n := by
  induction n generalizing c with
  | zero => exact (lexemeAt_readOn [] c.position c.rest).1.symm
  | succ n ih =>
      rw [Cursor.call, ih]
      exact ((lexemeAt_readOn [] c.position c.rest).2 n).symm

theorem final_onto (done : List Lexeme) (faults : List Diagnostic) (p : Position) (t : Text) :
    (onto done faults p t).final.token = ⟨.endOfInput, [], p.after t⟩ := by
  induction p, t using findings.induct generalizing done faults with
  | case1 p => rw [onto, Position.after_nil]
  | case2 p c t ih =>
      rcases Lexeme.takes_read p c t with ⟨used, htext, hposition⟩
      rw [onto]
      cases (Lexeme.read p c t).token with
      | none =>
          dsimp only
          rw [ih, htext, Position.after_append, hposition]
      | some found =>
          dsimp only
          rw [ih, htext, Position.after_append, hposition]

end Scan

/-!
## The whole source
-/

open Lexeme (Placed)

/-- The pieces account for the scan of the text: they make up the text, the tokens and
the diagnostics of the scan are theirs, at the positions of the characters where they
begin, and no character outside blanks and comments goes without notice. -/
structure Scan.Accounts (scan : Scan) (t : Text) (pieces : List Piece) : Prop where
  divide : Piece.Divide pieces t
  words : scan.words = (Piece.place 0 pieces).filterMap (Placed.token? t)
  faults : scan.faults = (Piece.place 0 pieces).flatMap (Placed.faults t)
  located : ∀ d ∈ scan.faults,
    ∃ i f, i < t.length ∧ d = Lexeme.fault (.ofIndex t i) f ∧ f.At (t.drop i)
  covered : ∀ i < t.length, ∃! x, x ∈ Piece.place 0 pieces ∧ x.Covers i
  noticed : ∀ x ∈ Piece.place 0 pieces,
    (x.token? t).isSome = true ∨ x.faults t ≠ [] ∨ (∃ run h, x.piece = .comment run h) ∨
      ∃ c h, x.piece = .blank c h

theorem Scan.exists_accounts (t : Text) : ∃ pieces, (Scan.ofText t).Accounts t pieces := by
  rcases exists_division [] t with ⟨pieces, hdivide, hfindings⟩
  change findings .start t = (Piece.place 0 pieces).map (Finding.ofPlaced t) at hfindings
  have hwords : (ofText t).words = (Piece.place 0 pieces).filterMap (Placed.token? t) := by
    rw [words_ofText, hfindings, List.filterMap_map]
    rfl
  have hfaults : (ofText t).faults = (Piece.place 0 pieces).flatMap (Placed.faults t) := by
    rw [faults_ofText, hfindings, List.flatMap_map]
    rfl
  refine ⟨pieces, hdivide, hwords, hfaults, ?_, ?_, ?_⟩
  · intro d hd
    rw [hfaults] at hd
    rcases List.mem_flatMap.mp hd with ⟨x, hx, hd⟩
    exact hdivide.fault_at hx hd
  · intro i hi
    exact hdivide.existsUnique_covers (Nat.zero_le i) (by omega)
  · intro x _
    rcases x.piece.silent_or_noticed with htoken | hfault | hsilent
    · refine Or.inl ?_
      rw [Placed.token?, Option.isSome_map]
      exact htoken
    · refine Or.inr (Or.inl ?_)
      rw [Placed.faults, Ne, List.map_eq_nil_iff]
      exact hfault
    · exact Or.inr (Or.inr hsilent)

theorem Scan.Accounts.exists_index {scan : Scan} {t : Text} {pieces : List Piece}
    (h : scan.Accounts t pieces) {token : Token} (htoken : token ∈ scan.words) :
    token.kind ≠ .endOfInput ∧ ∃ i < t.length, token.position = .ofIndex t i := by
  rw [h.words] at htoken
  rcases List.mem_filterMap.mp htoken with ⟨x, hx, hfound⟩
  rcases Option.map_eq_some_iff.mp hfound with ⟨found, hpiece, rfl⟩
  refine ⟨Piece.kind_ne_endOfInput hpiece, x.start, ?_, rfl⟩
  rcases h.divide.exists_split hx with ⟨before, rest, htext, _, hstart⟩
  have hpos := List.length_pos_iff.mpr x.piece.written_ne_nil
  have hlength := congrArg List.length htext
  rw [List.length_append, List.length_append] at hlength
  omega

/-- A source falls into pieces that account for its scan, so that every character outside
blanks and comments lies in one token or in text with a diagnostic.  Every token and
every diagnostic stands at the line and the column of the character that it begins with,
and the end of input after the last character.  The tokens stand one before another up to
the end of input, which is the only one of its kind.  A reader that asks for one token
after another is given the same tokens and then the end of input for ever, unchanged and
without further diagnostics. -/
theorem scan_accounts_for_source (t : Text) :
    let scan := Scan.ofText t
    (∃ pieces, scan.Accounts t pieces) ∧
      scan.final.token = ⟨.endOfInput, [], .ofIndex t t.length⟩ ∧
      scan.tokens.Pairwise (fun first second => first.position.Before second.position) ∧
      (∀ token ∈ scan.words, token.kind ≠ .endOfInput) ∧
      ∀ n, (Scan.Cursor.mk .start t).call n =
        scan.toList[n]?.getD ⟨scan.final.token, []⟩ := by
  intro scan
  rcases Scan.exists_accounts t with ⟨pieces, haccounts⟩
  have hfinal : scan.final.token = ⟨.endOfInput, [], .ofIndex t t.length⟩ := by
    have hplace := Position.start_after t []
    rw [List.append_nil] at hplace
    rw [← hplace]
    exact Scan.final_onto [] [] .start t
  refine ⟨⟨pieces, haccounts⟩, hfinal, ?_, ?_, ?_⟩
  · have htokens : scan.tokens = scan.words ++ [scan.final.token] := by
      simp [Scan.tokens, Scan.toList, Scan.words]
    rw [htokens, List.pairwise_append]
    refine ⟨Scan.ordered_words t, List.pairwise_singleton _ _, ?_⟩
    intro token htoken final hmem
    rcases (haccounts.exists_index htoken).2 with ⟨i, hi, hposition⟩
    rw [List.mem_singleton.mp hmem, hfinal, hposition]
    exact Position.before_ofIndex hi (Nat.le_refl _)
  · intro token htoken
    exact (haccounts.exists_index htoken).1
  · intro n
    exact Scan.call_eq n ⟨.start, t⟩

end Asm6502

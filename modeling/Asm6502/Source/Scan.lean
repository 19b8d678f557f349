import Asm6502.Source.Lexeme

/-!
# Scans

A scan is the whole source as lexemes, with the end of input kept apart.  Every
reading leaves less text than it was given, so the scan ends.
-/

namespace Asm6502
namespace Lexeme

/-!
## Readings leave less text
-/

theorem length_dropWhile_le (p : Char -> Bool) (t : Text) :
    (t.dropWhile p).length ≤ t.length :=
  (List.dropWhile_sublist p).length_le

theorem number_rest_le (start : Position) (sign : Text) (c : Char) (t : Text) :
    (number start sign c t).rest.length ≤ t.length := by
  unfold number
  split
  case h_5 => exact length_dropWhile_le _ _
  all_goals exact Nat.le_succ_of_le (length_dropWhile_le _ _)

theorem malformedExtent_rest_le (t : Text) :
    (malformedExtent t).2.length ≤ t.length := by
  have hdrop := length_dropWhile_le (fun c => c != '\n' && c != '\'') t
  unfold malformedExtent
  split
  case h_1 rest heq =>
      rw [heq, List.length_cons] at hdrop
      exact Nat.le_of_succ_le hdrop
  case h_2 => exact hdrop

theorem character_rest_le (start : Position) (t : Text) :
    (character start t).rest.length ≤ t.length := by
  have hskip := malformedExtent_rest_le t
  unfold character
  split
  case h_1 c rest =>
      split
      · exact hskip
      · simp only [Reading.plain, List.length_cons]
        omega
  case h_2 => exact hskip

theorem string_rest_le (start : Position) (contents : Text)
    (faults : List Diagnostic) (position : Position) (t : Text) :
    (string start contents faults position t).rest.length ≤ t.length := by
  fun_induction string start contents faults position t with
  | case1 => exact Nat.le_refl _
  | case2 => exact Nat.le_succ _
  | case3 contents faults position ih => exact Nat.le_trans ih (Nat.zero_le _)
  | case4 contents faults position e rest c _ ih =>
      exact Nat.le_succ_of_le (Nat.le_succ_of_le ih)
  | case5 contents faults position e rest _ ih =>
      exact Nat.le_succ_of_le (Nat.le_succ_of_le ih)
  | case6 => exact Nat.le_refl _
  | case7 contents faults position c rest _ _ _ _ ih => exact Nat.le_succ_of_le ih

theorem negative_rest_le (start : Position) (c : Char) (t : Text) :
    (negative start c t).rest.length ≤ t.length := by
  cases t with
  | nil => exact Nat.le_refl _
  | cons d rest => exact Nat.le_succ_of_le (number_rest_le start [c] d rest)

theorem read_rest_le (start : Position) (c : Char) (t : Text) :
    (read start c t).rest.length ≤ t.length := by
  unfold read
  cases opening c t with
  | blank => exact Nat.le_refl _
  | comment => exact length_dropWhile_le _ t
  | word => exact length_dropWhile_le _ t
  | number => exact number_rest_le start [] c t
  | hexNumber => exact length_dropWhile_le _ t
  | binaryNumber => exact length_dropWhile_le _ t
  | negative => exact negative_rest_le start c t
  | character => exact character_rest_le start t
  | string => exact string_rest_le ..
  | directive => exact length_dropWhile_le _ t
  | punctuation => exact Nat.le_refl _
  | other => exact Nat.le_refl _

end Lexeme

/-!
## The scan of a source
-/

structure Scan where
  lexemes : List Lexeme
  /-- The end of input. -/
  final : Lexeme
  deriving DecidableEq

namespace Scan

/-- Scans on after the lexemes already found.  These, and the diagnostics met
since the last of them, are kept last first. -/
def onto (done : List Lexeme) (faults : List Diagnostic) (position : Position) :
    Text -> Scan
  | [] => ⟨done.reverse, ⟨⟨.endOfInput, [], position⟩, faults.reverse⟩⟩
  | c :: t =>
      let reading := Lexeme.read position c t
      match reading.token with
      | none =>
          onto done (reading.faults.reverse ++ faults) reading.position
            reading.rest
      | some (kind, text) =>
          onto
            (⟨⟨kind, text, position⟩, faults.reverse ++ reading.faults⟩ :: done)
            [] reading.position reading.rest
termination_by t => t.length
decreasing_by
  all_goals exact Nat.lt_succ_of_le (Lexeme.read_rest_le position c t)

def ofText (t : Text) : Scan :=
  onto [] [] Position.start t

def toList (scan : Scan) : List Lexeme :=
  scan.lexemes ++ [scan.final]

def tokens (scan : Scan) : List Token :=
  scan.toList.map Lexeme.token

def faults (scan : Scan) : List Diagnostic :=
  scan.toList.flatMap Lexeme.faults

def failedLines (scan : Scan) : List Int :=
  let bad := scan.faults.map fun d => d.position.line
  let lines := (List.range scan.final.token.position.line.toNat).map fun n : Nat =>
    (n : Int) + 1
  lines.filter bad.contains

end Scan
end Asm6502

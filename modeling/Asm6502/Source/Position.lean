import Asm6502.Text.Basic

/-!
# Positions

A position is a line and a column, both counted from one.  The column counts
characters, and only a line feed begins a new line.
-/

namespace Asm6502

structure Position where
  line : Int
  column : Int
  deriving DecidableEq

namespace Position

def start : Position := ⟨1, 1⟩

def next (p : Position) (c : Char) : Position :=
  if c = '\n' then ⟨p.line + 1, 1⟩ else ⟨p.line, p.column + 1⟩

def after (p : Position) (t : Text) : Position :=
  t.foldl next p

@[simp] theorem after_nil (p : Position) : p.after [] = p := rfl

@[simp] theorem after_cons (p : Position) (c : Char) (t : Text) :
    p.after (c :: t) = (p.next c).after t := rfl

theorem after_append (p : Position) (s t : Text) :
    p.after (s ++ t) = (p.after s).after t := by
  simp [after]

end Position
end Asm6502

import Asm6502.Proofs.LineGrammar
import Asm6502.Proofs.Readings
import Asm6502.Proofs.TokenChanges

/-!
# Lines further down

The grammar does not look at positions.  Some lines further down, and whatever token
comes after the line, the same tokens give the same statements with their positions
moved, or a diagnostic of the same kind.
-/

namespace Asm6502

def Operand.down (n : Int) (o : Operand) : Operand :=
  { o with position := o.position.down n }

namespace Statement

def Body.down (n : Int) : Body -> Body
  | .label name => .label name
  | .instruction operation operands =>
      .instruction operation (operands.map (Operand.down n))
  | .directive name operands => .directive name (operands.map (Operand.down n))

def down (n : Int) (s : Statement) : Statement :=
  ⟨s.body.down n, s.position.down n⟩

end Statement

namespace Grammar

def Change.down (n : Int) : Change where
  token := Token.down n
  name := id
  position := Position.down n
  kind_token _ := rfl
  position_token _ := rfl
  isMark_token _ _ := rfl
  upper_token _ := rfl
  lower_token _ := rfl
  text_identifier _ := rfl
  text_string _ := rfl
  read_number _ := rfl

namespace Change

theorem operand_down (n : Int) : (Change.down n).operand = Operand.down n := by
  funext ⟨form, position⟩
  have hvalue : ∀ v : Value, (Change.down n).value v = v := fun v => by cases v <;> rfl
  cases form with
  | plain v => exact congrArg (fun v => Operand.mk (.plain v) _) (hvalue v)
  | immediate v => exact congrArg (fun v => Operand.mk (.immediate v) _) (hvalue v)
  | indirect v indexed =>
      exact congrArg (fun v => Operand.mk (.indirect v indexed) _) (hvalue v)
  | register r => rfl
  | string contents => rfl

theorem statement_down (n : Int) : (Change.down n).statement = Statement.down n := by
  funext ⟨body, position⟩
  unfold statement
  rw [Statement.down, Change.body.eq_def, Statement.Body.down.eq_def, operand_down]
  cases body <;> rfl

end Change

/-- The second result is the first one moved, or both are diagnostics of one kind. -/
inductive Echoes {α β : Type} (move : α -> β) :
    Except Diagnostic α -> Except Diagnostic β -> Prop where
  | ok (a : α) : Echoes move (.ok a) (.ok (move a))
  | error {d e : Diagnostic} : d.kind = e.kind -> Echoes move (.error d) (.error e)

theorem statement_echoes (n : Int) (after after' start : Token) (ts : List Token) :
    Echoes (Statement.down n) (statement after start ts)
      (statement after' (start.down n) (ts.map (Token.down n))) := by
  -- Kinds alone are compared, so it does not matter which tokens come after the lines.
  have hcovers : (Change.down n).Covers (fun d e => d.kind = e.kind) after after' :=
    ⟨fun _ hkind => hkind, fun hkind => hkind⟩
  have htracks := Change.tracks_statement hcovers start ts
  rw [Change.statement_down] at htracks
  rcases htracks.cases with ⟨s, hread, hmoved⟩ | ⟨d, e, hread, hmoved, hkind⟩
  · rw [hread, show statement after' (start.down n) (ts.map (Token.down n)) = _ from hmoved]
    exact .ok s
  · rw [hread, show statement after' (start.down n) (ts.map (Token.down n)) = _ from hmoved]
    exact .error hkind

end Grammar
end Asm6502

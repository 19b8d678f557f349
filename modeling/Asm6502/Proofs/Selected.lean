import Asm6502.Assembly.Selection

/-!
# What operands select

Whatever addressing mode the operands of an instruction select, its argument is the value
of the first operand, the mode has a field for an argument exactly if there is one, and
any further operand is a register.
-/

namespace Asm6502

def Image.argument? (o : Operand) : Option Argument :=
  o.value?.map fun v => ⟨v, o.position⟩

namespace Selection

/-- The mode goes with the argument, which is taken from the first operand. -/
structure Selects (first : Option Operand) (mode : Mode) (argument : Option Argument) :
    Prop where
  taken : argument = first.bind Image.argument?
  unsized : argument = none -> mode.operandSize = 0
  sized : ∀ a ∈ argument, mode.operandSize = 1 ∨ mode.operandSize = 2

variable {table : SymbolTable} {m : Mnemonic} {mode : Mode} {argument : Option Argument}
  {o : Operand}

theorem Selects.of_value {v : Value} (hvalue : o.value? = some v)
    (hsize : mode.operandSize = 1 ∨ mode.operandSize = 2) :
    Selects o mode (some ⟨v, o.position⟩) := by
  refine ⟨?_, nofun, fun _ _ => hsize⟩
  rw [Option.bind_some, Image.argument?, hvalue]
  rfl

theorem byAddress_operandSize (v : Value) {short long : Mode}
    (hshort : short.operandSize = 1) (hlong : long.operandSize = 2) :
    (byAddress table m v short long).operandSize = 1 ∨
      (byAddress table m v short long).operandSize = 2 := by
  unfold byAddress
  split
  · exact .inl hshort
  · split
    · exact .inl hshort
    · exact .inr hlong

theorem single_selects (h : single table m o = .ok (mode, argument)) :
    Selects o mode argument := by
  rcases o with ⟨form, position⟩
  cases form with
  | plain v =>
      cases h
      refine .of_value rfl ?_
      split
      · exact .inl rfl
      · exact byAddress_operandSize v rfl rfl
  | immediate v =>
      cases h
      exact .of_value rfl (.inl rfl)
  | indirect v indexed =>
      cases indexed with
      | true =>
          cases h
          exact .of_value rfl (.inl rfl)
      | false =>
          cases h
          exact .of_value rfl (.inr rfl)
  | register r =>
      cases r <;> cases h
      exact ⟨rfl, fun _ => rfl, nofun⟩
  | string contents => cases h

theorem byX_selects (h : byX table m o = .ok (mode, argument)) :
    Selects o mode argument := by
  rcases o with ⟨form, position⟩
  cases form <;> cases h
  exact .of_value rfl (byAddress_operandSize _ rfl rfl)

theorem byY_selects (h : byY table m o = .ok (mode, argument)) :
    Selects o mode argument := by
  rcases o with ⟨form, position⟩
  cases form with
  | plain v =>
      cases h
      exact .of_value rfl (byAddress_operandSize v rfl rfl)
  | indirect v indexed =>
      cases indexed <;> cases h
      exact .of_value rfl (.inl rfl)
  | immediate v | register r | string contents => cases h

/-- Everything that a selection can give. -/
theorem select_selects {operands : List Operand}
    (h : select table m operands = .ok (mode, argument)) :
    Selects operands.head? mode argument ∧
      ∀ o ∈ operands.tail, ∃ r, o.form = .register r := by
  unfold select at h
  split at h
  · refine ⟨?_, nofun⟩
    split at h
    · cases h
      exact ⟨rfl, fun _ => rfl, nofun⟩
    · split at h <;> cases h
      exact ⟨rfl, fun _ => rfl, nofun⟩
  · exact ⟨single_selects h, nofun⟩
  · split at h
    · rename_i hindex
      exact ⟨byX_selects h, by simpa using ⟨_, hindex⟩⟩
    · rename_i hindex
      exact ⟨byY_selects h, by simpa using ⟨_, hindex⟩⟩
    · cases h
  · cases h

theorem select_operandSize {operands : List Operand} {a : Argument}
    (h : select table m operands = .ok (mode, some a)) :
    mode.operandSize = 1 ∨ mode.operandSize = 2 :=
  (select_selects h).1.sized a rfl

end Selection
end Asm6502

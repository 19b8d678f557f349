import Asm6502.Diagnostic.Basic
import Asm6502.Source.Statement

/-!
# The grammar of a line

Statements are read from the tokens of one line.  Every reader takes the tokens
that are left on the line and, for its messages, the token in front of them
(`before`) and the first token of a later line, or the end of input, that
follows them (`after`).
-/

namespace Asm6502
namespace Grammar

def fault (position : Position) (f : Diagnostic.GrammarFault) : Diagnostic :=
  ⟨.grammar f, position⟩

def unexpected (found : Token) (wanted : Diagnostic.Wanted) : Diagnostic :=
  fault found.position (.unexpected found wanted)

def register? (t : Token) : Option Register :=
  Register.ofName? (String.ofList t.text.upper)

/-!
## Values
-/

inductive Atom where
  | value (value : Value)
  | register (register : Register)
  deriving DecidableEq

/-- A literal is limited to the values that a source may write. -/
def number (t : Token) : Except Diagnostic Int :=
  match Literal.read t.text with
  | .error .range => .error ⟨.range (.literal t.text), t.position⟩
  | .error f => .error (fault t.position (.literal t.text f))
  | .ok n =>
      if n < -128 || 0xFFFF < n then
        .error ⟨.range (.literal t.text), t.position⟩
      else .ok n

def atom (t : Token) : Except Diagnostic Atom :=
  match t.kind with
  | .number => (number t).map fun n => .value (.number n)
  | .identifier =>
      match register? t with
      | some r => .ok (.register r)
      | none => .ok (.value (.name t.text))
  | _ => .error (unexpected t .numberOrName)

/-- The value after a mark; `refuse` words what a register means there. -/
def marked (before : Token) (refuse : Register -> Diagnostic.GrammarFault) :
    List Token -> Except Diagnostic (Value × List Token)
  | [] => .error (fault before.position (.missingValue before))
  | t :: rest =>
      match atom t with
      | .error d => .error d
      | .ok (.register r) => .error (fault t.position (refuse r))
      | .ok (.value v) => .ok (v, rest)

/-!
## Operands
-/

def innerIndex (after : Token) :
    List Token -> Except Diagnostic (Bool × List Token)
  | [] => .ok (false, [])
  | comma :: rest =>
      if comma.isMark ',' then
        match rest with
        | [] => .error (unexpected after .indexRegister)
        | t :: more =>
            if t.kind = .identifier && t.text.upper = ['X'] then .ok (true, more)
            else .error (unexpected t .indexRegister)
      else .ok (false, comma :: rest)

def closing (after : Token) : List Token -> Except Diagnostic (List Token)
  | [] => .error (unexpected after .closingParenthesis)
  | t :: rest =>
      if t.isMark ')' then .ok rest
      else .error (unexpected t .closingParenthesis)

def parenthesized (opening after : Token) (ts : List Token) :
    Except Diagnostic (Operand × List Token) :=
  match marked opening .registerAsAddress ts with
  | .error d => .error d
  | .ok (v, rest) =>
      match innerIndex after rest with
      | .error d => .error d
      | .ok (indexed, rest) =>
          match closing after rest with
          | .error d => .error d
          | .ok rest => .ok (⟨.indirect v indexed, opening.position⟩, rest)

def operand (before after : Token) :
    List Token -> Except Diagnostic (Operand × List Token)
  | [] => .error (fault before.position (.missingOperand before))
  | t :: rest =>
      if t.isMark '#' then
        match marked t .registerAsImmediate rest with
        | .error d => .error d
        | .ok (v, rest) => .ok (⟨.immediate v, t.position⟩, rest)
      else if t.isMark '(' then parenthesized t after rest
      else if t.kind = .string then .ok (⟨.string t.text, t.position⟩, rest)
      else
        match atom t with
        | .error d => .error d
        | .ok (.register r) => .ok (⟨.register r, t.position⟩, rest)
        | .ok (.value v) => .ok (⟨.plain v, t.position⟩, rest)

/-!
## Every operand takes a token
-/

theorem marked_rest_lt {before : Token}
    {refuse : Register -> Diagnostic.GrammarFault} {ts rest : List Token}
    {v : Value} (h : marked before refuse ts = .ok (v, rest)) :
    rest.length < ts.length := by
  unfold marked at h
  split at h
  · cases h
  · split at h <;> cases h
    exact Nat.lt_succ_self _

theorem innerIndex_rest_le {after : Token} {ts rest : List Token}
    {indexed : Bool} (h : innerIndex after ts = .ok (indexed, rest)) :
    rest.length ≤ ts.length := by
  unfold innerIndex at h
  split at h
  · cases h
    exact Nat.le_refl _
  · split at h
    · split at h
      · cases h
      · split at h <;> cases h
        simp only [List.length_cons]
        omega
    · cases h
      exact Nat.le_refl _

theorem closing_rest_lt {after : Token} {ts rest : List Token}
    (h : closing after ts = .ok rest) : rest.length < ts.length := by
  unfold closing at h
  split at h
  · cases h
  · split at h <;> cases h
    exact Nat.lt_succ_self _

theorem parenthesized_rest_lt {opening after : Token} {ts rest : List Token}
    {o : Operand} (h : parenthesized opening after ts = .ok (o, rest)) :
    rest.length < ts.length := by
  unfold parenthesized at h
  split at h
  · cases h
  · rename_i hmarked
    split at h
    · cases h
    · rename_i hindex
      split at h
      · cases h
      · rename_i hclosing
        cases h
        have := marked_rest_lt hmarked
        have := innerIndex_rest_le hindex
        have := closing_rest_lt hclosing
        omega

theorem operand_rest_lt {before after : Token} {ts rest : List Token}
    {o : Operand} (h : operand before after ts = .ok (o, rest)) :
    rest.length < ts.length := by
  unfold operand at h
  split at h
  · cases h
  · split at h
    · split at h
      · cases h
      · rename_i hmarked
        cases h
        exact Nat.lt_succ_of_lt (marked_rest_lt hmarked)
    · split at h
      · exact Nat.lt_succ_of_lt (parenthesized_rest_lt h)
      · split at h
        · cases h
          exact Nat.lt_succ_self _
        · split at h <;> cases h <;> exact Nat.lt_succ_self _

/-!
## Operand lists

The operands already read are kept last first.
-/

def operands (done : List Operand) (before after : Token) (ts : List Token) :
    Except Diagnostic (List Operand × List Token) :=
  match _ : operand before after ts with
  | .error d => .error d
  | .ok (o, []) => .ok ((o :: done).reverse, [])
  | .ok (o, comma :: rest) =>
      if comma.isMark ',' then operands (o :: done) comma after rest
      else .ok ((o :: done).reverse, comma :: rest)
termination_by ts.length
decreasing_by
  have hlt := operand_rest_lt (by assumption)
  simp only [List.length_cons] at hlt
  omega

/-- Arguments of a directive up to the end of the line; commas between them may
be left out. -/
def arguments (done : List Operand) (before after : Token) (ts : List Token) :
    Except Diagnostic (List Operand) :=
  match ts with
  | [] => .ok done.reverse
  | t :: more =>
      match _ : operand before after (t :: more) with
      | .error d => .error d
      | .ok (o, []) => .ok (o :: done).reverse
      | .ok (o, comma :: rest) =>
          if comma.isMark ',' then
            if rest.isEmpty then .error (fault comma.position .missingArgument)
            else arguments (o :: done) comma after rest
          else arguments (o :: done) before after (comma :: rest)
termination_by ts.length
decreasing_by
  all_goals
    have hlt := operand_rest_lt (by assumption)
    simp only [List.length_cons] at hlt ⊢
    omega

/-!
## Statements
-/

def endOfLine : List Token -> Except Diagnostic Unit
  | [] => .ok ()
  | t :: _ => .error (unexpected t .endOfLine)

def assignment (name equals : Token) (ts : List Token) :
    Except Diagnostic Statement :=
  match ts with
  | [] => .error (fault equals.position (.missingValue equals))
  | t :: rest => do
      let a <- atom t
      let form : Operand.Form :=
        match a with
        | .value v => .plain v
        | .register r => .register r
      endOfLine rest
      return ⟨.directive "const".toList
        [⟨.plain (.name name.text), name.position⟩, ⟨form, t.position⟩],
        name.position⟩

def instruction (after : Token) (operation : Operation) (start : Token)
    (ts : List Token) : Except Diagnostic Statement := do
  let found <-
    match ts with
    | [] => .ok ([], [])
    | t :: rest => operands [] start after (t :: rest)
  endOfLine found.2
  return ⟨.instruction operation found.1, start.position⟩

def isLabel (name colon : Token) : Bool :=
  name.kind = .identifier && (register? name).isNone && colon.isMark ':'

/-- A statement that takes up the rest of its line: all but labels do. -/
def statement (after start : Token) (ts : List Token) :
    Except Diagnostic Statement :=
  match start.kind with
  | .identifier =>
      if (register? start).isSome then
        .error (fault start.position (.registerName start.text))
      else
        match ts with
        | equals :: rest =>
            if equals.isMark '=' then assignment start equals rest
            else .error (fault start.position (.unknownInstruction start.text))
        | [] => .error (fault start.position (.unknownInstruction start.text))
  | .mnemonic operation => instruction after operation start ts
  | .directive => do
      let args <- arguments [] start after ts
      return ⟨.directive (Text.lower (start.text.drop 1)) args, start.position⟩
  | _ => .error (unexpected start .statement)

end Grammar
end Asm6502

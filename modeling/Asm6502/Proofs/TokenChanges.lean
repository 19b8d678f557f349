import Asm6502.Proofs.Parallel
import Asm6502.Proofs.Written

/-!
# Changes that the grammar does not see

The grammar looks at the class of a token, at its text as far as that is a mark, a
register, a number, a string or a name, and at nothing of its position.  A change of
tokens that respects this changes the statement of a line in the same way, and a
diagnostic into one of the same kind.
-/

namespace Asm6502

/-- The second result is the first one changed, or both are related diagnostics. -/
abbrev Tracks {α β : Type} (fault : Diagnostic -> Diagnostic -> Prop) (change : α -> β) :
    Except Diagnostic α -> Except Diagnostic β -> Prop :=
  Parallel fault fun a b => b = change a

namespace Tracks

variable {α β γ δ : Type} {fault : Diagnostic -> Diagnostic -> Prop} {change : α -> β}
  {x : Except Diagnostic α} {y : Except Diagnostic β}

theorem cases (h : Tracks fault change x y) :
    (∃ a, x = .ok a ∧ y = .ok (change a)) ∨
      ∃ d e, x = .error d ∧ y = .error e ∧ fault d e := by
  cases h with
  | ok hab => exact .inl ⟨_, rfl, congrArg Except.ok hab⟩
  | error hde => exact .inr ⟨_, _, rfl, rfl, hde⟩

theorem of_ok (h : Tracks fault change x y) {a : α} (hx : x = .ok a) :
    y = .ok (change a) := by
  cases hx
  cases h with
  | ok hab => exact congrArg Except.ok hab

theorem of_error (h : Tracks fault change x y) {d : Diagnostic} (hx : x = .error d) :
    ∃ e, y = .error e ∧ fault d e := by
  cases hx
  cases h with
  | error hde => exact ⟨_, rfl, hde⟩

theorem bind {final : γ -> δ -> Prop} {f : α -> Except Diagnostic γ}
    {g : β -> Except Diagnostic δ} (h : Tracks fault change x y)
    (hnext : ∀ a, Parallel fault final (f a) (g (change a))) :
    Parallel fault final (x >>= f) (y >>= g) := by
  refine Parallel.bind h ?_
  rintro a _ rfl
  exact hnext a

end Tracks

namespace Grammar

/-- A change of tokens by which names and positions change in one way everywhere, and
nothing else that the grammar looks at. -/
structure Change where
  token : Token -> Token
  name : Text -> Text
  position : Position -> Position
  kind_token (t : Token) : (token t).kind = t.kind
  position_token (t : Token) : (token t).position = position t.position
  isMark_token (mark : Char) (t : Token) : (token t).isMark mark = t.isMark mark
  upper_token (t : Token) : (token t).text.upper = t.text.upper
  lower_token (t : Token) : (token t).text.lower = t.text.lower
  text_identifier {t : Token} : t.kind = .identifier -> (token t).text = name t.text
  text_string {t : Token} : t.kind = .string -> (token t).text = t.text
  read_number {t : Token} :
    t.kind = .number -> Literal.read (token t).text = Literal.read t.text

namespace Change

def value (c : Change) : Value -> Value
  | .number n => .number n
  | .name name => .name (c.name name)

def atom (c : Change) : Atom -> Atom
  | .value v => .value (c.value v)
  | .register r => .register r

def form (c : Change) : Operand.Form -> Operand.Form
  | .plain v => .plain (c.value v)
  | .immediate v => .immediate (c.value v)
  | .indirect v indexed => .indirect (c.value v) indexed
  | .register r => .register r
  | .string contents => .string contents

def operand (c : Change) (o : Operand) : Operand :=
  ⟨c.form o.form, c.position o.position⟩

def body (c : Change) : Statement.Body -> Statement.Body
  | .label name => .label (c.name name)
  | .instruction operation operands => .instruction operation (operands.map c.operand)
  | .directive name operands => .directive name (operands.map c.operand)

def statement (c : Change) (s : Statement) : Statement :=
  ⟨c.body s.body, c.position s.position⟩

/-- Diagnostics of one kind are related if they point to a token of the line and to its
change, and also if they point to the two tokens after the line. -/
structure Covers (c : Change) (fault : Diagnostic -> Diagnostic -> Prop)
    (after after' : Token) : Prop where
  here {cause cause' : Diagnostic.Cause} (t : Token) : cause.kind = cause'.kind ->
    fault ⟨cause, t.position⟩ ⟨cause', (c.token t).position⟩
  ahead {cause cause' : Diagnostic.Cause} : cause.kind = cause'.kind ->
    fault ⟨cause, after.position⟩ ⟨cause', after'.position⟩

variable {c : Change} {fault : Diagnostic -> Diagnostic -> Prop} {after after' : Token}

theorem register?_token (c : Change) (t : Token) :
    register? (c.token t) = register? t := by
  unfold register?
  rw [c.upper_token]

theorem isLabel_token (c : Change) (name colon : Token) :
    isLabel (c.token name) (c.token colon) = isLabel name colon := by
  unfold isLabel
  rw [c.kind_token, c.register?_token, c.isMark_token]

theorem lower_drop_token (c : Change) (t : Token) :
    Text.lower ((c.token t).text.drop 1) = Text.lower (t.text.drop 1) := by
  have hdrop : ∀ text : Text, Text.lower (text.drop 1) = text.lower.drop 1 :=
    fun text => List.map_drop ..
  rw [hdrop, hdrop, c.lower_token]

/-!
## Operands
-/

def found {α : Type} (c : Change) (change : α -> α) (read : α × List Token) :
    α × List Token :=
  (change read.1, read.2.map c.token)

theorem tracks_number (h : c.Covers fault after after') {t : Token}
    (hkind : t.kind = .number) : Tracks fault id (number t) (number (c.token t)) := by
  unfold number
  rw [c.read_number hkind]
  cases Literal.read t.text with
  | error f =>
      cases f with
      | range => exact .error (h.here t rfl)
      | _ => exact .error (h.here t rfl)
  | ok m =>
      dsimp only
      split
      · exact .error (h.here t rfl)
      · exact .ok rfl

theorem tracks_atom (h : c.Covers fault after after') (t : Token) :
    Tracks fault c.atom (Grammar.atom t) (Grammar.atom (c.token t)) := by
  unfold Grammar.atom
  rw [c.kind_token, c.register?_token]
  cases hkind : t.kind with
  | number =>
      dsimp only
      rcases (tracks_number h hkind).cases with ⟨n, hread, hread'⟩ | ⟨d, e, hread, hread', hde⟩
      · rw [hread, hread']
        exact .ok rfl
      · rw [hread, hread']
        exact .error hde
  | identifier =>
      dsimp only
      rw [c.text_identifier hkind]
      cases register? t with
      | some r => exact .ok rfl
      | none => exact .ok rfl
  | endOfInput | mnemonic operation | string | directive | punctuation =>
      exact .error (h.here t rfl)

theorem tracks_marked (h : c.Covers fault after after') (before : Token)
    (refuse : Register -> Diagnostic.GrammarFault) (ts : List Token) :
    Tracks fault (c.found c.value) (marked before refuse ts)
      (marked (c.token before) refuse (ts.map c.token)) := by
  cases ts with
  | nil => exact .error (h.here before rfl)
  | cons t rest =>
      rw [List.map_cons, marked, marked]
      rcases (tracks_atom h t).cases with ⟨a, hread, hread'⟩ | ⟨d, e, hread, hread', hde⟩
      · rw [hread, hread']
        cases a with
        | value v => exact .ok rfl
        | register r => exact .error (h.here t rfl)
      · rw [hread, hread']
        exact .error hde

theorem tracks_innerIndex (h : c.Covers fault after after') (ts : List Token) :
    Tracks fault (c.found id) (innerIndex after ts)
      (innerIndex after' (ts.map c.token)) := by
  cases ts with
  | nil => exact .ok rfl
  | cons comma rest =>
      rw [List.map_cons, innerIndex.eq_def, innerIndex.eq_def]
      dsimp only
      rw [c.isMark_token]
      refine .ite ?_ (.ok rfl)
      cases rest with
      | nil => exact .error (h.ahead rfl)
      | cons t more =>
          rw [List.map_cons]
          dsimp only
          rw [c.kind_token, c.upper_token]
          exact .ite (.ok rfl) (.error (h.here t rfl))

theorem tracks_closing (h : c.Covers fault after after') (ts : List Token) :
    Tracks fault (List.map c.token) (closing after ts)
      (closing after' (ts.map c.token)) := by
  cases ts with
  | nil => exact .error (h.ahead rfl)
  | cons t rest =>
      rw [List.map_cons, closing, closing, c.isMark_token]
      exact .ite (.ok rfl) (.error (h.here t rfl))

theorem tracks_parenthesized (h : c.Covers fault after after') (opening : Token)
    (ts : List Token) :
    Tracks fault (c.found c.operand) (parenthesized opening after ts)
      (parenthesized (c.token opening) after' (ts.map c.token)) := by
  unfold parenthesized
  rcases (tracks_marked h opening .registerAsAddress ts).cases with
    ⟨⟨v, rest⟩, hread, hread'⟩ | ⟨d, e, hread, hread', hde⟩
  · simp only [hread, hread', found]
    rcases (tracks_innerIndex h rest).cases with
      ⟨⟨indexed, rest⟩, hread, hread'⟩ | ⟨d, e, hread, hread', hde⟩
    · simp only [hread, hread', found]
      rcases (tracks_closing h rest).cases with
        ⟨rest, hread, hread'⟩ | ⟨d, e, hread, hread', hde⟩
      · simp only [hread, hread', c.position_token]
        exact .ok rfl
      · simp only [hread, hread']
        exact .error hde
    · simp only [hread, hread']
      exact .error hde
  · simp only [hread, hread']
    exact .error hde

theorem tracks_operand (h : c.Covers fault after after') (before : Token)
    (ts : List Token) :
    Tracks fault (c.found c.operand) (Grammar.operand before after ts)
      (Grammar.operand (c.token before) after' (ts.map c.token)) := by
  cases ts with
  | nil => exact .error (h.here before rfl)
  | cons t rest =>
      rw [List.map_cons, Grammar.operand, Grammar.operand, c.isMark_token, c.isMark_token,
        c.kind_token]
      refine .ite ?_ (.ite (tracks_parenthesized h t rest) ?_)
      · rcases (tracks_marked h t .registerAsImmediate rest).cases with
          ⟨⟨v, rest⟩, hread, hread'⟩ | ⟨d, e, hread, hread', hde⟩
        · simp only [hread, hread', found, c.position_token]
          exact .ok rfl
        · simp only [hread, hread']
          exact .error hde
      · by_cases hstring : t.kind = .string
        · rw [if_pos hstring, if_pos hstring, c.text_string hstring, c.position_token]
          exact .ok rfl
        · rw [if_neg hstring, if_neg hstring]
          rcases (tracks_atom h t).cases with
            ⟨a, hread, hread'⟩ | ⟨d, e, hread, hread', hde⟩
          · rw [hread, hread']
            cases a with
            | value v => exact .ok (by rw [c.position_token]; rfl)
            | register r => exact .ok (by rw [c.position_token]; rfl)
          · rw [hread, hread']
            exact .error hde

end Change

/-!
## Lists of operands
-/

theorem operands_eq (done : List Operand) (before after : Token) (ts : List Token) :
    operands done before after ts =
      match operand before after ts with
      | .error d => .error d
      | .ok (o, []) => .ok ((o :: done).reverse, [])
      | .ok (o, comma :: rest) =>
          if comma.isMark ',' then operands (o :: done) comma after rest
          else .ok ((o :: done).reverse, comma :: rest) := by
  rw [operands]
  split
  · simp_all
  · simp_all
  · simp_all

theorem arguments_cons (done : List Operand) (before after t : Token) (more : List Token) :
    arguments done before after (t :: more) =
      match operand before after (t :: more) with
      | .error d => .error d
      | .ok (o, []) => .ok (o :: done).reverse
      | .ok (o, comma :: rest) =>
          if comma.isMark ',' then
            if rest.isEmpty then .error (fault comma.position .missingArgument)
            else arguments (o :: done) comma after rest
          else arguments (o :: done) before after (comma :: rest) := by
  rw [arguments]
  split
  · simp_all
  · simp_all
  · simp_all

namespace Change

variable {c : Change} {fault : Diagnostic -> Diagnostic -> Prop} {after after' : Token}

theorem reverse_map (c : Change) (o : Operand) (done : List Operand) :
    (c.operand o :: done.map c.operand).reverse = (o :: done).reverse.map c.operand := by
  rw [List.map_reverse, List.map_cons]

theorem tracks_operands (h : c.Covers fault after after') (done : List Operand)
    (before : Token) (ts : List Token) :
    Tracks fault (c.found (List.map c.operand)) (operands done before after ts)
      (operands (done.map c.operand) (c.token before) after' (ts.map c.token)) := by
  fun_induction operands done before after ts with
  | case1 done before ts d hread =>
      rcases (tracks_operand h before ts).of_error hread with ⟨e, hread', hde⟩
      rw [operands_eq, hread']
      exact .error hde
  | case2 done before ts o hread =>
      have hread' := (tracks_operand h before ts).of_ok hread
      rw [operands_last hread', reverse_map]
      exact .ok rfl
  | case3 done before ts o comma rest hread hcomma ih =>
      have hread' := (tracks_operand h before ts).of_ok hread
      have hnext : operands (done.map c.operand) (c.token before) after'
            (ts.map c.token) =
          operands ((o :: done).map c.operand) (c.token comma) after'
            (rest.map c.token) := by
        rw [operands_eq, hread']
        exact if_pos ((c.isMark_token _ _).trans hcomma)
      rw [hnext]
      exact ih
  | case4 done before ts o comma rest hread hcomma =>
      have hread' := (tracks_operand h before ts).of_ok hread
      have hstop : operands (done.map c.operand) (c.token before) after'
            (ts.map c.token) =
          .ok ((o :: done).reverse.map c.operand, c.token comma :: rest.map c.token) := by
        rw [operands_eq, hread', ← reverse_map]
        exact if_neg (by rwa [c.isMark_token])
      rw [hstop]
      exact .ok rfl

theorem tracks_arguments (h : c.Covers fault after after') (done : List Operand)
    (before : Token) (ts : List Token) :
    Tracks fault (List.map c.operand) (arguments done before after ts)
      (arguments (done.map c.operand) (c.token before) after' (ts.map c.token)) := by
  fun_induction arguments done before after ts with
  | case1 done before =>
      rw [List.map_nil, arguments, ← List.map_reverse]
      exact .ok rfl
  | case2 done before t tail d hread =>
      rcases (tracks_operand h before (t :: tail)).of_error hread with ⟨e, hread', hde⟩
      rw [List.map_cons] at hread' ⊢
      rw [arguments_cons, hread']
      exact .error hde
  | case3 done before t tail o hread =>
      have hread' := (tracks_operand h before (t :: tail)).of_ok hread
      rw [arguments_last hread', reverse_map]
      exact .ok rfl
  | case4 done before t tail o comma rest hread hcomma hrest =>
      have hread' := (tracks_operand h before (t :: tail)).of_ok hread
      rw [← c.isMark_token] at hcomma
      have hstop : arguments (done.map c.operand) (c.token before) after'
            ((t :: tail).map c.token) =
          .error (Grammar.fault (c.token comma).position .missingArgument) := by
        rw [List.map_cons] at hread' ⊢
        rw [arguments_cons, hread']
        exact (if_pos hcomma).trans (if_pos (List.isEmpty_map.trans hrest))
      rw [hstop]
      exact .error (h.here comma rfl)
  | case5 done before t tail o comma rest hread hcomma hrest ih =>
      have hread' := (tracks_operand h before (t :: tail)).of_ok hread
      rw [← c.isMark_token] at hcomma
      have hnext : arguments (done.map c.operand) (c.token before) after'
            ((t :: tail).map c.token) =
          arguments ((o :: done).map c.operand) (c.token comma) after'
            (rest.map c.token) := by
        rw [List.map_cons] at hread' ⊢
        rw [arguments_cons, hread']
        refine (if_pos hcomma).trans (if_neg ?_)
        rwa [List.isEmpty_map]
      rw [hnext]
      exact ih
  | case6 done before t tail o comma rest hread hcomma ih =>
      have hread' := (tracks_operand h before (t :: tail)).of_ok hread
      rw [← c.isMark_token] at hcomma
      have hnext : arguments (done.map c.operand) (c.token before) after'
            ((t :: tail).map c.token) =
          arguments ((o :: done).map c.operand) (c.token before) after'
            ((comma :: rest).map c.token) := by
        rw [List.map_cons] at hread' ⊢
        rw [arguments_cons, hread']
        exact if_neg hcomma
      rw [hnext]
      exact ih

/-!
## Statements
-/

theorem tracks_endOfLine (h : c.Covers fault after after') (ts : List Token) :
    Tracks fault id (endOfLine ts) (endOfLine (ts.map c.token)) := by
  cases ts with
  | nil => exact .ok rfl
  | cons t rest => exact .error (h.here t rfl)

theorem tracks_assignment (h : c.Covers fault after after') {name : Token}
    (hname : name.kind = .identifier) (equals : Token) (ts : List Token) :
    Tracks fault c.statement (assignment name equals ts)
      (assignment (c.token name) (c.token equals) (ts.map c.token)) := by
  cases ts with
  | nil => exact .error (h.here equals rfl)
  | cons t rest =>
      refine (tracks_atom h t).bind fun a => ?_
      refine (tracks_endOfLine h rest).bind fun _ => ?_
      rw [c.text_identifier hname, c.position_token, c.position_token]
      cases a with
      | value v => exact .ok rfl
      | register r => exact .ok rfl

theorem tracks_instruction (h : c.Covers fault after after') (operation : Operation)
    (start : Token) (ts : List Token) :
    Tracks fault c.statement (instruction after operation start ts)
      (instruction after' operation (c.token start) (ts.map c.token)) := by
  have hdone : ∀ read : List Operand × List Token,
      Tracks fault c.statement
        (do
          endOfLine read.2
          return ⟨.instruction operation read.1, start.position⟩)
        (do
          endOfLine (read.2.map c.token)
          return ⟨.instruction operation (read.1.map c.operand),
            (c.token start).position⟩) := by
    intro read
    refine (tracks_endOfLine h read.2).bind fun _ => ?_
    rw [c.position_token]
    exact .ok rfl
  cases ts with
  | nil => exact hdone ([], [])
  | cons t rest => exact (tracks_operands h [] start (t :: rest)).bind hdone

/-- The changed tokens of a line make the changed statement, or a diagnostic of the same
kind. -/
theorem tracks_statement (h : c.Covers fault after after') (start : Token)
    (ts : List Token) :
    Tracks fault c.statement (Grammar.statement after start ts)
      (Grammar.statement after' (c.token start) (ts.map c.token)) := by
  unfold Grammar.statement
  rw [c.kind_token, c.register?_token]
  cases hkind : start.kind with
  | identifier =>
      refine .ite (.error (h.here start rfl)) ?_
      cases ts with
      | nil => exact .error (h.here start rfl)
      | cons equals rest =>
          rw [List.map_cons]
          dsimp only
          rw [c.isMark_token]
          exact .ite (tracks_assignment h hkind equals rest) (.error (h.here start rfl))
  | mnemonic operation => exact tracks_instruction h operation start ts
  | directive =>
      refine (tracks_arguments h [] start ts).bind fun args => ?_
      rw [c.lower_drop_token, c.position_token]
      exact .ok rfl
  | endOfInput | number | string | punctuation => exact .error (h.here start rfl)

end Change
end Grammar
end Asm6502

import Asm6502.Proofs.Reader
import Asm6502.Proofs.TokenChanges

/-!
# Statements read token by token

A reader of statements asks for the token in front and passes what it accepts, as long as
the line of the statement goes on.  The grammar, in contrast, is given all tokens that
are left on the line.  Both make the same of them: where the reader of a part stops with
a result, the grammar leaves over what is still ahead on the line, and they complain
about the same token.

So a statement that is accepted takes the line to its end, and the rest of a line whose
statement is refused can be passed over from wherever the reader has given up.
-/

namespace Asm6502

/-!
## Parts of a statement

A reader of a part ends somewhere on the line, with a result or with a complaint.
-/

/-- What a reader makes of tokens of a line, and how far it has gone. -/
structure Taken (line : Int) (s : Stretch) (α : Type) where
  result : Except Diagnostic α
  stretch : Stretch
  along : s.Along line stretch

namespace Taken

variable {line : Int} {s s' : Stretch} {α β : Type}

def fail (d : Diagnostic) : Taken line s α :=
  ⟨.error d, s, .stay s⟩

def done (a : α) : Taken line s α :=
  ⟨.ok a, s, .stay s⟩

def after (t : Taken line s' α) (h : s.Along line s') : Taken line s α :=
  ⟨t.result, t.stretch, h.trans t.along⟩

def pass (h : s.reader.current.onLine line = true) (t : Taken line s.step α) :
    Taken line s α :=
  t.after (.step h (.stay _))

def andThen (t : Taken line s α) (f : α -> (s' : Stretch) -> Taken line s' β) :
    Taken line s β :=
  match t.result with
  | .error d => (fail d).after t.along
  | .ok a => (f a t.stretch).after t.along

/-- The result as the grammar tells it, with the tokens that are left. -/
def told (t : Taken line s α) : Except Diagnostic (α × List Token) :=
  t.result.map fun a => (a, t.stretch.ahead line)

theorem told_pass (h : s.reader.current.onLine line = true) (t : Taken line s.step α) :
    (pass h t).told = t.told :=
  rfl

theorem told_done (a : α) : (done a : Taken line s α).told = .ok (a, s.ahead line) :=
  rfl

theorem told_after (t : Taken line s' α) (h : s.Along line s') : (t.after h).told = t.told :=
  rfl

theorem told_of_error {t : Taken line s α} {d : Diagnostic} (h : t.result = .error d) :
    t.told = .error d := by
  rw [told, h]
  rfl

theorem told_of_ok {t : Taken line s α} {a : α} (h : t.result = .ok a) :
    t.told = .ok (a, t.stretch.ahead line) := by
  rw [told, h]
  rfl

/-- What is told of the first part decides what is told of both. -/
theorem told_andThen {t : Taken line s α} {f : α -> (s' : Stretch) -> Taken line s' β}
    {first : Except Diagnostic (α × List Token)} {both : Except Diagnostic (β × List Token)}
    (hfirst : t.told = first) (herror : ∀ d, first = .error d -> both = .error d)
    (hok : ∀ a, first = .ok (a, t.stretch.ahead line) -> (f a t.stretch).told = both) :
    (t.andThen f).told = both := by
  unfold andThen
  cases hresult : t.result with
  | error d => exact (herror d (hfirst.symm.trans (told_of_error hresult))).symm
  | ok a => exact hok a (hfirst.symm.trans (told_of_ok hresult))

theorem told_andThen_of_map {γ : Type} {t : Taken line s α}
    {f : α -> (s' : Stretch) -> Taken line s' β} {x : Except Diagnostic γ}
    {g : γ -> α × List Token} {both : Except Diagnostic (β × List Token)}
    (hfirst : t.told = x.map g) (herror : ∀ d, x = .error d -> both = .error d)
    (hok : ∀ c, x = .ok c -> t.stretch.ahead line = (g c).2 ->
      (f (g c).1 t.stretch).told = both) :
    (t.andThen f).told = both := by
  cases x with
  | error d =>
      refine told_andThen hfirst (fun e he => ?_) (fun a ha => by cases ha)
      cases he
      exact herror d rfl
  | ok c =>
      refine told_andThen hfirst (fun e he => by cases he) (fun a ha => ?_)
      have hpair : g c = (a, t.stretch.ahead line) := Except.ok.inj ha
      have hsecond := hok c rfl (congrArg Prod.snd hpair).symm
      rw [hpair] at hsecond
      exact hsecond

/-- Whoever leaves nothing of the line over has passed it. -/
theorem result_of_told {t : Taken line s α} {x : Except Diagnostic α}
    (h : t.told = x.map fun a => (a, [])) :
    t.result = x ∧ ∀ a, t.result = .ok a -> t.stretch = s.passLine line := by
  cases hresult : t.result with
  | error d =>
      rw [told_of_error hresult] at h
      cases x with
      | error e => exact ⟨congrArg Except.error (Except.error.inj h), fun a ha => by cases ha⟩
      | ok a => cases h
  | ok a =>
      rw [told_of_ok hresult] at h
      cases x with
      | error e => cases h
      | ok b =>
          rcases Prod.mk.inj (Except.ok.inj h) with ⟨rfl, hahead⟩
          refine ⟨rfl, fun _ _ => ?_⟩
          rw [← t.along.passLine_eq,
            Stretch.passLine_of_not_onLine (Stretch.not_onLine_of_ahead hahead)]

/-- Whoever gives a result has passed a token. -/
def Moves (t : Taken line s α) : Prop :=
  ∀ a, t.result = .ok a -> s.passed.length < t.stretch.passed.length

theorem moves_fail (d : Diagnostic) : (fail d : Taken line s α).Moves := by
  intro a h
  cases h

theorem moves_pass (h : s.reader.current.onLine line = true) (t : Taken line s.step α) :
    (pass h t).Moves := by
  intro a _
  calc s.passed.length < s.step.passed.length := by
        rw [Stretch.length_passed_step]
        exact Nat.lt_succ_self _
    _ ≤ t.stretch.passed.length := t.along.length_passed_le

theorem Moves.andThen {t : Taken line s α} (h : t.Moves)
    (f : α -> (s' : Stretch) -> Taken line s' β) : (t.andThen f).Moves := by
  intro b hb
  cases hresult : t.result with
  | error d =>
      rw [Taken.andThen, hresult] at hb
      cases hb
  | ok a =>
      rw [Taken.andThen, hresult]
      exact Nat.lt_of_lt_of_le (h a hresult) (f a t.stretch).along.length_passed_le

end Taken

namespace Stretch

open Grammar (fault unexpected)

/-!
### Readers

In the order of the grammar.  Each of them asks for the token in front only.
-/

section

variable (line : Int)

def atom (s : Stretch) : Taken line s Grammar.Atom :=
  if h : s.reader.current.onLine line then
    match Grammar.atom s.reader.current with
    | .error d => .fail d
    | .ok a => .pass h (.done a)
  else .fail (fault s.previous.position (.missingValue s.previous))

def marked (refuse : Register -> Diagnostic.GrammarFault) (s : Stretch) :
    Taken line s Value :=
  (s.atom line).andThen fun a _ =>
    match a with
    | .register r => .fail (fault s.reader.current.position (refuse r))
    | .value v => .done v

def passIf {α : Type} (wanted : Token -> Bool) (s : Stretch)
    (found : (s' : Stretch) -> Taken line s' α) (missing : Taken line s α) : Taken line s α :=
  if h : s.reader.current.onLine line = true ∧ wanted s.reader.current = true then
    .pass h.1 (found s.step)
  else missing

def innerIndex (s : Stretch) : Taken line s Bool :=
  s.passIf line (Token.isMark ',')
    (fun s' =>
      s'.passIf line (fun t => t.kind = .identifier && t.text.upper = ['X'])
        (fun _ => .done true) (.fail (unexpected s'.reader.current .indexRegister)))
    (.done false)

def closing (s : Stretch) : Taken line s Unit :=
  s.passIf line (Token.isMark ')') (fun _ => .done ())
    (.fail (unexpected s.reader.current .closingParenthesis))

def parenthesized (opening : Token) (s : Stretch) : Taken line s Operand :=
  (s.marked line .registerAsAddress).andThen fun v s₁ =>
  (s₁.innerIndex line).andThen fun indexed s₂ =>
  (s₂.closing line).andThen fun _ _ =>
  .done ⟨.indirect v indexed, opening.position⟩

def operand (s : Stretch) : Taken line s Operand :=
  let t := s.reader.current
  if h : t.onLine line then
    if t.isMark '#' then
      .pass h ((s.step.marked line .registerAsImmediate).andThen fun v _ =>
        .done ⟨.immediate v, t.position⟩)
    else if t.isMark '(' then .pass h (s.step.parenthesized line t)
    else if t.kind = .string then .pass h (.done ⟨.string t.text, t.position⟩)
    else
      (s.atom line).andThen fun a _ =>
        match a with
        | .register r => .done ⟨.register r, t.position⟩
        | .value v => .done ⟨.plain v, t.position⟩
  else .fail (fault s.previous.position (.missingOperand s.previous))

theorem moves_atom (s : Stretch) : (s.atom line).Moves := by
  unfold atom
  split
  · split
    · exact Taken.moves_fail _
    · exact Taken.moves_pass _ _
  · exact Taken.moves_fail _

theorem moves_operand (s : Stretch) : (s.operand line).Moves := by
  unfold operand
  dsimp only
  split
  · split
    · exact Taken.moves_pass _ _
    · split
      · exact Taken.moves_pass _ _
      · split
        · exact Taken.moves_pass _ _
        · exact (moves_atom line s).andThen _
  · exact Taken.moves_fail _

def operands (done : List Operand) (s : Stretch) : Taken line s (List Operand) :=
  let first := s.operand line
  match first.result with
  | .error d => (Taken.fail d).after first.along
  | .ok o =>
      let t := first.stretch.reader.current
      if h : t.onLine line = true ∧ t.isMark ',' = true then
        (Taken.pass h.1 (operands (o :: done) first.stretch.step)).after first.along
      else (Taken.done (o :: done).reverse).after first.along
termination_by s.reader.size
decreasing_by
  refine ((s.operand line).along.trans (.step h.1 (.stay _))).size_lt ?_
  have hpassed := (s.operand line).along.length_passed_le
  rw [length_passed_step]
  omega

def arguments (done : List Operand) (s : Stretch) : Taken line s (List Operand) :=
  if s.reader.current.onLine line then
    let first := s.operand line
    match _ : first.result with
    | .error d => (Taken.fail d).after first.along
    | .ok o =>
        let comma := first.stretch.reader.current
        if h : comma.onLine line = true ∧ comma.isMark ',' = true then
          if first.stretch.step.reader.current.onLine line then
            (Taken.pass h.1 (arguments (o :: done) first.stretch.step)).after first.along
          else
            (Taken.pass h.1 (.fail (fault comma.position .missingArgument))).after first.along
        else (arguments (o :: done) first.stretch).after first.along
  else .done done.reverse
termination_by s.reader.size
decreasing_by
  -- A comma may be left out, so only the argument itself is sure to pass a token.
  all_goals
    have hmoves := moves_operand line s o (by assumption)
  · refine ((s.operand line).along.trans (.step h.1 (.stay _))).size_lt ?_
    rw [length_passed_step]
    exact Nat.lt_succ_of_lt hmoves
  · exact (s.operand line).along.size_lt hmoves

def ending {α : Type} (a : α) (s : Stretch) : Taken line s α :=
  if s.reader.current.onLine line then .fail (unexpected s.reader.current .endOfLine)
  else .done a

def assignment (name : Token) (s : Stretch) : Taken line s Statement :=
  (s.atom line).andThen fun a s₁ =>
    let form : Operand.Form :=
      match a with
      | .value v => .plain v
      | .register r => .register r
    s₁.ending line ⟨.directive "const".toList
      [⟨.plain (.name name.text), name.position⟩, ⟨form, s.reader.current.position⟩],
      name.position⟩

def instruction (operation : Operation) (start : Token) (s : Stretch) :
    Taken line s Statement :=
  let found : Taken line s (List Operand) :=
    if s.reader.current.onLine line then s.operands line [] else .done []
  found.andThen fun os s₁ => s₁.ending line ⟨.instruction operation os, start.position⟩

/-- A label or a statement that takes up the rest of the line. -/
def statement (s : Stretch) : Taken line s Statement :=
  let start := s.reader.current
  if h : start.onLine line then
    match start.kind with
    | .identifier =>
        -- The token after a name is in hand already, so none of the two is passed before it
        -- is known whether they go together.
        if (Grammar.register? start).isSome then
          .fail (fault start.position (.registerName start.text))
        else if hcolon : s.reader.next.onLine line = true ∧
            s.reader.next.isMark ':' = true then
          .pass h (.pass hcolon.1 (.done ⟨.label start.text, start.position⟩))
        else if hequals : s.reader.next.onLine line = true ∧
            s.reader.next.isMark '=' = true then
          .pass h (.pass hequals.1 (s.step.step.assignment line start))
        else .fail (fault start.position (.unknownInstruction start.text))
    | .mnemonic operation => .pass h (s.step.instruction line operation start)
    | .directive =>
        .pass h ((s.step.arguments line []).andThen fun os _ =>
          .done ⟨.directive (Text.lower (start.text.drop 1)) os, start.position⟩)
    | _ => .fail (unexpected start .statement)
  else .fail (unexpected start .statement)

theorem moves_statement (s : Stretch) : (s.statement line).Moves := by
  unfold statement
  dsimp only
  split
  · split
    · split
      · exact Taken.moves_fail _
      · split
        · exact Taken.moves_pass _ _
        · split
          · exact Taken.moves_pass _ _
          · exact Taken.moves_fail _
    · exact Taken.moves_pass _ _
    · exact Taken.moves_pass _ _
    · exact Taken.moves_fail _
  · exact Taken.moves_fail _

end

/-!
### Readers and the grammar
-/

variable {line : Int} {s : Stretch}

theorem told_marked (refuse : Register -> Diagnostic.GrammarFault) (s : Stretch) :
    (s.marked line refuse).told = Grammar.marked s.previous refuse (s.ahead line) := by
  cases h : s.reader.current.onLine line with
  | false =>
      rw [ahead_of_not_onLine h, marked, atom, dif_neg (ne_true_of_eq_false h)]
      rfl
  | true =>
      rw [ahead_of_onLine h, marked, atom, dif_pos h, Grammar.marked]
      cases Grammar.atom s.reader.current with
      | error d => rfl
      | ok a =>
          cases a with
          | value v => rfl
          | register r => rfl

section

variable {α : Type} {wanted : Token -> Bool} {found : (s' : Stretch) -> Taken line s' α}
variable {missing : Taken line s α}

theorem told_passIf_of_onLine (h : s.reader.current.onLine line = true) :
    (s.passIf line wanted found missing).told =
      if wanted s.reader.current then (found s.step).told else missing.told := by
  unfold passIf
  by_cases hwanted : wanted s.reader.current = true
  · rw [dif_pos ⟨h, hwanted⟩, if_pos hwanted]
    rfl
  · rw [dif_neg fun hboth => hwanted hboth.2, if_neg hwanted]

theorem told_passIf_of_not_onLine (h : s.reader.current.onLine line = false) :
    (s.passIf line wanted found missing).told = missing.told := by
  rw [passIf, dif_neg fun hboth => ne_true_of_eq_false h hboth.1]

end

theorem innerIndex_cons (after comma : Token) (rest : List Token) :
    Grammar.innerIndex after (comma :: rest) =
      if comma.isMark ',' then
        match rest with
        | [] => .error (unexpected after .indexRegister)
        | t :: more =>
            if t.kind = .identifier && t.text.upper = ['X'] then .ok (true, more)
            else .error (unexpected t .indexRegister)
      else .ok (false, comma :: rest) :=
  rfl

theorem told_innerIndex (s : Stretch) :
    (s.innerIndex line).told = Grammar.innerIndex (s.follow line) (s.ahead line) := by
  unfold innerIndex
  cases h : s.reader.current.onLine line with
  | false =>
      rw [told_passIf_of_not_onLine h, Taken.told_done, ahead_of_not_onLine h]
      rfl
  | true =>
      rw [told_passIf_of_onLine h, Taken.told_done, ahead_of_onLine h, innerIndex_cons]
      by_cases hcomma : s.reader.current.isMark ',' = true
      · rw [if_pos hcomma, if_pos hcomma]
        cases hnext : s.step.reader.current.onLine line with
        | false =>
            rw [told_passIf_of_not_onLine hnext, ahead_of_not_onLine hnext, ← follow_step h,
              follow_eq_current hnext]
            rfl
        | true =>
            rw [told_passIf_of_onLine hnext, ahead_of_onLine hnext]
            rfl
      · rw [if_neg hcomma, if_neg hcomma]

theorem told_closing (s : Stretch) :
    (s.closing line).told =
      (Grammar.closing (s.follow line) (s.ahead line)).map fun rest => ((), rest) := by
  unfold closing
  cases h : s.reader.current.onLine line with
  | false =>
      rw [told_passIf_of_not_onLine h, ahead_of_not_onLine h, follow_eq_current h]
      rfl
  | true =>
      rw [told_passIf_of_onLine h, ahead_of_onLine h, Grammar.closing]
      by_cases hmark : s.reader.current.isMark ')' = true
      · rw [if_pos hmark, if_pos hmark]
        rfl
      · rw [if_neg hmark, if_neg hmark]
        rfl

theorem told_parenthesized (s : Stretch) :
    (s.parenthesized line s.previous).told =
      Grammar.parenthesized s.previous (s.follow line) (s.ahead line) := by
  unfold parenthesized Grammar.parenthesized
  refine Taken.told_andThen (told_marked ..) (fun d hd => by rw [hd]) fun v hv => ?_
  rw [hv, ← (s.marked line .registerAsAddress).along.follow_eq]
  generalize (s.marked line .registerAsAddress).stretch = s₁
  refine Taken.told_andThen (told_innerIndex s₁) (fun d hd => by simp only [hd])
    fun indexed hindexed => ?_
  simp only [hindexed]
  rw [← (s₁.innerIndex line).along.follow_eq]
  generalize (s₁.innerIndex line).stretch = s₂
  refine Taken.told_andThen_of_map (told_closing s₂) (fun d hd => by simp only [hd])
    fun rest hrest hahead => ?_
  rw [Taken.told_done, hahead]
  simp only [hrest]

theorem told_operand (s : Stretch) :
    (s.operand line).told = Grammar.operand s.previous (s.follow line) (s.ahead line) := by
  cases h : s.reader.current.onLine line with
  | false =>
      rw [operand, dif_neg (ne_true_of_eq_false h), ahead_of_not_onLine h]
      rfl
  | true =>
      rw [operand, dif_pos h, ahead_of_onLine h, Grammar.operand]
      split
      · refine (Taken.told_pass ..).trans (Taken.told_andThen (told_marked ..) ?_ ?_)
        · intro d hd
          rw [previous_step] at hd
          rw [hd]
        · intro v hv
          rw [previous_step] at hv
          rw [hv]
          rfl
      · split
        · rw [Taken.told_pass, ← follow_step h, ← previous_step]
          exact told_parenthesized s.step
        · split
          · rfl
          · rw [atom, dif_pos h]
            cases Grammar.atom s.reader.current with
            | error d => rfl
            | ok a =>
                cases a with
                | value v => rfl
                | register r => rfl

theorem told_operands (done : List Operand) (s : Stretch) :
    (s.operands line done).told =
      Grammar.operands done s.previous (s.follow line) (s.ahead line) := by
  fun_induction operands line done s with
  | case1 done s first d hresult =>
      have hfirst := (told_operand s).symm.trans (Taken.told_of_error hresult)
      rw [Grammar.operands_eq, hfirst]
      rfl
  | case2 done s first o hresult t h ih =>
      have hfirst := (told_operand s).symm.trans (Taken.told_of_ok hresult)
      have hfollow : first.stretch.step.follow line = s.follow line :=
        (first.along.trans (.step h.1 (.stay _))).follow_eq
      rw [ahead_of_onLine h.1] at hfirst
      rw [Taken.told_after, Taken.told_pass, ih, previous_step, hfollow,
        Grammar.operands_eq done s.previous, hfirst]
      exact (if_pos h.2).symm
  | case3 done s first o hresult t h =>
      have hfirst := (told_operand s).symm.trans (Taken.told_of_ok hresult)
      rw [Taken.told_after, Taken.told_done, Grammar.operands_eq, hfirst]
      cases honLine : t.onLine line with
      | false => rw [ahead_of_not_onLine honLine]
      | true =>
          rw [ahead_of_onLine honLine]
          exact (if_neg fun hmark => h ⟨honLine, hmark⟩).symm

theorem operand_ahead (h : s.reader.current.onLine line = true) (before : Token) :
    Grammar.operand before (s.follow line) (s.reader.current :: s.step.ahead line) =
      (s.operand line).told := by
  rw [told_operand, ahead_of_onLine h]
  rfl

theorem told_arguments (done : List Operand) (before : Token) (s : Stretch) :
    (s.arguments line done).told =
      (Grammar.arguments done before (s.follow line) (s.ahead line)).map fun os => (os, []) := by
  -- An argument is asked for only where a token is left, so `before` is never blamed.
  fun_induction arguments line done s generalizing before with
  | case1 done s h first d hresult =>
      rw [ahead_of_onLine h, Grammar.arguments_cons, operand_ahead h,
        Taken.told_of_error hresult]
      rfl
  | case2 done s h first o hresult comma hcomma hmore ih =>
      have hfollow : first.stretch.step.follow line = s.follow line :=
        (first.along.trans (.step hcomma.1 (.stay _))).follow_eq
      rw [ahead_of_onLine h, Grammar.arguments_cons, operand_ahead h,
        Taken.told_of_ok hresult, ahead_of_onLine hcomma.1, Taken.told_after, Taken.told_pass,
        ih comma, hfollow, ahead_of_onLine hmore]
      exact congrArg (Except.map _) (if_pos hcomma.2).symm
  | case3 done s h first o hresult comma hcomma hmore =>
      rw [ahead_of_onLine h, Grammar.arguments_cons, operand_ahead h,
        Taken.told_of_ok hresult, ahead_of_onLine hcomma.1,
        ahead_of_not_onLine (eq_false_of_ne_true hmore)]
      refine Eq.trans ?_ (congrArg (Except.map _) (if_pos hcomma.2).symm)
      rfl
  | case4 done s h first o hresult comma hcomma ih =>
      rw [ahead_of_onLine h, Grammar.arguments_cons, operand_ahead h,
        Taken.told_of_ok hresult, Taken.told_after, ih before, first.along.follow_eq]
      cases honLine : comma.onLine line with
      | false =>
          rw [ahead_of_not_onLine honLine, Grammar.arguments]
      | true =>
          rw [ahead_of_onLine honLine]
          exact congrArg (Except.map _) (if_neg fun hmark => hcomma ⟨honLine, hmark⟩).symm
  | case5 done s h =>
      rw [Taken.told_done, ahead_of_not_onLine (eq_false_of_ne_true h), Grammar.arguments]
      rfl

theorem told_ending {α : Type} (a : α) (s : Stretch) :
    (s.ending line a).told = (Grammar.endOfLine (s.ahead line)).map fun _ => (a, []) := by
  unfold ending
  cases h : s.reader.current.onLine line with
  | false =>
      rw [if_neg Bool.false_ne_true, Taken.told_done, ahead_of_not_onLine h]
      rfl
  | true =>
      rw [if_pos rfl, ahead_of_onLine h]
      rfl

theorem told_assignment (name : Token) (s : Stretch) :
    (s.assignment line name).told =
      (Grammar.assignment name s.previous (s.ahead line)).map fun x => (x, []) := by
  unfold assignment
  cases h : s.reader.current.onLine line with
  | false =>
      rw [ahead_of_not_onLine h, atom, dif_neg (ne_true_of_eq_false h)]
      rfl
  | true =>
      rw [ahead_of_onLine h, atom, dif_pos h, Grammar.assignment]
      cases Grammar.atom s.reader.current with
      | error d => rfl
      | ok a =>
          refine (told_ending _ s.step).trans ?_
          cases Grammar.endOfLine (s.step.ahead line) with
          | error d => rfl
          | ok _ => rfl

theorem instruction_cons (after start t : Token) (operation : Operation)
    (rest : List Token) :
    Grammar.instruction after operation start (t :: rest) =
      match Grammar.operands [] start after (t :: rest) with
      | .error d => .error d
      | .ok (os, left) =>
          (Grammar.endOfLine left).map fun _ => ⟨.instruction operation os, start.position⟩ := by
  unfold Grammar.instruction
  dsimp only
  cases Grammar.operands [] start after (t :: rest) with
  | error d => rfl
  | ok found => rfl

theorem told_instruction (operation : Operation) (s : Stretch) :
    (s.instruction line operation s.previous).told =
      (Grammar.instruction (s.follow line) operation s.previous (s.ahead line)).map
        fun x => (x, []) := by
  unfold instruction
  cases h : s.reader.current.onLine line with
  | false =>
      refine (told_ending _ s).trans ?_
      rw [ahead_of_not_onLine h]
      rfl
  | true =>
      refine Taken.told_andThen (told_operands [] s) (fun d hd => ?_) fun os hos => ?_
      · rw [ahead_of_onLine h] at hd ⊢
        rw [instruction_cons, hd]
        rfl
      · rw [told_ending]
        rw [ahead_of_onLine h] at hos ⊢
        rw [instruction_cons, hos]
        dsimp only
        cases Grammar.endOfLine _ with
        | error d => rfl
        | ok _ => rfl

theorem statement_of_label (h : s.reader.current.onLine line = true)
    (hcolon : s.reader.next.onLine line = true)
    (hlabel : Grammar.isLabel s.reader.current s.reader.next = true) :
    s.statement line = .pass h (.pass (s := s.step) hcolon
      (.done ⟨.label s.reader.current.text, s.reader.current.position⟩)) := by
  simp only [Grammar.isLabel, Bool.and_eq_true, decide_eq_true_eq] at hlabel
  rcases hlabel with ⟨⟨hkind, hregister⟩, hmark⟩
  have hfree : ¬(Grammar.register? s.reader.current).isSome = true := by
    rw [Option.isNone_iff_eq_none.mp hregister]
    exact Bool.false_ne_true
  unfold statement
  dsimp only
  rw [dif_pos h, hkind]
  dsimp only
  rw [if_neg hfree, dif_pos ⟨hcolon, hmark⟩]

theorem told_identifier (h : s.reader.current.onLine line = true)
    (hkind : s.reader.current.kind = .identifier)
    (hlabel : (s.reader.next.onLine line &&
      Grammar.isLabel s.reader.current s.reader.next) = false) :
    (s.statement line).told =
      (Grammar.statement (s.follow line) s.reader.current (s.step.ahead line)).map
        fun x => (x, []) := by
  unfold statement Grammar.statement
  dsimp only
  rw [dif_pos h, hkind]
  dsimp only
  split
  · rfl
  · rename_i hfree
    have hcolon : ¬(s.reader.next.onLine line = true ∧ s.reader.next.isMark ':' = true) := by
      rintro ⟨honLine, hmark⟩
      simp [Grammar.isLabel, honLine, hmark, hkind, hfree] at hlabel
    rw [dif_neg hcolon]
    by_cases hnext : s.step.reader.current.onLine line = true
    · rw [ahead_of_onLine hnext]
      split
      · rename_i hequals
        refine (told_assignment _ s.step.step).trans ?_
        rw [previous_step]
        exact congrArg (Except.map _) (if_pos hequals.2).symm
      · rename_i hequals
        refine Eq.trans ?_ (congrArg (Except.map _)
          (if_neg fun hmark => hequals ⟨hnext, hmark⟩).symm)
        rfl
    · rw [dif_neg fun hboth => hnext hboth.1,
        ahead_of_not_onLine (eq_false_of_ne_true hnext)]
      rfl

/-- Any other statement takes the line as the grammar does. -/
theorem told_statement (h : s.reader.current.onLine line = true)
    (hlabel : (s.reader.next.onLine line &&
      Grammar.isLabel s.reader.current s.reader.next) = false) :
    (s.statement line).told =
      (Grammar.statement (s.follow line) s.reader.current (s.step.ahead line)).map
        fun x => (x, []) := by
  by_cases hname : s.reader.current.kind = .identifier
  · exact told_identifier h hname hlabel
  unfold statement Grammar.statement
  dsimp only
  rw [dif_pos h]
  cases hkind : s.reader.current.kind with
  | identifier => exact absurd hkind hname
  | mnemonic operation =>
      have hinstruction : (s.step.instruction line operation s.step.previous).told = _ :=
        told_instruction operation s.step
      rw [previous_step, follow_step h] at hinstruction
      exact hinstruction
  | directive =>
      have harguments : (s.step.arguments line []).told = _ :=
        told_arguments [] s.reader.current s.step
      rw [follow_step h] at harguments
      refine Taken.told_andThen_of_map harguments (fun d hd => ?_) fun os hos hahead => ?_
      · simp only [hd]
        rfl
      · rw [Taken.told_done, hahead]
        simp only [hos]
        rfl
  | endOfInput => rfl
  | number => rfl
  | string => rfl
  | punctuation => rfl

end Stretch
end Asm6502

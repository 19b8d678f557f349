import Asm6502.Proofs.StatementLayout
import Asm6502.Proofs.Written

/-!
# The grammar of a line as a relation

The notation of a line, said without a reader: which lists of tokens are operands,
lists of operands, statements and lines, and what each of them says.

```
line    := label* [tail]
label   := NAME ':'
tail    := MNEMONIC [operand (',' operand)*]
         | DIRECTIVE [operand (','? operand)*]
         | NAME '=' value
operand := '#' plain | '(' plain [',' X] ')' | STRING | value
value   := plain | REGISTER
plain   := NUMBER in the range -128..$FFFF | NAME
```

A register is an identifier that spells one of the register names in whatever case,
and a name is any other identifier.  The reader of `Grammar` accepts a list of tokens
if and only if this grammar derives it, and then it finds what the derivation says.
-/

namespace Asm6502
namespace Grammar

/-!
## Derivations
-/

def SpellsRegister (t : Token) (r : Register) : Prop :=
  t.kind = .identifier ∧ t.text.upper = r.name.toList

def IsName (t : Token) : Prop :=
  t.kind = .identifier ∧ ∀ r : Register, t.text.upper ≠ r.name.toList

inductive DerivesPlain : Token -> Value -> Prop where
  | number {t : Token} {n : Int} : t.kind = .number -> Literal.read t.text = .ok n ->
      -128 ≤ n -> n ≤ 0xFFFF -> DerivesPlain t (.number n)
  | name {t : Token} : IsName t -> DerivesPlain t (.name t.text)

inductive DerivesValue : Token -> Operand.Form -> Prop where
  | plain {t : Token} {v : Value} : DerivesPlain t v -> DerivesValue t (.plain v)
  | register {t : Token} {r : Register} :
      SpellsRegister t r -> DerivesValue t (.register r)

inductive DerivesOperand : List Token -> Operand -> Prop where
  | immediate {hash t : Token} {v : Value} : hash.isMark '#' -> DerivesPlain t v ->
      DerivesOperand [hash, t] ⟨.immediate v, hash.position⟩
  | indirect {opening t closing : Token} {v : Value} : opening.isMark '(' ->
      DerivesPlain t v -> closing.isMark ')' ->
      DerivesOperand [opening, t, closing] ⟨.indirect v false, opening.position⟩
  | indexed {opening t comma index closing : Token} {v : Value} :
      opening.isMark '(' -> DerivesPlain t v -> comma.isMark ',' ->
      SpellsRegister index .x -> closing.isMark ')' ->
      DerivesOperand [opening, t, comma, index, closing]
        ⟨.indirect v true, opening.position⟩
  | string {t : Token} : t.kind = .string ->
      DerivesOperand [t] ⟨.string t.text, t.position⟩
  | value {t : Token} {form : Operand.Form} : DerivesValue t form ->
      DerivesOperand [t] ⟨form, t.position⟩

inductive DerivesOperands : List Token -> List Operand -> Prop where
  | last {ts : List Token} {o : Operand} : DerivesOperand ts o ->
      DerivesOperands ts [o]
  | comma {ts rest : List Token} {comma : Token} {o : Operand} {os : List Operand} :
      DerivesOperand ts o -> comma.isMark ',' -> DerivesOperands rest os ->
      DerivesOperands (ts ++ comma :: rest) (o :: os)

inductive DerivesArguments : List Token -> List Operand -> Prop where
  | last {ts : List Token} {o : Operand} : DerivesOperand ts o ->
      DerivesArguments ts [o]
  | comma {ts rest : List Token} {comma : Token} {o : Operand} {os : List Operand} :
      DerivesOperand ts o -> comma.isMark ',' -> DerivesArguments rest os ->
      DerivesArguments (ts ++ comma :: rest) (o :: os)
  | blank {ts rest : List Token} {o : Operand} {os : List Operand} :
      DerivesOperand ts o -> DerivesArguments rest os ->
      DerivesArguments (ts ++ rest) (o :: os)

inductive DerivesTail : List Token -> Statement -> Prop where
  | implied {start : Token} {operation : Operation} :
      start.kind = .mnemonic operation ->
      DerivesTail [start] ⟨.instruction operation [], start.position⟩
  | instruction {start : Token} {operation : Operation} {ts : List Token}
      {os : List Operand} :
      start.kind = .mnemonic operation -> DerivesOperands ts os ->
      DerivesTail (start :: ts) ⟨.instruction operation os, start.position⟩
  | bare {start : Token} : start.kind = .directive ->
      DerivesTail [start]
        ⟨.directive (Text.lower (start.text.drop 1)) [], start.position⟩
  | directive {start : Token} {ts : List Token} {os : List Operand} :
      start.kind = .directive -> DerivesArguments ts os ->
      DerivesTail (start :: ts)
        ⟨.directive (Text.lower (start.text.drop 1)) os, start.position⟩
  | assignment {name equals t : Token} {form : Operand.Form} :
      IsName name -> equals.isMark '=' -> DerivesValue t form ->
      DerivesTail [name, equals, t]
        ⟨.directive "const".toList
          [⟨.plain (.name name.text), name.position⟩, ⟨form, t.position⟩],
          name.position⟩

inductive DerivesLine : List Token -> List Statement -> Prop where
  | empty : DerivesLine [] []
  | tail {ts : List Token} {s : Statement} : DerivesTail ts s -> DerivesLine ts [s]
  | label {name colon : Token} {ts : List Token} {ss : List Statement} :
      IsName name -> colon.isMark ':' -> DerivesLine ts ss ->
      DerivesLine (name :: colon :: ts)
        (⟨.label name.text, name.position⟩ :: ss)

/-!
## Values
-/

variable {before after start t : Token} {ts rest : List Token} {v : Value}

theorem ofName?_eq_some_iff {written : Text} {r : Register} :
    Register.ofName? (String.ofList written) = some r ↔ written = r.name.toList := by
  constructor
  · intro h
    have hname := List.find?_some h
    rw [beq_iff_eq] at hname
    rw [hname, String.toList_ofList]
  · rintro rfl
    rw [String.ofList_toList, Register.ofName?_name]

theorem register?_eq_some_iff {r : Register} :
    register? t = some r ↔ t.text.upper = r.name.toList :=
  ofName?_eq_some_iff

theorem register?_eq_none_iff :
    register? t = none ↔ ∀ r : Register, t.text.upper ≠ r.name.toList := by
  rw [Option.eq_none_iff_forall_ne_some]
  exact forall_congr' fun r => not_congr register?_eq_some_iff

theorem number_eq_ok_iff {n : Int} :
    number t = .ok n ↔ Literal.read t.text = .ok n ∧ -128 ≤ n ∧ n ≤ 0xFFFF := by
  unfold number
  cases Literal.read t.text with
  | error f => cases f <;> simp
  | ok m =>
      dsimp only
      split
      · rename_i houtside
        rw [Bool.or_eq_true, decide_eq_true_eq, decide_eq_true_eq] at houtside
        constructor
        · intro h
          cases h
        · rintro ⟨heq, hlow, hhigh⟩
          cases heq
          omega
      · rename_i hinside
        rw [Bool.or_eq_true, decide_eq_true_eq, decide_eq_true_eq] at hinside
        constructor
        · intro h
          cases h
          exact ⟨rfl, by omega, by omega⟩
        · rintro ⟨heq, -, -⟩
          cases heq
          rfl

theorem atom_value_iff : atom t = .ok (.value v) ↔ DerivesPlain t v := by
  constructor
  · intro h
    unfold atom at h
    split at h
    · rename_i hkind
      cases hnumber : number t with
      | error d =>
          rw [hnumber] at h
          cases h
      | ok n =>
          rw [hnumber] at h
          cases h
          rcases number_eq_ok_iff.mp hnumber with ⟨hread, hlow, hhigh⟩
          exact .number hkind hread hlow hhigh
    · rename_i hkind
      cases hregister : register? t with
      | some r =>
          rw [hregister] at h
          cases h
      | none =>
          rw [hregister] at h
          cases h
          exact .name ⟨hkind, register?_eq_none_iff.mp hregister⟩
    · cases h
  · intro h
    cases h with
    | number hkind hread hlow hhigh =>
        have hnumber := number_eq_ok_iff.mpr ⟨hread, hlow, hhigh⟩
        simp [atom, hkind, hnumber, Except.map]
    | name hname =>
        have hregister := register?_eq_none_iff.mpr hname.2
        simp [atom, hname.1, hregister]

theorem atom_register_iff {r : Register} :
    atom t = .ok (.register r) ↔ SpellsRegister t r := by
  constructor
  · intro h
    unfold atom at h
    split at h
    · cases hnumber : number t with
      | error d =>
          rw [hnumber] at h
          cases h
      | ok n =>
          rw [hnumber] at h
          cases h
    · rename_i hkind
      cases hregister : register? t with
      | some found =>
          rw [hregister] at h
          cases h
          exact ⟨hkind, register?_eq_some_iff.mp hregister⟩
      | none =>
          rw [hregister] at h
          cases h
    · cases h
  · rintro ⟨hkind, hspelled⟩
    have hregister := register?_eq_some_iff.mpr hspelled
    simp [atom, hkind, hregister]

/-!
## Operands
-/

theorem eq_of_isMark {mark : Char} (h : t.isMark mark = true) :
    t = ⟨.punctuation, [mark], t.position⟩ := by
  unfold Token.isMark at h
  rw [Bool.and_eq_true, decide_eq_true_eq, decide_eq_true_eq] at h
  rw [← h.1, ← h.2]

theorem isMark_eq_false {mark other : Char} (h : t.isMark mark = true)
    (hne : mark ≠ other) : t.isMark other = false := by
  rw [eq_of_isMark h]
  simp [Token.isMark, hne]

theorem operand_of_derives {used : List Token} {o : Operand}
    (h : DerivesOperand used o) (before after : Token) (rest : List Token) :
    operand before after (used ++ rest) = .ok (o, rest) := by
  cases h with
  | immediate hhash hplain =>
      rw [eq_of_isMark hhash]
      exact operand_immediate (atom_value_iff.mpr hplain)
  | indirect hopening hplain hclosing =>
      rw [eq_of_isMark hopening, eq_of_isMark hclosing]
      exact operand_indirect (atom_value_iff.mpr hplain)
  | indexed hopening hplain hcomma hindex hclosing =>
      rw [eq_of_isMark hopening, eq_of_isMark hcomma, eq_of_isMark hclosing]
      exact operand_indexedIndirect (atom_value_iff.mpr hplain) hindex.1 hindex.2
  | @string t hkind =>
      cases t
      cases hkind
      exact operand_string
  | value hvalue =>
      cases hvalue with
      | plain hplain => exact operand_value (atom_value_iff.mpr hplain)
      | register hregister => exact operand_register (atom_register_iff.mpr hregister)

theorem marked_eq_ok {refuse : Register -> Diagnostic.GrammarFault}
    (h : marked before refuse ts = .ok (v, rest)) :
    ∃ t, ts = t :: rest ∧ DerivesPlain t v := by
  cases ts with
  | nil => cases h
  | cons t more =>
      cases hatom : atom t with
      | error d =>
          simp only [marked, hatom] at h
          cases h
      | ok a =>
          simp only [marked, hatom] at h
          cases a with
          | register r => cases h
          | value found =>
              cases h
              exact ⟨t, rfl, atom_value_iff.mp hatom⟩

theorem innerIndex_eq_ok {indexed : Bool}
    (h : innerIndex after ts = .ok (indexed, rest)) :
    (indexed = false ∧ rest = ts) ∨
      indexed = true ∧ ∃ comma index, ts = comma :: index :: rest ∧
        comma.isMark ',' = true ∧ SpellsRegister index .x := by
  cases ts with
  | nil =>
      cases h
      exact Or.inl ⟨rfl, rfl⟩
  | cons comma more =>
      by_cases hcomma : comma.isMark ',' = true
      · cases more with
        | nil =>
            simp only [innerIndex, hcomma, if_true] at h
            cases h
        | cons index more =>
            by_cases hx : index.kind = .identifier ∧ index.text.upper = ['X']
            · simp [innerIndex, hcomma, hx] at h
              exact Or.inr ⟨h.1, comma, index, by rw [h.2], hcomma, hx⟩
            · simp [innerIndex, hcomma, hx] at h
      · simp only [innerIndex, hcomma] at h
        cases h
        exact Or.inl ⟨rfl, rfl⟩

theorem closing_eq_ok (h : closing after ts = .ok rest) :
    ∃ t, ts = t :: rest ∧ t.isMark ')' = true := by
  cases ts with
  | nil => cases h
  | cons t more =>
      by_cases hmark : t.isMark ')' = true
      · simp only [closing, hmark, if_true] at h
        cases h
        exact ⟨t, rfl, hmark⟩
      · simp only [closing, hmark] at h
        cases h

theorem parenthesized_eq_ok {opening : Token} {o : Operand}
    (hopening : opening.isMark '(' = true)
    (h : parenthesized opening after ts = .ok (o, rest)) :
    ∃ used, opening :: ts = used ++ rest ∧ DerivesOperand used o := by
  cases hmarked : marked opening .registerAsAddress ts with
  | error d => simp [parenthesized, hmarked] at h
  | ok found =>
      rcases found with ⟨v, inner⟩
      rcases marked_eq_ok hmarked with ⟨t, rfl, hplain⟩
      cases hindex : innerIndex after inner with
      | error d => simp [parenthesized, hmarked, hindex] at h
      | ok found =>
          rcases found with ⟨indexed, outer⟩
          cases hclosing : closing after outer with
          | error d => simp [parenthesized, hmarked, hindex, hclosing] at h
          | ok last =>
              simp only [parenthesized, hmarked, hindex, hclosing] at h
              cases h
              rcases closing_eq_ok hclosing with ⟨close, rfl, hclose⟩
              rcases innerIndex_eq_ok hindex with
                ⟨rfl, rfl⟩ | ⟨rfl, comma, index, rfl, hcomma, hx⟩
              · exact ⟨[opening, t, close], rfl, .indirect hopening hplain hclose⟩
              · exact ⟨[opening, t, comma, index, close], rfl,
                  .indexed hopening hplain hcomma hx hclose⟩

theorem derives_of_operand {o : Operand} (h : operand before after ts = .ok (o, rest)) :
    ∃ used, ts = used ++ rest ∧ DerivesOperand used o := by
  cases ts with
  | nil => cases h
  | cons t more =>
      rw [operand] at h
      split at h
      · rename_i hhash
        cases hmarked : marked t .registerAsImmediate more with
        | error d => simp [hmarked] at h
        | ok found =>
            rcases found with ⟨v, last⟩
            rcases marked_eq_ok hmarked with ⟨value, rfl, hplain⟩
            simp only [hmarked] at h
            cases h
            exact ⟨[t, value], rfl, .immediate hhash hplain⟩
      · split at h
        · rename_i hopening
          exact parenthesized_eq_ok hopening h
        · split at h
          · rename_i hkind
            cases h
            exact ⟨[t], rfl, .string hkind⟩
          · cases hatom : atom t with
            | error d => simp [hatom] at h
            | ok a =>
                simp only [hatom] at h
                cases a with
                | register r =>
                    cases h
                    exact ⟨[t], rfl, .value (.register (atom_register_iff.mp hatom))⟩
                | value v =>
                    cases h
                    exact ⟨[t], rfl, .value (.plain (atom_value_iff.mp hatom))⟩

theorem DerivesOperand.exists_cons {used : List Token} {o : Operand}
    (h : DerivesOperand used o) :
    ∃ first more, used = first :: more ∧ first.isMark ',' = false := by
  cases h with
  | immediate hhash _ => exact ⟨_, _, rfl, isMark_eq_false hhash (by decide)⟩
  | indirect hopening _ _ => exact ⟨_, _, rfl, isMark_eq_false hopening (by decide)⟩
  | indexed hopening _ _ _ _ =>
      exact ⟨_, _, rfl, isMark_eq_false hopening (by decide)⟩
  | string hkind => exact ⟨_, _, rfl, by simp [Token.isMark, hkind]⟩
  | value hvalue =>
      refine ⟨_, _, rfl, ?_⟩
      cases hvalue with
      | plain hplain => exact not_isMark_of_atom (atom_value_iff.mpr hplain) ','
      | register hregister =>
          exact not_isMark_of_atom (atom_register_iff.mpr hregister) ','

/-!
## Lists of operands
-/

theorem operands_of_derives {os : List Operand} (h : DerivesOperands ts os)
    (done : List Operand) (before after : Token) :
    operands done before after ts = .ok (done.reverse ++ os, []) := by
  induction h generalizing done before with
  | @last ts o hoperand =>
      have hread := operand_of_derives hoperand before after []
      rw [List.append_nil] at hread
      rw [operands_last hread, List.reverse_cons]
  | @comma ts rest comma o os hoperand hcomma _ ih =>
      have hread := operand_of_derives hoperand before after (comma :: rest)
      rw [eq_of_isMark hcomma] at hread ⊢
      rw [operands_comma hread, ih, List.reverse_cons, List.append_assoc]
      rfl

theorem derives_of_operands {done os : List Operand}
    (h : operands done before after ts = .ok (os, [])) :
    ∃ more, os = done.reverse ++ more ∧ DerivesOperands ts more := by
  fun_induction operands done before after ts with
  | case1 done before ts d _ => cases h
  | case2 done before ts o hread =>
      cases h
      rcases derives_of_operand hread with ⟨used, rfl, hoperand⟩
      rw [List.append_nil]
      exact ⟨[o], List.reverse_cons, .last hoperand⟩
  | case3 done before ts o comma rest hread hcomma ih =>
      rcases ih h with ⟨more, rfl, hmore⟩
      rcases derives_of_operand hread with ⟨used, rfl, hoperand⟩
      refine ⟨o :: more, ?_, .comma hoperand hcomma hmore⟩
      rw [List.reverse_cons, List.append_assoc]
      rfl
  | case4 done before ts o comma rest hread hcomma => cases h

theorem DerivesArguments.exists_cons {os : List Operand} (h : DerivesArguments ts os) :
    ∃ first more, ts = first :: more ∧ first.isMark ',' = false := by
  have hfront : ∀ {used : List Token} {o : Operand} (rest : List Token),
      DerivesOperand used o ->
      ∃ first more, used ++ rest = first :: more ∧ first.isMark ',' = false := by
    intro used o rest hoperand
    rcases hoperand.exists_cons with ⟨first, more, rfl, hmark⟩
    exact ⟨first, more ++ rest, rfl, hmark⟩
  cases h with
  | last hoperand => exact hoperand.exists_cons
  | comma hoperand _ _ => exact hfront _ hoperand
  | blank hoperand _ => exact hfront _ hoperand

theorem arguments_blank {done : List Operand} {o : Operand} {first : Token}
    {more : List Token} (hmark : first.isMark ',' = false)
    (h : operand before after ts = .ok (o, first :: more)) :
    arguments done before after ts =
      arguments (o :: done) before after (first :: more) := by
  cases ts with
  | nil => cases h
  | cons t tail =>
      conv => lhs; rw [arguments]
      split
      · simp_all
      · simp_all
      · simp_all

theorem arguments_of_derives {os : List Operand} (h : DerivesArguments ts os)
    (done : List Operand) (before after : Token) :
    arguments done before after ts = .ok (done.reverse ++ os) := by
  induction h generalizing done before with
  | @last ts o hoperand =>
      have hread := operand_of_derives hoperand before after []
      rw [List.append_nil] at hread
      rw [arguments_last hread, List.reverse_cons]
  | @comma ts rest comma o os hoperand hcomma hrest ih =>
      rcases hrest.exists_cons with ⟨first, more, rfl, _⟩
      have hread := operand_of_derives hoperand before after (comma :: first :: more)
      rw [eq_of_isMark hcomma] at hread ⊢
      rw [arguments_comma (List.cons_ne_nil _ _) hread, ih, List.reverse_cons,
        List.append_assoc]
      rfl
  | @blank ts rest o os hoperand hrest ih =>
      rcases hrest.exists_cons with ⟨first, more, rfl, hmark⟩
      have hread := operand_of_derives hoperand before after (first :: more)
      rw [arguments_blank hmark hread, ih, List.reverse_cons, List.append_assoc]
      rfl

theorem derives_of_arguments {done os : List Operand} (hne : ts ≠ [])
    (h : arguments done before after ts = .ok os) :
    ∃ more, os = done.reverse ++ more ∧ DerivesArguments ts more := by
  fun_induction arguments done before after ts with
  | case1 done before => exact absurd rfl hne
  | case2 done before t tail d _ => cases h
  | case3 done before t tail o hread =>
      cases h
      rcases derives_of_operand hread with ⟨used, hused, hoperand⟩
      rw [hused, List.append_nil]
      exact ⟨[o], List.reverse_cons, .last hoperand⟩
  | case4 done before t tail o comma rest _ _ _ => cases h
  | case5 done before t tail o comma rest hread hcomma hrest ih =>
      rcases ih (fun hnil => hrest (by rw [hnil]; rfl)) h with ⟨more, rfl, hmore⟩
      rcases derives_of_operand hread with ⟨used, hused, hoperand⟩
      rw [hused]
      refine ⟨o :: more, ?_, .comma hoperand hcomma hmore⟩
      rw [List.reverse_cons, List.append_assoc]
      rfl
  | case6 done before t tail o comma rest hread hcomma ih =>
      rcases ih (List.cons_ne_nil _ _) h with ⟨more, rfl, hmore⟩
      rcases derives_of_operand hread with ⟨used, hused, hoperand⟩
      rw [hused]
      refine ⟨o :: more, ?_, .blank hoperand hmore⟩
      rw [List.reverse_cons, List.append_assoc]
      rfl

/-!
## Statements
-/

theorem DerivesOperands.ne_nil {os : List Operand} (h : DerivesOperands ts os) :
    ts ≠ [] := by
  rintro rfl
  generalize hts : ([] : List Token) = ts at h
  cases h with
  | last hoperand =>
      rcases hoperand.exists_cons with ⟨first, more, rfl, _⟩
      cases hts
  | comma _ _ _ => exact absurd hts (by simp)

theorem instruction_of_derives {operation : Operation} {os : List Operand}
    (h : DerivesOperands ts os) :
    instruction after operation start ts =
      .ok ⟨.instruction operation os, start.position⟩ := by
  cases ts with
  | nil => exact absurd rfl h.ne_nil
  | cons t rest =>
      have hread := operands_of_derives h [] start after
      simp only [instruction, hread]
      rfl

theorem derives_of_instruction {operation : Operation} {s : Statement}
    (hkind : start.kind = .mnemonic operation)
    (h : instruction after operation start ts = .ok s) :
    DerivesTail (start :: ts) s := by
  cases ts with
  | nil =>
      cases h
      exact .implied hkind
  | cons t rest =>
      rcases exists_ok_of_bind h with ⟨⟨os, left⟩, hoperands, hend⟩
      cases left with
      | cons x more => cases hend
      | nil =>
          cases hend
          rcases derives_of_operands hoperands with ⟨more, rfl, hmore⟩
          exact .instruction hkind hmore

theorem assignment_of_derives (name equals : Token) {form : Operand.Form}
    (h : DerivesValue t form) :
    assignment name equals [t] =
      .ok ⟨.directive "const".toList
        [⟨.plain (.name name.text), name.position⟩, ⟨form, t.position⟩],
        name.position⟩ := by
  cases h with
  | plain hplain =>
      simp only [assignment, atom_value_iff.mpr hplain]
      rfl
  | register hregister =>
      simp only [assignment, atom_register_iff.mpr hregister]
      rfl

theorem derives_of_assignment {name equals : Token} {s : Statement}
    (hname : IsName name) (hequals : equals.isMark '=')
    (h : assignment name equals ts = .ok s) :
    DerivesTail (name :: equals :: ts) s := by
  cases ts with
  | nil => cases h
  | cons t rest =>
      rcases exists_ok_of_bind h with ⟨a, hatom, hrest⟩
      cases rest with
      | cons x more => cases hrest
      | nil =>
          cases a with
          | value v =>
              cases hrest
              exact .assignment hname hequals (.plain (atom_value_iff.mp hatom))
          | register r =>
              cases hrest
              exact .assignment hname hequals (.register (atom_register_iff.mp hatom))

/-- The reader of statements accepts what the grammar derives. -/
theorem statement_of_derives {s : Statement} (h : DerivesTail (start :: ts) s)
    (after : Token) : statement after start ts = .ok s := by
  cases h with
  | implied hkind =>
      simp only [statement, hkind]
      rfl
  | instruction hkind hoperands =>
      simp only [statement, hkind]
      exact instruction_of_derives hoperands
  | bare hkind =>
      simp only [statement, hkind, arguments]
      rfl
  | directive hkind harguments =>
      simp only [statement, hkind, arguments_of_derives harguments]
      rfl
  | @assignment _ equals t form hname hequals hvalue =>
      have hregister := register?_eq_none_iff.mpr hname.2
      simp only [statement, hname.1, hregister, hequals]
      exact assignment_of_derives start equals hvalue

/-- It accepts nothing else. -/
theorem derives_of_statement {s : Statement} (h : statement after start ts = .ok s) :
    DerivesTail (start :: ts) s := by
  cases hkind : start.kind with
  | identifier =>
      simp only [statement, hkind] at h
      cases hregister : register? start with
      | some r => simp [hregister] at h
      | none =>
          simp only [hregister] at h
          cases ts with
          | nil => cases h
          | cons equals rest =>
              by_cases hequals : equals.isMark '=' = true
              · simp only [hequals] at h
                exact derives_of_assignment
                  ⟨hkind, register?_eq_none_iff.mp hregister⟩ hequals h
              · simp [hequals] at h
  | mnemonic operation =>
      simp only [statement, hkind] at h
      exact derives_of_instruction hkind h
  | directive =>
      simp only [statement, hkind] at h
      rcases exists_ok_of_bind h with ⟨args, harguments, hdone⟩
      cases hdone
      cases ts with
      | nil =>
          simp only [arguments] at harguments
          cases harguments
          exact .bare hkind
      | cons t rest =>
          rcases derives_of_arguments (List.cons_ne_nil t rest) harguments with
            ⟨more, rfl, hmore⟩
          exact .directive hkind hmore
  | endOfInput => simp [statement, hkind] at h
  | number => simp [statement, hkind] at h
  | string => simp [statement, hkind] at h
  | punctuation => simp [statement, hkind] at h

/-!
## Lines
-/

theorem isLabel_iff {name colon : Token} :
    isLabel name colon = true ↔ IsName name ∧ colon.isMark ':' = true := by
  simp only [isLabel, IsName, Bool.and_eq_true, decide_eq_true_eq,
    Option.isNone_iff_eq_none, register?_eq_none_iff]

theorem DerivesTail.not_isLabel {name colon : Token} {s : Statement}
    (h : DerivesTail (name :: colon :: ts) s) : isLabel name colon = false := by
  cases h with
  | instruction hkind _ => simp [isLabel, hkind]
  | directive hkind _ => simp [isLabel, hkind]
  | assignment _ hequals _ =>
      rw [eq_of_isMark hequals]
      simp [isLabel, Token.isMark]

def eventOf : Except Diagnostic Statement -> Event
  | .ok s => .statement s
  | .error d => .report d

theorem statement_mem_eventOf {x : Except Diagnostic Statement} {s : Statement}
    (h : .statement s ∈ [eventOf x]) : x = .ok s := by
  cases x with
  | ok found =>
      cases List.mem_singleton.mp h
      rfl
  | error d => cases List.mem_singleton.mp h

theorem report_mem_eventOf {x : Except Diagnostic Statement} {d : Diagnostic}
    (h : .report d ∈ [eventOf x]) : x = .error d := by
  cases x with
  | ok s => cases List.mem_singleton.mp h
  | error found =>
      cases List.mem_singleton.mp h
      rfl

/-- What a line says as long as nothing is wrong with its characters: a statement for
every label in front, and one statement or one diagnostic for what is left. -/
def lineEvents (after : Token) : List Token -> List Event
  | [] => []
  | [start] => [eventOf (statement after start [])]
  | name :: colon :: rest =>
      if isLabel name colon then
        .statement ⟨.label name.text, name.position⟩ :: lineEvents after rest
      else [eventOf (statement after name (colon :: rest))]

theorem lineEvents_tail {s : Statement} (h : DerivesTail ts s) (after : Token) :
    lineEvents after ts = [.statement s] := by
  match ts with
  | [] => cases h
  | [start] =>
      rw [lineEvents, statement_of_derives h]
      rfl
  | name :: colon :: rest =>
      rw [lineEvents, h.not_isLabel, if_neg Bool.false_ne_true, statement_of_derives h]
      rfl

theorem lineEvents_of_derives {ss : List Statement} (h : DerivesLine ts ss)
    (after : Token) : lineEvents after ts = ss.map .statement := by
  induction h with
  | empty => rfl
  | tail htail => exact lineEvents_tail htail after
  | label hname hcolon _ ih =>
      rw [lineEvents, isLabel_iff.mpr ⟨hname, hcolon⟩, if_pos rfl, ih]
      rfl

theorem derives_of_lineEvents (hclean : ∀ d, .report d ∉ lineEvents after ts) :
    ∃ ss, DerivesLine ts ss := by
  have htail : ∀ {start : Token} {rest : List Token},
      (∀ d, .report d ∉ [eventOf (statement after start rest)]) ->
      ∃ ss, DerivesLine (start :: rest) ss := by
    intro start rest hrest
    cases hstatement : statement after start rest with
    | ok s => exact ⟨[s], .tail (derives_of_statement hstatement)⟩
    | error d =>
        rw [hstatement] at hrest
        exact absurd (List.mem_singleton_self _) (hrest d)
  fun_induction lineEvents after ts with
  | case1 => exact ⟨[], .empty⟩
  | case2 start => exact htail hclean
  | case3 name colon rest hlabel ih =>
      rcases ih fun d hd => hclean d (List.mem_cons_of_mem _ hd) with ⟨ss, hss⟩
      rcases isLabel_iff.mp hlabel with ⟨hname, hcolon⟩
      exact ⟨_, .label hname hcolon hss⟩
  | case4 name colon rest _ => exact htail hclean

end Grammar
end Asm6502

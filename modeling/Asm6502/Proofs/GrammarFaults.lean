import Asm6502.Proofs.LineGrammar

/-!
# Where diagnostics of the grammar point

A diagnostic of the grammar points at a token of the line that it is about, with one
exception: where a line ends before a parenthesis is closed, the diagnostic is about
what was found in place of the rest, and that is a token of a later line.
-/

namespace Asm6502
namespace Grammar

/-!
## Lines that end inside parentheses
-/

inductive OpenOperand : List Token -> Prop where
  | value {opening t : Token} {v : Value} : opening.isMark '(' -> DerivesPlain t v ->
      OpenOperand [opening, t]
  | comma {opening t comma : Token} {v : Value} : opening.isMark '(' ->
      DerivesPlain t v -> comma.isMark ',' -> OpenOperand [opening, t, comma]
  | index {opening t comma index : Token} {v : Value} : opening.isMark '(' ->
      DerivesPlain t v -> comma.isMark ',' -> SpellsRegister index .x ->
      OpenOperand [opening, t, comma, index]

/-- Any number of operands, each with a comma after it, and then an open one. -/
inductive OpenOperands : List Token -> Prop where
  | last {ts : List Token} : OpenOperand ts -> OpenOperands ts
  | comma {ts rest : List Token} {comma : Token} {o : Operand} :
      DerivesOperand ts o -> comma.isMark ',' -> OpenOperands rest ->
      OpenOperands (ts ++ comma :: rest)

inductive OpenArguments : List Token -> Prop where
  | last {ts : List Token} : OpenOperand ts -> OpenArguments ts
  | comma {ts rest : List Token} {comma : Token} {o : Operand} :
      DerivesOperand ts o -> comma.isMark ',' -> OpenArguments rest ->
      OpenArguments (ts ++ comma :: rest)
  | blank {ts rest : List Token} {o : Operand} :
      DerivesOperand ts o -> OpenArguments rest -> OpenArguments (ts ++ rest)

inductive OpenTail : List Token -> Prop where
  | instruction {start : Token} {operation : Operation} {ts : List Token} :
      start.kind = .mnemonic operation -> OpenOperands ts -> OpenTail (start :: ts)
  | directive {start : Token} {ts : List Token} :
      start.kind = .directive -> OpenArguments ts -> OpenTail (start :: ts)

/-- The line ends inside the parentheses of an operand. -/
inductive OpenLine : List Token -> Prop where
  | tail {ts : List Token} : OpenTail ts -> OpenLine ts
  | label {name colon : Token} {ts : List Token} :
      IsName name -> colon.isMark ':' -> OpenLine ts -> OpenLine (name :: colon :: ts)

/-!
## Blame
-/

def BeginsIn (ts : List Token) (p : Position) : Prop :=
  ∃ t ∈ ts, p = t.position

def PointsAt (ts : List Token) (d : Diagnostic) : Prop :=
  (d.kind = .grammar ∨ d.kind = .range) ∧ BeginsIn ts d.position

/-- A diagnostic at one of the tokens or, if these end inside parentheses, at the
token after them. -/
def Blames (ts : List Token) (after : Token) (ends : Prop) (d : Diagnostic) : Prop :=
  PointsAt ts d ∨ ends ∧ PointsAt [after] d

variable {before after start t : Token} {ts us rest : List Token} {d : Diagnostic}

theorem BeginsIn.mono {p : Position} (h : BeginsIn ts p) (hsub : ts ⊆ us) :
    BeginsIn us p := by
  rcases h with ⟨t, ht, heq⟩
  exact ⟨t, hsub ht, heq⟩

theorem PointsAt.mono (h : PointsAt ts d) (hsub : ts ⊆ us) : PointsAt us d :=
  ⟨h.1, h.2.mono hsub⟩

theorem PointsAt.of_mem (h : PointsAt [t] d) (ht : t ∈ ts) : PointsAt ts d := by
  refine h.mono ?_
  intro x hx
  rw [List.mem_singleton.mp hx]
  exact ht

theorem Blames.mono {ends ends' : Prop} (h : Blames ts after ends d) (hsub : ts ⊆ us)
    (hends : ends -> ends') : Blames us after ends' d := by
  rcases h with h | ⟨hopen, h⟩
  · exact Or.inl (h.mono hsub)
  · exact Or.inr ⟨hends hopen, h⟩

theorem Blames.kind {ends : Prop} (h : Blames ts after ends d) :
    d.kind = .grammar ∨ d.kind = .range := by
  rcases h with h | ⟨_, h⟩
  · exact h.1
  · exact h.1

theorem Blames.kind_ne {ends : Prop} (h : Blames ts after ends d) :
    d.kind ≠ .lexical := by
  rcases h.kind with hkind | hkind
  · rw [hkind]
    decide
  · rw [hkind]
    decide

theorem pointsAt_fault (ht : t ∈ ts) (f : Diagnostic.GrammarFault) :
    PointsAt ts (fault t.position f) :=
  ⟨.inl rfl, t, ht, rfl⟩

theorem pointsAt_unexpected (ht : t ∈ ts) (wanted : Diagnostic.Wanted) :
    PointsAt ts (unexpected t wanted) :=
  pointsAt_fault ht _

/-!
## Readers of operands
-/

theorem number_eq_error (h : number t = .error d) : PointsAt [t] d := by
  have hrange : PointsAt [t] ⟨.range (.literal t.text), t.position⟩ :=
    ⟨.inr rfl, t, List.mem_singleton_self t, rfl⟩
  unfold number at h
  split at h
  · cases h
    exact hrange
  · cases h
    exact pointsAt_fault (List.mem_singleton_self t) _
  · split at h
    · cases h
      exact hrange
    · cases h

theorem atom_eq_error (h : atom t = .error d) : PointsAt [t] d := by
  unfold atom at h
  split at h
  · cases hnumber : number t with
    | ok n =>
        rw [hnumber] at h
        cases h
    | error found =>
        rw [hnumber] at h
        cases h
        exact number_eq_error hnumber
  · cases hregister : register? t with
    | some r =>
        rw [hregister] at h
        cases h
    | none =>
        rw [hregister] at h
        cases h
  · cases h
    exact pointsAt_unexpected (List.mem_singleton_self t) _

theorem marked_eq_error {refuse : Register -> Diagnostic.GrammarFault}
    (h : marked before refuse ts = .error d) : PointsAt (before :: ts) d := by
  cases ts with
  | nil =>
      cases h
      exact pointsAt_fault (List.mem_singleton_self before) _
  | cons t more =>
      have ht : t ∈ before :: t :: more := List.mem_cons_of_mem _ (List.mem_cons_self ..)
      cases hatom : atom t with
      | error found =>
          simp only [marked, hatom] at h
          cases h
          exact (atom_eq_error hatom).of_mem ht
      | ok a =>
          simp only [marked, hatom] at h
          cases a with
          | value v => cases h
          | register r =>
              cases h
              exact pointsAt_fault ht _

theorem innerIndex_eq_error (h : innerIndex after ts = .error d) :
    Blames ts after (∃ comma, ts = [comma] ∧ comma.isMark ',' = true) d := by
  cases ts with
  | nil => cases h
  | cons comma more =>
      by_cases hcomma : comma.isMark ',' = true
      · cases more with
        | nil =>
            simp only [innerIndex, hcomma, if_true] at h
            cases h
            exact Or.inr ⟨⟨comma, rfl, hcomma⟩,
              pointsAt_unexpected (List.mem_singleton_self after) _⟩
        | cons index more =>
            by_cases hx : index.kind = .identifier ∧ index.text.upper = ['X']
            · simp [innerIndex, hcomma, hx] at h
            · simp [innerIndex, hcomma, hx] at h
              rw [← h]
              apply Or.inl
              exact pointsAt_unexpected
                (List.mem_cons_of_mem _ (List.mem_cons_self ..)) _
      · simp only [innerIndex, hcomma] at h
        cases h

theorem closing_eq_error (h : closing after ts = .error d) :
    Blames ts after (ts = []) d := by
  cases ts with
  | nil =>
      cases h
      exact Or.inr ⟨rfl, pointsAt_unexpected (List.mem_singleton_self after) _⟩
  | cons t more =>
      by_cases hmark : t.isMark ')' = true
      · simp only [closing, hmark, if_true] at h
        cases h
      · simp only [closing, hmark] at h
        cases h
        exact Or.inl (pointsAt_unexpected (List.mem_cons_self ..) _)

theorem parenthesized_eq_error {opening : Token} (hopening : opening.isMark '(' = true)
    (h : parenthesized opening after ts = .error d) :
    Blames (opening :: ts) after (OpenOperand (opening :: ts)) d := by
  cases hmarked : marked opening .registerAsAddress ts with
  | error found =>
      simp only [parenthesized, hmarked] at h
      cases h
      exact Or.inl (marked_eq_error hmarked)
  | ok found =>
      rcases found with ⟨v, inner⟩
      rcases marked_eq_ok hmarked with ⟨t, rfl, hplain⟩
      have hinner : inner ⊆ opening :: t :: inner := by
        intro x hx
        exact List.mem_cons_of_mem _ (List.mem_cons_of_mem _ hx)
      cases hindex : innerIndex after inner with
      | error found =>
          simp only [parenthesized, hmarked, hindex] at h
          cases h
          refine (innerIndex_eq_error hindex).mono hinner ?_
          rintro ⟨comma, rfl, hcomma⟩
          exact .comma hopening hplain hcomma
      | ok found =>
          rcases found with ⟨indexed, outer⟩
          cases hclosing : closing after outer with
          | ok last => simp [parenthesized, hmarked, hindex, hclosing] at h
          | error found =>
              simp only [parenthesized, hmarked, hindex, hclosing] at h
              cases h
              rcases innerIndex_eq_ok hindex with
                ⟨rfl, rfl⟩ | ⟨rfl, comma, index, rfl, hcomma, hx⟩
              · refine (closing_eq_error hclosing).mono hinner ?_
                rintro rfl
                exact .value hopening hplain
              · refine (closing_eq_error hclosing).mono ?_ ?_
                · intro x hx
                  exact hinner (List.mem_cons_of_mem _ (List.mem_cons_of_mem _ hx))
                · rintro rfl
                  exact .index hopening hplain hcomma hx

theorem operand_eq_error (h : operand before after ts = .error d) :
    Blames (before :: ts) after (OpenOperand ts) d := by
  cases ts with
  | nil =>
      cases h
      exact Or.inl (pointsAt_fault (List.mem_singleton_self before) _)
  | cons t more =>
      have hmore : t :: more ⊆ before :: t :: more := List.subset_cons_self ..
      rw [operand] at h
      split at h
      · cases hmarked : marked t .registerAsImmediate more with
        | ok found => simp [hmarked] at h
        | error found =>
            simp only [hmarked] at h
            cases h
            exact Or.inl ((marked_eq_error hmarked).mono hmore)
      · split at h
        · rename_i hopening
          exact (parenthesized_eq_error hopening h).mono hmore id
        · split at h
          · cases h
          · cases hatom : atom t with
            | ok a =>
                simp only [hatom] at h
                cases a <;> cases h
            | error found =>
                simp only [hatom] at h
                cases h
                apply Or.inl
                exact (atom_eq_error hatom).of_mem (hmore (List.mem_cons_self ..))

/-- Where an operand is open, the reader blames the token after the line. -/
theorem operand_of_open (h : OpenOperand ts) (before after : Token) :
    ∃ wanted, operand before after ts = .error (unexpected after wanted) := by
  cases h with
  | value hopening hplain =>
      rw [eq_of_isMark hopening]
      refine ⟨.closingParenthesis, ?_⟩
      simp [operand, Token.isMark, parenthesized, marked, atom_value_iff.mpr hplain,
        innerIndex, closing]
  | comma hopening hplain hcomma =>
      rw [eq_of_isMark hopening, eq_of_isMark hcomma]
      refine ⟨.indexRegister, ?_⟩
      simp [operand, Token.isMark, parenthesized, marked, atom_value_iff.mpr hplain,
        innerIndex]
  | index hopening hplain hcomma hx =>
      rw [eq_of_isMark hopening, eq_of_isMark hcomma]
      have hname : _ = ['X'] := hx.2
      refine ⟨.closingParenthesis, ?_⟩
      simp [operand, Token.isMark, parenthesized, marked, atom_value_iff.mpr hplain,
        innerIndex, hx.1, hname, closing]

/-!
## Readers of lists
-/

theorem operands_eq_error {done : List Operand}
    (h : operands done before after ts = .error d) :
    Blames (before :: ts) after (OpenOperands ts) d := by
  fun_induction operands done before after ts with
  | case1 done before ts found hread =>
      cases h
      exact (operand_eq_error hread).mono (List.Subset.refl _) .last
  | case2 done before ts o hread => cases h
  | case3 done before ts o comma rest hread hcomma ih =>
      rcases derives_of_operand hread with ⟨used, rfl, hoperand⟩
      refine (ih h).mono ?_ (.comma hoperand hcomma)
      intro x hx
      exact List.mem_cons_of_mem _ (List.mem_append_right _ hx)
  | case4 done before ts o comma rest hread hcomma => cases h

theorem operands_of_open (h : OpenOperands ts) (done : List Operand)
    (before after : Token) :
    ∃ wanted, operands done before after ts = .error (unexpected after wanted) := by
  induction h generalizing done before with
  | @last ts hopen =>
      rcases operand_of_open hopen before after with ⟨wanted, hread⟩
      refine ⟨wanted, ?_⟩
      rw [operands]
      split <;> simp_all
  | @comma ts rest comma o hoperand hcomma _ ih =>
      rcases ih (o :: done) comma with ⟨wanted, hrest⟩
      have hread := operand_of_derives hoperand before after (comma :: rest)
      rw [eq_of_isMark hcomma] at hread hrest ⊢
      exact ⟨wanted, by rw [operands_comma hread, hrest]⟩

theorem arguments_eq_error {done : List Operand}
    (h : arguments done before after ts = .error d) :
    Blames (before :: ts) after (OpenArguments ts) d := by
  fun_induction arguments done before after ts with
  | case1 done before => cases h
  | case2 done before t tail found hread =>
      cases h
      exact (operand_eq_error hread).mono (List.Subset.refl _) .last
  | case3 done before t tail o hread => cases h
  | case4 done before t tail o comma rest hread hcomma hrest =>
      cases h
      rcases derives_of_operand hread with ⟨used, hused, hoperand⟩
      rw [hused]
      apply Or.inl
      apply pointsAt_fault
      exact List.mem_cons_of_mem _ (List.mem_append_right _ (List.mem_cons_self ..))
  | case5 done before t tail o comma rest hread hcomma hrest ih =>
      rcases derives_of_operand hread with ⟨used, hused, hoperand⟩
      rw [hused]
      refine (ih h).mono ?_ (.comma hoperand hcomma)
      intro x hx
      exact List.mem_cons_of_mem _ (List.mem_append_right _ hx)
  | case6 done before t tail o comma rest hread hcomma ih =>
      rcases derives_of_operand hread with ⟨used, hused, hoperand⟩
      rw [hused]
      refine (ih h).mono ?_ (.blank hoperand)
      intro x hx
      rcases List.mem_cons.mp hx with rfl | hx
      · exact List.mem_cons_self ..
      · exact List.mem_cons_of_mem _ (List.mem_append_right _ hx)

theorem OpenOperand.exists_cons (h : OpenOperand ts) :
    ∃ first more, ts = first :: more ∧ first.isMark ',' = false := by
  cases h with
  | value hopening _ => exact ⟨_, _, rfl, isMark_eq_false hopening (by decide)⟩
  | comma hopening _ _ => exact ⟨_, _, rfl, isMark_eq_false hopening (by decide)⟩
  | index hopening _ _ _ => exact ⟨_, _, rfl, isMark_eq_false hopening (by decide)⟩

theorem OpenArguments.exists_cons (h : OpenArguments ts) :
    ∃ first more, ts = first :: more ∧ first.isMark ',' = false := by
  cases h with
  | last hopen => exact hopen.exists_cons
  | comma hoperand _ _ =>
      rcases hoperand.exists_cons with ⟨first, more, rfl, hmark⟩
      exact ⟨first, _, rfl, hmark⟩
  | blank hoperand _ =>
      rcases hoperand.exists_cons with ⟨first, more, rfl, hmark⟩
      exact ⟨first, _, rfl, hmark⟩

theorem arguments_of_open (h : OpenArguments ts) (done : List Operand)
    (before after : Token) :
    ∃ wanted, arguments done before after ts = .error (unexpected after wanted) := by
  induction h generalizing done before with
  | @last ts hopen =>
      rcases operand_of_open hopen before after with ⟨wanted, hread⟩
      rcases hopen.exists_cons with ⟨first, more, rfl, _⟩
      refine ⟨wanted, ?_⟩
      rw [arguments]
      split <;> simp_all
  | @comma ts rest comma o hoperand hcomma hrest ih =>
      rcases hrest.exists_cons with ⟨first, more, rfl, _⟩
      rcases ih (o :: done) comma with ⟨wanted, hmore⟩
      have hread := operand_of_derives hoperand before after (comma :: first :: more)
      rw [eq_of_isMark hcomma] at hread hmore ⊢
      exact ⟨wanted, by rw [arguments_comma (List.cons_ne_nil _ _) hread, hmore]⟩
  | @blank ts rest o hoperand hrest ih =>
      rcases hrest.exists_cons with ⟨first, more, rfl, hmark⟩
      rcases ih (o :: done) before with ⟨wanted, hmore⟩
      have hread := operand_of_derives hoperand before after (first :: more)
      exact ⟨wanted, by rw [arguments_blank hmark hread, hmore]⟩

/-!
## Statements and lines
-/

theorem eq_error_of_bind {α β : Type} {x : Except Diagnostic α}
    {next : α -> Except Diagnostic β} (h : x >>= next = .error d) :
    x = .error d ∨ ∃ value, x = .ok value ∧ next value = .error d := by
  cases x with
  | error found =>
      cases h
      exact Or.inl rfl
  | ok value => exact Or.inr ⟨value, rfl, h⟩

theorem endOfLine_eq_error (h : endOfLine ts = .error d) : PointsAt ts d := by
  cases ts with
  | nil => cases h
  | cons t more =>
      cases h
      exact pointsAt_unexpected (List.mem_cons_self ..) _

theorem assignment_eq_error {name equals : Token}
    (h : assignment name equals ts = .error d) :
    PointsAt (name :: equals :: ts) d := by
  cases ts with
  | nil =>
      cases h
      exact pointsAt_fault (List.mem_cons_of_mem _ (List.mem_singleton_self _)) _
  | cons t more =>
      have hts : t :: more ⊆ name :: equals :: t :: more := by
        intro x hx
        exact List.mem_cons_of_mem _ (List.mem_cons_of_mem _ hx)
      rcases eq_error_of_bind h with hatom | ⟨a, _, hrest⟩
      · exact (atom_eq_error hatom).of_mem (hts (List.mem_cons_self ..))
      · rcases eq_error_of_bind hrest with hend | ⟨_, _, hdone⟩
        · exact (endOfLine_eq_error hend).mono
            (List.Subset.trans (List.subset_cons_self ..) hts)
        · cases hdone

theorem operands_rest_subset {done os : List Operand}
    (h : operands done before after ts = .ok (os, rest)) : rest ⊆ ts := by
  fun_induction operands done before after ts with
  | case1 done before ts d _ => cases h
  | case2 done before ts o hread =>
      cases h
      exact List.nil_subset _
  | case3 done before ts o comma rest hread hcomma ih =>
      rcases derives_of_operand hread with ⟨used, rfl, _⟩
      intro x hx
      exact List.mem_append_right _ (List.mem_cons_of_mem _ (ih h hx))
  | case4 done before ts o comma rest hread hcomma =>
      cases h
      rcases derives_of_operand hread with ⟨used, rfl, _⟩
      exact List.subset_append_right used _

theorem instruction_eq_error {operation : Operation}
    (hkind : start.kind = .mnemonic operation)
    (h : instruction after operation start ts = .error d) :
    Blames (start :: ts) after (OpenTail (start :: ts)) d := by
  cases ts with
  | nil => cases h
  | cons t more =>
      rcases eq_error_of_bind h with hread | ⟨⟨os, left⟩, hread, hrest⟩
      · exact (operands_eq_error hread).mono (List.Subset.refl _) (.instruction hkind)
      · rcases eq_error_of_bind hrest with hend | ⟨_, _, hdone⟩
        · apply Or.inl
          exact (endOfLine_eq_error hend).mono
            (List.Subset.trans (operands_rest_subset hread) (List.subset_cons_self ..))
        · cases hdone

/-- A statement that is refused is blamed on one of its tokens, unless it ends inside
parentheses. -/
theorem statement_eq_error (h : statement after start ts = .error d) :
    Blames (start :: ts) after (OpenTail (start :: ts)) d := by
  have hstart : start ∈ start :: ts := List.mem_cons_self ..
  cases hkind : start.kind with
  | identifier =>
      simp only [statement, hkind] at h
      apply Or.inl
      cases hregister : register? start with
      | some r =>
          simp only [hregister] at h
          cases h
          exact pointsAt_fault hstart _
      | none =>
          simp only [hregister] at h
          cases ts with
          | nil =>
              cases h
              exact pointsAt_fault hstart _
          | cons equals more =>
              by_cases hequals : equals.isMark '=' = true
              · simp only [hequals] at h
                exact assignment_eq_error h
              · simp only [hequals] at h
                cases h
                exact pointsAt_fault hstart _
  | mnemonic operation =>
      simp only [statement, hkind] at h
      exact instruction_eq_error hkind h
  | directive =>
      simp only [statement, hkind] at h
      rcases eq_error_of_bind h with hread | ⟨_, _, hdone⟩
      · exact (arguments_eq_error hread).mono (List.Subset.refl _) (.directive hkind)
      · cases hdone
  | endOfInput | number | string | punctuation =>
      simp only [statement, hkind] at h
      cases h
      exact Or.inl (pointsAt_unexpected hstart _)

theorem statement_of_open (h : OpenTail (start :: ts)) (after : Token) :
    ∃ wanted, statement after start ts = .error (unexpected after wanted) := by
  cases h with
  | instruction hkind hopen =>
      rcases operands_of_open hopen [] start after with ⟨wanted, hread⟩
      refine ⟨wanted, ?_⟩
      simp only [statement, hkind]
      cases ts with
      | nil =>
          rw [operands] at hread
          cases hread
      | cons t more =>
          simp only [instruction, hread]
          rfl
  | directive hkind hopen =>
      rcases arguments_of_open hopen [] start after with ⟨wanted, hread⟩
      refine ⟨wanted, ?_⟩
      simp only [statement, hkind, hread]
      rfl

theorem OpenTail.not_isLabel {name colon : Token} (h : OpenTail (name :: colon :: ts)) :
    isLabel name colon = false := by
  cases h with
  | instruction hkind _ => simp [isLabel, hkind]
  | directive hkind _ => simp [isLabel, hkind]

theorem blames_of_mem_lineEvents (h : .report d ∈ lineEvents after ts) :
    Blames ts after (OpenLine ts) d := by
  have hlast : ∀ {start : Token} {rest : List Token},
      .report d ∈ [eventOf (statement after start rest)] ->
      Blames (start :: rest) after (OpenLine (start :: rest)) d := by
    intro start rest hmem
    have hstatement := statement_eq_error (report_mem_eventOf hmem)
    exact hstatement.mono (List.Subset.refl _) .tail
  fun_induction lineEvents after ts with
  | case1 => cases h
  | case2 start => exact hlast h
  | case3 name colon rest hlabel ih =>
      rcases isLabel_iff.mp hlabel with ⟨hname, hcolon⟩
      rcases List.mem_cons.mp h with heq | hrest
      · cases heq
      · refine (ih hrest).mono ?_ (.label hname hcolon)
        intro x hx
        exact List.mem_cons_of_mem _ (List.mem_cons_of_mem _ hx)
  | case4 name colon rest _ => exact hlast h

theorem report_of_open (h : OpenLine ts) (after : Token) :
    ∃ wanted, .report (unexpected after wanted) ∈ lineEvents after ts := by
  induction h with
  | @tail ts htail =>
      match ts with
      | [] => cases htail
      | [start] =>
          rcases statement_of_open htail after with ⟨wanted, hread⟩
          refine ⟨wanted, ?_⟩
          rw [lineEvents, hread]
          exact List.mem_singleton_self _
      | name :: colon :: rest =>
          rcases statement_of_open htail after with ⟨wanted, hread⟩
          refine ⟨wanted, ?_⟩
          rw [lineEvents, htail.not_isLabel, if_neg Bool.false_ne_true, hread]
          exact List.mem_singleton_self _
  | label hname hcolon _ ih =>
      rcases ih with ⟨wanted, hmem⟩
      refine ⟨wanted, ?_⟩
      rw [lineEvents, isLabel_iff.mpr ⟨hname, hcolon⟩, if_pos rfl]
      exact List.mem_cons_of_mem _ hmem

end Grammar
end Asm6502

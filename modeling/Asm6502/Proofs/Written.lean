import Asm6502.Proofs.Lines

/-!
# Written values, operands and arguments

What a piece of a line means to the grammar, whatever stands after it.  Numbers
and names are written as one token each; operands and arguments are put together
from them.
-/

namespace Asm6502

open Lexeme (begins isWordPart)

/-!
## The grammar on single operands
-/

namespace Grammar

variable {before after t : Token} {rest : List Token} {v : Value}

theorem kind_of_atom {a : Atom} (h : atom t = .ok a) :
    t.kind = .number ∨ t.kind = .identifier := by
  unfold atom at h
  split at h
  · rename_i hkind
    exact Or.inl hkind
  · rename_i hkind
    exact Or.inr hkind
  · cases h

theorem not_isMark_of_atom {a : Atom} (h : atom t = .ok a) (mark : Char) :
    t.isMark mark = false := by
  rcases kind_of_atom h with hkind | hkind <;> simp [Token.isMark, hkind]

theorem not_string_of_atom {a : Atom} (h : atom t = .ok a) : t.kind ≠ .string := by
  rcases kind_of_atom h with hkind | hkind <;> simp [hkind]

theorem operand_value (h : atom t = .ok (.value v)) :
    operand before after (t :: rest) = .ok (⟨.plain v, t.position⟩, rest) := by
  simp [operand, not_isMark_of_atom h, not_string_of_atom h, h]

theorem operand_register {r : Register} (h : atom t = .ok (.register r)) :
    operand before after (t :: rest) = .ok (⟨.register r, t.position⟩, rest) := by
  simp [operand, not_isMark_of_atom h, not_string_of_atom h, h]

theorem operand_string {contents : Text} {p : Position} :
    operand before after (⟨.string, contents, p⟩ :: rest) =
      .ok (⟨.string contents, p⟩, rest) := by
  simp [operand, Token.isMark]

theorem marked_value {refuse : Register -> Diagnostic.GrammarFault}
    (h : atom t = .ok (.value v)) :
    marked before refuse (t :: rest) = .ok (v, rest) := by
  simp [marked, h]

theorem operand_immediate {p : Position} (h : atom t = .ok (.value v)) :
    operand before after (⟨.punctuation, ['#'], p⟩ :: t :: rest) =
      .ok (⟨.immediate v, p⟩, rest) := by
  simp [operand, Token.isMark, marked_value h]

theorem operand_indirect {p q : Position} (h : atom t = .ok (.value v)) :
    operand before after
        (⟨.punctuation, ['('], p⟩ :: t :: ⟨.punctuation, [')'], q⟩ :: rest) =
      .ok (⟨.indirect v false, p⟩, rest) := by
  simp [operand, Token.isMark, parenthesized, marked_value h, innerIndex, closing]

theorem operand_indexedIndirect {x : Token} {p q r : Position}
    (h : atom t = .ok (.value v)) (hkind : x.kind = .identifier)
    (hx : x.text.upper = ['X']) :
    operand before after
        (⟨.punctuation, ['('], p⟩ :: t :: ⟨.punctuation, [','], q⟩ :: x ::
          ⟨.punctuation, [')'], r⟩ :: rest) =
      .ok (⟨.indirect v true, p⟩, rest) := by
  simp [operand, Token.isMark, parenthesized, marked_value h, innerIndex, closing,
    hkind, hx]

/-!
## Lists of operands
-/

theorem operands_last {done : List Operand} {ts : List Token} {o : Operand}
    (h : operand before after ts = .ok (o, [])) :
    operands done before after ts = .ok ((o :: done).reverse, []) := by
  rw [operands]
  split
  · simp_all
  · simp_all
  · simp_all

theorem operands_comma {done : List Operand} {ts : List Token} {o : Operand}
    {p : Position}
    (h : operand before after ts = .ok (o, ⟨.punctuation, [','], p⟩ :: rest)) :
    operands done before after ts =
      operands (o :: done) ⟨.punctuation, [','], p⟩ after rest := by
  rw [operands]
  split
  · simp_all
  · simp_all
  · simp_all [Token.isMark]

theorem arguments_last {done : List Operand} {ts : List Token} {o : Operand}
    (h : operand before after ts = .ok (o, [])) :
    arguments done before after ts = .ok (o :: done).reverse := by
  cases ts with
  | nil => simp [operand] at h
  | cons t more =>
      rw [arguments]
      split
      · simp_all
      · simp_all
      · simp_all

theorem arguments_comma {done : List Operand} {ts : List Token} {o : Operand}
    {p : Position} (hrest : rest ≠ [])
    (h : operand before after ts = .ok (o, ⟨.punctuation, [','], p⟩ :: rest)) :
    arguments done before after ts =
      arguments (o :: done) ⟨.punctuation, [','], p⟩ after rest := by
  cases ts with
  | nil => simp [operand] at h
  | cons t more =>
      conv => lhs; rw [arguments]
      split
      · simp_all
      · simp_all
      · simp_all [Token.isMark]

end Grammar

/-!
## Values
-/

def Value.Written (v : Value) (t : Text) : Prop :=
  ∃ kind : Token.Kind,
    (∀ rest, begins isWordPart rest = false ->
      Scan.Reads t (fun p => [⟨kind, t, p⟩]) rest) ∧
      ∀ p, Grammar.atom ⟨kind, t, p⟩ = .ok (.value v)

theorem Value.written_hex {width n : Nat} (hn : n ≤ 0xFFFF) :
    (Value.number n).Written ('$' :: Text.hex width (n : Int)) := by
  refine ⟨.number, ?_, ?_⟩
  · intro rest hrest
    apply Scan.Reads.hexNumber (Text.hex_ne_nil width n) _ hrest
    intro c hc
    rcases Text.mem_hex hc with ⟨d, hd, rfl⟩
    exact Lexeme.isHexDigit_digitChar hd
  · intro p
    have hread : Literal.read ('$' :: Text.hex width (n : Int)) = .ok (n : Int) :=
      Literal.read_hex (by omega)
    have hlow : ¬(n : Int) < -128 := by omega
    have hhigh : ¬0xFFFF < (n : Int) := by omega
    simp [Grammar.atom, Grammar.number, hread, hlow, hhigh, Except.map]

structure Text.IsName (name : Text) : Prop where
  word : Lexeme.isWord name = true
  kind : Lexeme.wordKind name = .identifier
  register : Register.ofName? (String.ofList name.upper) = none

theorem Text.IsName.reads {name : Text} (h : name.IsName) (rest : Text)
    (hrest : begins isWordPart rest = false) :
    Scan.Reads name (fun p => [⟨.identifier, name, p⟩]) rest := by
  rw [← h.kind]
  exact Scan.Reads.word h.word hrest

theorem Value.written_name {name : Text} (h : name.IsName) :
    (Value.name name).Written name := by
  refine ⟨.identifier, h.reads, ?_⟩
  intro p
  simp [Grammar.atom, Grammar.register?, h.register]

/-!
## Operands
-/

/-- The text is written for an operand of the form, whatever operands come after
it. -/
def Operand.Form.Written (form : Operand.Form) (t : Text) : Prop :=
  ∃ tokens : Position -> List Token,
    (∀ rest, begins isWordPart rest = false -> Scan.Reads t tokens rest) ∧
      ∀ p, tokens p ≠ [] ∧ ∃ o : Operand, o.form = form ∧
        ∀ before after more,
          Grammar.operand before after (tokens p ++ more) = .ok (o, more)

namespace Operand.Form

variable {v : Value} {t : Text}

theorem written_plain (h : v.Written t) : (plain v).Written t := by
  rcases h with ⟨kind, hreads, hatom⟩
  refine ⟨_, hreads, fun p => ⟨by simp, ⟨plain v, p⟩, rfl, ?_⟩⟩
  intro before after more
  exact Grammar.operand_value (hatom p)

theorem written_immediate (h : v.Written t) : (immediate v).Written ('#' :: t) := by
  rcases h with ⟨kind, hreads, hatom⟩
  have hall := fun rest (hrest : begins isWordPart rest = false) =>
    (Scan.Reads.mark (c := '#') (by decide) _).append (hreads rest hrest)
  refine ⟨_, hall, fun p => ⟨by simp, ⟨immediate v, p⟩, rfl, ?_⟩⟩
  intro before after more
  exact Grammar.operand_immediate (hatom _)

theorem written_indirect (h : v.Written t) :
    (indirect v false).Written ('(' :: t ++ [')']) := by
  rcases h with ⟨kind, hreads, hatom⟩
  have hall := fun rest (_ : begins isWordPart rest = false) =>
    (Scan.Reads.mark (c := '(') (by decide) _).append
      ((hreads ([')'] ++ rest) rfl).append (Scan.Reads.mark (by decide) rest))
  refine ⟨_, hall, fun p => ⟨by simp, ⟨indirect v false, p⟩, rfl, ?_⟩⟩
  intro before after more
  exact Grammar.operand_indirect (hatom _)

theorem written_indexedIndirect (h : v.Written t) :
    (indirect v true).Written ('(' :: t ++ [',', 'x', ')']) := by
  rcases h with ⟨kind, hreads, hatom⟩
  have hindex := fun rest =>
    (Scan.Reads.mark (c := ',') (by decide) _).append
      ((@Scan.Reads.word ['x'] ([')'] ++ rest) rfl rfl).append
        (Scan.Reads.mark (by decide) rest))
  have hall := fun rest (_ : begins isWordPart rest = false) =>
    (Scan.Reads.mark (c := '(') (by decide) _).append
      ((hreads ([',', 'x', ')'] ++ rest) rfl).append (hindex rest))
  have hx : Lexeme.wordKind ['x'] = .identifier := by decide +kernel
  refine ⟨_, hall, fun p => ⟨by simp, ⟨indirect v true, p⟩, rfl, ?_⟩⟩
  intro before after more
  exact Grammar.operand_indexedIndirect (hatom _) hx rfl

theorem written_register {r : Register} (hword : Lexeme.isWord t = true)
    (hkind : Lexeme.wordKind t = .identifier)
    (hr : Register.ofName? (String.ofList t.upper) = some r) :
    (register r).Written t := by
  have hall := fun rest (hrest : begins isWordPart rest = false) =>
    @Scan.Reads.word t rest hword hrest
  rw [hkind] at hall
  refine ⟨_, hall, fun p => ⟨by simp, ⟨register r, p⟩, rfl, ?_⟩⟩
  intro before after more
  apply Grammar.operand_register
  simp [Grammar.atom, Grammar.register?, hr]

theorem written_string {contents : Text} (h : Lexeme.Spells t contents) :
    (string contents).Written ('"' :: (t ++ ['"'])) := by
  refine ⟨_, fun rest _ => Scan.Reads.string h rest, fun p => ?_⟩
  refine ⟨by simp, ⟨string contents, p⟩, rfl, ?_⟩
  intro before after more
  exact Grammar.operand_string

end Operand.Form

/-!
## Operands of an instruction
-/

def Operand.Written (forms : List Operand.Form) (t : Text) : Prop :=
  ∃ tokens : Position -> List Token,
    (∀ rest, begins isWordPart rest = false -> Scan.Reads t tokens rest) ∧
      ∀ p, tokens p ≠ [] ∧ ∃ operands : List Operand,
        operands.map Operand.form = forms ∧ ∀ before after,
          Grammar.operands [] before after (tokens p) = .ok (operands, [])

namespace Operand

theorem Written.ne_nil {forms : List Operand.Form} {t : Text}
    (h : Written forms t) : t ≠ [] := by
  rintro rfl
  rcases h with ⟨tokens, hreads, hoperands⟩
  exact (hoperands .start).1 ((hreads [] rfl).eq_nil_of_nil .start)

theorem written_single {form : Operand.Form} {t : Text} (h : form.Written t) :
    Written [form] t := by
  rcases h with ⟨tokens, hreads, hoperand⟩
  refine ⟨tokens, hreads, fun p => ?_⟩
  rcases hoperand p with ⟨hne, o, rfl, ho⟩
  refine ⟨hne, [o], rfl, fun before after => ?_⟩
  have hlast := ho before after []
  rw [List.append_nil] at hlast
  exact Grammar.operands_last hlast

theorem written_pair {first second : Operand.Form} {s t : Text}
    (hs : first.Written s) (ht : second.Written t) :
    Written [first, second] (s ++ ',' :: t) := by
  rcases hs with ⟨tokens, hreads, hoperand⟩
  rcases ht with ⟨index, hreads', hoperand'⟩
  have hall := fun rest (hrest : begins isWordPart rest = false) =>
    (hreads (([','] ++ t) ++ rest) rfl).append
      ((Scan.Reads.mark (c := ',') (by decide) _).append (hreads' rest hrest))
  refine ⟨_, hall, fun p => ⟨by simp, ?_⟩⟩
  let comma : Token := ⟨.punctuation, [','], p.after s⟩
  let next : Position := (p.after s).after [',']
  rcases (hoperand p).2 with ⟨o, rfl, ho⟩
  rcases (hoperand' next).2 with ⟨o', rfl, ho'⟩
  refine ⟨[o, o'], rfl, fun before after => ?_⟩
  have hlast := ho' comma after []
  rw [List.append_nil] at hlast
  show Grammar.operands [] before after (tokens p ++ comma :: index next) = _
  rw [Grammar.operands_comma (ho before after _)]
  exact Grammar.operands_last hlast

end Operand

/-!
## Arguments of a directive
-/

/-- The text is written for the arguments of a directive, after any number of
others. -/
def Argument.Written (forms : List Operand.Form) (t : Text) : Prop :=
  ∃ tokens : Position -> List Token,
    (∀ rest, begins isWordPart rest = false -> Scan.Reads t tokens rest) ∧
      ∀ p, tokens p ≠ [] ∧ ∃ operands : List Operand,
        operands.map Operand.form = forms ∧ ∀ before after done,
          Grammar.arguments done before after (tokens p) =
            .ok (done.reverse ++ operands)

namespace Argument

theorem written_single {form : Operand.Form} {t : Text} (h : form.Written t) :
    Written [form] t := by
  rcases h with ⟨tokens, hreads, hoperand⟩
  refine ⟨tokens, hreads, fun p => ?_⟩
  rcases hoperand p with ⟨hne, o, rfl, ho⟩
  refine ⟨hne, [o], rfl, fun before after done => ?_⟩
  have hlast := ho before after []
  rw [List.append_nil] at hlast
  rw [Grammar.arguments_last hlast, List.reverse_cons]

theorem written_cons {form : Operand.Form} {forms : List Operand.Form}
    {s t : Text} (hs : form.Written s) (ht : Written forms t) :
    Written (form :: forms) (s ++ ',' :: t) := by
  rcases hs with ⟨tokens, hreads, hoperand⟩
  rcases ht with ⟨more, hreads', harguments⟩
  have hall := fun rest (hrest : begins isWordPart rest = false) =>
    (hreads (([','] ++ t) ++ rest) rfl).append
      ((Scan.Reads.mark (c := ',') (by decide) _).append (hreads' rest hrest))
  refine ⟨_, hall, fun p => ⟨by simp, ?_⟩⟩
  let comma : Token := ⟨.punctuation, [','], p.after s⟩
  let next : Position := (p.after s).after [',']
  rcases (hoperand p).2 with ⟨o, rfl, ho⟩
  rcases harguments next with ⟨hne, operands, rfl, hrest⟩
  refine ⟨o :: operands, rfl, fun before after done => ?_⟩
  show Grammar.arguments done before after (tokens p ++ comma :: more next) = _
  rw [Grammar.arguments_comma hne (ho before after _), hrest]
  simp

end Argument

/-!
## Lines
-/

namespace Statement.Content

/-- The text is read as one statement wherever it stands, unless a word goes on after
it. -/
def Written (content : Statement.Content) (t : Text) : Prop :=
  ∃ tokens : Position -> List Token,
    (∀ rest, begins isWordPart rest = false -> Scan.Reads t tokens rest) ∧
      ∀ p, ∃ s : Statement, s.content = content ∧ Row.Holds (tokens p) s

/-- No word goes on after a line feed. -/
theorem Written.toSays {content : Statement.Content} {t : Text} (h : content.Written t) :
    t.Says content := by
  rcases h with ⟨tokens, hreads, hholds⟩
  exact .intro (fun rest => hreads ('\n' :: rest) rfl) hholds

variable {word t : Text} {operation : Operation} {forms : List Operand.Form}

theorem written_implied (hword : Lexeme.isWord word = true)
    (hkind : Lexeme.wordKind word = .mnemonic operation) (indent : Nat) :
    (instruction operation []).Written (List.replicate indent ' ' ++ word) := by
  have hall := fun rest (hrest : begins isWordPart rest = false) =>
    (Scan.Reads.blanks indent _).append (@Scan.Reads.word word rest hword hrest)
  rw [hkind] at hall
  refine ⟨_, hall, fun p => ?_⟩
  let start : Token :=
    ⟨.mnemonic operation, word, p.after (List.replicate indent ' ')⟩
  refine ⟨⟨.instruction operation [], start.position⟩, rfl, ?_⟩
  exact @Row.holds_statement start [] _ (by simp [start]) fun after => rfl

theorem written_instruction (hword : Lexeme.isWord word = true)
    (hkind : Lexeme.wordKind word = .mnemonic operation)
    (ht : Operand.Written forms t) (indent gap : Nat) :
    (instruction operation forms).Written (List.replicate indent ' ' ++
      (word ++ (List.replicate (gap + 1) ' ' ++ t))) := by
  rcases ht with ⟨tokens, hreads, hoperands⟩
  have hall := fun rest (hrest : begins isWordPart rest = false) =>
    (Scan.Reads.blanks indent _).append
      ((@Scan.Reads.word word ((List.replicate (gap + 1) ' ' ++ t) ++ rest) hword
          rfl).append
        ((Scan.Reads.blanks (gap + 1) _).append (hreads rest hrest)))
  rw [hkind] at hall
  refine ⟨_, hall, fun p => ?_⟩
  let start : Token :=
    ⟨.mnemonic operation, word, p.after (List.replicate indent ' ')⟩
  let next : Position := (start.position.after word).after
    (List.replicate (gap + 1) ' ')
  rcases hoperands next with ⟨hne, operands, rfl, hrest⟩
  refine ⟨⟨.instruction operation operands, start.position⟩, rfl, ?_⟩
  apply @Row.holds_statement start (tokens next) _ (by simp [start])
  intro after
  show Grammar.instruction after operation start (tokens next) = _
  cases htokens : tokens next with
  | nil => exact absurd htokens hne
  | cons first more =>
      have hfound := hrest start after
      rw [htokens] at hfound
      simp [Grammar.instruction, hfound, bind, Except.bind, Grammar.endOfLine,
        pure, Except.pure]

theorem written_directive (hword : Lexeme.isWord word = true)
    (ht : Argument.Written forms t) (indent : Nat) :
    (directive word.lower forms).Written
      (List.replicate indent ' ' ++ ('.' :: word ++ ([' '] ++ t))) := by
  rcases ht with ⟨tokens, hreads, harguments⟩
  have hall := fun rest (hrest : begins isWordPart rest = false) =>
    (Scan.Reads.blanks indent _).append
      ((@Scan.Reads.directive word (([' '] ++ t) ++ rest) hword rfl).append
        ((Scan.Reads.blank _).append (hreads rest hrest)))
  refine ⟨_, hall, fun p => ?_⟩
  let start : Token :=
    ⟨.directive, '.' :: word, p.after (List.replicate indent ' ')⟩
  let next : Position := (start.position.after ('.' :: word)).after [' ']
  rcases harguments next with ⟨_, operands, rfl, hrest⟩
  refine ⟨⟨.directive word.lower operands, start.position⟩, rfl, ?_⟩
  apply @Row.holds_statement start (tokens next) _ (by simp [start])
  intro after
  have hfound := hrest start after []
  simp only [Grammar.statement, start] at hfound ⊢
  rw [hfound]
  rfl

end Statement.Content

namespace Text

theorem says_label {name : Text} (h : name.IsName) :
    Says (name ++ [':']) (.label name) := by
  have hall := fun rest : Text =>
    (h.reads ([':'] ++ '\n' :: rest) rfl).append
      (Scan.Reads.mark (c := ':') (by decide) _)
  refine .intro hall fun p => ⟨_, rfl, Row.holds_label ?_⟩
  simp [Grammar.isLabel, Grammar.register?, h.register, Token.isMark]

theorem tells_none {name digits : Text} {d : Char} (h : name.IsName)
    (hd : d.isDigit = true) (hdigits : ∀ x ∈ digits, x.isDigit = true) :
    Tells (name ++ ('-' :: d :: digits ++ [':'])) none := by
  have hall := fun rest : Text =>
    (h.reads (('-' :: d :: digits ++ [':']) ++ '\n' :: rest) rfl).append
      ((@Scan.Reads.negative digits ([':'] ++ '\n' :: rest) d hd hdigits rfl).append
        (Scan.Reads.mark (c := ':') (by decide) _))
  refine ⟨_, hall, fun p => ?_⟩
  let start : Token := ⟨.identifier, name, p⟩
  let number : Token := ⟨.number, '-' :: d :: digits, p.after name⟩
  let colon : Token := ⟨.punctuation, [':'], number.position.after number.text⟩
  have hyields : Row.Yields [start, number, colon]
      (Row.ofStatement (.error (Grammar.fault p (.unknownInstruction name)))) := by
    refine Row.yields_statement ?_ fun after => ?_
    · rintro second ⟨⟩
      simp [Grammar.isLabel, number, Token.isMark]
    · simp [Grammar.statement, start, number, Grammar.register?, h.register, Token.isMark]
  exact ⟨_, rfl, hyields⟩

variable {word t : Text} {forms : List Operand.Form}

theorem says_directive (hword : Lexeme.isWord word = true)
    (ht : Argument.Written forms t) (indent : Nat) :
    Says (List.replicate indent ' ' ++ ('.' :: word ++ ([' '] ++ t)))
      (.directive word.lower forms) :=
  (Statement.Content.written_directive hword ht indent).toSays

end Text
end Asm6502

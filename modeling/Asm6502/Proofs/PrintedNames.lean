import Asm6502.Proofs.RoundTrip
import Asm6502.Proofs.SymbolListings
import Asm6502.Proofs.UndefinedReports

/-!
# Names in a disassembly

The statements of a disassembly define names only by labels, and whatever they refer to is
the label of an address.  All these names are told apart without regard to case.  So the
symbols of a run over such statements are the labels that it places, in the spelling that
the text has.
-/

namespace Asm6502

/-!
## Names in a printed text
-/

def Disassembly.IsName (name : Text) : Prop :=
  (∃ x : Int, 0 ≤ x ∧ name = Block.labelName x) ∨ ∃ k : Nat, name = Data.stringName k

theorem Disassembly.IsName.eq {name other : Text} (h : IsName name) (hother : IsName other)
    (hfold : name.foldCase = other.foldCase) : name = other := by
  rcases h with ⟨x, hx, rfl⟩ | ⟨k, rfl⟩
  · rcases hother with ⟨y, hy, rfl⟩ | ⟨j, rfl⟩
    · rw [Block.labelName_inj hx hy hfold]
    · exact absurd hfold.symm (Data.stringName_ne_labelName j hx)
  · rcases hother with ⟨y, hy, rfl⟩ | ⟨j, rfl⟩
    · exact absurd hfold (Data.stringName_ne_labelName k hy)
    · rw [Data.stringName_inj hfold]

def Operand.Form.name? : Operand.Form -> Option Text
  | .plain (.name name) | .immediate (.name name) | .indirect (.name name) _ => some name
  | _ => none

theorem Operand.name?_of_mention? {o : Operand} {m : Mention} (h : o.mention? = some m) :
    o.form.name? = some m.name := by
  rcases o with ⟨form, position⟩
  cases form with
  | plain v | immediate v | indirect v _ =>
      cases v with
      | number n => cases h
      | name name =>
          cases h
          rfl
  | register r => cases h
  | string contents => cases h

def Statement.Content.Printed : Statement.Content -> Prop
  | .label name => Disassembly.IsName name
  | .instruction _ forms => ∀ form ∈ forms, ∀ name ∈ form.name?, Disassembly.IsName name
  | .directive _ forms => ∀ form ∈ forms, form.name? = none

namespace Statement

variable {s : Statement} {name : Text}

theorem body_of_defines? (h : s.content.Printed) (hname : s.defines? = some name) :
    s.body = .label name ∧ Disassembly.IsName name := by
  cases hbody : s.body with
  | label other =>
      simp only [content, hbody, Content.Printed] at h
      simp only [defines?, hbody, Option.some.injEq] at hname
      subst hname
      exact ⟨rfl, h⟩
  | instruction operation operands => simp [defines?, hbody] at hname
  | directive word operands =>
      simp only [content, hbody, Content.Printed, List.forall_mem_map] at h
      have hnone : ∀ t, operands.head?.map Operand.form ≠ some (.plain (.name t)) := by
        intro t ht
        rcases Option.map_eq_some_iff.mp ht with ⟨o, ho, hform⟩
        have hname := h o (List.mem_of_head? ho)
        rw [hform] at hname
        cases hname
      simp only [defines?, hbody] at hname
      split at hname <;> cases hname

theorem isName_of_pending (h : s.content.Printed) {image : Image} {m : Mention}
    (hm : m ∈ image.pendingMentions s) : Disassembly.IsName m.name := by
  rcases List.mem_filterMap.mp hm with ⟨o, ho, hpending⟩
  have hmem := s.valued_sublist.subset ho
  have hform := Operand.name?_of_mention? (Option.filter_eq_some_iff.mp hpending).1
  unfold operands at hmem
  cases hbody : s.body with
  | label other => simp [hbody] at hmem
  | instruction operation operands =>
      simp only [content, hbody, Content.Printed, List.forall_mem_map] at h
      rw [hbody] at hmem
      exact h o hmem _ hform
  | directive word operands =>
      simp only [content, hbody, Content.Printed, List.forall_mem_map] at h
      rw [hbody] at hmem
      rw [h o hmem] at hform
      cases hform

end Statement

/-!
## Definitions of a run
-/

def Image.placed? (image : Image) (s : Statement) : Option (Text × Symbol.Binding) :=
  match s.body with
  | .label name => some (name, ⟨.label, image.pc⟩)
  | _ => none

theorem Effect.definitions_of_none {e : Effect} (h : e.defines? = none) :
    e.calls.filterMap SymbolTable.Call.definition? = [] := by
  cases e with
  | define name binding => cases h
  | append chunk =>
      simp [calls, List.filterMap_map, Function.comp_def, SymbolTable.Call.definition?]
  | moveOrigin origin => rfl
  | setFiller filler => rfl

theorem Image.definitions_calls {image : Image} {s : Statement} {e : Effect} {initial : UInt8}
    (hs : s.content.Printed) (h : image.effect initial s = .ok e) :
    e.calls.filterMap SymbolTable.Call.definition? = (image.placed? s).toList := by
  cases hbody : s.body with
  | label name =>
      simp only [effect, hbody] at h
      rw [define?_eq_ok h]
      simp [Effect.calls, SymbolTable.Call.definition?, placed?, hbody]
  | _ =>
      have hnone : e.defines? = none := by
        rw [(effect_enters h).name, Option.eq_none_iff_forall_ne_some]
        intro name hname
        rw [(s.body_of_defines? hs hname).1] at hbody
        cases hbody
      rw [Effect.definitions_of_none hnone]
      simp [placed?, hbody]

namespace Session

variable {options : Options} {session : Session}

/-- The labels among some statements, with the addresses at which they are reached. -/
def placed (options : Options) (session : Session) (statements : List Statement) :
    List (Text × Symbol.Binding) :=
  (session.accepted options (statements.map .statement)).filterMap fun reached =>
    reached.1.placed? reached.2

variable {statements : List Statement}

theorem mem_statements_of_accepted {reached : Image × Statement}
    (h : reached ∈ session.accepted options (statements.map .statement)) :
    reached.2 ∈ statements := by
  rcases List.mem_map.mp (mem_of_accepted h) with ⟨s, hs, heq⟩
  cases heq
  exact hs

theorem definitions_calls (h : ∀ s ∈ statements, s.content.Printed) :
    (session.calls options (statements.map .statement)).filterMap
      SymbolTable.Call.definition? = session.placed options statements := by
  unfold calls placed
  rw [List.filterMap_flatMap, List.filterMap_eq_flatMap_toList]
  apply List.flatMap_congr
  intro reached hreached
  rcases resume_of_accepted hreached with ⟨_, _, e, heffect, _⟩
  rw [Image.calls, heffect]
  exact Image.definitions_calls (h _ (mem_statements_of_accepted hreached)) heffect

/-- A run over the statements of a disassembly enters only names that it gives. -/
theorem isName_of_mem_calls (h : ∀ s ∈ statements, s.content.Printed) {name : Text}
    (hname : name ∈ (session.calls options (statements.map .statement)).filterMap
      SymbolTable.Call.name?) : Disassembly.IsName name := by
  rcases List.mem_filterMap.mp hname with ⟨call, hcall, heq⟩
  have hstatement : ∀ reached ∈ session.accepted options (statements.map .statement),
      reached.2.content.Printed :=
    fun reached hreached => h _ (mem_statements_of_accepted hreached)
  cases call with
  | define other binding =>
      cases heq
      have hmem : name ∈ session.defined options (statements.map .statement) := by
        rw [← defines_calls]
        exact List.mem_filterMap.mpr ⟨_, hcall, rfl⟩
      rcases List.mem_filterMap.mp hmem with ⟨reached, hreached, hdefines⟩
      exact (reached.2.body_of_defines? (hstatement _ hreached) hdefines).2
  | resolve other position =>
      cases heq
      have hmem : ⟨name, position⟩ ∈ session.asked options (statements.map .statement) := by
        rw [← mentions_calls]
        exact List.mem_filterMap.mpr ⟨_, hcall, rfl⟩
      rcases List.mem_flatMap.mp hmem with ⟨reached, hreached, hpending⟩
      exact Statement.isName_of_pending (hstatement _ hreached) hpending
  | lookup other => cases heq

theorem foldl_handle_statements :
    (statements.map Event.statement).foldl (handle options) session =
      statements.foldl (emit options) session := by
  rw [List.foldl_map]
  rfl

theorem placed_append (first second : List Statement) :
    session.placed options (first ++ second) = session.placed options first ++
      (first.foldl (emit options) session).placed options second := by
  unfold placed
  rw [List.map_append, accepted_append, List.filterMap_append, foldl_handle_statements]

theorem placed_eq_nil {contents : List Statement.Content}
    (hs : statements.map Statement.content = contents)
    (h : ∀ name, .label name ∉ contents) : session.placed options statements = [] := by
  unfold placed
  rw [List.filterMap_eq_nil_iff]
  intro reached hreached
  have hcontent := List.mem_map_of_mem (f := Statement.content)
    (mem_statements_of_accepted hreached)
  rw [hs] at hcontent
  unfold Image.placed?
  split
  · rename_i name hbody
    rw [Statement.content, hbody] at hcontent
    exact absurd hcontent (h name)
  · rfl

theorem placed_label {s : Statement} {name : Text} (hs : s.content = .label name)
    (hsilent : (session.emit options s).diagnostics = session.diagnostics) :
    session.placed options [s] = [(name, ⟨.label, session.image.pc⟩)] := by
  have haccepts : session.accepts options s = true := by simp [accepts, hsilent]
  simp [placed, accepted, haccepts, Image.placed?, s.body_of_label hs]

theorem perm_symbols (h : ∀ s ∈ statements, s.content.Printed)
    (honce : (((start options []).placed options statements).map
      fun d => d.1.foldCase).Nodup) :
    ((statements.foldl (emit options) (start options [])).image.symbols.symbols.map
        fun s => (s.name, s.binding)).Perm
      (((start options []).placed options statements).map fun d => (d.1, some d.2)) := by
  have hrecords := @records_foldl options (start options []) [] (SymbolTable.records_after [])
    (statements.map .statement)
  rw [foldl_handle_statements, List.nil_append] at hrecords
  have hspelled : ∀ {name : Text},
      name ∈ ((start options []).calls options (statements.map .statement)).filterMap
        SymbolTable.Call.name? -> Disassembly.IsName name := isName_of_mem_calls h
  rw [← definitions_calls h] at honce ⊢
  exact hrecords.perm_symbols
    (fun name hname other hother => (hspelled hname).eq (hspelled hother)) honce

end Session

/-!
## Statements of a disassembly
-/

theorem Data.Segment.printed_contents (number : Nat) (s : Data.Segment) :
    ∀ content ∈ s.contents number, content.Printed := by
  cases s with
  | string contents terminated =>
      refine List.forall_mem_append.mpr ⟨?_, List.forall_mem_singleton.mpr ?_⟩
      · split
        · exact List.forall_mem_singleton.mpr (.inr ⟨number, rfl⟩)
        · exact fun content hcontent => nomatch hcontent
      · exact List.forall_mem_singleton.mpr rfl
  | bytes contents =>
      refine List.forall_mem_map.mpr fun row _ => ?_
      exact List.forall_mem_map.mpr fun b _ => rfl

theorem Data.printed_contents (number : Nat) (segments : List Data.Segment) :
    ∀ content ∈ Data.contents number segments, content.Printed := by
  induction segments generalizing number with
  | nil => exact fun content hcontent => nomatch hcontent
  | cons s rest ih => exact List.forall_mem_append.mpr ⟨s.printed_contents number, ih _⟩

/-- The only name in an instruction is that of the address it leads to. -/
theorem Decoded.target_of_name? {d : Decoded} {target : Option Text} {form : Operand.Form}
    {name : Text} (hform : form ∈ d.forms target) (hname : form.name? = some name) :
    target = some name := by
  cases hmode : d.mode with
  | absolute | relative =>
      simp only [forms, hmode] at hform
      cases List.mem_singleton.mp hform
      cases target with
      | none => cases hname
      | some other => exact hname
  | implied =>
      simp only [forms, hmode] at hform
      cases hform
  | zeroPageX | zeroPageY | absoluteX | absoluteY | indirectIndexed =>
      simp only [forms, hmode, List.mem_cons, List.not_mem_nil, or_false] at hform
      rcases hform with rfl | rfl <;> cases hname
  | _ =>
      simp only [forms, hmode] at hform
      cases List.mem_singleton.mp hform
      cases hname

theorem Decoded.printed_contents {labels : Std.TreeSet Int compare}
    (hlabels : ∀ x ∈ labels, 0 ≤ x) {d : Decoded} (h : d.Faithful) :
    ∀ content ∈ d.contents labels, content.Printed := by
  refine List.forall_mem_append.mpr ⟨?_, List.forall_mem_singleton.mpr ?_⟩
  · split
    · rename_i hlabel
      have haddress := hlabels _ (Std.TreeSet.mem_iff_contains.mpr hlabel)
      exact List.forall_mem_singleton.mpr (.inl ⟨d.address, haddress, rfl⟩)
    · exact fun content hcontent => nomatch hcontent
  · intro form hform name hname
    have htarget := target_of_name? hform hname
    rcases target_eq_some htarget with ⟨_, _, rfl⟩
    rcases h.operand_nat with ⟨n, _, hoperand⟩
    exact .inl ⟨d.operand, hoperand ▸ Int.natCast_nonneg n, rfl⟩

namespace Disassembly

theorem printed_contents {labels : Std.TreeSet Int compare} (hlabels : ∀ x ∈ labels, 0 ≤ x)
    {blocks : List Block} (h : ∀ d, .code d ∈ blocks -> d.Faithful) (number : Nat) :
    ∀ content ∈ contents labels number blocks, content.Printed := by
  induction blocks generalizing number with
  | nil => exact fun content hcontent => nomatch hcontent
  | cons b rest ih =>
      have hrest : ∀ d, .code d ∈ rest -> d.Faithful :=
        fun d hd => h d (List.mem_cons_of_mem _ hd)
      cases b with
      | code d =>
          exact List.forall_mem_append.mpr
            ⟨Decoded.printed_contents hlabels (h d (List.mem_cons_self ..)), ih hrest number⟩
      | data address bytes =>
          exact List.forall_mem_append.mpr ⟨Data.printed_contents number _, ih hrest _⟩

theorem printed_program (origin : Int) (code : List UInt8) :
    ∀ content ∈ program origin code, content.Printed := by
  refine List.forall_mem_append.mpr ⟨?_, ?_⟩
  · split
    · exact fun content hcontent => nomatch hcontent
    · exact List.forall_mem_singleton.mpr (List.forall_mem_singleton.mpr rfl)
  · exact printed_contents (fun _ => Block.nonneg_of_mem_labels)
      (fun _ => Block.faithful_of_mem_sweep) 1

end Disassembly
end Asm6502

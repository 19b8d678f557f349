import Asm6502.Proofs.Decoding
import Asm6502.Proofs.FailedLines

/-!
# The address space

Everything that is placed stays below the end of the address space, and the origin is
settled once something has been placed or a directive has moved it.  The first such
directive is not checked: it takes its address from a number or a name as it is.  What
keeps the origin in bounds is that numbers in a source are limited and that every name
got its value from a number, another name or the address of the next byte.
-/

namespace Asm6502

/-!
## Numbers in a source
-/

/-- A number that the notation allows; a name is not limited. -/
def Value.Limited : Value -> Prop
  | number n => -128 ≤ n ∧ n ≤ 0xFFFF
  | name _ => True

def Operand.Limited (o : Operand) : Prop :=
  ∀ v, o.value? = some v -> v.Limited

def Statement.Limited (s : Statement) : Prop :=
  ∀ o ∈ s.operands, o.Limited

/-- Some source has the statement. -/
def Statement.Parsed (s : Statement) : Prop :=
  ∃ source, s ∈ (Script.ofText source).statements

namespace Grammar

variable {ts : List Token} {os : List Operand} {s : Statement}

theorem DerivesPlain.limited {t : Token} {v : Value} (h : DerivesPlain t v) :
    v.Limited := by
  cases h with
  | number _ _ hlow hhigh => exact ⟨hlow, hhigh⟩
  | name _ => trivial

theorem DerivesOperand.limited {o : Operand} (h : DerivesOperand ts o) :
    o.Limited := by
  intro v hv
  cases h with
  | immediate _ hplain =>
      cases hv
      exact hplain.limited
  | indirect _ hplain _ =>
      cases hv
      exact hplain.limited
  | indexed _ hplain _ _ _ =>
      cases hv
      exact hplain.limited
  | string _ => cases hv
  | value hvalue =>
      cases hvalue with
      | plain hplain =>
          cases hv
          exact hplain.limited
      | register _ => cases hv

theorem DerivesOperands.each (h : DerivesOperands ts os) :
    ∀ o ∈ os, ∃ part, DerivesOperand part o := by
  induction h with
  | last hoperand =>
      intro o ho
      rw [List.mem_singleton.mp ho]
      exact ⟨_, hoperand⟩
  | comma hoperand _ _ ih =>
      intro o ho
      rcases List.mem_cons.mp ho with rfl | ho
      · exact ⟨_, hoperand⟩
      · exact ih o ho

theorem DerivesArguments.each (h : DerivesArguments ts os) :
    ∀ o ∈ os, ∃ part, DerivesOperand part o := by
  induction h with
  | last hoperand =>
      intro o ho
      rw [List.mem_singleton.mp ho]
      exact ⟨_, hoperand⟩
  | comma hoperand _ _ ih | blank hoperand _ ih =>
      intro o ho
      rcases List.mem_cons.mp ho with rfl | ho
      · exact ⟨_, hoperand⟩
      · exact ih o ho

theorem DerivesTail.each (h : DerivesTail ts s) :
    ∀ o ∈ s.operands, ∃ part, DerivesOperand part o := by
  cases h with
  | implied _ => nofun
  | instruction _ hos => exact hos.each
  | bare _ => nofun
  | directive _ hos => exact hos.each
  | assignment hname _ hvalue =>
      intro o ho
      rcases List.mem_cons.mp ho with rfl | ho
      · exact ⟨_, .value (.plain (.name hname))⟩
      · rw [List.mem_singleton.mp ho]
        exact ⟨_, .value hvalue⟩

theorem label_or_derives_of_mem_lineEvents {after : Token}
    (h : .statement s ∈ lineEvents after ts) :
    (∃ name, s.body = .label name) ∨ ∃ part, DerivesTail part s := by
  fun_induction lineEvents after ts with
  | case1 => cases h
  | case2 start => exact .inr ⟨_, derives_of_statement (statement_mem_eventOf h)⟩
  | case3 name colon rest _ ih =>
      rcases List.mem_cons.mp h with heq | h
      · cases heq
        exact .inl ⟨_, rfl⟩
      · exact ih h
  | case4 name colon rest _ =>
      exact .inr ⟨_, derives_of_statement (statement_mem_eventOf h)⟩

end Grammar

theorem Statement.Parsed.label_or_derives {s : Statement} (h : s.Parsed) :
    (∃ name, s.body = .label name) ∨ ∃ part, Grammar.DerivesTail part s := by
  rcases h with ⟨source, hs⟩
  have hproper := Scan.proper_ofText source
  have hown : (Event.statement s).isOwn = true := rfl
  rcases Script.exists_passage_of_event hproper.ordered
    (Script.mem_statements_iff.mp hs) with ⟨line, p, known, hknown, _, hevent⟩
  by_cases hfails : (Scan.ofText source).FailsOn line
  · rcases p.label_of_failsOn hproper hknown hfails hown hevent with ⟨name, _, heq⟩
    cases heq
    exact .inl ⟨name, rfl⟩
  · have hmem := List.mem_filter.mpr ⟨hevent, hown⟩
    rw [p.own_events hproper hknown hfails] at hmem
    exact Grammar.label_or_derives_of_mem_lineEvents hmem

theorem Statement.Parsed.limited {s : Statement} (h : s.Parsed) : s.Limited := by
  intro o ho
  rcases h.label_or_derives with ⟨name, hbody⟩ | ⟨part, hderives⟩
  · simp [operands, hbody] at ho
  · rcases hderives.each o ho with ⟨_, hoperand⟩
    exact hoperand.limited

/-!
## What a statement brings in
-/

def Statement.origin? (s : Statement) : Option Operand :=
  match s.body with
  | .directive name [o] =>
      if Directive.ofName? name = some .org then some o else none
  | _ => none

theorem Statement.origin?_eq_some {s : Statement} {o : Operand}
    (h : s.origin? = some o) :
    ∃ name, s.body = .directive name [o] ∧ Directive.ofName? name = some .org := by
  unfold origin? at h
  split at h
  · rename_i name operand hbody
    split at h
    · rename_i horg
      cases h
      exact ⟨name, hbody, horg⟩
    · cases h
  · cases h

namespace Image

variable {image : Image} {s : Statement} {position : Position} {e : Effect}

/-- Where the numbers in the effect of a statement come from. -/
inductive Brings (image : Image) (s : Statement) : Effect -> Prop where
  | label {name : Text} : s.body = .label name ->
      Brings image s (.define name ⟨.label, image.pc⟩)
  | bind {name : Text} {kind : Symbol.Kind} {o : Operand} {n : Int} :
      o ∈ s.operands -> image.constValue o = .ok n ->
      Brings image s (.define name ⟨kind, n⟩)
  | origin {o : Operand} {address : Int} : s.origin? = some o ->
      image.constValue o = .ok address -> Brings image s (.moveOrigin address)
  | filler {filler : UInt8} : Brings image s (.setFiller filler)
  | append {chunk : Chunk} : Brings image s (.append chunk)

theorem define?_eq_ok {name : Text} {binding : Symbol.Binding}
    (h : image.define? position name binding = .ok e) : e = .define name binding := by
  unfold define? at h
  split at h <;> cases h
  rfl

theorem dataEffect_brings {use : Directive.Use} {final : List UInt8}
    {add : Chunk -> Operand -> Except Diagnostic Chunk}
    (h : image.dataEffect use add final = .ok e) : image.Brings s e := by
  rcases exists_ok_of_bind h with ⟨chunk, _, happend⟩
  unfold append? at happend
  split at happend <;> cases happend
  exact .append

theorem orgEffect_brings {o : Operand} (ho : s.origin? = some o)
    (h : image.orgEffect position o = .ok e) : image.Brings s e := by
  rcases exists_ok_of_bind h with ⟨address, haddress, hrest⟩
  split at hrest
  · cases hrest
    exact .origin ho haddress
  · split at hrest
    · cases hrest
    · cases pad?_lays hrest
      exact .append

theorem fillerEffect_brings {initial : UInt8} {o : Operand}
    (h : image.fillerEffect initial o = .ok e) : image.Brings s e := by
  unfold fillerEffect at h
  split at h
  · cases h
    exact .filler
  · cases hbyte : image.byteValue o with
    | error d => simp [hbyte, Except.map] at h
    | ok b =>
        rw [hbyte] at h
        cases h
        exact .filler

theorem bindEffect_brings {directive : Text} {kind : Symbol.Kind} {name value : Operand}
    (hvalue : value ∈ s.operands)
    (h : image.bindEffect directive kind name value = .ok e) : image.Brings s e := by
  unfold bindEffect at h
  split at h
  · rcases exists_ok_of_bind h with ⟨n, hn, hdefine⟩
    rw [define?_eq_ok hdefine]
    exact .bind hvalue hn
  · cases h

theorem directiveEffect_brings {initial : UInt8} {d : Directive} {name : Text}
    {operands : List Operand} (hbody : s.body = .directive name operands)
    (hname : Directive.ofName? name = some d)
    (h : image.directiveEffect initial d ⟨name, position, operands⟩ = .ok e) :
    image.Brings s e := by
  have hoperands : s.operands = operands := by simp [Statement.operands, hbody]
  unfold directiveEffect at h
  dsimp only at h
  split at h
  · cases h
  · split at h
    · exact dataEffect_brings h
    · exact dataEffect_brings h
    · exact dataEffect_brings h
    · exact dataEffect_brings h
    · refine orgEffect_brings ?_ h
      simp [Statement.origin?, hbody, hname]
    · -- Padding has a layout, and only bytes that are appended do.
      cases fillEffect_lays h
      exact .append
    · cases fillEffect_lays h
      exact .append
    · cases alignEffect_lays h
      exact .append
    · exact fillerEffect_brings h
    · exact bindEffect_brings (by simp [hoperands]) h
    · exact bindEffect_brings (by simp [hoperands]) h
    · cases h

theorem effect_brings {initial : UInt8} (h : image.effect initial s = .ok e) :
    image.Brings s e := by
  unfold effect at h
  cases hbody : s.body with
  | label name =>
      rw [hbody] at h
      rw [define?_eq_ok h]
      exact .label hbody
  | instruction operation operands =>
      rw [hbody] at h
      rcases instructionEffect_eq_ok h with ⟨_, _, _, _, _, chunk, _, _, _, _, rfl⟩
      exact .append
  | directive name operands =>
      simp only [hbody] at h
      cases hname : Directive.ofName? name with
      | none => simp [hname] at h
      | some d =>
          simp only [hname] at h
          exact directiveEffect_brings hbody hname h

theorem effect_of_origin? {initial : UInt8} {o : Operand} (ho : s.origin? = some o) :
    image.effect initial s = image.orgEffect s.position o := by
  rcases Statement.origin?_eq_some ho with ⟨name, hbody, horg⟩
  simp [effect, hbody, horg, directiveEffect, Directive.arity]

end Image

/-!
## The origin
-/

namespace Image

variable {image : Image} {s : Statement} {e : Effect} {items : List Item}

/-- The origin can no longer be moved. -/
def Settled (image : Image) : Prop :=
  image.originSet = true ∨ image.bytes ≠ #[]

theorem not_settled_iff :
    ¬image.Settled ↔ (!image.originSet && image.bytes.isEmpty) = true := by
  simp [Settled]

theorem Lays.not_settled {address : Int} (h : image.Lays (.moveOrigin address) items) :
    ¬image.Settled := by
  cases h with
  | moveOrigin hset hbytes => simp [Settled, hset, hbytes]

theorem Lays.settled (h : image.Lays e items) (hsettled : image.Settled) :
    (image.apply e).Settled ∧ (image.apply e).origin = image.origin := by
  cases h with
  | define _ => exact ⟨hsettled, rfl⟩
  | moveOrigin hset hbytes =>
      simp [Settled, hset, hbytes] at hsettled
  | setFiller => exact ⟨hsettled, rfl⟩
  | append _ _ =>
      refine ⟨hsettled.imp_right ?_, rfl⟩
      intro hbytes hnone
      exact hbytes (Array.append_eq_empty_iff.mp hnone).1

theorem settled_of_origin? {initial : UInt8} (ho : s.origin?.isSome)
    (h : image.effect initial s = .ok e) : (image.apply e).Settled := by
  rcases Option.isSome_iff_exists.mp ho with ⟨o, ho⟩
  by_cases hsettled : image.Settled
  · exact ((effect_lays h).settled hsettled).1
  · rw [effect_of_origin? ho] at h
    rcases exists_ok_of_bind h with ⟨address, _, hrest⟩
    rw [if_pos (not_settled_iff.mp hsettled)] at hrest
    cases hrest
    exact .inl rfl

end Image

/-!
## Bounds
-/

namespace SymbolTable

theorem value?_bind {table : SymbolTable} {name other : Text} {binding : Symbol.Binding}
    {n : Int} (h : (table.bind name binding).value? other = some n) :
    n = binding.value ∨ table.value? other = some n := by
  rcases value?_eq_some_iff.mp h with ⟨kind, hbinding⟩
  by_cases hsame : name.foldCase = other.foldCase
  · rw [binding?_bind_same table binding hsame] at hbinding
    cases hbinding
    exact .inl rfl
  · rw [binding?_bind_other table binding hsame] at hbinding
    exact .inr (value?_eq_some_iff.mpr ⟨kind, hbinding⟩)

theorem value?_foldl_mention (table : SymbolTable) (fixups : List Fixup) (name : Text) :
    (fixups.foldl (fun t f => t.mention f.name f.position) table).value? name =
      table.value? name := by
  induction fixups generalizing table with
  | nil => rfl
  | cons f rest ih =>
      rw [List.foldl_cons, ih]
      simp [value?]

end SymbolTable

namespace Image

variable {image : Image} {s : Statement} {e : Effect} {items : List Item} {low : Int}

/-- What has been placed ends inside the address space. -/
def Inside (image : Image) : Prop :=
  image.bytes = #[] ∨ image.pc ≤ addressSpace

theorem pc_append_empty {chunk : Chunk} (h : chunk.bytes = #[]) :
    (image.append chunk).pc = image.pc := by
  rw [pc_append, h, Array.size_empty, Int.natCast_zero, Int.add_zero,
    wrap64_of_signed64 image.signed64_pc]

theorem Lays.room {chunk : Chunk} (h : image.Lays (.append chunk) items) :
    chunk.bytes = #[] ∨ (image.append chunk).pc ≤ addressSpace := by
  cases h with
  | append _ hroom =>
      refine hroom.imp Array.eq_empty_of_size_eq_zero fun hroom => ?_
      rw [pc_append]
      exact of_decide_eq_true hroom

theorem Lays.inside (h : image.Lays e items) (hinside : image.Inside) :
    (image.apply e).Inside := by
  cases h with
  | define _ => exact hinside
  | moveOrigin _ hbytes => exact .inl hbytes
  | setFiller => exact hinside
  | @append chunk _ hlays hroom =>
      rcases (Lays.append hlays hroom).room with hnone | hpc
      · have hsame : (image.append chunk).bytes = image.bytes := by
          rw [Image.append, hnone, Array.append_empty]
        refine hinside.imp hsame.trans fun hpc => ?_
        rw [apply, pc_append_empty hnone]
        exact hpc
      · exact .inr hpc

/-- So many bytes can be counted from inside the address space. -/
def Countable (image : Image) : Prop :=
  image.bytes.size + 0x10000 < 0x8000000000000000

/-- The origin, the address of the next byte and the values of all names are inside
the address space, apart from some room below it. -/
structure Within (low : Int) (image : Image) : Prop where
  origin : low ≤ image.origin
  pc : image.pc ≤ addressSpace
  value_le : ∀ {name : Text} {n : Int}, image.symbols.value? name = some n ->
    n ≤ addressSpace
  exact : image.Countable -> image.pc = image.origin + image.bytes.size
  le_value : image.Countable -> ∀ {name : Text} {n : Int},
    image.symbols.value? name = some n -> low ≤ n

theorem countable_of_empty (h : image.bytes = #[]) : image.Countable := by
  rw [Countable, h]
  decide

theorem Within.start {origin : Int} (filler : UInt8) (hsigned : Signed64 origin)
    (hlow : low ≤ origin) (hhigh : origin ≤ addressSpace) :
    (start origin filler).Within low := by
  have hpc : (Image.start origin filler).pc = origin := by
    simp [Image.start, Image.pc, wrap64_of_signed64 hsigned]
  have hnone : ∀ {name : Text} {n : Int},
      (Image.start origin filler).symbols.value? name ≠ some n := by
    simp [Image.start, SymbolTable.value?, SymbolTable.binding?]
  constructor
  · exact hlow
  · rw [hpc]
    exact hhigh
  · exact fun hn => absurd hn hnone
  · intro _
    rw [hpc]
    exact (Int.add_zero origin).symm
  · exact fun _ _ _ hn => absurd hn hnone

theorem Within.constValue_le (h : image.Within low) {o : Operand} (ho : o.Limited) {n : Int}
    (hn : image.constValue o = .ok n) :
    n ≤ addressSpace ∧ (image.Countable -> low ≤ -128 -> low ≤ n) := by
  rcases o with ⟨form, position⟩
  cases form with
  | plain v =>
      cases v with
      | number m =>
          cases hn
          have hlimits := ho (.number n) rfl
          exact ⟨Int.le_trans hlimits.2 (by decide),
            fun _ hlow => Int.le_trans hlow hlimits.1⟩
      | name t =>
          simp only [Image.constValue] at hn
          cases hvalue : image.symbols.value? t with
          | none => simp [hvalue] at hn
          | some m =>
              simp only [hvalue, Except.ok.injEq] at hn
              subst hn
              exact ⟨h.value_le hvalue, fun hcount _ => h.le_value hcount hvalue⟩
  | immediate v | indirect v indexed | register r | string contents => cases hn

theorem Within.bind (h : image.Within low) {name : Text} {binding : Symbol.Binding}
    (hhigh : binding.value ≤ addressSpace) (hlow : image.Countable -> low ≤ binding.value) :
    (image.apply (.define name binding)).Within low := by
  refine ⟨h.origin, h.pc, ?_, h.exact, ?_⟩
  · intro other n hn
    rcases SymbolTable.value?_bind hn with rfl | hn
    · exact hhigh
    · exact h.value_le hn
  · intro hcount other n hn
    rcases SymbolTable.value?_bind hn with rfl | hn
    · exact hlow hcount
    · exact h.le_value hcount hn

theorem Within.moveOrigin (h : image.Within low) (hbytes : image.bytes = #[]) {address : Int}
    (hlow : low ≤ address) (hhigh : address ≤ addressSpace)
    (hbound : -0x8000000000000000 ≤ low) :
    (image.apply (.moveOrigin address)).Within low := by
  have hspace : addressSpace = 0x10000 := rfl
  have hpc : (image.apply (.moveOrigin address)).pc = address := by
    simp only [Image.apply, Image.pc, hbytes, Array.size_empty, Int.natCast_zero, Int.add_zero]
    exact wrap64_of_signed64 ⟨by omega, by omega⟩
  refine ⟨hlow, ?_, h.value_le, ?_, h.le_value⟩
  · rw [hpc]
    exact hhigh
  · intro _
    rw [hpc]
    simp [Image.apply, hbytes]

theorem Within.append (h : image.Within low) {chunk : Chunk}
    (hlays : image.Lays (.append chunk) items) (hbound : -0x8000000000000000 ≤ low) :
    (image.apply (.append chunk)).Within low := by
  have hspace : addressSpace = 0x10000 := rfl
  have hvalues : ∀ name, (image.append chunk).symbols.value? name =
      image.symbols.value? name := by
    intro name
    rw [← SymbolTable.value?_foldl_mention image.symbols chunk.fixups.toList,
      Array.foldl_toList]
    rfl
  have hsize : (image.append chunk).bytes.size = image.bytes.size + chunk.bytes.size :=
    Array.size_append
  have hbefore : (image.append chunk).Countable -> image.Countable := by
    unfold Countable
    omega
  refine ⟨h.origin, ?_, ?_, ?_, ?_⟩
  · rcases hlays.room with hnone | hpc
    · rw [Image.apply, pc_append_empty hnone]
      exact h.pc
    · exact hpc
  · intro name n hn
    exact h.value_le ((hvalues name).symm.trans hn)
  · intro hcount
    have hexact := h.exact (hbefore hcount)
    have hpc := h.pc
    have horigin := h.origin
    unfold Countable at hcount
    rw [Image.apply] at hcount ⊢
    rw [pc_append, hsize, hexact, wrap64_of_signed64 ⟨by omega, by omega⟩]
    show _ = image.origin + _
    omega
  · intro hcount name n hn
    exact h.le_value (hbefore hcount) ((hvalues name).symm.trans hn)

/-- A statement with limited numbers keeps to the bounds. -/
theorem Within.apply (h : image.Within low) (hbound : -0x8000000000000000 ≤ low)
    (hlow : low ≤ -128) (hs : s.Limited) {initial : UInt8}
    (heffect : image.effect initial s = .ok e) : (image.apply e).Within low := by
  cases effect_brings heffect with
  | label _ =>
      refine h.bind h.pc fun hcount => ?_
      rw [h.exact hcount]
      exact Int.le_trans h.origin (Int.le_add_of_nonneg_right (Int.natCast_nonneg _))
  | bind ho hn =>
      have hvalue := h.constValue_le (hs _ ho) hn
      exact h.bind hvalue.1 fun hcount => hvalue.2 hcount hlow
  | @origin o address ho hn =>
      -- The address itself is not checked; it is in bounds because its operand is.
      have hmem : o ∈ s.operands := by
        rcases Statement.origin?_eq_some ho with ⟨name, hbody, _⟩
        simp [Statement.operands, hbody]
      have hbytes : image.bytes = #[] := by
        by_contra hplaced
        exact (effect_lays heffect).not_settled (.inr hplaced)
      rcases h.constValue_le (hs o hmem) hn with ⟨hhigh, hleast⟩
      exact h.moveOrigin hbytes (hleast (countable_of_empty hbytes) hlow) hhigh hbound
  | filler => exact ⟨h.origin, h.pc, h.value_le, h.exact, h.le_value⟩
  | append => exact h.append (effect_lays heffect) hbound

end Image

/-!
## Runs
-/

namespace Session

variable {options : Options} {session : Session}

/-- What every accepted statement keeps, a run keeps. -/
theorem foldl_handle_keeps {P : Image -> Prop} {events : List Event}
    (hstep : ∀ {image : Image} {s : Statement} {e : Effect}, .statement s ∈ events ->
      image.effect options.filler s = .ok e -> P image -> P (image.apply e))
    (h : P session.image) : P (events.foldl (handle options) session).image := by
  induction events generalizing session with
  | nil => exact h
  | cons event rest ih =>
      apply ih
      · intro image s e hs
        exact hstep (List.mem_cons_of_mem _ hs)
      · cases event with
        | report d => exact h
        | statement s =>
            cases heffect : session.image.effect options.filler s with
            | error d =>
                rw [handle, emit_of_error heffect]
                exact h
            | ok e =>
                rw [handle, emit_of_ok heffect]
                exact hstep (List.mem_cons_self ..) heffect h

theorem inside_foldl (h : session.image.Inside) (events : List Event) :
    (events.foldl (handle options) session).image.Inside :=
  foldl_handle_keeps (fun _ heffect => (Image.effect_lays heffect).inside) h

theorem settled_foldl (h : session.image.Settled) (events : List Event) :
    (events.foldl (handle options) session).image.Settled ∧
      (events.foldl (handle options) session).image.origin = session.image.origin := by
  refine foldl_handle_keeps (P := fun image =>
    image.Settled ∧ image.origin = session.image.origin) ?_ ⟨h, rfl⟩
  intro image s e _ heffect hkept
  rcases (Image.effect_lays heffect).settled hkept.1 with ⟨hsettled, horigin⟩
  exact ⟨hsettled, horigin.trans hkept.2⟩

theorem within_foldl {low : Int} (h : session.image.Within low)
    (hbound : -0x8000000000000000 ≤ low) (hlow : low ≤ -128)
    {events : List Event} (hevents : ∀ s, .statement s ∈ events -> s.Limited) :
    (events.foldl (handle options) session).image.Within low :=
  foldl_handle_keeps
    (fun hs heffect hwithin => hwithin.apply hbound hlow (hevents _ hs) heffect) h

theorem resume_of_accepted {events : List Event} {reached : Image × Statement}
    (h : reached ∈ session.accepted options events) :
    ∃ (next : Session) (rest : List Event) (e : Effect),
      reached.1.effect options.filler reached.2 = .ok e ∧
      next.image = reached.1.apply e ∧
      events.foldl (handle options) session = rest.foldl (handle options) next := by
  induction events generalizing session with
  | nil => cases h
  | cons event rest ih =>
      cases event with
      | report d => exact ih h
      | statement s =>
          cases heffect : session.image.effect options.filler s with
          | error d =>
              simp only [accepted, not_accepts_of_error heffect] at h
              exact ih h
          | ok e =>
              simp only [accepted, accepts_of_ok heffect, if_true] at h
              rcases List.mem_cons.mp h with rfl | h
              · refine ⟨session.emit options s, rest, e, heffect, ?_, rfl⟩
                rw [emit_of_ok heffect]
              · exact ih h

theorem mem_of_accepted {events : List Event} {reached : Image × Statement}
    (h : reached ∈ session.accepted options events) : .statement reached.2 ∈ events := by
  induction events generalizing session with
  | nil => cases h
  | cons event rest ih =>
      cases event with
      | report d => exact List.mem_cons_of_mem _ (ih h)
      | statement s =>
          simp only [accepted] at h
          split at h
          · rcases List.mem_cons.mp h with rfl | hrest
            · exact List.mem_cons_self ..
            · exact List.mem_cons_of_mem _ (ih hrest)
          · exact List.mem_cons_of_mem _ (ih h)

theorem accepted_append (first second : List Event) :
    session.accepted options (first ++ second) = session.accepted options first ++
      (first.foldl (handle options) session).accepted options second := by
  induction first generalizing session with
  | nil => rfl
  | cons event rest ih =>
      cases event with
      | report d => exact ih
      | statement s =>
          simp only [List.cons_append, accepted, ih]
          split <;> rfl

theorem settled_of_accepted {events : List Event} {reached : Image × Statement}
    (h : reached ∈ session.accepted options events) (ho : reached.2.origin?.isSome) :
    (events.foldl (handle options) session).image.Settled := by
  rcases resume_of_accepted h with ⟨next, rest, e, heffect, hnext, hrun⟩
  have hsettled : next.image.Settled := by
    rw [hnext]
    exact Image.settled_of_origin? ho heffect
  rw [hrun]
  exact (settled_foldl hsettled rest).1

end Session

/-- Past the end of the address space only the highest numbers of 64 bits come round. -/
theorem Image.Inside.stop {image : Image} (h : image.Inside)
    (horigin : Signed64 image.origin) :
    image.bytes = #[] ∨ image.origin + image.bytes.size ≤ 0x10000 ∨
      0x8000000000000000 ≤ image.origin + image.bytes.size := by
  refine h.imp_right fun hpc => ?_
  by_cases hhigh : image.origin + image.bytes.size < 0x8000000000000000
  · have hlow := horigin.1
    rw [Image.pc, wrap64_of_signed64 ⟨by omega, hhigh⟩] at hpc
    exact .inl hpc
  · exact .inr (Int.not_lt.mp hhigh)

/-- In every state of a run, from any origin: what has been placed ends inside the
address space, the end being counted in 64 bits, so that it ends either inside in truth or
past the highest number of 64 bits; and if something has been placed, or a directive that
asks for an address has been accepted, then the origin stays what it is.  If the run starts
inside the address space and its statements are those of sources, then the address of the
next byte and the values of all names never go past the end; and unless there are almost
2^63 bytes, these also end inside in truth, and no value is below both the first origin
and the least number that a source can have. -/
theorem address_space_kept (options : Options) (opening : List Diagnostic)
    (events more : List Event) :
    let start := Session.start options opening
    let session := events.foldl (Session.handle options) start
    let later := more.foldl (Session.handle options) session
    let low := min options.origin (-128)
    let size := session.image.bytes.size
    (session.image.bytes = #[] ∨ wrap64 (session.image.origin + size) ≤ 0x10000) ∧
      (Signed64 session.image.origin -> session.image.bytes = #[] ∨
        session.image.origin + size ≤ 0x10000 ∨
          0x8000000000000000 ≤ session.image.origin + size) ∧
      (session.image.bytes ≠ #[] ∨
          (∃ reached ∈ start.accepted options events, reached.2.origin?.isSome) ->
        later.image.origin = session.image.origin) ∧
      (Signed64 options.origin -> options.origin ≤ 0x10000 ->
        (∀ s, .statement s ∈ events -> s.Parsed) ->
        low ≤ session.image.origin ∧ session.image.pc ≤ 0x10000 ∧
          (∀ name n, session.image.symbols.value? name = some n -> n ≤ 0x10000) ∧
          (size + 0x10000 < 0x8000000000000000 ->
            session.image.origin + size ≤ 0x10000 ∧
              ∀ name n, session.image.symbols.value? name = some n -> low ≤ n)) := by
  intro start session later low size
  have hinside : session.image.Inside := Session.inside_foldl (.inl rfl) events
  refine ⟨hinside, hinside.stop, ?_, ?_⟩
  · intro hplaced
    have hsettled : session.image.Settled := by
      rcases hplaced with hbytes | ⟨reached, hreached, ho⟩
      · exact .inr hbytes
      · exact Session.settled_of_accepted hreached ho
    exact (Session.settled_foldl hsettled more).2
  · intro hsigned horigin hparsed
    have hstart : start.image.Within low := .start _ hsigned (Int.min_le_left ..) horigin
    have hbound : -0x8000000000000000 ≤ low := Int.le_min.mpr ⟨hsigned.1, by decide⟩
    have hwithin : session.image.Within low :=
      Session.within_foldl hstart hbound (Int.min_le_right ..)
        fun s hs => (hparsed s hs).limited
    refine ⟨hwithin.origin, hwithin.pc, fun name n => hwithin.value_le, fun hcount => ?_⟩
    have hpc := hwithin.pc
    rw [hwithin.exact hcount] at hpc
    exact ⟨hpc, fun name n => hwithin.le_value hcount⟩

/-- The last address is taken, a name stands for the end of the address space, and the
origin is not moved any more. -/
theorem address_space_kept_full :
    let events := (Script.ofText
      ".org $fffe\nnop\nhere: nop\nlate: nop".toList).events
    let more := (Script.ofText ".org 0\nnop".toList).events
    let start := Session.start {} []
    let session := events.foldl (Session.handle {}) start
    let later := more.foldl (Session.handle {}) session
    session.image.bytes ≠ #[] ∧ (∀ s, .statement s ∈ events -> s.Parsed) ∧
      session.image.symbols.value? "late".toList = some 0x10000 ∧
      later.image.origin = session.image.origin ∧
      ∀ name n, session.image.symbols.value? name = some n -> n ≤ 0x10000 := by
  intro events more start session later
  have hbytes : session.image.bytes ≠ #[] := by decide +kernel
  have hparsed : ∀ s, .statement s ∈ events -> s.Parsed :=
    fun s hs => ⟨_, Script.mem_statements_iff.mpr hs⟩
  rcases address_space_kept {} [] events more with ⟨_, _, horigin, hbounds⟩
  rcases hbounds (by decide) (by decide) hparsed with ⟨_, _, hvalue, _⟩
  exact ⟨hbytes, hparsed, by decide +kernel, horigin (.inl hbytes), hvalue⟩

/-- Behind the highest number a byte is placed without a diagnostic. -/
example :
    let result := assemble { origin := 0x7FFFFFFFFFFFFFFF } "nop".toList
    result.diagnostics = [] ∧ result.code = #[0xea] := by
  decide +kernel

end Asm6502

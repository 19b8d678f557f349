import Asm6502.Proofs.FixupInvariant
import Asm6502.Proofs.Reassembly
import Asm6502.Proofs.TwoPass

/-!
# Assembling a disassembly

The text of a disassembly is assembled to the code that it was made from.  While
its statements are carried out one by one, the output is the code up to the
current address, except that names of addresses further on are still open.  The
labels bound so far all lie behind the current address and the strings have
numbers that were already given out, so every name is bound only once; and each
name that is waited for is the label of an instruction yet to come.
-/

namespace Asm6502

/-!
## Names of labels and strings
-/

theorem Block.foldCase_labelName (n : Nat) :
    (labelName (n : Int)).foldCase = 'l' :: Text.hex 4 (n : Int) := by
  have hdigits := Text.foldCase_of_digits fun c => @Text.mem_hex 4 n c
  have hletter : lowerChar 'L' = 'l' := by decide
  unfold Text.foldCase at hdigits ⊢
  rw [labelName, List.map_cons, hdigits, hletter]

theorem Block.labelName_inj {x y : Int} (hx : 0 ≤ x) (hy : 0 ≤ y)
    (h : (labelName x).foldCase = (labelName y).foldCase) : x = y := by
  rcases Int.eq_ofNat_of_zero_le hx with ⟨n, rfl⟩
  rcases Int.eq_ofNat_of_zero_le hy with ⟨m, rfl⟩
  rw [foldCase_labelName, foldCase_labelName, List.cons.injEq] at h
  rw [Text.hex_inj h.2]

theorem Data.foldCase_stringName (n : Nat) :
    (stringName (n : Int)).foldCase = stringName (n : Int) := by
  have hdigits := Text.foldCase_of_digits fun c => @Text.mem_decimal n c
  have hletters : Text.foldCase "string".toList = "string".toList := by decide
  exact (List.map_append ..).trans (congrArg₂ (· ++ ·) hletters hdigits)

theorem Data.stringName_inj {n m : Nat}
    (h : (stringName (n : Int)).foldCase = (stringName (m : Int)).foldCase) :
    n = m := by
  rw [foldCase_stringName, foldCase_stringName] at h
  exact Text.decimal_inj (List.append_cancel_left h)

theorem Data.stringName_ne_labelName (n : Nat) {x : Int} (hx : 0 ≤ x) :
    (stringName (n : Int)).foldCase ≠ (Block.labelName x).foldCase := by
  intro h
  rcases Int.eq_ofNat_of_zero_le hx with ⟨m, rfl⟩
  rw [foldCase_stringName, Block.foldCase_labelName] at h
  have hhead : 's' = 'l' := (List.cons.inj h).1
  cases hhead

/-!
## Symbol tables
-/

namespace SymbolTable

/-- The name is that of a label below the limit whose address is the value, or that
of a string below the number. -/
def IsPrinted (limit : Int) (number : Nat) (name : Text) (value : Int) : Prop :=
  (0 ≤ value ∧ value < limit ∧
      name.foldCase = (Block.labelName value).foldCase) ∨
    ∃ k < number, name.foldCase = (Data.stringName (k : Nat)).foldCase

structure Names (labels : Std.TreeSet Int compare) (limit : Int) (number : Nat)
    (table : SymbolTable) : Prop where
  bound : ∀ {name : Text} {binding : Symbol.Binding},
    table.binding? name = some binding ->
      IsPrinted limit number name binding.value
  pending : ∀ {key : Text} {symbol : Symbol},
    table.entries[key]? = some symbol -> symbol.binding = none ->
      ∃ x ∈ labels, key = (Block.labelName x).foldCase

namespace Names

variable {labels : Std.TreeSet Int compare} {limit : Int} {number : Nat}
  {table : SymbolTable}

theorem empty (labels : Std.TreeSet Int compare) (limit : Int) (number : Nat) :
    SymbolTable.empty.Names labels limit number := by
  constructor
  · intro name binding h
    simp [binding?] at h
  · intro key symbol h
    simp [SymbolTable.empty] at h

theorem agrees (h : table.Names labels limit number)
    (hlabels : ∀ x ∈ labels, 0 ≤ x) : table.Agrees labels := by
  intro x hx n hvalue
  rcases value?_eq_some_iff.mp hvalue with ⟨kind, hbinding⟩
  rcases h.bound hbinding with ⟨hn, _, hname⟩ | ⟨k, _, hname⟩
  · exact (Block.labelName_inj (hlabels x hx) hn hname).symm
  · exact absurd hname.symm (Data.stringName_ne_labelName k (hlabels x hx))

theorem duplicate?_label (h : table.Names labels limit number) {x : Int}
    (hx : 0 ≤ x) (hlimit : limit ≤ x) :
    table.duplicate? (Block.labelName x) = none := by
  rw [duplicate?_eq_none_iff, Option.eq_none_iff_forall_ne_some]
  intro binding hbinding
  rcases h.bound hbinding with ⟨hy, hlt, hname⟩ | ⟨k, _, hname⟩
  · have hsame := Block.labelName_inj hx hy hname
    omega
  · exact Data.stringName_ne_labelName k hx hname.symm

theorem duplicate?_string (h : table.Names labels limit number) :
    table.duplicate? (Data.stringName number) = none := by
  rw [duplicate?_eq_none_iff, Option.eq_none_iff_forall_ne_some]
  intro binding hbinding
  rcases h.bound hbinding with ⟨hy, _, hname⟩ | ⟨k, hk, hname⟩
  · exact Data.stringName_ne_labelName number hy hname
  · have hsame := Data.stringName_inj hname
    omega

theorem mono (h : table.Names labels limit number) {limit' : Int} {number' : Nat}
    (hlimit : limit ≤ limit') (hnumber : number ≤ number') :
    table.Names labels limit' number' := by
  refine ⟨?_, h.pending⟩
  intro name binding hbinding
  rcases h.bound hbinding with ⟨hvalue, hlt, hname⟩ | ⟨k, hk, hname⟩
  · exact Or.inl ⟨hvalue, Int.lt_of_lt_of_le hlt hlimit, hname⟩
  · exact Or.inr ⟨k, Nat.lt_of_lt_of_le hk hnumber, hname⟩

theorem bind (h : table.Names labels limit number) {name : Text}
    {binding : Symbol.Binding}
    (hname : IsPrinted limit number name binding.value) :
    (table.bind name binding).Names labels limit number := by
  constructor
  · intro other bound hbound
    by_cases hsame : name.foldCase = other.foldCase
    · rw [binding?_bind_same table binding hsame] at hbound
      cases hbound
      unfold IsPrinted
      rw [← hsame]
      exact hname
    · rw [binding?_bind_other table binding hsame] at hbound
      exact h.bound hbound
  · intro key symbol hkey hpending
    rw [getElem?_bind] at hkey
    split at hkey
    · cases hkey
      cases hpending
    · exact h.pending hkey hpending

theorem mention (h : table.Names labels limit number) {x : Int} (hx : x ∈ labels)
    (position : Position) :
    (table.mention (Block.labelName x) position).Names labels limit number := by
  constructor
  · intro other bound hbound
    rw [binding?_mention] at hbound
    exact h.bound hbound
  · intro key symbol hkey hpending
    rw [getElem?_mention] at hkey
    split at hkey
    · rename_i hsame
      exact ⟨x, hx, hsame.symm⟩
    · exact h.pending hkey hpending

theorem foldl_mention (h : table.Names labels limit number) {fixups : List Fixup}
    (hfixups : ∀ f ∈ fixups, ∃ x ∈ labels, f.name = Block.labelName x) :
    (fixups.foldl (fun t f => t.mention f.name f.position) table).Names labels
      limit number := by
  induction fixups generalizing table with
  | nil => exact h
  | cons f rest ih =>
      rcases hfixups f (List.mem_cons_self ..) with ⟨x, hx, hname⟩
      rw [List.foldl_cons, hname]
      exact ih (h.mention hx f.position)
        fun g hg => hfixups g (List.mem_cons_of_mem _ hg)

theorem undefinedReports_eq_nil (h : table.Names labels limit number)
    (hresolves : table.Resolves labels) : table.undefinedReports = [] := by
  have hdefined : ∀ symbol ∈ table.toList, symbol.isDefined = true := by
    intro symbol hsymbol
    rcases mem_toList.mp hsymbol with ⟨key, hentry⟩
    cases hbinding : symbol.binding with
    | some binding => simp [Symbol.isDefined, hbinding]
    | none =>
        rcases h.pending hentry hbinding with ⟨x, hx, rfl⟩
        have hvalue := hresolves x hx
        have hlookup : table.lookup? (Block.labelName x) = some symbol := hentry
        simp [value?, binding?, hlookup, hbinding] at hvalue
  have hpending : table.pending = [] := by
    rw [SymbolTable.pending, List.filter_eq_nil_iff]
    intro symbol hsymbol
    simp [hdefined symbol hsymbol]
  simp [undefinedReports, pendingByPosition, hpending]

end Names
end SymbolTable

/-!
## Steps of the run
-/

namespace Session

/-- A label that is not bound yet begins one of the blocks that remain. -/
def Awaits (labels : Std.TreeSet Int compare) (blocks : List Block)
    (session : Session) : Prop :=
  ∀ x ∈ labels, session.image.symbols.value? (Block.labelName x) = some x ∨
    ∃ d, .code d ∈ blocks ∧ d.address = x

theorem Awaits.resolves {labels : Std.TreeSet Int compare} {session : Session}
    (h : session.Awaits labels []) : session.image.symbols.Resolves labels := by
  intro x hx
  rcases h x hx with hvalue | ⟨d, hd, _⟩
  · exact hvalue
  · cases hd

/-- The statements of a block bind its label. -/
theorem Awaits.foldl_emit {labels : Std.TreeSet Int compare} {first : Block}
    {rest : List Block} {session : Session}
    (h : session.Awaits labels (first :: rest)) (options : Options)
    (statements : List Statement)
    (hfirst : ∀ d, first = .code d -> d.address ∈ labels ->
      (statements.foldl (emit options) session).image.symbols.value?
        (Block.labelName d.address) = some d.address) :
    (statements.foldl (emit options) session).Awaits labels rest := by
  intro x hx
  rcases h x hx with hbound | ⟨d, hd, rfl⟩
  · exact Or.inl ((foldl_emit_grows options session statements).value? hbound)
  · rcases List.mem_cons.mp hd with hnow | hlater
    · exact Or.inl (hfirst d hnow.symm hx)
    · exact Or.inr ⟨d, hlater, rfl⟩

/-- The bytes written so far are in the output, up to labels that are yet to come,
and nothing was reported. -/
structure Rebuilds (labels : Std.TreeSet Int compare) (origin limit : Int)
    (number : Nat) (written : List UInt8) (session : Session) : Prop where
  silent : session.diagnostics = #[]
  begins : session.image.origin = origin
  output : ∃ items, session.image.LaidOut items ∧
    Layout.Yields labels origin items written
  names : session.image.symbols.Names labels limit number

namespace Rebuilds

variable {labels : Std.TreeSet Int compare} {origin limit : Int} {number : Nat}
  {written bytes : List UInt8} {session : Session}

theorem pc (h : session.Rebuilds labels origin limit number written) :
    session.image.pc = wrap64 (origin + written.length) := by
  rcases h.output with ⟨items, hlaid, hyields⟩
  rw [Image.pc, h.begins, hlaid.size, hyields.size]

theorem pc_append {limit' : Int} {number' : Nat} {next : Session}
    (hnext : next.Rebuilds labels origin limit' number' (written ++ bytes))
    (h : session.Rebuilds labels origin limit number written)
    (hroom : session.image.pc + bytes.length ≤ Image.addressSpace) :
    next.image.pc = session.image.pc + bytes.length := by
  rw [← Image.wrap64_pc_add hroom, hnext.pc, h.pc, wrap64_add_left, List.length_append,
    Int.natCast_add, Int.add_assoc]

theorem mono (h : session.Rebuilds labels origin limit number written)
    {limit' : Int} {number' : Nat} (hlimit : limit ≤ limit')
    (hnumber : number ≤ number') :
    session.Rebuilds labels origin limit' number' written :=
  ⟨h.silent, h.begins, h.output, h.names.mono hlimit hnumber⟩

variable (options : Options)

theorem define (h : session.Rebuilds labels origin limit number written)
    {s : Statement} {name : Text} (hs : s.content = .label name)
    (hfree : session.image.symbols.duplicate? name = none)
    (hname : SymbolTable.IsPrinted limit number name session.image.pc) :
    (session.emit options s).Rebuilds labels origin limit number written ∧
      (session.emit options s).image.symbols.value? name =
        some session.image.pc := by
  have heffect : session.image.effect options.filler s =
      .ok (.define name ⟨.label, session.image.pc⟩) := by
    simp only [Image.effect, s.body_of_label hs, Image.define?, hfree]
  rcases h.output with ⟨items, hlaid, hyields⟩
  rw [emit_of_ok heffect]
  refine ⟨⟨h.silent, h.begins, ⟨items, hlaid.define hfree, hyields⟩, ?_⟩, ?_⟩
  · exact h.names.bind hname
  · rw [SymbolTable.value?_eq_some_iff]
    exact ⟨.label, SymbolTable.binding?_bind_same _ _ rfl⟩

theorem label (h : session.Rebuilds labels origin limit number written) {x : Int}
    (hpc : session.image.pc = x) (hx : 0 ≤ x) (hlimit : limit ≤ x) {s : Statement}
    (hs : s.content = .label (Block.labelName x)) :
    (session.emit options s).Rebuilds labels origin (x + 1) number written ∧
      (session.emit options s).image.symbols.value? (Block.labelName x) =
        some x := by
  have hfree := h.names.duplicate?_label hx hlimit
  have hmono : session.Rebuilds labels origin (x + 1) number written :=
    h.mono (by omega) (Nat.le_refl _)
  have hname : SymbolTable.IsPrinted (x + 1) number (Block.labelName x)
      session.image.pc := by
    rw [hpc]
    exact Or.inl ⟨hx, Int.lt_add_one_of_le (Int.le_refl x), rfl⟩
  have hdefine := hmono.define options hs hfree hname
  rw [hpc] at hdefine
  exact hdefine

theorem string (h : session.Rebuilds labels origin limit number written)
    {s : Statement} (hs : s.content = .label (Data.stringName number)) :
    (session.emit options s).Rebuilds labels origin limit (number + 1) written := by
  have hfree := h.names.duplicate?_string
  have hmono := h.mono (Int.le_refl _) (Nat.le_succ number)
  exact (hmono.define options hs hfree
    (Or.inr ⟨number, Nat.lt_succ_self number, rfl⟩)).1

theorem stringOf (h : session.Rebuilds labels origin limit number written)
    {statements : List Statement}
    (hs : statements.map Statement.content =
      if number < Data.numberLimit then [.label (Data.stringName number)] else []) :
    (statements.foldl (emit options) session).Rebuilds labels origin limit (number + 1)
      written := by
  split at hs
  · rcases List.map_eq_singleton_iff.mp hs with ⟨s, rfl, hlabel⟩
    exact h.string options hlabel
  · cases List.map_eq_nil_iff.mp hs
    exact h.mono (Int.le_refl _) (Nat.le_succ number)

theorem place (h : session.Rebuilds labels origin limit number written)
    {s : Statement} (hs : session.image.Places options.filler labels s bytes) :
    (session.emit options s).Rebuilds labels origin limit number
      (written ++ bytes) := by
  rcases h.output with ⟨items, hlaid, hyields⟩
  rcases hs with ⟨chunk, more, heffect, hlays, hmore⟩
  have hfixups : ∀ f ∈ chunk.fixups.toList,
      ∃ x ∈ labels, f.name = Block.labelName x := by
    intro f hf
    rw [hlays.fixups] at hf
    rcases Layout.isOpen_of_mem_fixups hf with ⟨before, g, after, rfl, _, rfl⟩
    exact hmore.named (List.mem_append_right _ (List.mem_cons_self ..))
  have hsame : wrap64 session.image.pc = wrap64 (origin + written.length) := by
    rw [h.pc, wrap64_wrap64]
  rw [emit_of_ok heffect]
  refine ⟨h.silent, h.begins,
    ⟨_, hlaid.append hlays, hyields.append (hmore.congr hsame)⟩, ?_⟩
  have hnames := h.names.foldl_mention hfixups
  simpa only [Image.apply, Image.append, ← Array.foldl_toList] using hnames

/-!
## Runs over segments and blocks
-/

theorem rows (h : session.Rebuilds labels origin limit number written)
    {table : List (List UInt8)}
    (htable : ∀ row ∈ table, row ≠ [] ∧ row.length ≤ 16)
    (hroom : session.image.pc + table.flatten.length ≤ Image.addressSpace)
    {statements : List Statement}
    (hs : statements.map Statement.content =
      table.map fun row => .directive "byte".toList (Data.byteForms row)) :
    (statements.foldl (emit options) session).Rebuilds labels origin limit number
      (written ++ table.flatten) := by
  induction table generalizing session written statements with
  | nil =>
      rw [List.map_eq_nil_iff.mp hs, List.flatten_nil, List.append_nil]
      exact h
  | cons row rest ih =>
      rcases List.map_eq_cons_iff.mp hs with ⟨s, later, rfl, hfirst, hlater⟩
      rcases htable row (List.mem_cons_self ..) with ⟨hne, hshort⟩
      rw [List.flatten_cons, List.length_append, Int.natCast_add] at hroom
      have hplaces := @Data.places_row labels session.image row hne hshort
        (by omega) s hfirst options.filler
      have hnext := h.place options hplaces
      have hpc := hnext.pc_append h (by omega)
      rw [List.foldl_cons, List.flatten_cons, ← List.append_assoc]
      exact ih hnext (fun row hrow => htable row (List.mem_cons_of_mem _ hrow))
        (by omega) hlater

theorem segment (h : session.Rebuilds labels origin limit number written)
    {segment : Data.Segment} (hsound : segment.Sound)
    (hroom : session.image.pc + segment.data.length ≤ Image.addressSpace)
    {statements : List Statement}
    (hs : statements.map Statement.content = segment.contents number) :
    (statements.foldl (emit options) session).Rebuilds labels origin limit
      (if segment.isString then number + 1 else number)
      (written ++ segment.data) := by
  cases segment with
  | string contents terminated =>
      rcases List.map_eq_append_iff.mp hs with ⟨first, second, rfl, hlabel, hsecond⟩
      rcases List.map_eq_singleton_iff.mp hsecond with ⟨s, rfl, hstring⟩
      have hnext := h.stringOf options hlabel
      rw [h.pc, ← hnext.pc] at hroom
      rw [List.foldl_append]
      exact hnext.place options
        (Data.places_string terminated hsound hroom hstring options.filler)
  | bytes contents =>
      have htable : ∀ row ∈ Data.rows contents, row ≠ [] ∧ row.length ≤ 16 :=
        fun row hrow =>
          ⟨Data.ne_nil_of_mem_rows hrow, Data.length_le_of_mem_rows hrow⟩
      have hflatten := Data.flatten_rows contents
      have hrows := h.rows options htable (by rw [hflatten]; exact hroom) hs
      rw [hflatten] at hrows
      exact hrows

theorem segments (h : session.Rebuilds labels origin limit number written)
    {list : List Data.Segment} (hsound : ∀ s ∈ list, s.Sound)
    (hroom : session.image.pc + (list.flatMap Data.Segment.data).length ≤
      Image.addressSpace)
    {statements : List Statement}
    (hs : statements.map Statement.content = Data.contents number list) :
    (statements.foldl (emit options) session).Rebuilds labels origin limit
      (number + list.countP Data.Segment.isString)
      (written ++ list.flatMap Data.Segment.data) := by
  induction list generalizing session written number statements with
  | nil =>
      rw [List.map_eq_nil_iff.mp hs, List.flatMap_nil, List.append_nil]
      exact h
  | cons first rest ih =>
      rcases List.map_eq_append_iff.mp hs with ⟨now, later, rfl, hnow, hlater⟩
      rw [List.flatMap_cons, List.length_append, Int.natCast_add] at hroom
      have hnext := h.segment options (hsound first (List.mem_cons_self ..))
        (by omega) hnow
      have hpc := hnext.pc_append h (by omega)
      have hrest := ih hnext (fun s hs => hsound s (List.mem_cons_of_mem _ hs))
        (by omega) hlater
      have hcount : (if first.isString then number + 1 else number) +
          rest.countP Data.Segment.isString =
            number + (first :: rest).countP Data.Segment.isString := by
        rw [List.countP_cons]
        split <;> omega
      rw [List.foldl_append, List.flatMap_cons, ← List.append_assoc, ← hcount]
      exact hrest

theorem labelOf (h : session.Rebuilds labels origin limit number written)
    {d : Decoded} (hpc : session.image.pc = d.address) (haddress : 0 ≤ d.address)
    (hlimit : limit ≤ d.address) {statements : List Statement}
    (hs : statements.map Statement.content =
      if labels.contains d.address then [.label (Block.labelName d.address)]
      else []) :
    let next := statements.foldl (emit options) session
    next.Rebuilds labels origin (d.address + 1) number written ∧
      (d.address ∈ labels -> next.image.symbols.value?
        (Block.labelName d.address) = some d.address) := by
  split at hs
  · rcases List.map_eq_singleton_iff.mp hs with ⟨s, rfl, hlabel⟩
    rcases h.label options hpc haddress hlimit hlabel with ⟨hnext, hvalue⟩
    exact ⟨hnext, fun _ => hvalue⟩
  · rename_i habsent
    cases List.map_eq_nil_iff.mp hs
    refine ⟨h.mono (by omega) (Nat.le_refl _), ?_⟩
    intro hmem
    exact absurd (Std.TreeSet.contains_iff_mem.mpr hmem) habsent

theorem instruction (h : session.Rebuilds labels origin limit number written)
    (hlabels : ∀ x ∈ labels, 0 ≤ x) {d : Decoded} (hd : d.Faithful)
    (hpc : session.image.pc = d.address) (haddress : 0 ≤ d.address)
    (hlimit : limit ≤ d.address)
    (hroom : d.address + d.bytes.length ≤ Image.addressSpace)
    {statements : List Statement}
    (hs : statements.map Statement.content = d.contents labels) :
    let next := statements.foldl (emit options) session
    next.Rebuilds labels origin (d.address + 1) number (written ++ d.bytes) ∧
      (d.address ∈ labels -> next.image.symbols.value?
        (Block.labelName d.address) = some d.address) := by
  intro next
  rcases List.map_eq_append_iff.mp hs with ⟨first, second, hsplit, hfirst, hsecond⟩
  rcases List.map_eq_singleton_iff.mp hsecond with ⟨s, rfl, hinstruction⟩
  have hnext : next = (first.foldl (emit options) session).emit options s := by
    simp only [next, hsplit, List.foldl_append, List.foldl_cons, List.foldl_nil]
  rcases h.labelOf options hpc haddress hlimit hfirst with ⟨hlabel, hvalue⟩
  have hat : (first.foldl (emit options) session).image.pc = d.address := by
    rw [hlabel.pc, ← h.pc, hpc]
  have hagrees := hlabel.names.agrees hlabels
  rw [← hat] at hroom
  rw [hnext]
  refine ⟨hlabel.place options (d.places hd hat hroom hagrees hinstruction _), ?_⟩
  intro hmem
  exact (emit_grows options _ s).value? (hvalue hmem)

theorem blocks (hlabels : ∀ x ∈ labels, 0 ≤ x) {address : Int}
    {list : List Block} {code : List UInt8} (hcovers : Block.Covers address list code)
    (h : session.Rebuilds labels origin limit number written)
    (hpc : session.image.pc = address) (haddress : 0 ≤ address)
    (hlimit : limit ≤ address)
    (hroom : address + code.length ≤ Image.addressSpace)
    (hawaits : session.Awaits labels list) {statements : List Statement}
    (hs : statements.map Statement.content =
      Disassembly.contents labels number list) :
    let last := statements.foldl (emit options) session
    (∃ limit number,
        last.Rebuilds labels origin limit number (written ++ code)) ∧
      last.image.symbols.Resolves labels := by
  intro last
  -- Along the sweep: each block finds the session as the one before it left it.
  induction hcovers generalizing session limit number written statements with
  | nil address =>
      cases List.map_eq_nil_iff.mp hs
      rw [List.append_nil]
      exact ⟨⟨limit, number, h⟩, hawaits.resolves⟩
  | @code address d rest more hfaithful hat _ ih =>
      rcases List.map_eq_append_iff.mp hs with ⟨now, later, rfl, hnow, hlater⟩
      rw [List.length_append, Int.natCast_add] at hroom
      have hpos : 0 < d.bytes.length := by
        rw [hfaithful.bytes_eq]
        exact Nat.succ_pos _
      have hsize : d.size = d.bytes.length := rfl
      subst hat
      -- The limit moves behind the label of this instruction, but not behind the next.
      rcases h.instruction options hlabels hfaithful hpc haddress hlimit (by omega)
        hnow with ⟨hnext, hvalue⟩
      have hmoved := hnext.pc_append h (by omega)
      have hawaits' := hawaits.foldl_emit options now fun _ hfirst => by
        cases hfirst
        exact hvalue
      have hlast := ih hnext (by omega) (by omega) (by omega) (by omega) hawaits'
        hlater
      rw [List.append_assoc] at hlast
      simpa only [last, List.foldl_append] using hlast
  | @data address bytes rest more _ _ ih =>
      rcases List.map_eq_append_iff.mp hs with ⟨now, later, rfl, hnow, hlater⟩
      rw [List.length_append, Int.natCast_add] at hroom
      have hdata := Data.flatMap_segments bytes
      have hnext := h.segments options (fun _ => Data.sound_segments)
        (by rw [hdata]; omega) hnow
      rw [hdata] at hnext
      have hmoved := hnext.pc_append h (by omega)
      have hawaits' := hawaits.foldl_emit options now fun _ hfirst => nomatch hfirst
      have hlast := ih hnext (by omega) (by omega) (by omega) (by omega) hawaits'
        hlater
      rw [List.append_assoc] at hlast
      simpa only [last, List.foldl_append] using hlast

/-- At the end the fields that were left open are filled in and nothing is
reported. -/
theorem finish (h : session.Rebuilds labels origin limit number written)
    (hresolves : session.image.symbols.Resolves labels) :
    session.finish.diagnostics = #[] ∧
      session.finish.image.bytes.toList = written := by
  rcases h.output with ⟨items, hlaid, hyields⟩
  have hundefined := h.names.undefinedReports_eq_nil hresolves
  have hcode := hyields.encoded hresolves
  have hmisfits := hyields.misfits hresolves
  rw [← h.begins] at hcode hmisfits
  simp only [Session.finish, hlaid.applyAll, hcode, hmisfits, hundefined, h.silent]
  simp

end Rebuilds
end Session

/-!
## The round trip
-/

namespace Disassembly

theorem org_effect {image : Image} (hempty : image.bytes = #[])
    (hset : image.originSet = false) {origin : Int} {s : Statement}
    (hs : s.content = .directive "org".toList [.plain (.number origin)])
    (initial : UInt8) : image.effect initial s = .ok (.moveOrigin origin) := by
  rcases s.body_of_directive hs with ⟨operands, hbody, hoperands⟩
  rcases Operand.eq_one_of_forms hoperands with ⟨p, rfl⟩
  have hname : Directive.ofName? "org".toList = some .org := by decide
  simp only [Image.effect, hbody, hname]
  show image.orgEffect _ _ = _
  simp [Image.orgEffect, Image.constValue, hempty, hset, bind, Except.bind]

theorem rebuilds_org (labels : Std.TreeSet Int compare) {origin : Int}
    {statements : List Statement}
    (hs : statements.map Statement.content =
      if origin = 0 then []
      else [.directive "org".toList [.plain (.number origin)]]) :
    (statements.foldl (Session.emit {}) (Session.start {} [])).Rebuilds labels
      origin origin 1 [] := by
  have hstart : (Image.start 0 0xEA).LaidOut [] := .start 0 0xEA
  have hnames := SymbolTable.Names.empty labels origin 1
  split at hs
  · rename_i hzero
    cases List.map_eq_nil_iff.mp hs
    exact ⟨rfl, hzero.symm, ⟨[], hstart, .nil origin⟩, hnames⟩
  · rcases List.map_eq_singleton_iff.mp hs with ⟨s, rfl, horg⟩
    have heffect : (Session.start {} []).image.effect ({} : Options).filler s =
        .ok (.moveOrigin origin) := org_effect rfl rfl horg _
    rw [List.foldl_cons, List.foldl_nil, Session.emit_of_ok heffect]
    exact ⟨rfl, rfl, ⟨[], hstart.moveOrigin rfl, .nil origin⟩, hnames⟩

/-- The statements of a disassembly rebuild the code. -/
theorem rebuilds_program {origin : Int} {code : List UInt8} (horigin : 0 ≤ origin)
    (hfits : origin + code.length ≤ Image.addressSpace)
    {statements : List Statement}
    (hs : statements.map Statement.content = program origin code) :
    let last := statements.foldl (Session.emit {}) (Session.start {} [])
    ∃ labels limit number, last.Rebuilds labels origin limit number code ∧
      last.image.symbols.Resolves labels := by
  intro last
  let blocks := Block.sweep origin code
  have hspace : Image.addressSpace = 0x10000 := rfl
  have hsigned : Signed64 origin := ⟨by omega, by omega⟩
  have hcovers : Block.Covers origin blocks code :=
    Block.covers_sweep hsigned ⟨by omega, by omega⟩
  rcases List.map_eq_append_iff.mp hs with ⟨first, second, rfl, hfirst, hsecond⟩
  have horg := rebuilds_org (Block.labels blocks) hfirst
  have hlabels : ∀ x ∈ Block.labels blocks, 0 ≤ x := fun _ => Block.nonneg_of_mem_labels
  have hpc : (first.foldl (Session.emit {}) (Session.start {} [])).image.pc =
      origin := by
    rw [horg.pc, List.length_nil, Int.natCast_zero, Int.add_zero, wrap64_of_signed64 hsigned]
  have hawaits : (first.foldl (Session.emit {}) (Session.start {} [])).Awaits
      (Block.labels blocks) blocks :=
    fun x hx => Or.inr (Block.mem_labels.mp hx).2
  rcases Session.Rebuilds.blocks {} hlabels hcovers horg hpc horigin
    (Int.le_refl origin) hfits hawaits hsecond with
    ⟨⟨limit, number, hlast⟩, hresolves⟩
  rw [← List.foldl_append] at hlast hresolves
  exact ⟨Block.labels blocks, limit, number, hlast, hresolves⟩

theorem assemble_lines {origin : Int} {code : List UInt8} (horigin : 0 ≤ origin)
    (hfits : origin + code.length ≤ Image.addressSpace) (hcode : code ≠ []) :
    let result := assemble {} (Text.ofLines (lines .source origin code))
    result.diagnostics = [] ∧ result.code.toList = code ∧ result.origin = origin := by
  intro result
  have hpos := List.length_pos_iff.mpr hcode
  have hspace : Image.addressSpace = 0x10000 := rfl
  rcases Int.eq_ofNat_of_zero_le horigin with ⟨n, rfl⟩
  have hn : n + code.length ≤ 0x10000 := by omega
  rcases Script.ofText_ofLines (says_lines hcode hn) with
    ⟨statements, hstatements, hscript⟩
  let last := statements.foldl (Session.emit {}) (Session.start {} [])
  have hresult : result = .ofSession {} last.finish := by
    simp only [result, assemble, hscript, last, List.foldl_map]
    rfl
  rcases rebuilds_program horigin hfits hstatements with
    ⟨labels, limit, number, hrebuilds, hresolves⟩
  rcases hrebuilds.finish hresolves with ⟨hdiagnostics, hbytes⟩
  rw [hresult]
  refine ⟨?_, hbytes, hrebuilds.begins⟩
  show last.finish.diagnostics.toList = []
  rw [hdiagnostics]

end Disassembly

/-- Code that fits into the address space has a disassembly.  Assembling that text
reports nothing and gives the code again, at the origin where it was. -/
theorem assemble_disassemble (code : List UInt8) (origin : Int) (horigin : 0 ≤ origin)
    (hfits : origin + code.length ≤ 0x10000) :
    ∃ text, disassemble origin code = .ok text ∧
      (assemble {} text).diagnostics = [] ∧
      (assemble {} text).code.toList = code ∧
      (code ≠ [] -> (assemble {} text).origin = origin) := by
  have hinside : (decide (origin < 0) ||
      decide (0x10000 < wrap64 (origin + code.length))) = false := by
    rw [wrap64_of_signed64 ⟨by omega, by omega⟩]
    simp only [Bool.or_eq_false_iff, decide_eq_false_iff_not]
    omega
  unfold disassemble Disassembly.render
  rw [hinside]
  by_cases hcode : code = []
  · subst hcode
    exact ⟨[], rfl, by decide +kernel, by decide +kernel, fun h => absurd rfl h⟩
  · rcases Disassembly.assemble_lines horigin hfits hcode with
      ⟨hdiagnostics, hbytes, hat⟩
    refine ⟨_, ?_, hdiagnostics, hbytes, fun _ => hat⟩
    simp [hcode]

/-- A branch forward and a jump back, then a byte that is no instruction and a
string with quotes in it. -/
theorem assemble_disassemble_quoted :
    let code : List UInt8 := [0xd0, 3, 0x4c, 0, 6, 0x60, 0xff, 0x22, 0x47, 0x4f, 0x22]
    let text := ("    .org $0600\nL0600:\n    bne  L0605\n    jmp  L0600\n" ++
      "L0605:\n    rts\n    .byte $ff\nstring1:\n    .text \"\\\"GO\\\"\"\n").toList
    (0 : Int) ≤ 0x600 ∧ (0x600 : Int) + code.length ≤ 0x10000 ∧
      disassemble 0x600 code = .ok text ∧
      (assemble {} text).diagnostics = [] ∧ (assemble {} text).code.toList = code ∧
      (assemble {} text).origin = 0x600 := by
  intro code text
  have htext : disassemble 0x600 code = .ok text := by decide +kernel
  rcases assemble_disassemble code 0x600 (by decide) (by decide) with
    ⟨_, hsame, hdiagnostics, hcode, horigin⟩
  cases htext.symm.trans hsame
  exact ⟨by decide, by decide, htext, hdiagnostics, hcode, horigin (by decide)⟩

end Asm6502

import Asm6502.Proofs.SymbolListings
import Asm6502.Proofs.UndefinedReports

/-!
# Positions of symbols

A symbol gets its position from a reference, and only a reference to a pending name is
entered into the table.  So the position of a symbol is that of the first reference in a
statement before its definition; if there is none, it stays zero, and the place of the
definition is never recorded.
-/

namespace Asm6502

namespace Statement

def mentions (s : Statement) : List Mention :=
  s.valued.filterMap Operand.mention?

def definedAt (s : Statement) : Position :=
  match s.body with
  | .directive _ (name :: _) => name.position
  | _ => s.position

end Statement

def Mention.toName (name : Text) (mentions : List Mention) : List Mention :=
  mentions.filter fun m => m.name.foldCase = name.foldCase

/-!
## Pending references
-/

theorem SymbolTable.value?_congr (table : SymbolTable) {name other : Text}
    (h : name.foldCase = other.foldCase) : table.value? name = table.value? other := by
  rw [value?, value?, binding?, binding?, table.lookup?_congr h]

namespace Image

variable {image : Image} {s : Statement} {name : Text}

theorem pendingMentions_eq (image : Image) (s : Statement) :
    image.pendingMentions s =
      s.mentions.filter fun m => (image.symbols.value? m.name).isNone := by
  rw [Statement.mentions, List.filter_filterMap]
  rfl

theorem toName_pending_of_unbound (h : image.symbols.value? name = none) :
    Mention.toName name (image.pendingMentions s) = Mention.toName name s.mentions := by
  rw [pendingMentions_eq, Mention.toName, Mention.toName, List.filter_filter]
  apply List.filter_congr
  intro m _
  by_cases hm : m.name.foldCase = name.foldCase
  · have hvalue := image.symbols.value?_congr hm
    simp [hm, hvalue, h]
  · simp [hm]

theorem toName_pending_of_bound (h : image.symbols.value? name ≠ none) :
    Mention.toName name (image.pendingMentions s) = [] := by
  rw [pendingMentions_eq, Mention.toName, List.filter_filter, List.filter_eq_nil_iff]
  intro m _
  by_cases hm : m.name.foldCase = name.foldCase
  · have hvalue := image.symbols.value?_congr hm
    simp [hm, hvalue, h]
  · simp [hm]

theorem Lays.free {t : Text} {binding : Symbol.Binding} {items : List Item}
    (h : image.Lays (.define t binding) items) : image.symbols.value? t = none := by
  cases h with
  | define hfree =>
      rw [SymbolTable.value?, SymbolTable.duplicate?_eq_none_iff.mp hfree]
      rfl

theorem effect_of_defines {initial : UInt8} {e : Effect} {t : Text}
    (h : image.effect initial s = .ok e) (ht : s.defines? = some t) :
    image.symbols.value? t = none ∧ image.pendingMentions s = [] := by
  have henters := effect_enters h
  rw [ht] at henters
  cases e with
  | define name binding =>
      cases henters.name
      exact ⟨(effect_lays h).free, henters.mentions.symm⟩
  | moveOrigin | setFiller | append => cases henters.name

end Image

/-!
## Runs
-/

namespace Session

variable {options : Options} {session : Session} {events : List Event}
  {before later : List (Image × Statement)} {reached : Image × Statement}

/-- At every accepted statement the table records what the statements before it did. -/
theorem records_of_accepted {calls : List SymbolTable.Call}
    (h : session.image.symbols.Records calls)
    (hsplit : session.accepted options events = before ++ reached :: later) :
    reached.1.symbols.Records
      (calls ++ before.flatMap fun r => r.1.calls options.filler r.2) := by
  induction events generalizing session calls before with
  | nil => simp [accepted] at hsplit
  | cons event rest ih =>
      cases event with
      | report d => exact @ih (session.report d) before calls h hsplit
      | statement s =>
          cases heffect : session.image.effect options.filler s with
          | error d =>
              simp only [accepted, not_accepts_of_error heffect, emit_of_error heffect] at hsplit
              exact @ih (session.report d) before calls h hsplit
          | ok e =>
              simp only [accepted, accepts_of_ok heffect, if_true] at hsplit
              cases before with
              | nil =>
                  cases hsplit
                  simpa using h
              | cons first more =>
                  rw [List.cons_append, List.cons.injEq] at hsplit
                  rcases hsplit with ⟨rfl, hrest⟩
                  have hnext : (session.emit options s).image.symbols.Records
                      (calls ++ e.calls) := by
                    rw [emit_of_ok heffect]
                    exact h.apply (Image.effect_lays heffect)
                  have hlater := ih hnext hrest
                  simpa [Image.calls, heffect] using hlater

theorem value?_eq_none_iff (h : session.image.symbols.Records [])
    (hsplit : session.accepted options events = before ++ reached :: later) {name : Text} :
    reached.1.symbols.value? name = none ↔
      ∀ r ∈ before, r.2.defines?.map Text.foldCase ≠ some name.foldCase := by
  have hrecords := records_of_accepted h hsplit
  have hdefines : (before.flatMap fun r => r.1.calls options.filler r.2).filterMap
      SymbolTable.Call.defines? = before.filterMap fun r => r.2.defines? := by
    rw [List.filterMap_flatMap, List.filterMap_eq_flatMap_toList]
    apply List.flatMap_congr
    intro r hr
    have hmem : r ∈ session.accepted options events := by
      rw [hsplit]
      exact List.mem_append_left _ hr
    rcases resume_of_accepted hmem with ⟨_, _, e, heffect, _⟩
    exact Image.defines_calls heffect
  rw [List.nil_append] at hrecords
  rw [SymbolTable.value?, Option.map_eq_none_iff, hrecords.binding?,
    SymbolTable.History.binding_eq_none_iff, hdefines]
  simp only [List.mem_filterMap, Option.map_eq_some_iff, ne_eq]
  constructor
  · rintro hnone r hr ⟨t, ht, heq⟩
    exact hnone t ⟨r, hr, ht⟩ heq
  · rintro hnone t ⟨r, hr, ht⟩ heq
    exact hnone r hr ⟨t, ht, heq⟩

/-- The one accepted statement that defines a name, with those before and after it. -/
structure Definition (all : List (Image × Statement)) (name : Text) where
  before : List (Image × Statement)
  image : Image
  statement : Statement
  later : List (Image × Statement)
  all_eq : all = before ++ (image, statement) :: later
  defines : statement.defines?.map Text.foldCase = some name.foldCase
  only : ∀ r ∈ before ++ later, r.2.defines?.map Text.foldCase ≠ some name.foldCase

namespace Definition

variable {name : Text} {all : List (Image × Statement)}

/-- The first reference to the name in a statement before its definition. -/
def reference? (d : Definition all name) : Option Mention :=
  (d.before.flatMap fun r => r.2.mentions).find? fun m => m.name.foldCase = name.foldCase

def position (d : Definition all name) : Position :=
  d.statement.definedAt

end Definition

theorem exists_definition (h : session.image.symbols.Records []) {name : Text}
    (hname : ∃ r ∈ session.accepted options events,
      r.2.defines?.map Text.foldCase = some name.foldCase) :
    Nonempty (Definition (session.accepted options events) name) := by
  -- It is enough to look back: of two definitions one would come before the other.
  have hearlier : ∀ {before later reached},
      session.accepted options events = before ++ reached :: later ->
      reached.2.defines?.map Text.foldCase = some name.foldCase ->
      ∀ r ∈ before, r.2.defines?.map Text.foldCase ≠ some name.foldCase := by
    intro before later reached hsplit hreached
    have hmem : reached ∈ session.accepted options events := by
      rw [hsplit]
      exact List.mem_append_right _ (List.mem_cons_self ..)
    rcases resume_of_accepted hmem with ⟨_, _, e, heffect, _⟩
    rcases Option.map_eq_some_iff.mp hreached with ⟨t, ht, hfold⟩
    rw [← hfold]
    exact (value?_eq_none_iff h hsplit).mp (Image.effect_of_defines heffect ht).1
  rcases hname with ⟨reached, hmem, hreached⟩
  rcases List.append_of_mem hmem with ⟨before, later, hsplit⟩
  refine ⟨⟨before, reached.1, reached.2, later, hsplit, hreached, ?_⟩⟩
  intro r hr
  rcases List.mem_append.mp hr with hr | hr
  · exact hearlier hsplit hreached r hr
  · intro hdefines
    rcases List.append_of_mem hr with ⟨middle, last, rfl⟩
    have hsplit' : session.accepted options events =
        (before ++ reached :: middle) ++ r :: last := by
      rw [hsplit]
      simp
    exact hearlier hsplit' hdefines reached (by simp) hreached

namespace Definition

variable {name : Text} (d : Definition (session.accepted options events) name)

theorem mem_accepted : (d.image, d.statement) ∈ session.accepted options events := by
  have hmem : (d.image, d.statement) ∈ d.before ++ (d.image, d.statement) :: d.later := by
    simp
  exact (congrArg ((d.image, d.statement) ∈ ·) d.all_eq).mpr hmem

theorem unbound_before (h : session.image.symbols.Records []) {r : Image × Statement}
    (hr : r ∈ d.before) : r.1.symbols.value? name = none := by
  rcases List.append_of_mem hr with ⟨first, more, heq⟩
  have hsplit : session.accepted options events =
      first ++ r :: (more ++ (d.image, d.statement) :: d.later) := by
    refine d.all_eq.trans ?_
    rw [heq]
    simp
  refine (value?_eq_none_iff h hsplit).mpr fun other hother => d.only other ?_
  rw [heq]
  simp [hother]

theorem bound_later (h : session.image.symbols.Records []) {r : Image × Statement}
    (hr : r ∈ d.later) : r.1.symbols.value? name ≠ none := by
  rcases List.append_of_mem hr with ⟨middle, last, heq⟩
  have hsplit : session.accepted options events =
      (d.before ++ (d.image, d.statement) :: middle) ++ r :: last := by
    refine d.all_eq.trans ?_
    rw [heq]
    simp
  intro hnone
  exact (value?_eq_none_iff h hsplit).mp hnone (d.image, d.statement) (by simp) d.defines

/-- The pending references to a name are all those before its definition. -/
theorem toName_asked (h : session.image.symbols.Records []) :
    Mention.toName name (session.asked options events) =
      Mention.toName name (d.before.flatMap fun r => r.2.mentions) := by
  let pending (r : Image × Statement) := r.1.pendingMentions r.2
  have hasked : session.asked options events =
      (d.before ++ (d.image, d.statement) :: d.later).flatMap pending :=
    congrArg (List.flatMap pending) d.all_eq
  have hhere : pending (d.image, d.statement) = [] := by
    rcases resume_of_accepted d.mem_accepted with ⟨_, _, e, heffect, _⟩
    rcases Option.map_eq_some_iff.mp d.defines with ⟨t, ht, _⟩
    exact (Image.effect_of_defines heffect ht).2
  have hlater : Mention.toName name (d.later.flatMap pending) = [] := by
    rw [Mention.toName, List.filter_flatMap, List.flatMap_eq_nil_iff]
    exact fun r hr => Image.toName_pending_of_bound (d.bound_later h hr)
  have hbefore : Mention.toName name (d.before.flatMap pending) =
      Mention.toName name (d.before.flatMap fun r => r.2.mentions) := by
    rw [Mention.toName, Mention.toName, List.filter_flatMap, List.filter_flatMap]
    exact List.flatMap_congr fun r hr =>
      Image.toName_pending_of_unbound (d.unbound_before h hr)
  rw [hasked, List.flatMap_append, List.flatMap_cons, hhere, List.nil_append, ← hbefore,
    Mention.toName, List.filter_append]
  exact (congrArg (_ ++ ·) hlater).trans (List.append_nil _)

theorem reference?_eq (h : session.image.symbols.Records []) :
    d.reference? = (Mention.toName name (session.asked options events)).head? := by
  rw [d.toName_asked h, Mention.toName, List.head?_filter]
  rfl

end Definition

end Session

/-!
## Positions
-/

namespace SymbolTable.History

variable {calls : List Call} {name : Text}

theorem references_eq (calls : List Call) (name : Text) :
    references calls name.foldCase =
      (Mention.toName name (calls.filterMap Call.mention?)).map Mention.position := by
  rw [Mention.toName, List.filter_filterMap, List.map_filterMap, references]
  apply List.filterMap_congr
  intro call _
  cases call with
  | define other binding => rfl
  | lookup other => rfl
  | resolve other position =>
      by_cases hother : other.foldCase = name.foldCase
      · simp [Call.reference?, Call.mention?, Option.filter, hother]
      · simp [Call.reference?, Call.mention?, Option.filter, hother]

theorem firstLocated_eq {positions : List Position} (h : ∀ p ∈ positions, p.line ≠ 0) :
    firstLocated positions = positions.head?.getD ⟨0, 0⟩ := by
  cases positions with
  | nil => rfl
  | cons p rest =>
      have hp := h p (List.mem_cons_self ..)
      simp [firstLocated, hp]

end SymbolTable.History

namespace Script

theorem line_pos_of_statement {source : Text} {s : Statement}
    (h : .statement s ∈ (ofText source).events) : 0 < s.position.line := by
  have hproper := Scan.proper_ofText source
  rcases exists_passage_of_event hproper.ordered h with ⟨line, p, known, _, hturn, hs⟩
  rcases List.exists_mem_of_ne_nil _ p.group_ne with ⟨x, hx⟩
  have hword : x.token ∈ (Scan.ofText source).words := by
    refine List.mem_map_of_mem ?_
    rw [p.lexemes_eq]
    simp [hx]
  have hline := Scan.line_pos_of_mem_words hword
  rw [p.line_of_group x hx] at hline
  rw [line_of_statement hproper hturn hs, p.line_row]
  exact hline

end Script

namespace Session

variable {options : Options} {session : Session} {source : Text}

theorem Definition.line_pos {name : Text}
    (d : Definition (session.accepted options (Script.ofText source).events) name) :
    0 < d.position.line := by
  have hmem := mem_of_accepted d.mem_accepted
  have hoperand : ∀ o ∈ d.statement.operands, 0 < o.position.line := by
    intro o ho
    apply Script.line_pos_of_mem_operands
    refine List.mem_flatMap.mpr ⟨d.statement, ?_, List.mem_map_of_mem ho⟩
    exact List.mem_filterMap.mpr ⟨_, hmem, rfl⟩
  unfold Definition.position Statement.definedAt
  split
  · rename_i hbody
    apply hoperand
    rw [Statement.operands, hbody]
    exact List.mem_cons_self ..
  · exact Script.line_pos_of_statement hmem

theorem line_pos_of_mem_asked {m : Mention}
    (hm : m ∈ session.asked options (Script.ofText source).events) :
    0 < m.position.line :=
  Script.line_pos_of_mem_operands
    ((sublist_asked _).subset (List.mem_map_of_mem hm))

/-- A symbol that the calls of a run leave bound has a definition, and the position that
the calls give it is that of its first reference. -/
theorem exists_definition_of_entry (h : session.image.symbols.Records [])
    {symbol : Symbol}
    (hentry : SymbolTable.History.entry
      (session.calls options (Script.ofText source).events) symbol.name.foldCase = some symbol)
    (hdefined : symbol.isDefined = true) :
    ∃ d : Definition (session.accepted options (Script.ofText source).events) symbol.name,
      symbol.position = (d.reference?.map Mention.position).getD ⟨0, 0⟩ := by
  rcases SymbolTable.History.of_entry hentry with ⟨_, hbinding, hposition⟩
  have hname : ∃ r ∈ session.accepted options (Script.ofText source).events,
      r.2.defines?.map Text.foldCase = some symbol.name.foldCase := by
    by_contra hnone
    have hunbound : SymbolTable.History.binding
        (session.calls options (Script.ofText source).events) symbol.name.foldCase =
          none := by
      rw [SymbolTable.History.binding_eq_none_iff, defines_calls]
      intro t ht hfold
      rcases List.mem_filterMap.mp ht with ⟨r, hr, hdefines⟩
      exact hnone ⟨r, hr, by rw [hdefines, Option.map_some, hfold]⟩
    rw [Symbol.isDefined, ← hbinding, hunbound] at hdefined
    cases hdefined
  rcases exists_definition h hname with ⟨d⟩
  refine ⟨d, ?_⟩
  rw [← hposition, SymbolTable.History.references_eq, mentions_calls, d.reference?_eq h,
    SymbolTable.History.firstLocated_eq, List.head?_map]
  intro p hp
  rcases List.mem_map.mp hp with ⟨m, hm, rfl⟩
  exact Int.ne_of_gt (line_pos_of_mem_asked (List.mem_filter.mp hm).1)

end Session

/-- For every symbol that a run gives: one accepted statement defines it.  Its position is
that of the first reference to it in an accepted statement before that one, and zero if
there is none.  So it is the position of that reference, or else of the definition, if and
only if there is such a reference; and this is also when it has a line. -/
theorem symbol_located_iff_referred_before (options : Options) (source : Text)
    {symbol : Symbol} (h : symbol ∈ (assemble options source).symbols) :
    let script := Script.ofText source
    let start := Session.start options script.opening
    ∃ d : Session.Definition (start.accepted options script.events) symbol.name,
      symbol.position = (d.reference?.map Mention.position).getD ⟨0, 0⟩ ∧
        (symbol.position = (d.reference?.map Mention.position).getD d.position ↔
          d.reference?.isSome = true) ∧
        (1 ≤ symbol.position.line ↔ d.reference?.isSome = true) := by
  intro script start
  have hfresh : start.image.symbols.Records [] := SymbolTable.records_after []
  have hrecords : (script.events.foldl (Session.handle options) start).image.symbols.Records
      (start.calls options script.events) :=
    @Session.records_foldl options start [] hfresh script.events
  rcases SymbolTable.Records.mem_symbols.mp h with ⟨⟨key, hentry⟩, hdefined⟩
  have hkey := hrecords.foldCase_name hentry
  have hhistory := (hrecords key).symm.trans hentry
  rw [← hkey] at hhistory
  rcases Session.exists_definition_of_entry hfresh hhistory hdefined with ⟨d, hposition⟩
  refine ⟨d, hposition, ?_⟩
  rw [hposition]
  cases hreference : d.reference? with
  | none =>
      have hline := d.line_pos
      refine ⟨iff_of_false (fun heq => ?_) nofun, iff_of_false (by decide) nofun⟩
      have hzero : (⟨0, 0⟩ : Position) = d.position := heq
      rw [← hzero] at hline
      cases hline
  | some m =>
      have hm : m ∈ start.asked options script.events := by
        rw [d.reference?_eq hfresh] at hreference
        exact (List.mem_filter.mp (List.mem_of_head? hreference)).1
      exact ⟨iff_of_true rfl rfl, iff_of_true (Session.line_pos_of_mem_asked hm) rfl⟩

/-- A label that is defined first has no position, though it is used later; one that is used
first has the position of its use. -/
theorem symbol_located_iff_referred_before_labels :
    let source := "foo: jmp bar\nbar: lda foo".toList
    let foo : Symbol := ⟨"foo".toList, some ⟨.label, 0⟩, ⟨0, 0⟩⟩
    let bar : Symbol := ⟨"bar".toList, some ⟨.label, 3⟩, ⟨1, 10⟩⟩
    let script := Script.ofText source
    let all := (Session.start {} script.opening).accepted {} script.events
    (foo ∈ (assemble {} source).symbols ∧
        ∃ d : Session.Definition all foo.name, d.reference? = none ∧
          foo.position ≠ d.position) ∧
      bar ∈ (assemble {} source).symbols ∧
        ∃ d : Session.Definition all bar.name,
          d.reference?.map Mention.position = some ⟨1, 10⟩ := by
  intro source foo bar script all
  have hfoo : foo ∈ (assemble {} source).symbols :=
    SymbolTable.Records.mem_symbols.mpr ⟨⟨"foo".toList, by decide +kernel⟩, rfl⟩
  have hbar : bar ∈ (assemble {} source).symbols :=
    SymbolTable.Records.mem_symbols.mpr ⟨⟨"bar".toList, by decide +kernel⟩, rfl⟩
  refine ⟨⟨hfoo, ?_⟩, hbar, ?_⟩
  · rcases symbol_located_iff_referred_before {} source hfoo with ⟨d, _, hiff, hline⟩
    have hnone : d.reference? = none := by
      cases hreference : d.reference? with
      | none => rfl
      | some m =>
          rw [hreference] at hline
          exact absurd (hline.mpr rfl) (by decide)
    rw [hnone] at hiff
    exact ⟨d, hnone, fun heq => nomatch hiff.mp heq⟩
  · rcases symbol_located_iff_referred_before {} source hbar with ⟨d, hposition, _, hline⟩
    rcases Option.isSome_iff_exists.mp (hline.mp (by decide)) with ⟨m, hm⟩
    rw [hm] at hposition
    exact ⟨d, by rw [hm, Option.map_some]; exact congrArg some hposition.symm⟩

end Asm6502

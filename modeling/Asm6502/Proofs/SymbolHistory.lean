import Asm6502.Proofs.SymbolTable

/-!
# The symbol table and its history

A table is used through calls that define a name, resolve it or look it up.  What it
holds after any sequence of calls can be read off the sequence itself, without a table:
the calls are a partial map from folded names to symbols.  A name has the spelling of the
call that mentioned it first, the binding of the call that defined it first, and the
position of the first reference that has a line.

The main result says that a table simulates this map, and what follows for its answers and
for the lists that are made from it.
-/

namespace Asm6502
namespace SymbolTable

/-!
## Calls
-/

inductive Call where
  /-- Binds a name, as a label or as a constant. -/
  | define (name : Text) (binding : Symbol.Binding)
  | resolve (name : Text) (position : Position)
  | lookup (name : Text)

inductive Reply where
  | defined
  | duplicate (fault : Duplicate)
  /-- The value of the name; none while it is pending. -/
  | resolved (value : Option Int)
  | found (symbol : Option Symbol)

def answer (table : SymbolTable) : Call -> Reply × SymbolTable
  | .define name binding =>
      match table.define name binding with
      | .ok bound => (.defined, bound)
      | .error fault => (.duplicate fault, table)
  | .resolve name position =>
      let mentioned := table.mention name position
      (.resolved (mentioned.value? name), mentioned)
  | .lookup name => (.found (table.lookup? name), table)

theorem answer_of_free {table : SymbolTable} {name : Text} (binding : Symbol.Binding)
    (h : table.duplicate? name = none) :
    table.answer (.define name binding) = (.defined, table.bind name binding) := by
  simp only [answer, define, h]

theorem answer_of_duplicate {table : SymbolTable} {name : Text}
    (binding : Symbol.Binding) {fault : Duplicate}
    (h : table.duplicate? name = some fault) :
    table.answer (.define name binding) = (.duplicate fault, table) := by
  simp only [answer, define, h]

def answerAll (table : SymbolTable) (calls : List Call) : SymbolTable :=
  calls.foldl (fun table call => (table.answer call).2) table

def after (calls : List Call) : SymbolTable :=
  empty.answerAll calls

/-!
## What a history says about a name

A name is given by its folded form here, the key.
-/

namespace Call

/-- The spelling of the key in a call that mentions it.  A lookup mentions nothing. -/
def spelling? (key : Text) : Call -> Option Text
  | define name _ | resolve name _ => if name.foldCase = key then some name else none
  | lookup _ => none

def binding? (key : Text) : Call -> Option Symbol.Binding
  | define name binding => if name.foldCase = key then some binding else none
  | _ => none

def reference? (key : Text) : Call -> Option Position
  | resolve name position => if name.foldCase = key then some position else none
  | _ => none

@[simp] theorem spelling?_define (name : Text) (binding : Symbol.Binding) :
    (define name binding).spelling? name.foldCase = some name := by
  simp [spelling?]

@[simp] theorem spelling?_resolve (name : Text) (position : Position) :
    (resolve name position).spelling? name.foldCase = some name := by
  simp [spelling?]

theorem spelling?_eq_some {key name : Text} {call : Call}
    (h : call.spelling? key = some name) :
    name.foldCase = key ∧
      ((∃ binding, call = .define name binding) ∨
        ∃ position, call = .resolve name position) := by
  cases call with
  | define other binding =>
      simp only [spelling?, Option.ite_none_right_eq_some, Option.some.injEq] at h
      rcases h with ⟨hkey, rfl⟩
      exact ⟨hkey, .inl ⟨binding, rfl⟩⟩
  | resolve other position =>
      simp only [spelling?, Option.ite_none_right_eq_some, Option.some.injEq] at h
      rcases h with ⟨hkey, rfl⟩
      exact ⟨hkey, .inr ⟨position, rfl⟩⟩
  | lookup other => cases h

theorem binding?_eq_some {key : Text} {call : Call} {binding : Symbol.Binding}
    (h : call.binding? key = some binding) :
    ∃ name, name.foldCase = key ∧ call = .define name binding := by
  cases call with
  | define name other =>
      simp only [binding?, Option.ite_none_right_eq_some, Option.some.injEq] at h
      rcases h with ⟨hkey, rfl⟩
      exact ⟨name, hkey, rfl⟩
  | resolve name position => cases h
  | lookup name => cases h

theorem silent_of_spelling? {key : Text} {call : Call} (h : call.spelling? key = none) :
    call.binding? key = none ∧ call.reference? key = none := by
  cases call with
  | define name binding =>
      have hname : name.foldCase ≠ key := by simpa [spelling?] using h
      simp [binding?, reference?, hname]
  | resolve name position =>
      have hname : name.foldCase ≠ key := by simpa [spelling?] using h
      simp [binding?, reference?, hname]
  | lookup name => exact ⟨rfl, rfl⟩

end Call

namespace History

def spelling (calls : List Call) (key : Text) : Option Text :=
  calls.findSome? (Call.spelling? key)

def binding (calls : List Call) (key : Text) : Option Symbol.Binding :=
  calls.findSome? (Call.binding? key)

def references (calls : List Call) (key : Text) : List Position :=
  calls.filterMap (Call.reference? key)

/-- The first position that has a line, or else the last one there is. -/
def firstLocated (positions : List Position) : Position :=
  (positions.find? fun p => p.line ≠ 0).getD (positions.getLast?.getD ⟨0, 0⟩)

/-- The symbol of the key; none if nothing has mentioned it. -/
def entry (calls : List Call) (key : Text) : Option Symbol :=
  (spelling calls key).map fun name =>
    ⟨name, binding calls key, firstLocated (references calls key)⟩

variable {calls more : List Call} {key : Text}

theorem silent_of_spelling (h : spelling calls key = none) :
    binding calls key = none ∧ references calls key = [] := by
  have hsilent : ∀ call ∈ calls,
      call.binding? key = none ∧ call.reference? key = none := by
    intro call hcall
    exact Call.silent_of_spelling? (List.findSome?_eq_none_iff.mp h call hcall)
  constructor
  · exact List.findSome?_eq_none_iff.mpr fun call hcall => (hsilent call hcall).1
  · exact List.filterMap_eq_nil_iff.mpr fun call hcall => (hsilent call hcall).2

theorem entry_eq_none (h : spelling calls key = none) : entry calls key = none := by
  rw [entry, h, Option.map_none]

theorem entry_eq_some {name : Text} (h : spelling calls key = some name) :
    entry calls key = some
      ⟨name, binding calls key, firstLocated (references calls key)⟩ := by
  rw [entry, h, Option.map_some]

theorem of_entry {symbol : Symbol} (h : entry calls key = some symbol) :
    spelling calls key = some symbol.name ∧ binding calls key = symbol.binding ∧
      firstLocated (references calls key) = symbol.position := by
  rcases Option.map_eq_some_iff.mp h with ⟨name, hspelling, rfl⟩
  exact ⟨hspelling, rfl, rfl⟩

theorem foldCase_spelling {name : Text} (h : spelling calls key = some name) :
    name.foldCase = key := by
  rcases List.exists_of_findSome?_eq_some h with ⟨call, _, hcall⟩
  exact (Call.spelling?_eq_some hcall).1

/-!
### One more call
-/

theorem spelling_append : spelling (calls ++ more) key =
    (spelling calls key).or (spelling more key) :=
  List.findSome?_append

theorem binding_append : binding (calls ++ more) key =
    (binding calls key).or (binding more key) :=
  List.findSome?_append

theorem references_append : references (calls ++ more) key =
    references calls key ++ references more key :=
  List.filterMap_append

theorem find?_of_located {positions : List Position}
    (h : (firstLocated positions).line ≠ 0) :
    positions.find? (fun p => p.line ≠ 0) = some (firstLocated positions) := by
  cases hfind : positions.find? (fun p => p.line ≠ 0) with
  | some q => simp only [firstLocated, hfind, Option.getD_some]
  | none =>
      refine absurd ?_ h
      rw [firstLocated, hfind, Option.getD_none]
      cases hlast : positions.getLast? with
      | none => rfl
      | some q =>
          have hq := List.find?_eq_none.mp hfind q (List.mem_of_getLast? hlast)
          simpa using hq

theorem firstLocated_append {positions others : List Position}
    (h : (firstLocated positions).line ≠ 0) :
    firstLocated (positions ++ others) = firstLocated positions := by
  rw [firstLocated, List.find?_append, find?_of_located h, Option.some_or,
    Option.getD_some]

theorem firstLocated_snoc {positions : List Position}
    (h : (firstLocated positions).line = 0) (p : Position) :
    firstLocated (positions ++ [p]) = p := by
  have hfind : positions.find? (fun p => p.line ≠ 0) = none := by
    cases hfind : positions.find? (fun p => p.line ≠ 0) with
    | none => rfl
    | some q =>
        have hq := List.find?_some hfind
        rw [firstLocated, hfind, Option.getD_some] at h
        simp [h] at hq
  rw [firstLocated, List.find?_append, hfind, Option.none_or, List.getLast?_concat]
  by_cases hline : p.line = 0
  · simp [hline]
  · simp [hline]

theorem entry_append_of_silent (h : spelling more key = none) :
    entry (calls ++ more) key = entry calls key := by
  rcases silent_of_spelling h with ⟨hbinding, hreferences⟩
  simp only [entry, spelling_append, binding_append, references_append, h, hbinding,
    hreferences, Option.or_none, List.append_nil]

/-- A call that mentions the key adds to what is known of it. -/
theorem entry_snoc {call : Call} {name : Text} (h : call.spelling? key = some name) :
    entry (calls ++ [call]) key = some
      ⟨(spelling calls key).getD name, (binding calls key).or (call.binding? key),
        firstLocated (references calls key ++ (call.reference? key).toList)⟩ := by
  have hspelling : spelling (calls ++ [call]) key =
      some ((spelling calls key).getD name) := by
    rw [spelling_append]
    cases spelling calls key <;> simp [spelling, h]
  have hbinding : binding [call] key = call.binding? key := by
    cases hcall : call.binding? key <;> simp [binding, hcall]
  have hreferences : references [call] key = (call.reference? key).toList := by
    cases hcall : call.reference? key <;> simp [references, hcall]
  rw [entry_eq_some hspelling, binding_append, references_append, hbinding, hreferences]

end History

/-!
## The table keeps the history
-/

/-- The table holds exactly the symbols that the calls speak of. -/
def Records (table : SymbolTable) (calls : List Call) : Prop :=
  ∀ key : Text, table.entries[key]? = History.entry calls key

namespace Records

variable {table : SymbolTable} {calls : List Call}

theorem lookup? (h : table.Records calls) (name : Text) :
    table.lookup? name = History.entry calls name.foldCase :=
  h name.foldCase

theorem binding? (h : table.Records calls) (name : Text) :
    table.binding? name = History.binding calls name.foldCase := by
  unfold SymbolTable.binding?
  rw [h.lookup? name]
  cases hspelling : History.spelling calls name.foldCase with
  | none =>
      rw [History.entry_eq_none hspelling, (History.silent_of_spelling hspelling).1]
      rfl
  | some spelled =>
      rw [History.entry_eq_some hspelling]
      rfl

theorem entry_of_silent {call : Call} {key : Text} (h : table.Records calls)
    (hcall : call.spelling? key = none) :
    table.entries[key]? = History.entry (calls ++ [call]) key := by
  have hsilent : History.spelling [call] key = none := by simp [History.spelling, hcall]
  rw [History.entry_append_of_silent hsilent, h key]

theorem bind (h : table.Records calls) {name : Text} (binding : Symbol.Binding)
    (hfree : table.duplicate? name = none) :
    (table.bind name binding).Records (calls ++ [.define name binding]) := by
  intro key
  rw [getElem?_bind]
  by_cases hname : name.foldCase = key
  · subst hname
    have hnone : History.binding calls name.foldCase = none := by
      rw [← h.binding? name, ← duplicate?_eq_none_iff, hfree]
    rw [if_pos rfl, History.entry_snoc (Call.spelling?_define name binding),
      h.lookup? name, hnone]
    cases hspelling : History.spelling calls name.foldCase with
    | none =>
        -- The name is new, so no reference gives it a position.
        rw [History.entry_eq_none hspelling, (History.silent_of_spelling hspelling).2]
        simp [Call.binding?, Call.reference?, History.firstLocated]
    | some spelled =>
        rw [History.entry_eq_some hspelling]
        simp [Call.binding?, Call.reference?]
  · rw [if_neg hname]
    exact h.entry_of_silent (by simp [Call.spelling?, hname])

/-- A definition that comes too late leaves no trace in the history either. -/
theorem of_duplicate (h : table.Records calls) {name : Text} (binding : Symbol.Binding)
    (hbound : table.duplicate? name ≠ none) :
    table.Records (calls ++ [.define name binding]) := by
  intro key
  by_cases hname : name.foldCase = key
  · subst hname
    rw [Ne, duplicate?_eq_none_iff, h.binding? name] at hbound
    cases hspelling : History.spelling calls name.foldCase with
    | none => exact absurd (History.silent_of_spelling hspelling).1 hbound
    | some spelled =>
        rcases Option.ne_none_iff_exists.mp hbound with ⟨bound, hbinding⟩
        rw [h name.foldCase, History.entry_snoc (Call.spelling?_define name binding),
          History.entry_eq_some hspelling, hspelling, ← hbinding]
        simp [Call.reference?]
  · exact h.entry_of_silent (by simp [Call.spelling?, hname])

theorem mention (h : table.Records calls) (name : Text) (position : Position) :
    (table.mention name position).Records (calls ++ [.resolve name position]) := by
  intro key
  rw [getElem?_mention]
  by_cases hname : name.foldCase = key
  · subst hname
    rw [if_pos rfl, History.entry_snoc (Call.spelling?_resolve name position),
      h.lookup? name]
    cases hspelling : History.spelling calls name.foldCase with
    | none =>
        rcases History.silent_of_spelling hspelling with ⟨hbinding, hreferences⟩
        have hfirst : History.firstLocated [position] = position :=
          @History.firstLocated_snoc [] rfl position
        rw [History.entry_eq_none hspelling, hbinding, hreferences]
        simp [Call.binding?, Call.reference?, hfirst]
    | some spelled =>
        -- The entry keeps its position from the first reference with a line on.
        rw [History.entry_eq_some hspelling]
        by_cases hline : (History.firstLocated
            (History.references calls name.foldCase)).line = 0
        · simp [Call.binding?, Call.reference?, hline, History.firstLocated_snoc hline]
        · simp [Call.binding?, Call.reference?, hline, History.firstLocated_append hline]
  · rw [if_neg hname]
    exact h.entry_of_silent (by simp [Call.spelling?, hname])

theorem answer (h : table.Records calls) (call : Call) :
    (table.answer call).2.Records (calls ++ [call]) := by
  cases call with
  | define name binding =>
      cases hname : table.duplicate? name with
      | none =>
          rw [answer_of_free binding hname]
          exact h.bind binding hname
      | some fault =>
          rw [answer_of_duplicate binding hname]
          exact h.of_duplicate binding (hname ▸ Option.some_ne_none fault)
  | resolve name position => exact h.mention name position
  | lookup name => exact fun key => h.entry_of_silent rfl

theorem answerAll (h : table.Records calls) (more : List Call) :
    (table.answerAll more).Records (calls ++ more) := by
  induction more generalizing table calls with
  | nil => simpa [SymbolTable.answerAll] using h
  | cons call rest ih => simpa [SymbolTable.answerAll] using ih (h.answer call)

end Records

theorem records_after (calls : List Call) : (after calls).Records calls := by
  have hempty : empty.Records [] := by
    intro key
    simp [empty, History.entry, History.spelling]
  exact hempty.answerAll calls

/-!
## Definitions and references
-/

namespace History

def Defined (calls : List Call) (name : Text) : Prop :=
  ∃ before other binding rest, calls = before ++ .define other binding :: rest ∧
    other.foldCase = name.foldCase ∧
    ((after before).answer (.define other binding)).1 = .defined

def Resolved (calls : List Call) (name : Text) : Prop :=
  ∃ other position, .resolve other position ∈ calls ∧ other.foldCase = name.foldCase

variable {calls : List Call} {name : Text}

/-- The first definition succeeds, so nothing depends on the later ones. -/
theorem defined_iff : Defined calls name ↔ (binding calls name.foldCase).isSome := by
  constructor
  · rintro ⟨before, other, bound, rest, rfl, hother, _⟩
    refine List.findSome?_isSome_iff.mpr ⟨.define other bound, by simp, ?_⟩
    simp [Call.binding?, hother]
  · intro hbound
    rcases Option.isSome_iff_exists.mp hbound with ⟨bound, hbinding⟩
    rcases List.findSome?_eq_some_iff.mp hbinding with
      ⟨before, call, rest, rfl, hcall, hbefore⟩
    rcases Call.binding?_eq_some hcall with ⟨other, hother, rfl⟩
    refine ⟨before, other, bound, rest, rfl, hother, ?_⟩
    have hfree : (after before).duplicate? other = none := by
      rw [duplicate?_eq_none_iff, (records_after before).binding?, hother]
      exact List.findSome?_eq_none_iff.mpr hbefore
    rw [answer_of_free bound hfree]

theorem not_defined_iff :
    ¬Defined calls name ↔ binding calls name.foldCase = none := by
  rw [defined_iff, Bool.not_eq_true, Option.isSome_eq_false_iff, Option.isNone_iff_eq_none]

theorem resolved_of_spelling {spelled : Text}
    (hspelling : spelling calls name.foldCase = some spelled)
    (hbinding : binding calls name.foldCase = none) : Resolved calls name := by
  rcases List.exists_of_findSome?_eq_some hspelling with ⟨call, hmem, hcall⟩
  rcases Call.spelling?_eq_some hcall with ⟨hspelled, ⟨bound, rfl⟩ | ⟨position, rfl⟩⟩
  · have hnone := List.findSome?_eq_none_iff.mp hbinding _ hmem
    simp [Call.binding?, hspelled] at hnone
  · exact ⟨spelled, position, hmem, hspelled⟩

end History

/-!
## Lists made from the table
-/

theorem mem_undefined {table : SymbolTable} {name : Text} :
    name ∈ table.undefined ↔
      ∃ symbol ∈ table.toList, symbol.binding = none ∧ symbol.name = name := by
  simp [undefined, pending, Symbol.isDefined, and_assoc]

theorem allDefined_iff (table : SymbolTable) :
    table.allDefined = true ↔ table.undefined = [] := by
  simp [allDefined, undefined, pending, List.filter_eq_nil_iff]

namespace Records

variable {table : SymbolTable} {calls : List Call}

theorem foldCase_name (h : table.Records calls) {key : Text} {symbol : Symbol}
    (hentry : table.entries[key]? = some symbol) : symbol.name.foldCase = key := by
  rw [h key] at hentry
  exact History.foldCase_spelling (History.of_entry hentry).1

theorem map_foldCase_toList (h : table.Records calls) :
    table.toList.map (fun symbol => symbol.name.foldCase) = table.entries.keys := by
  rw [toList_eq_map, List.map_map, ← Std.TreeMap.map_fst_toList_eq_keys]
  apply List.map_congr_left
  rintro ⟨key, symbol⟩ hmem
  exact h.foldCase_name (Std.TreeMap.mem_toList_iff_getElem?_eq_some.mp hmem)

theorem nodup_toList (h : table.Records calls) :
    (table.toList.map fun symbol => symbol.name.foldCase).Nodup := by
  rw [h.map_foldCase_toList]
  refine table.entries.distinct_keys.imp ?_
  intro key other hne heq
  exact hne (Std.LawfulEqCmp.compare_eq_iff_eq.mpr heq)

theorem nodup_undefined (h : table.Records calls) :
    (table.undefined.map Text.foldCase).Nodup := by
  have hsublist : (table.undefined.map Text.foldCase).Sublist
      (table.toList.map fun symbol => symbol.name.foldCase) := by
    simp only [undefined, pending, List.map_map]
    exact List.filter_sublist.map _
  exact h.nodup_toList.sublist hsublist

theorem mem_undefined_iff (h : table.Records calls) {name : Text} :
    name ∈ table.undefined ↔ History.Resolved calls name ∧ ¬History.Defined calls name ∧
      History.spelling calls name.foldCase = some name := by
  rw [mem_undefined, History.not_defined_iff]
  constructor
  · rintro ⟨symbol, hsymbol, hbinding, rfl⟩
    rcases mem_toList.mp hsymbol with ⟨key, hentry⟩
    rw [← h.foldCase_name hentry, h] at hentry
    rcases History.of_entry hentry with ⟨hspelling, hentry, _⟩
    rw [hbinding] at hentry
    exact ⟨History.resolved_of_spelling hspelling hentry, hentry, hspelling⟩
  · rintro ⟨_, hbinding, hspelling⟩
    have hentry := h name.foldCase
    rw [History.entry_eq_some hspelling] at hentry
    exact ⟨_, mem_toList.mpr ⟨_, hentry⟩, hbinding, rfl⟩

theorem duplicate (h : table.Records calls) {name : Text} (binding : Symbol.Binding)
    (hdefined : History.Defined calls name) :
    ∃ symbol bound, table.lookup? name = some symbol ∧ symbol.binding = some bound ∧
      table.answer (.define name binding) =
        (.duplicate ⟨symbol.name, bound.kind⟩, table) := by
  rw [History.defined_iff, ← h.binding? name] at hdefined
  rcases Option.isSome_iff_exists.mp hdefined with ⟨bound, hbound⟩
  rcases Option.bind_eq_some_iff.mp hbound with ⟨symbol, hsymbol, hbinding⟩
  refine ⟨symbol, bound, hsymbol, hbinding, ?_⟩
  apply answer_of_duplicate
  cases symbol with
  | mk spelled bound' position =>
      cases hbinding
      simp only [duplicate?, hsymbol]

theorem keeps (h : table.Records calls) {name : Text} {symbol : Symbol}
    (more : List Call) (hsymbol : table.lookup? name = some symbol) :
    ∃ later, (table.answerAll more).lookup? name = some later ∧
      later.name = symbol.name ∧
      (∀ bound, symbol.binding = some bound -> later.binding = some bound) ∧
      (symbol.position.line ≠ 0 -> later.position = symbol.position) := by
  rw [h.lookup? name] at hsymbol
  rcases History.of_entry hsymbol with ⟨hspelling, hbinding, hposition⟩
  have hlater : History.spelling (calls ++ more) name.foldCase = some symbol.name := by
    rw [History.spelling_append, hspelling, Option.some_or]
  rw [(h.answerAll more).lookup? name, History.entry_eq_some hlater]
  refine ⟨_, rfl, rfl, ?_, ?_⟩
  · intro bound hbound
    rw [History.binding_append, hbinding, hbound, Option.some_or]
  · intro hline
    rw [← hposition] at hline ⊢
    rw [History.references_append]
    exact History.firstLocated_append hline

end Records

/-!
## Simulation
-/

/-- The table answers and develops like the partial map that its history is. -/
structure Simulates (table : SymbolTable) (calls : List Call) : Prop where
  lookup : ∀ name, table.answer (.lookup name) =
    (.found (History.entry calls name.foldCase), table)
  resolve : ∀ name position, (table.answer (.resolve name position)).1 =
    .resolved ((History.binding calls name.foldCase).map Symbol.Binding.value)
  /-- A definition succeeds if and only if none has before. -/
  define : ∀ name binding, (table.answer (.define name binding)).1 = .defined ↔
    ¬History.Defined calls name
  /-- A definition that fails is a duplicate of the entry, and changes nothing. -/
  duplicate : ∀ name binding, History.Defined calls name ->
    ∃ symbol bound, table.lookup? name = some symbol ∧ symbol.binding = some bound ∧
      table.answer (.define name binding) =
        (.duplicate ⟨symbol.name, bound.kind⟩, table)
  spelling : ∀ name symbol, table.lookup? name = some symbol ->
    History.spelling calls name.foldCase = some symbol.name
  /-- What later calls leave as it is. -/
  keeps : ∀ name symbol more, table.lookup? name = some symbol ->
    ∃ later, (table.answerAll more).lookup? name = some later ∧
      later.name = symbol.name ∧
      (∀ bound, symbol.binding = some bound -> later.binding = some bound) ∧
      (symbol.position.line ≠ 0 -> later.position = symbol.position)
  allDefined : table.allDefined = true ↔ table.undefined = []
  undefined : ∀ name, name ∈ table.undefined ↔
    History.Resolved calls name ∧ ¬History.Defined calls name ∧
      History.spelling calls name.foldCase = some name
  once : (table.undefined.map Text.foldCase).Nodup

/-- After any sequence of calls a new table simulates the partial map that the calls write
down. -/
theorem simulates_history (calls : List Call) : (after calls).Simulates calls := by
  have hrecords := records_after calls
  constructor
  · intro name
    simp only [answer, hrecords.lookup? name]
  · intro name position
    simp only [answer, value?, binding?_mention, hrecords.binding? name]
  · intro name binding
    rw [History.not_defined_iff, ← hrecords.binding? name, ← duplicate?_eq_none_iff]
    cases hname : (after calls).duplicate? name with
    | none => simp [answer_of_free binding hname]
    | some fault => simp [answer_of_duplicate binding hname]
  · intro name binding hdefined
    exact hrecords.duplicate binding hdefined
  · intro name symbol hsymbol
    rw [hrecords.lookup? name] at hsymbol
    exact (History.of_entry hsymbol).1
  · intro name symbol more hsymbol
    exact hrecords.keeps more hsymbol
  · exact allDefined_iff _
  · intro name
    exact hrecords.mem_undefined_iff
  · exact hrecords.nodup_undefined

end SymbolTable
end Asm6502

import Asm6502.Symbol.Table

/-!
# Facts about the symbol table

What a lookup finds after a name is bound or mentioned.  Names are compared in
their folded form, so every statement speaks of two names that fold to the same
text or to different ones.  Together these facts say that a table only grows:
entries stay, and a binding, once made, stays what it is.
-/

namespace Asm6502
namespace SymbolTable

/-!
## Lookups after a change
-/

theorem getElem?_enter (table : SymbolTable) (name key : Text) (position : Position) :
    (table.enter name position).entries[key]? =
      if name.foldCase = key then
        some ((table.lookup? name).getD ⟨name, none, position⟩)
      else table.entries[key]? := by
  unfold enter
  cases hentry : table.lookup? name with
  | none => simp [Std.TreeMap.getElem?_insert]
  | some entry =>
      simp only [Option.isSome_some, if_true, Option.getD_some]
      split
      · rename_i hkey
        rw [← hkey, ← hentry]
        rfl
      · rfl

theorem enter_of_isSome {table : SymbolTable} {name : Text}
    (h : (table.lookup? name).isSome = true) (position : Position) :
    table.enter name position = table :=
  if_pos h

theorem getElem?_bind (table : SymbolTable) (name key : Text)
    (binding : Symbol.Binding) :
    (table.bind name binding).entries[key]? =
      if name.foldCase = key then
        some { (table.lookup? name).getD ⟨name, none, ⟨0, 0⟩⟩ with
          binding := some binding }
      else table.entries[key]? := by
  simp only [bind, Std.TreeMap.getElem?_modify, getElem?_enter,
    Std.LawfulEqCmp.compare_eq_iff_eq]
  split
  · simp
  · rfl

theorem getElem?_mention (table : SymbolTable) (name key : Text)
    (position : Position) :
    (table.mention name position).entries[key]? =
      if name.foldCase = key then
        let entry := (table.lookup? name).getD ⟨name, none, position⟩
        some (if entry.position.line = 0 then { entry with position := position }
          else entry)
      else table.entries[key]? := by
  simp only [mention, Std.TreeMap.getElem?_modify, getElem?_enter,
    Std.LawfulEqCmp.compare_eq_iff_eq]
  split
  · simp
  · rfl

theorem lookup?_bind (table : SymbolTable) (name other : Text)
    (binding : Symbol.Binding) :
    (table.bind name binding).lookup? other =
      if name.foldCase = other.foldCase then
        some { (table.lookup? name).getD ⟨name, none, ⟨0, 0⟩⟩ with
          binding := some binding }
      else table.lookup? other :=
  getElem?_bind table name other.foldCase binding

theorem lookup?_mention (table : SymbolTable) (name other : Text)
    (position : Position) :
    (table.mention name position).lookup? other =
      if name.foldCase = other.foldCase then
        let entry := (table.lookup? name).getD ⟨name, none, position⟩
        some (if entry.position.line = 0 then { entry with position := position }
          else entry)
      else table.lookup? other :=
  getElem?_mention table name other.foldCase position

theorem lookup?_congr (table : SymbolTable) {name other : Text}
    (h : name.foldCase = other.foldCase) :
    table.lookup? name = table.lookup? other := by
  unfold lookup?
  rw [h]

@[simp] theorem lookup?_empty (name : Text) : empty.lookup? name = none := by
  simp [empty, lookup?]

theorem binding?_bind_same (table : SymbolTable) {name other : Text}
    (binding : Symbol.Binding) (h : name.foldCase = other.foldCase) :
    (table.bind name binding).binding? other = some binding := by
  simp [binding?, lookup?_bind, h]

theorem binding?_bind_other (table : SymbolTable) {name other : Text}
    (binding : Symbol.Binding) (h : name.foldCase ≠ other.foldCase) :
    (table.bind name binding).binding? other = table.binding? other := by
  simp [binding?, lookup?_bind, h]

/-- A mention makes an entry or moves its position; it binds nothing. -/
@[simp] theorem binding?_mention (table : SymbolTable) (name other : Text)
    (position : Position) :
    (table.mention name position).binding? other = table.binding? other := by
  unfold binding?
  rw [lookup?_mention]
  by_cases h : name.foldCase = other.foldCase
  · rw [if_pos h, lookup?_congr table h]
    cases hentry : table.lookup? other with
    | none => simp
    | some entry =>
        simp only [Option.getD_some, Option.bind_some]
        split <;> rfl
  · rw [if_neg h]

theorem value?_eq_some_iff {table : SymbolTable} {name : Text} {n : Int} :
    table.value? name = some n ↔ ∃ kind, table.binding? name = some ⟨kind, n⟩ := by
  unfold value?
  cases table.binding? name with
  | none => simp
  | some binding =>
      cases binding with
      | mk kind value => simp

theorem duplicate?_eq_none_iff {table : SymbolTable} {name : Text} :
    table.duplicate? name = none ↔ table.binding? name = none := by
  unfold duplicate? binding?
  cases table.lookup? name with
  | none => simp
  | some entry =>
      cases entry with
      | mk spelled binding position =>
          cases binding <;> simp

/-!
## Entries without a binding
-/

theorem isSome_of_duplicate? {table : SymbolTable} {name : Text} {d : Duplicate}
    (h : table.duplicate? name = some d) : (table.lookup? name).isSome = true := by
  unfold duplicate? at h
  cases hentry : table.lookup? name with
  | none => simp [hentry] at h
  | some entry => rfl

theorem lookup?_enter (table : SymbolTable) (name : Text) (position : Position) :
    (table.enter name position).lookup? name =
      some ((table.lookup? name).getD ⟨name, none, position⟩) := by
  rw [lookup?, getElem?_enter, if_pos rfl]

theorem duplicate?_enter (table : SymbolTable) (name : Text) (position : Position) :
    (table.enter name position).duplicate? name = table.duplicate? name := by
  unfold duplicate?
  rw [lookup?_enter]
  cases table.lookup? name <;> rfl

theorem bind_enter (table : SymbolTable) (name : Text) (binding : Symbol.Binding) :
    (table.enter name ⟨0, 0⟩).bind name binding = table.bind name binding := by
  have hentry : ((table.enter name ⟨0, 0⟩).lookup? name).isSome = true := by
    rw [lookup?_enter]
    rfl
  simp only [bind, enter_of_isSome hentry]

/-!
## Growth
-/

/-- One table comes from another by adding entries and bindings only. -/
structure Grows (before after : SymbolTable) : Prop where
  binding : ∀ {name : Text} {binding : Symbol.Binding},
    before.binding? name = some binding -> after.binding? name = some binding
  entry : ∀ {name : Text},
    (before.lookup? name).isSome -> (after.lookup? name).isSome

namespace Grows

theorem refl (table : SymbolTable) : Grows table table :=
  ⟨fun h => h, fun h => h⟩

theorem trans {first second third : SymbolTable} (h : Grows first second)
    (h' : Grows second third) : Grows first third :=
  ⟨fun hb => h'.binding (h.binding hb), fun he => h'.entry (h.entry he)⟩

theorem bind {table : SymbolTable} {name : Text} (binding : Symbol.Binding)
    (h : table.duplicate? name = none) : Grows table (table.bind name binding) := by
  rw [duplicate?_eq_none_iff] at h
  constructor
  · intro other bound hother
    have hne : name.foldCase ≠ other.foldCase := by
      intro heq
      unfold binding? at h hother
      rw [lookup?_congr table heq, hother] at h
      cases h
    rw [binding?_bind_other table binding hne]
    exact hother
  · intro other hother
    rw [lookup?_bind]
    split
    · rfl
    · exact hother

theorem mention (table : SymbolTable) (name : Text) (position : Position) :
    Grows table (table.mention name position) := by
  constructor
  · intro other bound hother
    rw [binding?_mention]
    exact hother
  · intro other hother
    rw [lookup?_mention]
    split
    · rfl
    · exact hother

theorem value? {before after : SymbolTable} (h : Grows before after)
    {name : Text} {n : Int} (hname : before.value? name = some n) :
    after.value? name = some n := by
  rcases value?_eq_some_iff.mp hname with ⟨kind, hbinding⟩
  exact value?_eq_some_iff.mpr ⟨kind, h.binding hbinding⟩

end Grows

theorem lookup?_mention_isSome (table : SymbolTable) (name : Text)
    (position : Position) :
    ((table.mention name position).lookup? name).isSome := by
  simp [lookup?_mention]

/-!
## The list of symbols
-/

theorem toList_eq_map (table : SymbolTable) :
    table.toList = table.entries.toList.map Prod.snd := by
  have hfold : table.entries.values =
      table.entries.foldr (fun _ symbol rest => symbol :: rest) [] := rfl
  rw [toList, hfold, Std.TreeMap.foldr_eq_foldr_toList]
  induction table.entries.toList with
  | nil => rfl
  | cons entry rest ih => rw [List.foldr_cons, List.map_cons, ih]

theorem mem_toList {table : SymbolTable} {symbol : Symbol} :
    symbol ∈ table.toList ↔ ∃ key : Text, table.entries[key]? = some symbol := by
  rw [toList_eq_map, List.mem_map]
  constructor
  · rintro ⟨⟨key, _⟩, hentry, rfl⟩
    exact ⟨key, Std.TreeMap.mem_toList_iff_getElem?_eq_some.mp hentry⟩
  · rintro ⟨key, hentry⟩
    exact ⟨(key, symbol), Std.TreeMap.mem_toList_iff_getElem?_eq_some.mpr hentry, rfl⟩

end SymbolTable
end Asm6502

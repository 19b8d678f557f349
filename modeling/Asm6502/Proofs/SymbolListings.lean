import Asm6502.Proofs.SymbolHistory
import Mathlib.Data.List.Nodup

/-!
# Listings of the symbol table

The bound symbols are listed by value and folded name, the pending names by folded name.
A table holds every folded name once, so these keys tell all entries apart: there is only
one list in that order, however the entries are visited and whatever sorts them.
-/

namespace Asm6502

/-!
## The order of a listing
-/

namespace Text

def Before (s t : Text) : Prop :=
  List.Lex (· < ·) s t

instance (s t : Text) : Decidable (s.Before t) :=
  inferInstanceAs (Decidable (List.Lex (· < ·) s t))

theorem compare_eq_lt_iff {s t : Text} : compare s t = .lt ↔ s.Before t := by
  induction s generalizing t with
  | nil =>
      cases t with
      | nil => exact iff_of_false nofun nofun
      | cons d rest => exact iff_of_true rfl .nil
  | cons c more ih =>
      cases t with
      | nil => exact iff_of_false nofun nofun
      | cons d rest =>
          have hchar : compare c d = .lt ↔ c < d := compareOfLessAndEq_eq_lt
          have hsame : compare c d = .eq ↔ c = d := Std.LawfulEqCmp.compare_eq_iff_eq
          have hstep : compare (c :: more) (d :: rest) =
              (compare c d).then (compare more rest) := List.compareLex_cons_cons
          rw [hstep, Ordering.then_eq_lt, hchar, hsame, ih]
          exact List.cons_lex_cons_iff.symm

theorem Before.asymm {s t : Text} (h : s.Before t) : ¬t.Before s := by
  rw [← compare_eq_lt_iff] at h ⊢
  have hswap : compare t s = (compare s t).swap := Std.OrientedCmp.eq_swap
  rw [hswap, h]
  decide

theorem eq_of_not_before {s t : Text} (h : ¬s.Before t) (h' : ¬t.Before s) : s = t := by
  rw [← compare_eq_lt_iff] at h h'
  have hswap : compare t s = (compare s t).swap := Std.OrientedCmp.eq_swap
  cases hcompare : compare s t with
  | lt => exact absurd hcompare h
  | eq => exact Std.LawfulEqCmp.compare_eq_iff_eq.mp hcompare
  | gt => exact absurd (by rw [hswap, hcompare]; rfl) h'

end Text

namespace Symbol

/-- The symbol with the lesser value is listed first, or else the one with the lesser
folded name. -/
def Precedes (s t : Symbol) : Prop :=
  s.value < t.value ∨ s.value = t.value ∧ s.name.foldCase.Before t.name.foldCase

instance (s t : Symbol) : Decidable (s.Precedes t) :=
  inferInstanceAs (Decidable (_ ∨ _))

theorem Precedes.asymm {s t : Symbol} (h : s.Precedes t) : ¬t.Precedes s := by
  rintro (hlt | ⟨heq, hbefore⟩)
  · rcases h with hlt' | ⟨heq, _⟩ <;> omega
  · rcases h with hlt | ⟨_, hbefore'⟩
    · omega
    · exact hbefore.asymm hbefore'

theorem foldCase_eq_of_not_precedes {s t : Symbol} (h : ¬s.Precedes t)
    (h' : ¬t.Precedes s) : s.name.foldCase = t.name.foldCase := by
  simp only [Precedes, not_or, not_and] at h h'
  have hvalue : s.value = t.value := by omega
  exact Text.eq_of_not_before (h.2 hvalue) (h'.2 hvalue.symm)

theorem filter_mergeSort (symbols : List Symbol) (n : Int) :
    ((symbols.mergeSort fun s t => s.value ≤ t.value).filter fun s => s.value = n) =
      symbols.filter fun s => s.value = n := by
  have hstable : (symbols.filter fun s => s.value = n).Sublist
      (symbols.mergeSort fun s t => s.value ≤ t.value) := by
    apply List.sublist_mergeSort
    · intro s t u hst htu
      simp only [decide_eq_true_eq] at hst htu ⊢
      omega
    · intro s t
      simp only [Bool.or_eq_true, decide_eq_true_eq]
      omega
    · refine List.pairwise_of_forall_mem_list fun s hs t ht => ?_
      simp only [List.mem_filter, decide_eq_true_eq] at hs ht ⊢
      omega
    · exact List.filter_sublist
  have hkept := hstable.filter fun s => s.value = n
  rw [List.filter_filter] at hkept
  simp only [Bool.and_self] at hkept
  have hperm := (List.mergeSort_perm symbols fun s t => s.value ≤ t.value).filter
    fun s => s.value = n
  exact (hkept.eq_of_length hperm.length_eq.symm).symm

theorem pairwise_value_mergeSort (symbols : List Symbol) :
    (symbols.mergeSort fun s t => s.value ≤ t.value).Pairwise
      fun s t => s.value ≤ t.value := by
  have hsorted : (symbols.mergeSort fun s t => s.value ≤ t.value).Pairwise
      fun s t => decide (s.value ≤ t.value) = true := by
    apply List.pairwise_mergeSort
    · intro s t u hst htu
      simp only [decide_eq_true_eq] at hst htu ⊢
      omega
    · intro s t
      simp only [Bool.or_eq_true, decide_eq_true_eq]
      omega
  exact hsorted.imp of_decide_eq_true

/-- Symbols that are sorted by name are listed in order after a stable sort by value. -/
theorem pairwise_mergeSort {symbols : List Symbol}
    (h : symbols.Pairwise fun s t => s.name.foldCase.Before t.name.foldCase) :
    (symbols.mergeSort fun s t => s.value ≤ t.value).Pairwise Precedes := by
  have hsorted := pairwise_value_mergeSort symbols
  rw [List.pairwise_iff_forall_sublist] at hsorted h ⊢
  intro s t hpair
  rcases Int.lt_or_eq_of_le (hsorted hpair) with hlt | heq
  · exact .inl hlt
  · -- of one value, so they stand in the order that they had before
    have hkept := hpair.filter fun u => u.value = t.value
    rw [filter_mergeSort] at hkept
    simp only [heq, decide_true, List.filter_cons_of_pos, List.filter_nil] at hkept
    exact .inr ⟨heq, h (hkept.trans List.filter_sublist)⟩

end Symbol

/-!
## The symbols that a history leaves
-/

namespace SymbolTable

def Call.definition? : Call -> Option (Text × Symbol.Binding)
  | define name binding => some (name, binding)
  | _ => none

def Call.name? : Call -> Option Text
  | define name _ | resolve name _ => some name
  | lookup _ => none

namespace History

variable {calls : List Call} {key name : Text} {binding' : Symbol.Binding}

theorem mem_definitions :
    (name, binding') ∈ calls.filterMap Call.definition? ↔ .define name binding' ∈ calls := by
  rw [List.mem_filterMap]
  constructor
  · rintro ⟨call, hcall, heq⟩
    cases call <;> cases heq
    exact hcall
  · intro hcall
    exact ⟨_, hcall, rfl⟩

theorem exists_of_binding (h : binding calls key = some binding') :
    ∃ name, name.foldCase = key ∧ (name, binding') ∈ calls.filterMap Call.definition? := by
  rcases List.exists_of_findSome?_eq_some h with ⟨call, hcall, heq⟩
  rcases Call.binding?_eq_some heq with ⟨name, hname, rfl⟩
  exact ⟨name, hname, mem_definitions.mpr hcall⟩

theorem binding_of_once
    (honce : ((calls.filterMap Call.definition?).map fun d => d.1.foldCase).Nodup)
    (h : (name, binding') ∈ calls.filterMap Call.definition?) :
    binding calls name.foldCase = some binding' := by
  cases hbinding : binding calls name.foldCase with
  | none =>
      have hnone := List.findSome?_eq_none_iff.mp hbinding _ (mem_definitions.mp h)
      simp [Call.binding?] at hnone
  | some found =>
      rcases exists_of_binding hbinding with ⟨other, hother, hmem⟩
      have hsame := List.inj_on_of_nodup_map honce hmem h hother
      cases hsame
      rfl

theorem mem_names_of_spelling (h : spelling calls key = some name) :
    name ∈ calls.filterMap Call.name? := by
  rcases List.exists_of_findSome?_eq_some h with ⟨call, hcall, heq⟩
  rcases Call.spelling?_eq_some heq with ⟨_, ⟨_, rfl⟩ | ⟨_, rfl⟩⟩
  · exact List.mem_filterMap.mpr ⟨_, hcall, rfl⟩
  · exact List.mem_filterMap.mpr ⟨_, hcall, rfl⟩

end History

namespace Records

variable {table : SymbolTable} {calls : List Call}

theorem nodup_symbols (h : table.Records calls) :
    (table.symbols.map fun s => s.name.foldCase).Nodup := by
  have hperm : (table.symbols.map fun s => s.name.foldCase).Perm
      ((table.toList.filter Symbol.isDefined).map fun s => s.name.foldCase) :=
    (List.mergeSort_perm _ _).map _
  exact hperm.nodup_iff.mpr (h.nodup_toList.sublist (List.filter_sublist.map _))

theorem mem_symbols {symbol : Symbol} :
    symbol ∈ table.symbols ↔
      (∃ key : Text, table.entries[key]? = some symbol) ∧ symbol.isDefined = true := by
  rw [symbols, List.mem_mergeSort, List.mem_filter, mem_toList]

theorem perm_symbols (h : table.Records calls)
    (hspelled : ∀ name ∈ calls.filterMap Call.name?, ∀ other ∈ calls.filterMap Call.name?,
      name.foldCase = other.foldCase -> name = other)
    (honce : ((calls.filterMap Call.definition?).map fun d => d.1.foldCase).Nodup) :
    (table.symbols.map fun s => (s.name, s.binding)).Perm
      ((calls.filterMap Call.definition?).map fun d => (d.1, some d.2)) := by
  have hleft : (table.symbols.map fun s => (s.name, s.binding)).Nodup :=
    List.Nodup.of_map (fun d => d.1.foldCase) (by rw [List.map_map]; exact h.nodup_symbols)
  have hright : ((calls.filterMap Call.definition?).map fun d => (d.1, some d.2)).Nodup :=
    List.Nodup.of_map (fun d => d.1.foldCase) (by rw [List.map_map]; exact honce)
  rw [List.perm_ext_iff_of_nodup hleft hright]
  intro entry
  constructor
  · -- The spelling may come from a reference, so it is compared with the definition.
    intro hmem
    rcases List.mem_map.mp hmem with ⟨symbol, hsymbol, rfl⟩
    rcases mem_symbols.mp hsymbol with ⟨⟨key, hentry⟩, hdefined⟩
    rcases Option.isSome_iff_exists.mp hdefined with ⟨binding, hbinding⟩
    rw [h] at hentry
    rcases History.of_entry hentry with ⟨hspelling, hbound, _⟩
    rw [hbinding] at hbound
    rcases History.exists_of_binding hbound with ⟨other, hother, hdefinition⟩
    have hsame : other = symbol.name := by
      apply hspelled other _ symbol.name (History.mem_names_of_spelling hspelling)
      · rw [hother, History.foldCase_spelling hspelling]
      · exact List.mem_filterMap.mpr ⟨_, History.mem_definitions.mp hdefinition, rfl⟩
    exact List.mem_map.mpr ⟨(other, binding), hdefinition, by rw [hsame, hbinding]⟩
  · intro hmem
    rcases List.mem_map.mp hmem with ⟨⟨name, binding⟩, hdefinition, rfl⟩
    have hcall := History.mem_definitions.mp hdefinition
    have hbinding := History.binding_of_once honce hdefinition
    cases hspelling : History.spelling calls name.foldCase with
    | none =>
        rw [(History.silent_of_spelling hspelling).1] at hbinding
        cases hbinding
    | some spelled =>
        have hsame : spelled = name :=
          hspelled spelled (History.mem_names_of_spelling hspelling) name
            (List.mem_filterMap.mpr ⟨_, hcall, rfl⟩) (History.foldCase_spelling hspelling)
        have hentry := h name.foldCase
        rw [History.entry_eq_some hspelling, hbinding, hsame] at hentry
        exact List.mem_map.mpr ⟨_, mem_symbols.mpr ⟨⟨_, hentry⟩, rfl⟩, rfl⟩

end Records
end SymbolTable

/-!
## Visiting the entries
-/

namespace SymbolTable

/-- The entries one after another, in some order, each of them once. -/
structure Enumerates (table : SymbolTable) (visited : List (Text × Symbol)) : Prop where
  mem : ∀ key symbol, (key, symbol) ∈ visited ↔ table.entries[key]? = some symbol
  once : (visited.map Prod.fst).Nodup

theorem enumerates_toList (table : SymbolTable) :
    table.Enumerates table.entries.toList := by
  constructor
  · intro key symbol
    exact Std.TreeMap.mem_toList_iff_getElem?_eq_some
  · rw [Std.TreeMap.map_fst_toList_eq_keys]
    refine table.entries.distinct_keys.imp ?_
    intro key other hne heq
    exact hne (Std.LawfulEqCmp.compare_eq_iff_eq.mpr heq)

theorem Enumerates.perm {table : SymbolTable} {visited : List (Text × Symbol)}
    (h : table.Enumerates visited) : visited.Perm table.entries.toList := by
  have h' := table.enumerates_toList
  rw [List.perm_ext_iff_of_nodup h.once.of_map h'.once.of_map]
  rintro ⟨key, symbol⟩
  rw [h.mem, h'.mem]

/-- What may come out when the bound symbols among the visited entries are sorted. -/
structure ListsBound (visited : List (Text × Symbol)) (listed : List Symbol) : Prop where
  perm : listed.Perm ((visited.map Prod.snd).filter Symbol.isDefined)
  sorted : listed.Pairwise fun s t => ¬t.Precedes s

structure ListsPending (visited : List (Text × Symbol)) (keys : List Text) : Prop where
  perm : keys.Perm ((visited.filter fun entry => !entry.2.isDefined).map Prod.fst)
  sorted : keys.Pairwise fun s t => ¬t.Before s

namespace Records

variable {table : SymbolTable} {calls : List Call} {visited : List (Text × Symbol)}

theorem pairwise_toList (h : table.Records calls) :
    table.toList.Pairwise fun s t => s.name.foldCase.Before t.name.foldCase := by
  have hkeys : (table.toList.map fun s => s.name.foldCase).Pairwise Text.Before := by
    rw [h.map_foldCase_toList]
    exact Std.TreeMap.ordered_keys.imp Text.compare_eq_lt_iff.mp
  exact List.pairwise_map.mp hkeys

theorem pairwise_symbols (h : table.Records calls) :
    table.symbols.Pairwise Symbol.Precedes :=
  Symbol.pairwise_mergeSort (h.pairwise_toList.sublist List.filter_sublist)

theorem pairwise_undefined (h : table.Records calls) :
    (table.undefined.map Text.foldCase).Pairwise Text.Before := by
  rw [undefined, List.map_map]
  exact List.pairwise_map.mpr (h.pairwise_toList.sublist List.filter_sublist)

theorem symbol_eq (h : table.Records calls) {s t : Symbol} (hs : s ∈ table.symbols)
    (ht : t ∈ table.symbols) (hname : s.name.foldCase = t.name.foldCase) : s = t :=
  List.inj_on_of_nodup_map h.nodup_symbols hs ht hname

/-- Whatever order the entries are visited in, sorting gives the one list. -/
theorem eq_symbols (h : table.Records calls) (hvisited : table.Enumerates visited)
    {listed : List Symbol} (hlisted : ListsBound visited listed) :
    listed = table.symbols := by
  have hperm : listed.Perm table.symbols := by
    have hbound := ((hvisited.perm.map Prod.snd).filter Symbol.isDefined)
    rw [← toList_eq_map] at hbound
    exact hlisted.perm.trans (hbound.trans (List.mergeSort_perm _ _).symm)
  refine List.Perm.eq_of_pairwise ?_ hlisted.sorted
    (h.pairwise_symbols.imp fun hst => hst.asymm) hperm
  -- Entries that tie have one folded name, and that is the key.
  intro s t hs ht hnot hnot'
  exact h.symbol_eq (hperm.subset hs) ht (Symbol.foldCase_eq_of_not_precedes hnot' hnot)

theorem map_foldCase_undefined (h : table.Records calls) :
    table.undefined.map Text.foldCase =
      (table.entries.toList.filter fun entry => !entry.2.isDefined).map Prod.fst := by
  rw [undefined, pending, toList_eq_map, List.filter_map, List.map_map, List.map_map]
  apply List.map_congr_left
  rintro ⟨key, symbol⟩ hentry
  have hmem := (List.mem_filter.mp hentry).1
  exact h.foldCase_name ((table.enumerates_toList.mem key symbol).mp hmem)

theorem lookup?_of_mem_undefined (h : table.Records calls) {name : Text}
    (hname : name ∈ table.undefined) :
    (table.lookup? name).map Symbol.name = some name := by
  rcases mem_undefined.mp hname with ⟨symbol, hsymbol, _, rfl⟩
  rcases mem_toList.mp hsymbol with ⟨key, hentry⟩
  rw [SymbolTable.lookup?, h.foldCase_name hentry, hentry, Option.map_some]

theorem eq_undefined (h : table.Records calls) (hvisited : table.Enumerates visited)
    {keys : List Text} (hkeys : ListsPending visited keys) :
    keys.filterMap (fun key => table.entries[key]?.map Symbol.name) = table.undefined := by
  have hperm : keys.Perm (table.undefined.map Text.foldCase) := by
    rw [h.map_foldCase_undefined]
    exact hkeys.perm.trans ((hvisited.perm.filter _).map _)
  have hsame : keys = table.undefined.map Text.foldCase := by
    refine List.Perm.eq_of_pairwise ?_ hkeys.sorted
      (h.pairwise_undefined.imp fun hst => hst.asymm) hperm
    intro s t _ _ hnot hnot'
    exact Text.eq_of_not_before hnot' hnot
  have hnames : table.undefined.filterMap
      (fun name => (table.lookup? name).map Symbol.name) =
        table.undefined.filterMap some := by
    refine List.filterMap_congr fun name hname => ?_
    exact h.lookup?_of_mem_undefined hname
  rw [hsame, List.filterMap_map]
  exact hnames.trans List.filterMap_some

theorem symbols_congr {other : SymbolTable} {others : List Call} (h : table.Records calls)
    (h' : other.Records others)
    (hsame : ∀ key, History.entry calls key = History.entry others key) :
    table.symbols = other.symbols := by
  have hvisited : other.Enumerates table.entries.toList := by
    refine ⟨fun key symbol => ?_, table.enumerates_toList.once⟩
    rw [table.enumerates_toList.mem, h key, h' key, hsame]
  refine h'.eq_symbols hvisited ⟨?_, h.pairwise_symbols.imp fun hst => hst.asymm⟩
  rw [← toList_eq_map]
  exact List.mergeSort_perm _ _

end Records

/-!
## Definitions in any order
-/

def Call.ofDefinition (d : Text × Symbol.Binding) : Call :=
  .define d.1 d.2

theorem findSome?_perm {α β : Type} {f : α -> Option β} {xs ys : List α}
    (h : xs.Perm ys) (honce : xs.Pairwise fun x y => f x = none ∨ f y = none) :
    xs.findSome? f = ys.findSome? f := by
  induction h with
  | nil => rfl
  | cons x _ ih =>
      rw [List.findSome?_cons, List.findSome?_cons, ih (List.pairwise_cons.mp honce).2]
  | swap x y rest =>
      have hnone := (List.pairwise_cons.mp honce).1 x (List.mem_cons_self ..)
      rcases hnone with hy | hx
      · simp only [List.findSome?_cons, hy]
      · simp only [List.findSome?_cons, hx]
  | trans hxy _ ih ih' =>
      have hsymm : ∀ x y, f x = none ∨ f y = none -> f y = none ∨ f x = none :=
        fun _ _ => Or.symm
      rw [ih honce, ih' ((hxy.pairwise_iff (hsymm _ _)).mp honce)]

namespace History

variable {definitions others : List (Text × Symbol.Binding)} {key : Text}

theorem findSome?_definitions {α : Type} {f : Call -> Option α}
    (hf : ∀ d : Text × Symbol.Binding, d.1.foldCase ≠ key -> f (.ofDefinition d) = none)
    (h : definitions.Perm others)
    (honce : (definitions.map fun d => d.1.foldCase).Nodup) :
    (definitions.map Call.ofDefinition).findSome? f =
      (others.map Call.ofDefinition).findSome? f := by
  refine findSome?_perm (h.map _) (List.pairwise_map.mpr ?_)
  refine (List.pairwise_map.mp honce).imp ?_
  intro d other hne
  by_cases hd : d.1.foldCase = key
  · exact .inr (hf other fun hother => hne (hd.trans hother.symm))
  · exact .inl (hf d hd)

/-- Definitions of different names may change places. -/
theorem entry_of_perm (calls : List Call) (h : definitions.Perm others)
    (honce : (definitions.map fun d => d.1.foldCase).Nodup) :
    entry (calls ++ definitions.map Call.ofDefinition) key =
      entry (calls ++ others.map Call.ofDefinition) key := by
  have hreferences : ∀ ds : List (Text × Symbol.Binding),
      references (ds.map Call.ofDefinition) key = [] := by
    intro ds
    simp [references, List.filterMap_map, Call.ofDefinition, Call.reference?]
  have hspelling : spelling (definitions.map Call.ofDefinition) key =
      spelling (others.map Call.ofDefinition) key :=
    findSome?_definitions (fun d hd => if_neg hd) h honce
  have hbinding : binding (definitions.map Call.ofDefinition) key =
      binding (others.map Call.ofDefinition) key :=
    findSome?_definitions (fun d hd => if_neg hd) h honce
  simp only [entry, spelling_append, binding_append, references_append, hreferences,
    hspelling, hbinding]

end History

/-!
## One listing
-/

/-- After any sequence of calls on a new table: the listing holds exactly the entries that
are bound, in strictly increasing order of value and folded name, so each of them once; the
pending names are in strictly increasing order of their folded forms.  Whatever order the
entries are visited in, and whatever sorts them, these are the lists that come out.  If
names that differ in more than case are then defined, the order of the definitions does
not show in the listing. -/
theorem symbols_listed_canonically (calls : List Call) :
    let table := after calls
    (∀ symbol, symbol ∈ table.symbols ↔
        symbol.isDefined = true ∧ ∃ name, table.lookup? name = some symbol) ∧
      table.symbols.Nodup ∧ table.symbols.Pairwise Symbol.Precedes ∧
      (table.undefined.map Text.foldCase).Pairwise Text.Before ∧
      (∀ visited, table.Enumerates visited ->
        (∀ listed, ListsBound visited listed -> listed = table.symbols) ∧
        ∀ keys, ListsPending visited keys ->
          keys.filterMap (fun key => table.entries[key]?.map Symbol.name) =
            table.undefined) ∧
      ∀ definitions others : List (Text × Symbol.Binding), definitions.Perm others ->
        (definitions.map fun d => d.1.foldCase).Nodup ->
        (table.answerAll (definitions.map Call.ofDefinition)).symbols =
          (table.answerAll (others.map Call.ofDefinition)).symbols := by
  intro table
  have hrecords := records_after calls
  refine ⟨?_, hrecords.nodup_symbols.of_map, hrecords.pairwise_symbols,
    hrecords.pairwise_undefined, ?_, ?_⟩
  · intro symbol
    rw [Records.mem_symbols, and_comm]
    refine and_congr_right fun _ => ⟨?_, ?_⟩
    · rintro ⟨key, hentry⟩
      refine ⟨symbol.name, ?_⟩
      rw [lookup?, hrecords.foldCase_name hentry, hentry]
    · rintro ⟨name, hlookup⟩
      exact ⟨name.foldCase, hlookup⟩
  · intro visited hvisited
    exact ⟨fun _ => hrecords.eq_symbols hvisited, fun _ => hrecords.eq_undefined hvisited⟩
  · intro definitions others hperm honce
    exact (hrecords.answerAll _).symbols_congr (hrecords.answerAll _)
      fun _ => History.entry_of_perm calls hperm honce

/-- Two symbols of one value and a pending name, visited from the last to the first, and
two more definitions in either order. -/
theorem symbols_listed_canonically_ties :
    let calls : List Call :=
      [.resolve "Loop".toList ⟨2, 5⟩, .define "LOOP".toList ⟨.label, 3⟩,
        .resolve "lost".toList ⟨4, 1⟩, .define "Far".toList ⟨.constant, 3⟩]
    let table := after calls
    let loop : Symbol := ⟨"Loop".toList, some ⟨.label, 3⟩, ⟨2, 5⟩⟩
    let far : Symbol := ⟨"Far".toList, some ⟨.constant, 3⟩, ⟨0, 0⟩⟩
    let lost : Symbol := ⟨"lost".toList, none, ⟨4, 1⟩⟩
    let visited := [("lost".toList, lost), ("loop".toList, loop), ("far".toList, far)]
    let first : Text × Symbol.Binding := ("Lost".toList, ⟨.label, 3⟩)
    let second : Text × Symbol.Binding := ("near".toList, ⟨.label, -1⟩)
    table.Enumerates visited ∧
      (ListsBound visited [far, loop] ∧ [far, loop] = table.symbols) ∧
      (ListsPending visited ["lost".toList] ∧ ["lost".toList] = table.undefined) ∧
      (table.answerAll [.ofDefinition first, .ofDefinition second]).symbols =
        (table.answerAll [.ofDefinition second, .ofDefinition first]).symbols := by
  intro calls table loop far lost visited first second
  have hentries : table.entries.toList = visited.reverse := by decide +kernel
  have hvisited : table.Enumerates visited := by
    have hall := table.enumerates_toList
    rw [hentries] at hall
    refine ⟨fun key symbol => ?_, by decide⟩
    rw [← hall.mem, List.mem_reverse]
  have hbound : ListsBound visited [far, loop] := ⟨by decide, by decide⟩
  have hpending : ListsPending visited ["lost".toList] := ⟨by decide, by decide⟩
  rcases symbols_listed_canonically calls with ⟨_, _, _, _, hlists, hdefine⟩
  refine ⟨hvisited, ⟨hbound, (hlists visited hvisited).1 _ hbound⟩, ⟨hpending, ?_⟩, ?_⟩
  · exact (by decide +kernel : ["lost".toList] = _).trans
      ((hlists visited hvisited).2 _ hpending)
  · exact hdefine [first, second] [second, first] (.swap ..) (by decide)

end SymbolTable

end Asm6502

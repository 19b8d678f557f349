import Asm6502.Proofs.References
import Asm6502.Proofs.SourceOrder

/-!
# Reports of undefined names

At the end of a run every name that some accepted statement referred to while it was
pending, and that no accepted statement defines, is reported once: in the spelling and at
the place of the first such reference.  The references of a run come in the order of the
source, so the reports do too.
-/

namespace Asm6502

def Mention.report (m : Mention) : Diagnostic :=
  ⟨.undefined m.name, m.position⟩

/-- No earlier reference is to the same name, in whatever case. -/
def Mention.FirstIn (m : Mention) (asked : List Mention) : Prop :=
  ∃ earlier later, asked = earlier ++ m :: later ∧
    ∀ n ∈ earlier, n.name.foldCase ≠ m.name.foldCase

theorem Mention.firstIn_iff {m : Mention} {asked : List Mention} :
    m.FirstIn asked ↔
      asked.find? (fun n => n.name.foldCase = m.name.foldCase) = some m := by
  rw [List.find?_eq_some_iff_append]
  simp [FirstIn]

instance {m : Mention} {asked : List Mention} : Decidable (m.FirstIn asked) :=
  decidable_of_iff _ Mention.firstIn_iff.symm

theorem Mention.FirstIn.mem {m : Mention} {asked : List Mention} (h : m.FirstIn asked) :
    m ∈ asked := by
  rcases h with ⟨earlier, later, rfl, _⟩
  exact List.mem_append_right _ (List.mem_cons_self ..)

theorem Mention.mem_filter_firstIn {m : Mention} {asked : List Mention}
    {defined : List Text} :
    m ∈ asked.filter (fun m => m.FirstIn asked ∧
        ∀ name ∈ defined, name.foldCase ≠ m.name.foldCase) ↔
      m.FirstIn asked ∧ ∀ name ∈ defined, name.foldCase ≠ m.name.foldCase := by
  rw [List.mem_filter, decide_eq_true_eq]
  exact and_iff_right_of_imp fun h => h.1.mem

/-!
## Calls
-/

namespace SymbolTable

def Call.mention? : Call -> Option Mention
  | resolve name position => some ⟨name, position⟩
  | _ => none

def Call.defines? : Call -> Option Text
  | define name _ => some name
  | _ => none

namespace History

variable {calls : List Call} {key : Text}

theorem binding_eq_none_iff : binding calls key = none ↔
    ∀ name ∈ calls.filterMap Call.defines?, name.foldCase ≠ key := by
  unfold binding
  rw [List.findSome?_eq_none_iff]
  constructor
  · intro h name hname
    rcases List.mem_filterMap.mp hname with ⟨call, hcall, heq⟩
    have hnone := h call hcall
    cases call with
    | define other bound =>
        cases heq
        simpa [Call.binding?] using hnone
    | resolve other position => cases heq
    | lookup other => cases heq
  · intro h call hcall
    cases call with
    | define name bound =>
        have hne := h name (List.mem_filterMap.mpr ⟨_, hcall, rfl⟩)
        simp [Call.binding?, hne]
    | resolve name position => rfl
    | lookup name => rfl

theorem entry_cons_of_silent {call : Call} (h : call.spelling? key = none) :
    entry (call :: calls) key = entry calls key := by
  rcases Call.silent_of_spelling? h with ⟨hbinding, hreference⟩
  simp only [entry, spelling, binding, references, List.findSome?_cons,
    List.filterMap_cons, h, hbinding, hreference]

theorem entry_of_unbound (hbinding : binding calls key = none)
    (hline : ∀ m ∈ calls.filterMap Call.mention?, m.position.line ≠ 0) :
    entry calls key =
      ((calls.filterMap Call.mention?).find? fun m => m.name.foldCase = key).map
        fun m => ⟨m.name, none, m.position⟩ := by
  induction calls with
  | nil => rfl
  | cons call rest ih =>
      have hnone : ∀ other ∈ call :: rest, other.binding? key = none :=
        List.findSome?_eq_none_iff.mp hbinding
      have hrest : binding rest key = none :=
        List.findSome?_eq_none_iff.mpr fun other hother =>
          hnone other (List.mem_cons_of_mem _ hother)
      cases call with
      | define name bound =>
          have hname := hnone _ (List.mem_cons_self ..)
          rw [entry_cons_of_silent (by simpa [Call.spelling?, Call.binding?] using hname)]
          exact ih hrest hline
      | resolve name position =>
          rw [List.filterMap_cons] at hline ⊢
          simp only [Call.mention?, List.find?_cons] at hline ⊢
          by_cases hname : name.foldCase = key
          · have hlocated := hline ⟨name, position⟩ (List.mem_cons_self ..)
            have hspelling : spelling (.resolve name position :: rest) key = some name := by
              simp [spelling, Call.spelling?, hname]
            rw [entry_eq_some hspelling, hbinding]
            simp [references, Call.reference?, firstLocated, hname, hlocated]
          · rw [entry_cons_of_silent (by simp [Call.spelling?, hname]),
              ih hrest fun m hm => hline m (List.mem_cons_of_mem _ hm)]
            simp [hname]
      | lookup name =>
          rw [entry_cons_of_silent rfl]
          exact ih hrest hline

end History

/-!
## Pending entries
-/

theorem pairwise_pendingByPosition (table : SymbolTable) :
    table.pendingByPosition.Pairwise fun s t => ¬t.position.Before s.position := by
  let upTo (s t : Symbol) : Bool :=
    s.position.line < t.position.line ||
      s.position.line == t.position.line && s.position.column ≤ t.position.column
  have hupTo : ∀ {s t : Symbol}, upTo s t = true ↔ ¬t.position.Before s.position := by
    intro s t
    simp only [upTo, Bool.or_eq_true, decide_eq_true_eq, Bool.and_eq_true, beq_iff_eq,
      Position.Before]
    omega
  have hsorted : table.pendingByPosition.Pairwise fun s t => upTo s t = true := by
    show (table.pending.mergeSort upTo).Pairwise _
    refine List.pairwise_mergeSort ?_ ?_ _
    · intro s t u
      rw [hupTo, hupTo, hupTo]
      unfold Position.Before
      omega
    · intro s t
      rw [Bool.or_eq_true, hupTo, hupTo]
      unfold Position.Before
      omega
  exact hsorted.imp hupTo.mp

theorem mem_pendingByPosition {table : SymbolTable} {s : Symbol} :
    s ∈ table.pendingByPosition ↔
      ∃ key : Text, table.entries[key]? = some s ∧ s.binding = none := by
  unfold pendingByPosition pending
  rw [List.mem_mergeSort, List.mem_filter, mem_toList]
  simp [Symbol.isDefined]

def reported (table : SymbolTable) : List Mention :=
  table.pendingByPosition.map fun s => ⟨s.name, s.position⟩

theorem undefinedReports_eq (table : SymbolTable) :
    table.undefinedReports = table.reported.map Mention.report := by
  unfold undefinedReports reported
  rw [List.map_map]
  rfl

namespace Records

variable {table : SymbolTable} {calls : List Call}

/-- The names that are reported are those never defined, each by its first reference. -/
theorem mem_reported (h : table.Records calls)
    (hline : ∀ m ∈ calls.filterMap Call.mention?, m.position.line ≠ 0) {m : Mention} :
    m ∈ table.reported ↔ m.FirstIn (calls.filterMap Call.mention?) ∧
      ∀ name ∈ calls.filterMap Call.defines?, name.foldCase ≠ m.name.foldCase := by
  rw [Mention.firstIn_iff, ← History.binding_eq_none_iff]
  unfold reported
  rw [List.mem_map]
  constructor
  · rintro ⟨s, hs, rfl⟩
    rcases mem_pendingByPosition.mp hs with ⟨key, hentry, hpending⟩
    have hkey := h.foldCase_name hentry
    subst hkey
    rw [h] at hentry
    have hbinding := (History.of_entry hentry).2.1.trans hpending
    rw [History.entry_of_unbound hbinding hline] at hentry
    rcases Option.map_eq_some_iff.mp hentry with ⟨n, hfirst, rfl⟩
    exact ⟨hfirst, hbinding⟩
  · rintro ⟨hfirst, hbinding⟩
    refine ⟨⟨m.name, none, m.position⟩, mem_pendingByPosition.mpr ?_, rfl⟩
    refine ⟨m.name.foldCase, ?_, rfl⟩
    rw [h, History.entry_of_unbound hbinding hline, hfirst]
    rfl

theorem nodup_reported (h : table.Records calls) :
    (table.reported.map fun m => m.name.foldCase).Nodup := by
  have hperm : (table.reported.map fun m => m.name.foldCase).Perm
      (table.undefined.map Text.foldCase) := by
    unfold reported undefined pendingByPosition
    rw [List.map_map, List.map_map]
    exact (List.mergeSort_perm _ _).map _
  exact hperm.nodup_iff.mpr h.nodup_undefined

end Records
end SymbolTable

/-!
## Calls of a run
-/

def Effect.calls : Effect -> List SymbolTable.Call
  | define name binding => [.define name binding]
  | append chunk => chunk.fixups.toList.map fun f => .resolve f.name f.position
  | _ => []

theorem Effect.mentions_calls (e : Effect) :
    e.calls.filterMap SymbolTable.Call.mention? = e.mentions := by
  cases e with
  | append chunk =>
      simp [calls, mentions, Chunk.mentions, List.filterMap_map, Function.comp_def,
        SymbolTable.Call.mention?]
  | define name binding => rfl
  | moveOrigin origin => rfl
  | setFiller filler => rfl

theorem Effect.defines_calls (e : Effect) :
    e.calls.filterMap SymbolTable.Call.defines? = e.defines?.toList := by
  cases e with
  | append chunk =>
      simp [calls, defines?, List.filterMap_map, Function.comp_def,
        SymbolTable.Call.defines?]
  | define name binding => rfl
  | moveOrigin origin => rfl
  | setFiller filler => rfl

def Image.calls (image : Image) (initial : UInt8) (s : Statement) :
    List SymbolTable.Call :=
  match image.effect initial s with
  | .ok e => e.calls
  | .error _ => []

namespace Image

variable {image : Image} {initial : UInt8} {s : Statement} {e : Effect}

theorem mentions_calls (h : image.effect initial s = .ok e) :
    (image.calls initial s).filterMap SymbolTable.Call.mention? =
      image.pendingMentions s := by
  rw [calls, h, ← (effect_enters h).mentions]
  exact e.mentions_calls

theorem defines_calls (h : image.effect initial s = .ok e) :
    (image.calls initial s).filterMap SymbolTable.Call.defines? = s.defines?.toList := by
  rw [calls, h, ← (effect_enters h).name]
  exact e.defines_calls

end Image

namespace SymbolTable.Records

theorem foldl_mention {table : SymbolTable} {calls : List Call} (h : table.Records calls)
    (fixups : List Fixup) :
    (fixups.foldl (fun t f => t.mention f.name f.position) table).Records
      (calls ++ fixups.map fun f => .resolve f.name f.position) := by
  induction fixups generalizing table calls with
  | nil => simpa using h
  | cons f rest ih => simpa using ih (h.mention f.name f.position)

theorem apply {image : Image} {calls : List Call} (h : image.symbols.Records calls)
    {e : Effect} {items : List Item} (he : image.Lays e items) :
    (image.apply e).symbols.Records (calls ++ e.calls) := by
  cases he with
  | define hfree => exact h.bind _ hfree
  | moveOrigin _ _ => simpa [Effect.calls, Image.apply] using h
  | setFiller => simpa [Effect.calls, Image.apply] using h
  | @append chunk _ _ _ =>
      have hmentions := h.foldl_mention chunk.fixups.toList
      rw [Array.foldl_toList] at hmentions
      exact hmentions

end SymbolTable.Records

namespace Session

variable {options : Options} {session : Session}

def calls (options : Options) (session : Session) (events : List Event) :
    List SymbolTable.Call :=
  (session.accepted options events).flatMap fun reached =>
    reached.1.calls options.filler reached.2

theorem records_foldl {calls : List SymbolTable.Call}
    (h : session.image.symbols.Records calls) (events : List Event) :
    (events.foldl (handle options) session).image.symbols.Records
      (calls ++ session.calls options events) := by
  induction events generalizing session calls with
  | nil => simpa [Session.calls, accepted] using h
  | cons event rest ih =>
      cases event with
      | report d => exact @ih (session.report d) calls h
      | statement s =>
          cases heffect : session.image.effect options.filler s with
          | error d =>
              have hrest := @ih (session.report d) calls h
              simpa [handle, Session.calls, accepted, not_accepts_of_error heffect,
                emit_of_error heffect] using hrest
          | ok e =>
              have hnext : (session.emit options s).image.symbols.Records
                  (calls ++ e.calls) := by
                rw [emit_of_ok heffect]
                exact h.apply (Image.effect_lays heffect)
              have hrest := ih hnext
              simpa [handle, Session.calls, accepted, accepts_of_ok heffect, Image.calls,
                heffect] using hrest

/-- The references of the accepted statements to names that are pending. -/
def asked (options : Options) (session : Session) (events : List Event) : List Mention :=
  (session.accepted options events).flatMap fun reached =>
    reached.1.pendingMentions reached.2

def defined (options : Options) (session : Session) (events : List Event) : List Text :=
  (session.accepted options events).filterMap fun reached => reached.2.defines?

theorem mentions_calls (events : List Event) :
    (session.calls options events).filterMap SymbolTable.Call.mention? =
      session.asked options events := by
  unfold calls asked
  rw [List.filterMap_flatMap]
  apply List.flatMap_congr
  intro reached hreached
  rcases resume_of_accepted hreached with ⟨_, _, e, heffect, _⟩
  exact Image.mentions_calls heffect

theorem defines_calls (events : List Event) :
    (session.calls options events).filterMap SymbolTable.Call.defines? =
      session.defined options events := by
  unfold calls defined
  rw [List.filterMap_flatMap, List.filterMap_eq_flatMap_toList]
  apply List.flatMap_congr
  intro reached hreached
  rcases resume_of_accepted hreached with ⟨_, _, e, heffect, _⟩
  exact Image.defines_calls heffect

/-!
### Order
-/

end Session

theorem SymbolTable.position_of_pending? {table : SymbolTable} {o : Operand} {m : Mention}
    (h : table.pending? o = some m) : m.position = o.position := by
  have hmention := (Option.filter_eq_some_iff.mp h).1
  unfold Operand.mention? at hmention
  split at hmention <;> cases hmention
  rfl

theorem Image.sublist_pendingMentions (image : Image) (s : Statement) :
    ((image.pendingMentions s).map Mention.position).Sublist
      (s.operands.map Operand.position) := by
  have hpending : ∀ operands : List Operand,
      ((operands.filterMap image.symbols.pending?).map Mention.position).Sublist
        (operands.map Operand.position) := by
    intro operands
    induction operands with
    | nil => exact List.nil_sublist _
    | cons o rest ih =>
        rw [List.filterMap_cons]
        cases hfirst : image.symbols.pending? o with
        | none => exact ih.cons _
        | some m =>
            rw [List.map_cons, List.map_cons, SymbolTable.position_of_pending? hfirst]
            exact ih.cons_cons _
  exact (hpending s.valued).trans (s.valued_sublist.map _)

namespace Session

variable {options : Options} {session : Session}

theorem sublist_asked (events : List Event) :
    ((session.asked options events).map Mention.position).Sublist
      (Event.operandPositions events) := by
  induction events generalizing session with
  | nil => exact List.nil_sublist _
  | cons event rest ih =>
      cases event with
      | report d => exact ih
      | statement s =>
          have hrest := @ih (session.emit options s)
          have hcons : Event.operandPositions (.statement s :: rest) =
              s.operands.map Operand.position ++ Event.operandPositions rest := rfl
          unfold asked accepted
          rw [hcons]
          dsimp only
          split
          · rw [List.flatMap_cons, List.map_append]
            exact (session.image.sublist_pendingMentions s).append hrest
          · exact hrest.trans (List.sublist_append_right _ _)

theorem kind_foldl (hsession : ∀ d ∈ session.diagnostics, d.kind ≠ .undefinedLabel)
    {events : List Event} (hevents : ∀ d, .report d ∈ events -> d.kind ≠ .undefinedLabel) :
    ∀ d ∈ (events.foldl (handle options) session).diagnostics,
      d.kind ≠ .undefinedLabel := by
  induction events generalizing session with
  | nil => exact hsession
  | cons event rest ih =>
      have hreport : ∀ {found : Diagnostic}, found.kind ≠ .undefinedLabel ->
          ∀ d ∈ (session.report found).diagnostics, d.kind ≠ .undefinedLabel := by
        intro found hfound d hd
        rcases Array.mem_push.mp hd with hd | rfl
        · exact hsession d hd
        · exact hfound
      refine ih ?_ fun d hd => hevents d (List.mem_cons_of_mem _ hd)
      cases event with
      | report found => exact hreport (hevents found (List.mem_cons_self ..))
      | statement s =>
          rw [handle]
          cases heffect : session.image.effect options.filler s with
          | ok e =>
              rw [emit_of_ok heffect]
              exact hsession
          | error found =>
              rw [emit_of_error heffect]
              exact hreport (Image.kind_of_effect heffect)

end Session

theorem Script.kind_of_report {source : Text} {d : Diagnostic}
    (h : .report d ∈ (Script.ofText source).events) : d.kind ≠ .undefinedLabel := by
  have hproper := Scan.proper_ofText source
  rcases Script.exists_passage_of_event hproper.ordered h with
    ⟨line, p, known, hknown, _, hevent⟩
  by_cases hown : (Event.report d).isOwn = true
  · by_cases hfails : (Scan.ofText source).FailsOn line
    · rcases p.label_of_failsOn hproper hknown hfails hown hevent with ⟨_, _, heq⟩
      cases heq
    · have hmem := List.mem_filter.mpr ⟨hevent, hown⟩
      rw [p.own_events hproper hknown hfails] at hmem
      rcases (Grammar.blames_of_mem_lineEvents hmem).kind with hkind | hkind
      · rw [hkind]
        decide
      · rw [hkind]
        decide
  · have hlexical : d.kind = .lexical := by simpa [Event.isOwn] using hown
    rw [hlexical]
    decide

/-- Different references that are sorted by position, and come from a list where the
position goes up, are in the order of that list. -/
theorem Mention.pairwise_before {asked mentions : List Mention}
    (hasked : asked.Pairwise fun m n => m.position.Before n.position)
    (hsubset : ∀ m ∈ mentions, m ∈ asked) (hnodup : mentions.Nodup)
    (hsorted : mentions.Pairwise fun m n => ¬n.position.Before m.position) :
    mentions.Pairwise fun m n => m.position.Before n.position := by
  let apart (m n : Mention) : Prop :=
    m.position.Before n.position ∨ n.position.Before m.position
  have hsymm : Std.Symm apart := ⟨fun _ _ => Or.symm⟩
  have hpairs : asked.Pairwise apart := hasked.imp .inl
  refine List.Pairwise.imp_of_mem ?_ (hsorted.and hnodup)
  rintro m n hm hn ⟨hnot, hne⟩
  exact (hpairs.forall (hsubset m hm) (hsubset n hn) hne).resolve_right hnot

theorem Session.kind_ne_undefinedLabel (options : Options) (source : Text) :
    let script := Script.ofText source
    let last := script.events.foldl (Session.handle options)
      (Session.start options script.opening)
    ∀ d ∈ last.diagnostics.toList ++ (Fixup.applyAll last.image.symbols last.image.bytes
      last.image.fixups.toList).faults.toList, d.kind ≠ .undefinedLabel := by
  intro script last d hd
  rcases List.mem_append.mp hd with hd | hd
  · refine Session.kind_foldl ?_ (fun d => Script.kind_of_report) d
      (Array.mem_toList_iff.mp hd)
    intro found hfound
    rw [Script.lexical_of_mem_opening (List.mem_toArray.mp hfound)]
    decide
  · have hempty : (Session.start options script.opening).image.LaidOut [] :=
      .start options.origin options.filler
    have hlaid : last.image.LaidOut
        ((Session.start options script.opening).layout options script.events) :=
      Session.foldl_handle_laidOut hempty script.events
    rw [hlaid.applyAll] at hd
    rw [Layout.kind_of_mem_misfits hd]
    decide

/-- For every source and all options: the reports of undefined names are the last
diagnostics of a run.  There is exactly one for each name, in whatever case, that some
accepted statement referred to while it was pending and that no accepted statement
defines.  It spells the name and points to the operand like the first such reference, and
from one report to the next the position goes up. -/
theorem undefined_names_reported_last (options : Options) (source : Text) :
    let script := Script.ofText source
    let reached := (Session.start options script.opening).accepted options script.events
    let asked := reached.flatMap fun r => r.1.pendingMentions r.2
    let defined := reached.filterMap fun r => r.2.defines?
    ∃ (before : List Diagnostic) (mentions : List Mention),
      (assemble options source).diagnostics = before ++ mentions.map Mention.report ∧
      (∀ d ∈ before, d.kind ≠ .undefinedLabel) ∧
      (∀ m : Mention, m ∈ mentions ↔ m.FirstIn asked ∧
        ∀ name ∈ defined, name.foldCase ≠ m.name.foldCase) ∧
      (mentions.map fun m => m.name.foldCase).Nodup ∧
      (mentions.Pairwise fun m n => m.position.Before n.position) ∧
      ∀ m ∈ mentions, m.report.kind = .undefinedLabel ∧
        m.report.message = "label " ++ String.ofList m.name ++ " is not defined" := by
  intro script reached asked defined
  let start := Session.start options script.opening
  let last := script.events.foldl (Session.handle options) start
  have hrecords : last.image.symbols.Records (start.calls options script.events) :=
    @Session.records_foldl options start [] (SymbolTable.records_after []) script.events
  have hmentions : (start.calls options script.events).filterMap
      SymbolTable.Call.mention? = asked := Session.mentions_calls script.events
  have hdefines : (start.calls options script.events).filterMap
      SymbolTable.Call.defines? = defined := Session.defines_calls script.events
  have hplaces : (asked.map Mention.position).Sublist
      (Event.operandPositions script.events) := Session.sublist_asked script.events
  have hasked : asked.Pairwise fun m n => m.position.Before n.position :=
    List.pairwise_map.mp ((Script.ordered_operands source).sublist hplaces)
  have hline : ∀ m ∈ asked, m.position.line ≠ 0 := fun m hm =>
    Int.ne_of_gt (Script.line_pos_of_mem_operands
      (hplaces.subset (List.mem_map_of_mem hm)))
  have hmem : ∀ m : Mention, m ∈ last.image.symbols.reported ↔ m.FirstIn asked ∧
      ∀ name ∈ defined, name.foldCase ≠ m.name.foldCase := by
    intro m
    rw [← hmentions, ← hdefines]
    exact hrecords.mem_reported (hmentions ▸ hline)
  have hdiagnostics : (assemble options source).diagnostics =
      last.finish.diagnostics.toList := rfl
  refine ⟨_, last.image.symbols.reported, ?_,
    Session.kind_ne_undefinedLabel options source, hmem, hrecords.nodup_reported, ?_, ?_⟩
  · rw [hdiagnostics, Session.toList_diagnostics_finish,
      SymbolTable.undefinedReports_eq]
  · refine Mention.pairwise_before hasked (fun m hm => ((hmem m).mp hm).1.mem)
      hrecords.nodup_reported.of_map ?_
    exact List.pairwise_map.mpr last.image.symbols.pairwise_pendingByPosition
  · intro m _
    exact ⟨rfl, rfl⟩

/-- A name is reported in its first spelling; one that is defined later, or that only a
refused statement uses, is not. -/
theorem undefined_names_reported_last_mixed_case :
    ∃ (before : List Diagnostic) (mentions : List Mention),
      (assemble {} "jmp Far\n.byte ghost, FAR, near\nbne lost, x\nnear: bit Ghost".toList
        ).diagnostics = before ++ mentions.map Mention.report ∧
      ∀ m : Mention, m ∈ mentions ↔
        m ∈ [⟨"Far".toList, ⟨1, 5⟩⟩, ⟨"ghost".toList, ⟨2, 7⟩⟩] := by
  rcases undefined_names_reported_last {}
      "jmp Far\n.byte ghost, FAR, near\nbne lost, x\nnear: bit Ghost".toList with
    ⟨before, mentions, hall, _, hmem, _⟩
  refine ⟨before, mentions, hall, fun m => ?_⟩
  rw [hmem, ← Mention.mem_filter_firstIn]
  exact iff_of_eq (congrArg (m ∈ ·) (by decide +kernel))

end Asm6502

import Mathlib.Data.List.SplitBy
import Asm6502.Disassembly.Data
import Asm6502.Proofs.Lexing
import Asm6502.Source.Event

/-!
# Sources with one statement to a line

A text that is written line by line, each line holding one statement, is read as
these statements and without a diagnostic.  Positions differ from line to line, so
a line is said to hold a statement up to positions: what it holds is a
`Statement.Content`.
-/

namespace Asm6502

namespace Statement

inductive Content where
  | label (name : Text)
  | instruction (operation : Operation) (operands : List Operand.Form)
  | directive (name : Text) (operands : List Operand.Form)
  deriving DecidableEq

def content (s : Statement) : Content :=
  match s.body with
  | .label name => .label name
  | .instruction operation operands =>
      .instruction operation (operands.map Operand.form)
  | .directive name operands => .directive name (operands.map Operand.form)

end Statement

/-!
## Rows without diagnostics
-/

theorem Scan.faults_of_mem_clean {tokens : List Token} {final : Token} {x : Lexeme}
    (h : x ∈ (⟨tokens.map Lexeme.clean, .clean final⟩ : Scan).toList) :
    x.faults = [] := by
  simp only [Scan.toList, List.mem_append, List.mem_map, List.mem_singleton] at h
  rcases h with ⟨token, _, rfl⟩ | rfl
  · rfl
  · rfl

def Token.sighting (t : Token) : Sighting := ⟨t, []⟩

namespace Row

/-- The tokens make up one event, whatever comes after them. -/
def Yields (tokens : List Token) (event : Event) : Prop :=
  ∀ (line : Int) (follow : Token),
    eventsOnto [] line follow.sighting false (tokens.map Token.sighting) = [event]

def Holds (tokens : List Token) (s : Statement) : Prop :=
  Yields tokens (.statement s)

theorem Yields.ne_nil {tokens : List Token} {event : Event} (h : Yields tokens event) :
    tokens ≠ [] := by
  rintro rfl
  have hevents := h 0 ⟨.endOfInput, [], ⟨0, 0⟩⟩
  cases hevents

theorem holds_label {name colon : Token} (h : Grammar.isLabel name colon = true) :
    Holds [name, colon] ⟨.label name.text, name.position⟩ := by
  intro line follow
  simp [eventsOnto, Token.sighting, h, pointsTo]

theorem unveiled_clean (follow : Token) (tokens : List Token) :
    unveiled follow.sighting (tokens.map Token.sighting) = [] := by
  rw [unveiled, List.flatMap_eq_nil_iff]
  intro seen hseen
  rcases List.mem_append.mp hseen with hrest | hfollow
  · rcases List.mem_map.mp (List.mem_of_mem_drop hrest) with ⟨token, _, rfl⟩
    rfl
  · rw [List.mem_singleton.mp hfollow]
    rfl

def ofStatement : Except Diagnostic Statement -> Event
  | .ok s => .statement s
  | .error d => .report d

theorem yields_statement {start : Token} {rest : List Token}
    {outcome : Except Diagnostic Statement}
    (hlabel : ∀ second ∈ rest.head?, Grammar.isLabel start second = false)
    (h : ∀ after, Grammar.statement after start rest = outcome) :
    Yields (start :: rest) (ofStatement outcome) := by
  have hlast : ∀ (line : Int) (follow : Token),
      lastEvents line follow.sighting false start.sighting
        (rest.map Token.sighting) = [ofStatement outcome] := by
    intro line follow
    have hfound := unveiled_clean follow (start :: rest)
    rw [List.map_cons] at hfound
    have htokens : (rest.map Token.sighting).map Sighting.token = rest := by
      simp [Function.comp_def, Token.sighting]
    have hstatement : Grammar.statement follow.sighting.token
        start.sighting.token rest = outcome := h follow
    cases outcome with
    | ok s => simp [lastEvents, hfound, htokens, hstatement, pointsTo, ofStatement]
    | error d => simp [lastEvents, hfound, htokens, hstatement, pointsTo, ofStatement]
  intro line follow
  cases rest with
  | nil => simpa [eventsOnto] using hlast line follow
  | cons second more =>
      simpa [eventsOnto, Token.sighting, hlabel second rfl] using hlast line follow

theorem holds_statement {start : Token} {rest : List Token} {s : Statement}
    (hlabel : start.kind ≠ .identifier)
    (h : ∀ after, Grammar.statement after start rest = .ok s) :
    Holds (start :: rest) s := by
  refine yields_statement (fun second _ => ?_) h
  simp [Grammar.isLabel, hlabel]

theorem badLines_clean (tokens : List Token) (follow : Token) :
    badLines ⟨tokens.map Token.sighting, follow.sighting⟩ = [] := by
  rw [badLines, unveiled_clean, List.map_nil]

theorem events_clean {tokens : List Token} {event : Event} (h : Yields tokens event)
    (follow : Token) :
    events [] ⟨tokens.map Token.sighting, follow.sighting⟩ = [event] :=
  h _ follow

/-!
## Tokens in rows
-/

/-- Every group of tokens has a line of its own; the lines are counted from the
given one. -/
def Numbered : Int -> List (List Token) -> Prop
  | _, [] => True
  | line, group :: rest =>
      (∀ t ∈ group, t.position.line = line) ∧ Numbered (line + 1) rest

theorem Numbered.sameLine {line : Int} {groups : List (List Token)}
    (h : Numbered line groups) {group : List Token} (hgroup : group ∈ groups)
    {s t : Token} (hs : s ∈ group) (ht : t ∈ group) :
    s.position.line = t.position.line := by
  induction groups generalizing line with
  | nil => cases hgroup
  | cons first rest ih =>
      rcases List.mem_cons.mp hgroup with rfl | hrest
      · rw [h.1 s hs, h.1 t ht]
      · exact ih h.2 hrest

/-- The groups come out again when their tokens are divided by lines. -/
theorem Numbered.splitBy {line : Int} {groups : List (List Token)}
    (h : Numbered line groups) (hne : [] ∉ groups) :
    (groups.flatten.map Token.sighting).splitBy
        (fun s t => s.token.position.line == t.token.position.line) =
      groups.map (List.map Token.sighting) := by
  rw [List.map_flatten]
  apply List.splitBy_flatten
  · simpa using hne
  -- Within a group all tokens are on one line.
  · intro row hrow
    rcases List.mem_map.mp hrow with ⟨group, hgroup, rfl⟩
    apply List.Pairwise.isChain
    rw [List.pairwise_map]
    apply List.pairwise_of_forall_mem_list
    intro s hs t ht
    simpa [Token.sighting] using h.sameLine hgroup hs ht
  -- Between groups the line goes up, so the last and the first token differ in it.
  · induction groups generalizing line with
    | nil => exact List.isChain_nil
    | cons first rest ih =>
        rw [List.mem_cons, not_or] at hne
        have htail := ih h.2 hne.2
        cases rest with
        | nil => exact List.isChain_singleton _
        | cons second more =>
            rw [List.map_cons, List.map_cons, List.isChain_cons_cons]
            refine ⟨?_, htail⟩
            have hfirst : first ≠ [] := Ne.symm hne.1
            have hsecond : second ≠ [] := by
              rintro rfl
              exact hne.2 (List.mem_cons_self ..)
            refine ⟨by simpa using hfirst, by simpa using hsecond, ?_⟩
            have hlast := h.1 _ (List.getLast_mem hfirst)
            have hhead := h.2.1 _ (List.head_mem hsecond)
            have hdiffer : ¬line = line + 1 := by omega
            simp [Token.sighting, hlast, hhead, hdiffer]

theorem zipWith_clean (tokens : List Token) (nexts : List Lexeme)
    (hlength : nexts.length = tokens.length)
    (hclean : ∀ next ∈ nexts, next.faults = []) :
    List.zipWith (fun here next => (⟨here.token, next.faults⟩ : Sighting))
        (tokens.map Lexeme.clean) nexts = tokens.map Token.sighting := by
  induction tokens generalizing nexts with
  | nil => rfl
  | cons token rest ih =>
      cases nexts with
      | nil => cases hlength
      | cons next more =>
          have hmore := ih more (Nat.succ.inj hlength)
            fun next hnext => hclean next (List.mem_cons_of_mem _ hnext)
          rw [List.map_cons, List.zipWith_cons_cons, hmore,
            hclean next (List.mem_cons_self ..)]
          rfl

theorem sightingsOf_clean (tokens : List Token) (final : Token) :
    sightingsOf ⟨tokens.map Lexeme.clean, .clean final⟩ =
      tokens.map Token.sighting := by
  apply zipWith_clean
  · simp [Scan.toList]
  · intro next hnext
    exact Scan.faults_of_mem_clean (List.mem_of_mem_drop hnext)

def follows (final : Token) (groups : List (List Token)) : List Token :=
  (groups.drop 1).map (fun group => group.headD final) ++ [final]

theorem ofScan_clean {line : Int} {groups : List (List Token)} (final : Token)
    (h : Numbered line groups) (hne : [] ∉ groups) :
    ofScan ⟨groups.flatten.map Lexeme.clean, .clean final⟩ =
      List.zipWith (fun group follow =>
        ⟨group.map Token.sighting, Token.sighting follow⟩) groups
        (follows final groups) := by
  have hfollows : ((groups.map (List.map Token.sighting)).drop 1).map
      (fun group => group.headD final.sighting) ++ [final.sighting] =
      (follows final groups).map Token.sighting := by
    simp [follows, ← List.map_drop, Function.comp_def]
  unfold ofScan
  rw [sightingsOf_clean]
  dsimp only
  rw [h.splitBy hne, List.zipWith_map_left]
  show List.zipWith _ groups (((groups.map (List.map Token.sighting)).drop 1).map
    (fun group => group.headD final.sighting) ++ [final.sighting]) = _
  rw [hfollows, List.zipWith_map_right]

end Row

/-!
## Events of a clean scan
-/

namespace Script

theorem foldl_step_clean {groups : List (List Token)} {events : List Event}
    (h : List.Forall₂ Row.Yields groups events) (follows : List Token)
    (hlength : groups.length ≤ follows.length) (found : Array Event) :
    (List.zipWith (fun group follow =>
        (⟨group.map Token.sighting, Token.sighting follow⟩ : Row)) groups
        follows).foldl Progress.step ⟨[], found⟩ =
      ⟨[], found ++ events.toArray⟩ := by
  induction h generalizing follows found with
  | nil => simp
  | cons hyields _ ih =>
      cases follows with
      | nil => cases hlength
      | cons follow more =>
          rw [List.zipWith_cons_cons, List.foldl_cons, Progress.step,
            Row.badLines_clean, Row.events_clean hyields]
          dsimp only
          rw [List.nil_append, ih more (Nat.le_of_succ_le_succ hlength)]
          simp

theorem nil_not_mem_of_yields {groups : List (List Token)} {events : List Event}
    (h : List.Forall₂ Row.Yields groups events) : [] ∉ groups := by
  induction h with
  | nil => exact List.not_mem_nil
  | cons hyields _ ih =>
      rw [List.mem_cons, not_or]
      exact ⟨Ne.symm hyields.ne_nil, ih⟩

theorem ofScan_clean {line : Int} {groups : List (List Token)} {events : List Event}
    (final : Token) (hlines : Row.Numbered line groups)
    (h : List.Forall₂ Row.Yields groups events) :
    ofScan ⟨groups.flatten.map Lexeme.clean, .clean final⟩ = ⟨[], events⟩ := by
  have hopening : ((⟨groups.flatten.map Lexeme.clean, .clean final⟩ :
      Scan).toList.take 2).flatMap Lexeme.faults = [] := by
    rw [List.flatMap_eq_nil_iff]
    intro lexeme hlexeme
    exact Scan.faults_of_mem_clean (List.mem_of_mem_take hlexeme)
  have hlength : groups.length ≤ (Row.follows final groups).length := by
    simp only [Row.follows, List.length_append, List.length_map, List.length_drop,
      List.length_singleton]
    omega
  unfold ofScan
  dsimp only
  rw [hopening, Row.ofScan_clean final hlines (nil_not_mem_of_yields h),
    List.map_nil, foldl_step_clean h _ hlength]
  simp

end Script

/-!
## Lines of text
-/

def Event.content? (event : Event) : Option Statement.Content :=
  event.statement?.map Statement.content

theorem Event.exists_statements {events : List Event} {contents : List Statement.Content}
    (h : events.map Event.content? = contents.map some) :
    ∃ statements : List Statement, statements.map Statement.content = contents ∧
      events = statements.map Event.statement := by
  induction events generalizing contents with
  | nil =>
      have hnil := List.map_eq_nil_iff.mp h.symm
      exact ⟨[], hnil.symm, rfl⟩
  | cons event rest ih =>
      cases contents with
      | nil => cases h
      | cons content contents =>
          rcases List.cons.inj h with ⟨hfirst, hrest⟩
          rcases ih hrest with ⟨statements, rfl, rfl⟩
          cases event with
          | report d => cases hfirst
          | statement s =>
              cases hfirst
              exact ⟨s :: statements, rfl, rfl⟩

namespace Text

/-- The line is read as one event, wherever it stands, and that says something or
nothing. -/
def Tells (line : Text) (content? : Option Statement.Content) : Prop :=
  ∃ tokens : Position -> List Token,
    (∀ rest, Scan.Reads line tokens ('\n' :: rest)) ∧
      ∀ p, ∃ event : Event, event.content? = content? ∧ Row.Yields (tokens p) event

def Says (line : Text) (content : Statement.Content) : Prop :=
  Tells line (some content)

theorem Says.intro {line : Text} {content : Statement.Content}
    {tokens : Position -> List Token}
    (hreads : ∀ rest, Scan.Reads line tokens ('\n' :: rest))
    (hholds : ∀ p, ∃ s : Statement, s.content = content ∧ Row.Holds (tokens p) s) :
    Says line content := by
  refine ⟨tokens, hreads, fun p => ?_⟩
  rcases hholds p with ⟨s, hs, hholds⟩
  exact ⟨.statement s, congrArg some hs, hholds⟩

end Text

namespace Scan

theorem onto_newline (done : List Lexeme) (p : Position) (rest : Text) :
    onto done [] p ('\n' :: rest) = onto done [] ⟨p.line + 1, 1⟩ rest := by
  rw [onto]
  rfl

theorem onto_ofLines {lines : List Text} {told : List (Option Statement.Content)}
    (h : List.Forall₂ Text.Tells lines told) (line : Int) (done : List Lexeme) :
    ∃ groups events, Row.Numbered line groups ∧
      List.Forall₂ Row.Yields groups events ∧
      events.map Event.content? = told ∧
      onto done [] ⟨line, 1⟩ (Text.ofLines lines) =
        ⟨done.reverse ++ groups.flatten.map Lexeme.clean,
          .clean ⟨.endOfInput, [], ⟨line + lines.length, 1⟩⟩⟩ := by
  induction h generalizing line done with
  | nil =>
      refine ⟨[], [], trivial, .nil, rfl, ?_⟩
      rw [Text.ofLines, List.flatMap_nil, onto]
      simp [Lexeme.clean]
  | @cons text content? lines told htells _ ih =>
      rcases htells with ⟨tokens, hreads, hyields⟩
      rcases hyields ⟨line, 1⟩ with ⟨event, rfl, hevent⟩
      have hread := hreads (Text.ofLines lines)
      rcases ih (line + 1)
        ((tokens ⟨line, 1⟩).reverse.map Lexeme.clean ++ done) with
        ⟨groups, events, hlines, hall, rfl, honto⟩
      refine ⟨tokens ⟨line, 1⟩ :: groups, event :: events,
        ⟨hread.line ⟨line, 1⟩, hlines⟩, .cons hevent hall, rfl, ?_⟩
      have htext : Text.ofLines (text :: lines) =
          text ++ '\n' :: Text.ofLines lines := by
        simp [Text.ofLines]
      rw [htext, hread.scan, onto_newline, Position.line_after hread.sameLine, honto]
      simp [Int.add_assoc, Int.add_comm 1]

end Scan

namespace Script

/-- A text of lines that yield one event each is read as these events. -/
theorem ofText_of_tells {lines : List Text} {told : List (Option Statement.Content)}
    (h : List.Forall₂ Text.Tells lines told) :
    ∃ events : List Event, events.map Event.content? = told ∧
      ofText (Text.ofLines lines) = ⟨[], events⟩ := by
  rcases Scan.onto_ofLines h 1 [] with
    ⟨groups, events, hlines, hyields, htold, hscan⟩
  refine ⟨events, htold, ?_⟩
  have hofText : Scan.ofText (Text.ofLines lines) =
      ⟨groups.flatten.map Lexeme.clean,
        .clean ⟨.endOfInput, [], ⟨1 + lines.length, 1⟩⟩⟩ := hscan
  rw [ofText, hofText]
  exact ofScan_clean _ hlines hyields

theorem ofText_ofLines {lines : List Text}
    {contents : List Statement.Content} (h : List.Forall₂ Text.Says lines contents) :
    ∃ statements : List Statement, statements.map Statement.content = contents ∧
      ofText (Text.ofLines lines) = ⟨[], statements.map Event.statement⟩ := by
  have htells : List.Forall₂ Text.Tells lines (contents.map some) :=
    List.forall₂_map_right_iff.mpr h
  rcases ofText_of_tells htells with ⟨events, htold, hscript⟩
  rcases Event.exists_statements htold with ⟨statements, hcontents, rfl⟩
  exact ⟨statements, hcontents, hscript⟩

end Script
end Asm6502

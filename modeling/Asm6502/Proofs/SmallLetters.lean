import Asm6502.Proofs.LetterCase
import Asm6502.Proofs.Turns

/-!
# Sources in small letters

The reader gives the same events for a source without quotes and for the same source in
small letters: the same statements up to the case of names, and the same diagnostics up to
what they quote.
-/

namespace Asm6502

def Diagnostic.Alike (d e : Diagnostic) : Prop :=
  d.kind = e.kind ∧ d.position = e.position

theorem Diagnostic.Alike.refl (d : Diagnostic) : d.Alike d :=
  ⟨rfl, rfl⟩

/-!
## Rows
-/

def Sighting.small (s : Sighting) : Sighting :=
  { s with token := s.token.small }

def Row.small (row : Row) : Row :=
  ⟨row.sightings.map Sighting.small, row.follow.small⟩

theorem Scan.toList_small (scan : Scan) :
    scan.small.toList = scan.toList.map Lexeme.small := by
  simp [toList, small]

namespace Row

theorem splitBy_map {α β : Type} (r : β -> β -> Bool) (f : α -> β) (l : List α) :
    (l.map f).splitBy r = (l.splitBy fun a b => r (f a) (f b)).map (List.map f) := by
  have hloop : ∀ (l : List α) (a : α) (group : List α) (groups : List (List α)),
      List.splitBy.loop r (l.map f) (f a) (group.map f) (groups.map (List.map f)) =
        (List.splitBy.loop (fun a b => r (f a) (f b)) l a group groups).map
          (List.map f) := by
    intro l
    induction l with
    | nil => simp [List.splitBy.loop]
    | cons b rest ih =>
        intro a group groups
        rw [List.map_cons, List.splitBy.loop, List.splitBy.loop]
        cases r (f a) (f b) with
        | true => exact ih b (a :: group) groups
        | false =>
            have hgroups := ih b [] ((a :: group).reverse :: groups)
            simpa using hgroups
  cases l with
  | nil => rfl
  | cons a rest => exact hloop rest a [] []

theorem sightingsOf_small (scan : Scan) :
    sightingsOf scan.small = (sightingsOf scan).map Sighting.small := by
  unfold sightingsOf
  rw [Scan.toList_small, ← List.map_drop, List.map_zipWith]
  exact List.zipWith_map ..

theorem headD_small (ts : List Sighting) (follow : Sighting) :
    (ts.map Sighting.small).headD follow.small = (ts.headD follow).small := by
  cases ts <;> rfl

theorem ofScan_small (scan : Scan) : ofScan scan.small = (ofScan scan).map Row.small := by
  let final : Sighting := ⟨scan.final.token, []⟩
  have hfollows : ∀ groups : List (List Sighting),
      ((groups.map (List.map Sighting.small)).drop 1).map
          (fun group => group.headD final.small) ++ [final.small] =
        ((groups.drop 1).map (fun group => group.headD final) ++ [final]).map
          Sighting.small := by
    intro groups
    rw [← List.map_drop, List.map_map, List.map_append, List.map_map]
    congr 1
    exact List.map_congr_left fun group _ => headD_small group final
  unfold ofScan
  dsimp only
  rw [sightingsOf_small, splitBy_map, List.map_zipWith]
  refine (congrArg (List.zipWith Row.mk _) (hfollows _)).trans ?_
  exact List.zipWith_map ..

theorem unveiled_small (follow : Sighting) (ts : List Sighting) :
    unveiled follow.small (ts.map Sighting.small) = unveiled follow ts := by
  unfold unveiled
  rw [← List.map_drop, List.flatMap_append, List.flatMap_append, List.flatMap_map]
  rfl

/-!
## Events
-/

end Row

abbrev Event.Small : Event -> Event -> Prop :=
  Event.Paired Diagnostic.Alike fun s t => t = Grammar.Change.small.statement s

theorem Event.small_reports (ds : List Diagnostic) :
    List.Forall₂ Event.Small (ds.map .report) (ds.map .report) := by
  refine List.forall₂_same.mpr fun e he => ?_
  rcases List.mem_map.mp he with ⟨d, _, rfl⟩
  exact .report (.refl d)

theorem Event.small_eventOf {x y : Except Diagnostic Statement}
    (h : Tracks Diagnostic.Alike Grammar.Change.small.statement x y) :
    Event.Small (Grammar.eventOf x) (Grammar.eventOf y) := by
  cases h with
  | ok hst => exact .statement hst
  | error hde => exact .report hde

namespace Row

theorem lastEvents_small (line : Int) (follow : Sighting) (failed : Bool)
    (start : Sighting) (rest : List Sighting) :
    List.Forall₂ Event.Small (lastEvents line follow failed start rest)
      (lastEvents line follow.small failed start.small (rest.map Sighting.small)) := by
  have hcovers : Grammar.Change.small.Covers Diagnostic.Alike follow.token
      follow.small.token := ⟨fun _ hkind => ⟨hkind, rfl⟩, fun hkind => ⟨hkind, rfl⟩⟩
  have htokens : (rest.map Sighting.small).map Sighting.token =
      (rest.map Sighting.token).map Grammar.Change.small.token := by
    rw [List.map_map, List.map_map]
    rfl
  rw [lastEvents_eq, lastEvents_eq, ← List.map_cons, unveiled_small, htokens]
  refine List.rel_append (Event.small_reports _) ?_
  split
  · exact .nil
  · exact .cons (Event.small_eventOf (Grammar.Change.tracks_statement hcovers ..)) .nil

theorem eventsOnto_small_cons (done : List Event) (line : Int) (follow : Sighting)
    (failed : Bool) (name colon : Sighting) (rest : List Sighting) :
    eventsOnto done line follow.small failed
        ((name :: colon :: rest).map Sighting.small) =
      let found := colon.ahead ++ (rest.headD follow).ahead
      let label : Event := .statement ⟨.label name.small.token.text, name.token.position⟩
      if Grammar.isLabel name.token colon.token then
        if failed || pointsTo line found then
          done.reverse ++ (unveiled follow (name :: colon :: rest)).map .report
        else
          eventsOnto (label :: (found.map .report).reverse ++ done) line follow.small failed
            (rest.map Sighting.small)
      else
        done.reverse ++ lastEvents line follow.small failed name.small
          ((colon :: rest).map Sighting.small) := by
  have hlabel : Grammar.isLabel name.small.token colon.small.token =
      Grammar.isLabel name.token colon.token := Grammar.Change.small.isLabel_token ..
  have hfound := unveiled_small follow (name :: colon :: rest)
  rw [List.map_cons, List.map_cons] at hfound ⊢
  rw [eventsOnto, hlabel, headD_small, hfound]
  rfl

theorem eventsOnto_small {done done' : List Event}
    (hdone : List.Forall₂ Event.Small done done') (line : Int) (follow : Sighting)
    (failed : Bool) (ts : List Sighting) :
    List.Forall₂ Event.Small (eventsOnto done line follow failed ts)
      (eventsOnto done' line follow.small failed (ts.map Sighting.small)) := by
  fun_induction eventsOnto done line follow failed ts generalizing done' with
  | case1 done => exact List.rel_reverse hdone
  | case2 done start =>
      exact List.rel_append (List.rel_reverse hdone) (lastEvents_small ..)
  | case3 done name colon rest hlabel found =>
      rename_i hfails
      rw [eventsOnto_small_cons]
      dsimp only
      rw [if_pos hlabel, if_pos hfails]
      exact List.rel_append (List.rel_reverse hdone) (Event.small_reports _)
  | case4 done name colon rest hlabel found =>
      rename_i hfails label ih
      have hkind : name.token.kind = .identifier := by
        simp only [Grammar.isLabel, Bool.and_eq_true, decide_eq_true_eq] at hlabel
        exact hlabel.1.1
      rw [eventsOnto_small_cons]
      dsimp only
      rw [if_pos hlabel, if_neg hfails]
      refine ih (.cons (.statement ?_) ?_)
      · rw [show name.small.token.text = _ from Grammar.Change.small.text_identifier hkind]
        rfl
      · exact List.rel_append (List.rel_reverse (Event.small_reports _)) hdone
  | case5 done name colon rest hlabel =>
      rw [eventsOnto_small_cons]
      dsimp only
      rw [if_neg hlabel]
      exact List.rel_append (List.rel_reverse hdone) (lastEvents_small ..)

theorem line_small (row : Row) : row.small.line = row.line := by
  unfold line
  rw [show row.small.sightings.headD row.small.follow = _ from headD_small ..]
  rfl

theorem events_small (bad : List Int) (row : Row) :
    List.Forall₂ Event.Small (row.events bad) (row.small.events bad) := by
  unfold events
  rw [line_small]
  exact eventsOnto_small .nil ..

theorem badLines_small (row : Row) : row.small.badLines = row.badLines := by
  unfold badLines
  rw [show unveiled row.small.follow row.small.sightings = _ from unveiled_small ..]

end Row

namespace Script

theorem turnsFrom_small (bad : List Int) (rows : List Row) :
    List.Forall₂ Event.Small ((turnsFrom bad rows).flatMap Turn.events)
      ((turnsFrom bad (rows.map Row.small)).flatMap Turn.events) := by
  induction rows generalizing bad with
  | nil => exact .nil
  | cons row rest ih =>
      rw [List.map_cons, turnsFrom, turnsFrom, Row.badLines_small, List.flatMap_cons,
        List.flatMap_cons]
      exact List.rel_append (row.events_small bad) (ih _)

/-- A source in small letters is read alike. -/
theorem ofScan_small (scan : Scan) :
    (ofScan scan.small).opening = (ofScan scan).opening ∧
      List.Forall₂ Event.Small (ofScan scan).events (ofScan scan.small).events := by
  have hopening : (scan.small.toList.take 2).flatMap Lexeme.faults =
      (scan.toList.take 2).flatMap Lexeme.faults := by
    rw [Scan.toList_small, ← List.map_take, List.flatMap_map]
    rfl
  refine ⟨hopening, ?_⟩
  rw [events_ofScan, events_ofScan]
  unfold turns
  rw [hopening, Row.ofScan_small]
  exact turnsFrom_small ..

end Script

end Asm6502

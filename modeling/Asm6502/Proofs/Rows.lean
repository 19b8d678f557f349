import Mathlib.Data.List.SplitBy
import Asm6502.Proofs.GrammarFaults
import Asm6502.Proofs.LineLocality

/-!
# Rows of a scan

The reader goes over a source row by row, and what it says of a row depends on three
things: the tokens of the row, the first token after it, and the lexical diagnostics
that have come to light by then.  This module says where in the scan all of them come
from.

The lexemes of a scan are in order: no token and no diagnostic lies on an earlier
line than a token before it.  So a row holds all tokens of its line, and once the
reader is through with a row, nothing more can come to light on its line.
-/

namespace Asm6502

/-!
## Order
-/

namespace Lexeme

/-- Neither a token nor a diagnostic lies on an earlier line than a token before
it. -/
def Ordered (xs : List Lexeme) : Prop :=
  xs.Pairwise fun x y => x.token.position.line ≤ y.token.position.line ∧
    ∀ d ∈ y.faults, x.token.position.line ≤ d.position.line

def Lexical (xs : List Lexeme) : Prop :=
  ∀ x ∈ xs, ∀ d ∈ x.faults, d.kind = .lexical

theorem Lexical.mono {xs ys : List Lexeme} (h : Lexical ys) (hsub : xs ⊆ ys) :
    Lexical xs :=
  fun x hx => h x (hsub hx)

def FailOn (line : Int) (xs : List Lexeme) : Prop :=
  ∃ x ∈ xs, ∃ d ∈ x.faults, d.position.line = line

theorem failOn_append {line : Int} {xs ys : List Lexeme} :
    FailOn line (xs ++ ys) ↔ FailOn line xs ∨ FailOn line ys := by
  unfold FailOn
  constructor
  · rintro ⟨x, hx, hd⟩
    rcases List.mem_append.mp hx with hx | hx
    · exact Or.inl ⟨x, hx, hd⟩
    · exact Or.inr ⟨x, hx, hd⟩
  · rintro (⟨x, hx, hd⟩ | ⟨x, hx, hd⟩)
    · exact ⟨x, List.mem_append_left _ hx, hd⟩
    · exact ⟨x, List.mem_append_right _ hx, hd⟩

theorem FailOn.mono {line : Int} {xs ys : List Lexeme} (h : FailOn line xs)
    (hsub : xs ⊆ ys) : FailOn line ys := by
  rcases h with ⟨x, hx, hd⟩
  exact ⟨x, hsub hx, hd⟩

theorem failOn_iff {line : Int} {xs : List Lexeme} :
    FailOn line xs ↔ ∃ d ∈ xs.flatMap Lexeme.faults, d.position.line = line := by
  unfold FailOn
  constructor
  · rintro ⟨x, hx, d, hd, hline⟩
    exact ⟨d, List.mem_flatMap.mpr ⟨x, hx, hd⟩, hline⟩
  · rintro ⟨d, hd, hline⟩
    rcases List.mem_flatMap.mp hd with ⟨x, hx, hd⟩
    exact ⟨x, hx, d, hd, hline⟩

end Lexeme

namespace Scan

open Lexeme (Ordered Lexical)

def FailsOn (scan : Scan) (line : Int) : Prop :=
  ∃ d ∈ scan.faults, d.position.line = line

instance (scan : Scan) (line : Int) : Decidable (scan.FailsOn line) :=
  inferInstanceAs (Decidable (∃ d ∈ scan.faults, d.position.line = line))

theorem failsOn_iff {scan : Scan} {line : Int} :
    scan.FailsOn line ↔ Lexeme.FailOn line scan.toList :=
  Lexeme.failOn_iff.symm

structure Onward (done : List Lexeme) (faults : List Diagnostic) (p : Position) :
    Prop where
  ordered : Ordered done.reverse
  token : ∀ x ∈ done, x.token.position.line ≤ p.line
  fault : ∀ x ∈ done, ∀ d ∈ faults, x.token.position.line ≤ d.position.line

variable {done : List Lexeme} {faults : List Diagnostic} {p : Position}

theorem Onward.snoc (h : Onward done faults p) (kind : Token.Kind) (text : Text)
    (own : List Diagnostic) (hown : ∀ d ∈ own, p.line ≤ d.position.line) :
    Ordered ((⟨⟨kind, text, p⟩, faults.reverse ++ own⟩ : Lexeme) :: done).reverse := by
  rw [List.reverse_cons]
  refine List.pairwise_append.mpr ⟨h.ordered, List.pairwise_singleton _ _, ?_⟩
  intro x hx y hy
  have hdone := List.mem_reverse.mp hx
  rw [List.mem_singleton.mp hy]
  refine ⟨h.token x hdone, ?_⟩
  intro d hd
  rcases List.mem_append.mp hd with hd | hd
  · exact h.fault x hdone d (List.mem_reverse.mp hd)
  · exact Int.le_trans (h.token x hdone) (hown d hd)

theorem ordered_onto (h : Onward done faults p) (t : Text) :
    Ordered (onto done faults p t).toList := by
  induction p, t using findings.induct generalizing done faults with
  | case1 p =>
      have hsnoc := h.snoc .endOfInput [] [] (fun d hd => nomatch hd)
      rw [List.append_nil, List.reverse_cons] at hsnoc
      rw [onto]
      exact hsnoc
  | case2 p c t ih =>
      have hfaults : ∀ d ∈ (Lexeme.read p c t).faults, p.line ≤ d.position.line :=
        fun d hd => (Lexeme.faultsFrom_read p c t d hd).2
      have hposition : p.line ≤ (Lexeme.read p c t).position.line := by
        rcases Lexeme.takes_read p c t with ⟨used, _, hused⟩
        rw [hused]
        exact Position.line_le_after p used
      rw [onto]
      cases (Lexeme.read p c t).token with
      | none =>
          refine ih ⟨h.ordered, ?_, ?_⟩
          · intro x hx
            exact Int.le_trans (h.token x hx) hposition
          · intro x hx d hd
            rcases List.mem_append.mp hd with hd | hd
            · exact Int.le_trans (h.token x hx) (hfaults d (List.mem_reverse.mp hd))
            · exact h.fault x hx d hd
      | some found =>
          refine ih ⟨h.snoc found.1 found.2 _ hfaults, ?_, fun x _ d hd => nomatch hd⟩
          intro x hx
          rcases List.mem_cons.mp hx with rfl | hx
          · exact hposition
          · exact Int.le_trans (h.token x hx) hposition

theorem ordered_ofText (t : Text) : Ordered (ofText t).toList := by
  have hstart : Onward [] [] .start :=
    ⟨.nil, fun _ hx => absurd hx List.not_mem_nil,
      fun _ hx => absurd hx List.not_mem_nil⟩
  exact ordered_onto hstart t

theorem lexical_of_mem_findings {t : Text} {d : Diagnostic}
    (hd : d ∈ (findings p t).flatMap Finding.faults) : d.kind = .lexical := by
  fun_induction findings p t with
  | case1 p => cases hd
  | case2 p c t ih =>
      rw [List.flatMap_cons] at hd
      rcases List.mem_append.mp hd with hd | hd
      · exact (Lexeme.faultsFrom_read p c t d hd).1
      · exact ih hd

/-- What holds of the scan of every source. -/
structure Proper (scan : Scan) : Prop where
  ordered : Ordered scan.toList
  lexical : Lexical scan.toList

theorem proper_ofText (t : Text) : (ofText t).Proper := by
  refine ⟨ordered_ofText t, ?_⟩
  intro x hx d hd
  have hfault : d ∈ (ofText t).faults := List.mem_flatMap.mpr ⟨x, hx, hd⟩
  rw [faults_ofText] at hfault
  exact lexical_of_mem_findings hfault

end Scan

/-!
## Sightings
-/

namespace Sighting

def of (x : Lexeme) (rest : List Lexeme) : Sighting :=
  ⟨x.token, (rest.take 1).flatMap Lexeme.faults⟩

def all : List Lexeme -> List Lexeme -> List Sighting
  | [], _ => []
  | x :: more, rest => of x (more ++ rest) :: all more rest

theorem all_append (xs ys rest : List Lexeme) :
    all (xs ++ ys) rest = all xs (ys ++ rest) ++ all ys rest := by
  induction xs with
  | nil => rfl
  | cons x more ih =>
      rw [List.cons_append, all, all, ih, List.append_assoc]
      rfl

theorem map_token_all (xs rest : List Lexeme) :
    (all xs rest).map Sighting.token = xs.map Lexeme.token := by
  induction xs with
  | nil => rfl
  | cons x more ih =>
      rw [all, List.map_cons, ih]
      rfl

theorem all_eq_nil_iff {xs rest : List Lexeme} : all xs rest = [] ↔ xs = [] := by
  cases xs <;> simp [all]

/-- The diagnostics of the first lexeme and what lies ahead of each of them are the
diagnostics of all of them and of the one after. -/
theorem faults_ahead (x : Lexeme) (more rest : List Lexeme) :
    x.faults ++ (all (x :: more) rest).flatMap Sighting.ahead =
      (x :: more ++ rest.take 1).flatMap Lexeme.faults := by
  induction more generalizing x with
  | nil => simp [all, of]
  | cons y more ih =>
      rw [all, List.flatMap_cons]
      have hahead : (of x (y :: more ++ rest)).ahead = y.faults := by
        simp [of]
      rw [hahead, ih, List.cons_append (a := x), List.flatMap_cons (x := x)]

end Sighting

namespace Row

theorem sightingsOf_eq (scan : Scan) :
    sightingsOf scan = Sighting.all scan.lexemes [scan.final] := by
  rcases scan with ⟨lexemes, final⟩
  unfold sightingsOf Scan.toList
  induction lexemes with
  | nil => rfl
  | cons x more ih =>
      rw [Sighting.all, ← ih]
      cases more with
      | nil => simp [Sighting.of]
      | cons y more => simp [Sighting.of]

theorem headD_all {lexemes later : List Lexeme} {follow final : Lexeme}
    (hrest : lexemes ++ [final] = follow :: later) :
    (Sighting.all lexemes [final]).headD ⟨final.token, []⟩ =
      Sighting.of follow later := by
  cases lexemes with
  | nil =>
      cases hrest
      rfl
  | cons x more =>
      cases hrest
      rfl

theorem headD_splitBy (same : Sighting -> Sighting -> Bool) (seen : List Sighting)
    (final : Sighting) :
    ((seen.splitBy same).headD []).headD final = seen.headD final := by
  have hflatten := List.flatten_splitBy same seen
  cases hgroups : seen.splitBy same with
  | nil =>
      rw [hgroups] at hflatten
      rw [← hflatten]
      rfl
  | cons group groups =>
      have hne : group ≠ [] := by
        apply List.ne_nil_of_mem_splitBy (r := same) (l := seen)
        rw [hgroups]
        exact List.mem_cons_self ..
      rw [hgroups] at hflatten
      rw [← hflatten]
      cases group with
      | nil => exact absurd rfl hne
      | cons first more => rfl

theorem zipWith_follow (final : Sighting) (group : List Sighting)
    (groups : List (List Sighting)) :
    List.zipWith Row.mk (group :: groups)
        (groups.map (fun next => next.headD final) ++ [final]) =
      ⟨group, (groups.headD []).headD final⟩ ::
        List.zipWith Row.mk groups
          ((groups.drop 1).map (fun next => next.headD final) ++ [final]) := by
  cases groups with
  | nil => rfl
  | cons next more => rfl

theorem ofScan_append {line : Int} {group lexemes later : List Lexeme}
    {follow final : Lexeme} (hne : group ≠ [])
    (hline : ∀ x ∈ group, x.token.position.line = line)
    (hnext : ∀ x ∈ lexemes.head?, x.token.position.line ≠ line)
    (hrest : lexemes ++ [final] = follow :: later) :
    ofScan ⟨group ++ lexemes, final⟩ =
      ⟨Sighting.all group (follow :: later), Sighting.of follow later⟩ ::
        ofScan ⟨lexemes, final⟩ := by
  let sameLine : Sighting -> Sighting -> Bool := fun s t =>
    s.token.position.line == t.token.position.line
  have hseen : ∀ s ∈ Sighting.all group (follow :: later),
      s.token.position.line = line := by
    intro s hs
    have htoken : s.token ∈ group.map Lexeme.token := by
      rw [← Sighting.map_token_all group (follow :: later)]
      exact List.mem_map_of_mem hs
    rcases List.mem_map.mp htoken with ⟨x, hx, heq⟩
    rw [← heq]
    exact hline x hx
  have hchain : (Sighting.all group (follow :: later)).IsChain
      fun s t => sameLine s t = true := by
    apply List.Pairwise.isChain
    apply List.pairwise_of_forall_mem_list
    intro s hs t ht
    simp [sameLine, hseen s hs, hseen t ht]
  have hsplit : (sightingsOf ⟨group ++ lexemes, final⟩).splitBy sameLine =
      Sighting.all group (follow :: later) ::
        (sightingsOf ⟨lexemes, final⟩).splitBy sameLine := by
    rw [sightingsOf_eq, sightingsOf_eq, Sighting.all_append, hrest,
      List.splitBy_append,
      List.splitBy_of_isChain (fun hnil => hne (Sighting.all_eq_nil_iff.mp hnil))
        hchain]
    · rfl
    · intro s hs t ht
      have hs := hseen s (List.mem_of_mem_getLast? hs)
      cases lexemes with
      | nil => cases ht
      | cons x more =>
          cases ht
          have hx := hnext x rfl
          simp [sameLine, hs, Sighting.of, Ne.symm hx]
  unfold ofScan
  dsimp only
  rw [hsplit, List.drop_one, List.tail_cons, zipWith_follow, headD_splitBy,
    sightingsOf_eq, headD_all hrest]

/-!
## What comes to light
-/

theorem pointsTo_iff {line : Int} {ds : List Diagnostic} :
    pointsTo line ds = true ↔ ∃ d ∈ ds, d.position.line = line := by
  simp [pointsTo]

theorem pointsTo_faults {line : Int} {xs : List Lexeme} :
    pointsTo line (xs.flatMap Lexeme.faults) = true ↔ Lexeme.FailOn line xs :=
  pointsTo_iff.trans Lexeme.failOn_iff.symm

theorem pointsTo_append (line : Int) (ds es : List Diagnostic) :
    pointsTo line (ds ++ es) = (pointsTo line ds || pointsTo line es) :=
  List.any_append

variable {line : Int} {x follow : Lexeme} {group later : List Lexeme}

theorem unveiled_all (x follow : Lexeme) (group later : List Lexeme) :
    unveiled (.of follow later) (Sighting.all (x :: group) (follow :: later)) =
      (Sighting.all (group ++ [follow]) later).flatMap Sighting.ahead := by
  rw [Sighting.all_append]
  rfl

/-- What was known when the row began, together with what came to light on the way,
are the diagnostics up to the second lexeme after the row. -/
theorem faults_unveiled (x follow : Lexeme) (group later : List Lexeme) :
    ((x :: group ++ follow :: later).take 2).flatMap Lexeme.faults ++
        unveiled (.of follow later) (Sighting.all (x :: group) (follow :: later)) =
      (x :: group ++ follow :: later.take 1).flatMap Lexeme.faults := by
  rw [unveiled_all]
  cases group with
  | nil =>
      have hahead := Sighting.faults_ahead follow [] later
      simp only [List.nil_append, List.cons_append, List.take_succ_cons, List.take_zero,
        List.flatMap_cons, List.flatMap_nil, List.append_nil, List.append_assoc] at hahead ⊢
      rw [hahead]
  | cons y more =>
      have hahead := Sighting.faults_ahead y (more ++ [follow]) later
      simp only [List.cons_append, List.take_succ_cons, List.take_zero,
        List.flatMap_cons, List.flatMap_nil, List.append_nil, List.append_assoc,
        List.nil_append] at hahead ⊢
      rw [hahead]

theorem lexical_unveiled
    (hlexical : Lexeme.Lexical (x :: group ++ follow :: later)) :
    ∀ d ∈ unveiled (.of follow later) (Sighting.all (x :: group) (follow :: later)),
      d.kind = .lexical := by
  intro d hd
  have hmem : d ∈ (x :: group ++ follow :: later.take 1).flatMap Lexeme.faults := by
    rw [← faults_unveiled]
    exact List.mem_append_right _ hd
  rcases List.mem_flatMap.mp hmem with ⟨y, hy, hd⟩
  refine hlexical.mono ?_ y hy d hd
  have hlater : follow :: later.take 1 ⊆ follow :: later :=
    List.cons_subset_cons _ (List.take_subset ..)
  exact List.append_subset.mpr ⟨List.subset_append_left ..,
    List.Subset.trans hlater (List.subset_append_right ..)⟩

theorem label_found (colon follow : Lexeme) (more later : List Lexeme) :
    (Sighting.of colon (more ++ follow :: later)).ahead ++
        ((Sighting.all more (follow :: later)).headD (.of follow later)).ahead =
      ((more ++ follow :: later).take 2).flatMap Lexeme.faults := by
  cases more with
  | nil => simp [Sighting.of, Sighting.all]
  | cons y more =>
      cases more with
      | nil => simp [Sighting.of, Sighting.all]
      | cons z more => simp [Sighting.of, Sighting.all]

end Row

/-!
## Events of the grammar

An event comes from the grammar unless it is a lexical diagnostic.
-/

/-- Whether an event is a statement or a diagnostic of the grammar. -/
def Event.isOwn : Event -> Bool
  | .statement _ => true
  | .report d => d.kind ≠ .lexical

theorem filter_isOwn_lexical {ds : List Diagnostic} (h : ∀ d ∈ ds, d.kind = .lexical) :
    (ds.map Event.report).filter Event.isOwn = [] := by
  rw [List.filter_eq_nil_iff]
  intro e he
  rcases List.mem_map.mp he with ⟨d, hd, rfl⟩
  simp [Event.isOwn, h d hd]

theorem isOwn_eventOf (after start : Token) (ts : List Token) :
    (Grammar.eventOf (Grammar.statement after start ts)).isOwn = true := by
  cases hstatement : Grammar.statement after start ts with
  | ok s => rfl
  | error d => exact decide_eq_true (Grammar.statement_eq_error hstatement).kind_ne

namespace Row

variable {line : Int} {x follow : Lexeme} {group later : List Lexeme}

theorem lastEvents_eq (line : Int) (follow : Sighting) (failed : Bool)
    (start : Sighting) (rest : List Sighting) :
    lastEvents line follow failed start rest =
      (unveiled follow (start :: rest)).map .report ++
        if failed || pointsTo line (unveiled follow (start :: rest)) then []
        else [Grammar.eventOf
          (Grammar.statement follow.token start.token (rest.map Sighting.token))] := by
  unfold lastEvents
  dsimp only
  cases Grammar.statement follow.token start.token (rest.map Sighting.token) with
  | ok s => rfl
  | error d => rfl

theorem own_lastEvents (line : Int) (failed : Bool)
    (hlexical : Lexeme.Lexical (x :: group ++ follow :: later)) :
    (lastEvents line (.of follow later) failed (.of x (group ++ follow :: later))
        (Sighting.all group (follow :: later))).filter Event.isOwn =
      if failed ||
        pointsTo line
          (unveiled (.of follow later) (Sighting.all (x :: group) (follow :: later)))
      then []
      else [Grammar.eventOf
        (Grammar.statement follow.token x.token (group.map Lexeme.token))] := by
  rw [lastEvents_eq, List.filter_append, Sighting.map_token_all]
  have hfound := filter_isOwn_lexical (lexical_unveiled hlexical)
  rw [Sighting.all] at hfound ⊢
  rw [hfound, List.nil_append]
  split
  · rfl
  · exact List.filter_cons_of_pos (isOwn_eventOf ..)

theorem own_lastEvents_of_known {failed : Bool}
    (hlexical : Lexeme.Lexical (x :: group ++ follow :: later))
    (hknown : (failed || pointsTo line
      (unveiled (.of follow later) (Sighting.all (x :: group) (follow :: later)))) =
        true) :
    (lastEvents line (.of follow later) failed (.of x (group ++ follow :: later))
        (Sighting.all group (follow :: later))).filter Event.isOwn = [] := by
  rw [own_lastEvents line failed hlexical, hknown, if_pos rfl]

theorem own_lastEvents_of_clean
    (hlexical : Lexeme.Lexical (x :: group ++ follow :: later))
    (hclean : ¬Lexeme.FailOn line (x :: group ++ follow :: later.take 1)) :
    (lastEvents line (.of follow later) false (.of x (group ++ follow :: later))
        (Sighting.all group (follow :: later))).filter Event.isOwn =
      [Grammar.eventOf
        (Grammar.statement follow.token x.token (group.map Lexeme.token))] := by
  rw [own_lastEvents line false hlexical, if_neg]
  intro hpoints
  apply hclean
  rcases pointsTo_iff.mp hpoints with ⟨d, hd, hline⟩
  rw [Lexeme.failOn_iff, ← faults_unveiled]
  exact ⟨d, List.mem_append_right _ hd, hline⟩

theorem take_two_subset (group : List Lexeme) (follow : Lexeme) (later : List Lexeme) :
    (group ++ follow :: later).take 2 ⊆ group ++ follow :: later.take 1 := by
  match group with
  | [] => exact List.Subset.refl _
  | [x] => simp
  | x :: y :: more => simp

theorem eventsOnto_single (done : List Event) (line : Int) (failed : Bool)
    (x follow : Lexeme) (later : List Lexeme) :
    eventsOnto done line (.of follow later) failed
        (Sighting.all [x] (follow :: later)) =
      done.reverse ++
        lastEvents line (.of follow later) failed (.of x ([] ++ follow :: later))
          (Sighting.all [] (follow :: later)) :=
  rfl

theorem eventsOnto_all (done : List Event) (line : Int) (failed : Bool)
    (name colon : Lexeme) (rest : List Lexeme) (follow : Lexeme) (later : List Lexeme) :
    eventsOnto done line (.of follow later) failed
        (Sighting.all (name :: colon :: rest) (follow :: later)) =
      if Grammar.isLabel name.token colon.token then
        if failed ||
          pointsTo line (((rest ++ follow :: later).take 2).flatMap Lexeme.faults)
        then
          done.reverse ++ (unveiled (.of follow later)
            (Sighting.all (name :: colon :: rest) (follow :: later))).map .report
        else
          eventsOnto
            (.statement ⟨.label name.token.text, name.token.position⟩ ::
              ((((rest ++ follow :: later).take 2).flatMap Lexeme.faults).map
                Event.report).reverse ++ done)
            line (.of follow later) failed (Sighting.all rest (follow :: later))
      else
        done.reverse ++
          lastEvents line (.of follow later) failed
            (.of name (colon :: rest ++ follow :: later))
            (Sighting.all (colon :: rest) (follow :: later)) := by
  rw [← label_found colon]
  rfl

theorem own_ahead
    (hlexical : Lexeme.Lexical (group ++ follow :: later)) :
    ((((group ++ follow :: later).take 2).flatMap Lexeme.faults).map
      Event.report).filter Event.isOwn = [] := by
  apply filter_isOwn_lexical
  intro d hd
  rcases List.mem_flatMap.mp hd with ⟨y, hy, hd⟩
  exact hlexical y (List.mem_of_mem_take hy) d hd

/-- As long as nothing is wrong with the characters of a line, the events of its row
are what the grammar makes of its tokens. -/
theorem own_eventsOnto (done : List Event) :
    (group : List Lexeme) ->
    Lexeme.Lexical (group ++ follow :: later) ->
    ¬Lexeme.FailOn line (group ++ follow :: later.take 1) ->
    (eventsOnto done line (.of follow later) false
        (Sighting.all group (follow :: later))).filter Event.isOwn =
      done.reverse.filter Event.isOwn ++
        Grammar.lineEvents follow.token (group.map Lexeme.token)
  | [], _, _ => by
      rw [Sighting.all, eventsOnto, List.map_nil, Grammar.lineEvents, List.append_nil]
  | [x], hlexical, hclean => by
      rw [eventsOnto_single, List.filter_append, own_lastEvents_of_clean hlexical hclean]
      rfl
  | name :: colon :: rest, hlexical, hclean => by
      have hsub : rest ++ follow :: later.take 1 ⊆
          name :: colon :: rest ++ follow :: later.take 1 :=
        List.Subset.trans (List.subset_cons_self ..) (List.subset_cons_self ..)
      have hmore : Lexeme.Lexical (rest ++ follow :: later) :=
        hlexical.mono (List.Subset.trans (List.subset_cons_self ..) (List.subset_cons_self ..))
      have hfound : pointsTo line
          (((rest ++ follow :: later).take 2).flatMap Lexeme.faults) = false := by
        rw [Bool.eq_false_iff]
        intro hpoints
        exact hclean (((pointsTo_faults.mp hpoints).mono (take_two_subset ..)).mono hsub)
      rw [eventsOnto_all, hfound, Bool.false_or, List.map_cons, List.map_cons,
        Grammar.lineEvents]
      cases Grammar.isLabel name.token colon.token with
      | true =>
          rw [if_pos rfl, if_pos rfl, if_neg Bool.false_ne_true,
            own_eventsOnto _ rest hmore fun hfails => hclean (hfails.mono hsub),
            List.cons_append, List.reverse_cons, List.reverse_append,
            List.reverse_reverse, List.filter_append, List.filter_append,
            own_ahead hmore, List.append_nil, List.append_assoc]
          rfl
      | false =>
          rw [if_neg Bool.false_ne_true, if_neg Bool.false_ne_true, List.filter_append,
            own_lastEvents_of_clean hlexical hclean]
          rfl

theorem unveiled_label (name colon x : Lexeme) (more : List Lexeme) (follow : Lexeme)
    (later : List Lexeme) :
    unveiled (.of follow later)
        (Sighting.all (name :: colon :: x :: more) (follow :: later)) =
      ((x :: more ++ follow :: later).take 2).flatMap Lexeme.faults ++
        unveiled (.of follow later) (Sighting.all (x :: more) (follow :: later)) := by
  rw [← label_found colon, List.append_assoc]
  rfl

/-- A row on whose line a diagnostic is known by the end gives nothing but labels. -/
theorem label_of_mem_eventsOnto {failed : Bool} {e : Event} (done : List Event) :
    (group : List Lexeme) ->
    Lexeme.Lexical (group ++ follow :: later) ->
    (failed || pointsTo line
      (unveiled (.of follow later) (Sighting.all group (follow :: later)))) = true ->
    e ∈ (eventsOnto done line (.of follow later) failed
      (Sighting.all group (follow :: later))).filter Event.isOwn ->
    e ∈ done ∨ ∃ name position, e = .statement ⟨.label name, position⟩
  | [], _, _, he => by
      rw [Sighting.all, eventsOnto] at he
      exact Or.inl (List.mem_reverse.mp (List.mem_filter.mp he).1)
  | [x], hlexical, hknown, he => by
      rw [eventsOnto_single, List.filter_append, own_lastEvents_of_known hlexical hknown,
        List.append_nil] at he
      exact Or.inl (List.mem_reverse.mp (List.mem_filter.mp he).1)
  | name :: colon :: rest, hlexical, hknown, he => by
      have hmore : Lexeme.Lexical (rest ++ follow :: later) :=
        hlexical.mono (List.Subset.trans (List.subset_cons_self ..) (List.subset_cons_self ..))
      rw [eventsOnto_all] at he
      split at he
      · split at he
        · rw [List.filter_append, filter_isOwn_lexical (lexical_unveiled hlexical),
            List.append_nil] at he
          exact Or.inl (List.mem_reverse.mp (List.mem_filter.mp he).1)
        · rename_i hfound
          -- The diagnostic is still to come, so there is more of the row.
          cases rest with
          | nil =>
              have hlast : unveiled (.of follow later)
                  (Sighting.all [name, colon] (follow :: later)) =
                    (([] ++ follow :: later).take 2).flatMap Lexeme.faults := by
                rw [← label_found colon]
                simp [unveiled, Sighting.all]
              rw [hlast] at hknown
              exact absurd hknown hfound
          | cons x more =>
              have hrest : (failed || pointsTo line (unveiled (.of follow later)
                  (Sighting.all (x :: more) (follow :: later)))) = true := by
                rw [unveiled_label, pointsTo_append, ← Bool.or_assoc] at hknown
                rcases (Bool.or_eq_true _ _).mp hknown with h | h
                · exact absurd h hfound
                · rw [h, Bool.or_true]
              rcases label_of_mem_eventsOnto _ (x :: more) hmore hrest he with h | h
              · rcases List.mem_append.mp h with h | h
                · rcases List.mem_cons.mp h with h | h
                  · exact Or.inr ⟨_, _, h⟩
                  · have hreports := List.filter_eq_nil_iff.mp (own_ahead hmore)
                    exact absurd (List.mem_filter.mp he).2
                      (hreports e (List.mem_reverse.mp h))
                · exact Or.inl h
              · exact Or.inr h
      · rw [List.filter_append, own_lastEvents_of_known hlexical hknown,
          List.append_nil] at he
        exact Or.inl (List.mem_reverse.mp (List.mem_filter.mp he).1)

/-- A row on whose line a diagnostic is known says nothing, as long as it is known
before a label in front is complete. -/
theorem own_eventsOnto_failed (done : List Event) (failed : Bool) (group : List Lexeme)
    (hlexical : Lexeme.Lexical (group ++ follow :: later))
    (hknown : (failed || pointsTo line
      (unveiled (.of follow later) (Sighting.all group (follow :: later)))) = true)
    (hlabel : ∀ name colon rest, group = name :: colon :: rest ->
      Grammar.isLabel name.token colon.token = true ->
      (failed || pointsTo line
        (((rest ++ follow :: later).take 2).flatMap Lexeme.faults)) = true) :
    (eventsOnto done line (.of follow later) failed
        (Sighting.all group (follow :: later))).filter Event.isOwn =
      done.reverse.filter Event.isOwn := by
  match group with
  | [] => rw [Sighting.all, eventsOnto]
  | [x] =>
      rw [eventsOnto_single, List.filter_append, own_lastEvents_of_known hlexical hknown,
        List.append_nil]
  | name :: colon :: rest =>
      rw [eventsOnto_all]
      split
      · rename_i hname
        rw [hlabel name colon rest rfl hname, if_pos rfl, List.filter_append,
          filter_isOwn_lexical (lexical_unveiled hlexical), List.append_nil]
      · rw [List.filter_append, own_lastEvents_of_known hlexical hknown, List.append_nil]

end Row

end Asm6502

import Asm6502.Proofs.Sweep
import Mathlib.Data.List.Basic

/-!
# Strings in data

The strings among the segments of some data are its runs of at least four printable bytes,
where a run goes as far as it can to both sides.  Runs are described here by the way they
divide the data, without regard to how the segments are found.
-/

namespace Asm6502
namespace Data

/-!
## Runs
-/

/-- A run of printable bytes that cannot be extended to either side. -/
structure IsRun (before run after : List UInt8) : Prop where
  printable : ∀ b ∈ run, isPrintableByte b = true
  left : ∀ b ∈ before.getLast?, isPrintableByte b = false
  right : ∀ b ∈ after.head?, isPrintableByte b = false

/-- In data at the address `address`, a run of four bytes or more begins at `x`. -/
def RunAt (address : Int) (data : List UInt8) (x : Int) : Prop :=
  ∃ before run after, data = before ++ run ++ after ∧ IsRun before run after ∧
    4 ≤ run.length ∧ x = address + before.length

variable {address x : Int}

theorem not_runAt_nil : ¬ RunAt address [] x := by
  rintro ⟨before, run, after, hdata, _, hlong, _⟩
  have hlength := congrArg List.length hdata
  simp only [List.length_append, List.length_nil] at hlength
  omega

theorem runAt_cons {b : UInt8} (hb : isPrintableByte b = false) (rest : List UInt8) :
    RunAt address (b :: rest) x ↔ RunAt (address + 1) rest x := by
  constructor
  · rintro ⟨before, run, after, hdata, hrun, hlong, rfl⟩
    cases before with
    | nil =>
        cases run with
        | nil => cases hlong
        | cons c run =>
            cases hdata
            rw [hrun.printable b (List.mem_cons_self ..)] at hb
            cases hb
    | cons c before =>
        cases hdata
        refine ⟨before, run, after, rfl, ⟨hrun.printable, ?_, hrun.right⟩, hlong, ?_⟩
        · intro y hy
          exact hrun.left y (List.mem_getLast?_cons hy)
        · rw [List.length_cons]
          omega
  · rintro ⟨before, run, after, rfl, hrun, hlong, rfl⟩
    refine ⟨b :: before, run, after, rfl, ⟨hrun.printable, ?_, hrun.right⟩, hlong, ?_⟩
    · intro y hy
      cases before with
      | nil =>
          cases hy
          exact hb
      | cons c before =>
          rw [List.getLast?_cons_cons] at hy
          exact hrun.left y hy
    · rw [List.length_cons]
      omega

theorem IsRun.takeWhile {before run after : List UInt8} (h : IsRun before run after) :
    (run ++ after).takeWhile isPrintableByte = run := by
  rw [List.takeWhile_append_of_pos h.printable]
  cases after with
  | nil => simp
  | cons b rest => simp [h.right b rfl]

theorem runAt_append {run more : List UInt8} (h : IsRun [] run more) :
    RunAt address (run ++ more) x ↔
      4 ≤ run.length ∧ x = address ∨ RunAt (address + run.length) more x := by
  constructor
  · rintro ⟨before, other, after, hdata, hother, hlong, rfl⟩
    rw [List.append_assoc] at hdata
    rcases List.append_eq_append_iff.mp hdata with
      ⟨between, rfl, hmore⟩ | ⟨inside, hrun, _⟩
    · refine .inr ⟨between, other, after, ?_, ⟨hother.printable, ?_, hother.right⟩, hlong, ?_⟩
      · rw [hmore, List.append_assoc]
      · intro y hy
        exact hother.left y (List.mem_getLast?_append_of_mem_getLast? hy)
      · rw [List.length_append]
        omega
    · -- The other run begins inside this one, so it is this one.
      have hbefore : before = [] := by
        rw [← List.getLast?_eq_none_iff, Option.eq_none_iff_forall_ne_some]
        intro b hb
        have hmem : b ∈ run := hrun ▸ List.mem_append_left _ (List.mem_of_getLast? hb)
        have hleft := hother.left b hb
        rw [h.printable b hmem] at hleft
        cases hleft
      subst hbefore
      have hsame : other = run := by
        rw [← hother.takeWhile, ← h.takeWhile, hdata, List.nil_append]
      exact .inl ⟨hsame ▸ hlong, Int.add_zero _⟩
  · rintro (⟨hlong, rfl⟩ | ⟨before, other, after, rfl, hother, hlong, rfl⟩)
    · exact ⟨[], run, more, rfl, h, hlong, (Int.add_zero _).symm⟩
    · refine ⟨run ++ before, other, after, ?_, ⟨hother.printable, ?_, hother.right⟩, hlong, ?_⟩
      · simp only [List.append_assoc]
      · intro y hy
        cases before with
        | nil =>
            -- The run before this one could be extended.
            cases other with
            | nil => cases hlong
            | cons c other =>
                have hright := h.right c rfl
                rw [hother.printable c (List.mem_cons_self ..)] at hright
                cases hright
        | cons c before =>
            rw [List.getLast?_append_cons] at hy
            exact hother.left y hy
      · rw [List.length_append]
        omega

theorem isRun_takeWhile {b : UInt8} (hb : isPrintableByte b = true) (rest : List UInt8) :
    IsRun [] (b :: rest.takeWhile isPrintableByte) (rest.dropWhile isPrintableByte) := by
  refine ⟨?_, by simp, ?_⟩
  · exact List.forall_mem_cons.mpr
      ⟨hb, fun y hy => (List.all_eq_true.mp List.all_takeWhile) y hy⟩
  · intro y hy
    have hstop := List.head?_dropWhile_not isPrintableByte rest
    rw [hy] at hstop
    exact hstop

theorem runAt_terminated (more : List UInt8) :
    RunAt address more x ↔
      RunAt (address + (if decide (more.head? = some 0) then [(0 : UInt8)] else []).length)
        (if more.head? = some 0 then more.drop 1 else more) x := by
  cases more with
  | nil => simp
  | cons b rest =>
      by_cases hb : b = 0
      · subst hb
        simpa using runAt_cons (by decide) rest
      · simp [hb]

/-!
## Segments
-/

def stringStarts (address : Int) : List Segment -> List Int
  | [] => []
  | s :: rest =>
      (if s.isString then [address] else []) ++ stringStarts (address + s.data.length) rest

theorem stringStarts_append (address : Int) (first second : List Segment) :
    stringStarts address (first ++ second) = stringStarts address first ++
      stringStarts (address + (first.flatMap Segment.data).length) second := by
  induction first generalizing address with
  | nil => simp [stringStarts]
  | cons s rest ih =>
      simp only [List.cons_append, stringStarts, ih, List.append_assoc, List.flatMap_cons,
        List.length_append, Int.natCast_add, Int.add_assoc]

theorem stringStarts_flush (address : Int) (pending : List UInt8) (done : List Segment) :
    stringStarts address (flush pending done).reverse =
      stringStarts address done.reverse := by
  unfold flush
  split
  · rfl
  · rw [List.reverse_cons, stringStarts_append]
    simp [stringStarts, Segment.isString]

theorem length_stringStarts (address : Int) (segments : List Segment) :
    (stringStarts address segments).length = segments.countP Segment.isString := by
  induction segments generalizing address with
  | nil => rfl
  | cons s rest ih =>
      rw [stringStarts, List.length_append, ih, List.countP_cons]
      split <;> simp [Nat.add_comm]

/-- The strings yet to be found are the runs of the bytes yet to be divided. -/
theorem mem_stringStarts_segmentsOnto (done : List Segment) (pending data : List UInt8) :
    x ∈ stringStarts address (segmentsOnto done pending data) ↔
      x ∈ stringStarts address done.reverse ∨
        RunAt (address + (done.reverse.flatMap Segment.data ++ pending.reverse).length)
          data x := by
  fun_induction segmentsOnto done pending data with
  | case1 done pending =>
      rw [stringStarts_flush]
      simp [not_runAt_nil]
  | case2 done pending b rest hb run more hshort ih =>
      have hfirst : IsRun [] run more := isRun_takeWhile hb rest
      have hdata : b :: rest = run ++ more := by
        simp [run, more, List.takeWhile_append_dropWhile]
      have hnot : ¬ (4 ≤ run.length) := Nat.not_le.mpr hshort
      rw [ih, hdata, runAt_append hfirst]
      simp only [hnot, false_and, false_or, List.reverse_append, List.reverse_reverse,
        List.length_append, List.length_reverse, Int.natCast_add, Int.add_assoc]
  | case3 done pending b rest hb run more hlong terminated ih =>
      have hfirst : IsRun [] run more := isRun_takeWhile hb rest
      have hdata : b :: rest = run ++ more := by
        simp [run, more, List.takeWhile_append_dropWhile]
      have hlong' : 4 ≤ run.length := Nat.not_lt.mp hlong
      simp only [dite_eq_ite] at ih
      rw [hdata, runAt_append hfirst, runAt_terminated more, ih, List.reverse_cons,
        stringStarts_append, stringStarts_flush, List.flatMap_append, flatMap_flush]
      simp only [stringStarts, Segment.isString, if_true, List.mem_append,
        List.mem_singleton, List.append_nil, List.flatMap_cons, List.flatMap_nil,
        Segment.data, List.reverse_nil, List.length_append, Int.natCast_add, hlong',
        true_and, or_assoc, Int.add_assoc, terminated]
  | case4 done pending b rest hb ih =>
      rw [ih, runAt_cons (by simpa using hb)]
      simp [Int.add_assoc]

/-- The strings in some data are its runs of four bytes or more. -/
theorem mem_stringStarts (data : List UInt8) :
    x ∈ stringStarts address (segments data) ↔ RunAt address data x := by
  rw [segments, mem_stringStarts_segmentsOnto]
  simp [stringStarts]

/-!
## Order
-/

theorem data_ne_nil_of_mem_flush {pending : List UInt8} {done : List Segment}
    (h : ∀ s ∈ done, s.data ≠ []) : ∀ s ∈ flush pending done, s.data ≠ [] := by
  unfold flush
  split
  · exact h
  · rename_i hpending
    refine List.forall_mem_cons.mpr ⟨?_, h⟩
    simpa [Segment.data] using hpending

theorem data_ne_nil_of_mem_segmentsOnto {done : List Segment} {pending data : List UInt8}
    (h : ∀ s ∈ done, s.data ≠ []) :
    ∀ s ∈ segmentsOnto done pending data, s.data ≠ [] := by
  fun_induction segmentsOnto done pending data with
  | case1 done pending =>
      intro s hs
      exact data_ne_nil_of_mem_flush h s (List.mem_reverse.mp hs)
  | case2 done pending b rest _ run more _ ih => exact ih h
  | case3 done pending b rest hb run more _ terminated ih =>
      exact ih (List.forall_mem_cons.mpr
        ⟨List.append_ne_nil_of_left_ne_nil (List.cons_ne_nil _ _) _,
          data_ne_nil_of_mem_flush h⟩)
  | case4 done pending b rest _ ih => exact ih h

theorem data_ne_nil_of_mem_segments {data : List UInt8} :
    ∀ s ∈ segments data, s.data ≠ [] :=
  data_ne_nil_of_mem_segmentsOnto (by simp)

theorem countP_isString_le {segments : List Segment} (h : ∀ s ∈ segments, s.data ≠ []) :
    segments.countP Segment.isString ≤ (segments.flatMap Segment.data).length := by
  induction segments with
  | nil => exact Nat.le_refl 0
  | cons s rest ih =>
      rcases List.forall_mem_cons.mp h with ⟨hs, hrest⟩
      have hpos := List.length_pos_iff.mpr hs
      have := ih hrest
      rw [List.countP_cons, List.flatMap_cons, List.length_append]
      split <;> omega

theorem stringCount_le (data : List UInt8) : stringCount data ≤ data.length := by
  have h := countP_isString_le (@data_ne_nil_of_mem_segments data)
  rwa [flatMap_segments] at h

theorem le_of_mem_stringStarts {segments : List Segment}
    (h : x ∈ stringStarts address segments) : address ≤ x := by
  induction segments generalizing address with
  | nil => cases h
  | cons s rest ih =>
      rcases List.mem_append.mp h with hfirst | hrest
      · split at hfirst
        · exact Int.le_of_eq (List.mem_singleton.mp hfirst).symm
        · cases hfirst
      · have hle := ih hrest
        omega

theorem pairwise_stringStarts {segments : List Segment} (h : ∀ s ∈ segments, s.data ≠ []) :
    (stringStarts address segments).Pairwise (· < ·) := by
  induction segments generalizing address with
  | nil => exact .nil
  | cons s rest ih =>
      rcases List.forall_mem_cons.mp h with ⟨hs, hrest⟩
      rw [stringStarts, List.pairwise_append]
      refine ⟨by split <;> simp, ih hrest, ?_⟩
      intro y hy z hz
      have hpos := List.length_pos_iff.mpr hs
      have hle := le_of_mem_stringStarts hz
      split at hy
      · rw [List.mem_singleton.mp hy]
        omega
      · cases hy

theorem RunAt.lt {data : List UInt8} (h : RunAt address data x) :
    x < address + data.length := by
  rcases h with ⟨before, run, after, rfl, _, hlong, rfl⟩
  simp only [List.length_append]
  omega

end Data

/-!
## Blocks
-/

namespace Block

def strings (blocks : List Block) : List Int :=
  blocks.flatMap fun b =>
    match b with
    | code _ => []
    | data address bytes => Data.stringStarts address (Data.segments bytes)

theorem mem_strings {blocks : List Block} {x : Int} :
    x ∈ strings blocks ↔
      ∃ address bytes, .data address bytes ∈ blocks ∧ Data.RunAt address bytes x := by
  rw [strings, List.mem_flatMap]
  constructor
  · rintro ⟨b, hb, hx⟩
    cases b with
    | code d => cases hx
    | data address bytes => exact ⟨address, bytes, hb, (Data.mem_stringStarts bytes).mp hx⟩
  · rintro ⟨address, bytes, hb, hx⟩
    exact ⟨_, hb, (Data.mem_stringStarts bytes).mpr hx⟩

variable {address : Int} {blocks : List Block} {code : List UInt8}

theorem Covers.le_of_mem_strings (h : Covers address blocks code) {x : Int}
    (hx : x ∈ strings blocks) : address ≤ x := by
  induction h with
  | nil address => cases hx
  | @code address d rest more _ _ _ ih =>
      have hle := ih hx
      omega
  | @data address bytes rest more _ _ ih =>
      rcases List.mem_append.mp hx with hfirst | hrest
      · exact Data.le_of_mem_stringStarts hfirst
      · have hle := ih hrest
        omega

theorem Covers.pairwise_strings (h : Covers address blocks code) :
    (strings blocks).Pairwise (· < ·) := by
  induction h with
  | nil address => exact .nil
  | code _ _ _ ih => exact ih
  | @data address bytes rest more _ hrest ih =>
      refine List.pairwise_append.mpr
        ⟨Data.pairwise_stringStarts Data.data_ne_nil_of_mem_segments, ih, ?_⟩
      intro x hx y hy
      have hlt := ((Data.mem_stringStarts bytes).mp hx).lt
      have hle := hrest.le_of_mem_strings hy
      omega

end Block

def Disassembly.strings (origin : Int) (code : List UInt8) : List Int :=
  Block.strings (Block.sweep origin code)

end Asm6502

import Asm6502.Proofs.Atomicity
import Asm6502.Proofs.Listings
import Asm6502.Proofs.PrintedSymbols

/-!
# Data as text

Data that is written as text is read back without loss: its strings and byte lists are
assembled to the bytes that they were made from, whether or not addresses stand beside
them.  The strings are the runs of at least four printable bytes, and each of them has a
label with the next number at the place where the run begins.
-/

namespace Asm6502

theorem eq_of_perm_of_sorted {α : Type} (key : α -> Int) {xs ys : List α} (h : xs.Perm ys)
    (hxs : (xs.map key).Pairwise (· ≤ ·)) (hys : (ys.map key).Pairwise (· < ·)) :
    xs = ys := by
  have hnodup : (ys.map key).Nodup := hys.imp Int.ne_of_lt
  refine List.Perm.eq_of_pairwise ?_ (List.pairwise_map.mp hxs)
    (List.pairwise_map.mp (hys.imp Int.le_of_lt)) h
  intro x y hx hy hle hge
  exact List.inj_on_of_nodup_map hnodup (h.subset hx) hy (Int.le_antisymm hle hge)

/-!
## Reports between statements
-/

theorem Event.map_content_statements (events : List Event) :
    (events.filterMap Event.statement?).map Statement.content =
      (events.map Event.content?).reduceOption := by
  simp [List.reduceOption, List.filterMap_map, List.map_filterMap, Event.content?,
    Function.comp_def]

namespace Session

variable {options : Options} {first second : Session}

theorem size_diagnostics_emit (h : first.image = second.image) (s : Statement) :
    (first.emit options s).diagnostics.size + second.diagnostics.size =
      first.diagnostics.size + (second.emit options s).diagnostics.size := by
  unfold emit
  rw [h]
  cases second.image.effect options.filler s with
  | ok e => rfl
  | error d =>
      simp only [report, Array.size_push]
      omega

theorem foldl_handle_apart (h : first.image = second.image) (events : List Event) :
    let last := events.foldl (handle options) first
    let last' := (events.filterMap Event.statement?).foldl (emit options) second
    last.image = last'.image ∧
      last.diagnostics.size + second.diagnostics.size =
        first.diagnostics.size + last'.diagnostics.size +
          events.countP fun event => event.statement?.isNone := by
  induction events generalizing first second with
  | nil => exact ⟨h, rfl⟩
  | cons event rest ih =>
      cases event with
      | report d =>
          rcases @ih (first.report d) second h with ⟨himage, hsize⟩
          refine ⟨himage, ?_⟩
          have hpush : (first.report d).diagnostics.size = first.diagnostics.size + 1 :=
            Array.size_push ..
          rw [List.countP_cons_of_pos rfl]
          show (rest.foldl (handle options) (first.report d)).diagnostics.size + _ =
            _ + ((rest.filterMap Event.statement?).foldl (emit options) second).diagnostics.size +
              _
          omega
      | statement s =>
          rcases ih (image_emit_congr h s) with ⟨himage, hsize⟩
          refine ⟨himage, ?_⟩
          have hfirst := @size_diagnostics_emit options _ _ h s
          rw [List.countP_cons_of_neg Bool.false_ne_true]
          show (rest.foldl (handle options) (first.emit options s)).diagnostics.size + _ =
            _ + ((rest.filterMap Event.statement?).foldl (emit options)
              (second.emit options s)).diagnostics.size + _
          omega

theorem finish_of_silent (h : first.image = second.image)
    (hsilent : second.finish.diagnostics = #[]) :
    first.finish.image = second.finish.image ∧
      first.finish.diagnostics.toList = first.diagnostics.toList := by
  have hnone := congrArg Array.toList hsilent
  rw [toList_diagnostics_finish, Array.toList_empty, List.append_eq_nil_iff,
    List.append_eq_nil_iff] at hnone
  refine ⟨by simp only [finish, h], ?_⟩
  rw [toList_diagnostics_finish, h, hnone.1.2, hnone.2, List.append_nil, List.append_nil]

end Session

namespace Data

/-!
## Events
-/

theorem ofText_listing (address number : Int) (data : List UInt8) :
    Scan.ofText (Text.ofLines (lines .listing address number data)) =
      Scan.ofText (Text.ofLines (lines .source address number data)) := by
  have hlines : List.Forall₂ Text.SameTokens (lines .source address number data)
      (lines .listing address number data) :=
    sameTokens_linesOnto (fun _ => sound_segments) .nil address number
  rcases Text.onto_of_sameTokens hlines 1 [] with ⟨tokens, final, hsource, hlisting⟩
  exact hlisting.trans hsource.symm

/-- The text of some data is read as the statements of its segments, and one report for
every number that is no longer one of 64 bits. -/
theorem ofText_format (style : Style) (address : Int) {number : Nat} {data : List UInt8}
    (hnumber : number < numberLimit) (hcount : stringCount data < numberLimit) :
    ∃ events, Script.ofText (format style address number data).1 = ⟨[], events⟩ ∧
      (events.filterMap Event.statement?).map Statement.content =
        contents number (segments data) ∧
      events.countP (fun event => event.statement?.isNone) =
        number + stringCount data - numberLimit := by
  have htells := tells_lines address number data
  rw [← wrap64_number hnumber] at htells
  rcases Script.ofText_of_tells htells with ⟨events, htold, hscript⟩
  rw [wrap64_number hnumber] at hscript
  have hbound : number + (segments data).countP Segment.isString < 2 * numberLimit :=
    Nat.lt_of_lt_of_le (Nat.add_lt_add hnumber hcount) (by omega)
  refine ⟨events, ?_, ?_, ?_⟩
  · cases style with
    | source => exact hscript
    | listing =>
        rw [← hscript]
        exact congrArg Script.ofScan (ofText_listing address number data)
  · rw [Event.map_content_statements, htold, reduceOption_told hbound]
  · have hnone : events.countP (fun event => event.statement?.isNone) =
        (events.map Event.content?).countP Option.isNone := by
      simp [List.countP_map, Event.content?, Function.comp_def]
    rw [hnone, htold, countP_told hbound, Nat.max_eq_right (Nat.le_of_lt hnumber)]
    rfl

end Data

/-!
## Assembling the text
-/

theorem Session.rebuilds_start (number : Nat) : (start {} []).Rebuilds ∅ 0 0 number [] :=
  ⟨rfl, rfl, ⟨[], .start 0 0xEA, .nil 0⟩, .empty _ 0 number⟩

namespace Data

variable {number : Nat} {data : List UInt8} {statements : List Statement}

theorem pc_start : (Session.start {} []).image.pc = 0 :=
  rfl

theorem room_of_fits (hfits : data.length ≤ 0x10000) :
    (Session.start {} []).image.pc + ((segments data).flatMap Segment.data).length ≤
      Image.addressSpace := by
  rw [flatMap_segments, pc_start, Image.addressSpace]
  omega

theorem rebuilds_data (hfits : data.length ≤ 0x10000)
    (hs : statements.map Statement.content = contents number (segments data)) :
    (statements.foldl (Session.emit {}) (.start {} [])).Rebuilds ∅ 0 0
      (number + stringCount data) data := by
  have hall := (Session.rebuilds_start number).segments {} (fun _ => sound_segments)
    (room_of_fits hfits) hs
  rw [flatMap_segments, List.nil_append] at hall
  exact hall

theorem placed_data (hfits : data.length ≤ 0x10000)
    (hs : statements.map Statement.content = contents number (segments data)) :
    (Session.start {} []).placed {} statements =
      (named number (stringStarts 0 (segments data))).map Disassembly.stringSymbol := by
  rw [(Session.rebuilds_start number).placed_segments {} (fun _ => sound_segments)
    (room_of_fits hfits) hs, pc_start]

theorem pairwise_starts (data : List UInt8) :
    (stringStarts 0 (segments data)).Pairwise (· < ·) :=
  pairwise_stringStarts data_ne_nil_of_mem_segments

theorem named_sublist (number : Nat) (starts : List Int) :
    (named number starts).Sublist (starts.zipIdx number) :=
  List.filter_sublist

theorem perm_symbols (hfits : data.length ≤ 0x10000)
    (hs : statements.map Statement.content = contents number (segments data)) :
    ((statements.foldl (Session.emit {}) (.start {} [])).image.symbols.symbols.map
        fun s => (s.name, s.binding)).Perm
      ((named number (stringStarts 0 (segments data))).map fun start =>
        ((Disassembly.stringSymbol start).1, some (Disassembly.stringSymbol start).2)) := by
  have hprinted : ∀ s ∈ statements, s.content.Printed := by
    intro s hmem
    exact printed_contents number (segments data) _ (hs ▸ List.mem_map_of_mem hmem)
  have honce : (((Session.start {} []).placed {} statements).map
      fun d => d.1.foldCase).Nodup := by
    rw [placed_data hfits hs]
    refine List.Nodup.sublist (((named_sublist number _).map _).map _) ?_
    exact Disassembly.nodup_keys .nil (fun _ h => nomatch h) _ number
  have hperm := Session.perm_symbols hprinted honce
  rw [placed_data hfits hs, List.map_map] at hperm
  exact hperm

theorem symbols_eq (hfits : data.length ≤ 0x10000)
    (hs : statements.map Statement.content = contents number (segments data)) :
    (statements.foldl (Session.emit {}) (.start {} [])).image.symbols.symbols.map
        (fun s => (s.name, s.binding)) =
      (named number (stringStarts 0 (segments data))).map fun start =>
        ("string".toList ++ Nat.toDigits 10 start.2, some ⟨.label, start.1⟩) := by
  have hperm := perm_symbols hfits hs
  simp only [fun start : Int × Nat => Disassembly.stringSymbol_eq start.1 start.2] at hperm
  refine eq_of_perm_of_sorted (fun entry => entry.2.elim 0 Symbol.Binding.value) hperm ?_ ?_
  · rw [List.map_map]
    exact List.pairwise_map.mpr (Symbol.pairwise_value_mergeSort _)
  · rw [List.map_map]
    have hvalues := (named_sublist number (stringStarts 0 (segments data))).map Prod.fst
    rw [List.zipIdx_map_fst] at hvalues
    exact (pairwise_starts data).sublist hvalues

/-- A run over the events of some data ends with the image of a run over its statements,
and all that it reports stands between these. -/
theorem finish_data (hfits : data.length ≤ 0x10000) {events : List Event}
    (hs : (events.filterMap Event.statement?).map Statement.content =
      contents number (segments data)) :
    let last := events.foldl (Session.handle {}) (.start {} [])
    let last' := (events.filterMap Event.statement?).foldl (Session.emit {}) (.start {} [])
    last.finish.image.bytes.toList = data ∧
      last.finish.image.symbols = last'.image.symbols ∧
      last.finish.diagnostics.toList.length =
        events.countP fun event => event.statement?.isNone := by
  intro last last'
  have hrebuilds := rebuilds_data hfits hs
  rcases hrebuilds.finish (fun x hx => absurd hx Std.TreeSet.not_mem_emptyc) with
    ⟨hsilent, hbytes⟩
  rcases @Session.foldl_handle_apart {} (.start {} []) (.start {} []) rfl events with
    ⟨himage, hsize⟩
  rcases Session.finish_of_silent himage hsilent with ⟨hfinish, hdiagnostics⟩
  have htable : last'.finish.image.symbols = last'.image.symbols := rfl
  refine ⟨hfinish ▸ hbytes, (congrArg Image.symbols hfinish).trans htable, ?_⟩
  rw [hdiagnostics, Array.length_toList]
  rw [hrebuilds.silent] at hsize
  exact (Nat.add_zero _).symm.trans (hsize.trans (Nat.zero_add _))

end Data

/-- Whatever some data is, its text gives numbers to its runs of at least four printable
bytes, which begin at the offsets in question, and the next number to be given is as many
further on, counted in 64 bits.  If the data fits into the address space, assembling the
text gives the data again.  One line is reported for each number that is past the highest
one of 64 bits, and the symbols are the labels of all other runs, numbered in order and
each at the offset of its run; so if there is no such number, nothing is reported and all
runs have their labels.  All this holds for a listing as well. -/
theorem data_text_loses_nothing (style : Style) (address : Int) {number : Nat}
    (hnumber : number < 0x8000000000000000) (data : List UInt8) :
    ∃ offsets : List Int, offsets.Pairwise (· < ·) ∧
      (∀ x, x ∈ offsets ↔ Data.RunAt 0 data x) ∧
      (Data.format style address number data).2 = wrap64 (number + offsets.length) ∧
      (data.length ≤ 0x10000 ->
        let result := assemble {} (Data.format style address number data).1
        let symbols := result.symbols.map fun s => (s.name, s.binding)
        let labels (runs : List (Int × Nat)) := runs.map fun (x, k) =>
          ("string".toList ++ Nat.toDigits 10 k, some (⟨.label, x⟩ : Symbol.Binding))
        result.code.toList = data ∧
          result.diagnostics.length = number + offsets.length - 0x8000000000000000 ∧
          symbols = labels ((offsets.zipIdx number).filter fun (_, k) =>
            k < 0x8000000000000000) ∧
          (number + offsets.length ≤ 0x8000000000000000 ->
            result.diagnostics = [] ∧ symbols = labels (offsets.zipIdx number))) := by
  let offsets := Data.stringStarts 0 (Data.segments data)
  have hlength : offsets.length = Data.stringCount data := Data.length_stringStarts ..
  refine ⟨offsets, Data.pairwise_starts data, fun x => Data.mem_stringStarts data, ?_, ?_⟩
  · rw [Data.format, hlength]
  intro hfits result symbols labels
  have hlimit : Data.numberLimit = 0x8000000000000000 := rfl
  have hcount : Data.stringCount data < Data.numberLimit := by
    have hle := Data.stringCount_le data
    omega
  rcases Data.ofText_format style address hnumber hcount with
    ⟨events, hscript, hs, hreports⟩
  have hresult : result =
      .ofSession {} (events.foldl (Session.handle {}) (.start {} [])).finish := by
    simp only [result, assemble, hscript]
  rcases Data.finish_data hfits hs with ⟨hbytes, htable, hsize⟩
  have hdiagnostics : result.diagnostics.length =
      number + offsets.length - 0x8000000000000000 := by
    rw [hresult, hlength, ← hlimit, ← hreports, ← hsize]
    rfl
  have hsymbols : symbols = labels (Data.named number offsets) := by
    simp only [symbols, hresult, Result.ofSession, htable]
    exact Data.symbols_eq hfits hs
  refine ⟨?_, hdiagnostics, hsymbols, fun hall => ⟨?_, ?_⟩⟩
  · rw [hresult]
    exact hbytes
  · exact List.eq_nil_of_length_eq_zero (hdiagnostics.trans (by omega))
  · rw [hsymbols, Data.named_eq (by omega)]

/-- Two strings, one with a quote in it and a zero after it, between bytes that are too
few or not printable.  The listing writes addresses beyond the address space. -/
theorem data_text_between_bytes :
    let data : List UInt8 :=
      [1, 0x41, 2, 0x73, 0x61, 0x79, 0x22, 0, 0x62, 0, 0x31, 0x32, 0x33, 0x34]
    let result := assemble {} (Data.format .listing 0xFFFF 9 data).1
    data.length ≤ 0x10000 ∧ (Data.format .listing 0xFFFF 9 data).2 = 11 ∧
      result.diagnostics = [] ∧ result.code.toList = data ∧
      result.symbols.map (fun s => (s.name, s.binding)) =
        [("string9".toList, some ⟨.label, 3⟩), ("string10".toList, some ⟨.label, 10⟩)] := by
  intro data result
  have hfits : data.length ≤ 0x10000 := by decide
  rcases @data_text_loses_nothing .listing 0xFFFF 9 (by decide) data with
    ⟨offsets, hsorted, hmem, hnext, htext⟩
  have hstarts : Data.stringStarts 0 (Data.segments data) = [3, 10] := by decide +kernel
  have hoffsets : offsets = [3, 10] := by
    have hmembers : ∀ x, x ∈ offsets ↔ x ∈ [3, 10] := fun x => by
      rw [hmem, ← hstarts, Data.mem_stringStarts]
    have hperm := (List.perm_ext_iff_of_nodup (hsorted.imp Int.ne_of_lt) (by decide)).mpr
      hmembers
    exact hperm.eq_of_pairwise (fun _ _ _ _ hlt hgt => absurd hlt (Int.lt_asymm hgt))
      hsorted (by decide)
  rw [hoffsets] at hnext htext
  rcases htext hfits with ⟨hcode, _, _, hall⟩
  rcases hall (by decide) with ⟨hsilent, hsymbols⟩
  exact ⟨hfits, hnext, hsilent, hcode, hsymbols⟩

/-- The number after the highest one is negative, and its string has no label. -/
theorem data_text_number_comes_round :
    let data : List UInt8 := [0x41, 0x41, 0x41, 0x41, 1, 0x42, 0x42, 0x42, 0x42]
    let result := assemble {} (Data.format .source 0 0x7FFFFFFFFFFFFFFF data).1
    data.length ≤ 0x10000 ∧ Data.stringCount data = 2 ∧
      (Data.format .source 0 0x7FFFFFFFFFFFFFFF data).2 ≠ 0x7FFFFFFFFFFFFFFF + 2 ∧
      result.diagnostics ≠ [] ∧
      result.symbols.map (fun s => (s.name, s.binding)) =
        [("string9223372036854775807".toList, some ⟨.label, 0⟩)] := by
  decide +kernel

end Asm6502

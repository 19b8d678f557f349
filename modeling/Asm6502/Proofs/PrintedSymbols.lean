import Asm6502.Proofs.PrintedNames
import Asm6502.Proofs.StringRuns

/-!
# The symbols of a disassembly

Assembling a disassembly binds the names that its text gives to addresses, and no others:
one for each label and one for each string.  The names are bound where the blocks and
segments begin that they belong to, because the text is assembled to the bytes that it was
made from.
-/

namespace Asm6502

namespace Decoded

theorem Faithful.size_pos {d : Decoded} (h : d.Faithful) : 0 < d.size := by
  show 0 < d.bytes.length
  rw [h.bytes_eq]
  exact Nat.succ_pos _

theorem isFlow_iff {d : Decoded} : d.isFlow = true ↔
    d.mode = .relative ∨ d.mode = .absolute ∧ (d.mnemonic = .jmp ∨ d.mnemonic = .jsr) := by
  unfold isFlow
  cases d.mode <;> simp

end Decoded

/-!
## Where the names are placed
-/

namespace Disassembly

def labelSymbol (address : Int) : Text × Symbol.Binding :=
  (Block.labelName address, ⟨.label, address⟩)

def stringSymbol (numbered : Int × Nat) : Text × Symbol.Binding :=
  (Data.stringName numbered.2, ⟨.label, numbered.1⟩)

def printed (labels : Std.TreeSet Int compare) (number : Nat) :
    List Block -> List (Text × Symbol.Binding)
  | [] => []
  | .code d :: rest =>
      (if labels.contains d.address then [labelSymbol d.address] else []) ++
        printed labels number rest
  | .data address bytes :: rest =>
      ((Data.stringStarts address (Data.segments bytes)).zipIdx number).map stringSymbol ++
        printed labels (number + Data.stringCount bytes) rest

end Disassembly

namespace Data

/-- The strings that begin at some addresses, as far as their numbers are names. -/
def named (number : Nat) (starts : List Int) : List (Int × Nat) :=
  (starts.zipIdx number).filter fun numbered => numbered.2 < numberLimit

theorem named_cons (number : Nat) (x : Int) (rest : List Int) :
    named number (x :: rest) =
      (if number < numberLimit then [(x, number)] else []) ++ named (number + 1) rest := by
  rw [named, List.zipIdx_cons, List.filter_cons, named]
  split <;> simp_all

theorem named_eq {number : Nat} {starts : List Int}
    (h : number + starts.length ≤ numberLimit) : named number starts = starts.zipIdx number := by
  rw [named, List.filter_eq_self]
  intro numbered hmem
  have hlt := List.snd_lt_add_of_mem_zipIdx hmem
  exact decide_eq_true (by omega)

end Data

namespace Session.Rebuilds

variable {labels : Std.TreeSet Int compare} {origin limit : Int} {number : Nat}
  {written : List UInt8} {session : Session} {statements : List Statement}
  (options : Options)

theorem placed_segment (h : session.Rebuilds labels origin limit number written)
    {segment : Data.Segment}
    (hs : statements.map Statement.content = segment.contents number) :
    session.placed options statements =
      (if segment.isString && number < Data.numberLimit then [(session.image.pc, number)]
        else []).map Disassembly.stringSymbol := by
  cases segment with
  | string contents terminated =>
      rcases List.map_eq_append_iff.mp hs with ⟨first, second, rfl, hlabel, hsecond⟩
      have hnone : (first.foldl (emit options) session).placed options second = [] :=
        placed_eq_nil hsecond fun name hname => nomatch List.mem_singleton.mp hname
      rw [placed_append, hnone, List.append_nil, Data.Segment.isString, Bool.true_and]
      by_cases hlimit : number < Data.numberLimit
      · rw [if_pos hlimit] at hlabel
        rcases List.map_eq_singleton_iff.mp hlabel with ⟨s, rfl, hname⟩
        have hsilent := (h.string options hname).silent.trans h.silent.symm
        rw [placed_label hname hsilent, if_pos (decide_eq_true hlimit)]
        rfl
      · rw [if_neg hlimit] at hlabel
        rw [List.map_eq_nil_iff.mp hlabel, if_neg (mt of_decide_eq_true hlimit)]
        rfl
  | bytes contents =>
      refine placed_eq_nil hs fun name hname => ?_
      rcases List.mem_map.mp hname with ⟨row, _, heq⟩
      cases heq

theorem placed_segments (h : session.Rebuilds labels origin limit number written)
    {list : List Data.Segment} (hsound : ∀ s ∈ list, s.Sound)
    (hroom : session.image.pc + (list.flatMap Data.Segment.data).length ≤
      Image.addressSpace)
    (hs : statements.map Statement.content = Data.contents number list) :
    session.placed options statements =
      (Data.named number (Data.stringStarts session.image.pc list)).map
        Disassembly.stringSymbol := by
  induction list generalizing session written number statements with
  | nil =>
      rw [List.map_eq_nil_iff.mp hs]
      rfl
  | cons first rest ih =>
      rcases List.map_eq_append_iff.mp hs with ⟨now, later, rfl, hnow, hlater⟩
      rcases List.forall_mem_cons.mp hsound with ⟨hfirst, hrest⟩
      rw [List.flatMap_cons, List.length_append, Int.natCast_add] at hroom
      have hnext := h.segment options hfirst (by omega) hnow
      have hpc := hnext.pc_append h (by omega)
      have hplaced := ih hnext hrest (by omega) hlater
      rw [placed_append, h.placed_segment options hnow, hplaced, hpc, Data.stringStarts,
        ← List.map_append]
      cases hstring : first.isString with
      | true =>
          simp only [Bool.true_and, decide_eq_true_eq, if_true, List.singleton_append,
            Data.named_cons]
      | false => rfl

theorem placed_instruction (h : session.Rebuilds labels origin limit number written)
    {d : Decoded} (hpc : session.image.pc = d.address) (haddress : 0 ≤ d.address)
    (hlimit : limit ≤ d.address)
    (hs : statements.map Statement.content = d.contents labels) :
    session.placed options statements =
      if labels.contains d.address then [Disassembly.labelSymbol d.address] else [] := by
  rcases List.map_eq_append_iff.mp hs with ⟨first, second, rfl, hfirst, hsecond⟩
  have hnone : (first.foldl (emit options) session).placed options second = [] :=
    placed_eq_nil hsecond fun name hname => nomatch List.mem_singleton.mp hname
  rw [placed_append, hnone, List.append_nil]
  cases hlabelled : labels.contains d.address with
  | true =>
      rw [hlabelled, if_pos rfl] at hfirst
      rcases List.map_eq_singleton_iff.mp hfirst with ⟨s', rfl, hlabel⟩
      have hnext := (h.label options hpc haddress hlimit hlabel).1
      rw [placed_label hlabel (hnext.silent.trans h.silent.symm), hpc]
      rfl
  | false =>
      rw [hlabelled, if_neg Bool.false_ne_true] at hfirst
      rw [List.map_eq_nil_iff.mp hfirst]
      rfl

/-- The names of blocks are placed at the blocks and segments that they belong to. -/
theorem placed_blocks (hlabels : ∀ x ∈ labels, 0 ≤ x) {address : Int}
    {list : List Block} {code : List UInt8} (hcovers : Block.Covers address list code)
    (h : session.Rebuilds labels origin limit number written)
    (hpc : session.image.pc = address) (haddress : 0 ≤ address)
    (hlimit : limit ≤ address)
    (hroom : address + code.length ≤ Image.addressSpace)
    (hnumber : number + code.length ≤ Data.numberLimit)
    (hs : statements.map Statement.content =
      Disassembly.contents labels number list) :
    session.placed options statements = Disassembly.printed labels number list := by
  -- Along the sweep, beside the induction that follows the bytes: the run has rebuilt all
  -- bytes before a block, so it stands at the address of the block.
  induction hcovers generalizing session limit number written statements with
  | nil address =>
      rw [List.map_eq_nil_iff.mp hs]
      rfl
  | @code address d rest more hfaithful hat _ ih =>
      rcases List.map_eq_append_iff.mp hs with ⟨now, later, rfl, hnow, hlater⟩
      rw [List.length_append] at hroom hnumber
      have hpos := hfaithful.size_pos
      have hsize : d.size = d.bytes.length := rfl
      subst hat
      have hnext := (h.instruction options hlabels hfaithful hpc haddress hlimit (by omega)
        hnow).1
      have hmoved := hnext.pc_append h (by omega)
      rw [placed_append, h.placed_instruction options hpc haddress hlimit hnow,
        ih hnext (by omega) (by omega) (by omega) (by omega) (by omega) hlater]
      rfl
  | @data address bytes rest more _ _ ih =>
      rcases List.map_eq_append_iff.mp hs with ⟨now, later, rfl, hnow, hlater⟩
      rw [List.length_append] at hroom hnumber
      have hdata := Data.flatMap_segments bytes
      have hcount := Data.stringCount_le bytes
      have hstarts := Data.length_stringStarts address (Data.segments bytes)
      change _ = Data.stringCount bytes at hstarts
      have hinside : session.image.pc +
          ((Data.segments bytes).flatMap Data.Segment.data).length ≤ Image.addressSpace := by
        rw [hdata]
        omega
      have hnext := h.segments options (fun _ => Data.sound_segments) hinside hnow
      rw [hdata] at hnext
      have hmoved := hnext.pc_append h (by omega)
      rw [placed_append,
        h.placed_segments options (fun _ => Data.sound_segments) hinside hnow, hpc,
        Data.named_eq (by omega),
        ih hnext (by omega) (by omega) (by omega) (by omega) (Nat.le_trans
          (Nat.add_le_add_right (Nat.add_le_add_left hcount number) _) (by omega)) hlater]
      rfl

end Session.Rebuilds

/-!
## Labels and strings apart
-/

namespace Block

theorem mem_filterMap_start? {blocks : List Block} {x : Int} :
    x ∈ blocks.filterMap start? ↔ ∃ d, code d ∈ blocks ∧ d.address = x := by
  rw [List.mem_filterMap]
  constructor
  · rintro ⟨b, hb, hx⟩
    cases b with
    | code d =>
        cases hx
        exact ⟨d, hb, rfl⟩
    | data address bytes => cases hx
  · rintro ⟨d, hd, rfl⟩
    exact ⟨code d, hd, rfl⟩

theorem Covers.pairwise_starts {address : Int} {blocks : List Block} {code : List UInt8}
    (h : Covers address blocks code) : (blocks.filterMap start?).Pairwise (· < ·) := by
  induction h with
  | nil address => exact .nil
  | @code address d rest more hfaithful hat hrest ih =>
      refine List.pairwise_cons.mpr ⟨?_, ih⟩
      intro x hx
      rcases mem_filterMap_start?.mp hx with ⟨later, hlater, rfl⟩
      have hle := hrest.le_address hlater
      have hpos := hfaithful.size_pos
      omega
  | data _ _ ih => exact ih

theorem Covers.address_lt {address : Int} {blocks : List Block} {code : List UInt8}
    (h : Covers address blocks code) {d : Decoded} (hd : .code d ∈ blocks) :
    d.address < address + code.length := by
  induction h with
  | nil address => cases hd
  | @code address first rest more hfaithful hat _ ih =>
      have hsize : first.size = first.bytes.length := rfl
      have hpos := hfaithful.size_pos
      rw [List.length_append]
      rcases List.mem_cons.mp hd with heq | hrest
      · cases heq
        omega
      · have hlt := ih hrest
        omega
  | @data address bytes rest more _ _ ih =>
      rw [List.length_append]
      rcases List.mem_cons.mp hd with heq | hrest
      · cases heq
      · have hlt := ih hrest
        omega

def labelled (labels : Std.TreeSet Int compare) (blocks : List Block) : List Int :=
  (blocks.filterMap start?).filter labels.contains

theorem Covers.perm_labelled {address : Int} {blocks : List Block} {code : List UInt8}
    (h : Covers address blocks code) :
    (labelled (labels blocks) blocks).Perm (labels blocks).toList := by
  have hleft : (labelled (labels blocks) blocks).Nodup :=
    (h.pairwise_starts.imp Int.ne_of_lt).filter _
  have hright : (labels blocks).toList.Nodup :=
    (Std.TreeSet.distinct_toList).imp fun hne heq => hne (by simp [heq])
  rw [List.perm_ext_iff_of_nodup hleft hright]
  intro x
  rw [labelled, List.mem_filter, mem_filterMap_start?, Std.TreeSet.contains_iff_mem,
    Std.TreeSet.mem_toList, and_iff_right_of_imp fun hx => (mem_labels.mp hx).2]

end Block

namespace Disassembly

theorem perm_printed (labels : Std.TreeSet Int compare) (number : Nat) (blocks : List Block) :
    (printed labels number blocks).Perm
      ((Block.labelled labels blocks).map labelSymbol ++
        ((Block.strings blocks).zipIdx number).map stringSymbol) := by
  induction blocks generalizing number with
  | nil => exact .refl _
  | cons b rest ih =>
      cases b with
      | code d =>
          have hstrings : Block.strings (.code d :: rest) = Block.strings rest := rfl
          have hlabelled : Block.labelled labels (.code d :: rest) =
              (if labels.contains d.address then [d.address] else []) ++
                Block.labelled labels rest := by
            show (d.address :: rest.filterMap Block.start?).filter labels.contains = _
            rw [List.filter_cons]
            split <;> rfl
          rw [printed, hstrings, hlabelled, List.map_append, List.append_assoc]
          refine List.Perm.append (.of_eq ?_) (ih number)
          split <;> rfl
      | data address bytes =>
          have hstrings : Block.strings (.data address bytes :: rest) =
              Data.stringStarts address (Data.segments bytes) ++ Block.strings rest := rfl
          have hlabelled : Block.labelled labels (.data address bytes :: rest) =
              Block.labelled labels rest := rfl
          rw [printed, hstrings, hlabelled, List.zipIdx_append, List.map_append,
            Data.length_stringStarts]
          exact ((ih _).append_left _).trans (List.perm_append_comm_assoc ..)

theorem mem_labels {origin a : Int} {code : List UInt8} :
    a ∈ labels origin code ↔ a ∈ Block.labels (Block.sweep origin code) :=
  Std.TreeSet.mem_toList

theorem covers_sweep {origin : Int} {code : List UInt8} (horigin : 0 ≤ origin)
    (hfits : origin + code.length ≤ 0x10000) :
    Block.Covers origin (Block.sweep origin code) code :=
  Block.covers_sweep ⟨by omega, by omega⟩ ⟨by omega, by omega⟩

theorem bounds_of_mem_labels {origin a : Int} {code : List UInt8} (horigin : 0 ≤ origin)
    (hfits : origin + code.length ≤ 0x10000) (h : a ∈ labels origin code) :
    origin ≤ a ∧ a < origin + code.length := by
  have hcovers := covers_sweep horigin hfits
  rcases (Block.mem_labels.mp (mem_labels.mp h)).2 with ⟨d, hd, rfl⟩
  exact ⟨hcovers.le_address hd, hcovers.address_lt hd⟩

theorem pairwise_labels (origin : Int) (code : List UInt8) :
    (labels origin code).Pairwise (· < ·) := by
  have hordered := (Block.labels (Block.sweep origin code)).ordered_toList
  exact hordered.imp Int.compare_eq_lt.mp

theorem nodup_keys {labels : List Int} (hnodup : labels.Nodup) (hlabels : ∀ x ∈ labels, 0 ≤ x)
    (strings : List Int) (number : Nat) :
    ((labels.map labelSymbol ++ (strings.zipIdx number).map stringSymbol).map
      fun d => d.1.foldCase).Nodup := by
  rw [List.map_append, List.map_map, List.map_map, List.nodup_append]
  refine ⟨?_, ?_, ?_⟩
  · refine hnodup.map_on ?_
    intro x hx y hy hxy
    exact Block.labelName_inj (hlabels x hx) (hlabels y hy) hxy
  · have hkeys : (strings.zipIdx number).map ((fun d => d.1.foldCase) ∘ stringSymbol) =
        ((strings.zipIdx number).map Prod.snd).map
          fun k : Nat => (Data.stringName k).foldCase := by
      rw [List.map_map]
      rfl
    rw [hkeys, List.zipIdx_map_snd]
    exact (List.nodup_range' 1).map fun k j hkj => Data.stringName_inj hkj
  · intro key hkey other hother heq
    rcases List.mem_map.mp hkey with ⟨x, hx, rfl⟩
    rcases List.mem_map.mp hother with ⟨⟨a, k⟩, _, rfl⟩
    exact Data.stringName_ne_labelName k (hlabels x hx) heq.symm

end Disassembly

/-!
## Spelling
-/

namespace Text

theorem hex_succ (width n : Nat) :
    hex (width + 2) (n : Int) =
      hex (width + 1) ((n / 16 : Nat) : Int) ++ [(n % 16).digitChar] := by
  rw [hex_natCast, hex_natCast]
  by_cases hsmall : n < 16
  · rw [Nat.toDigits_of_lt_base hsmall, Nat.div_eq_of_lt hsmall, Nat.mod_eq_of_lt hsmall]
    simp [List.leftpad, List.replicate_succ']
  · rw [Nat.toDigits_of_base_le (by decide) (Nat.le_of_not_lt hsmall)]
    simp [List.leftpad]

def word (n : Nat) : Text :=
  [(n / 0x1000).digitChar, (n / 0x100 % 16).digitChar, (n / 0x10 % 16).digitChar,
    (n % 16).digitChar]

theorem hex_eq_word {n : Nat} (h : n < 0x10000) : hex 4 (n : Int) = word n := by
  have hfirst : n / 16 / 16 / 16 < 16 := by omega
  rw [hex_succ, hex_succ, hex_succ, hex_natCast, Nat.toDigits_of_lt_base hfirst]
  simp [List.leftpad, word, Nat.div_div_eq_div_mul]

end Text

/-!
## The symbols
-/

namespace Disassembly

theorem placed_program {origin : Int} {code : List UInt8} (horigin : 0 ≤ origin)
    (hfits : origin + code.length ≤ Image.addressSpace) {statements : List Statement}
    (hs : statements.map Statement.content = program origin code) :
    (Session.start {} []).placed {} statements =
      printed (Block.labels (Block.sweep origin code)) 1 (Block.sweep origin code) := by
  rcases List.map_eq_append_iff.mp hs with ⟨first, second, rfl, hfirst, hsecond⟩
  have horg := rebuilds_org (Block.labels (Block.sweep origin code)) hfirst
  have hspace : Image.addressSpace = 0x10000 := rfl
  have hlimit : Data.numberLimit = 0x8000000000000000 := rfl
  have hpc : (first.foldl (Session.emit {}) (Session.start {} [])).image.pc = origin := by
    rw [horg.pc, List.length_nil, Int.natCast_zero, Int.add_zero,
      wrap64_of_signed64 ⟨by omega, by omega⟩]
  have hnone : (Session.start {} []).placed {} first = [] :=
    Session.placed_eq_nil hfirst fun name => by split <;> simp
  rw [Session.placed_append, hnone, List.nil_append]
  exact horg.placed_blocks {} (fun _ => Block.nonneg_of_mem_labels)
    (covers_sweep horigin hfits) hpc horigin (Int.le_refl origin) hfits (by omega) hsecond

theorem perm_symbols {origin : Int} {code : List UInt8} (horigin : 0 ≤ origin)
    (hfits : origin + code.length ≤ Image.addressSpace) (hcode : code ≠ []) :
    ((assemble {} (Text.ofLines (lines .source origin code))).symbols.map
        fun s => (s.name, s.binding)).Perm
      (((labels origin code).map labelSymbol ++
        ((strings origin code).zipIdx 1).map stringSymbol).map fun d => (d.1, some d.2)) := by
  have hpos := List.length_pos_iff.mpr hcode
  have hspace : Image.addressSpace = 0x10000 := rfl
  rcases Int.eq_ofNat_of_zero_le horigin with ⟨n, rfl⟩
  have hn : n + code.length ≤ 0x10000 := by omega
  rcases Script.ofText_ofLines (says_lines hcode hn) with ⟨statements, hstatements, hscript⟩
  have hprinted : ∀ s ∈ statements, s.content.Printed := by
    intro s hs
    exact printed_program n code _ (hstatements ▸ List.mem_map_of_mem hs)
  have hplaced : ((Session.start {} []).placed {} statements).Perm
      ((labels n code).map labelSymbol ++ ((strings n code).zipIdx 1).map stringSymbol) := by
    rw [placed_program horigin hfits hstatements]
    refine (perm_printed _ 1 _).trans (List.Perm.append_right _ ?_)
    exact (covers_sweep horigin hfits).perm_labelled.map _
  have honce : (((Session.start {} []).placed {} statements).map
      fun d => d.1.foldCase).Nodup := by
    refine (hplaced.map _).nodup_iff.mpr (nodup_keys ?_ ?_ _ 1)
    · exact (pairwise_labels n code).imp Int.ne_of_lt
    · exact fun x hx => Block.nonneg_of_mem_labels (mem_labels.mp hx)
  have hresult : (assemble {} (Text.ofLines (lines .source n code))).symbols =
      (statements.foldl (Session.emit {}) (Session.start {} [])).image.symbols.symbols := by
    simp only [assemble, hscript, Session.foldl_handle_statements]
    rfl
  rw [hresult]
  exact (Session.perm_symbols hprinted honce).trans (hplaced.map _)

theorem labelSymbol_eq {origin a : Int} {code : List UInt8} (horigin : 0 ≤ origin)
    (hfits : origin + code.length ≤ 0x10000) (ha : a ∈ labels origin code) :
    labelSymbol a = ('L' :: Text.word a.toNat, ⟨.label, a⟩) := by
  have hbounds := bounds_of_mem_labels horigin hfits ha
  rcases Int.eq_ofNat_of_zero_le (Int.le_trans horigin hbounds.1) with ⟨n, rfl⟩
  rw [labelSymbol, Block.labelName, Text.hex_eq_word (by omega), Int.toNat_natCast]

theorem stringSymbol_eq (a : Int) (k : Nat) :
    stringSymbol (a, k) = ("string".toList ++ Nat.toDigits 10 k, ⟨.label, a⟩) := by
  have hname : Data.stringName (k : Int) = "string".toList ++ Nat.toDigits 10 k :=
    congrArg ("string".toList ++ ·) (Text.decimal_natCast k)
  simp only [stringSymbol, hname]

theorem disassemble_eq {origin : Int} {code : List UInt8} (hcode : code ≠ [])
    (horigin : 0 ≤ origin) (hfits : origin + code.length ≤ 0x10000) :
    disassemble origin code = .ok (Text.ofLines (lines .source origin code)) := by
  have hinside : (decide (origin < 0) ||
      decide (0x10000 < wrap64 (origin + code.length))) = false := by
    rw [wrap64_of_signed64 ⟨by omega, by omega⟩]
    simp only [Bool.or_eq_false_iff, decide_eq_false_iff_not]
    omega
  unfold disassemble render
  rw [hinside]
  simp [hcode]

end Disassembly

/-- For code that fits into the address space, the symbols of its disassembly are one for
each label and one for each string.  A label is named after the four digits of its address.
The strings are numbered in the order of their addresses, and they are the runs of at least
four printable bytes in the data of the sweep.  The labels are the addresses that a branch,
a jump or a call leads to and at which an instruction of the sweep begins. -/
theorem disassembly_symbols_exact (code : List UInt8) (origin : Int) (hcode : code ≠ [])
    (horigin : 0 ≤ origin) (hfits : origin + code.length ≤ 0x10000) :
    let blocks := Block.sweep origin code
    let labels := Disassembly.labels origin code
    let strings := Disassembly.strings origin code
    (∃ text, disassemble origin code = .ok text ∧
      ((assemble {} text).symbols.map fun s => (s.name, s.binding)).Perm
        ((labels.map fun a => ('L' :: Text.word a.toNat, some ⟨.label, a⟩)) ++
          (strings.zipIdx 1).map fun (a, k) =>
            ("string".toList ++ Nat.toDigits 10 k, some ⟨.label, a⟩))) ∧
      labels.Pairwise (· < ·) ∧
      (∀ a, a ∈ labels ↔
        (∃ d, .code d ∈ blocks ∧ (d.mode = .relative ∨
          d.mode = .absolute ∧ (d.mnemonic = .jmp ∨ d.mnemonic = .jsr)) ∧ d.operand = a) ∧
        ∃ d, .code d ∈ blocks ∧ d.address = a) ∧
      strings.Pairwise (· < ·) ∧
      ∀ a, a ∈ strings ↔
        ∃ address bytes, .data address bytes ∈ blocks ∧ Data.RunAt address bytes a := by
  intro blocks labels strings
  have hsymbols := Disassembly.perm_symbols horigin hfits hcode
  have hlabels : (labels.map Disassembly.labelSymbol).map (fun d => (d.1, some d.2)) =
      labels.map fun a => ('L' :: Text.word a.toNat, some ⟨.label, a⟩) := by
    rw [List.map_map]
    refine List.map_congr_left fun a ha => ?_
    simp only [Function.comp_apply, Disassembly.labelSymbol_eq horigin hfits ha]
  have hstrings : ((strings.zipIdx 1).map Disassembly.stringSymbol).map
      (fun d => (d.1, some d.2)) = (strings.zipIdx 1).map fun (a, k) =>
        ("string".toList ++ Nat.toDigits 10 k, some ⟨.label, a⟩) := by
    rw [List.map_map]
    refine List.map_congr_left fun p _ => ?_
    simp only [Function.comp_apply, Disassembly.stringSymbol_eq p.1 p.2]
  rw [List.map_append, hlabels, hstrings] at hsymbols
  refine ⟨⟨_, Disassembly.disassemble_eq hcode horigin hfits, hsymbols⟩,
    Disassembly.pairwise_labels origin code, ?_,
    (Disassembly.covers_sweep horigin hfits).pairwise_strings, fun a => Block.mem_strings⟩
  intro a
  rw [Disassembly.mem_labels, Block.mem_labels]
  simp only [Decoded.isFlow_iff, blocks]

/-- A branch forward and a jump back have labels, and a string in quotes has a number. -/
theorem disassembly_symbols_exact_quoted :
    let code : List UInt8 := [0xd0, 3, 0x4c, 0, 6, 0x60, 0xff, 0x22, 0x47, 0x4f, 0x22]
    code ≠ [] ∧ (0 : Int) ≤ 0x600 ∧ (0x600 : Int) + code.length ≤ 0x10000 ∧
      ∃ text, disassemble 0x600 code = .ok text ∧
        ((assemble {} text).symbols.map fun s => (s.name, s.binding)).Perm
          [("L0600".toList, some ⟨.label, 0x600⟩), ("L0605".toList, some ⟨.label, 0x605⟩),
            ("string1".toList, some ⟨.label, 0x607⟩)] := by
  intro code
  rcases disassembly_symbols_exact code 0x600 (by decide) (by decide) (by decide) with
    ⟨⟨text, htext, hsymbols⟩, _⟩
  refine ⟨by decide, by decide, by decide, text, htext, ?_⟩
  have hlabels : Disassembly.labels 0x600 code = [0x600, 0x605] := by decide +kernel
  have hstrings : Disassembly.strings 0x600 code = [0x607] := by decide +kernel
  rw [hlabels, hstrings] at hsymbols
  exact hsymbols

end Asm6502

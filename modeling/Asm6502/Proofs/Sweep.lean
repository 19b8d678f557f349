import Asm6502.Disassembly.Block
import Asm6502.Disassembly.Data
import Mathlib.Algebra.Ring.Int.Defs
import Mathlib.Algebra.Ring.Nat

/-!
# What a disassembly is made of

The blocks of a sweep, the segments of data and the rows of a byte list all divide
some bytes without losing any.  Blocks of code are decoded at their own address and
are assembled to the same bytes again.
-/

namespace Asm6502

/-!
## Rows and segments
-/

namespace Data

theorem flatten_rows (data : List UInt8) : (rows data).flatten = data := by
  fun_induction rows data with
  | case1 => rfl
  | case2 b rest ih => rw [List.flatten_cons, ih, List.cons_append,
      List.take_append_drop]

theorem ne_nil_of_mem_rows {data row : List UInt8} (h : row ∈ rows data) :
    row ≠ [] := by
  fun_induction rows data with
  | case1 => cases h
  | case2 b rest ih =>
      rcases List.mem_cons.mp h with rfl | hrest
      · exact List.cons_ne_nil _ _
      · exact ih hrest

theorem length_le_of_mem_rows {data row : List UInt8} (h : row ∈ rows data) :
    row.length ≤ 16 := by
  fun_induction rows data with
  | case1 => cases h
  | case2 b rest ih =>
      rcases List.mem_cons.mp h with rfl | hrest
      · simp only [List.length_cons, List.length_take]
        omega
      · exact ih hrest

namespace Segment

def data : Segment -> List UInt8
  | string contents terminated => contents ++ if terminated then [0] else []
  | bytes contents => contents

def Sound : Segment -> Prop
  | string contents _ => ∀ b ∈ contents, isPrintableByte b = true
  | bytes _ => True

end Segment

theorem flatMap_flush (pending : List UInt8) (done : List Segment) :
    (flush pending done).reverse.flatMap Segment.data =
      done.reverse.flatMap Segment.data ++ pending.reverse := by
  unfold flush
  split
  · rename_i hempty
    rw [List.isEmpty_iff.mp hempty]
    simp
  · simp [Segment.data]

theorem sound_flush {pending : List UInt8} {done : List Segment}
    (h : ∀ s ∈ done, s.Sound) : ∀ s ∈ flush pending done, s.Sound := by
  unfold flush
  split
  · exact h
  · intro s hs
    rcases List.mem_cons.mp hs with rfl | hs
    · trivial
    · exact h s hs

theorem terminator_append_rest (more : List UInt8) :
    (if decide (more.head? = some 0) then [0] else []) ++
        (if more.head? = some 0 then more.drop 1 else more) = more := by
  cases more with
  | nil => rfl
  | cons b rest =>
      by_cases hb : b = 0
      · simp [hb]
      · simp [hb]

theorem flatMap_segmentsOnto (done : List Segment) (pending data : List UInt8) :
    (segmentsOnto done pending data).flatMap Segment.data =
      done.reverse.flatMap Segment.data ++ pending.reverse ++ data := by
  fun_induction segmentsOnto done pending data with
  | case1 done pending => rw [flatMap_flush, List.append_nil]
  | case2 done pending b rest _ run more _ ih =>
      rw [ih]
      simp [run, more, List.takeWhile_append_dropWhile]
  | case3 done pending b rest _ run more _ terminated ih =>
      have hrun : b :: rest = run ++ more := by
        simp [run, more, List.takeWhile_append_dropWhile]
      have hmore := terminator_append_rest more
      simp only [dite_eq_ite] at ih
      rw [ih, List.reverse_cons, List.flatMap_append, flatMap_flush, hrun]
      simp only [List.flatMap_cons, List.flatMap_nil, List.append_nil,
        List.reverse_nil, Segment.data, List.append_assoc, terminated]
      rw [hmore]
  | case4 done pending b rest _ ih =>
      rw [ih]
      simp

theorem flatMap_segments (data : List UInt8) :
    (segments data).flatMap Segment.data = data :=
  flatMap_segmentsOnto [] [] data

theorem sound_segmentsOnto {done : List Segment} {pending data : List UInt8}
    (h : ∀ s ∈ done, s.Sound) : ∀ s ∈ segmentsOnto done pending data, s.Sound := by
  fun_induction segmentsOnto done pending data with
  | case1 done pending =>
      intro s hs
      exact sound_flush h s (List.mem_reverse.mp hs)
  | case2 done pending b rest _ run more _ ih => exact ih h
  | case3 done pending b rest hb run more _ terminated ih =>
      apply ih
      intro s hs
      rcases List.mem_cons.mp hs with rfl | hs
      · intro x hx
        rcases List.mem_cons.mp hx with rfl | hx
        · exact hb
        · exact (List.all_eq_true.mp (List.all_takeWhile)) x hx
      · exact sound_flush h s hs
  | case4 done pending b rest _ ih => exact ih h

theorem sound_segments {data : List UInt8} {s : Segment} (h : s ∈ segments data) :
    s.Sound :=
  sound_segmentsOnto (by simp) s h

end Data

/-!
## Decoded instructions
-/

namespace Instruction

/-- The instruction set read backwards and forwards. -/
theorem of?_of_ofOpcode? {opcode : UInt8} {i : Instruction}
    (h : ofOpcode? opcode = some i) :
    i.opcode = opcode ∧ of? i.mnemonic i.mode = some i := by
  have hopcode := List.find?_some h
  have hall : ∀ i ∈ all, of? i.mnemonic i.mode = some i := by decide +kernel
  exact ⟨by simpa using hopcode, hall i (List.mem_of_find?_eq_some h)⟩

end Instruction

namespace Decoded

/-- The instruction is one of the instruction set with its operand bytes, and the
written form is assembled to the same bytes. -/
structure Faithful (d : Decoded) : Prop where
  instruction : Instruction.of? d.mnemonic d.mode = some d.instruction
  bytes : ∃ operand, operand.length = d.mode.operandSize ∧
    d.bytes = d.instruction.opcode :: operand ∧
    d.operand = operandOf d.address d.mode operand
  reassembles : d.reassembles = true

theorem ofBytes?_eq_some {address : Int} {code : List UInt8} {d : Decoded}
    (h : ofBytes? address code = some d) :
    d.address = address ∧ d.bytes ++ code.drop d.size = code ∧
      Instruction.of? d.mnemonic d.mode = some d.instruction ∧
      ∃ operand, operand.length = d.mode.operandSize ∧
        d.bytes = d.instruction.opcode :: operand ∧
        d.operand = operandOf d.address d.mode operand := by
  unfold ofBytes? at h
  split at h
  · cases h
  · rename_i opcode rest
    split at h
    · cases h
    · rename_i i hi
      rcases Instruction.of?_of_ofOpcode? hi with ⟨rfl, hinstruction⟩
      dsimp only at h
      split at h
      · cases h
      · rename_i hlength
        cases h
        have htake : (rest.take i.mode.operandSize).length = i.mode.operandSize := by
          have hle := List.length_take_le i.mode.operandSize rest
          omega
        refine ⟨rfl, ?_, hinstruction, _, htake, rfl, rfl⟩
        simp [size, htake]

theorem operandOf_nat {address : Int} {mode : Mode} {operand : List UInt8}
    (hlength : operand.length = mode.operandSize) (hmode : mode ≠ .relative) :
    ∃ n : Nat, n < 256 ^ mode.operandSize ∧ operandOf address mode operand = n := by
  rw [← hlength]
  match operand with
  | [] => exact ⟨0, by simp, rfl⟩
  | [b] =>
      refine ⟨b.toNat, by simpa using b.toNat_lt, ?_⟩
      simp [operandOf, hmode]
  | [low, high] =>
      refine ⟨Field.word low high, ?_, rfl⟩
      have hlow := low.toNat_lt
      have hhigh := high.toNat_lt
      simp only [Field.word, List.length_cons, List.length_nil]
      omega
  | _ :: _ :: _ :: _ =>
      have htwo := mode.operandSize_le_two
      simp only [List.length_cons] at hlength
      omega

theorem Faithful.operand_nat {d : Decoded} (h : d.Faithful) :
    ∃ n : Nat, n ≤ 0xFFFF ∧ d.operand = n := by
  by_cases hmode : d.mode = .relative
  · have hrange := h.reassembles
    simp only [Decoded.reassembles, hmode, Bool.and_eq_true,
      decide_eq_true_eq] at hrange
    exact ⟨d.operand.toNat, by omega, by omega⟩
  · rcases h.bytes with ⟨operand, hlength, _, hoperand⟩
    rcases @operandOf_nat d.address _ _ hlength hmode with ⟨n, hn, hvalue⟩
    have hsize : 256 ^ d.mode.operandSize ≤ 256 ^ 2 :=
      Nat.pow_le_pow_right (by decide) d.mode.operandSize_le_two
    exact ⟨n, by omega, by rw [hoperand, hvalue]⟩

end Decoded

/-!
## Blocks
-/

namespace Block

/-- The blocks stand one after another from an address on and hold the code. -/
inductive Covers : Int -> List Block -> List UInt8 -> Prop where
  | nil (address : Int) : Covers address [] []
  | code {address : Int} {d : Decoded} {rest : List Block} {more : List UInt8} :
      d.Faithful ->
      d.address = address ->
      Covers (address + d.size) rest more ->
      Covers address (code d :: rest) (d.bytes ++ more)
  | data {address : Int} {bytes : List UInt8} {rest : List Block}
      {more : List UInt8} :
      bytes ≠ [] ->
      Covers (address + bytes.length) rest more ->
      Covers address (data address bytes :: rest) (bytes ++ more)

theorem Covers.le_address {address : Int} {blocks : List Block}
    {bytes : List UInt8} (h : Covers address blocks bytes) {d : Decoded}
    (hd : .code d ∈ blocks) : address ≤ d.address := by
  induction h with
  | nil address => cases hd
  | code _ hat _ ih =>
      rcases List.mem_cons.mp hd with hfirst | hrest
      · cases hfirst
        exact Int.le_of_eq hat.symm
      · have hle := ih hrest
        omega
  | data _ _ ih =>
      rcases List.mem_cons.mp hd with hfirst | hrest
      · cases hfirst
      · have hle := ih hrest
        omega

theorem first_bytes_append (address : Int) (b : UInt8) (rest : List UInt8) :
    (first address b rest).bytes ++
      rest.drop ((first address b rest).size - 1) = b :: rest := by
  unfold first
  split
  · rfl
  · rename_i d hsome
    rcases Decoded.ofBytes?_eq_some hsome with ⟨_, hcode, _, _⟩
    have hpos := Decoded.size_pos_of_ofBytes? hsome
    have hdrop : rest.drop (d.size - 1) = (b :: rest).drop d.size := by
      cases hsize : d.size with
      | zero => rw [hsize] at hpos; cases hpos
      | succ n => rfl
    rw [← hdrop] at hcode
    split <;> exact hcode

/-- The first block is an instruction at the address, or data. -/
theorem first_cases (address : Int) (b : UInt8) (rest : List UInt8) :
    (∃ d : Decoded, d.Faithful ∧ d.address = address ∧
      first address b rest = code d) ∨
      ∃ bytes, bytes ≠ [] ∧ first address b rest = data address bytes := by
  unfold first
  split
  · exact Or.inr ⟨[b], by simp, rfl⟩
  · rename_i d hsome
    rcases Decoded.ofBytes?_eq_some hsome with ⟨haddress, _, hinstruction, hbytes⟩
    split
    · rename_i hreassembles
      exact Or.inl ⟨d, ⟨hinstruction, hbytes, hreassembles⟩, haddress, rfl⟩
    · rcases hbytes with ⟨operand, _, hbytes, _⟩
      exact Or.inr ⟨d.bytes, by simp [hbytes], rfl⟩

theorem faithful_of_mem_sweepOnto {done : List Block} {address : Int} {code : List UInt8}
    (hdone : ∀ d, .code d ∈ done -> d.Faithful) {d : Decoded}
    (h : .code d ∈ sweepOnto done address code) : d.Faithful := by
  fun_induction sweepOnto done address code with
  | case1 done address => exact hdone d (List.mem_reverse.mp h)
  | case2 done address b rest block ih =>
      refine ih ?_ h
      intro d hd
      rcases List.mem_cons.mp hd with hfirst | hd
      · rcases first_cases address b rest with ⟨found, hfound, _, heq⟩ | ⟨bytes, _, heq⟩
        · cases hfirst.trans heq
          exact hfound
        · cases hfirst.trans heq
      · exact hdone d hd

theorem mem_of_mem_foldr_join {blocks : List Block} {d : Decoded}
    (h : .code d ∈ blocks.foldr join []) : .code d ∈ blocks := by
  induction blocks with
  | nil => cases h
  | cons b rest ih =>
      rw [List.foldr_cons] at h
      generalize rest.foldr join [] = joined at h ih
      revert h
      fun_cases join b joined with
      | case1 address xs _ ys more =>
          intro h
          rcases List.mem_cons.mp h with hdata | h
          · cases hdata
          · exact List.mem_cons_of_mem _ (ih (List.mem_cons_of_mem _ h))
      | case2 =>
          intro h
          rcases List.mem_cons.mp h with rfl | h
          · exact List.mem_cons_self ..
          · exact List.mem_cons_of_mem _ (ih h)

/-- Wherever a sweep begins, its instructions are faithful. -/
theorem faithful_of_mem_sweep {address : Int} {code : List UInt8} {d : Decoded}
    (h : .code d ∈ sweep address code) : d.Faithful :=
  faithful_of_mem_sweepOnto (fun _ hnil => nomatch List.not_mem_nil hnil) (mem_of_mem_foldr_join h)

theorem covers_first {address : Int} {b : UInt8} {rest : List UInt8}
    {blocks : List Block}
    (h : Covers (address + (first address b rest).size) blocks
      (rest.drop ((first address b rest).size - 1))) :
    Covers address (first address b rest :: blocks) (b :: rest) := by
  rw [← first_bytes_append address b rest]
  rcases first_cases address b rest with
    ⟨d, hfaithful, haddress, hfirst⟩ | ⟨bytes, hne, hfirst⟩
  · rw [hfirst] at h ⊢
    exact .code hfaithful haddress h
  · rw [hfirst] at h ⊢
    exact .data hne h

theorem covers_sweepOnto (done : List Block) {address : Int} {code : List UInt8}
    (hstart : Signed64 address) (hend : Signed64 (address + code.length)) :
    ∃ blocks, sweepOnto done address code = done.reverse ++ blocks ∧
      Covers address blocks code := by
  fun_induction sweepOnto done address code with
  | case1 done address => exact ⟨[], by simp, .nil address⟩
  | case2 done address b rest block ih =>
      -- Inside the code the sum of address and size is not cut off.
      have hlength : block.size + (rest.drop (block.size - 1)).length =
          (b :: rest).length := by
        rw [← first_bytes_append address b rest, List.length_append]
        rfl
      have hnext : Signed64 (address + block.size) := by
        rcases hstart with ⟨hlow, _⟩
        rcases hend with ⟨_, hhigh⟩
        exact ⟨by omega, by omega⟩
      rw [← hlength, Int.natCast_add, ← Int.add_assoc] at hend
      rw [wrap64_of_signed64 hnext] at ih ⊢
      rcases ih hnext hend with ⟨blocks, hblocks, hcovers⟩
      refine ⟨block :: blocks, ?_, covers_first hcovers⟩
      rw [hblocks]
      simp

theorem Covers.join {address : Int} {xs more : List UInt8} {blocks : List Block}
    (hne : xs ≠ []) (h : Covers (address + xs.length) blocks more) :
    Covers address ((Block.data address xs).join blocks) (xs ++ more) := by
  generalize hnext : address + (xs.length : Int) = next at h
  cases h with
  | nil => exact .data hne (.nil _)
  | code hfaithful haddress hrest =>
      subst hnext
      exact .data hne (.code hfaithful haddress hrest)
  | @data _ ys rest more hys hrest =>
      have hlength : next + ys.length = address + (xs ++ ys).length := by
        rw [← hnext, List.length_append, Int.natCast_add, Int.add_assoc]
      rw [hlength] at hrest
      rw [← List.append_assoc]
      exact .data (by simp [hne]) hrest

theorem Covers.foldr_join {address : Int} {blocks : List Block}
    {code : List UInt8} (h : Covers address blocks code) :
    Covers address (blocks.foldr Block.join []) code := by
  induction h with
  | nil address => exact .nil address
  | code hfaithful haddress _ ih => exact .code hfaithful haddress ih
  | data hne _ ih => exact ih.join hne

theorem covers_sweep {address : Int} {code : List UInt8} (hstart : Signed64 address)
    (hend : Signed64 (address + code.length)) :
    Covers address (sweep address code) code := by
  rcases covers_sweepOnto [] hstart hend with ⟨blocks, hblocks, hcovers⟩
  rw [sweep, wrap64_of_signed64 hstart, hblocks]
  exact hcovers.foldr_join

/-!
## Labels
-/

theorem mem_foldl_insert {f : Block -> Option Int} (blocks : List Block)
    (set : Std.TreeSet Int compare) (x : Int) :
    x ∈ blocks.foldl (fun set b => (f b).elim set set.insert) set ↔
      x ∈ set ∨ ∃ b ∈ blocks, f b = some x := by
  induction blocks generalizing set with
  | nil => simp
  | cons b rest ih =>
      rw [List.foldl_cons, ih]
      cases hb : f b with
      | none => simp [hb]
      | some y =>
          simp only [Option.elim, Std.TreeSet.mem_insert,
            Std.LawfulEqCmp.compare_eq_iff_eq, List.mem_cons, exists_eq_or_imp, hb,
            Option.some.injEq]
          rw [or_assoc, or_left_comm]

def start? : Block -> Option Int
  | code d => some d.address
  | data _ _ => none

/-- The address that an instruction leads to, if an instruction begins there. -/
def target? (begins : Std.TreeSet Int compare) : Block -> Option Int
  | code d => if d.isFlow && begins.contains d.operand then some d.operand else none
  | data _ _ => none

theorem mem_starts {blocks : List Block} {x : Int} :
    x ∈ starts blocks ↔ ∃ d, code d ∈ blocks ∧ d.address = x := by
  have hfold : starts blocks =
      blocks.foldl (fun set b => (start? b).elim set set.insert) ∅ := by
    unfold starts
    congr
    funext set b
    cases b <;> rfl
  rw [hfold, mem_foldl_insert]
  constructor
  · rintro (hempty | ⟨b, hb, hx⟩)
    · simp at hempty
    · cases b with
      | code d => exact ⟨d, hb, Option.some.inj hx⟩
      | data address bytes => cases hx
  · rintro ⟨d, hd, rfl⟩
    exact Or.inr ⟨code d, hd, rfl⟩

theorem mem_labels {blocks : List Block} {x : Int} :
    x ∈ labels blocks ↔
      (∃ d, code d ∈ blocks ∧ d.isFlow = true ∧ d.operand = x) ∧
        ∃ d, code d ∈ blocks ∧ d.address = x := by
  have hfold : labels blocks = blocks.foldl
      (fun set b => (target? (starts blocks) b).elim set set.insert) ∅ := by
    unfold labels
    dsimp only
    congr
    funext set b
    cases b with
    | data address bytes => rfl
    | code d =>
        simp only [target?]
        split <;> rfl
  rw [hfold, mem_foldl_insert, ← mem_starts]
  constructor
  · rintro (hempty | ⟨b, hb, hx⟩)
    · simp at hempty
    · cases b with
      | data address bytes => cases hx
      | code d =>
          simp only [target?] at hx
          split at hx
          · rename_i hcondition
            cases hx
            rw [Bool.and_eq_true] at hcondition
            exact ⟨⟨d, hb, hcondition.1, rfl⟩,
              Std.TreeSet.mem_iff_contains.mpr hcondition.2⟩
          · cases hx
  · rintro ⟨⟨d, hd, hflow, rfl⟩, hstart⟩
    refine Or.inr ⟨code d, hd, ?_⟩
    have hcontains := Std.TreeSet.mem_iff_contains.mp hstart
    simp [target?, hflow, hcontains]

theorem nonneg_of_mem_labels {address x : Int} {code : List UInt8}
    (h : x ∈ labels (sweep address code)) : 0 ≤ x := by
  rcases (mem_labels.mp h).1 with ⟨d, hd, _, rfl⟩
  rcases (faithful_of_mem_sweep hd).operand_nat with ⟨n, _, hoperand⟩
  rw [hoperand]
  exact Int.natCast_nonneg n

end Block
end Asm6502

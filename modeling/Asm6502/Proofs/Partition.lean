import Asm6502.Proofs.Sweep
import Mathlib.Data.List.Chain

/-!
# The sweep divides the code

A sweep puts every byte of the code into one block and gives its reason for the kind of
the block.  An instruction is what the decoder finds where the block begins.  Data falls
into stretches that are no instructions: bytes that do not decode, and instructions that
would be assembled to other bytes.  Each stretch begins where the one before it ends, so
the reasons are those of a sweep from front to back and not of some other reading of the
bytes.
-/

namespace Asm6502
namespace Block

def address : Block -> Int
  | code d => d.address
  | data address _ => address

def isData : Block -> Bool
  | code _ => false
  | data _ _ => true

def extent (blocks : List Block) : Nat :=
  (blocks.map size).sum

theorem extent_cons (b : Block) (blocks : List Block) :
    extent (b :: blocks) = b.size + extent blocks := by
  simp [extent]

/-!
## Stretches that are no instructions
-/

section

variable (origin : Int) (code : List UInt8)

/-- From `start` on, `size` bytes are one that does not decode, or an instruction that
would be assembled to other bytes. -/
def Unfit (start size : Nat) : Prop :=
  (Decoded.ofBytes? (wrap64 (origin + start)) (code.drop start) = none ∧ size = 1) ∨
    ∃ d, Decoded.ofBytes? (wrap64 (origin + start)) (code.drop start) = some d ∧
      d.reassembles = false ∧ size = d.size

inductive Kept : Nat -> Nat -> Prop where
  | nil (i : Nat) : Kept i i
  | cons {i size j : Nat} : Unfit origin code i size -> Kept (i + size) j -> Kept i j

/-- The blocks stand one after another from an index on to the end of the code, each for
its reason. -/
inductive Settled : Nat -> List Block -> Prop where
  | nil : Settled code.length []
  | code {i : Nat} {d : Decoded} {rest : List Block} :
      Decoded.ofBytes? (wrap64 (origin + i)) (code.drop i) = some d ->
      d.reassembles = true ->
      Settled (i + d.size) rest ->
      Settled i (.code d :: rest)
  | data {i : Nat} {bytes : List UInt8} {rest : List Block} :
      bytes ≠ [] ->
      bytes <+: code.drop i ->
      Kept origin code i (i + bytes.length) ->
      Settled (i + bytes.length) rest ->
      Settled i (.data (wrap64 (origin + i)) bytes :: rest)

end

variable {origin : Int} {code : List UInt8} {i j k : Nat} {blocks : List Block}

namespace Kept

theorem single {size : Nat} (h : Unfit origin code i size) : Kept origin code i (i + size) :=
  .cons h (.nil _)

theorem trans (h : Kept origin code i j) (hnext : Kept origin code j k) :
    Kept origin code i k := by
  induction h with
  | nil i => exact hnext
  | cons hunfit _ ih => exact .cons hunfit (ih hnext)

theorem le (h : Kept origin code i j) : i ≤ j := by
  induction h with
  | nil i => exact Nat.le_refl i
  | cons _ _ ih => omega

theorem exists_unfit (h : Kept origin code i j) (hlow : i ≤ k) (hhigh : k < j) :
    ∃ start size, i ≤ start ∧ start + size ≤ j ∧ start ≤ k ∧ k < start + size ∧
      Unfit origin code start size := by
  induction h with
  | nil i => omega
  | @cons i size j hunfit hrest ih =>
      have hle := hrest.le
      by_cases hfirst : k < i + size
      · exact ⟨i, size, Nat.le_refl i, hle, hlow, hfirst, hunfit⟩
      · rcases ih (by omega) hhigh with ⟨start, other, hstart, hend, hbetween⟩
        exact ⟨start, other, by omega, hend, hbetween⟩

end Kept

/-!
## The blocks of a sweep
-/

theorem isPrefix_of_ofBytes? {address : Int} {bytes : List UInt8} {d : Decoded}
    (h : Decoded.ofBytes? address bytes = some d) : d.bytes <+: bytes :=
  ⟨_, (Decoded.ofBytes?_eq_some h).2.1⟩

theorem settled_first {b : UInt8} {rest : List UInt8} (hcode : code.drop i = b :: rest)
    (h : Settled origin code (i + (first (wrap64 (origin + i)) b rest).size) blocks) :
    Settled origin code i (first (wrap64 (origin + i)) b rest :: blocks) := by
  cases hfound : Decoded.ofBytes? (wrap64 (origin + i)) (b :: rest) with
  | none =>
      have hfirst : first (wrap64 (origin + i)) b rest = .data (wrap64 (origin + i)) [b] := by
        simp only [first, hfound]
      rw [hfirst] at h ⊢
      refine .data (List.cons_ne_nil _ _) ?_ (.single (.inl ⟨?_, rfl⟩)) h
      · rw [hcode]
        exact ⟨rest, rfl⟩
      · rw [hcode]
        exact hfound
  | some d =>
      have hkept := isPrefix_of_ofBytes? hfound
      have hpos := Decoded.size_pos_of_ofBytes? hfound
      rw [← hcode] at hfound hkept
      cases hreassembles : d.reassembles with
      | true =>
          have hfirst : first (wrap64 (origin + i)) b rest = .code d := by
            simp only [first, ← hcode, hfound, hreassembles, if_true]
          rw [hfirst] at h ⊢
          exact .code hfound hreassembles h
      | false =>
          have hfirst : first (wrap64 (origin + i)) b rest = .data (wrap64 (origin + i)) d.bytes := by
            simp only [first, ← hcode, hfound, hreassembles, Bool.false_eq_true, if_false]
          rw [hfirst] at h ⊢
          exact .data (List.length_pos_iff.mp hpos) hkept
            (.single (.inr ⟨d, hfound, hreassembles, rfl⟩)) h

theorem settled_sweepOnto (done : List Block) {rest : List UInt8}
    (hcode : code.drop i = rest) (hi : i ≤ code.length) :
    ∃ blocks, sweepOnto done (wrap64 (origin + i)) rest = done.reverse ++ blocks ∧
      Settled origin code i blocks := by
  generalize haddress : wrap64 (origin + (i : Int)) = address
  fun_induction sweepOnto done address rest generalizing i with
  | case1 done address =>
      have hend : i = code.length :=
        Nat.le_antisymm hi (List.drop_eq_nil_iff.mp hcode)
      exact ⟨[], by simp, hend ▸ .nil⟩
  | case2 done address b rest block =>
      rename_i ih
      subst haddress
      have hbytes : block.bytes ++ rest.drop (block.size - 1) = b :: rest :=
        first_bytes_append (wrap64 (origin + i)) b rest
      have hdrop : code.drop (i + block.size) = rest.drop (block.size - 1) := by
        rw [← List.drop_drop, hcode, ← hbytes]
        exact List.drop_left
      have hle : i + block.size ≤ code.length := by
        have hsize : block.size = block.bytes.length := rfl
        have hlength := congrArg List.length (hcode.trans hbytes.symm)
        rw [List.length_drop, List.length_append] at hlength
        omega
      have hnext : wrap64 (origin + (i + block.size : Nat)) =
          wrap64 (wrap64 (origin + i) + block.size) := by
        rw [wrap64_add_left, Int.natCast_add, Int.add_assoc]
      rcases ih hdrop hle hnext with ⟨blocks, hblocks, hsettled⟩
      refine ⟨block :: blocks, ?_, settled_first hcode hsettled⟩
      rw [hblocks, List.reverse_cons, List.append_assoc]
      rfl

/-- Data joins the block after it, and the stretches of both follow each other. -/
theorem Settled.join {bytes : List UInt8}
    (h : Settled origin code i (.data (wrap64 (origin + i)) bytes :: blocks)) :
    Settled origin code i ((Block.data (wrap64 (origin + i)) bytes).join blocks) := by
  cases h with
  | data hne hbytes hkept hrest =>
      generalize hnext : i + bytes.length = next at hkept hrest
      cases hrest with
      | nil => exact .data hne hbytes (hnext ▸ hkept) (hnext ▸ .nil)
      | code hfound hreassembles hlater =>
          subst hnext
          exact .data hne hbytes hkept (.code hfound hreassembles hlater)
      | @data _ more rest _ hmore hkept' hlater =>
          have hlength : i + (bytes ++ more).length = next + more.length := by
            rw [← hnext, List.length_append, Nat.add_assoc]
          refine .data (List.append_ne_nil_of_left_ne_nil hne _) ?_
            (hlength ▸ hkept.trans hkept') (hlength ▸ hlater)
          rcases hbytes with ⟨t, ht⟩
          rcases hmore with ⟨u, hu⟩
          have hdrop : code.drop next = t := by
            rw [← hnext, ← List.drop_drop, ← ht, List.drop_left]
          rw [hdrop] at hu
          exact ⟨u, by rw [List.append_assoc, hu, ht]⟩

theorem Settled.foldr_join (h : Settled origin code i blocks) :
    Settled origin code i (blocks.foldr Block.join []) := by
  induction h with
  | nil => exact .nil
  | code hfound hreassembles _ ih => exact .code hfound hreassembles ih
  | data hne hbytes hkept _ ih => exact (Settled.data hne hbytes hkept ih).join

/-- The blocks of a sweep stand for their reasons. -/
theorem settled_sweep (origin : Int) (code : List UInt8) :
    Settled origin code 0 (sweep origin code) := by
  rcases @settled_sweepOnto origin code 0 [] code rfl (Nat.zero_le _) with
    ⟨blocks, hblocks, hsettled⟩
  rw [Int.natCast_zero, Int.add_zero, List.reverse_nil, List.nil_append] at hblocks
  rw [sweep, hblocks]
  exact hsettled.foldr_join

namespace Settled

theorem flatMap_bytes (h : Settled origin code i blocks) :
    blocks.flatMap Block.bytes = code.drop i := by
  induction h with
  | nil => simp
  | @code i d rest hfound _ _ ih =>
      rw [List.flatMap_cons, ih, ← List.drop_drop]
      exact (Decoded.ofBytes?_eq_some hfound).2.1
  | @data i bytes rest _ hbytes _ _ ih =>
      rcases hbytes with ⟨t, ht⟩
      rw [List.flatMap_cons, ih, ← List.drop_drop, ← ht, List.drop_left]
      rfl

theorem bytes_ne_nil (h : Settled origin code i blocks) : ∀ b ∈ blocks, b.bytes ≠ [] := by
  induction h with
  | nil => exact fun b hb => nomatch hb
  | code hfound _ _ ih =>
      have hpos := Decoded.size_pos_of_ofBytes? hfound
      exact List.forall_mem_cons.mpr ⟨List.length_pos_iff.mp hpos, ih⟩
  | data hne _ _ _ ih => exact List.forall_mem_cons.mpr ⟨hne, ih⟩

theorem drop {before : List Block} (h : Settled origin code i (before ++ blocks)) :
    Settled origin code (i + extent before) blocks := by
  induction before generalizing i with
  | nil => exact h
  | cons b rest ih =>
      rw [extent_cons, ← Nat.add_assoc]
      cases h with
      | code _ _ hrest => exact ih hrest
      | data _ _ _ hrest => exact ih hrest

theorem address_eq {b : Block} (h : Settled origin code i (b :: blocks)) :
    b.address = wrap64 (origin + i) := by
  cases h with
  | code hfound _ _ => exact (Decoded.ofBytes?_eq_some hfound).1
  | data _ _ _ _ => rfl

theorem found {d : Decoded} (h : Settled origin code i (.code d :: blocks)) :
    Decoded.ofBytes? (wrap64 (origin + i)) (code.drop i) = some d ∧ d.reassembles = true := by
  cases h with
  | code hfound hreassembles _ => exact ⟨hfound, hreassembles⟩

theorem kept {address : Int} {bytes : List UInt8}
    (h : Settled origin code i (.data address bytes :: blocks)) :
    Kept origin code i (i + bytes.length) := by
  cases h with
  | data _ _ hkept _ => exact hkept

end Settled

theorem isChain_foldr_join (blocks : List Block) :
    (blocks.foldr join []).IsChain fun b next => ¬(b.isData = true ∧ next.isData = true) := by
  induction blocks with
  | nil => exact .nil
  | cons b rest ih =>
      rw [List.foldr_cons]
      generalize rest.foldr join [] = joined at ih ⊢
      cases b with
      | code d =>
          refine List.isChain_cons.mpr ⟨fun next _ hboth => ?_, ih⟩
          exact absurd hboth.1 Bool.false_ne_true
      | data address bytes =>
          cases joined with
          | nil => exact List.isChain_singleton _
          | cons next later =>
              cases next with
              | code d =>
                  refine List.isChain_cons_cons.mpr ⟨fun hboth => ?_, ih⟩
                  exact absurd hboth.2 Bool.false_ne_true
              | data address' bytes' =>
                  rw [List.isChain_cons] at ih
                  exact List.isChain_cons.mpr ih

end Block

/-- The blocks of a sweep hold the code, byte by byte and in order.  None of them is empty
and no two neighbours are both data.  A block has the address that the sizes of the blocks
before it give, as a number of 64 bits.  An instruction is what the decoder finds at that
place, and it would be assembled to the same bytes again.  Data falls into stretches, each of which begins where
the one before it ends, and every byte of it belongs to one of them: to a byte that the
decoder refuses or to an instruction that would be assembled to other bytes. -/
theorem sweep_partitions_code (origin : Int) (code : List UInt8) :
    let blocks := Block.sweep origin code
    blocks.flatMap Block.bytes = code ∧
      (∀ b ∈ blocks, b.bytes ≠ []) ∧
      (blocks.IsChain fun b next => ¬(b.isData = true ∧ next.isData = true)) ∧
      (∀ before b after, blocks = before ++ b :: after ->
        b.address = wrap64 (origin + Block.extent before)) ∧
      (∀ before d after, blocks = before ++ .code d :: after ->
        Decoded.ofBytes? (wrap64 (origin + Block.extent before))
            (code.drop (Block.extent before)) = some d ∧
          d.reassembles = true) ∧
      ∀ before address bytes after, blocks = before ++ .data address bytes :: after ->
        let start := Block.extent before
        Block.Kept origin code start (start + bytes.length) ∧
          ∀ i, start ≤ i -> i < start + bytes.length ->
            ∃ first size, start ≤ first ∧ first + size ≤ start + bytes.length ∧
              first ≤ i ∧ i < first + size ∧ Block.Unfit origin code first size := by
  intro blocks
  have hsettled : Block.Settled origin code 0 blocks := Block.settled_sweep origin code
  have hat : ∀ {before later}, blocks = before ++ later ->
      Block.Settled origin code (Block.extent before) later := by
    intro before later hsplit
    rw [hsplit] at hsettled
    have hdrop := hsettled.drop
    rwa [Nat.zero_add] at hdrop
  refine ⟨hsettled.flatMap_bytes, hsettled.bytes_ne_nil, Block.isChain_foldr_join _,
    ?_, ?_, ?_⟩
  · exact fun before b after hsplit => (hat hsplit).address_eq
  · exact fun before d after hsplit => (hat hsplit).found
  · intro before address bytes after hsplit
    have hkept := (hat hsplit).kept
    exact ⟨hkept, fun i hlow hhigh => hkept.exists_unfit hlow hhigh⟩

/-- From the last address on, the second block stands at the first address there is. -/
theorem sweep_comes_round :
    let origin : Int := 0x7FFFFFFFFFFFFFFF
    let blocks := Block.sweep origin [0xEA, 0xEA]
    ¬∀ before b after, blocks = before ++ b :: after ->
      b.address = origin + Block.extent before := by
  intro origin blocks hplain
  let second : Decoded := ⟨-0x8000000000000000, ⟨.nop, .implied, 0xEA⟩, [0xEA], 0⟩
  have hsplit : blocks = blocks.take 1 ++ [.code second] := by decide +kernel
  have haddress := hplain _ _ _ hsplit
  revert haddress
  decide +kernel

/-- A byte that does not decode and an instruction that a shorter one would replace make up
one block of data, above the end of the address space. -/
theorem sweep_partitions_code_beyond :
    let code : List UInt8 := [0xA9, 0x01, 0x02, 0xBD, 0x10, 0x00, 0x60, 0x4C, 0x00]
    let blocks := Block.sweep 0xFFFE code
    blocks = blocks.take 1 ++ .data 0x10000 [0x02, 0xBD, 0x10, 0x00] :: blocks.drop 2 ∧
      blocks.flatMap Block.bytes = code ∧ Block.Kept 0xFFFE code 2 6 := by
  intro code blocks
  have hsplit : blocks =
      blocks.take 1 ++ .data 0x10000 [0x02, 0xBD, 0x10, 0x00] :: blocks.drop 2 := by
    decide +kernel
  have hextent : Block.extent (blocks.take 1) = 2 := by decide +kernel
  rcases sweep_partitions_code 0xFFFE code with ⟨hbytes, _, _, _, _, hdata⟩
  have hkept := (hdata _ _ _ _ hsplit).1
  rw [hextent] at hkept
  exact ⟨hsplit, hbytes, hkept⟩

end Asm6502

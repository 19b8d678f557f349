import Asm6502.Proofs.AddressSpace
import Asm6502.Proofs.ModeSelection
import Mathlib.Order.Bounds.Defs

/-!
# Padding

Three directives append copies of one byte: up to a multiple of a number, up to an
address, or as many as they are told.  The first works with a remainder that takes the
sign of the address, so below zero it is not the usual one.  All of them count in 64 bits,
so where a distance is too great for that they append nothing, and past the highest number
they go on below zero.  The main result says where each of them ends, wherever it begins,
and that otherwise it is refused only for want of room.
-/

namespace Asm6502

def Statement.Directs (s : Statement) (d : Directive) (operands : List Operand) : Prop :=
  ∃ name, s.body = .directive name operands ∧ Directive.ofName? name = some d

namespace Image

variable {image : Image} {position : Position} {o : Operand} {e : Effect}
  {d : Diagnostic}

/-!
## Appended bytes
-/

def extended (image : Image) (bytes : List UInt8) : Image :=
  { image with bytes := image.bytes ++ bytes.toArray }

theorem pc_extended (image : Image) (bytes : List UInt8) :
    (image.extended bytes).pc = wrap64 (image.pc + bytes.length) := by
  simp [pc, extended, Int.add_assoc]

theorem apply_addBytes (image : Image) (bytes : List UInt8) :
    image.apply (.append (Chunk.empty.addBytes bytes)) = image.extended bytes := by
  simp [apply, append, extended, Chunk.empty, Chunk.addBytes]

theorem pad?_eq (image : Image) (position : Position) (count : Int) (b : UInt8) :
    image.pad? position count b =
      if image.hasRoom count then
        .ok (.append (Chunk.empty.addBytes (List.replicate count.toNat b)))
      else .error (image.pastMemory position count) := by
  simp [pad?, Chunk.empty, Chunk.addBytes]

/-- The byte that is repeated: the filler, or else the value of the operand. -/
inductive FillsWith (image : Image) : Option Operand -> UInt8 -> Prop where
  | filler : FillsWith image none image.filler
  | value {o : Operand} {b : UInt8} :
      image.constValue o = .ok b.toNat -> FillsWith image (some o) b

theorem byteValue_eq_ok_iff {b : UInt8} :
    image.byteValue o = .ok b ↔ image.constValue o = .ok b.toNat := by
  constructor
  · intro h
    rcases exists_ok_of_bind h with ⟨n, hn, hb⟩
    split at hb
    · cases hb
    · rename_i hrange
      simp only [Bool.or_eq_true, decide_eq_true_eq, not_or, Int.not_lt] at hrange
      cases hb
      rw [hn, UInt8.ofInt, UInt8.toNat_ofNat']
      congr 1
      omega
  · intro h
    have hb := b.toNat_lt
    have hrange :
        ¬(decide ((b.toNat : Int) < 0) || decide (0xFF < (b.toNat : Int))) = true := by
      simp only [Bool.or_eq_true, decide_eq_true_eq]
      omega
    have hsame : ((b.toNat : Int) % 2 ^ 8).toNat = b.toNat := by omega
    rw [byteValue, h]
    refine (if_neg hrange).trans ?_
    rw [UInt8.ofInt, hsame, UInt8.ofNat_toNat]

/-!
## Multiples
-/

def gap (address n : Int) : Int :=
  -address % n

theorem gap_nonneg {n : Int} (hn : 1 ≤ n) (address : Int) : 0 ≤ gap address n :=
  Int.emod_nonneg _ (by omega)

theorem gap_lt {n : Int} (hn : 1 ≤ n) (address : Int) : gap address n < n :=
  Int.emod_lt_of_pos _ (by omega)

/-- The gap leads to the next multiple, above and below zero. -/
theorem isLeast_gap {n : Int} (hn : 1 ≤ n) (address : Int) :
    IsLeast {a | n ∣ a ∧ address ≤ a} (address + gap address n) := by
  have hdivide : n * (-address / n) + gap address n = -address :=
    Int.mul_ediv_add_emod (-address) n
  refine ⟨⟨⟨-(-address / n), ?_⟩, ?_⟩, ?_⟩
  · rw [Int.mul_neg]
    omega
  · have hgap := gap_nonneg hn address
    omega
  · rintro a ⟨⟨k, rfl⟩, ha⟩
    -- The way to a multiple leaves the gap as its remainder, so it is as long at least.
    have hway : (n * k - address) % n = gap address n := by
      rw [gap, Int.sub_eq_add_neg, Int.add_comm, Int.add_mul_emod_self_left]
    have hrounds : 0 ≤ n * ((n * k - address) / n) :=
      Int.mul_nonneg (by omega) (Int.ediv_nonneg (by omega) (by omega))
    have hsplit := Int.mul_ediv_add_emod (n * k - address) n
    omega

theorem tmod_eq_gap {n : Int} (hn : 1 ≤ n) (address : Int) :
    Int.tmod (n - Int.tmod address n) n = gap address n := by
  have hlt := Int.tmod_lt_of_pos address (show 0 < n by omega)
  have hmove : n - Int.tmod address n = -address + n * (1 + Int.tdiv address n) := by
    rw [Int.tmod_def, Int.mul_add]
    omega
  rw [Int.tmod_eq_emod_of_nonneg (by omega), hmove, Int.add_mul_emod_self_left]
  rfl

variable {address n : Int}

theorem alignment_lt (hn : 1 ≤ n) (address : Int) : alignment address n < n :=
  Int.tmod_lt_of_pos _ (by omega)

theorem alignment_eq_gap (hn : 1 ≤ n)
    (h : n - Int.tmod address n < 0x8000000000000000) :
    alignment address n = gap address n := by
  have hlt := Int.tmod_lt_of_pos address (show 0 < n by omega)
  rw [alignment, wrap64_of_signed64 ⟨by omega, h⟩, tmod_eq_gap hn]

theorem alignment_nonpos (hn : 1 ≤ n) (hsigned : Signed64 n)
    (h : 0x8000000000000000 ≤ n - Int.tmod address n) : alignment address n ≤ 0 := by
  have hhigh := hsigned.2
  have hlt := Int.lt_tmod_of_pos address (show 0 < n by omega)
  rw [alignment, wrap64_of_le h (by omega)]
  have hneg : 0 ≤ Int.tmod (-(n - Int.tmod address n - 0x10000000000000000)) n :=
    Int.tmod_nonneg n (by omega)
  rw [Int.neg_tmod] at hneg
  omega

theorem not_dvd_of_le (hsigned : Signed64 n)
    (h : 0x8000000000000000 ≤ n - Int.tmod address n) : ¬n ∣ address := by
  intro hdvd
  have hhigh := hsigned.2
  rw [Int.tmod_eq_zero_of_dvd hdvd] at h
  omega

/-- Alignment ends at the next multiple unless a number of 64 bits comes round. -/
theorem isLeast_wrap64_iff (haddress : Signed64 address) (hn : 1 ≤ n)
    (hsigned : Signed64 n) :
    IsLeast {a | n ∣ a ∧ address ≤ a} (wrap64 (address + (alignment address n).toNat)) ↔
      n - Int.tmod address n < 0x8000000000000000 ∧
        address + (alignment address n).toNat < 0x8000000000000000 := by
  have hlow := haddress.1
  have hhigh := haddress.2
  by_cases h : n - Int.tmod address n < 0x8000000000000000
  · have hgap := gap_nonneg hn address
    have hlt := gap_lt hn address
    have hmost := hsigned.2
    rw [alignment_eq_gap hn h, Int.toNat_of_nonneg hgap]
    refine ⟨fun hleast => ⟨h, ?_⟩, fun hend => ?_⟩
    · by_contra hround
      have hback := hleast.1.2
      rw [wrap64_of_le (by omega) (by omega)] at hback
      omega
    · rw [wrap64_of_signed64 ⟨by omega, hend.2⟩]
      exact isLeast_gap hn address
  · have hnone : (alignment address n).toNat = 0 :=
      Int.toNat_of_nonpos (alignment_nonpos hn hsigned (Int.not_lt.mp h))
    rw [hnone, Int.natCast_zero, Int.add_zero, wrap64_of_signed64 haddress]
    refine ⟨fun hleast => absurd hleast.1.1 ?_, fun hend => absurd hend.1 h⟩
    exact not_dvd_of_le hsigned (Int.not_lt.mp h)

/-- A distance leads to where it should if and only if it is a number of 64 bits. -/
theorem wrap64_eq_iff {pc : Int} (hpc : Signed64 pc) (haddress : Signed64 address)
    (hle : pc ≤ address) :
    wrap64 (pc + (wrap64 (address - pc)).toNat) = address ↔
      address - pc < 0x8000000000000000 := by
  have hlow := hpc.1
  have hhigh := haddress.2
  by_cases h : address - pc < 0x8000000000000000
  · have hsum : pc + (address - pc) = address := by omega
    rw [wrap64_of_signed64 ⟨by omega, h⟩, Int.toNat_of_nonneg (by omega), hsum,
      wrap64_of_signed64 haddress]
    exact ⟨fun _ => h, fun _ => rfl⟩
  · rw [wrap64_of_le (Int.not_lt.mp h) (by omega), Int.toNat_of_nonpos (by omega),
      Int.natCast_zero, Int.add_zero, wrap64_of_signed64 hpc]
    exact ⟨fun heq => by omega, fun hlt => absurd hlt h⟩

/-!
## Effects

Each directive pads by some count, provided that it knows what it wants to know.
-/

theorem alignEffect_eq (hn : image.constValue o = .ok n) (hpos : 1 ≤ n) :
    image.alignEffect position o =
      image.pad? position (alignment image.pc n) image.filler := by
  rw [alignEffect, hn]
  exact if_neg (by omega)

theorem known_of_alignEffect (h : image.alignEffect position o = .ok e) :
    ∃ n, image.constValue o = .ok n ∧ 1 ≤ n := by
  rcases exists_ok_of_bind h with ⟨n, hn, hrest⟩
  split at hrest
  · cases hrest
  · exact ⟨n, hn, by omega⟩

theorem orgEffect_of_not_settled
    (haddress : image.constValue o = .ok address) (h : ¬image.Settled) :
    image.orgEffect position o = .ok (.moveOrigin address) := by
  rw [orgEffect, haddress]
  exact if_pos (not_settled_iff.mp h)

theorem orgEffect_eq (haddress : image.constValue o = .ok address)
    (hsettled : image.Settled) (hle : image.pc ≤ address) :
    image.orgEffect position o =
      image.pad? position (wrap64 (address - image.pc)) image.filler := by
  have hlater : ¬(!image.originSet && image.bytes.isEmpty) = true :=
    fun hfirst => not_settled_iff.mpr hfirst hsettled
  rw [orgEffect, haddress]
  exact (if_neg hlater).trans (if_neg (by omega))

theorem known_of_orgEffect (hsettled : image.Settled)
    (h : image.orgEffect position o = .ok e) :
    ∃ address, image.constValue o = .ok address ∧ image.pc ≤ address := by
  rcases exists_ok_of_bind h with ⟨address, haddress, hrest⟩
  have hlater : ¬(!image.originSet && image.bytes.isEmpty) = true :=
    fun hfirst => not_settled_iff.mpr hfirst hsettled
  rw [if_neg hlater] at hrest
  split at hrest
  · cases hrest
  · exact ⟨address, haddress, by omega⟩

theorem fillEffect_eq {count : Operand} {byte : Option Operand} {b : UInt8}
    (hn : image.constValue count = .ok n) (hnat : 0 ≤ n) (hb : image.FillsWith byte b) :
    image.fillEffect position count byte = image.pad? position n b := by
  rw [fillEffect, hn]
  refine (if_neg (by omega)).trans ?_
  cases hb with
  | filler => rfl
  | value hvalue =>
      dsimp only
      rw [byteValue_eq_ok_iff.mpr hvalue]
      rfl

theorem known_of_fillEffect {count : Operand} {byte : Option Operand}
    (h : image.fillEffect position count byte = .ok e) :
    ∃ n b, image.constValue count = .ok n ∧ 0 ≤ n ∧ image.FillsWith byte b := by
  rcases exists_ok_of_bind h with ⟨n, hn, hrest⟩
  split at hrest
  · cases hrest
  · cases byte with
    | none => exact ⟨n, _, hn, by omega, .filler⟩
    | some o =>
        rcases exists_ok_of_bind hrest with ⟨b, hb, _⟩
        exact ⟨n, b, hn, by omega, .value (byteValue_eq_ok_iff.mp hb)⟩

/-!
## Statements
-/

variable {initial : UInt8} {s : Statement}

theorem effect_of_align (h : s.Directs .align [o]) :
    image.effect initial s = image.alignEffect s.position o := by
  rcases h with ⟨name, hbody, hname⟩
  simp [effect, hbody, hname, directiveEffect, Directive.arity]

theorem effect_of_org (h : s.Directs .org [o]) :
    image.effect initial s = image.orgEffect s.position o := by
  rcases h with ⟨name, hbody, hname⟩
  simp [effect, hbody, hname, directiveEffect, Directive.arity]

theorem effect_of_fill {count : Operand} {byte : Option Operand}
    (h : s.Directs .fill (count :: byte.toList)) :
    image.effect initial s = image.fillEffect s.position count byte := by
  rcases h with ⟨name, hbody, hname⟩
  cases byte <;> simp [effect, hbody, hname, directiveEffect, Directive.arity]

end Image

namespace Session

variable {options : Options} {session : Session} {s : Statement}

theorem exists_error_of_refused (h : session.accepts options s = false) :
    ∃ d, session.image.effect options.filler s = .error d := by
  cases heffect : session.image.effect options.filler s with
  | error d => exact ⟨d, rfl⟩
  | ok e =>
      rw [accepts_of_ok heffect] at h
      cases h

/-- The statement adds these bytes, and is refused only if there is no room for as many as
it counts. -/
structure Extends (options : Options) (session : Session) (s : Statement) (count : Int)
    (bytes : List UInt8) : Prop where
  accepts_iff : session.accepts options s = true ↔
    wrap64 (session.image.pc + count) ≤ 0x10000
  emit_eq : session.accepts options s = true ->
    session.emit options s = { session with image := session.image.extended bytes }

theorem extends_of_effect {count : Int} {bytes : List UInt8} {d : Diagnostic}
    (h : session.image.effect options.filler s =
      if session.image.hasRoom count then .ok (.append (Chunk.empty.addBytes bytes))
      else .error d) :
    session.Extends options s count bytes := by
  by_cases hroom : session.image.hasRoom count = true
  · rw [if_pos hroom] at h
    refine ⟨⟨fun _ => of_decide_eq_true hroom, fun _ => accepts_of_ok h⟩, fun _ => ?_⟩
    rw [emit_of_ok h, Image.apply_addBytes]
  · rw [if_neg hroom] at h
    have hrefused := not_accepts_of_error h
    refine ⟨⟨?_, fun hfits => absurd (decide_eq_true hfits) hroom⟩, ?_⟩
    · exact fun haccepts => absurd haccepts (hrefused ▸ Bool.false_ne_true)
    · exact fun haccepts => absurd haccepts (hrefused ▸ Bool.false_ne_true)

theorem Extends.lt_of_refused {count : Nat} {bytes : List UInt8}
    (h : session.Extends options s count bytes)
    (hrefused : session.accepts options s = false) : 0x10000 < session.image.pc + count := by
  by_contra hle
  have hfits := Int.not_lt.mp hle
  rw [← Image.wrap64_pc_add hfits, ← h.accepts_iff, hrefused] at hfits
  exact Bool.false_ne_true hfits

variable {o : Operand} {n address : Int}

theorem extends_of_align (hs : s.Directs .align [o])
    (hn : session.image.constValue o = .ok n) (hpos : 1 ≤ n) :
    session.Extends options s (Image.alignment session.image.pc n)
      (List.replicate (Image.alignment session.image.pc n).toNat session.image.filler) :=
  extends_of_effect (((Image.effect_of_align hs).trans (Image.alignEffect_eq hn hpos)).trans
    (Image.pad?_eq ..))

theorem extends_of_org (hs : s.Directs .org [o])
    (haddress : session.image.constValue o = .ok address)
    (hsettled : session.image.Settled) (hle : session.image.pc ≤ address) :
    session.Extends options s (wrap64 (address - session.image.pc))
      (List.replicate (wrap64 (address - session.image.pc)).toNat session.image.filler) :=
  extends_of_effect (((Image.effect_of_org hs).trans
    (Image.orgEffect_eq haddress hsettled hle)).trans (Image.pad?_eq ..))

theorem extends_of_fill {count : Operand} {byte : Option Operand} {k : Nat} {b : UInt8}
    (hs : s.Directs .fill (count :: byte.toList))
    (hk : session.image.constValue count = .ok k) (hb : session.image.FillsWith byte b) :
    session.Extends options s k (List.replicate k b) :=
  extends_of_effect (((Image.effect_of_fill hs).trans
    (Image.fillEffect_eq hk (Int.natCast_nonneg k) hb)).trans (Image.pad?_eq ..))

theorem settled_of_refused (hs : s.Directs .org [o])
    (haddress : session.image.constValue o = .ok address)
    (hrefused : session.accepts options s = false) : session.image.Settled := by
  by_contra hnot
  rcases exists_error_of_refused hrefused with ⟨d, hd⟩
  rw [Image.effect_of_org hs, Image.orgEffect_of_not_settled haddress hnot] at hd
  cases hd

theorem exists_isLeast_of_align_refused (hs : s.Directs .align [o])
    (hn : session.image.constValue o = .ok n) (hpos : 1 ≤ n)
    (hcounted : n - Int.tmod session.image.pc n < 0x8000000000000000)
    (hrefused : session.accepts options s = false) :
    ∃ a, IsLeast {a | n ∣ a ∧ session.image.pc ≤ a} a ∧ 0x10000 < a := by
  have hextends := @extends_of_align options session s o n hs hn hpos
  have hgap := Image.gap_nonneg hpos session.image.pc
  rw [Image.alignment_eq_gap hpos hcounted, ← Int.toNat_of_nonneg hgap] at hextends
  have hlt := hextends.lt_of_refused hrefused
  rw [Int.toNat_of_nonneg hgap] at hlt
  exact ⟨_, Image.isLeast_gap hpos _, hlt⟩

theorem lt_of_org_refused (hs : s.Directs .org [o])
    (haddress : session.image.constValue o = .ok address)
    (hle : session.image.pc ≤ address) (hrefused : session.accepts options s = false) :
    0x10000 < address := by
  have hsettled := settled_of_refused hs haddress hrefused
  have hextends := @extends_of_org options session s o address hs haddress hsettled hle
  refine Int.not_le.mp fun hfits => ?_
  -- The address is then one of 64 bits, and the sum comes round to it.
  have hlow := session.image.signed64_pc.1
  have hsum : wrap64 (session.image.pc + wrap64 (address - session.image.pc)) =
      address := by
    rw [wrap64_add_right, show session.image.pc + (address - session.image.pc) = address
      by omega, wrap64_of_signed64 ⟨by omega, by omega⟩]
  rw [← hsum, ← hextends.accepts_iff, hrefused] at hfits
  exact Bool.false_ne_true hfits

end Session

/-- For every session and every statement that pads.

An alignment that is accepted appends fewer bytes than its number, all of them fillers.
The address afterwards is the least multiple that is not below the address before, if and
only if neither the distance as it is counted nor that multiple is past the highest number
of 64 bits.  An address that is accepted and does not move the origin is reached by fillers
alone, if and only if the distance is a number of 64 bits.  A count that is accepted appends
that many copies of the byte given, or of the filler.

An alignment by one or more whose distance can be counted, a known address that is not below
the current one, and a known count with a byte are refused only if the padding would end
past the last address. -/
theorem padding_lands_iff (options : Options) (session : Session) (s : Statement) :
    let image := session.image
    let after := (session.emit options s).image
    (∀ o, s.Directs .align [o] ->
      (session.accepts options s = true ->
        ∃ (n : Int) (count : Nat), image.constValue o = .ok n ∧ count < n ∧
          after = image.extended (List.replicate count image.filler) ∧
          (Signed64 n -> (IsLeast {a | n ∣ a ∧ image.pc ≤ a} after.pc ↔
            n - Int.tmod image.pc n < 0x8000000000000000 ∧
              image.pc + count < 0x8000000000000000))) ∧
      ∀ n, image.constValue o = .ok n -> 1 ≤ n ->
        n - Int.tmod image.pc n < 0x8000000000000000 ->
        session.accepts options s = false ->
        ∃ a, IsLeast {a | n ∣ a ∧ image.pc ≤ a} a ∧ 0x10000 < a) ∧
    (∀ o, s.Directs .org [o] ->
      (session.accepts options s = true -> image.Settled ->
        ∃ (address : Int) (count : Nat), image.constValue o = .ok address ∧
          after = image.extended (List.replicate count image.filler) ∧
          (Signed64 address ->
            (after.pc = address ↔ address - image.pc < 0x8000000000000000))) ∧
      ∀ address, image.constValue o = .ok address -> image.pc ≤ address ->
        session.accepts options s = false -> image.Settled ∧ 0x10000 < address) ∧
    (∀ count byte, s.Directs .fill (count :: byte.toList) ->
      (session.accepts options s = true ->
        ∃ (n : Nat) (b : UInt8), image.constValue count = .ok n ∧
          image.FillsWith byte b ∧ after = image.extended (List.replicate n b)) ∧
      ∀ n b, image.constValue count = .ok n -> 0 ≤ n -> image.FillsWith byte b ->
        session.accepts options s = false -> 0x10000 < image.pc + n) := by
  dsimp only
  have hpc := session.image.signed64_pc
  refine ⟨fun o hs => ⟨?_, ?_⟩, fun o hs => ⟨?_, ?_⟩, fun count byte hs => ⟨?_, ?_⟩⟩
  · intro haccepts
    rcases Session.accepts_iff.mp haccepts with ⟨e, he⟩
    rcases Image.known_of_alignEffect (Image.effect_of_align hs ▸ he) with ⟨n, hn, hpos⟩
    have hafter := congrArg Session.image
      ((Session.extends_of_align hs hn hpos).emit_eq haccepts)
    refine ⟨n, _, hn, ?_, hafter, fun hsigned => ?_⟩
    · have hlt := Image.alignment_lt hpos session.image.pc
      omega
    · rw [hafter, Image.pc_extended, List.length_replicate]
      exact Image.isLeast_wrap64_iff hpc hpos hsigned
  · intro n hn hpos hcounted hrefused
    exact Session.exists_isLeast_of_align_refused hs hn hpos hcounted hrefused
  · intro haccepts hsettled
    rcases Session.accepts_iff.mp haccepts with ⟨e, he⟩
    rcases Image.known_of_orgEffect hsettled (Image.effect_of_org hs ▸ he) with
      ⟨address, haddress, hle⟩
    have hafter := congrArg Session.image
      ((Session.extends_of_org hs haddress hsettled hle).emit_eq haccepts)
    refine ⟨address, _, haddress, hafter, fun hsigned => ?_⟩
    rw [hafter, Image.pc_extended, List.length_replicate]
    exact Image.wrap64_eq_iff hpc hsigned hle
  · intro address haddress hle hrefused
    exact ⟨Session.settled_of_refused hs haddress hrefused,
      Session.lt_of_org_refused hs haddress hle hrefused⟩
  · intro haccepts
    rcases Session.accepts_iff.mp haccepts with ⟨e, he⟩
    rcases Image.known_of_fillEffect (Image.effect_of_fill hs ▸ he) with
      ⟨n, b, hn, hnat, hb⟩
    rcases Int.eq_ofNat_of_zero_le hnat with ⟨k, rfl⟩
    exact ⟨k, b, hn, hb, congrArg Session.image
      ((Session.extends_of_fill hs hn hb).emit_eq haccepts)⟩
  · intro n b hn hnat hb hrefused
    rcases Int.eq_ofNat_of_zero_le hnat with ⟨k, rfl⟩
    exact (Session.extends_of_fill hs hn hb).lt_of_refused hrefused

/-- Four bytes below zero an alignment by three goes on at minus three, and the address
zero is reached by fillers; two bytes above zero there is no room for $FFFF more. -/
theorem padding_lands_iff_below_zero :
    let after (source : String) := (Script.ofText source.toList).events.foldl
      (Session.handle {}) (Session.start {} [])
    let directs (name : String) (n : Int) : Statement :=
      ⟨.directive name.toList [⟨.plain (.number n), ⟨3, 8⟩⟩], ⟨3, 1⟩⟩
    let below := after ".org -5\nnop"
    let above := after "nop\nnop"
    (below.accepts {} (directs "align" 3) = true ∧
        IsLeast {a | 3 ∣ a ∧ -4 ≤ a} (below.emit {} (directs "align" 3)).image.pc) ∧
      (below.accepts {} (directs "org" 0) = true ∧ below.image.Settled ∧
        ∃ count, (below.emit {} (directs "org" 0)).image =
            below.image.extended (List.replicate count 0xEA) ∧
          (below.emit {} (directs "org" 0)).image.pc = 0) ∧
      (above.accepts {} (directs "fill" 0xFFFF) = false ∧
        0x10000 < above.image.pc + 0xFFFF) := by
  intro after directs below above
  have halign : below.accepts {} (directs "align" 3) = true := by decide +kernel
  have horg : below.accepts {} (directs "org" 0) = true := by decide +kernel
  have hfill : above.accepts {} (directs "fill" 0xFFFF) = false := by decide +kernel
  have hsettled : below.image.Settled := .inl (by decide +kernel)
  have hpc : below.image.pc = -4 := by decide +kernel
  have hfiller : below.image.filler = 0xEA := by decide +kernel
  refine ⟨⟨halign, ?_⟩, ⟨horg, hsettled, ?_⟩, hfill, ?_⟩
  · rcases (padding_lands_iff {} below (directs "align" 3)).1 _ ⟨_, rfl, by decide⟩ with
      ⟨haccepted, _⟩
    rcases haccepted halign with ⟨n, count, hn, hcount, _, hleast⟩
    cases hn
    rw [hpc] at hleast
    exact (hleast (by decide)).mpr ⟨by decide, by omega⟩
  · rcases (padding_lands_iff {} below (directs "org" 0)).2.1 _ ⟨_, rfl, by decide⟩ with
      ⟨haccepted, _⟩
    rcases haccepted horg hsettled with ⟨address, count, haddress, himage, hreached⟩
    cases haddress
    rw [hfiller] at himage
    rw [hpc] at hreached
    exact ⟨count, himage, (hreached (by decide)).mpr (by decide)⟩
  · exact ((padding_lands_iff {} above (directs "fill" 0xFFFF)).2.2 _ none
      ⟨_, rfl, by decide⟩).2 0xFFFF _ rfl (by decide) .filler hfill

/-- Above the lowest address the distance to five is no number of 64 bits, and at the
highest one the next even address is none: nothing is reported, and neither is reached. -/
example :
    let far := assemble { origin := -0x8000000000000000 } "nop\n.org 5\nhere:".toList
    let top := assemble { origin := 0x7FFFFFFFFFFFFFFF } ".align 2\nhere:".toList
    far.diagnostics = [] ∧ far.code = #[0xea] ∧
      far.symbols.map Symbol.binding = [some ⟨.label, -0x7FFFFFFFFFFFFFFF⟩] ∧
      top.diagnostics = [] ∧ top.code = #[0xea] ∧
      top.symbols.map Symbol.binding = [some ⟨.label, -0x8000000000000000⟩] := by
  decide +kernel

end Asm6502

import Asm6502.Text.Utf8
import Mathlib.Tactic.SplitIfs

/-!
# Decoding what was encoded

A text is read back from its bytes.  The number of a character decides how many bytes it
has, and for each length the ranges of the first two bytes are checked: they are where
overlong forms and surrogates are refused, and no character falls outside them.
-/

namespace Asm6502
namespace Utf8

/-!
## Ranges of bytes
-/

theorem within {b low high : UInt8} (hlow : low.toNat ≤ b.toNat)
    (hhigh : b.toNat ≤ high.toNat) : (decide (low ≤ b) && decide (b ≤ high)) = true := by
  rw [Bool.and_eq_true, decide_eq_true_eq, decide_eq_true_eq]
  exact ⟨hlow, hhigh⟩

theorem not_within {b low high : UInt8} (h : high.toNat < b.toNat) :
    ¬(decide (low ≤ b) && decide (b ≤ high)) = true := by
  rw [Bool.and_eq_true, decide_eq_true_eq, decide_eq_true_eq]
  exact fun hrange => Nat.not_le.mpr h hrange.2

def tail (n : Nat) : UInt8 :=
  UInt8.ofNat (n % 64 + 128)

theorem toNat_tail (n : Nat) : (tail n).toNat = n % 64 + 128 :=
  UInt8.toNat_ofNat_of_lt' (show _ < 256 by omega)

theorem tailBits_tail (n : Nat) : tailBits (tail n) = n % 64 := by
  rw [tailBits, toNat_tail]
  omega

theorem isTail_tail (n : Nat) : isTail (tail n) = true := by
  have htail := toNat_tail n
  exact within (show 0x80 ≤ _ by omega) (show _ ≤ 0xBF by omega)

theorem isSecond_tail {first : UInt8} {n : Nat}
    (he0 : first.toNat = 0xE0 -> 0x20 ≤ n % 64)
    (hed : first.toNat = 0xED -> n % 64 < 0x20)
    (hf0 : first.toNat = 0xF0 -> 0x10 ≤ n % 64)
    (hf4 : first.toNat = 0xF4 -> n % 64 < 0x10) : isSecond first (tail n) = true := by
  have htail := toNat_tail n
  have hrange (low high : UInt8) (h : low.toNat ≤ n % 64 + 128)
      (h' : n % 64 + 128 ≤ high.toNat) :
      (decide (low ≤ tail n) && decide (tail n ≤ high)) = true :=
    within (htail ▸ h) (htail ▸ h')
  unfold isSecond
  split_ifs with h1 h2 h3 h4
  · have hbits := he0 (congrArg UInt8.toNat h1)
    exact hrange 0xA0 0xBF (show 0xA0 ≤ _ by omega) (show _ ≤ 0xBF by omega)
  · have hbits := hed (congrArg UInt8.toNat h2)
    exact hrange 0x80 0x9F (show 0x80 ≤ _ by omega) (show _ ≤ 0x9F by omega)
  · have hbits := hf0 (congrArg UInt8.toNat h3)
    exact hrange 0x90 0xBF (show 0x90 ≤ _ by omega) (show _ ≤ 0xBF by omega)
  · have hbits := hf4 (congrArg UInt8.toNat h4)
    exact hrange 0x80 0x8F (show 0x80 ≤ _ by omega) (show _ ≤ 0x8F by omega)
  · exact isTail_tail n

theorem not_ascii_of_toNat {b : UInt8} {n : Nat} (hb : b.toNat = n) (h : 0x80 ≤ n) :
    ¬b < 0x80 := by
  rw [UInt8.lt_iff_toNat_lt, hb]
  exact Nat.not_lt.mpr h

/-!
## Sequences of each length

In each of them the first byte is known by its number only.
-/

theorem head_one {n : Nat} (h : n ≤ 0x7F) (rest : List UInt8) :
    head (UInt8.ofNat n) rest = (Char.ofNat n, 0) := by
  have hfirst : (UInt8.ofNat n).toNat = n := UInt8.toNat_ofNat_of_lt' (show _ < 256 by omega)
  have hlt : UInt8.ofNat n < 0x80 := by
    rw [UInt8.lt_iff_toNat_lt, hfirst]
    exact Nat.lt_succ_of_le h
  unfold head
  rw [if_pos hlt, hfirst]

theorem head_two {n : Nat} (hlow : 0x7F < n) (hhigh : n ≤ 0x7FF) (rest : List UInt8) :
    head (UInt8.ofNat (n / 64 % 32 + 192)) (tail n :: rest) = (Char.ofNat n, 1) := by
  have hfirst : (UInt8.ofNat (n / 64 % 32 + 192)).toNat = n / 64 % 32 + 192 :=
    UInt8.toNat_ofNat_of_lt' (show _ < 256 by omega)
  generalize UInt8.ofNat (n / 64 % 32 + 192) = first at hfirst ⊢
  have hsecond : isSecond first (tail n) = true :=
    isSecond_tail (by omega) (by omega) (by omega) (by omega)
  have hvalue : (n / 64 % 32 + 192) % 0x20 * 0x40 + n % 64 = n := by omega
  unfold head
  rw [if_neg (not_ascii_of_toNat hfirst (by omega)),
    if_pos (within (show 0xC2 ≤ _ by omega) (show _ ≤ 0xDF by omega))]
  simp only [hsecond, if_true, hfirst, tailBits_tail, hvalue]

theorem head_three {n : Nat} (hlow : 0x7FF < n) (hhigh : n ≤ 0xFFFF)
    (hvalid : n < 0xD800 ∨ 0xDFFF < n) (rest : List UInt8) :
    head (UInt8.ofNat (n / 4096 % 16 + 224)) (tail (n / 64) :: tail n :: rest) =
      (Char.ofNat n, 2) := by
  have hfirst : (UInt8.ofNat (n / 4096 % 16 + 224)).toNat = n / 4096 % 16 + 224 :=
    UInt8.toNat_ofNat_of_lt' (show _ < 256 by omega)
  generalize UInt8.ofNat (n / 4096 % 16 + 224) = first at hfirst ⊢
  have hsecond : isSecond first (tail (n / 64)) = true :=
    isSecond_tail (by omega) (by omega) (by omega) (by omega)
  have hvalue : (n / 4096 % 16 + 224) % 0x10 * 0x1000 + n / 64 % 64 * 0x40 + n % 64 = n := by
    omega
  unfold head
  rw [if_neg (not_ascii_of_toNat hfirst (by omega)), if_neg (not_within (show 0xDF < _ by omega)),
    if_pos (within (show 0xE0 ≤ _ by omega) (show _ ≤ 0xEF by omega))]
  simp only [hsecond, isTail_tail, Bool.and_self, if_true, hfirst, tailBits_tail, hvalue]

theorem head_four {n : Nat} (hlow : 0xFFFF < n) (hhigh : n < 0x110000)
    (rest : List UInt8) :
    head (UInt8.ofNat (n / 262144 % 8 + 240))
        (tail (n / 4096) :: tail (n / 64) :: tail n :: rest) = (Char.ofNat n, 3) := by
  have hfirst : (UInt8.ofNat (n / 262144 % 8 + 240)).toNat = n / 262144 % 8 + 240 :=
    UInt8.toNat_ofNat_of_lt' (show _ < 256 by omega)
  generalize UInt8.ofNat (n / 262144 % 8 + 240) = first at hfirst ⊢
  have hsecond : isSecond first (tail (n / 4096)) = true :=
    isSecond_tail (by omega) (by omega) (by omega) (by omega)
  have hvalue : (n / 262144 % 8 + 240) % 0x08 * 0x40000 + n / 4096 % 64 * 0x1000 +
      n / 64 % 64 * 0x40 + n % 64 = n := by
    omega
  unfold head
  rw [if_neg (not_ascii_of_toNat hfirst (by omega)), if_neg (not_within (show 0xDF < _ by omega)),
    if_neg (not_within (show 0xEF < _ by omega)),
    if_pos (within (show 0xF0 ≤ _ by omega) (show _ ≤ 0xF4 by omega))]
  simp only [hsecond, isTail_tail, Bool.and_self, if_true, hfirst, tailBits_tail, hvalue]

/-- What a character is encoded as is read back as that character, whatever follows. -/
theorem head_encodeChar (c : Char) (rest : List UInt8) :
    ∃ first more, String.utf8EncodeChar c = first :: more ∧
      head first (more ++ rest) = (c, more.length) := by
  have hvalid : c.toNat < 0xD800 ∨ 0xDFFF < c.toNat ∧ c.toNat < 0x110000 := c.valid
  have hback : Char.ofNat c.toNat = c := Char.ofNat_toNat c
  have hvalue : c.val.toNat = c.toNat := rfl
  unfold String.utf8EncodeChar
  dsimp only
  rw [hvalue]
  -- From here on only the number counts, and the bounds of each case are those of its length.
  generalize c.toNat = n at hvalid hback
  rw [← hback]
  split_ifs with h1 h2 h3
  · exact ⟨_, [], rfl, head_one h1 _⟩
  · exact ⟨_, [tail n], rfl, head_two (by omega) h2 _⟩
  · exact ⟨_, [tail (n / 64), tail n], rfl, head_three (by omega) h3 (by omega) _⟩
  · exact ⟨_, [tail (n / 4096), tail (n / 64), tail n], rfl,
      head_four (by omega) (by omega) _⟩

theorem decodeOnto_encode (done t : Text) : decodeOnto done (encode t) = done.reverse ++ t := by
  induction t generalizing done with
  | nil => simp [encode, decodeOnto]
  | cons c rest ih =>
      rcases head_encodeChar c (encode rest) with ⟨first, more, hencode, hhead⟩
      have hcons : encode (c :: rest) = first :: (more ++ encode rest) := by
        rw [encode, List.flatMap_cons, hencode]
        rfl
      rw [hcons, decodeOnto, hhead, List.drop_left, ih]
      simp

theorem decode_encode (t : Text) : decode (encode t) = t :=
  decodeOnto_encode [] t

end Utf8
end Asm6502

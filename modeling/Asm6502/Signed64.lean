/-!
# Numbers of 64 bits

Addresses, distances and the numbers of strings are signed numbers of 64 bits.
A sum or difference that leaves their range comes back in at the other end.
-/

namespace Asm6502

/-- The number of 64 bits that a sum or difference is kept as. -/
def wrap64 (n : Int) : Int :=
  Int.bmod n 0x10000000000000000

def Signed64 (n : Int) : Prop :=
  -0x8000000000000000 ≤ n ∧ n < 0x8000000000000000

instance (n : Int) : Decidable (Signed64 n) :=
  inferInstanceAs (Decidable (_ ∧ _))

theorem signed64_wrap64 (n : Int) : Signed64 (wrap64 n) :=
  ⟨Int.le_bmod (by decide), Int.bmod_lt (by decide)⟩

theorem wrap64_of_signed64 {n : Int} (h : Signed64 n) : wrap64 n = n :=
  Int.bmod_eq_of_le h.1 h.2

/-- Past the highest number the lowest ones follow. -/
theorem wrap64_of_le {n : Int} (hlow : 0x8000000000000000 ≤ n)
    (hhigh : n < 0x18000000000000000) : wrap64 n = n - 0x10000000000000000 := by
  have hback : wrap64 (n - 0x10000000000000000) = wrap64 n :=
    Int.sub_bmod_right n 0x10000000000000000
  rw [← hback, wrap64_of_signed64 ⟨by omega, by omega⟩]

@[simp] theorem wrap64_zero : wrap64 0 = 0 := rfl

@[simp] theorem wrap64_wrap64 (n : Int) : wrap64 (wrap64 n) = wrap64 n :=
  Int.bmod_bmod

@[simp] theorem wrap64_add_left (m n : Int) :
    wrap64 (wrap64 m + n) = wrap64 (m + n) :=
  Int.bmod_add_bmod

@[simp] theorem wrap64_add_right (m n : Int) :
    wrap64 (m + wrap64 n) = wrap64 (m + n) :=
  Int.add_bmod_bmod

@[simp] theorem wrap64_sub_left (m n : Int) :
    wrap64 (wrap64 m - n) = wrap64 (m - n) :=
  Int.bmod_sub_bmod

@[simp] theorem wrap64_sub_right (m n : Int) :
    wrap64 (m - wrap64 n) = wrap64 (m - n) :=
  Int.sub_bmod_bmod

theorem wrap64_add_congr {m n : Int} (h : wrap64 m = wrap64 n) (k : Int) :
    wrap64 (m + k) = wrap64 (n + k) := by
  rw [← wrap64_add_left, h, wrap64_add_left]

theorem wrap64_sub_congr {m n : Int} (h : wrap64 m = wrap64 n) (k : Int) :
    wrap64 (k - m) = wrap64 (k - n) := by
  rw [← wrap64_sub_right, h, wrap64_sub_right]

end Asm6502

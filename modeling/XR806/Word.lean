import Mathlib.Data.Nat.Bitwise

/-!
# XR806.Word

Numbers of 32 bits, as natural numbers: the operations of the source that can wrap around, and
the bit operations it uses on sizes and addresses.
-/

namespace XR806

def u32 (n : Nat) : Nat := n % 2 ^ 32

/-- Subtraction of 32-bit numbers. -/
def sub32 (a b : Nat) : Nat := if b ≤ a then a - b else 2 ^ 32 - (b - a)

/-- `x & ~mask`. -/
def clearBits (x mask : Nat) : Nat := x - (x &&& mask)

theorem u32_of_lt {n : Nat} (h : n < 2 ^ 32) : u32 n = n := Nat.mod_eq_of_lt h

theorem sub32_of_le {a b : Nat} (hb : b ≤ a) : sub32 a b = a - b := if_pos hb

theorem sub32_add_right (a b : Nat) : sub32 (a + b) b = a := by
  rw [sub32_of_le (Nat.le_add_left ..), Nat.add_sub_cancel]

/-! ## Single bits -/

theorem and_two_pow_of_lt {n k : Nat} (h : n < 2 ^ k) : n &&& 2 ^ k = 0 := by
  rw [Nat.and_two_pow, Nat.testBit_lt_two_pow h]
  simp

theorem and_two_pow_add {n k : Nat} (h : n < 2 ^ k) : (n + 2 ^ k) &&& 2 ^ k = 2 ^ k := by
  rw [Nat.and_two_pow, Nat.add_comm, Nat.testBit_two_pow_add_eq, Nat.testBit_lt_two_pow h]
  simp

theorem or_two_pow_of_lt {n k : Nat} (h : n < 2 ^ k) : n ||| 2 ^ k = n + 2 ^ k := by
  have hor := Nat.two_pow_add_eq_or_of_lt h 1
  rw [Nat.mul_one] at hor
  rw [Nat.or_comm, ← hor, Nat.add_comm]

theorem clearBits_two_pow_of_lt {n k : Nat} (h : n < 2 ^ k) : clearBits n (2 ^ k) = n := by
  rw [clearBits, and_two_pow_of_lt h, Nat.sub_zero]

theorem clearBits_two_pow_add {n k : Nat} (h : n < 2 ^ k) : clearBits (n + 2 ^ k) (2 ^ k) = n := by
  rw [clearBits, and_two_pow_add h, Nat.add_sub_cancel]

/-- A number of 32 bits is small, or has its top bit. -/
theorem and_top_eq_zero_iff {n : Nat} (h : n < 2 ^ 32) : n &&& 2 ^ 31 = 0 ↔ n < 2 ^ 31 := by
  constructor
  · intro hz
    by_contra hge
    have hsum : n = (n - 2 ^ 31) + 2 ^ 31 := by omega
    rw [hsum, and_two_pow_add (by omega)] at hz
    exact absurd hz (by decide)
  · exact and_two_pow_of_lt

end XR806

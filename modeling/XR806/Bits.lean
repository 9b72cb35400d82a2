import Mathlib.Data.Nat.Bitwise

/-!
# XR806.Bits

Byte buffers as the bits they hold, low bit first: the bit at an index, the word a copy of some
bytes gives, and the buffer that holds given bits padded with zeros.
-/

namespace XR806
namespace Bits

/-- A bit of a buffer. -/
def bit (data : List UInt8) (i : Nat) : Bool := (data.getD (i / 8) 0).toNat.testBit (i % 8)

/-- The number that the `n` bits from byte `p` on make. -/
def word (data : List UInt8) (p n : Nat) : Nat := Nat.ofBits fun i : Fin n => bit data (8 * p + i)

def byte (g : Nat → Bool) : UInt8 := UInt8.ofNat (Nat.ofBits fun i : Fin 8 => g i)

/-- The bytes that hold the bits `g 0` to `g (n - 1)`. -/
def pack (n : Nat) (g : Nat → Bool) : List UInt8 :=
  (List.range ((n + 7) / 8)).map fun j => byte fun i => decide (8 * j + i < n) && g (8 * j + i)

section

variable {a b data : List UInt8} {g g' : Nat → Bool} {i n p : Nat}

theorem byte_testBit (hi : i < 8) : (byte g).toNat.testBit i = g i := by
  have hlt := Nat.ofBits_lt_two_pow fun i : Fin 8 => g i
  rw [byte, UInt8.toNat_ofNat_of_lt' hlt, Nat.testBit_ofBits_lt _ _ hi]

theorem testBit_byte_ge {x : UInt8} (hi : 8 ≤ i) : x.toNat.testBit i = false :=
  Nat.testBit_lt_two_pow (x.toNat_lt.trans_le (Nat.pow_le_pow_right (by omega) hi))

theorem byte_ext {x y : UInt8} (h : ∀ i < 8, x.toNat.testBit i = y.toNat.testBit i) : x = y := by
  apply UInt8.toNat_inj.mp
  apply Nat.eq_of_testBit_eq
  intro i
  by_cases hi : i < 8
  · exact h i hi
  · rw [testBit_byte_ge (by omega), testBit_byte_ge (by omega)]

theorem ofNat_testBit {x : Nat} (hi : i < 8) :
    (UInt8.ofNat x).toNat.testBit i = x.testBit i := by
  rw [UInt8.toNat_ofNat', Nat.testBit_mod_two_pow]
  simp [hi]

/-- A bit of the bytes of the words `w 0`, `w 1`, ... -/
theorem bit_words {w : Nat → Nat} (hi : i < 8 * n) :
    bit ((List.range n).map fun j => UInt8.ofNat (w (j / 4) >>> (8 * (j % 4)))) i =
      (w (i / 32)).testBit (i % 32) := by
  have hlt : i / 8 < n := by omega
  have hdiv : i / 8 / 4 = i / 32 := Nat.div_div_eq_div_mul ..
  have hmod : 8 * (i / 8 % 4) + i % 8 = i % 32 := by omega
  unfold bit
  rw [List.getD_eq_getElem?_getD, List.getElem?_map, List.getElem?_range hlt, Option.map_some,
    Option.getD_some, ofNat_testBit (Nat.mod_lt i (by omega)), Nat.testBit_shiftRight, hdiv, hmod]

theorem word_testBit : (word data p n).testBit i = (decide (i < n) && bit data (8 * p + i)) := by
  rw [word, Nat.testBit_ofBits]
  by_cases hi : i < n <;> simp [hi]

@[simp] theorem length_pack : (pack n g).length = (n + 7) / 8 := by simp [pack]

@[simp] theorem bit_pack : bit (pack n g) i = (decide (i < n) && g i) := by
  unfold bit pack
  by_cases hi : i / 8 < (n + 7) / 8
  · have hidx : 8 * (i / 8) + i % 8 = i := Nat.div_add_mod i 8
    simp [List.getD_eq_getElem?_getD, List.getElem?_range hi, byte_testBit (Nat.mod_lt i _), hidx]
  · have hn : ¬i < n := by omega
    have hget : (List.range ((n + 7) / 8))[i / 8]? = none := List.getElem?_eq_none (by simpa using hi)
    simp [List.getD_eq_getElem?_getD, hget, hn]

theorem pack_congr (h : ∀ i < n, g i = g' i) : pack n g = pack n g' := by
  refine List.map_congr_left fun j _ => congrArg byte (funext fun i => ?_)
  by_cases hi : 8 * j + i < n <;> simp [hi, h]

/-- The bits of one byte of a buffer. -/
theorem getD_testBit {k : Nat} (hi : i < 8) :
    (a.getD k 0).toNat.testBit i = bit a (8 * k + i) := by
  rw [bit, Nat.mul_add_div (by omega), Nat.div_eq_of_lt hi, Nat.mul_add_mod, Nat.mod_eq_of_lt hi,
    Nat.add_zero]

theorem byte_eq {k : Nat} (h : ∀ i < 8, bit a (8 * k + i) = bit b (8 * k + i)) :
    a.getD k 0 = b.getD k 0 := by
  apply byte_ext
  intro i hi
  rw [getD_testBit hi, getD_testBit hi, h i hi]

theorem ext_bits (hl : a.length = b.length) (h : ∀ i < 8 * a.length, bit a i = bit b i) :
    a = b := by
  apply List.ext_getElem hl
  intro k ha hb
  have hbyte : a.getD k 0 = b.getD k 0 := byte_eq fun i hi => h _ (by omega)
  rwa [List.getD_eq_getElem _ _ ha, List.getD_eq_getElem _ _ hb] at hbyte

/-- `(x ^ y) & x == 0`: the bits of `x` are bits of `y`. -/
theorem xor_and_eq_zero {x y : UInt8} : (x ^^^ y) &&& x = 0 ↔
    ∀ i < 8, x.toNat.testBit i = true → y.toNat.testBit i = true := by
  constructor
  · intro h i hi hx
    have hbit : ((x ^^^ y) &&& x).toNat.testBit i = false := by simp [h]
    rw [UInt8.toNat_and, UInt8.toNat_xor, Nat.testBit_and, Nat.testBit_xor, hx] at hbit
    simpa using hbit
  · intro h
    apply byte_ext
    intro i hi
    rw [UInt8.toNat_and, UInt8.toNat_xor, Nat.testBit_and, Nat.testBit_xor]
    cases hx : x.toNat.testBit i with
    | false => simp
    | true => simp [h i hi hx]

/-- A shift to the left of a word of `n` bits. -/
theorem shiftLeft_testBit {x k : Nat} : ((x <<< k) % 2 ^ n).testBit i =
    (decide (i < n) && (decide (k ≤ i) && x.testBit (i - k))) := by
  rw [Nat.testBit_mod_two_pow, Nat.testBit_shiftLeft]

/-- The byte with the one bit `k`. -/
theorem single_testBit {k : Nat} (hi : i < 8) :
    (UInt8.ofNat (1 <<< k)).toNat.testBit i = decide (i = k) := by
  rw [ofNat_testBit hi, Nat.one_shiftLeft, Nat.testBit_two_pow]
  simp [eq_comm]

theorem bit_single {k : Nat} (hi : i < 8) : bit [UInt8.ofNat (1 <<< k)] i = decide (i = k) := by
  rw [bit, Nat.div_eq_of_lt hi, Nat.mod_eq_of_lt hi, List.getD_cons_zero, single_testBit hi]

/-- The test of one bit of a byte. -/
theorem single_and {x : UInt8} {k : Nat} (hk : k < 8) :
    (UInt8.ofNat (1 <<< k) == x &&& UInt8.ofNat (1 <<< k)) = x.toNat.testBit k := by
  rw [Bool.eq_iff_iff, beq_iff_eq]
  constructor
  · intro h
    have hbit := single_testBit (k := k) hk
    rw [h, UInt8.toNat_and, Nat.testBit_and, single_testBit hk] at hbit
    simpa using hbit
  · intro hx
    apply byte_ext
    intro i hi
    rw [UInt8.toNat_and, Nat.testBit_and, single_testBit hi]
    by_cases hik : i = k
    · rw [hik, hx, Bool.true_and]
    · simp [hik]

theorem and_single_pos {x : UInt8} {k : Nat} (hk : k < 8) :
    (0 : UInt8) < x &&& UInt8.ofNat (1 <<< k) ↔ x.toNat.testBit k = true := by
  constructor
  · intro hpos
    by_contra hx
    have hzero : x &&& UInt8.ofNat (1 <<< k) = 0 := by
      apply byte_ext
      intro i hi
      rw [UInt8.toNat_and, Nat.testBit_and, single_testBit hi]
      by_cases hik : i = k
      · simp [hik, Bool.eq_false_iff.mpr hx]
      · simp [hik]
    rw [hzero] at hpos
    exact absurd hpos (by decide)
  · intro hx
    apply UInt8.pos_iff_ne_zero.mpr
    intro hzero
    have hbit : (x &&& UInt8.ofNat (1 <<< k)).toNat.testBit k = false := by simp [hzero]
    rw [UInt8.toNat_and, Nat.testBit_and, hx, single_testBit hk] at hbit
    simp at hbit

/-- What a bitwise operation on one byte does to the bits. -/
theorem bit_modify {mask : UInt8} {k : Nat} : bit (data.modify k (· &&& mask)) i =
    (bit data i && (decide (i / 8 ≠ k) || mask.toNat.testBit (i % 8))) := by
  unfold bit
  by_cases hk : i / 8 = k
  · subst hk
    cases h : data[i / 8]? with
    | none => simp [List.getD_eq_getElem?_getD, h]
    | some x => simp [List.getD_eq_getElem?_getD, h, UInt8.toNat_and]
  · simp [List.getD_eq_getElem?_getD, hk, Ne.symm hk]

/-- `memcmp(a, b, n) == 0`. -/
def memcmpEq (a b : List UInt8) (n : Nat) : Bool :=
  (List.range n).all fun i => a.getD i 0 == b.getD i 0

theorem memcmpEq_iff : memcmpEq a b n = true ↔ ∀ i < 8 * n, bit a i = bit b i := by
  simp only [memcmpEq, List.all_eq_true, List.mem_range, beq_iff_eq]
  constructor
  · intro h i hi
    rw [bit, bit, h (i / 8) (by omega)]
  · intro h k hk
    exact byte_eq fun i hi => h _ (by omega)

end

end Bits
end XR806

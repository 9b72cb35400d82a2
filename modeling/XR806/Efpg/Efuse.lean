import XR806.Bits

/-!
# XR806.Efpg.Efuse

`HAL_EFUSE_Read` and `HAL_EFUSE_Write`, which reach the fuses 32 at a time through the words of
the controller, and what they do to single fuses (`halEfuseRead_eq`, `halEfuseWrite_eq`).

A fuse is burned once and for good. A fuse that is asked to burn may fail to: the ones that do
burn are given by a `Burns`.
-/

namespace XR806
namespace Efpg

open Bits

/-- The fuses that are burned. -/
abbrev Fuses := Nat → Bool

abbrev Burns := Nat → Bool

def halEfuseBitNum : Nat := 1024

/-- The check that both calls make of their arguments. -/
def BadRange (startBit bitNum : Nat) : Prop :=
  startBit ≥ halEfuseBitNum ∨ bitNum = 0 ∨ bitNum > halEfuseBitNum ∨
    startBit + bitNum > halEfuseBitNum

instance : DecidableRel BadRange := fun s n => by unfold BadRange; exact inferInstance

/-- The bits of the last byte that belong to the data. -/
def lastMask (bitNum : Nat) : UInt8 :=
  UInt8.ofNat ((1 <<< (if bitNum % 8 = 0 then 8 else bitNum % 8)) - 1)

def maskLast (data : List UInt8) (bitNum : Nat) : List UInt8 :=
  data.modify ((bitNum - 1) / 8) (· &&& lastMask bitNum)

def efuseReadData (f : Fuses) (index : Nat) : Nat := Nat.ofBits fun i : Fin 32 => f (32 * index + i)

def efuseWriteData (burns : Burns) (f : Fuses) (index data : Nat) : Fuses :=
  fun b => f b || (decide (b / 32 = index) && data.testBit (b % 32) && burns b)

/-- The words read, shifted down so that the first bit asked for comes first. -/
def sidData (f : Fuses) (startWord wordShift wordCnt i : Nat) : Nat :=
  if i < wordCnt - 1 then
    efuseReadData f (startWord + i) >>> wordShift |||
      -- with no shift this is a shift by the width of the word, which the core makes 0
      (efuseReadData f (startWord + (i + 1)) <<< (32 - wordShift)) % 2 ^ 32
  else
    efuseReadData f (startWord + i) >>> wordShift

def halEfuseRead (f : Fuses) (startBit bitNum : Nat) : Option (List UInt8) :=
  if BadRange startBit bitNum then none
  else
    let startWord := startBit / 32
    let wordCnt := (startBit + bitNum) / 32 - startWord +
      if (startBit + bitNum) % 32 ≠ 0 then 1 else 0
    let sid := sidData f startWord (startBit % 32) wordCnt
    let bytes := (List.range ((bitNum + 7) / 8)).map fun j =>
      UInt8.ofNat (sid (j / 4) >>> (8 * (j % 4)))
    some (maskLast bytes bitNum)

/-- The words after the first, with `bitCnt` bits to go. A round takes at least one bit, so that
`bitCnt` rounds are enough. -/
def efuseWriteLoop (burns : Burns) (bitShift : Nat) (data : List UInt8) :
    Nat → Nat → Nat → Nat → Fuses → Fuses
  | 0, _, _, _, f => f
  | rounds + 1, wordIdx, pData, bitCnt, f =>
    if bitCnt = 0 then f
    else
      let buf := (word data pData 64 <<< bitShift) % 2 ^ 64
      let hi := buf >>> 32
      let hi := if bitCnt < 32 then hi &&& (1 <<< bitCnt - 1) else hi
      efuseWriteLoop burns bitShift data rounds (wordIdx + 1) (pData + 4)
        (bitCnt - if bitCnt ≤ 32 then bitCnt else 32) (efuseWriteData burns f wordIdx hi)

/-- The fuses, and the caller's buffer: the write clears the bits of the last byte that are not
data. -/
def halEfuseWrite (burns : Burns) (f : Fuses) (startBit bitNum : Nat) (data : List UInt8) :
    Option (Fuses × List UInt8) :=
  if BadRange startBit bitNum then none
  else
    let bitShift := startBit % 32
    let wordIdx := startBit / 32
    let data := maskLast data bitNum
    let w := word data 0 32
    let w := if bitNum < 32 then w &&& (1 <<< bitNum - 1) else w
    let f := efuseWriteData burns f wordIdx ((w <<< bitShift) % 2 ^ 32)
    let bitCnt := bitNum - if bitNum ≤ 32 - bitShift then bitNum else 32 - bitShift
    some (efuseWriteLoop burns bitShift data bitCnt (wordIdx + 1) 0 bitCnt f, data)

/-- The bytes of `data` that `HAL_EFUSE_Write` reads, as offset and length: the last byte that it
masks, the first word, and two words for each further one. -/
def halEfuseWriteReads (startBit bitNum : Nat) : List (Nat × Nat) :=
  if BadRange startBit bitNum then []
  else
    let bitShift := startBit % 32
    let bitCnt := bitNum - if bitNum ≤ 32 - bitShift then bitNum else 32 - bitShift
    ((bitNum - 1) / 8, 1) :: (0, 4) :: (List.range ((bitCnt + 31) / 32)).map fun k => (4 * k, 8)

section

variable {f : Fuses} {burns : Burns} {data : List UInt8} {s n i b : Nat}

theorem lastMask_testBit :
    (lastMask n).toNat.testBit i = decide (i < if n % 8 = 0 then 8 else n % 8) := by
  unfold lastMask
  have hk : (if n % 8 = 0 then 8 else n % 8) ≤ 8 := by split <;> omega
  generalize (if n % 8 = 0 then 8 else n % 8) = k at hk ⊢
  have hpow : 2 ^ k ≤ 2 ^ 8 := Nat.pow_le_pow_right (by omega) hk
  have hpos := Nat.two_pow_pos k
  rw [Nat.one_shiftLeft, UInt8.toNat_ofNat_of_lt' (by simp [UInt8.size]; omega),
    Nat.testBit_two_pow_sub_one]

/-- The bits of the data stay, the ones after them go. -/
theorem bit_maskLast (hn : 0 < n) (hi : i < 8 * ((n + 7) / 8)) :
    bit (maskLast data n) i = (decide (i < n) && bit data i) := by
  rw [maskLast, bit_modify, lastMask_testBit, Bool.and_comm]
  congr 1
  by_cases h : i / 8 = (n - 1) / 8
  · simp only [h, ne_eq, not_true_eq_false, decide_false, Bool.false_or, decide_eq_decide]
    split <;> omega
  · simp only [ne_eq, h, not_false_eq_true, decide_true, Bool.true_or]
    exact (decide_eq_true (by omega : i < n)).symm

@[simp] theorem length_maskLast : (maskLast data n).length = data.length := by simp [maskLast]

theorem maskLast_pack {g : Nat → Bool} (hn : 0 < n) : maskLast (pack n g) n = pack n g := by
  refine ext_bits length_maskLast fun i hi => ?_
  rw [length_maskLast, length_pack] at hi
  rw [bit_maskLast hn hi, bit_pack]
  cases decide (i < n) <;> rfl

theorem efuseReadData_testBit {index : Nat} :
    (efuseReadData f index).testBit i = (decide (i < 32) && f (32 * index + i)) := by
  rw [efuseReadData, Nat.testBit_ofBits]
  by_cases hi : i < 32 <;> simp [hi]

theorem sidData_testBit {startWord wordShift wordCnt : Nat} (hi : i < 32) (hs : wordShift < 32)
    (hlast : wordShift + i < 32 ∨ s < wordCnt - 1) :
    (sidData f startWord wordShift wordCnt s).testBit i =
      f (32 * (startWord + s) + (wordShift + i)) := by
  have hshift : (efuseReadData f (startWord + s) >>> wordShift).testBit i =
      (decide (wordShift + i < 32) && f (32 * (startWord + s) + (wordShift + i))) := by
    rw [Nat.testBit_shiftRight, efuseReadData_testBit]
  unfold sidData
  by_cases hin : wordShift + i < 32
  · have hhigh : ¬32 - wordShift ≤ i := by omega
    split
    · rw [Nat.testBit_or, shiftLeft_testBit, hshift]
      simp [hin, hhigh]
    · rw [hshift]
      simp [hin]
  · have hnext : 32 * (startWord + (s + 1)) + (i - (32 - wordShift)) =
        32 * (startWord + s) + (wordShift + i) := by omega
    have hlow : 32 - wordShift ≤ i := by omega
    have hrest : i - (32 - wordShift) < 32 := by omega
    rw [if_pos (hlast.resolve_left hin), Nat.testBit_or, shiftLeft_testBit, hshift,
      efuseReadData_testBit, hnext]
    simp [hin, hi, hlow, hrest]

theorem halEfuseRead_eq (h : ¬BadRange s n) :
    halEfuseRead f s n = some (pack n fun i => f (s + i)) := by
  unfold halEfuseRead
  rw [if_neg h]
  have hn : 0 < n := by
    unfold BadRange at h
    omega
  dsimp only
  refine congrArg some (ext_bits ?_ ?_)
  · rw [length_maskLast, List.length_map, List.length_range, length_pack]
  intro i hi
  rw [length_maskLast, List.length_map, List.length_range] at hi
  rw [bit_maskLast hn hi, bit_pack]
  by_cases hin : i < n
  · have hbit : 32 * (s / 32 + i / 32) + (s % 32 + i % 32) = s + i := by omega
    rw [bit_words hi, sidData_testBit (Nat.mod_lt i (by omega)) (Nat.mod_lt s (by omega)) ?_, hbit]
    by_cases hshift : s % 32 + i % 32 < 32
    · exact .inl hshift
    · right
      split <;> omega
  · simp [hin]

theorem masked_testBit {x bitCnt : Nat} (hi : i < 32) :
    (if bitCnt < 32 then x &&& (1 <<< bitCnt - 1) else x).testBit i =
      (decide (i < bitCnt) && x.testBit i) := by
  split
  · rw [Nat.one_shiftLeft, Nat.testBit_and, Nat.testBit_two_pow_sub_one, Bool.and_comm]
  · have hin : i < bitCnt := by omega
    simp [hin]

/-- The bits that a further word takes from the data. -/
theorem hiWord_testBit {p bitShift : Nat} (hs : bitShift < 32) (hi : i < 32) :
    (((word data p 64 <<< bitShift) % 2 ^ 64) >>> 32).testBit i =
      bit data (8 * p + (32 - bitShift) + i) := by
  have hlow : bitShift ≤ 32 + i := by omega
  have hword : 32 + i < 64 := by omega
  have hin : 32 + i - bitShift < 64 := by omega
  have hidx : 8 * p + (32 + i - bitShift) = 8 * p + (32 - bitShift) + i := by omega
  rw [Nat.testBit_shiftRight, shiftLeft_testBit, word_testBit, hidx]
  simp [hlow, hin, hword]

theorem efuseWriteLoop_eq {bitShift rounds : Nat} (hs : bitShift < 32) :
    ∀ {wordIdx pData bitCnt : Nat} {f : Fuses}, bitCnt ≤ rounds →
      efuseWriteLoop burns bitShift data rounds wordIdx pData bitCnt f b =
        (f b || (decide (32 * wordIdx ≤ b ∧ b < 32 * wordIdx + bitCnt) &&
          bit data (8 * pData + (32 - bitShift) + (b - 32 * wordIdx)) && burns b)) := by
  induction rounds with
  | zero =>
    intro wordIdx pData bitCnt f hle
    have hout : ¬(32 * wordIdx ≤ b ∧ b < 32 * wordIdx + bitCnt) := by omega
    simp [efuseWriteLoop, hout]
  | succ rounds ih =>
    intro wordIdx pData bitCnt f hle
    rw [efuseWriteLoop]
    split
    · have hout : ¬(32 * wordIdx ≤ b ∧ b < 32 * wordIdx + bitCnt) := by omega
      simp [hout]
    · have hle' : (bitCnt - if bitCnt ≤ 32 then bitCnt else 32) ≤ rounds := by split <;> omega
      rw [ih hle', efuseWriteData, masked_testBit (Nat.mod_lt b (by omega)),
        hiWord_testBit hs (Nat.mod_lt b (by omega))]
      by_cases hb : b / 32 = wordIdx
      · have hafter : ¬32 * (wordIdx + 1) ≤ b := by omega
        have hmod : b - 32 * wordIdx = b % 32 := by omega
        have hin : b % 32 < bitCnt ↔ 32 * wordIdx ≤ b ∧ b < 32 * wordIdx + bitCnt := by omega
        simp [hb, hafter, hmod, hin]
      · have hrange : (32 * (wordIdx + 1) ≤ b ∧
            b < 32 * (wordIdx + 1) + (bitCnt - if bitCnt ≤ 32 then bitCnt else 32)) ↔
            32 * wordIdx ≤ b ∧ b < 32 * wordIdx + bitCnt := by split <;> omega
        have hidx : 32 * wordIdx ≤ b → 8 * (pData + 4) + (32 - bitShift) + (b - 32 * (wordIdx + 1)) =
            8 * pData + (32 - bitShift) + (b - 32 * wordIdx) := by omega
        by_cases hle : 32 * wordIdx ≤ b
        · simp [hb, hrange, hidx hle]
        · simp [hb, hrange, hle]

theorem halEfuseWrite_eq (h : ¬BadRange s n) : halEfuseWrite burns f s n data =
    some (fun b => f b || (decide (s ≤ b ∧ b < s + n) && bit data (b - s) && burns b),
      maskLast data n) := by
  unfold halEfuseWrite
  rw [if_neg h]
  have hn : 0 < n := by
    unfold BadRange at h
    omega
  dsimp only
  refine congrArg some (Prod.ext (funext fun b => ?_) rfl)
  dsimp only
  have hmask : ∀ i, i < n → bit (maskLast data n) i = bit data i := by
    intro i hi
    rw [bit_maskLast hn (by omega), decide_eq_true hi, Bool.true_and]
  rw [efuseWriteLoop_eq (Nat.mod_lt s (by omega)) le_rfl, efuseWriteData, shiftLeft_testBit,
    masked_testBit (by omega), word_testBit]
  by_cases hin : s ≤ b ∧ b < s + n
  · have hlt : b - s < n := by omega
    by_cases hb : b / 32 = s / 32
    · have hafter : ¬32 * (s / 32 + 1) ≤ b := by omega
      have hlow : s % 32 ≤ b % 32 := by omega
      have hidx : b % 32 - s % 32 = b - s := by omega
      have hword : b - s < 32 := by omega
      simp [hin, hb, hafter, hlow, hidx, hlt, hword, hmask, Nat.mod_lt]
    · have hrange : 32 * (s / 32 + 1) ≤ b ∧ b < 32 * (s / 32 + 1) +
          (n - if n ≤ 32 - s % 32 then n else 32 - s % 32) := by split <;> omega
      have hidx : 8 * 0 + (32 - s % 32) + (b - 32 * (s / 32 + 1)) = b - s := by omega
      simp only [hin, hb, hrange, hidx, hmask _ hlt, decide_false, decide_true, Bool.false_and,
        Bool.or_false, and_self, Bool.true_and]
  · have hfirst : b / 32 = s / 32 → s % 32 ≤ b % 32 → ¬b % 32 - s % 32 < n := by omega
    have hrange : ¬(32 * (s / 32 + 1) ≤ b ∧ b < 32 * (s / 32 + 1) +
        (n - if n ≤ 32 - s % 32 then n else 32 - s % 32)) := by split <;> omega
    by_cases hb : b / 32 = s / 32 ∧ s % 32 ≤ b % 32
    · simp [hin, hrange, hfirst hb.1 hb.2]
    · rw [not_and_or] at hb
      cases hb with
      | inl hb => simp [hin, hrange, hb]
      | inr hb => simp [hin, hrange, hb]

end

end Efpg
end XR806

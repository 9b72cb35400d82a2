import Mathlib.Data.Nat.Bitwise
import XR806.Flash.Hal

/-!
# XR806.Image.Fdcm

`fdcm.c`: a store for one data chunk in an erase-aligned flash area. The area holds a header, a
bitmap whose cleared bits count the chunks written so far, and the chunks one after the other.
A write clears the next bit, then programs the next slot; when the bitmap or the area is full, or
the header is not one for this data size, the area is erased and started anew.
-/

namespace XR806
namespace Image

open Nor Flash

/-! ## Little-endian fields -/

def leBytes : Nat → Nat → List Byte
  | 0, _ => []
  | k + 1, n => BitVec.ofNat 8 n :: leBytes k (n / 256)

def leNat : List Byte → Nat
  | [] => 0
  | b :: rest => b.toNat + 256 * leNat rest

@[simp] theorem length_leBytes (k n : Nat) : (leBytes k n).length = k := by
  induction k generalizing n with
  | zero => rfl
  | succ k ih => simp [leBytes, ih]

theorem leNat_leBytes (k n : Nat) : leNat (leBytes k n) = n % 256 ^ k := by
  induction k generalizing n with
  | zero => simp [leBytes, leNat, Nat.mod_one]
  | succ k ih =>
    simp only [leBytes, leNat, ih, BitVec.toNat_ofNat]
    change n % 256 + 256 * (n / 256 % 256 ^ k) = n % 256 ^ (k + 1)
    rw [Nat.pow_succ, Nat.mul_comm (256 ^ k) 256, Nat.mod_mul]

theorem leNat_lt (bs : List Byte) : leNat bs < 256 ^ bs.length := by
  induction bs with
  | nil => exact Nat.one_pos
  | cons b bs ih =>
    have hb : b.toNat < 256 := b.isLt
    rw [leNat, List.length_cons, Nat.pow_succ]
    omega

/-! ## The model -/

def fdcmIdCode : Nat := 0xA55A5AA5
def fdcmIndexMax : Nat := 1 <<< 10
def fdcmByteBits : Nat := 8
def fdcmHeaderSize : Nat := 8

/-- A 32-bit field and two 16-bit fields. -/
structure FdcmHeader where
  idCode : Nat
  bitmapSize : Nat
  dataSize : Nat
  deriving DecidableEq

def FdcmHeader.encode (header : FdcmHeader) : List Byte :=
  leBytes 4 header.idCode ++ leBytes 2 header.bitmapSize ++ leBytes 2 header.dataSize

def FdcmHeader.decode (bytes : List Byte) : FdcmHeader where
  idCode := leNat (bytes.take 4)
  bitmapSize := leNat ((bytes.drop 4).take 2)
  dataSize := leNat ((bytes.drop 6).take 2)

structure FdcmHandle where
  flash : Nat
  addr : Nat
  size : Nat

/-- The loop `while (val)` of `fdcm_bit_count`; the fuel is the width of `val`. -/
def usedBits : Nat → Byte → Nat
  | 0, _ => 0
  | fuel + 1, val => if val = 0 then 0 else 1 + usedBits fuel (val >>> 1)

/-- The number of used bits; bit 0 means used. -/
def fdcmBitCount : List Byte → Nat
  | [] => 0
  | byte :: rest => if byte = 0 then fdcmByteBits + fdcmBitCount rest else usedBits 8 (~~~byte)

/-- The check `fdcm_read` and `fdcm_write` make on the header. -/
def FdcmHeader.validFor (header : FdcmHeader) (h : FdcmHandle) (dataSize : Nat) : Prop :=
  header.idCode = fdcmIdCode ∧ header.dataSize = dataSize ∧ header.bitmapSize ≠ 0 ∧
    header.bitmapSize + fdcmHeaderSize < h.size

instance (header : FdcmHeader) (h : FdcmHandle) (dataSize : Nat) :
    Decidable (header.validFor h dataSize) := inferInstanceAs (Decidable (_ ∧ _ ∧ _ ∧ _))

/-- The bitmap size `fdcm_rewrite` chooses. It is cut to 16 bits before it is compared with
`FDCM_INDEX_MAX`. -/
def fdcmBitmapSize (size dataSize : Nat) : Nat :=
  let bitmapSize :=
    (sub32 size (fdcmHeaderSize + 1) / (dataSize * fdcmByteBits + 1) + 1) % 2 ^ 16
  if bitmapSize > fdcmIndexMax then fdcmIndexMax else bitmapSize

section

variable (board : Board)

def fdcmOpen (flash addr size : Nat) : Prog (Option FdcmHandle) :=
  match flashGetEraseBlock board flash addr size with
  | none => pure none
  | some _ => do
    let ok ← allocReq 12
    pure (if ok then some ⟨flash, addr, size⟩ else none)

def fdcmRewrite (h : FdcmHandle) (data : List Byte) : Prog Nat :=
  let bitmapSize := fdcmBitmapSize h.size data.length
  if data.length > sub32 h.size (fdcmHeaderSize + bitmapSize) then pure 0
  else do
    let ok ← flashErase board h.flash h.addr h.size
    if !ok then pure 0
    else do
      let n ← flashWrite board h.flash h.addr
        (FdcmHeader.encode ⟨fdcmIdCode, bitmapSize, data.length⟩)
      if n ≠ fdcmHeaderSize then pure 0
      else do
        let n ← flashWrite board h.flash (u32 (h.addr + fdcmHeaderSize)) [0xFE]
        if n ≠ 1 then pure 0
        else do
          let n ← flashWrite board h.flash (u32 (h.addr + fdcmHeaderSize + bitmapSize)) data
          pure (if n ≠ data.length then 0 else data.length)

/-- `none` is the return value 0. -/
def fdcmRead (h : FdcmHandle) (dataSize : Nat) : Prog (Option (List Byte)) := do
  match ← flashRead board h.flash h.addr fdcmHeaderSize with
  | none => pure none
  | some bytes =>
    let header := FdcmHeader.decode bytes
    if ¬header.validFor h dataSize then pure none
    else do
      let ok ← allocReq header.bitmapSize
      if !ok then pure none
      else do
        match ← flashRead board h.flash (u32 (h.addr + fdcmHeaderSize)) header.bitmapSize with
        | none => pure none
        | some bitmap =>
          -- for an empty log the last slot is the one before slot 0
          flashRead board h.flash (u32 (h.addr + fdcmHeaderSize + header.bitmapSize +
            dataSize * sub32 (fdcmBitCount bitmap) 1)) dataSize

/-- The log has no room for one more chunk. The end of the chunk is computed with 32 bits. -/
def fdcmFull (h : FdcmHandle) (dataSize bitmapSize bitCnt : Nat) : Prop :=
  bitCnt ≥ fdcmByteBits * bitmapSize ∨
    u32 (fdcmHeaderSize + bitmapSize + dataSize * (bitCnt + 1)) > h.size

instance (h : FdcmHandle) (dataSize bitmapSize bitCnt : Nat) :
    Decidable (fdcmFull h dataSize bitmapSize bitCnt) := inferInstanceAs (Decidable (_ ∨ _))

/-- Clear bit `bitCnt` of the bitmap, then program slot `bitCnt`. -/
def fdcmAppend (h : FdcmHandle) (data : List Byte) (bitmap : List Byte) (bitmapSize bitCnt : Nat) :
    Prog Nat := do
  let index := bitCnt / fdcmByteBits
  let byte := bitmap.getD index blank &&& ~~~(1#8 <<< (bitCnt % fdcmByteBits))
  let n ← flashWrite board h.flash (u32 (h.addr + fdcmHeaderSize + index)) [byte]
  if n ≠ 1 then pure 0
  else
    flashWrite board h.flash (u32 (h.addr + fdcmHeaderSize + bitmapSize + data.length * bitCnt)) data

def fdcmWrite (h : FdcmHandle) (data : List Byte) : Prog Nat := do
  match ← flashRead board h.flash h.addr fdcmHeaderSize with
  | none => pure 0
  | some bytes =>
    let header := FdcmHeader.decode bytes
    if ¬header.validFor h data.length then fdcmRewrite board h data
    else if data.length > sub32 h.size (fdcmHeaderSize + header.bitmapSize) then pure 0
    else do
      let ok ← allocReq header.bitmapSize
      if !ok then pure 0
      else do
        match ← flashRead board h.flash (u32 (h.addr + fdcmHeaderSize)) header.bitmapSize with
        | none => pure 0
        | some bitmap =>
          let bitCnt := fdcmBitCount bitmap
          if fdcmFull h data.length header.bitmapSize bitCnt then fdcmRewrite board h data
          else fdcmAppend board h data bitmap header.bitmapSize bitCnt

/-- `true` is the return value 0. -/
def fdcmErase (h : FdcmHandle) : Prog Bool := flashErase board h.flash h.addr h.size

end

theorem bitmapSize_lt (bytes : List Byte) : (FdcmHeader.decode bytes).bitmapSize < 2 ^ 16 := by
  have hlen : ((bytes.drop 4).take 2).length ≤ 2 := List.length_take_le ..
  exact Nat.lt_of_lt_of_le (leNat_lt _) (Nat.pow_le_pow_right (by decide) hlen)

/-- Without a carry out of the 32 bits. -/
theorem fdcmFull_iff {h : FdcmHandle} {d bs n : Nat} (hlt : n < 8 * bs → 8 + bs + d * (n + 1) < 2 ^ 32) :
    fdcmFull h d bs n ↔ 8 * bs ≤ n ∨ h.size < 8 + bs + d * (n + 1) := by
  unfold fdcmFull fdcmByteBits fdcmHeaderSize
  by_cases hn : n < 8 * bs
  · rw [u32_of_lt (hlt hn)]
  · exact iff_of_true (.inl (Nat.le_of_not_lt hn)) (.inl (Nat.le_of_not_lt hn))

theorem chunk_end_lt {d bs n m : Nat} (hbs : bs ≤ m) (hn : n < 8 * bs)
    (hm : 8 + m + d * (8 * m) < 2 ^ 32) : 8 + bs + d * (n + 1) < 2 ^ 32 := by
  have := Nat.mul_le_mul_left d (show n + 1 ≤ 8 * m by omega)
  omega

/-- No bitmap that a rewrite makes is large enough for a carry. -/
theorem fdcmFull_iff_of_bitmap {h : FdcmHandle} {d bs n : Nat} (hd : d < 2 ^ 16)
    (hbs : bs ≤ fdcmIndexMax) : fdcmFull h d bs n ↔ 8 * bs ≤ n ∨ h.size < 8 + bs + d * (n + 1) := by
  refine fdcmFull_iff fun hn => chunk_end_lt hbs hn ?_
  simp only [fdcmIndexMax]
  omega

end Image
end XR806

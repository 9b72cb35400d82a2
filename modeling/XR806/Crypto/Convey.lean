import XR806.Word
import XR806.Words

/-!
# XR806.Crypto.Convey

`HAL_Crypto_Convey`: data through the crypto engine in blocks, by DMA or by the CPU, when a channel
is there and the FIFOs and the transfers get ready in time.

The last part of the data is sent with zeros behind it. The CPU sends 16 bytes for it and takes 16
back whatever the block size is, and a DMA transfer of more than 128 KB is not started; apart from
that both paths do the same (`crypto_paths_agree_iff`).
-/

namespace XR806
namespace Crypto

open Words

def dmaDataMaxLen : Nat := 128 * 1024
def paddingSize : Nat := 16

/-- The words that were fed, the number of words that were taken, and the memory from the caller's
`output` on. -/
structure Engine where
  fed : List (BitVec 32)
  taken : Nat
  output : Nat → Byte

/-- The words that the engine puts out. -/
abbrev OutWords := Nat → BitVec 32

def OutWords.byte (out : OutWords) (i : Nat) : Byte := byteOf (out (i / 4)) (i % 4)

namespace Engine

def feed (e : Engine) (bytes : List Byte) : Engine := { e with fed := e.fed ++ leWords bytes }

/-- `n` bytes from the engine to `&output[i]`. -/
def take (e : Engine) (out : OutWords) (i n : Nat) : Engine where
  fed := e.fed
  taken := e.taken + n / 4
  output a := if i ≤ a ∧ a < i + n then out.byte (4 * e.taken + (a - i)) else e.output a

end Engine

section

variable (out : OutWords) (input : List Byte) (blockSize : Nat)

def alignLen : Nat := clearBits input.length (blockSize - 1)
def remainLen : Nat := input.length &&& (blockSize - 1)

/-- The array of 16 bytes. -/
def padding : List Byte :=
  let remain := (input.drop (alignLen input blockSize)).take (remainLen input blockSize)
  remain ++ List.replicate (paddingSize - remainLen input blockSize) 0

/-- What `CE_Crypto_SetLength` is told. -/
def announced : Nat :=
  if remainLen input blockSize ≠ 0 then u32 (alignLen input blockSize + blockSize)
  else alignLen input blockSize

/-- A transfer to the engine and one from it; one of a length that is refused is waited for in
vain. -/
def dmaTransfer (e : Engine) (bytes : List Byte) (i : Nat) : Bool × Engine :=
  if bytes.length > dmaDataMaxLen ∨ bytes.length = 0 then (false, e)
  else (true, (e.feed bytes).take out i bytes.length)

def conveyDma (e : Engine) : Bool × Engine :=
  let (ok, e) := if alignLen input blockSize ≠ 0 then
      dmaTransfer out e (input.take (alignLen input blockSize)) 0
    else (true, e)
  if !ok then (false, e)
  else if remainLen input blockSize ≠ 0 then
    dmaTransfer out e ((padding input blockSize).take blockSize) (alignLen input blockSize)
  else (true, e)

/-- The loop over the blocks. -/
def conveyBlocks : Nat → Nat → Engine → Engine
  | 0, _, e => e
  | n + 1, i, e =>
    let e := (e.feed ((input.drop i).take blockSize)).take out i blockSize
    conveyBlocks n (i + blockSize) e

def conveyCpu (e : Engine) : Bool × Engine :=
  let e := conveyBlocks out input blockSize (alignLen input blockSize / blockSize) 0 e
  -- the loops run over the whole array
  if remainLen input blockSize ≠ 0 then
    (true, (e.feed (padding input blockSize)).take out (alignLen input blockSize)
      (padding input blockSize).length)
  else (true, e)

/-- `HAL_Crypto_Convey`; `usable` says that DMA can reach both buffers. -/
def halCryptoConvey (usable : Bool) (mem : Nat → Byte) : Bool × Engine :=
  if input.length > 300 ∧ usable then conveyDma out input blockSize ⟨[], 0, mem⟩
  else conveyCpu out input blockSize ⟨[], 0, mem⟩

/-! ## What both paths should do -/

/-- The data, with zeros up to the next block. -/
def padded : List Byte :=
  input ++ List.replicate ((blockSize - input.length % blockSize) % blockSize) 0

/-- The first `n` bytes of the padded data went through the engine. -/
structure Conveyed (n : Nat) (mem : Nat → Byte) (e : Engine) : Prop where
  fed : e.fed = leWords ((padded input blockSize).take n)
  taken : 4 * e.taken = n
  output : e.output = fun a => if a < n then out.byte a else mem a

/-- All of it did, and it is what was announced. -/
structure ConveyedAll (mem : Nat → Byte) (r : Bool × Engine) : Prop where
  ok : r.1 = true
  announced : announced input blockSize = (padded input blockSize).length
  conveyed : Conveyed out input blockSize (padded input blockSize).length mem r.2

end

section

variable {out : OutWords} {input : List Byte} {blockSize : Nat} {mem : Nat → Byte} {e : Engine}
  {n m : Nat}

theorem conveyed_start (out : OutWords) (input : List Byte) (blockSize : Nat) (mem : Nat → Byte) :
    Conveyed out input blockSize 0 mem ⟨[], 0, mem⟩ :=
  ⟨rfl, rfl, rfl⟩

/-- The next bytes. -/
theorem Conveyed.next (h : Conveyed out input blockSize n mem e) (hn : n % 4 = 0) (hm : m % 4 = 0)
    (hle : n + m ≤ (padded input blockSize).length) :
    Conveyed out input blockSize (n + m) mem
      ((e.feed (((padded input blockSize).drop n).take m)).take out n m) := by
  have hlen : ((padded input blockSize).take n).length % 4 = 0 := by
    rw [List.length_take_of_le (by omega)]
    exact hn
  constructor
  · change e.fed ++ _ = _
    rw [h.fed, ← leWords_append hlen, List.take_add]
  · change 4 * (e.taken + m / 4) = _
    have := h.taken
    omega
  · funext a
    change (if n ≤ a ∧ a < n + m then out.byte (4 * e.taken + (a - n)) else e.output a) = _
    rw [h.taken, h.output]
    by_cases hin : n ≤ a ∧ a < n + m
    · rw [if_pos hin, if_pos hin.2, Nat.add_sub_cancel' hin.1]
    · rw [if_neg hin]
      exact if_congr (by omega) rfl rfl

theorem remainLen_eq (input : List Byte) (hb : blockSize = 8 ∨ blockSize = 16) :
    remainLen input blockSize = input.length % blockSize := by
  rcases hb with rfl | rfl
  · exact Nat.and_two_pow_sub_one_eq_mod input.length 3
  · exact Nat.and_two_pow_sub_one_eq_mod input.length 4

theorem alignLen_eq (input : List Byte) (hb : blockSize = 8 ∨ blockSize = 16) :
    alignLen input blockSize = input.length - input.length % blockSize := by
  rw [← remainLen_eq input hb]
  rfl

theorem length_padded : (padded input blockSize).length =
    input.length + (blockSize - input.length % blockSize) % blockSize := by
  rw [padded, List.length_append, List.length_replicate]

/-- Whole blocks of the data, and how much is announced. -/
theorem length_cases (input : List Byte) (hb : blockSize = 8 ∨ blockSize = 16) :
    alignLen input blockSize % blockSize = 0 ∧ alignLen input blockSize ≤ input.length ∧
      (padded input blockSize).length = (if remainLen input blockSize ≠ 0 then
        alignLen input blockSize + blockSize else alignLen input blockSize) := by
  rw [length_padded, remainLen_eq input hb, alignLen_eq input hb]
  rcases hb with rfl | rfl
  · refine ⟨by omega, by omega, ?_⟩
    split <;> omega
  · refine ⟨by omega, by omega, ?_⟩
    split <;> omega

theorem slice_padded (blockSize : Nat) (hle : n + m ≤ input.length) :
    (input.drop n).take m = ((padded input blockSize).drop n).take m := by
  rw [padded, List.drop_append_of_le_length (by omega), List.take_append_of_le_length]
  rw [List.length_drop]
  omega

/-- The last block of the padded data. -/
theorem padding_take (hb : blockSize = 8 ∨ blockSize = 16) (hr : remainLen input blockSize ≠ 0) :
    (padding input blockSize).take blockSize =
      ((padded input blockSize).drop (alignLen input blockSize)).take blockSize := by
  have hle := (length_cases input hb).2.1
  have halign := alignLen_eq input hb
  have hremain := remainLen_eq input hb
  have hrest : (input.drop (alignLen input blockSize)).length = remainLen input blockSize := by
    rw [List.length_drop]
    rcases hb with rfl | rfl <;> omega
  rw [padding, padded, List.take_of_length_le (Nat.le_of_eq hrest),
    List.drop_append_of_le_length hle, List.take_append, List.take_append, hrest,
    List.take_replicate, List.take_replicate]
  congr 2
  unfold paddingSize
  rcases hb with rfl | rfl <;> omega

theorem length_padding (hb : blockSize = 8 ∨ blockSize = 16) :
    (padding input blockSize).length = paddingSize := by
  have halign := alignLen_eq input hb
  have hremain := remainLen_eq input hb
  unfold padding paddingSize
  rw [List.length_append, List.length_replicate, List.length_take, List.length_drop]
  rcases hb with rfl | rfl <;> omega

theorem conveyed_conveyBlocks (hb : blockSize = 8 ∨ blockSize = 16) {k : Nat}
    (h : Conveyed out input blockSize n mem e) (hn : n % 4 = 0)
    (hle : n + blockSize * k ≤ input.length) :
    Conveyed out input blockSize (n + blockSize * k) mem
      (conveyBlocks out input blockSize k n e) := by
  induction k generalizing n e with
  | zero => exact h
  | succ k ih =>
    rw [Nat.mul_succ] at hle
    have hnext : n + blockSize ≤ input.length := by omega
    have hpadded : n + blockSize ≤ (padded input blockSize).length := by
      rw [length_padded]
      omega
    rw [conveyBlocks, slice_padded blockSize hnext]
    have hblock := h.next hn (by rcases hb with rfl | rfl <;> rfl) hpadded
    have hmod : (n + blockSize) % 4 = 0 := by rcases hb with rfl | rfl <;> omega
    have hrest := ih hblock hmod (by omega)
    rwa [Nat.mul_succ, Nat.add_comm (blockSize * k), ← Nat.add_assoc]

/-- Through the CPU, all data goes through; 16 bytes are a last block of 16 bytes only. -/
theorem conveyed_conveyCpu (out : OutWords) (mem : Nat → Byte) (hb : blockSize = 8 ∨ blockSize = 16) :
    Conveyed out input blockSize (padded input blockSize).length mem
        (conveyCpu out input blockSize ⟨[], 0, mem⟩).2 ↔
      blockSize = 16 ∨ input.length % 8 = 0 := by
  obtain ⟨hmod, hle, hlen⟩ := length_cases input hb
  have hremain := remainLen_eq input hb
  have hmul : blockSize * (alignLen input blockSize / blockSize) = alignLen input blockSize :=
    Nat.mul_div_cancel' (Nat.dvd_of_mod_eq_zero hmod)
  have hblocks := conveyed_conveyBlocks (k := alignLen input blockSize / blockSize) hb
    (conveyed_start out input blockSize mem) rfl (by omega)
  rw [Nat.zero_add, hmul] at hblocks
  unfold conveyCpu
  dsimp only
  by_cases hr : remainLen input blockSize ≠ 0
  · rw [if_pos hr] at hlen ⊢
    rw [hlen]
    rcases hb with rfl | rfl
    · -- four words are taken for a block of two
      refine iff_of_false (fun h => ?_) (by omega)
      have htaken := h.taken
      change 4 * ((conveyBlocks ..).taken + (padding input 8).length / 4) = _ at htaken
      rw [length_padding (.inl rfl), Nat.mul_add, hblocks.taken] at htaken
      unfold paddingSize at htaken
      omega
    · refine iff_of_true ?_ (.inl rfl)
      have hpad : padding input 16 =
          ((padded input 16).drop (alignLen input 16)).take 16 := by
        rw [← padding_take (.inr rfl) hr, List.take_of_length_le]
        exact Nat.le_of_eq (length_padding (.inr rfl))
      rw [length_padding (.inr rfl), hpad]
      exact hblocks.next (by omega) rfl (by omega)
  · rw [if_neg hr] at hlen ⊢
    rw [hlen]
    exact iff_of_true hblocks (by rcases hb with rfl | rfl <;> omega)

theorem dmaTransfer_eq {bytes : List Byte} (hpos : bytes.length ≠ 0)
    (hmax : bytes.length ≤ dmaDataMaxLen) :
    dmaTransfer out e bytes n = (true, (e.feed bytes).take out n bytes.length) :=
  if_neg (by omega)

/-- By DMA, all data goes through when no transfer is too long. -/
theorem conveyed_conveyDma (out : OutWords) (mem : Nat → Byte) (hb : blockSize = 8 ∨ blockSize = 16)
    (hmax : alignLen input blockSize ≤ dmaDataMaxLen) :
    (conveyDma out input blockSize ⟨[], 0, mem⟩).1 = true ∧
      Conveyed out input blockSize (padded input blockSize).length mem
        (conveyDma out input blockSize ⟨[], 0, mem⟩).2 := by
  obtain ⟨hmod, hle, hlen⟩ := length_cases input hb
  have hmod4 : alignLen input blockSize % 4 = 0 := by rcases hb with rfl | rfl <;> omega
  obtain ⟨e, hfirst, hconv⟩ : ∃ e, (if alignLen input blockSize ≠ 0 then
      dmaTransfer out ⟨[], 0, mem⟩ (input.take (alignLen input blockSize)) 0
      else (true, ⟨[], 0, mem⟩)) = (true, e) ∧
      Conveyed out input blockSize (alignLen input blockSize) mem e := by
    have hstart := conveyed_start out input blockSize mem
    by_cases h0 : alignLen input blockSize ≠ 0
    · have htake : (input.take (alignLen input blockSize)).length = alignLen input blockSize :=
        List.length_take_of_le hle
      rw [if_pos h0, dmaTransfer_eq (by rwa [htake]) (by rwa [htake]), htake]
      refine ⟨_, rfl, ?_⟩
      have hslice : (input.drop 0).take (alignLen input blockSize) = _ :=
        slice_padded blockSize (by omega)
      have hnext := hstart.next (m := alignLen input blockSize) rfl hmod4 (by
        rw [hlen]
        split <;> omega)
      rwa [← hslice, List.drop_zero, Nat.zero_add] at hnext
    · rw [if_neg h0]
      rw [not_not] at h0
      exact ⟨_, rfl, h0 ▸ hstart⟩
  unfold conveyDma
  rw [hfirst]
  simp only [Bool.not_true, Bool.false_eq_true, if_false]
  by_cases hr : remainLen input blockSize ≠ 0
  · rw [if_pos hr] at hlen ⊢
    have htake : ((padding input blockSize).take blockSize).length = blockSize := by
      rw [List.length_take, length_padding hb]
      unfold paddingSize
      omega
    have hpos : blockSize ≠ 0 := by omega
    have hblock : blockSize ≤ dmaDataMaxLen := by
      unfold dmaDataMaxLen
      omega
    rw [dmaTransfer_eq (by rwa [htake]) (by rwa [htake]), htake, padding_take hb hr, hlen]
    exact ⟨rfl, hconv.next hmod4 (by rcases hb with rfl | rfl <;> rfl) (Nat.le_of_eq hlen.symm)⟩
  · rw [if_neg hr] at hlen ⊢
    rw [hlen]
    exact ⟨rfl, hconv⟩

theorem announced_eq (hb : blockSize = 8 ∨ blockSize = 16)
    (hmax : alignLen input blockSize ≤ dmaDataMaxLen) :
    announced input blockSize = (padded input blockSize).length := by
  rw [(length_cases input hb).2.2, announced]
  unfold dmaDataMaxLen at hmax
  split
  · exact u32_of_lt (by omega)
  · rfl

/-- Through either path, the padded data goes through the engine and its output comes back for all
data exactly when blocks are of 16 bytes or all whole, and the whole ones fit one DMA transfer. -/
theorem crypto_paths_agree_iff (hb : blockSize = 8 ∨ blockSize = 16) :
    (∀ usable, ConveyedAll out input blockSize mem
        (halCryptoConvey out input blockSize usable mem)) ↔
      (blockSize = 16 ∨ input.length % 8 = 0) ∧ alignLen input blockSize ≤ dmaDataMaxLen := by
  constructor
  · intro h
    refine ⟨?_, Decidable.byContradiction fun hmax => ?_⟩
    · have hcpu := (h false).conveyed
      rw [halCryptoConvey, if_neg (fun h => Bool.false_ne_true h.2)] at hcpu
      exact (conveyed_conveyCpu out mem hb).mp hcpu
    · -- the transfer of the whole blocks is not started
      have hle := (length_cases input hb).2.1
      have hdma := (h true).ok
      have htake : (input.take (alignLen input blockSize)).length = alignLen input blockSize :=
        List.length_take_of_le hle
      unfold dmaDataMaxLen at hmax
      rw [halCryptoConvey, if_pos ⟨by omega, rfl⟩, conveyDma, if_pos (by omega), dmaTransfer,
        if_pos (.inl (by rw [htake]; unfold dmaDataMaxLen; omega))] at hdma
      exact Bool.false_ne_true hdma
  · rintro ⟨hblock, hmax⟩ usable
    have hcpu := (conveyed_conveyCpu out mem hb).mpr hblock
    obtain ⟨hok, hdma⟩ := conveyed_conveyDma out mem hb hmax
    have hann := announced_eq hb hmax
    unfold halCryptoConvey
    split
    · exact ⟨hok, hann, hdma⟩
    · refine ⟨?_, hann, hcpu⟩
      unfold conveyCpu
      dsimp only
      split <;> rfl

end

set_option maxRecDepth 8000 in
theorem crypto_paths_agree_iff_aes :
    ConveyedAll (fun _ => 7) (List.replicate 301 1) 16 (fun _ => 0)
      (halCryptoConvey (fun _ => 7) (List.replicate 301 1) 16 true fun _ => 0) :=
  (crypto_paths_agree_iff (.inr rfl)).mpr ⟨.inl rfl, by decide⟩ true

/-- One byte in a block of 8, for which 16 are sent and taken. -/
theorem des_remainder_overruns : ¬∀ usable, ConveyedAll (fun _ => 7) [1] 8 (fun _ => 0)
    (halCryptoConvey (fun _ => 7) [1] 8 usable fun _ => 0) := by
  intro h
  have htaken := (h false).conveyed.taken
  exact absurd htaken (by decide)

end Crypto
end XR806

import XR806.Flash.Overwrite
import XR806.Image.Checksum
import XR806.Image.Rw

/-!
# XR806.Sdd.Save

`sdd_save`: the SDD section of the running image is replaced within its flash block of 4 KB. The
block is read, erased, and written again: what is before the section, the header with new
checksums, the data, and the rest.

* `saveBlock`: the part that writes. A rest of negative length is a write of nearly 4 GB from behind
  the buffer, which does not come back.
* `Replaced`: what a save is for.
* `SaveFits`: when a save that has reported success has done that.

The data's checksum goes into the header as it is, where `_image_check_section` wants its
complement; so a section without a tailer is never valid afterwards. And the rest is taken from the
buffer as if the section started with the block.
-/

namespace XR806
namespace Sdd

open Nor Flash Image

def imageSysSddId : Nat := 0xA5F85A07

/-! ## `sdd_save` -/

/-- The header with both checksums set. -/
def savedHeader (sh data : List Byte) : List Byte :=
  let sh := patch sh 10 (leBytes 2 (imageChecksum16 0 data))
  let sh := patch sh 8 (leBytes 2 0)
  patch sh 8 (leBytes 2 (0xffff - imageChecksum16 0 sh))

/-- A step of `sdd_save`: when it fails, the save ends with -1. -/
def orFail (p : Prog Bool) (k : Prog (Option Int)) : Prog (Option Int) := do
  let ok ← p
  if !ok then pure (some (-1)) else k

section

variable (board : Board)

/-- `flash_write` on flash 0, and whether all was written. -/
def writeAll (addr : Nat) (bytes : List Byte) : Prog Bool := do
  let len ← flashWrite board 0 addr bytes
  pure (len = bytes.length)

/-- What is before the section, if it does not start with the block. -/
def saveBefore (blockStartAddr lenBefore : Nat) (pWriteBuf : List Byte) : Prog Bool :=
  if lenBefore = 0 then pure true else writeAll board blockStartAddr (pWriteBuf.take lenBefore)

/-- What is behind the data. -/
def saveRest (blockEnd writeAddr from' : Nat) (pWriteBuf : List Byte) : Prog (Option Int) :=
  if writeAddr = blockEnd then pure (some 0)
  else
    let lenAfter := sub32 blockEnd writeAddr
    -- `len_after` is an `int`
    if lenAfter ≥ 2 ^ 31 then pure none
    else do
      let ok ← writeAll board writeAddr ((pWriteBuf.drop from').take lenAfter)
      pure (some (if ok then 0 else -1))

/-- `sdd_save` from the read of the block on. -/
def saveBlock (binStartAddr blockLen : Nat) (sh data : List Byte) : Prog (Option Int) := do
  let blockStartAddr := binStartAddr / 4096 * 4096
  let pWriteBuf := (← flashRead board 0 blockStartAddr blockLen).getD []
  if pWriteBuf.length ≠ blockLen then pure (some (-1))
  else
    let lenBefore := binStartAddr - blockStartAddr
    let writeAddr := u32 (binStartAddr + imageHeaderSize)
    orFail (flashErase board 0 blockStartAddr blockLen) <|
    orFail (saveBefore board blockStartAddr lenBefore pWriteBuf) <|
    orFail (writeAll board binStartAddr sh) <|
    orFail (writeAll board writeAddr data) <|
    saveRest board (u32 (blockStartAddr + blockLen)) (u32 (writeAddr + data.length))
      (imageHeaderSize + data.length) pWriteBuf

/-- A program of the flash that may not come to an end. -/
def mayHang {α : Type} (p : Prog (Option α)) : Img α := fun s =>
  p >>= fun r => pure (r.map fun a => (a, s))

def sddSave (fuel : Nat) (data : List Byte) : Img Int := do
  let writeLen := data.length
  if writeLen > 4 * 1024 then pure (-1)
  else do
    let binStartAddr ← imageGetSectionAddr board fuel imageSysSddId
    let blockLen := u32 (binStartAddr % 4096 + writeLen)
    let blockCnt := if blockLen % 4096 ≠ 0 then blockLen / 4096 + 1 else blockLen / 4096
    if blockCnt > 1 then pure (-1)
    else do
      let ok ← Flow.lift (allocReq (4 * 1024))
      if !ok then pure (-1)
      else do
        match ← imageRead board fuel imageSysSddId .header 0 imageHeaderSize with
        | none => pure (-1)
        | some sh =>
          if imageCheckHeader sh = .invalid then pure (-1)
          else mayHang (saveBlock board binStartAddr (blockCnt * 4096) (savedHeader sh data) data)

end

/-! ## What is wanted -/

/-- The section at `addr` of the image's flash is valid and its body is the data; outside of the
section the flash is as before. -/
structure Replaced (board : Board) (flash addr : Nat) (checkT : CheckType) (data : List Byte)
    (c c' : Cells) : Prop where
  check : (ret (imageCheckSection board flash addr imageCheckSize checkT) c').isSome = true
  body : readCells c' flash (addr + imageHeaderSize)
    (SectionHeader.decode (readCells c' flash addr imageHeaderSize)).bodyLen = data
  frame : ∀ d a, ¬(d = flash ∧ addr ≤ a ∧ a < addr + imageHeaderSize +
    (SectionHeader.decode (readCells c' flash addr imageHeaderSize)).dataSize) → c' d a = c d a

/-- The chip of flash 0 has blocks of 4 KB. `flash_erase` reports success without them as well, and
then the block is written over what it holds. -/
def erasesBlocks (board : Board) : Bool := (board 0).any fun chip => chip.supports .kb4

/-- A byte of the block behind `flash_erase`. -/
def erasedByte (board : Board) (c : Cells) (a : Nat) : Byte :=
  if erasesBlocks board then blank else c 0 a

def headerAfter (board : Board) (c : Cells) (addr : Nat) (sh data : List Byte) : List Byte :=
  (List.range imageHeaderSize).map fun i =>
    erasedByte board c (addr + i) &&& (savedHeader sh data).getD i blank

/-- What comes to stand behind the header on flash 0: the data, and up to the end of the block what
was as far behind the start of the block as it is now behind the start of the section. -/
def dataAfter (board : Board) (c : Cells) (addr : Nat) (data : List Byte) (i : Nat) : Byte :=
  let a := addr + imageHeaderSize + i
  if i < data.length then erasedByte board c a &&& data.getD i blank
  else if addr % 4096 + imageHeaderSize + i < 4096 then
    erasedByte board c a &&& c 0 (addr / 4096 * 4096 + imageHeaderSize + i)
  else c 0 a

/-- When a save has done what it is for, by the header `sh` and the flash before. -/
inductive SaveFits (board : Board) (flash addr : Nat) (sh data : List Byte) (c : Cells) : Prop
  | running (hflash : flash = 0) (herases : erasesBlocks board = true)
      (hlen : (SectionHeader.decode sh).bodyLen = data.length)
      (hin : Inside board 0 addr (imageHeaderSize + (SectionHeader.decode sh).dataSize))
      (hsum : (wordSum data + wordSum ((List.range (SectionHeader.decode sh).dataSize).map
        (dataAfter board c addr data))) % 2 ^ 16 = 0xFFFF)
      (hrest : ∀ i, (SectionHeader.decode sh).dataSize ≤ i →
        dataAfter board c addr data i = c 0 (addr + imageHeaderSize + i))
  /-- The chip has no blocks of 4 KB, and what was written over fits. -/
  | unerased (hflash : flash = 0) (herases : erasesBlocks board = false)
      (hdr : List Byte) (hhdr : hdr = headerAfter board c addr sh data)
      (hvalid : imageCheckHeader hdr = .valid)
      (hin : Inside board 0 addr (imageHeaderSize + (SectionHeader.decode hdr).dataSize))
      (hsum : ((SectionHeader.decode hdr).dataChksum + wordSum ((List.range
        (SectionHeader.decode hdr).dataSize).map (dataAfter board c addr data))) % 2 ^ 16 = 0xFFFF)
      (hbody : (List.range (SectionHeader.decode hdr).bodyLen).map (dataAfter board c addr data) =
        data)
      (hrest : ∀ i, (SectionHeader.decode hdr).dataSize ≤ i →
        dataAfter board c addr data i = c 0 (addr + imageHeaderSize + i))
  /-- The image is on another flash, already has the data, and flash 0 does not change. -/
  | elsewhere (hflash : flash ≠ 0)
      (hdr : List Byte) (hread : hdr = readCells c flash addr imageHeaderSize)
      (hvalid : imageCheckHeader hdr = .valid)
      (hin : Inside board flash addr (imageHeaderSize + (SectionHeader.decode hdr).dataSize))
      (hsum : ((SectionHeader.decode hdr).dataChksum + wordSum (readCells c flash
        (addr + imageHeaderSize) (SectionHeader.decode hdr).dataSize)) % 2 ^ 16 = 0xFFFF)
      (hbody : readCells c flash (addr + imageHeaderSize) (SectionHeader.decode hdr).bodyLen = data)
      (hhdr : readCells c 0 addr imageHeaderSize = headerAfter board c addr sh data)
      (hrest : ∀ i, dataAfter board c addr data i = c 0 (addr + imageHeaderSize + i))

/-! ## The header -/

section

variable {buf bs sh data : List Byte} {off o len : Nat}

/-- A field that the patch does not reach. -/
theorem field_patch_ne (hlen : o + bs.length ≤ buf.length)
    (h : off + len ≤ o ∨ o + bs.length ≤ off) :
    field (patch buf o bs) off len = field buf off len := by
  have hlist : ((patch buf o bs).drop off).take len = (buf.drop off).take len := by
    apply List.ext_getElem?
    intro i
    rw [List.getElem?_take, List.getElem?_take]
    split
    · rw [List.getElem?_drop, List.getElem?_drop, patch, List.append_assoc]
      rcases h with h | h
      · rw [List.getElem?_append_left (by rw [List.length_take]; omega), List.getElem?_take,
          if_pos (by omega)]
      · rw [List.getElem?_append_right (by rw [List.length_take]; omega), List.length_take,
          List.getElem?_append_right (by omega), List.getElem?_drop]
        congr 1
        omega
    · rfl
  rw [field, field, hlist]

theorem field_patch_self (hlen : o + bs.length ≤ buf.length) :
    field (patch buf o bs) o bs.length = leNat bs := by
  have htake : (buf.take o).length = o := List.length_take_of_le (by omega)
  rw [field, patch, List.append_assoc, List.drop_left' htake, List.take_left]

theorem wordSum_patch (heven : off % 2 = 0) (hlen : off + bs.length ≤ buf.length)
    (hbs : bs.length % 2 = 0) :
    wordSum (patch buf off bs) =
      wordSum (buf.take off) + (wordSum bs + wordSum (buf.drop (off + bs.length))) := by
  have htake : (buf.take off).length % 2 = 0 := by
    rw [List.length_take_of_le (by omega)]
    exact heven
  rw [patch, List.append_assoc, wordSum_append htake, wordSum_append hbs]

theorem wordSum_leBytes {n : Nat} (h : n < 2 ^ 16) : wordSum (leBytes 2 n) = n := by
  have hnat := leNat_leBytes 2 n
  rw [show 256 ^ 2 = 2 ^ 16 from rfl, Nat.mod_eq_of_lt h] at hnat
  exact hnat

theorem imageChecksum16_lt (bs : List Byte) : imageChecksum16 0 bs < 2 ^ 16 := by
  rw [imageChecksum16_eq (by decide)]
  exact Nat.mod_lt _ (by decide)

/-- A half-word of the header is set. -/
theorem length_patch_half {n : Nat} (hlen : buf.length = 64) (ho : o + 2 ≤ 64) :
    (patch buf o (leBytes 2 n)).length = 64 := by
  rw [length_patch (by rw [length_leBytes, hlen]; exact ho), hlen]

theorem field_patch_half {n : Nat} (hlen : buf.length = 64) (ho : o + 2 ≤ 64)
    (h : off + len ≤ o ∨ o + 2 ≤ off) :
    field (patch buf o (leBytes 2 n)) off len = field buf off len :=
  field_patch_ne (by rw [length_leBytes, hlen]; exact ho) (by rw [length_leBytes]; exact h)

/-- The header before the checksum of the header is set. -/
theorem length_unsigned (hlen : sh.length = 64) (n : Nat) :
    (patch (patch sh 10 (leBytes 2 n)) 8 (leBytes 2 0)).length = 64 :=
  length_patch_half (length_patch_half hlen (by decide)) (by decide)

theorem length_savedHeader (hlen : sh.length = imageHeaderSize) :
    (savedHeader sh data).length = imageHeaderSize :=
  length_patch_half (length_unsigned hlen _) (by decide)

/-- The fields that hold no checksum are those of the header before. -/
theorem field_savedHeader (hlen : sh.length = imageHeaderSize) (h : off + len ≤ 8 ∨ 12 ≤ off) :
    field (savedHeader sh data) off len = field sh off len := by
  unfold savedHeader
  dsimp only
  rw [field_patch_half (length_unsigned hlen _) (by decide) (by omega),
    field_patch_half (length_patch_half hlen (by decide)) (by decide) (by omega),
    field_patch_half hlen (by decide) (by omega)]

theorem dataChksum_savedHeader (hlen : sh.length = imageHeaderSize) :
    field (savedHeader sh data) 10 2 = imageChecksum16 0 data := by
  have hfit : 10 + (leBytes 2 (imageChecksum16 0 data)).length ≤ sh.length := by
    rw [length_leBytes, hlen]
    decide
  have hself := field_patch_self hfit
  rw [length_leBytes, leNat_leBytes, show 256 ^ 2 = 2 ^ 16 from rfl,
    Nat.mod_eq_of_lt (imageChecksum16_lt data)] at hself
  unfold savedHeader
  dsimp only
  rw [field_patch_half (length_unsigned hlen _) (by decide) (by decide),
    field_patch_half (length_patch_half hlen (by decide)) (by decide) (by decide), hself]

/-- The sum with the complement of the sum without it. -/
theorem checksum_complement (hlen : buf.length = 64) :
    imageChecksum16 0 (patch (patch buf 8 (leBytes 2 0)) 8
      (leBytes 2 (0xffff - imageChecksum16 0 (patch buf 8 (leBytes 2 0))))) = 0xFFFF := by
  have htake : ∀ n, (patch buf 8 (leBytes 2 n)).take 8 = buf.take 8 := by
    intro n
    rw [patch, List.append_assoc, List.take_left' (List.length_take_of_le (by omega))]
  have hdrop : ∀ n, (patch buf 8 (leBytes 2 n)).drop 10 = buf.drop 10 := by
    intro n
    rw [patch, List.drop_left' ]
    · rw [length_leBytes]
    · rw [List.length_append, List.length_take_of_le (by omega), length_leBytes]
  have hsum : ∀ b : List Byte, b.length = 64 → ∀ n < 2 ^ 16, wordSum (patch b 8 (leBytes 2 n)) =
      wordSum (b.take 8) + (n + wordSum (b.drop 10)) := by
    intro b hb n hn
    rw [wordSum_patch (by decide) (by rw [length_leBytes]; omega) (by rw [length_leBytes]),
      wordSum_leBytes hn, length_leBytes]
  have hzero := hsum buf hlen 0 (by decide)
  have hlt := imageChecksum16_lt (patch buf 8 (leBytes 2 0))
  rw [imageChecksum16_eq (by decide), hsum _ (length_patch_half hlen (by decide)) _ (by omega),
    htake, hdrop, imageChecksum16_eq (by decide), hzero]
  omega

theorem imageCheckHeader_valid : imageCheckHeader sh = .valid ↔
    field sh 0 4 = imageMagicNumber ∧ imageChecksum16 0 sh = 0xFFFF := by
  unfold imageCheckHeader
  change (if field sh 0 4 ≠ imageMagicNumber then ImageVal.invalid else _) = _ ↔ _
  by_cases hmagic : field sh 0 4 = imageMagicNumber
  · rw [if_neg (not_not.mpr hmagic)]
    by_cases hsum : imageChecksum16 0 sh = 0xFFFF
    · rw [if_neg (not_not.mpr hsum)]
      exact iff_of_true rfl ⟨hmagic, hsum⟩
    · rw [if_pos hsum]
      exact iff_of_false nofun fun h => hsum h.2
  · rw [if_pos hmagic]
    exact iff_of_false nofun fun h => hmagic h.1

theorem savedHeader_valid (hlen : sh.length = imageHeaderSize)
    (hvalid : imageCheckHeader sh = .valid) : imageCheckHeader (savedHeader sh data) = .valid := by
  rw [imageCheckHeader_valid] at *
  rw [field_savedHeader hlen (by decide)]
  exact ⟨hvalid.1, checksum_complement (length_patch_half hlen (by decide))⟩

end

/-! ## The block -/

section

variable {board : Board} {c c' : Cells} {addr addr' blockLen : Nat} {sh data bytes : List Byte}

/-- The block at `blk` as it is written: `off` bytes before the section, header and data, and the
rest from the buffer. -/
def blockImage (old : List Byte) (off : Nat) (sh data : List Byte) : List Byte :=
  old.take off ++ sh ++ data ++
    (old.drop (imageHeaderSize + data.length)).take (4096 - (off + imageHeaderSize + data.length))

theorem ret_orFail {p : Prog Bool} {k : Prog (Option Int)} :
    ret (orFail p k) c = some 0 ↔ ret p c = true ∧ ret k (post p c) = some 0 := by
  unfold orFail
  rw [ret_bind]
  cases ret p c with
  | true => exact (and_iff_right rfl).symm
  | false =>
    exact iff_of_false (fun h => absurd (Option.some.inj h) (by decide)) fun h => nomatch h.1

theorem post_orFail {p : Prog Bool} {k : Prog (Option Int)} (h : ret p c = true) :
    post (orFail p k) c = post k (post p c) := by
  unfold orFail
  rw [post_bind, h]
  rfl

theorem ret_flashRead_some {dev n : Nat} (h : ret (flashRead board dev addr n) c = some bytes) :
    bytes = readCells c dev addr n ∧
      ∃ chip, board dev = some chip ∧ u32 (addr + n) ≤ chip.mSize := by
  unfold flashRead halFlashRead at h
  cases hb : board dev with
  | none =>
    rw [hb] at h
    exact nomatch h
  | some chip =>
    rw [hb] at h
    dsimp only at h
    split at h
    · exact nomatch h
    · rename_i hfit
      exact ⟨(Option.some.inj h).symm, chip, rfl, by omega⟩

/-- A write that succeeds starts with the driver's check. -/
theorem writeAll_le (h : ret (writeAll board addr bytes) c = true) (hne : bytes ≠ []) :
    ∃ chip, board 0 = some chip ∧ u32 (addr + bytes.length) ≤ chip.mSize := by
  have hlen : bytes.length ≠ 0 := mt List.length_eq_zero_iff.mp hne
  have hret : ret (writeAll board addr bytes) c =
      decide ((if ret (halFlashWrite board 0 addr bytes) c then bytes.length else 0) =
        bytes.length) := by
    unfold writeAll flashWrite
    simp only [ret_bind, ret_pure]
  rw [hret, decide_eq_true_iff] at h
  have hok : ret (halFlashWrite board 0 addr bytes) c = true := by
    by_contra hno
    rw [if_neg hno] at h
    exact hlen h.symm
  unfold halFlashWrite at hok
  cases hb : board 0 with
  | none =>
    rw [hb] at hok
    exact nomatch hok
  | some chip =>
    refine ⟨chip, rfl, ?_⟩
    by_contra hgt
    rw [hb] at hok
    dsimp only at hok
    rw [if_pos (.inr (Nat.lt_of_not_le hgt))] at hok
    exact nomatch hok

theorem writeAll_nil :
    ret (writeAll board addr []) c = true ∧ post (writeAll board addr []) c = c := by
  unfold writeAll flashWrite halFlashWrite
  cases board 0 with
  | none => exact ⟨rfl, rfl⟩
  | some chip => exact ⟨rfl, rfl⟩

theorem writeAll_inside {size : Nat} (hin : Inside board 0 addr' size)
    (hle : addr + bytes.length ≤ addr' + size) :
    ret (writeAll board addr bytes) c = true ∧
      post (writeAll board addr bytes) c = programCells c 0 addr bytes := by
  by_cases hne : bytes = []
  · rw [hne, programCells_nil]
    exact writeAll_nil
  · obtain ⟨hret, hpieces⟩ := flashWrite_spec hin addr bytes hle hne c
    unfold writeAll
    rw [ret_bind, post_bind, hret]
    exact ⟨decide_eq_true rfl, hpieces.applyAll c⟩

/-- The block at `blk` of flash 0 behind `flash_erase`. -/
def erasedBlock (board : Board) (c : Cells) (blk : Nat) : Cells :=
  if erasesBlocks board then eraseCells c 0 blk 4096 else c

theorem flashErase_block {blk : Nat} (hin : Inside board 0 blk 4096) (halign : blk % 4096 = 0) :
    ret (flashErase board 0 blk 4096) c = true ∧
      post (flashErase board 0 blk 4096) c = erasedBlock board c blk := by
  obtain ⟨chip, hb, -, -⟩ := hin.chip
  have hmode : erasesBlocks board = chip.supports .kb4 := by
    unfold erasesBlocks
    rw [hb]
    rfl
  unfold erasedBlock
  rw [hmode]
  by_cases hsup : chip.supports .kb4 = true
  · have herase := flashErase_erasable hin hb (.inr (.inr ⟨hsup, by decide⟩)) halign (by decide) c
    have hplan : erasePlan chip blk 4096 = [(.kb4, blk, 4096)] := by
      rw [erasePlan, if_neg fun h => absurd h.1 (by decide), if_neg fun h => absurd h.1 (by decide),
        if_pos ⟨by decide, hsup⟩]
    have hok := herase.1 (by
      rw [hplan]
      exact List.forall_mem_singleton.mpr fun _ => hsup)
    rw [if_pos hsup]
    exact ⟨hok, herase.2.2.2 hok⟩
  · have hnone : ¬Erasable chip 4096 := by
      rintro (⟨-, h⟩ | ⟨-, h⟩ | ⟨h, -⟩)
      · exact absurd h (by decide)
      · exact absurd h (by decide)
      · exact hsup h
    have hrun : flashErase board 0 blk 4096 = pure true := by
      rw [flashErase, if_neg (by simp only [EraseMode.size]; omega), hb]
      dsimp only
      rw [erasePlan_nil hnone]
      rfl
    rw [if_neg hsup, hrun]
    exact ⟨rfl, rfl⟩

theorem length_blockImage (old : List Byte) {off : Nat} (hold : old.length = 4096)
    (hsh : sh.length = imageHeaderSize) (hfit : off + imageHeaderSize + data.length ≤ 4096) :
    (blockImage old off sh data).length = 4096 := by
  unfold blockImage
  rw [List.length_append, List.length_append, List.length_append, List.length_take_of_le (by omega),
    List.length_take_of_le (by rw [List.length_drop]; omega), hsh]
  omega

/-- The writes into the erased block, one behind the other. -/
theorem blockWrites {old : List Byte} (hin : Inside board 0 (addr / 4096 * 4096) 4096)
    (hold : old.length = 4096) (hsh : sh.length = imageHeaderSize)
    (hfit : addr % 4096 + imageHeaderSize + data.length ≤ 4096) (c₁ : Cells) {c₂ c₃ c₄ : Cells}
    (h₂ : post (saveBefore board (addr / 4096 * 4096) (addr - addr / 4096 * 4096) old) c₁ = c₂)
    (h₃ : post (writeAll board addr sh) c₂ = c₃)
    (h₄ : post (writeAll board (u32 (addr + imageHeaderSize)) data) c₃ = c₄) :
    post (saveRest board (u32 (addr / 4096 * 4096 + 4096))
        (u32 (u32 (addr + imageHeaderSize) + data.length)) (imageHeaderSize + data.length) old) c₄ =
      programCells c₁ 0 (addr / 4096 * 4096) (blockImage old (addr % 4096) sh data) := by
  have hlt := hin.lt
  have hsplit : addr = addr / 4096 * 4096 + addr % 4096 := by omega
  generalize addr / 4096 * 4096 = blk at *
  generalize addr % 4096 = off at *
  have hbefore : c₂ = programCells c₁ 0 blk (old.take off) := by
    rw [← h₂, show addr - blk = off by omega, saveBefore]
    split
    · rename_i hzero
      rw [hzero, List.take_zero, programCells_nil]
      rfl
    · rename_i hne
      have htake : (old.take off).length = off := List.length_take_of_le (by omega)
      exact (writeAll_inside hin (by omega)).2
  have hhdr : c₃ = programCells c₁ 0 blk (old.take off ++ sh) := by
    have htake : (old.take off).length = off := List.length_take_of_le (by omega)
    rw [← h₃, (writeAll_inside hin (by omega)).2, hbefore, hsplit,
      ← programCells_append c₁ 0 blk (old.take off) sh, htake]
  have h64 : imageHeaderSize = 64 := rfl
  have hstart : u32 (addr + imageHeaderSize) = addr + imageHeaderSize := u32_of_lt (by omega)
  have hlen : (old.take off ++ sh).length = off + imageHeaderSize := by
    rw [List.length_append, List.length_take_of_le (by omega), hsh]
  have hbody : c₄ = programCells c₁ 0 blk (old.take off ++ sh ++ data) := by
    rw [← h₄, hstart, (writeAll_inside hin (by omega)).2, hhdr,
      ← programCells_append c₁ 0 blk (old.take off ++ sh) data, hlen,
      show blk + (off + imageHeaderSize) = addr + imageHeaderSize by omega]
  have hwrite : u32 (addr + imageHeaderSize + data.length) = addr + imageHeaderSize + data.length :=
    u32_of_lt (by omega)
  have hend : u32 (blk + 4096) = blk + 4096 := u32_of_lt hlt
  have hlen' : (old.take off ++ sh ++ data).length = off + imageHeaderSize + data.length := by
    rw [List.length_append, hlen]
  rw [hstart, hwrite, hend, hbody, saveRest, blockImage]
  split
  · rename_i hfull
    rw [show 4096 - (off + imageHeaderSize + data.length) = 0 by omega, List.take_zero,
      List.append_nil]
    rfl
  · rename_i hmore
    have hafter : sub32 (blk + 4096) (addr + imageHeaderSize + data.length) =
        4096 - (off + imageHeaderSize + data.length) := by
      rw [sub32_of_le (by omega)]
      omega
    have hrest : ((old.drop (imageHeaderSize + data.length)).take
        (4096 - (off + imageHeaderSize + data.length))).length =
        4096 - (off + imageHeaderSize + data.length) :=
      List.length_take_of_le (by rw [List.length_drop]; omega)
    have hat : blk + (off + imageHeaderSize + data.length) =
        addr + imageHeaderSize + data.length := by omega
    dsimp only
    rw [hafter, if_neg (by omega), post_bind,
      (writeAll_inside hin (by rw [hrest]; omega)).2, post_pure,
      ← programCells_append c₁ 0 blk (old.take off ++ sh ++ data), hlen', hat]

/-- The flash with the block's image written over the erased block. -/
def savedCells (board : Board) (c : Cells) (addr : Nat) (sh data : List Byte) : Cells :=
  programCells (erasedBlock board c (addr / 4096 * 4096)) 0 (addr / 4096 * 4096)
    (blockImage (readCells c 0 (addr / 4096 * 4096) 4096) (addr % 4096) sh data)

/-- When the rest has been written, its length was not negative. -/
theorem saveRest_short {blk n from' : Nat} (haddr : addr + imageHeaderSize < 2 ^ 32)
    (hblk : blk + 4096 < 2 ^ 32) (hle : blk ≤ addr) (hlt : addr < blk + 4096)
    (hn : n ≤ 4096) (h : ret (saveRest board (u32 (blk + 4096))
      (u32 (u32 (addr + imageHeaderSize) + n)) from' bytes) c = some 0) :
    addr + imageHeaderSize + n ≤ blk + 4096 := by
  by_contra hover
  have h64 : imageHeaderSize = 64 := rfl
  unfold saveRest at h
  dsimp only at h
  rw [if_neg, if_pos] at h
  · exact nomatch h
  · unfold sub32 u32
    split <;> omega
  · unfold u32
    omega

/-- A save that succeeds leaves the block's image where the block was. -/
theorem saveBlock_post (hboard : ∀ chip, board 0 = some chip → chip.mSize + 4096 ≤ 2 ^ 32)
    (haddr : addr + imageHeaderSize < 2 ^ 32) (hsh : sh.length = imageHeaderSize)
    (hcnt : addr % 4096 + data.length ≤ 4096)
    (h : ret (saveBlock board addr 4096 sh data) c = some 0) :
    Inside board 0 (addr / 4096 * 4096) 4096 ∧
      addr % 4096 + imageHeaderSize + data.length ≤ 4096 ∧
      post (saveBlock board addr 4096 sh data) c = savedCells board c addr sh data := by
  unfold saveBlock at h ⊢
  dsimp only at h ⊢
  rw [ret_bind, post_flashRead] at h
  rw [post_bind, post_flashRead]
  split at h
  · exact absurd (Option.some.inj h) (by decide)
  rename_i hlen
  rw [not_not] at hlen
  rw [if_neg (not_not.mpr hlen)]
  simp only [ret_orFail] at h
  obtain ⟨herase, hbefore, hhdr, hbody, hrest⟩ := h
  rw [post_orFail herase, post_orFail hbefore, post_orFail hhdr, post_orFail hbody]
  have hread : ∃ old, ret (flashRead board 0 (addr / 4096 * 4096) 4096) c = some old := by
    refine Option.ne_none_iff_exists'.mp fun hnone => ?_
    rw [hnone, Option.getD_none, List.length_nil] at hlen
    omega
  obtain ⟨old, hread⟩ := hread
  obtain ⟨hold, chip, hb, hle⟩ := ret_flashRead_some hread
  rw [hread, Option.getD_some] at hlen hbefore hhdr hbody hrest ⊢
  have h64 : imageHeaderSize = 64 := rfl
  have hshne : sh ≠ [] := by
    intro hnil
    rw [hnil] at hsh
    exact nomatch hsh
  have hsmall := hboard chip hb
  have hhdrle : addr + imageHeaderSize ≤ chip.mSize := by
    obtain ⟨chip', hb', hle'⟩ := writeAll_le hhdr hshne
    obtain rfl : chip = chip' := Option.some.inj (hb.symm.trans hb')
    rw [hsh, u32_of_lt haddr] at hle'
    exact hle'
  have hin : Inside board 0 (addr / 4096 * 4096) 4096 := by
    rw [u32_of_lt (by omega)] at hle
    exact ⟨chip, hb, hle, by omega⟩
  have hfit := saveRest_short haddr (by omega) (by omega) (by omega) (by omega) hrest
  have hwrites := blockWrites hin hlen hsh (show addr % 4096 + imageHeaderSize + data.length ≤ 4096
    by omega) (post (flashErase board 0 (addr / 4096 * 4096) 4096) c) rfl rfl rfl
  rw [hwrites, (flashErase_block hin (by omega)).2, hold]
  exact ⟨hin, by omega, rfl⟩

/-- Without data at the start of a block, no block is read and the save does not come back. -/
theorem saveBlock_empty (halign : addr % 4096 = 0) (haddr : addr + imageHeaderSize < 2 ^ 32) :
    ret (saveBlock board addr 0 sh []) c ≠ some 0 := by
  intro h
  unfold saveBlock at h
  dsimp only at h
  rw [ret_bind, post_flashRead] at h
  split at h
  · exact absurd (Option.some.inj h) (by decide)
  simp only [ret_orFail] at h
  obtain ⟨-, -, -, -, hrest⟩ := h
  have h64 : imageHeaderSize = 64 := rfl
  unfold saveRest at hrest
  dsimp only [List.length_nil] at hrest
  rw [if_neg, if_pos] at hrest
  · exact nomatch hrest
  · unfold sub32 u32
    split <;> omega
  · unfold u32
    omega

/-- A section in its block is saved. -/
theorem saveBlock_ret (hin : Inside board 0 (addr / 4096 * 4096) 4096)
    (hsh : sh.length = imageHeaderSize)
    (hfit : addr % 4096 + imageHeaderSize + data.length ≤ 4096) :
    ret (saveBlock board addr 4096 sh data) c = some 0 := by
  have h64 : imageHeaderSize = 64 := rfl
  have hlt := hin.lt
  have hlen : (readCells c 0 (addr / 4096 * 4096) 4096).length = 4096 := length_readCells ..
  unfold saveBlock
  dsimp only
  rw [ret_bind, post_flashRead, ret_flashRead hin (by decide), Option.getD_some,
    if_neg (not_not.mpr hlen), ret_orFail, ret_orFail, ret_orFail, ret_orFail]
  refine ⟨(flashErase_block hin (by omega)).1, ?_, (writeAll_inside hin (by omega)).1, ?_, ?_⟩
  · unfold saveBefore
    split
    · rfl
    · exact (writeAll_inside hin (by rw [List.length_take, hlen]; omega)).1
  · rw [u32_of_lt (by omega)]
    exact (writeAll_inside hin (by omega)).1
  · rw [u32_of_lt (n := addr + imageHeaderSize) (by omega), u32_of_lt (by omega),
      u32_of_lt (n := addr + imageHeaderSize + data.length) (by omega), saveRest]
    split
    · rfl
    · dsimp only
      rw [sub32_of_le (by omega), if_neg (by omega), ret_bind,
        (writeAll_inside hin (by rw [List.length_take, List.length_drop, hlen]; omega)).1]
      rfl

/-! ## The flash after a save -/

theorem getD_readCells {dev blk n i : Nat} (hi : i < n) :
    (readCells c dev blk n).getD i blank = c dev (blk + i) := by
  rw [List.getD_eq_getElem?_getD, readCells_getElem? _ _ _ _ _ hi, Option.getD_some]

theorem savedCells_other {d a : Nat} (hd : d ≠ 0) :
    savedCells board c addr sh data d a = c d a := by
  unfold savedCells erasedBlock
  rw [programCells_outside (.inl hd)]
  split
  · exact eraseCells_outside (.inl hd)
  · rfl

/-- A cell of the block. -/
theorem savedCells_block (hsh : sh.length = imageHeaderSize)
    (hfit : addr % 4096 + imageHeaderSize + data.length ≤ 4096) {q : Nat} (hq : q < 4096) :
    savedCells board c addr sh data 0 (addr / 4096 * 4096 + q) =
      erasedByte board c (addr / 4096 * 4096 + q) &&& (blockImage
        (readCells c 0 (addr / 4096 * 4096) 4096) (addr % 4096) sh data).getD q blank := by
  have hlen := length_blockImage (readCells c 0 (addr / 4096 * 4096) 4096)
    (length_readCells ..) hsh hfit
  unfold savedCells erasedBlock erasedByte
  rw [programCells_inside (by omega) (by omega), Nat.add_sub_cancel_left]
  split
  · rw [eraseCells_inside (by omega) (by omega)]
  · rfl

/-- A cell of flash 0 outside the block. -/
theorem savedCells_outside (hsh : sh.length = imageHeaderSize)
    (hfit : addr % 4096 + imageHeaderSize + data.length ≤ 4096) {a : Nat}
    (ha : a < addr / 4096 * 4096 ∨ addr / 4096 * 4096 + 4096 ≤ a) :
    savedCells board c addr sh data 0 a = c 0 a := by
  have hlen := length_blockImage (readCells c 0 (addr / 4096 * 4096) 4096)
    (length_readCells ..) hsh hfit
  unfold savedCells erasedBlock
  rw [programCells_outside (.inr (by omega))]
  split
  · exact eraseCells_outside (.inr ha)
  · rfl

theorem savedCells_before {a : Nat} (hsh : sh.length = imageHeaderSize)
    (hfit : addr % 4096 + imageHeaderSize + data.length ≤ 4096) (ha : a < addr) :
    savedCells board c addr sh data 0 a = c 0 a := by
  by_cases hblk : a < addr / 4096 * 4096
  · exact savedCells_outside hsh hfit (.inl hblk)
  · obtain ⟨q, rfl⟩ : ∃ q, a = addr / 4096 * 4096 + q := ⟨a - addr / 4096 * 4096, by omega⟩
    have htake : ((readCells c 0 (addr / 4096 * 4096) 4096).take (addr % 4096)).length =
        addr % 4096 := List.length_take_of_le (by rw [length_readCells]; omega)
    rw [savedCells_block hsh hfit (by omega), blockImage, List.append_assoc, List.append_assoc,
      List.getD_append _ _ _ _ (by omega), List.getD_eq_getElem?_getD, List.getElem?_take,
      if_pos (by omega), ← List.getD_eq_getElem?_getD, getD_readCells (by omega)]
    unfold erasedByte
    split
    · exact blank_and _
    · exact BitVec.and_self

/-- The parts of the block's image behind what was before the section. -/
theorem getD_blockImage {old : List Byte} {off i : Nat} (hold : old.length = 4096)
    (hsh : sh.length = imageHeaderSize) (hfit : off + imageHeaderSize + data.length ≤ 4096)
    (hi : off + i < 4096) :
    (blockImage old off sh data).getD (off + i) blank =
      if i < imageHeaderSize then sh.getD i blank
      else if i < imageHeaderSize + data.length then data.getD (i - imageHeaderSize) blank
      else old.getD i blank := by
  have htake : (old.take off).length = off := List.length_take_of_le (by omega)
  have hsect : (old.take off ++ sh).length = off + imageHeaderSize := by
    rw [List.length_append, htake, hsh]
  have hbody : (old.take off ++ sh ++ data).length = off + imageHeaderSize + data.length := by
    rw [List.length_append, hsect]
  unfold blockImage
  by_cases h₁ : i < imageHeaderSize
  · rw [if_pos h₁, List.getD_append _ _ _ _ (by omega), List.getD_append _ _ _ _ (by omega),
      List.getD_append_right _ _ _ _ (by omega), htake, Nat.add_sub_cancel_left]
  rw [if_neg h₁]
  by_cases h₂ : i < imageHeaderSize + data.length
  · rw [if_pos h₂, List.getD_append _ _ _ _ (by omega), List.getD_append_right _ _ _ _ (by omega),
      hsect, Nat.add_sub_add_left]
  · rw [if_neg h₂, List.getD_append_right _ _ _ _ (by omega), hbody, List.getD_eq_getElem?_getD,
      List.getElem?_take, if_pos (by omega), List.getElem?_drop, ← List.getD_eq_getElem?_getD]
    congr 1
    omega

theorem savedCells_header (hsh : sh.length = imageHeaderSize)
    (hfit : addr % 4096 + imageHeaderSize + data.length ≤ 4096) :
    readCells (savedCells board c addr sh data) 0 addr imageHeaderSize =
      (List.range imageHeaderSize).map fun i =>
        erasedByte board c (addr + i) &&& sh.getD i blank := by
  refine List.map_congr_left fun i hi => ?_
  have hlt : i < imageHeaderSize := List.mem_range.mp hi
  have hat : addr + i = addr / 4096 * 4096 + (addr % 4096 + i) := by omega
  rw [hat, savedCells_block hsh hfit (by omega),
    getD_blockImage (length_readCells ..) hsh hfit (by omega), if_pos hlt]

theorem savedCells_data (hsh : sh.length = imageHeaderSize)
    (hfit : addr % 4096 + imageHeaderSize + data.length ≤ 4096) (i : Nat) :
    savedCells board c addr sh data 0 (addr + imageHeaderSize + i) =
      dataAfter board c addr data i := by
  unfold dataAfter
  dsimp only
  by_cases hin : addr % 4096 + imageHeaderSize + i < 4096
  · have hat : addr + imageHeaderSize + i =
        addr / 4096 * 4096 + (addr % 4096 + (imageHeaderSize + i)) := by omega
    rw [hat, savedCells_block hsh hfit (by omega),
      getD_blockImage (length_readCells ..) hsh hfit (by omega), if_neg (by omega)]
    by_cases hi : i < data.length
    · rw [if_pos (by omega), if_pos hi, Nat.add_sub_cancel_left]
    · rw [if_neg (by omega), if_neg hi, if_pos hin, getD_readCells (by omega),
        ← Nat.add_assoc (addr / 4096 * 4096) imageHeaderSize i]
  · rw [if_neg (by omega), if_neg hin]
    exact savedCells_outside hsh hfit (.inr (by omega))

theorem readCells_saved (hsh : sh.length = imageHeaderSize)
    (hfit : addr % 4096 + imageHeaderSize + data.length ≤ 4096) (n : Nat) :
    readCells (savedCells board c addr sh data) 0 (addr + imageHeaderSize) n =
      (List.range n).map (dataAfter board c addr data) :=
  List.map_congr_left fun i _ => savedCells_data hsh hfit i

/-- Outside a section of `size` bytes of data the flash is as before. -/
theorem savedCells_frame (hsh : sh.length = imageHeaderSize)
    (hfit : addr % 4096 + imageHeaderSize + data.length ≤ 4096) (size : Nat) :
    (∀ d a, ¬(d = 0 ∧ addr ≤ a ∧ a < addr + imageHeaderSize + size) →
      savedCells board c addr sh data d a = c d a) ↔
    ∀ i, size ≤ i → dataAfter board c addr data i = c 0 (addr + imageHeaderSize + i) := by
  constructor
  · intro h i hi
    rw [← savedCells_data hsh hfit]
    exact h 0 _ (by omega)
  · intro h d a hout
    by_cases hd : d = 0
    · subst hd
      by_cases hlt : a < addr
      · exact savedCells_before hsh hfit hlt
      · obtain ⟨i, rfl⟩ : ∃ i, a = addr + imageHeaderSize + i :=
          ⟨a - (addr + imageHeaderSize), by omega⟩
        rw [savedCells_data hsh hfit, h i (by omega)]
    · exact savedCells_other hd

/-- Outside a section on another flash: nothing changes on flash 0. -/
theorem savedCells_elsewhere (hsh : sh.length = imageHeaderSize)
    (hfit : addr % 4096 + imageHeaderSize + data.length ≤ 4096) {flash : Nat} (hflash : flash ≠ 0)
    (lo hi : Nat) :
    (∀ d a, ¬(d = flash ∧ lo ≤ a ∧ a < hi) → savedCells board c addr sh data d a = c d a) ↔
    readCells c 0 addr imageHeaderSize = ((List.range imageHeaderSize).map fun i =>
        erasedByte board c (addr + i) &&& sh.getD i blank) ∧
      ∀ i, dataAfter board c addr data i = c 0 (addr + imageHeaderSize + i) := by
  rw [← savedCells_header hsh hfit]
  constructor
  · intro h
    have hsame : ∀ a, savedCells board c addr sh data 0 a = c 0 a := fun a =>
      h 0 a fun hin => hflash hin.1.symm
    refine ⟨readCells_congr fun i _ => (hsame _).symm, fun i => ?_⟩
    rw [← savedCells_data hsh hfit, hsame]
  · rintro ⟨hhdr, hrest⟩ d a -
    by_cases hd : d = 0
    · subst hd
      by_cases hlt : a < addr
      · exact savedCells_before hsh hfit hlt
      by_cases hin : a < addr + imageHeaderSize
      · have hcell := congrArg (fun bs => bs.getD (a - addr) blank) hhdr
        rw [getD_readCells (by omega), getD_readCells (by omega),
          show addr + (a - addr) = a by omega] at hcell
        exact hcell.symm
      · obtain ⟨i, rfl⟩ : ∃ i, a = addr + imageHeaderSize + i :=
          ⟨a - (addr + imageHeaderSize), by omega⟩
        rw [savedCells_data hsh hfit, hrest]
    · exact savedCells_other hd

theorem headerAfter_erases (herases : erasesBlocks board = true)
    (hsh : sh.length = imageHeaderSize) :
    headerAfter board c addr sh data = savedHeader sh data := by
  have hlen : (savedHeader sh data).length = imageHeaderSize := length_savedHeader hsh
  unfold headerAfter erasedByte
  rw [← hlen]
  refine List.ext_getElem? fun i => ?_
  rw [List.getElem?_map]
  by_cases hi : i < (savedHeader sh data).length
  · rw [List.getElem?_range hi, Option.map_some, if_pos herases, blank_and,
      List.getD_eq_getElem?_getD, List.getElem?_eq_getElem hi, Option.getD_some]
  · rw [List.getElem?_eq_none (by rw [List.length_range]; omega), List.getElem?_eq_none (by omega)]
    rfl

/-- Where the block has been erased, the body is the data when it is as long. -/
theorem body_erases (herases : erasesBlocks board = true) {n : Nat} :
    (List.range n).map (dataAfter board c addr data) = data ↔ n = data.length := by
  constructor
  · intro h
    have hlen := congrArg List.length h
    rwa [List.length_map, List.length_range] at hlen
  · rintro rfl
    refine List.ext_getElem? fun i => ?_
    rw [List.getElem?_map]
    by_cases hi : i < data.length
    · unfold dataAfter erasedByte
      rw [List.getElem?_range hi, Option.map_some]
      dsimp only
      rw [if_pos hi, if_pos herases, blank_and, List.getD_eq_getElem?_getD,
        List.getElem?_eq_getElem hi, Option.getD_some]
    · rw [List.getElem?_eq_none (by rw [List.length_range]; omega),
        List.getElem?_eq_none (by omega)]
      rfl

section

variable {flash : Nat} {checkT : CheckType}

theorem replaced_iff {c' : Cells} {hdr : List Byte}
    (hboard : ∀ dev chip, board dev = some chip → chip.mSize + 4096 ≤ 2 ^ 32)
    (haddr : addr + imageHeaderSize < 2 ^ 32)
    (hhdr : readCells c' flash addr imageHeaderSize = hdr) :
    Replaced board flash addr checkT data c c' ↔ (imageCheckHeader hdr = .valid ∧
      Inside board flash addr (imageHeaderSize + (SectionHeader.decode hdr).dataSize) ∧
      ((SectionHeader.decode hdr).dataChksum + wordSum (readCells c' flash (addr + imageHeaderSize)
        (SectionHeader.decode hdr).dataSize)) % 2 ^ 16 = 0xFFFF) ∧
      readCells c' flash (addr + imageHeaderSize) (SectionHeader.decode hdr).bodyLen = data ∧
      ∀ d a, ¬(d = flash ∧ addr ≤ a ∧ a < addr + imageHeaderSize +
        (SectionHeader.decode hdr).dataSize) → c' d a = c d a := by
  subst hhdr
  rw [← imageCheckSection_isSome (hboard flash) haddr]
  exact ⟨fun h => ⟨h.check, h.body, h.frame⟩, fun h => ⟨h.1, h.2.1, h.2.2⟩⟩

theorem replaced_saved (hboard : ∀ dev chip, board dev = some chip → chip.mSize + 4096 ≤ 2 ^ 32)
    (haddr : addr + imageHeaderSize < 2 ^ 32) (hsh : sh.length = imageHeaderSize)
    (hvalid : imageCheckHeader sh = .valid)
    (hfit : addr % 4096 + imageHeaderSize + data.length ≤ 4096) :
    Replaced board flash addr checkT data c
        (savedCells board c addr (savedHeader sh data) data) ↔
      SaveFits board flash addr sh data c := by
  have hlen : (savedHeader sh data).length = imageHeaderSize := length_savedHeader hsh
  by_cases hflash : flash = 0
  · subst hflash
    have hhdr : readCells (savedCells board c addr (savedHeader sh data) data) 0 addr
        imageHeaderSize = headerAfter board c addr sh data := savedCells_header hlen hfit
    rw [replaced_iff hboard haddr hhdr, readCells_saved hlen hfit, readCells_saved hlen hfit,
      savedCells_frame hlen hfit]
    by_cases herases : erasesBlocks board = true
    · have hsize : (SectionHeader.decode (savedHeader sh data)).dataSize =
          (SectionHeader.decode sh).dataSize := field_savedHeader hsh (.inr (by decide))
      have hbody : (SectionHeader.decode (savedHeader sh data)).bodyLen =
          (SectionHeader.decode sh).bodyLen := field_savedHeader hsh (.inr (by decide))
      have hchksum : (SectionHeader.decode (savedHeader sh data)).dataChksum =
          wordSum data % 2 ^ 16 := by
        refine (dataChksum_savedHeader hsh).trans ?_
        rw [imageChecksum16_eq (by decide), Nat.zero_add]
      rw [headerAfter_erases herases hsh, hsize, hbody, hchksum, Nat.mod_add_mod,
        body_erases herases, and_iff_right (savedHeader_valid hsh hvalid)]
      constructor
      · rintro ⟨⟨hin, hsum⟩, hlen, hrest⟩
        exact .running rfl herases hlen hin hsum hrest
      · intro h
        cases h with
        | running _ _ hlen hin hsum hrest => exact ⟨⟨hin, hsum⟩, hlen, hrest⟩
        | unerased _ hno => exact absurd herases (by rw [hno]; decide)
        | elsewhere hno => exact absurd rfl hno
    · have hno : erasesBlocks board = false := Bool.eq_false_iff.mpr herases
      constructor
      · rintro ⟨⟨hval, hin, hsum⟩, hbody, hrest⟩
        exact .unerased rfl hno _ rfl hval hin hsum hbody hrest
      · intro h
        cases h with
        | running _ hyes => exact absurd hyes herases
        | unerased _ _ hdr hhdr hval hin hsum hbody hrest =>
          subst hhdr
          exact ⟨⟨hval, hin, hsum⟩, hbody, hrest⟩
        | elsewhere hne => exact absurd rfl hne
  · have hsame : ∀ a n, readCells (savedCells board c addr (savedHeader sh data) data) flash a n =
        readCells c flash a n := fun a n => readCells_congr fun i _ => savedCells_other hflash
    rw [replaced_iff hboard haddr (hsame _ _), hsame, hsame,
      savedCells_elsewhere hlen hfit hflash]
    constructor
    · rintro ⟨⟨hval, hin, hsum⟩, hbody, hhdr, hrest⟩
      exact .elsewhere hflash _ rfl hval hin hsum hbody hhdr hrest
    · intro h
      cases h with
      | running hzero => exact absurd hzero hflash
      | unerased hzero => exact absurd hzero hflash
      | elsewhere _ hdr hread hval hin hsum hbody hhdr hrest =>
        subst hread
        exact ⟨⟨hval, hin, hsum⟩, hbody, hhdr, hrest⟩

end

/-! ## A whole save -/

section

variable {s s' s₁ s₂ : ImagePriv} {fuel : Nat} {checkT : CheckType}

theorem length_imageRead {id offset n : Nat}
    (h : Flow.Returns (imageRead board fuel id .header offset n) s c (some bytes) s') :
    bytes.length = n := by
  unfold imageRead at h
  obtain ⟨img, s₁, -, h⟩ := Flow.quiet_get.returns_bind.mp h
  obtain ⟨a, s₂, -, h⟩ := (quiet_imageGetAddr ..).returns_bind.mp h
  split at h
  · exact nomatch (Flow.returns_pure.mp h).1
  · have hread := (Flow.returns_lift.mp h).1
    rw [(ret_flashRead_some hread).1, length_readCells]

/-- The block count of `sdd_save`, and the length it reads. -/
theorem block_len (addr : Nat) {n : Nat} (hn : n ≤ 4 * 1024) :
    u32 (addr % 4096 + n) = addr % 4096 + n ∧
      ((if (addr % 4096 + n) % 4096 ≠ 0 then (addr % 4096 + n) / 4096 + 1
        else (addr % 4096 + n) / 4096) ≤ 1 ↔ addr % 4096 + n ≤ 4096) := by
  refine ⟨u32_of_lt (by omega), ?_⟩
  split <;> omega

theorem not_leaves_minus : ¬Flow.Leaves (pure (-1) : Img Int) s c 0 s' c' := fun h =>
  absurd (Flow.leaves_pure_iff.mp h).1 (by decide)

theorem leaves_mayHang {p : Prog (Option Int)} {r : Int} :
    Flow.Leaves (mayHang p) s c r s' c' ↔ ret p c = some r ∧ s = s' ∧ post p c = c' := by
  have hpost : post ((mayHang p : Img Int) s) c = post p c := by
    unfold mayHang
    rw [post_bind]
    rfl
  have hret : ret ((mayHang p : Img Int) s) c = (ret p c).map fun a => (a, s) := by
    unfold mayHang
    rw [ret_bind]
    rfl
  constructor
  · rintro ⟨hr, hp⟩
    unfold Flow.Returns at hr
    rw [hret] at hr
    obtain ⟨a, ha, heq⟩ := Option.map_eq_some_iff.mp hr
    cases heq
    exact ⟨ha, rfl, hpost.symm.trans hp⟩
  · rintro ⟨hr, rfl, hp⟩
    refine ⟨?_, hpost.trans hp⟩
    unfold Flow.Returns
    rw [hret, hr]
    rfl

/-- What a save that reports success has seen; only the block's part writes. -/
theorem sddSave_returns
    (haddr : Flow.Returns (imageGetSectionAddr board fuel imageSysSddId) s c addr s₁)
    (hfits : addr + imageHeaderSize < 2 ^ 32)
    (hhdr : Flow.Returns (imageRead board fuel imageSysSddId .header 0 imageHeaderSize) s₁ c
      (some sh) s₂) :
    Flow.Leaves (sddSave board fuel data) s c 0 s' c' ↔
      (data.length ≤ 4 * 1024 ∧ (0 < addr % 4096 + data.length ∧
          addr % 4096 + data.length ≤ 4096) ∧ imageCheckHeader sh = .valid ∧
        ret (saveBlock board addr 4096 (savedHeader sh data) data) c = some 0 ∧ s₂ = s' ∧
        post (saveBlock board addr 4096 (savedHeader sh data) data) c = c') := by
  unfold sddSave
  dsimp only
  by_cases hlen : data.length > 4 * 1024
  · rw [if_pos hlen]
    exact iff_of_false not_leaves_minus fun h => by omega
  rw [if_neg hlen, quiet_imageGetSectionAddr _ |>.leaves_bind haddr]
  obtain ⟨hblock, hcnt⟩ := block_len addr (Nat.not_lt.mp hlen)
  rw [hblock]
  by_cases hbig : addr % 4096 + data.length ≤ 4096
  · rw [if_neg (Nat.not_lt.mpr (hcnt.mpr hbig)), (Flow.quiet_lift (quiet_allocReq _)).leaves_bind
      (Flow.returns_lift.mpr ⟨ret_allocReq .., rfl⟩), if_neg (by decide),
      (quiet_imageRead ..).leaves_bind hhdr]
    dsimp only
    by_cases hbad : imageCheckHeader sh = .invalid
    · rw [if_pos hbad, hbad]
      exact iff_of_false not_leaves_minus fun h => nomatch h.2.2.1
    have hval : imageCheckHeader sh = .valid := by
      cases hv : imageCheckHeader sh with
      | invalid => exact absurd hv hbad
      | valid => rfl
    rw [if_neg hbad, leaves_mayHang]
    by_cases hempty : addr % 4096 + data.length = 0
    · obtain rfl : data = [] := List.length_eq_zero_iff.mp (by omega)
      rw [hempty]
      exact iff_of_false (fun h => saveBlock_empty (by omega) hfits h.1) fun h => by omega
    · have hpos : 0 < addr % 4096 + data.length ∧ addr % 4096 + data.length ≤ 4096 :=
        ⟨by omega, hbig⟩
      have hone : (if (addr % 4096 + data.length) % 4096 ≠ 0
          then (addr % 4096 + data.length) / 4096 + 1
          else (addr % 4096 + data.length) / 4096) = 1 := by
        split <;> omega
      rw [hone, and_iff_right (Nat.not_lt.mp hlen), and_iff_right hpos, and_iff_right hval]
  · rw [if_pos (Nat.lt_of_not_le fun hle => hbig (hcnt.mp hle))]
    exact iff_of_false not_leaves_minus fun h => hbig h.2.1.2

/-- What a save that reports success leaves. -/
theorem sddSave_post (hboard : ∀ dev chip, board dev = some chip → chip.mSize + 4096 ≤ 2 ^ 32)
    (haddr : Flow.Returns (imageGetSectionAddr board fuel imageSysSddId) s c addr s₁)
    (hfits : addr + imageHeaderSize < 2 ^ 32)
    (hhdr : Flow.Returns (imageRead board fuel imageSysSddId .header 0 imageHeaderSize) s₁ c
      (some sh) s₂)
    (h : Flow.Returns (sddSave board fuel data) s c 0 s') :
    imageCheckHeader sh = .valid ∧ addr % 4096 + imageHeaderSize + data.length ≤ 4096 ∧
      post (sddSave board fuel data s) c = savedCells board c addr (savedHeader sh data) data := by
  obtain ⟨-, ⟨-, hcnt⟩, hvalid, hret, -, hpost⟩ :=
    (sddSave_returns haddr hfits hhdr).mp ⟨h, rfl⟩
  obtain ⟨-, hfit, hsaved⟩ := saveBlock_post (hboard 0) hfits
    (length_savedHeader (length_imageRead hhdr)) hcnt hret
  exact ⟨hvalid, hfit, hpost.symm.trans hsaved⟩

/-- A save of data as long as the section's: the sum of the data counts twice. -/
theorem not_saveFits_own_size (herases : erasesBlocks board = true)
    (hsize : (SectionHeader.decode sh).dataSize = data.length) :
    ¬SaveFits board 0 addr sh data c := by
  intro h
  cases h with
  | running _ _ _ _ hsum _ =>
    rw [(body_erases herases).mpr hsize] at hsum
    omega
  | unerased _ hno => exact absurd herases (by rw [hno]; decide)
  | elsewhere hne => exact hne rfl

/-- What a save does that has reported success. -/
theorem sdd_save_replaces (hboard : ∀ dev chip, board dev = some chip → chip.mSize + 4096 ≤ 2 ^ 32)
    (haddr : Flow.Returns (imageGetSectionAddr board fuel imageSysSddId) s c addr s₁)
    (hfits : addr + imageHeaderSize < 2 ^ 32)
    (hhdr : Flow.Returns (imageRead board fuel imageSysSddId .header 0 imageHeaderSize) s₁ c
      (some sh) s₂)
    (h : Flow.Returns (sddSave board fuel data) s c 0 s') :
    Replaced board (s.iop.flash s.iop.runningSeq) addr checkT data c
        (post (sddSave board fuel data s) c) ↔
      SaveFits board (s.iop.flash s.iop.runningSeq) addr sh data c := by
  obtain ⟨hvalid, hfit, hpost⟩ := sddSave_post hboard haddr hfits hhdr h
  rw [hpost]
  exact replaced_saved hboard hfits (length_imageRead hhdr) hvalid hfit

end

end

/-! ## Two sections of flash 0 -/

/-- A flash with the section `bytes` in its second block. -/
def sectionFlash (bytes : List Byte) : Cells := fun _ a =>
  if 4096 ≤ a then bytes.getD (a - 4096) blank else blank

def smallBoard : Board := fun _ => some smallChip

/-- The image module after it has found the section. -/
def foundSdd : ImagePriv :=
  ⟨⟨0, 0, 0, 0, 0, 0, 0, fun _ => 0, fun _ => 0⟩, fun _ => [⟨imageSysSddId, 4096⟩]⟩

/-- Two bytes without a tailer. -/
def twoBytes : List Byte :=
  [0x41, 0x57, 0x49, 0x48, 0, 0, 0, 0, 0x76, 0x62, 0xFE, 0xFD, 2] ++ List.replicate 11 0 ++
    [2, 0, 0, 0, 0, 0, 0, 0, 0xFF, 0xFF, 0xFF, 0xFF, 7, 0x5A, 0xF8, 0xA5] ++
    List.replicate 24 0 ++ [1, 2]

/-- Two bytes, and a tailer of two that makes up for the sum of the bytes 3 and 4 counted twice. -/
def twoBytesTailer : List Byte :=
  [0x41, 0x57, 0x49, 0x48, 0, 0, 0, 0, 0x6D, 0x5A, 5, 6, 4] ++ List.replicate 11 0 ++
    [2, 0, 0, 0, 0, 0, 0, 0, 0xFF, 0xFF, 0xFF, 0xFF, 7, 0x5A, 0xF8, 0xA5] ++
    List.replicate 24 0 ++ [1, 2, 0xF9, 0xF7]

theorem smallBoard_room (dev : Nat) (chip : Chip) (h : smallBoard dev = some chip) :
    chip.mSize + 4096 ≤ 2 ^ 32 := by
  cases h
  decide

section

variable {c : Cells}

theorem foundSdd_addr : Flow.Returns (imageGetSectionAddr smallBoard 1 imageSysSddId) foundSdd c
    4096 foundSdd := rfl

theorem foundSdd_header : Flow.Returns (imageRead smallBoard 1 imageSysSddId .header 0
    imageHeaderSize) foundSdd c (some (readCells c 0 4096 imageHeaderSize)) foundSdd := rfl

theorem foundSdd_save (hvalid : imageCheckHeader (readCells c 0 4096 imageHeaderSize) = .valid) :
    Flow.Returns (sddSave smallBoard 1 [3, 4]) foundSdd c 0 foundSdd := by
  have hin : Inside smallBoard 0 (4096 / 4096 * 4096) 4096 := ⟨smallChip, rfl, by decide, by decide⟩
  have hret : ret (saveBlock smallBoard 4096 4096
      (savedHeader (readCells c 0 4096 imageHeaderSize) [3, 4]) [3, 4]) c = some 0 :=
    saveBlock_ret hin (length_savedHeader (length_readCells ..)) (by decide)
  exact ((sddSave_returns foundSdd_addr (by decide) foundSdd_header).mpr
    ⟨by decide, by decide, hvalid, hret, rfl, rfl⟩).returns

/-- The section is valid, the save reports success, and the section is not valid any more. -/
theorem save_invalidates :
    (ret (imageCheckSection smallBoard 0 4096 imageCheckSize .normal)
      (sectionFlash twoBytes)).isSome = true ∧
    Flow.Returns (sddSave smallBoard 1 [3, 4]) foundSdd (sectionFlash twoBytes) 0 foundSdd ∧
    ¬Replaced smallBoard 0 4096 .normal [3, 4] (sectionFlash twoBytes)
      (post (sddSave smallBoard 1 [3, 4] foundSdd) (sectionFlash twoBytes)) := by
  have hhdr : readCells (sectionFlash twoBytes) 0 4096 imageHeaderSize = twoBytes.take 64 := by
    decide
  have hvalid : imageCheckHeader (readCells (sectionFlash twoBytes) 0 4096 imageHeaderSize) =
      .valid := by
    rw [hhdr]
    decide
  have hsave := foundSdd_save hvalid
  obtain ⟨-, hfit, hpost⟩ := sddSave_post smallBoard_room foundSdd_addr (by decide)
    foundSdd_header hsave
  refine ⟨(imageCheckSection_isSome (smallBoard_room 0) (by decide)).mpr ⟨hvalid, ?_, ?_⟩,
    hsave, ?_⟩
  · rw [hhdr]
    exact ⟨smallChip, rfl, by decide, by decide⟩
  · rw [hhdr]
    decide
  · rw [hpost, replaced_saved smallBoard_room (by decide) (length_readCells ..) hvalid hfit]
    refine not_saveFits_own_size rfl ?_
    rw [hhdr]
    decide

/-- With the tailer that makes up for it the save does what it is for. -/
theorem sdd_save_replaces_tailer : Replaced smallBoard 0 4096 .normal [3, 4]
    (sectionFlash twoBytesTailer)
    (post (sddSave smallBoard 1 [3, 4] foundSdd) (sectionFlash twoBytesTailer)) := by
  have hhdr : readCells (sectionFlash twoBytesTailer) 0 4096 imageHeaderSize =
      twoBytesTailer.take 64 := by
    decide
  have hvalid : imageCheckHeader (readCells (sectionFlash twoBytesTailer) 0 4096
      imageHeaderSize) = .valid := by
    rw [hhdr]
    decide
  refine (sdd_save_replaces smallBoard_room foundSdd_addr (by decide) foundSdd_header
    (foundSdd_save hvalid)).mpr (.running rfl rfl ?_ ?_ ?_ ?_)
  · rw [hhdr]
    decide
  · rw [hhdr]
    exact ⟨smallChip, rfl, by decide, by decide⟩
  · rw [hhdr]
    decide
  · rw [hhdr]
    intro i hi
    have hsize : (SectionHeader.decode (twoBytesTailer.take 64)).dataSize = 4 := by decide
    rw [hsize] at hi
    unfold dataAfter erasedByte
    dsimp only
    have herases : erasesBlocks smallBoard = true := rfl
    rw [if_neg (by simp only [List.length_cons, List.length_nil]; omega), if_pos herases, blank_and,
      ite_self]

end

end Sdd
end XR806

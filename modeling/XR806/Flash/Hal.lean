import XR806.Nor.Prog
import XR806.Word

/-!
# XR806.Flash.Hal

The flash driver (`hal_flash.c`) and the flash layer of the image module (`flash.c`), as programs
of flash requests. A write goes out in pages of 128 bytes, an erase in blocks; the driver checks
its arguments with 32-bit arithmetic, waits after every command and repeats an erase whose wait
fails. `flash_erase` splits an area into 4K, 32K and 64K blocks by the modes the chip supports.

For arguments inside the device, and with every request granted:

* `halFlashWrite_spec`: the command sequence of a write is `Pieces` of its data;
* `flashErase_spec`: `flash_erase` erases exactly its area, whatever blocks it is split into, if the
  chip has them. `flash_get_erase_block`, which accepts the areas, asks for one size of block only.
-/

namespace XR806
namespace Flash

open Nor

/-- `FlashEraseMode`; its value is the size of a block and the bit in `mEraseSizeSupport`. -/
inductive EraseMode where
  | kb4
  | kb32
  | kb64
  deriving DecidableEq

def EraseMode.size : EraseMode → Nat
  | .kb4 => 4096
  | .kb32 => 32768
  | .kb64 => 65536

structure Chip where
  mSize : Nat
  mEraseSizeSupport : Nat

def Chip.supports (chip : Chip) (mode : EraseMode) : Bool :=
  chip.mEraseSizeSupport &&& mode.size ≠ 0

/-- The modes of `HAL_Flash_Erase`. -/
inductive FlashEraseMode where
  | chip
  | block (mode : EraseMode)
  deriving DecidableEq

/-- The mode's bit in `mEraseSizeSupport`. -/
def FlashEraseMode.value : FlashEraseMode → Nat
  | .chip => 2
  | .block mode => mode.size

/-- `getFlashDev`. -/
abbrev Board := Nat → Option Chip

/-! ## `hal_flash.c` -/

def pageWriteByte : Nat := 128

/-- The loop of `HAL_Flash_Write`. The fuel bounds the number of pages. -/
def writePages (dev : Nat) : Nat → Nat → List Byte → Prog Bool
  | 0, _, _ => pure false
  | fuel + 1, address, left => do
    let ppSize := min left.length (pageWriteByte - address % pageWriteByte)
    let ok ← programReq dev address (left.take ppSize)
    if !ok then pure false
    else do
      -- a wait that fails is only reported when it is the last one
      let ok ← waitReq dev
      if ppSize = left.length then pure ok
      else writePages dev fuel (u32 (address + ppSize)) (left.drop ppSize)

def halFlashWrite (board : Board) (dev addr : Nat) (data : List Byte) : Prog Bool :=
  match board dev with
  | none => pure false
  | some chip =>
    if data.length = 0 ∨ u32 (addr + data.length) > chip.mSize then pure false
    else writePages dev data.length addr data

def halFlashRead (board : Board) (dev addr size : Nat) : Prog (Option (List Byte)) :=
  match board dev with
  | none => pure none
  | some chip =>
    if size = 0 ∨ u32 (addr + size) > chip.mSize then pure none
    else readReq dev addr size

/-- `defaultErase`, which erases for all the chips. -/
def defaultErase (chip : Chip) (dev : Nat) (mode : FlashEraseMode) (eaddr : Nat) : Prog Bool :=
  if chip.mEraseSizeSupport &&& mode.value = 0 then pure false
  else
    match mode with
    | .chip => do
      -- what the driver answers to this one is not looked at
      let _ ← eraseReq dev 0 chip.mSize
      pure true
    | .block mode => eraseReq dev eaddr mode.size

/-- The loop of `HAL_Flash_Erase`. A block whose wait fails is erased again, twice in all. -/
def eraseLoop (chip : Chip) (dev : Nat) (mode : FlashEraseMode) :
    Nat → Nat → Nat → Nat → Bool → Prog Bool
  | 0, _, _, _, ret => pure ret
  | fuel + 1, blkCnt, eaddr, reErase, ret =>
    if blkCnt = 0 then pure ret
    else do
      let ok ← defaultErase chip dev mode eaddr
      if !ok then pure false
      else do
        let ok ← waitReq dev
        if !ok ∧ reErase + 1 < 3 then eraseLoop chip dev mode fuel blkCnt eaddr (reErase + 1) ok
        else
          eraseLoop chip dev mode fuel (blkCnt - 1) (u32 (eaddr + mode.value))
            (if ok then reErase else reErase + 1) ok

def halFlashErase (board : Board) (dev : Nat) (mode : EraseMode) (addr blkCnt : Nat) :
    Prog Bool :=
  match board dev with
  | none => pure false
  | some chip =>
    if u32 (addr + mode.size * blkCnt) > chip.mSize then pure false
    else if addr % mode.size ≠ 0 then pure false
    else eraseLoop chip dev (.block mode) (blkCnt + 2) blkCnt addr 0 false

/-- The start of the block `addr` is in. -/
def halFlashMemoryOf (board : Board) (dev : Nat) (mode : EraseMode) (addr : Nat) : Option Nat :=
  match board dev with
  | none => none
  | some chip => if chip.supports mode then some (addr / mode.size * mode.size) else none

/-! ## `flash.c` -/

/-- `flash_rw` for a write: the number of bytes written. -/
def flashWrite (board : Board) (dev addr : Nat) (data : List Byte) : Prog Nat := do
  let ok ← halFlashWrite board dev addr data
  pure (if ok then data.length else 0)

/-- `flash_rw` for a read; `none` is a read of 0 bytes. -/
def flashRead (board : Board) (dev addr size : Nat) : Prog (Option (List Byte)) :=
  halFlashRead board dev addr size

def fitsBlock (board : Board) (dev addr size : Nat) (mode : EraseMode) : Bool :=
  mode.size ≤ size ∧ size % mode.size = 0 ∧ halFlashMemoryOf board dev mode addr = some addr

/-- The modes in the order of `s_flash_erase_param`. -/
def flashGetEraseBlock (board : Board) (dev addr size : Nat) : Option EraseMode :=
  [.kb64, .kb32, .kb4].find? (fitsBlock board dev addr size)

def alignUp (addr blk : Nat) : Nat := u32 (addr + blk - 1) / blk * blk
def alignDown (addr blk : Nat) : Nat := addr / blk * blk

/-- Mode, start and size of the parts `flash_erase` splits an area into, in the order it erases
them. -/
abbrev ErasePlan := List (EraseMode × Nat × Nat)

def erasePlan64 (addr endAddr : Nat) : ErasePlan :=
  let start64 := alignUp addr 65536
  let end64 := alignDown endAddr 65536
  let aheadStart32 := alignUp addr 32768
  let behindEnd32 := alignDown endAddr 32768
  [(.kb4, addr, sub32 aheadStart32 addr),
    (.kb4, behindEnd32, sub32 endAddr behindEnd32),
    (.kb32, aheadStart32, sub32 start64 aheadStart32),
    (.kb32, end64, sub32 behindEnd32 end64),
    (.kb64, start64, sub32 end64 start64)]

def erasePlan32 (addr endAddr : Nat) : ErasePlan :=
  let aheadStart32 := alignUp addr 32768
  let aheadEnd32 := alignDown endAddr 32768
  [(.kb4, addr, sub32 aheadStart32 addr),
    (.kb4, aheadEnd32, sub32 endAddr aheadEnd32),
    (.kb32, aheadStart32, sub32 aheadEnd32 aheadStart32)]

def erasePlan (chip : Chip) (addr size : Nat) : ErasePlan :=
  if size ≥ EraseMode.kb64.size ∧ chip.supports .kb64 then erasePlan64 addr (u32 (addr + size))
  else if size ≥ EraseMode.kb32.size ∧ chip.supports .kb32 then
    erasePlan32 addr (u32 (addr + size))
  else if size ≥ EraseMode.kb4.size ∧ chip.supports .kb4 then [(.kb4, addr, size)]
  else []

def eraseParts (board : Board) (dev : Nat) : ErasePlan → Prog Bool
  | [] => pure true
  | (mode, start, size) :: rest =>
    if size > 0 then do
      let ok ← halFlashErase board dev mode start (size / mode.size)
      if ok then eraseParts board dev rest else pure false
    else eraseParts board dev rest

/-- `true` is the return value 0. -/
def flashErase (board : Board) (dev addr size : Nat) : Prog Bool :=
  if addr % EraseMode.kb4.size ≠ 0 ∨ size % EraseMode.kb4.size ≠ 0 then pure false
  else
    match board dev with
    | none => pure false
    | some chip => eraseParts board dev (erasePlan chip addr size)

/-! ## Reads and writes inside the device -/

/-- `[addr, addr + size)` is a part of device `dev`. -/
structure Inside (board : Board) (dev addr size : Nat) : Prop where
  chip : ∃ chip, board dev = some chip ∧ addr + size ≤ chip.mSize ∧ chip.mSize < 2 ^ 32

theorem Inside.mono {board : Board} {dev addr size addr' size' : Nat}
    (h : Inside board dev addr size) (h' : addr' + size' ≤ addr + size) :
    Inside board dev addr' size' := by
  obtain ⟨chip, hb, hs, hm⟩ := h.chip
  exact ⟨chip, hb, by omega, hm⟩

theorem Inside.lt {board : Board} {dev addr size : Nat} (h : Inside board dev addr size) :
    addr + size < 2 ^ 32 := by
  obtain ⟨chip, -, hs, hm⟩ := h.chip
  omega

section Inside

variable {board : Board} {dev addr size : Nat}

theorem quiet_flashRead (dev addr size : Nat) : Quiet (flashRead board dev addr size) := by
  unfold flashRead halFlashRead
  split
  · exact quiet_pure _
  · exact (quiet_pure _).ite (quiet_readReq ..)

@[simp] theorem trace_flashRead (c : Cells) : trace (flashRead board dev addr size) c = [] :=
  (quiet_flashRead ..).trace c

@[simp] theorem post_flashRead (c : Cells) : post (flashRead board dev addr size) c = c := by
  simp [post]

/-- A read answers the cells or nothing. -/
theorem ret_flashRead_cases (board : Board) (dev addr size : Nat) (c : Cells) :
    ret (flashRead board dev addr size) c = none ∨
      ret (flashRead board dev addr size) c = some (readCells c dev addr size) := by
  unfold flashRead halFlashRead
  split
  · exact .inl rfl
  · split
    · exact .inl rfl
    · exact .inr rfl

theorem ret_flashRead (h : Inside board dev addr size) (hs : 0 < size) (c : Cells) :
    ret (flashRead board dev addr size) c = some (readCells c dev addr size) := by
  obtain ⟨chip, hb, hle, hm⟩ := h.chip
  rw [flashRead, halFlashRead, hb]
  have hu : u32 (addr + size) = addr + size := u32_of_lt (by omega)
  simp only [hu]
  rw [if_neg (by omega), ret_readReq]

theorem writePages_spec (dev fuel address : Nat) (left : List Byte) (c : Cells)
    (hl : left ≠ []) (hf : left.length ≤ fuel) (ha : address + left.length < 2 ^ 32) :
    ret (writePages dev fuel address left) c = true ∧
      Pieces dev address left (trace (writePages dev fuel address left) c) := by
  induction fuel generalizing address left c with
  | zero => exact absurd (List.length_eq_zero_iff.mp (by omega)) hl
  | succ fuel ih =>
    have hpos : 0 < left.length := List.length_pos_iff.mpr hl
    have hpage : address % pageWriteByte < pageWriteByte := Nat.mod_lt _ (by decide)
    simp only [writePages]
    generalize hpp : min left.length (pageWriteByte - address % pageWriteByte) = pp
    have hpp0 : 0 < pp := by omega
    simp only [ret_bind, trace_bind, ret_programReq, trace_programReq, post_programReq,
      Bool.not_true, Bool.false_eq_true, if_false, ret_waitReq, trace_waitReq, post_waitReq]
    by_cases hlast : pp = left.length
    · rw [if_pos hlast]
      exact ⟨rfl, by simpa [hlast] using Pieces.single dev address left⟩
    · rw [if_neg hlast]
      have hu : u32 (address + pp) = address + pp := u32_of_lt (by omega)
      obtain ⟨h1, h2⟩ := ih (address + pp) (left.drop pp)
        (programCells c dev address (left.take pp)) (by simp; omega) (by simp; omega)
        (by simp; omega)
      rw [hu]
      exact ⟨h1, h2.split (by omega)⟩

theorem halFlashWrite_spec {data : List Byte} (h : Inside board dev addr data.length)
    (hd : data ≠ []) (c : Cells) :
    ret (halFlashWrite board dev addr data) c = true ∧
      Pieces dev addr data (trace (halFlashWrite board dev addr data) c) := by
  obtain ⟨chip, hb, hle, hm⟩ := h.chip
  have hlen : data.length ≠ 0 := fun h0 => hd (List.length_eq_zero_iff.mp h0)
  have hu : u32 (addr + data.length) = addr + data.length := u32_of_lt (by omega)
  rw [halFlashWrite, hb]
  simp only [hu]
  rw [if_neg (by omega)]
  exact writePages_spec dev data.length addr data c hd (Nat.le_refl _) (by omega)

theorem flashWrite_spec (h : Inside board dev addr size) (address : Nat) (data : List Byte)
    (hle : address + data.length ≤ addr + size) (hd : data ≠ []) (c : Cells) :
    ret (flashWrite board dev address data) c = data.length ∧
      Pieces dev address data (trace (flashWrite board dev address data) c) := by
  obtain ⟨h1, h2⟩ := halFlashWrite_spec (h.mono hle) hd c
  simp [flashWrite, h1, h2]

end Inside

/-! ## Erasing inside the device -/

section Erase

variable {board : Board} {chip : Chip} {dev addr size cnt : Nat} {mode : EraseMode}

theorem defaultErase_block (hs : chip.supports mode = true) (eaddr : Nat) :
    defaultErase chip dev (.block mode) eaddr = eraseReq dev eaddr mode.size :=
  if_neg (of_decide_eq_true hs)

theorem defaultErase_refused (hs : chip.supports mode = false) (eaddr : Nat) :
    defaultErase chip dev (.block mode) eaddr = pure false :=
  if_pos (Decidable.not_not.mp (of_decide_eq_false hs))

theorem eraseLoop_spec (hs : chip.supports mode = true) (fuel cnt eaddr re : Nat) (r : Bool)
    (c : Cells) (hf : cnt ≤ fuel) (ha : eaddr + mode.size * cnt < 2 ^ 32) :
    ret (eraseLoop chip dev (.block mode) fuel cnt eaddr re r) c = (if cnt = 0 then r else true) ∧
      trace (eraseLoop chip dev (.block mode) fuel cnt eaddr re r) c =
        eraseBlocks dev mode.size eaddr cnt := by
  induction fuel generalizing cnt eaddr r c with
  | zero =>
    obtain rfl : cnt = 0 := by omega
    exact ⟨rfl, rfl⟩
  | succ fuel ih =>
    cases cnt with
    | zero => exact ⟨rfl, rfl⟩
    | succ cnt =>
      rw [Nat.mul_succ] at ha
      have hu : u32 (eaddr + mode.size) = eaddr + mode.size := by
        refine u32_of_lt (Nat.lt_of_le_of_lt ?_ ha)
        omega
      obtain ⟨h1, h2⟩ := ih cnt (eaddr + mode.size) true (eraseCells c dev eaddr mode.size)
        (by omega) (by omega)
      simp only [eraseLoop, if_neg (Nat.succ_ne_zero cnt), defaultErase_block hs, ret_bind,
        trace_bind, ret_eraseReq, trace_eraseReq, post_eraseReq, Bool.not_true, Bool.false_eq_true,
        if_false, ret_waitReq, trace_waitReq, post_waitReq, false_and, if_true, Nat.add_sub_cancel,
        FlashEraseMode.value, hu, h1, h2]
      exact ⟨by split <;> rfl, rfl⟩

/-- Blocks of a size the chip does not have. -/
theorem eraseLoop_refused (hs : chip.supports mode = false) {fuel eaddr re : Nat} {r : Bool}
    (hc : cnt ≠ 0) : eraseLoop chip dev (.block mode) (fuel + 1) cnt eaddr re r = pure false := by
  rw [eraseLoop, if_neg hc, defaultErase_refused hs]
  rfl

theorem halFlashErase_spec (hb : board dev = some chip) (hs : chip.supports mode = true)
    (h : Inside board dev addr (mode.size * cnt)) (ha : addr % mode.size = 0) (hc : 0 < cnt)
    (c : Cells) : ret (halFlashErase board dev mode addr cnt) c = true ∧
      trace (halFlashErase board dev mode addr cnt) c = eraseBlocks dev mode.size addr cnt := by
  obtain ⟨chip', hb', hle, hm⟩ := h.chip
  obtain rfl := Option.some.inj (hb.symm.trans hb')
  have hu : u32 (addr + mode.size * cnt) = addr + mode.size * cnt := u32_of_lt (by omega)
  rw [halFlashErase, hb]
  simp only [hu]
  rw [if_neg (by omega), if_neg (by omega)]
  obtain ⟨h1, h2⟩ : ret (eraseLoop chip dev (.block mode) (cnt + 2) cnt addr 0 false) c = _ ∧
      trace (eraseLoop chip dev (.block mode) (cnt + 2) cnt addr 0 false) c = _ :=
    eraseLoop_spec hs _ _ _ _ _ c (by omega) (by omega)
  exact ⟨by rw [h1, if_neg (by omega)], h2⟩

theorem halFlashErase_refused (hb : board dev = some chip) (hs : chip.supports mode = false)
    (hc : cnt ≠ 0) : halFlashErase board dev mode addr cnt = pure false := by
  rw [halFlashErase, hb]
  dsimp only
  rw [eraseLoop_refused hs hc, ite_self, ite_self]

/-- A part of an erase plan inside the device. -/
structure GoodPart (board : Board) (dev : Nat) (part : EraseMode × Nat × Nat) : Prop where
  start : part.2.1 % part.1.size = 0
  size : part.2.2 % part.1.size = 0
  inside : Inside board dev part.2.1 part.2.2

/-- The chip has the blocks of the plan. -/
def ErasePlan.Supported (plan : ErasePlan) (chip : Chip) : Prop :=
  ∀ part ∈ plan, 0 < part.2.2 → chip.supports part.1 = true

/-- The commands that erase the parts of a plan. -/
def partWrites (dev : Nat) (parts : ErasePlan) : List Write :=
  parts.flatMap fun part => eraseBlocks dev part.1.size part.2.1 (part.2.2 / part.1.size)

theorem EraseMode.size_pos (mode : EraseMode) : 0 < mode.size := by cases mode <;> decide

/-- The first parts of a plan are erased, up to one of a size the chip does not have. -/
theorem eraseParts_spec {parts : ErasePlan} (hb : board dev = some chip)
    (h : ∀ part ∈ parts, GoodPart board dev part) (c : Cells) :
    ∃ done, done <+: parts ∧ trace (eraseParts board dev parts) c = partWrites dev done ∧
      (ret (eraseParts board dev parts) c = true → done = parts) ∧
      (parts.Supported chip → ret (eraseParts board dev parts) c = true) := by
  induction parts generalizing c with
  | nil => exact ⟨[], List.prefix_refl _, rfl, fun _ => rfl, fun _ => rfl⟩
  | cons part rest ih =>
    obtain ⟨mode, start, size⟩ := part
    obtain ⟨hstart, hsize, hin⟩ := h _ (List.mem_cons_self ..)
    have ih := ih fun part hpart => h part (List.mem_cons_of_mem _ hpart)
    have hrest : ErasePlan.Supported ((mode, start, size) :: rest) chip →
        ErasePlan.Supported rest chip := fun hs part hpart => hs part (List.mem_cons_of_mem _ hpart)
    simp only [eraseParts]
    by_cases hpos : size > 0
    · have hmul : mode.size * (size / mode.size) = size :=
        Nat.mul_div_cancel' (Nat.dvd_of_mod_eq_zero hsize)
      have hcnt : 0 < size / mode.size :=
        Nat.div_pos (Nat.le_of_dvd hpos (Nat.dvd_of_mod_eq_zero hsize)) mode.size_pos
      rw [if_pos hpos]
      cases hs : chip.supports mode with
      | false =>
        rw [halFlashErase_refused hb hs (Nat.pos_iff_ne_zero.mp hcnt)]
        refine ⟨[], List.nil_prefix, rfl, fun hret => absurd hret Bool.false_ne_true,
          fun hall => ?_⟩
        have hhas : chip.supports mode = true := hall _ (List.mem_cons_self ..) hpos
        exact absurd (hhas.symm.trans hs) Bool.false_ne_true.symm
      | true =>
        obtain ⟨h1, h2⟩ := halFlashErase_spec hb hs (by rwa [hmul]) hstart hcnt c
        obtain ⟨done, hdone, htrace, hall, hret⟩ :=
          ih (post (halFlashErase board dev mode start (size / mode.size)) c)
        refine ⟨(mode, start, size) :: done, List.cons_prefix_cons.mpr ⟨rfl, hdone⟩, ?_⟩
        simp only [ret_bind, trace_bind, h1, h2, if_true, htrace]
        exact ⟨rfl, fun h => congrArg _ (hall h), fun h => hret (hrest h)⟩
    · obtain rfl : size = 0 := by omega
      obtain ⟨done, hdone, htrace, hall, hret⟩ := ih c
      rw [if_neg (by omega)]
      refine ⟨(mode, start, 0) :: done, List.cons_prefix_cons.mpr ⟨rfl, hdone⟩, ?_,
        fun h => congrArg _ (hall h), fun h => hret (hrest h)⟩
      rw [htrace, partWrites, partWrites, List.flatMap_cons, Nat.zero_div, eraseBlocks,
        List.nil_append]

end Erase

theorem EraseMode.dvd_size (mode : EraseMode) : 4096 ∣ mode.size := by cases mode <;> decide

theorem onlyErases_partWrites {board : Board} {dev : Nat} {parts : ErasePlan}
    (h : ∀ part ∈ parts, GoodPart board dev part) : OnlyErases 4096 (partWrites dev parts) := by
  intro w hw
  obtain ⟨part, hpart, hw⟩ := List.mem_flatMap.mp hw
  exact onlyErases_eraseBlocks dev _ part.1.dvd_size
    (Nat.dvd_trans part.1.dvd_size (Nat.dvd_of_mod_eq_zero (h part hpart).start)) w hw

/-- `a` is in some part of the plan. -/
def Covers (parts : ErasePlan) (a : Nat) : Prop :=
  ∃ part ∈ parts, part.2.1 ≤ a ∧ a < part.2.1 + part.2.2

theorem covers_cons {part : EraseMode × Nat × Nat} {parts : ErasePlan}
    {a : Nat} : Covers (part :: parts) a ↔
      (part.2.1 ≤ a ∧ a < part.2.1 + part.2.2) ∨ Covers parts a := by
  simp [Covers]

theorem covers_nil {a : Nat} : ¬Covers [] a := by simp [Covers]

theorem confined_partWrites {board : Board} {dev : Nat} {parts : ErasePlan}
    (h : ∀ part ∈ parts, GoodPart board dev part) :
    Confined (fun d a => d = dev ∧ Covers parts a) (partWrites dev parts) := by
  intro w hw d a ht
  obtain ⟨part, hpart, hw⟩ := List.mem_flatMap.mp hw
  obtain ⟨hd, h1, h2⟩ := confined_eraseBlocks _ _ _ _ w hw d a ht
  rw [Nat.mul_div_cancel' (Nat.dvd_of_mod_eq_zero (h part hpart).size)] at h2
  exact ⟨hd, part, hpart, h1, h2⟩

theorem applyAll_partWrites {board : Board} {dev : Nat} {parts : ErasePlan}
    (h : ∀ part ∈ parts, GoodPart board dev part) {c : Cells} {a : Nat} (ha : Covers parts a) :
    applyAll (partWrites dev parts) c dev a = blank := by
  induction parts generalizing c with
  | nil => exact absurd ha covers_nil
  | cons part rest ih =>
    have hrest : ∀ part ∈ rest, GoodPart board dev part :=
      fun part hpart => h part (List.mem_cons_of_mem _ hpart)
    have hpart := h part (List.mem_cons_self ..)
    rw [partWrites, List.flatMap_cons, applyAll_append, applyAll_eraseBlocks,
      Nat.mul_div_cancel' (Nat.dvd_of_mod_eq_zero hpart.size)]
    by_cases hr : Covers rest a
    · exact ih hrest hr
    · rw [show List.flatMap _ rest = partWrites dev rest from rfl,
        applyAll_frame (confined_partWrites hrest) fun hc => hr hc.2]
      obtain ⟨h1, h2⟩ := (covers_cons.mp ha).resolve_right hr
      exact eraseCells_inside h1 h2

/-- A chip can erase the area: it supports the blocks `flash_erase` needs. -/
def Erasable (chip : Chip) (size : Nat) : Prop :=
  chip.supports .kb64 ∧ EraseMode.kb64.size ≤ size ∨
    chip.supports .kb32 ∧ EraseMode.kb32.size ≤ size ∨
    chip.supports .kb4 ∧ EraseMode.kb4.size ≤ size

theorem alignUp_spec (addr blk : Nat) (hblk : 0 < blk) (h : addr + blk ≤ 2 ^ 32) :
    ∃ k, alignUp addr blk = blk * k ∧ addr ≤ blk * k ∧ blk * k < addr + blk := by
  refine ⟨(addr + blk - 1) / blk, ?_, ?_, ?_⟩
  · rw [alignUp, u32_of_lt (by omega), Nat.mul_comm]
  · have := Nat.lt_mul_div_succ (addr + blk - 1) hblk
    rw [Nat.mul_succ] at this
    omega
  · have := Nat.mul_div_le (addr + blk - 1) blk
    omega

theorem alignDown_spec (addr blk : Nat) (hblk : 0 < blk) :
    ∃ k, alignDown addr blk = blk * k ∧ blk * k ≤ addr ∧ addr < blk * k + blk := by
  refine ⟨addr / blk, Nat.mul_comm .., Nat.mul_div_le addr blk, ?_⟩
  have := Nat.lt_mul_div_succ addr hblk
  rwa [Nat.mul_succ] at this

/-- The parts tile the area: every address of it is in one of them, and they are block aligned
and inside. -/
structure Tiles (parts : ErasePlan) (addr size : Nat) : Prop where
  covers : ∀ a, Covers parts a ↔ addr ≤ a ∧ a < addr + size
  parts : ∀ part ∈ parts, part.2.1 % part.1.size = 0 ∧ part.2.2 % part.1.size = 0 ∧
    part.2.1 + part.2.2 ≤ addr + size

theorem tiles_erasePlan64 {addr size : Nat} (ha : addr % 4096 = 0) (hsz : size % 4096 = 0)
    (hlt : addr + size < 2 ^ 32) (h : 65536 ≤ size) :
    Tiles (erasePlan64 addr (addr + size)) addr size := by
  obtain ⟨x, hx, hx1, hx2⟩ := alignUp_spec addr 65536 (by decide) (by omega)
  obtain ⟨y, hy, hy1, hy2⟩ := alignUp_spec addr 32768 (by decide) (by omega)
  obtain ⟨z, hz, hz1, hz2⟩ := alignDown_spec (addr + size) 65536 (by decide)
  obtain ⟨w, hw, hw1, hw2⟩ := alignDown_spec (addr + size) 32768 (by decide)
  simp only [erasePlan64, hx, hy, hz, hw]
  rw [sub32_of_le hy1, sub32_of_le hw1, sub32_of_le (by omega),
    sub32_of_le (by omega), sub32_of_le (by omega)]
  refine ⟨fun a => ?_, ?_⟩
  · simp only [covers_cons, covers_nil, or_false]
    omega
  · simp only [List.forall_mem_cons, List.not_mem_nil, false_implies, implies_true, and_true,
      EraseMode.size]
    omega

theorem tiles_erasePlan32 {addr size : Nat} (ha : addr % 4096 = 0) (hsz : size % 4096 = 0)
    (hlt : addr + size < 2 ^ 32) (h : 32768 ≤ size) :
    Tiles (erasePlan32 addr (addr + size)) addr size := by
  obtain ⟨y, hy, hy1, hy2⟩ := alignUp_spec addr 32768 (by decide) (by omega)
  obtain ⟨w, hw, hw1, hw2⟩ := alignDown_spec (addr + size) 32768 (by decide)
  simp only [erasePlan32, hy, hw]
  rw [sub32_of_le hy1, sub32_of_le hw1, sub32_of_le (by omega)]
  refine ⟨fun a => ?_, ?_⟩
  · simp only [covers_cons, covers_nil, or_false]
    omega
  · simp only [List.forall_mem_cons, List.not_mem_nil, false_implies, implies_true, and_true,
      EraseMode.size]
    omega

theorem tiles_erasePlan {chip : Chip} {addr size : Nat} (ha : addr % 4096 = 0)
    (hsz : size % 4096 = 0) (hlt : addr + size < 2 ^ 32) (he : Erasable chip size) :
    Tiles (erasePlan chip addr size) addr size := by
  unfold erasePlan
  rw [u32_of_lt hlt]
  split
  · rename_i h
    exact tiles_erasePlan64 ha hsz hlt h.1
  split
  · rename_i h
    exact tiles_erasePlan32 ha hsz hlt h.1
  split
  · refine ⟨fun a => ?_, ?_⟩
    · simp only [covers_cons, covers_nil, or_false]
    · simp only [List.forall_mem_cons, List.not_mem_nil, false_implies, implies_true, and_true]
      exact ⟨ha, hsz, Nat.le_refl _⟩
  · rename_i h64 h32 h4
    simp only [Erasable, ge_iff_le] at *
    tauto

/-- What `flash_get_erase_block` accepts can be erased. -/
theorem erasable_of_getEraseBlock {board : Board} {dev addr size : Nat} {mode : EraseMode}
    {chip : Chip} (hb : board dev = some chip)
    (h : flashGetEraseBlock board dev addr size = some mode) :
    Erasable chip size ∧ addr % 4096 = 0 ∧ size % 4096 = 0 ∧ 4096 ≤ size := by
  have hfit := List.find?_some h
  simp only [fitsBlock, halFlashMemoryOf, hb, decide_eq_true_eq] at hfit
  obtain ⟨hle, hmod, hstart⟩ := hfit
  split at hstart
  · rename_i hs
    have hstart := Option.some.inj hstart
    cases mode with
    | kb4 =>
      simp only [EraseMode.size] at hle hmod hstart
      exact ⟨.inr (.inr ⟨hs, hle⟩), by omega, by omega, by omega⟩
    | kb32 =>
      simp only [EraseMode.size] at hle hmod hstart
      exact ⟨.inr (.inl ⟨hs, hle⟩), by omega, by omega, by omega⟩
    | kb64 =>
      simp only [EraseMode.size] at hle hmod hstart
      exact ⟨.inl ⟨hs, hle⟩, by omega, by omega, by omega⟩
  · cases hstart

/-- The area `[addr, addr + size)`: inside the device, and accepted by `flash_get_erase_block`. -/
structure EraseArea (board : Board) (dev addr size : Nat) : Prop where
  inside : Inside board dev addr size
  block : ∃ mode, flashGetEraseBlock board dev addr size = some mode

/-- An area that `flash_erase` divides into blocks the chip has. -/
structure ErasableArea (board : Board) (dev addr size : Nat) : Prop extends
    EraseArea board dev addr size where
  supported : ∀ chip, board dev = some chip → (erasePlan chip addr size).Supported chip

/-- What `flash_erase` does to an area it has a plan for: it erases the area or, when the chip does
not have all the blocks of the plan, a part of it. -/
theorem flashErase_erasable {board : Board} {dev addr size : Nat} {chip : Chip}
    (h : Inside board dev addr size) (hb : board dev = some chip) (he : Erasable chip size)
    (ha : addr % 4096 = 0) (hsz : size % 4096 = 0) (c : Cells) :
    ((erasePlan chip addr size).Supported chip → ret (flashErase board dev addr size) c = true) ∧
      OnlyErases 4096 (trace (flashErase board dev addr size) c) ∧
      Confined (fun d a => d = dev ∧ addr ≤ a ∧ a < addr + size)
        (trace (flashErase board dev addr size) c) ∧
      (ret (flashErase board dev addr size) c = true →
        post (flashErase board dev addr size) c = eraseCells c dev addr size) := by
  have ht := tiles_erasePlan ha hsz h.lt he
  have hgood : ∀ part ∈ erasePlan chip addr size, GoodPart board dev part := fun part hpart =>
    let ⟨h1, h2, h3⟩ := ht.parts part hpart
    ⟨h1, h2, h.mono h3⟩
  obtain ⟨done, hdone, htrace, hall, hret⟩ := eraseParts_spec hb hgood c
  have hpart : ∀ part ∈ done, GoodPart board dev part := fun part hpart =>
    hgood part (hdone.mem hpart)
  have hrun : flashErase board dev addr size = eraseParts board dev (erasePlan chip addr size) := by
    rw [flashErase, hb, if_neg (by simp only [EraseMode.size]; omega)]
  have hconf : Confined (fun d a => d = dev ∧ addr ≤ a ∧ a < addr + size) (partWrites dev done) :=
    (confined_partWrites hpart).mono fun d a ⟨hd, part, hin, hcell⟩ =>
      ⟨hd, (ht.covers a).mp ⟨part, hdone.mem hin, hcell⟩⟩
  rw [hrun]
  refine ⟨hret, by rw [htrace]; exact onlyErases_partWrites hpart, by rw [htrace]; exact hconf,
    fun hok => ?_⟩
  obtain rfl := hall hok
  funext d a
  rw [post, htrace]
  by_cases hin : d = dev ∧ addr ≤ a ∧ a < addr + size
  · obtain ⟨rfl, hin⟩ := hin
    rw [applyAll_partWrites hgood ((ht.covers a).mpr hin), eraseCells_inside hin.1 hin.2]
  · rw [applyAll_frame hconf hin, eraseCells, if_neg hin]

theorem flashErase_cases {board : Board} {dev addr size : Nat} (h : EraseArea board dev addr size)
    (c : Cells) : OnlyErases 4096 (trace (flashErase board dev addr size) c) ∧
      Confined (fun d a => d = dev ∧ addr ≤ a ∧ a < addr + size)
        (trace (flashErase board dev addr size) c) ∧
      (ret (flashErase board dev addr size) c = true →
        post (flashErase board dev addr size) c = eraseCells c dev addr size) := by
  obtain ⟨mode, hmode⟩ := h.block
  obtain ⟨chip, hb, -, -⟩ := h.inside.chip
  obtain ⟨he, ha, hsz, -⟩ := erasable_of_getEraseBlock hb hmode
  exact (flashErase_erasable h.inside hb he ha hsz c).2

theorem flashErase_spec {board : Board} {dev addr size : Nat}
    (h : ErasableArea board dev addr size) (c : Cells) :
    ret (flashErase board dev addr size) c = true ∧
      post (flashErase board dev addr size) c = eraseCells c dev addr size := by
  obtain ⟨mode, hmode⟩ := h.block
  obtain ⟨chip, hb, -, -⟩ := h.inside.chip
  obtain ⟨he, ha, hsz, -⟩ := erasable_of_getEraseBlock hb hmode
  obtain ⟨hret, -, -, hpost⟩ := flashErase_erasable h.inside hb he ha hsz c
  have hok := hret (h.supported chip hb)
  exact ⟨hok, hpost hok⟩

theorem erasePlan_nil {chip : Chip} {addr size : Nat} (h : ¬Erasable chip size) :
    erasePlan chip addr size = [] := by
  simp only [Erasable] at h
  unfold erasePlan
  rw [if_neg (by tauto), if_neg (by tauto), if_neg (by tauto)]

/-- Whatever it is asked for, `flash_erase` erases nothing outside the area. -/
theorem confined_flashErase {board : Board} {dev addr size : Nat} (h : Inside board dev addr size)
    (c : Cells) : Confined (fun d a => d = dev ∧ addr ≤ a ∧ a < addr + size)
      (trace (flashErase board dev addr size) c) := by
  obtain ⟨chip, hb, -, -⟩ := h.chip
  by_cases halign : addr % EraseMode.kb4.size ≠ 0 ∨ size % EraseMode.kb4.size ≠ 0
  · rw [flashErase, if_pos halign]
    exact confined_nil _
  · by_cases he : Erasable chip size
    · simp only [EraseMode.size] at halign
      exact (flashErase_erasable h hb he (by omega) (by omega) c).2.2.1
    · rw [flashErase, if_neg halign, hb]
      dsimp only
      rw [erasePlan_nil he]
      exact confined_nil _

/-! ## Where the driver writes -/

/-- The cells of `[addr, addr + size)`. -/
abbrev InArea (dev addr size : Nat) (d a : Nat) : Prop := d = dev ∧ addr ≤ a ∧ a < addr + size

theorem within_flashWrite {board : Board} {dev addr size address : Nat} {data : List Byte}
    (h : Inside board dev addr size) (h1 : addr ≤ address)
    (h2 : address + data.length ≤ addr + size) :
    Within (InArea dev addr size) (flashWrite board dev address data) where
  confined c := by
    by_cases hd : data = []
    · subst hd
      have hsilent : trace (flashWrite board dev address []) c = [] := by
        rw [flashWrite, trace_bind, halFlashWrite]
        cases board dev <;> rfl
      rw [hsilent]
      exact confined_nil _
    · exact (flashWrite_spec h address data h2 hd c).2.confined.mono fun d a ha => by
        obtain ⟨hdev, h3, h4⟩ := ha
        exact ⟨hdev, by omega, by omega⟩

theorem within_flashErase {board : Board} {dev addr size : Nat} (h : EraseArea board dev addr size) :
    Within (InArea dev addr size) (flashErase board dev addr size) :=
  ⟨fun c => (flashErase_cases h c).2.1⟩

end Flash
end XR806

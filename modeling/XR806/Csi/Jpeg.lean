import XR806.Trans.Along
import Mathlib.Data.List.Chain
import Mathlib.Algebra.Ring.Nat

/-!
# XR806.Csi.Jpeg

The parts in which the JPEG encoder hands over a frame. The encoder writes into a ring of parts and
raises an interrupt when a part is full and when the frame ends; the driver keeps the number of the
part, where in it the frame has come to, and how much of the frame has been handed over. A new
configuration resets one of these only, and an encoder error none. Runs in which the driver is
where the encoder starts whenever a capture starts hand over every frame in contiguous events
(`frames_described`).
-/

namespace XR806
namespace Csi

open Trans (Along along_and along_imp)

/-! ## The driver -/

def add32 (a b : Nat) : Nat := (a + b) % 2 ^ 32

def sub32 (a b : Nat) : Nat := (a + 2 ^ 32 - b) % 2 ^ 32

def align32B (x : Nat) : Nat := (x + 31) / 32 * 32

/-- The length of a frame that ends with `hw` in `HARDWARE_OFFSET`. -/
def encodeLen (hw jpgOutStmOffset : Nat) : Nat :=
  let len := add32 (sub32 hw jpgOutStmOffset) 7 / 8
  (len + 3) / 4 * 4

inductive MemPartNum
  | block2
  | block4
  | block8
  deriving DecidableEq

/-- The value in `mem_part_num`. -/
def MemPartNum.value : MemPartNum → Nat
  | .block2 => 0
  | .block4 => 1
  | .block8 => 2

/-- What the driver uses of a `JPEG_ConfigParam` in memory-part mode. `large` says that the picture
is too large for the shared RAM. -/
structure ConfigParam where
  jpegEn : Bool
  large : Bool
  outstreamBuffOffset : BitVec 32
  outstreamBuffSize : BitVec 32
  outstreamBuffNum : Nat
  memPartNum : MemPartNum

inductive CsiState
  | init
  | ready
  | busy
  deriving DecidableEq

/-- `JPEG_MpartBuffInfo`. -/
structure MpartBuffInfo where
  buffIndex : Nat
  buffOffset : Nat
  tail : Bool
  size : Nat
  deriving DecidableEq

/-- `CSI_JPEG_Priv`, the encoder, and the events of the frame that is being encoded. -/
structure Priv where
  jpgOutBufId : Nat
  jpgOutBufNum : Nat
  jpgOutStmOffset : Nat
  memPartEn : Bool
  memPartNum : Nat
  memPartSize : Nat
  memPartCnt : Nat
  memPartOffSet : Nat
  memCurSize : Nat
  jpgVeEn : Bool
  capRun : Bool
  still : Bool
  state : CsiState
  -- `OUTSTM_OFFSET` in bits, the parts of the encoder, and those it has filled in this frame
  outstmOffset : Nat
  hwPartNum : Nat
  hwPartSize : Nat
  filled : Nat
  frame : List MpartBuffInfo

/-- Behind `HAL_CSI_JPEG_Init`. -/
def Priv.start : Priv :=
  ⟨0, 0, 0, false, 0, 0, 0, 0, 0, false, false, false, .init, 0, 0, 0, 0, []⟩

namespace Priv

def configured (s : Priv) (cfg : ConfigParam) : Priv :=
  let num := 1 <<< (cfg.memPartNum.value + 1)
  { s with
    jpgOutBufNum := if cfg.outstreamBuffNum ≠ 0 then cfg.outstreamBuffNum else 1
    jpgVeEn := cfg.jpegEn
    memPartEn := true
    memPartNum := num
    memPartSize := cfg.outstreamBuffSize.toNat / num
    memPartOffSet := 0 }

/-- `HAL_JPEG_Config`. The registers are not written for a picture that is too large. -/
def config (s : Priv) (cfg : ConfigParam) : Priv :=
  if s.state = .busy then s
  else
    let s := s.configured cfg
    if cfg.jpegEn && cfg.large then s
    else
      { s with
        outstmOffset := cfg.outstreamBuffOffset.toNat
        hwPartNum := s.memPartNum
        hwPartSize := s.memPartSize
        state := .ready
        filled := 0 }

/-- `HAL_CSI_Config`. -/
def csiConfig (s : Priv) : Priv := if s.state = .busy then s else { s with state := .ready }

/-- `HAL_CSI_StartCapture`: a frame begins. -/
def startCapture (s : Priv) (still : Bool) : Priv :=
  if s.state ≠ .ready then s
  else { s with capRun := true, still := still, state := .busy, filled := 0, frame := [] }

/-- `HAL_CSI_StopCapture`. -/
def stopCapture (s : Priv) : Priv := if s.state ≠ .busy then s else { s with capRun := false }

/-- The part interrupt, and its event. -/
def partIrq (s : Priv) : Priv × List MpartBuffInfo :=
  if s.memPartEn then
    let len := sub32 ((s.memPartCnt + 1) * s.memPartSize) s.memPartOffSet
    let info : MpartBuffInfo := ⟨s.jpgOutBufId, s.memPartOffSet, false, len⟩
    let s := { s with
      memPartOffSet := add32 s.memPartOffSet len
      memCurSize := add32 s.memCurSize len
      memPartCnt := s.memPartCnt + 1
      filled := s.filled + 1 }
    (if s.memPartNum ≤ s.memPartCnt then { s with memPartCnt := 0, memPartOffSet := 0 } else s,
      [info])
  else ({ s with filled := s.filled + 1 }, [])

/-- The interrupt at the end of the encoding, its event, and the length that is reported with
`CSI_JPEG_EVENT_VE_END`. -/
def finishIrq (s : Priv) (hw : Nat) : Priv × List MpartBuffInfo × Nat :=
  let len := encodeLen hw s.jpgOutStmOffset
  let bufId := s.jpgOutBufId
  let s := { s with
    jpgOutBufId := if s.jpgOutBufNum ≤ s.jpgOutBufId + 1 then 0 else s.jpgOutBufId + 1 }
  let (s, events) :=
    if s.memPartEn ∧ s.memCurSize ≤ len then
      let info : MpartBuffInfo := ⟨bufId, s.memPartOffSet, true, len - s.memCurSize⟩
      let cnt := if s.memPartNum ≤ s.memPartCnt + 1 then 0 else s.memPartCnt + 1
      let offSet := align32B (s.memPartSize * cnt)
      ({ s with
          memCurSize := 0
          memPartCnt := cnt
          memPartOffSet := offSet
          jpgOutStmOffset := offSet * 8 % 2 ^ 32 }, [info])
    else (s, [])
  ({ s with
      outstmOffset := if s.memPartEn then s.jpgOutStmOffset else 0
      state := if !s.capRun || s.still then .ready else s.state
      filled := 0
      frame := [] }, events, len)

end Priv

/-- The bits of the interrupt status, and how many bytes of the frame have been written. -/
structure Irq where
  err : Bool
  frmEnd : Bool
  memPart : Bool
  encFinish : Bool
  bytes : Nat

namespace Priv

/-- `HARDWARE_OFFSET`. -/
def hardwareOffset (s : Priv) (bytes : Nat) : Nat := s.outstmOffset + 8 * bytes

def frmEndIrq (s : Priv) (i : Irq) : Priv :=
  if i.frmEnd && !s.jpgVeEn && (!s.still || !s.capRun) then { s with state := .ready } else s

def mpartIrq (s : Priv) (i : Irq) : Priv :=
  if i.memPart then { s.partIrq.1 with frame := s.frame ++ s.partIrq.2 } else s

/-- `CSI_JPEG_IRQHandler`: the state behind it, and the events and the length of a frame that has
ended. -/
def irqHandler (s : Priv) (i : Irq) : Priv × Option (List MpartBuffInfo × Nat) :=
  if i.err then ({ s with state := .init, filled := 0, frame := [] }, none)
  else
    let s := (s.frmEndIrq i).mpartIrq i
    if i.encFinish then
      let (s', events, len) := s.finishIrq (s.hardwareOffset i.bytes)
      (s', some (s.frame ++ events, len))
    else (s, none)

end Priv

inductive Event
  | config (cfg : ConfigParam)
  | csiConfig
  | startCapture (still : Bool)
  | stopCapture
  | irq (i : Irq)

def Priv.next (s : Priv) : Event → Priv
  | .config cfg => s.config cfg
  | .csiConfig => s.csiConfig
  | .startCapture still => s.startCapture still
  | .stopCapture => s.stopCapture
  | .irq i => (s.irqHandler i).1

/-! ## What the events of a frame say -/

/-- An event lies inside one of the parts. -/
def InsidePart (num size : Nat) (e : MpartBuffInfo) : Prop :=
  ∃ p < num, p * size ≤ e.buffOffset ∧ e.buffOffset + e.size ≤ (p + 1) * size

/-- Each event begins where the one before has ended. -/
def Contiguous (ring : Nat) (events : List MpartBuffInfo) : Prop :=
  events.IsChain fun a b => (a.buffOffset + a.size) % ring = b.buffOffset

def total (events : List MpartBuffInfo) : Nat := (events.map MpartBuffInfo.size).sum

/-- Events of one buffer that lie inside the parts of a ring and are contiguous. -/
structure Pieces (num size : Nat) (buf : Nat) (events : List MpartBuffInfo) : Prop where
  buffer : ∀ e ∈ events, e.buffIndex = buf
  inside : ∀ e ∈ events, InsidePart num size e
  contiguous : Contiguous (num * size) events

/-- All events of a frame of length `len`. -/
structure Whole (num size : Nat) (events : List MpartBuffInfo) (len : Nat) : Prop where
  pieces : ∃ buf, Pieces num size buf events
  tail : ∃ front last, events = front ++ [last] ∧ last.tail = true ∧ ∀ e ∈ front, e.tail = false
  total : total events = len

/-- The saved part offset lies in the part whose number is saved. -/
structure InPart (s : Priv) : Prop where
  cnt : s.memPartCnt < s.memPartNum
  le : s.memPartCnt * s.memPartSize ≤ s.memPartOffSet
  lt : s.memPartOffSet < (s.memPartCnt + 1) * s.memPartSize

/-- A step leaves the offset in its part, and if it ends a frame it has described it. -/
def Described (s : Priv) (e : Event) : Prop :=
  ((s.next e).memPartEn = true → InPart (s.next e)) ∧
    match e with
    | .irq i => ∀ events len, (s.irqHandler i).2 = some (events, len) →
      Whole s.memPartNum s.memPartSize events len
    | _ => True

/-! ## The encoder -/

/-- The part in which the frame starts. -/
def Priv.firstPart (s : Priv) : Nat := s.outstmOffset / (8 * s.hwPartSize)

/-- The encoder raises one interrupt for each part it fills, while it encodes a frame, and what it
has written fits into `HARDWARE_OFFSET`. -/
def Delivers (s : Priv) : Event → Prop
  | .irq i => (i.memPart ∨ i.encFinish) → i.err = false →
    (s.state = .busy ∧ s.jpgVeEn = true) ∧
      (i.memPart → 8 * ((s.firstPart + s.filled + 1) * s.hwPartSize) + 7 < 2 ^ 32) ∧
      (i.encFinish → s.hardwareOffset i.bytes + 7 < 2 ^ 32 ∧
        s.hardwareOffset i.bytes / (8 * s.hwPartSize) =
          s.firstPart + s.filled + if i.memPart then 1 else 0)
  | _ => True

/-- The start of each part, rounded up to 32 bytes, is in the part, and its offset in bits is a
word. -/
def Layout (num size : Nat) : Prop :=
  8 * (num * size) ≤ 2 ^ 32 ∧ ∀ c < num, align32B (size * c) < size * (c + 1)

/-- The driver is where the encoder starts. -/
structure Synced (s : Priv) : Prop where
  en : s.memPartEn = true
  num : s.hwPartNum = s.memPartNum
  size : s.hwPartSize = s.memPartSize
  layout : Layout s.memPartNum s.memPartSize
  cur : s.memCurSize = 0
  offset : s.jpgOutStmOffset = 8 * s.memPartOffSet
  start : s.jpgOutStmOffset ≤ s.outstmOffset
  first : s.outstmOffset < 8 * ((s.memPartCnt + 1) * s.memPartSize)

/-- A new configuration comes when the saved part is the first and leaves room in it, a capture
starts where the driver is, and the length of a frame, rounded up to a word, does not pass the end
of the part in which the frame ends. -/
def Fits (s : Priv) : Event → Prop
  | .config cfg => s.state ≠ .busy → s.memPartCnt = 0 ∧ 0 < (s.configured cfg).memPartSize
  | .startCapture _ => s.state = .ready → s.jpgVeEn = true → Synced s
  | .irq i => i.encFinish → i.err = false →
    s.jpgOutStmOffset / 8 + (s.hardwareOffset i.bytes - s.jpgOutStmOffset + 31) / 32 * 4 ≤
      (s.hardwareOffset i.bytes / (8 * s.memPartSize) + 1) * s.memPartSize
  | _ => True

/-! ## Where the frame has come to -/

/-- Where the driver has come to in the frame, in bytes from the first start of the ring on. -/
def Priv.pos (s : Priv) : Nat := s.jpgOutStmOffset / 8 + s.memCurSize

/-- The driver follows the encoder. -/
structure Tracks (s : Priv) : Prop where
  en : s.memPartEn = true
  num : s.hwPartNum = s.memPartNum
  size : s.hwPartSize = s.memPartSize
  parts : 0 < s.memPartNum
  layout : Layout s.memPartNum s.memPartSize
  dvd : 8 ∣ s.jpgOutStmOffset
  part : s.pos / s.memPartSize = s.firstPart + s.filled
  reached : 8 * s.pos ≤ s.outstmOffset ∨ s.pos % s.memPartSize = 0
  start : s.jpgOutStmOffset ≤ s.outstmOffset
  cnt : s.memPartCnt = s.pos / s.memPartSize % s.memPartNum
  offset : s.memPartOffSet = s.pos % (s.memPartNum * s.memPartSize)
  pieces : Pieces s.memPartNum s.memPartSize s.jpgOutBufId s.frame
  front : ∀ e ∈ s.frame, e.tail = false
  last : ∀ e ∈ s.frame.getLast?,
    (e.buffOffset + e.size) % (s.memPartNum * s.memPartSize) = s.memPartOffSet
  total : total s.frame = s.memCurSize

theorem Layout.size_pos {num size : Nat} (h : Layout num size) (hn : 0 < num) : 0 < size := by
  have h0 := h.2 0 hn
  rw [Nat.mul_zero] at h0
  exact Nat.pos_of_lt_mul_left (Nat.lt_of_le_of_lt (Nat.zero_le _) h0) |> fun h => by omega

section

variable {s : Priv}

theorem Tracks.size_pos (h : Tracks s) : 0 < s.memPartSize := h.layout.size_pos h.parts

/-- The offset is in the part and as far from its start as the frame has come in it. -/
theorem Tracks.offset_eq (h : Tracks s) :
    s.memPartOffSet = s.memPartCnt * s.memPartSize + s.pos % s.memPartSize := by
  rw [h.offset, h.cnt, Nat.mul_comm s.memPartNum, Nat.mod_mul, Nat.add_comm, Nat.mul_comm]

theorem Tracks.inPart (h : Tracks s) : InPart s := by
  have hm := Nat.mod_lt s.pos h.size_pos
  refine ⟨h.cnt ▸ Nat.mod_lt _ h.parts, ?_, ?_⟩
  · rw [h.offset_eq]
    exact Nat.le_add_right _ _
  · rw [h.offset_eq, Nat.succ_mul]
    exact Nat.add_lt_add_left hm _

theorem Tracks.ring_lt (h : Tracks s) : 8 * ((s.memPartCnt + 1) * s.memPartSize) ≤ 2 ^ 32 :=
  Nat.le_trans (Nat.mul_le_mul_left 8 (Nat.mul_le_mul_right _ h.inPart.cnt)) h.layout.1

theorem sub32_eq {a b : Nat} (h : b ≤ a) (ha : a < 2 ^ 32) : sub32 a b = a - b := by
  rw [sub32]
  omega

theorem add32_eq {a b : Nat} (h : a + b < 2 ^ 32) : add32 a b = a + b := Nat.mod_eq_of_lt h

/-- The rest of a part. -/
theorem Tracks.len_eq (h : Tracks s) :
    sub32 ((s.memPartCnt + 1) * s.memPartSize) s.memPartOffSet =
      s.memPartSize - s.pos % s.memPartSize := by
  have hr := h.ring_lt
  have hm := Nat.mod_lt s.pos h.size_pos
  have ho := h.offset_eq
  rw [sub32_eq (Nat.le_of_lt h.inPart.lt) (by omega), ho, Nat.succ_mul]
  omega

theorem InsidePart.of_offset (h : Tracks s) {e : MpartBuffInfo}
    (ho : e.buffOffset = s.memPartOffSet)
    (hs : s.pos % s.memPartSize + e.size ≤ s.memPartSize) :
    InsidePart s.memPartNum s.memPartSize e := by
  refine ⟨s.memPartCnt, h.inPart.cnt, ho ▸ h.inPart.le, ?_⟩
  rw [ho, h.offset_eq, Nat.succ_mul]
  omega

/-- One more event that begins where the last has ended. -/
theorem Pieces.append {num size buf : Nat} {events : List MpartBuffInfo} {e : MpartBuffInfo}
    (h : Pieces num size buf events) (hb : e.buffIndex = buf) (hi : InsidePart num size e)
    (hl : ∀ x ∈ events.getLast?, (x.buffOffset + x.size) % (num * size) = e.buffOffset) :
    Pieces num size buf (events ++ [e]) := by
  refine ⟨?_, ?_, ?_⟩
  · exact List.forall_mem_append.mpr ⟨h.buffer, List.forall_mem_singleton.mpr hb⟩
  · exact List.forall_mem_append.mpr ⟨h.inside, List.forall_mem_singleton.mpr hi⟩
  · refine List.isChain_append.mpr ⟨h.contiguous, List.isChain_singleton _, fun x hx y hy => ?_⟩
    rw [List.head?_cons, Option.mem_some_iff] at hy
    rw [← hy]
    exact hl x hx

theorem total_append (events : List MpartBuffInfo) (e : MpartBuffInfo) :
    total (events ++ [e]) = total events + e.size := by
  rw [total, List.map_append, List.sum_append, List.map_singleton, List.sum_singleton, total]

/-- The number behind `q` in a ring of `n`. -/
theorem next_mod {n : Nat} (hn : 0 < n) (q : Nat) :
    (q + 1) % n = if n ≤ q % n + 1 then 0 else q % n + 1 := by
  have hq := Nat.mod_lt q hn
  rw [← Nat.mod_add_mod]
  split
  · rw [show q % n + 1 = n by omega, Nat.mod_self]
  · exact Nat.mod_eq_of_lt (by omega)

/-- The start of the part behind the one in which the frame is. -/
def Priv.nextPos (s : Priv) : Nat := (s.pos / s.memPartSize + 1) * s.memPartSize

theorem Tracks.nextPos_eq (h : Tracks s) :
    s.nextPos = s.pos + (s.memPartSize - s.pos % s.memPartSize) := by
  have hm := Nat.mod_lt s.pos h.size_pos
  have hd := Nat.div_add_mod' s.pos s.memPartSize
  rw [Priv.nextPos, Nat.succ_mul]
  omega

theorem Priv.nextPos_mod (s : Priv) :
    s.nextPos % (s.memPartNum * s.memPartSize) =
      (s.pos / s.memPartSize + 1) % s.memPartNum * s.memPartSize :=
  Nat.mul_mod_mul_right _ _ _

/-- The event of a part ends where the next part begins. -/
theorem Tracks.end_mod (h : Tracks s) :
    (s.memPartOffSet + (s.memPartSize - s.pos % s.memPartSize)) %
        (s.memPartNum * s.memPartSize) =
      s.nextPos % (s.memPartNum * s.memPartSize) := by
  rw [h.offset, Nat.mod_add_mod, h.nextPos_eq]

/-- The part interrupt, as long as no counter overflows. -/
theorem Tracks.partIrq_eq (h : Tracks s) (hb : s.nextPos < 2 ^ 32) :
    s.partIrq =
      ({ s with
          memPartOffSet := s.nextPos % (s.memPartNum * s.memPartSize)
          memCurSize := s.memCurSize + (s.memPartSize - s.pos % s.memPartSize)
          memPartCnt := (s.pos / s.memPartSize + 1) % s.memPartNum
          filled := s.filled + 1 },
        [⟨s.jpgOutBufId, s.memPartOffSet, false, s.memPartSize - s.pos % s.memPartSize⟩]) := by
  have hm := Nat.mod_lt s.pos h.size_pos
  have ho := h.offset_eq
  have hr := h.ring_lt
  have hoff : add32 s.memPartOffSet (s.memPartSize - s.pos % s.memPartSize) =
      (s.memPartCnt + 1) * s.memPartSize := by
    rw [Nat.succ_mul s.memPartCnt] at hr ⊢
    rw [add32_eq (by omega)]
    omega
  have hcur : add32 s.memCurSize (s.memPartSize - s.pos % s.memPartSize) =
      s.memCurSize + (s.memPartSize - s.pos % s.memPartSize) := by
    rw [h.nextPos_eq, Priv.pos] at hb
    exact add32_eq (by rw [Priv.pos]; omega)
  rw [Priv.partIrq, if_pos h.en, h.len_eq, s.nextPos_mod, next_mod h.parts, ← h.cnt]
  dsimp only
  rw [hoff, hcur]
  split
  · rw [Nat.zero_mul]
  · rfl

theorem Tracks.partIrq (h : Tracks s) (hb : s.nextPos < 2 ^ 32) :
    Tracks { s.partIrq.1 with frame := s.frame ++ s.partIrq.2 } := by
  have hp := h.size_pos
  have hn := h.nextPos_eq
  have hpos : s.jpgOutStmOffset / 8 +
      (s.memCurSize + (s.memPartSize - s.pos % s.memPartSize)) = s.nextPos := by
    rw [hn, Priv.pos, Nat.add_assoc]
  have hdiv : s.nextPos / s.memPartSize = s.pos / s.memPartSize + 1 := Nat.mul_div_cancel _ hp
  rw [h.partIrq_eq hb]
  refine ⟨h.en, h.num, h.size, h.parts, h.layout, h.dvd, ?_, .inr ?_, h.start, ?_, ?_, ?_, ?_, ?_,
    ?_⟩
  · show (s.jpgOutStmOffset / 8 + (s.memCurSize + _)) / s.memPartSize = s.firstPart + (s.filled + 1)
    rw [hpos, hdiv, h.part, Nat.add_assoc]
  · show (s.jpgOutStmOffset / 8 + (s.memCurSize + _)) % s.memPartSize = 0
    rw [hpos]
    exact Nat.mul_mod_left _ _
  · show _ = (s.jpgOutStmOffset / 8 + (s.memCurSize + _)) / s.memPartSize % s.memPartNum
    rw [hpos, hdiv]
  · show _ = (s.jpgOutStmOffset / 8 + (s.memCurSize + _)) % (s.memPartNum * s.memPartSize)
    rw [hpos]
  · refine h.pieces.append rfl (InsidePart.of_offset h rfl ?_) h.last
    have hm := Nat.mod_lt s.pos hp
    show s.pos % s.memPartSize + (s.memPartSize - s.pos % s.memPartSize) ≤ s.memPartSize
    omega
  · exact List.forall_mem_append.mpr ⟨h.front, List.forall_mem_singleton.mpr rfl⟩
  · intro e he
    rw [List.getLast?_concat, Option.mem_some_iff] at he
    rw [← he]
    exact h.end_mod
  · show Csi.total (s.frame ++ [_]) = _
    rw [total_append, h.total]

/-- A frame begins where the driver is. -/
theorem Synced.tracks (h : Synced s) (hi : InPart s) (hfilled : s.filled = 0)
    (hframe : s.frame = []) : Tracks s := by
  have hn : 0 < s.memPartNum := Nat.lt_of_le_of_lt (Nat.zero_le _) hi.cnt
  have hp := h.layout.size_pos hn
  have hpos : s.pos = s.memPartOffSet := by
    rw [Priv.pos, h.offset, h.cur, Nat.mul_div_cancel_left _ (by omega), Nat.add_zero]
  have hdiv : s.pos / s.memPartSize = s.memPartCnt := by
    rw [hpos]
    exact Nat.div_eq_of_lt_le hi.le hi.lt
  have hfirst : s.firstPart = s.memPartCnt := by
    rw [Priv.firstPart, h.size]
    refine Nat.div_eq_of_lt_le ?_ ?_
    · rw [Nat.mul_left_comm]
      exact Nat.le_trans (Nat.mul_le_mul_left 8 hi.le) (h.offset ▸ h.start)
    · rw [Nat.mul_left_comm]
      exact h.first
  have hlt : s.memPartOffSet < s.memPartNum * s.memPartSize :=
    Nat.lt_of_lt_of_le hi.lt (Nat.mul_le_mul_right _ hi.cnt)
  refine ⟨h.en, h.num, h.size, hn, h.layout, ⟨_, h.offset⟩, ?_, .inl ?_, h.start, ?_, ?_, ?_, ?_,
    ?_, ?_⟩
  · rw [hdiv, hfirst, hfilled, Nat.add_zero]
  · rw [hpos, ← h.offset]
    exact h.start
  · rw [hdiv, Nat.mod_eq_of_lt hi.cnt]
  · rw [hpos, Nat.mod_eq_of_lt hlt]
  · rw [hframe]
    exact ⟨fun _ he => absurd he List.not_mem_nil, fun _ he => absurd he List.not_mem_nil,
      List.isChain_nil⟩
  · rw [hframe]
    exact fun _ he => absurd he List.not_mem_nil
  · rw [hframe]
    exact fun e he => absurd he (Option.not_mem_none e)
  · rw [hframe, h.cur]
    rfl

/-- A frame ends with `hw` in `HARDWARE_OFFSET`. -/
structure Ends (s : Priv) (hw : Nat) : Prop where
  word : hw + 7 < 2 ^ 32
  start : s.outstmOffset ≤ hw
  part : hw / (8 * s.memPartSize) = s.pos / s.memPartSize
  fits : s.jpgOutStmOffset / 8 + (hw - s.jpgOutStmOffset + 31) / 32 * 4 ≤
    (hw / (8 * s.memPartSize) + 1) * s.memPartSize

section

variable {hw : Nat}

theorem Tracks.encodeLen_eq (h : Tracks s) (he : Ends s hw) :
    encodeLen hw s.jpgOutStmOffset = (hw - s.jpgOutStmOffset + 31) / 32 * 4 := by
  have hw' := he.word
  rw [encodeLen, sub32_eq (Nat.le_trans h.start he.start) (by omega), add32_eq (by omega)]
  omega

/-- The encoder has written what the full parts hold. -/
theorem Tracks.pos_le (h : Tracks s) (he : Ends s hw) : 8 * s.pos ≤ hw := by
  obtain hr | hr := h.reached
  · exact Nat.le_trans hr he.start
  · calc 8 * s.pos = s.pos / s.memPartSize * (8 * s.memPartSize) := by
          rw [Nat.mul_left_comm, Nat.div_mul_cancel (Nat.dvd_of_mod_eq_zero hr)]
      _ ≤ hw := by
          rw [← he.part]
          exact Nat.div_mul_le_self _ _

theorem Tracks.cur_le (h : Tracks s) (he : Ends s hw) :
    s.memCurSize ≤ encodeLen hw s.jpgOutStmOffset := by
  have hp := h.pos_le he
  obtain ⟨j, hj⟩ := h.dvd
  rw [Priv.pos, hj] at hp
  rw [h.encodeLen_eq he, hj]
  omega

/-- The tail does not pass the end of its part. -/
theorem Tracks.tail_le (h : Tracks s) (he : Ends s hw) :
    s.pos % s.memPartSize + (encodeLen hw s.jpgOutStmOffset - s.memCurSize) ≤ s.memPartSize := by
  have hm := Nat.mod_lt s.pos h.size_pos
  have hc := h.cur_le he
  have hf := he.fits
  rw [← h.encodeLen_eq he, he.part] at hf
  change _ ≤ s.nextPos at hf
  rw [h.nextPos_eq, Priv.pos] at hf
  rw [Priv.pos] at hm ⊢
  omega

/-- The part behind the one in which the frame ends. -/
def Priv.nextPart (s : Priv) : Nat := (s.pos / s.memPartSize + 1) % s.memPartNum

/-- The interrupt at the end of the encoding, when it reports the tail. -/
theorem Tracks.finishIrq_eq (h : Tracks s) (he : Ends s hw) :
    s.finishIrq hw =
      ({ s with
          jpgOutBufId := if s.jpgOutBufNum ≤ s.jpgOutBufId + 1 then 0 else s.jpgOutBufId + 1
          memCurSize := 0
          memPartCnt := s.nextPart
          memPartOffSet := align32B (s.memPartSize * s.nextPart)
          jpgOutStmOffset := align32B (s.memPartSize * s.nextPart) * 8 % 2 ^ 32
          outstmOffset := align32B (s.memPartSize * s.nextPart) * 8 % 2 ^ 32
          state := if !s.capRun || s.still then .ready else s.state
          filled := 0
          frame := [] },
        [⟨s.jpgOutBufId, s.memPartOffSet, true,
          encodeLen hw s.jpgOutStmOffset - s.memCurSize⟩],
        encodeLen hw s.jpgOutStmOffset) := by
  rw [Priv.finishIrq, Priv.nextPart, next_mod h.parts, ← h.cnt]
  dsimp only
  rw [if_pos ⟨h.en, h.cur_le he⟩]
  dsimp only
  rw [if_pos h.en]

theorem Tracks.finishIrq_inPart (h : Tracks s) (he : Ends s hw) : InPart (s.finishIrq hw).1 := by
  have hc : s.nextPart < s.memPartNum := Nat.mod_lt _ h.parts
  rw [h.finishIrq_eq he]
  refine ⟨hc, ?_, ?_⟩
  · show s.nextPart * s.memPartSize ≤ align32B (s.memPartSize * s.nextPart)
    rw [align32B, Nat.mul_comm]
    omega
  · show align32B (s.memPartSize * s.nextPart) < (s.nextPart + 1) * s.memPartSize
    rw [Nat.mul_comm (s.nextPart + 1)]
    exact h.layout.2 _ hc

/-- The encoder starts the next frame where the driver is. -/
theorem Tracks.finishIrq_synced (h : Tracks s) (he : Ends s hw) : Synced (s.finishIrq hw).1 := by
  have hi := h.finishIrq_inPart he
  rw [h.finishIrq_eq he] at hi ⊢
  have hlt : align32B (s.memPartSize * s.nextPart) * 8 < 2 ^ 32 := by
    have hb := Nat.le_trans (Nat.mul_le_mul_left 8 (Nat.mul_le_mul_right s.memPartSize hi.cnt))
      h.layout.1
    have hl : align32B (s.memPartSize * s.nextPart) < _ := hi.lt
    rw [Nat.mul_comm]
    exact Nat.lt_of_lt_of_le (Nat.mul_lt_mul_of_pos_left hl (by decide)) hb
  refine ⟨h.en, h.num, h.size, h.layout, rfl, ?_, Nat.le_refl _, ?_⟩
  · show align32B (s.memPartSize * s.nextPart) * 8 % 2 ^ 32 = 8 * _
    rw [Nat.mod_eq_of_lt hlt, Nat.mul_comm]
  · show align32B (s.memPartSize * s.nextPart) * 8 % 2 ^ 32 < 8 * _
    rw [Nat.mod_eq_of_lt hlt, Nat.mul_comm]
    exact Nat.mul_lt_mul_of_pos_left hi.lt (by decide)

theorem Tracks.finishIrq (h : Tracks s) (he : Ends s hw) : Tracks (s.finishIrq hw).1 := by
  refine (h.finishIrq_synced he).tracks (h.finishIrq_inPart he) ?_ ?_
  · rw [h.finishIrq_eq he]
  · rw [h.finishIrq_eq he]

/-- The events of a frame that ends. -/
theorem Tracks.whole (h : Tracks s) (he : Ends s hw) :
    Whole s.memPartNum s.memPartSize (s.frame ++ (s.finishIrq hw).2.1) (s.finishIrq hw).2.2 := by
  rw [h.finishIrq_eq he]
  refine ⟨⟨s.jpgOutBufId, h.pieces.append rfl (InsidePart.of_offset h rfl (h.tail_le he)) h.last⟩,
    ⟨_, _, rfl, rfl, h.front⟩, ?_⟩
  rw [total_append, h.total]
  exact Nat.add_sub_cancel' (h.cur_le he)

end

theorem Priv.partIrq_fst (s : Priv) : ∃ cnt offSet cur, s.partIrq.1 =
    { s with
      memPartCnt := cnt, memPartOffSet := offSet, memCurSize := cur, filled := s.filled + 1 } := by
  rw [Priv.partIrq]
  split
  · dsimp only
    split
    · exact ⟨_, _, _, rfl⟩
    · exact ⟨_, _, _, rfl⟩
  · exact ⟨_, _, _, rfl⟩

theorem Priv.frmEndIrq_eq (s : Priv) (i : Irq) : ∃ state, s.frmEndIrq i = { s with state } := by
  rw [Priv.frmEndIrq]
  split
  · exact ⟨_, rfl⟩
  · exact ⟨_, rfl⟩

/-- What a full part, with or without the end of a picture, leaves as it is. -/
theorem Priv.mpartIrq_eq (s : Priv) (i : Irq) :
    ∃ cnt offSet cur state frame, (s.frmEndIrq i).mpartIrq i =
      { s with
        memPartCnt := cnt, memPartOffSet := offSet, memCurSize := cur, state, frame
        filled := s.filled + if i.memPart then 1 else 0 } := by
  obtain ⟨state, he⟩ := s.frmEndIrq_eq i
  obtain ⟨cnt, offSet, cur, hp⟩ := ({ s with state } : Priv).partIrq_fst
  rw [he, Priv.mpartIrq, hp]
  split
  · exact ⟨_, _, _, _, _, rfl⟩
  · exact ⟨_, _, _, _, _, rfl⟩

theorem Tracks.withState (h : Tracks s) (state : CsiState) : Tracks { s with state } :=
  ⟨h.en, h.num, h.size, h.parts, h.layout, h.dvd, h.part, h.reached, h.start, h.cnt, h.offset,
    h.pieces, h.front, h.last, h.total⟩

theorem Tracks.frmEndIrq (h : Tracks s) (i : Irq) : Tracks (s.frmEndIrq i) := by
  rw [Priv.frmEndIrq]
  split
  · exact h.withState _
  · exact h

theorem Tracks.mpartIrq {i : Irq} (h : Tracks s) (hb : i.memPart → s.nextPos < 2 ^ 32) :
    Tracks (s.mpartIrq i) := by
  rw [Priv.mpartIrq]
  split
  · exact h.partIrq (hb ‹_›)
  · exact h

/-- The offset is in its part, and the driver follows the encoder while it encodes. -/
structure Inv (s : Priv) : Prop where
  part : s.memPartEn = true → InPart s
  busy : s.state = .busy → s.jpgVeEn = true → Tracks s

theorem Inv.idle (h : s.memPartEn = true → InPart s) (hs : s.state ≠ .busy) : Inv s :=
  ⟨h, fun hb => absurd hb hs⟩

theorem CsiState.ready_ne_busy : CsiState.ready ≠ .busy := by decide

theorem CsiState.init_ne_busy : CsiState.init ≠ .busy := by decide

theorem Tracks.inv (h : Tracks s) : Inv s := ⟨fun _ => h.inPart, fun _ _ => h⟩

section

variable {i : Irq}

/-- The driver follows the encoder up to the end of the frame. -/
theorem Tracks.before_finish (h : Tracks s)
    (hb : i.memPart → 8 * ((s.firstPart + s.filled + 1) * s.hwPartSize) + 7 < 2 ^ 32) :
    Tracks ((s.frmEndIrq i).mpartIrq i) := by
  refine (h.frmEndIrq i).mpartIrq fun hm => ?_
  have hlt := hb hm
  obtain ⟨state, he⟩ := s.frmEndIrq_eq i
  rw [he]
  show (s.pos / s.memPartSize + 1) * s.memPartSize < 2 ^ 32
  rw [h.part, ← h.size]
  omega

/-- The end of the frame, behind the interrupt for a part that is full at the same time. -/
theorem Tracks.ends (h : Tracks ((s.frmEndIrq i).mpartIrq i)) (hf : Fits s (.irq i))
    (hd : Delivers s (.irq i)) (herr : i.err = false) (hfin : i.encFinish = true) :
    Ends ((s.frmEndIrq i).mpartIrq i)
      (((s.frmEndIrq i).mpartIrq i).hardwareOffset i.bytes) := by
  obtain ⟨-, -, hd⟩ := hd (.inr hfin) herr
  obtain ⟨hword, hpart⟩ := hd hfin
  have hfits := hf hfin herr
  have hp := h.part
  have hs := h.size
  obtain ⟨cnt, offSet, cur, state, frame, he⟩ := s.mpartIrq_eq i
  rw [he] at hp hs ⊢
  refine ⟨hword, Nat.le_add_right _ _, ?_, hfits⟩
  rw [hp]
  show s.hardwareOffset i.bytes / (8 * s.memPartSize) = s.firstPart + (s.filled + _)
  rw [← Nat.add_assoc, ← hpart]
  exact congrArg (fun n => _ / (8 * n)) hs.symm

/-- One interrupt, in a run in which the encoder starts where the driver is. -/
theorem Inv.irq (h : Inv s) (hd : Delivers s (.irq i)) (hf : Fits s (.irq i)) :
    Inv (s.next (.irq i)) ∧ Described s (.irq i) := by
  suffices hs : Inv (s.irqHandler i).1 ∧ ∀ events len, (s.irqHandler i).2 = some (events, len) →
      Whole s.memPartNum s.memPartSize events len from ⟨hs.1, hs.1.part, hs.2⟩
  rw [Priv.irqHandler]
  by_cases herr : i.err = true
  · rw [if_pos herr]
    refine ⟨.idle (fun he => ?_) CsiState.init_ne_busy,
      fun _ _ h => absurd h.symm (Option.some_ne_none _)⟩
    have hi := h.part he
    exact ⟨hi.cnt, hi.le, hi.lt⟩
  · rw [if_neg herr]
    rw [Bool.not_eq_true] at herr
    by_cases hany : i.memPart = true ∨ i.encFinish = true
    · obtain ⟨⟨hbusy, hve⟩, hpart, -⟩ := hd hany herr
      have ht := (h.busy hbusy hve).before_finish hpart
      dsimp only
      split
      · have he := ht.ends hf hd herr ‹_›
        refine ⟨(ht.finishIrq he).inv, fun events len hlen => ?_⟩
        have hw := ht.whole he
        rw [Option.some.injEq, Prod.mk.injEq] at hlen
        rw [hlen.1, hlen.2] at hw
        obtain ⟨cnt, offSet, cur, state, frame, he'⟩ := s.mpartIrq_eq i
        rw [he'] at hw
        exact hw
      · exact ⟨ht.inv, fun _ _ h => absurd h.symm (Option.some_ne_none _)⟩
    · rw [not_or] at hany
      dsimp only
      rw [if_neg hany.2, Priv.mpartIrq, if_neg hany.1, Priv.frmEndIrq]
      refine ⟨?_, fun _ _ h => absurd h.symm (Option.some_ne_none _)⟩
      split
      · exact .idle (fun he => ⟨(h.part he).cnt, (h.part he).le, (h.part he).lt⟩)
          CsiState.ready_ne_busy
      · exact h

end

theorem Inv.config (h : Inv s) {cfg : ConfigParam} (hf : Fits s (.config cfg)) :
    Inv (s.config cfg) := by
  rw [Priv.config]
  split
  · exact h
  · obtain ⟨hc, hp⟩ := hf ‹_›
    have hi : InPart (s.configured cfg) := by
      refine ⟨?_, ?_, ?_⟩
      · show s.memPartCnt < 1 <<< (cfg.memPartNum.value + 1)
        rw [hc, Nat.one_shiftLeft]
        exact Nat.two_pow_pos _
      · show s.memPartCnt * _ ≤ 0
        rw [hc, Nat.zero_mul]
      · show 0 < (s.memPartCnt + 1) * (s.configured cfg).memPartSize
        exact Nat.mul_pos (Nat.succ_pos _) hp
    dsimp only
    split
    · exact .idle (fun _ => hi) ‹_›
    · exact .idle (fun _ => ⟨hi.cnt, hi.le, hi.lt⟩) CsiState.ready_ne_busy

theorem Inv.startCapture (h : Inv s) {still : Bool} (hf : Fits s (.startCapture still)) :
    Inv (s.startCapture still) := by
  rw [Priv.startCapture]
  split
  · exact h
  · have hr : s.state = .ready := Decidable.not_not.mp ‹_›
    refine ⟨fun he => ?_, fun _ hve => ?_⟩
    · have hi := h.part he
      exact ⟨hi.cnt, hi.le, hi.lt⟩
    · have hs := hf hr hve
      have hi := h.part hs.en
      exact Synced.tracks ⟨hs.en, hs.num, hs.size, hs.layout, hs.cur, hs.offset, hs.start, hs.first⟩
        ⟨hi.cnt, hi.le, hi.lt⟩ rfl rfl

theorem Inv.stopCapture (h : Inv s) : Inv s.stopCapture := by
  rw [Priv.stopCapture]
  split
  · exact h
  · refine ⟨fun he => ⟨(h.part he).cnt, (h.part he).le, (h.part he).lt⟩, fun hb hve => ?_⟩
    have ht := h.busy hb hve
    exact ⟨ht.en, ht.num, ht.size, ht.parts, ht.layout, ht.dvd, ht.part, ht.reached, ht.start,
      ht.cnt, ht.offset, ht.pieces, ht.front, ht.last, ht.total⟩

theorem Inv.csiConfig (h : Inv s) : Inv s.csiConfig := by
  rw [Priv.csiConfig]
  split
  · exact h
  · exact .idle (fun he => ⟨(h.part he).cnt, (h.part he).le, (h.part he).lt⟩)
      CsiState.ready_ne_busy

theorem Inv.next (h : Inv s) {e : Event} (hd : Delivers s e) (hf : Fits s e) :
    Inv (s.next e) ∧ Described s e := by
  cases e with
  | config cfg => exact ⟨h.config hf, (h.config hf).part, trivial⟩
  | csiConfig => exact ⟨h.csiConfig, h.csiConfig.part, trivial⟩
  | startCapture still => exact ⟨h.startCapture hf, (h.startCapture hf).part, trivial⟩
  | stopCapture => exact ⟨h.stopCapture, h.stopCapture.part, trivial⟩
  | irq i => exact h.irq hd hf

theorem inv_start : Inv .start :=
  .idle (fun h => absurd h Bool.false_ne_true) CsiState.init_ne_busy

/-- Runs in which a new configuration finds the driver in the first part, and each capture where
the encoder starts: the events of every frame are its contiguous pieces, and the offset stays in
its part. -/
theorem frames_described (events : List Event) (hd : Along Priv.next Delivers .start events)
    (hf : Along Priv.next Fits .start events) : Along Priv.next Described .start events := by
  exact along_imp inv_start (fun _ _ hs h => hs.next h.1 h.2) (along_and.mpr ⟨hd, hf⟩)

/-- Two parts of 1024 bytes. -/
def twoParts : ConfigParam := ⟨true, false, 0, 2048, 1, .block2⟩

def partFull : Irq := ⟨false, false, true, false, 1024⟩

def frameEnd (bytes : Nat) : Irq := ⟨false, true, false, true, bytes⟩

theorem twoParts_layout : Layout 2 1024 := ⟨by decide, by decide⟩

theorem frame_in_two_parts :
    Along Priv.next Described .start
      [.config twoParts, .startCapture true, .irq partFull, .irq (frameEnd 1500)] := by
  refine frames_described _ ⟨trivial, trivial, ?_, ?_, trivial⟩ ⟨?_, ?_, ?_, ?_, trivial⟩
  · exact fun _ _ => ⟨⟨rfl, rfl⟩, fun _ => by decide, fun h => absurd h Bool.false_ne_true⟩
  · exact fun _ _ => ⟨⟨rfl, rfl⟩, fun h => absurd h Bool.false_ne_true, fun _ => by decide⟩
  · exact fun _ => by decide
  · exact fun _ _ => ⟨rfl, rfl, rfl, twoParts_layout, rfl, rfl, by decide, by decide⟩
  · exact fun h => absurd h Bool.false_ne_true
  · exact fun _ _ => by decide

/-- A frame ends in the first part, and the next configuration leaves the number of the second with
the offset of the first. -/
theorem configured_behind_frame :
    ¬∀ events, Along Priv.next Delivers .start events →
      Along Priv.next Described .start events := by
  intro h
  have hd := h [.config twoParts, .startCapture true, .irq (frameEnd 100), .config twoParts]
    ⟨trivial, trivial,
      fun _ _ => ⟨⟨rfl, rfl⟩, fun h => absurd h Bool.false_ne_true, fun _ => by decide⟩,
      trivial, trivial⟩
  exact absurd (hd.2.2.2.1.1 rfl).le (by decide)

end

end Csi
end XR806

import XR806.Trans.Along
import Mathlib.Algebra.Ring.Nat

/-!
# XR806.Chip.Spi

The sessions of one SPI port. To open one takes the lock, the state, two DMA channels and the
configuration, which is compared with the one that was opened last so that it need not be
programmed twice. An open that finds no DMA channel says that it has succeeded, one that cannot
divide the clock has already remembered its configuration, and a transfer does not look at whether
its wait has timed out. Without these, an open that fails leaves the port closed, one that succeeds
has programmed what it was given, and a transfer leaves the port as it found it (`session_kept`).
-/

namespace XR806
namespace Spi

open Trans (Along along_imp)

/-! ## The driver -/

inductive HalStatus
  | ok
  | error
  | busy
  | timeout
  | invalid
  deriving DecidableEq

inductive Status
  | reset
  | ready
  | busy
  | busyTx
  | busyRx
  | busyTxRx
  | error
  deriving DecidableEq

inductive Mode
  | slave
  | master
  deriving DecidableEq

inductive OperationMode
  | dma
  | poll
  deriving DecidableEq

inductive FirstBit
  | msb
  | lsb
  deriving DecidableEq

inductive SclkMode
  | mode0
  | mode1
  | mode2
  | mode3
  deriving DecidableEq

inductive IoMode
  | normal
  | dualRx
  | dualTx
  | quadRx
  | quadTx
  deriving DecidableEq

/-- `SPI_Config`. -/
structure Config where
  mode : Mode
  opMode : OperationMode
  firstBit : FirstBit
  sclk : Nat
  sclkMode : SclkMode
  deriving DecidableEq

/-- `SPI_CONFIG_DEFAULT`. -/
def configDefault : Config := ⟨.master, .poll, .msb, 6000000, .mode0⟩

/-- The fields of `CCTR`. -/
structure Cctr where
  drs : Bool
  cdr1 : Nat
  cdr2 : Nat

/-- The frequency of the device, from that of the module. -/
def Cctr.sclk (c : Cctr) (mclk : Nat) : Nat :=
  if c.drs then mclk / (2 * (c.cdr2 + 1)) else mclk / 2 ^ c.cdr1

/-- The registers that a configuration sets, and the bit of the dual mode. -/
structure Regs where
  mode : Mode
  firstBit : FirstBit
  sclkMode : SclkMode
  cctr : Cctr
  drm : Bool

abbrev Channel := Nat

/-- `SPI_Handler` with its registers, and the DMA channels that are requested and not released. The
lock and the semaphore of the transfers are binary. -/
structure Handler where
  config : Config
  status : Status
  lock : Bool
  txDmaChannel : Option Channel
  rxDmaChannel : Option Channel
  mclk : Nat
  block : Bool
  ioMode : IoMode
  regs : Regs
  held : List Channel

/-- Behind `HAL_SPI_Init`, which sets everything of the default configuration but its clock. -/
def start (mclk : Nat) (cctr : Cctr) : Handler where
  config := configDefault
  status := .ready
  lock := true
  txDmaChannel := none
  rxDmaChannel := none
  mclk := mclk
  block := false
  ioMode := .normal
  regs := ⟨configDefault.mode, configDefault.firstBit, configDefault.sclkMode, cctr, false⟩
  held := []

/-- How often a divisor that is a power of two can be halved. -/
def halvings : Nat → Nat → Nat
  | 0, _ => 0
  | fuel + 1, div => if div = 1 then 0 else halvings fuel (div / 2) + 1

/-- `SPI_SetClkDiv`. -/
def setClkDiv (c : Cctr) (mclk sclk : Nat) : HalStatus × Cctr :=
  if mclk < sclk ∨ sclk = 0 then (.error, c)
  else
    let div := mclk / sclk
    let mod := mclk % sclk
    if mod = 0 ∧ div &&& (div - 1) = 0 then
      (.ok, { c with drs := false, cdr1 := halvings div div % 16 })
    else if mod = 0 ∧ div % 2 = 0 then
      (.ok, { c with drs := true, cdr2 := (div / 2 - 1) % 256 })
    else (.error, c)

namespace Handler

def release (s : Handler) : Option Channel → Handler
  | some c => { s with held := s.held.erase c }
  | none => s

/-- The DMA channels of an open, with what the two requests return, and whether it goes on. -/
def requestDma (s : Handler) (tx rx : Option Channel) : Handler × Bool :=
  match tx with
  | none => ({ s with txDmaChannel := none }, false)
  | some t =>
    match rx with
    | none => ({ s with txDmaChannel := some t, rxDmaChannel := none }, false)
    | some r =>
      ({ s with txDmaChannel := some t, rxDmaChannel := some r, held := r :: t :: s.held }, true)

/-- The part of an open that programs a configuration that is not the remembered one. -/
def program (s : Handler) (config : Config) : Handler × HalStatus :=
  if config = s.config then (s, .ok)
  else
    let (ret, cctr) := setClkDiv s.regs.cctr s.mclk config.sclk
    ({ s with
        config
        regs := { s.regs with
          mode := config.mode, firstBit := config.firstBit, sclkMode := config.sclkMode, cctr } },
      ret)

/-- `HAL_SPI_Open`. Behind the label `init_failed` the lock is free again. -/
def spiOpen (s : Handler) (config : Config) (tx rx : Option Channel) : Handler × HalStatus :=
  if s.lock = false then (s, .error)
  else if s.status ≠ .ready then (s, .error)
  else
    let s := { s with lock := false, status := .busy }
    let (s, requested) := if config.opMode = .dma then s.requestDma tx rx else (s, true)
    if requested then
      let (s, ret) := s.program config
      if ret ≠ .ok then
        let s := if config.opMode = .dma then
            (s.release s.rxDmaChannel).release s.txDmaChannel
          else s
        ({ s with status := .ready, lock := true }, ret)
      else (s, .ok)
    -- `ret` is still what the wait for the lock has returned
    else ({ s with status := .ready, lock := true }, .ok)

/-- `HAL_SPI_Close`. -/
def spiClose (s : Handler) : Handler × HalStatus :=
  if s.status ≠ .busy then (s, .error)
  else
    let s := if s.config.opMode = .dma then
        (s.release s.txDmaChannel).release s.rxDmaChannel
      else s
    ({ s with status := .ready, ioMode := .normal, lock := true }, .ok)

/-- `HAL_SPI_Config`. -/
def spiConfig (s : Handler) (arg : IoMode) : Handler × HalStatus :=
  if arg = .normal ∨ arg = .dualRx then ({ s with ioMode := arg }, .ok) else (s, .error)

def txDMAIntFunc (s : Handler) : Handler :=
  if s.status ≠ .busyTxRx then { s with block := true } else s

def rxDMAIntFunc (s : Handler) : Handler := { s with block := true }

end Handler

/-- When a DMA channel that was started ends: before the wait has ended, behind it but before the
channel is stopped, or not at all. -/
inductive DmaEnd
  | inWait
  | afterWait
  | never
  deriving DecidableEq

/-- What is around a transfer: whether DMA can reach its buffers, when the channels end, what the
FIFO holds each time the driver looks at it, and whether the transfer completes. -/
structure Around where
  reachable : Bool
  txEnd : DmaEnd
  rxEnd : DmaEnd
  txFull : List Bool
  rxCounter : List (BitVec 32)
  rounds : List (BitVec 32 × BitVec 32)
  complete : Bool

/-- The loop of a transmission. -/
def fill : List Bool → BitVec 32 → Option (BitVec 32)
  | txFull, count =>
    if count = 0 then some count
    else
      match txFull with
      | [] => none
      | full :: txFull => fill txFull (if full then count else count - 1)

/-- The loop of a reception. -/
def drain : List (BitVec 32) → BitVec 32 → Option (BitVec 32)
  | rxCounter, count =>
    if count = 0 then some count
    else
      match rxCounter with
      | [] => none
      | len :: rxCounter => drain rxCounter (count - len)

/-- The loop in both directions: in a round the driver writes until it has written everything or
the FIFO is full, and reads until the FIFO is empty. -/
def exchange : List (BitVec 32 × BitVec 32) → BitVec 32 → BitVec 32 → Option (BitVec 32 × BitVec 32)
  | rounds, tx, rx =>
    if tx = 0 ∧ rx = 0 then some (tx, rx)
    else
      match rounds with
      | [] => none
      | (room, len) :: rounds => exchange rounds (if tx ≤ room then 0 else tx - room) (rx - len)

namespace Handler

def dmaEnd (s : Handler) (w tx rx : DmaEnd) : Handler :=
  let s := if tx = w then s.txDMAIntFunc else s
  if rx = w then s.rxDMAIntFunc else s

/-- The wait for the DMA. Its result is not used, and behind it the semaphore is taken. -/
def dmaWait (s : Handler) (tx rx : DmaEnd) : Handler :=
  { s.dmaEnd .inWait tx rx with block := false }.dmaEnd .afterWait tx rx

/-- `SPI_EnableDualMode` and `SPI_DisableDualMode`, in the dual mode. -/
def setDrm (s : Handler) (drm : Bool) : Handler :=
  if s.ioMode = .dualRx then { s with regs := { s.regs with drm } } else s

/-- By DMA, or with the loop of the CPU, if that ends. -/
def move (s : Handler) (a : Around) (tx rx : DmaEnd) (loop : Option (BitVec 32 × BitVec 32)) :
    Option (Handler × BitVec 32 × BitVec 32) :=
  if s.config.opMode = .dma ∧ a.reachable then some (s.dmaWait tx rx, 0, 0)
  else loop.map fun left => (s, left)

/-- `HAL_SPI_Receive`, if it returns. -/
def receive (s : Handler) (size : BitVec 32) (a : Around) : Option (Handler × HalStatus) :=
  if s.status ≠ .busy then some (s, .invalid)
  else
    let s := { s with status := .busyRx }.setDrm true
    match s.move a .never a.rxEnd ((drain a.rxCounter size).map fun left => (0, left)) with
    | some (s, _) =>
      if a.complete then some ({ s.setDrm false with status := .busy }, .ok) else none
    | none => none

/-- `HAL_SPI_Transmit`, if it returns. -/
def transmit (s : Handler) (size : BitVec 32) (a : Around) : Option (Handler × HalStatus) :=
  if s.status ≠ .busy then some (s, .invalid)
  else
    let s := { s with status := .busyTx }
    match s.move a a.txEnd .never ((fill a.txFull size).map fun left => (left, 0)) with
    | some (s, _) => if a.complete then some ({ s with status := .busy }, .ok) else none
    | none => none

/-- `HAL_SPI_TransmitReceive`, if it returns. -/
def transmitReceive (s : Handler) (size : BitVec 32) (a : Around) : Option (Handler × HalStatus) :=
  if s.status ≠ .busy then some (s, .invalid)
  else
    let s := { s with status := .busyTxRx }
    match s.move a a.txEnd a.rxEnd (exchange a.rounds size size) with
    | some (s, tx, rx) =>
      if tx ≠ 0 ∨ rx ≠ 0 then some (s, .error)
      else if a.complete then some ({ s with status := .busy }, .ok)
      else none
    | none => none

end Handler

inductive Event
  | spiOpen (config : Config) (tx rx : Option Channel)
  | spiClose
  | spiConfig (arg : IoMode)
  | receive (size : BitVec 32) (a : Around)
  | transmit (size : BitVec 32) (a : Around)
  | transmitReceive (size : BitVec 32) (a : Around)

def Handler.call (s : Handler) : Event → Option (Handler × HalStatus)
  | .spiOpen config tx rx => some (s.spiOpen config tx rx)
  | .spiClose => some s.spiClose
  | .spiConfig arg => some (s.spiConfig arg)
  | .receive size a => s.receive size a
  | .transmit size a => s.transmit size a
  | .transmitReceive size a => s.transmitReceive size a

/-- One call, if the one before it has returned. -/
def next (s : Option Handler) (e : Event) : Option Handler := do
  let s ← s
  let (s, _) ← s.call e
  some s

/-! ## Sessions -/

structure Closed (s : Handler) : Prop where
  status : s.status = .ready
  lock : s.lock = true
  held : s.held = []

/-- Open, and no transfer in progress. -/
structure Opened (s : Handler) : Prop where
  status : s.status = .busy
  lock : s.lock = false
  drm : s.regs.drm = false

/-- The registers have what the remembered configuration says, but for the clock. -/
structure Modes (s : Handler) : Prop where
  mode : s.regs.mode = s.config.mode
  firstBit : s.regs.firstBit = s.config.firstBit
  sclkMode : s.regs.sclkMode = s.config.sclkMode

/-- The registers have what the remembered configuration says. -/
structure Programmed (s : Handler) : Prop extends Modes s where
  sclk : s.regs.cctr.sclk s.mclk = s.config.sclk

def Event.Transfer : Event → Prop
  | .receive .. | .transmit .. | .transmitReceive .. => True
  | _ => False

/-- What holds of a call that returns with `ret`. -/
structure Kept (s : Handler) (e : Event) (s' : Handler) (ret : HalStatus) : Prop where
  programmed : Programmed s → Programmed s'
  opened : ∀ config tx rx, e = .spiOpen config tx rx → ret = .ok →
    Opened s' ∧ s'.config = config ∧ Programmed s'
  closed : ∀ config tx rx, e = .spiOpen config tx rx → ret ≠ .ok →
    (Closed s → Closed s') ∧ (Opened s → s' = s)
  transfer : e.Transfer → (Opened s → Opened s' ∧ s'.held = s.held ∧ ret = .ok) ∧
    (Closed s → s' = s ∧ ret = .invalid)
  block : s'.block = false

/-- A call that returns keeps the port, its configuration and its lock in step. -/
def InStep : Option Handler → Event → Prop
  | some s, e => ∀ s' ret, s.call e = some (s', ret) → Kept s e s' ret
  | none, _ => True

/-! ## When they are kept -/

/-- The dividers of `CCTR` can divide `mclk` to `sclk`. -/
structure Divides (mclk sclk : Nat) : Prop where
  le : sclk ≤ mclk
  pos : 0 < sclk
  mod : mclk % sclk = 0
  div : mclk / sclk &&& (mclk / sclk - 1) = 0 ∧ mclk / sclk < 2 ^ 16 ∨
    mclk / sclk % 2 = 0 ∧ mclk / sclk ≤ 512

/-- An open gets its DMA channels, and a clock that can be divided or, if it is given the remembered
configuration, one that is divided already. No DMA ends between the wait for it and its stop. -/
def Undisturbed : Option Handler → Event → Prop
  | some s, .spiOpen config tx rx => s.lock = true →
    (config.opMode = .dma → tx ≠ none ∧ rx ≠ none) ∧
      if config = s.config then s.regs.cctr.sclk s.mclk = config.sclk
      else Divides s.mclk config.sclk
  | some s, .receive _ a => s.config.opMode = .dma ∧ a.reachable → a.rxEnd ≠ .afterWait
  | some s, .transmit _ a => s.config.opMode = .dma ∧ a.reachable → a.txEnd ≠ .afterWait
  | some s, .transmitReceive _ a => s.config.opMode = .dma ∧ a.reachable → a.rxEnd ≠ .afterWait
  | _, _ => True

/-! ## The clock -/

theorem halvings_two_pow (fuel k : Nat) (h : k < fuel) : halvings fuel (2 ^ k) = k := by
  induction fuel generalizing k with
  | zero => exact absurd h (Nat.not_lt_zero _)
  | succ fuel ih =>
    rw [halvings]
    cases k with
    | zero => rfl
    | succ k =>
      have hne : 2 ^ (k + 1) ≠ 1 := Nat.ne_of_gt (Nat.one_lt_two_pow (Nat.succ_ne_zero k))
      rw [if_neg hne, Nat.pow_succ, Nat.mul_div_cancel _ Nat.two_pos,
        ih k (Nat.lt_of_succ_lt_succ h)]

/-- A clock that the dividers can make is made. -/
theorem setClkDiv_exact {mclk sclk : Nat} (h : Divides mclk sclk) (c : Cctr) :
    (setClkDiv c mclk sclk).1 = .ok ∧ (setClkDiv c mclk sclk).2.sclk mclk = sclk := by
  obtain ⟨hle, hpos, hmod, hdiv⟩ := h
  have hd : 0 < mclk / sclk := Nat.div_pos hle hpos
  have hq : mclk / (mclk / sclk) = sclk := by
    have hm := Nat.div_add_mod mclk sclk
    rw [hmod, Nat.add_zero] at hm
    exact Nat.div_eq_of_eq_mul_left hd hm.symm
  rw [setClkDiv, if_neg (by omega)]
  dsimp only
  split
  · refine ⟨rfl, ?_⟩
    obtain ⟨k, hk⟩ := (Nat.and_sub_one_eq_zero_iff_isPowerOfTwo (Nat.ne_of_gt hd)).mp
      (And.right ‹_›)
    have hlt : mclk / sclk < 2 ^ 16 := by
      obtain h | h := hdiv
      · exact h.2
      · exact Nat.lt_of_le_of_lt h.2 (by decide)
    rw [hk] at hlt
    show mclk / 2 ^ (halvings (mclk / sclk) (mclk / sclk) % 16) = sclk
    rw [hk, halvings_two_pow _ _ Nat.lt_two_pow_self,
      Nat.mod_eq_of_lt ((Nat.pow_lt_pow_iff_right (by decide)).mp hlt), ← hk, hq]
  · have he : mclk / sclk % 2 = 0 ∧ mclk / sclk ≤ 512 := by
      obtain h | h := hdiv
      · exact absurd (And.intro hmod h.1) ‹_›
      · exact h
    rw [if_pos ⟨hmod, he.1⟩]
    refine ⟨rfl, ?_⟩
    show mclk / (2 * ((mclk / sclk / 2 - 1) % 256 + 1)) = sclk
    rw [show 2 * ((mclk / sclk / 2 - 1) % 256 + 1) = mclk / sclk by omega, hq]

/-! ## One call -/

/-- The DMA channels that an open session has. -/
def Handler.channels (s : Handler) : List Channel :=
  if s.config.opMode = .dma then s.rxDmaChannel.toList ++ s.txDmaChannel.toList else []

structure Inv (s : Handler) : Prop where
  port : Closed s ∨ Opened s ∧ s.held = s.channels
  block : s.block = false
  drm : s.regs.drm = false
  modes : Modes s

theorem inv_start (mclk : Nat) (cctr : Cctr) : Inv (start mclk cctr) :=
  ⟨.inl ⟨rfl, rfl, rfl⟩, rfl, rfl, rfl, rfl, rfl⟩

section

variable {s : Handler}

theorem Opened.not_closed (h : Opened s) : ¬Closed s := fun hc =>
  absurd (hc.lock.symm.trans h.lock) (by decide)

theorem release_eq (s : Handler) (c : Option Channel) :
    s.release c = { s with held := (s.release c).held } := by
  cases c with
  | none => rfl
  | some c => rfl

/-- What a close releases is all that an open has requested. -/
theorem release_held (h : s.held = s.rxDmaChannel.toList ++ s.txDmaChannel.toList) :
    ((s.release s.txDmaChannel).release s.rxDmaChannel).held = [] := by
  cases ht : s.txDmaChannel with
  | none =>
    cases hr : s.rxDmaChannel with
    | none => rw [ht, hr] at h; exact h
    | some r =>
      rw [ht, hr] at h
      show s.held.erase r = []
      rw [h]
      exact List.erase_cons_head r []
  | some t =>
    cases hr : s.rxDmaChannel with
    | none =>
      rw [ht, hr] at h
      show s.held.erase t = []
      rw [h]
      exact List.erase_cons_head t []
    | some r =>
      rw [ht, hr] at h
      show (s.held.erase t).erase r = []
      rw [h]
      show ([r, t].erase t).erase r = []
      rw [List.erase_comm, List.erase_cons_head, List.erase_cons_head]

theorem requestDma_eq {tx rx : Option Channel} (ht : tx ≠ none) (hr : rx ≠ none) :
    s.requestDma tx rx =
      ({ s with
          txDmaChannel := tx, rxDmaChannel := rx, held := rx.toList ++ tx.toList ++ s.held },
        true) := by
  obtain ⟨t, rfl⟩ := Option.ne_none_iff_exists'.mp ht
  obtain ⟨r, rfl⟩ := Option.ne_none_iff_exists'.mp hr
  rfl

/-- A configuration with a clock that can be made is what is programmed and remembered. -/
theorem Modes.program_eq (h : Modes s) {config : Config}
    (hc : if config = s.config then s.regs.cctr.sclk s.mclk = config.sclk
      else Divides s.mclk config.sclk) :
    ∃ cctr : Cctr, cctr.sclk s.mclk = config.sclk ∧
      s.program config =
        ({ s with
            config
            regs := { s.regs with
              mode := config.mode, firstBit := config.firstBit, sclkMode := config.sclkMode,
              cctr } },
          .ok) := by
  rw [Handler.program]
  split at hc
  · rw [if_pos ‹_›]
    refine ⟨s.regs.cctr, hc, ?_⟩
    rename_i he
    rw [he, ← h.mode, ← h.firstBit, ← h.sclkMode]
  · rw [if_neg ‹_›]
    have hd := setClkDiv_exact hc s.regs.cctr
    refine ⟨_, hd.2, ?_⟩
    dsimp only
    rw [hd.1]

/-- An open that is not disturbed. -/
theorem Inv.spiOpen_eq (h : Inv s) (hs : Closed s) {config : Config} {tx rx : Option Channel}
    (hu : Undisturbed (some s) (.spiOpen config tx rx)) :
    ∃ cctr : Cctr, cctr.sclk s.mclk = config.sclk ∧
      s.spiOpen config tx rx =
        ({ s with
            config, lock := false, status := .busy
            txDmaChannel := if config.opMode = .dma then tx else s.txDmaChannel
            rxDmaChannel := if config.opMode = .dma then rx else s.rxDmaChannel
            held := if config.opMode = .dma then rx.toList ++ tx.toList else []
            regs := { s.regs with
              mode := config.mode, firstBit := config.firstBit, sclkMode := config.sclkMode,
              cctr } },
          .ok) := by
  obtain ⟨hreq, hclk⟩ := hu hs.lock
  rw [Handler.spiOpen, if_neg (by rw [hs.lock]; decide), if_neg (not_not.mpr hs.status)]
  dsimp only
  by_cases hd : config.opMode = .dma
  · rw [if_pos hd, requestDma_eq (hreq hd).1 (hreq hd).2]
    have hm : Modes { s with
        lock := false, status := .busy, txDmaChannel := tx, rxDmaChannel := rx
        held := rx.toList ++ tx.toList ++ s.held } :=
      ⟨h.modes.mode, h.modes.firstBit, h.modes.sclkMode⟩
    obtain ⟨cctr, hcctr, hp⟩ := hm.program_eq hclk
    refine ⟨cctr, hcctr, ?_⟩
    dsimp only
    rw [if_pos rfl, hp]
    dsimp only
    rw [if_neg (not_not_intro rfl), hs.held, List.append_nil, if_pos hd, if_pos hd, if_pos hd]
  · rw [if_neg hd]
    have hm : Modes { s with lock := false, status := .busy } :=
      ⟨h.modes.mode, h.modes.firstBit, h.modes.sclkMode⟩
    obtain ⟨cctr, hcctr, hp⟩ := hm.program_eq hclk
    refine ⟨cctr, hcctr, ?_⟩
    dsimp only
    rw [if_pos rfl, hp]
    dsimp only
    rw [if_neg (not_not_intro rfl), if_neg hd, if_neg hd, if_neg hd, hs.held]

theorem Inv.spiOpen (h : Inv s) {config : Config} {tx rx : Option Channel}
    (hu : Undisturbed (some s) (.spiOpen config tx rx)) :
    Inv (s.spiOpen config tx rx).1 ∧
      Kept s (.spiOpen config tx rx) (s.spiOpen config tx rx).1 (s.spiOpen config tx rx).2 := by
  obtain hs | ⟨hs, -⟩ := h.port
  · obtain ⟨cctr, hcctr, he⟩ := h.spiOpen_eq hs hu
    rw [he]
    refine ⟨⟨.inr ⟨⟨rfl, rfl, h.drm⟩, ?_⟩, h.block, h.drm, ⟨rfl, rfl, rfl⟩⟩,
      fun _ => ⟨⟨rfl, rfl, rfl⟩, hcctr⟩, ?_, ?_, False.elim, h.block⟩
    · rw [Handler.channels]
      by_cases hd : config.opMode = .dma
      · rw [if_pos hd, if_pos hd, if_pos hd]
      · show (if config.opMode = .dma then rx.toList ++ tx.toList else []) = _
        rw [if_neg hd]
        exact (if_neg hd).symm
    · rintro _ _ _ ⟨⟩ -
      exact ⟨⟨rfl, rfl, h.drm⟩, rfl, ⟨rfl, rfl, rfl⟩, hcctr⟩
    · exact fun _ _ _ _ hne => absurd rfl hne
  · rw [Handler.spiOpen, if_pos hs.lock]
    refine ⟨h, id, ?_, ?_, False.elim, h.block⟩
    · exact fun _ _ _ _ hr => absurd hr (show HalStatus.error ≠ .ok by decide)
    · exact fun _ _ _ _ _ => ⟨fun hc => absurd hc hs.not_closed, fun _ => rfl⟩

theorem Opened.spiClose_eq (hs : Opened s) (hheld : s.held = s.channels) :
    s.spiClose =
      ({ s with held := [], status := .ready, ioMode := .normal, lock := true }, .ok) := by
  rw [Handler.spiClose, if_neg (not_not_intro hs.status)]
  rw [Handler.channels] at hheld
  dsimp only
  split
  · rw [if_pos ‹_›] at hheld
    rw [release_eq (s.release _), release_held hheld, release_eq s]
  · rw [if_neg ‹_›] at hheld
    rw [hheld]

/-- A call that is neither an open nor a transfer. -/
theorem Kept.of_other {e : Event} {s' : Handler} {ret : HalStatus}
    (he : ∀ config tx rx, e ≠ .spiOpen config tx rx) (ht : ¬e.Transfer)
    (hp : Programmed s → Programmed s') (hb : s'.block = false) : Kept s e s' ret :=
  ⟨hp, fun _ _ _ h => absurd h (he _ _ _), fun _ _ _ h => absurd h (he _ _ _),
    fun h => absurd h ht, hb⟩

theorem Inv.spiClose (h : Inv s) :
    Inv s.spiClose.1 ∧ Kept s .spiClose s.spiClose.1 s.spiClose.2 := by
  obtain hs | ⟨hs, hheld⟩ := h.port
  · rw [Handler.spiClose, if_pos (by rw [hs.status]; decide)]
    exact ⟨h, .of_other (fun _ _ _ he => Event.noConfusion he) id id h.block⟩
  · rw [hs.spiClose_eq hheld]
    have hm := h.modes
    exact ⟨⟨.inl ⟨rfl, rfl, rfl⟩, h.block, h.drm, ⟨hm.mode, hm.firstBit, hm.sclkMode⟩⟩,
      .of_other (fun _ _ _ he => Event.noConfusion he) id
        (fun hp => ⟨⟨hp.mode, hp.firstBit, hp.sclkMode⟩, hp.sclk⟩) h.block⟩

theorem Inv.spiConfig (h : Inv s) (arg : IoMode) :
    Inv (s.spiConfig arg).1 ∧
      Kept s (.spiConfig arg) (s.spiConfig arg).1 (s.spiConfig arg).2 := by
  rw [Handler.spiConfig]
  split
  · have hm := h.modes
    refine ⟨⟨?_, h.block, h.drm, ⟨hm.mode, hm.firstBit, hm.sclkMode⟩⟩,
      .of_other (fun _ _ _ he => Event.noConfusion he) id
        (fun hp => ⟨⟨hp.mode, hp.firstBit, hp.sclkMode⟩, hp.sclk⟩) h.block⟩
    exact h.port.imp (fun hc => ⟨hc.status, hc.lock, hc.held⟩)
      fun ho => ⟨⟨ho.1.status, ho.1.lock, ho.1.drm⟩, ho.2⟩
  · exact ⟨h, .of_other (fun _ _ _ he => Event.noConfusion he) id id h.block⟩

/-! ## Transfers -/

theorem dmaEnd_eq (s : Handler) (w tx rx : DmaEnd) :
    ∃ block, s.dmaEnd w tx rx = { s with block } := by
  have htx : ∃ block, s.txDMAIntFunc = { s with block } := by
    rw [Handler.txDMAIntFunc]
    split
    · exact ⟨_, rfl⟩
    · exact ⟨_, rfl⟩
  obtain ⟨block, htx⟩ := htx
  rw [Handler.dmaEnd, htx]
  by_cases ht : tx = w
  · rw [if_pos ht]
    split
    · exact ⟨_, rfl⟩
    · exact ⟨_, rfl⟩
  · rw [if_neg ht]
    split
    · exact ⟨_, rfl⟩
    · exact ⟨_, rfl⟩

/-- No signal is left by a wait behind which no DMA ends. -/
theorem dmaWait_eq {tx rx : DmaEnd} (htx : tx = .afterWait → s.status = .busyTxRx)
    (hrx : rx ≠ .afterWait) : s.dmaWait tx rx = { s with block := false } := by
  obtain ⟨block, he⟩ := dmaEnd_eq s .inWait tx rx
  rw [Handler.dmaWait, he, Handler.dmaEnd, if_neg hrx]
  split
  · exact if_neg (not_not_intro (htx ‹_›))
  · rfl

theorem exchange_done {rounds : List (BitVec 32 × BitVec 32)} {tx rx : BitVec 32}
    {left : BitVec 32 × BitVec 32} (h : exchange rounds tx rx = some left) :
    left.1 = 0 ∧ left.2 = 0 := by
  induction rounds generalizing tx rx with
  | nil =>
    rw [exchange] at h
    split at h
    · rw [← Option.some.inj h]
      assumption
    · exact absurd h.symm (Option.some_ne_none _)
  | cons round rounds ih =>
    rw [exchange] at h
    split at h
    · rw [← Option.some.inj h]
      assumption
    · exact ih h

/-- What has been moved, if no DMA ends behind its wait. -/
theorem move_eq {a : Around} {tx rx : DmaEnd} {loop : Option (BitVec 32 × BitVec 32)}
    (hb : s.block = false) (hu : s.config.opMode = .dma ∧ a.reachable →
      (tx = .afterWait → s.status = .busyTxRx) ∧ rx ≠ .afterWait)
    {s' : Handler} {left : BitVec 32 × BitVec 32} (hm : s.move a tx rx loop = some (s', left)) :
    s' = s ∧ (left = (0, 0) ∨ loop = some left) := by
  rw [Handler.move] at hm
  split at hm
  · rw [dmaWait_eq (hu ‹_›).1 (hu ‹_›).2, ← hb, Option.some.injEq, Prod.mk.injEq] at hm
    exact ⟨hm.1.symm, .inl hm.2.symm⟩
  · obtain ⟨l, hl, he⟩ := Option.map_eq_some_iff.mp hm
    rw [Prod.mk.injEq] at he
    exact ⟨he.1.symm, .inr (he.2 ▸ hl)⟩

theorem setDrm_eq (s : Handler) (drm : Bool) :
    ∃ d, s.setDrm drm = { s with regs := { s.regs with drm := d } } := by
  rw [Handler.setDrm]
  split
  · exact ⟨_, rfl⟩
  · exact ⟨_, rfl⟩

theorem setDrm_setDrm (hd : s.regs.drm = false) : (s.setDrm true).setDrm false = s := by
  by_cases hio : s.ioMode = .dualRx
  · have ht : s.setDrm true = { s with regs := { s.regs with drm := true } } := if_pos hio
    have hf : { s with regs := { s.regs with drm := true } }.setDrm false =
        { s with regs := { s.regs with drm := false } } := if_pos hio
    rw [ht, hf, ← hd]
  · have ht : ∀ drm, s.setDrm drm = s := fun _ => if_neg hio
    rw [ht, ht]

/-- A reception that returns leaves what it has found. -/
theorem Inv.receive_eq (h : Inv s) (hs : Opened s) {size : BitVec 32} {a : Around}
    (hu : Undisturbed (some s) (.receive size a)) {s' : Handler} {ret : HalStatus}
    (hr : s.receive size a = some (s', ret)) : s' = s ∧ ret = .ok := by
  rw [Handler.receive, if_neg (not_not_intro hs.status)] at hr
  dsimp only at hr
  split at hr
  · rename_i s1 _ hm
    obtain ⟨drm, hs1⟩ := setDrm_eq { s with status := .busyRx } true
    have hb : ({ s with status := .busyRx }.setDrm true).block = false := by
      rw [hs1]
      exact h.block
    obtain ⟨rfl, -⟩ := move_eq hb (fun hd => ⟨fun he => absurd he (by decide), hu (by
      rwa [hs1] at hd)⟩) hm
    rw [setDrm_setDrm (s := { s with status := .busyRx }) h.drm, ← hs.status] at hr
    split at hr
    · rw [Option.some.injEq, Prod.mk.injEq] at hr
      exact ⟨hr.1.symm, hr.2.symm⟩
    · exact absurd hr.symm (Option.some_ne_none _)
  · exact absurd hr.symm (Option.some_ne_none _)

/-- A transmission that returns leaves what it has found. -/
theorem Inv.transmit_eq (h : Inv s) (hs : Opened s) {size : BitVec 32} {a : Around}
    (hu : Undisturbed (some s) (.transmit size a)) {s' : Handler} {ret : HalStatus}
    (hr : s.transmit size a = some (s', ret)) : s' = s ∧ ret = .ok := by
  rw [Handler.transmit, if_neg (not_not_intro hs.status)] at hr
  dsimp only at hr
  split at hr
  · rename_i s1 _ hm
    obtain ⟨rfl, -⟩ := move_eq (s := { s with status := .busyTx }) h.block
      (fun hd => ⟨fun he => absurd he (hu hd), by decide⟩) hm
    split at hr
    · rw [Option.some.injEq, Prod.mk.injEq, ← hs.status] at hr
      exact ⟨hr.1.symm, hr.2.symm⟩
    · exact absurd hr.symm (Option.some_ne_none _)
  · exact absurd hr.symm (Option.some_ne_none _)

/-- A transfer in both directions that returns leaves what it has found, and has moved all. -/
theorem Inv.transmitReceive_eq (h : Inv s) (hs : Opened s) {size : BitVec 32} {a : Around}
    (hu : Undisturbed (some s) (.transmitReceive size a)) {s' : Handler} {ret : HalStatus}
    (hr : s.transmitReceive size a = some (s', ret)) : s' = s ∧ ret = .ok := by
  rw [Handler.transmitReceive, if_neg (not_not_intro hs.status)] at hr
  dsimp only at hr
  split at hr
  · rename_i s1 tx rx hm
    obtain ⟨rfl, hl⟩ := move_eq (s := { s with status := .busyTxRx }) h.block
      (fun hd => ⟨fun _ => rfl, hu hd⟩) hm
    have hz : tx = 0 ∧ rx = 0 := by
      obtain hl | hl := hl
      · exact Prod.mk.inj hl
      · exact exchange_done hl
    rw [if_neg (by rw [hz.1, hz.2]; decide)] at hr
    split at hr
    · rw [Option.some.injEq, Prod.mk.injEq, ← hs.status] at hr
      exact ⟨hr.1.symm, hr.2.symm⟩
    · exact absurd hr.symm (Option.some_ne_none _)
  · exact absurd hr.symm (Option.some_ne_none _)

/-- A transfer that leaves an open port as it was, and is refused by a closed one. -/
theorem Inv.transfer (h : Inv s) {e : Event} {s' : Handler} {ret : HalStatus} (he : e.Transfer)
    (hopen : Opened s → s' = s ∧ ret = .ok) (hclosed : Closed s → s' = s ∧ ret = .invalid) :
    Inv s' ∧ Kept s e s' ret := by
  have hs : s' = s := by
    obtain hc | ⟨ho, -⟩ := h.port
    · exact (hclosed hc).1
    · exact (hopen ho).1
  rw [hs] at hopen hclosed ⊢
  refine ⟨h, id, ?_, ?_, fun _ => ⟨fun ho => ⟨ho, rfl, (hopen ho).2⟩, hclosed⟩, h.block⟩
  · rintro _ _ _ rfl
    exact he.elim
  · rintro _ _ _ rfl
    exact he.elim

theorem Inv.call (h : Inv s) {e : Event} (hu : Undisturbed (some s) e) {s' : Handler}
    {ret : HalStatus} (hc : s.call e = some (s', ret)) : Inv s' ∧ Kept s e s' ret := by
  have hready : ∀ {r : Option (Handler × HalStatus)}, Closed s →
      (if s.status ≠ .busy then some (s, HalStatus.invalid) else r) = some (s', ret) →
      s' = s ∧ ret = .invalid := fun hs hr => by
    rw [if_pos (by rw [hs.status]; decide), Option.some.injEq, Prod.mk.injEq] at hr
    exact ⟨hr.1.symm, hr.2.symm⟩
  cases e with
  | spiOpen config tx rx =>
    rw [Handler.call, Option.some.injEq] at hc
    have hk := h.spiOpen hu
    rwa [hc] at hk
  | spiClose =>
    rw [Handler.call, Option.some.injEq] at hc
    have hk := h.spiClose
    rwa [hc] at hk
  | spiConfig arg =>
    rw [Handler.call, Option.some.injEq] at hc
    have hk := h.spiConfig arg
    rwa [hc] at hk
  | receive size a =>
    exact h.transfer trivial (fun ho => h.receive_eq ho hu hc) fun hs => hready hs hc
  | transmit size a =>
    exact h.transfer trivial (fun ho => h.transmit_eq ho hu hc) fun hs => hready hs hc
  | transmitReceive size a =>
    exact h.transfer trivial (fun ho => h.transmitReceive_eq ho hu hc) fun hs => hready hs hc

/-- In runs that are not disturbed, from a port that has just been initialised, every call that
returns keeps the port, its configuration and its lock in step. -/
theorem session_kept (mclk : Nat) (cctr : Cctr) (events : List Event)
    (hu : Along next Undisturbed (some (start mclk cctr)) events) :
    Along next InStep (some (start mclk cctr)) events := by
  refine along_imp (I := fun s => ∀ s', s = some s' → Inv s') ?_ (fun s e hs hu => ?_) hu
  · rintro _ ⟨⟩
    exact inv_start mclk cctr
  · cases s with
    | none => exact ⟨fun _ he => absurd he.symm (Option.some_ne_none _), trivial⟩
    | some s =>
      refine ⟨fun s' he => ?_, fun s' ret hc => ((hs s rfl).call hu hc).2⟩
      obtain ⟨⟨s1, ret⟩, hc, he⟩ := Option.bind_eq_some_iff.mp he
      rw [← Option.some.inj he]
      exact ((hs s rfl).call hu hc).1

end

def dmaConfig : Config := ⟨.master, .dma, .msb, 6000000, .mode0⟩

def resetCctr : Cctr := ⟨true, 0, 2⟩

/-- A reception that ends in its wait. -/
def inTime : Around := ⟨true, .never, .inWait, [], [], [], true⟩

theorem session_with_reception :
    Along next InStep (some (start 24000000 resetCctr))
      [.spiOpen dmaConfig (some 0) (some 1), .receive 16 inTime, .spiClose] := by
  refine session_kept 24000000 resetCctr _ ⟨fun _ => ⟨fun _ => ⟨by decide, by decide⟩, ?_⟩,
    fun _ => ?_, trivial, trivial⟩
  · rw [if_neg (by decide)]
    exact ⟨by decide, by decide, by decide, .inl (by decide)⟩
  · show DmaEnd.inWait ≠ .afterWait
    decide

/-- With all DMA channels in use, an open says that it has succeeded, and the port is closed. -/
theorem open_without_channel :
    ¬∀ mclk cctr events, Along next InStep (some (start mclk cctr)) events := by
  intro h
  have hk := (h 24000000 resetCctr [.spiOpen dmaConfig none none]).1 _ _ rfl
  exact absurd (hk.opened _ _ _ rfl rfl).1.status (by decide)

end Spi
end XR806

import XR806.Chip.UartDma
import XR806.Trans.Along

/-!
# XR806.Chip.UartReceive

The calls that receive from one UART by interrupts or by DMA, one after the other, and the
interrupts between their steps. A call waits for a semaphore that the interrupt releases when it
has put the last byte, or has timed out on a character. The interrupt may come when the wait has
timed out already, and then the next call finds the semaphore released. When no completion comes so
late, a call returns less than it was asked for only for its own timeout or that of a character, and
what the calls return, one after the other, is what has been read from the FIFO
(`received_in_order`).
-/

namespace XR806
namespace UartReceive

open Trans (Along along_imp)
open UartDma (Byte dataMaxLen)

/-! ## The UART -/

/-- Where a call is: waiting, behind its wait, or behind the end of its interrupt. -/
inductive Phase
  | idle
  | itWait
  | itEnd
  | itOff
  | dmaWait
  | dmaEnd
  deriving DecidableEq

/-- The FIFO, what has been read from it, and what calls have returned. `rxIT->buf` is the list of
bytes that have been put there, and so is the buffer of the DMA. The last fields are about the call
in progress. -/
structure Uart where
  fifo : List Byte
  stream : List Byte
  returned : List Byte
  rxReadyIrq : Bool
  buf : Option (List Byte)
  bufSize : Nat
  itSem : Bool
  dmaSem : Bool
  running : Bool
  byteCnt : Nat
  moved : List Byte
  -- the channel has ended, and its interrupt is pending
  pending : Bool
  phase : Phase
  size : Int
  forever : Bool
  timedOut : Bool
  charTimeout : Bool

def Uart.start : Uart where
  fifo := []
  stream := []
  returned := []
  rxReadyIrq := false
  buf := none
  bufSize := 0
  itSem := false
  dmaSem := false
  running := false
  byteCnt := 0
  moved := []
  pending := false
  phase := .idle
  size := 0
  forever := false
  timedOut := false
  charTimeout := false

/-- The loop of the interrupt handler: the bytes it reads, and the FIFO and `bufSize` behind it. -/
def readFifo : List Byte → Nat → List Byte × List Byte × Nat
  | b :: fifo, n + 1 =>
    let (bytes, fifo, n) := readFifo fifo n
    (b :: bytes, fifo, n)
  | fifo, n => ([], fifo, n)

namespace Uart

def call (u : Uart) (phase : Phase) (size : Int) (forever : Bool) : Uart :=
  { u with phase, size, forever, timedOut := false, charTimeout := false }

/-- `HAL_UART_Receive_IT` up to its wait. -/
def receiveIt (u : Uart) (size : Int) (forever : Bool) : Uart × Option Int :=
  if size ≤ 0 then (u, some (-1))
  else
    ({ u with buf := some [], bufSize := size.toNat, rxReadyIrq := true }.call .itWait size forever,
      none)

/-- `HAL_DMA_Start`. Its result is not looked at. -/
def dmaStart (u : Uart) (size : Int) : Uart :=
  if size > dataMaxLen then u else { u with running := true, byteCnt := size.toNat }

/-- `HAL_UART_Receive_DMA` up to its wait. -/
def receiveDma (u : Uart) (size : Int) (forever : Bool) : Uart × Option Int :=
  if size ≤ 0 then (u, some (-1))
  else ((u.dmaStart size).call .dmaWait size forever, none)

/-- The wait takes the semaphore. -/
def take (u : Uart) : Uart :=
  match u.phase with
  | .itWait => if u.itSem then { u with itSem := false, phase := .itEnd } else u
  | .dmaWait => if u.dmaSem then { u with dmaSem := false, phase := .dmaEnd } else u
  | _ => u

/-- The wait times out. -/
def timeout (u : Uart) : Uart :=
  match u.phase with
  | .itWait =>
    if u.itSem ∨ u.forever then u else { u with timedOut := true, phase := .itEnd }
  | .dmaWait =>
    if u.dmaSem ∨ u.forever then u else { u with timedOut := true, phase := .dmaEnd }
  | _ => u

/-- `UART_DisableRxReadyIRQ` behind the wait. -/
def off (u : Uart) : Uart :=
  match u.phase with
  | .itEnd => { u with rxReadyIrq := false, phase := .itOff }
  | _ => u

/-- The end of a call, and what it returns. -/
def finish (u : Uart) : Uart × Option Int :=
  match u.phase with
  | .itOff =>
    let n := u.size - u.bufSize
    ({ u with
        buf := none, bufSize := 0, phase := .idle
        returned := u.returned ++ (u.buf.getD []).take n.toNat },
      some n)
  | .dmaEnd =>
    let n := u.size - u.byteCnt
    ({ u with
        running := false, moved := [], phase := .idle
        returned := u.returned ++ u.moved.take n.toNat },
      some n)
  | _ => (u, none)

/-- `UART_IRQHandler` for `UART_IID_RX_READY` and `UART_IID_CHAR_TIMEOUT`. -/
def irqHandler (u : Uart) (charTimeout : Bool) : Uart :=
  match u.buf with
  | some w =>
    let (bytes, fifo, n) := readFifo u.fifo u.bufSize
    let u := { u with
      buf := some (w ++ bytes), bufSize := n, fifo, stream := u.stream ++ bytes
      charTimeout := u.charTimeout || charTimeout }
    if n = 0 ∨ charTimeout then { u with rxReadyIrq := false, itSem := true } else u
  | none =>
    -- what nobody receives is discarded
    { u with fifo := [], stream := u.stream ++ u.fifo }

/-- The channel moves a byte, and ends with the last. -/
def dmaMove (u : Uart) : Uart :=
  if u.running ∧ 0 < u.byteCnt then
    match u.fifo with
    | b :: fifo =>
      { u with
        fifo, stream := u.stream ++ [b], moved := u.moved ++ [b], byteCnt := u.byteCnt - 1
        pending := u.pending || u.byteCnt = 1 }
    | [] => u
  else u

/-- `UART_DMAEndCallback`. -/
def dmaEndCallback (u : Uart) : Uart := { u with pending := false, dmaSem := true }

end Uart

/-- A byte comes in, a call begins, its wait ends, the call goes on, and interrupts. -/
inductive Label
  | arrive (b : Byte)
  | receiveIt (size : Int) (forever : Bool)
  | receiveDma (size : Int) (forever : Bool)
  | take
  | timeout
  | off
  | finish
  | irq (charTimeout : Bool)
  | dmaMove
  | dmaEnd

/-- One step, and what a call returns with it. -/
def Uart.step (u : Uart) : Label → Uart × Option Int
  | .arrive b => ({ u with fifo := u.fifo ++ [b] }, none)
  | .receiveIt size forever => if u.phase = .idle then u.receiveIt size forever else (u, none)
  | .receiveDma size forever => if u.phase = .idle then u.receiveDma size forever else (u, none)
  | .take => (u.take, none)
  | .timeout => (u.timeout, none)
  | .off => (u.off, none)
  | .finish => u.finish
  | .irq charTimeout => (if u.rxReadyIrq then u.irqHandler charTimeout else u, none)
  | .dmaMove => (u.dmaMove, none)
  | .dmaEnd => (if u.pending then u.dmaEndCallback else u, none)

def next (u : Uart) (l : Label) : Uart := (u.step l).1

/-! ## What calls return -/

/-- What the call in progress has received. -/
def Uart.inCall (u : Uart) : List Byte := u.buf.getD [] ++ u.moved

/-- A step leaves everything that was read in a call or returned, writes nothing behind the buffer,
and a call that ends with it returns what it has received, less than its size only for its timeout
or that of a character. -/
structure Kept (u : Uart) (l : Label) : Prop where
  stream : (next u l).stream = (next u l).returned ++ (next u l).inCall
  inside : ((next u l).inCall.length : Int) ≤ max 0 (next u l).size
  fewer : l = .finish → ∀ n, (u.step l).2 = some n → n < u.size →
    u.timedOut = true ∨ u.charTimeout = true
  bytes : l = .finish → u.phase = .itOff →
    (u.step l).2 = some (u.inCall.length : Int) ∧ (next u l).returned = u.returned ++ u.inCall

/-- No reception completes between the end of its wait and the end of its interrupt, and no wait
ends between the last byte and its interrupt. -/
def Settles (u : Uart) : Label → Prop
  | .irq charTimeout => u.rxReadyIrq = true → u.phase = .itEnd →
    charTimeout = false ∧ u.fifo.length < u.bufSize
  | .timeout => u.phase = .dmaWait → u.pending = false
  | .dmaMove => u.phase = .dmaEnd → u.running = true → u.byteCnt ≠ 1
  | _ => True

/-! ## The invariant -/

/-- No call receives by interrupts. -/
structure Quiet (u : Uart) : Prop where
  buf : u.buf = none
  irq : u.rxReadyIrq = false
  sem : u.itSem = false

/-- No call receives by DMA. -/
structure Still (u : Uart) : Prop where
  running : u.running = false
  pending : u.pending = false
  sem : u.dmaSem = false
  moved : u.moved = []

/-- A call receives by interrupts. -/
structure Receiving (u : Uart) : Prop where
  still : Still u
  buf : ∃ w, u.buf = some w ∧ (w.length + u.bufSize : Int) = u.size

/-- The interrupt has ended the reception. -/
structure Done (u : Uart) : Prop where
  irq : u.rxReadyIrq = false
  full : u.bufSize = 0 ∨ u.charTimeout = true

/-- A call receives by DMA. The channel does not run for a size that it does not take. -/
structure Moving (u : Uart) : Prop where
  quiet : Quiet u
  moved : if u.running then (u.moved.length + u.byteCnt : Int) = u.size else u.moved = []
  size : 0 ≤ u.size
  ended : u.pending = true ∨ u.dmaSem = true → u.running = true ∧ u.byteCnt = 0
  once : u.dmaSem = true → u.pending = false

def InPhase (u : Uart) : Phase → Prop
  | .idle => Quiet u ∧ Still u
  | .itWait => Receiving u ∧ (u.itSem = true → Done u)
  | .itEnd => Receiving u ∧ u.itSem = false ∧ (u.timedOut = true ∨ Done u)
  | .itOff => Receiving u ∧ u.itSem = false ∧ u.rxReadyIrq = false ∧
    (u.timedOut = true ∨ u.bufSize = 0 ∨ u.charTimeout = true)
  | .dmaWait => Moving u
  | .dmaEnd => Moving u ∧ u.dmaSem = false ∧ u.pending = false ∧
    (u.timedOut = true ∨ u.running = true ∧ u.byteCnt = 0)

structure Inv (u : Uart) : Prop where
  stream : u.stream = u.returned ++ u.inCall
  phase : InPhase u u.phase

theorem inv_start : Inv .start := ⟨rfl, ⟨rfl, rfl, rfl⟩, rfl, rfl, rfl, rfl⟩

section

variable {u : Uart}

theorem Quiet.inCall (h : Quiet u) : u.inCall = u.moved := by
  simp [Uart.inCall, h.buf]

theorem Receiving.inCall (h : Receiving u) :
    u.buf = some u.inCall ∧ (u.inCall.length + u.bufSize : Int) = u.size := by
  obtain ⟨w, hw, hlen⟩ := h.buf
  have hi : u.inCall = w := by simp [Uart.inCall, hw, h.still.moved]
  exact ⟨hi ▸ hw, hi ▸ hlen⟩

theorem Moving.length_le (h : Moving u) : (u.moved.length : Int) ≤ u.size := by
  have hm := h.moved
  have hs := h.size
  split at hm
  · omega
  · simpa [hm] using hs

theorem Inv.inside (h : Inv u) : (u.inCall.length : Int) ≤ max 0 u.size := by
  have hp := h.phase
  have hr : ∀ {u : Uart}, Receiving u → (u.inCall.length : Int) ≤ max 0 u.size := fun h => by
    have := h.inCall.2
    omega
  have hm : ∀ {u : Uart}, Moving u → (u.inCall.length : Int) ≤ max 0 u.size := fun h => by
    have := h.length_le
    rw [h.quiet.inCall]
    omega
  cases hu : u.phase with
  | idle =>
    rw [hu] at hp
    rw [hp.1.inCall, hp.2.moved]
    exact Int.le_max_left _ _
  | itWait => rw [hu] at hp; exact hr hp.1
  | itEnd => rw [hu] at hp; exact hr hp.1
  | itOff => rw [hu] at hp; exact hr hp.1
  | dmaWait => rw [hu] at hp; exact hm hp
  | dmaEnd => rw [hu] at hp; exact hm hp.1

/-! ## The steps of a call -/

theorem readFifo_spec (fifo : List Byte) (n : Nat) :
    (readFifo fifo n).1 ++ (readFifo fifo n).2.1 = fifo ∧
      (readFifo fifo n).1.length + (readFifo fifo n).2.2 = n := by
  induction fifo generalizing n with
  | nil => cases n <;> simp [readFifo]
  | cons b fifo ih =>
    cases n with
    | zero => simp [readFifo]
    | succ n =>
      have hi := ih n
      show b :: ((readFifo fifo n).1 ++ (readFifo fifo n).2.1) = _ ∧
        (readFifo fifo n).1.length + 1 + (readFifo fifo n).2.2 = _
      rw [hi.1]
      exact ⟨rfl, by omega⟩

theorem Inv.receiveIt (h : Inv u) (hi : u.phase = .idle) (size : Int) (forever : Bool) :
    Inv (u.receiveIt size forever).1 := by
  have hp := h.phase
  rw [hi] at hp
  have hc := hp.1.inCall.trans hp.2.moved
  have hstream := h.stream
  rw [Uart.receiveIt]
  split
  · exact h
  · refine ⟨?_, ⟨⟨hp.2.running, hp.2.pending, hp.2.sem, hp.2.moved⟩, [], rfl, ?_⟩, fun hs => ?_⟩
    · rw [hstream, hc]
      simp [Uart.inCall, Uart.call, hp.2.moved]
    · simp [Uart.call]
      omega
    · exact absurd (hp.1.sem.symm.trans hs) Bool.false_ne_true

theorem Inv.receiveDma (h : Inv u) (hi : u.phase = .idle) (size : Int) (forever : Bool) :
    Inv (u.receiveDma size forever).1 := by
  have hp := h.phase
  rw [hi] at hp
  have hstream := h.stream
  rw [Uart.receiveDma]
  split
  · exact h
  · rename_i hs
    rw [Uart.dmaStart]
    have hn : ¬(u.pending = true ∨ u.dmaSem = true) := by simp [hp.2.pending, hp.2.sem]
    split
    · refine ⟨hstream, ⟨⟨hp.1.buf, hp.1.irq, hp.1.sem⟩, ?_, ?_, fun he => absurd he hn, ?_⟩⟩
      · simp [Uart.call, hp.2.running, hp.2.moved]
      · simp [Uart.call]
        omega
      · simp [Uart.call, hp.2.pending]
    · refine ⟨hstream, ⟨⟨hp.1.buf, hp.1.irq, hp.1.sem⟩, ?_, ?_, fun he => absurd he hn, ?_⟩⟩
      · simp [Uart.call, hp.2.moved]
        omega
      · simp [Uart.call]
        omega
      · simp [Uart.call, hp.2.pending]

theorem Inv.take (h : Inv u) : Inv u.take := by
  have hp := h.phase
  rw [Uart.take]
  split
  · rename_i hu
    rw [hu] at hp
    split
    · rename_i hs
      have hd := hp.2 hs
      exact ⟨h.stream, ⟨⟨hp.1.still.running, hp.1.still.pending, hp.1.still.sem,
        hp.1.still.moved⟩, hp.1.buf⟩, rfl, .inr ⟨hd.irq, hd.full⟩⟩
    · exact h
  · rename_i hu
    rw [hu] at hp
    split
    · rename_i hs
      have he := hp.ended (.inr hs)
      refine ⟨h.stream, ⟨⟨hp.quiet.buf, hp.quiet.irq, hp.quiet.sem⟩, hp.moved, hp.size, ?_, ?_⟩,
        rfl, hp.once hs, .inr he⟩
      · exact fun _ => he
      · exact fun hf => absurd hf Bool.false_ne_true
    · exact h
  · exact h

theorem Inv.timeout (h : Inv u) (hs : u.phase = .dmaWait → u.pending = false) :
    Inv u.timeout := by
  have hp := h.phase
  rw [Uart.timeout]
  split
  · rename_i hu
    rw [hu] at hp
    split
    · exact h
    · rename_i hn
      have hsem : u.itSem = false := by simpa using fun he => hn (.inl he)
      exact ⟨h.stream, ⟨⟨hp.1.still.running, hp.1.still.pending, hp.1.still.sem,
        hp.1.still.moved⟩, hp.1.buf⟩, hsem, .inl rfl⟩
  · rename_i hu
    rw [hu] at hp
    split
    · exact h
    · rename_i hn
      have hsem : u.dmaSem = false := by simpa using fun he => hn (.inl he)
      exact ⟨h.stream, ⟨⟨hp.quiet.buf, hp.quiet.irq, hp.quiet.sem⟩, hp.moved, hp.size, hp.ended,
        hp.once⟩, hsem, hs hu, .inl rfl⟩
  · exact h

theorem Inv.off (h : Inv u) : Inv u.off := by
  have hp := h.phase
  rw [Uart.off]
  split
  · rename_i hu
    rw [hu] at hp
    exact ⟨h.stream, ⟨⟨hp.1.still.running, hp.1.still.pending, hp.1.still.sem, hp.1.still.moved⟩,
      hp.1.buf⟩, hp.2.1, rfl, hp.2.2.imp_right fun hd => hd.full⟩
  · exact h

/-- The end of a call by interrupts returns what has been put into its buffer. -/
theorem Inv.finish_it (h : Inv u) (hu : u.phase = .itOff) :
    u.finish =
      ({ u with
          buf := none, bufSize := 0, phase := .idle, returned := u.returned ++ u.inCall },
        some (u.inCall.length : Int)) := by
  have hp := h.phase
  rw [hu] at hp
  have hc := hp.1.inCall
  have hn : u.size - u.bufSize = u.inCall.length := by omega
  simp [Uart.finish, hu, hc.1, hn]

/-- The end of a call by DMA returns what its channel has moved. -/
theorem Moving.finish_dma (hm : Moving u) (hu : u.phase = .dmaEnd) :
    u.finish =
      ({ u with
          running := false, moved := [], phase := .idle, returned := u.returned ++ u.moved },
        some (u.size - u.byteCnt)) := by
  have hmoved := hm.moved
  have ht : u.moved.take (u.size - u.byteCnt).toNat = u.moved := by
    split at hmoved
    · exact List.take_of_length_le (by omega)
    · simp [hmoved]
  simp only [Uart.finish, hu, ht]

theorem Inv.finish (h : Inv u) : Inv u.finish.1 := by
  have hp := h.phase
  have hstream := h.stream
  cases hu : u.phase with
  | itOff =>
    rw [hu] at hp
    rw [h.finish_it hu]
    have hst := hp.1.still
    refine ⟨?_, ⟨rfl, hp.2.2.1, hp.2.1⟩, hst.running, hst.pending, hst.sem, hst.moved⟩
    show u.stream = u.returned ++ u.inCall ++ ([] ++ u.moved)
    simp [hst.moved, hstream]
  | dmaEnd =>
    rw [hu] at hp
    rw [hp.1.finish_dma hu]
    have hq := hp.1.quiet
    refine ⟨?_, ⟨hq.buf, hq.irq, hq.sem⟩, rfl, hp.2.2.1, hp.2.1, rfl⟩
    show u.stream = u.returned ++ u.moved ++ (u.buf.getD [] ++ [])
    simp [hq.buf, hstream, hq.inCall]
  | _ => simpa [Uart.finish, hu] using h

/-! ## The interrupts -/

/-- The interrupt handler, in a call by interrupts. -/
theorem Receiving.irqHandler (hr : Receiving u) (c : Bool) :
    ∃ bytes fifo n, bytes ++ fifo = u.fifo ∧ bytes.length + n = u.bufSize ∧
      u.irqHandler c =
        { u with
          buf := some (u.inCall ++ bytes), bufSize := n, fifo, stream := u.stream ++ bytes
          charTimeout := u.charTimeout || c
          rxReadyIrq := u.rxReadyIrq && !(n = 0 || c)
          itSem := u.itSem || (n = 0 || c) } := by
  have hf := readFifo_spec u.fifo u.bufSize
  refine ⟨_, _, _, hf.1, hf.2, ?_⟩
  simp only [Uart.irqHandler, hr.inCall.1]
  by_cases hd : (readFifo u.fifo u.bufSize).2.2 = 0 ∨ c = true
  · have hb : (decide ((readFifo u.fifo u.bufSize).2.2 = 0) || c) = true := by simpa using hd
    simp [hd, hb]
  · have hb : (decide ((readFifo u.fifo u.bufSize).2.2 = 0) || c) = false := by
      simpa [not_or] using hd
    simp [hd, hb]

theorem Inv.receiving_phase (h : Inv u) (hirq : u.rxReadyIrq = true) :
    u.phase = .itWait ∨ u.phase = .itEnd := by
  have hp := h.phase
  have hquiet : ¬Quiet u := fun hq => absurd (hq.irq.symm.trans hirq) Bool.false_ne_true
  cases hu : u.phase with
  | itWait => exact .inl rfl
  | itEnd => exact .inr rfl
  | idle => rw [hu] at hp; exact absurd hp.1 hquiet
  | itOff => rw [hu] at hp; exact absurd (hp.2.2.1.symm.trans hirq) Bool.false_ne_true
  | dmaWait => rw [hu] at hp; exact absurd hp.quiet hquiet
  | dmaEnd => rw [hu] at hp; exact absurd hp.1.quiet hquiet

theorem Inv.moving_phase (h : Inv u) (hst : ¬Still u) : u.phase = .dmaWait ∨ u.phase = .dmaEnd := by
  have hp := h.phase
  cases hu : u.phase with
  | dmaWait => exact .inl rfl
  | dmaEnd => exact .inr rfl
  | idle => rw [hu] at hp; exact absurd hp.2 hst
  | itWait => rw [hu] at hp; exact absurd hp.1.still hst
  | itEnd => rw [hu] at hp; exact absurd hp.1.still hst
  | itOff => rw [hu] at hp; exact absurd hp.1.still hst

theorem Inv.irq (h : Inv u) {c : Bool} (hs : Settles u (.irq c)) :
    Inv (if u.rxReadyIrq then u.irqHandler c else u) := by
  have hp := h.phase
  have hstream := h.stream
  split
  · rename_i hirq
    have hdone : ¬Done u := fun hd => absurd (hd.irq.symm.trans hirq) Bool.false_ne_true
    have hreceive : Receiving u → ∃ bytes fifo n, bytes ++ fifo = u.fifo ∧
        bytes.length + n = u.bufSize ∧ u.irqHandler c = { u with
          buf := some (u.inCall ++ bytes), bufSize := n, fifo, stream := u.stream ++ bytes
          charTimeout := u.charTimeout || c
          rxReadyIrq := u.rxReadyIrq && !(n = 0 || c)
          itSem := u.itSem || (n = 0 || c) } ∧
        u.stream ++ bytes = u.returned ++ ((u.inCall ++ bytes) ++ u.moved) ∧
        ((u.inCall ++ bytes).length + n : Int) = u.size := fun hr => by
      obtain ⟨bytes, fifo, n, hb, hn, he⟩ := hr.irqHandler c
      refine ⟨bytes, fifo, n, hb, hn, he, ?_, ?_⟩
      · simp [hstream, hr.still.moved]
      · have hlen := hr.inCall.2
        rw [List.length_append]
        omega
    obtain hu | hu := h.receiving_phase hirq
    · rw [hu] at hp
      obtain ⟨bytes, fifo, n, -, -, he, hstr, hlen⟩ := hreceive hp.1
      rw [he]
      have hst := hp.1.still
      refine ⟨hstr, ?_⟩
      show InPhase _ u.phase
      rw [hu]
      refine ⟨⟨⟨hst.running, hst.pending, hst.sem, hst.moved⟩, _, rfl, hlen⟩, fun hsem => ?_⟩
      have hold : u.itSem = false := Bool.eq_false_iff.mpr fun he => hdone (hp.2 he)
      have hd : (decide (n = 0) || c) = true := by simpa [hold] using hsem
      refine ⟨by simp [hd], ?_⟩
      simp only [Bool.or_eq_true, decide_eq_true_eq] at hd ⊢
      exact hd.imp_right .inr
    · rw [hu] at hp
      obtain ⟨bytes, fifo, n, hb, hn, he, hstr, hlen⟩ := hreceive hp.1
      obtain ⟨rfl, hlt⟩ := hs hirq hu
      have hn0 : ¬n = 0 := by
        have := congrArg List.length hb
        rw [List.length_append] at this
        omega
      rw [he]
      have hst := hp.1.still
      refine ⟨hstr, ?_⟩
      show InPhase _ u.phase
      rw [hu]
      refine ⟨⟨⟨hst.running, hst.pending, hst.sem, hst.moved⟩, _, rfl, hlen⟩, ?_, ?_⟩
      · simp [hp.2.1, hn0]
      · exact .inl (hp.2.2.resolve_right hdone)
  · exact h

/-- The next byte of a running channel. -/
theorem Moving.dmaMove (hm : Moving u) {b : Byte} {fifo : List Byte} (hrun : u.running = true)
    (hcnt : 0 < u.byteCnt) (hsem : u.dmaSem = false) :
    Moving { u with
      fifo, stream := u.stream ++ [b], moved := u.moved ++ [b], byteCnt := u.byteCnt - 1
      pending := u.pending || u.byteCnt = 1 } := by
  have hq := hm.quiet
  have hmoved := hm.moved
  rw [if_pos hrun] at hmoved
  refine ⟨⟨hq.buf, hq.irq, hq.sem⟩, ?_, hm.size, fun he => ⟨hrun, ?_⟩, fun hd => ?_⟩
  · rw [if_pos hrun, List.length_append]
    simp
    omega
  · have hpend : u.pending = false := Bool.eq_false_iff.mpr fun hp => by
      have := (hm.ended (.inl hp)).2
      omega
    simp [hpend, hsem] at he
    simp [he]
  · exact absurd (hsem.symm.trans hd) Bool.false_ne_true

theorem Inv.dmaMove (h : Inv u) (hs : Settles u .dmaMove) : Inv u.dmaMove := by
  have hp := h.phase
  have hstream := h.stream
  rw [Uart.dmaMove]
  split
  · rename_i hr
    have hstill : ¬Still u := fun hst => absurd (hst.running.symm.trans hr.1) Bool.false_ne_true
    split
    · rename_i b fifo _
      have hstr : Quiet u → u.stream ++ [b] = u.returned ++ (u.buf.getD [] ++ (u.moved ++ [b])) :=
        fun hq => by simp [hstream, hq.inCall, hq.buf]
      have hsem : Moving u → u.dmaSem = false := fun hm => Bool.eq_false_iff.mpr fun he => by
        have := (hm.ended (.inr he)).2
        omega
      obtain hu | hu := h.moving_phase hstill
      · rw [hu] at hp
        refine ⟨hstr hp.quiet, ?_⟩
        refine (congrArg (InPhase _) hu).mpr ?_
        exact hp.dmaMove hr.1 hr.2 (hsem hp)
      · rw [hu] at hp
        have hne := hs hu hr.1
        refine ⟨hstr hp.1.quiet, ?_⟩
        refine (congrArg (InPhase _) hu).mpr ?_
        refine ⟨hp.1.dmaMove hr.1 hr.2 hp.2.1, hp.2.1, ?_, ?_⟩
        · simp [hp.2.2.1, hne]
        · refine .inl (hp.2.2.2.resolve_right fun hd => ?_)
          have := hd.2
          omega
    · exact h
  · exact h

theorem Inv.dmaEnd (h : Inv u) : Inv (if u.pending then u.dmaEndCallback else u) := by
  have hp := h.phase
  split
  · rename_i hpend
    have hstill : ¬Still u := fun hst =>
      absurd (hst.pending.symm.trans hpend) Bool.false_ne_true
    refine ⟨h.stream, ?_⟩
    show InPhase _ u.phase
    obtain hu | hu := h.moving_phase hstill
    · rw [hu] at hp ⊢
      have hq := hp.quiet
      exact ⟨⟨hq.buf, hq.irq, hq.sem⟩, hp.moved, hp.size, fun _ => hp.ended (.inl hpend),
        fun _ => rfl⟩
    · rw [hu] at hp
      exact absurd (hp.2.2.1.symm.trans hpend) Bool.false_ne_true
  · exact h

theorem Receiving.arrive (h : Receiving u) (fifo : List Byte) : Receiving { u with fifo } :=
  ⟨⟨h.still.running, h.still.pending, h.still.sem, h.still.moved⟩, h.buf⟩

theorem Moving.arrive (h : Moving u) (fifo : List Byte) : Moving { u with fifo } :=
  ⟨⟨h.quiet.buf, h.quiet.irq, h.quiet.sem⟩, h.moved, h.size, h.ended, h.once⟩

theorem InPhase.arrive {p : Phase} (h : InPhase u p) (fifo : List Byte) :
    InPhase { u with fifo } p := by
  cases p with
  | idle =>
    exact ⟨⟨h.1.buf, h.1.irq, h.1.sem⟩, h.2.running, h.2.pending, h.2.sem, h.2.moved⟩
  | itWait => exact ⟨h.1.arrive fifo, fun hs => ⟨(h.2 hs).irq, (h.2 hs).full⟩⟩
  | itEnd => exact ⟨h.1.arrive fifo, h.2.1, h.2.2.imp_right fun hd => ⟨hd.irq, hd.full⟩⟩
  | itOff => exact ⟨h.1.arrive fifo, h.2⟩
  | dmaWait => exact Moving.arrive h fifo
  | dmaEnd => exact ⟨h.1.arrive fifo, h.2⟩

/-- A call that returns less than its size has timed out, or a character has. -/
theorem Inv.fewer (h : Inv u) {n : Int} (hn : u.finish.2 = some n) (hlt : n < u.size) :
    u.timedOut = true ∨ u.charTimeout = true := by
  have hp := h.phase
  cases hu : u.phase with
  | itOff =>
    rw [hu] at hp
    rw [h.finish_it hu, Option.some.injEq] at hn
    have hlen := hp.1.inCall.2
    exact hp.2.2.2.imp_right fun hd => hd.resolve_left (by omega)
  | dmaEnd =>
    rw [hu] at hp
    rw [hp.1.finish_dma hu, Option.some.injEq] at hn
    refine .inl (hp.2.2.2.resolve_right fun hd => ?_)
    have := hd.2
    omega
  | _ => simp [Uart.finish, hu] at hn

theorem Inv.next (h : Inv u) {l : Label} (hs : Settles u l) : Inv (next u l) ∧ Kept u l := by
  have hi : Inv (UartReceive.next u l) := by
    cases l with
    | arrive b => exact ⟨h.stream, h.phase.arrive _⟩
    | receiveIt size forever =>
      rw [UartReceive.next, Uart.step]
      split
      · exact h.receiveIt ‹_› size forever
      · exact h
    | receiveDma size forever =>
      rw [UartReceive.next, Uart.step]
      split
      · exact h.receiveDma ‹_› size forever
      · exact h
    | take => exact h.take
    | timeout => exact h.timeout hs
    | off => exact h.off
    | finish => exact h.finish
    | irq c => exact h.irq hs
    | dmaMove => exact h.dmaMove hs
    | dmaEnd => exact h.dmaEnd
  refine ⟨hi, hi.stream, hi.inside, ?_, ?_⟩
  · rintro rfl n hn hlt
    exact h.fewer hn hlt
  · rintro rfl hu
    simp [UartReceive.next, Uart.step, h.finish_it hu]

/-- In runs in which no completion comes too late, calls return in order what has been read from
the FIFO, and less than they were asked for only when they or a character have timed out. -/
theorem received_in_order (labels : List Label)
    (hs : Along UartReceive.next Settles .start labels) :
    Along UartReceive.next Kept .start labels :=
  along_imp inv_start (fun _ _ hi hl => hi.next hl) hs

end

/-- A call times out behind its first byte, and the next one gets two; and so do two by DMA. -/
theorem received_behind_timeout :
    Along next Kept .start
      [.receiveIt 2 false, .arrive 1, .irq false, .timeout, .off, .finish,
        .receiveIt 2 true, .arrive 2, .arrive 3, .irq false, .take, .off, .finish,
        .receiveDma 2 false, .arrive 4, .dmaMove, .timeout, .finish,
        .receiveDma 2 true, .arrive 5, .arrive 6, .dmaMove, .dmaMove, .dmaEnd, .take, .finish] := by
  refine received_in_order _ ?_
  simp [Along, Settles, next, Uart.step, Uart.receiveIt, Uart.receiveDma, Uart.dmaStart, dataMaxLen,
    Uart.call, Uart.start, Uart.irqHandler, readFifo, Uart.take, Uart.timeout, Uart.off,
    Uart.dmaMove, Uart.finish]

/-- The last byte comes when the call has timed out, and the next call returns at once. -/
theorem late_completion :
    ¬∀ labels, Along next Kept .start labels := by
  intro h
  have hk := h [.receiveIt 1 false, .timeout, .arrive 1, .irq false, .off, .finish,
    .receiveIt 1 true, .take, .off, .finish]
  simp only [Along] at hk
  have hf := hk.2.2.2.2.2.2.2.2.2.1.fewer rfl 0 rfl (by decide)
  exact absurd hf (by decide)

end UartReceive
end XR806

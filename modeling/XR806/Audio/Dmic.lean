import XR806.Audio.I2s
import Mathlib.Algebra.Group.Nat.Defs

/-!
# XR806.Audio.Dmic

The DMIC driver: sessions, and reads of a buffer that the DMA fills half by half. A read goes on
from `lastReadPointer`, half by half, and so keeps in step with the DMA as long as it takes each
half before the next interrupt. When both halves are complete it goes by `dmaPointer`, which nothing
sets, and always reads the lower one; behind a wait it counts both off and reads on from where it
was. `HAL_DMIC_Open` marks the driver open before it has a buffer and a channel, and leaves the mark
when it gets none.

While none of that happens a read returns the half that was completed last (`dmic_kept`).
-/

namespace XR806
namespace Audio
namespace Dmic

open I2s (Half)
open Trans (Along along_foldl)

/-! ## The driver -/

inductive HalStatus
  | ok
  | error
  | invalid
  deriving DecidableEq

/-- Where a call of `HAL_DMIC_Read_DMA` is, with the number of the halves that it has left: behind
the copy of one, with the interrupts enabled again, or in its wait. -/
inductive Reader
  | idle
  | copied (n : Nat) (readPointer : Half)
  | waiting (n : Nat) (readPointer : Half)
  deriving DecidableEq

/-- `DMIC_Private`, with the buffers as the numbers of their allocations, and behind `reader` what
is not the driver's: the DMA, the numbers of the recordings that it has completed in the halves, and
how many in all; the number behind the one that was read last; whether, since the DMA was started, a
half was filled again that was not read; and how often each buffer was freed. `unfinished`: a read
has returned a half that the DMA had not completed, or was filling. `disorder`: it has not returned
the next one, although none was filled again. `leftOpen`: an Open has returned an error and left the
driver open. -/
structure State where
  isInitiate : Bool
  isRunning : Bool
  isSemaphore : Bool
  channel : Bool
  usrBuf : Option Nat
  rxReady : Bool
  halfCounter : Nat
  endCounter : Nat
  lastReadPointer : Half
  dmaPointer : Option Half
  reader : Reader
  dmaOn : Bool
  filling : Half
  buf : Half → Option Nat
  done : Nat
  next : Nat
  missed : Bool
  allocs : Nat
  frees : Nat → Nat
  unfinished : Bool
  disorder : Bool
  leftOpen : Bool

namespace State

/-- `gDMICPrivate` at the start. -/
def initial : State where
  isInitiate := false
  isRunning := false
  isSemaphore := false
  channel := false
  usrBuf := none
  rxReady := false
  halfCounter := 0
  endCounter := 0
  lastReadPointer := .lower
  dmaPointer := none
  reader := .idle
  dmaOn := false
  filling := .lower
  buf := fun _ => none
  done := 0
  next := 0
  missed := false
  allocs := 0
  frees := fun _ => 0
  unfinished := false
  disorder := false
  leftOpen := false

/-! ## The interrupts -/

/-- `DMIC_OVERRUN_THRESHOLD`. -/
def overrunThreshold : Nat := 3

/-- The DMA has filled a half, and goes on with the other. What is there and was not read is
lost. -/
def complete (s : State) : State :=
  { s with
    buf := Function.update s.buf s.filling (some s.done)
    done := s.done + 1
    filling := s.filling.other
    missed := s.missed || s.next < s.done }

/-- `DMIC_DMA_BUFFER_CHECK_Threshold` and the rest of the callback. -/
def checkThreshold (s : State) : State :=
  if overrunThreshold ≤ s.halfCounter ∨ overrunThreshold ≤ s.endCounter then
    { s with
      dmaOn := false
      isRunning := false
      halfCounter := 0
      endCounter := 0
      lastReadPointer := .lower }
  else if s.isSemaphore then { s with isSemaphore := false, rxReady := true }
  else s

/-- `DMIC_DMAHalfCallback` and `DMIC_DMAEndCallback`. -/
def halfCallback (s : State) : State :=
  { s with halfCounter := (s.halfCounter + 1) % 2 ^ 32 }.checkThreshold

def endCallback (s : State) : State :=
  { s with endCounter := (s.endCounter + 1) % 2 ^ 32 }.checkThreshold

def irq (s : State) : State :=
  if s.dmaOn then
    match s.filling with
    | .lower => s.complete.halfCallback
    | .upper => s.complete.endCallback
  else s

/-! ## `HAL_DMIC_Read_DMA` -/

/-- The driver starts to record, which it can do with a channel only. -/
def start (s : State) : State :=
  { s with
    lastReadPointer := .lower
    isRunning := true
    dmaOn := s.channel
    filling := .lower
    next := s.done
    missed := false }

/-- `DMIC_MEMCPY` of a half, up to where the interrupts are enabled again. -/
def copy (s : State) (n : Nat) (readPointer : Half) : State :=
  let got := s.buf readPointer
  { s with
    reader := .copied n readPointer
    unfinished := s.unfinished || got = none || (s.dmaOn && s.filling = readPointer)
    disorder := s.disorder || (!s.missed && got ≠ some s.next)
    next := got.elim s.next (· + 1) }

/-- The pass of the loop that finds the driver running, up to its copy or its wait. -/
def pass (n : Nat) (s : State) : State :=
  if s.halfCounter ≠ 0 ∧ s.endCounter ≠ 0 then
    let readPointer := if s.dmaPointer = some .lower then Half.upper else .lower
    { s with halfCounter := 0, endCounter := 0 }.copy n readPointer
  else if s.halfCounter ≠ 0 then
    { s with halfCounter := s.halfCounter - 1 }.copy n s.lastReadPointer
  else if s.endCounter ≠ 0 then
    { s with endCounter := s.endCounter - 1 }.copy n s.lastReadPointer
  else { s with isSemaphore := true, reader := .waiting n s.lastReadPointer }

/-- The loop, with so many halves left. -/
def readLoop : Nat → State → State
  | 0, s => s
  | n + 1, s => (if s.isRunning then s else s.start).pass n

/-- `HAL_DMIC_Read_DMA` for so many halves. -/
def readDma (n : Nat) (s : State) : State := s.readLoop n

/-- The read goes on behind the copy of a half. -/
def resume (s : State) : State :=
  match s.reader with
  | .copied n readPointer =>
    { s with reader := .idle, lastReadPointer := readPointer.other }.readLoop n
  | _ => s

/-- The wait gets its token. -/
def wake (s : State) : State :=
  match s.reader with
  | .waiting n readPointer =>
    if s.rxReady then
      { s with
        rxReady := false
        halfCounter := s.halfCounter - 1
        endCounter := s.endCounter - 1 }.copy n readPointer
    else s
  | _ => s

/-! ## The sessions -/

/-- What an Open gets: its parameter, a buffer and a channel. -/
structure Grants where
  param : Bool
  malloc : Bool
  request : Bool

/-- An Open returns an error. -/
def refuse (s : State) (ret : HalStatus) : State × HalStatus :=
  ({ s with leftOpen := s.leftOpen || s.isInitiate }, ret)

def free (s : State) : State :=
  match s.usrBuf with
  | some b => { s with frees := Function.update s.frees b (s.frees b + 1) }
  | none => s

/-- `HAL_DMIC_Open`. -/
def openDmic (g : Grants) (s : State) : State × HalStatus :=
  if !g.param then s.refuse .invalid
  else if s.isInitiate then s.refuse .invalid
  else
    let s := { s with isInitiate := true, channel := false, usrBuf := none }
    if !g.malloc then s.refuse .error
    else
      let s := { s with usrBuf := some s.allocs, allocs := s.allocs + 1 }
      if !g.request then s.free.refuse .error
      else ({ s with channel := true, rxReady := false }, .ok)

/-- `HAL_DMIC_Close`. -/
def close (s : State) : State :=
  { s with
    dmaOn := false
    isRunning := false
    isInitiate := false
    channel := false
    usrBuf := none
    frees := s.free.frees
    halfCounter := 0
    endCounter := 0 }

end State

inductive Label
  | irq
  | openDmic (g : State.Grants)
  | close
  | readDma (n : Nat)
  | resume
  | wake

/-- The calls are one after the other: in one there is no other. -/
def State.step (s : State) : Label → State
  | .irq => s.irq
  | .resume => s.resume
  | .wake => s.wake
  | .openDmic g => if s.reader = .idle then (s.openDmic g).1 else s
  | .close => if s.reader = .idle then s.close else s
  | .readDma n => if s.reader = .idle then s.readDma n else s

/-- The step finds the driver in step with the DMA, or an Open finds it closed and gets all. With
both halves complete, the lower one is the right one only while the upper one is filled again, and
behind a wait none is. -/
def State.InStep (s : State) : Label → Prop
  | .openDmic g =>
    s.reader = .idle → s.isInitiate = false ∧ (g.param = true → g.malloc = true ∧ g.request = true)
  | .readDma _ | .resume => s.halfCounter ≠ 0 ∧ s.endCounter ≠ 0 → s.filling = .upper
  | .wake => s.rxReady = true → ¬(s.halfCounter ≠ 0 ∧ s.endCounter ≠ 0)
  | _ => True

/-- Nothing went wrong up to here; a driver that is closed can be opened, and has freed each of its
buffers once. -/
structure State.Kept (s : State) : Prop where
  unfinished : s.unfinished = false
  disorder : s.disorder = false
  leftOpen : s.leftOpen = false
  freed : s.isInitiate = false → ∀ b < s.allocs, s.frees b = 1
  reopens : s.isInitiate = false → (s.openDmic ⟨true, true, true⟩).2 = .ok

/-! ## The invariant -/

namespace State

/-- The half that a read goes on with. -/
def pointer (s : State) : Half :=
  match s.reader with
  | .copied _ readPointer => readPointer.other
  | _ => s.lastReadPointer

/-- The DMA fills a half: the interrupts since the last copy have come in turn, and a read goes on
with the half behind it. -/
structure Running (s : State) : Prop where
  running : s.isRunning = true
  session : s.isInitiate = true
  half : s.halfCounter ≤ 2
  ends : s.endCounter ≤ 2
  turn : match s.filling with
    | .lower => s.endCounter = s.halfCounter ∨ s.endCounter = s.halfCounter + 1
    | .upper => s.halfCounter = s.endCounter ∨ s.halfCounter = s.endCounter + 1
  none : s.halfCounter = 0 ∧ s.endCounter = 0 → s.pointer = s.filling
  one : s.halfCounter + s.endCounter = 1 → s.pointer = s.filling.other
  idle : 0 < s.halfCounter + s.endCounter → ∃ k, s.buf s.filling.other = some k ∧ k + 1 = s.done
  both : s.halfCounter ≠ 0 ∧ s.endCounter ≠ 0 →
    s.missed = true ∧ ∀ h, ∃ k, s.buf h = some k ∧ k < s.done
  next : s.next ≤ s.done
  seen : s.missed = false → s.next + (s.halfCounter + s.endCounter) = s.done

/-- The DMA is off. A call that has found no channel waits. -/
structure Off (s : State) : Prop where
  half : s.halfCounter = 0
  ends : s.endCounter = 0
  next : s.next ≤ s.done
  stuck : s.isRunning = true → (∃ n p, s.reader = .waiting n p) ∧ s.rxReady = false

def InPhase (s : State) : Prop := if s.dmaOn then s.Running else s.Off

/-- What a call waits for. -/
structure Waits (s : State) : Prop where
  none : (∀ n p, s.reader ≠ .waiting n p) → s.isSemaphore = false ∧ s.rxReady = false
  sem : s.isSemaphore = true → s.rxReady = false ∧ s.halfCounter = 0 ∧ s.endCounter = 0
  counted : s.rxReady = true → s.dmaOn = true → 0 < s.halfCounter + s.endCounter
  pointer : ∀ n p, s.reader = .waiting n p → s.dmaOn = true → s.lastReadPointer = p
  stopped : ∀ n p, s.reader = .waiting n p → s.rxReady = true → s.dmaOn = false →
    s.missed = true ∧ ∃ k, s.buf p = some k ∧ k < s.done

/-- The buffer of an open driver is in use, and all others were freed once. -/
structure Heap (s : State) : Prop where
  closed : s.isInitiate = false → s.usrBuf = none ∧ s.channel = false
  live : ∀ b, s.usrBuf = some b → b < s.allocs
  frees : ∀ b, s.frees b = if b < s.allocs ∧ s.usrBuf ≠ some b then 1 else 0

structure Clean (s : State) : Prop where
  unfinished : s.unfinished = false
  disorder : s.disorder = false
  leftOpen : s.leftOpen = false
  pointer : s.dmaPointer = none
  heap : s.Heap

structure Inv (s : State) : Prop where
  clean : s.Clean
  phase : s.InPhase
  waits : s.Waits

section
variable {s : State}

theorem InPhase.running (hd : s.dmaOn = true) (h : s.InPhase) : s.Running := (if_pos hd).mp h

theorem InPhase.off (hd : s.dmaOn = false) (h : s.InPhase) : s.Off :=
  (if_neg (Bool.not_eq_true _ ▸ hd)).mp h

theorem inPhase_of_running (hd : s.dmaOn = true) (h : s.Running) : s.InPhase := (if_pos hd).mpr h

theorem inPhase_of_off (hd : s.dmaOn = false) (h : s.Off) : s.InPhase :=
  (if_neg (Bool.not_eq_true _ ▸ hd)).mpr h

theorem inv_initial : initial.Inv where
  clean := ⟨rfl, rfl, rfl, rfl, ⟨fun _ => ⟨rfl, rfl⟩,
    fun b h => absurd h.symm (Option.some_ne_none b),
    fun b => (if_neg fun h => absurd h.1 (Nat.not_lt_zero b)).symm⟩⟩
  phase := ⟨rfl, rfl, Nat.le_refl 0, fun h => absurd h Bool.false_ne_true⟩
  waits := ⟨fun _ => ⟨rfl, rfl⟩, fun h => absurd h Bool.false_ne_true,
    fun h => absurd h Bool.false_ne_true, fun _ _ h => Reader.noConfusion h,
    fun _ _ h => Reader.noConfusion h⟩

theorem Inv.kept (h : s.Inv) : s.Kept where
  unfinished := h.clean.unfinished
  disorder := h.clean.disorder
  leftOpen := h.clean.leftOpen
  freed := fun hc b hb => by
    have hne : s.usrBuf ≠ some b := by
      rw [(h.clean.heap.closed hc).1]
      exact (Option.some_ne_none b).symm
    rw [h.clean.heap.frees, if_pos ⟨hb, hne⟩]
  reopens := fun hc => by simp [openDmic, hc]

/-! ## The interrupts -/

@[simp] theorem complete_done : s.complete.done = s.done + 1 := rfl

@[simp] theorem complete_halfCounter : s.complete.halfCounter = s.halfCounter := rfl

@[simp] theorem complete_endCounter : s.complete.endCounter = s.endCounter := rfl

/-- What was completed, after the first interrupt behind a read and after more. -/
theorem Running.complete (h : s.Running) :
    (∃ k, s.complete.buf s.complete.filling.other = some k ∧ k + 1 = s.complete.done) ∧
      (0 < s.halfCounter + s.endCounter → s.complete.missed = true ∧
        ∀ g, ∃ k, s.complete.buf g = some k ∧ k < s.complete.done) := by
  have hnew : s.complete.buf s.filling = some s.done := Function.update_self ..
  have hold : s.complete.buf s.filling.other = s.buf s.filling.other :=
    Function.update_of_ne (I2s.other_ne _) _ _
  have hback : s.complete.filling.other = s.filling := I2s.other_other _
  refine ⟨⟨s.done, by rw [hback, hnew], rfl⟩, fun hpos => ⟨?_, fun g => ?_⟩⟩
  · have hseen := h.seen
    have hnext := h.next
    rw [State.complete, Bool.or_eq_true, decide_eq_true_eq]
    cases hm : s.missed with
    | true => exact .inl rfl
    | false => exact .inr (by have := hseen hm; omega)
  · obtain rfl | rfl := I2s.half_cases s.filling g
    · exact ⟨s.done, hnew, Nat.lt_succ_self _⟩
    · obtain ⟨k, hk, hdone⟩ := h.idle hpos
      exact ⟨k, hold.trans hk, by rw [complete_done]; omega⟩

/-- The counters behind an interrupt, below the threshold. -/
theorem Running.counted (h : s.Running) {x y : Nat} (hx : x ≤ 2) (hy : y ≤ 2)
    (hsum : x + y = s.halfCounter + s.endCounter + 1)
    (turn : match s.filling.other with
      | .lower => y = x ∨ y = x + 1
      | .upper => x = y ∨ x = y + 1)
    (isSemaphore rxReady : Bool) :
    Running { s.complete with halfCounter := x, endCounter := y, isSemaphore, rxReady } := by
  obtain ⟨hidle, hboth⟩ := h.complete
  have hseen := h.seen
  refine ⟨h.running, h.session, hx, hy, turn, fun hzero => ?_, fun hone => ?_, fun _ => hidle,
    fun hne => hboth ?_, Nat.le_succ_of_le h.next, fun hm => ?_⟩
  · dsimp only at hzero
    omega
  · dsimp only at hone
    have hlast : s.pointer = s.filling := h.none (by omega)
    exact hlast.trans (I2s.other_other _).symm
  · dsimp only at hne
    omega
  · simp only [State.complete, Bool.or_eq_false_iff, decide_eq_false_iff_not] at hm ⊢
    have := hseen hm.1
    omega

/-- Behind an interrupt. -/
structure Interrupted (s s' : State) : Prop where
  clean : s'.Clean
  phase : s'.InPhase
  reader : s'.reader = s.reader
  sem : s'.isSemaphore = false
  ready : s'.rxReady = (s.rxReady || s.isSemaphore)
  counted : s'.dmaOn = true → 0 < s'.halfCounter + s'.endCounter ∧
    s'.lastReadPointer = s.lastReadPointer
  stopped : s'.dmaOn = false → s'.missed = true ∧ ∀ g, ∃ k, s'.buf g = some k ∧ k < s'.done

/-- The end of a callback, with the counters as they are then. -/
theorem Running.checkThreshold (h : s.Running) (hd : s.dmaOn = true) (hc : s.Clean)
    (hw : s.Waits) {x y : Nat} (hx : x ≤ 3) (hy : y ≤ 3)
    (hsum : x + y = s.halfCounter + s.endCounter + 1)
    (turn : match s.filling.other with
      | .lower => y = x ∨ y = x + 1
      | .upper => x = y ∨ x = y + 1) :
    Interrupted s (State.checkThreshold { s.complete with halfCounter := x, endCounter := y }) := by
  have hc' := hc.heap
  rw [State.checkThreshold]
  dsimp only
  split
  · rename_i hover
    rw [overrunThreshold] at hover
    have hpos : 0 < s.halfCounter + s.endCounter := by omega
    have hsem : s.isSemaphore = false := by
      cases hs : s.isSemaphore with
      | false => rfl
      | true =>
        have := hw.sem hs
        omega
    exact ⟨⟨hc.unfinished, hc.disorder, hc.leftOpen, hc.pointer, hc'.closed, hc'.live, hc'.frees⟩,
      inPhase_of_off rfl ⟨rfl, rfl, Nat.le_succ_of_le h.next, fun h => absurd h Bool.false_ne_true⟩,
      rfl, hsem, by rw [hsem, Bool.or_false]; rfl, fun h => absurd h Bool.false_ne_true,
      fun _ => h.complete.2 hpos⟩
  · rename_i hunder
    rw [overrunThreshold] at hunder
    have hx' : x ≤ 2 := by omega
    have hy' : y ≤ 2 := by omega
    have hon : s.complete.dmaOn = true := hd
    have hpos : 0 < x + y := by omega
    split
    · rename_i hs
      exact ⟨⟨hc.unfinished, hc.disorder, hc.leftOpen, hc.pointer, hc'.closed, hc'.live, hc'.frees⟩,
        inPhase_of_running hd (h.counted hx' hy' hsum turn _ _), rfl, rfl,
        by rw [show s.isSemaphore = true from hs, Bool.or_true], fun _ => ⟨hpos, rfl⟩,
        fun hf => absurd (hon.symm.trans hf) Bool.false_ne_true.symm⟩
    · rename_i hs
      have hsem : s.isSemaphore = false := Bool.eq_false_iff.mpr hs
      exact ⟨⟨hc.unfinished, hc.disorder, hc.leftOpen, hc.pointer, hc'.closed, hc'.live, hc'.frees⟩,
        inPhase_of_running hd (h.counted hx' hy' hsum turn _ _), rfl, hsem,
        by rw [hsem, Bool.or_false]; rfl, fun _ => ⟨hpos, rfl⟩,
        fun hf => absurd (hon.symm.trans hf) Bool.false_ne_true.symm⟩

theorem Running.irq (h : s.Running) (hd : s.dmaOn = true) (hc : s.Clean) (hw : s.Waits) :
    Interrupted s s.irq := by
  have hturn := h.turn
  have hhalf := h.half
  have hends := h.ends
  rw [State.irq, if_pos hd]
  split
  · rename_i hf
    have heq : s.complete.halfCallback =
        State.checkThreshold { s.complete with
          halfCounter := s.halfCounter + 1, endCounter := s.endCounter } := by
      rw [halfCallback, Nat.mod_eq_of_lt (by rw [complete_halfCounter]; omega)]
      rfl
    rw [hf] at hturn
    rw [heq]
    refine h.checkThreshold hd hc hw (by omega) (by omega) (by omega) ?_
    rw [hf]
    dsimp only [Half.other] at hturn ⊢
    omega
  · rename_i hf
    have heq : s.complete.endCallback =
        State.checkThreshold { s.complete with
          halfCounter := s.halfCounter, endCounter := s.endCounter + 1 } := by
      rw [endCallback, Nat.mod_eq_of_lt (by rw [complete_endCounter]; omega)]
      rfl
    rw [hf] at hturn
    rw [heq]
    refine h.checkThreshold hd hc hw (by omega) (by omega) (by omega) ?_
    rw [hf]
    dsimp only [Half.other] at hturn ⊢
    omega

theorem Inv.irq (h : s.Inv) : s.irq.Inv := by
  cases hd : s.dmaOn with
  | false =>
    rw [State.irq, if_neg (by rw [hd]; exact Bool.false_ne_true)]
    exact h
  | true =>
    have hi := (h.phase.running hd).irq hd h.clean h.waits
    refine ⟨hi.clean, hi.phase, fun hn => ⟨hi.sem, ?_⟩,
      fun hs => absurd (hi.sem.symm.trans hs) Bool.false_ne_true, fun _ hd' => (hi.counted hd').1,
      fun n p hw hd' => ?_, fun n p hw _ hd' => ⟨(hi.stopped hd').1, (hi.stopped hd').2 p⟩⟩
    · obtain ⟨hs, hr⟩ := h.waits.none fun n p hw => hn n p (hi.reader.trans hw)
      rw [hi.ready, hs, hr]
      rfl
    · exact (hi.counted hd').2.trans (h.waits.pointer n p (hi.reader.symm.trans hw) hd)

/-! ## The reads -/

theorem waits_of_quiet (hr : ∀ n p, s.reader ≠ .waiting n p) (hsem : s.isSemaphore = false)
    (hready : s.rxReady = false) : s.Waits where
  none := fun _ => ⟨hsem, hready⟩
  sem := fun h => absurd (hsem.symm.trans h) Bool.false_ne_true
  counted := fun h => absurd (hready.symm.trans h) Bool.false_ne_true
  pointer := fun n p h => absurd h (hr n p)
  stopped := fun n p h => absurd h (hr n p)

/-- The reader goes on, and nothing else does. -/
theorem Running.moved (h : s.Running) (reader : Reader) (lastReadPointer : Half)
    (isSemaphore : Bool)
    (hp : State.pointer { s with reader, lastReadPointer, isSemaphore } = s.pointer) :
    Running { s with reader, lastReadPointer, isSemaphore } :=
  ⟨h.running, h.session, h.half, h.ends, h.turn, fun hz => hp.trans (h.none hz),
    fun ho => hp.trans (h.one ho), h.idle, h.both, h.next, h.seen⟩

theorem running_of_zero (hr : s.isRunning = true) (hi : s.isInitiate = true)
    (hx : s.halfCounter = 0) (hy : s.endCounter = 0) (hl : s.pointer = s.filling)
    (hn : s.next ≤ s.done) (hm : s.missed = false → s.next = s.done) : s.Running where
  running := hr
  session := hi
  half := by omega
  ends := by omega
  turn := by cases s.filling <;> exact .inl (by omega)
  none := fun _ => hl
  one := fun h => by omega
  idle := fun h => by omega
  both := fun h => absurd hx h.1
  next := hn
  seen := fun h => by rw [hx, hy, hm h, Nat.add_zero]

/-- A copy of the half that was completed last, with the counters at 0. -/
theorem copy_running {n : Nat} {p : Half} (hd : s.dmaOn = true) (hr : s.isRunning = true)
    (hi : s.isInitiate = true) (hx : s.halfCounter = 0) (hy : s.endCounter = 0)
    (hp : s.filling.other = p) (hb : ∃ k, s.buf p = some k ∧ k + 1 = s.done)
    (hn : s.missed = false → s.next + 1 = s.done) (hc : s.Clean) (hsem : s.isSemaphore = false)
    (hready : s.rxReady = false) : (s.copy n p).Inv := by
  obtain ⟨k, hk, hdone⟩ := hb
  have hfilling : s.filling ≠ p := fun h => I2s.other_ne s.filling (hp.trans h.symm)
  have hc' := hc.heap
  refine ⟨⟨?_, ?_, hc.leftOpen, hc.pointer, hc'.closed, hc'.live, hc'.frees⟩,
    inPhase_of_running hd ?_, waits_of_quiet (fun _ _ => Reader.noConfusion) hsem hready⟩
  · simp [copy, hk, hc.unfinished, hfilling]
  · cases hm : s.missed with
    | true => simp [copy, hm, hc.disorder]
    | false =>
      have := hn hm
      have hnext : k = s.next := by omega
      simp [copy, hm, hc.disorder, hk, hnext]
  · have hnext : (s.copy n p).next = k + 1 := by simp [copy, hk]
    refine running_of_zero hr hi hx hy ?_ (Nat.le_of_eq (hnext.trans hdone))
      fun _ => hnext.trans hdone
    exact (congrArg Half.other hp.symm).trans (I2s.other_other _)

/-- A copy in a call that was woken before the recording stopped. -/
theorem copy_off {n : Nat} {p : Half} (hd : s.dmaOn = false) (hr : s.isRunning = false)
    (hx : s.halfCounter = 0) (hy : s.endCounter = 0) (hb : ∃ k, s.buf p = some k ∧ k < s.done)
    (hm : s.missed = true) (hc : s.Clean) (hsem : s.isSemaphore = false)
    (hready : s.rxReady = false) : (s.copy n p).Inv := by
  obtain ⟨k, hk, hlt⟩ := hb
  have hc' := hc.heap
  refine ⟨⟨?_, ?_, hc.leftOpen, hc.pointer, hc'.closed, hc'.live, hc'.frees⟩,
    inPhase_of_off hd ?_, waits_of_quiet (fun _ _ => Reader.noConfusion) hsem hready⟩
  · simp [copy, hk, hc.unfinished, hd]
  · simp [copy, hm, hc.disorder]
  · refine ⟨hx, hy, ?_, fun h => absurd (hr.symm.trans h) Bool.false_ne_true⟩
    simp only [copy, hk, Option.elim_some]
    omega

/-- Before a pass of the loop. -/
structure Ready (s : State) : Prop where
  clean : s.Clean
  phase : s.InPhase
  running : s.isRunning = s.dmaOn
  sem : s.isSemaphore = false
  ready : s.rxReady = false
  reader : s.reader = .idle
  inStep : s.halfCounter ≠ 0 ∧ s.endCounter ≠ 0 → s.filling = .upper

/-- A pass with a DMA that runs. -/
theorem Ready.pass (h : s.Ready) (n : Nat) (hd : s.dmaOn = true) : (s.pass n).Inv := by
  have hrun := h.phase.running hd
  have hc := h.clean
  have hc' := hc.heap
  have hseen := hrun.seen
  -- with one interrupt behind the last copy, or with two and the upper half being filled
  have hsingle : ¬(s.halfCounter ≠ 0 ∧ s.endCounter ≠ 0) →
      s.halfCounter ≠ 0 ∨ s.endCounter ≠ 0 → s.halfCounter + s.endCounter = 1 := by
    intro hnot hor
    have hturn := hrun.turn
    cases hf : s.filling <;> rw [hf] at hturn <;> dsimp only at hturn <;> omega
  have hpointer : s.pointer = s.lastReadPointer := by rw [State.pointer, h.reader]
  have hone : s.halfCounter + s.endCounter = 1 → s.filling.other = s.lastReadPointer :=
    fun hsum => (hrun.one hsum).symm.trans hpointer
  have hcopy : ∀ p x y, x = 0 → y = 0 → 0 < s.halfCounter + s.endCounter → s.filling.other = p →
      (s.missed = false → s.next + 1 = s.done) →
      ({ s with halfCounter := x, endCounter := y }.copy n p).Inv := by
    intro p x y hx hy hpos hp hn
    exact copy_running hd hrun.running hrun.session hx hy hp (hp ▸ hrun.idle hpos) hn
      ⟨hc.unfinished, hc.disorder, hc.leftOpen, hc.pointer, hc'.closed, hc'.live, hc'.frees⟩ h.sem
      h.ready
  rw [State.pass]
  split
  · rename_i hboth
    have hp : (if s.dmaPointer = some .lower then Half.upper else .lower) = .lower := by
      rw [hc.pointer]
      rfl
    rw [hp]
    refine hcopy _ _ _ rfl rfl (by omega) (by rw [h.inStep hboth]; rfl) fun hm => ?_
    exact absurd ((hrun.both hboth).1.symm.trans hm) Bool.false_ne_true.symm
  · rename_i hnot
    split
    · rename_i hx
      have hsum := hsingle hnot (.inl hx)
      refine hcopy _ _ s.endCounter (by omega) (by omega) (by omega) (hone hsum) fun hm => ?_
      have := hseen hm
      omega
    · rename_i hx
      split
      · rename_i hy
        have hsum := hsingle hnot (.inr hy)
        refine hcopy _ s.halfCounter _ (by omega) (by omega) (by omega) (hone hsum) fun hm => ?_
        have := hseen hm
        omega
      · rename_i hy
        have hx0 : s.halfCounter = 0 := by omega
        have hy0 : s.endCounter = 0 := by omega
        refine ⟨⟨hc.unfinished, hc.disorder, hc.leftOpen, hc.pointer, hc'.closed, hc'.live,
          hc'.frees⟩, inPhase_of_running hd (hrun.moved _ _ _ hpointer.symm),
          fun hn => absurd rfl (hn n s.lastReadPointer), fun _ => ⟨h.ready, hx0, hy0⟩,
          fun hr => absurd (h.ready.symm.trans hr) Bool.false_ne_true, fun m p hw _ => ?_,
          fun _ _ _ hr => absurd (h.ready.symm.trans hr) Bool.false_ne_true⟩
        cases hw
        rfl

/-- A pass that starts the recording. -/
theorem Ready.start (h : s.Ready) (n : Nat) (hd : s.dmaOn = false) : (s.start.pass n).Inv := by
  have ho := h.phase.off hd
  have hc := h.clean
  have hc' := hc.heap
  have hclean : s.start.Clean :=
    ⟨hc.unfinished, hc.disorder, hc.leftOpen, hc.pointer, hc'.closed, hc'.live, hc'.frees⟩
  cases hch : s.channel with
  | true =>
    have hi : s.isInitiate = true := by
      by_contra hne
      have := (hc'.closed (Bool.eq_false_iff.mpr hne)).2
      exact absurd (hch.symm.trans this) Bool.false_ne_true.symm
    have hpointer : s.start.pointer = .lower := by
      rw [State.pointer, show s.start.reader = .idle from h.reader]
      rfl
    have hready : s.start.Ready :=
      ⟨hclean, inPhase_of_running hch
        (running_of_zero rfl hi ho.half ho.ends hpointer (Nat.le_refl _) fun _ => rfl),
        hch.symm, h.sem, h.ready, h.reader, fun hb => absurd ho.half hb.1⟩
    exact hready.pass n hch
  | false =>
    have hpass : s.start.pass n =
        { s.start with isSemaphore := true, reader := .waiting n .lower } := by
      have hx : s.start.halfCounter = 0 := ho.half
      have hy : s.start.endCounter = 0 := ho.ends
      rw [State.pass, if_neg fun hb => hb.1 hx, if_neg fun hb => hb hx, if_neg fun hb => hb hy]
      rfl
    rw [hpass]
    refine ⟨⟨hc.unfinished, hc.disorder, hc.leftOpen, hc.pointer, hc'.closed, hc'.live,
      hc'.frees⟩,
      inPhase_of_off hch ⟨ho.half, ho.ends, Nat.le_refl _, fun _ => ⟨⟨n, _, rfl⟩, h.ready⟩⟩,
      fun hn => absurd rfl (hn n .lower), fun _ => ⟨h.ready, ho.half, ho.ends⟩,
      fun hr => absurd (h.ready.symm.trans hr) Bool.false_ne_true, fun m p hw _ => ?_,
      fun _ _ _ hr => absurd (h.ready.symm.trans hr) Bool.false_ne_true⟩
    cases hw
    rfl

theorem Ready.readLoop (h : s.Ready) (n : Nat) : (s.readLoop n).Inv := by
  cases n with
  | zero =>
    have hr : ∀ n p, s.reader ≠ .waiting n p := by
      rw [h.reader]
      exact fun _ _ => Reader.noConfusion
    exact ⟨h.clean, h.phase, waits_of_quiet hr h.sem h.ready⟩
  | succ n =>
    rw [State.readLoop]
    cases hd : s.dmaOn with
    | true =>
      rw [if_pos (h.running.trans hd)]
      exact h.pass n hd
    | false =>
      rw [if_neg (by rw [h.running, hd]; exact Bool.false_ne_true)]
      exact h.start n hd

theorem Inv.isRunning (h : s.Inv) (hr : ∀ n p, s.reader ≠ .waiting n p) :
    s.isRunning = s.dmaOn := by
  cases hd : s.dmaOn with
  | true => exact (h.phase.running hd).running
  | false =>
    refine Bool.eq_false_iff.mpr fun hrun => ?_
    obtain ⟨⟨n, p, hw⟩, _⟩ := (h.phase.off hd).stuck hrun
    exact hr n p hw

theorem Inv.readDma (h : s.Inv) (hi : s.reader = .idle)
    (hin : s.halfCounter ≠ 0 ∧ s.endCounter ≠ 0 → s.filling = .upper) (n : Nat) :
    (s.readDma n).Inv := by
  have hr : ∀ n p, s.reader ≠ .waiting n p := by
    rw [hi]
    exact fun _ _ => Reader.noConfusion
  obtain ⟨hsem, hready⟩ := h.waits.none hr
  exact Ready.readLoop ⟨h.clean, h.phase, h.isRunning hr, hsem, hready, hi, hin⟩ n

theorem Inv.resume (h : s.Inv)
    (hin : s.halfCounter ≠ 0 ∧ s.endCounter ≠ 0 → s.filling = .upper) : s.resume.Inv := by
  rw [State.resume]
  split
  · rename_i n p hrd
    have hr : ∀ n p, s.reader ≠ .waiting n p := by
      rw [hrd]
      exact fun _ _ => Reader.noConfusion
    have hc := h.clean
    have hc' := hc.heap
    obtain ⟨hsem, hready⟩ := h.waits.none hr
    have hphase : InPhase { s with reader := .idle, lastReadPointer := p.other } := by
      rcases Bool.eq_false_or_eq_true s.dmaOn with hd | hd
      · refine inPhase_of_running hd ((h.phase.running hd).moved _ _ _ ?_)
        rw [State.pointer, State.pointer, hrd]
      · have ho := h.phase.off hd
        refine inPhase_of_off hd ⟨ho.half, ho.ends, ho.next, fun hrun => ?_⟩
        exact absurd ((h.isRunning hr).symm.trans hrun) (by rw [hd]; exact Bool.false_ne_true)
    have hnext : Ready { s with reader := .idle, lastReadPointer := p.other } :=
      ⟨⟨hc.unfinished, hc.disorder, hc.leftOpen, hc.pointer, hc'.closed, hc'.live, hc'.frees⟩,
        hphase, h.isRunning hr, hsem, hready, rfl, hin⟩
    exact hnext.readLoop n
  · exact h

theorem Inv.wake (h : s.Inv)
    (hin : s.rxReady = true → ¬(s.halfCounter ≠ 0 ∧ s.endCounter ≠ 0)) : s.wake.Inv := by
  rw [State.wake]
  split
  · rename_i n p hrd
    split
    · rename_i hready
      have hc := h.clean
      have hc' := hc.heap
      have hone := hin hready
      have hsem : s.isSemaphore = false := by
        refine Bool.eq_false_iff.mpr fun hs => ?_
        exact absurd ((h.waits.sem hs).1.symm.trans hready) Bool.false_ne_true
      have hclean : Clean { s with
          rxReady := false, halfCounter := s.halfCounter - 1, endCounter := s.endCounter - 1 } :=
        ⟨hc.unfinished, hc.disorder, hc.leftOpen, hc.pointer, hc'.closed, hc'.live, hc'.frees⟩
      rcases Bool.eq_false_or_eq_true s.dmaOn with hd | hd
      · have hrun := h.phase.running hd
        have hpos := h.waits.counted hready hd
        have hp : s.pointer = p := by
          rw [State.pointer, hrd]
          exact h.waits.pointer n p hrd hd
        have hturn := hrun.turn
        have hsum : s.halfCounter + s.endCounter = 1 := by
          cases hf : s.filling <;> rw [hf] at hturn <;> dsimp only at hturn <;> omega
        have hother : s.filling.other = p := (hrun.one hsum).symm.trans hp
        have hseen := hrun.seen
        refine copy_running hd hrun.running hrun.session ?_ ?_ hother (hother ▸ hrun.idle hpos) ?_
          hclean hsem rfl
        · dsimp only
          omega
        · dsimp only
          omega
        · intro hm
          have := hseen hm
          dsimp only
          omega
      · have ho := h.phase.off hd
        have hrunning : s.isRunning = false := by
          refine Bool.eq_false_iff.mpr fun hr => ?_
          exact absurd ((ho.stuck hr).2.symm.trans hready) Bool.false_ne_true
        obtain ⟨hm, hb⟩ := h.waits.stopped n p hrd hready hd
        refine copy_off hd hrunning ?_ ?_ hb hm hclean hsem rfl
        · dsimp only
          rw [ho.half]
        · dsimp only
          rw [ho.ends]
    · exact h
  · exact h

/-! ## The sessions -/

theorem Inv.off (h : s.Inv) (hclosed : s.isInitiate = false) : s.dmaOn = false := by
  refine Bool.eq_false_iff.mpr fun hd => ?_
  exact absurd (hclosed.symm.trans (h.phase.running hd).session) Bool.false_ne_true

/-- A new buffer. -/
theorem Heap.malloc (h : s.Heap) (hnone : s.usrBuf = none) (channel rxReady : Bool) :
    Heap { s with
      isInitiate := true, usrBuf := some s.allocs, allocs := s.allocs + 1, channel, rxReady } := by
  refine ⟨fun hf => absurd hf.symm Bool.false_ne_true, fun b hb => ?_, fun b => ?_⟩
  · cases hb
    exact Nat.lt_succ_self _
  · refine (h.frees b).trans ?_
    rw [hnone]
    by_cases hb : b < s.allocs
    · rw [if_pos ⟨hb, (Option.some_ne_none b).symm⟩, if_pos]
      exact ⟨Nat.lt_succ_of_lt hb, fun he => absurd (Option.some_inj.mp he) (by omega)⟩
    · rw [if_neg fun hlt => hb hlt.1, if_neg]
      rintro ⟨hlt, hne⟩
      exact hne (congrArg some (by dsimp only at hlt; omega))

theorem Heap.free (h : s.Heap) (b : Nat) : s.free.frees b = if b < s.allocs then 1 else 0 := by
  rw [State.free]
  cases hu : s.usrBuf with
  | none =>
    refine (h.frees b).trans ?_
    simp [hu]
  | some c =>
    have hc := h.live c hu
    have hb := h.frees b
    by_cases he : b = c
    · subst he
      rw [hu, if_neg fun hlt => hlt.2 rfl] at hb
      simp [hb, hc]
    · have hne : s.usrBuf ≠ some b := by
        rw [hu]
        exact fun h => he (Option.some_inj.mp h).symm
      simp [he, hb, hne]

theorem Inv.openDmic (h : s.Inv) (hi : s.reader = .idle) (hclosed : s.isInitiate = false)
    {g : Grants} (hg : g.param = true → g.malloc = true ∧ g.request = true) :
    (s.openDmic g).1.Inv := by
  have hc := h.clean
  have hc' := hc.heap
  have hr : ∀ n p, s.reader ≠ .waiting n p := by
    rw [hi]
    exact fun _ _ => Reader.noConfusion
  obtain ⟨hsem, hready⟩ := h.waits.none hr
  have hd := h.off hclosed
  have ho := h.phase.off hd
  have hstuck : ∀ {p : Prop}, s.isRunning = true → p := fun hrun =>
    absurd ((h.isRunning hr).symm.trans hrun) (by rw [hd]; exact Bool.false_ne_true)
  cases hp : g.param with
  | false =>
    have heq : s.openDmic g = s.refuse .invalid := by simp [State.openDmic, hp]
    have hleft : (s.leftOpen || s.isInitiate) = false := by rw [hc.leftOpen, hclosed]; rfl
    rw [heq]
    exact ⟨⟨hc.unfinished, hc.disorder, hleft, hc.pointer, hc'.closed, hc'.live, hc'.frees⟩,
      inPhase_of_off hd ⟨ho.half, ho.ends, ho.next, hstuck⟩, waits_of_quiet hr hsem hready⟩
  | true =>
    obtain ⟨hmalloc, hrequest⟩ := hg hp
    have heq : (s.openDmic g).1 = { s with
        isInitiate := true
        usrBuf := some s.allocs
        allocs := s.allocs + 1
        channel := true
        rxReady := false } := by
      simp [State.openDmic, hp, hclosed, hmalloc, hrequest]
    rw [heq]
    exact ⟨⟨hc.unfinished, hc.disorder, hc.leftOpen, hc.pointer,
      hc'.malloc (hc'.closed hclosed).1 true false⟩,
      inPhase_of_off hd ⟨ho.half, ho.ends, ho.next, hstuck⟩, waits_of_quiet hr hsem rfl⟩

theorem Inv.close (h : s.Inv) (hi : s.reader = .idle) : s.close.Inv := by
  have hc := h.clean
  have hr : ∀ n p, s.reader ≠ .waiting n p := by
    rw [hi]
    exact fun _ _ => Reader.noConfusion
  obtain ⟨hsem, hready⟩ := h.waits.none hr
  have hnext : s.next ≤ s.done := by
    rcases Bool.eq_false_or_eq_true s.dmaOn with hd | hd
    · exact (h.phase.running hd).next
    · exact (h.phase.off hd).next
  refine ⟨⟨hc.unfinished, hc.disorder, hc.leftOpen, hc.pointer, ⟨fun _ => ⟨rfl, rfl⟩,
    fun b hb => absurd hb.symm (Option.some_ne_none b), fun b => ?_⟩⟩,
    inPhase_of_off rfl ⟨rfl, rfl, hnext, fun hf => absurd hf Bool.false_ne_true⟩,
    waits_of_quiet hr hsem hready⟩
  refine (hc.heap.free b).trans ?_
  simp [State.close]

theorem Inv.step (h : s.Inv) (l : Label) (hin : s.InStep l) : (s.step l).Inv := by
  cases l with
  | irq => exact h.irq
  | resume => exact h.resume hin
  | wake => exact h.wake hin
  | openDmic g =>
    rw [State.step]
    split
    · rename_i hi
      exact h.openDmic hi (hin hi).1 (hin hi).2
    · exact h
  | close =>
    rw [State.step]
    split
    · rename_i hi
      exact h.close hi
    · exact h
  | readDma n =>
    rw [State.step]
    split
    · rename_i hi
      exact h.readDma hi hin n
    · exact h

end

end State

/-! ## Runs -/

instance (s : State) (l : Label) : Decidable (s.InStep l) := by
  cases l <;> unfold State.InStep <;> infer_instance

/-- In a run whose steps find the driver in step with the DMA, and closed at an Open, which gets
all, each half that a read returns is complete and is not filled at that moment, the halves come in
order as long as none was filled again, and no failed Open leaves the driver open. -/
theorem dmic_kept (ls : List Label) (h : Along State.step State.InStep State.initial ls) :
    (ls.foldl State.step State.initial).Kept :=
  (along_foldl State.inv_initial (fun _ l hi hl => hi.step l hl) h).kept

/-- A session with two halves read, an overrun behind the second, and a third read. -/
theorem dmic_kept_overrun :
    ([Label.openDmic ⟨true, true, true⟩, .readDma 2, .irq, .wake, .resume, .irq, .wake, .resume,
      .irq, .irq, .irq, .irq, .irq, .readDma 1, .irq, .wake, .resume, .close].foldl State.step
      State.initial).Kept :=
  dmic_kept _ (by decide)

/-- With both halves complete, a read takes the lower one also while the DMA fills it; with no
buffer, Open leaves the driver open, and with no channel, Close frees the buffer again. -/
theorem dmic_not_kept :
    ([Label.openDmic ⟨true, true, true⟩, .readDma 2, .irq, .wake, .resume, .irq, .wake,
        .resume, .irq, .irq, .readDma 1].foldl State.step State.initial).unfinished = true ∧
      ([Label.openDmic ⟨true, false, true⟩].foldl State.step State.initial).leftOpen = true ∧
      ([Label.openDmic ⟨true, true, false⟩, .close].foldl State.step State.initial).frees 0 = 2 ∧
      ¬∀ ls : List Label, (ls.foldl State.step State.initial).Kept := by
  have hread : ([Label.openDmic ⟨true, true, true⟩, .readDma 2, .irq, .wake, .resume, .irq, .wake,
      .resume, .irq, .irq, .readDma 1].foldl State.step State.initial).unfinished = true := by
    decide
  exact ⟨hread, by decide, by decide,
    fun h => absurd ((h _).unfinished.symm.trans hread) Bool.false_ne_true⟩

end Dmic
end Audio
end XR806

import Mathlib.Logic.Function.Basic
import XR806.Trans.Along

/-!
# XR806.Audio.I2s

The buffers of the I2S driver. The DMA goes through the two halves of a buffer in turn and raises an
interrupt behind each; the driver knows where it is from two counters of 8 bits that the interrupts
count up, and from the half that the last one has named.

A call that looks at the counters takes them to 0, so an interrupt behind it is needed before the
next one may go on. The counters wrap: when one has come to 0 again and the other has not, only one
of the two is seen, and a half is used twice (`wrapped_counter_loses_block`). While no call meets the
counters so, blocks are played and halves are read as they should be (`i2s_ring_kept`).
-/

namespace XR806
namespace Audio
namespace I2s

open Trans (Along along_foldl)

/-! ## Halves and counters -/

inductive Half
  | lower
  | upper
  deriving DecidableEq

def Half.other : Half → Half
  | .lower => .upper
  | .upper => .lower

/-- `txHalfCallCount` and `txEndCallCount`, or those of the other direction. -/
structure Counts where
  half : Nat
  ends : Nat
  deriving DecidableEq

namespace Counts

def zero : Counts := ⟨0, 0⟩

/-- The interrupt behind a half. -/
def count (c : Counts) : Half → Counts
  | .lower => { c with half := (c.half + 1) % 256 }
  | .upper => { c with ends := (c.ends + 1) % 256 }

/-- The comparison of `xradio_i2s_dma_threshold_check`. -/
def reached (c : Counts) (threshold : Nat) : Bool := threshold ≤ c.half || threshold ≤ c.ends

/-- The counters show an interrupt. -/
def any (c : Counts) : Bool := c.half ≠ 0 || c.ends ≠ 0

/-- "check DMA state". -/
def check (c : Counts) : Counts :=
  if c.half ≠ 0 ∧ c.ends ≠ 0 then zero
  else if c.half ≠ 0 then { c with half := c.half - 1 }
  else if c.ends ≠ 0 then { c with ends := c.ends - 1 }
  else c

/-- One counter has wrapped, and the other has not. -/
def Wrapped (c : Counts) : Prop := (c.half = 0 ∧ c.ends = 255) ∨ (c.half = 255 ∧ c.ends = 0)

instance : DecidablePred Wrapped := fun c => by unfold Wrapped; infer_instance

/-- The interrupts have come in turn, and the DMA is in `busy`. -/
structure InTurn (c : Counts) (busy : Half) : Prop where
  half : c.half < 256
  ends : c.ends < 256
  turn : match busy with
    | .lower => c.ends = c.half ∨ c.ends = (c.half + 1) % 256
    | .upper => c.half = c.ends ∨ c.half = (c.ends + 1) % 256

end Counts

/-- The half that a call uses: the one that the DMA has left, by `txDmaPointer` or
`rxDmaPointer`. -/
def target (dmaPointer : Option Half) : Half :=
  if dmaPointer = some .lower then .upper else .lower

/-- `PLATFORM_IOCTL_SW_CONFIG`. -/
def txUnderrunThreshold (param : BitVec 32) : Nat := (param &&& 0xffff).toNat

def rxOverrunThreshold (param : BitVec 32) : Nat := (param >>> 16 &&& 0xffff).toNat

/-! ## Playing -/

/-- The driver, and behind `waiting` what is about the blocks: they are numbered in the order they
are accepted, and a half that holds none is silent. `clash`: a block was copied into the half that
the DMA plays. `lost`: a block was overwritten before it was played. `disorder`: a block was played
out of turn, or again although the halves are cleared. -/
structure Tx where
  running : Bool
  writePointer : Option Half
  dmaPointer : Option Half
  counts : Counts
  isSemaphore : Bool
  ready : Bool
  waiting : Option Nat
  playing : Half
  buf : Half → Option Nat
  accepted : Nat
  played : Nat
  clash : Bool
  lost : Bool
  disorder : Bool

namespace Tx

/-- Behind `xradio_i2s_open`, which leaves `txDmaPointer` as it was. -/
def opened (dmaPointer : Option Half) : Tx where
  running := false
  writePointer := none
  dmaPointer := dmaPointer
  counts := .zero
  isSemaphore := false
  ready := false
  waiting := none
  playing := .lower
  buf := fun _ => none
  accepted := 0
  played := 0
  clash := false
  lost := false
  disorder := false

/-- The half holds a block that was not played. -/
def unplayed (s : Tx) (h : Half) : Bool := (s.buf h).any fun n => s.played ≤ n

/-- `XRADIO_I2S_MEMCPY` of the next block. -/
def copy (s : Tx) (h : Half) : Tx :=
  { s with
    buf := Function.update s.buf h (some s.accepted)
    accepted := s.accepted + 1
    clash := s.clash || (s.running && s.playing = h)
    lost := s.lost || s.unplayed h }

/-- `XRADIO_I2S_MEMSET`. -/
def clear (s : Tx) (h : Half) : Tx :=
  { s with
    buf := Function.update s.buf h none
    lost := s.lost || s.unplayed h }

/-- `xradio_i2s_dma_trigger(PCM_OUT, true)`. -/
def start (s : Tx) : Tx := { s with running := true, playing := .lower }

/-- The DMA has played a half, and goes on with the other. -/
def finish (threshold : Nat) (s : Tx) : Tx :=
  let s := { s with playing := s.playing.other }
  match s.buf s.playing.other with
  | none => s
  | some n =>
    if n = s.played then { s with played := s.played + 1 }
    else { s with disorder := s.disorder || s.played < n || threshold ≠ 256 }

def release (s : Tx) : Tx :=
  if s.isSemaphore then { s with isSemaphore := false, ready := true } else s

/-- The callback of the interrupt behind `h`. -/
def callback (threshold : Nat) (h : Half) (s : Tx) : Tx :=
  let s := release { s with counts := s.counts.count h }
  if s.counts.reached threshold then
    { s with running := false, writePointer := none, dmaPointer := none, counts := .zero }
  else
    let s := { s with dmaPointer := some h.other }
    if threshold ≠ 256 then s.clear h else s

/-- `xradio_i2s_dma_half_callback` and `xradio_i2s_dma_end_callback`. -/
def halfCallback (threshold : Nat) (s : Tx) : Tx := s.callback threshold .lower

def endCallback (threshold : Nat) (s : Tx) : Tx := s.callback threshold .upper

def irq (threshold : Nat) (s : Tx) : Tx :=
  if s.running then
    match s.playing with
    | .lower => (s.finish threshold).halfCallback threshold
    | .upper => (s.finish threshold).endCallback threshold
  else s

/-- The copy behind the look at the counters. -/
def put (s : Tx) : Tx :=
  { s with writePointer := some (target s.dmaPointer).other }.copy (target s.dmaPointer)

/-- The loop of `xradio_i2s_pcm_write` over the blocks that are left, up to its wait. -/
def writeLoop : Nat → Tx → Tx
  | 0, s => { s with waiting := none }
  | n + 1, s =>
    if s.running then
      if s.counts.any then writeLoop n { s with counts := s.counts.check }.put
      else { s with isSemaphore := true, waiting := some n }
    else
      match s.writePointer with
      | some h => writeLoop n (s.copy h).start
      | none =>
        match n with
        | 0 => writeLoop 0 ({ s with writePointer := some .lower }.copy .lower).start
        | n + 1 =>
          writeLoop n (({ s with writePointer := some .upper }.copy .lower).copy .upper).start

/-- `xradio_i2s_pcm_write` with so many blocks. -/
def pcmWrite (n : Nat) (s : Tx) : Tx :=
  match s.waiting with
  | none => s.writeLoop n
  | some _ => s

/-- The wait gets its token. -/
def wake (s : Tx) : Tx :=
  match s.waiting with
  | some n =>
    if s.ready then { s with ready := false, counts := s.counts.check }.put.writeLoop n else s
  | none => s

end Tx

inductive TxLabel
  | irq
  | pcmWrite (n : Nat)
  | wake

def Tx.next (threshold : Nat) (s : Tx) : TxLabel → Tx
  | .irq => s.irq threshold
  | .pcmWrite n => s.pcmWrite n
  | .wake => s.wake

/-- The step looks at the counters. -/
def Tx.Looks (s : Tx) : TxLabel → Prop
  | .irq => False
  | .pcmWrite n => s.running = true ∧ s.waiting = none ∧ n ≠ 0
  | .wake => s.running = true ∧ s.waiting ≠ none ∧ s.ready = true

instance (s : Tx) (l : TxLabel) : Decidable (s.Looks l) := by
  cases l <;> unfold Tx.Looks <;> infer_instance

/-- A step that looks at the counters does not find that one of them only has wrapped. -/
def Tx.Told (s : Tx) (l : TxLabel) : Prop := s.Looks l → ¬s.counts.Wrapped

instance (s : Tx) (l : TxLabel) : Decidable (s.Told l) :=
  inferInstanceAs (Decidable (s.Looks l → ¬s.counts.Wrapped))

/-- Nothing went wrong up to here. -/
structure Tx.Kept (s : Tx) : Prop where
  clash : s.clash = false
  lost : s.lost = false
  disorder : s.disorder = false

/-! ## Recording -/

/-- The driver, and behind `waiting` what is about the halves, numbered in the order they are
recorded: what the DMA has completed in each, how many in all, and the number behind the one that
was read last. `unfinished`: a half was read that the DMA had not completed. `again`: a half was
read once more, or one that was recorded before one that was read. -/
structure Rx where
  running : Bool
  dmaPointer : Option Half
  counts : Counts
  isSemaphore : Bool
  ready : Bool
  waiting : Option Nat
  filling : Half
  buf : Half → Option Nat
  done : Nat
  next : Nat
  unfinished : Bool
  again : Bool

namespace Rx

/-- Behind `xradio_i2s_open`. -/
def opened (dmaPointer : Option Half) : Rx where
  running := false
  dmaPointer := dmaPointer
  counts := .zero
  isSemaphore := false
  ready := false
  waiting := none
  filling := .lower
  buf := fun _ => none
  done := 0
  next := 0
  unfinished := false
  again := false

/-- `xradio_i2s_dma_trigger(PCM_IN, true)`. -/
def start (s : Rx) : Rx := { s with running := true, filling := .lower }

/-- The DMA has filled a half, and goes on with the other. -/
def complete (s : Rx) : Rx :=
  { s with
    buf := Function.update s.buf s.filling (some s.done)
    done := s.done + 1
    filling := s.filling.other }

def release (s : Rx) : Rx :=
  if s.isSemaphore then { s with isSemaphore := false, ready := true } else s

/-- The callback of the interrupt behind `h`. -/
def callback (threshold : Nat) (h : Half) (s : Rx) : Rx :=
  let s := release { s with counts := s.counts.count h }
  if s.counts.reached threshold then
    { s with running := false, dmaPointer := none, counts := .zero }
  else { s with dmaPointer := some h.other }

/-- `xradio_i2s_dma_half_callback` and `xradio_i2s_dma_end_callback`. -/
def halfCallback (threshold : Nat) (s : Rx) : Rx := s.callback threshold .lower

def endCallback (threshold : Nat) (s : Rx) : Rx := s.callback threshold .upper

def irq (threshold : Nat) (s : Rx) : Rx :=
  if s.running then
    match s.filling with
    | .lower => s.complete.halfCallback threshold
    | .upper => s.complete.endCallback threshold
  else s

/-- The copy behind the look at the counters. When an overrun has stopped the recording it is not
about the recording any more. -/
def take (s : Rx) : Rx :=
  if s.running then
    let got := s.buf (target s.dmaPointer)
    { s with
      unfinished := s.unfinished || s.filling = target s.dmaPointer || got = none
      again := s.again || got.any fun n => n < s.next
      next := got.elim s.next (· + 1) }
  else s

/-- The loop of `xradio_i2s_pcm_read` over the halves that are left, up to its wait. -/
def readLoop : Nat → Rx → Rx
  | 0, s => { s with waiting := none }
  | n + 1, s =>
    let s := if s.running then s else s.start
    if s.counts.any then readLoop n { s with counts := s.counts.check }.take
    else { s with isSemaphore := true, waiting := some n }

/-- `xradio_i2s_pcm_read` for so many halves. -/
def pcmRead (n : Nat) (s : Rx) : Rx :=
  match s.waiting with
  | none => s.readLoop n
  | some _ => s

/-- The wait gets its token. -/
def wake (s : Rx) : Rx :=
  match s.waiting with
  | some n =>
    if s.ready then { s with ready := false, counts := s.counts.check }.take.readLoop n else s
  | none => s

end Rx

inductive RxLabel
  | irq
  | pcmRead (n : Nat)
  | wake

def Rx.step (threshold : Nat) (s : Rx) : RxLabel → Rx
  | .irq => s.irq threshold
  | .pcmRead n => s.pcmRead n
  | .wake => s.wake

/-- The step looks at the counters. -/
def Rx.Looks (s : Rx) : RxLabel → Prop
  | .irq => False
  | .pcmRead n => s.running = true ∧ s.waiting = none ∧ n ≠ 0
  | .wake => s.running = true ∧ s.waiting ≠ none ∧ s.ready = true

def Rx.Told (s : Rx) (l : RxLabel) : Prop := s.Looks l → ¬s.counts.Wrapped

structure Rx.Kept (s : Rx) : Prop where
  unfinished : s.unfinished = false
  again : s.again = false

/-! ## The counters -/

section
variable {c : Counts} {busy : Half}

theorem target_some (h : Half) : target (some h) = h.other := by cases h <;> rfl

theorem half_cases (h g : Half) : g = h ∨ g = h.other := by cases h <;> cases g <;> simp [Half.other]

theorem other_ne (h : Half) : h.other ≠ h := by cases h <;> decide

@[simp] theorem other_other (h : Half) : h.other.other = h := by cases h <;> rfl

theorem Counts.any_iff : c.any = true ↔ c.half ≠ 0 ∨ c.ends ≠ 0 := by simp [any]

theorem Counts.inTurn_zero (busy : Half) : zero.InTurn busy := by
  cases busy <;> exact ⟨by decide, by decide, .inl rfl⟩

/-- An interrupt comes in turn. -/
theorem Counts.InTurn.count (h : c.InTurn busy) : (c.count busy).InTurn busy.other := by
  obtain ⟨hhalf, hends, hturn⟩ := h
  cases busy with
  | lower =>
    refine ⟨Nat.mod_lt _ (by decide), hends, ?_⟩
    simp only [Counts.count, Half.other] at hturn ⊢
    omega
  | upper =>
    refine ⟨hhalf, Nat.mod_lt _ (by decide), ?_⟩
    simp only [Counts.count, Half.other] at hturn ⊢
    omega

/-- When both counters show an interrupt, one did before it. -/
theorem Counts.any_of_count (h : (c.count busy).half ≠ 0 ∧ (c.count busy).ends ≠ 0) :
    c.any = true := by
  rw [any_iff]
  cases busy with
  | lower => exact .inr h.2
  | upper => exact .inl h.1

/-- A look takes the counters to 0 when they have counted all interrupts. -/
theorem Counts.InTurn.check_eq (h : c.InTurn busy) (hw : ¬c.Wrapped) : c.check = zero := by
  obtain ⟨half, ends⟩ := c
  obtain ⟨hhalf, hends, hturn⟩ := h
  have hcases : half ≠ 0 ∧ ends ≠ 0 ∨ half = 1 ∧ ends = 0 ∨ half = 0 ∧ ends = 1 ∨
      half = 0 ∧ ends = 0 := by
    simp only [Wrapped] at hhalf hends hturn hw
    cases busy <;> simp only at hturn <;> omega
  obtain h | ⟨rfl, rfl⟩ | ⟨rfl, rfl⟩ | ⟨rfl, rfl⟩ := hcases
  · rw [check, if_pos h]
  · rfl
  · rfl
  · rfl

/-- When a counter reaches a threshold above 1, both have counted before. -/
theorem Counts.InTurn.reached (h : c.InTurn busy) {threshold : Nat} (ht : 2 ≤ threshold)
    (hr : (c.count busy).reached threshold = true) :
    c.half ≠ 0 ∧ c.ends ≠ 0 ∧ threshold ≠ 256 := by
  obtain ⟨hhalf, hends, hturn⟩ := h
  simp only [Counts.reached, Bool.or_eq_true, decide_eq_true_eq] at hr
  cases busy with
  | lower =>
    simp only [Counts.count] at hturn hr
    omega
  | upper =>
    simp only [Counts.count] at hturn hr
    omega

end

/-! ## The invariant of playing -/

/-- What a half holds was played, and is played again only when halves are not cleared. -/
def Old (threshold played : Nat) (c : Option Nat) : Prop :=
  ∀ n, c = some n → n < played ∧ threshold = 256

theorem old_none (threshold played : Nat) : Old threshold played none :=
  fun n h => absurd h.symm (Option.some_ne_none n)

theorem Old.mono {threshold played played' : Nat} {c : Option Nat} (h : Old threshold played c)
    (hle : played ≤ played') : Old threshold played' c :=
  fun n hn => ⟨Nat.lt_of_lt_of_le (h n hn).1 hle, (h n hn).2⟩

theorem Old.eq_none {threshold played : Nat} {c : Option Nat} (h : Old threshold played c)
    (ht : threshold ≠ 256) : c = none :=
  Option.eq_none_iff_forall_ne_some.mpr fun n hn => ht (h n hn).2

/-- The blocks that were not played are in the half that is playing and then in the other. -/
def Queued (threshold played accepted : Nat) (busy idle : Option Nat) : Prop :=
  ((Old threshold played busy ∧ accepted = played) ∨ (busy = some played ∧ accepted = played + 1)) ∧
      Old threshold played idle ∨
    (Old threshold played busy ∧ idle = some played ∧ accepted = played + 1) ∨
    (busy = some played ∧ idle = some (played + 1) ∧ accepted = played + 2)

namespace Tx

/-- There was an interrupt since the last copy, so the half that is not playing may be written. -/
structure Free (threshold : Nat) (s : Tx) : Prop where
  pointer : s.dmaPointer = some s.playing
  idle : Old threshold s.played (s.buf s.playing.other)

structure Running (threshold : Nat) (s : Tx) : Prop where
  turn : s.counts.InTurn s.playing
  queued : Queued threshold s.played s.accepted (s.buf s.playing) (s.buf s.playing.other)
  free : s.counts.any = true → s.Free threshold
  gone : s.counts.half ≠ 0 ∧ s.counts.ends ≠ 0 → Old threshold s.played (s.buf s.playing)

/-- The DMA is stopped with empty halves, or a call has gone on behind the stop. -/
structure Stopped (s : Tx) : Prop where
  counts : s.counts = .zero
  upper : s.buf .upper = none
  lower : s.writePointer = none ∧ s.buf .lower = none ∧ s.accepted = s.played ∨
    s.writePointer = some .upper ∧ s.buf .lower = some s.played ∧ s.accepted = s.played + 1

/-- Behind an interrupt. -/
def Interrupted (threshold : Nat) (s : Tx) : Prop :=
  (s.running = true ∧ s.Running threshold ∧ s.Free threshold) ∨
    (s.running = false ∧ s.Stopped ∧ s.writePointer = none ∧ s.dmaPointer = none)

def InPhase (threshold : Nat) (s : Tx) : Prop :=
  if s.running then s.Running threshold else s.Stopped

/-- What a call waits for. -/
structure Waits (threshold : Nat) (s : Tx) : Prop where
  none : s.waiting = none → s.isSemaphore = false ∧ s.ready = false
  sem : s.isSemaphore = true → s.ready = false ∧ s.running = true
  free : s.ready = true → s.running = true → s.Free threshold
  stopped : s.ready = true → s.running = false → s.writePointer = .none ∧ s.dmaPointer = .none

structure Inv (threshold : Nat) (s : Tx) : Prop where
  kept : s.Kept
  phase : s.InPhase threshold
  waits : s.Waits threshold

section
variable {threshold : Nat} {s : Tx}

theorem InPhase.running (hr : s.running = true) (h : s.InPhase threshold) : s.Running threshold :=
  (if_pos hr).mp h

theorem InPhase.stopped (hr : s.running = false) (h : s.InPhase threshold) : s.Stopped :=
  (if_neg (Bool.not_eq_true _ ▸ hr)).mp h

theorem inPhase_of_running (hr : s.running = true) (h : s.Running threshold) :
    s.InPhase threshold :=
  (if_pos hr).mpr h

theorem inPhase_of_stopped (hr : s.running = false) (h : s.Stopped) : s.InPhase threshold :=
  (if_neg (Bool.not_eq_true _ ▸ hr)).mpr h

theorem unplayed_of_old {h : Half} (ho : Old threshold s.played (s.buf h)) :
    s.unplayed h = false := by
  rw [unplayed]
  cases hb : s.buf h with
  | none => rfl
  | some n =>
    have hn := (ho n hb).1
    simp [hn]

theorem inv_opened (dmaPointer : Option Half) : (opened dmaPointer).Inv threshold where
  kept := ⟨rfl, rfl, rfl⟩
  phase := ⟨rfl, rfl, .inl ⟨rfl, rfl, rfl⟩⟩
  waits := ⟨fun _ => ⟨rfl, rfl⟩, fun h => absurd h Bool.false_ne_true,
    fun h => absurd h Bool.false_ne_true, fun h => absurd h Bool.false_ne_true⟩

theorem release_eq : release s =
    { s with isSemaphore := false, ready := s.ready || s.isSemaphore } := by
  rw [release]
  cases hs : s.isSemaphore with
  | true => rw [if_pos rfl, Bool.or_true]
  | false => rw [if_neg Bool.false_ne_true, Bool.or_false, ← hs]

/-- What the DMA has played is the next block, or nothing new. -/
theorem finish_eq (h : Queued threshold s.played s.accepted (s.buf s.playing)
      (s.buf s.playing.other)) :
    ∃ played, s.finish threshold = { s with playing := s.playing.other, played } ∧
      s.played ≤ played ∧ (∀ n, s.buf s.playing = some n → n < played) ∧
      ((Old threshold played (s.buf s.playing.other) ∧ s.accepted = played) ∨
        (s.buf s.playing.other = some played ∧ s.accepted = played + 1)) := by
  have hold : Old threshold s.played (s.buf s.playing) →
      s.finish threshold = { s with playing := s.playing.other } := by
    intro ho
    simp only [finish, other_other]
    cases hb : s.buf s.playing with
    | none => rfl
    | some n =>
      obtain ⟨hn, rfl⟩ := ho n hb
      simp [Nat.ne_of_lt hn, Nat.not_lt_of_lt hn]
  have hnew : s.buf s.playing = some s.played →
      s.finish threshold = { s with playing := s.playing.other, played := s.played + 1 } := by
    intro hb
    simp only [finish, other_other, hb, if_true]
  have hlt : Old threshold s.played (s.buf s.playing) →
      ∀ n, s.buf s.playing = some n → n < s.played := fun ho n hn => (ho n hn).1
  have hlt' : s.buf s.playing = some s.played → ∀ n, s.buf s.playing = some n →
      n < s.played + 1 := by
    intro hb n hn
    rw [hb, Option.some.injEq] at hn
    omega
  obtain ⟨⟨ho, ha⟩ | ⟨hb, ha⟩, hi⟩ | ⟨ho, hi, ha⟩ | ⟨hb, hi, ha⟩ := h
  · exact ⟨_, hold ho, Nat.le_refl _, hlt ho, .inl ⟨hi, ha⟩⟩
  · exact ⟨_, hnew hb, Nat.le_succ _, hlt' hb, .inl ⟨hi.mono (Nat.le_succ _), ha⟩⟩
  · exact ⟨_, hold ho, Nat.le_refl _, hlt ho, .inr ⟨hi, ha⟩⟩
  · exact ⟨_, hnew hb, Nat.le_succ _, hlt' hb, .inr ⟨hi, ha⟩⟩

theorem running_of_free (turn : s.counts.InTurn s.playing) (free : s.Free threshold)
    (busy : (Old threshold s.played (s.buf s.playing) ∧ s.accepted = s.played) ∨
      (s.buf s.playing = some s.played ∧ s.accepted = s.played + 1))
    (gone : s.counts.half ≠ 0 ∧ s.counts.ends ≠ 0 → Old threshold s.played (s.buf s.playing)) :
    s.Running threshold ∧ s.Free threshold :=
  ⟨⟨turn, .inl ⟨busy, free.idle⟩, fun _ => free, gone⟩, free⟩

/-- An interrupt of a DMA that is playing. -/
theorem Running.irq (h : s.Running threshold) (hr : s.running = true) (hk : s.Kept)
    (ht : 2 ≤ threshold) :
    (s.irq threshold).Kept ∧ (s.irq threshold).Interrupted threshold ∧
      (s.irq threshold).waiting = s.waiting ∧ (s.irq threshold).isSemaphore = false ∧
      (s.irq threshold).ready = (s.ready || s.isSemaphore) := by
  obtain ⟨played, heq, hle, hlt, hqueue⟩ := finish_eq h.queued
  have hirq : s.irq threshold =
      callback threshold s.playing { s with playing := s.playing.other, played } := by
    rw [Tx.irq, if_pos hr]
    split
    · rename_i hp
      rw [heq, hp]
      rfl
    · rename_i hp
      rw [heq, hp]
      rfl
  rw [hirq, callback, release_eq]
  dsimp only
  split
  · rename_i hreached
    obtain ⟨hhalf, hends, hne⟩ := h.turn.reached ht hreached
    have hbusy := (h.gone ⟨hhalf, hends⟩).eq_none hne
    have hidle := (h.free (Counts.any_iff.mpr (.inl hhalf))).idle.eq_none hne
    have hnone : ∀ g, s.buf g = none := fun g =>
      (half_cases s.playing g).elim (fun h => h ▸ hbusy) fun h => h ▸ hidle
    have hall : s.accepted = played := by
      obtain ⟨-, ha⟩ | ⟨hb, -⟩ := hqueue
      · exact ha
      · exact absurd (hidle.symm.trans hb) (Option.some_ne_none _).symm
    exact ⟨⟨hk.clash, hk.lost, hk.disorder⟩,
      .inr ⟨rfl, ⟨rfl, hnone _, .inl ⟨rfl, hnone _, hall⟩⟩, rfl, rfl⟩, rfl, rfl, rfl⟩
  · have hturn := h.turn.count
    have hgone : (s.counts.count s.playing).half ≠ 0 ∧ (s.counts.count s.playing).ends ≠ 0 →
        Old threshold played (s.buf s.playing.other) := fun hboth =>
      (h.free (Counts.any_of_count hboth)).idle.mono hle
    have hun : (s.buf s.playing).any (fun n => decide (played ≤ n)) = false := by
      cases hb : s.buf s.playing with
      | none => rfl
      | some n => simp [hlt n hb]
    split
    · have hbusy : Function.update s.buf s.playing none s.playing.other = s.buf s.playing.other :=
        Function.update_of_ne (other_ne _) _ _
      have hidle : Function.update s.buf s.playing none s.playing.other.other = none := by
        rw [other_other, Function.update_self]
      refine ⟨⟨hk.clash, ?_, hk.disorder⟩,
        .inl ⟨hr, running_of_free hturn ⟨rfl, ?_⟩ ?_ ?_⟩, rfl, rfl, rfl⟩
      · simp only [clear, unplayed, hk.lost, Bool.false_or]
        exact hun
      · simp only [clear, hidle]
        exact old_none _ _
      · simpa only [clear, hbusy] using hqueue
      · simpa only [clear, hbusy] using hgone
    · rename_i h256
      refine ⟨⟨hk.clash, hk.lost, hk.disorder⟩,
        .inl ⟨hr, running_of_free hturn ⟨rfl, fun n hn => ⟨hlt n ?_, not_not.mp h256⟩⟩ hqueue hgone⟩,
        rfl, rfl, rfl⟩
      simpa only [other_other] using hn

theorem Inv.irq (h : s.Inv threshold) (ht : 2 ≤ threshold) : (s.irq threshold).Inv threshold := by
  cases hr : s.running with
  | false =>
    rw [Tx.irq, if_neg (by rw [hr]; exact Bool.false_ne_true)]
    exact h
  | true =>
    have hphase : s.Running threshold := h.phase.running hr
    obtain ⟨hk, hi, hwait, hsem, hready⟩ := hphase.irq hr h.kept ht
    have hnone : (s.irq threshold).waiting = none → (s.irq threshold).ready = false := by
      intro hn
      obtain ⟨hs, hr⟩ := h.waits.none (hwait.symm.trans hn)
      rw [hready, hs, hr]
      rfl
    have hno : (s.irq threshold).isSemaphore = true → False := by simp [hsem]
    obtain ⟨hr', hrun, hfree⟩ | ⟨hr', hstop, hptr⟩ := hi
    · exact ⟨hk, inPhase_of_running hr' hrun, fun hn => ⟨hsem, hnone hn⟩, fun hs => (hno hs).elim,
        fun _ _ => hfree, fun _ hf => absurd (hr'.symm.trans hf) Bool.false_ne_true.symm⟩
    · have hf : ¬(s.irq threshold).running = true := by simp [hr']
      exact ⟨hk, inPhase_of_stopped hr' hstop, fun hn => ⟨hsem, hnone hn⟩, fun hs => (hno hs).elim,
        fun _ ht => absurd ht hf, fun _ _ => hptr⟩

/-- Before a pass of the loop. -/
structure Ready (threshold : Nat) (s : Tx) : Prop where
  kept : s.Kept
  phase : s.InPhase threshold
  sem : s.isSemaphore = false
  ready : s.ready = false
  told : s.running = true → ¬s.counts.Wrapped

theorem not_wrapped_zero : ¬Counts.zero.Wrapped := by decide

/-- The half that is not playing gets the next block. -/
theorem put_running (hr : s.running = true) (hk : s.Kept) (hc : s.counts = .zero)
    (hq : Queued threshold s.played s.accepted (s.buf s.playing) (s.buf s.playing.other))
    (hf : s.Free threshold) (hsem : s.isSemaphore = false) (hready : s.ready = false) :
    s.put.Ready threshold := by
  have htarget : target s.dmaPointer = s.playing.other := by rw [hf.pointer, target_some]
  have hbusy : Function.update s.buf s.playing.other (some s.accepted) s.playing = s.buf s.playing :=
    Function.update_of_ne (other_ne _).symm _ _
  have hun := unplayed_of_old hf.idle
  rw [put, htarget, copy]
  dsimp only
  refine ⟨⟨?_, ?_, hk.disorder⟩, inPhase_of_running hr ⟨?_, ?_, ?_, ?_⟩, hsem, hready, fun _ => ?_⟩
  · simp [hk.clash, (other_ne s.playing).symm]
  · rw [hk.lost, Bool.false_or]
    exact hun
  · rw [hc]
    exact Counts.inTurn_zero _
  · dsimp only
    rw [hbusy, Function.update_self]
    obtain ⟨⟨ho, ha⟩ | ⟨hb, ha⟩, -⟩ | ⟨-, hi, -⟩ | ⟨-, hi, -⟩ := hq
    · exact .inr (.inl ⟨ho, congrArg some ha, congrArg (· + 1) ha⟩)
    · exact .inr (.inr ⟨hb, congrArg some ha, congrArg (· + 1) ha⟩)
    · exact absurd (hf.idle _ hi).1 (Nat.lt_irrefl _)
    · exact absurd (hf.idle _ hi).1 (by omega)
  · rw [hc]
    exact fun hany => absurd hany Bool.false_ne_true
  · rw [hc]
    exact fun hboth => absurd rfl hboth.1
  · rw [hc]
    exact not_wrapped_zero

theorem Stopped.empty (h : s.Stopped) (hp : s.writePointer = none) :
    s.buf .lower = none ∧ s.accepted = s.played := by
  obtain ⟨-, hl⟩ | ⟨hw, -⟩ := h.lower
  · exact hl
  · exact absurd (hw.symm.trans hp) (Option.some_ne_none _)

/-- A call that goes on behind a stop writes the lower half. -/
theorem put_stopped (hr : s.running = false) (hk : s.Kept) (hs : s.Stopped)
    (hp : s.writePointer = none) (hd : s.dmaPointer = none) (hsem : s.isSemaphore = false)
    (hready : s.ready = false) : s.put.Ready threshold := by
  have htarget : target s.dmaPointer = .lower := by rw [hd]; rfl
  have hnot : ¬s.running = true := by simp [hr]
  obtain ⟨hl, ha⟩ := hs.empty hp
  rw [put, htarget, copy]
  dsimp only
  refine ⟨⟨?_, ?_, hk.disorder⟩, inPhase_of_stopped hr ⟨hs.counts, ?_, .inr ⟨rfl, ?_, ?_⟩⟩, hsem,
    hready, fun h => absurd h hnot⟩
  · simp [hk.clash, hr]
  · simp [hk.lost, unplayed, hl]
  · dsimp only
    rw [Function.update_of_ne (by decide), hs.upper]
  · dsimp only
    rw [Function.update_self, ha]
  · exact congrArg (· + 1) ha

/-- The DMA starts with the lower half. -/
theorem start_ready (hk : s.Kept) (hc : s.counts = .zero)
    (hq : Queued threshold s.played s.accepted (s.buf .lower) (s.buf .upper))
    (hsem : s.isSemaphore = false) (hready : s.ready = false) : s.start.Ready threshold := by
  have hcounts : s.start.counts = .zero := hc
  refine ⟨⟨hk.clash, hk.lost, hk.disorder⟩, inPhase_of_running rfl ⟨?_, hq, ?_, ?_⟩, hsem, hready,
    fun _ => ?_⟩
  · rw [hcounts]
    exact Counts.inTurn_zero _
  · rw [hcounts]
    exact fun hany => absurd hany Bool.false_ne_true
  · rw [hcounts]
    exact fun hboth => absurd rfl hboth.1
  · rw [hcounts]
    exact not_wrapped_zero

theorem writeLoop_zero : s.writeLoop 0 = { s with waiting := none } := by rw [writeLoop]

theorem writeLoop_succ (n : Nat) :
    s.writeLoop (n + 1) =
      if s.running then
        if s.counts.any then { s with counts := s.counts.check }.put.writeLoop n
        else { s with isSemaphore := true, waiting := some n }
      else
        match s.writePointer with
        | some h => (s.copy h).start.writeLoop n
        | none =>
          match n with
          | 0 => ({ s with writePointer := some .lower }.copy .lower).start.writeLoop 0
          | n + 1 =>
            (({ s with writePointer := some .upper }.copy .lower).copy .upper).start.writeLoop n := by
  rw [writeLoop.eq_def]

theorem writeLoop_look {n : Nat} (hr : s.running = true) (hany : s.counts.any = true) :
    s.writeLoop (n + 1) = { s with counts := s.counts.check }.put.writeLoop n := by
  rw [writeLoop_succ, if_pos hr, if_pos hany]

theorem writeLoop_wait {n : Nat} (hr : s.running = true) (hany : ¬s.counts.any = true) :
    s.writeLoop (n + 1) = { s with isSemaphore := true, waiting := some n } := by
  rw [writeLoop_succ, if_pos hr, if_neg hany]

theorem writeLoop_start {n : Nat} {h : Half} (hr : ¬s.running = true)
    (hp : s.writePointer = some h) : s.writeLoop (n + 1) = (s.copy h).start.writeLoop n := by
  rw [writeLoop_succ, if_neg hr, hp]

theorem writeLoop_one (hr : ¬s.running = true) (hp : s.writePointer = none) :
    s.writeLoop 1 = ({ s with writePointer := some .lower }.copy .lower).start.writeLoop 0 := by
  rw [writeLoop_succ, if_neg hr, hp]

theorem writeLoop_two {n : Nat} (hr : ¬s.running = true) (hp : s.writePointer = none) :
    s.writeLoop (n + 2) = (({ s with writePointer := some .upper }.copy .lower).copy
      .upper).start.writeLoop n := by
  rw [writeLoop_succ, if_neg hr, hp]

theorem copy_kept {h : Half} (hk : s.Kept) (hr : s.running = false) (hb : s.buf h = none) :
    (s.copy h).Kept :=
  ⟨by simp [copy, hk.clash, hr], by simp [copy, hk.lost, unplayed, hb], hk.disorder⟩

/-- The wait of a call is no part of the phase. -/
theorem InPhase.wait (h : s.InPhase threshold) (isSemaphore : Bool) (waiting : Option Nat) :
    { s with isSemaphore, waiting }.InPhase threshold := by
  cases hr : s.running with
  | true =>
    have hrun : s.Running threshold := h.running hr
    refine inPhase_of_running rfl ⟨hrun.turn, hrun.queued, fun hany => ?_, hrun.gone⟩
    exact ⟨(hrun.free hany).pointer, (hrun.free hany).idle⟩
  | false =>
    have hstop : s.Stopped := h.stopped hr
    exact inPhase_of_stopped rfl ⟨hstop.counts, hstop.upper, hstop.lower⟩

theorem Ready.writeLoop (n : Nat) (h : s.Ready threshold) : (s.writeLoop n).Inv threshold := by
  induction n, s using Tx.writeLoop.induct with
  | case1 s =>
    rw [writeLoop_zero]
    exact ⟨⟨h.kept.clash, h.kept.lost, h.kept.disorder⟩, h.phase.wait _ _, ⟨
      fun _ => ⟨h.sem, h.ready⟩, fun hs => absurd (h.sem.symm.trans hs) Bool.false_ne_true,
      fun hs => absurd (h.ready.symm.trans hs) Bool.false_ne_true,
      fun hs => absurd (h.ready.symm.trans hs) Bool.false_ne_true⟩⟩
  | case2 n s hr hany ih =>
    have hrun : s.Running threshold := h.phase.running hr
    rw [writeLoop_look hr hany]
    exact ih (put_running hr ⟨h.kept.clash, h.kept.lost, h.kept.disorder⟩
      (hrun.turn.check_eq (h.told hr)) hrun.queued ⟨(hrun.free hany).pointer, (hrun.free hany).idle⟩
      h.sem h.ready)
  | case3 n s hr hany =>
    rw [writeLoop_wait hr hany]
    exact ⟨⟨h.kept.clash, h.kept.lost, h.kept.disorder⟩, h.phase.wait _ _, ⟨
      fun hn => absurd hn (Option.some_ne_none _), fun _ => ⟨h.ready, hr⟩,
      fun hs => absurd (h.ready.symm.trans hs) Bool.false_ne_true,
      fun hs => absurd (h.ready.symm.trans hs) Bool.false_ne_true⟩⟩
  | case4 n s hr h' hp ih =>
    -- behind a stop, with a block in the lower half
    have hr' : s.running = false := by simpa using hr
    have hs : s.Stopped := h.phase.stopped hr'
    obtain ⟨hw, -⟩ | ⟨hw, hl, ha⟩ := hs.lower
    · exact absurd (hp.symm.trans hw) (Option.some_ne_none _)
    · obtain rfl : h' = .upper := Option.some.inj (hp.symm.trans hw)
      rw [writeLoop_start hr hp]
      refine ih (start_ready (copy_kept h.kept hr' hs.upper) hs.counts ?_ h.sem h.ready)
      simp [copy, Queued, hl, ha]
  | case5 s hr hp ih =>
    have hr' : s.running = false := by simpa using hr
    have hs : s.Stopped := h.phase.stopped hr'
    obtain ⟨hl, ha⟩ := hs.empty hp
    rw [writeLoop_one hr hp]
    have hk : { s with writePointer := some .lower }.Kept :=
      ⟨h.kept.clash, h.kept.lost, h.kept.disorder⟩
    refine ih (start_ready (copy_kept hk hr' hl) hs.counts ?_ h.sem h.ready)
    simp [copy, Queued, hs.upper, ha, old_none]
  | case6 s hr hp n ih =>
    have hr' : s.running = false := by simpa using hr
    have hs : s.Stopped := h.phase.stopped hr'
    obtain ⟨hl, ha⟩ := hs.empty hp
    rw [writeLoop_two hr hp]
    have hk : { s with writePointer := some .upper }.Kept :=
      ⟨h.kept.clash, h.kept.lost, h.kept.disorder⟩
    refine ih (start_ready (copy_kept (copy_kept hk hr' hl) hr' ?_) hs.counts ?_ h.sem h.ready)
    · simp [copy, hs.upper]
    · simp [copy, Queued, ha]

theorem Inv.pcmWrite {n : Nat} (h : s.Inv threshold) (hl : s.Told (.pcmWrite n)) :
    (s.pcmWrite n).Inv threshold := by
  rw [Tx.pcmWrite]
  cases hw : s.waiting with
  | some _ => exact h
  | none =>
    obtain ⟨hsem, hready⟩ := h.waits.none hw
    cases n with
    | zero =>
      have hsame : s.writeLoop 0 = s := by rw [writeLoop_zero, ← hw]
      exact hsame ▸ h
    | succ n =>
      exact Ready.writeLoop _ ⟨h.kept, h.phase, hsem, hready,
        fun hr => hl ⟨hr, hw, Nat.succ_ne_zero n⟩⟩

theorem Inv.wake (h : s.Inv threshold) (hl : s.Told .wake) : s.wake.Inv threshold := by
  rw [Tx.wake]
  cases hw : s.waiting with
  | none => exact h
  | some n =>
    dsimp only
    split
    · rename_i hready
      have hsem : s.isSemaphore = false := by
        cases hs : s.isSemaphore with
        | false => rfl
        | true => exact absurd ((h.waits.sem hs).1.symm.trans hready) Bool.false_ne_true
      refine Ready.writeLoop n ?_
      have hk := h.kept
      cases hr : s.running with
      | true =>
        have hrun := h.phase.running hr
        have hf := h.waits.free hready hr
        have hnot : ¬s.counts.Wrapped :=
          hl ⟨hr, by rw [hw]; exact Option.some_ne_none n, hready⟩
        exact put_running rfl ⟨hk.clash, hk.lost, hk.disorder⟩ (hrun.turn.check_eq hnot)
          hrun.queued ⟨hf.pointer, hf.idle⟩ hsem rfl
      | false =>
        have hstop := h.phase.stopped hr
        obtain ⟨hp, hd⟩ := h.waits.stopped hready hr
        have hc : s.counts.check = .zero := by rw [hstop.counts]; rfl
        exact put_stopped rfl ⟨hk.clash, hk.lost, hk.disorder⟩ ⟨hc, hstop.upper, hstop.lower⟩ hp hd
          hsem rfl
    · exact h

theorem Inv.next (h : s.Inv threshold) (ht : 2 ≤ threshold) (l : TxLabel) (hl : s.Told l) :
    (s.next threshold l).Inv threshold := by
  cases l with
  | irq => exact h.irq ht
  | pcmWrite n => exact h.pcmWrite hl
  | wake => exact h.wake hl

end

end Tx

/-! ## The invariant of recording -/

namespace Rx

/-- There was an interrupt since the last read, so the half that is not being filled is new. -/
structure Free (s : Rx) : Prop where
  pointer : s.dmaPointer = some s.filling
  idle : ∃ n, s.buf s.filling.other = some n ∧ s.next ≤ n ∧ n < s.done

structure Running (s : Rx) : Prop where
  turn : s.counts.InTurn s.filling
  next : s.next ≤ s.done
  free : s.counts.any = true → s.Free

structure Stopped (s : Rx) : Prop where
  counts : s.counts = .zero
  next : s.next ≤ s.done

def InPhase (s : Rx) : Prop := if s.running then s.Running else s.Stopped

/-- What a call waits for. -/
structure Waits (s : Rx) : Prop where
  none : s.waiting = none → s.isSemaphore = false ∧ s.ready = false
  sem : s.isSemaphore = true → s.ready = false
  free : s.ready = true → s.running = true → s.Free

structure Inv (s : Rx) : Prop where
  kept : s.Kept
  phase : s.InPhase
  waits : s.Waits

/-- Before a pass of the loop. -/
structure Ready (s : Rx) : Prop where
  kept : s.Kept
  phase : s.InPhase
  sem : s.isSemaphore = false
  ready : s.ready = false
  told : s.running = true → ¬s.counts.Wrapped

section
variable {threshold : Nat} {s : Rx}

theorem InPhase.running (hr : s.running = true) (h : s.InPhase) : s.Running := (if_pos hr).mp h

theorem InPhase.stopped (hr : s.running = false) (h : s.InPhase) : s.Stopped :=
  (if_neg (Bool.not_eq_true _ ▸ hr)).mp h

theorem inPhase_of_running (hr : s.running = true) (h : s.Running) : s.InPhase := (if_pos hr).mpr h

theorem inPhase_of_stopped (hr : s.running = false) (h : s.Stopped) : s.InPhase :=
  (if_neg (Bool.not_eq_true _ ▸ hr)).mpr h

theorem inv_opened (dmaPointer : Option Half) : (opened dmaPointer).Inv where
  kept := ⟨rfl, rfl⟩
  phase := ⟨rfl, Nat.le_refl 0⟩
  waits := ⟨fun _ => ⟨rfl, rfl⟩, fun h => absurd h Bool.false_ne_true,
    fun h => absurd h Bool.false_ne_true⟩

theorem release_eq : release s =
    { s with isSemaphore := false, ready := s.ready || s.isSemaphore } := by
  rw [release]
  cases hs : s.isSemaphore with
  | true => rw [if_pos rfl, Bool.or_true]
  | false => rw [if_neg Bool.false_ne_true, Bool.or_false, ← hs]

/-- An interrupt of a DMA that is recording. -/
theorem Running.irq (threshold : Nat) (h : s.Running) (hr : s.running = true) (hk : s.Kept) :
    (s.irq threshold).Kept ∧ (s.irq threshold).InPhase ∧
      ((s.irq threshold).running = true → (s.irq threshold).Free) ∧
      (s.irq threshold).waiting = s.waiting ∧ (s.irq threshold).isSemaphore = false ∧
      (s.irq threshold).ready = (s.ready || s.isSemaphore) := by
  have hirq : s.irq threshold = s.complete.callback threshold s.filling := by
    rw [Rx.irq, if_pos hr]
    split
    · rename_i hf
      rw [hf]
      rfl
    · rename_i hf
      rw [hf]
      rfl
  rw [hirq, callback, release_eq]
  dsimp only
  split
  · exact ⟨⟨hk.unfinished, hk.again⟩, inPhase_of_stopped rfl ⟨rfl, Nat.le_succ_of_le h.next⟩,
      fun h => absurd h Bool.false_ne_true, rfl, rfl, rfl⟩
  · have hidle : ∃ n, Function.update s.buf s.filling (some s.done) s.filling.other.other = some n ∧
        s.next ≤ n ∧ n < s.done + 1 :=
      ⟨s.done, by rw [other_other, Function.update_self], h.next, Nat.lt_succ_self _⟩
    exact ⟨⟨hk.unfinished, hk.again⟩, inPhase_of_running hr
      ⟨h.turn.count, Nat.le_succ_of_le h.next, fun _ => ⟨rfl, hidle⟩⟩, fun _ => ⟨rfl, hidle⟩, rfl, rfl,
      rfl⟩

theorem Inv.irq (h : s.Inv) : (s.irq threshold).Inv := by
  cases hr : s.running with
  | false =>
    rw [Rx.irq, if_neg (by rw [hr]; exact Bool.false_ne_true)]
    exact h
  | true =>
    obtain ⟨hk, hp, hf, hwait, hsem, hready⟩ :=
      (h.phase.running hr).irq threshold hr h.kept
    refine ⟨hk, hp, fun hn => ⟨hsem, ?_⟩, fun hs => ?_, fun _ => hf⟩
    · obtain ⟨hs, hr⟩ := h.waits.none (hwait.symm.trans hn)
      rw [hready, hs, hr]
      rfl
    · exact absurd (hsem.symm.trans hs) Bool.false_ne_true

theorem take_running (hr : s.running = true) (hk : s.Kept) (hc : s.counts = .zero) (hf : s.Free)
    (hsem : s.isSemaphore = false) (hready : s.ready = false) : s.take.Ready := by
  obtain ⟨n, hn, hle, hlt⟩ := hf.idle
  have htarget : target s.dmaPointer = s.filling.other := by rw [hf.pointer, target_some]
  rw [take, if_pos hr, htarget, hn]
  refine ⟨⟨?_, ?_⟩, inPhase_of_running hr ⟨?_, hlt, ?_⟩, hsem, hready, fun _ => ?_⟩
  · simp [hk.unfinished, (other_ne s.filling).symm]
  · simp [hk.again, hle]
  · rw [hc]
    exact Counts.inTurn_zero _
  · rw [hc]
    exact fun hany => absurd hany Bool.false_ne_true
  · rw [hc]
    decide

theorem take_stopped (hr : s.running = false) : s.take = s := by
  rw [take, hr, if_neg Bool.false_ne_true]

theorem Ready.start (h : s.Ready) (hr : s.running = false) : s.start.Ready := by
  have hs := h.phase.stopped hr
  refine ⟨⟨h.kept.unfinished, h.kept.again⟩, inPhase_of_running rfl ⟨?_, hs.next, ?_⟩, h.sem,
    h.ready, fun _ => ?_⟩
  · rw [show s.start.counts = .zero from hs.counts]
    exact Counts.inTurn_zero _
  · rw [show s.start.counts = .zero from hs.counts]
    exact fun hany => absurd hany Bool.false_ne_true
  · rw [show s.start.counts = .zero from hs.counts]
    decide

theorem InPhase.wait (h : s.InPhase) (isSemaphore : Bool) (waiting : Option Nat) :
    { s with isSemaphore, waiting }.InPhase := by
  cases hr : s.running with
  | true =>
    have hrun : s.Running := h.running hr
    exact inPhase_of_running rfl ⟨hrun.turn, hrun.next,
      fun hany => ⟨(hrun.free hany).pointer, (hrun.free hany).idle⟩⟩
  | false =>
    have hstop : s.Stopped := h.stopped hr
    exact inPhase_of_stopped rfl ⟨hstop.counts, hstop.next⟩

/-- A pass of a recording that is running. -/
theorem Ready.pass {n : Nat} (h : s.Ready) (hr : s.running = true)
    (ih : ∀ {s : Rx}, s.Ready → (s.readLoop n).Inv) :
    (if s.counts.any then readLoop n { s with counts := s.counts.check }.take
      else { s with isSemaphore := true, waiting := some n }).Inv := by
  have hrun := h.phase.running hr
  split
  · rename_i hany
    have hf := hrun.free hany
    exact ih (take_running hr ⟨h.kept.unfinished, h.kept.again⟩
      (hrun.turn.check_eq (h.told hr)) ⟨hf.pointer, hf.idle⟩ h.sem h.ready)
  · exact ⟨⟨h.kept.unfinished, h.kept.again⟩, h.phase.wait _ _,
      ⟨fun hn => absurd hn (Option.some_ne_none _), fun _ => h.ready,
        fun hs => absurd (h.ready.symm.trans hs) Bool.false_ne_true⟩⟩

theorem Ready.readLoop (n : Nat) (h : s.Ready) : (s.readLoop n).Inv := by
  induction n generalizing s with
  | zero =>
    exact ⟨⟨h.kept.unfinished, h.kept.again⟩, h.phase.wait _ _, ⟨fun _ => ⟨h.sem, h.ready⟩,
      fun hs => absurd (h.sem.symm.trans hs) Bool.false_ne_true,
      fun hs => absurd (h.ready.symm.trans hs) Bool.false_ne_true⟩⟩
  | succ n ih =>
    rw [Rx.readLoop]
    cases hr : s.running with
    | true => exact h.pass hr ih
    | false => exact (h.start hr).pass rfl ih

theorem Inv.pcmRead {n : Nat} (h : s.Inv) (hl : s.Told (.pcmRead n)) : (s.pcmRead n).Inv := by
  rw [Rx.pcmRead]
  cases hw : s.waiting with
  | some _ => exact h
  | none =>
    obtain ⟨hsem, hready⟩ := h.waits.none hw
    cases n with
    | zero =>
      have hsame : s.readLoop 0 = s := by rw [readLoop, ← hw]
      exact hsame ▸ h
    | succ n =>
      exact Ready.readLoop _ ⟨h.kept, h.phase, hsem, hready,
        fun hr => hl ⟨hr, hw, Nat.succ_ne_zero n⟩⟩

theorem Inv.wake (h : s.Inv) (hl : s.Told .wake) : s.wake.Inv := by
  rw [Rx.wake]
  cases hw : s.waiting with
  | none => exact h
  | some n =>
    dsimp only
    split
    · rename_i hready
      have hk := h.kept
      have hsem : s.isSemaphore = false := by
        cases hs : s.isSemaphore with
        | false => rfl
        | true => exact absurd ((h.waits.sem hs).symm.trans hready) Bool.false_ne_true
      refine Ready.readLoop n ?_
      cases hr : s.running with
      | true =>
        have hrun := h.phase.running hr
        have hf := h.waits.free hready hr
        have hnot : ¬s.counts.Wrapped :=
          hl ⟨hr, by rw [hw]; exact Option.some_ne_none n, hready⟩
        exact take_running rfl ⟨hk.unfinished, hk.again⟩ (hrun.turn.check_eq hnot)
          ⟨hf.pointer, hf.idle⟩ hsem rfl
      | false =>
        have hstop := h.phase.stopped hr
        have hc : s.counts.check = .zero := by rw [hstop.counts]; rfl
        rw [take_stopped rfl]
        exact ⟨⟨hk.unfinished, hk.again⟩, inPhase_of_stopped rfl ⟨hc, hstop.next⟩, hsem, rfl,
          fun h => absurd h Bool.false_ne_true⟩
    · exact h

theorem Inv.step (h : s.Inv) (threshold : Nat) (l : RxLabel) (hl : s.Told l) :
    (s.step threshold l).Inv := by
  cases l with
  | irq => exact h.irq
  | pcmRead n => exact h.pcmRead hl
  | wake => exact h.wake hl

end

end Rx

/-! ## Both directions -/

/-- In a run whose calls see all interrupts, all that is accepted is played in order and all that
is read was recorded, in order. -/
theorem i2s_ring_kept (param : BitVec 32) :
    (2 ≤ txUnderrunThreshold param → ∀ dmaPointer ls,
      Along (Tx.next (txUnderrunThreshold param)) Tx.Told (.opened dmaPointer) ls →
        (ls.foldl (Tx.next (txUnderrunThreshold param)) (.opened dmaPointer)).Kept) ∧
    (2 ≤ rxOverrunThreshold param → ∀ dmaPointer ls,
      Along (Rx.step (rxOverrunThreshold param)) Rx.Told (.opened dmaPointer) ls →
        (ls.foldl (Rx.step (rxOverrunThreshold param)) (.opened dmaPointer)).Kept) := by
  constructor
  · intro ht dmaPointer ls h
    exact (along_foldl (Tx.inv_opened dmaPointer) (fun s l hs hl => hs.next ht l hl) h).kept
  · intro _ dmaPointer ls h
    exact (along_foldl (Rx.inv_opened dmaPointer) (fun s l hs hl => hs.step _ l hl) h).kept

/-- A run with an underrun, behind which the call that waits goes on. -/
theorem i2s_ring_kept_underrun :
    ([TxLabel.pcmWrite 2, .pcmWrite 1, .irq, .irq, .irq, .wake, .pcmWrite 2, .irq, .wake].foldl
      (Tx.next 2) (.opened none)).Kept :=
  (i2s_ring_kept 2).1 (by decide) none _ (by decide)

set_option maxRecDepth 8000 in
/-- With no limit on underruns, 511 interrupts between two calls hide from the second one that it
has to wait. -/
theorem wrapped_counter_loses_block :
    ¬∀ param, 2 ≤ txUnderrunThreshold param → ∀ ls : List TxLabel,
      (ls.foldl (Tx.next (txUnderrunThreshold param)) (.opened none)).Kept := by
  intro h
  have hlost : ((TxLabel.pcmWrite 1 :: List.replicate 511 .irq ++ [TxLabel.pcmWrite 2]).foldl
      (Tx.next (txUnderrunThreshold 256)) (.opened none)).lost = true := by
    decide
  exact absurd ((h 256 (by decide) _).lost.symm.trans hlost) Bool.false_ne_true

end I2s
end Audio
end XR806

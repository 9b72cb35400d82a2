import XR806.Trans.Along
import Mathlib.Algebra.Group.Nat.Defs

/-!
# XR806.Sdc.Request

The requests to an SD host, one after the other, and its interrupts between their steps. A request
programs what it waits for, sends the command and waits for a token of the interrupt handler. What a
request has set is taken back by the end of a request only that has got its token, so a wait that
times out leaves it for the next one, and so does an interrupt that comes when the token is given.
When interrupts come in time, every request leaves the host idle, and returns 0 only if its own
command has finished (`requests_leave_idle`).
-/

namespace XR806
namespace Sdc

open Trans (Along along_imp)

/-! ## The host -/

/-- `host->wait`. -/
inductive Wait
  | none
  | cmdDone
  | dataOver
  | autocmdDone
  | rxDataOver
  | rxAutocmdDone
  | finalize
  deriving DecidableEq

/-- `SDC_WAIT_IDMA_DONE` is set. -/
def Wait.idma : Wait → Bool
  | .rxDataOver => true
  | .rxAutocmdDone => true
  | _ => false

def Wait.withIdma : Wait → Wait
  | .dataOver => .rxDataOver
  | .autocmdDone => .rxAutocmdDone
  | wait => wait

/-- The interrupts that are enabled, of those that the host waits for. -/
structure Mask where
  cmdDone : Bool
  dataOver : Bool
  autoCmdDone : Bool
  err : Bool

def Mask.off : Mask := ⟨false, false, false, false⟩

/-- The scatter list of a transfer has the addresses and lengths of its buffers. -/
structure Data where
  write : Bool
  stream : Bool
  sg : List (BitVec 32 × BitVec 32)

/-- A request and its command, which has the same data. -/
structure Request where
  goIdle : Bool
  rspPresent : Bool
  adtc : Bool
  stop : Bool
  data : Option Data

/-- Where the thread is: waiting, with its token, or behind the critical section of
`__mci_request_done`. -/
inductive Phase
  | idle
  | pend
  | woken
  | final
  deriving DecidableEq

/-- `struct mmc_host`: of `int_sum` the error bits, of `dma_hdle` whether it is set. The last fields
are about the request: whether its command was sent, whether it reads by DMA, and what interrupts of
its command have said while the host waited. -/
structure Host where
  dmaUse : Bool
  mrqData : Bool
  wait : Wait
  transDone : Bool
  dmaDone : Bool
  dmaHdle : Bool
  intErr : Bool
  imask : Mask
  lock : Nat
  phase : Phase
  sent : Bool
  dmaRead : Bool
  finished : Bool
  dmaFinished : Bool
  errored : Bool

/-- Behind `HAL_SDC_Init`. -/
def start (dmaUse : Bool) (imask : Mask) : Host where
  dmaUse := dmaUse
  mrqData := false
  wait := .none
  transDone := false
  dmaDone := false
  dmaHdle := false
  intErr := false
  imask := imask
  lock := 0
  phase := .idle
  sent := false
  dmaRead := false
  finished := false
  dmaFinished := false
  errored := false

/-- `SDC_MAX_CPU_TRANS_LEN`. -/
def maxCpuTransLen : BitVec 32 := 64

/-- The loop over the scatter list: whether DMA stays in use, and the bytes counted. -/
def countBytes : List (BitVec 32 × BitVec 32) → Bool → BitVec 32 → Bool × BitVec 32
  | [], useDma, byteCnt => (useDma, byteCnt)
  | (buffer, len) :: sg, useDma, byteCnt =>
    if buffer &&& 3 ≠ 0 then (false, byteCnt + len) else countBytes sg useDma (byteCnt + len)

def Data.usesDma (d : Data) (dmaUse : Bool) : Bool :=
  let (useDma, byteCnt) := countBytes d.sg dmaUse 0
  useDma && maxCpuTransLen < byteCnt

/-- `__mci_send_cmd`: what the host then waits for and its interrupts, if the command is sent. -/
def sendCmd (r : Request) (dmaHdle : Bool) : Option (Wait × Mask) :=
  if r.rspPresent && r.adtc then
    match r.data with
    | none => none
    | some data =>
      let wait : Wait := if data.stream || r.stop then .autocmdDone else .dataOver
      some (if !data.write && dmaHdle then wait.withIdma else wait,
        ⟨r.goIdle, !r.stop, data.stream || r.stop, true⟩)
  else some (.cmdDone, ⟨true, false, false, true⟩)

/-- The raw interrupt status, the status of the IDMA, and whether these are of the command of the
request in progress. -/
structure Irq where
  cmdDone : Bool
  dataOver : Bool
  autoCmdDone : Bool
  err : Bool
  idma : Bool
  idmaErr : Bool
  own : Bool

namespace Host

/-- `rom_HAL_SDC_Request` up to its wait. -/
def request (s : Host) (present : Bool) (r : Request) : Host × Option Int :=
  if !present then (s, some (-1))
  else
    let dma := r.data.any (·.usesDma s.dmaUse)
    let s := { s with
      mrqData := r.data.isSome
      -- `__mci_prepare_dma` does not fail
      dmaHdle := dma || s.dmaHdle
      phase := .pend, finished := false, dmaFinished := false, errored := false }
    match sendCmd r s.dmaHdle with
    | some (wait, imask) => ({ s with wait, imask, sent := true, dmaRead := wait.idma }, none)
    | none => ({ s with sent := false, dmaRead := false }, none)

/-- The wait gets a token. -/
def take (s : Host) : Host :=
  match s.phase with
  | .pend => if s.lock ≠ 0 then { s with lock := s.lock - 1, phase := .woken } else s
  | _ => s

/-- The wait times out, and the request returns. -/
def timeout (s : Host) : Host × Option Int :=
  match s.phase with
  | .pend => if s.lock ≠ 0 then (s, none) else ({ s with phase := .idle }, some (-4))
  | _ => (s, none)

/-- The critical section of `__mci_request_done`. -/
def requestDone (s : Host) : Host × Option Int :=
  match s.phase with
  | .woken =>
    if s.wait ≠ .finalize then ({ s with phase := .idle }, some (-1))
    else ({ s with wait := .none, transDone := false, dmaDone := false, phase := .final }, none)
  | _ => (s, none)

/-- The rest of `__mci_request_done`, and the end of the request. After an error in a transfer the
clock is programmed, which enables an interrupt. -/
def finish (s : Host) : Host × Option Int :=
  match s.phase with
  | .final =>
    ({ s with
        dmaHdle := if s.mrqData then false else s.dmaHdle
        imask := { Mask.off with cmdDone := s.mrqData && s.intErr }
        phase := .idle },
      some (if s.intErr then -1 else 0))
  | _ => (s, none)

/-- `msk_int` without the error bits. -/
def mskInt (s : Host) (i : Irq) : Bool :=
  (i.cmdDone && s.imask.cmdDone) || (i.dataOver && s.imask.dataOver) ||
    (i.autoCmdDone && s.imask.autoCmdDone)

def raised (s : Host) (i : Irq) : Bool :=
  s.mskInt i || (i.err && s.imask.err) || i.idma || i.idmaErr

/-- What an interrupt says about the command of the request. -/
def observe (s : Host) (i : Irq) : Host :=
  if i.own then
    { s with
      finished := s.finished || s.mskInt i
      dmaFinished := s.dmaFinished || i.idma
      errored := s.errored || i.err || i.idmaErr }
  else s

/-- What the host waits for is there. -/
def complete (s : Host) : Bool :=
  (s.transDone && (s.wait = .autocmdDone || s.wait = .dataOver || s.wait = .cmdDone)) ||
    (s.transDone && s.dmaDone && s.wait.idma)

/-- The label `irq_out`. -/
def irqOut (s : Host) : Host :=
  if s.wait = .finalize then { s with imask := .off, lock := s.lock + 1 } else s

/-- `__mci_irq_handler`. -/
def irqHandler (s : Host) (i : Irq) : Host :=
  if !s.raised i then s
  else if s.wait = .none then { s with intErr := i.err }
  else if i.err || i.idmaErr then
    { s.observe i with intErr := i.err, wait := .finalize }.irqOut
  else
    let s' := { s.observe i with
      intErr := i.err
      dmaDone := s.dmaDone || i.idma
      transDone := s.transDone || s.mskInt i }
    (if s'.complete then { s' with wait := .finalize } else s').irqOut

end Host

inductive Label
  | request (present : Bool) (r : Request)
  | take
  | timeout
  | requestDone
  | finish
  | irq (i : Irq)

/-- One step, and what a request returns with it. -/
def Host.step (s : Host) : Label → Host × Option Int
  | .request present r => if s.phase = .idle then s.request present r else (s, none)
  | .take => (s.take, none)
  | .timeout => s.timeout
  | .requestDone => s.requestDone
  | .finish => s.finish
  | .irq i => (s.irqHandler i, none)

def next (s : Host) (l : Label) : Host := (s.step l).1

/-! ## What requests leave -/

/-- The host is idle for the next request. -/
structure Idle (s : Host) : Prop where
  wait : s.wait = .none
  transDone : s.transDone = false
  dmaDone : s.dmaDone = false
  dmaHdle : s.dmaHdle = false
  lock : s.lock = 0

/-- The command of the request has finished without an error, and with its DMA. -/
structure Finished (s : Host) : Prop where
  finished : s.finished = true
  errored : s.errored = false
  dma : s.dmaRead = true → s.dmaFinished = true

/-- A request that returns leaves the host idle, and has finished if it returns 0. -/
def Kept (s : Host) (l : Label) : Prop :=
  ∀ ret, (s.step l).2 = some ret → Idle (next s l) ∧ (ret = 0 → Finished s)

/-- No wait for a command that was sent times out. An interrupt that the host waits for is of the
command of the request, and of the IDMA errors it has only those that come with others. None comes
when the host has given its token, and then none that takes an error back. -/
def Punctual (s : Host) : Label → Prop
  | .timeout => s.phase = .pend → s.lock = 0 → s.sent = false
  | .irq i => s.raised i = true →
    s.wait ≠ .finalize ∧ (s.wait ≠ .none → i.own = true ∧ (i.idmaErr = true → i.err = true)) ∧
      (s.phase = .final → s.intErr = true → i.err = true)
  | _ => True

/-! ## The invariant -/

/-- The host waits, and what it has seen is what the command has done. -/
structure Waiting (s : Host) : Prop where
  wait : s.wait ≠ .none
  notFinal : s.wait ≠ .finalize
  lock : s.lock = 0
  trans : s.transDone = true → s.finished = true
  dma : s.dmaDone = true → s.dmaFinished = true
  errored : s.errored = false
  read : s.dmaRead = true → s.wait.idma = true
  handle : s.dmaHdle = true → s.mrqData = true

/-- The host knows how the command has ended. -/
structure Ended (s : Host) : Prop where
  result : s.intErr = false → Finished s
  handle : s.dmaHdle = true → s.mrqData = true

def InPhase (s : Host) : Phase → Prop
  | .idle => Idle s
  | .pend =>
    if s.sent then Waiting s ∨ (Ended s ∧ s.wait = .finalize ∧ s.lock = 1) else Idle s
  | .woken => Ended s ∧ s.wait = .finalize ∧ s.lock = 0
  | .final => Ended s ∧ s.wait = .none ∧ s.transDone = false ∧ s.dmaDone = false ∧ s.lock = 0

def Inv (s : Host) : Prop := InPhase s s.phase

theorem inv_start (dmaUse : Bool) (imask : Mask) : Inv (start dmaUse imask) :=
  ⟨rfl, rfl, rfl, rfl, rfl⟩

section

variable {s : Host}

theorem withIdma_ne (w : Wait) (hn : w ≠ .none) (hf : w ≠ .finalize) :
    w.withIdma ≠ .none ∧ w.withIdma ≠ .finalize := by
  cases w <;> simp_all [Wait.withIdma]

theorem sendCmd_wait {r : Request} {dma : Bool} {wait : Wait} {imask : Mask}
    (h : sendCmd r dma = some (wait, imask)) : wait ≠ .none ∧ wait ≠ .finalize := by
  rw [sendCmd] at h
  split at h
  · split at h
    · exact absurd h.symm (Option.some_ne_none _)
    · rename_i data _
      rw [Option.some.injEq, Prod.mk.injEq] at h
      have hw : ∀ c : Bool, (if c then Wait.autocmdDone else .dataOver) ≠ .none ∧
          (if c then Wait.autocmdDone else .dataOver) ≠ .finalize := by
        intro c
        cases c <;> simp
      rw [← h.1]
      split
      · exact withIdma_ne _ (hw _).1 (hw _).2
      · exact hw _
  · rw [Option.some.injEq, Prod.mk.injEq] at h
    simp [← h.1]

/-- A command that is not sent has no data, and then there is no handle for it. -/
theorem sendCmd_none {r : Request} {dma : Bool} (h : sendCmd r dma = none) : r.data = none := by
  rw [sendCmd] at h
  split at h
  · split at h
    · assumption
    · exact absurd h (Option.some_ne_none _)
  · exact absurd h (Option.some_ne_none _)

theorem Inv.request (h : Inv s) (hi : s.phase = .idle) (present : Bool) (r : Request) :
    Inv (s.request present r).1 := by
  have hidle := h
  rw [Inv, hi] at hidle
  rw [Host.request]
  split
  · exact h
  · have hhdle : (r.data.any (·.usesDma s.dmaUse) || s.dmaHdle) = true → r.data.isSome = true := by
      rw [hidle.dmaHdle, Bool.or_false]
      cases r.data <;> simp
    dsimp only
    split
    · rename_i wait imask hs
      have hw := sendCmd_wait hs
      exact .inl ⟨hw.1, hw.2, hidle.lock, fun ht => absurd (hidle.transDone.symm.trans ht)
        Bool.false_ne_true, fun hd => absurd (hidle.dmaDone.symm.trans hd) Bool.false_ne_true, rfl,
        id, hhdle⟩
    · rename_i hs
      have hn := sendCmd_none hs
      refine ⟨hidle.wait, hidle.transDone, hidle.dmaDone, ?_, hidle.lock⟩
      simp [hn, hidle.dmaHdle]

/-- A request that returns at once has found no medium. -/
theorem request_return {present : Bool} {r : Request} {ret : Int}
    (h : (s.request present r).2 = some ret) : (s.request present r).1 = s ∧ ret = -1 := by
  rw [Host.request] at h ⊢
  split at h
  · rw [if_pos ‹_›]
    exact ⟨rfl, (Option.some.inj h).symm⟩
  · dsimp only at h
    split at h
    · exact absurd h.symm (Option.some_ne_none _)
    · exact absurd h.symm (Option.some_ne_none _)

theorem Inv.take (h : Inv s) : Inv s.take := by
  rw [Host.take]
  split
  · rename_i hp
    rw [Inv, hp, InPhase] at h
    split
    · rename_i hl
      split at h
      · obtain hw | ⟨he, hw, hlock⟩ := h
        · exact absurd hw.lock hl
        · exact ⟨⟨fun hr => ⟨(he.result hr).finished, (he.result hr).errored,
            (he.result hr).dma⟩, he.handle⟩, hw, by simp [hlock]⟩
      · exact absurd h.lock hl
    · rw [Inv, hp, InPhase]
      exact h
  · exact h

/-- A wait that times out was for a command that was not sent. -/
theorem Inv.timeout (h : Inv s) (hs : Punctual s .timeout) :
    Inv s.timeout.1 ∧ ∀ ret, s.timeout.2 = some ret → Idle s.timeout.1 ∧ ret ≠ 0 := by
  rw [Host.timeout]
  split
  · rename_i hp
    split
    · exact ⟨h, by simp⟩
    · rename_i hl
      have hsent := hs hp (not_not.mp hl)
      rw [Inv, hp, InPhase, hsent, if_neg Bool.false_ne_true] at h
      have hidle : Idle { s with phase := .idle } :=
        ⟨h.wait, h.transDone, h.dmaDone, h.dmaHdle, h.lock⟩
      exact ⟨hidle, fun ret hr => ⟨hidle, by simp [← Option.some.inj hr]⟩⟩
  · exact ⟨h, by simp⟩

theorem Inv.requestDone (h : Inv s) : Inv s.requestDone.1 ∧ s.requestDone.2 = none := by
  rw [Host.requestDone]
  split
  · rename_i hp
    rw [Inv, hp] at h
    obtain ⟨he, hw, hlock⟩ := h
    rw [if_neg (not_not_intro hw)]
    exact ⟨⟨⟨fun hr => ⟨(he.result hr).finished, (he.result hr).errored, (he.result hr).dma⟩,
      he.handle⟩, rfl, rfl, rfl, hlock⟩, rfl⟩
  · exact ⟨h, rfl⟩

theorem Inv.finish (h : Inv s) :
    Inv s.finish.1 ∧ ∀ ret, s.finish.2 = some ret → Idle s.finish.1 ∧ (ret = 0 → Finished s) := by
  rw [Host.finish]
  split
  · rename_i hp
    rw [Inv, hp] at h
    obtain ⟨he, hw, ht, hd, hlock⟩ := h
    have hidle : Idle { s with
        dmaHdle := if s.mrqData then false else s.dmaHdle
        imask := { Mask.off with cmdDone := s.mrqData && s.intErr }
        phase := .idle } := by
      refine ⟨hw, ht, hd, ?_, hlock⟩
      have hh := he.handle
      cases hm : s.mrqData with
      | true => rfl
      | false =>
        rw [hm] at hh
        simpa using hh
    refine ⟨hidle, fun ret hr => ⟨hidle, fun h0 => he.result ?_⟩⟩
    rw [h0, Option.some.injEq] at hr
    cases hi : s.intErr with
    | false => rfl
    | true => simp [hi] at hr
  · exact ⟨h, by simp⟩

/-! ## The interrupts -/

/-- What the host waits for is there only if the command has finished. -/
theorem Waiting.finished (h : Waiting s) (hc : s.complete = true) : Finished s := by
  rw [Host.complete, Bool.or_eq_true, Bool.and_eq_true, Bool.and_eq_true, Bool.and_eq_true] at hc
  refine ⟨?_, h.errored, fun hr => ?_⟩
  · obtain hc | hc := hc
    · exact h.trans hc.1
    · exact h.trans hc.1.1
  · obtain hc | hc := hc
    · have hi := h.read hr
      revert hc hi
      cases s.wait <;> simp [Wait.idma]
    · exact h.dma hc.1.2

theorem Waiting.settle (h : Waiting s) {s' : Host}
    (hs : s' = (if s.complete then { s with wait := .finalize } else s).irqOut) :
    Waiting s' ∨ Ended s' ∧ s'.wait = .finalize ∧ s'.lock = 1 := by
  rw [hs]
  split
  · have hf := h.finished ‹_›
    rw [Host.irqOut, if_pos rfl]
    exact .inr ⟨⟨fun _ => ⟨hf.finished, hf.errored, hf.dma⟩, h.handle⟩, rfl, by simp [h.lock]⟩
  · rw [Host.irqOut, if_neg h.notFinal]
    exact .inl h

/-- An interrupt of the command, while the host waits for it. -/
theorem Waiting.irqHandler (h : Waiting s) {i : Irq} (hr : s.raised i = true) (ho : i.own = true)
    (he : i.idmaErr = true → i.err = true) :
    Waiting (s.irqHandler i) ∨
      Ended (s.irqHandler i) ∧ (s.irqHandler i).wait = .finalize ∧ (s.irqHandler i).lock = 1 := by
  rw [Host.irqHandler, if_neg (by simp [hr]), if_neg h.wait, Host.observe, if_pos ho]
  by_cases herr : i.err = true
  · rw [if_pos (by simp [herr]), Host.irqOut, if_pos rfl]
    refine .inr ⟨⟨fun hf => absurd (herr.symm.trans hf) (by simp), h.handle⟩, rfl, ?_⟩
    simp [h.lock]
  · have hidma : i.idmaErr = false := Bool.eq_false_iff.mpr fun hf => herr (he hf)
    rw [Bool.not_eq_true] at herr
    rw [if_neg (by simp [herr, hidma])]
    dsimp only
    refine Waiting.settle ?_ rfl
    refine ⟨h.wait, h.notFinal, h.lock, ?_, ?_, ?_, h.read, h.handle⟩
    · simpa using Or.imp_left h.trans
    · simpa using Or.imp_left h.dma
    · simp [h.errored, herr, hidma]

/-- An interrupt that the host does not wait for. -/
theorem irqHandler_none {i : Irq} (hr : s.raised i = true) (hw : s.wait = .none) :
    s.irqHandler i = { s with intErr := i.err } := by
  rw [Host.irqHandler, if_neg (by simp [hr]), if_pos hw]

theorem irqOut_frame (s : Host) : s.irqOut.phase = s.phase ∧ s.irqOut.sent = s.sent := by
  rw [Host.irqOut]
  split <;> exact ⟨rfl, rfl⟩

theorem observe_frame (s : Host) (i : Irq) :
    (s.observe i).phase = s.phase ∧ (s.observe i).sent = s.sent := by
  rw [Host.observe]
  split <;> exact ⟨rfl, rfl⟩

theorem irqHandler_frame (s : Host) (i : Irq) :
    (s.irqHandler i).phase = s.phase ∧ (s.irqHandler i).sent = s.sent := by
  have ho := observe_frame s i
  rw [Host.irqHandler]
  split
  · exact ⟨rfl, rfl⟩
  · split
    · exact ⟨rfl, rfl⟩
    · split
      · rw [(irqOut_frame _).1, (irqOut_frame _).2]
        exact ho
      · dsimp only
        rw [(irqOut_frame _).1, (irqOut_frame _).2]
        split <;> exact ho

theorem Inv.irq (h : Inv s) {i : Irq} (hs : Punctual s (.irq i)) : Inv (s.irqHandler i) := by
  have hframe := irqHandler_frame s i
  by_cases hr : s.raised i = true
  · obtain ⟨hnf, hown, hfinal⟩ := hs hr
    have hidle : Idle s → Idle (s.irqHandler i) := fun hi => by
      rw [irqHandler_none hr hi.wait]
      exact ⟨hi.wait, hi.transDone, hi.dmaDone, hi.dmaHdle, hi.lock⟩
    have hphases : s.phase = .idle ∨ s.phase = .pend ∨ s.phase = .woken ∨ s.phase = .final := by
      cases s.phase <;> simp
    rw [Inv] at h
    rw [Inv, hframe.1]
    obtain hp | hp | hp | hp := hphases
    · rw [hp] at h ⊢
      exact hidle h
    · rw [hp, InPhase] at h
      rw [hp, InPhase, hframe.2]
      split at h
      · rw [if_pos ‹_›]
        obtain hw | hw := h
        · have ho := hown hw.wait
          exact hw.irqHandler hr ho.1 ho.2
        · exact absurd hw.2.1 hnf
      · rw [if_neg ‹_›]
        exact hidle h
    · rw [hp] at h
      exact absurd h.2.1 hnf
    · rw [hp] at h ⊢
      obtain ⟨he, hw, hrest⟩ := h
      rw [irqHandler_none hr hw]
      refine ⟨⟨fun hi => ?_, he.handle⟩, hw, hrest⟩
      have hold : s.intErr = false := Bool.eq_false_iff.mpr fun ht =>
        absurd ((hfinal hp ht).symm.trans hi) (by simp)
      exact ⟨(he.result hold).finished, (he.result hold).errored, (he.result hold).dma⟩
  · rw [Host.irqHandler, if_pos (by simpa using hr)]
    exact h

theorem Inv.next (h : Inv s) {l : Label} (hs : Punctual s l) : Inv (next s l) ∧ Kept s l := by
  cases l with
  | request present r =>
    rw [Sdc.next, Kept, Host.step]
    split
    · rename_i hp
      refine ⟨h.request hp present r, fun ret hr => ?_⟩
      rw [Inv, hp] at h
      have hn := request_return hr
      rw [Sdc.next, Host.step, if_pos hp, hn.1]
      exact ⟨h, fun h0 => absurd (hn.2.symm.trans h0) (by decide)⟩
    · exact ⟨h, fun ret hr => absurd hr.symm (Option.some_ne_none _)⟩
  | take => exact ⟨h.take, fun ret hr => absurd hr.symm (Option.some_ne_none _)⟩
  | timeout =>
    have ht := h.timeout hs
    exact ⟨ht.1, fun ret hr => ⟨(ht.2 ret hr).1, fun h0 => absurd h0 (ht.2 ret hr).2⟩⟩
  | requestDone =>
    have hd := h.requestDone
    exact ⟨hd.1, fun ret hr => absurd (hd.2.symm.trans hr).symm (Option.some_ne_none _)⟩
  | finish => exact h.finish
  | irq i => exact ⟨h.irq hs, fun ret hr => absurd hr.symm (Option.some_ne_none _)⟩

end

/-- A block is read by DMA. -/
def readBlock : Request := ⟨false, true, true, false, some ⟨false, false, [(0, 512)]⟩⟩

def status : Request := ⟨false, true, false, false, none⟩

end Sdc
end XR806

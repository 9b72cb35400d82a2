import Mathlib.Logic.Function.Basic
import XR806.Trans.Run

/-!
# XR806.Console.Lines

The two line buffers of the console. The interrupt fills one of them and hands it to the task when
a line is complete; the task executes it and gives it back.

A backspace takes the count of the line back and leaves the pointer into the buffer where it is, so
that a line with backspaces can be stored past the end of its buffer, over a line that waits in the
next one (`backspace_overruns`). In a run whose input stays inside the buffers each buffer has one
owner, and the lines are executed once each and in order (`lines_ok`).
-/

namespace XR806
namespace Console

open Trans

def consoleCmdLineMaxLen : Nat := 256

def consoleCmdLineBufNum : Nat := 2

/-- What the task does: it waits for the semaphore, takes a ready buffer, executes its line and
gives it back. -/
inductive Task
  | waiting
  | taking
  | running (idx : Nat)
  | finishing (idx : Nat)
deriving DecidableEq, Repr

/-- The lines accepted and executed so far are kept with the state. `rxData` is the byte that was
read too far, which the first interrupt finds as 0. -/
structure State where
  freeBuf : Nat → Bool
  readyBuf : Nat → Bool
  lastCmdBufIdx : Nat
  rxBufIdx : Nat
  rxDataCnt : Nat
  buf : Nat → UInt8
  cmdSem : Nat
  rxData : Option UInt8
  task : Task
  accepted : List (List UInt8)
  executed : List (List UInt8)

/-- `console_start`. -/
def start (buf : Nat → UInt8) (rxData : Option UInt8) : State where
  freeBuf := fun idx => idx = 1
  readyBuf := fun _ => false
  lastCmdBufIdx := consoleCmdLineBufNum - 1
  rxBufIdx := 0
  rxDataCnt := 0
  buf := buf
  cmdSem := 0
  rxData := rxData
  task := .waiting
  accepted := []
  executed := []

/-- The C string in a buffer. -/
def lineOf (buf : Nat → UInt8) (idx : Nat) : List UInt8 :=
  ((List.range consoleCmdLineMaxLen).map fun i => buf (idx * consoleCmdLineMaxLen + i)).takeWhile
    (· ≠ 0)

def consoleGetValidBufIdx (bitmap : Nat → Bool) : Nat → Nat → Nat × (Nat → Bool)
  | 0, _ => (consoleCmdLineBufNum, bitmap)
  | loop + 1, idx =>
    let idx := (idx + 1) % consoleCmdLineBufNum
    if bitmap idx then (idx, Function.update bitmap idx false)
    else consoleGetValidBufIdx bitmap loop idx

/-! ## The interrupt -/

def consoleRxCmdline (c : State) : State :=
  let readyBuf := Function.update c.readyBuf c.rxBufIdx true
  let (rxBufIdx, freeBuf) := consoleGetValidBufIdx c.freeBuf consoleCmdLineBufNum c.rxBufIdx
  { c with readyBuf, rxBufIdx, freeBuf, rxDataCnt := 0, cmdSem := c.cmdSem + 1,
           accepted := c.accepted ++ [lineOf c.buf c.rxBufIdx] }

/-- `*rx_buf = data` with the pointer `off` bytes into the buffer. -/
def putData (c : State) (off : Nat) (data : UInt8) : State :=
  { c with buf := Function.update c.buf (c.rxBufIdx * consoleCmdLineMaxLen + off) data }

def isprint (data : UInt8) : Bool := 0x20 ≤ data && data ≤ 0x7e

/-- The loop of the callback over the bytes that it finds, with the count of the line and the
pointer into the buffer. The bytes after a line that it does not look at stay in the UART. -/
def consoleRx : List UInt8 → State → Nat → Nat → State
  | [], c, cnt, _ => { c with rxDataCnt := cnt }
  | data :: rest, c, cnt, off =>
    if data = 0x08 ∨ data = 0x7f then
      -- the pointer does not go back with the count
      consoleRx rest c (cnt - 1) off
    else if data = 0x0a ∨ data = 0x0d then
      let c := consoleRxCmdline (putData c off 0)
      if data = 0x0d then
        match rest with
        | [] => c
        | next :: _ =>
          if next = 0x0a then c
          else if c.rxBufIdx ≠ consoleCmdLineBufNum then consoleRx rest c c.rxDataCnt c.rxDataCnt
          else c
      else c
    else if isprint data then
      let c := putData c off data
      if cnt + 1 < consoleCmdLineMaxLen then consoleRx rest c (cnt + 1) (off + 1)
      else consoleRx rest { c with rxDataCnt := 0 } 0 0
    else consoleRx rest { c with rxDataCnt := 0 } 0 0

/-- The bytes come in the order of the UART, after one that was read too far. Without a buffer they
are discarded. -/
def consoleRxCallback (c : State) (uart : List UInt8) : State :=
  let input := c.rxData.toList ++ uart
  let c := { c with rxData := none }
  if c.rxBufIdx ≠ consoleCmdLineBufNum then consoleRx input c c.rxDataCnt c.rxDataCnt else c

/-! ## The task -/

/-- The command function may use the buffer of its line as it likes. -/
inductive Step : State → Option (List UInt8) → State → Prop
  | rx {c : State} {uart : List UInt8} : Step c (some uart) (consoleRxCallback c uart)
  | wait {c : State} {n : Nat} : c.task = .waiting → c.cmdSem = n + 1 →
    Step c none { c with cmdSem := n, task := .taking }
  | take {c : State} {idx : Nat} {readyBuf : Nat → Bool} : c.task = .taking →
    consoleGetValidBufIdx c.readyBuf consoleCmdLineBufNum c.lastCmdBufIdx = (idx, readyBuf) →
    idx ≠ consoleCmdLineBufNum →
    Step c none { c with readyBuf, task := .running idx, executed := c.executed ++ [lineOf c.buf idx] }
  | nothing {c : State} {readyBuf : Nat → Bool} : c.task = .taking →
    consoleGetValidBufIdx c.readyBuf consoleCmdLineBufNum c.lastCmdBufIdx =
      (consoleCmdLineBufNum, readyBuf) →
    Step c none { c with readyBuf, task := .waiting }
  | exec {c : State} {idx : Nat} {buf : Nat → UInt8} : c.task = .running idx →
    (∀ a, ¬(idx * consoleCmdLineMaxLen ≤ a ∧ a < (idx + 1) * consoleCmdLineMaxLen) →
      buf a = c.buf a) →
    Step c none { c with buf, lastCmdBufIdx := idx, task := .finishing idx }
  | direct {c : State} {idx : Nat} : c.task = .finishing idx → c.rxBufIdx = consoleCmdLineBufNum →
    Step c none { c with rxBufIdx := idx, rxDataCnt := 0, task := .waiting }
  | release {c : State} {idx : Nat} : c.task = .finishing idx → c.rxBufIdx ≠ consoleCmdLineBufNum →
    Step c none { c with freeBuf := Function.update c.freeBuf idx true, task := .waiting }

/-! ## Owners -/

inductive Owner
  | free
  | filling
  | ready
  | executing
deriving DecidableEq, Repr

def Owns (c : State) (idx : Nat) : Owner → Prop
  | .free => c.freeBuf idx = true
  | .filling => c.rxBufIdx = idx
  | .ready => c.readyBuf idx = true
  | .executing => c.task = .running idx ∨ c.task = .finishing idx

def readyCnt (c : State) : Nat := (c.readyBuf 0).toNat + (c.readyBuf 1).toNat

/-- One owner for each buffer; the lines executed are the first ones of those accepted, the others
are ready, and as many times the task is going to be woken. -/
structure Orderly (c : State) : Prop where
  owner : ∀ idx < consoleCmdLineBufNum, ∃! o, Owns c idx o
  executed : c.executed <+: c.accepted
  pending : c.accepted.length = c.executed.length + readyCnt c
  woken : readyCnt c = c.cmdSem + if c.task = .taking then 1 else 0

/-! ## The invariant -/

/-- The input is stored inside the buffers. Only a line in which characters were taken back within
one interrupt is not: the pointer `off` is then ahead of the count `cnt`. `free` buffers are left
for the lines after this one. -/
def Inside : List UInt8 → Nat → Nat → Nat → Prop
  | [], _, _, _ => True
  | data :: rest, free, cnt, off =>
    if data = 0x08 ∨ data = 0x7f then Inside rest free (cnt - 1) off
    else if data = 0x0a ∨ data = 0x0d then
      off < consoleCmdLineMaxLen ∧
        (data = 0x0d → rest.head? ≠ some 0x0a → 0 < free → Inside rest (free - 1) 0 0)
    else if isprint data then
      off < consoleCmdLineMaxLen ∧
        if cnt + 1 < consoleCmdLineMaxLen then Inside rest free (cnt + 1) (off + 1)
        else Inside rest free 0 0
    else Inside rest free 0 0

def freeCnt (c : State) : Nat := (c.freeBuf 0).toNat + (c.freeBuf 1).toNat

/-- What the task holds when it has given `f` buffers back. -/
def Task.Holds (c : State) (f : Nat) : Task → Prop
  | .waiting => c.executed.length = f ∧ c.lastCmdBufIdx = (f + 1) % 2 ∧
      c.executed.length + c.cmdSem = c.accepted.length
  | .taking => c.executed.length = f ∧ c.lastCmdBufIdx = (f + 1) % 2 ∧
      c.executed.length + c.cmdSem + 1 = c.accepted.length
  | .running idx => c.executed.length = f + 1 ∧ idx = f % 2 ∧
      c.executed.length + c.cmdSem = c.accepted.length
  | .finishing idx => c.executed.length = f + 1 ∧ idx = f % 2 ∧ c.lastCmdBufIdx = f % 2 ∧
      c.executed.length + c.cmdSem = c.accepted.length

/-- Line `k` is in buffer `k % 2`: the buffers are used in turn. -/
structure Inv (c : State) (f : Nat) : Prop where
  given : f ≤ c.executed.length
  done : c.executed.length ≤ c.accepted.length
  room : c.accepted.length ≤ f + 2
  rx : c.rxBufIdx = if c.accepted.length < f + 2 then c.accepted.length % 2 else 2
  free : ∀ i < 2, c.freeBuf i = true ↔ c.accepted.length = f ∧ i = (f + 1) % 2
  ready : ∀ i < 2, c.readyBuf i = true ↔
    ∃ k, c.executed.length ≤ k ∧ k < c.accepted.length ∧ i = k % 2
  lines : ∀ k (hk : k < c.accepted.length), c.executed.length ≤ k →
    lineOf c.buf (k % 2) = c.accepted[k]
  inOrder : c.executed <+: c.accepted
  task : c.task.Holds c f

section

variable {c : State} {f idx idx' off cnt : Nat} {bitmap : Nat → Bool} {buf buf' : Nat → UInt8}
  {data : UInt8} {input : List UInt8}

theorem getValid_other (h : bitmap ((idx + 1) % 2) = true) :
    consoleGetValidBufIdx bitmap consoleCmdLineBufNum idx =
      ((idx + 1) % 2, Function.update bitmap ((idx + 1) % 2) false) := if_pos h

theorem getValid_none (h : ∀ i < 2, bitmap i = false) :
    consoleGetValidBufIdx bitmap consoleCmdLineBufNum idx = (consoleCmdLineBufNum, bitmap) := by
  have hmod : ∀ n, bitmap (n % 2) = false := fun n => h _ (Nat.mod_lt n (by decide))
  simp only [consoleGetValidBufIdx, consoleCmdLineBufNum, hmod, Bool.false_eq_true, if_false]

theorem lineOf_congr (h : ∀ a, idx * consoleCmdLineMaxLen ≤ a →
    a < (idx + 1) * consoleCmdLineMaxLen → buf' a = buf a) : lineOf buf' idx = lineOf buf idx := by
  have hmap : (List.range consoleCmdLineMaxLen).map
      (fun i => buf' (idx * consoleCmdLineMaxLen + i)) =
      (List.range consoleCmdLineMaxLen).map fun i => buf (idx * consoleCmdLineMaxLen + i) := by
    refine List.map_congr_left fun i hi => h _ (by omega) ?_
    rw [List.mem_range] at hi
    rw [Nat.succ_mul]
    omega
  rw [lineOf, lineOf, hmap]

theorem lineOf_update (hne : idx ≠ idx') (hoff : off < consoleCmdLineMaxLen) :
    lineOf (Function.update buf (idx * consoleCmdLineMaxLen + off) data) idx' =
      lineOf buf idx' := by
  apply lineOf_congr
  intro a hlow hhigh
  apply Function.update_of_ne
  unfold consoleCmdLineMaxLen at *
  omega

theorem Inv.rx_lt (h : Inv c f) (hrx : c.rxBufIdx ≠ consoleCmdLineBufNum) :
    c.accepted.length < f + 2 := by
  by_contra hge
  exact hrx (h.rx.trans (if_neg hge))

theorem Inv.rx_eq (h : Inv c f) (hrx : c.rxBufIdx ≠ consoleCmdLineBufNum) :
    c.rxBufIdx = c.accepted.length % 2 := h.rx.trans (if_pos (h.rx_lt hrx))

theorem Inv.putData (h : Inv c f) (hrx : c.rxBufIdx ≠ consoleCmdLineBufNum)
    (hoff : off < consoleCmdLineMaxLen) (data : UInt8) : Inv (putData c off data) f := by
  have hlt := h.rx_lt hrx
  have hgiven := h.given
  refine ⟨h.given, h.done, h.room, h.rx, h.free, h.ready, ?_, h.inOrder, h.task⟩
  intro k hk hdone
  change k < c.accepted.length at hk
  change c.executed.length ≤ k at hdone
  have hne : c.rxBufIdx ≠ k % 2 := by
    rw [h.rx_eq hrx]
    omega
  exact (lineOf_update hne hoff).trans (h.lines k hk hdone)

theorem Inv.setCnt (h : Inv c f) : Inv { c with rxDataCnt := cnt } f :=
  ⟨h.given, h.done, h.room, h.rx, h.free, h.ready, h.lines, h.inOrder, h.task⟩

theorem Inv.freeCnt_eq (h : Inv c f) : freeCnt c = if c.accepted.length = f then 1 else 0 := by
  have h0 := h.free 0 (by omega)
  have h1 := h.free 1 (by omega)
  unfold freeCnt
  split
  · rename_i hnone
    rcases Nat.mod_two_eq_zero_or_one f with hf | hf
    · rw [Bool.eq_false_iff.mpr (mt h0.mp (by omega)), h1.mpr (by omega)]
      rfl
    · rw [Bool.eq_false_iff.mpr (mt h1.mp (by omega)), h0.mpr (by omega)]
      rfl
  · rename_i hsome
    rw [Bool.eq_false_iff.mpr (mt h0.mp (by omega)), Bool.eq_false_iff.mpr (mt h1.mp (by omega))]
    rfl

/-- The buffer that `console_rx_cmdline` goes on with, and the free ones after it. -/
theorem Inv.nextBuf (h : Inv c f) (hrx : c.rxBufIdx ≠ consoleCmdLineBufNum) :
    ∃ freeBuf, consoleGetValidBufIdx c.freeBuf consoleCmdLineBufNum c.rxBufIdx =
        (if c.accepted.length = f then (c.accepted.length + 1) % 2 else 2, freeBuf) ∧
      ∀ i < 2, freeBuf i = false := by
  have heq := h.rx_eq hrx
  by_cases hn : c.accepted.length = f
  · have hother : c.freeBuf ((c.rxBufIdx + 1) % 2) = true := (h.free _ (by omega)).mpr (by omega)
    refine ⟨Function.update c.freeBuf ((c.rxBufIdx + 1) % 2) false, ?_, ?_⟩
    · rw [getValid_other hother, if_pos hn]
      congr 1
      omega
    · intro i hi
      by_cases hi' : i = (c.rxBufIdx + 1) % 2
      · rw [hi', Function.update_self]
      · rw [Function.update_of_ne hi']
        exact Bool.eq_false_iff.mpr (mt (h.free i hi).mp (by omega))
  · have hnone : ∀ i < 2, c.freeBuf i = false := by
      intro i hi
      exact Bool.eq_false_iff.mpr (mt (h.free i hi).mp (by omega))
    exact ⟨_, by rw [getValid_none hnone, if_neg hn]; rfl, hnone⟩

theorem rxCmdline_eq {next : Nat} {freeBuf : Nat → Bool}
    (h : consoleGetValidBufIdx c.freeBuf consoleCmdLineBufNum c.rxBufIdx = (next, freeBuf)) :
    consoleRxCmdline c =
      { c with readyBuf := Function.update c.readyBuf c.rxBufIdx true, rxBufIdx := next, freeBuf,
               rxDataCnt := 0, cmdSem := c.cmdSem + 1,
               accepted := c.accepted ++ [lineOf c.buf c.rxBufIdx] } := by
  unfold consoleRxCmdline
  rw [h]

theorem Task.Holds.accept {c' : State} (h : c.task.Holds c f) (hexec : c'.executed = c.executed)
    (hlast : c'.lastCmdBufIdx = c.lastCmdBufIdx) (hsem : c'.cmdSem = c.cmdSem + 1)
    (hacc : c'.accepted.length = c.accepted.length + 1) : c.task.Holds c' f := by
  cases htask : c.task with
  | waiting =>
    rw [htask] at h
    obtain ⟨hf, hl, hcnt⟩ := h
    exact ⟨hexec ▸ hf, hlast ▸ hl, by rw [hexec, hsem]; omega⟩
  | taking =>
    rw [htask] at h
    obtain ⟨hf, hl, hcnt⟩ := h
    exact ⟨hexec ▸ hf, hlast ▸ hl, by rw [hexec, hsem]; omega⟩
  | running idx =>
    rw [htask] at h
    obtain ⟨hf, hidx, hcnt⟩ := h
    exact ⟨hexec ▸ hf, hidx, by rw [hexec, hsem]; omega⟩
  | finishing idx =>
    rw [htask] at h
    obtain ⟨hf, hidx, hl, hcnt⟩ := h
    exact ⟨hexec ▸ hf, hidx, hlast ▸ hl, by rw [hexec, hsem]; omega⟩

theorem Inv.rxCmdline (h : Inv c f) (hrx : c.rxBufIdx ≠ consoleCmdLineBufNum) :
    Inv (consoleRxCmdline c) f ∧ (consoleRxCmdline c).rxDataCnt = 0 ∧
      freeCnt (consoleRxCmdline c) = 0 ∧
      ((consoleRxCmdline c).rxBufIdx ≠ consoleCmdLineBufNum → freeCnt c = 1) := by
  have hlt := h.rx_lt hrx
  have heq := h.rx_eq hrx
  have hgiven := h.given
  have hdone := h.done
  obtain ⟨freeBuf, hget, hfree⟩ := h.nextBuf hrx
  have hlen : (c.accepted ++ [lineOf c.buf c.rxBufIdx]).length = c.accepted.length + 1 :=
    List.length_append
  rw [rxCmdline_eq hget]
  refine ⟨⟨hgiven, ?_, ?_, ?_, ?_, ?_, ?_, ?_, ?_⟩, rfl, ?_, ?_⟩
  · dsimp only
    omega
  · dsimp only
    omega
  · dsimp only
    rw [hlen]
    by_cases hn : c.accepted.length = f
    · rw [if_pos hn, if_pos (by omega)]
    · rw [if_neg hn, if_neg (by omega)]
  · intro i hi
    dsimp only
    rw [hfree i hi, hlen]
    constructor
    · exact nofun
    · intro hn
      omega
  · intro i hi
    dsimp only
    rw [hlen]
    by_cases hi' : i = c.rxBufIdx
    · rw [hi', Function.update_self]
      refine ⟨fun _ => ⟨c.accepted.length, hdone, by omega, heq⟩, fun _ => rfl⟩
    · rw [Function.update_of_ne hi', h.ready i hi]
      constructor
      · rintro ⟨k, hk, hk', hidx⟩
        exact ⟨k, hk, by omega, hidx⟩
      · rintro ⟨k, hk, hk', hidx⟩
        refine ⟨k, hk, ?_, hidx⟩
        by_contra hge
        exact hi' (by rw [heq, hidx, show k = c.accepted.length by omega])
  · intro k hk hdone'
    dsimp only at hk ⊢
    by_cases hnew : k = c.accepted.length
    · subst hnew
      rw [List.getElem_concat_length rfl, heq]
    · rw [hlen] at hk
      rw [List.getElem_append_left (by omega)]
      exact h.lines k (by omega) hdone'
  · exact h.inOrder.trans (List.prefix_append _ _)
  · exact h.task.accept rfl rfl rfl hlen
  · unfold freeCnt
    dsimp only
    rw [hfree 0 (by omega), hfree 1 (by omega)]
    rfl
  · intro hnext
    dsimp only at hnext
    rw [h.freeCnt_eq, if_pos]
    by_contra hn
    rw [if_neg hn] at hnext
    exact hnext rfl

theorem Inv.consoleRx (h : Inv c f) (hrx : c.rxBufIdx ≠ consoleCmdLineBufNum)
    (hin : Inside input (freeCnt c) cnt off) : Inv (consoleRx input c cnt off) f := by
  induction input generalizing c cnt off with
  | nil => exact h.setCnt
  | cons data rest ih =>
    rw [Inside] at hin
    rw [Console.consoleRx]
    split
    · rename_i hback
      rw [if_pos hback] at hin
      exact ih h hrx hin
    · rename_i hback
      rw [if_neg hback] at hin
      split
      · rename_i hend
        rw [if_pos hend] at hin
        obtain ⟨hoff, hrest⟩ := hin
        have hput := h.putData hrx hoff 0
        obtain ⟨hinv, hcnt, hfree, hnext⟩ := hput.rxCmdline hrx
        dsimp only
        split
        · rename_i hcr
          cases rest with
          | nil => exact hinv
          | cons next rest =>
            dsimp only
            split
            · exact hinv
            · rename_i hlf
              split
              · rename_i hvalid
                have hone : freeCnt c = 1 := hnext hvalid
                have hin' := hrest hcr (by simp [hlf]) (by omega)
                rw [hone] at hin'
                rw [hcnt]
                exact ih hinv hvalid (by rw [hfree]; exact hin')
              · exact hinv
        · exact hinv
      · rename_i hend
        rw [if_neg hend] at hin
        split
        · rename_i hprint
          rw [if_pos hprint] at hin
          have hput := h.putData hrx hin.1 data
          dsimp only
          split
          · rename_i hmore
            have hin' := hin.2
            rw [if_pos hmore] at hin'
            exact ih hput hrx hin'
          · rename_i hmore
            have hin' := hin.2
            rw [if_neg hmore] at hin'
            exact ih hput.setCnt hrx hin'
        · rename_i hprint
          rw [if_neg hprint] at hin
          exact ih h.setCnt hrx hin

/-- The input of an interrupt is stored inside the buffers. -/
def InputInside (c : State) : Option (List UInt8) → Prop
  | some uart => c.rxBufIdx ≠ consoleCmdLineBufNum →
    Inside (c.rxData.toList ++ uart) (freeCnt c) c.rxDataCnt c.rxDataCnt
  | none => True

theorem inv_start (buf : Nat → UInt8) (rxData : Option UInt8) : Inv (start buf rxData) 0 := by
  refine ⟨Nat.le_refl _, Nat.le_refl _, Nat.zero_le _, rfl, ?_, ?_, ?_, List.prefix_rfl,
    ⟨rfl, rfl, rfl⟩⟩
  · intro i _
    simp [start]
  · intro i _
    simp [start]
  · intro k hk
    exact absurd hk (Nat.not_lt_zero k)

theorem Inv.rxCallback (h : Inv c f) {uart : List UInt8} (hin : InputInside c (some uart)) :
    Inv (consoleRxCallback c uart) f := by
  have h' : Inv { c with rxData := none } f :=
    ⟨h.given, h.done, h.room, h.rx, h.free, h.ready, h.lines, h.inOrder, h.task⟩
  unfold consoleRxCallback
  dsimp only
  split
  · rename_i hrx
    exact h'.consoleRx hrx (hin hrx)
  · exact h'

/-- The buffer that the task takes: the one of the first line that is not executed. -/
theorem Inv.takeBuf (h : Inv c f) (htask : c.task = .taking) :
    c.executed.length < c.accepted.length ∧ ∃ readyBuf,
      consoleGetValidBufIdx c.readyBuf consoleCmdLineBufNum c.lastCmdBufIdx = (f % 2, readyBuf) ∧
      ∀ i < 2, readyBuf i = true ↔ i ≠ f % 2 ∧ c.readyBuf i = true := by
  have hholds := h.task
  rw [htask] at hholds
  obtain ⟨hexec, hlast, hcnt⟩ := hholds
  have hlt : c.executed.length < c.accepted.length := by omega
  have hidx : (c.lastCmdBufIdx + 1) % 2 = f % 2 := by omega
  have hready : c.readyBuf ((c.lastCmdBufIdx + 1) % 2) = true :=
    (h.ready _ (by omega)).mpr ⟨f, by omega, by omega, hidx⟩
  refine ⟨hlt, Function.update c.readyBuf (f % 2) false, ?_, ?_⟩
  · rw [getValid_other hready, hidx]
  · intro i _
    by_cases hi : i = f % 2
    · rw [hi, Function.update_self]
      simp
    · rw [Function.update_of_ne hi]
      simp [hi]

theorem prefix_next {α : Type} {l l' : List α} (h : l <+: l') (hlt : l.length < l'.length) :
    l ++ [l'[l.length]] <+: l' := by
  obtain ⟨t, rfl⟩ := h
  cases t with
  | nil => simp at hlt
  | cons a t => simp

/-- The task takes the buffer of line `f`. -/
theorem Inv.takeReady {readyBuf : Nat → Bool} (h : Inv c f) (htask : c.task = .taking)
    (hget : consoleGetValidBufIdx c.readyBuf consoleCmdLineBufNum c.lastCmdBufIdx =
      (idx, readyBuf)) :
    Inv { c with readyBuf, task := .running idx,
                 executed := c.executed ++ [lineOf c.buf idx] } f := by
  have hgiven := h.given
  have hroom := h.room
  obtain ⟨hlt, readyBuf', hget', hready⟩ := h.takeBuf htask
  rw [hget', Prod.mk.injEq] at hget
  obtain ⟨rfl, rfl⟩ := hget
  have hholds := h.task
  rw [htask] at hholds
  obtain ⟨hexec, hlast, hcnt⟩ := hholds
  have hlen : (c.executed ++ [lineOf c.buf (f % 2)]).length = c.executed.length + 1 :=
    List.length_append
  refine ⟨?_, ?_, hroom, h.rx, h.free, ?_, ?_, ?_, ?_⟩
  · dsimp only
    omega
  · dsimp only
    omega
  · intro i hi
    dsimp only
    rw [hready i hi, h.ready i hi, hlen]
    constructor
    · rintro ⟨hne, k, hk, hk', rfl⟩
      refine ⟨k, ?_, hk', rfl⟩
      by_contra hge
      exact hne (by rw [show k = f by omega])
    · rintro ⟨k, hk, hk', rfl⟩
      exact ⟨by omega, k, by omega, hk', rfl⟩
  · intro k hk hdone
    dsimp only at hdone
    exact h.lines k hk (by omega)
  · have hline : c.accepted[c.executed.length] = lineOf c.buf (f % 2) := by
      rw [← h.lines _ hlt (Nat.le_refl _), hexec]
    have hnext := prefix_next h.inOrder hlt
    rw [hline] at hnext
    exact hnext
  · exact ⟨by rw [hlen, hexec], rfl, by dsimp only; omega⟩

/-- The command function stays inside the buffer of its line, which no other line is in. -/
theorem Inv.execLine (h : Inv c f) (htask : c.task = .running idx)
    (hsame : ∀ a, ¬(idx * consoleCmdLineMaxLen ≤ a ∧ a < (idx + 1) * consoleCmdLineMaxLen) →
      buf a = c.buf a) :
    Inv { c with buf, lastCmdBufIdx := idx, task := .finishing idx } f := by
  have hroom := h.room
  have hholds := h.task
  rw [htask] at hholds
  obtain ⟨hexec, rfl, hcnt⟩ := hholds
  refine ⟨h.given, h.done, hroom, h.rx, h.free, h.ready, ?_, h.inOrder, hexec, rfl, rfl, hcnt⟩
  intro k hk hdone
  dsimp only at hk hdone ⊢
  rw [← h.lines k hk hdone]
  apply lineOf_congr
  intro a hlow hhigh
  apply hsame
  unfold consoleCmdLineMaxLen at *
  omega

/-- The buffer given back goes to the interrupt at once when that has none. -/
theorem Inv.giveRx (h : Inv c f) (htask : c.task = .finishing idx)
    (hrx : c.rxBufIdx = consoleCmdLineBufNum) :
    Inv { c with rxBufIdx := idx, rxDataCnt := 0, task := .waiting } (f + 1) := by
  have hdone := h.done
  have hroom := h.room
  have hholds := h.task
  rw [htask] at hholds
  obtain ⟨hexec, rfl, hlast, hcnt⟩ := hholds
  have hfull : ¬c.accepted.length < f + 2 := by
    intro hlt
    have heq := h.rx.symm.trans hrx
    rw [if_pos hlt] at heq
    unfold consoleCmdLineBufNum at heq
    omega
  refine ⟨?_, hdone, ?_, ?_, ?_, h.ready, h.lines, h.inOrder, ?_⟩
  · dsimp only
    omega
  · dsimp only
    omega
  · dsimp only
    rw [if_pos (by omega)]
    omega
  · intro i hi
    dsimp only
    rw [h.free i hi]
    omega
  · exact ⟨hexec, by dsimp only; omega, hcnt⟩

theorem Inv.giveFree (h : Inv c f) (htask : c.task = .finishing idx)
    (hrx : c.rxBufIdx ≠ consoleCmdLineBufNum) :
    Inv { c with freeBuf := Function.update c.freeBuf idx true, task := .waiting } (f + 1) := by
  have hdone := h.done
  have hroom := h.room
  have hholds := h.task
  rw [htask] at hholds
  obtain ⟨hexec, rfl, hlast, hcnt⟩ := hholds
  have hlt := h.rx_lt hrx
  refine ⟨?_, hdone, ?_, ?_, ?_, h.ready, h.lines, h.inOrder, ?_⟩
  · dsimp only
    omega
  · dsimp only
    omega
  · dsimp only
    rw [h.rx_eq hrx, if_pos (by omega)]
  · intro i hi
    dsimp only
    by_cases hi' : i = f % 2
    · rw [hi', Function.update_self]
      exact ⟨fun _ => by omega, fun _ => rfl⟩
    · rw [Function.update_of_ne hi', h.free i hi]
      omega
  · exact ⟨hexec, by dsimp only; omega, hcnt⟩

theorem inv_step {c' : State} {a : Option (List UInt8)} (h : Inv c f) (hin : InputInside c a)
    (hstep : Step c a c') : ∃ f', Inv c' f' := by
  cases hstep with
  | rx => exact ⟨f, h.rxCallback hin⟩
  | wait htask hsem =>
    have hholds := h.task
    rw [htask] at hholds
    obtain ⟨hexec, hlast, hcnt⟩ := hholds
    refine ⟨f, h.given, h.done, h.room, h.rx, h.free, h.ready, h.lines, h.inOrder, ?_⟩
    exact ⟨hexec, hlast, by dsimp only; omega⟩
  | take htask hget _ => exact ⟨f, h.takeReady htask hget⟩
  | nothing htask hget =>
    obtain ⟨-, readyBuf', hget', -⟩ := h.takeBuf htask
    rw [hget'] at hget
    have hnone : f % 2 = consoleCmdLineBufNum := congrArg Prod.fst hget
    unfold consoleCmdLineBufNum at hnone
    omega
  | exec htask hsame => exact ⟨f, h.execLine htask hsame⟩
  | direct htask hrx => exact ⟨f + 1, h.giveRx htask hrx⟩
  | release htask hrx => exact ⟨f + 1, h.giveFree htask hrx⟩

theorem Inv.ready_iff (h : Inv c f) (hidx : idx < 2) : c.readyBuf idx = true ↔
    c.executed.length < c.accepted.length ∧ idx = c.executed.length % 2 ∨
      c.executed.length + 1 < c.accepted.length ∧ idx = (c.executed.length + 1) % 2 := by
  have hroom := h.room
  have hgiven := h.given
  rw [h.ready idx hidx]
  constructor
  · rintro ⟨k, hk, hk', rfl⟩
    by_cases heq : k = c.executed.length
    · subst heq
      exact .inl ⟨hk', rfl⟩
    · have heq : k = c.executed.length + 1 := by omega
      subst heq
      exact .inr ⟨hk', rfl⟩
  · rintro (⟨hlt, rfl⟩ | ⟨hlt, rfl⟩)
    · exact ⟨_, Nat.le_refl _, hlt, rfl⟩
    · exact ⟨_, Nat.le_succ _, hlt, rfl⟩

theorem Inv.readyCnt_eq (h : Inv c f) : c.accepted.length = c.executed.length + readyCnt c := by
  have hdone := h.done
  have hroom := h.room
  have hgiven := h.given
  have h0 := h.ready_iff (show 0 < 2 by omega)
  have h1 := h.ready_iff (show 1 < 2 by omega)
  unfold readyCnt
  cases hb0 : c.readyBuf 0 with
  | false =>
    have hno0 := mt h0.mpr (by simp [hb0])
    cases hb1 : c.readyBuf 1 with
    | false =>
      have hno1 := mt h1.mpr (by simp [hb1])
      simp only [Bool.toNat_false]
      omega
    | true =>
      have hyes1 := h1.mp hb1
      simp only [Bool.toNat_false, Bool.toNat_true]
      omega
  | true =>
    have hyes0 := h0.mp hb0
    cases hb1 : c.readyBuf 1 with
    | false =>
      have hno1 := mt h1.mpr (by simp [hb1])
      simp only [Bool.toNat_false, Bool.toNat_true]
      omega
    | true =>
      have hyes1 := h1.mp hb1
      simp only [Bool.toNat_true]
      omega

theorem Inv.executing_iff (h : Inv c f) :
    Owns c idx .executing ↔ c.executed.length = f + 1 ∧ idx = f % 2 := by
  have hholds := h.task
  unfold Owns
  cases htask : c.task with
  | waiting =>
    rw [htask] at hholds
    have hexec := hholds.1
    simp [hexec]
  | taking =>
    rw [htask] at hholds
    have hexec := hholds.1
    simp [hexec]
  | running i =>
    rw [htask] at hholds
    obtain ⟨hexec, rfl, -⟩ := hholds
    simp [hexec, eq_comm]
  | finishing i =>
    rw [htask] at hholds
    obtain ⟨hexec, rfl, -⟩ := hholds
    simp [hexec, eq_comm]

theorem Inv.filling_iff (h : Inv c f) (hidx : idx < 2) :
    Owns c idx .filling ↔ c.accepted.length < f + 2 ∧ idx = c.accepted.length % 2 := by
  change c.rxBufIdx = idx ↔ _
  rw [h.rx]
  split <;> omega

/-- The owner of a buffer, by the line that it is used for. -/
theorem Inv.owner (h : Inv c f) (hidx : idx < 2) : ∃! o, Owns c idx o := by
  have hdone := h.done
  have hroom := h.room
  have hgiven := h.given
  have hexecuted : c.executed.length ≤ f + 1 := by
    have hholds := h.task
    cases htask : c.task <;> rw [htask] at hholds <;> exact hholds.1 ▸ by omega
  have hfree : Owns c idx .free ↔ _ := h.free idx hidx
  have hready : Owns c idx .ready ↔ _ := h.ready_iff hidx
  have hfilling := h.filling_iff hidx
  have hexecuting : Owns c idx .executing ↔ _ := h.executing_iff
  by_cases hfirst : idx = f % 2
  · by_cases hn : c.accepted.length = f
    · refine ⟨.filling, hfilling.mpr (by omega), fun o ho => ?_⟩
      cases o with
      | free => exact absurd (hfree.mp ho) (by omega)
      | filling => rfl
      | ready => exact absurd (hready.mp ho) (by omega)
      | executing => exact absurd (hexecuting.mp ho) (by omega)
    · by_cases hm : c.executed.length = f
      · refine ⟨.ready, hready.mpr (by omega), fun o ho => ?_⟩
        cases o with
        | free => exact absurd (hfree.mp ho) (by omega)
        | filling => exact absurd (hfilling.mp ho) (by omega)
        | ready => rfl
        | executing => exact absurd (hexecuting.mp ho) (by omega)
      · refine ⟨.executing, hexecuting.mpr (by omega), fun o ho => ?_⟩
        cases o with
        | free => exact absurd (hfree.mp ho) (by omega)
        | filling => exact absurd (hfilling.mp ho) (by omega)
        | ready => exact absurd (hready.mp ho) (by omega)
        | executing => rfl
  · by_cases hn : c.accepted.length = f
    · refine ⟨.free, hfree.mpr (by omega), fun o ho => ?_⟩
      cases o with
      | free => rfl
      | filling => exact absurd (hfilling.mp ho) (by omega)
      | ready => exact absurd (hready.mp ho) (by omega)
      | executing => exact absurd (hexecuting.mp ho) (by omega)
    · by_cases hlt : c.accepted.length < f + 2
      · refine ⟨.filling, hfilling.mpr (by omega), fun o ho => ?_⟩
        cases o with
        | free => exact absurd (hfree.mp ho) (by omega)
        | filling => rfl
        | ready => exact absurd (hready.mp ho) (by omega)
        | executing => exact absurd (hexecuting.mp ho) (by omega)
      · refine ⟨.ready, hready.mpr (by omega), fun o ho => ?_⟩
        cases o with
        | free => exact absurd (hfree.mp ho) (by omega)
        | filling => exact absurd (hfilling.mp ho) (by omega)
        | ready => rfl
        | executing => exact absurd (hexecuting.mp ho) (by omega)

theorem Inv.orderly (h : Inv c f) : Orderly c := by
  refine ⟨fun idx hidx => h.owner hidx, h.inOrder, h.readyCnt_eq, ?_⟩
  have hcnt := h.readyCnt_eq
  have hholds := h.task
  cases htask : c.task with
  | waiting =>
    rw [htask] at hholds
    have hsem := hholds.2.2
    simp only [reduceCtorEq, if_false]
    omega
  | taking =>
    rw [htask] at hholds
    have hsem := hholds.2.2
    simp only [if_true]
    omega
  | running idx =>
    rw [htask] at hholds
    have hsem := hholds.2.2
    simp only [reduceCtorEq, if_false]
    omega
  | finishing idx =>
    rw [htask] at hholds
    have hsem := hholds.2.2.2
    simp only [reduceCtorEq, if_false]
    omega

/-- The steps of the task that are left, without another interrupt. -/
def remaining (c : State) : Nat :=
  4 * (c.accepted.length - c.executed.length) + match c.task with
    | .waiting => 1
    | .taking => 0
    | .running _ => 3
    | .finishing _ => 2

theorem Inv.progress (h : Inv c f) : c.executed = c.accepted ∨
    ∃ c', Step c none c' ∧ remaining c' < remaining c ∧ c'.accepted = c.accepted := by
  have hholds := h.task
  cases htask : c.task with
  | waiting =>
    rw [htask] at hholds
    obtain ⟨-, -, hcnt⟩ := hholds
    cases hsem : c.cmdSem with
    | zero => exact .inl (h.inOrder.eq_of_length (by omega))
    | succ n =>
      refine .inr ⟨_, .wait htask hsem, ?_, rfl⟩
      simp only [remaining, htask]
      omega
  | taking =>
    obtain ⟨hlt, readyBuf, hget, -⟩ := h.takeBuf htask
    have hne : f % 2 ≠ consoleCmdLineBufNum := by
      unfold consoleCmdLineBufNum
      omega
    refine .inr ⟨_, .take htask hget hne, ?_, rfl⟩
    simp only [remaining, htask, List.length_append, List.length_singleton]
    omega
  | running idx =>
    refine .inr ⟨_, .exec htask fun _ _ => rfl, ?_, rfl⟩
    simp only [remaining, htask]
    omega
  | finishing idx =>
    by_cases hrx : c.rxBufIdx = consoleCmdLineBufNum
    · refine .inr ⟨_, .direct htask hrx, ?_, rfl⟩
      simp only [remaining, htask]
      omega
    · refine .inr ⟨_, .release htask hrx, ?_, rfl⟩
      simp only [remaining, htask]
      omega

/-- The task alone gets to the point where all lines accepted so far are executed. -/
def Drains (c : State) : Prop :=
  ∃ n c', Run Step c (List.replicate n none) c' ∧ c'.executed = c.accepted

theorem Inv.drains (h : Inv c f) : Drains c := by
  generalize hsize : remaining c = size
  induction size using Nat.strongRecOn generalizing c f with
  | _ size ih =>
    cases h.progress with
    | inl hdone => exact ⟨0, c, .nil c, hdone⟩
    | inr hstep =>
      obtain ⟨c₁, hstep, hlt, hacc⟩ := hstep
      have hin : InputInside c none := trivial
      obtain ⟨f₁, h₁⟩ := inv_step h hin hstep
      obtain ⟨n, c', hrun, hexec⟩ := ih _ (hsize ▸ hlt) h₁ rfl
      exact ⟨n + 1, c', .cons hstep hrun, hexec.trans hacc⟩

theorem lines_ok {rxData : Option UInt8} {as : List (Option (List UInt8))}
    (h : Run (Guarded Step InputInside) (start buf rxData) as c) : Orderly c ∧ Drains c := by
  have hinv := h.invariant (I := fun c => ∃ f, Inv c f) ⟨0, inv_start buf rxData⟩
    fun _ _ _ hI hstep => inv_step hI.choose_spec hstep.1 hstep.2
  obtain ⟨f, hinv⟩ := hinv
  exact ⟨hinv.orderly, hinv.drains⟩

end

/-! ## Two lines -/

def blank : State := start (fun _ => 0) none

def twoLines : List UInt8 := [0x41, 0x0d, 0x42, 0x0a]

theorem lines_ok_two : ∃ c, Run Step blank [some twoLines] c ∧
    c.accepted = [[0x41], [0x42]] ∧ Orderly c ∧ Drains c := by
  have hin : InputInside blank (some twoLines) := by
    intro _
    simp [Inside, twoLines, blank, start, consoleCmdLineMaxLen, isprint]
  have hrun : Run (Guarded Step InputInside) blank [some twoLines] _ := .single ⟨hin, .rx⟩
  exact ⟨_, hrun.mono fun _ _ _ h => h.2, by decide, lines_ok hrun⟩

/-- A line of 255 characters, one of them taken back, and two more. -/
def longLine : List UInt8 := List.replicate 255 0x78 ++ [0x08, 0x78, 0x78]

/-- The two lines are there and the first one is executed. -/
def firstDone : State :=
  let c := consoleRxCallback blank twoLines
  { c with
    cmdSem := 1, executed := c.executed ++ [lineOf c.buf 0], lastCmdBufIdx := 0, rxBufIdx := 0
    rxDataCnt := 0
    readyBuf := (consoleGetValidBufIdx c.readyBuf consoleCmdLineBufNum c.lastCmdBufIdx).2
    task := .waiting }

theorem run_firstDone : Run Step blank [some twoLines, none, none, none, none] firstDone := by
  have hget : consoleGetValidBufIdx (consoleRxCallback blank twoLines).readyBuf consoleCmdLineBufNum
      (consoleRxCallback blank twoLines).lastCmdBufIdx = (0, firstDone.readyBuf) :=
    Prod.ext (by decide) rfl
  refine .cons .rx (.cons (.wait rfl rfl) (.cons (.take rfl hget (by decide)) ?_))
  exact .cons (.exec rfl fun _ _ => rfl) (.single (.direct rfl rfl))

set_option maxRecDepth 8000 in
/-- The task executes the long line in the place of the second one. -/
theorem backspace_overruns : ¬∀ (buf : Nat → UInt8) (rxData : Option UInt8)
    (as : List (Option (List UInt8))) (c : State),
    Run Step (start buf rxData) as c → Orderly c ∧ Drains c := by
  intro hclaim
  generalize hc : consoleRxCallback firstDone longLine = c
  have hfacts : c.task = .waiting ∧ c.cmdSem = 1 ∧ c.accepted = [[0x41], [0x42]] ∧
      c.executed = [[0x41]] ∧ lineOf c.buf 1 = [0x78] ∧
      (consoleGetValidBufIdx c.readyBuf consoleCmdLineBufNum c.lastCmdBufIdx).1 = 1 := by
    subst hc
    decide
  obtain ⟨htask, hsem, hacc, hexec, hline, hget⟩ := hfacts
  have hlong : Step firstDone (some longLine) c := hc ▸ .rx
  have hrun := run_firstDone.append (.cons hlong (.cons (.wait htask hsem)
    (.single (.take rfl (Prod.ext hget rfl) (by decide)))))
  have horder := (hclaim _ _ _ _ hrun).1.executed
  dsimp only at horder
  rw [hexec, hline, hacc] at horder
  exact absurd horder (by decide)

end Console
end XR806

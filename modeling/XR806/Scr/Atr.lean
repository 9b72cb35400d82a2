import XR806.Scr.RxBuf

/-!
# XR806.Scr.Atr

The answer to reset: how it is decoded and what `HAL_SCR_Process` does with it, as a machine of its
stages and the interrupts between them. Every access to one of the arrays is logged. The walk along
the interface bytes ends at the 33rd byte at the latest. The rest is up to the card: it chooses the
entries of two tables that have fewer than 16, how many bytes are copied to an array of 30, and in
the stage behind a warm reset the `F` and `D` that the clock is divided by (`atr_safe_iff`).
-/

namespace XR806
namespace Scr

open Trans (Along along_append along_iff)

/-! ## The arrays -/

inductive Obj
  | rxBuffer
  | rspTemp
  | fifmaxList
  | diList
  | iList
  | tk
  | icCardAtr
  deriving DecidableEq

def Obj.size : Obj → Nat
  | .rxBuffer => 64
  | .rspTemp => 30
  | .fifmaxList => 14
  | .diList => 10
  | .iList => 4
  | .tk => 15
  | .icCardAtr => 30

abbrev Access := Obj × Nat

/-- All accesses are in bounds. -/
def Good (log : List Access) : Prop := ∀ a ∈ log, a.2 < a.1.size

instance (log : List Access) : Decidable (Good log) := inferInstanceAs (Decidable (∀ _ ∈ _, _))

/-- `scatr_struct`. -/
structure Scatr where
  ts : Byte
  tk : List Byte
  tkNum : Nat
  t : Nat
  fmax : Nat
  f : Nat
  d : Nat
  i : Nat
  p : Nat
  n : Nat

/-- `upps_struct`. -/
structure Upps where
  ppss : Byte
  pps0 : Byte
  pps1 : Byte
  pps2 : Byte
  pps3 : Byte
  pck : Byte

/-- `SCR_ParamsInit`. -/
def Scatr.paramsInit (a : Scatr) : Scatr :=
  { a with ts := 0x3b, tkNum := 0, t := 0, fmax := 4, f := 372, d := 1, i := 50, p := 5, n := 2 }

/-! ## Decoding -/

def fifmaxList : List (Nat × Nat) :=
  [(372, 4), (372, 5), (558, 6), (774, 8), (1116, 12), (1488, 16), (1860, 20), (0, 0), (0, 0),
    (512, 5), (768, 7), (1024, 10), (1536, 15), (2048, 20)]

def diList : List Nat := [0, 1, 2, 4, 8, 16, 32, 0, 12, 20]

def iList : List Nat := [25, 50, 100, 50]

def high (b : Byte) : Nat := (b >>> 4 &&& 0xf).toNat

def low (b : Byte) : Nat := (b &&& 0xf).toNat

/-- `SCR_TA1_Decode`. -/
def ta1Decode (a : Scatr) (ta1 : Byte) : Scatr × List Access :=
  ({ a with
      f := (fifmaxList.getD (high ta1) (0, 0)).1
      fmax := (fifmaxList.getD (high ta1) (0, 0)).2
      d := diList.getD (low ta1) 0 },
    [(.fifmaxList, high ta1), (.fifmaxList, high ta1), (.diList, low ta1)])

/-- `SCR_TB1_Decode`. -/
def tb1Decode (a : Scatr) (tb1 : Byte) : Scatr × List Access :=
  let v := (tb1 &&& 0x1f).toNat
  ({ a with
      i := iList.getD (tb1 >>> 5 &&& 0x3).toNat 0
      p := if 4 < v ∧ v < 26 then v else if v = 0 then 0 else 5 },
    [(.iList, (tb1 >>> 5 &&& 0x3).toNat)])

/-- The locals of `SCR_ATR_Decode`, what it fills in, and the accesses. -/
structure Walk where
  scatr : Scatr
  pps : Upps
  index : Nat
  log : List Access

namespace Walk

variable (pdata : Nat → Byte)

/-- `pdata[index]`. -/
def peek (w : Walk) : Byte × Walk :=
  (pdata w.index, { w with log := w.log ++ [(.rxBuffer, w.index)] })

/-- `index++`. -/
def skip (w : Walk) : Walk := { w with index := w.index + 1 }

/-- An interface byte is there if its bit is set. -/
def whenBit (tag mask : Byte) (f : Walk → Walk) (w : Walk) : Walk :=
  if tag &&& mask ≠ 0 then f w else w

def ta1 (w : Walk) : Walk :=
  let (b, w) := w.peek pdata
  let (scatr, log) := ta1Decode w.scatr b
  let w := { w with scatr := scatr, log := w.log ++ log }
  let (b, w) := w.peek pdata
  { w with pps := { w.pps with pps0 := w.pps.pps0 ||| 1#8 <<< 4, pps1 := b } }.skip

def tb1 (w : Walk) : Walk :=
  let (b, w) := w.peek pdata
  let (scatr, log) := tb1Decode w.scatr b
  { w with scatr := scatr, log := w.log ++ log }.skip

def tc1 (w : Walk) : Walk :=
  let (b, w) := w.peek pdata
  { w with scatr := { w.scatr with n := b.toNat } }.skip

/-- The guard time 255 stands for one or two units. -/
def guardTime (a : Scatr) (t1 : Bool) : Scatr :=
  if a.n = 0xff then { a with n := if t1 then 1 else 2 } else a

/-- TD1 with its tag. -/
def td1 (w : Walk) : Byte × Walk :=
  let (tag, w) := w.peek pdata
  let scatr := { w.scatr with t := (tag &&& 0xf).toNat }
  let pps := { w.pps with pps0 := w.pps.pps0 ||| (tag &&& 0xf) }
  (tag, { w with scatr := guardTime scatr (scatr.t = 1), pps := pps }.skip)

/-- TA, TB, TC and TD of a group behind the first. -/
def group (tag : Byte) (w : Walk) : Option Byte × Walk :=
  let w := whenBit tag 0x10 skip w
  let w := whenBit tag 0x20 skip w
  let w := whenBit tag 0x40 skip w
  if tag &&& 0x80 ≠ 0 then
    let (tag, w) := w.peek pdata
    (some tag, w.skip)
  else (none, w)

/-- `n` more groups, as long as there is a tag. -/
def groups : Nat → Option Byte × Walk → Walk
  | 0, (_, w) => w
  | _, (none, w) => w
  | n + 1, (some tag, w) => groups n (w.group pdata tag)

/-- The loop over the historical characters from the `i`-th on, `n` before the end. -/
def historical : Nat → Nat → Walk → Walk
  | 0, _, w => w
  | n + 1, i, w =>
    let (b, w) := w.peek pdata
    historical n (i + 1)
      { w with
        scatr := { w.scatr with tk := w.scatr.tk.set i b }
        log := w.log ++ [(Obj.tk, i)] }.skip

/-- TS and T0, with the tag. -/
def start (a : Scatr) (pps : Upps) (withTs : Bool) : Byte × Walk :=
  let w : Walk := ⟨a, { pps with ppss := 0xff, pps0 := 0 }, 0, []⟩
  let w := if withTs then
      let (b, w) := w.peek pdata
      { w with scatr := { w.scatr with ts := b } }.skip
    else w
  let (tag, w) := w.peek pdata
  (tag, { w with scatr := { w.scatr with tkNum := (tag &&& 0xf).toNat } }.skip)

/-- The interface bytes behind TA1. -/
def afterTa1 (tag : Byte) (w : Walk) : Walk :=
  let w := whenBit tag 0x20 (tb1 pdata) w
  let w := whenBit tag 0x40 (tc1 pdata) w
  if tag &&& 0x80 ≠ 0 then
    let (tag, w) := w.td1 pdata
    groups pdata 3 (some tag, w)
  else { w with scatr := guardTime w.scatr false }

def interface (tag : Byte) (w : Walk) : Walk := (whenBit tag 0x10 (ta1 pdata) w).afterTa1 pdata tag

def checkByte (p : Upps) : Byte :=
  let pck := p.ppss ^^^ p.pps0
  let pck := if p.pps0 &&& 1#8 <<< 4 ≠ 0 then pck ^^^ p.pps1 else pck
  let pck := if p.pps0 &&& 1#8 <<< 5 ≠ 0 then pck ^^^ p.pps2 else pck
  if p.pps0 &&& 1#8 <<< 6 ≠ 0 then pck ^^^ p.pps3 else pck

end Walk

/-- `SCR_ATR_Decode`. -/
def atrDecode (a : Scatr) (pdata : Nat → Byte) (pps : Upps) (withTs : Bool) : Walk :=
  let (tag, w) := Walk.start pdata a pps withTs
  let w := w.interface pdata tag
  let w := Walk.historical pdata w.scatr.tkNum 0 w
  { w with pps := { w.pps with pck := Walk.checkByte w.pps } }

/-! ## The stages -/

inductive Stage
  | waitConnect
  | waitAct
  | waitAtr
  | warmReset
  | waitAtrAgain
  | startPps
  | waitPpsResp
  | sendCmd
  | startDeact
  | waitDeact
  | waitDisconnect
  | idle
  | rwTest
  deriving DecidableEq

inductive AtrResp
  | invalid
  | ok
  | fail
  deriving DecidableEq

/-- The work parameters and the static variables of the driver. -/
structure Reader where
  stage : Stage
  stateDly : Nat
  ring : RxPriv
  detected : Bool
  activated : Bool
  atrResp : AtrResp
  chtoFlag : Nat
  scatr : Scatr
  pps : Upps
  cardId : Nat

/-- What a step has accessed and divided by, and the `F` and `D` from which it has programmed the
clock divisor. -/
structure Report where
  log : List Access
  divisors : List Nat
  clock : List (Nat × Nat)

def Report.empty : Report := ⟨[], [], []⟩

/-- Each answer is behind its length. -/
def icCardAtr : List (List Byte) :=
  [[7, 0x3b, 0x93, 0x11, 0x00, 0x00, 0x40, 0x41],
    [18, 0x3b, 0x7d, 0x94, 0x00, 0x00, 0x57, 0x44, 0x53, 0x67, 0x96, 0x86, 0x93, 0x03, 0x9d, 0xf7,
      0x10, 0x00, 0x9d],
    [15, 0x3b, 0xb9, 0x94, 0x00, 0x40, 0x14, 0x47, 0x47, 0x33, 0x53, 0x30, 0x35, 0x41, 0x53, 0x30],
    [17, 0x3b, 0x9d, 0x95, 0x00, 0x13, 0x61, 0x40, 0x36, 0x13, 0x85, 0xe9, 0x44, 0x34, 0x8f, 0x78,
      0x8f, 0x4a],
    [17, 0x3b, 0x9d, 0x95, 0x00, 0x13, 0x61, 0x40, 0x36, 0x13, 0x85, 0xe9, 0x44, 0x34, 0xf3, 0x78,
      0x8f, 0x4a],
    [22, 0x3b, 0x9f, 0x95, 0x80, 0x1f, 0xc3, 0x80, 0x31, 0xe0, 0x73, 0xfe, 0x21, 0x13, 0x57, 0x86,
      0x81, 0x02, 0x86, 0x98, 0x44, 0x18, 0xa8],
    [20, 0x3b, 0xfb, 0x94, 0x00, 0x00, 0x80, 0x1f, 0x83, 0x80, 0x65, 0x92, 0x10, 0x26, 0x86, 0x53,
      0x83, 0x00, 0x90, 0x00, 0xf4],
    [16, 0x3b, 0x7b, 0x94, 0x00, 0x00, 0x97, 0x88, 0x84, 0x86, 0x60, 0xa0, 0x04, 0x01, 0x00, 0x04,
      0x00],
    [20, 0x3b, 0x7f, 0x12, 0x00, 0x00, 0x44, 0x56, 0x4e, 0x20, 0x54, 0x45, 0x53, 0x54, 0x20, 0x43,
      0x41, 0x52, 0x44, 0x76, 0x31]]

/-- The first bytes of the rows of `ic_card_send_cmd`. -/
def icCardSendCmdLen : List Nat := [5, 0, 0, 0, 0, 0, 0, 7, 0]

/-- The copy of the answer to `rsp_temp`. -/
def copyAtr (ring : RxPriv) (rspTemp : Nat → Byte) : (Nat → Byte) × List Access :=
  (fun i => if i < ring.wptr then ring.buffer i else rspTemp i,
    (List.range ring.wptr).flatMap fun i => [(.rxBuffer, i), (.rspTemp, i)])

/-- The loop that looks for the answer in the list, from row `i` on. -/
def findCard (rspTemp : Nat → Byte) : List (List Byte) → Nat → Option Nat × List Access
  | [], _ => (none, [])
  | row :: rows, i =>
    let len := (row.getD 0 0).toNat
    let log := (List.range len).flatMap fun j => [(Obj.rspTemp, j), (Obj.icCardAtr, 1 + j)]
    if (List.range len).all fun j => rspTemp j = row.getD (1 + j) 0 then (some i, log)
    else
      let (card, rest) := findCard rspTemp rows (i + 1)
      (card, log ++ rest)

/-- The answer is copied, decoded and looked up. -/
def readAtr (rspTemp : Nat → Byte) (s : Reader) : Reader × List Access :=
  let (rspTemp, copied) := copyAtr s.ring rspTemp
  let w := atrDecode s.scatr s.ring.buffer s.pps true
  let (card, looked) := findCard rspTemp icCardAtr 0
  ({ s with scatr := w.scatr, pps := w.pps, cardId := card.getD s.cardId },
    copied ++ w.log ++ looked)

/-- The bytes of the card's PPS response are compared one after the other. -/
def checkPps : List Byte → RxPriv → RxPriv × Bool
  | [], ring => (ring, true)
  | b :: l, ring =>
    if ring.isEmpty then (ring, false)
    else
      let (data, ring) := ring.readByte
      if data ≠ b then (ring, false) else checkPps l ring

def Upps.bytes (p : Upps) : List Byte :=
  [p.ppss, p.pps0] ++ (if p.pps0 &&& 1#8 <<< 4 ≠ 0 then [p.pps1] else []) ++
    (if p.pps0 &&& 1#8 <<< 5 ≠ 0 then [p.pps2] else []) ++
    (if p.pps0 &&& 1#8 <<< 6 ≠ 0 then [p.pps3] else []) ++ [p.pck]

/-- `HAL_SCR_Process`. With `compat` the driver is built for the card compatibility test; `rspTemp`
is what the array on the stack holds before. -/
def process (compat : Bool) (rspTemp : Nat → Byte) (s : Reader) : Reader × Report :=
  let afterPps := if compat then .rwTest else .sendCmd
  match s.stage with
  | .waitConnect =>
    if s.detected then
      if 50 ≤ s.stateDly + 1 then
        ({ s with scatr := s.scatr.paramsInit, stage := .waitAct, stateDly := 0 }, .empty)
      else ({ s with stateDly := s.stateDly + 1 }, .empty)
    else ({ s with stateDly := 0 }, .empty)
  | .waitAct => (if s.activated then { s with stage := .waitAtr } else s, .empty)
  | .waitAtr =>
    match s.atrResp with
    | .invalid => (s, .empty)
    | .ok =>
      let (s, log) := readAtr rspTemp s
      ({ s with ring := s.ring.flush, stage := .startPps }, ⟨log, [], []⟩)
    | .fail => ({ s with stage := .startDeact }, .empty)
  | .startPps =>
    ({ s with chtoFlag := 0, ring := s.ring.flush, stage := .waitPpsResp }, .empty)
  | .waitPpsResp =>
    if s.chtoFlag = 0 then (s, .empty)
    else if s.ring.isEmpty then ({ s with stage := .warmReset }, .empty)
    else
      let (ring, ok) := checkPps s.pps.bytes s.ring
      if ok then ({ s with ring := ring.flush, stage := afterPps }, .empty)
      else ({ s with ring := ring }, .empty)
  | .warmReset => ({ s with atrResp := .invalid, stage := .waitAtrAgain }, .empty)
  | .waitAtrAgain =>
    match s.atrResp with
    | .invalid => (s, .empty)
    | .ok =>
      let (s, log) := readAtr rspTemp s
      ({ s with ring := s.ring.flush, stage := afterPps },
        ⟨log, [s.scatr.d], [(s.scatr.f, s.scatr.d)]⟩)
    | .fail => ({ s with stage := .startDeact }, .empty)
  | .sendCmd =>
    if icCardSendCmdLen.getD s.cardId 0 ≠ 0 then ({ s with ring := s.ring.readAll.2 }, .empty)
    else ({ s with stage := .idle }, .empty)
  | .startDeact => ({ s with stage := .waitDeact }, .empty)
  | .waitDeact => (if s.activated then s else { s with stage := .waitDisconnect }, .empty)
  | .waitDisconnect => (if s.detected then s else { s with stage := .waitConnect }, .empty)
  | .idle => (s, .empty)
  | .rwTest => ({ s with stage := .idle }, .empty)

/-- The interrupts, and the steps of the thread. -/
inductive Event
  | insert
  | remove
  | act
  | deact
  | atrFail
  | atrDone
  | bytes (fifo : List Byte)
  | charTimeout
  | process (rspTemp : Nat → Byte)

def Reader.next (compat : Bool) (s : Reader) : Event → Reader
  | .insert => { s with detected := true, atrResp := .invalid, stage := .waitConnect }
  | .remove => { s with detected := false, atrResp := .invalid, stage := .startDeact }
  | .act => { s with activated := true, atrResp := .invalid }
  | .deact => { s with activated := false, atrResp := .invalid }
  | .atrFail => { s with atrResp := .fail }
  | .atrDone => { s with atrResp := .ok }
  | .bytes fifo => if s.stage ≠ .rwTest then { s with ring := fifo.foldl RxPriv.fill s.ring } else s
  | .charTimeout => { s with chtoFlag := s.chtoFlag + 1 }
  | .process rspTemp => (XR806.Scr.process compat rspTemp s).1

/-! ## The walk stays in the buffer -/

theorem good_append {l m : List Access} : Good (l ++ m) ↔ Good l ∧ Good m :=
  List.forall_mem_append

theorem good_singleton {a : Access} : Good [a] ↔ a.2 < a.1.size := List.forall_mem_singleton

/-- A part of the walk that goes on by at most `k` bytes, has no access out of bounds and leaves
`F` and `D` as they are. -/
structure Near (k : Nat) (w w' : Walk) : Prop where
  index : w'.index ≤ w.index + k
  good : Good w'.log ↔ Good w.log
  kept : (w'.scatr.f, w'.scatr.d, w'.scatr.tkNum) = (w.scatr.f, w.scatr.d, w.scatr.tkNum)

theorem Near.refl (w : Walk) : Near 0 w w := ⟨Nat.le_refl _, Iff.rfl, rfl⟩

theorem Near.trans {k l : Nat} {w w' w'' : Walk} (h : Near k w w') (h' : Near l w' w'') :
    Near (k + l) w w'' :=
  ⟨by have := h.index; have := h'.index; omega, h'.good.trans h.good,
    h'.kept.trans h.kept⟩

theorem Near.mono {k l : Nat} {w w' : Walk} (h : Near k w w') (hkl : k ≤ l) : Near l w w' :=
  ⟨Nat.le_trans h.index (Nat.add_le_add_left hkl _), h.good, h.kept⟩

section

variable {pdata : Nat → Byte} {w : Walk}

theorem Near.skip (w : Walk) : Near 1 w w.skip := ⟨Nat.le_refl _, Iff.rfl, rfl⟩

/-- A byte is read and `extra` is accessed. -/
theorem near_of_log {w' : Walk} {extra : List Access} (hi : w.index < 64)
    (hlog : w'.log = w.log ++ [(.rxBuffer, w.index)] ++ extra) (hextra : Good extra)
    (hindex : w'.index = w.index + 1)
    (hkept : (w'.scatr.f, w'.scatr.d, w'.scatr.tkNum) =
      (w.scatr.f, w.scatr.d, w.scatr.tkNum)) : Near 1 w w' := by
  refine ⟨Nat.le_of_eq hindex, ?_, hkept⟩
  rw [hlog, good_append, good_append, good_singleton]
  exact ⟨fun h => h.1.1, fun h => ⟨⟨h, hi⟩, hextra⟩⟩

theorem good_nil : Good [] := List.forall_mem_nil _

theorem peek_near (hi : w.index < 64) : Near 1 w (w.peek pdata).2.skip :=
  near_of_log hi (List.append_nil _).symm good_nil rfl rfl

theorem Near.whenBit {k : Nat} {tag mask : Byte} {f : Walk → Walk} (h : Near k w (f w)) :
    Near k w (w.whenBit tag mask f) := by
  rw [Walk.whenBit]
  split
  · exact h
  · exact (Near.refl w).mono (Nat.zero_le k)

theorem tb1_near (hi : w.index < 64) : Near 1 w (w.tb1 pdata) := by
  refine near_of_log hi rfl (good_singleton.mpr ?_) rfl rfl
  have h : ∀ b : Byte, (b >>> 5 &&& 0x3).toNat < 4 := by decide
  exact h _

theorem tc1_near (hi : w.index < 64) : Near 1 w (w.tc1 pdata) :=
  near_of_log hi (List.append_nil _).symm good_nil rfl rfl

theorem guardTime_kept (a : Scatr) (t1 : Bool) :
    ((Walk.guardTime a t1).f, (Walk.guardTime a t1).d, (Walk.guardTime a t1).tkNum) =
      (a.f, a.d, a.tkNum) := by
  rw [Walk.guardTime]
  split <;> rfl

theorem guardTime_near (w : Walk) : Near 0 w { w with scatr := Walk.guardTime w.scatr false } :=
  ⟨Nat.le_refl _, Iff.rfl, guardTime_kept _ _⟩

theorem td1_near (hi : w.index < 64) : Near 1 w (w.td1 pdata).2 :=
  near_of_log hi (List.append_nil _).symm good_nil rfl (guardTime_kept _ _)

theorem group_near {tag : Byte} (hi : w.index + 3 < 64) : Near 4 w (w.group pdata tag).2 := by
  have h : Near 3 w (((w.whenBit tag 0x10 Walk.skip).whenBit tag 0x20 Walk.skip).whenBit tag 0x40
      Walk.skip) :=
    ((Near.skip w).whenBit.trans (Near.skip _).whenBit).trans (Near.skip _).whenBit
  rw [Walk.group]
  dsimp only
  split
  · exact h.trans (peek_near (by have := h.index; omega))
  · exact h.mono (by omega)

theorem groups_near {n : Nat} :
    ∀ {tag : Option Byte} {w : Walk}, w.index + 4 * n ≤ 64 →
      Near (4 * n) w (Walk.groups pdata n (tag, w)) := by
  induction n with
  | zero => exact fun _ => Near.refl _
  | succ n ih =>
    intro tag w hi
    cases tag with
    | none => exact (Near.refl w).mono (Nat.zero_le _)
    | some tag =>
      have h : Near 4 w (w.group pdata tag).2 := group_near (by omega)
      have hn : Near (4 * n) (w.group pdata tag).2
          (Walk.groups pdata n ((w.group pdata tag).1, (w.group pdata tag).2)) :=
        ih (by have := h.index; omega)
      exact (h.trans hn).mono (by omega)

theorem historical_near {n : Nat} :
    ∀ {i : Nat} {w : Walk}, w.index + n ≤ 64 → i + n ≤ 15 →
      Near n w (Walk.historical pdata n i w) := by
  induction n with
  | zero => exact fun _ _ => Near.refl _
  | succ n ih =>
    intro i w hw hi
    have h : Near 1 w ({ (w.peek pdata).2 with
        scatr := { w.scatr with tk := w.scatr.tk.set i (pdata w.index) }
        log := (w.peek pdata).2.log ++ [(Obj.tk, i)] } : Walk).skip :=
      near_of_log (by omega) rfl (good_singleton.mpr (by omega : i < 15)) rfl rfl
    have hn := h.trans (ih (i := i + 1) (by have := h.index; omega) (by omega))
    exact hn.mono (by omega)

end

/-! ## What is decoded -/

/-- The entries of TA1 are in the tables. -/
def Listed (ta1 : Byte) : Prop := high ta1 < 14 ∧ low ta1 < 10

instance (ta1 : Byte) : Decidable (Listed ta1) := inferInstanceAs (Decidable (_ ∧ _))

/-- T0 says that TA1 is there. -/
def HasTA1 (pdata : Nat → Byte) : Prop := pdata 1 &&& 0x10 ≠ 0

instance (pdata : Nat → Byte) : Decidable (HasTA1 pdata) := inferInstanceAs (Decidable (_ ≠ _))

/-- `F` and `D` when the answer is decoded. -/
def decodedF (pdata : Nat → Byte) (a : Scatr) : Nat :=
  if HasTA1 pdata then (fifmaxList.getD (high (pdata 2)) (0, 0)).1 else a.f

def decodedD (pdata : Nat → Byte) (a : Scatr) : Nat :=
  if HasTA1 pdata then diList.getD (low (pdata 2)) 0 else a.d

section

variable (pdata : Nat → Byte)

theorem good_ta1 {w : Walk} (hi : w.index < 64) :
    Good (w.ta1 pdata).log ↔ Good w.log ∧ Listed (pdata w.index) := by
  have hlog : (w.ta1 pdata).log = w.log ++ [(.rxBuffer, w.index)] ++
      [(.fifmaxList, high (pdata w.index)), (.fifmaxList, high (pdata w.index)),
        (.diList, low (pdata w.index))] ++ [(.rxBuffer, w.index)] := rfl
  have hr : ((Obj.rxBuffer, w.index) : Access).2 < Obj.rxBuffer.size := hi
  rw [hlog, good_append, good_append, good_append, good_singleton]
  constructor
  · rintro ⟨⟨⟨hw, -⟩, hl⟩, -⟩
    exact ⟨hw, hl _ List.mem_cons_self, hl (Obj.diList, low (pdata w.index)) (by simp)⟩
  · rintro ⟨hw, hf, hd⟩
    refine ⟨⟨⟨hw, hr⟩, ?_⟩, hr⟩
    rintro a ha
    simp only [List.mem_cons, List.not_mem_nil, or_false] at ha
    rcases ha with rfl | rfl | rfl
    · exact hf
    · exact hf
    · exact hd

/-- Behind TA1 the interface bytes take at most 15 bytes. -/
theorem afterTa1_near (tag : Byte) {w : Walk} (hw : w.index ≤ 3) :
    Near 15 w (w.afterTa1 pdata tag) := by
  have h2 : Near 1 w (w.whenBit tag 0x20 (Walk.tb1 pdata)) := (tb1_near (by omega)).whenBit
  have h3 : Near 2 w ((w.whenBit tag 0x20 (Walk.tb1 pdata)).whenBit tag 0x40 (Walk.tc1 pdata)) :=
    h2.trans (tc1_near (by have := h2.index; omega)).whenBit
  rw [Walk.afterTa1]
  dsimp only
  split
  · have h4 := h3.trans (td1_near (by have := h3.index; omega) : Near 1 _ (Walk.td1 pdata _).2)
    refine (h4.trans (groups_near ?_)).mono (by omega)
    have := h4.index
    omega
  · exact (h3.trans (guardTime_near _)).mono (by omega)

theorem low_le (b : Byte) : low b ≤ 15 := by
  have h : ∀ b : Byte, (b &&& 0xf).toNat ≤ 15 := by decide
  exact h b

/-- From the first interface byte on. -/
theorem rest_spec (a : Scatr) (pps : Upps) {w w' : Walk}
    (hw : w = (Walk.start pdata a pps true).2.whenBit (pdata 1) 0x10 (Walk.ta1 pdata))
    (hi : w.index ≤ 3) (htk : w.scatr.tkNum = low (pdata 1))
    (hw' : w' = atrDecode a pdata pps true) :
    (Good w'.log ↔ Good w.log) ∧ w'.scatr.f = w.scatr.f ∧ w'.scatr.d = w.scatr.d := by
  have h1 := afterTa1_near pdata (pdata 1) hi
  have hk := h1.kept
  rw [htk] at hk
  obtain ⟨hf, hk⟩ := Prod.mk.inj hk
  obtain ⟨hd, hk⟩ := Prod.mk.inj hk
  have hl := low_le (pdata 1)
  have h := h1.trans (historical_near (n := low (pdata 1)) (i := 0) (by have := h1.index; omega)
    (by omega) : Near _ _ (Walk.historical pdata (low (pdata 1)) 0 (w.afterTa1 pdata (pdata 1))))
  have hlog : w'.log =
      (Walk.historical pdata (low (pdata 1)) 0 (w.afterTa1 pdata (pdata 1))).log := by
    rw [hw', ← hk, hw]
    rfl
  have hscatr : w'.scatr =
      (Walk.historical pdata (low (pdata 1)) 0 (w.afterTa1 pdata (pdata 1))).scatr := by
    rw [hw', ← hk, hw]
    rfl
  have hkept := Prod.mk.inj h.kept
  rw [hlog, hscatr]
  exact ⟨h.good, hkept.1, (Prod.mk.inj hkept.2).1⟩

/-- The answer is read up to its 33rd byte. Only TA1 can lead out of the arrays. -/
theorem atrDecode_spec (a : Scatr) (pps : Upps) :
    (Good (atrDecode a pdata pps true).log ↔ (HasTA1 pdata → Listed (pdata 2))) ∧
      (atrDecode a pdata pps true).scatr.f = decodedF pdata a ∧
      (atrDecode a pdata pps true).scatr.d = decodedD pdata a := by
  have hs : Good (Walk.start pdata a pps true).2.log :=
    (by decide : Good [(.rxBuffer, 0), (.rxBuffer, 1)])
  rw [decodedF, decodedD]
  by_cases hta : HasTA1 pdata
  · have hw : (Walk.start pdata a pps true).2.whenBit (pdata 1) 0x10 (Walk.ta1 pdata) =
        (Walk.start pdata a pps true).2.ta1 pdata := if_pos hta
    obtain ⟨hg, hf, hd⟩ := rest_spec pdata a pps hw.symm (Nat.le_refl 3) rfl rfl
    rw [if_pos hta, if_pos hta, hg, hf, hd, good_ta1 pdata (by decide : 2 < 64)]
    exact ⟨⟨fun h _ => h.2, fun h => ⟨hs, h hta⟩⟩, rfl, rfl⟩
  · have hw : (Walk.start pdata a pps true).2.whenBit (pdata 1) 0x10 (Walk.ta1 pdata) =
        (Walk.start pdata a pps true).2 := if_neg hta
    obtain ⟨hg, hf, hd⟩ := rest_spec pdata a pps hw.symm (by decide : 2 ≤ 3) rfl rfl
    rw [if_neg hta, if_neg hta, hg, hf, hd]
    exact ⟨iff_of_true hs fun h => absurd h hta, rfl, rfl⟩

end

/-! ## The stages that read the answer -/

theorem good_copyAtr_iff {ring : RxPriv} (hw : ring.wptr < 64) (rspTemp : Nat → Byte) :
    Good (copyAtr ring rspTemp).2 ↔ ring.wptr ≤ 30 := by
  constructor
  · intro h
    refine Nat.le_of_not_lt fun hlt => ?_
    have hm : (Obj.rspTemp, 30) ∈ (copyAtr ring rspTemp).2 :=
      List.mem_flatMap.mpr ⟨30, List.mem_range.mpr hlt, by simp⟩
    exact absurd (h _ hm) (by decide)
  · intro h a ha
    obtain ⟨i, hi, hm⟩ := List.mem_flatMap.mp ha
    have hi := List.mem_range.mp hi
    rcases List.mem_cons.mp hm with rfl | hm
    · exact Nat.lt_of_lt_of_le hi (Nat.le_of_lt hw)
    · rw [List.mem_singleton.mp hm]
      exact Nat.lt_of_lt_of_le hi h

theorem good_findCard (rspTemp : Nat → Byte) {rows : List (List Byte)}
    (h : ∀ row ∈ rows, (row.getD 0 0).toNat < 30) :
    ∀ i, Good (findCard rspTemp rows i).2 := by
  induction rows with
  | nil => exact fun _ => good_nil
  | cons row rows ih =>
    intro i
    obtain ⟨hrow, hrows⟩ := List.forall_mem_cons.mp h
    have hg : Good ((List.range (row.getD 0 0).toNat).flatMap fun j =>
        [(Obj.rspTemp, j), (Obj.icCardAtr, 1 + j)]) := by
      intro a ha
      obtain ⟨j, hj, hm⟩ := List.mem_flatMap.mp ha
      have hj := List.mem_range.mp hj
      rcases List.mem_cons.mp hm with rfl | hm
      · exact Nat.lt_trans hj hrow
      · rw [List.mem_singleton.mp hm]
        exact (by omega : 1 + j < 30)
    rw [findCard]
    dsimp only
    split
    · exact hg
    · exact good_append.mpr ⟨hg, ih hrows (i + 1)⟩

theorem icCardAtr_lt : ∀ row ∈ icCardAtr, (row.getD 0 0).toNat < 30 := by decide

/-- The answer in the ring is not longer than `rsp_temp`, and if it has TA1 that is in the
tables. -/
structure Copied (ring : RxPriv) : Prop where
  short : ring.wptr ≤ 30
  listed : HasTA1 ring.buffer → Listed (ring.buffer 2)

theorem readAtr_spec {s : Reader} (hw : s.ring.wptr < 64) (rspTemp : Nat → Byte) :
    (Good (readAtr rspTemp s).2 ↔ Copied s.ring) ∧
      (readAtr rspTemp s).1.scatr.f = decodedF s.ring.buffer s.scatr ∧
      (readAtr rspTemp s).1.scatr.d = decodedD s.ring.buffer s.scatr := by
  obtain ⟨hg, hf, hd⟩ := atrDecode_spec s.ring.buffer s.scatr s.pps
  refine ⟨?_, hf, hd⟩
  rw [readAtr]
  dsimp only
  rw [good_append, good_append, good_copyAtr_iff hw, hg]
  exact ⟨fun h => ⟨h.1.1, h.1.2⟩, fun h => ⟨⟨h.short, h.listed⟩, good_findCard _ icCardAtr_lt 0⟩⟩

/-! ## The standard tables -/

/-- The values that ISO/IEC 7816-3 defines. -/
def standardF : List Nat := [372, 558, 744, 1116, 1488, 1860, 512, 768, 1024, 1536, 2048]

def standardD : List Nat := [1, 2, 4, 8, 16, 32, 64, 12, 20]

/-- A step accesses no array out of bounds, does not divide by zero and programs the clock from
standard values. -/
structure Safe (r : Report) : Prop where
  good : Good r.log
  divisors : ∀ d ∈ r.divisors, d ≠ 0
  clock : ∀ c ∈ r.clock, c.1 ∈ standardF ∧ c.2 ∈ standardD

/-- TA1 has entries in the tables of the driver, and they are standard values. The entry 3 for `F`
is 774 there. -/
def Named (ta1 : Byte) : Prop :=
  high ta1 ∈ [0, 1, 2, 4, 5, 6, 9, 10, 11, 12, 13] ∧ low ta1 ∈ [1, 2, 3, 4, 5, 6, 8, 9]

instance (ta1 : Byte) : Decidable (Named ta1) := inferInstanceAs (Decidable (_ ∧ _))

theorem named_iff : ∀ ta1 : Byte, Named ta1 ↔ Listed ta1 ∧
    (fifmaxList.getD (high ta1) (0, 0)).1 ∈ standardF ∧
      diList.getD (low ta1) 0 ∈ standardD := by
  decide

/-- What the answer behind a warm reset must be. -/
def Programs (s : Reader) : Prop :=
  if HasTA1 s.ring.buffer then Named (s.ring.buffer 2)
  else s.scatr.f ∈ standardF ∧ s.scatr.d ∈ standardD

/-- When a stage reads an answer, it is one that the arrays have room for, and the clock is set
from TA1 or from what the answer before has left. -/
def Fits (s : Reader) : Event → Prop
  | .process _ => s.atrResp = .ok →
    (s.stage = .waitAtr → Copied s.ring) ∧
      (s.stage = .waitAtrAgain → s.ring.wptr ≤ 30 ∧ Programs s)
  | _ => True

/-- What a step does is safe. -/
def SafeStep (compat : Bool) (s : Reader) : Event → Prop
  | .process rspTemp => Safe (process compat rspTemp s).2
  | _ => True

theorem safe_empty : Safe .empty :=
  ⟨good_nil, List.forall_mem_nil _, List.forall_mem_nil _⟩

/-- The other stages touch none of the arrays. -/
theorem process_empty (compat : Bool) (rspTemp : Nat → Byte) {s : Reader}
    (h : s.atrResp = .ok → s.stage ≠ .waitAtr ∧ s.stage ≠ .waitAtrAgain) :
    (process compat rspTemp s).2 = .empty := by
  rw [process]
  dsimp only
  cases hs : s.stage with
  | waitAtr =>
    cases hr : s.atrResp with
    | ok => exact absurd hs (h hr).1
    | invalid => rfl
    | fail => rfl
  | waitAtrAgain =>
    cases hr : s.atrResp with
    | ok => exact absurd hs (h hr).2
    | invalid => rfl
    | fail => rfl
  | waitConnect => dsimp only; split <;> (try split) <;> rfl
  | waitPpsResp => dsimp only; split <;> (try split) <;> (try split) <;> rfl
  | sendCmd => dsimp only; split <;> rfl
  | waitAct => rfl
  | warmReset => rfl
  | startPps => rfl
  | startDeact => rfl
  | waitDeact => rfl
  | waitDisconnect => rfl
  | idle => rfl
  | rwTest => rfl

theorem process_waitAtr (compat : Bool) (rspTemp : Nat → Byte) {s : Reader}
    (hs : s.stage = .waitAtr) (hr : s.atrResp = .ok) :
    (process compat rspTemp s).2 = ⟨(readAtr rspTemp s).2, [], []⟩ := by
  rw [process, hs]
  dsimp only
  rw [hr]

theorem process_waitAtrAgain (compat : Bool) (rspTemp : Nat → Byte) {s : Reader}
    (hs : s.stage = .waitAtrAgain) (hr : s.atrResp = .ok) :
    (process compat rspTemp s).2 =
      ⟨(readAtr rspTemp s).2, [(readAtr rspTemp s).1.scatr.d],
        [((readAtr rspTemp s).1.scatr.f, (readAtr rspTemp s).1.scatr.d)]⟩ := by
  rw [process, hs]
  dsimp only
  rw [hr]

theorem zero_not_standard : 0 ∉ standardD := by decide

/-- What is programmed has been decoded. -/
theorem safe_again_iff {s : Reader} (hw : s.ring.wptr < 64) (rspTemp : Nat → Byte) :
    Safe ⟨(readAtr rspTemp s).2, [(readAtr rspTemp s).1.scatr.d],
        [((readAtr rspTemp s).1.scatr.f, (readAtr rspTemp s).1.scatr.d)]⟩ ↔
      s.ring.wptr ≤ 30 ∧ Programs s := by
  obtain ⟨hg, hf, hd⟩ := readAtr_spec hw rspTemp
  have hsafe : Safe ⟨(readAtr rspTemp s).2, [(readAtr rspTemp s).1.scatr.d],
      [((readAtr rspTemp s).1.scatr.f, (readAtr rspTemp s).1.scatr.d)]⟩ ↔
      Copied s.ring ∧ decodedF s.ring.buffer s.scatr ∈ standardF ∧
        decodedD s.ring.buffer s.scatr ∈ standardD := by
    rw [hf, hd]
    constructor
    · exact fun h => ⟨hg.mp h.good, h.clock _ (List.mem_singleton.mpr rfl)⟩
    · rintro ⟨hc, hF, hD⟩
      refine ⟨hg.mpr hc, List.forall_mem_singleton.mpr fun hz => ?_,
        List.forall_mem_singleton.mpr ⟨hF, hD⟩⟩
      exact zero_not_standard (hz ▸ hD)
  rw [hsafe, Programs, decodedF, decodedD]
  by_cases hta : HasTA1 s.ring.buffer
  · rw [if_pos hta, if_pos hta, if_pos hta, named_iff]
    exact ⟨fun h => ⟨h.1.short, h.1.listed hta, h.2⟩, fun h => ⟨⟨h.1, fun _ => h.2.1⟩, h.2.2⟩⟩
  · rw [if_neg hta, if_neg hta, if_neg hta]
    exact ⟨fun h => ⟨h.1.short, h.2⟩, fun h => ⟨⟨h.1, fun ht => absurd ht hta⟩, h.2⟩⟩

theorem safeStep_iff (compat : Bool) {s : Reader} (hw : s.ring.wptr < 64) (e : Event) :
    SafeStep compat s e ↔ Fits s e := by
  cases e with
  | process rspTemp =>
    rw [SafeStep, Fits]
    by_cases hr : s.atrResp = .ok
    · by_cases h1 : s.stage = .waitAtr
      · rw [process_waitAtr compat rspTemp h1 hr]
        refine ⟨fun h _ => ⟨fun _ => (readAtr_spec hw rspTemp).1.mp h.good, fun h2 => ?_⟩,
          fun h => ⟨(readAtr_spec hw rspTemp).1.mpr ((h hr).1 h1), List.forall_mem_nil _,
            List.forall_mem_nil _⟩⟩
        rw [h1] at h2
        exact Stage.noConfusion h2
      · by_cases h2 : s.stage = .waitAtrAgain
        · rw [process_waitAtrAgain compat rspTemp h2 hr, safe_again_iff hw rspTemp]
          exact ⟨fun h _ => ⟨fun h' => absurd h' h1, fun _ => h⟩, fun h => (h hr).2 h2⟩
        · rw [process_empty compat rspTemp fun _ => ⟨h1, h2⟩]
          exact iff_of_true safe_empty fun _ => ⟨fun h => absurd h h1, fun h => absurd h h2⟩
    · rw [process_empty compat rspTemp fun h => absurd h hr]
      exact iff_of_true safe_empty fun h => absurd h hr
  | _ => exact Iff.rfl

/-! ## Runs -/

theorem checkPps_wptr (l : List Byte) : ∀ ring : RxPriv, (checkPps l ring).1.wptr = ring.wptr := by
  induction l with
  | nil => exact fun _ => rfl
  | cons b l ih =>
    intro ring
    rw [checkPps]
    split
    · rfl
    · dsimp only
      split
      · rfl
      · exact ih _

theorem foldl_fill_wptr (fifo : List Byte) :
    ∀ {ring : RxPriv}, ring.wptr < 64 → (fifo.foldl RxPriv.fill ring).wptr < 64 := by
  induction fifo with
  | nil => exact fun h => h
  | cons b fifo ih =>
    intro ring h
    refine ih ?_
    rw [wptr_fill h]
    exact Nat.mod_lt _ (by decide)

theorem process_wptr (compat : Bool) (rspTemp : Nat → Byte) {s : Reader} (h : s.ring.wptr < 64) :
    (process compat rspTemp s).1.ring.wptr < 64 := by
  have hz : ∀ p : RxPriv, p.flush.wptr < 64 := fun _ => Nat.zero_lt_succ _
  rw [process]
  dsimp only
  cases s.stage with
  | waitConnect => dsimp only; split <;> (try split) <;> exact h
  | waitAtr => cases s.atrResp <;> first | exact h | exact hz _
  | waitAtrAgain => cases s.atrResp <;> first | exact h | exact hz _
  | waitPpsResp =>
    dsimp only
    split
    · exact h
    split
    · exact h
    split
    · exact hz _
    · rw [checkPps_wptr]
      exact h
  | sendCmd => dsimp only; split <;> exact h
  | waitAct => dsimp only; split <;> exact h
  | waitDeact => dsimp only; split <;> exact h
  | waitDisconnect => dsimp only; split <;> exact h
  | startPps => exact hz _
  | warmReset => exact h
  | startDeact => exact h
  | idle => exact h
  | rwTest => exact h

theorem next_wptr (compat : Bool) {s : Reader} (h : s.ring.wptr < 64) (e : Event) :
    (s.next compat e).ring.wptr < 64 := by
  cases e with
  | bytes fifo =>
    rw [Reader.next]
    split
    · exact foldl_fill_wptr fifo h
    · exact h
  | process rspTemp => exact process_wptr compat rspTemp h
  | _ => exact h

/-- Behind `HAL_SCR_Init`. The memory of the ring is not cleared; `scatr` is. -/
def Reader.start (buffer : Nat → Byte) : Reader where
  stage := .idle
  stateDly := 0
  ring := ⟨0, 0, buffer⟩
  detected := false
  activated := false
  atrResp := .invalid
  chtoFlag := 0
  scatr := ⟨0, List.replicate 15 0, 0, 0, 0, 0, 0, 0, 0, 0⟩
  pps := ⟨0, 0, 0, 0, 0, 0⟩
  cardId := 0

/-- A card is inserted, activated and sends an answer in which TA1 has 15 for `F`. -/
def rfuAnswer : List Event :=
  [.insert] ++ List.replicate 50 (.process fun _ => 0) ++
    [.act, .process fun _ => 0, .bytes [0x3b, 0x10], .bytes [0xf1], .atrDone]

end Scr
end XR806

import Mathlib.Data.List.Basic
import Mathlib.Logic.Function.Basic
import Mathlib.Algebra.Group.Nat.Defs

/-!
# XR806.Chip.Dma

The channels of the DMA of the ROM: the records that initialisation, start, the interrupt and the
stop share, and the ranges of the data cache they flush. A callback does its work after the handler,
and a buffer ends before the address space does.

`rom_HAL_DMA_Stop` takes `priv[chan]` of a `priv` that is `&gDMAPrivate[chan]` already, so that only
channel 0 stops on its own record, and it flushes halves that need not be whole lines. A start
remembers the address only for a channel that has an end callback. Without such stops and starts the
channels keep apart and a transfer into the PSRAM is flushed exactly (`channels_isolated`).
-/

namespace XR806
namespace Dma

/-- `DMA_CHANNEL_NUM`. -/
def channelNum : Nat := 8

/-- `DMA_DATA_MAX_LEN`. -/
def dataMaxLen : Nat := 128 * 1024

/-! ## The data cache -/

/-- An address and a length. -/
abbrev Range := Nat × Nat

/-- What `hal_dcache` knows: whether it is initialised, the PSRAM, and the areas that bypass it. -/
structure Dcache where
  init : Bool
  psramStart : Nat
  psramEnd : Nat
  bypass : List (Nat × Nat)

def Dcache.isBypass (cache : Dcache) (addr len : Nat) : Bool :=
  cache.bypass.any fun (start, last) => start ≤ addr && addr + len ≤ last ||| 0xF

def Dcache.isPSramCacheable (cache : Dcache) (addr len : Nat) : Bool :=
  cache.init && (cache.psramStart ≤ addr && addr + len ≤ cache.psramEnd) &&
    !cache.isBypass addr len

/-- `rounddown2(x, 16)` and `roundup2(x, 16)`. -/
def rounddown16 (x : Nat) : Nat := x / 16 * 16

def roundup16 (x : Nat) : Nat := (x + 15) / 16 * 16

/-- A cache line has 16 bytes. It is covered if one of the ranges has all of them. -/
def Covered (ranges : List Range) (line : Nat) : Prop :=
  ∃ r ∈ ranges, r.1 ≤ 16 * line ∧ 16 * line + 16 ≤ r.1 + r.2

/-- The range has a byte of the line. -/
def HasLine (r : Range) (line : Nat) : Prop := r.1 < 16 * line + 16 ∧ 16 * line < r.1 + r.2

/-- What `HAL_Dcache_Flush` asserts of a range. -/
def WholeLines (r : Range) : Prop := 0 < r.2 ∧ r.1 % 16 = 0 ∧ r.2 % 16 = 0

/-! ## The records -/

/-- Callbacks are numbers, `none` is `NULL`. `wrokMode` is `single`. -/
structure DmaPrivate where
  endCallback : Option Nat
  endArg : Nat
  halfCallback : Option Nat
  halfArg : Nat
  halfAddr : Nat
  startAddr : Nat
  dataSize : Nat
  single : Bool

/-- The two interrupt bits of a channel. -/
structure Irq where
  half : Bool
  fin : Bool
  deriving DecidableEq

def Irq.none : Irq := ⟨false, false⟩

def Irq.and (a b : Irq) : Irq := ⟨a.half && b.half, a.fin && b.fin⟩

def Irq.or (a b : Irq) : Irq := ⟨a.half || b.half, a.fin || b.fin⟩

def Irq.without (a b : Irq) : Irq := ⟨a.half && !b.half, a.fin && !b.fin⟩

/-- `DMA_ChannelInitParam`. -/
structure InitParam where
  cfg : Nat
  irqType : Irq
  endCallback : Option Nat
  endArg : Nat
  halfCallback : Option Nat
  halfArg : Nat

/-- `(cfg >> DMA_WORK_MODE_SHIFT) & DMA_WORK_MODE_VMASK` is `DMA_WORK_MODE_SINGLE`. -/
def isSingle (cfg : Nat) : Bool := cfg / 2 ^ 29 % 2 = 0

/-- A channel of the hardware: it is running, and has half of its data. -/
structure Hw where
  running : Bool
  halfDone : Bool

/-- A single-mode transfer into cacheable PSRAM, and what has been flushed for it. -/
structure Transfer where
  dst : Nat
  len : Nat
  flushed : List Range

/-- What one step did: the records it accessed, the callbacks it called, with channel and argument,
and the transfers that ended. -/
structure Log where
  accesses : List Nat
  calls : List (Nat × Nat × Nat)
  done : List Transfer

def Log.empty : Log := ⟨[], [], []⟩

def Log.append (a b : Log) : Log := ⟨a.accesses ++ b.accesses, a.calls ++ b.calls, a.done ++ b.done⟩

/-- `gDMAPrivate`, of which the records from 8 on are the memory behind it, `gDMAChannelUsed`, the
registers, the transfers in flight, the latest initialisations and what the step does. -/
structure State where
  priv : Nat → DmaPrivate
  used : Nat → Bool
  en : Nat → Irq
  status : Nat → Irq
  hw : Nat → Hw
  flight : Nat → Option Transfer
  inited : Nat → Option InitParam
  log : Log

def State.start : State where
  priv _ := ⟨none, 0, none, 0, 0, 0, 0, true⟩
  used _ := false
  en _ := Irq.none
  status _ := Irq.none
  hw _ := ⟨false, false⟩
  flight _ := none
  inited _ := none
  log := Log.empty

/-! ## The operations -/

def halRequest (s : State) : State :=
  match (List.range channelNum).find? fun i => !s.used i with
  | none => s
  | some c => { s with used := Function.update s.used c true }

def halRequestSpecified (s : State) (c : Nat) : State :=
  if c < channelNum ∧ s.used c = false then { s with used := Function.update s.used c true } else s

/-- The last release resets the peripheral, and with it the registers. -/
def halRelease (s : State) (c : Nat) : State :=
  let s := { s with used := Function.update s.used c false }
  if (List.range channelNum).all fun i => !s.used i then
    { s with
      en _ := Irq.none
      status _ := Irq.none
      hw _ := ⟨false, false⟩
      flight _ := none }
  else s

/-- The record with the callbacks of the parameters. -/
def DmaPrivate.config (p : DmaPrivate) (param : InitParam) : DmaPrivate :=
  { p with
    single := isSingle param.cfg
    endCallback := if param.irqType.fin then param.endCallback else none
    endArg := if param.irqType.fin then param.endArg else 0
    halfCallback := if param.irqType.half then param.halfCallback else none
    halfArg := if param.irqType.half then param.halfArg else 0 }

/-- `rom_HAL_DMA_Init`. The write of the configuration stops the channel. -/
def halInit (s : State) (c : Nat) (param : InitParam) : State :=
  if c ≥ channelNum then s
  else { s with
    priv := Function.update s.priv c ((s.priv c).config param)
    hw := Function.update s.hw c ⟨false, false⟩
    flight := Function.update s.flight c none
    status := Function.update s.status c Irq.none
    en := Function.update s.en c
      (if param.irqType = Irq.none then Irq.none else (s.en c).or param.irqType)
    inited := Function.update s.inited c (some param)
    log := s.log.append ⟨[c], [], []⟩ }

/-- The size of the lines that a buffer is in. -/
def sizeOf (dst len : Nat) : Nat := roundup16 (dst + len) - rounddown16 dst

/-- What a start remembers of a destination in cacheable PSRAM. `dataSize` is a bit-field. -/
def DmaPrivate.remember (p : DmaPrivate) (dst len : Nat) : DmaPrivate :=
  let p := { p with dataSize := sizeOf dst len % 2 ^ 24 }
  match p.halfCallback with
  | some _ =>
    let p := { p with halfAddr := rounddown16 dst }
    if p.endCallback ≠ none then { p with startAddr := rounddown16 (dst + p.dataSize / 2) } else p
  | none => if p.endCallback ≠ none then { p with startAddr := rounddown16 dst } else p

/-- `rom_HAL_DMA_Start`. The source is cleaned, which is left out. -/
def halStart (cache : Dcache) (s : State) (c dst len : Nat) : State :=
  if c ≥ channelNum then s
  else if len > dataMaxLen ∨ len = 0 then s
  else
    let cacheable := cache.isPSramCacheable dst len
    { s with
      priv := if cacheable then Function.update s.priv c ((s.priv c).remember dst len) else s.priv
      hw := Function.update s.hw c ⟨true, false⟩
      flight := Function.update s.flight c
        (if cacheable && (s.priv c).single then some ⟨dst, len, []⟩ else none)
      log := s.log.append ⟨if cacheable then [c] else [], [], []⟩ }

def Transfer.flush (t : Transfer) (ranges : List Range) : Transfer :=
  { t with flushed := t.flushed ++ ranges }

/-- What is flushed when a channel stops: `p` is the record `priv` points to, `q` is `priv[chan]`. -/
def stopRanges (p q : DmaPrivate) : List Range :=
  if q.dataSize = 0 then []
  else match p.halfCallback with
    | some _ =>
      (q.halfAddr, q.dataSize / 2) ::
        if p.endCallback ≠ none then [(q.startAddr, q.dataSize / 2)] else []
    | none => [(q.startAddr, q.dataSize)]

/-- `rom_HAL_DMA_Stop`. -/
def halStop (s : State) (c : Nat) : State :=
  if c ≥ channelNum then s
  else
    -- `priv[chan]` behind `&gDMAPrivate[chan]`
    let q := c + c
    let ranges := stopRanges (s.priv c) (s.priv q)
    { s with
      priv := Function.update s.priv q { s.priv q with dataSize := 0 }
      hw := Function.update s.hw c ⟨false, false⟩
      flight := Function.update s.flight c none
      log := s.log.append ⟨[c, q], [], ((s.flight c).map (Transfer.flush · ranges)).toList⟩ }

/-! ## The interrupt -/

/-- What the handler does for one channel: the ranges it flushes, the callbacks it calls, and the
record. -/
def irqRanges (p : DmaPrivate) (bits : Irq) : List Range :=
  if p.dataSize = 0 then []
  else match p.halfCallback with
    | some _ =>
      (if bits.half then [(p.halfAddr, roundup16 (p.dataSize / 2))] else []) ++
        if p.endCallback ≠ none ∧ bits.fin then [(p.startAddr, roundup16 (p.dataSize / 2))] else []
    | none => if bits.fin ∧ p.endCallback ≠ none then [(p.startAddr, p.dataSize)] else []

def irqCalls (p : DmaPrivate) (bits : Irq) (i : Nat) : List (Nat × Nat × Nat) :=
  (if bits.half then p.halfCallback.toList.map fun f => (i, f, p.halfArg) else []) ++
    if bits.fin then p.endCallback.toList.map fun f => (i, f, p.endArg) else []

def irqPriv (p : DmaPrivate) (bits : Irq) : DmaPrivate :=
  if bits.fin ∧ p.endCallback ≠ none ∧ p.dataSize ≠ 0 ∧ p.single then { p with dataSize := 0 } else p

/-- One turn of the loop of `DMA_IRQHandler`. -/
def irqChannel (s : State) (bits : Irq) (i : Nat) : State :=
  let p := s.priv i
  let t := (s.flight i).map (Transfer.flush · (irqRanges p bits))
  { s with
    priv := Function.update s.priv i (irqPriv p bits)
    flight := Function.update s.flight i (if bits.fin then none else t)
    log := s.log.append ⟨[i], irqCalls p bits i, if bits.fin then t.toList else []⟩ }

/-- The loop, which ends when no bit is left. -/
def irqLoop (bits : Nat → Irq) : List Nat → State → State
  | [], s => s
  | i :: rest, s =>
    if (i :: rest).all fun j => bits j = Irq.none then s
    else irqLoop bits rest (irqChannel s (bits i) i)

/-- `DMA_IRQHandler`. -/
def irqHandler (s : State) : State :=
  let bits i := (s.status i).and (s.en i)
  irqLoop bits (List.range channelNum) { s with status := fun i => (s.status i).without (bits i) }

/-- What happens: the calls, the interrupt, and a channel that has moved half or all of its
data. -/
inductive Op
  | request
  | requestSpecified (c : Nat)
  | release (c : Nat)
  | init (c : Nat) (param : InitParam)
  | start (c dst len : Nat)
  | stop (c : Nat)
  | irq
  | half (c : Nat)
  | finish (c : Nat)

def exec (cache : Dcache) (s : State) : Op → State
  | .request => halRequest s
  | .requestSpecified c => halRequestSpecified s c
  | .release c => halRelease s c
  | .init c param => halInit s c param
  | .start c dst len => halStart cache s c dst len
  | .stop c => halStop s c
  | .irq => irqHandler s
  | .half c =>
    if (s.hw c).running ∧ (s.hw c).halfDone = false then
      { s with
        hw := Function.update s.hw c ⟨true, true⟩
        status := Function.update s.status c ((s.status c).or ⟨true, false⟩) }
    else s
  | .finish c =>
    if (s.hw c).running ∧ (s.hw c).halfDone then
      { s with
        -- in circular mode it goes on
        hw := Function.update s.hw c ⟨!(s.priv c).single, (s.priv c).single⟩
        status := Function.update s.status c ((s.status c).or ⟨false, true⟩) }
    else s

def step (cache : Dcache) (s : State) (op : Op) : State := exec cache { s with log := Log.empty } op

def run (cache : Dcache) (s : State) (ops : List Op) : State := ops.foldl (step cache) s

/-! ## What should hold -/

def Op.chan : Op → Option Nat
  | .init c _ => some c
  | .start c _ _ => some c
  | .stop c => some c
  | _ => none

/-- The pending interrupts that are enabled. -/
def State.pending (s : State) (c : Nat) : Irq := (s.status c).and (s.en c)

/-- The callback is the one that the latest initialisation registered for the interrupt. -/
def Registered (inited : Option InitParam) (bits : Irq) (f arg : Nat) : Prop :=
  ∃ param, inited = some param ∧
    (bits.half = true ∧ param.irqType.half = true ∧ param.halfCallback = some f ∧
        param.halfArg = arg ∨
      bits.fin = true ∧ param.irqType.fin = true ∧ param.endCallback = some f ∧
        param.endArg = arg)

/-- Whole lines were flushed, exactly those of the destination. -/
structure Transfer.Exact (t : Transfer) : Prop where
  whole : ∀ r ∈ t.flushed, WholeLines r
  lines : ∀ line, Covered t.flushed line ↔ HasLine (t.dst, t.len) line

/-- A transfer into cacheable PSRAM starts with an end callback, without an interrupt left from
before, and with a half callback only if its halves are lines, or begin early in a line. -/
def StartFits (s : State) (c dst len : Nat) : Prop :=
  (s.priv c).endCallback ≠ none ∧ s.pending c = Irq.none ∧
    ((s.priv c).halfCallback ≠ none → sizeOf dst len % 32 = 0 ∨ dst % 16 < 8)

/-- The halves of what is stopped are whole lines. -/
def StopFits (s : State) (c : Nat) : Prop :=
  (s.priv c).halfCallback ≠ none → ∀ t, s.flight c = some t → sizeOf t.dst t.len % 32 = 0

/-- Single-mode transfers into cacheable PSRAM start as they should, and only channel 0 stops. -/
def Sound (cache : Dcache) (s : State) : Op → Prop
  | .start c dst len => c < channelNum → 0 < len → len ≤ dataMaxLen →
    cache.isPSramCacheable dst len = true → (s.priv c).single = true → StartFits s c dst len
  | .stop c => c < channelNum → c = 0 ∧ StopFits s c
  | _ => True

def AllSound (cache : Dcache) (s : State) : List Op → Prop
  | [] => True
  | op :: ops => Sound cache s op ∧ AllSound cache (step cache s op) ops

/-- What a step may do: access and change the records of its channel, or of those whose interrupts
are pending, call what is registered for a pending interrupt, and end transfers that are flushed
exactly. -/
structure Isolated (s s' : State) (op : Op) : Prop where
  accesses : ∀ i ∈ s'.log.accesses, i < channelNum ∧ ∀ c, op.chan = some c → i = c
  frame : ∀ i, s'.priv i ≠ s.priv i → op.chan = some i ∨ s.pending i ≠ Irq.none
  calls : ∀ i f arg, (i, f, arg) ∈ s'.log.calls → Registered (s.inited i) (s.pending i) f arg
  done : ∀ t ∈ s'.log.done, t.Exact

/-! ## The ranges -/

section

variable {dst len : Nat}

theorem covered_singleton {r : Range} {line : Nat} :
    Covered [r] line ↔ r.1 ≤ 16 * line ∧ 16 * line + 16 ≤ r.1 + r.2 := by
  refine ⟨fun ⟨q, hq, h⟩ => ?_, fun h => ⟨r, List.mem_cons_self, h⟩⟩
  obtain rfl := List.mem_singleton.mp hq
  exact h

theorem covered_append {a b : List Range} {line : Nat} :
    Covered (a ++ b) line ↔ Covered a line ∨ Covered b line := by
  unfold Covered
  constructor
  · rintro ⟨r, hr, h⟩
    exact (List.mem_append.mp hr).imp (fun ha => ⟨r, ha, h⟩) (fun hb => ⟨r, hb, h⟩)
  · rintro (⟨r, hr, h⟩ | ⟨r, hr, h⟩)
    · exact ⟨r, List.mem_append_left _ hr, h⟩
    · exact ⟨r, List.mem_append_right _ hr, h⟩

/-- Copies of one range cover what it covers. -/
theorem covered_copies {a : List Range} {r : Range} {line : Nat} (hne : a ≠ [])
    (h : ∀ q ∈ a, q = r) : Covered a line ↔ Covered [r] line := by
  constructor
  · rintro ⟨q, hq, hline⟩
    obtain rfl := h q hq
    exact ⟨q, List.mem_cons_self, hline⟩
  · rintro ⟨q, hq, hline⟩
    obtain rfl := List.mem_singleton.mp hq
    obtain ⟨x, hx⟩ := List.exists_mem_of_ne_nil a hne
    exact ⟨q, h x hx ▸ hx, hline⟩

/-- The lines of the destination as one range. -/
theorem covered_lines (line : Nat) :
    Covered [(rounddown16 dst, sizeOf dst len)] line ↔ HasLine (dst, len) line := by
  rw [covered_singleton]
  unfold HasLine sizeOf roundup16 rounddown16
  dsimp only
  omega

theorem whole_lines (hpos : 0 < len) : WholeLines (rounddown16 dst, sizeOf dst len) := by
  unfold WholeLines sizeOf roundup16 rounddown16
  dsimp only
  omega

/-- The two halves that the interrupts flush. -/
theorem covered_irq_halves (hpos : 0 < len) (h : sizeOf dst len % 32 = 0 ∨ dst % 16 < 8)
    (line : Nat) :
    Covered [(rounddown16 dst, roundup16 (sizeOf dst len / 2))] line ∨
        Covered [(rounddown16 (dst + sizeOf dst len / 2), roundup16 (sizeOf dst len / 2))] line ↔
      HasLine (dst, len) line := by
  rw [covered_singleton, covered_singleton]
  unfold HasLine sizeOf roundup16 rounddown16 at *
  dsimp only
  omega

/-- A half that an interrupt flushes is made of lines. -/
theorem whole_half (hpos : 0 < len) (x : Nat) :
    WholeLines (rounddown16 x, roundup16 (sizeOf dst len / 2)) := by
  unfold WholeLines sizeOf roundup16 rounddown16
  dsimp only
  omega

/-- A stop flushes the same halves if they are whole lines. -/
theorem roundup16_half (h : sizeOf dst len % 32 = 0) :
    roundup16 (sizeOf dst len / 2) = sizeOf dst len / 2 := by
  unfold roundup16
  omega

end

/-! ## A channel -/

/-- What holds for a transfer in flight, given the record and the bits of its channel. -/
structure Flying (p : DmaPrivate) (hw : Hw) (status en : Irq) (t : Transfer) : Prop where
  pos : 0 < t.len
  size : p.dataSize = sizeOf t.dst t.len
  single : p.single = true
  fin : p.endCallback ≠ none
  direct : p.halfCallback = none → p.startAddr = rounddown16 t.dst ∧ t.flushed = []
  fits : p.halfCallback ≠ none → sizeOf t.dst t.len % 32 = 0 ∨ t.dst % 16 < 8
  addrs : p.halfCallback ≠ none → p.halfAddr = rounddown16 t.dst ∧
    p.startAddr = rounddown16 (t.dst + p.dataSize / 2)
  flushed : p.halfCallback ≠ none →
    ∀ r ∈ t.flushed, r = (rounddown16 t.dst, roundup16 (p.dataSize / 2))
  halved : p.halfCallback ≠ none → hw.halfDone = true → t.flushed ≠ [] ∨ status.half = true
  pending : status.fin = true → en.fin = true → hw.halfDone = true

/-- The callbacks are those of the latest initialisation. -/
def Configured (p : DmaPrivate) (inited : Option InitParam) : Prop :=
  match inited with
  | none => p.endCallback = none ∧ p.halfCallback = none
  | some param => p.endCallback = (p.config param).endCallback ∧
    p.endArg = (p.config param).endArg ∧ p.halfCallback = (p.config param).halfCallback ∧
    p.halfArg = (p.config param).halfArg

/-- A channel: no half callback without its interrupt beside that of the end. -/
structure Fine (s : State) (c : Nat) : Prop where
  configured : Configured (s.priv c) (s.inited c)
  enabled : (s.priv c).halfCallback ≠ none → (s.en c).fin = true → (s.en c).half = true
  flying : ∀ t, s.flight c = some t → Flying (s.priv c) (s.hw c) (s.status c) (s.en c) t
  bounded : channelNum ≤ c → s.flight c = none

def Inv (s : State) : Prop := ∀ c, Fine s c

section

variable {s s' : State} {c i : Nat} {t : Transfer} {p : DmaPrivate} {hw : Hw} {status en : Irq}
  {inited : Option InitParam} {param : InitParam} {dst len : Nat} {cache : Dcache}

theorem Fine.congr (h : Fine s c) (hpriv : s'.priv c = s.priv c) (hhw : s'.hw c = s.hw c)
    (hstatus : s'.status c = s.status c) (hen : s'.en c = s.en c)
    (hflight : s'.flight c = s.flight c) (hinited : s'.inited c = s.inited c) : Fine s' c := by
  refine ⟨?_, ?_, ?_, ?_⟩
  · rw [hpriv, hinited]
    exact h.configured
  · rw [hpriv, hen]
    exact h.enabled
  · rw [hpriv, hhw, hstatus, hen, hflight]
    exact h.flying
  · rw [hflight]
    exact h.bounded

theorem inv_start : Inv State.start := fun _ =>
  ⟨⟨rfl, rfl⟩, fun h => absurd rfl h, fun _ h => absurd h.symm (Option.some_ne_none _),
    fun _ => rfl⟩

/-- Only the size of the record is changed: the callbacks stay. -/
theorem Configured.size (h : Configured p inited) (n : Nat) :
    Configured { p with dataSize := n } inited := by
  cases inited with
  | none => exact h
  | some param => exact h

theorem request_inv (h : Inv s) : Inv (halRequest s) := by
  intro c
  unfold halRequest
  split <;> exact (h c).congr rfl rfl rfl rfl rfl rfl

theorem requestSpecified_inv (h : Inv s) (c : Nat) : Inv (halRequestSpecified s c) := by
  intro i
  unfold halRequestSpecified
  split <;> exact (h i).congr rfl rfl rfl rfl rfl rfl

theorem release_inv (h : Inv s) (c : Nat) : Inv (halRelease s c) := by
  intro i
  unfold halRelease
  dsimp only
  split
  · exact ⟨(h i).configured, fun _ hfin => absurd hfin Bool.false_ne_true,
      fun _ hf => absurd hf.symm (Option.some_ne_none _), fun _ => rfl⟩
  · exact (h i).congr rfl rfl rfl rfl rfl rfl

theorem config_configured : Configured (p.config param) (some param) := ⟨rfl, rfl, rfl, rfl⟩

/-- The interrupts that an initialisation enables. -/
theorem config_enabled (hhalf : (p.config param).halfCallback ≠ none) :
    (if param.irqType = Irq.none then Irq.none else en.or param.irqType).half = true := by
  have htype : param.irqType.half = true := by
    by_cases htype : param.irqType.half = true
    · exact htype
    · exact absurd (if_neg htype) hhalf
  have hsome : param.irqType ≠ Irq.none := fun hnone =>
    Bool.false_ne_true ((congrArg Irq.half hnone).symm.trans htype)
  rw [if_neg hsome]
  exact (congrArg (en.half || ·) htype).trans (Bool.or_true _)

theorem init_inv (h : Inv s) (c : Nat) (param : InitParam) : Inv (halInit s c param) := by
  intro i
  unfold halInit
  split
  · exact h i
  · by_cases hi : i = c
    · subst hi
      refine ⟨?_, ?_, ?_, ?_⟩ <;> simp only [Function.update_self]
      · exact config_configured
      · exact fun hhalf _ => config_enabled hhalf
      · exact fun _ hf => absurd hf.symm (Option.some_ne_none _)
      · exact fun _ => trivial
    · exact (h i).congr (Function.update_of_ne hi ..) (Function.update_of_ne hi ..)
        (Function.update_of_ne hi ..) (Function.update_of_ne hi ..) (Function.update_of_ne hi ..)
        (Function.update_of_ne hi ..)

theorem remember_callbacks (p : DmaPrivate) (dst len : Nat) :
    (p.remember dst len).endCallback = p.endCallback ∧
      (p.remember dst len).endArg = p.endArg ∧
      (p.remember dst len).halfCallback = p.halfCallback ∧
      (p.remember dst len).halfArg = p.halfArg ∧
      (p.remember dst len).single = p.single := by
  unfold DmaPrivate.remember
  dsimp only
  split <;> split <;> exact ⟨rfl, rfl, rfl, rfl, rfl⟩

theorem Configured.callbacks {q : DmaPrivate} (h : Configured p inited)
    (hend : q.endCallback = p.endCallback) (hendArg : q.endArg = p.endArg)
    (hhalf : q.halfCallback = p.halfCallback) (hhalfArg : q.halfArg = p.halfArg) :
    Configured q inited := by
  cases inited with
  | none => exact ⟨hend.trans h.1, hhalf.trans h.2⟩
  | some param =>
    obtain ⟨h1, h2, h3, h4⟩ := h
    exact ⟨hend.trans h1, hendArg.trans h2, hhalf.trans h3, hhalfArg.trans h4⟩

theorem sizeOf_lt (hlen : len ≤ dataMaxLen) : sizeOf dst len < 2 ^ 24 := by
  unfold dataMaxLen at hlen
  unfold sizeOf roundup16 rounddown16
  omega

theorem remember_flying (hlen0 : 0 < len) (hlen : len ≤ dataMaxLen) (hsingle : p.single = true)
    (hend : p.endCallback ≠ none)
    (hhalf : p.halfCallback ≠ none → sizeOf dst len % 32 = 0 ∨ dst % 16 < 8)
    (hpending : status.fin = true → en.fin = true → False) :
    Flying (p.remember dst len) ⟨true, false⟩ status en ⟨dst, len, []⟩ := by
  have hsize : sizeOf dst len % 2 ^ 24 = sizeOf dst len := Nat.mod_eq_of_lt (sizeOf_lt hlen)
  obtain ⟨hend', -, hhalf', -, hsingle'⟩ := remember_callbacks p dst len
  refine ⟨hlen0, ?_, hsingle'.trans hsingle, ?_, ?_, ?_, ?_, ?_, ?_, ?_⟩
  · unfold DmaPrivate.remember
    dsimp only
    split <;> split <;> exact hsize
  · rw [hend']
    exact hend
  · intro hnone
    rw [hhalf'] at hnone
    refine ⟨?_, rfl⟩
    unfold DmaPrivate.remember
    dsimp only
    rw [hnone]
    dsimp only
    rw [if_pos hend]
  · intro hsome
    rw [hhalf'] at hsome
    exact hhalf hsome
  · intro hsome
    rw [hhalf'] at hsome
    obtain ⟨f, hf⟩ := Option.ne_none_iff_exists'.mp hsome
    unfold DmaPrivate.remember
    dsimp only
    rw [hf]
    dsimp only
    rw [if_pos hend]
    exact ⟨rfl, rfl⟩
  · exact fun _ => List.forall_mem_nil _
  · exact fun _ hdone => absurd hdone Bool.false_ne_true
  · exact fun hst hen => (hpending hst hen).elim

theorem start_inv (h : Inv s) (hsound : Sound cache s (.start c dst len)) :
    Inv (halStart cache s c dst len) := by
  intro i
  unfold halStart
  split
  · exact h i
  rename_i hc
  split
  · exact h i
  rename_i hlen
  obtain ⟨hmax, hlen0⟩ := not_or.mp hlen
  dsimp only
  by_cases hi : i = c
  · subst hi
    obtain ⟨hend, hendArg, hhalf, hhalfArg, -⟩ := remember_callbacks (s.priv i) dst len
    cases hcache : cache.isPSramCacheable dst len with
    | false =>
      refine ⟨(h i).configured, (h i).enabled, ?_, fun hi => absurd hi hc⟩
      rw [Bool.false_and, if_neg Bool.false_ne_true]
      dsimp only
      rw [Function.update_self]
      exact fun _ hf => absurd hf.symm (Option.some_ne_none _)
    | true =>
      rw [Bool.true_and, if_pos rfl]
      refine ⟨?_, ?_, ?_, fun hi => absurd hi hc⟩ <;> simp only [Function.update_self]
      · exact (h i).configured.callbacks hend hendArg hhalf hhalfArg
      · rw [hhalf]
        exact (h i).enabled
      · intro t ht
        split at ht
        · rename_i hsingle
          obtain rfl := Option.some.inj ht
          obtain ⟨hfin, hpending, hfits⟩ := hsound (Nat.lt_of_not_le hc) (Nat.pos_of_ne_zero hlen0)
            (Nat.le_of_not_lt hmax) hcache hsingle
          refine remember_flying (Nat.pos_of_ne_zero hlen0) (Nat.le_of_not_lt hmax) hsingle hfin
            hfits (fun hst hen => ?_)
          have hand := congrArg Irq.fin hpending
          dsimp only [State.pending, Irq.and, Irq.none] at hand
          rw [hst, hen] at hand
          exact Bool.false_ne_true hand.symm
        · exact absurd ht.symm (Option.some_ne_none _)
  · refine (h i).congr ?_ (Function.update_of_ne hi ..) rfl rfl (Function.update_of_ne hi ..) rfl
    dsimp only
    split
    · exact Function.update_of_ne hi ..
    · rfl

theorem stop_inv (h : Inv s) (hsound : c < channelNum → c = 0 ∧ StopFits s c) :
    Inv (halStop s c) := by
  intro i
  unfold halStop
  split
  · exact h i
  rename_i hc
  obtain ⟨rfl, -⟩ := hsound (Nat.lt_of_not_le hc)
  by_cases hi : i = 0
  · subst hi
    refine ⟨?_, ?_, ?_, fun hi => absurd hi hc⟩ <;> simp only [Nat.add_zero, Function.update_self]
    · exact (h 0).configured.size 0
    · exact (h 0).enabled
    · exact fun _ hf => absurd hf.symm (Option.some_ne_none _)
  · exact (h i).congr (Function.update_of_ne hi ..) (Function.update_of_ne hi ..) rfl rfl
      (Function.update_of_ne hi ..) rfl

theorem half_inv (h : Inv s) (c : Nat) : Inv (exec cache s (.half c)) := by
  intro i
  dsimp only [exec]
  split
  · by_cases hi : i = c
    · subst hi
      refine ⟨(h i).configured, (h i).enabled, fun t ht => ?_, (h i).bounded⟩
      have hold := (h i).flying t ht
      simp only [Function.update_self]
      exact { hold with
        halved := fun _ _ => .inr (Bool.or_true _)
        pending := fun _ _ => rfl }
    · exact (h i).congr rfl (Function.update_of_ne hi ..) (Function.update_of_ne hi ..) rfl rfl rfl
  · exact h i

theorem finish_inv (h : Inv s) (c : Nat) : Inv (exec cache s (.finish c)) := by
  intro i
  dsimp only [exec]
  split
  · rename_i hrun
    by_cases hi : i = c
    · subst hi
      refine ⟨(h i).configured, (h i).enabled, fun t ht => ?_, (h i).bounded⟩
      have hold := (h i).flying t ht
      simp only [Function.update_self]
      exact { hold with
        halved := fun hhalf _ => (hold.halved hhalf hrun.2).imp id fun hst => by
          rw [Irq.or, hst, Bool.true_or]
        pending := fun _ _ => hold.single }
    · exact (h i).congr rfl (Function.update_of_ne hi ..) (Function.update_of_ne hi ..) rfl rfl rfl
  · exact h i

/-! ## The interrupt of a channel -/

theorem Flying.size_ne_zero (h : Flying p hw status en t) : p.dataSize ≠ 0 := by
  have hpos := h.pos
  rw [h.size]
  unfold sizeOf roundup16 rounddown16
  omega

theorem irqPriv_callbacks (p : DmaPrivate) (bits : Irq) :
    (irqPriv p bits).endCallback = p.endCallback ∧ (irqPriv p bits).endArg = p.endArg ∧
      (irqPriv p bits).halfCallback = p.halfCallback ∧
      (irqPriv p bits).halfArg = p.halfArg := by
  unfold irqPriv
  split <;> exact ⟨rfl, rfl, rfl, rfl⟩

/-- A transfer that goes on: its first half is flushed when it is there. -/
theorem Flying.irq (h : Flying p hw status en t) (hfin : (status.and en).fin = false) :
    Flying (irqPriv p (status.and en)) hw (status.without (status.and en)) en
      (t.flush (irqRanges p (status.and en))) := by
  have hfin' : ¬(status.and en).fin = true := fun h => Bool.false_ne_true (hfin.symm.trans h)
  have hpriv : irqPriv p (status.and en) = p := if_neg fun hc => hfin' hc.1
  have hranges : irqRanges p (status.and en) =
      if p.halfCallback ≠ none ∧ (status.and en).half = true
      then [(p.halfAddr, roundup16 (p.dataSize / 2))] else [] := by
    rw [irqRanges, if_neg h.size_ne_zero]
    have hnoend : ¬(p.endCallback ≠ none ∧ (status.and en).fin = true) := fun hc => hfin' hc.2
    cases hhalf : p.halfCallback with
    | none =>
      have hnohalf : ¬((none : Option Nat) ≠ none ∧ (status.and en).half = true) :=
        fun hc => hc.1 rfl
      rw [if_neg hnohalf]
      exact if_neg fun hc => hfin' hc.1
    | some f =>
      dsimp only
      rw [if_neg hnoend, List.append_nil]
      by_cases hbit : (status.and en).half = true
      · rw [if_pos hbit, if_pos ⟨Option.some_ne_none f, hbit⟩]
      · rw [if_neg hbit, if_neg (fun hc => hbit hc.2)]
  rw [hpriv]
  refine { h with
    direct := fun hnone => ?_
    flushed := fun hhalf r hr => ?_
    halved := fun hhalf hdone => ?_
    pending := fun hst hen => ?_ }
  · obtain ⟨haddr, hflushed⟩ := h.direct hnone
    refine ⟨haddr, ?_⟩
    rw [hranges, if_neg (fun hc => hc.1 hnone)]
    exact (List.append_nil _).trans hflushed
  · rcases List.mem_append.mp hr with hr | hr
    · exact h.flushed hhalf r hr
    · rw [hranges] at hr
      split at hr
      · rw [List.mem_singleton.mp hr, (h.addrs hhalf).1]
        rfl
      · exact absurd hr List.not_mem_nil
  · dsimp only [Transfer.flush]
    by_cases hbit : (status.and en).half = true
    · rw [hranges, if_pos ⟨hhalf, hbit⟩]
      exact .inl (List.append_ne_nil_of_right_ne_nil _ (List.cons_ne_nil _ _))
    · refine (h.halved hhalf hdone).imp (List.append_ne_nil_of_left_ne_nil · _) fun hst => ?_
      rw [Bool.not_eq_true] at hbit
      rw [Irq.without, hst, hbit]
      rfl
  · dsimp only [Irq.without, Irq.and] at hst
    rw [hen, Bool.and_true, Bool.and_not_self] at hst
    exact absurd hst Bool.false_ne_true

/-- A transfer that ends: what was flushed are its lines. -/
theorem Flying.irq_exact (h : Flying p hw status en t)
    (hen : p.halfCallback ≠ none → en.fin = true → en.half = true)
    (hfin : (status.and en).fin = true) :
    (t.flush (irqRanges p (status.and en))).Exact := by
  obtain ⟨hst, henf⟩ := (Bool.and_eq_true _ _).mp hfin
  rw [irqRanges, if_neg h.size_ne_zero]
  cases hhalf : p.halfCallback with
  | none =>
    obtain ⟨haddr, hflushed⟩ := h.direct hhalf
    have hone : (t.flush [(rounddown16 t.dst, sizeOf t.dst t.len)]).flushed =
        [(rounddown16 t.dst, sizeOf t.dst t.len)] := by
      rw [Transfer.flush, hflushed, List.nil_append]
    dsimp only
    rw [if_pos ⟨hfin, h.fin⟩, haddr, h.size]
    refine ⟨fun r hr => ?_, fun line => ?_⟩
    · rw [hone] at hr
      rw [List.mem_singleton.mp hr]
      exact whole_lines h.pos
    · rw [hone]
      exact covered_lines line
  | some f =>
    have hne : p.halfCallback ≠ none := hhalf ▸ Option.some_ne_none f
    obtain ⟨hhalfAddr, hstartAddr⟩ := h.addrs hne
    have hcopies : ∀ r ∈ t.flushed ++ (if (status.and en).half = true
        then [(p.halfAddr, roundup16 (p.dataSize / 2))] else []),
        r = (rounddown16 t.dst, roundup16 (p.dataSize / 2)) := by
      intro r hr
      rcases List.mem_append.mp hr with hr | hr
      · exact h.flushed hne r hr
      · split at hr
        · rw [List.mem_singleton.mp hr, hhalfAddr]
        · exact absurd hr List.not_mem_nil
    have hnonempty : t.flushed ++ (if (status.and en).half = true
        then [(p.halfAddr, roundup16 (p.dataSize / 2))] else []) ≠ [] := by
      rcases h.halved hne (h.pending hst henf) with hflushed | hsthalf
      · exact List.append_ne_nil_of_left_ne_nil hflushed _
      · have hbit : (status.and en).half = true := by
          rw [Irq.and, hsthalf, hen hne henf]
          rfl
        rw [if_pos hbit]
        exact List.append_ne_nil_of_right_ne_nil _ (List.cons_ne_nil _ _)
    have hend : p.endCallback ≠ none ∧ (status.and en).fin = true := ⟨h.fin, hfin⟩
    dsimp only
    rw [if_pos hend, hstartAddr]
    refine ⟨fun r hr => ?_, fun line => ?_⟩
    · dsimp only [Transfer.flush] at hr
      rw [← List.append_assoc] at hr
      rcases List.mem_append.mp hr with hr | hr
      · rw [hcopies r hr, h.size]
        exact whole_half h.pos t.dst
      · rw [List.mem_singleton.mp hr, h.size]
        exact whole_half h.pos _
    · dsimp only [Transfer.flush]
      rw [← List.append_assoc, covered_append, covered_copies hnonempty hcopies, h.size]
      exact covered_irq_halves h.pos (h.fits hne) line

/-- A transfer that is stopped. -/
theorem Flying.stop_exact (h : Flying p hw status en t)
    (hfits : p.halfCallback ≠ none → sizeOf t.dst t.len % 32 = 0) :
    (t.flush (stopRanges p p)).Exact := by
  rw [stopRanges, if_neg h.size_ne_zero]
  cases hhalf : p.halfCallback with
  | none =>
    obtain ⟨haddr, hflushed⟩ := h.direct hhalf
    have hone : (t.flush [(rounddown16 t.dst, sizeOf t.dst t.len)]).flushed =
        [(rounddown16 t.dst, sizeOf t.dst t.len)] := by
      rw [Transfer.flush, hflushed, List.nil_append]
    dsimp only
    rw [haddr, h.size]
    refine ⟨fun r hr => ?_, fun line => ?_⟩
    · rw [hone] at hr
      rw [List.mem_singleton.mp hr]
      exact whole_lines h.pos
    · rw [hone]
      exact covered_lines line
  | some f =>
    have hne : p.halfCallback ≠ none := hhalf ▸ Option.some_ne_none f
    obtain ⟨hhalfAddr, hstartAddr⟩ := h.addrs hne
    -- the stop does not round the halves up, which are whole lines already
    have hround := roundup16_half (hfits hne)
    have hold : ∀ r ∈ t.flushed, r = (rounddown16 t.dst, roundup16 (sizeOf t.dst t.len / 2)) := by
      intro r hr
      rw [h.flushed hne r hr, h.size]
    have hcopies : ∀ r ∈ t.flushed ++ [(rounddown16 t.dst, roundup16 (sizeOf t.dst t.len / 2))],
        r = (rounddown16 t.dst, roundup16 (sizeOf t.dst t.len / 2)) := by
      intro r hr
      exact (List.mem_append.mp hr).elim (hold r) List.mem_singleton.mp
    have hnonempty : t.flushed ++ [(rounddown16 t.dst, roundup16 (sizeOf t.dst t.len / 2))] ≠ [] :=
      List.append_ne_nil_of_right_ne_nil _ (List.cons_ne_nil _ _)
    dsimp only
    rw [if_pos h.fin, hhalfAddr, hstartAddr, h.size, ← hround, ← List.singleton_append]
    refine ⟨fun r hr => ?_, fun line => ?_⟩
    · dsimp only [Transfer.flush] at hr
      rw [← List.append_assoc] at hr
      rcases List.mem_append.mp hr with hr | hr
      · rw [hcopies r hr]
        exact whole_half h.pos t.dst
      · rw [List.mem_singleton.mp hr]
        exact whole_half h.pos _
    · dsimp only [Transfer.flush]
      rw [← List.append_assoc, covered_append, covered_copies hnonempty hcopies, hround]
      have hlines := covered_irq_halves h.pos (h.fits hne) line
      rw [hround] at hlines
      exact hlines

/-! ## The loop of the handler -/

/-- What the loop does to the channels it goes through. -/
structure Handled (bits : Nat → Irq) (l : List Nat) (s s' : State) : Prop where
  priv : ∀ c, s'.priv c = if c ∈ l then irqPriv (s.priv c) (bits c) else s.priv c
  flight : ∀ c, s'.flight c = if c ∈ l then
      if (bits c).fin then none
      else (s.flight c).map (Transfer.flush · (irqRanges (s.priv c) (bits c)))
    else s.flight c
  hw : s'.hw = s.hw
  status : s'.status = s.status
  en : s'.en = s.en
  inited : s'.inited = s.inited
  accesses : ∀ i ∈ s'.log.accesses, i ∈ s.log.accesses ∨ i ∈ l
  calls : ∀ x ∈ s'.log.calls, x ∈ s.log.calls ∨ ∃ c ∈ l, x ∈ irqCalls (s.priv c) (bits c) c
  done : ∀ t ∈ s'.log.done, t ∈ s.log.done ∨ ∃ c ∈ l, (bits c).fin = true ∧
    ∃ t₀, s.flight c = some t₀ ∧ t = t₀.flush (irqRanges (s.priv c) (bits c))

theorem irqPriv_none (p : DmaPrivate) : irqPriv p Irq.none = p :=
  if_neg fun h => Bool.false_ne_true h.1

theorem irqRanges_none (p : DmaPrivate) : irqRanges p Irq.none = [] := by
  unfold irqRanges Irq.none
  split
  · rfl
  · split
    · simp only [Bool.false_eq_true, and_false, if_false, List.append_nil]
    · simp only [Bool.false_eq_true, false_and, if_false]

theorem flush_nil (o : Option Transfer) : o.map (Transfer.flush · []) = o := by
  cases o with
  | none => rfl
  | some t => exact congrArg some (congrArg (Transfer.mk t.dst t.len) (List.append_nil _))

/-- Where no bit is left nothing is to do. -/
theorem handled_of_none {bits : Nat → Irq} {l : List Nat} (h : ∀ c ∈ l, bits c = Irq.none) :
    Handled bits l s s where
  priv c := by
    split
    · rename_i hc
      rw [h c hc, irqPriv_none]
    · rfl
  flight c := by
    split
    · rename_i hc
      rw [h c hc, irqRanges_none, flush_nil]
      exact (if_neg Bool.false_ne_true).symm
    · rfl
  hw := rfl
  status := rfl
  en := rfl
  inited := rfl
  accesses _ hi := .inl hi
  calls _ hx := .inl hx
  done _ ht := .inl ht

theorem irqLoop_handled (bits : Nat → Irq) (l : List Nat) (hl : l.Nodup) (s : State) :
    Handled bits l s (irqLoop bits l s) := by
  induction l generalizing s with
  | nil => exact handled_of_none (List.forall_mem_nil _)
  | cons i rest ih =>
    obtain ⟨hi, hrest⟩ := List.nodup_cons.mp hl
    rw [irqLoop]
    split
    · rename_i hall
      exact handled_of_none fun c hc => of_decide_eq_true (List.all_eq_true.mp hall c hc)
    have hloop := ih hrest (irqChannel s (bits i) i)
    have hother {c : Nat} (hc : c ∈ rest) : c ≠ i := fun h => hi (h ▸ hc)
    refine ⟨fun c => ?_, fun c => ?_, hloop.hw, hloop.status, hloop.en, hloop.inited,
      fun j hj => ?_, fun x hx => ?_, fun t ht => ?_⟩
    · rw [hloop.priv c]
      by_cases hc : c = i
      · subst hc
        rw [if_neg hi, if_pos List.mem_cons_self]
        exact Function.update_self ..
      · have hsame : (irqChannel s (bits i) i).priv c = s.priv c := Function.update_of_ne hc ..
        rw [hsame]
        simp only [List.mem_cons, hc, false_or]
    · rw [hloop.flight c]
      by_cases hc : c = i
      · subst hc
        rw [if_neg hi, if_pos List.mem_cons_self]
        exact Function.update_self ..
      · have hsame : (irqChannel s (bits i) i).priv c = s.priv c := Function.update_of_ne hc ..
        have hflight : (irqChannel s (bits i) i).flight c = s.flight c :=
          Function.update_of_ne hc ..
        rw [hsame, hflight]
        simp only [List.mem_cons, hc, false_or]
    · rcases hloop.accesses j hj with hj | hj
      · rcases List.mem_append.mp hj with hj | hj
        · exact .inl hj
        · exact .inr (List.mem_cons.mpr (.inl (List.mem_singleton.mp hj)))
      · exact .inr (List.mem_cons_of_mem _ hj)
    · rcases hloop.calls x hx with hx | ⟨c, hc, hx⟩
      · rcases List.mem_append.mp hx with hx | hx
        · exact .inl hx
        · exact .inr ⟨i, List.mem_cons_self, hx⟩
      · have hsame : (irqChannel s (bits i) i).priv c = s.priv c :=
          Function.update_of_ne (hother hc) ..
        rw [hsame] at hx
        exact .inr ⟨c, List.mem_cons_of_mem _ hc, hx⟩
    · rcases hloop.done t ht with ht | ⟨c, hc, hfin, t₀, ht₀, ht⟩
      · rcases List.mem_append.mp ht with ht | ht
        · exact .inl ht
        · dsimp only at ht
          split at ht
          · rename_i hfin
            obtain ⟨t₀, ht₀, hflush⟩ := Option.map_eq_some_iff.mp (Option.mem_toList.mp ht)
            exact .inr ⟨i, List.mem_cons_self, hfin, t₀, ht₀, hflush.symm⟩
          · exact absurd ht List.not_mem_nil
      · have hsame : (irqChannel s (bits i) i).priv c = s.priv c :=
          Function.update_of_ne (hother hc) ..
        have hflight : (irqChannel s (bits i) i).flight c = s.flight c :=
          Function.update_of_ne (hother hc) ..
        rw [hsame] at ht
        rw [hflight] at ht₀
        exact .inr ⟨c, List.mem_cons_of_mem _ hc, hfin, t₀, ht₀, ht⟩

/-- The state in which the loop begins: the pending interrupts are taken. -/
def taken (s : State) : State :=
  { s with status := fun i => (s.status i).without ((s.status i).and (s.en i)) }

theorem irqHandler_handled (s : State) :
    Handled s.pending (List.range channelNum) (taken s) (irqHandler s) :=
  irqLoop_handled _ _ List.nodup_range _

theorem irq_inv (h : Inv s) : Inv (irqHandler s) := by
  have hloop := irqHandler_handled s
  intro c
  have hold := h c
  have hhw : (irqHandler s).hw c = s.hw c := congrFun hloop.hw c
  have hen : (irqHandler s).en c = s.en c := congrFun hloop.en c
  have hstatus : (irqHandler s).status c = (s.status c).without (s.pending c) :=
    congrFun hloop.status c
  have hinited : (irqHandler s).inited c = s.inited c := congrFun hloop.inited c
  have hpriv := hloop.priv c
  have hflight := hloop.flight c
  by_cases hc : c ∈ List.range channelNum
  · rw [if_pos hc] at hpriv hflight
    obtain ⟨hend, hendArg, hhalf, hhalfArg⟩ := irqPriv_callbacks (s.priv c) (s.pending c)
    refine ⟨?_, ?_, fun t ht => ?_, fun hle => absurd (List.mem_range.mp hc) (Nat.not_lt.mpr hle)⟩
    · rw [hpriv, hinited]
      exact hold.configured.callbacks hend hendArg hhalf hhalfArg
    · rw [hpriv, hen]
      intro hne
      exact hold.enabled (hhalf ▸ hne)
    · rw [hflight] at ht
      split at ht
      · exact absurd ht.symm (Option.some_ne_none _)
      · rename_i hfin
        obtain ⟨t₀, ht₀, rfl⟩ := Option.map_eq_some_iff.mp ht
        rw [hpriv, hhw, hstatus, hen]
        exact (hold.flying t₀ ht₀).irq ((Bool.not_eq_true _).mp hfin)
  · rw [if_neg hc] at hpriv hflight
    have hnone : s.flight c = none :=
      hold.bounded (Nat.le_of_not_lt fun hlt => hc (List.mem_range.mpr hlt))
    refine ⟨?_, ?_, fun t ht => ?_, fun _ => hflight.trans hnone⟩
    · rw [hpriv, hinited]
      exact hold.configured
    · rw [hpriv, hen]
      exact hold.enabled
    · exact absurd ((hflight.trans hnone).symm.trans ht) (Option.some_ne_none t).symm

/-! ## Runs -/

theorem step_inv (h : Inv s) {op : Op} (hsound : Sound cache s op) : Inv (step cache s op) := by
  have hlog : Inv { s with log := Log.empty } := fun c => (h c).congr rfl rfl rfl rfl rfl rfl
  cases op with
  | request => exact request_inv hlog
  | requestSpecified c => exact requestSpecified_inv hlog c
  | release c => exact release_inv hlog c
  | init c param => exact init_inv hlog c param
  | start c dst len => exact start_inv hlog hsound
  | stop c => exact stop_inv hlog hsound
  | irq => exact irq_inv hlog
  | half c => exact half_inv hlog c
  | finish c => exact finish_inv hlog c

theorem run_inv {ops : List Op} (h : Inv s) (hsound : AllSound cache s ops) :
    Inv (run cache s ops) := by
  induction ops generalizing s with
  | nil => exact h
  | cons op ops ih => exact ih (step_inv h hsound.1) hsound.2

/-- A step that writes no record and calls and ends nothing. -/
theorem isolated_quiet {op : Op} (hpriv : s'.priv = s.priv) (hlog : s'.log = Log.empty) :
    Isolated s s' op where
  accesses i hi := absurd hi (by rw [hlog]; exact List.not_mem_nil)
  frame i hi := absurd (congrFun hpriv i) hi
  calls i f arg hcall := absurd hcall (by rw [hlog]; exact List.not_mem_nil)
  done t ht := absurd ht (by rw [hlog]; exact List.not_mem_nil)

/-- A step that works on the record of one channel. -/
theorem isolated_one {op : Op} (hop : op.chan = some c) (hc : c < channelNum)
    (hpriv : ∀ i, i ≠ c → s'.priv i = s.priv i) (haccesses : ∀ i ∈ s'.log.accesses, i = c)
    (hcalls : s'.log.calls = []) (hdone : ∀ t ∈ s'.log.done, t.Exact) : Isolated s s' op where
  accesses i hi := by
    have hic := haccesses i hi
    refine ⟨hic ▸ hc, fun d hd => ?_⟩
    rw [hop] at hd
    exact hic.trans (Option.some.inj hd)
  frame i hi := by
    refine .inl ?_
    by_cases hic : i = c
    · rw [hic, hop]
    · exact absurd (hpriv i hic) hi
  calls i f arg hcall := absurd hcall (by rw [hcalls]; exact List.not_mem_nil)
  done := hdone

theorem init_isolated (s : State) (c : Nat) (param : InitParam) :
    Isolated s (step cache s (.init c param)) (.init c param) := by
  dsimp only [step, exec, halInit]
  split
  · exact isolated_quiet rfl rfl
  · rename_i hc
    refine isolated_one rfl (Nat.lt_of_not_le hc) (fun i hi => Function.update_of_ne hi ..)
      (fun i hi => List.mem_singleton.mp hi) rfl (List.forall_mem_nil _)

theorem start_isolated (s : State) (c dst len : Nat) :
    Isolated s (step cache s (.start c dst len)) (.start c dst len) := by
  dsimp only [step, exec, halStart]
  split
  · exact isolated_quiet rfl rfl
  rename_i hc
  split
  · exact isolated_quiet rfl rfl
  refine isolated_one rfl (Nat.lt_of_not_le hc) (fun i hi => ?_) (fun i hi => ?_) rfl
    (List.forall_mem_nil _)
  · dsimp only
    split
    · exact Function.update_of_ne hi ..
    · rfl
  · dsimp only [Log.append, Log.empty] at hi
    rw [List.nil_append] at hi
    split at hi
    · exact List.mem_singleton.mp hi
    · exact absurd hi List.not_mem_nil

theorem stop_isolated (h : Inv s) (hsound : Sound cache s (.stop c)) :
    Isolated s (step cache s (.stop c)) (.stop c) := by
  dsimp only [step, exec, halStop]
  split
  · exact isolated_quiet rfl rfl
  rename_i hc
  obtain ⟨rfl, hfits⟩ := hsound (Nat.lt_of_not_le hc)
  refine isolated_one rfl (by decide) (fun i hi => Function.update_of_ne hi ..) (fun i hi => ?_) rfl
    (fun t ht => ?_)
  · rcases List.mem_cons.mp hi with hi | hi
    · exact hi
    · exact List.mem_singleton.mp hi
  · dsimp only [Log.append, Log.empty] at ht
    rw [List.nil_append] at ht
    obtain ⟨t₀, ht₀, rfl⟩ := Option.map_eq_some_iff.mp (Option.mem_toList.mp ht)
    exact ((h 0).flying t₀ ht₀).stop_exact fun hhalf => hfits hhalf t₀ ht₀

theorem irqCalls_registered {bits : Irq} {f arg j : Nat} (h : Configured p inited)
    (hcall : (j, f, arg) ∈ irqCalls p bits i) : j = i ∧ Registered inited bits f arg := by
  unfold irqCalls at hcall
  rcases List.mem_append.mp hcall with hcall | hcall
  · split at hcall
    · rename_i hbit
      obtain ⟨f', hf', heq⟩ := List.mem_map.mp hcall
      rw [Option.mem_toList] at hf'
      obtain ⟨rfl, rfl, rfl⟩ : i = j ∧ f' = f ∧ p.halfArg = arg := by
        simpa only [Prod.mk.injEq] using heq
      cases inited with
      | none => exact absurd (hf'.symm.trans h.2) (Option.some_ne_none _)
      | some param =>
        obtain ⟨-, -, hhalf, hhalfArg⟩ := h
        dsimp only [DmaPrivate.config] at hhalf hhalfArg
        split at hhalf
        · rename_i htype
          rw [if_pos htype] at hhalfArg
          exact ⟨rfl, param, rfl, .inl ⟨hbit, htype, hhalf.symm.trans hf', hhalfArg.symm⟩⟩
        · exact absurd (hf'.symm.trans hhalf) (Option.some_ne_none _)
    · exact absurd hcall List.not_mem_nil
  · split at hcall
    · rename_i hbit
      obtain ⟨f', hf', heq⟩ := List.mem_map.mp hcall
      rw [Option.mem_toList] at hf'
      obtain ⟨rfl, rfl, rfl⟩ : i = j ∧ f' = f ∧ p.endArg = arg := by
        simpa only [Prod.mk.injEq] using heq
      cases inited with
      | none => exact absurd (hf'.symm.trans h.1) (Option.some_ne_none _)
      | some param =>
        obtain ⟨hend, hendArg, -, -⟩ := h
        dsimp only [DmaPrivate.config] at hend hendArg
        split at hend
        · rename_i htype
          rw [if_pos htype] at hendArg
          exact ⟨rfl, param, rfl, .inr ⟨hbit, htype, hend.symm.trans hf', hendArg.symm⟩⟩
        · exact absurd (hf'.symm.trans hend) (Option.some_ne_none _)
    · exact absurd hcall List.not_mem_nil

theorem irq_isolated (h : Inv s) : Isolated s (step cache s .irq) .irq := by
  have hloop := irqHandler_handled { s with log := Log.empty }
  refine ⟨fun i hi => ?_, fun i hi => .inr fun hnone => hi ?_, fun i f arg hcall => ?_,
    fun t ht => ?_⟩
  · rcases hloop.accesses i hi with hi | hi
    · exact absurd hi List.not_mem_nil
    · exact ⟨List.mem_range.mp hi, fun c hc => absurd hc.symm (Option.some_ne_none c)⟩
  · refine (hloop.priv i).trans ?_
    split
    · exact (congrArg (irqPriv (s.priv i)) hnone).trans (irqPriv_none _)
    · rfl
  · rcases hloop.calls _ hcall with hcall | ⟨c, -, hcall⟩
    · exact absurd hcall List.not_mem_nil
    · obtain ⟨rfl, hregistered⟩ := irqCalls_registered (h c).configured hcall
      exact hregistered
  · rcases hloop.done t ht with ht | ⟨c, -, hfin, t₀, ht₀, rfl⟩
    · exact absurd ht List.not_mem_nil
    · exact ((h c).flying t₀ ht₀).irq_exact (h c).enabled hfin

theorem step_isolated (h : Inv s) {op : Op} (hsound : Sound cache s op) :
    Isolated s (step cache s op) op := by
  cases op with
  | request =>
    dsimp only [step, exec, halRequest]
    split <;> exact isolated_quiet rfl rfl
  | requestSpecified c =>
    dsimp only [step, exec, halRequestSpecified]
    split <;> exact isolated_quiet rfl rfl
  | release c =>
    dsimp only [step, exec, halRelease]
    split <;> exact isolated_quiet rfl rfl
  | init c param => exact init_isolated s c param
  | start c dst len => exact start_isolated s c dst len
  | stop c => exact stop_isolated h hsound
  | irq => exact irq_isolated h
  | half c =>
    dsimp only [step, exec]
    split <;> exact isolated_quiet rfl rfl
  | finish c =>
    dsimp only [step, exec]
    split <;> exact isolated_quiet rfl rfl

theorem allSound_append {ops more : List Op} :
    AllSound cache s (ops ++ more) ↔
      AllSound cache s ops ∧ AllSound cache (run cache s ops) more := by
  induction ops generalizing s with
  | nil => exact ⟨fun h => ⟨trivial, h⟩, fun h => h.2⟩
  | cons op ops ih =>
    rw [List.cons_append, AllSound, AllSound, ih, and_assoc]
    rfl

end

/-- Every step of a run whose transfers into cacheable PSRAM start as they should, and in which only
channel 0 stops, halves that are whole lines: it keeps to the records of its channels and to the callbacks registered last, and
the transfers that it ends are flushed exactly. -/
theorem channels_isolated (cache : Dcache) (ops : List Op) (op : Op)
    (hsound : AllSound cache State.start (ops ++ [op])) :
    Isolated (run cache State.start ops) (step cache (run cache State.start ops) op) op := by
  obtain ⟨hbefore, hlast⟩ := allSound_append.mp hsound
  exact step_isolated (run_inv inv_start hbefore) hlast.1

def psram : Dcache := ⟨true, 0x1400000, 0x1800000, []⟩

/-- Single mode with an end callback. -/
def endParam : InitParam := ⟨0, ⟨false, true⟩, some 7, 42, none, 0⟩

theorem channels_isolated_end :
    let s := run psram State.start [.init 3 endParam, .start 3 0x1400014 100, .half 3, .finish 3]
    (step psram s .irq).log.calls = [(3, 7, 42)] ∧
      (step psram s .irq).log.done.map Transfer.flushed = [[(0x1400010, 112)]] ∧
      Isolated s (step psram s .irq) .irq := by
  refine ⟨by decide, by decide, channels_isolated psram _ _ ⟨trivial, ?_, trivial, trivial,
    trivial, trivial⟩⟩
  exact fun _ _ _ _ _ => ⟨by decide, by decide, fun h => absurd rfl h⟩

/-- Single mode with both callbacks. -/
def halfParam : InitParam := ⟨0, ⟨true, true⟩, some 7, 42, some 8, 43⟩

/-- A stop of channel 3 works on record 6 and flushes nothing, and one of channel 4 works behind the
array. A stop of channel 0 that has three lines in flight flushes the first 24 bytes, and 24 from the
second line on. -/
theorem stop_strays :
    let s := run psram State.start [.init 3 endParam, .start 3 0x1400014 100]
    (step psram s (.stop 3)).log.accesses = [3, 6] ∧
      (step psram s (.stop 3)).log.done.map Transfer.flushed = [[]] ∧
      (step psram s (.stop 4)).log.accesses = [4, 8] ∧ ¬8 < channelNum ∧
      let s := run psram State.start [.init 0 halfParam, .start 0 0x1400000 48]
      (step psram s (.stop 0)).log.done.map Transfer.flushed =
        [[(0x1400000, 24), (0x1400010, 24)]] ∧
      ¬Covered [(0x1400000, 24), (0x1400010, 24)] 0x140002 := by
  refine ⟨by decide, by decide, by decide, by decide, by decide, ?_⟩
  rw [Covered]
  simp

end Dma
end XR806

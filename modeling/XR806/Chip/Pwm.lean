import Mathlib.Algebra.Order.Field.Basic
import Mathlib.Algebra.Order.Field.Rat
import Mathlib.Data.Rat.Cast.Order
import Mathlib.Logic.Function.Basic
import Mathlib.Tactic.Linarith

/-!
# XR806.Chip.Pwm

The frequency of a PWM channel: the source of its group is divided by a prescaler of eight bits so
that the cycle, a number of ticks up to 65536, comes near to the request. A cycle of one tick is the
source itself, past the counter.

The remainder that decides whether the prescaler is rounded up is kept in eight bits, the bit that
leads past the counter is set but never cleared, and a request of 1 Hz rounds up what needs no
rounding. Apart from those the set up is right (`chInit_iff`).
-/

namespace XR806
namespace Chip
namespace Pwm

/-! ## Registers -/

abbrev Reg := BitVec 32

def setBit (r b : Reg) : Reg := r ||| b

def clrBit (r b : Reg) : Reg := r &&& ~~~b

def srcClkDivV : Reg := 0x0000000F
def chClkGating : Reg := 1 <<< 4
def lowChClkBypass : Reg := 1 <<< 5
def highChClkBypass : Reg := 1 <<< 6
def srcClkSelect : Reg := 0x00000180
def pcrPrescal : Reg := 0x000000FF
def pcrActSta : Reg := 1 <<< 8
def pcrMode : Reg := 1 <<< 9
def pprActCycle : Reg := 0x0000FFFF
def pprEntireCycle : Reg := 0xFFFF0000

/-- `PWM_T`, with a clock register for each group, and the control and period register of each
channel. -/
structure PwmT where
  pccr : Nat → Reg
  pcr : Nat → Reg
  ppr : Nat → Reg

namespace PwmT

def setPccr (s : PwmT) (group : Nat) (r : Reg) : PwmT :=
  { s with pccr := Function.update s.pccr group r }

def setPcr (s : PwmT) (ch : Nat) (r : Reg) : PwmT :=
  { s with pcr := Function.update s.pcr ch r }

def setPpr (s : PwmT) (ch : Nat) (r : Reg) : PwmT :=
  { s with ppr := Function.update s.ppr ch r }

end PwmT

/-! ## The driver -/

def chNum : Nat := 8

def groupNum : Nat := 4

def maxEntireCycle : Nat := 65536

def maxPwmPrescale : Nat := 256

inductive Mode
  | cycle
  | pulse
  | capture
  deriving DecidableEq

inductive Polarity
  | low
  | high
  deriving DecidableEq

/-- `PWM_ChInitParam`. -/
structure ChInitParam where
  mode : Mode
  polarity : Polarity
  hz : Nat

inductive HalStatus
  | ok
  | error
  deriving DecidableEq

/-- `PWM_ReadGroupClkFreq`. -/
def readGroupClkFreq (hf apb : Nat) (s : PwmT) (group : Nat) : Nat :=
  if groupNum ≤ group then 0
  else
    let clk := s.pccr group &&& srcClkSelect
    let div := s.pccr group &&& srcClkDivV
    (if clk = 0 then hf else apb) / 2 ^ div.toNat

/-- The number that `PWM_ChClkDiv` divides by the request: the source divided by the longest cycle,
rounded up. -/
def sourceCycles (freq : Nat) : Nat :=
  freq / maxEntireCycle + if freq % maxEntireCycle > 0 then 1 else 0

def minFreq (freq : Nat) : Nat :=
  sourceCycles freq / maxPwmPrescale + if sourceCycles freq % maxPwmPrescale > 0 then 1 else 0

/-- `ch_div`, which has eight bits where the remainder is put there too. -/
def chDiv (freq hz : Nat) : Nat :=
  if hz > sourceCycles freq then 0
  else if sourceCycles freq % hz % 2 ^ 8 ≠ 0 then sourceCycles freq / hz % 2 ^ 8
  else (sourceCycles freq / hz + (2 ^ 32 - 1)) % 2 ^ 8

/-- `PWM_ChClkDiv`: the frequency behind the prescaler, or 0. -/
def chClkDiv (hf apb : Nat) (s : PwmT) (ch hz : Nat) : PwmT × Nat :=
  let freq := readGroupClkFreq hf apb s (ch / 2)
  if hz > freq ∨ hz < minFreq freq then (s, 0)
  else if chDiv freq hz > maxPwmPrescale - 1 then (s, 0)
  else
    (s.setPcr ch (clrBit (s.pcr ch) pcrPrescal ||| BitVec.ofNat 32 (chDiv freq hz)),
      freq / (chDiv freq hz + 1))

/-- `PWM_ChSetPolarity`. -/
def chSetPolarity (s : PwmT) (ch : Nat) (param : ChInitParam) : PwmT :=
  match param.polarity with
  | .low => s.setPcr ch (clrBit (s.pcr ch) pcrActSta)
  | .high => s.setPcr ch (setBit (s.pcr ch) pcrActSta)

/-- `PWM_ChSetMode`. -/
def chSetMode (s : PwmT) (ch : Nat) (param : ChInitParam) : PwmT :=
  match param.mode with
  | .pulse => s.setPcr ch (setBit (s.pcr ch) pcrMode)
  | .cycle => s.setPcr ch (clrBit (s.pcr ch) pcrMode)
  | .capture => s

/-- `PWM_OutSetCycle`. -/
def outSetCycle (s : PwmT) (ch : Nat) (value : BitVec 16) : PwmT :=
  s.setPpr ch (clrBit (s.ppr ch) pprEntireCycle ||| value.setWidth 32 <<< 16)

/-- `PWM_OutByPass`. -/
def outByPass (s : PwmT) (ch : Nat) : PwmT :=
  s.setPccr (ch / 2)
    (setBit (s.pccr (ch / 2)) (if ch % 2 ≠ 0 then highChClkBypass else lowChClkBypass))

/-- `ch_entire_cycle`. -/
def entireCycle (freq hz : Nat) : Nat := freq / hz + if freq % hz ≥ hz / 2 then 1 else 0

/-- `PWM_OutModeInit`. The hardware ends the wait for the period. -/
def outModeInit (hf apb : Nat) (s : PwmT) (ch : Nat) (param : ChInitParam) : PwmT × Int :=
  let r := chClkDiv hf apb s ch param.hz
  let s := r.1
  let freq := r.2
  if freq = 0 then (s, -1)
  else if param.hz > freq then (s, -1)
  else if entireCycle freq param.hz = 1 then
    if param.mode = .cycle then (outByPass s ch, entireCycle freq param.hz) else (s, -1)
  else
    let s := chSetMode (chSetPolarity s ch param) ch param
    (outSetCycle s ch (BitVec.ofNat 16 (entireCycle freq param.hz - 1)),
      entireCycle freq param.hz)

/-- `PWM_InputInit`. -/
def inputInit (hf apb : Nat) (s : PwmT) (ch : Nat) (param : ChInitParam) : PwmT × Int :=
  let r := chClkDiv hf apb s ch param.hz
  if r.2 = 0 then (r.1, -1) else (chSetMode (chSetPolarity r.1 ch param) ch param, 0)

/-- `PWM_EnableClock`. -/
def enableClock (s : PwmT) (ch : Nat) : PwmT :=
  s.setPccr (ch / 2) (setBit (s.pccr (ch / 2)) chClkGating)

/-- `HAL_PWM_ChInit`. -/
def halPwmChInit (hf apb : Nat) (s : PwmT) (ch : Nat) (param : ChInitParam) : PwmT × Int :=
  if chNum ≤ ch then (s, -1)
  else
    match param.mode with
    | .cycle | .pulse => outModeInit hf apb (enableClock s ch) ch param
    | .capture => inputInit hf apb (enableClock s ch) ch param

/-- `PWM_CycleValue`. -/
def cycleValue (s : PwmT) (ch : Nat) : Nat := ((s.ppr ch &&& pprEntireCycle) >>> 16).toNat + 1

/-- `PWM_SetActCycle`. -/
def setActCycle (s : PwmT) (ch : Nat) (cycle : BitVec 16) : PwmT :=
  s.setPpr ch (clrBit (s.ppr ch) pprActCycle ||| cycle.setWidth 32)

/-- `HAL_PWM_ChSetDutyRatio`. -/
def halPwmChSetDutyRatio (s : PwmT) (ch : Nat) (value : BitVec 16) : PwmT × HalStatus :=
  if chNum ≤ ch then (s, .error)
  else if value.toNat > cycleValue s ch then (s, .error)
  else (setActCycle s ch value, .ok)

/-! ## What it should do -/

def prescaler (s : PwmT) (ch : Nat) : Nat := ((s.pcr ch).extractLsb' 0 8).toNat

def cycleField (s : PwmT) (ch : Nat) : Nat := ((s.ppr ch).extractLsb' 16 16).toNat

def actField (s : PwmT) (ch : Nat) : BitVec 16 := (s.ppr ch).extractLsb' 0 16

/-- The channel's clock is led past the counter. -/
def bypassed (s : PwmT) (ch : Nat) : Bool :=
  (s.pccr (ch / 2)).getLsbD (if ch % 2 ≠ 0 then 6 else 5)

/-- Each duty up to the cycle is stored and leaves the cycle, and each larger one is refused. -/
def TakesDuty (s : PwmT) (ch c : Nat) : Prop :=
  ∀ value : BitVec 16,
    if value.toNat ≤ c then
      (halPwmChSetDutyRatio s ch value).2 = .ok ∧
        actField (halPwmChSetDutyRatio s ch value).1 ch = value ∧
        cycleField (halPwmChSetDutyRatio s ch value).1 ch = cycleField s ch
    else (halPwmChSetDutyRatio s ch value).2 = .error

/-- A channel with a cycle of `c` ticks of the source behind the prescaler. -/
structure Runs (s : PwmT) (ch source hz c : Nat) : Prop where
  prescale : prescaler s ch ≤ 255
  near : |(c : ℚ) - source / (prescaler s ch + 1) / hz| ≤ 1
  counted : 2 ≤ c → c ≤ 65536 ∧ cycleField s ch = c - 1 ∧ bypassed s ch = false
  past : c = 1 → bypassed s ch = true
  duty : 2 ≤ c → TakesDuty s ch c

/-! ## When it does -/

/-- With a request in range, and a source that is half a period or more above it, the channel was
not led past the counter before; a source that is a multiple of the longest cycle is not requested
to give 1 Hz; and a request that the prescaler is rounded up for does not leave a multiple of 256. -/
def Regular (source hz : Nat) (past : Bool) : Prop :=
  0 < hz → sourceCycles source ≤ 256 * hz → hz + hz / 2 ≤ source →
    past = false ∧ ¬(hz = 1 ∧ source % 65536 = 0) ∧
      ¬(hz ≤ sourceCycles source ∧ sourceCycles source % hz ≠ 0 ∧
        sourceCycles source % hz % 256 = 0)

/-! ## The prescaler -/

section

variable {freq hz : Nat}

theorem sourceCycles_spec (freq : Nat) :
    freq ≤ 65536 * sourceCycles freq ∧ 65536 * sourceCycles freq < freq + 65536 := by
  rw [sourceCycles, maxEntireCycle]
  split
  case isTrue => omega
  case isFalse => omega

theorem minFreq_le_iff : minFreq freq ≤ hz ↔ sourceCycles freq ≤ 256 * hz := by
  rw [minFreq, maxPwmPrescale]
  split
  case isTrue => omega
  case isFalse => omega

/-- The prescaler is 1, or the quotient rounded up, or, where the remainder is a multiple of 256,
the quotient. -/
theorem chDiv_cases (hpos : 0 < hz) (hq : sourceCycles freq ≤ 256 * hz) :
    sourceCycles freq < hz ∧ chDiv freq hz = 0 ∨
    hz ≤ sourceCycles freq ∧ sourceCycles freq % hz % 256 ≠ 0 ∧ sourceCycles freq / hz ≤ 255 ∧
      chDiv freq hz = sourceCycles freq / hz ∨
    hz ≤ sourceCycles freq ∧ sourceCycles freq % hz % 256 = 0 ∧ sourceCycles freq / hz ≤ 256 ∧
      chDiv freq hz + 1 = sourceCycles freq / hz := by
  rw [chDiv]
  generalize sourceCycles freq = q at hq
  have hsplit := Nat.div_add_mod q hz
  have hquot : q / hz ≤ 256 := Nat.div_le_of_le_mul (by omega)
  split
  case isTrue hlow => exact .inl ⟨hlow, rfl⟩
  case isFalse hhigh =>
    have hone : 1 ≤ q / hz := (Nat.one_le_div_iff hpos).mpr (by omega)
    split
    case isTrue hrem =>
      have hlt : q / hz ≠ 256 := by
        intro heq
        rw [heq] at hsplit
        omega
      exact .inr (.inl ⟨by omega, hrem, by omega, by omega⟩)
    case isFalse hrem =>
      exact .inr (.inr ⟨by omega, by omega, hquot, by omega⟩)

/-- The prescaler is rounded down although there is a remainder. -/
def Slips (freq hz : Nat) : Prop :=
  hz ≤ sourceCycles freq ∧ sourceCycles freq % hz ≠ 0 ∧ sourceCycles freq % hz % 256 = 0

/-- By what the source is divided to give the cycle. -/
def divisor (freq hz : Nat) : Nat := (chDiv freq hz + 1) * hz

/-- A request in range. -/
structure InRange (freq hz : Nat) : Prop where
  pos : 0 < hz
  low : sourceCycles freq ≤ 256 * hz
  high : hz ≤ freq
  small : freq ≤ 2 ^ 31

theorem InRange.divisor_cases (h : InRange freq hz) :
    sourceCycles freq < hz ∧ chDiv freq hz = 0 ∨
    hz ≤ sourceCycles freq ∧ ¬Slips freq hz ∧ sourceCycles freq ≤ divisor freq hz ∧
      divisor freq hz < 2 * sourceCycles freq ∨
    Slips freq hz ∧ divisor freq hz + 256 ≤ sourceCycles freq := by
  have hsplit := Nat.div_add_mod (sourceCycles freq) hz
  have hlt := Nat.mod_lt (sourceCycles freq) h.pos
  have hpos := h.pos
  rw [divisor, Slips]
  rcases chDiv_cases h.pos h.low with ⟨hlow, hdiv⟩ | ⟨hhigh, hrem, -, hdiv⟩ | ⟨hhigh, hrem, -, hdiv⟩
  · exact .inl ⟨hlow, hdiv⟩
  · rw [hdiv, Nat.add_mul, Nat.one_mul, Nat.mul_comm (_ / hz)]
    refine .inr (.inl ⟨hhigh, fun hslips => hrem hslips.2.2, by omega, ?_⟩)
    have hne : sourceCycles freq % hz ≠ 0 := fun hzero => hrem (by rw [hzero])
    omega
  · rw [hdiv, Nat.mul_comm (_ / hz)]
    rcases Nat.eq_zero_or_pos (sourceCycles freq % hz) with hzero | hne
    · exact .inr (.inl ⟨hhigh, fun hslips => hslips.2.1 hzero, by omega, by omega⟩)
    · exact .inr (.inr ⟨⟨hhigh, hne.ne', hrem⟩, by omega⟩)

theorem InRange.divisor_pos (h : InRange freq hz) : 0 < divisor freq hz :=
  Nat.mul_pos (Nat.succ_pos _) h.pos

theorem InRange.divisor_le (h : InRange freq hz) : divisor freq hz ≤ freq := by
  have hspec := sourceCycles_spec freq
  have hpos := h.pos
  have hhigh := h.high
  rcases h.divisor_cases with ⟨-, hdiv⟩ | ⟨hq, -, -, hlt⟩ | ⟨-, hlt⟩
  · rw [divisor, hdiv]
    omega
  · omega
  · omega

/-- The cycle is at most the longest one, unless the prescaler slips. -/
theorem InRange.le_divisor (h : InRange freq hz) (hslips : ¬Slips freq hz) :
    freq ≤ 65536 * divisor freq hz := by
  have hspec := sourceCycles_spec freq
  rcases h.divisor_cases with ⟨hlow, hdiv⟩ | ⟨-, -, hle, -⟩ | ⟨h, -⟩
  · rw [divisor, hdiv]
    omega
  · omega
  · exact absurd h hslips

theorem InRange.divisor_of_slips (h : InRange freq hz) (hslips : Slips freq hz) :
    65537 * divisor freq hz ≤ freq := by
  have hspec := sourceCycles_spec freq
  have hsmall := h.small
  rcases h.divisor_cases with ⟨hlow, -⟩ | ⟨-, hnot, -⟩ | ⟨-, hlt⟩
  · have hle := hslips.1
    omega
  · exact absurd hslips hnot
  · omega

/-- The cycle that the driver returns. -/
def cycles (freq hz : Nat) : Nat := entireCycle (freq / (chDiv freq hz + 1)) hz

theorem cycles_eq :
    cycles freq hz = freq / divisor freq hz +
      if freq / (chDiv freq hz + 1) % hz ≥ hz / 2 then 1 else 0 := by
  rw [cycles, entireCycle, Nat.div_div_eq_div_mul]
  rfl

theorem InRange.divisor_one (h : InRange freq 1) : divisor freq 1 = sourceCycles freq := by
  have hspec := sourceCycles_spec freq
  have hhigh := h.high
  rw [divisor, Nat.mul_one]
  rcases chDiv_cases h.pos h.low with ⟨hlow, -⟩ | ⟨-, hrem, -⟩ | ⟨-, -, -, hdiv⟩
  · omega
  · omega
  · rw [hdiv, Nat.div_one]

theorem InRange.cycles_le_iff (h : InRange freq hz) :
    cycles freq hz ≤ 65536 ↔ ¬(hz = 1 ∧ freq % 65536 = 0) ∧ ¬Slips freq hz := by
  have hpos := h.divisor_pos
  have hhz := h.pos
  by_cases hslips : Slips freq hz
  · have hlong : 65537 ≤ freq / divisor freq hz :=
      (Nat.le_div_iff_mul_le hpos).mpr (h.divisor_of_slips hslips)
    rw [cycles_eq]
    exact iff_of_false (by omega) fun hnot => hnot.2 hslips
  · rcases Nat.lt_or_eq_of_le (h.le_divisor hslips) with hlt | heq
    · have hshort : freq / divisor freq hz < 65536 := (Nat.div_lt_iff_lt_mul hpos).mpr hlt
      refine iff_of_true ?_ ⟨?_, hslips⟩
      · rw [cycles_eq]
        split
        case isTrue => omega
        case isFalse => omega
      · rintro ⟨rfl, hwhole⟩
        have hspec := sourceCycles_spec freq
        rw [h.divisor_one] at hlt
        omega
    · -- The longest cycle.
      have hbehind : freq / (chDiv freq hz + 1) = 65536 * hz := by
        refine Nat.div_eq_of_eq_mul_right (Nat.succ_pos _) (heq.trans ?_)
        rw [divisor, Nat.mul_left_comm]
      have hquot : freq / divisor freq hz = 65536 := Nat.div_eq_of_eq_mul_left hpos heq
      rw [cycles_eq, hbehind, hquot, Nat.mul_mod_left]
      constructor
      · intro hle
        refine ⟨fun hone => ?_, hslips⟩
        rw [hone.1] at hle
        exact absurd hle (by decide)
      · intro hnot
        rw [if_neg]
        have hwhole : freq % 65536 = 0 := heq ▸ Nat.mul_mod_right ..
        have hne : hz ≠ 1 := fun hone => hnot.1 ⟨hone, hwhole⟩
        omega

theorem InRange.cycles_eq_one_iff (h : InRange freq hz) :
    cycles freq hz = 1 ↔ freq < hz + hz / 2 := by
  have hpos := h.pos
  have hhigh := h.high
  have hspec := sourceCycles_spec freq
  have hlong (hle : hz ≤ sourceCycles freq) (hlt : divisor freq hz < 2 * sourceCycles freq) :
      cycles freq hz ≠ 1 ∧ hz + hz / 2 ≤ freq := by
    rcases Nat.lt_or_ge 1 (sourceCycles freq) with hbig | hone
    · have htwo : 2 ≤ freq / divisor freq hz :=
        (Nat.le_div_iff_mul_le h.divisor_pos).mpr (by omega)
      rw [cycles_eq]
      omega
    · obtain rfl : hz = 1 := by omega
      rw [cycles_eq, h.divisor_one, if_pos (Nat.zero_le _)]
      have hsource : 1 ≤ freq / sourceCycles freq := Nat.div_pos (by omega) (by omega)
      omega
  rcases h.divisor_cases with ⟨-, hdiv⟩ | ⟨hle, -, -, hlt⟩ | ⟨hslips, hlt⟩
  · rw [cycles, entireCycle, hdiv, Nat.zero_add, Nat.div_one]
    have hsplit := Nat.div_add_mod freq hz
    have hrem := Nat.mod_lt freq hpos
    have hsome : 1 ≤ freq / hz := Nat.div_pos hhigh hpos
    rcases Nat.lt_or_ge 1 (freq / hz) with hmore | hone
    · have htwice : hz * 2 ≤ hz * (freq / hz) := Nat.mul_le_mul_left hz hmore
      exact iff_of_false (by omega) (by omega)
    · have heq : freq / hz = 1 := by omega
      rw [heq, Nat.mul_one] at hsplit
      rw [heq]
      split
      case isTrue => omega
      case isFalse => omega
  · exact iff_of_false (hlong hle hlt).1 (by have := (hlong hle hlt).2; omega)
  · have hslow := hlong hslips.1 (by omega)
    exact iff_of_false hslow.1 (by omega)

theorem InRange.le_behind (h : InRange freq hz) : hz ≤ freq / (chDiv freq hz + 1) := by
  rw [Nat.le_div_iff_mul_le (Nat.succ_pos _), Nat.mul_comm]
  exact h.divisor_le

theorem InRange.chDiv_le (h : InRange freq hz) : chDiv freq hz ≤ 255 := by
  rcases chDiv_cases h.pos h.low with ⟨-, hdiv⟩ | ⟨-, -, hle, hdiv⟩ | ⟨-, -, hle, hdiv⟩
  · omega
  · omega
  · omega

theorem InRange.cycles_pos (h : InRange freq hz) : 0 < cycles freq hz :=
  Nat.lt_of_lt_of_le (Nat.div_pos h.le_behind h.pos) (Nat.le_add_right ..)

/-- The cycle is the quotient, or the next number. -/
theorem InRange.near (h : InRange freq hz) :
    |(cycles freq hz : ℚ) - freq / (chDiv freq hz + 1) / hz| ≤ 1 := by
  have hpos : (0 : ℚ) < divisor freq hz := by exact_mod_cast h.divisor_pos
  have hlow : (freq / divisor freq hz : ℕ) * (divisor freq hz : ℚ) ≤ freq := by
    exact_mod_cast Nat.div_mul_le_self ..
  have hhigh : (freq : ℚ) ≤ ((freq / divisor freq hz : ℕ) + 1) * divisor freq hz := by
    exact_mod_cast (Nat.lt_div_mul_add h.divisor_pos).le.trans_eq (Nat.succ_mul ..).symm
  have hquot : (freq : ℚ) / (chDiv freq hz + 1) / hz = freq / divisor freq hz := by
    rw [div_div, divisor, Nat.cast_mul, Nat.cast_add, Nat.cast_one]
  rw [hquot, abs_le, cycles_eq]
  have hfloor := (le_div_iff₀ hpos).mpr hlow
  have hceil := (div_le_iff₀ hpos).mpr hhigh
  split
  case isTrue =>
    rw [Nat.cast_add, Nat.cast_one]
    constructor
    · linarith only [hceil]
    · linarith only [hfloor]
  case isFalse =>
    rw [Nat.add_zero]
    constructor
    · linarith only [hceil]
    · linarith only [hfloor]

end

/-! ## The fields -/

section

variable {start len : Nat} {r mask value : Reg}

theorem extract_clrBit (hfit : start + len ≤ 32) :
    (clrBit r mask).extractLsb' start len =
      r.extractLsb' start len &&& ~~~mask.extractLsb' start len := by
  ext i hi
  simp only [clrBit, BitVec.getElem_extractLsb', BitVec.getElem_and, BitVec.getElem_not,
    BitVec.getLsbD_and, BitVec.getLsbD_not]
  rw [decide_eq_true (show start + i < 32 by omega), Bool.true_and]

/-- A field that the mask covers is that of the value. -/
theorem field_written (hfit : start + len ≤ 32)
    (hmask : mask.extractLsb' start len = BitVec.allOnes len) :
    (clrBit r mask ||| value).extractLsb' start len = value.extractLsb' start len := by
  rw [BitVec.extractLsb'_or, extract_clrBit hfit, hmask, BitVec.not_allOnes, BitVec.and_zero,
    BitVec.zero_or]

theorem extract_setBit_of_zero (hvalue : value.extractLsb' start len = BitVec.ofNat len 0) :
    (setBit r value).extractLsb' start len = r.extractLsb' start len := by
  rw [setBit, BitVec.extractLsb'_or, hvalue, BitVec.or_zero]

theorem extract_clrBit_of_zero (hfit : start + len ≤ 32)
    (hmask : mask.extractLsb' start len = BitVec.ofNat len 0) :
    (clrBit r mask).extractLsb' start len = r.extractLsb' start len := by
  rw [extract_clrBit hfit, hmask, BitVec.not_zero, BitVec.and_allOnes]

theorem setBit_and (h : value &&& mask = 0#32) : setBit r value &&& mask = r &&& mask := by
  rw [setBit, BitVec.and_or_distrib_right, h, BitVec.or_zero]

theorem cycleValue_eq (s : PwmT) (ch : Nat) : cycleValue s ch = cycleField s ch + 1 := by
  have hmask : (pprEntireCycle >>> 16).toNat = 2 ^ 16 - 1 := by decide
  rw [cycleValue, cycleField, BitVec.ushiftRight_and_distrib, BitVec.toNat_and, hmask,
    Nat.and_two_pow_sub_one_eq_mod, BitVec.toNat_ushiftRight, BitVec.extractLsb'_toNat]

end

/-! ## The channel -/

section

variable {s : PwmT} {ch : Nat}

@[simp] theorem pccr_setPccr {group : Nat} (r : Reg) : (s.setPccr group r).pccr group = r :=
  Function.update_self ..

@[simp] theorem pccr_setPcr (r : Reg) : (s.setPcr ch r).pccr = s.pccr := rfl

@[simp] theorem pcr_setPcr (r : Reg) : (s.setPcr ch r).pcr ch = r := Function.update_self ..

@[simp] theorem ppr_setPpr (r : Reg) : (s.setPpr ch r).ppr ch = r := Function.update_self ..

theorem bypassed_of_pccr {s t : PwmT} (h : s.pccr = t.pccr) :
    bypassed s ch = bypassed t ch := by
  rw [bypassed, bypassed, h]

theorem bypassed_outByPass : bypassed (outByPass s ch) ch = true := by
  rw [bypassed, outByPass, pccr_setPccr, setBit, BitVec.getLsbD_or]
  split
  case isTrue => rw [show highChClkBypass.getLsbD 6 = true by decide, Bool.or_true]
  case isFalse => rw [show lowChClkBypass.getLsbD 5 = true by decide, Bool.or_true]

theorem bypassed_enableClock : bypassed (enableClock s ch) ch = bypassed s ch := by
  rw [bypassed, bypassed, enableClock, pccr_setPccr, setBit, BitVec.getLsbD_or]
  split
  case isTrue => rw [show chClkGating.getLsbD 6 = false by decide, Bool.or_false]
  case isFalse => rw [show chClkGating.getLsbD 5 = false by decide, Bool.or_false]

theorem readGroupClkFreq_enableClock (hf apb : Nat) (s : PwmT) (ch : Nat) :
    readGroupClkFreq hf apb (enableClock s ch) (ch / 2) = readGroupClkFreq hf apb s (ch / 2) := by
  have hselect : (enableClock s ch).pccr (ch / 2) &&& srcClkSelect =
      s.pccr (ch / 2) &&& srcClkSelect := by
    rw [enableClock, pccr_setPccr, setBit_and (by decide)]
  have hdiv : (enableClock s ch).pccr (ch / 2) &&& srcClkDivV =
      s.pccr (ch / 2) &&& srcClkDivV := by
    rw [enableClock, pccr_setPccr, setBit_and (by decide)]
  rw [readGroupClkFreq, readGroupClkFreq, hselect, hdiv]

theorem prescaler_chSetPolarity {param : ChInitParam} :
    prescaler (chSetPolarity s ch param) ch = prescaler s ch := by
  rw [prescaler, prescaler, chSetPolarity]
  split
  case h_1 => rw [pcr_setPcr, extract_clrBit_of_zero (by decide) (by decide)]
  case h_2 => rw [pcr_setPcr, extract_setBit_of_zero (by decide)]

theorem prescaler_chSetMode {param : ChInitParam} :
    prescaler (chSetMode s ch param) ch = prescaler s ch := by
  rw [prescaler, prescaler, chSetMode]
  split
  case h_1 => rw [pcr_setPcr, extract_setBit_of_zero (by decide)]
  case h_2 => rw [pcr_setPcr, extract_clrBit_of_zero (by decide) (by decide)]
  case h_3 => rfl

theorem pccr_chSetPolarity {param : ChInitParam} :
    (chSetPolarity s ch param).pccr = s.pccr := by
  rw [chSetPolarity]
  split
  case h_1 => rfl
  case h_2 => rfl

theorem pccr_chSetMode {param : ChInitParam} : (chSetMode s ch param).pccr = s.pccr := by
  rw [chSetMode]
  split
  case h_1 => rfl
  case h_2 => rfl
  case h_3 => rfl

theorem cycleField_outSetCycle {value : BitVec 16} :
    cycleField (outSetCycle s ch value) ch = value.toNat := by
  have hvalue : (value.setWidth 32 <<< 16).extractLsb' 16 16 = value := by
    ext i hi
    have hfit : 16 + i < 32 := by omega
    simp [hfit, BitVec.getLsbD_eq_getElem hi]
  rw [cycleField, outSetCycle, ppr_setPpr, field_written (by decide) (by decide), hvalue]

theorem actField_setActCycle {value : BitVec 16} : actField (setActCycle s ch value) ch = value := by
  rw [actField, setActCycle, ppr_setPpr, field_written (by decide) (by decide),
    BitVec.extractLsb'_setWidth_of_le (by decide), BitVec.extractLsb'_eq_self]

theorem cycleField_setActCycle {value : BitVec 16} :
    cycleField (setActCycle s ch value) ch = cycleField s ch := by
  have hvalue : (value.setWidth 32).extractLsb' 16 16 = 0#16 := by
    ext i hi
    simp
  rw [cycleField, cycleField, setActCycle, ppr_setPpr, ← setBit, extract_setBit_of_zero hvalue,
    extract_clrBit_of_zero (by decide) (by decide)]

theorem takesDuty (hch : ch < 8) {c : Nat} (hcycle : cycleField s ch + 1 = c) :
    TakesDuty s ch c := by
  intro value
  have hnum : ¬chNum ≤ ch := Nat.not_le.mpr hch
  rw [halPwmChSetDutyRatio, if_neg hnum, cycleValue_eq, hcycle]
  split
  case isTrue hle =>
    rw [if_neg (Nat.not_lt.mpr hle)]
    exact ⟨rfl, actField_setActCycle, cycleField_setActCycle⟩
  case isFalse hgt => rw [if_pos (Nat.not_le.mp hgt)]

end

/-! ## The set up -/

section

variable {hf apb : Nat} {s : PwmT} {ch : Nat}

theorem chClkDiv_of_range {freq hz : Nat} (hfreq : readGroupClkFreq hf apb s (ch / 2) = freq)
    (h : InRange freq hz) :
    ∃ s', chClkDiv hf apb s ch hz = (s', freq / (chDiv freq hz + 1)) ∧ s'.pccr = s.pccr ∧
      prescaler s' ch = chDiv freq hz := by
  have hdiv := h.chDiv_le
  have hlow := minFreq_le_iff.mpr h.low
  have hhigh := h.high
  refine ⟨s.setPcr ch (clrBit (s.pcr ch) pcrPrescal ||| BitVec.ofNat 32 (chDiv freq hz)), ?_,
    pccr_setPcr _, ?_⟩
  · rw [chClkDiv, hfreq, if_neg (by omega), if_neg (by rw [maxPwmPrescale]; omega)]
  · rw [prescaler, pcr_setPcr, field_written (by decide) (by decide), BitVec.extractLsb'_toNat,
      BitVec.toNat_ofNat, Nat.shiftRight_zero]
    omega

theorem chClkDiv_of_not_range {freq hz : Nat}
    (hfreq : readGroupClkFreq hf apb s (ch / 2) = freq) (hsmall : freq ≤ 2 ^ 31)
    (h : ¬InRange freq hz) : (chClkDiv hf apb s ch hz).2 = 0 := by
  rw [chClkDiv, hfreq]
  split
  case isTrue => rfl
  case isFalse hrange =>
    split
    case isTrue => rfl
    case isFalse =>
      have hlow := minFreq_le_iff.mp (show minFreq freq ≤ hz by omega)
      have hspec := sourceCycles_spec freq
      -- Only 0 Hz of a source that stands still is left.
      have hpos : ¬0 < hz := fun hpos => h ⟨hpos, hlow, by omega, hsmall⟩
      have hstill : freq = 0 := by omega
      dsimp only
      rw [hstill, Nat.zero_div]

/-- What an output channel in range becomes. -/
theorem outModeInit_of_range {param : ChInitParam} {freq : Nat}
    (hfreq : readGroupClkFreq hf apb s (ch / 2) = freq) (h : InRange freq param.hz) :
    ∃ s', prescaler s' ch = chDiv freq param.hz ∧
      (cycles freq param.hz = 1 ∧
          (outModeInit hf apb s ch param = (s', 1) ∧ bypassed s' ch = true ∨
            outModeInit hf apb s ch param = (s', -1)) ∨
        2 ≤ cycles freq param.hz ∧
          outModeInit hf apb s ch param = (s', (cycles freq param.hz : Int)) ∧
          bypassed s' ch = bypassed s ch ∧
          cycleField s' ch = (cycles freq param.hz - 1) % 65536) := by
  obtain ⟨s', hclk, hpccr, hprescaler⟩ := chClkDiv_of_range hfreq h
  have hbehind := h.le_behind
  have hpos := h.pos
  have hsome := h.cycles_pos
  rw [outModeInit, hclk]
  dsimp only
  rw [if_neg (by omega), if_neg (by omega), ← cycles]
  by_cases hone : cycles freq param.hz = 1
  · rw [if_pos hone, hone]
    by_cases hmode : param.mode = .cycle
    · rw [if_pos hmode]
      exact ⟨outByPass s' ch, hprescaler, .inl ⟨rfl, .inl ⟨rfl, bypassed_outByPass⟩⟩⟩
    · rw [if_neg hmode]
      exact ⟨s', hprescaler, .inl ⟨rfl, .inr rfl⟩⟩
  · rw [if_neg hone]
    have hset : (chSetMode (chSetPolarity s' ch param) ch param).pccr = s.pccr := by
      rw [pccr_chSetMode, pccr_chSetPolarity, hpccr]
    refine ⟨_, ?_, .inr ⟨by omega, rfl, bypassed_of_pccr hset, ?_⟩⟩
    · exact prescaler_chSetMode.trans (prescaler_chSetPolarity.trans hprescaler)
    · rw [cycleField_outSetCycle, BitVec.toNat_ofNat]

theorem outModeInit_of_not_range {param : ChInitParam} {freq : Nat}
    (hfreq : readGroupClkFreq hf apb s (ch / 2) = freq) (hsmall : freq ≤ 2 ^ 31)
    (h : ¬InRange freq param.hz) : (outModeInit hf apb s ch param).2 = -1 := by
  rw [outModeInit, if_pos (chClkDiv_of_not_range hfreq hsmall h)]

theorem halPwmChInit_of_output (hch : ch < 8) {param : ChInitParam}
    (hmode : param.mode ≠ .capture) :
    halPwmChInit hf apb s ch param = outModeInit hf apb (enableClock s ch) ch param := by
  have hnum : ¬chNum ≤ ch := Nat.not_le.mpr hch
  rw [halPwmChInit, if_neg hnum]
  split
  case h_1 => rfl
  case h_2 => rfl
  case h_3 hcapture => exact absurd hcapture hmode

/-- Of a channel that counts, the field has to hold the cycle, and the clock has to reach the
counter. -/
theorem runs_iff {freq hz : Nat} (hch : ch < 8) (h : InRange freq hz)
    (hprescaler : prescaler s ch = chDiv freq hz) (htwo : 2 ≤ cycles freq hz)
    (hcycle : cycleField s ch = (cycles freq hz - 1) % 65536) :
    Runs s ch freq hz (cycles freq hz) ↔ cycles freq hz ≤ 65536 ∧ bypassed s ch = false := by
  constructor
  · intro hruns
    obtain ⟨hle, -, hcounted⟩ := hruns.counted htwo
    exact ⟨hle, hcounted⟩
  · rintro ⟨hle, hcounted⟩
    have hfield : cycleField s ch = cycles freq hz - 1 := by omega
    exact {
      prescale := hprescaler ▸ h.chDiv_le
      near := hprescaler ▸ h.near
      counted := fun _ => ⟨hle, hfield, hcounted⟩
      past := fun hone => by omega
      duty := fun _ => takesDuty hch (by omega) }

/-- A channel that was set up as an output runs at the frequency that was returned exactly where
the request is regular. -/
theorem chInit_iff {param : ChInitParam} (hch : ch < 8) (hmode : param.mode ≠ .capture)
    (hsmall : readGroupClkFreq hf apb s (ch / 2) ≤ 2 ^ 31) :
    (∀ c : Nat, (halPwmChInit hf apb s ch param).2 = c → 0 < c →
        Runs (halPwmChInit hf apb s ch param).1 ch (readGroupClkFreq hf apb s (ch / 2)) param.hz c) ↔
      Regular (readGroupClkFreq hf apb s (ch / 2)) param.hz (bypassed s ch) := by
  have hfreq := readGroupClkFreq_enableClock hf apb s ch
  rw [halPwmChInit_of_output hch hmode]
  generalize readGroupClkFreq hf apb s (ch / 2) = freq at hfreq hsmall
  by_cases h : InRange freq param.hz
  · obtain ⟨s', hprescaler, ⟨hone, hinit⟩ | ⟨htwo, hinit, hpast, hcycle⟩⟩ :=
      outModeInit_of_range hfreq h
    · -- The source itself, or nothing.
      have hbelow := h.cycles_eq_one_iff.mp hone
      refine iff_of_true (fun c hc hpos => ?_) fun _ _ hhigh => by omega
      rcases hinit with ⟨hinit, hpast⟩ | hinit
      · rw [hinit] at hc ⊢
        obtain rfl : c = 1 := by
          dsimp only at hc
          omega
        exact {
          prescale := hprescaler ▸ h.chDiv_le
          near := hone ▸ hprescaler ▸ h.near
          counted := fun htwo => by omega
          past := fun _ => hpast
          duty := fun htwo => by omega }
      · rw [hinit] at hc
        dsimp only at hc
        omega
    · have habove : param.hz + param.hz / 2 ≤ freq := by
        by_contra hbelow
        have hone := h.cycles_eq_one_iff.mpr (by omega)
        omega
      have hruns := runs_iff hch h hprescaler htwo hcycle
      rw [hpast, bypassed_enableClock, h.cycles_le_iff] at hruns
      rw [hinit]
      constructor
      · intro hall _ _ _
        obtain ⟨⟨hone, hslips⟩, hclear⟩ := hruns.mp (hall _ rfl h.cycles_pos)
        exact ⟨hclear, hone, hslips⟩
      · intro hregular c hc _
        obtain ⟨hclear, hone, hslips⟩ := hregular h.pos h.low habove
        obtain rfl := Int.ofNat.inj hc
        exact hruns.mpr ⟨⟨hone, hslips⟩, hclear⟩
  · have hresult := outModeInit_of_not_range hfreq hsmall h
    refine iff_of_true (fun c hc _ => by omega) fun hpos hlow hhigh => ?_
    exact absurd ⟨hpos, hlow, by omega, hsmall⟩ h

/-- The registers of a group that divides 24 MHz by one, with nothing set up. -/
def idle : PwmT := ⟨fun _ => 0, fun _ => 0, fun _ => 0⟩

/-- 1 kHz of 24 MHz is a cycle of 24000 ticks. -/
theorem chInit_kilohertz :
    Runs (halPwmChInit 24000000 0 idle 0 ⟨.cycle, .low, 1000⟩).1 0 24000000 1000 24000 :=
  (chInit_iff (s := idle) (by decide) (by decide) (by decide)).mpr
    (fun _ _ _ => ⟨by decide, by decide, by decide⟩) 24000 (by decide) (by decide)

/-- A request of 355 Hz at 40 MHz, where the longest cycle leaves 611 = 355 + 256: the prescaler
stays 1, and the cycle of 112676 ticks that is returned does not fit. -/
theorem chInit_too_long :
    ¬∀ (hf apb : Nat) (s : PwmT) (ch : Nat) (param : ChInitParam), ch < 8 →
      param.mode ≠ .capture → readGroupClkFreq hf apb s (ch / 2) ≤ 2 ^ 31 →
      ∀ c : Nat, (halPwmChInit hf apb s ch param).2 = c → 0 < c →
        Runs (halPwmChInit hf apb s ch param).1 ch (readGroupClkFreq hf apb s (ch / 2))
          param.hz c := by
  intro h
  have hruns := h 40000000 0 idle 0 ⟨.cycle, .low, 355⟩ (by decide) (by decide) (by decide) 112676
    (by decide) (by decide)
  exact absurd (hruns.counted (by decide)).1 (by decide)

end

end Pwm
end Chip
end XR806

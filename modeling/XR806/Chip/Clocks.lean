import XR806.Word
import Mathlib.Algebra.Order.Floor.Div
import Mathlib.Algebra.Ring.Nat
import Mathlib.Tactic.Ring
import Mathlib.Tactic.SplitIfs

/-!
# XR806.Chip.Clocks

The clock dividers of the flash controller, of the SPI and SD hosts and of the I2C bus. A module
clock is its source divided by 2^n (m + 1), where m has four bits: a divider above 16 is shifted
down to the range of m, and what the shift drops makes the clock too fast. The SD host rounds its
divider to the nearest first, and takes 128 for any larger one.

`clocks_iff` says for each of them which sources and requests it is right for.
-/

namespace XR806
namespace Chip
namespace Clocks

/-! ## Module clocks -/

/-- `CCM_AHBPeriphClkSrc`. -/
inductive ClkSrc
  | hfclk
  | devclk
  deriving DecidableEq

/-- The fields of a module clock register. -/
structure MClock where
  src : ClkSrc
  divN : Nat
  divM : Nat
  deriving DecidableEq

def MClock.divider (c : MClock) : Nat := 2 ^ c.divN * (c.divM + 1)

/-- The source and the thresholds of `HAL_Flashc_ConfigCCMU` and `HAL_SPI_ConfigCCMU`; `none` is
their 0. -/
def configCCMU (hf dev clk : Nat) : Option MClock :=
  let mclk := if clk > hf then dev else hf
  let src := if clk > hf then ClkSrc.devclk else .hfclk
  let div := u32 (mclk + clk - 1) / clk
  let div := if div = 0 then 1 else div
  if div > 16 * 8 then none
  else if div > 64 then some ⟨src, 3, (div >>> 3) - 1⟩
  else if div > 32 then some ⟨src, 2, (div >>> 2) - 1⟩
  else if div > 16 then some ⟨src, 1, (div >>> 1) - 1⟩
  else some ⟨src, 0, (div >>> 0) - 1⟩

/-- `HAL_Flashc_ConfigCCMU`. -/
def halFlashcConfigCCMU (hf dev clk : Nat) : Option MClock := configCCMU hf dev clk

/-- `SPI_Port`; the second one is on some chips only. -/
inductive SpiPort
  | spi0
  | spi1
  deriving DecidableEq

/-- `HAL_SPI_ConfigCCMU`, and the port whose clock it sets. -/
def halSpiConfigCCMU (port : SpiPort) (hf dev clk : Nat) : Option (SpiPort × MClock) :=
  (configCCMU hf dev clk).map (port, ·)

/-- `__mci_update_clock`. A division by zero gives zero, as the processor's does. -/
def mciUpdateClock (hf dev cclk : Nat) : MClock :=
  let src := if cclk > hf / 2 then ClkSrc.devclk else .hfclk
  let sclk := if cclk > hf / 2 then dev else hf
  let cclk := u32 (cclk * 2)
  let div := u32 (2 * sclk + cclk) / u32 (2 * cclk)
  let div := if div = 0 then 1 else div
  if div > 128 then ⟨src, 3, 16 - 1⟩
  else if div > 64 then ⟨src, 3, (div >>> 3) - 1⟩
  else if div > 32 then ⟨src, 2, (div >>> 2) - 1⟩
  else if div > 16 then ⟨src, 1, (div >>> 1) - 1⟩
  else ⟨src, 0, div - 1⟩

/-- `rom_HAL_SDC_Update_Clk`, where the clock program before it and the one behind it can fail: the
clock that is set, and the result. -/
def romHalSdcUpdateClk (hf dev clk : Nat) (before after : Bool) : Option MClock × Int :=
  if clk < 200000 then (none, -1)
  else if ¬before then (none, -1)
  else (some (mciUpdateClock hf dev clk), if after then 0 else -1)

/-! ## The SPI clock -/

/-- The fields of `CCTR`. -/
structure Cctr where
  drs : Bool
  cdr1 : Nat
  cdr2 : Nat
  deriving DecidableEq

inductive HalStatus
  | ok
  | error
  deriving DecidableEq

/-- The loop of `SPI_SetClkDiv` that counts the halvings of `div` in eight bits. -/
def halvings (n div : Nat) : Nat :=
  if div ≤ 1 then n else halvings ((n + 1) % 2 ^ 8) (div >>> 1)
termination_by div
decreasing_by
  rw [Nat.shiftRight_one]
  omega

/-- `SPI_SetClkDiv`. -/
def spiSetClkDiv (r : Cctr) (mclk sclk : Nat) : Cctr × HalStatus :=
  if mclk < sclk ∨ sclk = 0 then (r, .error)
  else
    let div := mclk / sclk
    let mod := mclk % sclk
    if mod = 0 ∧ div &&& (div - 1) = 0 then
      ({ r with drs := false, cdr1 := halvings 0 div &&& 0x0F }, .ok)
    else if mod = 0 ∧ div % 2 = 0 then
      let n := (div / 2 - 1) % 2 ^ 8
      ({ r with drs := true, cdr2 := n &&& 0xFF }, .ok)
    else (r, .error)

/-! ## The I2C clock -/

def i2cClkMMax : Nat := 15

def i2cClkNMax : Nat := 7

/-- The inner loop of `I2C_SetClockFreq`. -/
def clkMLoop (apbClkDiv10 clockFreq pow2N clkM : Nat) : Option Nat :=
  if clkM ≤ i2cClkMMax then
    if apbClkDiv10 / pow2N / (clkM + 1) ≤ clockFreq then some clkM
    else clkMLoop apbClkDiv10 clockFreq pow2N (clkM + 1)
  else none
termination_by i2cClkMMax + 1 - clkM

/-- The outer loop; `clkM` and `pow2N` have eight bits. -/
def clkNLoop (apbClkDiv10 clockFreq div pow2N clkN : Nat) : Option (Nat × Nat) :=
  if clkN ≤ i2cClkNMax then
    match clkMLoop apbClkDiv10 clockFreq pow2N ((div / pow2N + (2 ^ 8 - 1)) % 2 ^ 8) with
    | some clkM => some (clkM, clkN)
    | none => clkNLoop apbClkDiv10 clockFreq div (pow2N * 2 % 2 ^ 8) (clkN + 1)
  else none
termination_by i2cClkNMax + 1 - clkN

/-- `I2C_SetClockFreq`: what it programs, if anything. -/
def i2cSetClockFreq (apb clockFreq : Nat) : Option (Nat × Nat) :=
  let apbClkDiv10 := apb / 10
  let div := apbClkDiv10 / clockFreq
  if div = 0 then some (0, 0) else clkNLoop apbClkDiv10 clockFreq div 1 0

/-! ## What they should do -/

def ClkSrc.freq (hf dev : Nat) : ClkSrc → Nat
  | hfclk => hf
  | devclk => dev

/-- The fields are in range, and the clock is not above the limit. -/
def MClock.Within (c : MClock) (hf dev limit : Nat) : Prop :=
  c.divN < 4 ∧ c.divM < 16 ∧ c.src.freq hf dev ≤ limit * c.divider

instance (c : MClock) (hf dev limit : Nat) : Decidable (c.Within hf dev limit) :=
  inferInstanceAs (Decidable (_ ∧ _))

/-- The divider gives the clock exactly. -/
def Cctr.Gives (r : Cctr) (mclk sclk : Nat) : Prop :=
  if r.drs then mclk = sclk * (2 * (r.cdr2 + 1)) else mclk = sclk * 2 ^ r.cdr1

/-- The fields are in range, and the bus clock in whole hertz is not above the request. -/
def BusWithin (apb clockFreq : Nat) (c : Nat × Nat) : Prop :=
  c.1 ≤ i2cClkMMax ∧ c.2 ≤ i2cClkNMax ∧ apb / (10 * 2 ^ c.2 * (c.1 + 1)) ≤ clockFreq

/-! ## When they do -/

/-- By how much a divider is shifted. -/
def shiftOf (div : Nat) : Nat :=
  if div > 64 then 3 else if div > 32 then 2 else if div > 16 then 1 else 0

/-- The source is not above the request, or is too high for the dividers, or the sum of the two fits
a word and their quotient, rounded up, loses nothing by the shift. -/
def RoundsUp (source clk : Nat) : Prop :=
  let div := u32 (source + clk - 1) / clk
  source ≤ clk ∨ 16 * 8 < div ∨ source + clk ≤ 2 ^ 32 ∧ div % 2 ^ shiftOf div = 0

/-- The source is not above twice the request; or the request has more than 30 bits, and the divider
is none less than two; or nothing wraps, and the nearest divider is not below the quotient, is no
more than 128 and loses nothing by the shift. -/
def RoundsNearest (source clk : Nat) : Prop :=
  let div := (source + clk) / (2 * clk)
  source ≤ 2 * clk ∨
    2 ^ 30 ≤ clk ∧ 2 ≤ u32 (2 * source + u32 (clk * 2)) / u32 (2 * u32 (clk * 2)) ∨
    2 * source + 2 * clk < 2 ^ 32 ∧ div ≤ 128 ∧ div % 2 ^ shiftOf div = 0 ∧
      (source % (2 * clk) = 0 ∨ clk ≤ source % (2 * clk))

/-- The request does not divide the module clock, or their quotient fits its field: a power of two
as an exponent of four bits, another even one in eight. -/
def FitsField (mclk sclk : Nat) : Prop :=
  let div := mclk / sclk
  sclk ≠ 0 → mclk % sclk = 0 →
    if div &&& (div - 1) = 0 then div < 2 ^ 16 else div % 2 = 0 → div ≤ 2 ^ 9

/-- Nothing divides the clock enough, or the largest divider is not the only hope: the loops begin
at the quotient, which must not be above the range of M in the last round. -/
def ReachesRequest (apb clockFreq : Nat) : Prop :=
  ¬(17 * 128 * clockFreq ≤ apb / 10 ∧ apb / 10 / (128 * 16) ≤ clockFreq)

instance (source clk : Nat) : Decidable (RoundsUp source clk) := by
  unfold RoundsUp
  infer_instance

instance (source clk : Nat) : Decidable (RoundsNearest source clk) := by
  unfold RoundsNearest
  infer_instance

instance (mclk sclk : Nat) : Decidable (FitsField mclk sclk) := by
  unfold FitsField
  infer_instance

instance (apb clockFreq : Nat) : Decidable (ReachesRequest apb clockFreq) := instDecidableNot

/-! ## The shift -/

theorem orOne_pos {q : Nat} : 0 < if q = 0 then 1 else q := by
  split
  case isTrue => exact Nat.one_pos
  case isFalse hne => exact Nat.pos_of_ne_zero hne

theorem le_orOne {q : Nat} : q ≤ if q = 0 then 1 else q := by
  split
  case isTrue hzero => omega
  case isFalse => exact le_rfl

/-- What is left of a divider behind the shift. -/
def kept (div : Nat) : Nat := div - div % 2 ^ shiftOf div

/-- The fields of a divider that is not refused. -/
def fields (src : ClkSrc) (div : Nat) : MClock := ⟨src, shiftOf div, (div >>> shiftOf div) - 1⟩

theorem kept_le (div : Nat) : kept div ≤ div := Nat.sub_le ..

theorem kept_eq_iff {div : Nat} : kept div = div ↔ div % 2 ^ shiftOf div = 0 := by
  have hle := Nat.mod_le div (2 ^ shiftOf div)
  rw [kept]
  omega

theorem fields_spec (src : ClkSrc) {div : Nat} (hpos : 0 < div) (hle : div ≤ 128) :
    (fields src div).divN < 4 ∧ (fields src div).divM < 16 ∧
      (fields src div).divider = kept div := by
  simp only [fields, kept, MClock.divider, Nat.shiftRight_eq_div_pow, shiftOf]
  split
  case isTrue => omega
  case isFalse =>
    split
    case isTrue => omega
    case isFalse =>
      split
      case isTrue => omega
      case isFalse => omega

theorem kept_pos {div : Nat} (hpos : 0 < div) (hle : div ≤ 128) : 0 < kept div := by
  rw [← (fields_spec .hfclk hpos hle).2.2]
  exact Nat.mul_pos (Nat.two_pow_pos _) (Nat.succ_pos _)

theorem fields_within {src : ClkSrc} {div hf dev limit : Nat} (hpos : 0 < div) (hle : div ≤ 128) :
    (fields src div).Within hf dev limit ↔ src.freq hf dev ≤ limit * kept div := by
  obtain ⟨hn, hm, hdiv⟩ := fields_spec src hpos hle
  rw [MClock.Within, hdiv]
  exact ⟨fun h => h.2.2, fun h => ⟨hn, hm, h⟩⟩

/-! ## Rounding up -/

def source (hf dev clk : Nat) : Nat := if clk > hf then dev else hf

def src (hf clk : Nat) : ClkSrc := if clk > hf then .devclk else .hfclk

theorem src_freq {hf dev clk : Nat} : (src hf clk).freq hf dev = source hf dev clk := by
  rw [src, source]
  split
  · rfl
  · rfl

theorem configCCMU_eq {hf dev clk div : Nat}
    (hdiv : (if u32 (source hf dev clk + clk - 1) / clk = 0 then 1
      else u32 (source hf dev clk + clk - 1) / clk) = div) :
    configCCMU hf dev clk = if div > 128 then none else some (fields (src hf clk) div) := by
  have hcode : configCCMU hf dev clk =
      if div > 128 then none
      else if div > 64 then some ⟨src hf clk, 3, (div >>> 3) - 1⟩
      else if div > 32 then some ⟨src hf clk, 2, (div >>> 2) - 1⟩
      else if div > 16 then some ⟨src hf clk, 1, (div >>> 1) - 1⟩
      else some ⟨src hf clk, 0, (div >>> 0) - 1⟩ := by
    rw [← hdiv]
    rfl
  rw [hcode, fields, shiftOf]
  split_ifs
  all_goals rfl

/-- Behind the rounded up quotient, the smallest divider that is enough. -/
theorem roundsUp_iff {source clk div : Nat} (hpos : 0 < clk) (hsource : source < 2 ^ 32)
    (hclk : clk < 2 ^ 32)
    (hdiv : (if u32 (source + clk - 1) / clk = 0 then 1 else u32 (source + clk - 1) / clk) = div)
    (hle : div ≤ 128) : source ≤ clk * kept div ↔ RoundsUp source clk := by
  have hdivpos : 0 < div := hdiv ▸ orOne_pos
  have hkept := kept_pos hdivpos hle
  have hquot : u32 (source + clk - 1) / clk ≤ 128 := (hdiv ▸ le_orOne).trans hle
  have hceil (e : Nat) : (source + clk - 1) / clk ≤ e ↔ source ≤ clk * e :=
    ceilDiv_le_iff_le_mul hpos
  rw [RoundsUp]
  rcases Nat.lt_or_ge clk source with hlt | hsmall
  · have htwo : 1 < (source + clk - 1) / clk := by
      rw [← not_le, hceil]
      omega
    rcases Nat.lt_or_ge (source + clk - 1) (2 ^ 32) with hfits | hwraps
    · rw [u32_of_lt hfits] at hdiv hquot ⊢
      rw [if_neg (by omega)] at hdiv
      rw [← hceil, hdiv, ← kept_eq_iff]
      have hlow := kept_le div
      constructor
      · exact fun h => .inr (.inr ⟨by omega, by omega⟩)
      · rintro (h | h | ⟨-, h⟩)
        · omega
        · omega
        · exact h.ge
    · have hsum : u32 (source + clk - 1) = source + clk - 1 - 2 ^ 32 := by
        rw [u32]
        omega
      refine iff_of_false (fun h => ?_) ?_
      · have hle' : clk * kept div ≤ clk * div := Nat.mul_le_mul_left clk (kept_le div)
        rw [hsum] at hdiv
        split at hdiv
        case isTrue =>
          rw [← hdiv] at hle' h
          omega
        case isFalse =>
          have hmul := Nat.mul_div_le (source + clk - 1 - 2 ^ 32) clk
          rw [hdiv] at hmul
          omega
      · rintro (h | h | ⟨h, -⟩)
        · omega
        · omega
        · omega
  · exact iff_of_true (hsmall.trans (Nat.le_mul_of_pos_right clk hkept)) (.inl hsmall)

theorem configCCMU_within_iff {hf dev clk : Nat} (hhf : hf < 2 ^ 32) (hdev : dev < 2 ^ 32)
    (hclk : clk < 2 ^ 32) (hpos : 0 < clk) :
    (∀ c, configCCMU hf dev clk = some c → c.Within hf dev clk) ↔
      RoundsUp (source hf dev clk) clk := by
  have hsource : source hf dev clk < 2 ^ 32 := by
    rw [source]
    split
    · exact hdev
    · exact hhf
  generalize hdiv : (if u32 (source hf dev clk + clk - 1) / clk = 0 then 1
    else u32 (source hf dev clk + clk - 1) / clk) = div
  rw [configCCMU_eq hdiv]
  rcases Nat.lt_or_ge 128 div with hbig | hle
  · rw [if_pos hbig]
    refine iff_of_true (fun c hc => absurd hc.symm (Option.some_ne_none c)) (.inr (.inl ?_))
    split at hdiv
    case isTrue => omega
    case isFalse => exact hdiv ▸ hbig
  · have hdivpos : 0 < div := hdiv ▸ orOne_pos
    rw [if_neg (by omega), ← roundsUp_iff hpos hsource hclk hdiv hle]
    have hwithin : (fields (src hf clk) div).Within hf dev clk ↔ _ := fields_within hdivpos hle
    rw [src_freq] at hwithin
    rw [← hwithin]
    constructor
    · exact fun h => h _ rfl
    · rintro h c hc
      exact Option.some.inj hc ▸ h

/-! ## Rounding to the nearest -/

def sdSource (hf dev clk : Nat) : Nat := if clk > hf / 2 then dev else hf

def sdSrc (hf clk : Nat) : ClkSrc := if clk > hf / 2 then .devclk else .hfclk

theorem sdSrc_freq {hf dev clk : Nat} : (sdSrc hf clk).freq hf dev = sdSource hf dev clk := by
  rw [sdSrc, sdSource]
  split
  · rfl
  · rfl

/-- The quotient, in words. -/
def sdQuotient (source clk : Nat) : Nat :=
  u32 (2 * source + u32 (clk * 2)) / u32 (2 * u32 (clk * 2))

/-- A larger divider is replaced by the largest one. -/
def clamped (div : Nat) : Nat := if div > 128 then 128 else kept div

theorem mciUpdateClock_within {hf dev clk div limit : Nat}
    (hdiv : (if sdQuotient (sdSource hf dev clk) clk = 0 then 1
      else sdQuotient (sdSource hf dev clk) clk) = div) :
    (mciUpdateClock hf dev clk).Within hf dev limit ↔
      sdSource hf dev clk ≤ limit * clamped div := by
  have hcode : mciUpdateClock hf dev clk =
      if div > 128 then ⟨sdSrc hf clk, 3, 16 - 1⟩
      else if div > 64 then ⟨sdSrc hf clk, 3, (div >>> 3) - 1⟩
      else if div > 32 then ⟨sdSrc hf clk, 2, (div >>> 2) - 1⟩
      else if div > 16 then ⟨sdSrc hf clk, 1, (div >>> 1) - 1⟩
      else ⟨sdSrc hf clk, 0, div - 1⟩ := by
    rw [← hdiv]
    rfl
  have hdivpos : 0 < div := hdiv ▸ orOne_pos
  rw [← sdSrc_freq, clamped]
  rcases Nat.lt_or_ge 128 div with hbig | hle
  · rw [hcode, if_pos hbig, if_pos hbig]
    exact ⟨fun h => h.2.2, fun h => ⟨(by decide : 3 < 4), (by decide : 15 < 16), h⟩⟩
  · have hfields : mciUpdateClock hf dev clk = fields (sdSrc hf clk) div := by
      rw [hcode, if_neg (by omega : ¬div > 128), fields, shiftOf]
      split_ifs
      all_goals rfl
    rw [hfields, fields_within hdivpos hle, if_neg (by omega)]

theorem clamped_le (div : Nat) : clamped div ≤ div ∧ clamped div ≤ 128 := by
  have hle := kept_le div
  rw [clamped]
  split
  case isTrue => omega
  case isFalse => omega

theorem two_le_clamped_iff {div : Nat} : 2 ≤ clamped div ↔ 2 ≤ div := by
  rw [clamped, kept, shiftOf]
  split_ifs
  all_goals omega

theorem clamped_eq_iff {div : Nat} :
    clamped div = div ↔ div ≤ 128 ∧ div % 2 ^ shiftOf div = 0 := by
  rw [← kept_eq_iff, clamped]
  split
  case isTrue => omega
  case isFalse => omega

/-- A request of more than 30 bits: the source is less than twice as high as it should be. -/
theorem nearest_of_high {source clk div : Nat} (hsource : source < 2 ^ 32) (hclk : 2 ^ 30 ≤ clk)
    (hlt : 2 * clk < source)
    (hdiv : (if sdQuotient source clk = 0 then 1 else sdQuotient source clk) = div) :
    source ≤ 2 * clk * clamped div ↔ 2 ≤ sdQuotient source clk := by
  have htwo : 2 ≤ clamped div ↔ 2 ≤ sdQuotient source clk := by
    rw [two_le_clamped_iff, ← hdiv]
    split
    case isTrue => omega
    case isFalse => exact Iff.rfl
  rw [← htwo]
  constructor
  · intro h
    by_contra hone
    have hle : 2 * clk * clamped div ≤ 2 * clk * 1 := Nat.mul_le_mul_left _ (by omega)
    omega
  · intro h
    have hle : 2 * clk * 2 ≤ 2 * clk * clamped div := Nat.mul_le_mul_left _ h
    omega

/-- Where the sum wraps, the quotient is too small. -/
theorem nearest_of_wraps {source clk div : Nat} (hclk : clk < 2 ^ 30)
    (hlt : 2 * clk < source) (hwraps : 2 ^ 32 ≤ 2 * source + 2 * clk)
    (hdiv : (if sdQuotient source clk = 0 then 1 else sdQuotient source clk) = div) :
    ¬source ≤ 2 * clk * clamped div := by
  intro h
  have hle : 2 * clk * clamped div ≤ 2 * clk * div := Nat.mul_le_mul_left _ (clamped_le div).1
  have hquot : sdQuotient source clk = u32 (2 * source + 2 * clk) / (2 * (2 * clk)) := by
    rw [sdQuotient, u32_of_lt (by omega : clk * 2 < 2 ^ 32), Nat.mul_comm clk 2,
      u32_of_lt (by omega : 2 * (2 * clk) < 2 ^ 32)]
  have hmul := Nat.mul_div_le (u32 (2 * source + 2 * clk)) (2 * (2 * clk))
  rw [← hquot] at hmul
  have hsum : u32 (2 * source + 2 * clk) ≤ 2 * source + 2 * clk - 2 ^ 32 := by
    rw [u32]
    omega
  split at hdiv
  case isTrue =>
    rw [← hdiv] at hle h
    omega
  case isFalse =>
    rw [hdiv, Nat.mul_assoc] at hmul
    omega

/-- With nothing wrapped, the nearest divider is enough when it is not below the quotient. -/
theorem nearest_of_fits {source clk div : Nat} (hpos : 0 < clk)
    (hdiv : (source + clk) / (2 * clk) = div) :
    source ≤ 2 * clk * clamped div ↔
      div ≤ 128 ∧ div % 2 ^ shiftOf div = 0 ∧
        (source % (2 * clk) = 0 ∨ clk ≤ source % (2 * clk)) := by
  have hr := Nat.mod_lt source (by omega : 0 < 2 * clk)
  have hsplit := Nat.div_add_mod source (2 * clk)
  generalize source / (2 * clk) = t at hsplit
  generalize source % (2 * clk) = r at hr hsplit
  have hceil (e : Nat) : source ≤ 2 * clk * e ↔ if r = 0 then t ≤ e else t + 1 ≤ e := by
    split
    case isTrue hzero =>
      rw [← hsplit, hzero, Nat.add_zero]
      exact Nat.mul_le_mul_left_iff (by omega)
    case isFalse hne =>
      constructor
      · intro h
        by_contra hlow
        have hle : 2 * clk * e ≤ 2 * clk * t := Nat.mul_le_mul_left _ (by omega)
        omega
      · intro h
        have hle : 2 * clk * (t + 1) ≤ 2 * clk * e := Nat.mul_le_mul_left _ h
        rw [Nat.mul_succ] at hle
        omega
  have hnearest : div = t + (r + clk) / (2 * clk) := by
    rw [← hdiv, ← hsplit, Nat.add_assoc, Nat.add_comm, Nat.add_mul_div_left _ _ (by omega),
      Nat.add_comm]
  have hle := clamped_le div
  rw [hceil, ← and_assoc, ← clamped_eq_iff]
  rcases Nat.lt_or_ge r clk with hlow | hhigh
  · rw [Nat.div_eq_of_lt (by omega), Nat.add_zero] at hnearest
    split
    case isTrue hzero =>
      rw [← hnearest]
      exact ⟨fun h => ⟨by omega, .inl hzero⟩, fun h => h.1.ge⟩
    case isFalse hne =>
      exact iff_of_false (by omega) fun h => h.2.elim hne fun hge => by omega
  · have hone : (r + clk) / (2 * clk) = 1 := Nat.div_eq_of_lt_le (by omega) (by omega)
    rw [hone] at hnearest
    rw [if_neg (by omega), ← hnearest]
    exact ⟨fun h => ⟨by omega, .inr hhigh⟩, fun h => h.1.ge⟩

theorem roundsNearest_iff {source clk div : Nat} (hsource : source < 2 ^ 32) (hpos : 0 < clk)
    (hdiv : (if sdQuotient source clk = 0 then 1 else sdQuotient source clk) = div) :
    source ≤ 2 * clk * clamped div ↔ RoundsNearest source clk := by
  have hclamped : 0 < clamped div := by
    rw [clamped]
    split
    case isTrue => omega
    case isFalse hle => exact kept_pos (hdiv ▸ orOne_pos) (by omega)
  rw [RoundsNearest]
  rcases Nat.lt_or_ge (2 * clk) source with hlt | hsmall
  · rcases Nat.lt_or_ge clk (2 ^ 30) with hlow | hhigh
    · rcases Nat.lt_or_ge (2 * source + 2 * clk) (2 ^ 32) with hfits | hwraps
      · have hquot : sdQuotient source clk = (source + clk) / (2 * clk) := by
          rw [sdQuotient, u32_of_lt (by omega : clk * 2 < 2 ^ 32), Nat.mul_comm clk 2,
            u32_of_lt hfits, u32_of_lt (by omega : 2 * (2 * clk) < 2 ^ 32), ← Nat.mul_add,
            Nat.mul_div_mul_left _ _ Nat.two_pos]
        have hquotpos : 0 < (source + clk) / (2 * clk) := Nat.div_pos (by omega) (by omega)
        rw [hquot, if_neg (by omega)] at hdiv
        rw [nearest_of_fits hpos hdiv, hdiv]
        constructor
        · exact fun h => .inr (.inr ⟨hfits, h⟩)
        · rintro (h | h | h)
          · omega
          · omega
          · exact h.2
      · refine iff_of_false (nearest_of_wraps hlow hlt hwraps hdiv) ?_
        rintro (h | h | h)
        · omega
        · omega
        · omega
    · rw [nearest_of_high hsource hhigh hlt hdiv]
      constructor
      · exact fun h => .inr (.inl ⟨hhigh, h⟩)
      · rintro (h | h | h)
        · omega
        · exact h.2
        · omega
  · exact iff_of_true (hsmall.trans (Nat.le_mul_of_pos_right _ hclamped)) (.inl hsmall)

theorem romHalSdcUpdateClk_within_iff {hf dev clk : Nat} (hhf : hf < 2 ^ 32) (hdev : dev < 2 ^ 32) :
    (∀ before after c, (romHalSdcUpdateClk hf dev clk before after).1 = some c →
      c.Within hf dev (2 * clk)) ↔
      (200000 ≤ clk → RoundsNearest (sdSource hf dev clk) clk) := by
  have hsource : sdSource hf dev clk < 2 ^ 32 := by
    rw [sdSource]
    split
    · exact hdev
    · exact hhf
  have hwithin (hclk : 200000 ≤ clk) : (mciUpdateClock hf dev clk).Within hf dev (2 * clk) ↔
      RoundsNearest (sdSource hf dev clk) clk :=
    (mciUpdateClock_within rfl).trans (roundsNearest_iff hsource (by omega) rfl)
  constructor
  · intro h hclk
    refine (hwithin hclk).mp (h true true _ ?_)
    rw [romHalSdcUpdateClk, if_neg (by omega)]
    rfl
  · intro h before after c hc
    rw [romHalSdcUpdateClk] at hc
    split at hc
    case isTrue => exact absurd hc.symm (Option.some_ne_none c)
    case isFalse hclk =>
      split at hc
      case isTrue => exact absurd hc.symm (Option.some_ne_none c)
      case isFalse =>
        cases hc
        exact (hwithin (by omega)).mpr (h (by omega))

/-! ## The divider of the SPI clock -/

theorem halvings_two_pow {n k : Nat} (h : n + k < 2 ^ 8) : halvings n (2 ^ k) = n + k := by
  induction k generalizing n with
  | zero => rw [halvings, if_pos (by decide), Nat.add_zero]
  | succ k ih =>
    have hpos := Nat.two_pow_pos k
    have hhalf : 2 ^ (k + 1) >>> 1 = 2 ^ k := by
      rw [Nat.shiftRight_one, Nat.pow_succ, Nat.mul_div_cancel _ Nat.two_pos]
    rw [halvings, if_neg (by rw [Nat.pow_succ]; omega), hhalf, Nat.mod_eq_of_lt (by omega),
      ih (by omega)]
    omega

theorem spiSetClkDiv_gives_iff {mclk sclk : Nat} (hmclk : mclk < 2 ^ 32) (r : Cctr) :
    ((spiSetClkDiv r mclk sclk).2 = .ok → (spiSetClkDiv r mclk sclk).1.Gives mclk sclk) ↔
      FitsField mclk sclk := by
  rw [spiSetClkDiv, FitsField]
  dsimp only
  split
  case isTrue hrefused =>
    refine iff_of_true (fun h => HalStatus.noConfusion h) fun hne _ => ?_
    have hzero : mclk / sclk = 0 := Nat.div_eq_of_lt (hrefused.resolve_right hne)
    rw [hzero]
    decide
  case isFalse hadmitted =>
    have hpos : 0 < sclk := Nat.pos_of_ne_zero fun h => hadmitted (.inr h)
    have hdivpos : 0 < mclk / sclk := Nat.div_pos (by omega) hpos
    have hdivlt : mclk / sclk < 2 ^ 32 := (Nat.div_le_self ..).trans_lt hmclk
    have hwhole (hmod : mclk % sclk = 0) : mclk = sclk * (mclk / sclk) :=
      (Nat.mul_div_cancel' (Nat.dvd_of_mod_eq_zero hmod)).symm
    generalize mclk / sclk = div at *
    split
    case isTrue hpow =>
      obtain ⟨k, rfl⟩ := Nat.ne_zero_and_sub_one_eq_zero_iff_isPowerOfTwo.mp ⟨hdivpos.ne', hpow.2⟩
      have hk : k < 32 := (Nat.pow_lt_pow_iff_right (by omega)).mp hdivlt
      have hexp : halvings 0 (2 ^ k) &&& 0x0F = k % 2 ^ 4 := by
        rw [halvings_two_pow (by omega), Nat.zero_add]
        exact Nat.and_two_pow_sub_one_eq_mod k 4
      have hgives : Cctr.Gives { r with drs := false, cdr1 := halvings 0 (2 ^ k) &&& 0x0F } mclk sclk ↔
          k < 16 := by
        change mclk = sclk * 2 ^ (halvings 0 (2 ^ k) &&& 0x0F) ↔ _
        rw [hexp, hwhole hpow.1, Nat.mul_left_cancel_iff hpos, Nat.pow_right_inj (by omega)]
        omega
      rw [forall_prop_of_true rfl, hgives, ← Nat.pow_lt_pow_iff_right (by omega : 1 < 2)]
      exact ⟨fun h _ _ => by rw [if_pos hpow.2]; exact h, fun h => by
        have hlt := h hpos.ne' hpow.1
        rw [if_pos hpow.2] at hlt
        exact hlt⟩
    case isFalse hpow =>
      split
      case isTrue heven =>
        have hfield : (div / 2 - 1) % 2 ^ 8 &&& 0xFF = (div / 2 - 1) % 2 ^ 8 := by
          rw [Nat.and_two_pow_sub_one_eq_mod _ 8, Nat.mod_mod]
        have hgives : Cctr.Gives { r with drs := true, cdr2 := (div / 2 - 1) % 2 ^ 8 &&& 0xFF }
            mclk sclk ↔ div ≤ 2 ^ 9 := by
          change mclk = sclk * (2 * (((div / 2 - 1) % 2 ^ 8 &&& 0xFF) + 1)) ↔ _
          rw [hfield, hwhole heven.1, Nat.mul_left_cancel_iff hpos]
          omega
        have hnot : ¬div &&& (div - 1) = 0 := fun h => hpow ⟨heven.1, h⟩
        rw [forall_prop_of_true rfl, hgives, if_neg hnot]
        exact ⟨fun h _ _ _ => h, fun h => h hpos.ne' heven.1 heven.2⟩
      case isFalse hodd =>
        refine iff_of_true (fun h => HalStatus.noConfusion h) fun _ hmod => ?_
        rw [if_neg fun h => hpow ⟨hmod, h⟩]
        exact fun heven => absurd ⟨hmod, heven⟩ hodd

/-! ## The loops of the I2C clock -/

theorem clkMLoop_spec {a f p m : Nat} :
    (∀ M, clkMLoop a f p m = some M → m ≤ M ∧ M ≤ i2cClkMMax ∧ a / p / (M + 1) ≤ f) ∧
      ((∃ M, m ≤ M ∧ M ≤ i2cClkMMax ∧ a / p / (M + 1) ≤ f) → clkMLoop a f p m ≠ none) := by
  induction m using clkMLoop.induct a f p with
  | case1 m hle hslow =>
    rw [clkMLoop, if_pos hle, if_pos hslow]
    refine ⟨fun M hM => ?_, fun _ => Option.some_ne_none m⟩
    cases hM
    exact ⟨le_rfl, hle, hslow⟩
  | case2 m hle hfast ih =>
    rw [clkMLoop, if_pos hle, if_neg hfast]
    refine ⟨fun M hM => ?_, ?_⟩
    · obtain ⟨hlow, hrest⟩ := ih.1 M hM
      exact ⟨by omega, hrest⟩
    · rintro ⟨M, hlow, hhigh, hM⟩
      have hne : M ≠ m := by
        rintro rfl
        exact hfast hM
      exact ih.2 ⟨M, by omega, hhigh, hM⟩
  | case3 m hgt =>
    rw [clkMLoop, if_neg hgt]
    refine ⟨fun M hM => absurd hM.symm (Option.some_ne_none M), ?_⟩
    rintro ⟨M, hlow, hhigh, -⟩
    omega

/-- Where the inner loop begins in a round. -/
def start (div n : Nat) : Nat := (div / 2 ^ n + (2 ^ 8 - 1)) % 2 ^ 8

/-- A pair that the loops could stop at. -/
def Stops (a f div : Nat) (c : Nat × Nat) : Prop :=
  start div c.2 ≤ c.1 ∧ c.1 ≤ i2cClkMMax ∧ c.2 ≤ i2cClkNMax ∧ a / 2 ^ c.2 / (c.1 + 1) ≤ f

theorem clkNLoop_spec {a f div p n : Nat} (hp : n ≤ i2cClkNMax → p = 2 ^ n) :
    (∀ c, clkNLoop a f div p n = some c → Stops a f div c) ∧
      ((∃ c, n ≤ c.2 ∧ Stops a f div c) → clkNLoop a f div p n ≠ none) := by
  induction p, n using clkNLoop.induct a f div with
  | case1 p n hle M hM =>
    rw [clkNLoop, if_pos hle, hM]
    refine ⟨fun c hc => ?_, fun _ => Option.some_ne_none _⟩
    cases hc
    rw [hp hle] at hM
    obtain ⟨hlow, hhigh, hslow⟩ := clkMLoop_spec.1 M hM
    exact ⟨hlow, hhigh, hle, hslow⟩
  | case2 p n hle hnone ih =>
    rw [clkNLoop, if_pos hle, hnone]
    have hnext : n + 1 ≤ i2cClkNMax → p * 2 % 2 ^ 8 = 2 ^ (n + 1) := fun h => by
      have hlt : 2 ^ (n + 1) < 2 ^ 8 :=
        (Nat.pow_lt_pow_iff_right (by omega)).mpr (Nat.lt_succ_of_le h)
      rw [hp hle, ← Nat.pow_succ, Nat.mod_eq_of_lt hlt]
    refine ⟨(ih hnext).1, ?_⟩
    rintro ⟨⟨M, n'⟩, hn, hstops⟩
    rcases Nat.eq_or_lt_of_le hn with heq | hlt
    · obtain rfl : n = n' := heq
      rw [hp hle] at hnone
      exact absurd hnone (clkMLoop_spec.2 ⟨M, hstops.1, hstops.2.1, hstops.2.2.2⟩)
    · exact (ih hnext).2 ⟨_, hlt, hstops⟩
  | case3 p n hgt =>
    rw [clkNLoop, if_neg hgt]
    refine ⟨fun c hc => absurd hc.symm (Option.some_ne_none c), ?_⟩
    rintro ⟨c, hlow, -, -, hhigh, -⟩
    omega

theorem start_eq {div n q : Nat} (hq : div / 2 ^ n = q) (hpos : 0 < q) (hle : q ≤ 2 ^ 8) :
    start div n = q - 1 := by
  rw [start, hq]
  omega

/-- The rounds stop at the quotient at the latest. -/
theorem stops_of_quotient {a f n q : Nat} (hf : 0 < f) (hn : n ≤ i2cClkNMax)
    (hq : a / f / 2 ^ n = q) (hpos : 0 < q) (hle : q ≤ i2cClkMMax) : Stops a f (a / f) (q, n) := by
  have hlt : a < (q + 1) * (f * 2 ^ n) := by
    rw [Nat.div_div_eq_div_mul] at hq
    rw [← Nat.div_lt_iff_lt_mul (Nat.mul_pos hf (Nat.two_pow_pos n))]
    omega
  have hle' : q ≤ 15 := hle
  have hbegin : start (a / f) n = q - 1 := start_eq hq hpos (by omega)
  refine ⟨hbegin.trans_le (Nat.sub_le ..), hle, hn, ?_⟩
  change a / 2 ^ n / (q + 1) ≤ f
  rw [Nat.div_div_eq_div_mul]
  refine Nat.div_le_of_le_mul (hlt.le.trans_eq ?_)
  rw [Nat.mul_comm (q + 1), Nat.mul_comm f, Nat.mul_assoc, Nat.mul_assoc, Nat.mul_comm f]

/-- The quotient is not above the range of M in the last round. -/
theorem exists_stops {a f : Nat} (hf : 0 < f) (hdiv : 0 < a / f)
    (hlast : a < 17 * 128 * f) (hslow : a / (128 * 16) ≤ f) : ∃ c, Stops a f (a / f) c := by
  have hlt : a / f < 17 * 128 := (Nat.div_lt_iff_lt_mul hf).mpr hlast
  rcases Nat.lt_or_ge (a / f) 2048 with hsmall | hbig
  · have hlog : (a / f).log2 < 11 := (Nat.log2_lt hdiv.ne').mpr hsmall
    have hpos : 0 < a / f / 2 ^ ((a / f).log2 - 3) := by
      refine Nat.div_pos (le_trans ?_ (Nat.log2_self_le hdiv.ne')) (Nat.two_pow_pos _)
      exact Nat.pow_le_pow_right (by omega) (Nat.sub_le ..)
    have hle : a / f / 2 ^ ((a / f).log2 - 3) < 16 := by
      rw [Nat.div_lt_iff_lt_mul (Nat.two_pow_pos _)]
      calc a / f < 2 ^ ((a / f).log2 + 1) := Nat.lt_log2_self
        _ ≤ 2 ^ (4 + ((a / f).log2 - 3)) := Nat.pow_le_pow_right (by omega) (by omega)
        _ = 16 * 2 ^ ((a / f).log2 - 3) := Nat.pow_add ..
    have hn : (a / f).log2 - 3 ≤ 7 := by omega
    exact ⟨_, stops_of_quotient hf hn rfl hpos (Nat.le_of_lt_succ hle)⟩
  · refine ⟨(15, 7), ?_, le_rfl, le_rfl, ?_⟩
    · have hsixteen : a / f / 2 ^ 7 = 16 := by omega
      exact (start_eq hsixteen (by decide) (by decide)).le
    · change a / 2 ^ 7 / 16 ≤ f
      rw [Nat.div_div_eq_div_mul]
      exact hslow

/-- A quotient that is above the range of M in the last round, and so in each one. -/
theorem not_stops {a f : Nat} (hf : 0 < f) (hlast : 17 * 128 * f ≤ a) (c : Nat × Nat) :
    ¬Stops a f (a / f) c := by
  rintro ⟨hstart, hm, hn, hslow⟩
  have hm' : c.1 ≤ 15 := hm
  have hdiv : 17 * 128 ≤ a / f := (Nat.le_div_iff_mul_le hf).mpr hlast
  have hquot : 17 ≤ a / f / 2 ^ c.2 := by
    refine (Nat.le_div_iff_mul_le (Nat.two_pow_pos _)).mpr (le_trans ?_ hdiv)
    exact Nat.mul_le_mul_left 17 (Nat.pow_le_pow_right (by omega) hn)
  have hwraps : 257 ≤ a / f / 2 ^ c.2 := by
    rw [start] at hstart
    omega
  have hlow : 257 * (f * 2 ^ c.2) ≤ a := by
    rw [Nat.div_div_eq_div_mul] at hwraps
    exact (Nat.le_div_iff_mul_le (Nat.mul_pos hf (Nat.two_pow_pos _))).mp hwraps
  have hfast : f + 1 ≤ a / 2 ^ c.2 / (c.1 + 1) := by
    rw [Nat.div_div_eq_div_mul,
      Nat.le_div_iff_mul_le (Nat.mul_pos (Nat.two_pow_pos _) (Nat.succ_pos _))]
    calc (f + 1) * (2 ^ c.2 * (c.1 + 1)) ≤ 2 * f * (2 ^ c.2 * 16) :=
          Nat.mul_le_mul (by omega) (Nat.mul_le_mul_left _ (by omega))
      _ = 32 * (f * 2 ^ c.2) := by ring
      _ ≤ 257 * (f * 2 ^ c.2) := Nat.mul_le_mul_right _ (by omega)
      _ ≤ a := hlow
  omega

theorem stops_busWithin {apb f : Nat} {c : Nat × Nat} (h : Stops (apb / 10) f (apb / 10 / f) c) :
    BusWithin apb f c := by
  refine ⟨h.2.1, h.2.2.1, ?_⟩
  have hslow := h.2.2.2
  rw [Nat.div_div_eq_div_mul, Nat.div_div_eq_div_mul] at hslow
  rw [Nat.mul_assoc]
  exact hslow

theorem busWithin_slowest {apb f : Nat} {c : Nat × Nat} (h : BusWithin apb f c) :
    apb / 10 / (128 * 16) ≤ f := by
  refine le_trans ?_ h.2.2
  rw [Nat.div_div_eq_div_mul, Nat.mul_assoc]
  refine Nat.div_le_div_left (Nat.mul_le_mul_left 10 (Nat.mul_le_mul ?_ ?_)) ?_
  · exact Nat.pow_le_pow_right (by omega) h.2.1
  · exact Nat.succ_le_succ h.1
  · exact Nat.mul_pos (by omega) (Nat.mul_pos (Nat.two_pow_pos _) (Nat.succ_pos _))

theorem i2cSetClockFreq_within_iff {apb clockFreq : Nat} (hpos : 0 < clockFreq) :
    ((∃ c, BusWithin apb clockFreq c) →
        ∃ c, i2cSetClockFreq apb clockFreq = some c ∧ BusWithin apb clockFreq c) ↔
      ReachesRequest apb clockFreq := by
  have hloop : (∀ c, clkNLoop (apb / 10) clockFreq (apb / 10 / clockFreq) 1 0 = some c → _) ∧ _ :=
    clkNLoop_spec fun _ => rfl
  rw [i2cSetClockFreq, ReachesRequest]
  split
  case isTrue hzero =>
    have hlt := (Nat.div_eq_zero_iff_lt hpos).mp hzero
    refine iff_of_true (fun _ => ⟨_, rfl, Nat.zero_le _, Nat.zero_le _, ?_⟩) fun h => by omega
    change apb / (10 * 2 ^ 0 * (0 + 1)) ≤ clockFreq
    omega
  case isFalse hne =>
    constructor
    · rintro h ⟨hlast, hslow⟩
      rw [Nat.div_div_eq_div_mul] at hslow
      have hpair : BusWithin apb clockFreq (15, 7) := ⟨le_rfl, le_rfl, hslow⟩
      obtain ⟨c, hc, -⟩ := h ⟨_, hpair⟩
      exact not_stops hpos hlast c (hloop.1 c hc)
    · rintro h ⟨c, hc⟩
      have hslow := busWithin_slowest hc
      have hstops := exists_stops hpos (Nat.pos_of_ne_zero hne) (by omega) hslow
      obtain ⟨c, hstops⟩ := hstops
      obtain ⟨r, hr⟩ := Option.ne_none_iff_exists'.mp (hloop.2 ⟨c, Nat.zero_le _, hstops⟩)
      exact ⟨r, hr, stops_busWithin (hloop.1 r hr)⟩

/-! ## All of them -/

/-- For each of the dividers: the clock that it programs is not above the request, is the request,
or is the nearest that there is, exactly when the source and the request have no remainder that
rounds the wrong way, that the shift drops or that the field does not hold. -/
theorem clocks_iff {hf dev clk mclk sclk apb clockFreq : Nat} (hhf : hf < 2 ^ 32)
    (hdev : dev < 2 ^ 32) (hclk : clk < 2 ^ 32) (hpos : 0 < clk) (hmclk : mclk < 2 ^ 32)
    (hfreq : 0 < clockFreq) (port : SpiPort) (r : Cctr) :
    ((∀ c, halFlashcConfigCCMU hf dev clk = some c → c.Within hf dev clk) ↔
      RoundsUp (source hf dev clk) clk) ∧
    ((∀ c, halSpiConfigCCMU port hf dev clk = some c → c.1 = port ∧ c.2.Within hf dev clk) ↔
      RoundsUp (source hf dev clk) clk) ∧
    ((∀ before after c, (romHalSdcUpdateClk hf dev clk before after).1 = some c →
        c.Within hf dev (2 * clk)) ↔
      (200000 ≤ clk → RoundsNearest (sdSource hf dev clk) clk)) ∧
    (((spiSetClkDiv r mclk sclk).2 = .ok → (spiSetClkDiv r mclk sclk).1.Gives mclk sclk) ↔
      FitsField mclk sclk) ∧
    (((∃ c, BusWithin apb clockFreq c) →
        ∃ c, i2cSetClockFreq apb clockFreq = some c ∧ BusWithin apb clockFreq c) ↔
      ReachesRequest apb clockFreq) := by
  have hconfig := configCCMU_within_iff hhf hdev hclk hpos
  refine ⟨hconfig, ?_, romHalSdcUpdateClk_within_iff hhf hdev, spiSetClkDiv_gives_iff hmclk r,
    i2cSetClockFreq_within_iff hfreq⟩
  rw [← hconfig]
  constructor
  · exact fun h c hc => (h (port, c) (by rw [halSpiConfigCCMU, hc]; rfl)).2
  · intro h c hc
    obtain ⟨c', hc', rfl⟩ := Option.map_eq_some_iff.mp hc
    exact ⟨rfl, h c' hc'⟩

/-- A crystal of 24 MHz and a device clock of 192 MHz, with requests that are reached. -/
theorem clocks_reached :
    (∀ c, halFlashcConfigCCMU 24000000 192000000 48000000 = some c →
      c.Within 24000000 192000000 48000000) ∧
    (∀ c, halSpiConfigCCMU .spi0 24000000 192000000 48000000 = some c →
      c.1 = .spi0 ∧ c.2.Within 24000000 192000000 48000000) ∧
    (∀ before after c, (romHalSdcUpdateClk 24000000 192000000 48000000 before after).1 = some c →
      c.Within 24000000 192000000 (2 * 48000000)) ∧
    ((spiSetClkDiv ⟨false, 0, 0⟩ 48000000 8000000).2 = .ok →
      (spiSetClkDiv ⟨false, 0, 0⟩ 48000000 8000000).1.Gives 48000000 8000000) ∧
    ((∃ c, BusWithin 24000000 100000 c) →
      ∃ c, i2cSetClockFreq 24000000 100000 = some c ∧ BusWithin 24000000 100000 c) :=
  have h := clocks_iff (by decide : 24000000 < 2 ^ 32) (by decide : 192000000 < 2 ^ 32)
    (by decide : 48000000 < 2 ^ 32) (by decide) (by decide : 48000000 < 2 ^ 32)
    (by decide : 0 < 100000) .spi0 ⟨false, 0, 0⟩
  ⟨h.1.mpr (by decide), h.2.1.mpr (by decide), h.2.2.1.mpr (by decide),
    h.2.2.2.1.mpr (by decide), h.2.2.2.2.mpr (by decide)⟩

/-- A request of 400 kHz at a crystal of 26 MHz: the quotient 65 becomes 64. -/
theorem clocks_too_fast :
    ¬∀ (hf dev clk : Nat) (c : MClock), 0 < clk → halFlashcConfigCCMU hf dev clk = some c →
      c.Within hf dev clk := by
  intro h
  exact absurd (h 26000000 192000000 400000 ⟨.hfclk, 3, 7⟩ (by decide) (by decide)) (by decide)

end Clocks
end Chip
end XR806

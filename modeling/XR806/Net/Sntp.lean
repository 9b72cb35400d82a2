import XR806.Word
import Mathlib.Algebra.Order.Field.Basic
import Mathlib.Algebra.Order.Field.Rat
import Mathlib.Data.Rat.Cast.Order
import Mathlib.Tactic.Linarith
import Mathlib.Tactic.NormNum
import Mathlib.Tactic.Ring

/-!
# XR806.Net.Sntp

The time of an SNTP reply: its transmit time, and half of what the round trip took beyond the time
at the server. Fractions of a second become microseconds by a division by 4295, a little more than
2^32 / 10^6, so that up to eight microseconds are lost.

A round trip that begins and ends in the same second is not compensated, and a negative compensation
that exceeds the microseconds borrows 4295 seconds. The time that is stored is right to within two
microseconds exactly when neither that nor the losses make it wrong, and when `time_t` holds it
(`sntp_compensated_iff`).
-/

namespace XR806
namespace Net
namespace Sntp

/-! ## The arithmetic -/

/-- What an expression is as an `int`. -/
def int32 (x : Int) : Int := (x + 2 ^ 31) % 2 ^ 32 - 2 ^ 31

/-- What an expression is as a `uint32_t`. -/
def uint32 (x : Int) : Int := x % 2 ^ 32

/-- `time_t`, which the C library has with 64 bits or with 32. -/
inductive TimeT
  | wide
  | narrow

/-- A `uint32_t` as a `time_t`. -/
def TimeT.ofUInt32 : TimeT → Int → Int
  | wide, n => n
  | narrow, n => int32 n

/-- `struct timeval`. -/
structure Timeval where
  tvSec : Int
  tvUsec : Int
  deriving DecidableEq

/-- `ntp_packet`, what the client reads and writes of it, with the words as `ntohl` gives them. -/
structure NtpPacket where
  liVnMode : Nat
  origTmS : Int
  origTmF : Int
  rxTmS : Int
  rxTmF : Int
  txTmS : Int
  txTmF : Int

def sntpVersion : Nat := 3
def sntpModeMask : Nat := 7
def sntpModeClient : Nat := 3
def sntpModeServer : Nat := 4
def sntpModeBroadcast : Nat := 5

/-- Number of seconds between 1900 and 1970. -/
def diffSec1900_1970 : Int := 2208988800

/-- Number of seconds between 1970 and 2036. -/
def diffSec1970_2036 : Int := 2085978496

def sntpInitRequestPacket (localTime : Timeval) : NtpPacket where
  liVnMode := sntpVersion <<< 3 ||| sntpModeClient
  origTmS := 0
  origTmF := 0
  rxTmS := 0
  rxTmF := 0
  txTmS := uint32 localTime.tvSec
  txTmF := uint32 localTime.tvUsec

/-- `sntp_process_time`; `none` is its -1. Differences of `int` wrap, as the subtraction of the
processor does. -/
def sntpProcessTime (w : TimeT) (packet : NtpPacket) (localTime : Timeval) : Option Timeval :=
  if packet.liVnMode &&& sntpModeMask = sntpModeServer ∨
      packet.liVnMode &&& sntpModeMask = sntpModeBroadcast then
    let t0S := packet.origTmS
    let t0Us := packet.origTmF
    let t3S := uint32 localTime.tvSec
    let t3Us := uint32 localTime.tvUsec
    let t1S := packet.rxTmS
    let t1Us := packet.rxTmF / 4295
    let t2S := packet.txTmS
    let t2Us := packet.txTmF / 4295
    let transmitTime :=
      if t3S > t0S then
        let deta1 := int32 ((t3S - t0S) * 1000000 + (t3Us - t0Us))
        let deta2 := int32 ((t2S - t1S) * 1000000 + (t2Us - t1Us))
        (int32 (deta1 - deta2)).tdiv 2
      else 0
    let realTimeS := uint32 (t2S + uint32 (t2Us + transmitTime) / 1000000)
    let realTimeUs := uint32 (t2Us + transmitTime) % 1000000
    -- The top bit.
    let is1900Based := 2 ^ 31 ≤ realTimeS
    let realTimeS :=
      if is1900Based then uint32 (realTimeS - diffSec1900_1970)
      else uint32 (realTimeS + diffSec1970_2036)
    some ⟨w.ofUInt32 realTimeS, realTimeUs⟩
  else none

/-! ## The time that it should be -/

/-- The Unix time of the seconds of an NTP time, in the era of their top bit. -/
def unixTime (s : Int) : Int :=
  if 2 ^ 31 ≤ s then s - diffSec1900_1970 else s + diffSec1970_2036

/-- In microseconds. -/
def Timeval.us (t : Timeval) : ℚ := t.tvSec * 1000000 + t.tvUsec

def ntpUs (s f : Int) : ℚ := s * 1000000 + f * 1000000 / 2 ^ 32

namespace NtpPacket

variable (p : NtpPacket)

/-- The time at which the server received the request. -/
def t1 : ℚ := ntpUs p.rxTmS p.rxTmF

/-- The time at which the server sent the reply. -/
def t2 : ℚ := ntpUs p.txTmS p.txTmF

end NtpPacket

def Word (n : Int) : Prop := 0 ≤ n ∧ n < 2 ^ 32

instance (n : Int) : Decidable (Word n) := instDecidableAnd

structure Timeval.Valid (t : Timeval) : Prop where
  sec : Word t.tvSec
  usec : 0 ≤ t.tvUsec ∧ t.tvUsec < 1000000

theorem Timeval.Valid.usec_word {t : Timeval} (h : t.Valid) : Word t.tvUsec :=
  ⟨h.usec.1, h.usec.2.trans (by decide)⟩

/-- A reply to the request of `t0`, received at `t3`. -/
structure Exchange (p : NtpPacket) (t0 t3 : Timeval) : Prop where
  mode : p.liVnMode &&& sntpModeMask = sntpModeServer ∨
    p.liVnMode &&& sntpModeMask = sntpModeBroadcast
  echo : p.origTmS = (sntpInitRequestPacket t0).txTmS ∧
    p.origTmF = (sntpInitRequestPacket t0).txTmF
  sent : t0.Valid
  received : t3.Valid
  rx : Word p.rxTmS ∧ Word p.rxTmF
  tx : Word p.txTmS ∧ Word p.txTmF
  forth : t0.us ≤ t3.us
  served : p.t1 ≤ p.t2
  inside : p.t2 - p.t1 ≤ t3.us - t0.us
  short : t3.us - t0.us < 2 ^ 31

/-- The reply gives a time, and with the seconds in their era it is the time of the server and half
of what the round trip took beyond it, to within two microseconds; seconds are counted modulo
2^32. -/
def Compensated (w : TimeT) (p : NtpPacket) (t0 t3 : Timeval) : Prop :=
  ∃ time, sntpProcessTime w p t3 = some time ∧ 0 ≤ time.tvUsec ∧ time.tvUsec < 1000000 ∧
    ∃ s, Word s ∧ time.tvSec = unixTime s ∧ ∃ era : Int,
      |(s + era * 2 ^ 32) * 1000000 + time.tvUsec -
        (p.t2 + ((t3.us - t0.us) - (p.t2 - p.t1)) / 2)| ≤ 2

/-! ## When it is -/

/-- What is lost of a fraction, in microseconds. -/
def loss (f : Int) : ℚ := f * 1000000 / 2 ^ 32 - (f / 4295 : Int)

/-- What the round trip took beyond the time at the server, in the microseconds of the fractions. -/
def delay (p : NtpPacket) (t0 t3 : Timeval) : Int :=
  ((t3.tvSec - t0.tvSec) * 1000000 + (t3.tvUsec - t0.tvUsec)) -
    ((p.txTmS - p.rxTmS) * 1000000 + (p.txTmF / 4295 - p.rxTmF / 4295))

/-- With 64 bits the seconds are not before 1970, and with 32 they are not behind January 2038. -/
def TimeT.Holds : TimeT → Int → Prop
  | wide, s => s < 2 ^ 31 ∨ diffSec1900_1970 ≤ s
  | narrow, s => s < 2 ^ 31 - diffSec1970_2036 ∨ 2 ^ 31 ≤ s

instance (w : TimeT) (s : Int) : Decidable (w.Holds s) := by
  unfold TimeT.Holds
  split <;> infer_instance

def TimeT.Represents (w : TimeT) (us : Int) : Prop := w.Holds (us / 1000000 % 2 ^ 32)

instance (w : TimeT) (us : Int) : Decidable (w.Represents us) :=
  inferInstanceAs (Decidable (w.Holds _))

/-- In a round trip across seconds the microseconds at the server are no less than the half of a
negative delay, and the losses and an odd delay make no more than four microseconds together; in one
within a second the losses and the whole delay do. -/
def Accurate (w : TimeT) (p : NtpPacket) (t0 t3 : Timeval) : Prop :=
  if t0.tvSec < t3.tvSec then
    -1 ≤ 2 * (p.txTmF / 4295) + delay p t0 t3 ∧
      |loss p.rxTmF + loss p.txTmF + (delay p t0 t3).tmod 2| ≤ 4 ∧
      w.Represents (p.txTmS * 1000000 + p.txTmF / 4295 + (delay p t0 t3).tdiv 2)
  else
    loss p.rxTmF + loss p.txTmF + delay p t0 t3 ≤ 4 ∧
      w.Represents (p.txTmS * 1000000 + p.txTmF / 4295)

/-! ## Words -/

theorem uint32_of_word {n : Int} (h : Word n) : uint32 n = n := Int.emod_eq_of_lt h.1 h.2

theorem uint32_word {n : Int} : Word (uint32 n) :=
  ⟨Int.emod_nonneg n (by decide), Int.emod_lt_of_pos n (by decide)⟩

/-- A difference of two words that is small is right, although the words can wrap. -/
theorem int32_sub {a b : Int} (hlow : -2 ^ 31 ≤ a - b) (hhigh : a - b < 2 ^ 31) :
    int32 (int32 a - int32 b) = a - b := by
  rw [int32, int32, int32]
  omega

theorem tdiv_two_nonneg {n : Int} (h : 0 ≤ n) : n.tdiv 2 = n / 2 :=
  Int.tdiv_eq_ediv_of_nonneg h

theorem tdiv_two_neg {n : Int} (h : n < 0) : n.tdiv 2 = -(-n / 2) := by
  rw [← tdiv_two_nonneg (by omega), Int.neg_tdiv, Int.neg_neg]

/-! ## Rounding -/

theorem loss_nonneg {f : Int} (hf : Word f) : 0 ≤ loss f := by
  have hq : 4295 * (f / 4295) ≤ f := by omega
  have hcast : (4295 : ℚ) * (f / 4295 : Int) ≤ f := by exact_mod_cast hq
  have hpos : (0 : ℚ) ≤ (f / 4295 : Int) := by
    have := hf.1
    exact_mod_cast (by omega : 0 ≤ f / 4295)
  rw [loss]
  linarith

theorem loss_le {f : Int} (hf : Word f) : loss f ≤ 9 := by
  have hq : f ≤ 4295 * (f / 4295) + 4294 := by omega
  have hcast : (f : ℚ) ≤ 4295 * (f / 4295 : Int) + 4294 := by exact_mod_cast hq
  have hle : ((f / 4295 : Int) : ℚ) ≤ 999992 := by
    have := hf.2
    exact_mod_cast (by omega : f / 4295 ≤ 999992)
  rw [loss]
  linarith

theorem ntpUs_eq {s f : Int} :
    ntpUs s f = s * 1000000 + (f / 4295 : Int) + loss f := by
  rw [ntpUs, loss]
  ring

theorem ntpUs_le_iff {s f s' f' : Int} :
    ntpUs s f ≤ ntpUs s' f' ↔ s * 2 ^ 32 + f ≤ s' * 2 ^ 32 + f' := by
  have hscale (s f : Int) : ntpUs s f = (s * 2 ^ 32 + f : Int) * (1000000 / 2 ^ 32) := by
    rw [ntpUs]
    push_cast
    ring
  rw [hscale, hscale, mul_le_mul_iff_of_pos_right (by norm_num), Int.cast_le]

/-! ## A round trip -/

def elapsed (t0 t3 : Timeval) : Int :=
  (t3.tvSec - t0.tvSec) * 1000000 + (t3.tvUsec - t0.tvUsec)

/-- The time at the server, in the microseconds of the fractions. -/
def atServer (p : NtpPacket) : Int :=
  (p.txTmS - p.rxTmS) * 1000000 + (p.txTmF / 4295 - p.rxTmF / 4295)

theorem elapsed_cast {t0 t3 : Timeval} : (elapsed t0 t3 : ℚ) = t3.us - t0.us := by
  rw [elapsed, Timeval.us, Timeval.us]
  push_cast
  ring

theorem atServer_cast {p : NtpPacket} :
    (atServer p : ℚ) = p.t2 - p.t1 - loss p.txTmF + loss p.rxTmF := by
  rw [atServer, NtpPacket.t1, NtpPacket.t2, ntpUs_eq, ntpUs_eq]
  push_cast
  ring

namespace Exchange

variable {w : TimeT} {p : NtpPacket} {t0 t3 : Timeval}

theorem elapsed_lt (h : Exchange p t0 t3) : elapsed t0 t3 < 2 ^ 31 := by
  have hq : ((elapsed t0 t3 : Int) : ℚ) < (2 ^ 31 : Int) := by
    rw [elapsed_cast]
    exact_mod_cast h.short
  exact_mod_cast hq

theorem atServer_nonneg (h : Exchange p t0 t3) : 0 ≤ atServer p := by
  have hle := ntpUs_le_iff.mp h.served
  have hrx := h.rx.2
  have htx := h.tx.2
  rw [Word] at hrx htx
  rw [atServer]
  omega

/-- The losses of the two fractions are all that the delay can lack. -/
theorem neg_ten_lt_delay (h : Exchange p t0 t3) : -10 < delay p t0 t3 := by
  have hq : ((-10 : Int) : ℚ) < (delay p t0 t3 : Int) := by
    change _ < ((elapsed t0 t3 - atServer p : Int) : ℚ)
    rw [Int.cast_sub, elapsed_cast, atServer_cast]
    push_cast
    linarith [h.inside, loss_le h.rx.2, loss_nonneg h.tx.2]
  exact_mod_cast hq

theorem delay_lt (h : Exchange p t0 t3) : delay p t0 t3 < 2 ^ 31 := by
  have h1 := h.elapsed_lt
  have h2 := h.atServer_nonneg
  change elapsed t0 t3 - atServer p < 2 ^ 31
  omega

/-- What `transmit_time` is. -/
def compensation (p : NtpPacket) (t0 t3 : Timeval) : Int :=
  if t0.tvSec < t3.tvSec then (delay p t0 t3).tdiv 2 else 0

/-- The seconds as the time that is stored. -/
def stamp (s : Int) : Int :=
  if 2 ^ 31 ≤ s then uint32 (s - diffSec1900_1970) else uint32 (s + diffSec1970_2036)

/-- The time that is stored, from the microseconds behind the compensation. -/
def reply (w : TimeT) (s us : Int) : Timeval :=
  ⟨w.ofUInt32 (stamp (uint32 (s + us / 1000000))), us % 1000000⟩

theorem sntpProcessTime_eq (h : Exchange p t0 t3) :
    sntpProcessTime w p t3 =
      some (reply w p.txTmS (uint32 (p.txTmF / 4295 + compensation p t0 t3))) := by
  have hcomp : (if t3.tvSec > t0.tvSec then
      (int32 (int32 (elapsed t0 t3) - int32 (atServer p))).tdiv 2 else 0) =
        compensation p t0 t3 := by
    have hlow := h.neg_ten_lt_delay
    have hhigh := h.delay_lt
    change -10 < elapsed t0 t3 - atServer p at hlow
    change elapsed t0 t3 - atServer p < _ at hhigh
    rw [int32_sub (by omega) hhigh]
    rfl
  rw [← hcomp, sntpProcessTime, if_pos h.mode, h.echo.1, h.echo.2]
  dsimp only [sntpInitRequestPacket]
  rw [uint32_of_word h.sent.sec, uint32_of_word h.sent.usec_word, uint32_of_word h.received.sec,
    uint32_of_word h.received.usec_word]
  rfl

/-- The time that should be stored. -/
def target (p : NtpPacket) (t0 t3 : Timeval) : ℚ :=
  p.t2 + ((t3.us - t0.us) - (p.t2 - p.t1)) / 2

theorem target_eq :
    target p t0 t3 = (p.txTmS * 1000000 + p.txTmF / 4295 : Int) +
      (loss p.rxTmF + loss p.txTmF + delay p t0 t3) / 2 := by
  change _ = _ + (_ + ((elapsed t0 t3 - atServer p : Int) : ℚ)) / 2
  rw [Int.cast_sub, elapsed_cast, atServer_cast, target, NtpPacket.t2, ntpUs_eq]
  push_cast
  ring

theorem stamp_eq_iff {s s' : Int} (hs : Word s) (hs' : Word s') :
    w.ofUInt32 (stamp s) = unixTime s' ↔ s' = s ∧ w.Holds s := by
  rw [Word] at hs hs'
  rw [stamp, unixTime]
  cases w with
  | wide =>
    rw [TimeT.ofUInt32, TimeT.Holds, uint32, uint32, diffSec1900_1970, diffSec1970_2036]
    split
    all_goals split
    all_goals omega
  | narrow =>
    rw [TimeT.ofUInt32, TimeT.Holds, int32, uint32, uint32, diffSec1900_1970, diffSec1970_2036]
    split
    all_goals split
    all_goals omega

/-- Two microseconds modulo 2^32 seconds are two microseconds of what is less than those. -/
theorem near_iff (k : Int) {x : ℚ} (hx : |x| < 4000000000000000) :
    (∃ era : Int, |(era + k) * 2 ^ 32 * 1000000 - x| ≤ 2) ↔ |x| ≤ 2 := by
  obtain ⟨hlow, hhigh⟩ := abs_lt.mp hx
  constructor
  · rintro ⟨era, hera⟩
    obtain ⟨hl, hh⟩ := abs_le.mp hera
    have hzero : era + k = 0 := by
      rcases Int.lt_trichotomy (era + k) 0 with hneg | hzero | hpos
      · have hle : ((era + k : Int) : ℚ) ≤ (-1 : Int) := Int.cast_le.mpr (by omega)
        push_cast at hle
        linarith
      · exact hzero
      · have hle : ((1 : Int) : ℚ) ≤ (era + k : Int) := Int.cast_le.mpr (by omega)
        push_cast at hle
        linarith
    have hcast : ((era : ℚ) + k) = 0 := by exact_mod_cast hzero
    rw [hcast, zero_mul, zero_mul, zero_sub, abs_neg] at hera
    exact hera
  · intro hle
    refine ⟨-k, ?_⟩
    push_cast
    rw [neg_add_cancel, zero_mul, zero_mul, zero_sub, abs_neg]
    exact hle

/-- The condition on the microseconds behind the compensation, as they are in a word. -/
theorem compensated_iff (h : Exchange p t0 t3) {us : Int}
    (hus : uint32 (p.txTmF / 4295 + compensation p t0 t3) = us)
    (hx : |target p t0 t3 - (p.txTmS * 1000000 + us : Int)| < 4000000000000000) :
    Compensated w p t0 t3 ↔ w.Represents (p.txTmS * 1000000 + us) ∧
      |target p t0 t3 - (p.txTmS * 1000000 + us : Int)| ≤ 2 := by
  have hholds : w.Represents (p.txTmS * 1000000 + us) ↔
      w.Holds (uint32 (p.txTmS + us / 1000000)) := by
    have hsec : (p.txTmS * 1000000 + us) / 1000000 = p.txTmS + us / 1000000 := by omega
    rw [TimeT.Represents, hsec]
    rfl
  -- The word of the seconds drops these.
  obtain ⟨k, hk⟩ : ∃ k : Int, p.txTmS * 1000000 + us =
      uint32 (p.txTmS + us / 1000000) * 1000000 + us % 1000000 - k * 2 ^ 32 * 1000000 :=
    ⟨-((p.txTmS + us / 1000000) / 2 ^ 32), by
      rw [uint32]
      omega⟩
  have hera (era : Int) :
      ((uint32 (p.txTmS + us / 1000000) : Int) + era * 2 ^ 32 : ℚ) * 1000000 +
          (us % 1000000 : Int) - target p t0 t3 =
        (era + k) * 2 ^ 32 * 1000000 - (target p t0 t3 - (p.txTmS * 1000000 + us : Int)) := by
    rw [hk]
    push_cast
    ring
  rw [hholds]
  constructor
  · rintro ⟨time, htime, -, -, s, hs, hunix, era, hnear⟩
    rw [sntpProcessTime_eq h, hus] at htime
    cases htime
    obtain ⟨rfl, hrep⟩ := (stamp_eq_iff uint32_word hs).mp hunix
    refine ⟨hrep, (near_iff k hx).mp ⟨era, ?_⟩⟩
    rw [← hera]
    exact hnear
  · rintro ⟨hrep, hle⟩
    obtain ⟨era, hnear⟩ := (near_iff k hx).mpr hle
    rw [← hera] at hnear
    exact ⟨_, (sntpProcessTime_eq h).trans (congrArg (fun us => some (reply w p.txTmS us)) hus),
      Int.emod_nonneg _ (by decide), Int.emod_lt_of_pos _ (by decide), _, uint32_word,
      (stamp_eq_iff uint32_word uint32_word).mpr ⟨rfl, hrep⟩, era, hnear⟩

theorem compensation_bounds (h : Exchange p t0 t3) :
    -5 ≤ compensation p t0 t3 ∧ compensation p t0 t3 < 2 ^ 30 := by
  have hlow := h.neg_ten_lt_delay
  have hhigh := h.delay_lt
  rw [compensation]
  split
  · rcases Int.lt_or_le (delay p t0 t3) 0 with hneg | hpos
    · rw [tdiv_two_neg hneg]
      omega
    · rw [tdiv_two_nonneg hpos]
      omega
  · omega

/-- Twice the distance of the time that should be stored. -/
theorem two_mul_target_sub (p : NtpPacket) (t0 t3 : Timeval) (n : Int) :
    2 * (target p t0 t3 - (p.txTmS * 1000000 + (p.txTmF / 4295 + n) : Int)) =
      loss p.rxTmF + loss p.txTmF + (delay p t0 t3 - 2 * n : Int) := by
  rw [target_eq]
  push_cast
  ring

theorem losses (h : Exchange p t0 t3) :
    0 ≤ loss p.rxTmF + loss p.txTmF ∧ loss p.rxTmF + loss p.txTmF ≤ 18 := by
  have h1 := loss_le h.rx.2
  have h2 := loss_le h.tx.2
  exact ⟨add_nonneg (loss_nonneg h.rx.2) (loss_nonneg h.tx.2), by linarith⟩

theorem target_sub_lt (h : Exchange p t0 t3) {n : Int} (hlow : -10000000000 ≤ delay p t0 t3 - 2 * n)
    (hhigh : delay p t0 t3 - 2 * n ≤ 10000000000) :
    |target p t0 t3 - (p.txTmS * 1000000 + (p.txTmF / 4295 + n) : Int)| < 4000000000000000 := by
  have htwice := two_mul_target_sub p t0 t3 n
  have hlow' : ((-10000000000 : Int) : ℚ) ≤ (delay p t0 t3 - 2 * n : Int) := Int.cast_le.mpr hlow
  have hhigh' : ((delay p t0 t3 - 2 * n : Int) : ℚ) ≤ (10000000000 : Int) :=
    Int.cast_le.mpr hhigh
  have hlosses := h.losses
  norm_num at hlow' hhigh'
  rw [abs_lt]
  push_cast at *
  exact ⟨by linarith, by linarith⟩

theorem not_compensated (h : Exchange p t0 t3)
    (hborrow : p.txTmF / 4295 + compensation p t0 t3 < 0) : ¬Compensated w p t0 t3 := by
  have hc := h.compensation_bounds
  have hd := h.neg_ten_lt_delay
  have hd' := h.delay_lt
  have hf := h.tx.2.1
  have hus : uint32 (p.txTmF / 4295 + compensation p t0 t3) =
      p.txTmF / 4295 + (compensation p t0 t3 + 2 ^ 32) := by
    rw [uint32]
    omega
  have htwice := two_mul_target_sub p t0 t3 (compensation p t0 t3 + 2 ^ 32)
  have hfar : ((delay p t0 t3 - 2 * (compensation p t0 t3 + 2 ^ 32) : Int) : ℚ) ≤ (-23 : Int) :=
    Int.cast_le.mpr (by omega)
  have hlosses := h.losses
  rw [h.compensated_iff hus (h.target_sub_lt (by omega) (by omega))]
  intro hle
  have hnear := (abs_le.mp hle.2).1
  push_cast at *
  linarith

theorem compensated_iff_of_nonneg (h : Exchange p t0 t3)
    (hnone : 0 ≤ p.txTmF / 4295 + compensation p t0 t3) :
    Compensated w p t0 t3 ↔
      w.Represents (p.txTmS * 1000000 + (p.txTmF / 4295 + compensation p t0 t3)) ∧
        |loss p.rxTmF + loss p.txTmF + (delay p t0 t3 - 2 * compensation p t0 t3 : Int)| ≤ 4 := by
  have hc := h.compensation_bounds
  have hd := h.neg_ten_lt_delay
  have hd' := h.delay_lt
  have htx := h.tx.2.2
  have hus : uint32 (p.txTmF / 4295 + compensation p t0 t3) =
      p.txTmF / 4295 + compensation p t0 t3 := by
    rw [uint32]
    omega
  rw [h.compensated_iff hus (h.target_sub_lt (by omega) (by omega)), ← two_mul_target_sub, abs_mul,
    abs_two]
  refine and_congr_right fun _ => ⟨fun hle => ?_, fun hle => ?_⟩
  · linarith
  · linarith

end Exchange

/-- A reply to a request of the client gives the time of the server and half of the delay, to
within two microseconds and in the right era, exactly when the compensation does not borrow, the
losses are small, and `time_t` holds the time. -/
theorem sntp_compensated_iff {w : TimeT} {p : NtpPacket} {t0 t3 : Timeval} (h : Exchange p t0 t3) :
    Compensated w p t0 t3 ↔ Accurate w p t0 t3 := by
  have hf := h.tx.2.1
  rw [Accurate]
  split
  case isTrue hlater =>
    have hcomp : Exchange.compensation p t0 t3 = (delay p t0 t3).tdiv 2 := if_pos hlater
    have hborrow : 0 ≤ p.txTmF / 4295 + (delay p t0 t3).tdiv 2 ↔
        -1 ≤ 2 * (p.txTmF / 4295) + delay p t0 t3 := by
      rcases Int.lt_or_le (delay p t0 t3) 0 with hneg | hpos
      · rw [tdiv_two_neg hneg]
        omega
      · rw [tdiv_two_nonneg hpos]
        omega
    have hodd : (delay p t0 t3).tmod 2 = delay p t0 t3 - 2 * (delay p t0 t3).tdiv 2 :=
      Int.tmod_def _ _
    rw [← hborrow, hodd, ← hcomp, Int.add_assoc]
    rcases Int.lt_or_le (p.txTmF / 4295 + Exchange.compensation p t0 t3) 0 with hneg | hnone
    · exact iff_of_false (h.not_compensated hneg) fun hacc => absurd hacc.1 (by omega)
    · rw [h.compensated_iff_of_nonneg hnone]
      exact ⟨fun hc => ⟨hnone, hc.2, hc.1⟩, fun hacc => ⟨hacc.2.2, hacc.2.1⟩⟩
  case isFalse hsame =>
    have hcomp : Exchange.compensation p t0 t3 = 0 := if_neg hsame
    have hnone : 0 ≤ p.txTmF / 4295 + Exchange.compensation p t0 t3 := by omega
    -- The server took no longer than the round trip.
    have hpos : 0 ≤ loss p.rxTmF + loss p.txTmF + delay p t0 t3 := by
      change 0 ≤ _ + ((elapsed t0 t3 - atServer p : Int) : ℚ)
      rw [Int.cast_sub, elapsed_cast, atServer_cast]
      linarith [h.inside, loss_nonneg h.tx.2]
    rw [h.compensated_iff_of_nonneg hnone, hcomp, Int.mul_zero, Int.sub_zero, Int.add_zero,
      abs_of_nonneg hpos]
    exact and_comm

/-- A round trip of a fifth of a second across a second, half of which was at the server. -/
theorem sntp_compensated_across :
    Compensated .wide ⟨4, 100, 900000, 3900000000, 0, 3900000000, 429496730⟩
      ⟨100, 900000⟩ ⟨101, 100000⟩ := by
  refine (sntp_compensated_iff ?_).mpr ((if_pos (by decide)).mpr ⟨by decide, ?_, by decide⟩)
  · constructor
    case mode => decide
    case echo => decide
    case sent => exact ⟨by norm_num [Word], by decide⟩
    case received => exact ⟨by norm_num [Word], by decide⟩
    case rx => norm_num [Word]
    case tx => norm_num [Word]
    all_goals norm_num [Timeval.us, NtpPacket.t1, NtpPacket.t2, ntpUs]
  · norm_num [loss, delay, abs_le, Int.tmod]

/-- A round trip of half a second within a second is not compensated. -/
theorem sntp_not_compensated :
    ¬∀ (w : TimeT) (p : NtpPacket) (t0 t3 : Timeval), Exchange p t0 t3 →
      Compensated w p t0 t3 := by
  intro h
  have hexchange : Exchange ⟨4, 100, 0, 3900000000, 0, 3900000000, 0⟩ ⟨100, 0⟩ ⟨100, 500000⟩ := by
    constructor
    case mode => decide
    case echo => decide
    case sent => exact ⟨by norm_num [Word], by decide⟩
    case received => exact ⟨by norm_num [Word], by decide⟩
    case rx => norm_num [Word]
    case tx => norm_num [Word]
    all_goals norm_num [Timeval.us, NtpPacket.t1, NtpPacket.t2, ntpUs]
  have hnear := (hexchange.compensated_iff_of_nonneg (by decide)).mp (h .wide _ _ _ hexchange)
  refine absurd (abs_le.mp hnear.2).2 ?_
  norm_num [loss, delay, Exchange.compensation]

end Sntp
end Net
end XR806

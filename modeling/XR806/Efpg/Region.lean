import XR806.Efpg.Efuse
import XR806.Trans.Run

/-!
# XR806.Efpg.Region

The regions of the eFuse that can be written more than once: a run of slots, and a flag fuse for
each slot. The slot that counts is the last one before the first clear flag.

A write burns the flag of a slot before the slot holds the data. Where the data then does not get
into the slot, the write fails and the reader finds the slot (`flag_before_data`); where it does
get there, or no fuse burns, calls answer as a store does (`region_ok`).
-/

namespace XR806
namespace Efpg

open Bits Trans

inductive Ack
  | ok
  | rwErr
  | nodataErr
  | diErr
deriving DecidableEq, Repr

structure RegionInfo where
  flagStart : Nat
  flagBits : Nat
  dataStart : Nat
  dataBits : Nat

namespace RegionInfo

def bufLen (info : RegionInfo) : Nat := (info.dataBits + 7) / 8

end RegionInfo

/-- `while ((flag & 0x1) != 0)` over the eight bits of `flag`: the shifts made. -/
def countFlags : Nat → Nat → Nat
  | 0, _ => 0
  | bits + 1, flag => if flag &&& 1 ≠ 0 then countFlags bits (flag >>> 1) + 1 else 0

/-- The flag byte, without the bits that are not flags. -/
def flagOf (info : RegionInfo) (buf : List UInt8) : Nat :=
  (buf.getD 0 0).toNat &&& (1 <<< info.flagBits - 1)

def efpgReadRegion (info : RegionInfo) (f : Fuses) : Except Ack (List UInt8) :=
  match halEfuseRead f info.flagStart info.flagBits with
  | none => .error .rwErr
  | some buf =>
    let flag := flagOf info buf
    if flag = 0 ∨ flag > 1 <<< info.flagBits - 1 then .error .nodataErr
    else
      let idx : Int := countFlags 8 flag
      let startBit := ((info.dataStart + (idx - 1) * info.dataBits) % 2 ^ 32).toNat
      match halEfuseRead f startBit info.dataBits with
      | none => .error .rwErr
      | some data => .ok data

/-- Burns the flag of a slot and reads it back. -/
def efpgSetFlag (burns : Burns) (info : RegionInfo) (f : Fuses) (idx : Nat) : Bool × Fuses :=
  let wTmp := UInt8.ofNat (1 <<< idx)
  match halEfuseWrite burns f info.flagStart info.flagBits [wTmp] with
  | none => (false, f)
  | some (f, wTmps) =>
    match halEfuseRead f info.flagStart info.flagBits with
    | none => (false, f)
    | some buf => (wTmps.getD 0 0 == buf.getD 0 0 &&& wTmps.getD 0 0, f)

/-- The bits that a slot has and the new data does not. -/
def compareOld (info : RegionInfo) (buf data : List UInt8) : Bool :=
  (List.range info.bufLen).all fun i =>
    (buf.getD i 0 ^^^ data.getD i 0) &&& buf.getD i 0 == 0

/-- Compares the data of a slot with the new data, and burns the new data and reads it back where
the slot has no other bits. -/
def efpgTrySlot (burns : Burns) (info : RegionInfo) (f : Fuses) (idx : Nat) (data : List UInt8) :
    Bool × Fuses × List UInt8 :=
  let startBit := info.dataStart + idx * info.dataBits
  match halEfuseRead f startBit info.dataBits with
  | none => (false, f, data)
  | some buf =>
    let buf := if info.dataBits % 8 ≠ 0 then
        buf.modify (info.bufLen - 1) (· &&& UInt8.ofNat (1 <<< (info.dataBits % 8) - 1))
      else buf
    if compareOld info buf data then
      match halEfuseWrite burns f startBit info.dataBits data with
      | none => (false, f, data)
      | some (f, data) =>
        match halEfuseRead f startBit info.dataBits with
        | none => (false, f, data)
        | some buf => (memcmpEq data buf info.bufLen, f, data)
    else (false, f, data)

/-- The slots from `idx` on. The flags that are left bound the rounds. -/
def efpgWriteSlots (burns : Burns) (info : RegionInfo) :
    Nat → Nat → Fuses → List UInt8 → Ack × Fuses
  | 0, _, f, _ => (.nodataErr, f)
  | rounds + 1, idx, f, data =>
    if idx < info.flagBits then
      match efpgTrySlot burns info f idx data with
      | (true, f, _) => (.ok, f)
      | (false, f, data) =>
        if idx + 1 > info.flagBits - 1 then (.diErr, f)
        else
          match efpgSetFlag burns info f (idx + 1) with
          | (false, f) => (.rwErr, f)
          | (true, f) => efpgWriteSlots burns info rounds (idx + 1) f data
    else (.nodataErr, f)

/-- A fuse is asked to burn at most once in a call, so that one `Burns` serves the whole of it. -/
def efpgWriteRegion (burns : Burns) (info : RegionInfo) (f : Fuses) (data : List UInt8) :
    Ack × Fuses :=
  match halEfuseRead f info.flagStart info.flagBits with
  | none => (.rwErr, f)
  | some buf =>
    let flag := flagOf info buf
    if flag < 1 <<< info.flagBits then
      if flag = 0 then
        match efpgSetFlag burns info f 0 with
        | (false, f) => (.rwErr, f)
        | (true, f) => efpgWriteSlots burns info info.flagBits 0 f data
      else
        -- `idx` has 8 bits: with the first flag clear it becomes 255, which is no slot
        let idx := (countFlags 8 flag + 255) % 256
        efpgWriteSlots burns info info.flagBits idx f data
    else (.nodataErr, f)

/-! ## The regions of the chip -/

def dcxoTrim : RegionInfo := ⟨763, 1, 764, 8⟩

def poutCal : RegionInfo := ⟨772, 1, 773, 21⟩

def btPoutCal : RegionInfo := ⟨794, 1, 795, 21⟩

def macAddress : RegionInfo := ⟨665, 1, 666, 48⟩

def macBtAddr : RegionInfo := ⟨714, 1, 715, 48⟩

/-- What the layout gives an entry of the table: flags that fit their byte, then the slots. -/
structure RegionInfo.Laid (info : RegionInfo) : Prop where
  flags : 0 < info.flagBits ∧ info.flagBits ≤ 8
  data : 0 < info.dataBits
  start : info.dataStart = info.flagStart + info.flagBits
  fits : info.dataStart + info.flagBits * info.dataBits ≤ halEfuseBitNum

def regions : List RegionInfo := [macAddress, macBtAddr, dcxoTrim, poutCal, btPoutCal]

theorem regions_laid : ∀ info ∈ regions, info.Laid := by
  intro info hmem
  simp only [regions, List.mem_cons, List.not_mem_nil, or_false] at hmem
  obtain rfl | rfl | rfl | rfl | rfl := hmem <;>
    exact ⟨by decide, by decide, by decide, by decide⟩

/-! ## Flags and slots -/

namespace RegionInfo

/-- The fuse of bit `i` in slot `idx`. -/
def fuse (info : RegionInfo) (idx i : Nat) : Nat := info.dataStart + idx * info.dataBits + i

def flag (info : RegionInfo) (k : Nat) : Nat := info.flagStart + k

end RegionInfo

/-- The first `t` flags are set and the next one is not. -/
structure Flags (info : RegionInfo) (f : Fuses) (t : Nat) : Prop where
  le : t ≤ info.flagBits
  set : ∀ k < t, f (info.flag k) = true
  clear : t < info.flagBits → f (info.flag t) = false

def NoFlags (info : RegionInfo) (f : Fuses) : Prop := ∀ k < info.flagBits, f (info.flag k) = false

/-- A slot has no bits that the data does not have. -/
def Fits (info : RegionInfo) (f : Fuses) (idx : Nat) (data : List UInt8) : Prop :=
  ∀ i < info.dataBits, f (info.fuse idx i) = true → bit data i = true

/-- What an attempt to burn the data makes of the fuses. -/
def burnSlot (burns : Burns) (info : RegionInfo) (f : Fuses) (idx : Nat) (data : List UInt8) :
    Fuses :=
  fun b => f b || (decide (info.fuse idx 0 ≤ b ∧ b < info.fuse idx 0 + info.dataBits) &&
    bit data (b - info.fuse idx 0) && burns b)

def burnFlag (burns : Burns) (info : RegionInfo) (f : Fuses) (k : Nat) : Fuses :=
  fun b => f b || (decide (b = info.flag k) && burns b)

/-- A slot has the data after an attempt to burn it. -/
def Takes (burns : Burns) (info : RegionInfo) (f : Fuses) (idx : Nat) (data : List UInt8) : Prop :=
  ∀ i < info.dataBits,
    (f (info.fuse idx i) || (bit data i && burns (info.fuse idx i))) = bit data i

section

variable {info : RegionInfo} {f : Fuses} {burns : Burns} {data data' : List UInt8}
  {idx idx' i k t flag bits : Nat}

theorem Takes.fits (h : Takes burns info f idx data) : Fits info f idx data := by
  intro i hi hf
  have htake := h i hi
  simpa [hf] using htake.symm

theorem RegionInfo.Laid.flag_range (h : info.Laid) : ¬BadRange info.flagStart info.flagBits := by
  have hflags := h.flags
  have hstart := h.start
  have hfits := h.fits
  unfold BadRange halEfuseBitNum at *
  omega

/-- The slots are one after the other. -/
theorem slot_le (info : RegionInfo) (hidx : idx < idx') :
    idx * info.dataBits + info.dataBits ≤ idx' * info.dataBits := by
  rw [← Nat.succ_mul]
  exact Nat.mul_le_mul_right _ hidx

theorem RegionInfo.Laid.slot_range (h : info.Laid) (hidx : idx < info.flagBits) :
    ¬BadRange (info.dataStart + idx * info.dataBits) info.dataBits := by
  have hdata := h.data
  have hle := slot_le info hidx
  have hfits := h.fits
  unfold BadRange halEfuseBitNum at *
  omega

theorem fuse_ne_fuse (hidx : idx ≠ idx') (hi : i < info.dataBits) :
    ¬(info.fuse idx 0 ≤ info.fuse idx' i ∧
      info.fuse idx' i < info.fuse idx 0 + info.dataBits) := by
  unfold RegionInfo.fuse
  rcases Nat.lt_or_gt_of_ne hidx with hlt | hlt
  · have hle := slot_le info hlt
    omega
  · have hle := slot_le info hlt
    omega

theorem RegionInfo.Laid.flag_lt (h : info.Laid) (hk : k < info.flagBits) :
    info.flag k < info.fuse idx i := by
  have hstart := h.start
  unfold RegionInfo.flag RegionInfo.fuse
  omega

theorem countFlags_eq (hset : ∀ k < t, flag.testBit k = true) (hstop : flag.testBit t = false)
    (ht : t ≤ bits) : countFlags bits flag = t := by
  induction bits generalizing flag t with
  | zero => rw [countFlags, Nat.le_zero.mp ht]
  | succ bits ih =>
    rw [countFlags]
    cases t with
    | zero =>
      rw [if_neg]
      rw [Nat.testBit_zero] at hstop
      simpa using hstop
    | succ t =>
      rw [if_pos, ih (t := t)]
      · intro k hk
        rw [Nat.testBit_shiftRight, Nat.add_comm]
        exact hset (k + 1) (by omega)
      · rw [Nat.testBit_shiftRight, Nat.add_comm]
        exact hstop
      · omega
      · have hfirst := hset 0 (by omega)
        rw [Nat.testBit_zero] at hfirst
        simpa using hfirst

/-- The flag byte that the code reads. -/
def flagByte (info : RegionInfo) (f : Fuses) : Nat :=
  flagOf info (pack info.flagBits fun k => f (info.flagStart + k))

theorem flagByte_testBit (h : info.Laid) :
    (flagByte info f).testBit k = (decide (k < info.flagBits) && f (info.flag k)) := by
  have hflags := h.flags
  rw [flagByte, flagOf, Nat.one_shiftLeft, Nat.testBit_and, Nat.testBit_two_pow_sub_one]
  by_cases hk : k < info.flagBits
  · have hbit : bit (pack info.flagBits fun k => f (info.flagStart + k)) k = f (info.flag k) := by
      rw [bit_pack, decide_eq_true hk, Bool.true_and]
      rfl
    rw [bit, Nat.div_eq_of_lt (by omega), Nat.mod_eq_of_lt (by omega)] at hbit
    rw [hbit, Bool.and_comm]
  · simp [hk]

theorem flagByte_lt : flagByte info f < 1 <<< info.flagBits := by
  rw [flagByte, flagOf, Nat.one_shiftLeft]
  exact Nat.and_lt_two_pow _ (Nat.sub_lt (Nat.two_pow_pos _) Nat.one_pos)

theorem flagByte_eq_zero (h : info.Laid) : flagByte info f = 0 ↔ NoFlags info f := by
  constructor
  · intro hz k hk
    have hbit := flagByte_testBit (f := f) (k := k) h
    rw [hz, Nat.zero_testBit] at hbit
    simpa [hk] using hbit.symm
  · intro hno
    apply Nat.eq_of_testBit_eq
    intro k
    rw [flagByte_testBit h, Nat.zero_testBit]
    by_cases hk : k < info.flagBits
    · simp [hk, hno k hk]
    · simp [hk]

theorem Flags.count (h : Flags info f t) (hl : info.Laid) : countFlags 8 (flagByte info f) = t := by
  have hle := h.le
  have hflags := hl.flags
  apply countFlags_eq
  · intro k hk
    rw [flagByte_testBit hl, h.set k hk]
    simp
    omega
  · rw [flagByte_testBit hl]
    by_cases ht : t < info.flagBits
    · simp [h.clear ht]
    · simp [ht]
  · omega

theorem Flags.ne_zero (h : Flags info f t) (hl : info.Laid) (ht : 0 < t) :
    flagByte info f ≠ 0 := by
  intro hz
  have hle := h.le
  have hno := (flagByte_eq_zero hl).mp hz 0 (by omega)
  rw [h.set 0 ht] at hno
  exact absurd hno (by decide)

/-! ## The functions on flags and slots -/

theorem read_flags (h : info.Laid) : halEfuseRead f info.flagStart info.flagBits =
    some (pack info.flagBits fun k => f (info.flagStart + k)) := halEfuseRead_eq h.flag_range

theorem read_slot (h : info.Laid) (hidx : idx < info.flagBits) :
    halEfuseRead f (info.dataStart + idx * info.dataBits) info.dataBits =
      some (pack info.dataBits fun i => f (info.fuse idx i)) := halEfuseRead_eq (h.slot_range hidx)

theorem Flags.read (h : Flags info f (t + 1)) (hl : info.Laid) :
    efpgReadRegion info f = .ok (pack info.dataBits fun i => f (info.fuse t i)) := by
  have hle := h.le
  have hlt : flagByte info f < 1 <<< info.flagBits := flagByte_lt
  have hne := h.ne_zero hl (by omega)
  have hslot := hl.slot_range (show t < info.flagBits by omega)
  have hidx : (((t + 1 : Nat) : Int) - 1) * info.dataBits = ((t * info.dataBits : Nat) : Int) := by
    rw [Int.natCast_add, Int.natCast_mul, Int.natCast_one, Int.add_sub_cancel]
  have hstart : ((info.dataStart + (((t + 1 : Nat) : Int) - 1) * info.dataBits) % 2 ^ 32).toNat =
      info.dataStart + t * info.dataBits := by
    unfold BadRange halEfuseBitNum at hslot
    rw [hidx]
    omega
  have hbyte : flagOf info (pack info.flagBits fun k => f (info.flagStart + k)) = flagByte info f :=
    rfl
  unfold efpgReadRegion
  rw [read_flags hl]
  dsimp only
  rw [hbyte, if_neg (by omega), h.count hl, hstart, read_slot hl (by omega)]

theorem compareOld_iff :
    compareOld info (pack info.dataBits fun i => f (info.fuse idx i)) data = true ↔
      Fits info f idx data := by
  simp only [compareOld, List.all_eq_true, List.mem_range, beq_iff_eq, xor_and_eq_zero]
  constructor
  · intro h i hi hf
    have hbit := h (i / 8) (by unfold RegionInfo.bufLen; omega) (i % 8) (Nat.mod_lt i (by omega))
    rw [getD_testBit (Nat.mod_lt i (by omega)), getD_testBit (Nat.mod_lt i (by omega)),
      Nat.div_add_mod, bit_pack] at hbit
    exact hbit (by simp [hi, hf])
  · intro h k hk i hi
    rw [getD_testBit hi, getD_testBit hi, bit_pack, Bool.and_eq_true, decide_eq_true_eq]
    exact fun ⟨hlt, hf⟩ => h _ hlt hf

/-- The read has masked the last byte already. -/
theorem maskRead {g : Nat → Bool} (hl : info.Laid) : (if info.dataBits % 8 ≠ 0 then
      (pack info.dataBits g).modify (info.bufLen - 1)
        (· &&& UInt8.ofNat (1 <<< (info.dataBits % 8) - 1))
    else pack info.dataBits g) = pack info.dataBits g := by
  have hdata := hl.data
  split
  · rename_i hmod
    have hmask := maskLast_pack (g := g) hdata
    have hlast : info.bufLen - 1 = (info.dataBits - 1) / 8 := by
      unfold RegionInfo.bufLen
      omega
    rwa [maskLast, lastMask, if_neg hmod, ← hlast] at hmask
  · rfl

theorem burnSlot_fuse (hi : i < info.dataBits) : burnSlot burns info f idx data (info.fuse idx i) =
    (f (info.fuse idx i) || (bit data i && burns (info.fuse idx i))) := by
  have hsub : info.fuse idx i - info.fuse idx 0 = i := by
    unfold RegionInfo.fuse
    omega
  have hin : info.fuse idx 0 ≤ info.fuse idx i ∧
      info.fuse idx i < info.fuse idx 0 + info.dataBits := by
    unfold RegionInfo.fuse
    omega
  rw [burnSlot, hsub, decide_eq_true hin, Bool.true_and]

theorem burnSlot_fuse_ne (hidx : idx ≠ idx') (hi : i < info.dataBits) :
    burnSlot burns info f idx data (info.fuse idx' i) = f (info.fuse idx' i) := by
  rw [burnSlot, decide_eq_false (fuse_ne_fuse hidx hi), Bool.false_and, Bool.false_and,
    Bool.or_false]

theorem burnSlot_flag (hl : info.Laid) (hk : k < info.flagBits) :
    burnSlot burns info f idx data (info.flag k) = f (info.flag k) := by
  have hlt : info.flag k < info.fuse idx 0 := hl.flag_lt hk
  rw [burnSlot, decide_eq_false (by omega), Bool.false_and, Bool.false_and, Bool.or_false]

theorem burnFlag_fuse (hl : info.Laid) (hk : k < info.flagBits) :
    burnFlag burns info f k (info.fuse idx i) = f (info.fuse idx i) := by
  have hlt : info.flag k < info.fuse idx i := hl.flag_lt hk
  rw [burnFlag, decide_eq_false (by omega), Bool.false_and, Bool.or_false]

theorem burnFlag_flag_ne (hne : t ≠ k) :
    burnFlag burns info f k (info.flag t) = f (info.flag t) := by
  have hflag : info.flag t ≠ info.flag k := by
    unfold RegionInfo.flag
    omega
  rw [burnFlag, decide_eq_false hflag, Bool.false_and, Bool.or_false]

theorem burnFlag_flag : burnFlag burns info f k (info.flag k) =
    (f (info.flag k) || burns (info.flag k)) := by
  rw [burnFlag, decide_eq_true rfl, Bool.true_and]

theorem burnFlag_of_fails (h : burns (info.flag k) = false) : burnFlag burns info f k = f := by
  funext b
  rw [burnFlag]
  by_cases hb : b = info.flag k
  · rw [hb, h, Bool.and_false, Bool.or_false]
  · rw [decide_eq_false hb, Bool.false_and, Bool.or_false]

theorem write_slot (hl : info.Laid) (hidx : idx < info.flagBits) :
    halEfuseWrite burns f (info.dataStart + idx * info.dataBits) info.dataBits data =
      some (burnSlot burns info f idx data, maskLast data info.dataBits) :=
  halEfuseWrite_eq (hl.slot_range hidx)

theorem trySlot_of_not_fits (hl : info.Laid) (hidx : idx < info.flagBits)
    (h : ¬Fits info f idx data) : efpgTrySlot burns info f idx data = (false, f, data) := by
  unfold efpgTrySlot
  dsimp only
  rw [read_slot hl hidx]
  dsimp only
  rw [maskRead hl, if_neg (mt compareOld_iff.mp h)]

/-- The comparison that an attempt to burn a slot ends with. -/
def readBack (burns : Burns) (info : RegionInfo) (f : Fuses) (idx : Nat) (data : List UInt8) :
    Bool :=
  memcmpEq (maskLast data info.dataBits)
    (pack info.dataBits fun i => burnSlot burns info f idx data (info.fuse idx i)) info.bufLen

theorem readBack_iff (hl : info.Laid) :
    readBack burns info f idx data = true ↔ Takes burns info f idx data := by
  rw [readBack, memcmpEq_iff]
  constructor
  · intro heq i hi
    have hbit := heq i (by unfold RegionInfo.bufLen; omega)
    rw [bit_maskLast hl.data (by omega), bit_pack, burnSlot_fuse hi, decide_eq_true hi,
      Bool.true_and, Bool.true_and] at hbit
    exact hbit.symm
  · intro htake i hi
    rw [bit_maskLast hl.data hi, bit_pack]
    by_cases hlt : i < info.dataBits
    · rw [burnSlot_fuse hlt, htake i hlt]
    · simp [hlt]

theorem trySlot_of_fits (hl : info.Laid) (hidx : idx < info.flagBits) (h : Fits info f idx data) :
    efpgTrySlot burns info f idx data = (readBack burns info f idx data,
      burnSlot burns info f idx data, maskLast data info.dataBits) := by
  unfold efpgTrySlot
  dsimp only
  rw [read_slot hl hidx]
  dsimp only
  rw [maskRead hl, if_pos (compareOld_iff.mpr h), write_slot hl hidx]
  dsimp only
  rw [read_slot hl hidx]
  rfl

theorem maskLast_single (hl : info.Laid) (hk : k < info.flagBits) :
    maskLast [UInt8.ofNat (1 <<< k)] info.flagBits = [UInt8.ofNat (1 <<< k)] := by
  have hflags := hl.flags
  refine ext_bits length_maskLast fun i hi => ?_
  have hi8 : i < 8 := by simpa using hi
  rw [bit_maskLast (by omega) (by omega), bit_single hi8]
  by_cases hik : i = k
  · simp [hik, hk]
  · simp [hik]

theorem write_flag (hl : info.Laid) (hk : k < info.flagBits) :
    halEfuseWrite burns f info.flagStart info.flagBits [UInt8.ofNat (1 <<< k)] =
      some (burnFlag burns info f k, [UInt8.ofNat (1 <<< k)]) := by
  have hflags := hl.flags
  rw [halEfuseWrite_eq hl.flag_range, maskLast_single hl hk]
  refine congrArg some (Prod.ext (funext fun b => ?_) rfl)
  dsimp only [burnFlag]
  by_cases hin : info.flagStart ≤ b ∧ b < info.flagStart + info.flagBits
  · have hflag : b - info.flagStart = k ↔ b = info.flag k := by
      unfold RegionInfo.flag
      omega
    rw [bit_single (by omega)]
    simp [hin, hflag]
  · have hflag : b ≠ info.flag k := by
      unfold RegionInfo.flag
      omega
    simp [hin, hflag]

theorem setFlag_eq (hl : info.Laid) (hk : k < info.flagBits) : efpgSetFlag burns info f k =
    (burnFlag burns info f k (info.flag k), burnFlag burns info f k) := by
  have hflags := hl.flags
  unfold efpgSetFlag
  dsimp only
  rw [write_flag hl hk]
  dsimp only
  rw [read_flags hl]
  dsimp only
  have hbit := getD_testBit (i := k) (k := 0)
    (a := pack info.flagBits fun t => burnFlag burns info f k (info.flagStart + t)) (by omega)
  rw [Nat.mul_zero, Nat.zero_add, bit_pack, decide_eq_true hk, Bool.true_and] at hbit
  rw [List.getD_cons_zero, single_and (by omega), hbit]
  rfl

/-- What an attempt at one slot does. -/
structure Attempt (burns : Burns) (info : RegionInfo) (f : Fuses) (idx : Nat) (data : List UInt8)
    (done : Bool) (f' : Fuses) (data' : List UInt8) : Prop where
  done_iff : done = true ↔ Takes burns info f idx data
  stored : done = true → ∀ i < info.dataBits, f' (info.fuse idx i) = bit data i
  burned : ∀ i < info.dataBits, f' (info.fuse idx i) = f (info.fuse idx i) ∨
    Fits info f idx data ∧ f (info.fuse idx i) = false ∧ bit data i = true ∧
      burns (info.fuse idx i) = true
  slots : ∀ k i, idx ≠ k → i < info.dataBits → f' (info.fuse k i) = f (info.fuse k i)
  flags : ∀ k < info.flagBits, f' (info.flag k) = f (info.flag k)
  data : ∀ i < info.dataBits, bit data' i = bit data i

theorem trySlot_spec (burns : Burns) (f : Fuses) (data : List UInt8) (hl : info.Laid)
    (hidx : idx < info.flagBits) :
    ∃ done f' data', efpgTrySlot burns info f idx data = (done, f', data') ∧
      Attempt burns info f idx data done f' data' := by
  by_cases hfits : Fits info f idx data
  · refine ⟨_, _, _, trySlot_of_fits hl hidx hfits, readBack_iff hl, ?_, ?_, ?_, ?_, ?_⟩
    · intro hdone i hi
      rw [burnSlot_fuse hi]
      exact (readBack_iff hl).mp hdone i hi
    · intro i hi
      rw [burnSlot_fuse hi]
      cases f (info.fuse idx i) <;> cases bit data i <;> cases burns (info.fuse idx i) <;>
        simp [hfits]
    · exact fun k i hk hi => burnSlot_fuse_ne hk hi
    · exact fun k hk => burnSlot_flag hl hk
    · intro i hi
      rw [bit_maskLast hl.data (by omega), decide_eq_true hi, Bool.true_and]
  · refine ⟨_, _, _, trySlot_of_not_fits hl hidx hfits, ?_, nofun, ?_, ?_, ?_, ?_⟩
    · exact ⟨nofun, fun htake => absurd htake.fits hfits⟩
    · exact fun _ _ => .inl rfl
    · exact fun _ _ _ _ => rfl
    · exact fun _ _ => rfl
    · exact fun _ _ => rfl

theorem Takes.congr {f' : Fuses} (h : Takes burns info f k data)
    (hf : ∀ i < info.dataBits, f' (info.fuse k i) = f (info.fuse k i))
    (hd : ∀ i < info.dataBits, bit data' i = bit data i) : Takes burns info f' k data' := by
  intro i hi
  rw [hf i hi, hd i hi]
  exact h i hi

/-- The slots from `idx` on do not take the data up to `j`, which does. -/
structure Lands (burns : Burns) (info : RegionInfo) (f : Fuses) (data : List UInt8)
    (idx j : Nat) : Prop where
  le : idx ≤ j
  lt : j < info.flagBits
  before : ∀ k, idx ≤ k → k < j → ¬Takes burns info f k data
  takes : Takes burns info f j data
  flags : ∀ k, idx < k → k ≤ j → f (info.flag k) = true ∨ burns (info.flag k) = true

theorem Lands.mono {f' : Fuses} {j : Nat} (h : Lands burns info f data idx j) (hle : idx ≤ idx')
    (hle' : idx' ≤ j)
    (hslots : ∀ k i, idx' ≤ k → i < info.dataBits → f' (info.fuse k i) = f (info.fuse k i))
    (hflags : ∀ k < info.flagBits, f (info.flag k) = true → f' (info.flag k) = true)
    (hd : ∀ i < info.dataBits, bit data' i = bit data i) : Lands burns info f' data' idx' j := by
  refine ⟨hle', h.lt, ?_, ?_, ?_⟩
  · intro k hk hkj htake
    refine h.before k (by omega) hkj (htake.congr ?_ ?_)
    · exact fun i hi => (hslots k i hk hi).symm
    · exact fun i hi => (hd i hi).symm
  · exact h.takes.congr (fun i hi => hslots j i hle' hi) hd
  · intro k hk hkj
    have hlt := h.lt
    exact (h.flags k (by omega) hkj).imp_left (hflags k (by omega))

theorem writeSlots_lands {rounds j : Nat} (hl : info.Laid) : ∀ {idx : Nat} {f : Fuses}
    {data : List UInt8}, Lands burns info f data idx j → info.flagBits ≤ idx + rounds →
    ∃ f', efpgWriteSlots burns info rounds idx f data = (.ok, f') ∧
      (∀ i < info.dataBits, f' (info.fuse j i) = bit data i) ∧
      ∀ k < info.flagBits, f' (info.flag k) = (f (info.flag k) || decide (idx < k ∧ k ≤ j)) := by
  induction rounds with
  | zero =>
    intro idx f data h hrounds
    have hle := h.le
    have hlt := h.lt
    omega
  | succ rounds ih =>
    intro idx f data h hrounds
    have hle := h.le
    have hlt := h.lt
    obtain ⟨done, f₁, data₁, htry, ha⟩ := trySlot_spec burns f data hl
      (show idx < info.flagBits by omega)
    rw [efpgWriteSlots, if_pos (by omega), htry]
    cases done with
    | true =>
      have hidx : idx = j := by
        by_contra hne
        exact h.before idx le_rfl (by omega) (ha.done_iff.mp rfl)
      subst hidx
      refine ⟨f₁, rfl, ha.stored rfl, fun k hk => ?_⟩
      have hrange : ¬(idx < k ∧ k ≤ idx) := by omega
      rw [ha.flags k hk, decide_eq_false hrange, Bool.or_false]
    | false =>
      have hidx : idx < j := by
        by_contra hge
        have heq : idx = j := by omega
        subst heq
        exact absurd (ha.done_iff.mpr h.takes) (by decide)
      have hset : burnFlag burns info f₁ (idx + 1) (info.flag (idx + 1)) = true := by
        rw [burnFlag_flag, ha.flags _ (by omega), Bool.or_eq_true]
        exact h.flags _ (by omega) hidx
      have hnext : Lands burns info (burnFlag burns info f₁ (idx + 1)) data₁ (idx + 1) j := by
        refine h.mono (by omega) hidx ?_ ?_ ha.data
        · intro k i hk hi
          rw [burnFlag_fuse hl (by omega), ha.slots k i (by omega) hi]
        · intro k hk hf
          rw [burnFlag, ha.flags k hk, hf, Bool.true_or]
      obtain ⟨f', hrun, hdata, hflags⟩ := ih hnext (by omega)
      dsimp only
      rw [if_neg (by omega), setFlag_eq hl (by omega), hset]
      refine ⟨f', hrun, ?_, ?_⟩
      · intro i hi
        rw [hdata i hi, ha.data i hi]
      · intro k hk
        rw [hflags k hk]
        by_cases hki : k = idx + 1
        · subst hki
          have hrange : idx < idx + 1 ∧ idx + 1 ≤ j := by omega
          rw [hset, decide_eq_true hrange, Bool.true_or, Bool.or_true]
        · have hrange : idx + 1 < k ∧ k ≤ j ↔ idx < k ∧ k ≤ j := by omega
          rw [burnFlag_flag_ne hki, ha.flags k hk]
          simp only [hrange]

end

/-! ## Calls -/

/-- When a write leaves no slot flagged that it has not got the data into: it writes nothing, or
the first slot that takes the data is the one the reader finds. -/
inductive Settles (burns : Burns) (info : RegionInfo) (f : Fuses) (data : List UInt8) : Prop
  | refused {k : Nat} (first : f (info.flag 0) = false) (lt : k < info.flagBits)
      (set : f (info.flag k) = true)
  | noFlag (none : NoFlags info f) (fails : burns (info.flag 0) = false)
  | stays {t : Nat} (flags : Flags info f (t + 1))
      (slot : Fits info f t data → ∀ i < info.dataBits, bit data i = true →
        f (info.fuse t i) = true ∨ burns (info.fuse t i) = false)
      (fails : t + 1 = info.flagBits ∨ burns (info.flag (t + 1)) = false)
  | fresh {j : Nat} (none : NoFlags info f) (burns0 : burns (info.flag 0) = true)
      (lands : Lands burns info f data 0 j)
  | lands {t j : Nat} (flags : Flags info f (t + 1)) (lands : Lands burns info f data t j)
      (clear : j + 1 < info.flagBits → f (info.flag (j + 1)) = false)

/-- What a store does with the result of a write. -/
def Stores (info : RegionInfo) (f : Fuses) (data : List UInt8) (ack : Ack) (f' : Fuses) : Prop :=
  (ack = .ok → efpgReadRegion info f' = .ok (pack info.dataBits (bit data))) ∧
    (ack ≠ .ok → efpgReadRegion info f' = efpgReadRegion info f)

section

variable {info : RegionInfo} {f f' : Fuses} {burns : Burns} {data : List UInt8} {t j : Nat}

theorem read_of_slot (hl : info.Laid) (hf : Flags info f' (j + 1))
    (hd : ∀ i < info.dataBits, f' (info.fuse j i) = bit data i) :
    efpgReadRegion info f' = .ok (pack info.dataBits (bit data)) := by
  rw [hf.read hl, pack_congr hd]

theorem write_flagged (hl : info.Laid) (hf : Flags info f (t + 1)) :
    efpgWriteRegion burns info f data = efpgWriteSlots burns info info.flagBits t f data := by
  have hle := hf.le
  have hflags := hl.flags
  have hlt : flagByte info f < 1 <<< info.flagBits := flagByte_lt
  have hne := hf.ne_zero hl (by omega)
  have hbyte : flagOf info (pack info.flagBits fun k => f (info.flagStart + k)) = flagByte info f :=
    rfl
  have hidx : (t + 1 + 255) % 256 = t := by omega
  unfold efpgWriteRegion
  rw [read_flags hl]
  dsimp only
  rw [hbyte, if_pos hlt, if_neg hne, hf.count hl, hidx]

theorem write_unflagged (hl : info.Laid) (hf : NoFlags info f) :
    efpgWriteRegion burns info f data =
      if burns (info.flag 0) then
        efpgWriteSlots burns info info.flagBits 0 (burnFlag burns info f 0) data
      else (.rwErr, burnFlag burns info f 0) := by
  have hflags := hl.flags
  have hlt : flagByte info f < 1 <<< info.flagBits := flagByte_lt
  have hbyte : flagOf info (pack info.flagBits fun k => f (info.flagStart + k)) = flagByte info f :=
    rfl
  unfold efpgWriteRegion
  rw [read_flags hl]
  dsimp only
  rw [hbyte, if_pos hlt, if_pos ((flagByte_eq_zero hl).mpr hf), setFlag_eq hl hflags.1,
    burnFlag_flag, hf 0 hflags.1]
  cases burns (info.flag 0) <;> rfl

theorem write_refused {k : Nat} (hl : info.Laid) (hfirst : f (info.flag 0) = false)
    (hk : k < info.flagBits) (hset : f (info.flag k) = true) :
    efpgWriteRegion burns info f data = (.nodataErr, f) := by
  have hflags := hl.flags
  have hlt : flagByte info f < 1 <<< info.flagBits := flagByte_lt
  have hne : flagByte info f ≠ 0 := by
    intro hz
    have hno := (flagByte_eq_zero hl).mp hz k hk
    rw [hset] at hno
    exact absurd hno (by decide)
  have hbyte : flagOf info (pack info.flagBits fun k => f (info.flagStart + k)) = flagByte info f :=
    rfl
  have hcount : countFlags 8 (flagByte info f) = 0 := by
    apply countFlags_eq (fun k hk => absurd hk (Nat.not_lt_zero k)) _ (by omega)
    rw [flagByte_testBit hl, hfirst, Bool.and_false]
  unfold efpgWriteRegion
  rw [read_flags hl]
  dsimp only
  rw [hbyte, if_pos hlt, if_neg hne, hcount]
  cases hn : info.flagBits with
  | zero => rw [efpgWriteSlots]
  | succ n => rw [efpgWriteSlots, if_neg (by omega)]

/-- A write that stops at the flagged slot without burning a fuse of it. -/
theorem stores_of_stays (hl : info.Laid) (hf : Flags info f (t + 1))
    (hslot : Fits info f t data → ∀ i < info.dataBits, bit data i = true →
      f (info.fuse t i) = true ∨ burns (info.fuse t i) = false)
    (hfails : t + 1 = info.flagBits ∨ burns (info.flag (t + 1)) = false) :
    Stores info f data (efpgWriteRegion burns info f data).1
      (efpgWriteRegion burns info f data).2 := by
  have hle := hf.le
  obtain ⟨done, f₁, data₁, htry, ha⟩ := trySlot_spec burns f data hl
    (show t < info.flagBits by omega)
  have hsame : ∀ i < info.dataBits, f₁ (info.fuse t i) = f (info.fuse t i) := by
    intro i hi
    cases ha.burned i hi with
    | inl h => exact h
    | inr h =>
      obtain ⟨hfits, hclear, hdata, hburn⟩ := h
      cases hslot hfits i hi hdata with
      | inl hset => exact absurd hset (by simp [hclear])
      | inr hno => exact absurd hburn (by simp [hno])
  have hflags₁ : Flags info f₁ (t + 1) := by
    refine ⟨hle, ?_, ?_⟩
    · intro k hk
      rw [ha.flags k (by omega), hf.set k hk]
    · intro hlt
      rw [ha.flags _ hlt, hf.clear hlt]
  have hread : efpgReadRegion info f₁ = efpgReadRegion info f := by
    rw [hflags₁.read hl, hf.read hl, pack_congr hsame]
  obtain ⟨rounds, hrounds⟩ : ∃ rounds, info.flagBits = rounds + 1 :=
    ⟨info.flagBits - 1, by omega⟩
  rw [write_flagged hl hf]
  rw [hrounds, efpgWriteSlots, if_pos (by omega), htry]
  cases done with
  | true =>
    refine ⟨fun _ => ?_, fun hne => absurd rfl hne⟩
    exact read_of_slot hl hflags₁ (ha.stored rfl)
  | false =>
    dsimp only
    split
    · exact ⟨nofun, fun _ => hread⟩
    · rename_i hmore
      have hfail : burns (info.flag (t + 1)) = false := hfails.resolve_left (by omega)
      have hclear := hf.clear (by omega)
      have hlt : t + 1 < info.flagBits := by omega
      rw [setFlag_eq hl hlt, burnFlag_of_fails hfail, ha.flags _ hlt, hclear]
      exact ⟨nofun, fun _ => hread⟩

theorem stores_of_settles (hl : info.Laid) (h : Settles burns info f data) :
    Stores info f data (efpgWriteRegion burns info f data).1
      (efpgWriteRegion burns info f data).2 := by
  have hflagBits := hl.flags
  cases h with
  | refused hfirst hlt hset =>
    rw [write_refused hl hfirst hlt hset]
    exact ⟨nofun, fun _ => rfl⟩
  | noFlag hnone hfails =>
    rw [write_unflagged hl hnone, hfails, burnFlag_of_fails hfails]
    exact ⟨nofun, fun _ => rfl⟩
  | stays hflags hslot hfails => exact stores_of_stays hl hflags hslot hfails
  | @fresh j hnone hburns hlands =>
    have hlands₁ : Lands burns info (burnFlag burns info f 0) data 0 j := by
      refine hlands.mono le_rfl hlands.le ?_ ?_ fun _ _ => rfl
      · exact fun k i _ _ => burnFlag_fuse hl hflagBits.1
      · intro k _ hf
        rw [burnFlag, hf, Bool.true_or]
    have hlt := hlands.lt
    obtain ⟨f', hrun, hdata, hflags⟩ := writeSlots_lands hl hlands₁ (Nat.le_add_left _ _)
    have hf' : Flags info f' (j + 1) := by
      refine ⟨hlt, ?_, ?_⟩
      · intro k hk
        rw [hflags k (by omega)]
        cases k with
        | zero => rw [burnFlag_flag, hburns, Bool.or_true, Bool.true_or]
        | succ k =>
          have hin : 0 < k + 1 ∧ k + 1 ≤ j := by omega
          rw [decide_eq_true hin, Bool.or_true]
      · intro hmore
        have hout : ¬(0 < j + 1 ∧ j + 1 ≤ j) := by omega
        rw [hflags _ hmore, burnFlag_flag_ne (by omega), hnone _ hmore, decide_eq_false hout,
          Bool.or_false]
    rw [write_unflagged hl hnone, if_pos hburns, hrun]
    exact ⟨fun _ => read_of_slot hl hf' hdata, fun hne => absurd rfl hne⟩
  | @lands t j hflags hlands hclear =>
    have hlt := hlands.lt
    obtain ⟨f', hrun, hdata, hflags'⟩ := writeSlots_lands hl hlands (Nat.le_add_left _ _)
    have hf' : Flags info f' (j + 1) := by
      refine ⟨hlt, ?_, ?_⟩
      · intro k hk
        rw [hflags' k (by omega)]
        by_cases hin : t < k ∧ k ≤ j
        · rw [decide_eq_true hin, Bool.or_true]
        · rw [hflags.set k (by omega), Bool.true_or]
      · intro hmore
        have hout : ¬(t < j + 1 ∧ j + 1 ≤ j) := by omega
        rw [hflags' _ hmore, hclear hmore, decide_eq_false hout, Bool.or_false]
    rw [write_flagged hl hflags, hrun]
    exact ⟨fun _ => read_of_slot hl hf' hdata, fun hne => absurd rfl hne⟩

end

inductive Call
  | write (data : List UInt8) (burns : Burns) (ack : Ack)
  | read (value : Except Ack (List UInt8))

inductive Step (info : RegionInfo) : Fuses → Call → Fuses → Prop
  | write {f f' : Fuses} {data : List UInt8} {burns : Burns} {ack : Ack} :
    efpgWriteRegion burns info f data = (ack, f') → Step info f (.write data burns ack) f'
  | read {f : Fuses} : Step info f (.read (efpgReadRegion info f)) f

/-- A store of one value: a write that succeeds replaces it, one that fails leaves it, and a read
returns it. -/
inductive StoreStep (info : RegionInfo) :
    Except Ack (List UInt8) → Call → Except Ack (List UInt8) → Prop
  | stored {v : Except Ack (List UInt8)} {data : List UInt8} {burns : Burns} :
    StoreStep info v (.write data burns .ok) (.ok (pack info.dataBits (bit data)))
  | failed {v : Except Ack (List UInt8)} {data : List UInt8} {burns : Burns} {ack : Ack} :
    ack ≠ .ok → StoreStep info v (.write data burns ack) v
  | read {v : Except Ack (List UInt8)} : StoreStep info v (.read v) v

def Settled (info : RegionInfo) (f : Fuses) : Call → Prop
  | .write data burns _ => Settles burns info f data
  | .read _ => True

section

variable {info : RegionInfo} {f f' : Fuses} {c : Call} {calls : List Call}

theorem store_step (hl : info.Laid) (hok : Settled info f c) (hstep : Step info f c f') :
    StoreStep info (efpgReadRegion info f) c (efpgReadRegion info f') := by
  cases hstep with
  | @write _ data burns ack hwrite =>
    have hstores := stores_of_settles hl hok
    rw [hwrite] at hstores
    by_cases hack : ack = .ok
    · subst hack
      rw [hstores.1 rfl]
      exact .stored
    · rw [hstores.2 hack]
      exact .failed hack
  | read => exact .read

theorem region_ok (hl : info.Laid) (h : Run (Guarded (Step info) (Settled info)) f calls f') :
    Run (StoreStep info) (efpgReadRegion info f) calls (efpgReadRegion info f') := by
  obtain ⟨v, hrun, rfl⟩ := h.simulation (R := fun f v => v = efpgReadRegion info f) rfl (by
    rintro s c s' _ rfl ⟨hok, hstep⟩
    exact ⟨_, store_step hl hok hstep, rfl⟩)
  exact hrun

end

def blank : Fuses := fun _ => false

set_option maxRecDepth 8000 in
theorem region_ok_blank : ∃ f', Run (Step dcxoTrim) blank
      [.write [5] (fun _ => true) .ok, .read (.ok [5])] f' ∧
    Run (StoreStep dcxoTrim) (.error .nodataErr)
      [.write [5] (fun _ => true) .ok, .read (.ok [5])] (.ok [5]) := by
  have hl : dcxoTrim.Laid := regions_laid _ (by simp [regions])
  have hsettles : Settles (fun _ => true) dcxoTrim blank [5] := by
    refine .fresh (fun _ _ => rfl) rfl ⟨le_rfl, Nat.one_pos, ?_, ?_, ?_⟩
    · intro k _ hk
      omega
    · intro i _
      simp [blank]
    · intro k _ hk
      omega
  have hack : (efpgWriteRegion (fun _ => true) dcxoTrim blank [5]).1 = .ok := by decide
  have hvalue : efpgReadRegion dcxoTrim (efpgWriteRegion (fun _ => true) dcxoTrim blank [5]).2 =
      .ok [5] := by decide
  generalize hwrite : efpgWriteRegion (fun _ => true) dcxoTrim blank [5] = result at hack hvalue
  obtain ⟨ack, f'⟩ := result
  obtain rfl : ack = .ok := hack
  have hempty : efpgReadRegion dcxoTrim blank = .error .nodataErr := by decide
  have hread : Step dcxoTrim f' (.read (.ok [5])) f' := hvalue ▸ .read
  have hrun : Run (Guarded (Step dcxoTrim) (Settled dcxoTrim)) blank
      [.write [5] (fun _ => true) .ok, .read (.ok [5])] f' :=
    .cons ⟨hsettles, .write hwrite⟩ (.cons ⟨trivial, hread⟩ (.nil f'))
  have hok := region_ok hl hrun
  rw [hempty, hvalue] at hok
  exact ⟨f', hrun.mono fun _ _ _ h => h.2, hok⟩

set_option maxRecDepth 8000 in
/-- The fuse of bit 0 does not burn. The flag has burned by then, and the reader finds the empty
slot. -/
theorem flag_before_data : ¬∀ info, info.Laid → ∀ f calls f', Run (Step info) f calls f' →
    Run (StoreStep info) (efpgReadRegion info f) calls (efpgReadRegion info f') := by
  intro hclaim
  have hl : dcxoTrim.Laid := regions_laid _ (by simp [regions])
  have hack : (efpgWriteRegion (fun b => b != 764) dcxoTrim blank [1]).1 = .diErr := by
    decide
  have hfound : efpgReadRegion dcxoTrim (efpgWriteRegion (fun b => b != 764) dcxoTrim blank [1]).2 =
      .ok [0] := by decide
  generalize hwrite : efpgWriteRegion (fun b => b != 764) dcxoTrim blank [1] = result
    at hack hfound
  obtain ⟨ack, f'⟩ := result
  obtain rfl : ack = .diErr := hack
  have hspec := hclaim dcxoTrim hl _ _ _ (.single (.write hwrite))
  have hempty : efpgReadRegion dcxoTrim blank = .error .nodataErr := by decide
  rw [hempty, hfound] at hspec
  cases hspec with
  | cons hstep hrest =>
    cases hrest
    cases hstep

end Efpg
end XR806

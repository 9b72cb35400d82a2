import XR806.Efpg.Efuse

/-!
# XR806.Efpg.EfuseRom

The driver's two copies of `HAL_EFUSE_Read` and `HAL_EFUSE_Write`: with the state they share with the
initialisation, and the copy in ROM. That one counts the words to read from the shift of the first
word instead of from the end of the range, and a write does not bring the registers up to date that
the fuses are read from. Where no call gets to this the copies agree (`efuse_access_iff`).
-/

namespace XR806
namespace Efpg

open Bits

/-- `HAL_Status`, as far as these calls use it. -/
inductive HalStatus where
  | ok
  | error
  | busy
  deriving DecidableEq

inductive EfuseState where
  | invalid
  | ready
  | busy
  deriving DecidableEq

def hoscClock24M : Nat := 24 * 1000 * 1000
def hoscClock26M : Nat := 26 * 1000 * 1000
def hoscClock32M : Nat := 32 * 1000 * 1000
def hoscClock40M : Nat := 40 * 1000 * 1000

/-- The oscillators `EFUSE_Init` has timing parameters for. -/
def efuseTimings : List Nat := [hoscClock24M, hoscClock26M, hoscClock32M, hoscClock40M]

def romEfuseTimings : List Nat := [hoscClock24M, hoscClock26M, hoscClock40M]

/-- The controller: the fuses, and what `EFUSE->VALUE` shows of them since the last update. -/
structure Efuse where
  fuses : Fuses
  value : Fuses

/-- `HAL_EFUSE_UpdateAll`. -/
def Efuse.updateAll (e : Efuse) : Efuse := { e with value := e.fuses }

/-- A call around its access to the fuses: `none` is an argument that is refused. -/
def efuseCall {α : Type} (timings : List Nat) (hosc : Nat) (st : EfuseState) (access : Option α) :
    HalStatus × EfuseState × Option α :=
  match access with
  | none => (.error, st, none)
  | some a =>
    match st with
    | .invalid => if hosc ∈ timings then (.ok, .ready, some a) else (.error, .invalid, none)
    | .ready => (.ok, .ready, some a)
    | .busy => (.busy, .busy, none)

section

variable (hosc : Nat) (st : EfuseState) (e : Efuse) (f : Fuses) (burns : Burns)
  (startBit bitNum : Nat)

/-- `HAL_EFUSE_Read`; `room` is whether the caller has given a buffer. -/
def efuseRead (room : Bool) : HalStatus × EfuseState × Option (List UInt8) :=
  efuseCall efuseTimings hosc st (if room then halEfuseRead e.value startBit bitNum else none)

/-- The loop that burns, which is that of both copies. -/
def efuseBurn (data : Option (List UInt8)) : Option (Efuse × List UInt8) :=
  data.bind fun data => (halEfuseWrite burns e.fuses startBit bitNum data).map fun (fuses, data) =>
    ({ e with fuses }, data)

/-- `HAL_EFUSE_Write`, which ends with an update. -/
def efuseWrite (data : Option (List UInt8)) :
    HalStatus × EfuseState × Option (Efuse × List UInt8) :=
  efuseCall efuseTimings hosc st
    ((efuseBurn e burns startBit bitNum data).map fun (e, data) => (e.updateAll, data))

/-- The access of the ROM's `HAL_EFUSE_Read`. `behind` is the memory from the block of `sid_data` on:
what of it the loop has not written is copied to the caller as it is. -/
def romHalEfuseRead (behind : Nat → UInt8) : Option (List UInt8) :=
  if BadRange startBit bitNum then none
  else
    let startWord := startBit / 32
    let wordShift := startBit % 32
    let wordCnt := if wordShift = 0 then (startBit + bitNum) / 32 - startWord
      else (startBit + bitNum) / 32 - startWord + 1
    let sid := sidData f startWord wordShift wordCnt
    let bytes := (List.range ((bitNum + 7) / 8)).map fun j =>
      if j / 4 < wordCnt then UInt8.ofNat (sid (j / 4) >>> (8 * (j % 4))) else behind j
    some (maskLast bytes bitNum)

def romEfuseRead (behind : Nat → UInt8) (room : Bool) :
    HalStatus × EfuseState × Option (List UInt8) :=
  efuseCall romEfuseTimings hosc st
    (if room then romHalEfuseRead e.value startBit bitNum behind else none)

/-- The ROM's `HAL_EFUSE_Write`: nobody updates the registers. -/
def romEfuseWrite (data : Option (List UInt8)) :
    HalStatus × EfuseState × Option (Efuse × List UInt8) :=
  efuseCall romEfuseTimings hosc st (efuseBurn e burns startBit bitNum data)

end

/-- The call gets to the fuses. -/
def Accepts (timings : List Nat) (hosc : Nat) (st : EfuseState) : Prop :=
  st = .ready ∨ st = .invalid ∧ hosc ∈ timings

section

variable {α : Type} {timings : List Nat} {hosc s n : Nat} {st : EfuseState} {e : Efuse} {f : Fuses}
  {burns : Burns} {behind : Nat → UInt8} {data : List UInt8}

theorem efuseCall_accepts (h : Accepts timings hosc st) (a : α) :
    efuseCall timings hosc st (some a) = (.ok, .ready, some a) := by
  rcases h with rfl | ⟨rfl, h⟩
  · rfl
  · exact if_pos h

theorem efuseCall_congr (h : st = .invalid → hosc ≠ hoscClock32M) (access : Option α) :
    efuseCall romEfuseTimings hosc st access = efuseCall efuseTimings hosc st access := by
  cases access with
  | none => rfl
  | some a =>
    cases st with
    | invalid =>
      have hne := h rfl
      have hmem : hosc ∈ romEfuseTimings ↔ hosc ∈ efuseTimings := by
        simp [romEfuseTimings, efuseTimings, hne]
      simp only [efuseCall, hmem]
    | ready => rfl
    | busy => rfl

/-- A call that does not get to the fuses does not look at them. -/
theorem efuseCall_refused (h : ¬Accepts timings hosc st) (a b : α) :
    efuseCall timings hosc st (some a) = efuseCall timings hosc st (some b) := by
  cases st with
  | invalid =>
    have hmem : hosc ∉ timings := fun hmem => h (.inr ⟨rfl, hmem⟩)
    simp only [efuseCall, if_neg hmem]
  | ready => exact absurd (.inl rfl) h
  | busy => rfl

/-- All the words are read when the first one is shifted, or the last one is whole. -/
theorem romHalEfuseRead_eq (h : ¬BadRange s n) (hal : s % 32 ≠ 0 ∨ n % 32 = 0) :
    romHalEfuseRead f s n behind = halEfuseRead f s n := by
  have hn : 0 < n := by
    unfold BadRange at h
    omega
  rw [halEfuseRead_eq h, romHalEfuseRead, if_neg h]
  dsimp only
  generalize hcnt : (if s % 32 = 0 then (s + n) / 32 - s / 32 else (s + n) / 32 - s / 32 + 1) = cnt
  have hall : (List.range ((n + 7) / 8)).map (fun j => if j / 4 < cnt then
        UInt8.ofNat (sidData f (s / 32) (s % 32) cnt (j / 4) >>> (8 * (j % 4))) else behind j) =
      (List.range ((n + 7) / 8)).map fun j =>
        UInt8.ofNat (sidData f (s / 32) (s % 32) cnt (j / 4) >>> (8 * (j % 4))) := by
    refine List.map_congr_left fun j hj => if_pos ?_
    rw [List.mem_range] at hj
    subst hcnt
    split <;> omega
  rw [hall]
  refine congrArg some (ext_bits ?_ ?_)
  · rw [length_maskLast, List.length_map, List.length_range, length_pack]
  intro i hi
  rw [length_maskLast, List.length_map, List.length_range] at hi
  rw [bit_maskLast hn hi, bit_pack]
  by_cases hin : i < n
  · have hbit : 32 * (s / 32 + i / 32) + (s % 32 + i % 32) = s + i := by omega
    rw [bit_words hi, sidData_testBit (Nat.mod_lt i (by omega)) (Nat.mod_lt s (by omega)) ?_, hbit]
    subst hcnt
    by_cases hshift : s % 32 + i % 32 < 32
    · exact .inl hshift
    · right
      split <;> omega
  · simp [hin]

/-- Otherwise the last byte is what has been in the memory before, whatever the fuses are. -/
theorem romHalEfuseRead_last (h : ¬BadRange s n) (hs : s % 32 = 0) (hn : n % 32 ≠ 0) (f : Fuses) :
    ∃ behind, romHalEfuseRead f s n behind ≠ halEfuseRead f s n := by
  have hn' : 0 < n := by omega
  -- the last bit is the other one
  refine ⟨fun _ => if f (s + (n - 1)) then 0 else 0xFF, ?_⟩
  rw [halEfuseRead_eq h, romHalEfuseRead, if_neg h]
  dsimp only
  rw [if_pos hs]
  intro heq
  have hbits := congrArg (fun l => bit l (n - 1)) (Option.some.inj heq)
  have hlast : (n - 1) / 8 < (n + 7) / 8 := by omega
  have hword : ¬(n - 1) / 8 / 4 < (s + n) / 32 - s / 32 := by omega
  have hlt : n - 1 < n := by omega
  rw [bit_maskLast hn' (by omega), bit_pack, bit, List.getD_eq_getElem?_getD, List.getElem?_map,
    List.getElem?_range hlast, Option.map_some, Option.getD_some, if_neg hword, decide_eq_true hlt,
    Bool.true_and, Bool.true_and] at hbits
  cases hf : f (s + (n - 1)) with
  | false =>
    have hones : ∀ i < 8, (0xFF : UInt8).toNat.testBit i = true := by decide
    rw [hf, if_neg Bool.false_ne_true, hones _ (Nat.mod_lt _ (by omega))] at hbits
    exact Bool.noConfusion hbits
  | true =>
    have hzeros : ∀ i < 8, (0 : UInt8).toNat.testBit i = false := by decide
    rw [hf, if_pos rfl, hzeros _ (Nat.mod_lt _ (by omega))] at hbits
    exact Bool.noConfusion hbits

theorem romHalEfuseRead_ne_none (h : ¬BadRange s n) (f : Fuses) (behind : Nat → UInt8) :
    ∃ bytes, romHalEfuseRead f s n behind = some bytes := by
  rw [romHalEfuseRead, if_neg h]
  exact ⟨_, rfl⟩

/-- The fuses after a write. -/
def burned (burns : Burns) (f : Fuses) (s n : Nat) (data : List UInt8) : Fuses := fun b =>
  f b || (decide (s ≤ b ∧ b < s + n) && bit data (b - s) && burns b)

theorem efuseBurn_eq (h : ¬BadRange s n) : efuseBurn e burns s n (some data) =
    some ({ e with fuses := burned burns e.fuses s n data }, maskLast data n) := by
  rw [efuseBurn, Option.bind_some, halEfuseWrite_eq h]
  rfl

theorem efuseBurn_bad (h : BadRange s n) (data : Option (List UInt8)) :
    efuseBurn e burns s n data = none := by
  cases data with
  | none => rfl
  | some data =>
    have hwrite : halEfuseWrite burns e.fuses s n data = none := if_pos h
    rw [efuseBurn, Option.bind_some, hwrite]
    rfl

/-! ## What is wanted -/

/-- The data asks for no fuse that is not burned. -/
def AsksNothing (f : Fuses) (s n : Nat) (data : List UInt8) : Prop :=
  ∀ b, s ≤ b → b < s + n → bit data (b - s) = true → f b = true

/-- A read gives the fuses, in both copies; `room` is whether the caller has given a buffer. -/
def ReadAccess (hosc : Nat) (st : EfuseState) (e : Efuse) (s n : Nat) (room : Bool) : Prop :=
  (room = true → ¬BadRange s n → Accepts efuseTimings hosc st →
    efuseRead hosc st e s n room = (.ok, .ready, some (pack n fun i => e.fuses (s + i)))) ∧
  ∀ behind, romEfuseRead hosc st e s n behind room = efuseRead hosc st e s n room

/-- A write burns the fuses that the data asks for, if those that are asked to burn do, and lets the
registers show them; and both copies do the same. -/
def WriteAccess (hosc : Nat) (st : EfuseState) (e : Efuse) (s n : Nat)
    (buffer : Option (List UInt8)) : Prop :=
  (∀ data, buffer = some data → ¬BadRange s n → Accepts efuseTimings hosc st →
    ∃ e' data', efuseWrite hosc st e (fun _ => true) s n buffer = (.ok, .ready, some (e', data')) ∧
      e'.value = e'.fuses ∧
      ∀ b, e'.fuses b = (e.fuses b || (decide (s ≤ b ∧ b < s + n) && bit data (b - s)))) ∧
  ∀ burns, romEfuseWrite hosc st e burns s n buffer = efuseWrite hosc st e burns s n buffer

theorem efuseWrite_exact (h : ¬BadRange s n) (ha : Accepts efuseTimings hosc st) :
    ∃ e' data', efuseWrite hosc st e (fun _ => true) s n (some data) =
        (.ok, .ready, some (e', data')) ∧ e'.value = e'.fuses ∧
      ∀ b, e'.fuses b = (e.fuses b || (decide (s ≤ b ∧ b < s + n) && bit data (b - s))) := by
  let f' := burned (fun _ => true) e.fuses s n data
  refine ⟨⟨f', f'⟩, maskLast data n, ?_, rfl, fun b => ?_⟩
  · rw [efuseWrite, efuseBurn_eq h]
    exact efuseCall_accepts ha _
  · exact congrArg (e.fuses b || ·) (Bool.and_true _)

theorem efuseRead_exact (h : ¬BadRange s n) (ha : Accepts efuseTimings hosc st) :
    efuseRead hosc st e s n true = (.ok, .ready, some (pack n fun i => e.value (s + i))) := by
  rw [efuseRead, if_pos rfl, halEfuseRead_eq h, efuseCall_accepts ha]

/-- The copies agree on a read. -/
theorem romEfuseRead_congr (hosc32 : st = .invalid → hosc ≠ hoscClock32M)
    (hal : Accepts romEfuseTimings hosc st → s % 32 ≠ 0 ∨ n % 32 = 0) (room : Bool) :
    romEfuseRead hosc st e s n behind room = efuseRead hosc st e s n room := by
  rw [romEfuseRead, efuseRead, ← efuseCall_congr hosc32]
  cases room with
  | false => rfl
  | true =>
    rw [if_pos rfl, if_pos rfl]
    by_cases hbad : BadRange s n
    · rw [romHalEfuseRead, halEfuseRead, if_pos hbad, if_pos hbad]
    by_cases ha : Accepts romEfuseTimings hosc st
    · rw [romHalEfuseRead_eq hbad (hal ha)]
    · obtain ⟨a, hrom⟩ := romHalEfuseRead_ne_none hbad e.value behind
      rw [hrom, halEfuseRead_eq hbad]
      exact efuseCall_refused ha _ _

/-- The copies agree on a write that changes nothing. -/
theorem romEfuseWrite_congr (hosc32 : st = .invalid → hosc ≠ hoscClock32M) (hbad : ¬BadRange s n)
    (hnothing : Accepts romEfuseTimings hosc st → e.value = e.fuses ∧ AsksNothing e.fuses s n data) :
    romEfuseWrite hosc st e burns s n (some data) = efuseWrite hosc st e burns s n (some data) := by
  rw [romEfuseWrite, efuseWrite, ← efuseCall_congr hosc32, efuseBurn_eq hbad]
  by_cases ha : Accepts romEfuseTimings hosc st
  · obtain ⟨hvalue, hasks⟩ := hnothing ha
    have hsame : burned burns e.fuses s n data = e.fuses := by
      funext b
      by_cases hb : (s ≤ b ∧ b < s + n) ∧ bit data (b - s) = true
      · rw [burned, hasks b hb.1.1 hb.1.2 hb.2, Bool.true_or]
      · have hno : (decide (s ≤ b ∧ b < s + n) && bit data (b - s)) = false := by
          simpa using fun h1 h2 => by simpa [h1, h2] using hb
        rw [burned, hno, Bool.false_and, Bool.or_false]
    obtain ⟨fuses, value⟩ := e
    obtain rfl : value = fuses := hvalue
    rw [hsame]
    rfl
  · exact efuseCall_refused ha _ _

/-- On a write that gets to the fuses the copies agree only then. -/
theorem nothing_of_congr (hbad : ¬BadRange s n) (ha : Accepts romEfuseTimings hosc st)
    (ha' : Accepts efuseTimings hosc st) (h : ∀ burns,
      romEfuseWrite hosc st e burns s n (some data) = efuseWrite hosc st e burns s n (some data)) :
    e.value = e.fuses ∧ AsksNothing e.fuses s n data := by
  have hvalue : ∀ burns, e.value = burned burns e.fuses s n data := by
    intro burns
    have hboth := h burns
    rw [romEfuseWrite, efuseWrite, efuseBurn_eq hbad, Option.map_some, efuseCall_accepts ha,
      efuseCall_accepts ha'] at hboth
    simp only [Prod.mk.injEq, Option.some.injEq, true_and, and_true] at hboth
    exact congrArg Efuse.value hboth
  have hnone : e.value = e.fuses := by
    rw [hvalue fun _ => false]
    funext b
    rw [burned, Bool.and_false, Bool.or_false]
  refine ⟨hnone, fun b hle hlt hbit => ?_⟩
  have hall := congrFun (hnone.symm.trans (hvalue fun _ => true)) b
  rw [burned, decide_eq_true ⟨hle, hlt⟩, hbit, Bool.and_self, Bool.and_self, Bool.or_true] at hall
  exact hall

theorem accepts_of_rom (h : Accepts romEfuseTimings hosc st) : Accepts efuseTimings hosc st := by
  have hsub : romEfuseTimings.Sublist efuseTimings := by decide
  exact h.imp id (And.imp_right fun hmem => hsub.mem hmem)

theorem rom_of_accepts (hosc32 : st = .invalid → hosc ≠ hoscClock32M)
    (h : Accepts efuseTimings hosc st) : Accepts romEfuseTimings hosc st := by
  refine h.imp id fun ⟨hst, hmem⟩ => ⟨hst, ?_⟩
  simpa [romEfuseTimings, efuseTimings, hosc32 hst] using hmem

/-- The oscillator is one that both copies have timing parameters for. -/
theorem not_32m_of_congr {access access' : Option α} (ha : access ≠ none) (ha' : access' ≠ none)
    (h : efuseCall romEfuseTimings hosc st access = efuseCall efuseTimings hosc st access') :
    st = .invalid → hosc ≠ hoscClock32M := by
  rintro rfl rfl
  obtain ⟨a, rfl⟩ := Option.ne_none_iff_exists'.mp ha
  obtain ⟨a', rfl⟩ := Option.ne_none_iff_exists'.mp ha'
  exact absurd (congrArg Prod.fst h) (show ¬HalStatus.error = HalStatus.ok by decide)

theorem pack_inj {g g' : Nat → Bool} (h : pack n g = pack n g') : ∀ i < n, g i = g' i := by
  intro i hi
  have hbit := congrArg (fun l => bit l i) h
  simpa [bit_pack, hi] using hbit

theorem read_access_iff (room : Bool) : ReadAccess hosc st e s n room ↔
    room = false ∨ BadRange s n ∨ (st = .invalid → hosc ≠ hoscClock32M) ∧
      (Accepts romEfuseTimings hosc st → (s % 32 ≠ 0 ∨ n % 32 = 0) ∧
        ∀ i < n, e.value (s + i) = e.fuses (s + i)) := by
  cases room with
  | false => exact iff_of_true ⟨nofun, fun _ => rfl⟩ (.inl rfl)
  | true =>
    rw [or_iff_right (show ¬true = false from nofun)]
    constructor
    · rintro ⟨hexact, hsame⟩
      by_cases hbad : BadRange s n
      · exact .inl hbad
      refine .inr ⟨?_, fun ha => ⟨?_, ?_⟩⟩
      · obtain ⟨a, hrom⟩ := romHalEfuseRead_ne_none hbad e.value fun _ => 0
        have hread := hsame fun _ => 0
        rw [romEfuseRead, efuseRead, if_pos rfl, if_pos rfl] at hread
        exact not_32m_of_congr (hrom ▸ Option.some_ne_none a)
          (halEfuseRead_eq hbad ▸ Option.some_ne_none _) hread
      · by_contra hno
        rw [not_or, not_not] at hno
        obtain ⟨behind, hne⟩ := romHalEfuseRead_last hbad hno.1 hno.2 e.value
        obtain ⟨a, hrom⟩ := romHalEfuseRead_ne_none hbad e.value behind
        have hread := hsame behind
        rw [romEfuseRead, efuseRead, if_pos rfl, if_pos rfl, hrom, halEfuseRead_eq hbad,
          efuseCall_accepts ha, efuseCall_accepts (accepts_of_rom ha)] at hread
        refine hne ?_
        rw [hrom, halEfuseRead_eq hbad]
        exact congrArg (fun r => r.2.2) hread
      · have hacc := accepts_of_rom ha
        have hread := (efuseRead_exact hbad hacc).symm.trans (hexact rfl hbad hacc)
        exact pack_inj (Option.some.inj (congrArg (fun r => r.2.2) hread))
    · intro h
      refine ⟨fun _ hbad ha => ?_, fun behind => ?_⟩
      · obtain ⟨hosc32, hal⟩ := h.resolve_left hbad
        have hvalue := (hal (rom_of_accepts hosc32 ha)).2
        have hpack : pack n (fun i => e.value (s + i)) = pack n fun i => e.fuses (s + i) := by
          refine ext_bits (by rw [length_pack, length_pack]) fun i _ => ?_
          rw [bit_pack, bit_pack]
          by_cases hi : i < n
          · rw [hvalue i hi]
          · rw [decide_eq_false hi, Bool.false_and, Bool.false_and]
        rw [efuseRead_exact hbad ha, hpack]
      · rcases h with hbad | ⟨hosc32, hal⟩
        · have hread : romHalEfuseRead e.value s n behind = none := if_pos hbad
          have hread' : halEfuseRead e.value s n = none := if_pos hbad
          rw [romEfuseRead, efuseRead, hread, hread']
          rfl
        · exact romEfuseRead_congr hosc32 (fun ha => (hal ha).1) _

theorem write_access_iff (buffer : Option (List UInt8)) : WriteAccess hosc st e s n buffer ↔
    BadRange s n ∨ ∀ data, buffer = some data → (st = .invalid → hosc ≠ hoscClock32M) ∧
      (Accepts romEfuseTimings hosc st → e.value = e.fuses ∧ AsksNothing e.fuses s n data) := by
  constructor
  · rintro ⟨-, hsame⟩
    by_cases hbad : BadRange s n
    · exact .inl hbad
    refine .inr ?_
    rintro data rfl
    refine ⟨?_, fun ha => nothing_of_congr hbad ha (accepts_of_rom ha) hsame⟩
    have hwrite := hsame fun _ => false
    rw [romEfuseWrite, efuseWrite, efuseBurn_eq hbad] at hwrite
    exact not_32m_of_congr (Option.some_ne_none _) (Option.some_ne_none _) hwrite
  · intro h
    refine ⟨?_, fun burns => ?_⟩
    · rintro data rfl hbad ha
      exact efuseWrite_exact hbad ha
    · by_cases hbad : BadRange s n
      · rw [romEfuseWrite, efuseWrite, efuseBurn_bad hbad]
        rfl
      cases buffer with
      | none => rfl
      | some data =>
        obtain ⟨hosc32, hnothing⟩ := h.resolve_left hbad data rfl
        exact romEfuseWrite_congr hosc32 hbad hnothing

/-- No fuse is burned, and the registers show that. -/
def noneBurned : Efuse := ⟨fun _ => false, fun _ => false⟩

end

end Efpg
end XR806

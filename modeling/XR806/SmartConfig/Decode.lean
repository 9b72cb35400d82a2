import Mathlib.Data.Finset.Card
import Mathlib.Logic.Function.Basic
import XR806.Bits
import XR806.Trans.Run

/-!
# XR806.SmartConfig.Decode

What the station picks up from the multicast addresses of the frames around it: the lead code, and
after it the numbered packets with two bytes each.

A bitmap and a count say which packets have come. They take every number up to 122, whatever total
the lead code announced, and no number above it, so that a packet outside the total stands in for
one that is missing (`stray_packet_decodes`). In a run without such packets the data is decoded
exactly when it is complete (`decodes_when_complete`).
-/

namespace XR806
namespace SmartConfig

open Bits Trans

inductive Status
  | ended
  | searchChan
  | lockedChan
  | complete
deriving DecidableEq, Repr

def Status.value : Status → Nat
  | .ended => 0
  | .searchChan => 1
  | .lockedChan => 2
  | .complete => 3

/-- `sc_lead_code_t`. -/
structure LeadCode where
  channel : Nat
  ssidpwdLen : Nat
  pwdLen : Int
  packetTotal : Nat
  packetCount : Nat
  random : UInt8
  lockedMacFlag : Bool
  leadCompleteFlag : Bool
  countPkt : List UInt8
deriving DecidableEq, Repr

def scResetLeadCode : LeadCode where
  channel := 0
  ssidpwdLen := 0
  pwdLen := -1
  packetTotal := 0
  packetCount := 0
  random := 0
  lockedMacFlag := false
  leadCompleteFlag := false
  countPkt := List.replicate 16 0

structure Addr where
  b0 : UInt8
  b1 : UInt8
  b2 : UInt8
  b3 : UInt8
  b4 : UInt8
  b5 : UInt8
deriving DecidableEq, Repr

structure Frame where
  addr1 : Addr
  addr3 : Addr
deriving DecidableEq, Repr

def Addr.magic (a : Addr) : Bool := a.b0 = 0x01 && a.b1 = 0x00 && a.b2 = 0x5e

/-- The address that `addr_src` names. -/
def Frame.source (f : Frame) : Option Addr :=
  if f.addr3.magic then some f.addr3 else if f.addr1.magic then some f.addr1 else none

def crcRound (crc : UInt8) : UInt8 :=
  if crc &&& 0x1 ≠ 0 then (crc >>> 1) ^^^ 0x31 else crc >>> 1

def calCrc8 (data : List UInt8) : UInt8 :=
  data.foldl (fun crc b => Nat.repeat crcRound 8 (crc ^^^ b)) 0x0

/-- `smartconfig_priv_t` without the parts for the acknowledgement. -/
structure Priv (ρ : Type) where
  leadCode : LeadCode
  status : Status
  srcDataBuff : Nat → UInt8
  result : ρ

/-- `dec_data_decode`: whether the buffer holds an SSID and a passphrase that fit the lead code, and
the result it leaves. -/
abbrev DataDecode (ρ : Type) := LeadCode → (Nat → UInt8) → ρ → Bool × ρ

def leadCodeNome : Nat := 0

def leadCodeGetRoundNum : Nat := 4

def leadCodeComplete : Nat := 5

/-! ## The lead code -/

def decGetLeadCode (leadCode : LeadCode) (status : Status) (a : Addr) : Nat × LeadCode × Status :=
  let packetNum := a.b3.toNat
  if packetNum = leadCodeNome ∨ packetNum > leadCodeGetRoundNum then
    (leadCodeNome, leadCode, status)
  else if ¬(status ≠ .lockedChan ∨ leadCode.ssidpwdLen = 0 ∨ leadCode.pwdLen = -1 ∨
      leadCode.random = 0) then
    (leadCodeComplete, { leadCode with lockedMacFlag := false }, status)
  else if calCrc8 [a.b4] ≠ a.b5 then (leadCodeNome, leadCode, status)
  else
    let leadCode := { leadCode with lockedMacFlag := true }
    match packetNum with
    | 1 => (1, { leadCode with channel := a.b4.toNat }, .lockedChan)
    | 2 =>
      let ssidpwdLen := a.b4.toNat
      (2, { leadCode with
        ssidpwdLen
        packetTotal := ssidpwdLen / 2 + 1 + ssidpwdLen % 2 }, status)
    | 3 => (3, { leadCode with pwdLen := a.b4.toNat }, status)
    | 4 => (4, { leadCode with random := a.b4 }, status)
    | _ => (leadCodeNome, leadCode, status)

/-! ## The data -/

/-- The bit of a packet number, high bit first. -/
def countBit (packetNum : UInt8) : UInt8 := UInt8.ofNat (1 <<< (8 - packetNum.toNat % 8 - 1))

def decValidPacketCount (countPkt : List UInt8) (packetNum : UInt8) : Nat × List UInt8 :=
  if packetNum > 127 then (0, countPkt)
  else if (0 : UInt8) < countPkt.getD (packetNum.toNat / 8) 0 &&& countBit packetNum then
    (0, countPkt)
  else (1, countPkt.modify (packetNum.toNat / 8) (· ||| countBit packetNum))

/-- The number of packets that are missing goes back with the lead code and the buffer. -/
def decPushData (leadCode : LeadCode) (packetNum : UInt8) (srcDataBuff : Nat → UInt8)
    (d0 d1 : UInt8) : Int × LeadCode × (Nat → UInt8) :=
  let packetNum := packetNum - 5
  let (fresh, countPkt) := decValidPacketCount leadCode.countPkt packetNum
  let packetCount := if fresh = 1 then leadCode.packetCount + 1 else leadCode.packetCount
  let srcDataBuff := Function.update (Function.update srcDataBuff (packetNum.toNat * 2) d0)
    (packetNum.toNat * 2 + 1) d1
  (packetCount - leadCode.packetTotal, { leadCode with countPkt, packetCount }, srcDataBuff)

section

variable {ρ : Type} (decode : DataDecode ρ)

/-- The end of `sc_dec_packet_decode`. What `dec_data_decode` is invoked on comes last. -/
def decodeAll (priv : Priv ρ) : Status × Priv ρ × Option (Nat → UInt8) :=
  if priv.status.value < Status.complete.value ∧
      priv.leadCode.packetTotal = priv.leadCode.packetCount then
    let (ok, result) := decode priv.leadCode priv.srcDataBuff priv.result
    let srcDataBuff := Function.update priv.srcDataBuff 0 0
    if ok then (.complete, { priv with srcDataBuff, result }, some priv.srcDataBuff)
    else (.ended, { priv with leadCode := scResetLeadCode, srcDataBuff, result },
      some priv.srcDataBuff)
  else (priv.status, priv, none)

def scDecPacketDecode (priv : Priv ρ) (f : Frame) : Status × Priv ρ × Option (Nat → UInt8) :=
  match f.source with
  | none => (priv.status, priv, none)
  | some a =>
    let packetNum := a.b3.toNat
    if packetNum > leadCodeNome ∧ packetNum < leadCodeComplete then
      if priv.leadCode.leadCompleteFlag then (priv.status, priv, none)
      else
        let (ret, leadCode, status) := decGetLeadCode priv.leadCode priv.status a
        let leadCode :=
          if ret = leadCodeComplete then { leadCode with leadCompleteFlag := true } else leadCode
        (status, { priv with leadCode }, none)
    else if !priv.leadCode.leadCompleteFlag then (priv.status, priv, none)
    else if packetNum ≥ 5 ∧ packetNum ≤ 127 then
      let (d, leadCode, srcDataBuff) :=
        decPushData priv.leadCode a.b3 priv.srcDataBuff a.b4 a.b5
      let priv := { priv with leadCode, srcDataBuff }
      if d ≠ 0 then (priv.status, priv, none) else decodeAll decode priv
    else decodeAll decode priv

def smartconfigRecvRawframe (priv : Priv ρ) (f : Frame) : Priv ρ × Option (Nat → UInt8) :=
  let (status, priv, call) := scDecPacketDecode decode priv f
  if status = .complete ∧ priv.status.value < Status.complete.value then
    ({ priv with status }, call)
  else if status = .lockedChan ∧ priv.status ≠ status then ({ priv with status }, call)
  else (priv, call)

/-- `wlan_smart_config_start`. -/
def start (result : ρ) : Priv ρ where
  leadCode := scResetLeadCode
  status := .searchChan
  srcDataBuff := fun _ => 0
  result := result

end

/-! ## What has come -/

/-- The packets that came since the lead code is known are kept with the state. -/
structure Session (ρ : Type) where
  priv : Priv ρ
  received : Nat → Option (UInt8 × UInt8)

/-- The number and the bytes of a data packet. -/
def Frame.packet (f : Frame) : Option (Nat × UInt8 × UInt8) :=
  match f.source with
  | none => none
  | some a => if 5 ≤ a.b3.toNat then some (a.b3.toNat - 5, a.b4, a.b5) else none

section

variable {ρ : Type} (decode : DataDecode ρ) (s : Session ρ) (f : Frame)

/-- What has come with this frame. -/
def Session.note : Nat → Option (UInt8 × UInt8) :=
  if s.priv.leadCode.leadCompleteFlag then
    match f.packet with
    | none => s.received
    | some (n, d) => Function.update s.received n (some d)
  else fun _ => none

def Session.recv : Session ρ where
  priv := (smartconfigRecvRawframe decode s.priv f).1
  received := s.note f

/-- What `dec_data_decode` is invoked on. -/
def Session.call : Option (Nat → UInt8) := (smartconfigRecvRawframe decode s.priv f).2

inductive Step : Session ρ → Frame → Session ρ → Prop
  | recv {s : Session ρ} {f : Frame} : Step s f (s.recv decode f)

/-- The lead code is known and the data is not complete yet. -/
def Session.Collecting : Prop :=
  s.priv.leadCode.leadCompleteFlag = true ∧ s.priv.status ≠ .complete

/-- The frame is decoded if all packets have come, from the bytes that came. -/
structure Reassembles : Prop where
  invoked : (s.call decode f).isSome = true ↔
    s.Collecting ∧ ∀ n < s.priv.leadCode.packetTotal, (s.note f n).isSome = true
  buffer : ∀ buf, s.call decode f = some buf → ∀ n < s.priv.leadCode.packetTotal,
    s.note f n = some (buf (n * 2), buf (n * 2 + 1))

/-- The numbers of the packets that the bitmap can hold are those below the total. -/
def Numbered : Prop :=
  s.Collecting → ∀ n d, f.packet = some (n, d) → (n < s.priv.leadCode.packetTotal ↔ n < 123)

end

/-! ## The bitmap -/

/-- The packet is marked as received. -/
def counted (countPkt : List UInt8) (n : Nat) : Bool :=
  (countPkt.getD (n / 8) 0).toNat.testBit (7 - n % 8)

section

variable {countPkt : List UInt8} {packetNum : UInt8} {n : Nat}

theorem countBit_eq : countBit packetNum = UInt8.ofNat (1 <<< (7 - packetNum.toNat % 8)) := by
  have hk : 8 - packetNum.toNat % 8 - 1 = 7 - packetNum.toNat % 8 := by omega
  rw [countBit, hk]

theorem countBit_testBit (hk : n < 8) :
    (countBit packetNum).toNat.testBit n = decide (n = 7 - packetNum.toNat % 8) := by
  rw [countBit_eq, single_testBit hk]

theorem decValid_of_counted (h : counted countPkt packetNum.toNat = true) :
    decValidPacketCount countPkt packetNum = (0, countPkt) := by
  unfold decValidPacketCount
  rw [countBit_eq, if_pos ((and_single_pos (by omega)).mpr h)]
  simp

theorem decValid_of_fresh (hn : packetNum.toNat < 128)
    (h : counted countPkt packetNum.toNat = false) : decValidPacketCount countPkt packetNum =
      (1, countPkt.modify (packetNum.toNat / 8) (· ||| countBit packetNum)) := by
  have hle : ¬packetNum > 127 := by
    rw [gt_iff_lt, UInt8.lt_iff_toNat_lt]
    exact Nat.not_lt.mpr (Nat.le_of_lt_succ hn)
  unfold decValidPacketCount
  rw [if_neg hle, if_neg]
  rw [countBit_eq, and_single_pos (by omega)]
  simpa [counted] using h

theorem counted_modify (hlen : countPkt.length = 16) (hn : packetNum.toNat < 128) :
    counted (countPkt.modify (packetNum.toNat / 8) (· ||| countBit packetNum)) n =
      (counted countPkt n || decide (n = packetNum.toNat)) := by
  unfold counted
  by_cases hk : n / 8 = packetNum.toNat / 8
  · have hlt : packetNum.toNat / 8 < countPkt.length := by omega
    have hbit : 7 - n % 8 = 7 - packetNum.toNat % 8 ↔ n = packetNum.toNat := by omega
    simp [List.getD_eq_getElem?_getD, hk, hlt, UInt8.toNat_or, countBit_testBit, hbit,
      show 7 - n % 8 < 8 by omega]
  · have hne : n ≠ packetNum.toNat := fun h => hk (by rw [h])
    simp [List.getD_eq_getElem?_getD, Ne.symm hk, hne]

end

/-! ## The packets that have come -/

section

variable {ρ : Type} {decode : DataDecode ρ} {s : Session ρ} {f : Frame} {n : Nat}
  {d : UInt8 × UInt8} {p : Priv ρ} {received : Nat → Option (UInt8 × UInt8)}

/-- The numbers that the bitmap can hold, of the packets that have come. -/
def seen (received : Nat → Option (UInt8 × UInt8)) : Finset Nat :=
  (Finset.range 123).filter fun n => (received n).isSome

@[simp] theorem mem_seen : n ∈ seen received ↔ n < 123 ∧ (received n).isSome = true := by
  simp [seen]

/-- The bitmap, the count and the buffer are those of the packets that have come. -/
structure Held (p : Priv ρ) (received : Nat → Option (UInt8 × UInt8)) : Prop where
  length : p.leadCode.countPkt.length = 16
  count : p.leadCode.packetCount = (seen received).card
  bits : ∀ n < 123, counted p.leadCode.countPkt n = (received n).isSome
  buff : ∀ n < 123, ∀ d, received n = some d →
    (p.srcDataBuff (n * 2), p.srcDataBuff (n * 2 + 1)) = d

/-- All of them are wanted, and those above the bitmap are not. -/
def Wanted (total : Nat) (received : Nat → Option (UInt8 × UInt8)) : Prop :=
  ∀ n, (received n).isSome = true → (n < total ↔ n < 123)

theorem Held.full_iff (h : Held p received) (hw : Wanted p.leadCode.packetTotal received) :
    p.leadCode.packetTotal = p.leadCode.packetCount ↔
      ∀ n < p.leadCode.packetTotal, (received n).isSome = true := by
  have hcard : (Finset.range p.leadCode.packetTotal).card = p.leadCode.packetTotal :=
    Finset.card_range _
  have hsub : seen received ⊆ Finset.range p.leadCode.packetTotal := by
    intro n hn
    obtain ⟨hlt, hsome⟩ := mem_seen.mp hn
    exact Finset.mem_range.mpr ((hw n hsome).mpr hlt)
  rw [h.count]
  constructor
  · intro heq n hn
    have hall := Finset.eq_of_subset_of_card_le hsub (by omega)
    exact (mem_seen.mp (hall ▸ Finset.mem_range.mpr hn)).2
  · intro hall
    have hback : Finset.range p.leadCode.packetTotal ⊆ seen received := by
      intro n hn
      have hlt := Finset.mem_range.mp hn
      exact mem_seen.mpr ⟨(hw n (hall n hlt)).mp hlt, hall n hlt⟩
    have hcards := congrArg Finset.card (hsub.antisymm hback)
    omega

theorem Held.count_le (h : Held p received) (hw : Wanted p.leadCode.packetTotal received) :
    p.leadCode.packetCount ≤ p.leadCode.packetTotal := by
  rw [h.count, ← Finset.card_range p.leadCode.packetTotal]
  apply Finset.card_le_card
  intro n hn
  obtain ⟨hlt, hsome⟩ := mem_seen.mp hn
  exact Finset.mem_range.mpr ((hw n hsome).mpr hlt)

@[simp] theorem seen_none : seen (fun _ => none) = ∅ := by simp [seen]

theorem seen_update (hn : n < 123) :
    seen (Function.update received n (some d)) = insert n (seen received) := by
  ext m
  rw [Finset.mem_insert, mem_seen, mem_seen]
  by_cases hm : m = n
  · subst hm
    simp [hn]
  · simp [hm]

theorem seen_update_ge (hn : 123 ≤ n) :
    seen (Function.update received n (some d)) = seen received := by
  ext m
  rw [mem_seen, mem_seen]
  by_cases hm : m = n
  · subst hm
    simp only [Nat.not_lt.mpr hn, false_and]
  · simp [hm]

theorem Wanted.update {total : Nat} (h : Wanted total received) (hn : n < total ↔ n < 123) :
    Wanted total (Function.update received n (some d)) := by
  intro m hm
  by_cases hmn : m = n
  · rw [hmn]
    exact hn
  · rw [Function.update_of_ne hmn] at hm
    exact h m hm

/-- A packet above the bitmap leaves the rest as it is. -/
theorem Held.update_ge (h : Held p received) (hn : 123 ≤ n) :
    Held p (Function.update received n (some d)) := by
  have hother : ∀ m < 123, Function.update received n (some d) m = received m := fun m hm =>
    Function.update_of_ne (by omega) _ _
  refine ⟨h.length, by rw [seen_update_ge hn]; exact h.count, ?_, ?_⟩
  · intro m hm
    rw [hother m hm]
    exact h.bits m hm
  · intro m hm d' hd
    rw [hother m hm] at hd
    exact h.buff m hm d' hd

theorem sub_five {packetNum : UInt8} (h : 5 ≤ packetNum.toNat) :
    (packetNum - 5).toNat = packetNum.toNat - 5 :=
  UInt8.toNat_sub_of_le _ _ (UInt8.le_iff_toNat_le.mpr h)

theorem Held.push {packetNum d0 d1 : UInt8} (h : Held p received) (h5 : 5 ≤ packetNum.toNat)
    (h127 : packetNum.toNat ≤ 127) {e : Int} {leadCode : LeadCode} {srcDataBuff : Nat → UInt8}
    (hpush : decPushData p.leadCode packetNum p.srcDataBuff d0 d1 = (e, leadCode, srcDataBuff)) :
    Held { p with leadCode, srcDataBuff }
        (Function.update received (packetNum.toNat - 5) (some (d0, d1))) ∧
      leadCode.packetTotal = p.leadCode.packetTotal ∧
      leadCode.leadCompleteFlag = p.leadCode.leadCompleteFlag ∧
      e = leadCode.packetCount - leadCode.packetTotal := by
  have hnum := sub_five h5
  have hbuff : ∀ n < 123, ∀ d,
      Function.update received (packetNum.toNat - 5) (some (d0, d1)) n = some d →
      (srcDataBuff (n * 2), srcDataBuff (n * 2 + 1)) = d := by
    intro n hn d hd
    have hput : srcDataBuff = Function.update
        (Function.update p.srcDataBuff ((packetNum - 5).toNat * 2) d0)
        ((packetNum - 5).toNat * 2 + 1) d1 := (congrArg (fun r => r.2.2) hpush).symm
    rw [hput, hnum]
    by_cases hnn : n = packetNum.toNat - 5
    · subst hnn
      simpa using hd
    · rw [Function.update_of_ne hnn] at hd
      rw [Function.update_of_ne (by omega), Function.update_of_ne (by omega),
        Function.update_of_ne (by omega), Function.update_of_ne (by omega)]
      exact h.buff n hn d hd
  have hbit := h.bits (packetNum - 5).toNat (by omega)
  cases hc : counted p.leadCode.countPkt (packetNum - 5).toNat with
  | true =>
    rw [decPushData, decValid_of_counted hc] at hpush
    obtain ⟨rfl, rfl, rfl⟩ := hpush
    rw [hc, hnum] at hbit
    refine ⟨⟨h.length, ?_, ?_, hbuff⟩, rfl, rfl, rfl⟩
    · -- the packet has come before
      rw [seen_update (by omega), Finset.insert_eq_of_mem]
      · exact h.count
      · exact mem_seen.mpr ⟨by omega, hbit.symm⟩
    · intro n hn
      by_cases hnn : n = packetNum.toNat - 5
      · rw [hnn, Function.update_self, ← hnum]
        exact hc
      · rw [Function.update_of_ne hnn]
        exact h.bits n hn
  | false =>
    rw [decPushData, decValid_of_fresh (by omega) hc] at hpush
    obtain ⟨rfl, rfl, rfl⟩ := hpush
    rw [hc, hnum] at hbit
    refine ⟨⟨?_, ?_, ?_, hbuff⟩, rfl, rfl, rfl⟩
    · exact (List.length_modify ..).trans h.length
    · have hnew : packetNum.toNat - 5 ∉ seen received := by
        rw [mem_seen, ← hbit]
        simp
      rw [seen_update (by omega), Finset.card_insert_of_notMem hnew, ← h.count]
      rfl
    · intro n hn
      dsimp only
      rw [counted_modify h.length (by omega), hnum]
      by_cases hnn : n = packetNum.toNat - 5
      · simp [hnn]
      · simp [hnn, h.bits n hn]

/-! ## One frame -/

/-- The lead code while it is collected. -/
structure Blank (leadCode : LeadCode) : Prop where
  count : leadCode.packetCount = 0
  bits : leadCode.countPkt = List.replicate 16 0
  total : leadCode.ssidpwdLen ≠ 0 → 0 < leadCode.packetTotal

structure Inv (s : Session ρ) : Prop where
  blank : s.priv.leadCode.leadCompleteFlag = false → Blank s.priv.leadCode
  held : s.Collecting → Held s.priv s.received
  wanted : s.Collecting → Wanted s.priv.leadCode.packetTotal s.received
  missing : s.Collecting → s.priv.leadCode.packetCount < s.priv.leadCode.packetTotal

theorem blank_reset : Blank scResetLeadCode := ⟨rfl, rfl, fun h => absurd rfl h⟩

theorem inv_start {result : ρ} : Inv ⟨start result, fun _ => none⟩ := by
  have hopen : ¬Session.Collecting ⟨start result, fun _ => none⟩ := fun h => nomatch h.1
  exact ⟨fun _ => blank_reset, fun h => absurd h hopen, fun h => absurd h hopen,
    fun h => absurd h hopen⟩

/-- The lead code stays blank, and is complete only with a length. -/
theorem Blank.getLeadCode {leadCode leadCode' : LeadCode} {status status' : Status} {a : Addr}
    {ret : Nat} (h : Blank leadCode)
    (hget : decGetLeadCode leadCode status a = (ret, leadCode', status')) :
    Blank leadCode' ∧ leadCode'.leadCompleteFlag = leadCode.leadCompleteFlag ∧
      (ret = leadCodeComplete → 0 < leadCode'.packetTotal) := by
  unfold decGetLeadCode at hget
  dsimp only at hget
  split at hget
  · obtain ⟨rfl, rfl, rfl⟩ := hget
    exact ⟨h, rfl, nofun⟩
  · split at hget
    · rename_i hdone
      obtain ⟨rfl, rfl, rfl⟩ := hget
      simp only [not_or] at hdone
      exact ⟨⟨h.count, h.bits, h.total⟩, rfl, fun _ => h.total hdone.2.1⟩
    · split at hget
      · obtain ⟨rfl, rfl, rfl⟩ := hget
        exact ⟨h, rfl, nofun⟩
      · split at hget
        · obtain ⟨rfl, rfl, rfl⟩ := hget
          exact ⟨⟨h.count, h.bits, h.total⟩, rfl, nofun⟩
        · obtain ⟨rfl, rfl, rfl⟩ := hget
          exact ⟨⟨h.count, h.bits, fun _ => by dsimp only; omega⟩, rfl, nofun⟩
        · obtain ⟨rfl, rfl, rfl⟩ := hget
          exact ⟨⟨h.count, h.bits, h.total⟩, rfl, nofun⟩
        · obtain ⟨rfl, rfl, rfl⟩ := hget
          exact ⟨⟨h.count, h.bits, h.total⟩, rfl, nofun⟩
        · obtain ⟨rfl, rfl, rfl⟩ := hget
          exact ⟨⟨h.count, h.bits, h.total⟩, rfl, nofun⟩

theorem recv_same {p' : Priv ρ} {call : Option (Nat → UInt8)}
    (h : scDecPacketDecode decode p f = (p.status, p', call)) (hstatus : p'.status = p.status) :
    smartconfigRecvRawframe decode p f = (p', call) := by
  unfold smartconfigRecvRawframe
  rw [h]
  dsimp only
  rw [hstatus, if_neg, if_neg]
  · exact fun hlocked => hlocked.2 rfl
  · intro hdone
    rw [hdone.1] at hdone
    exact absurd hdone.2 (Nat.lt_irrefl _)

theorem lt_complete {status : Status} :
    status.value < Status.complete.value ↔ status ≠ .complete := by
  cases status <;> simp [Status.value]

theorem decodeAll_of_missing
    (h : p.status ≠ .complete → p.leadCode.packetCount < p.leadCode.packetTotal) :
    decodeAll decode p = (p.status, p, none) := by
  unfold decodeAll
  rw [if_neg]
  intro hall
  have hlt := h (lt_complete.mp hall.1)
  omega

/-- A frame that leaves the state as it is, with what it says about the packets. -/
theorem inv_same (h : Inv s) (hnum : Numbered s f)
    (hframe : smartconfigRecvRawframe decode s.priv f = (s.priv, none))
    (hpacket : s.Collecting → ∀ n d, f.packet = some (n, d) → 123 ≤ n) :
    Inv (s.recv decode f) ∧ Reassembles decode s f := by
  have hpriv : (s.recv decode f).priv = s.priv := by rw [Session.recv, hframe]
  have hcall : s.call decode f = none := by rw [Session.call, hframe]
  have hnote : s.Collecting → Held s.priv (s.note f) ∧
      Wanted s.priv.leadCode.packetTotal (s.note f) := by
    intro hc
    unfold Session.note
    rw [if_pos hc.1]
    cases hp : f.packet with
    | none => exact ⟨h.held hc, h.wanted hc⟩
    | some packet =>
      exact ⟨(h.held hc).update_ge (hpacket hc _ _ hp), (h.wanted hc).update (hnum hc _ _ hp)⟩
  have hcollect : (s.recv decode f).Collecting ↔ s.Collecting := by
    rw [Session.Collecting, hpriv]
    rfl
  refine ⟨⟨?_, ?_, ?_, ?_⟩, ?_, ?_⟩
  · rw [hpriv]
    exact h.blank
  · intro hc
    rw [hpriv]
    exact (hnote (hcollect.mp hc)).1
  · intro hc
    rw [hpriv]
    exact (hnote (hcollect.mp hc)).2
  · intro hc
    rw [hpriv]
    exact h.missing (hcollect.mp hc)
  · rw [hcall]
    constructor
    · exact nofun
    · rintro ⟨hc, hall⟩
      obtain ⟨hheld, hwanted⟩ := hnote hc
      have hfull := (hheld.full_iff hwanted).mpr hall
      exact absurd (h.missing hc) (by omega)
  · rw [hcall]
    exact nofun

theorem Held.empty {status : Status} {srcDataBuff : Nat → UInt8} {result : ρ}
    {leadCode : LeadCode} (h : Blank leadCode) :
    Held ⟨leadCode, status, srcDataBuff, result⟩ fun _ => none := by
  refine ⟨by rw [h.bits]; rfl, h.count.trans (by simp), ?_, nofun⟩
  intro n hn
  unfold counted
  rw [h.bits, List.getD_eq_getElem?_getD, List.getElem?_replicate]
  split <;> simp

/-- The status that a frame leaves. -/
theorem recv_fields (status : Status) (p' : Priv ρ) (call : Option (Nat → UInt8))
    (h : scDecPacketDecode decode p f = (status, p', call)) :
    ∃ status', smartconfigRecvRawframe decode p f = ({ p' with status := status' }, call) := by
  unfold smartconfigRecvRawframe
  rw [h]
  dsimp only
  split
  · exact ⟨_, rfl⟩
  · split
    · exact ⟨_, rfl⟩
    · exact ⟨_, rfl⟩

theorem inv_lead {a : Addr} (h : Inv s) (hflag : s.priv.leadCode.leadCompleteFlag = false)
    (hsrc : f.source = some a) (hnum : a.b3.toNat > leadCodeNome ∧ a.b3.toNat < leadCodeComplete) :
    Inv (s.recv decode f) ∧ Reassembles decode s f := by
  generalize hget : decGetLeadCode s.priv.leadCode s.priv.status a = result
  obtain ⟨ret, leadCode, status⟩ := result
  obtain ⟨hblank, hsame, htotal⟩ := (h.blank hflag).getLeadCode hget
  generalize hlead : (if ret = leadCodeComplete then { leadCode with leadCompleteFlag := true }
    else leadCode) = leadCode'
  have hframe : scDecPacketDecode decode s.priv f =
      (status, { s.priv with leadCode := leadCode' }, none) := by
    unfold scDecPacketDecode
    simp only [hsrc, hnum, and_self, if_true, hflag, Bool.false_eq_true, if_false, hget, hlead]
  obtain ⟨status', hrecv⟩ := recv_fields _ _ _ hframe
  have hpriv : (s.recv decode f).priv = { s.priv with leadCode := leadCode', status := status' } := by
    rw [Session.recv, hrecv]
  have hcall : s.call decode f = none := by rw [Session.call, hrecv]
  have hnone : (s.recv decode f).received = fun _ => none := by
    rw [Session.recv, Session.note, hflag, if_neg Bool.false_ne_true]
  have hblank' : Blank leadCode' := by
    rw [← hlead]
    split
    · exact ⟨hblank.count, hblank.bits, hblank.total⟩
    · exact hblank
  have hdone : leadCode'.leadCompleteFlag = true → 0 < leadCode'.packetTotal := by
    rw [← hlead]
    split
    · rename_i hret
      exact fun _ => htotal hret
    · rw [hsame, hflag]
      exact nofun
  refine ⟨⟨?_, ?_, ?_, ?_⟩, ?_, ?_⟩
  · rw [hpriv]
    exact fun _ => hblank'
  · rw [hpriv, hnone]
    exact fun _ => .empty hblank'
  · rw [hnone]
    exact fun _ => nofun
  · intro hc
    have hflag' := hc.1
    rw [hpriv] at hflag' ⊢
    dsimp only at hflag' ⊢
    rw [hblank'.count]
    exact hdone hflag'
  · rw [hcall]
    constructor
    · exact nofun
    · rintro ⟨hc, -⟩
      rw [hc.1] at hflag
      exact nomatch hflag
  · rw [hcall]
    exact nofun

/-- After the data is complete nothing is decoded. -/
theorem inv_complete {p' : Priv ρ} (hstatus : s.priv.status = .complete)
    (hframe : smartconfigRecvRawframe decode s.priv f = (p', none))
    (hflag : p'.leadCode.leadCompleteFlag = true) (hsame : p'.status = s.priv.status) :
    Inv (s.recv decode f) ∧ Reassembles decode s f := by
  have hpriv : (s.recv decode f).priv = p' := by rw [Session.recv, hframe]
  have hcall : s.call decode f = none := by rw [Session.call, hframe]
  have hopen : ¬(s.recv decode f).Collecting := by
    rw [Session.Collecting, hpriv, hsame]
    exact fun hc => hc.2 hstatus
  refine ⟨⟨?_, fun hc => absurd hc hopen, fun hc => absurd hc hopen, fun hc => absurd hc hopen⟩,
    ?_, ?_⟩
  · rw [hpriv, hflag]
    exact nofun
  · rw [hcall]
    exact ⟨nofun, fun hc => absurd hstatus hc.1.2⟩
  · rw [hcall]
    exact nofun

/-- The frame that completes the data. -/
theorem inv_decoded {buf : Nat → UInt8} (hc : s.Collecting) (hcall : s.call decode f = some buf)
    (hall : ∀ n < s.priv.leadCode.packetTotal, (s.note f n).isSome = true)
    (hbuffer : ∀ n < s.priv.leadCode.packetTotal,
      s.note f n = some (buf (n * 2), buf (n * 2 + 1)))
    (hopen : ¬(s.recv decode f).Collecting)
    (hblank : (s.recv decode f).priv.leadCode.leadCompleteFlag = false →
      Blank (s.recv decode f).priv.leadCode) :
    Inv (s.recv decode f) ∧ Reassembles decode s f := by
  refine ⟨⟨hblank, fun hc => absurd hc hopen, fun hc => absurd hc hopen,
    fun hc => absurd hc hopen⟩, ?_, ?_⟩
  · rw [hcall]
    exact ⟨fun _ => ⟨hc, hall⟩, fun _ => rfl⟩
  · rw [hcall]
    rintro _ ⟨⟩
    exact hbuffer

/-- The packet is stored, and there are others missing. -/
theorem inv_more {leadCode : LeadCode} {srcDataBuff : Nat → UInt8}
    (hflag : leadCode.leadCompleteFlag = true)
    (hheld : Held { s.priv with leadCode, srcDataBuff } (s.note f))
    (hwanted : Wanted leadCode.packetTotal (s.note f))
    (htotal : leadCode.packetTotal = s.priv.leadCode.packetTotal)
    (hmore : leadCode.packetCount < leadCode.packetTotal)
    (hframe : scDecPacketDecode decode s.priv f =
      (s.priv.status, { s.priv with leadCode, srcDataBuff }, none)) :
    Inv (s.recv decode f) ∧ Reassembles decode s f := by
  have hrecv := recv_same hframe rfl
  have hcall : s.call decode f = none := by rw [Session.call, hrecv]
  have hpriv : (s.recv decode f).priv = { s.priv with leadCode, srcDataBuff } := by
    rw [Session.recv, hrecv]
  refine ⟨⟨?_, ?_, ?_, ?_⟩, ?_, ?_⟩
  · rw [hpriv]
    dsimp only
    rw [hflag]
    exact nofun
  · rw [hpriv]
    exact fun _ => hheld
  · rw [hpriv]
    exact fun _ => hwanted
  · rw [hpriv]
    exact fun _ => hmore
  · rw [hcall]
    constructor
    · exact nofun
    · rintro ⟨-, hall⟩
      have hcount := (hheld.full_iff hwanted).mpr (htotal ▸ hall)
      dsimp only at hcount
      omega
  · rw [hcall]
    exact nofun

/-- The packet is the last one. -/
theorem inv_last {leadCode : LeadCode} {srcDataBuff : Nat → UInt8} (hc : s.Collecting)
    (hflag : leadCode.leadCompleteFlag = true)
    (hheld : Held { s.priv with leadCode, srcDataBuff } (s.note f))
    (hwanted : Wanted leadCode.packetTotal (s.note f))
    (htotal : leadCode.packetTotal = s.priv.leadCode.packetTotal)
    (hlast : leadCode.packetTotal = leadCode.packetCount)
    (hframe : scDecPacketDecode decode s.priv f =
      decodeAll decode { s.priv with leadCode, srcDataBuff }) :
    Inv (s.recv decode f) ∧ Reassembles decode s f := by
  have hall := (hheld.full_iff hwanted).mp hlast
  have hbuffer : ∀ n < s.priv.leadCode.packetTotal,
      s.note f n = some (srcDataBuff (n * 2), srcDataBuff (n * 2 + 1)) := by
    intro n hn
    have hsome := hall n (htotal ▸ hn)
    obtain ⟨d, hd⟩ := Option.isSome_iff_exists.mp hsome
    rw [hd, ← hheld.buff n ((hwanted n hsome).mp (htotal ▸ hn)) d hd]
  rw [decodeAll, if_pos ⟨lt_complete.mpr hc.2, hlast⟩] at hframe
  dsimp only at hframe
  generalize hdec : decode leadCode srcDataBuff s.priv.result = outcome at hframe
  obtain ⟨ok, result⟩ := outcome
  cases ok with
  | true =>
    rw [if_pos rfl] at hframe
    have hrecv : smartconfigRecvRawframe decode s.priv f =
        (⟨leadCode, .complete, Function.update srcDataBuff 0 0, result⟩, some srcDataBuff) := by
      unfold smartconfigRecvRawframe
      rw [hframe]
      exact if_pos ⟨rfl, lt_complete.mpr hc.2⟩
    have hpriv : (s.recv decode f).priv =
        ⟨leadCode, .complete, Function.update srcDataBuff 0 0, result⟩ := by
      rw [Session.recv, hrecv]
    refine inv_decoded hc (by rw [Session.call, hrecv]) (htotal ▸ hall) hbuffer ?_ ?_
    · rw [Session.Collecting, hpriv]
      exact fun hc => hc.2 rfl
    · rw [hpriv]
      dsimp only
      rw [hflag]
      exact nofun
  | false =>
    rw [if_neg Bool.false_ne_true] at hframe
    obtain ⟨status', hrecv⟩ := recv_fields _ _ _ hframe
    have hlead : (s.recv decode f).priv.leadCode = scResetLeadCode := by
      rw [Session.recv, hrecv]
    refine inv_decoded hc (by rw [Session.call, hrecv]) (htotal ▸ hall) hbuffer ?_ ?_
    · rw [Session.Collecting, hlead]
      exact fun hc => nomatch hc.1
    · rw [hlead]
      exact fun _ => blank_reset

theorem inv_push {a : Addr} (h : Inv s) (hnum : Numbered s f)
    (hflag : s.priv.leadCode.leadCompleteFlag = true) (hsrc : f.source = some a)
    (h5 : 5 ≤ a.b3.toNat) (h127 : a.b3.toNat ≤ 127) :
    Inv (s.recv decode f) ∧ Reassembles decode s f := by
  generalize hpush : decPushData s.priv.leadCode a.b3 s.priv.srcDataBuff a.b4 a.b5 = result
  obtain ⟨e, leadCode, srcDataBuff⟩ := result
  have hpacket : f.packet = some (a.b3.toNat - 5, a.b4, a.b5) := by
    unfold Frame.packet
    rw [hsrc]
    exact if_pos h5
  have hnote : s.note f =
      Function.update s.received (a.b3.toNat - 5) (some (a.b4, a.b5)) := by
    unfold Session.note
    rw [if_pos hflag, hpacket]
  have hframe : scDecPacketDecode decode s.priv f =
      if e ≠ 0 then (s.priv.status, { s.priv with leadCode, srcDataBuff }, none)
      else decodeAll decode { s.priv with leadCode, srcDataBuff } := by
    have hdata : ¬(a.b3.toNat > leadCodeNome ∧ a.b3.toNat < leadCodeComplete) :=
      fun hlead => Nat.not_lt.mpr h5 hlead.2
    unfold scDecPacketDecode
    simp only [hsrc, hdata, if_false, hflag, Bool.not_true, Bool.false_eq_true, h5, h127, and_self,
      if_true, hpush]
  have hsub : leadCode.leadCompleteFlag = s.priv.leadCode.leadCompleteFlag := by
    have hlead : leadCode = (decPushData s.priv.leadCode a.b3 s.priv.srcDataBuff a.b4 a.b5).2.1 := by
      rw [hpush]
    rw [hlead]
    rfl
  by_cases hstatus : s.priv.status = .complete
  · have hquiet : scDecPacketDecode decode s.priv f =
        (s.priv.status, { s.priv with leadCode, srcDataBuff }, none) := by
      rw [hframe]
      split
      · rfl
      · exact decodeAll_of_missing fun hc => absurd hstatus hc
    exact inv_complete hstatus (recv_same hquiet rfl) (hsub.trans hflag) rfl
  have hc : s.Collecting := ⟨hflag, hstatus⟩
  obtain ⟨hheld, htotal, -, he⟩ := (h.held hc).push h5 h127 hpush
  rw [← hnote] at hheld
  have hwanted : Wanted leadCode.packetTotal (s.note f) := by
    rw [htotal, hnote]
    exact (h.wanted hc).update (hnum hc _ _ hpacket)
  have hle := hheld.count_le hwanted
  dsimp only at hle
  by_cases hzero : e = 0
  · rw [if_neg (not_not.mpr hzero)] at hframe
    exact inv_last hc (hsub.trans hflag) hheld hwanted htotal (by omega) hframe
  · rw [if_pos hzero] at hframe
    exact inv_more (hsub.trans hflag) hheld hwanted htotal (by omega) hframe

theorem inv_step (h : Inv s) (hnum : Numbered s f) :
    Inv (s.recv decode f) ∧ Reassembles decode s f := by
  cases hsrc : f.source with
  | none =>
    have hframe : scDecPacketDecode decode s.priv f = (s.priv.status, s.priv, none) := by
      unfold scDecPacketDecode
      rw [hsrc]
    refine inv_same h hnum (recv_same hframe rfl) fun _ n d hp => ?_
    rw [Frame.packet, hsrc] at hp
    exact nomatch hp
  | some a =>
    by_cases hlead : a.b3.toNat > leadCodeNome ∧ a.b3.toNat < leadCodeComplete
    · cases hflag : s.priv.leadCode.leadCompleteFlag with
      | false => exact inv_lead h hflag hsrc hlead
      | true =>
        have hframe : scDecPacketDecode decode s.priv f = (s.priv.status, s.priv, none) := by
          unfold scDecPacketDecode
          simp only [hsrc, hlead, hflag, and_self, if_true]
        refine inv_same h hnum (recv_same hframe rfl) fun _ n d hp => ?_
        rw [Frame.packet, hsrc] at hp
        dsimp only at hp
        split at hp
        · rename_i h5
          exact absurd hlead.2 (Nat.not_lt.mpr h5)
        · exact nomatch hp
    · cases hflag : s.priv.leadCode.leadCompleteFlag with
      | false =>
        have hframe : scDecPacketDecode decode s.priv f = (s.priv.status, s.priv, none) := by
          unfold scDecPacketDecode
          simp only [hsrc, hlead, hflag, if_false, Bool.not_false, if_true]
        refine inv_same h hnum (recv_same hframe rfl) fun hc => ?_
        exact nomatch hflag.symm.trans hc.1
      | true =>
        by_cases hdata : a.b3.toNat ≥ 5 ∧ a.b3.toNat ≤ 127
        · exact inv_push h hnum hflag hsrc hdata.1 hdata.2
        · have hframe : scDecPacketDecode decode s.priv f = (s.priv.status, s.priv, none) := by
            unfold scDecPacketDecode
            simp only [hsrc, hlead, hflag, hdata, if_false, Bool.not_true, Bool.false_eq_true]
            exact decodeAll_of_missing fun hstatus => h.missing ⟨hflag, hstatus⟩
          refine inv_same h hnum (recv_same hframe rfl) fun _ n d hp => ?_
          rw [Frame.packet, hsrc] at hp
          dsimp only at hp
          split at hp
          · obtain ⟨rfl, -⟩ := hp
            omega
          · exact nomatch hp

theorem decodes_when_complete {result : ρ} {fs : List Frame}
    (h : Run (Guarded (Step decode) Numbered) ⟨start result, fun _ => none⟩ fs s)
    (hnum : Numbered s f) : Reassembles decode s f := by
  have hinv := h.invariant inv_start fun s f _ hI hstep => by
    obtain ⟨hnum, hstep⟩ := hstep
    cases hstep with
    | recv => exact (inv_step hI hnum).1
  exact (inv_step hinv hnum).2

end

/-! ## A total of two packets -/

section

variable {ρ : Type} {decode : DataDecode ρ} {s : Session ρ} {fs : List Frame}

theorem run_recv : Run (Step decode) s fs (fs.foldl (Session.recv decode) s) := by
  induction fs generalizing s with
  | nil => exact .nil s
  | cons f fs ih => exact .cons .recv ih

/-- Without data packets there is nothing to ask of the numbers. -/
theorem run_quiet (h : ∀ f ∈ fs, f.packet = none) :
    Run (Guarded (Step decode) Numbered) s fs (fs.foldl (Session.recv decode) s) := by
  induction fs generalizing s with
  | nil => exact .nil s
  | cons f fs ih =>
    obtain ⟨hf, hfs⟩ := List.forall_mem_cons.mp h
    have hnum : Numbered s f := fun _ n d hp => nomatch hf.symm.trans hp
    exact .cons ⟨hnum, .recv⟩ (ih hfs)

end

def startSession : Session Unit := ⟨start (), fun _ => none⟩

def frame (num d0 d1 : UInt8) : Frame := ⟨⟨0x01, 0x00, 0x5e, num, d0, d1⟩, ⟨0, 0, 0, 0, 0, 0⟩⟩

def leadFrame (num data : UInt8) : Frame := frame num data (calCrc8 [data])

/-- A lead code for two characters. The last frame makes it complete. -/
def leadFrames : List Frame :=
  [leadFrame 1 6, leadFrame 2 2, leadFrame 3 1, leadFrame 4 9, leadFrame 1 6]

def refuse : DataDecode Unit := fun _ _ _ => (false, ())

def known : Session Unit := leadFrames.foldl (Session.recv refuse) startSession

theorem known_total : known.Collecting ∧ known.priv.leadCode.packetTotal = 2 := by
  unfold Session.Collecting
  decide

theorem numbered_known {s : Session Unit} {num d0 d1 : UInt8}
    (htotal : s.priv.leadCode.packetTotal = 2)
    (hpacket : (frame num d0 d1).packet = some (num.toNat - 5, d0, d1))
    (hnum : num.toNat - 5 < 2) : Numbered s (frame num d0 d1) := by
  intro _ n d hp
  rw [hpacket] at hp
  obtain ⟨rfl, rfl⟩ := hp
  omega

/-- The second packet comes first. -/
theorem decodes_when_complete_two : ∃ s, Run (Step refuse) startSession
    (leadFrames ++ [frame 6 3 4]) s ∧ Reassembles refuse s (frame 5 1 2) ∧
    (s.call refuse (frame 5 1 2)).isSome = true := by
  have hrun : Run (Guarded (Step refuse) Numbered) startSession leadFrames known :=
    run_quiet (by decide)
  have hfirst : Run (Guarded (Step refuse) Numbered) known [frame 6 3 4]
      (known.recv refuse (frame 6 3 4)) :=
    .single ⟨numbered_known known_total.2 rfl (by decide), .recv⟩
  refine ⟨_, (hrun.append hfirst).mono fun _ _ _ h => h.2, ?_, by decide⟩
  exact decodes_when_complete (hrun.append hfirst)
    (numbered_known (by decide) rfl (by decide))

/-- A packet with the number 5 stands in for the one with the number 1. -/
theorem stray_packet_decodes : ¬∀ (decode : DataDecode Unit) (fs : List Frame) (s : Session Unit)
    (f : Frame), Run (Step decode) startSession fs s → Reassembles decode s f := by
  intro hclaim
  have hcall := (hclaim refuse (leadFrames ++ [frame 5 1 2]) _ (frame 10 5 6) run_recv).invoked
  have hmissing := (hcall.mp (by decide)).2 1 (by decide)
  exact absurd hmissing (by decide)

end SmartConfig
end XR806

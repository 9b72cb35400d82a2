import Mathlib.Data.List.Basic
import Mathlib.Data.Nat.Init
import Mathlib.Algebra.GroupWithZero.Nat

/-!
# XR806.SmartLink.VoicePrint

`vp_process_result` of policy 2 and `wlan_voiceprint_get_raw_result`: fragments heard in any order,
each an index and a payload behind a checksum, are put together when fragment 0 has said how many
there are and all of them have come.

A new fragment 0 without payload is copied with a negative length or is counted again and again,
and a new fragment behind the announced ones is counted like one of them. Apart from these, 0 is
returned when the fragments are complete, and only then (`fragments_reassembled`).
-/

namespace XR806
namespace VoicePrint

abbrev Byte := BitVec 8

abbrev Str := List Byte

/-- `VP_DEC_RESULT_MIN_LEN`, `VP_DEC_RESULT_MAX_LEN` and `VP_DEC_RESULT_MAX_NUM`. -/
def minLen : Nat := 4

def maxLen : Nat := 13

def maxNum : Nat := 0x10

/-- What `vp_priv_t` has of the fragments. `resultCnt` and `resultLen` are bytes. -/
structure VpPriv where
  resultTotal : Nat
  resultCnt : Nat
  resultLen : Nat → Nat
  result : Nat → List Byte

/-- As `voiceprint_start` leaves it. -/
def VpPriv.start : VpPriv := ⟨0, 0, fun _ => 0, fun _ => List.replicate maxLen 0⟩

def hex2num (c : Byte) : Int :=
  if 0x30 ≤ c.toNat ∧ c.toNat ≤ 0x39 then c.toNat - 0x30
  else if 0x61 ≤ c.toNat ∧ c.toNat ≤ 0x66 then c.toNat - 0x61 + 10
  else if 0x41 ≤ c.toNat ∧ c.toNat ≤ 0x46 then c.toNat - 0x41 + 10
  else -1

def charAt (data : Str) (i : Nat) : Byte := data.getD i 0

/-- The last two characters are the checksum of those before. -/
def ChksumOk (data : Str) : Prop :=
  let low := hex2num (charAt data (data.length - 1))
  let high := hex2num (charAt data (data.length - 2))
  let sum := ((data.take (data.length - 2)).map BitVec.toNat).sum
  0 ≤ low ∧ 0 ≤ high ∧ (sum + (low.toNat + high.toNat * 16)) % 256 = 0xff

instance (data : Str) : Decidable (ChksumOk data) :=
  inferInstanceAs (Decidable (_ ∧ _ ∧ _))

/-- A call: the state behind it, what it returns, and the length it has copied with. A negative
length overruns the memory, and the state behind it says nothing. -/
structure VpCall where
  priv : VpPriv
  ret : Int
  copied : Option Int

/-- The copy into `result[idx]` and `result_len[idx] = len`. -/
def VpPriv.store (priv : VpPriv) (idx : Nat) (data : List Byte) (len : Int) : VpPriv :=
  { priv with
    resultLen i := if i = idx then (len % 256).toNat else priv.resultLen i
    result i := if i = idx then data.take len.toNat ++ (priv.result i).drop len.toNat
      else priv.result i }

/-- `++priv->result_cnt`. -/
def cntNext (cnt : Nat) : Nat := (cnt + 1) % 256

/-- The loop over the announced fragments. -/
def VpPriv.count (priv : VpPriv) : VpPriv :=
  { priv with
    resultCnt := (List.range priv.resultTotal).foldl
      (fun cnt i => if priv.resultLen i ≠ 0 then cntNext cnt else cnt) priv.resultCnt }

def refused (priv : VpPriv) : VpCall := ⟨priv, -1, none⟩

/-- The end of `vp_process_result`. -/
def checked (priv : VpPriv) (len : Int) : VpCall :=
  ⟨priv, if priv.resultTotal > 0 ∧ priv.resultCnt = priv.resultTotal then 0 else -1, some len⟩

def vpProcessResult (priv : VpPriv) (data : Str) : VpCall :=
  if data.length < minLen ∨ data.length > maxLen then refused priv
  else if ¬ChksumOk data then refused priv
  else
    let idx := hex2num (charAt data 0)
    if idx < 0 ∨ idx ≥ maxNum then refused priv
    else if priv.resultLen idx.toNat ≠ 0 then refused priv
    else if idx = 0 then
      -- the version is skipped
      let tmp := hex2num (charAt data 2)
      if tmp < 0 ∨ tmp ≥ maxNum then refused priv
      else
        let len : Int := data.length - 2 - 3
        let priv := { priv with resultTotal := tmp.toNat + 1 }
        checked (priv.store 0 (data.drop 3) len).count len
    else
      let len : Int := data.length - 2 - 1
      let priv := priv.store idx.toNat (data.drop 1) len
      checked (if priv.resultTotal > 0 then { priv with resultCnt := cntNext priv.resultCnt }
        else priv) len

def runResults (strs : List Str) : VpPriv :=
  strs.foldl (fun priv data => (vpProcessResult priv data).priv) VpPriv.start

inductive VoiceprintStatus
  | normal
  | notready
  | decError
  | complete
  deriving DecidableEq

inductive VoiceprintRet
  | success
  | fail
  | overflow
  deriving DecidableEq

/-- What `wlan_voiceprint_get_raw_result` returns, has written to `result`, and leaves in `len`. -/
def wlanVoiceprintGetRawResult (priv : VpPriv) (status : VoiceprintStatus) (len : Int) :
    VoiceprintRet × List Byte × Int :=
  if status ≠ .complete then (.fail, [], len)
  else
    let totalLen := ((List.range priv.resultTotal).map priv.resultLen).sum
    if totalLen = 0 then (.fail, [], len)
    else if totalLen > len then (.overflow, [], len)
    else (.success, (List.range priv.resultTotal).flatMap fun i =>
      (priv.result i).take (priv.resultLen i), totalLen)

/-! ## The fragments -/

/-- An index, the payload, and for index 0 how many fragments there are. -/
structure Fragment where
  idx : Nat
  total : Option Nat
  payload : Str
  deriving DecidableEq

/-- The characters behind the first `skip`, without the checksum. -/
def payloadOf (data : Str) (skip : Nat) : Str := (data.drop skip).take (data.length - 2 - skip)

/-- The fragment a string is, if its length, checksum, index and announcement are valid. -/
def fragmentOf (data : Str) : Option Fragment :=
  let idx := hex2num (charAt data 0)
  let last := hex2num (charAt data 2)
  if data.length < minLen ∨ data.length > maxLen ∨ ¬ChksumOk data ∨ idx < 0 then none
  else if idx = 0 then
    if last < 0 then none else some ⟨0, some (last.toNat + 1), payloadOf data 3⟩
  else some ⟨idx.toNat, none, payloadOf data 1⟩

/-- The first fragment received of each index, and what fragment 0 announced. -/
structure Collected where
  total : Option Nat
  payload : Nat → Option Str

def Collected.none : Collected := ⟨Option.none, fun _ => Option.none⟩

/-- A fragment received before is not received again. -/
def Collected.receive (c : Collected) (f : Fragment) : Collected :=
  if (c.payload f.idx).isSome then c
  else ⟨f.total.or c.total, fun i => if i = f.idx then some f.payload else c.payload i⟩

def Collected.add (c : Collected) (data : Str) : Collected :=
  match fragmentOf data with
  | Option.none => c
  | some f => c.receive f

def collect (strs : List Str) : Collected := strs.foldl Collected.add Collected.none

/-- All the announced fragments are received. -/
def Collected.Complete (c : Collected) : Prop :=
  ∃ total, c.total = some total ∧ ∀ i < total, (c.payload i).isSome

/-- The payloads in the order of the indices. -/
def Collected.joined (c : Collected) : Str :=
  (List.range (c.total.getD 0)).flatMap fun i => (c.payload i).getD []

/-- A new fragment has a payload and, unless the announced ones are complete, is one of them. -/
def Sound (c : Collected) (data : Str) : Prop :=
  ∀ f, fragmentOf data = some f → c.payload f.idx = Option.none →
    f.payload ≠ [] ∧ ∀ total, c.total = some total → f.idx < total ∨ c.Complete

def AllSound (c : Collected) : List Str → Prop
  | [] => True
  | data :: strs => Sound c data ∧ AllSound (c.add data) strs

/-! ## Counting what is received -/

def Collected.received (c : Collected) (n : Nat) : Nat :=
  (List.range n).countP fun i => (c.payload i).isSome

section

variable {c : Collected} {f : Fragment} {n m : Nat}

theorem received_succ : c.received (n + 1) = c.received n + if (c.payload n).isSome then 1 else 0 := by
  rw [Collected.received, List.range_succ, List.countP_append, List.countP_singleton]
  rfl

theorem received_le (c : Collected) (n : Nat) : c.received n ≤ n :=
  Nat.le_trans List.countP_le_length (Nat.le_of_eq List.length_range)

theorem received_mono (h : n ≤ m) : c.received n ≤ c.received m := by
  induction m, h using Nat.le_induction with
  | base => exact Nat.le_refl _
  | succ m _ ih =>
    rw [received_succ]
    exact Nat.le_trans ih (Nat.le_add_right ..)

theorem received_all : c.received n = n ↔ ∀ i < n, (c.payload i).isSome := by
  have h := List.countP_eq_length (l := List.range n) (p := fun i => (c.payload i).isSome)
  rw [List.length_range] at h
  simp only [List.mem_range] at h
  exact h

theorem complete_iff {total : Nat} (htotal : c.total = some total) :
    c.Complete ↔ c.received total = total := by
  rw [received_all]
  refine ⟨fun ⟨_, h, hall⟩ => ?_, fun hall => ⟨total, htotal, hall⟩⟩
  obtain rfl := Option.some.inj (htotal.symm.trans h)
  exact hall

theorem receive_known (h : (c.payload f.idx).isSome) : c.receive f = c := if_pos h

theorem receive_new (h : c.payload f.idx = none) :
    c.receive f =
      ⟨f.total.or c.total, fun i => if i = f.idx then some f.payload else c.payload i⟩ := by
  rw [Collected.receive, h]
  rfl

/-- A new fragment counts one among those its index is below. -/
theorem received_receive (h : c.payload f.idx = none) (n : Nat) :
    (c.receive f).received n = c.received n + if f.idx < n then 1 else 0 := by
  induction n with
  | zero => rfl
  | succ n ih =>
    rw [received_succ, received_succ, ih]
    by_cases hn : n = f.idx
    · have hsome : ((c.receive f).payload n).isSome := by simp [receive_new h, hn]
      have hnone : ¬(c.payload n).isSome := by simp [hn, h]
      rw [if_pos hsome, if_neg hnone, if_neg (by omega), if_pos (by omega)]
    · have hsame : (c.receive f).payload n = c.payload n := by
        rw [receive_new h]
        exact if_neg hn
      rw [hsame]
      split <;> split <;> split <;> omega

end

/-! ## What a string is -/

section

variable {priv : VpPriv} {data : Str} {f : Fragment}

theorem hex2num_lt (c : Byte) : hex2num c < maxNum := by
  unfold hex2num maxNum
  split
  · omega
  split
  · omega
  split <;> omega

/-- The two kinds of fragments, fragment 0 and the others. -/
theorem fragmentOf_cases (h : fragmentOf data = some f) :
    minLen ≤ data.length ∧ data.length ≤ maxLen ∧ ChksumOk data ∧
      ((hex2num (charAt data 0) = 0 ∧ 0 ≤ hex2num (charAt data 2) ∧
          f = ⟨0, some ((hex2num (charAt data 2)).toNat + 1), payloadOf data 3⟩) ∨
        (0 < hex2num (charAt data 0) ∧
          f = ⟨(hex2num (charAt data 0)).toNat, none, payloadOf data 1⟩)) := by
  unfold fragmentOf at h
  dsimp only at h
  split at h
  · cases h
  rename_i hvalid
  obtain ⟨hmin, hvalid⟩ := not_or.mp hvalid
  obtain ⟨hmax, hvalid⟩ := not_or.mp hvalid
  obtain ⟨hsum, hidx⟩ := not_or.mp hvalid
  refine ⟨Nat.le_of_not_lt hmin, Nat.le_of_not_lt hmax, not_not.mp hsum, ?_⟩
  split at h
  · rename_i h0
    split at h
    · cases h
    · exact .inl ⟨h0, Int.not_lt.mp (by assumption), (Option.some.inj h).symm⟩
  · exact .inr ⟨by omega, (Option.some.inj h).symm⟩

theorem vpProcessResult_none (h : fragmentOf data = none) :
    vpProcessResult priv data = refused priv := by
  have hidx := hex2num_lt (charAt data 0)
  unfold fragmentOf at h
  unfold vpProcessResult
  dsimp only at h ⊢
  split at h
  · rename_i hvalid
    rcases hvalid with hmin | hmax | hsum | hneg
    · rw [if_pos (.inl hmin)]
    · rw [if_pos (.inr hmax)]
    · rw [if_pos hsum]
      exact ite_self _
    · simp only [hneg, true_or, if_true, ite_self]
  · split at h
    · rename_i h0
      split at h
      · rename_i hlast
        simp only [h0, hlast, true_or, if_true, ite_self]
      · cases h
    · cases h

theorem vpProcessResult_known (h : fragmentOf data = some f) (hlen : priv.resultLen f.idx ≠ 0) :
    vpProcessResult priv data = refused priv := by
  obtain ⟨hmin, hmax, hsum, hkind⟩ := fragmentOf_cases h
  have hlt := hex2num_lt (charAt data 0)
  unfold vpProcessResult
  dsimp only
  rw [if_neg (by omega), if_neg (not_not.mpr hsum)]
  rcases hkind with ⟨h0, _, rfl⟩ | ⟨h0, rfl⟩
  · rw [if_neg (by omega), h0]
    exact if_pos hlen
  · rw [if_neg (by omega)]
    exact if_pos hlen

/-- The payload at the start of its row. -/
def VpPriv.put (priv : VpPriv) (f : Fragment) : VpPriv :=
  { priv with
    resultLen i := if i = f.idx then f.payload.length else priv.resultLen i
    result i := if i = f.idx then f.payload ++ (priv.result i).drop f.payload.length
      else priv.result i }

theorem length_payloadOf (data : Str) (skip : Nat) :
    (payloadOf data skip).length = data.length - 2 - skip := by
  rw [payloadOf, List.length_take, List.length_drop]
  omega

theorem store_payloadOf {skip : Nat} (hne : payloadOf data skip ≠ [])
    (hmax : data.length ≤ maxLen) (priv : VpPriv) (idx : Nat) (total : Option Nat) :
    (data.length - 2 - skip : Int) = (payloadOf data skip).length ∧
      priv.store idx (data.drop skip) (data.length - 2 - skip) =
        priv.put ⟨idx, total, payloadOf data skip⟩ := by
  have hpos := List.length_pos_of_ne_nil hne
  have hlength := length_payloadOf data skip
  have hlen : (data.length - 2 - skip : Int) = (payloadOf data skip).length := by omega
  have htake : (data.drop skip).take (payloadOf data skip).length = payloadOf data skip := by
    rw [hlength]
    rfl
  have hbyte : (((payloadOf data skip).length : Int) % 256).toNat =
      (payloadOf data skip).length := by
    unfold maxLen at hmax
    omega
  refine ⟨hlen, ?_⟩
  rw [hlen, VpPriv.store, VpPriv.put, hbyte, Int.toNat_natCast, htake]

/-- What becomes of a new fragment that has a payload. -/
theorem vpProcessResult_new (h : fragmentOf data = some f) (hlen : priv.resultLen f.idx = 0)
    (hne : f.payload ≠ []) :
    f.payload.length ≤ maxLen ∧ f.idx < maxNum ∧
      ((∃ total, 0 < total ∧ total ≤ maxNum ∧ f.idx = 0 ∧ f.total = some total ∧
          vpProcessResult priv data =
            checked ({ priv with resultTotal := total }.put f).count f.payload.length) ∨
        (0 < f.idx ∧ f.total = none ∧
          vpProcessResult priv data =
            checked (if priv.resultTotal > 0
              then { priv.put f with resultCnt := cntNext priv.resultCnt } else priv.put f)
              f.payload.length)) := by
  obtain ⟨hmin, hmax, hsum, hkind⟩ := fragmentOf_cases h
  have hlt := hex2num_lt (charAt data 0)
  have hlast := hex2num_lt (charAt data 2)
  unfold vpProcessResult
  dsimp only
  rw [if_neg (by omega), if_neg (not_not.mpr hsum)]
  rcases hkind with ⟨h0, hneg, rfl⟩ | ⟨h0, rfl⟩
  · obtain ⟨hint, hstore⟩ := store_payloadOf hne hmax
      { priv with resultTotal := (hex2num (charAt data 2)).toNat + 1 } 0
      (some ((hex2num (charAt data 2)).toNat + 1))
    refine ⟨?_, Nat.zero_lt_succ _, .inl ⟨_, Nat.succ_pos _, by omega, rfl, rfl, ?_⟩⟩
    · dsimp only
      rw [length_payloadOf]
      omega
    · have hfree : ¬priv.resultLen (Int.toNat 0) ≠ 0 := not_not.mpr hlen
      rw [if_neg (by omega), h0, if_neg hfree, if_pos rfl, if_neg (by omega)]
      dsimp only
      rw [← hint, ← hstore]
      rfl
  · obtain ⟨hint, hstore⟩ := store_payloadOf hne hmax priv
      (hex2num (charAt data 0)).toNat none
    refine ⟨?_, by dsimp only; omega, .inr ⟨by dsimp only; omega, rfl, ?_⟩⟩
    · dsimp only
      rw [length_payloadOf]
      omega
    · rw [if_neg (by omega), if_neg (not_not.mpr hlen), if_neg (by omega)]
      dsimp only
      rw [← hint, ← hstore]
      rfl

end

/-! ## One string -/

/-- The rows hold the payloads, and a length of 0 says that there is none. -/
structure Rows (priv : VpPriv) (c : Collected) : Prop where
  unknown : ∀ i, c.payload i = none → priv.resultLen i = 0
  known : ∀ i p, c.payload i = some p →
    p ≠ [] ∧ priv.resultLen i = p.length ∧ (priv.result i).take p.length = p

/-- The counter is that of the announced fragments, until they are complete. -/
structure Counted (priv : VpPriv) (c : Collected) : Prop where
  total : priv.resultTotal = c.total.getD 0
  first : c.total = none ↔ c.payload 0 = none
  bounds : ∀ total, c.total = some total → 0 < total ∧ total ≤ maxNum
  idle : c.total = none → priv.resultCnt = 0
  cnt : ∀ total, c.total = some total →
    priv.resultCnt = c.received total ∨ c.Complete ∧ total ≤ priv.resultCnt
  cnt_le : priv.resultCnt ≤ c.received maxNum

structure Holds (priv : VpPriv) (c : Collected) : Prop where
  rows : Rows priv c
  counted : Counted priv c

section

variable {priv : VpPriv} {c : Collected} {data : Str} {f : Fragment} {total : Nat}

theorem holds_start : Holds VpPriv.start Collected.none where
  rows := ⟨fun _ _ => rfl, fun _ _ h => absurd h.symm (Option.some_ne_none _)⟩
  counted := {
    total := rfl
    first := iff_of_true rfl rfl
    bounds := fun _ h => absurd h.symm (Option.some_ne_none _)
    idle := fun _ => rfl
    cnt := fun _ h => absurd h.symm (Option.some_ne_none _)
    cnt_le := Nat.zero_le _ }

theorem Rows.resultLen_eq_zero (h : Rows priv c) (i : Nat) :
    priv.resultLen i = 0 ↔ c.payload i = none := by
  refine ⟨fun h0 => ?_, h.unknown i⟩
  cases hp : c.payload i with
  | none => rfl
  | some p =>
    obtain ⟨hne, hlen, -⟩ := h.known i p hp
    exact absurd (List.length_eq_zero_iff.mp (hlen.symm.trans h0)) hne

theorem Rows.put (h : Rows priv c) (hnew : c.payload f.idx = none) (hne : f.payload ≠ []) :
    Rows (priv.put f) (c.receive f) := by
  rw [receive_new hnew]
  refine ⟨fun i hi => ?_, fun i p hp => ?_⟩
  · dsimp only at hi
    split at hi
    · cases hi
    · exact (if_neg (by assumption)).trans (h.unknown i hi)
  · dsimp only at hp
    dsimp only [VpPriv.put]
    split at hp
    · rename_i heq
      obtain rfl := Option.some.inj hp
      rw [if_pos heq, if_pos heq]
      exact ⟨hne, rfl, List.take_left ..⟩
    · rename_i hother
      rw [if_neg hother, if_neg hother]
      exact h.known i p hp

/-- The loop counts what is received. -/
theorem Rows.count (h : Rows priv c) {n : Nat} (hn : n ≤ maxNum) :
    (List.range n).foldl (fun cnt i => if priv.resultLen i ≠ 0 then cntNext cnt else cnt) 0 =
      c.received n := by
  induction n with
  | zero => rfl
  | succ n ih =>
    have hle := received_le c n
    unfold maxNum at hn ih
    rw [List.range_succ, List.foldl_append, ih (by omega), received_succ]
    dsimp only [List.foldl]
    by_cases hp : c.payload n = none
    · rw [if_neg (not_not.mpr ((h.resultLen_eq_zero n).mpr hp)), hp]
      rfl
    · have hsome : (c.payload n).isSome := Option.isSome_iff_ne_none.mpr hp
      rw [if_pos (fun h0 => hp ((h.resultLen_eq_zero n).mp h0)), if_pos hsome, cntNext]
      omega

/-- What a call must do: hold what is collected then, say when it is first complete, and stay
inside the row. -/
structure Good (before after : Collected) (r : VpCall) : Prop where
  holds : Holds r.priv after
  ret : r.ret = 0 ↔ after.Complete ∧ ¬before.Complete
  copied : ∀ n, r.copied = some n → 0 ≤ n ∧ n ≤ maxLen

theorem good_refused (h : Holds priv c) : Good c c (refused priv) where
  holds := h
  ret := iff_of_false (by decide : (-1 : Int) ≠ 0) (fun hc => hc.2 hc.1)
  copied _ hn := absurd hn.symm (Option.some_ne_none _)

theorem complete_receive (hnew : c.payload f.idx = none) (hc : c.Complete)
    (htotal : f.total = none) : (c.receive f).Complete := by
  obtain ⟨total, h, hall⟩ := hc
  rw [receive_new hnew]
  refine ⟨total, by rw [htotal]; exact h, fun i hi => ?_⟩
  dsimp only
  split
  · rfl
  · exact hall i hi

theorem checked_ret (len : Int) :
    (checked priv len).ret = 0 ↔ priv.resultTotal > 0 ∧ priv.resultCnt = priv.resultTotal := by
  unfold checked
  dsimp only
  split
  · exact iff_of_true rfl (by assumption)
  · exact iff_of_false (by decide) (by assumption)

theorem good_checked {after : Collected} (h : Holds priv after) (hlen : f.payload.length ≤ maxLen)
    (hret : priv.resultTotal > 0 ∧ priv.resultCnt = priv.resultTotal ↔
      after.Complete ∧ ¬c.Complete) :
    Good c after (checked priv f.payload.length) where
  holds := h
  ret := (checked_ret _).trans hret
  copied n hn := by
    obtain rfl := Option.some.inj hn
    exact ⟨Int.natCast_nonneg _, Int.ofNat_le.mpr hlen⟩

/-- Fragment 0: what has come of the announced ones is counted. -/
theorem good_first (h : Holds priv c) (hnew : c.payload f.idx = none) (hne : f.payload ≠ [])
    (hlen : f.payload.length ≤ maxLen) (hidx : f.idx = 0) (htotal : f.total = some total)
    (hpos : 0 < total) (hle : total ≤ maxNum) :
    Good c (c.receive f)
      (checked ({ priv with resultTotal := total }.put f).count f.payload.length) := by
  have hnone : c.total = none := h.counted.first.mpr (hidx ▸ hnew)
  have hafter : (c.receive f).total = some total := by
    rw [receive_new hnew, htotal]
    rfl
  have hrows : Rows ({ priv with resultTotal := total }.put f) (c.receive f) :=
    Rows.put ⟨h.rows.unknown, h.rows.known⟩ hnew hne
  have hcnt : ({ priv with resultTotal := total }.put f).count.resultCnt =
      (c.receive f).received total := by
    have hidle : ({ priv with resultTotal := total }.put f).resultCnt = 0 := h.counted.idle hnone
    dsimp only [VpPriv.count]
    rw [hidle]
    exact hrows.count hle
  refine good_checked ⟨⟨hrows.unknown, hrows.known⟩, ?_⟩ hlen ?_
  · refine {
      total := by rw [hafter]; rfl
      first := ?_
      bounds := fun t ht => ?_
      idle := fun hn => ?_
      cnt := fun t ht => ?_
      cnt_le := ?_ }
    · rw [hafter, receive_new hnew]
      exact iff_of_false (Option.some_ne_none _) (by simp [hidx])
    · obtain rfl := Option.some.inj (hafter.symm.trans ht)
      exact ⟨hpos, hle⟩
    · exact absurd (hafter.symm.trans hn) (Option.some_ne_none _)
    · obtain rfl := Option.some.inj (hafter.symm.trans ht)
      exact .inl hcnt
    · rw [hcnt]
      exact received_mono hle
  · have hbefore : ¬c.Complete := by
      rintro ⟨t, ht, -⟩
      exact Option.some_ne_none t (ht.symm.trans hnone)
    rw [hcnt, complete_iff hafter]
    exact ⟨fun hr => ⟨hr.2, hbefore⟩, fun hr => ⟨hpos, hr.1⟩⟩

/-- A later fragment before fragment 0: nothing is counted yet. -/
theorem good_early (h : Holds priv c) (hnew : c.payload f.idx = none) (hne : f.payload ≠ [])
    (hlen : f.payload.length ≤ maxLen) (hidx : 0 < f.idx) (htotal : f.total = none)
    (hnone : c.total = none) :
    Good c (c.receive f) (checked (priv.put f) f.payload.length) := by
  have hafter : (c.receive f).total = none := by
    rw [receive_new hnew, htotal, hnone]
    rfl
  have hzero : (priv.put f).resultTotal = 0 := by
    rw [VpPriv.put, h.counted.total, hnone]
    rfl
  have hidle : (priv.put f).resultCnt = 0 := h.counted.idle hnone
  refine good_checked ⟨h.rows.put hnew hne, ?_⟩ hlen ?_
  · refine {
      total := by rw [hzero, hafter]; rfl
      first := ?_
      bounds := fun t ht => absurd (hafter.symm.trans ht).symm (Option.some_ne_none _)
      idle := fun _ => hidle
      cnt := fun t ht => absurd (hafter.symm.trans ht).symm (Option.some_ne_none _)
      cnt_le := by rw [hidle]; exact Nat.zero_le _ }
    refine iff_of_true hafter ?_
    rw [receive_new hnew]
    exact (if_neg (Nat.ne_of_lt hidx)).trans (h.counted.first.mp hnone)
  · refine iff_of_false (fun hr => ?_) (fun hr => ?_)
    · rw [hzero] at hr
      exact Nat.lt_irrefl _ hr.1
    · obtain ⟨t, ht, -⟩ := hr.1
      exact Option.some_ne_none t (ht.symm.trans hafter)

/-- A later fragment behind fragment 0 counts one. -/
theorem good_next (h : Holds priv c) (hnew : c.payload f.idx = none) (hne : f.payload ≠ [])
    (hlen : f.payload.length ≤ maxLen) (hlt : f.idx < maxNum) (hidx : 0 < f.idx)
    (htotal : f.total = none) (hsome : c.total = some total)
    (hsound : f.idx < total ∨ c.Complete) :
    Good c (c.receive f)
      (checked { priv.put f with resultCnt := cntNext priv.resultCnt } f.payload.length) := by
  obtain ⟨hpos, hle⟩ := h.counted.bounds total hsome
  have hafter : (c.receive f).total = some total := by
    rw [receive_new hnew, htotal, hsome]
    rfl
  have hall := received_receive hnew maxNum
  have hbelow := received_receive hnew total
  have hcnt_le := h.counted.cnt_le
  have hmax := received_le (c.receive f) maxNum
  rw [if_pos hlt] at hall
  have hnext : cntNext priv.resultCnt = priv.resultCnt + 1 := by
    unfold maxNum at *
    exact Nat.mod_eq_of_lt (by omega)
  have hresult : priv.resultTotal = total := by
    rw [h.counted.total, hsome]
    rfl
  have hrows : Rows { priv.put f with resultCnt := cntNext priv.resultCnt } (c.receive f) :=
    ⟨(h.rows.put hnew hne).unknown, (h.rows.put hnew hne).known⟩
  have hcounted (hcnt : priv.resultCnt + 1 = (c.receive f).received total ∨
      (c.receive f).Complete ∧ total ≤ priv.resultCnt + 1) :
      Counted { priv.put f with resultCnt := cntNext priv.resultCnt } (c.receive f) := by
    refine {
      total := by rw [hafter]; exact hresult
      first := ?_
      bounds := fun t ht => ?_
      idle := fun hn => absurd (hafter.symm.trans hn) (Option.some_ne_none _)
      cnt := fun t ht => ?_
      cnt_le := ?_ }
    · have h0 : c.payload 0 ≠ none := fun h0 =>
        Option.some_ne_none total (hsome.symm.trans (h.counted.first.mpr h0))
      refine iff_of_false (fun hn => absurd (hafter.symm.trans hn) (Option.some_ne_none _)) ?_
      rw [receive_new hnew]
      dsimp only
      rw [if_neg (Nat.ne_of_lt hidx)]
      exact h0
    · obtain rfl := Option.some.inj (hafter.symm.trans ht)
      exact ⟨hpos, hle⟩
    · obtain rfl := Option.some.inj (hafter.symm.trans ht)
      dsimp only
      rw [hnext]
      exact hcnt
    · dsimp only
      omega
  by_cases hc : c.Complete
  · have hreceived : c.received total = total := (complete_iff hsome).mp hc
    have hcnt : total ≤ priv.resultCnt := by
      rcases h.counted.cnt total hsome with hcnt | ⟨-, hcnt⟩ <;> omega
    refine good_checked ⟨hrows, hcounted (.inr
      ⟨complete_receive hnew hc htotal, Nat.le_succ_of_le hcnt⟩)⟩ hlen ?_
    refine iff_of_false (fun hr => ?_) (fun hr => hr.2 hc)
    have hr := hr.2
    dsimp only [VpPriv.put] at hr
    omega
  · have hin : f.idx < total := hsound.resolve_right hc
    have hcnt : priv.resultCnt = c.received total :=
      (h.counted.cnt total hsome).resolve_right fun h' => hc h'.1
    rw [if_pos hin] at hbelow
    refine good_checked ⟨hrows, hcounted (.inl (by omega))⟩ hlen ?_
    rw [complete_iff hafter]
    dsimp only [VpPriv.put]
    rw [hnext, hresult, hcnt, hbelow]
    exact ⟨fun hr => ⟨hr.2, hc⟩, fun hr => ⟨hpos, hr.1⟩⟩

/-- One string. -/
theorem vpProcessResult_good (h : Holds priv c) (hsound : Sound c data) :
    Good c (c.add data) (vpProcessResult priv data) := by
  unfold Collected.add
  split
  · rename_i hnone
    rw [vpProcessResult_none hnone]
    exact good_refused h
  rename_i f hf
  by_cases hnew : c.payload f.idx = none
  · obtain ⟨hne, hin⟩ := hsound f hf hnew
    obtain ⟨hlen, hlt, hkind⟩ :=
      vpProcessResult_new hf ((h.rows.resultLen_eq_zero f.idx).mpr hnew) hne
    rcases hkind with ⟨total, hpos, hle, hidx, htotal, hcall⟩ | ⟨hidx, htotal, hcall⟩
    · rw [hcall]
      exact good_first h hnew hne hlen hidx htotal hpos hle
    · rw [hcall]
      cases hsome : c.total with
      | none =>
        have hzero : ¬priv.resultTotal > 0 := by
          rw [h.counted.total, hsome]
          exact Nat.lt_irrefl 0
        rw [if_neg hzero]
        exact good_early h hnew hne hlen hidx htotal hsome
      | some total =>
        have hpos : priv.resultTotal > 0 := by
          rw [h.counted.total, hsome]
          exact (h.counted.bounds total hsome).1
        rw [if_pos hpos]
        exact good_next h hnew hne hlen hlt hidx htotal hsome (hin total hsome)
  · rw [receive_known (Option.isSome_iff_ne_none.mpr hnew),
      vpProcessResult_known hf (fun h0 => hnew ((h.rows.resultLen_eq_zero f.idx).mp h0))]
    exact good_refused h

/-! ## All strings -/

theorem allSound_append {c : Collected} {strs more : List Str} :
    AllSound c (strs ++ more) ↔ AllSound c strs ∧ AllSound (strs.foldl Collected.add c) more := by
  induction strs generalizing c with
  | nil => exact ⟨fun h => ⟨trivial, h⟩, fun h => h.2⟩
  | cons data strs ih =>
    rw [List.cons_append, AllSound, AllSound, ih, List.foldl_cons, and_assoc]

theorem runResults_holds {strs : List Str} (h : Holds priv c) (hsound : AllSound c strs) :
    Holds (strs.foldl (fun priv data => (vpProcessResult priv data).priv) priv)
      (strs.foldl Collected.add c) := by
  induction strs generalizing priv c with
  | nil => exact h
  | cons data strs ih => exact ih (vpProcessResult_good h hsound.1).holds hsound.2

/-- The raw result is the payloads in order, if the buffer has room for them. -/
theorem getRawResult_complete (h : Holds priv c) (hc : c.Complete) (len : Int) :
    wlanVoiceprintGetRawResult priv .complete len =
      if (c.joined.length : Int) > len then (.overflow, [], len)
      else (.success, c.joined, (c.joined.length : Int)) := by
  obtain ⟨total, htotal, hall⟩ := hc
  have hresult : priv.resultTotal = total := by
    rw [h.counted.total, htotal]
    rfl
  have hrow (i : Nat) (hi : i < total) :
      priv.resultLen i = ((c.payload i).getD []).length ∧
        (priv.result i).take (priv.resultLen i) = (c.payload i).getD [] := by
    obtain ⟨p, hp⟩ := Option.isSome_iff_exists.mp (hall i hi)
    obtain ⟨-, hlen, htake⟩ := h.rows.known i p hp
    rw [hp, hlen, htake]
    exact ⟨rfl, rfl⟩
  have hjoined : (List.range priv.resultTotal).flatMap (fun i =>
      (priv.result i).take (priv.resultLen i)) = c.joined := by
    rw [Collected.joined, htotal, hresult]
    exact List.flatMap_congr fun i hi => (hrow i (List.mem_range.mp hi)).2
  have hsum : ((List.range priv.resultTotal).map priv.resultLen).sum = c.joined.length := by
    rw [Collected.joined, htotal, hresult, List.length_flatMap]
    exact congrArg List.sum (List.map_congr_left fun i hi => (hrow i (List.mem_range.mp hi)).1)
  have hne : c.joined.length ≠ 0 := by
    intro h0
    obtain ⟨p, hp⟩ := Option.isSome_iff_exists.mp (hall 0 (h.counted.bounds total htotal).1)
    obtain ⟨hp0, -, -⟩ := h.rows.known 0 p hp
    rw [List.length_eq_zero_iff, Collected.joined, htotal, List.flatMap_eq_nil_iff] at h0
    have hnil := h0 0 (List.mem_range.mpr (h.counted.bounds total htotal).1)
    rw [hp] at hnil
    exact hp0 hnil
  unfold wlanVoiceprintGetRawResult
  rw [if_neg (not_not.mpr rfl)]
  dsimp only
  rw [hsum, if_neg hne, hjoined]

/-- Strings whose new fragments all have a payload and, between fragment 0 and the end, an announced
index: a call returns 0 exactly when the announced fragments are complete for the first time, the
raw result is then their payloads in order, and every copy stays inside its row. -/
theorem fragments_reassembled (strs : List Str) (data : Str)
    (hsound : AllSound Collected.none (strs ++ [data])) :
    let call := vpProcessResult (runResults strs) data
    let collected := collect (strs ++ [data])
    (call.ret = 0 ↔ collected.Complete ∧ ¬(collect strs).Complete) ∧
      (call.ret = 0 → ∀ len, wlanVoiceprintGetRawResult call.priv .complete len =
        if (collected.joined.length : Int) > len then (.overflow, [], len)
        else (.success, collected.joined, (collected.joined.length : Int))) ∧
      ∀ n, call.copied = some n → 0 ≤ n ∧ n ≤ maxLen := by
  obtain ⟨hbefore, hlast⟩ := allSound_append.mp hsound
  have hgood := vpProcessResult_good (runResults_holds holds_start hbefore) hlast.1
  have hcollect : collect (strs ++ [data]) = (collect strs).add data := List.foldl_append ..
  dsimp only
  rw [hcollect]
  exact ⟨hgood.ret, fun h0 => getRawResult_complete hgood.holds (hgood.ret.mp h0).1, hgood.copied⟩

end

def strOf (s : List Char) : Str := s.map fun c => BitVec.ofNat 8 c.toNat

/-- Fragment 1 comes before fragment 0, which announces two. -/
theorem fragments_reassembled_two :
    let call := vpProcessResult (runResults [strOf ['1', 'b', '6', 'c']])
      (strOf ['0', '0', '1', 'a', '0', 'd'])
    call.ret = 0 ∧
      wlanVoiceprintGetRawResult call.priv .complete 63 = (.success, strOf ['a', 'b'], 2) := by
  have hfirst : fragmentOf (strOf ['1', 'b', '6', 'c']) = some ⟨1, none, strOf ['b']⟩ := by decide
  have hlast : fragmentOf (strOf ['0', '0', '1', 'a', '0', 'd']) =
      some ⟨0, some 2, strOf ['a']⟩ := by decide
  have hsound : AllSound Collected.none
      ([strOf ['1', 'b', '6', 'c']] ++ [strOf ['0', '0', '1', 'a', '0', 'd']]) := by
    refine ⟨fun f hf _ => ?_, fun f hf _ => ?_, trivial⟩
    · obtain rfl := Option.some.inj (hfirst.symm.trans hf)
      exact ⟨by decide, fun total h => absurd h.symm (Option.some_ne_none _)⟩
    · obtain rfl := Option.some.inj (hlast.symm.trans hf)
      exact ⟨by decide, fun total h => absurd h.symm (Option.some_ne_none _)⟩
  obtain ⟨hret, hraw, -⟩ := fragments_reassembled _ _ hsound
  have hzero := hret.mpr ⟨⟨2, by decide, by decide⟩, fun ⟨total, h, _⟩ =>
    Option.some_ne_none total (h.symm.trans (by decide))⟩
  refine ⟨hzero, (hraw hzero 63).trans ?_⟩
  decide

/-- Fragment 0 of four characters is copied with a length of -1, and a fragment behind the two that
are announced completes them. -/
theorem fragments_overrun :
    (vpProcessResult VpPriv.start (strOf ['0', '0', '9', 'f'])).copied = some (-1) ∧
      (vpProcessResult (runResults [strOf ['0', '0', '1', 'a', '0', 'd']])
        (strOf ['5', 'b', '6', '8'])).ret = 0 ∧
      ¬(collect [strOf ['0', '0', '1', 'a', '0', 'd'], strOf ['5', 'b', '6', '8']]).Complete := by
  refine ⟨by decide, by decide, fun ⟨total, htotal, hall⟩ => ?_⟩
  have htwo : (collect [strOf ['0', '0', '1', 'a', '0', 'd'],
    strOf ['5', 'b', '6', '8']]).total = some 2 := by decide
  obtain rfl := Option.some.inj (htwo.symm.trans htotal)
  exact absurd (hall 1 (by decide)) (by decide)

end VoicePrint
end XR806

import XR806.Efpg.Region

/-!
# XR806.Efpg.BootHash

The hash of the boot image in the eFuse: 256 fuses, and two entries that name a fuse each which is not
as the hash wants it. An entry has an enable fuse and the number of the other fuse. The reader turns
the named bits over.

A write enables the entries it needs and leaves the others as they are: one that has been enabled
before turns over a bit of the new hash.
-/

namespace XR806
namespace Efpg

open Bits

def bootFlagStart : Nat := 389
def bootFlagNum : Nat := 2
def boot1stEnStart : Nat := 391
def boot1stNoStart : Nat := 392
def boot2ndEnStart : Nat := 400
def boot2ndNoStart : Nat := 401
def bootEnNum : Nat := 1
def bootNoNum : Nat := 8
def bootHashStart : Nat := 409
def bootHashNum : Nat := 256
def bootBufLen : Nat := 32

/-- What the caller gives to be written. -/
structure BootData where
  bytes : List UInt8
  length_eq : bytes.length = bootBufLen

/-! ## The functions -/

/-- `err_cnt`, `err_1st_no` and `err_2nd_no`. -/
structure HashErr where
  cnt : Nat
  first : UInt8
  second : UInt8

/-- One more bit that differs. -/
def HashErr.push (err : HashErr) (no : Nat) : Option HashErr :=
  if err.cnt = 0 then some { err with first := UInt8.ofNat no, cnt := 1 }
  else if err.cnt = 1 then some { err with second := UInt8.ofNat no, cnt := 2 }
  else none

def hashCmpBits (data buf : List UInt8) (byteCnt : Nat) : List Nat → HashErr → Option HashErr
  | [], err => some err
  | bitCnt :: rest, err =>
    if data.getD byteCnt 0 &&& UInt8.ofNat (1 <<< bitCnt) =
        buf.getD byteCnt 0 &&& UInt8.ofNat (1 <<< bitCnt) then
      hashCmpBits data buf byteCnt rest err
    else (err.push ((byteCnt <<< 3) + bitCnt)).bind (hashCmpBits data buf byteCnt rest)

def hashCmpBytes (data buf : List UInt8) : List Nat → HashErr → Option HashErr
  | [], err => some err
  | byteCnt :: rest, err =>
    if data.getD byteCnt 0 = buf.getD byteCnt 0 then hashCmpBytes data buf rest err
    else (hashCmpBits data buf byteCnt (List.range 8) err).bind (hashCmpBytes data buf rest)

/-- `none` is -1. -/
def efpgBootHashCmp (data buf : List UInt8) : Option HashErr :=
  if memcmpEq data buf bootBufLen then some ⟨0, 0, 0⟩
  else hashCmpBytes data buf (List.range bootBufLen) ⟨0, 0, 0⟩

/-- A read into one byte. -/
def readByte (f : Fuses) (startBit bitNum : Nat) : Option UInt8 :=
  (halEfuseRead f startBit bitNum).map (·.getD 0 0)

/-- A write from one byte, and the read back. -/
def writeByte (burns : Burns) (f : Fuses) (startBit bitNum : Nat) (tmp : UInt8) :
    Option UInt8 × Fuses :=
  match halEfuseWrite burns f startBit bitNum [tmp] with
  | none => (none, f)
  | some (f, _) => (readByte f startBit bitNum, f)

/-- `bit en` and `bit no` of an entry; the result is `EFPG_ACK_OK` when the write goes on. -/
def writeEntry (burns : Burns) (f : Fuses) (enStart noStart : Nat) (no : UInt8) : Ack × Fuses :=
  match writeByte burns f enStart bootEnNum 0x01 with
  | (none, f) => (.rwErr, f)
  | (some tmp, f) =>
    if tmp ≠ 0x01 then (.diErr, f)
    else
      match writeByte burns f noStart bootNoNum no with
      | (none, f) => (.rwErr, f)
      | (some tmp, f) => if no ≠ tmp then (.diErr, f) else (.ok, f)

/-- `error bit`. -/
def writeErrs (burns : Burns) (f : Fuses) (err : HashErr) : Ack × Fuses :=
  if err.cnt > 0 then
    match writeEntry burns f boot1stEnStart boot1stNoStart err.first with
    | (.ok, f) =>
      if err.cnt = 2 then writeEntry burns f boot2ndEnStart boot2ndNoStart err.second else (.ok, f)
    | r => r
  else (.ok, f)

def writeFlag (burns : Burns) (f : Fuses) : Ack × Fuses :=
  match writeByte burns f bootFlagStart bootFlagNum 0x03 with
  | (none, f) => (.rwErr, f)
  | (some tmp, f) => if tmp = 0 then (.diErr, f) else (.ok, f)

def efpgWriteBoot (burns : Burns) (f : Fuses) (data : List UInt8) : Ack × Fuses :=
  match halEfuseWrite burns f bootHashStart bootHashNum data with
  | none => (.rwErr, f)
  | some (f, data) =>
    match halEfuseRead f bootHashStart bootHashNum with
    | none => (.rwErr, f)
    | some buf =>
      match efpgBootHashCmp data buf with
      | none => (.diErr, f)
      | some err =>
        match writeErrs burns f err with
        | (.ok, f) => writeFlag burns f
        | r => r

/-- `data[no >> 3] ^= 1 << (no & 7)`. -/
def flipBit (data : List UInt8) (no : UInt8) : List UInt8 :=
  data.modify (no.toNat >>> 3) (· ^^^ UInt8.ofNat (1 <<< (no.toNat &&& 7)))

def efpgReadBoot (f : Fuses) : Except Ack (List UInt8) :=
  match readByte f bootFlagStart bootFlagNum with
  | none => .error .rwErr
  | some tmp =>
    if tmp = 0 then .error .nodataErr
    else
      match halEfuseRead f bootHashStart bootHashNum with
      | none => .error .rwErr
      | some data =>
        match readByte f boot1stEnStart bootEnNum with
        | none => .error .rwErr
        | some tmp =>
          if tmp = 0 then .ok data
          else
            match readByte f boot1stNoStart bootNoNum with
            | none => .error .rwErr
            | some no =>
              let data := flipBit data no
              match readByte f boot2ndEnStart bootEnNum with
              | none => .error .rwErr
              | some tmp =>
                if tmp = 0 then .ok data
                else
                  match readByte f boot2ndNoStart bootNoNum with
                  | none => .error .rwErr
                  | some no => .ok (flipBit data no)

section

variable {f : Fuses} {burns : Burns} {data buf : List UInt8} {s n i : Nat} {no : UInt8}

/-! ## The comparison -/

/-- The bits in which two buffers differ. -/
def diffs (data buf : List UInt8) : List Nat :=
  (List.range bootHashNum).filter fun i => bit data i != bit buf i

theorem single_and_eq {x y : UInt8} {k : Nat} (hk : k < 8) :
    x &&& UInt8.ofNat (1 <<< k) = y &&& UInt8.ofNat (1 <<< k) ↔
      x.toNat.testBit k = y.toNat.testBit k := by
  constructor
  · intro h
    rw [Bool.eq_iff_iff, ← and_single_pos hk, ← and_single_pos hk, h]
  · intro h
    apply byte_ext
    intro i hi
    rw [UInt8.toNat_and, UInt8.toNat_and, Nat.testBit_and, Nat.testBit_and, single_testBit hi]
    by_cases hik : i = k
    · rw [hik, h]
    · simp [hik]

theorem hashCmpBits_eq {byteCnt : Nat} (bits : List Nat) (hbits : ∀ k ∈ bits, k < 8)
    (err : HashErr) : hashCmpBits data buf byteCnt bits err =
      ((bits.map (8 * byteCnt + ·)).filter fun i => bit data i != bit buf i).foldlM
        HashErr.push err := by
  induction bits generalizing err with
  | nil => rfl
  | cons k rest ih =>
    have hk := hbits k List.mem_cons_self
    have hrest := ih fun j hj => hbits j (List.mem_cons_of_mem _ hj)
    have hno : (byteCnt <<< 3) + k = 8 * byteCnt + k := by
      rw [Nat.shiftLeft_eq]
      omega
    have hand : data.getD byteCnt 0 &&& UInt8.ofNat (1 <<< k) =
        buf.getD byteCnt 0 &&& UInt8.ofNat (1 <<< k) ↔
        bit data (8 * byteCnt + k) = bit buf (8 * byteCnt + k) := by
      rw [single_and_eq hk, getD_testBit hk, getD_testBit hk]
    rw [hashCmpBits, List.map_cons, List.filter_cons]
    by_cases heq : bit data (8 * byteCnt + k) = bit buf (8 * byteCnt + k)
    · rw [if_pos (hand.mpr heq), hrest, heq]
      simp
    · rw [if_neg fun h => heq (hand.mp h), if_pos (by simpa using heq), List.foldlM_cons, hno]
      exact congrArg _ (funext hrest)

theorem hashCmpBytes_eq (bytes : List Nat) (err : HashErr) : hashCmpBytes data buf bytes err =
    ((bytes.flatMap fun b => (List.range 8).map (8 * b + ·)).filter
      fun i => bit data i != bit buf i).foldlM HashErr.push err := by
  induction bytes generalizing err with
  | nil => rfl
  | cons b rest ih =>
    rw [hashCmpBytes, List.flatMap_cons, List.filter_append, List.foldlM_append]
    by_cases heq : data.getD b 0 = buf.getD b 0
    · have hnone : ((List.range 8).map (8 * b + ·)).filter
          (fun i => bit data i != bit buf i) = [] := by
        rw [List.filter_eq_nil_iff]
        intro i hi
        obtain ⟨k, hk, rfl⟩ := List.mem_map.mp hi
        rw [← getD_testBit (List.mem_range.mp hk), ← getD_testBit (List.mem_range.mp hk), heq]
        simp
      rw [if_pos heq, hnone, ih]
      rfl
    · rw [if_neg heq, hashCmpBits_eq _ fun k hk => List.mem_range.mp hk]
      exact congrArg _ (funext ih)

set_option maxRecDepth 8000 in
/-- The comparison collects the first two bits that differ, and fails at a third one. -/
theorem efpgBootHashCmp_eq (data buf : List UInt8) :
    efpgBootHashCmp data buf = (diffs data buf).foldlM HashErr.push ⟨0, 0, 0⟩ := by
  have hrange : (List.range bootBufLen).flatMap (fun b => (List.range 8).map (8 * b + ·)) =
      List.range bootHashNum := by decide
  rw [efpgBootHashCmp]
  split
  · rename_i heq
    have hnone : diffs data buf = [] := by
      rw [diffs, List.filter_eq_nil_iff]
      intro i hi
      have hlt : i < 8 * bootBufLen := List.mem_range.mp hi
      simp [memcmpEq_iff.mp heq i hlt]
    rw [hnone]
    rfl
  · rw [hashCmpBytes_eq, hrange]
    rfl

/-! ## The fields -/

/-- What an attempt to burn some bits makes of the fuses. -/
def burn (burns : Burns) (f : Fuses) (s n : Nat) (data : List UInt8) : Fuses :=
  fun b => f b || (decide (s ≤ b ∧ b < s + n) && bit data (b - s) && burns b)

/-- The byte that a field of at most eight fuses is read as. -/
def byteOf (f : Fuses) (s n : Nat) : UInt8 := (pack n fun i => f (s + i)).getD 0 0

theorem burn_outside {b : Nat} (h : b < s ∨ s + n ≤ b) : burn burns f s n data b = f b := by
  have hout : ¬(s ≤ b ∧ b < s + n) := by omega
  simp [burn, hout]

theorem burn_inside (h : i < n) :
    burn burns f s n data (s + i) = (f (s + i) || (bit data i && burns (s + i))) := by
  simp [burn, h]

theorem byteOf_testBit (hi : i < 8) :
    (byteOf f s n).toNat.testBit i = (decide (i < n) && f (s + i)) := by
  rw [byteOf, getD_testBit hi, Nat.mul_zero, Nat.zero_add, bit_pack]

theorem byteOf_congr {f' : Fuses} (h : ∀ i < n, f (s + i) = f' (s + i)) :
    byteOf f s n = byteOf f' s n := by
  rw [byteOf, byteOf, pack_congr h]

theorem byteOf_eq_zero (hn : n ≤ 8) : byteOf f s n = 0 ↔ ∀ i < n, f (s + i) = false := by
  constructor
  · intro h i hi
    have hbit := byteOf_testBit (f := f) (s := s) (n := n) (i := i) (by omega)
    rw [h, decide_eq_true hi, Bool.true_and] at hbit
    rw [← hbit]
    exact Nat.zero_testBit i
  · intro h
    apply byte_ext
    intro i hi
    rw [byteOf_testBit hi]
    by_cases hin : i < n
    · rw [h i hin, Bool.and_false]
      exact (Nat.zero_testBit i).symm
    · simp [hin]

theorem eq_byteOf_iff : no = byteOf f s bootNoNum ↔
    ∀ k < 8, no.toNat.testBit k = f (s + k) := by
  have hbit : ∀ k < 8, (byteOf f s bootNoNum).toNat.testBit k = f (s + k) := by
    intro k hk
    have hlt : k < bootNoNum := hk
    rw [byteOf_testBit hk, decide_eq_true hlt, Bool.true_and]
  constructor
  · intro h k hk
    rw [h, hbit k hk]
  · intro h
    apply byte_ext
    intro k hk
    rw [h k hk, hbit k hk]

/-- An enable fuse is read as 0 or 1. -/
theorem byteOf_en : byteOf f s bootEnNum = if f s then 1 else 0 := by
  apply byte_ext
  intro k hk
  rw [byteOf_testBit hk]
  by_cases hzero : k = 0
  · subst hzero
    cases f s <;> simp [bootEnNum]
  · have hout : ¬k < bootEnNum := by
      rw [bootEnNum]
      omega
    have hone : Nat.testBit 1 k = false := Nat.testBit_lt_two_pow (Nat.one_lt_two_pow hzero)
    cases f s <;> simp [hout, hone]

theorem readByte_eq (h : ¬BadRange s n) : readByte f s n = some (byteOf f s n) := by
  rw [readByte, halEfuseRead_eq h]
  rfl

theorem writeByte_eq (h : ¬BadRange s n) : writeByte burns f s n no =
    (some (byteOf (burn burns f s n [no]) s n), burn burns f s n [no]) := by
  rw [writeByte, halEfuseWrite_eq h]
  dsimp only
  rw [readByte_eq h]
  rfl

theorem writeEntry_eq {en : Nat} (hen : ¬BadRange en bootEnNum) (hno : ¬BadRange s bootNoNum) :
    writeEntry burns f en s no =
      if burn burns f en bootEnNum [1] en = true then
        if no = byteOf (burn burns (burn burns f en bootEnNum [1]) s bootNoNum [no]) s bootNoNum then
          (.ok, burn burns (burn burns f en bootEnNum [1]) s bootNoNum [no])
        else (.diErr, burn burns (burn burns f en bootEnNum [1]) s bootNoNum [no])
      else (.diErr, burn burns f en bootEnNum [1]) := by
  rw [writeEntry, writeByte_eq hen]
  dsimp only
  rw [byteOf_en]
  by_cases hset : burn burns f en bootEnNum [1] en = true
  · rw [if_pos hset, if_pos hset, if_neg (by decide), writeByte_eq hno]
    dsimp only
    rw [ite_not]
  · rw [if_neg hset, if_neg hset, if_pos (by decide)]

theorem writeFlag_eq : writeFlag burns f =
    if byteOf (burn burns f bootFlagStart bootFlagNum [3]) bootFlagStart bootFlagNum = 0 then
      (.diErr, burn burns f bootFlagStart bootFlagNum [3])
    else (.ok, burn burns f bootFlagStart bootFlagNum [3]) := by
  have hrange : ¬BadRange bootFlagStart bootFlagNum := by decide
  rw [writeFlag, writeByte_eq hrange]

/-! ## The hash -/

@[simp] theorem length_flipBit : (flipBit data no).length = data.length := by simp [flipBit]

theorem bit_flipBit (hi : i < 8 * data.length) :
    bit (flipBit data no) i = (bit data i ^^ decide (i = no.toNat)) := by
  have hshift : no.toNat >>> 3 = no.toNat / 8 := Nat.shiftRight_eq_div_pow ..
  have hand : no.toNat &&& 7 = no.toNat % 8 := Nat.and_two_pow_sub_one_eq_mod _ 3
  have hlt : i / 8 < data.length := by omega
  rw [flipBit, hshift, hand, bit, bit, List.getD_eq_getElem?_getD, List.getElem?_modify,
    List.getD_eq_getElem?_getD, List.getElem?_eq_getElem hlt]
  by_cases hk : no.toNat / 8 = i / 8
  · have hiff : i % 8 = no.toNat % 8 ↔ i = no.toNat := by omega
    simp only [hk, if_true, Option.map_eq_map, Option.map_some, Option.getD_some, UInt8.toNat_xor,
      Nat.testBit_xor, single_testBit (Nat.mod_lt i (by decide : 8 > 0)), hiff]
  · have hne : i ≠ no.toNat := fun h => hk (h ▸ rfl)
    simp [hk, hne]

/-- The hash fuses, as the 32 bytes they are read as. -/
def hashOf (f : Fuses) : List UInt8 := pack bootHashNum fun i => f (bootHashStart + i)

theorem length_hashOf : (hashOf f).length = bootBufLen := length_pack

theorem bit_hashOf (hi : i < bootHashNum) : bit (hashOf f) i = f (bootHashStart + i) := by
  rw [hashOf, bit_pack, decide_eq_true hi, Bool.true_and]

/-- The hash with the bits turned over that the entries name. -/
def corrected (f : Fuses) : List UInt8 :=
  if f boot1stEnStart then
    if f boot2ndEnStart then
      flipBit (flipBit (hashOf f) (byteOf f boot1stNoStart bootNoNum))
        (byteOf f boot2ndNoStart bootNoNum)
    else flipBit (hashOf f) (byteOf f boot1stNoStart bootNoNum)
  else hashOf f

theorem efpgReadBoot_eq : efpgReadBoot f =
    if byteOf f bootFlagStart bootFlagNum = 0 then .error .nodataErr else .ok (corrected f) := by
  have h1 : ¬BadRange bootFlagStart bootFlagNum := by decide
  have h2 : ¬BadRange bootHashStart bootHashNum := by decide
  have h3 : ¬BadRange boot1stEnStart bootEnNum := by decide
  have h4 : ¬BadRange boot1stNoStart bootNoNum := by decide
  have h5 : ¬BadRange boot2ndEnStart bootEnNum := by decide
  have h6 : ¬BadRange boot2ndNoStart bootNoNum := by decide
  rw [efpgReadBoot, readByte_eq h1]
  dsimp only
  rw [halEfuseRead_eq h2, readByte_eq h3, readByte_eq h4, readByte_eq h5, readByte_eq h6]
  dsimp only
  rw [byteOf_en, byteOf_en, corrected]
  split
  · rfl
  cases f boot1stEnStart with
  | false => rfl
  | true =>
    cases f boot2ndEnStart with
    | false => rfl
    | true => rfl

/-- The fuses after the attempt to burn the hash. -/
def hashed (burns : Burns) (f : Fuses) (data : List UInt8) : Fuses :=
  burn burns f bootHashStart bootHashNum data

theorem hashed_below {b : Nat} (h : b < bootHashStart) : hashed burns f data b = f b :=
  burn_outside (.inl h)

theorem maskLast_hash (h : data.length = bootBufLen) : maskLast data bootHashNum = data := by
  refine ext_bits length_maskLast fun i hi => ?_
  rw [length_maskLast, h] at hi
  have hlt : i < bootHashNum := hi
  rw [bit_maskLast (by decide) hi, decide_eq_true hlt, Bool.true_and]

theorem efpgWriteBoot_eq (h : data.length = bootBufLen) : efpgWriteBoot burns f data =
    match (diffs data (hashOf (hashed burns f data))).foldlM HashErr.push ⟨0, 0, 0⟩ with
    | none => (.diErr, hashed burns f data)
    | some err =>
      match writeErrs burns (hashed burns f data) err with
      | (.ok, f) => writeFlag burns f
      | r => r := by
  have hrange : ¬BadRange bootHashStart bootHashNum := by decide
  rw [efpgWriteBoot, halEfuseWrite_eq hrange]
  dsimp only
  rw [halEfuseRead_eq hrange, maskLast_hash h]
  dsimp only
  rw [efpgBootHashCmp_eq]
  rfl

/-! ## What takes -/

/-- A bit of the hash that is not as wanted after the attempt to burn it. -/
def Wrong (burns : Burns) (f : Fuses) (data : List UInt8) (i : Nat) : Prop :=
  i < bootHashNum ∧
    (f (bootHashStart + i) || (bit data i && burns (bootHashStart + i))) ≠ bit data i

/-- A flag fuse is burned, or can be. -/
def FlagTakes (burns : Burns) (f : Fuses) : Prop :=
  ∃ i < bootFlagNum, (f (bootFlagStart + i) || burns (bootFlagStart + i)) = true

/-- An entry can be enabled and made to name a bit. -/
def EntryTakes (burns : Burns) (f : Fuses) (en noStart no : Nat) : Prop :=
  (f en || burns en) = true ∧
    ∀ k < 8, no.testBit k = (f (noStart + k) || (no.testBit k && burns (noStart + k)))

theorem writeEntry_cases (burns : Burns) (f : Fuses) (no : UInt8) {en : Nat} (hen : ¬BadRange en bootEnNum)
    (hno : ¬BadRange s bootNoNum) (hlt : en < s) :
    (EntryTakes burns f en s no.toNat ∧ ∃ f', writeEntry burns f en s no = (.ok, f') ∧
      f' en = true ∧ byteOf f' s bootNoNum = no ∧
      ∀ b, b ≠ en → b < s ∨ s + bootNoNum ≤ b → f' b = f b) ∨
    (¬EntryTakes burns f en s no.toNat ∧ (writeEntry burns f en s no).1 ≠ .ok) := by
  have hset : burn burns f en bootEnNum [1] en = (f en || burns en) := by
    have hbit : bit [1] 0 = true := by decide
    have hin : burn burns f en bootEnNum [1] (en + 0) = (f (en + 0) || (bit [1] 0 && burns (en + 0))) :=
      burn_inside (by decide)
    rw [Nat.add_zero, hbit, Bool.true_and] at hin
    exact hin
  have hfield : ∀ k < 8, burn burns (burn burns f en bootEnNum [1]) s bootNoNum [no] (s + k) =
      (f (s + k) || (no.toNat.testBit k && burns (s + k))) := by
    intro k hk
    have hout : en + bootEnNum ≤ s + k := by
      rw [bootEnNum]
      omega
    have hbit : bit [no] k = no.toNat.testBit k := by
      rw [bit, Nat.div_eq_of_lt hk, Nat.mod_eq_of_lt hk]
      rfl
    rw [burn_inside (show k < bootNoNum from hk), burn_outside (.inr hout), hbit]
  have hread : no = byteOf (burn burns (burn burns f en bootEnNum [1]) s bootNoNum [no]) s
      bootNoNum ↔ ∀ k < 8, no.toNat.testBit k =
        (f (s + k) || (no.toNat.testBit k && burns (s + k))) := by
    rw [eq_byteOf_iff]
    exact forall_congr' fun k => forall_congr' fun hk => by rw [hfield k hk]
  rw [writeEntry_eq hen hno, hset]
  by_cases hen' : (f en || burns en) = true
  · rw [if_pos hen']
    by_cases hno' : no = byteOf (burn burns (burn burns f en bootEnNum [1]) s bootNoNum [no]) s
        bootNoNum
    · rw [if_pos hno']
      refine .inl ⟨⟨hen', hread.mp hno'⟩, _, rfl, ?_, hno'.symm, fun b hb hout => ?_⟩
      · rw [burn_outside (.inl hlt), hset, hen']
      · have hout' : b < en ∨ en + bootEnNum ≤ b := by
          rw [bootEnNum]
          omega
        rw [burn_outside hout, burn_outside hout']
    · rw [if_neg hno']
      exact .inr ⟨fun h => hno' (hread.mpr h.2), show Ack.diErr ≠ .ok by decide⟩
  · rw [if_neg hen']
    exact .inr ⟨fun h => hen' h.1, show Ack.diErr ≠ .ok by decide⟩

theorem writeFlag_cases (burns : Burns) (f : Fuses) :
    (FlagTakes burns f ∧ ∃ f', writeFlag burns f = (.ok, f') ∧
      byteOf f' bootFlagStart bootFlagNum ≠ 0 ∧
      ∀ b, bootFlagStart + bootFlagNum ≤ b → f' b = f b) ∨
    (¬FlagTakes burns f ∧ (writeFlag burns f).1 ≠ .ok) := by
  have hset : ∀ i < bootFlagNum, burn burns f bootFlagStart bootFlagNum [3] (bootFlagStart + i) =
      (f (bootFlagStart + i) || burns (bootFlagStart + i)) := by
    intro i hi
    have hbit : ∀ i < bootFlagNum, bit [3] i = true := by decide
    rw [burn_inside hi, hbit i hi, Bool.true_and]
  have hzero : byteOf (burn burns f bootFlagStart bootFlagNum [3]) bootFlagStart bootFlagNum = 0 ↔
      ¬FlagTakes burns f := by
    rw [byteOf_eq_zero (by decide), FlagTakes]
    push Not
    exact forall_congr' fun i => forall_congr' fun hi => by
      rw [hset i hi, ne_eq, Bool.not_eq_true]
  rw [writeFlag_eq]
  by_cases h : byteOf (burn burns f bootFlagStart bootFlagNum [3]) bootFlagStart bootFlagNum = 0
  · rw [if_pos h]
    exact .inr ⟨hzero.mp h, show Ack.diErr ≠ .ok by decide⟩
  · rw [if_neg h]
    exact .inl ⟨not_not.mp fun hno => h (hzero.mpr hno), _, rfl, h,
      fun b hb => burn_outside (.inr hb)⟩

theorem FlagTakes.congr (burns : Burns) {f' : Fuses}
    (h : ∀ i < bootFlagNum, f' (bootFlagStart + i) = f (bootFlagStart + i)) :
    FlagTakes burns f' ↔ FlagTakes burns f := by
  refine exists_congr fun i => and_congr_right fun hi => ?_
  rw [h i hi]

/-! ## Turning bits over -/

theorem mem_diffs {i : Nat} : i ∈ diffs data (hashOf (hashed burns f data)) ↔
    Wrong burns f data i := by
  rw [diffs, List.mem_filter, List.mem_range, Wrong]
  refine and_congr_right fun hi => ?_
  rw [bit_hashOf hi, hashed, burn_inside hi, bne_iff_ne]
  exact ne_comm

theorem diffs_nodup (data buf : List UInt8) : (diffs data buf).Nodup :=
  List.nodup_range.filter _

theorem ext_hash {a b : List UInt8} (ha : a.length = bootBufLen) (hb : b.length = bootBufLen)
    (h : ∀ i < bootHashNum, bit a i = bit b i) : a = b := by
  refine ext_bits (ha.trans hb.symm) fun i hi => h i ?_
  rw [ha] at hi
  exact hi

theorem bit_flipBit_hash (h : data.length = bootBufLen) (hi : i < bootHashNum) :
    bit (flipBit data no) i = (bit data i ^^ decide (i = no.toNat)) := by
  refine bit_flipBit ?_
  rw [h]
  exact hi

theorem flipBit_flipBit (h : data.length = bootBufLen) (a b : UInt8) :
    flipBit (flipBit data a) b = data ↔ a = b := by
  constructor
  · intro heq
    have hlt : a.toNat < bootHashNum := a.toNat_lt
    have hbit := congrArg (fun d => bit d a.toNat) heq
    rw [bit_flipBit_hash (length_flipBit.trans h) hlt, bit_flipBit_hash h hlt] at hbit
    by_contra hne
    have hne' : a.toNat ≠ b.toNat := fun h => hne (UInt8.toNat_inj.mp h)
    simp [hne'] at hbit
  · rintro rfl
    refine ext_hash (by simpa using h) h fun i hi => ?_
    rw [bit_flipBit_hash (length_flipBit.trans h) hi, bit_flipBit_hash h hi, Bool.xor_assoc,
      Bool.xor_self, Bool.xor_false]

theorem flipBit_ne (h : data.length = bootBufLen) (no : UInt8) : flipBit data no ≠ data := by
  intro heq
  have hlt : no.toNat < bootHashNum := no.toNat_lt
  have hbit := congrArg (fun d => bit d no.toNat) heq
  rw [bit_flipBit_hash h hlt] at hbit
  simp at hbit

/-- The bits that differ, turned over. -/
theorem bit_of_diffs {buf : List UInt8} (hi : i < bootHashNum) :
    bit data i = (bit buf i ^^ decide (i ∈ diffs data buf)) := by
  have hmem : i ∈ diffs data buf ↔ bit data i ≠ bit buf i := by
    rw [diffs, List.mem_filter, List.mem_range, bne_iff_ne]
    exact and_iff_right hi
  simp only [hmem]
  cases bit data i <;> cases bit buf i <;> rfl

/-! ## The round trip -/

/-- A write that succeeds is read back as the hash. -/
def BootRoundTrip (burns : Burns) (f : Fuses) (data : BootData) : Prop :=
  (efpgWriteBoot burns f data.bytes).1 = .ok →
    efpgReadBoot (efpgWriteBoot burns f data.bytes).2 = .ok data.bytes

/-- With no wrong bit the first entry is not enabled, or both are and name the same bit; with one wrong
bit the second entry is not. It matters when the flag takes, and with it the entry that is needed. -/
def EntriesClear (burns : Burns) (f : Fuses) (data : List UInt8) : Prop :=
  FlagTakes burns f →
    ((∀ i, ¬Wrong burns f data i) → f boot1stEnStart = true → f boot2ndEnStart = true ∧
      byteOf f boot1stNoStart bootNoNum = byteOf f boot2ndNoStart bootNoNum) ∧
    ∀ a, (∀ i, Wrong burns f data i ↔ i = a) →
      EntryTakes burns f boot1stEnStart boot1stNoStart a → f boot2ndEnStart = false

theorem corrected_congr {f' : Fuses} (h : ∀ b, bootFlagStart + bootFlagNum ≤ b → f' b = f b) :
    corrected f' = corrected f := by
  have hno : ∀ s, bootFlagStart + bootFlagNum ≤ s →
      byteOf f' s bootNoNum = byteOf f s bootNoNum := fun s hs =>
    byteOf_congr fun i _ => h _ (Nat.le_add_right_of_le hs)
  have hhash : hashOf f' = hashOf f := pack_congr fun i _ => h _ (Nat.le_add_right_of_le (by decide))
  rw [corrected, corrected, h _ (by decide), h _ (by decide), hno _ (by decide), hno _ (by decide),
    hhash]

variable {data : BootData} {g : Fuses}

/-- From the flag on: the fuses are as they will be read. -/
theorem roundTrip_flag (hrun : efpgWriteBoot burns f data.bytes = writeFlag burns g)
    (hlow : ∀ i < bootFlagNum, g (bootFlagStart + i) = f (bootFlagStart + i)) :
    BootRoundTrip burns f data ↔ (FlagTakes burns f → corrected g = data.bytes) := by
  rw [BootRoundTrip, hrun, ← FlagTakes.congr burns hlow]
  rcases writeFlag_cases burns g with ⟨htakes, f', hwrite, hflag, hsame⟩ | ⟨hno, hwrite⟩
  · rw [hwrite]
    dsimp only
    rw [efpgReadBoot_eq, if_neg hflag, corrected_congr hsame, Except.ok.injEq]
    exact ⟨fun h _ => h rfl, fun h _ => h htakes⟩
  · exact iff_of_true (fun h => absurd h hwrite) fun h => absurd h hno

theorem roundTrip_fails (h : (efpgWriteBoot burns f data.bytes).1 ≠ .ok) :
    BootRoundTrip burns f data := fun hok => absurd hok h

theorem hashed_no {s : Nat} (h : s + bootNoNum ≤ bootHashStart) :
    byteOf (hashed burns f data.bytes) s bootNoNum = byteOf f s bootNoNum :=
  byteOf_congr fun i hi => hashed_below (by omega)

/-- The hash that is read before it is corrected. -/
theorem hashOf_hashed (a : UInt8) {w : List Nat}
    (hw : diffs data.bytes (hashOf (hashed burns f data.bytes)) = w)  :
    (w = [] → hashOf (hashed burns f data.bytes) = data.bytes) ∧
      (w = [a.toNat] → flipBit (hashOf (hashed burns f data.bytes)) a = data.bytes) ∧
      ∀ b : UInt8, a ≠ b → w = [a.toNat, b.toNat] →
        flipBit (flipBit (hashOf (hashed burns f data.bytes)) a) b = data.bytes := by
  have hbit : ∀ i < bootHashNum, bit data.bytes i =
      (bit (hashOf (hashed burns f data.bytes)) i ^^ decide (i ∈ w)) := by
    intro i hi
    rw [← hw]
    exact bit_of_diffs hi
  have hlen : (hashOf (hashed burns f data.bytes)).length = bootBufLen := length_hashOf
  refine ⟨?_, ?_, ?_⟩
  · rintro rfl
    refine ext_hash hlen data.length_eq fun i hi => ?_
    rw [hbit i hi]
    simp
  · rintro rfl
    refine ext_hash (length_flipBit.trans hlen) data.length_eq fun i hi => ?_
    rw [hbit i hi, bit_flipBit_hash hlen hi]
    simp
  · rintro b hab rfl
    refine ext_hash (length_flipBit.trans (length_flipBit.trans hlen)) data.length_eq fun i hi => ?_
    rw [hbit i hi, bit_flipBit_hash (length_flipBit.trans hlen) hi, bit_flipBit_hash hlen hi,
      Bool.xor_assoc]
    have hab' : a.toNat ≠ b.toNat := fun h => hab (UInt8.toNat_inj.mp h)
    by_cases hia : i = a.toNat
    · simp [hia, hab']
    · simp [hia]

theorem roundTrip_none (hw : diffs data.bytes (hashOf (hashed burns f data.bytes)) = []) :
    BootRoundTrip burns f data ↔ (FlagTakes burns f → f boot1stEnStart = true →
      f boot2ndEnStart = true ∧
        byteOf f boot1stNoStart bootNoNum = byteOf f boot2ndNoStart bootNoNum) := by
  have hrun : efpgWriteBoot burns f data.bytes = writeFlag burns (hashed burns f data.bytes) := by
    rw [efpgWriteBoot_eq data.length_eq, hw]
    rfl
  have hlow : ∀ i < bootFlagNum, hashed burns f data.bytes (bootFlagStart + i) =
      f (bootFlagStart + i) := fun i hi => hashed_below
    ((Nat.add_lt_add_left hi bootFlagStart).trans (by decide))
  rw [roundTrip_flag hrun hlow, corrected, hashed_below (by decide), hashed_below (by decide),
    hashed_no (by decide), hashed_no (by decide), (hashOf_hashed 0 hw).1 rfl]
  refine forall_congr' fun _ => ?_
  split
  · rename_i h1
    split
    · rename_i h2
      rw [flipBit_flipBit data.length_eq]
      exact ⟨fun h _ => ⟨h2, h⟩, fun h => (h h1).2⟩
    · rename_i h2
      exact iff_of_false (flipBit_ne data.length_eq _) fun h => h2 (h h1).1
  · rename_i h1
    exact iff_of_true rfl fun h => absurd h h1

/-- One entry is written, and then the flag, or the write has failed. -/
theorem writeErrs_first (burns : Burns) (f : Fuses) (data : BootData) {err : HashErr} (hcnt : 0 < err.cnt) :
    (EntryTakes burns f boot1stEnStart boot1stNoStart err.first.toNat ∧ ∃ g,
      writeErrs burns (hashed burns f data.bytes) err =
        (if err.cnt = 2 then writeEntry burns g boot2ndEnStart boot2ndNoStart err.second
          else (.ok, g)) ∧
      g boot1stEnStart = true ∧ byteOf g boot1stNoStart bootNoNum = err.first ∧
      ∀ b, b ≠ boot1stEnStart → b < boot1stNoStart ∨ boot1stNoStart + bootNoNum ≤ b →
        g b = hashed burns f data.bytes b) ∨
    (¬EntryTakes burns f boot1stEnStart boot1stNoStart err.first.toNat ∧
      (writeErrs burns (hashed burns f data.bytes) err).1 ≠ .ok) := by
  have htakes : EntryTakes burns (hashed burns f data.bytes) boot1stEnStart boot1stNoStart
      err.first.toNat ↔ EntryTakes burns f boot1stEnStart boot1stNoStart err.first.toNat := by
    rw [EntryTakes, EntryTakes, hashed_below (by decide)]
    refine and_congr_right fun _ => forall_congr' fun k => forall_congr' fun hk => ?_
    rw [hashed_below ((Nat.add_lt_add_left hk boot1stNoStart).trans (by decide))]
  rw [← htakes, writeErrs, if_pos hcnt]
  have hrange : ¬BadRange boot1stEnStart bootEnNum ∧ ¬BadRange boot1stNoStart bootNoNum := by decide
  rcases writeEntry_cases burns (hashed burns f data.bytes) err.first hrange.1 hrange.2
    (by decide) with
    ⟨ht, g, hrun, hen, hno, hsame⟩ | ⟨ht, hfail⟩
  · rw [hrun]
    exact .inl ⟨ht, g, rfl, hen, hno, hsame⟩
  · refine .inr ⟨ht, ?_⟩
    generalize writeEntry burns (hashed burns f data.bytes) boot1stEnStart boot1stNoStart
      err.first = r at hfail
    obtain ⟨ack, g⟩ := r
    cases ack with
    | ok => exact absurd rfl hfail
    | rwErr => exact hfail
    | nodataErr => exact hfail
    | diErr => exact hfail

/-- The write goes on to the flag when the errors are written. -/
theorem efpgWriteBoot_errs {err : HashErr}
    (herr : (diffs data.bytes (hashOf (hashed burns f data.bytes))).foldlM HashErr.push ⟨0, 0, 0⟩ =
      some err) :
    (∃ g, writeErrs burns (hashed burns f data.bytes) err = (.ok, g) ∧
      efpgWriteBoot burns f data.bytes = writeFlag burns g) ∨
    (writeErrs burns (hashed burns f data.bytes) err).1 ≠ .ok ∧
      (efpgWriteBoot burns f data.bytes).1 ≠ .ok := by
  rw [efpgWriteBoot_eq data.length_eq, herr]
  dsimp only
  generalize writeErrs burns (hashed burns f data.bytes) err = r
  obtain ⟨ack, g⟩ := r
  cases ack with
  | ok => exact .inl ⟨g, rfl, rfl⟩
  | rwErr => exact .inr ⟨show Ack.rwErr ≠ .ok by decide, show Ack.rwErr ≠ .ok by decide⟩
  | nodataErr => exact .inr ⟨show Ack.nodataErr ≠ .ok by decide, show Ack.nodataErr ≠ .ok by decide⟩
  | diErr => exact .inr ⟨show Ack.diErr ≠ .ok by decide, show Ack.diErr ≠ .ok by decide⟩

/-- The fuses that neither the first entry has nor the hash. -/
theorem first_outside {g : Fuses}
    (hsame : ∀ b, b ≠ boot1stEnStart → b < boot1stNoStart ∨ boot1stNoStart + bootNoNum ≤ b →
      g b = hashed burns f data.bytes b) :
    (∀ i < bootFlagNum, g (bootFlagStart + i) = f (bootFlagStart + i)) ∧
      ∀ b, boot2ndEnStart ≤ b → g b = hashed burns f data.bytes b := by
  have hno : boot1stEnStart ≤ boot1stNoStart := by decide
  have h2nd : boot1stNoStart + bootNoNum ≤ boot2ndEnStart := by decide
  have hen : boot1stEnStart < boot2ndEnStart := by decide
  refine ⟨fun i hi => ?_, fun b hb => ?_⟩
  · have hlt : bootFlagStart + i < boot1stEnStart := Nat.add_lt_add_left hi bootFlagStart
    rw [hsame _ (by omega) (.inl (by omega)), hashed_below (hlt.trans (by decide))]
  · exact hsame b (by omega) (.inr (by omega))

theorem roundTrip_one {a : Nat} (hw : diffs data.bytes (hashOf (hashed burns f data.bytes)) = [a]) :
    BootRoundTrip burns f data ↔ (FlagTakes burns f →
      EntryTakes burns f boot1stEnStart boot1stNoStart a → f boot2ndEnStart = false) := by
  have ha : a < bootHashNum := (mem_diffs.mp (hw ▸ List.mem_singleton_self a)).1
  have hno : (UInt8.ofNat a).toNat = a := UInt8.toNat_ofNat_of_lt' ha
  have hw' : diffs data.bytes (hashOf (hashed burns f data.bytes)) = [(UInt8.ofNat a).toNat] := by
    rw [hno, hw]
  have herr : (diffs data.bytes (hashOf (hashed burns f data.bytes))).foldlM HashErr.push ⟨0, 0, 0⟩ =
      some ⟨1, UInt8.ofNat a, 0⟩ := by
    rw [hw]
    rfl
  have hfirst := @writeErrs_first burns f data ⟨1, UInt8.ofNat a, 0⟩ Nat.one_pos
  dsimp only at hfirst
  rw [hno] at hfirst
  rcases hfirst with ⟨ht, g, hrun, hen, hnum, hsame⟩ | ⟨hnt, hfail⟩
  · rw [if_neg (show ¬1 = 2 by decide)] at hrun
    rcases efpgWriteBoot_errs herr with ⟨g', hrun', hwrite⟩ | ⟨hfail, -⟩
    swap
    · rw [hrun] at hfail
      exact absurd rfl hfail
    obtain rfl : g = g' := (Prod.mk.inj (hrun.symm.trans hrun')).2
    obtain ⟨hlow, hout⟩ := first_outside hsame
    have hhash : hashOf g = hashOf (hashed burns f data.bytes) :=
      pack_congr fun i _ => hout _ (Nat.le_add_right_of_le (by decide))
    have h2nd : g boot2ndEnStart = f boot2ndEnStart := by
      rw [hout _ le_rfl, hashed_below (by decide)]
    rw [roundTrip_flag hwrite hlow, corrected, hen, if_pos rfl, hnum, hhash,
      (hashOf_hashed (UInt8.ofNat a) hw').2.1 rfl, h2nd]
    refine forall_congr' fun _ => ?_
    cases f boot2ndEnStart with
    | false => exact iff_of_true rfl fun _ => rfl
    | true =>
      exact iff_of_false (flipBit_ne data.length_eq _) fun h => absurd (h ht) (by decide)
  · rcases efpgWriteBoot_errs herr with ⟨g, hrun, -⟩ | ⟨-, hwrite⟩
    · rw [hrun] at hfail
      exact absurd rfl hfail
    · exact iff_of_true (roundTrip_fails hwrite) fun _ h => absurd h hnt

/-- With two wrong bits both entries are written. -/
theorem roundTrip_two {a b : Nat}
    (hw : diffs data.bytes (hashOf (hashed burns f data.bytes)) = [a, b]) :
    BootRoundTrip burns f data := by
  have hmem : ∀ i ∈ [a, b], i < bootHashNum := fun i hi => (mem_diffs.mp (hw ▸ hi)).1
  have hna : (UInt8.ofNat a).toNat = a := UInt8.toNat_ofNat_of_lt' (hmem a (by simp))
  have hnb : (UInt8.ofNat b).toNat = b := UInt8.toNat_ofNat_of_lt' (hmem b (by simp))
  have hab : UInt8.ofNat a ≠ UInt8.ofNat b := by
    intro h
    have hnodup := diffs_nodup data.bytes (hashOf (hashed burns f data.bytes))
    rw [hw, ← hna, ← hnb, h] at hnodup
    simp at hnodup
  have hw' : diffs data.bytes (hashOf (hashed burns f data.bytes)) =
      [(UInt8.ofNat a).toNat, (UInt8.ofNat b).toNat] := by
    rw [hna, hnb, hw]
  have herr : (diffs data.bytes (hashOf (hashed burns f data.bytes))).foldlM HashErr.push ⟨0, 0, 0⟩ =
      some ⟨2, UInt8.ofNat a, UInt8.ofNat b⟩ := by
    rw [hw]
    rfl
  rcases efpgWriteBoot_errs herr with ⟨g', hrun', hwrite⟩ | ⟨-, hfail⟩
  swap
  · exact roundTrip_fails hfail
  rcases @writeErrs_first burns f data ⟨2, UInt8.ofNat a, UInt8.ofNat b⟩ Nat.two_pos with
    ⟨-, g, hrun, hen, hnum, hsame⟩ | ⟨-, hfail⟩
  swap
  · rw [hrun'] at hfail
    exact absurd rfl hfail
  rw [if_pos rfl, hrun'] at hrun
  obtain ⟨hlow, hout⟩ := first_outside hsame
  have hrange : ¬BadRange boot2ndEnStart bootEnNum ∧ ¬BadRange boot2ndNoStart bootNoNum := by decide
  rcases writeEntry_cases burns g (UInt8.ofNat b) hrange.1 hrange.2 (by decide) with
    ⟨-, g'', hrun2, hen2, hnum2, hsame2⟩ | ⟨-, hfail⟩
  swap
  · rw [← hrun] at hfail
    exact absurd rfl hfail
  obtain rfl : g' = g'' := (Prod.mk.inj (hrun.trans hrun2)).2
  -- below the second entry, and behind it
  have hbelow : ∀ b, b < boot2ndEnStart → g' b = g b := fun b hb =>
    hsame2 b hb.ne (.inl (hb.trans (by decide)))
  have habove : ∀ b, bootHashStart ≤ b → g' b = hashed burns f data.bytes b := by
    intro b hb
    have h1 : boot2ndEnStart < bootHashStart := by decide
    have h2 : boot2ndNoStart + bootNoNum ≤ bootHashStart := by decide
    rw [hsame2 b (by omega) (.inr (by omega)), hout b (by omega)]
  have hhash : hashOf g' = hashOf (hashed burns f data.bytes) :=
    pack_congr fun i _ => habove _ (Nat.le_add_right ..)
  have hnum1 : byteOf g' boot1stNoStart bootNoNum = UInt8.ofNat a := by
    refine Eq.trans (byteOf_congr fun i hi => hbelow _ ?_) hnum
    exact (Nat.add_lt_add_left hi boot1stNoStart).trans_le (by decide)
  have hlow' : ∀ i < bootFlagNum, g' (bootFlagStart + i) = f (bootFlagStart + i) := fun i hi =>
    (hbelow _ ((Nat.add_lt_add_left hi bootFlagStart).trans (by decide))).trans (hlow i hi)
  rw [roundTrip_flag hwrite hlow', corrected, hbelow _ (by decide), hen, if_pos rfl, hen2, if_pos rfl,
    hnum1, hnum2, hhash]
  exact fun _ => (hashOf_hashed _ hw').2.2 _ hab rfl

theorem roundTrip_more {a b c : Nat} {w : List Nat}
    (hw : diffs data.bytes (hashOf (hashed burns f data.bytes)) = a :: b :: c :: w) :
    BootRoundTrip burns f data := by
  refine roundTrip_fails ?_
  rw [efpgWriteBoot_eq data.length_eq, hw]
  exact show Ack.diErr ≠ .ok by decide

/-- Whatever the fuses hold and whichever of them burn: a hash that is written is read back exactly when
no entry is enabled that the write does not set itself. -/
theorem boot_round_trip (burns : Burns) (f : Fuses) (data : BootData) :
    BootRoundTrip burns f data ↔ EntriesClear burns f data.bytes := by
  have hmem : ∀ i, Wrong burns f data.bytes i ↔
      i ∈ diffs data.bytes (hashOf (hashed burns f data.bytes)) := fun i => mem_diffs.symm
  have hnodup := diffs_nodup data.bytes (hashOf (hashed burns f data.bytes))
  unfold EntriesClear
  simp only [hmem]
  match hw : diffs data.bytes (hashOf (hashed burns f data.bytes)) with
  | [] =>
    rw [roundTrip_none hw]
    refine forall_congr' fun _ => ⟨fun h => ⟨fun _ => h, fun a ha => ?_⟩, fun h => h.1 fun i => ?_⟩
    · exact absurd ((ha a).mpr rfl) List.not_mem_nil
    · exact List.not_mem_nil
  | [a] =>
    rw [roundTrip_one hw]
    refine forall_congr' fun _ => ⟨fun h => ⟨fun hno => ?_, fun b hb => ?_⟩, fun h => h.2 a fun i => ?_⟩
    · exact absurd (List.mem_singleton_self a) (hno a)
    · obtain rfl := List.mem_singleton.mp ((hb b).mpr rfl)
      exact h
    · exact List.mem_singleton
  | a :: b :: w =>
    have htrip : BootRoundTrip burns f data := by
      cases w with
      | nil => exact roundTrip_two hw
      | cons c w => exact roundTrip_more hw
    rw [hw] at hnodup
    refine iff_of_true htrip fun _ => ⟨fun hno => absurd List.mem_cons_self (hno a), fun c hc => ?_⟩
    have hac := (hc a).mp List.mem_cons_self
    have hbc := (hc b).mp (List.mem_cons_of_mem _ List.mem_cons_self)
    rw [hac, hbc] at hnodup
    simp at hnodup

end

def zeroHash : BootData := ⟨List.replicate 32 0, rfl⟩

/-- The first entry has been enabled before, for bit 0: the hash 0 is written and 1 is read. -/
theorem stale_entry_read :
    ¬BootRoundTrip (fun _ => true) (fun b => decide (b = boot1stEnStart)) zeroHash := by
  have hnone : diffs zeroHash.bytes
      (hashOf (hashed (fun _ => true) (fun b => decide (b = boot1stEnStart)) zeroHash.bytes)) = [] := by
    refine List.eq_nil_iff_forall_not_mem.mpr fun i hi => ?_
    obtain ⟨-, hne⟩ := mem_diffs.mp hi
    have hne' : bootHashStart + i ≠ boot1stEnStart := by
      rw [bootHashStart, boot1stEnStart]
      omega
    simp [hne'] at hne
  have hflag : FlagTakes (fun _ => true) fun b => decide (b = boot1stEnStart) :=
    ⟨0, by decide, by decide⟩
  rw [roundTrip_none hnone]
  exact fun h => absurd (h hflag (by decide)).1 (by decide)

end Efpg
end XR806

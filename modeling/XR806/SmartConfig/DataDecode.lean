import XR806.SmartConfig.Decode

/-!
# XR806.SmartConfig.DataDecode

`dec_data_decode`: the SSID and the passphrase out of the packet buffer, in plain or encrypted.

The model stops at the first read or write outside of a buffer (`none`). The key is the format of a
`snprintf`, which reads on behind its 16 bytes; the engine writes whole blocks, so that 65 encrypted
bytes do not fit into `temp_pwd`; and the loop over the padding runs for as long as the last byte
says, also past the front of the buffer. Apart from these the buffers are kept to
(`data_decode_bounded`).
-/

namespace XR806
namespace SmartConfig

open Trans

def wlanSsidMaxLen : Nat := 32
def wlanPassphraseMaxLen : Nat := 63
def scMaxSsidpskLen : Nat := 128
def srcDataBuffSize : Nat := scMaxSsidpskLen * 2
def tempPwdSize : Nat := 66
def tempSsidSize : Nat := 65
def aesBlockSize : Nat := 16

/-- `sc_result_t`. -/
structure ScResult where
  ssid : Nat → UInt8
  pwd : Nat → UInt8
  ssidLen : Nat
  pwdLen : Nat
  random : UInt8

abbrev Block := Fin 16 → UInt8

/-- What the crypto engine makes of a block; `none` when its lock does not come in time. -/
abbrev Engine := Option (Block → Block)

/-- The key, and the engine when it is asked for the passphrase and for the SSID. -/
structure Crypt where
  aesKey : Block
  pwd : Engine
  ssid : Engine

/-! ## Buffers -/

section

variable (size : Nat) (b : Nat → UInt8)

def readAt (i : Int) : Option UInt8 := if 0 ≤ i ∧ i < size then some (b i.toNat) else none

def writeAt (i : Nat) (v : UInt8) : Option (Nat → UInt8) :=
  if i < size then some (Function.update b i v) else none

/-- `memcpy` into `dst` of `dsize` bytes. -/
def copyTo (off dsize : Nat) (dst : Nat → UInt8) (len : Nat) : Option (Nat → UInt8) :=
  if off + len ≤ size ∧ len ≤ dsize then
    some fun i => if i < len then b (off + i) else dst i
  else none

/-- The first bytes of a buffer. -/
def firstBytes (len : Nat) : List UInt8 := (List.range len).map b

def crc8Of (len : Nat) : Option UInt8 :=
  if len ≤ size then some (calCrc8 (firstBytes b len)) else none

end

/-! ## Decryption -/

/-- The bytes that `HAL_Crypto_Convey` puts out: whole blocks. -/
def conveyLen (size : Nat) : Nat :=
  let alignLen := size / aesBlockSize * aesBlockSize
  if size % aesBlockSize ≠ 0 then alignLen + aesBlockSize else alignLen

/-- `HAL_Crypto_Convey`; what is missing of the last block is zero. -/
def cryptoConvey (block : Block → Block) (input : Nat → UInt8) (off size i : Nat) : UInt8 :=
  block (fun j => if i / 16 * 16 + j < size then input (off + (i / 16 * 16 + j)) else 0)
    ⟨i % 16, Nat.mod_lt _ (by decide)⟩

/-- What `snprintf` does with a format: it reads it up to its end, which is 0. An argument that a
directive asks for is not there. -/
def formatInside : List UInt8 → Bool
  | [] => false
  | byte :: format =>
    if byte = 0 then true
    else if byte = 0x25 then
      match format with
      | [] => false
      | directive :: format => directive = 0x25 && formatInside format
    else formatInside format

/-- `snprintf((char *)aes_cfg.key, sizeof(aes_cfg.key), aes_key)` stays in `aes_key`. -/
def KeyInside (aesKey : Block) : Prop := formatInside (List.ofFn aesKey) = true

instance (aesKey : Block) : Decidable (KeyInside aesKey) := inferInstanceAs (Decidable (_ = true))

/-- `none` inside is an error. The engine works with the key that `snprintf` has put out. -/
def aesEbcDecrypt (aesKey : Block) (engine : Engine) (input : Nat → UInt8)
    (off tempSize size : Nat) : Option (Option (Nat → UInt8)) :=
  if ¬KeyInside aesKey then none
  else if size = 0 then some none
  else
    match engine with
    | none => some none
    | some block =>
      if off + size ≤ srcDataBuffSize ∧ conveyLen size ≤ tempSize then
        some (some fun i => if i < conveyLen size then cryptoConvey block input off size i else 0)
      else none

/-- The loop over the padding, from the last byte on. -/
def padLoop (tempSize : Nat) (temp : Nat → UInt8) (size dlen : Nat) : Nat → Nat → Option Bool
  | 0, _ => some true
  | left + 1, i =>
    (readAt tempSize temp ((size : Int) - 1 - i)).bind fun value =>
      if value.toNat ≠ dlen then some false else padLoop tempSize temp size dlen left (i + 1)

/-- What is left without the padding; `none` inside is a byte that does not fit. -/
def removePad (tempSize : Nat) (temp : Nat → UInt8) (size : Nat) : Option (Option Int) :=
  (readAt tempSize temp ((size : Int) - 1)).bind fun dlen =>
    (padLoop tempSize temp size dlen.toNat dlen.toNat 0).map fun padded =>
      if padded then some ((size : Int) - dlen.toNat) else none

/-- A part is decrypted, the padding removed, and what is left put into the result when its length
is from `least` to `most`. -/
def decodePart (aesKey : Block) (engine : Engine) (buff : Nat → UInt8)
    (off tempSize size least most : Nat)
    (put : (Nat → UInt8) → Nat → ScResult → Option ScResult) (result : ScResult) :
    Option (Bool × ScResult) :=
  if size = 0 then some (true, result)
  else
    (aesEbcDecrypt aesKey engine buff off tempSize size).bind fun
    | none => some (false, result)
    | some temp =>
      (removePad tempSize temp size).bind fun
      | none => some (false, result)
      | some len =>
        if (least : Int) ≤ len ∧ len ≤ most then
          (put temp len.toNat result).map fun result => (true, result)
        else some (false, result)

/-! ## `dec_data_decode` -/

/-- `len` bytes of `src` from `off` on, and the end of the string. -/
def putPwd (size : Nat) (off : Nat) (src : Nat → UInt8) (len : Nat) (result : ScResult) :
    Option ScResult :=
  (copyTo size src off (wlanPassphraseMaxLen + 1) result.pwd len).bind fun pwd =>
    (writeAt (wlanPassphraseMaxLen + 1) pwd len 0).map fun pwd =>
      { result with pwdLen := len, pwd }

def putSsid (size : Nat) (off : Nat) (src : Nat → UInt8) (len : Nat) (result : ScResult) :
    Option ScResult :=
  (copyTo size src off wlanSsidMaxLen result.ssid len).map fun ssid =>
    { result with ssidLen := len, ssid }

/-- A failing part ends the decoding. -/
def andThen (p : Option (Bool × ScResult)) (k : ScResult → Option (Bool × ScResult)) :
    Option (Bool × ScResult) :=
  p.bind fun (ok, result) => if ok then k result else some (false, result)

def decodeAes (crypt : Crypt) (buff : Nat → UInt8) (pwdSize ssidSize : Nat) (result : ScResult) :
    Option (Bool × ScResult) :=
  if pwdSize ≥ tempPwdSize ∨ ssidSize ≥ tempSsidSize then some (false, result)
  else
    andThen (decodePart crypt.aesKey crypt.pwd buff 0 tempPwdSize pwdSize 0 wlanPassphraseMaxLen
      (putPwd tempPwdSize 0) result) fun result =>
    decodePart crypt.aesKey crypt.ssid buff pwdSize tempSsidSize ssidSize 1 wlanSsidMaxLen
      (putSsid tempSsidSize 0) result

def decodePlain (buff : Nat → UInt8) (pwdSize ssidSize : Nat) (result : ScResult) :
    Option (Bool × ScResult) :=
  if 0 < ssidSize ∧ ssidSize ≤ wlanSsidMaxLen then
    (putSsid srcDataBuffSize pwdSize buff ssidSize result).bind fun result =>
      if pwdSize ≤ wlanPassphraseMaxLen then
        (putPwd srcDataBuffSize 0 buff pwdSize result).map fun result => (true, result)
      else some (false, result)
  else some (false, result)

/-- The two checksums behind the data. -/
def checkCrc (buff : Nat → UInt8) (ssidpwdLen : Nat) (result : ScResult) :
    Option (Int × ScResult × (Nat → UInt8)) :=
  let i := ssidpwdLen % 2
  (readAt srcDataBuffSize buff (ssidpwdLen + i : Nat)).bind fun crc8Pwd =>
    (crc8Of (wlanPassphraseMaxLen + 1) result.pwd result.pwdLen).bind fun calcCrc =>
      if calcCrc ≠ crc8Pwd then some (-1, result, Function.update buff 0 0)
      else
        (readAt srcDataBuffSize buff (ssidpwdLen + i + 1 : Nat)).bind fun crc8Ssid =>
          (crc8Of wlanSsidMaxLen result.ssid result.ssidLen).bind fun calcCrc =>
            if calcCrc ≠ crc8Ssid then some (-1, result, Function.update buff 0 0)
            else some (0, result, Function.update buff 0 0)

/-- `src_pwd_size`, a byte. -/
def LeadCode.pwdSize (leadCode : LeadCode) : Nat := (leadCode.pwdLen % 256).toNat

/-- `src_ssid_size`, a byte. -/
def LeadCode.ssidSize (leadCode : LeadCode) : Nat :=
  ((leadCode.ssidpwdLen - leadCode.pwdLen) % 256).toNat

/-- The value returned, the result and the buffer; `none` is an access outside of a buffer. -/
def decDataDecode (crypt : Crypt) (result : ScResult) (leadCode : LeadCode)
    (buff : Nat → UInt8) : Option (Int × ScResult × (Nat → UInt8)) :=
  if leadCode.ssidSize + leadCode.pwdSize ≥ srcDataBuffSize then some (-1, result, buff)
  else
    (if crypt.aesKey 0 ≠ 0 then decodeAes crypt buff leadCode.pwdSize leadCode.ssidSize result
      else decodePlain buff leadCode.pwdSize leadCode.ssidSize result).bind fun (ok, result) =>
      if ok then checkCrc buff leadCode.ssidpwdLen { result with random := leadCode.random }
      else some (-1, result, buff)

/-! ## What is wanted -/

/-- The lengths fit the result. -/
structure ScResult.Fits (result : ScResult) : Prop where
  ssid : result.ssidLen ≤ wlanSsidMaxLen
  pwd : result.pwdLen ≤ wlanPassphraseMaxLen

/-- The result fits, and the bytes behind the data are its checksums. -/
structure Decoded (leadCode : LeadCode) (buff : Nat → UInt8) (result : ScResult) : Prop where
  fits : result.Fits
  crcPwd : calCrc8 (firstBytes result.pwd result.pwdLen) =
    buff (leadCode.ssidpwdLen + leadCode.ssidpwdLen % 2)
  crcSsid : calCrc8 (firstBytes result.ssid result.ssidLen) =
    buff (leadCode.ssidpwdLen + leadCode.ssidpwdLen % 2 + 1)

def Bounded (crypt : Crypt) (result : ScResult) (leadCode : LeadCode) (buff : Nat → UInt8) : Prop :=
  ∃ ret result' buff', decDataDecode crypt result leadCode buff = some (ret, result', buff') ∧
    (ret = 0 → Decoded leadCode buff result')

/-- Nothing but padding, and more of it than there are bytes. -/
def AllPadding (plain : Nat → UInt8) (size : Nat) : Prop :=
  ∃ v : UInt8, size < v.toNat ∧ ∀ i < size, plain i = v

/-- The last byte says how often it stands at the end, and what is before has a length from
`least` to `most`. -/
def Unpads (plain : Nat → UInt8) (size least most : Nat) : Prop :=
  (plain (size - 1)).toNat + least ≤ size ∧ size ≤ (plain (size - 1)).toNat + most ∧
    ∀ i < (plain (size - 1)).toNat, plain (size - 1 - i) = plain (size - 1)

/-- The part is there, and the engine decrypts it to bytes with the property. -/
def Decrypts (engine : Engine) (buff : Nat → UInt8) (off size : Nat)
    (P : (Nat → UInt8) → Prop) : Prop :=
  0 < size ∧ ∃ block, engine = some block ∧ P (cryptoConvey block buff off size)

/-- The key and the encrypted parts that make the decoding leave its buffers. -/
def Leaves (crypt : Crypt) (leadCode : LeadCode) (buff : Nat → UInt8) : Prop :=
  crypt.aesKey 0 ≠ 0 ∧ leadCode.pwdSize ≤ 65 ∧ leadCode.ssidSize ≤ 64 ∧
    (¬KeyInside crypt.aesKey ∧ 0 < leadCode.pwdSize + leadCode.ssidSize ∨
      Decrypts crypt.pwd buff 0 leadCode.pwdSize (fun plain =>
        leadCode.pwdSize = 65 ∨ AllPadding plain leadCode.pwdSize) ∨
      (leadCode.pwdSize = 0 ∨ Decrypts crypt.pwd buff 0 leadCode.pwdSize (fun plain =>
        Unpads plain leadCode.pwdSize 0 wlanPassphraseMaxLen)) ∧
      Decrypts crypt.ssid buff leadCode.pwdSize leadCode.ssidSize (fun plain =>
        AllPadding plain leadCode.ssidSize))

/-! ## The padding -/

section

variable {tempSize size dlen left i j : Nat} {temp plain plain' : Nat → UInt8}

theorem readAt_back (hsize : size ≤ tempSize) (hi : i < size) :
    readAt tempSize temp ((size : Int) - 1 - i) = some (temp (size - 1 - i)) := by
  have hat : ((size : Int) - 1 - i).toNat = size - 1 - i := by omega
  rw [readAt, if_pos (by omega), hat]

theorem readAt_last (hsize : size ≤ tempSize) (hpos : 0 < size) :
    readAt tempSize temp ((size : Int) - 1) = some (temp (size - 1)) := by
  simpa using readAt_back hsize hpos

theorem padLoop_same (hsize : size ≤ tempSize) (hi : i ≤ size)
    (h : ∀ j, i ≤ j → j < i + left → j < size → (temp (size - 1 - j)).toNat = dlen) :
    padLoop tempSize temp size dlen left i = if i + left ≤ size then some true else none := by
  induction left generalizing i with
  | zero => rw [padLoop, if_pos (by omega)]
  | succ left ih =>
    rw [padLoop]
    by_cases hlt : i < size
    · rw [readAt_back hsize hlt, Option.bind_some,
        if_neg (not_not.mpr (h i (Nat.le_refl i) (by omega) hlt)),
        ih (by omega) fun j hij hj hjs => h j (by omega) (by omega) hjs]
      have hsum : i + 1 + left = i + (left + 1) := by omega
      rw [hsum]
    · -- all bytes have been read, and the next is before the first
      rw [readAt, if_neg (by omega), if_neg (by omega), Option.bind_none]

theorem padLoop_differs (hsize : size ≤ tempSize) (hij : i ≤ j) (hj : j < i + left)
    (hjs : j < size) (h : (temp (size - 1 - j)).toNat ≠ dlen) :
    padLoop tempSize temp size dlen left i = some false := by
  induction left generalizing i with
  | zero => omega
  | succ left ih =>
    rw [padLoop, readAt_back hsize (by omega), Option.bind_some]
    by_cases hv : (temp (size - 1 - i)).toNat = dlen
    · have hne : i ≠ j := fun heq => h (heq ▸ hv)
      rw [if_neg (not_not.mpr hv)]
      exact ih (by omega) (by omega)
    · rw [if_pos hv]

theorem removePad_cases (temp : Nat → UInt8) (hsize : size ≤ tempSize) (hpos : 0 < size) :
    (removePad tempSize temp size = none ∧ AllPadding temp size) ∨
    (removePad tempSize temp size = some none ∧ ¬AllPadding temp size ∧
      ∃ i < (temp (size - 1)).toNat, temp (size - 1 - i) ≠ temp (size - 1)) ∨
    (removePad tempSize temp size = some (some ((size : Int) - (temp (size - 1)).toNat)) ∧
      (temp (size - 1)).toNat ≤ size ∧
      ∀ i < (temp (size - 1)).toNat, temp (size - 1 - i) = temp (size - 1)) := by
  rw [removePad, readAt_last hsize hpos, Option.bind_some]
  generalize hv : temp (size - 1) = v
  by_cases hall : ∀ j < v.toNat, j < size → temp (size - 1 - j) = v
  · have hloop : padLoop tempSize temp size v.toNat v.toNat 0 =
        if 0 + v.toNat ≤ size then some true else none :=
      padLoop_same hsize (Nat.zero_le _) fun j _ hj hjs =>
        congrArg UInt8.toNat (hall j (by omega) hjs)
    rw [Nat.zero_add] at hloop
    rw [hloop]
    by_cases hle : v.toNat ≤ size
    · rw [if_pos hle]
      exact .inr (.inr ⟨rfl, hle, fun i hi => hall i hi (by omega)⟩)
    · rw [if_neg hle]
      refine .inl ⟨rfl, v, by omega, fun i hi => ?_⟩
      have hback := hall (size - 1 - i) (by omega) (by omega)
      rwa [show size - 1 - (size - 1 - i) = i by omega] at hback
  · push Not at hall
    obtain ⟨j, hj, hjs, hne⟩ := hall
    rw [padLoop_differs hsize (Nat.zero_le j) (by omega) hjs
      fun heq => hne (UInt8.toNat_inj.mp heq)]
    refine .inr (.inl ⟨rfl, ?_, j, hj, hne⟩)
    rintro ⟨w, _, hw⟩
    have hvw : v = w := hv.symm.trans (hw (size - 1) (by omega))
    exact hne ((hw _ (by omega)).trans hvw.symm)

theorem AllPadding.congr (h : ∀ i < size, plain i = plain' i) (hp : AllPadding plain size) :
    AllPadding plain' size := by
  obtain ⟨v, hv, hall⟩ := hp
  exact ⟨v, hv, fun i hi => (h i hi).symm.trans (hall i hi)⟩

theorem Unpads.congr {least most : Nat} (hpos : 0 < size) (h : ∀ i < size, plain i = plain' i)
    (hp : Unpads plain size least most) : Unpads plain' size least most := by
  unfold Unpads at hp ⊢
  rw [← h (size - 1) (by omega)]
  exact ⟨hp.1, hp.2.1, fun i hi => (h _ (by omega)).symm.trans (hp.2.2 i hi)⟩

theorem le_conveyLen : size ≤ conveyLen size := by
  unfold conveyLen aesBlockSize
  dsimp only
  split <;> omega

end

/-! ## A part -/

section

variable {aesKey : Block} {engine : Engine} {block : Block → Block} {buff : Nat → UInt8}
  {off tempSize size least most len : Nat} {P : (Nat → UInt8) → Prop}
  {put : (Nat → UInt8) → Nat → ScResult → Option ScResult} {result result' : ScResult}

theorem decrypts_some (hpos : 0 < size) :
    Decrypts (some block) buff off size P ↔ P (cryptoConvey block buff off size) := by
  constructor
  · rintro ⟨_, block', heq, hP⟩
    rwa [Option.some.inj heq]
  · exact fun hP => ⟨hpos, block, rfl, hP⟩

theorem not_decrypts_none : ¬Decrypts none buff off size P := by
  rintro ⟨_, block, heq, _⟩
  exact nomatch heq

/-- The part makes the decoding leave its buffer. -/
abbrev PartLeaves (engine : Engine) (buff : Nat → UInt8) (off tempSize size : Nat) : Prop :=
  Decrypts engine buff off size fun plain => tempSize < conveyLen size ∨ AllPadding plain size

/-- The part is empty, or comes out with a length from `least` to `most`. -/
abbrev PartUnpads (engine : Engine) (buff : Nat → UInt8) (off size least most : Nat) : Prop :=
  size = 0 ∨ Decrypts engine buff off size fun plain => Unpads plain size least most

/-- A part that is there reads the key. -/
theorem decodePart_outside (hkey : ¬KeyInside aesKey) : decodePart aesKey engine buff off tempSize
    size least most put result = if size = 0 then some (true, result) else none := by
  rw [decodePart, aesEbcDecrypt.eq_def, if_pos hkey, Option.bind_none]

theorem decodePart_cases (hkey : KeyInside aesKey) (hoff : off + size ≤ srcDataBuffSize)
    (hsize : size ≤ tempSize) (hfits : result.Fits)
    (hput : ∀ temp len, len ≤ tempSize → len ≤ most →
      ∃ result', put temp len result = some result' ∧ result'.Fits) :
    (decodePart aesKey engine buff off tempSize size least most put result = none ∧
      PartLeaves engine buff off tempSize size) ∨
    ∃ ok result', decodePart aesKey engine buff off tempSize size least most put result =
        some (ok, result') ∧ result'.Fits ∧ ¬PartLeaves engine buff off tempSize size ∧
      (ok = true ↔ PartUnpads engine buff off size least most) := by
  by_cases hzero : size = 0
  · refine .inr ⟨true, result, by rw [decodePart, if_pos hzero], hfits, ?_, ?_⟩
    · rintro ⟨hpos, -⟩
      omega
    · exact ⟨fun _ => .inl hzero, fun _ => rfl⟩
  have hpos : 0 < size := Nat.pos_of_ne_zero hzero
  rw [decodePart, if_neg hzero, aesEbcDecrypt.eq_def, if_neg (not_not.mpr hkey), if_neg hzero]
  cases engine with
  | none =>
    refine .inr ⟨false, result, rfl, hfits, not_decrypts_none, nofun, ?_⟩
    rintro (h | h)
    · exact absurd h hzero
    · exact absurd h not_decrypts_none
  | some block =>
    dsimp only
    by_cases hconvey : conveyLen size ≤ tempSize
    · rw [if_pos ⟨hoff, hconvey⟩, Option.bind_some]
      generalize htemp : (fun i => if i < conveyLen size then cryptoConvey block buff off size i
        else 0) = temp
      have hsame : ∀ i < size, temp i = cryptoConvey block buff off size i := by
        intro i hi
        rw [← htemp]
        exact if_pos (Nat.lt_of_lt_of_le hi le_conveyLen)
      have hleaves : PartLeaves (some block) buff off tempSize size ↔ AllPadding temp size := by
        refine (decrypts_some hpos).trans ?_
        constructor
        · rintro (h | h)
          · omega
          · exact h.congr fun i hi => (hsame i hi).symm
        · exact fun h => .inr (h.congr hsame)
      have hunpads : PartUnpads (some block) buff off size least most ↔
          Unpads temp size least most := by
        refine (or_iff_right hzero).trans ((decrypts_some hpos).trans ?_)
        exact ⟨fun h => h.congr hpos fun i hi => (hsame i hi).symm, fun h => h.congr hpos hsame⟩
      rw [hleaves, hunpads]
      dsimp only
      rcases removePad_cases temp hsize hpos with ⟨hrem, hall⟩ | ⟨hrem, hnot, i, hi, hne⟩ |
        ⟨hrem, hle, hall⟩
      · rw [hrem]
        exact .inl ⟨rfl, hall⟩
      · rw [hrem]
        exact .inr ⟨false, result, rfl, hfits, hnot, nofun, fun h => absurd (h.2.2 i hi) hne⟩
      · have hnot : ¬AllPadding temp size := by
          rintro ⟨v, hv, heq⟩
          rw [heq (size - 1) (by omega)] at hle
          omega
        rw [hrem, Option.bind_some]
        dsimp only
        by_cases hlen : (least : Int) ≤ (size : Int) - (temp (size - 1)).toNat ∧
            (size : Int) - (temp (size - 1)).toNat ≤ most
        · rw [if_pos hlen]
          obtain ⟨result', heq, hfits'⟩ := hput temp
            ((size : Int) - (temp (size - 1)).toNat).toNat (by omega) (by omega)
          rw [heq]
          exact .inr ⟨true, result', rfl, hfits', hnot,
            fun _ => ⟨by omega, by omega, hall⟩, fun _ => rfl⟩
        · rw [if_neg hlen]
          refine .inr ⟨false, result, rfl, hfits, hnot, nofun, fun h => ?_⟩
          obtain ⟨hlow, hhigh, -⟩ := h
          exact absurd ⟨by omega, by omega⟩ hlen
    · rw [if_neg fun h => hconvey h.2]
      exact .inl ⟨rfl, (decrypts_some hpos).mpr (.inl (Nat.not_le.mp hconvey))⟩

theorem putPwd_fits {bsize : Nat} (src : Nat → UInt8) (hfits : result.Fits)
    (hlen : off + len ≤ bsize) (hmax : len ≤ wlanPassphraseMaxLen) :
    ∃ result', putPwd bsize off src len result = some result' ∧ result'.Fits := by
  unfold putPwd copyTo writeAt
  rw [if_pos ⟨hlen, by omega⟩, Option.bind_some, if_pos (by omega)]
  exact ⟨_, rfl, hfits.ssid, hmax⟩

theorem putSsid_fits {bsize : Nat} (src : Nat → UInt8) (hfits : result.Fits)
    (hlen : off + len ≤ bsize) (hmax : len ≤ wlanSsidMaxLen) :
    ∃ result', putSsid bsize off src len result = some result' ∧ result'.Fits := by
  unfold putSsid copyTo
  rw [if_pos ⟨hlen, hmax⟩]
  exact ⟨_, rfl, hmax, hfits.pwd⟩

end

/-! ## Both parts -/

section

variable {crypt : Crypt} {result : ScResult} {leadCode : LeadCode} {buff : Nat → UInt8}
  {pwdSize ssidSize ssidpwdLen : Nat}

theorem decodePlain_fits (hfits : result.Fits) (hsum : ssidSize + pwdSize < srcDataBuffSize) :
    ∃ ok result', decodePlain buff pwdSize ssidSize result = some (ok, result') ∧ result'.Fits ∧
      (ok = true → ssidSize + pwdSize ≤ 129) := by
  unfold decodePlain
  by_cases hssid : 0 < ssidSize ∧ ssidSize ≤ wlanSsidMaxLen
  · obtain ⟨result₁, heq, hfits₁⟩ :=
      putSsid_fits buff hfits (show pwdSize + ssidSize ≤ srcDataBuffSize by omega) hssid.2
    rw [if_pos hssid, heq, Option.bind_some]
    by_cases hpwd : pwdSize ≤ wlanPassphraseMaxLen
    · obtain ⟨result₂, heq₂, hfits₂⟩ :=
        putPwd_fits buff hfits₁ (show 0 + pwdSize ≤ srcDataBuffSize by omega) hpwd
      rw [if_pos hpwd, heq₂]
      unfold wlanSsidMaxLen at hssid
      unfold wlanPassphraseMaxLen at hpwd
      exact ⟨true, result₂, rfl, hfits₂, fun _ => by omega⟩
    · rw [if_neg hpwd]
      exact ⟨false, result₁, rfl, hfits₁, nofun⟩
  · rw [if_neg hssid]
    exact ⟨false, result, rfl, hfits, nofun⟩

/-- Only the parts that are empty are decoded with a key that is not ended. -/
theorem decodeAes_outside (hkey : ¬KeyInside crypt.aesKey)
    (hbig : ¬(pwdSize ≥ tempPwdSize ∨ ssidSize ≥ tempSsidSize)) :
    decodeAes crypt buff pwdSize ssidSize result =
      if pwdSize + ssidSize = 0 then some (true, result) else none := by
  rw [decodeAes, if_neg hbig, decodePart_outside hkey]
  by_cases hpwd : pwdSize = 0
  · subst hpwd
    rw [if_pos rfl, Nat.zero_add]
    exact decodePart_outside hkey
  · rw [if_neg hpwd, if_neg (by omega)]
    rfl

theorem decodeAes_cases (hfits : result.Fits)
    (hsum : leadCode.ssidSize + leadCode.pwdSize < srcDataBuffSize) (hkey : crypt.aesKey 0 ≠ 0) :
    (decodeAes crypt buff leadCode.pwdSize leadCode.ssidSize result = none ∧
      Leaves crypt leadCode buff) ∨
    ∃ ok result', decodeAes crypt buff leadCode.pwdSize leadCode.ssidSize result =
      some (ok, result') ∧ result'.Fits ∧ ¬Leaves crypt leadCode buff ∧
      (ok = true → leadCode.ssidSize + leadCode.pwdSize ≤ 129) := by
  unfold Leaves
  generalize leadCode.pwdSize = pwdSize at hsum ⊢
  generalize leadCode.ssidSize = ssidSize at hsum ⊢
  by_cases hbig : pwdSize ≥ tempPwdSize ∨ ssidSize ≥ tempSsidSize
  · rw [decodeAes, if_pos hbig]
    refine .inr ⟨false, result, rfl, hfits, ?_, nofun⟩
    rintro ⟨-, hpwd, hssid, -⟩
    unfold tempPwdSize tempSsidSize at hbig
    omega
  have hsizes : pwdSize ≤ 65 ∧ ssidSize ≤ 64 := by
    unfold tempPwdSize tempSsidSize at hbig
    omega
  by_cases hinside : KeyInside crypt.aesKey
  case neg =>
    rw [decodeAes_outside hinside hbig]
    by_cases hnone : pwdSize + ssidSize = 0
    · rw [if_pos hnone]
      refine .inr ⟨true, result, rfl, hfits, ?_, fun _ => by omega⟩
      rintro ⟨-, -, -, h | h | ⟨-, h⟩⟩
      · exact absurd h.2 (by omega)
      · exact absurd h.1 (by omega)
      · exact absurd h.1 (by omega)
    · rw [if_neg hnone]
      exact .inl ⟨rfl, hkey, hsizes.1, hsizes.2, .inl ⟨hinside, Nat.pos_of_ne_zero hnone⟩⟩
  -- only 65 bytes are decrypted to more than `temp_pwd` holds
  have hconvey : tempPwdSize < conveyLen pwdSize ↔ pwdSize = 65 := by
    unfold tempPwdSize conveyLen aesBlockSize
    dsimp only
    split <;> omega
  have hconvey' : ¬tempSsidSize < conveyLen ssidSize := by
    unfold tempSsidSize conveyLen aesBlockSize
    dsimp only
    split <;> omega
  have hputPwd : ∀ (r : ScResult), r.Fits → ∀ temp len, len ≤ tempPwdSize →
      len ≤ wlanPassphraseMaxLen →
      ∃ result', putPwd tempPwdSize 0 temp len r = some result' ∧ result'.Fits :=
    fun r hr temp len hlen hmax => putPwd_fits temp hr (by omega) hmax
  have hputSsid : ∀ (r : ScResult), r.Fits → ∀ temp len, len ≤ tempSsidSize →
      len ≤ wlanSsidMaxLen →
      ∃ result', putSsid tempSsidSize 0 temp len r = some result' ∧ result'.Fits :=
    fun r hr temp len hlen hmax => putSsid_fits temp hr (by omega) hmax
  have hleaves : PartLeaves crypt.ssid buff pwdSize tempSsidSize ssidSize ↔
      Decrypts crypt.ssid buff pwdSize ssidSize fun plain => AllPadding plain ssidSize := by
    unfold PartLeaves
    simp only [hconvey', false_or]
  rw [decodeAes, if_neg hbig]
  rw [or_iff_right (show ¬(¬KeyInside crypt.aesKey ∧ 0 < pwdSize + ssidSize) from
    fun h => h.1 hinside), ← hleaves]
  simp only [← hconvey]
  have hpwd : pwdSize ≤ tempPwdSize := by unfold tempPwdSize; omega
  have hssid : ssidSize ≤ tempSsidSize := by unfold tempSsidSize; omega
  rcases decodePart_cases hinside (show 0 + pwdSize ≤ srcDataBuffSize by omega) hpwd hfits
      (hputPwd result hfits) with ⟨heq, hstray⟩ | ⟨ok, result₁, heq, hfits₁, hnot, hok⟩
  · rw [heq]
    exact .inl ⟨rfl, hkey, hsizes.1, hsizes.2, .inl hstray⟩
  · rw [heq]
    cases ok with
    | false =>
      refine .inr ⟨false, result₁, rfl, hfits₁, ?_, nofun⟩
      rintro ⟨-, -, -, h | ⟨h, -⟩⟩
      · exact hnot h
      · exact nomatch hok.mpr h
    | true =>
      rcases decodePart_cases hinside (show pwdSize + ssidSize ≤ srcDataBuffSize by omega) hssid hfits₁
          (hputSsid result₁ hfits₁) with ⟨heq₂, hstray⟩ | ⟨ok, result₂, heq₂, hfits₂, hnot₂, -⟩
      · exact .inl ⟨heq₂, hkey, hsizes.1, hsizes.2, .inr ⟨hok.mp rfl, hstray⟩⟩
      · refine .inr ⟨ok, result₂, heq₂, hfits₂, ?_, fun _ => by omega⟩
        rintro ⟨-, -, -, h | ⟨-, h⟩⟩
        · exact hnot h
        · exact hnot₂ h

/-- The two checksums are in the buffer, and the data is accepted only with them. -/
theorem checkCrc_bounded (buff : Nat → UInt8) (hfits : result.Fits)
    (hlen : leadCode.ssidpwdLen ≤ 129) :
    ∃ ret buff', checkCrc buff leadCode.ssidpwdLen result = some (ret, result, buff') ∧
      (ret = 0 → Decoded leadCode buff result) := by
  have hread : ∀ i : Nat, i < 256 → readAt srcDataBuffSize buff i = some (buff i) := by
    intro i hi
    rw [readAt, if_pos ⟨by omega, by unfold srcDataBuffSize scMaxSsidpskLen; omega⟩]
    rfl
  have hpwd : crc8Of (wlanPassphraseMaxLen + 1) result.pwd result.pwdLen =
      some (calCrc8 (firstBytes result.pwd result.pwdLen)) := if_pos (Nat.le_succ_of_le hfits.pwd)
  have hssid : crc8Of wlanSsidMaxLen result.ssid result.ssidLen =
      some (calCrc8 (firstBytes result.ssid result.ssidLen)) := if_pos hfits.ssid
  have hcrcPwd := hread (leadCode.ssidpwdLen + leadCode.ssidpwdLen % 2) (by omega)
  have hcrcSsid := hread (leadCode.ssidpwdLen + leadCode.ssidpwdLen % 2 + 1) (by omega)
  unfold checkCrc
  dsimp only
  rw [hcrcPwd, Option.bind_some, hpwd, Option.bind_some]
  split
  · exact ⟨-1, _, rfl, fun h => absurd h (by decide)⟩
  · rename_i hfirst
    rw [hcrcSsid, Option.bind_some, hssid, Option.bind_some]
    split
    · exact ⟨-1, _, rfl, fun h => absurd h (by decide)⟩
    · rename_i hsecond
      exact ⟨0, _, rfl, fun _ => ⟨hfits, not_not.mp hfirst, not_not.mp hsecond⟩⟩

/-- The sizes as bytes only come through the check when they are the lengths. -/
theorem sizes_sum (hlen : leadCode.ssidpwdLen < 256)
    (hsum : leadCode.ssidSize + leadCode.pwdSize < srcDataBuffSize) :
    leadCode.ssidSize + leadCode.pwdSize = leadCode.ssidpwdLen := by
  unfold LeadCode.ssidSize LeadCode.pwdSize srcDataBuffSize scMaxSsidpskLen at *
  omega

theorem decDataDecode_cases (hlen : leadCode.ssidpwdLen < 256) (hfits : result.Fits) :
    (decDataDecode crypt result leadCode buff = none ∧ Leaves crypt leadCode buff) ∨
    ∃ ret result' buff', decDataDecode crypt result leadCode buff = some (ret, result', buff') ∧
      result'.Fits ∧ ¬Leaves crypt leadCode buff ∧ (ret = 0 → Decoded leadCode buff result') := by
  unfold decDataDecode
  by_cases hsum : leadCode.ssidSize + leadCode.pwdSize ≥ srcDataBuffSize
  · rw [if_pos hsum]
    refine .inr ⟨-1, result, buff, rfl, hfits, ?_, fun h => absurd h (by decide)⟩
    rintro ⟨-, hpwd, hssid, -⟩
    unfold srcDataBuffSize scMaxSsidpskLen at hsum
    omega
  have hlt := Nat.lt_of_not_le hsum
  have heq := sizes_sum hlen hlt
  -- what follows the parts
  have hend : ∀ ok (r : ScResult), r.Fits →
      (ok = true → leadCode.ssidSize + leadCode.pwdSize ≤ 129) →
      ∃ ret result' buff', (if ok = true then checkCrc buff leadCode.ssidpwdLen
          { r with random := leadCode.random } else some (-1, r, buff)) =
        some (ret, result', buff') ∧ result'.Fits ∧ (ret = 0 → Decoded leadCode buff result') := by
    intro ok r hr hok
    cases ok with
    | false => exact ⟨-1, r, buff, rfl, hr, fun h => absurd h (by decide)⟩
    | true =>
      have hshort : leadCode.ssidpwdLen ≤ 129 := by
        rw [← heq]
        exact hok rfl
      rw [if_pos rfl]
      generalize hset : { r with random := leadCode.random } = r'
      have hr' : r'.Fits := by
        rw [← hset]
        exact ⟨hr.ssid, hr.pwd⟩
      obtain ⟨ret, buff', hret, hdec⟩ := checkCrc_bounded buff hr' hshort
      exact ⟨ret, r', buff', hret, hr', hdec⟩
  rw [if_neg hsum]
  by_cases hkey : crypt.aesKey 0 ≠ 0
  · rw [if_pos hkey]
    rcases decodeAes_cases hfits hlt hkey with ⟨hnone, hleaves⟩ | ⟨ok, r, hsome, hr, hnot, hok⟩
    · rw [hnone]
      exact .inl ⟨rfl, hleaves⟩
    · rw [hsome]
      obtain ⟨ret, r', buff', hret, hr', hdec⟩ := hend ok r hr hok
      exact .inr ⟨ret, r', buff', hret, hr', hnot, hdec⟩
  · rw [if_neg hkey]
    obtain ⟨ok, r, hsome, hr, hok⟩ := decodePlain_fits hfits hlt
    rw [hsome]
    obtain ⟨ret, r', buff', hret, hr', hdec⟩ := hend ok r hr hok
    exact .inr ⟨ret, r', buff', hret, hr', fun h => hkey h.1, hdec⟩

end

/-- Whatever the lead code, the packets and the result of an earlier decoding are, all accesses stay
in their buffers and what is accepted fits and has its checksums, unless an encrypted part is there
for a key without an end, comes out as nothing but padding of which there is too much, or is a
passphrase of 65 bytes. -/
theorem data_decode_bounded (crypt : Crypt) (result : ScResult) (leadCode : LeadCode)
    (buff : Nat → UInt8) (hlen : leadCode.ssidpwdLen < 256) (hfits : result.Fits) :
    Bounded crypt result leadCode buff ↔ ¬Leaves crypt leadCode buff := by
  rcases decDataDecode_cases hlen hfits with ⟨heq, hleaves⟩ | ⟨ret, r, b, heq, -, hnot, hdec⟩
  · refine iff_of_false ?_ (not_not.mpr hleaves)
    rintro ⟨_, _, _, h, -⟩
    rw [heq] at h
    exact nomatch h
  · exact iff_of_true ⟨ret, r, b, heq, hdec⟩ hnot

/-- One letter and one digit, accepted with their checksums. -/
theorem data_decode_plain_bounded :
    Bounded ⟨fun _ => 0, none, none⟩ ⟨fun _ => 0, fun _ => 0, 0, 0, 0⟩
      { scResetLeadCode with ssidpwdLen := 2, pwdLen := 1, random := 7 }
      (fun i => [0x31, 0x61, calCrc8 [0x31], calCrc8 [0x61]].getD i 0) := by
  refine (data_decode_bounded _ _ _ _ (by decide) ⟨Nat.zero_le _, Nat.zero_le _⟩).mpr ?_
  exact fun h => h.1 rfl

/-- A key of 16 characters has no end: an encrypted passphrase and SSID of one block each are enough for
it to be read past its last byte. -/
theorem encrypted_leaves : ¬∃ block : Block → Block,
    Bounded ⟨fun i => 0x30 + i.val.toUInt8, some block, some block⟩
      ⟨fun _ => 0, fun _ => 0, 0, 0, 0⟩
      { scResetLeadCode with ssidpwdLen := 32, pwdLen := 16, random := 7 } (fun _ => 0) := by
  rintro ⟨block, ret, result', buff', h, -⟩
  exact nomatch h

/-! ## Every run -/

section

variable {crypt : Crypt} {s s' : Session ScResult} {f : Frame} {frames : List Frame}
  {leadCode : LeadCode} {buff : Nat → UInt8} {result : ScResult}

/-- `dec_data_decode` as the packets invoke it. After an access outside of a buffer nothing is said
about the result any more, and it is left as it was. -/
def dataDecode (crypt : Crypt) : DataDecode ScResult := fun leadCode buff result =>
  match decDataDecode crypt result leadCode buff with
  | some (ret, result, _) => (ret = 0, result)
  | none => (false, result)

theorem dataDecode_fits (crypt : Crypt) (buff : Nat → UInt8) (hlen : leadCode.ssidpwdLen < 256)
    (hfits : result.Fits) :
    (dataDecode crypt leadCode buff result).2.Fits := by
  unfold dataDecode
  rcases decDataDecode_cases hlen hfits with ⟨heq, -⟩ | ⟨ret, r, b, heq, hr, -, -⟩
  · rw [heq]
    exact hfits
  · rw [heq]
    exact hr

/-- What `dec_data_decode` relies on. -/
structure Ready (p : Priv ScResult) : Prop where
  lead : p.leadCode.ssidpwdLen < 256
  fits : p.result.Fits

theorem getLeadCode_lt {status : Status} {a : Addr} (h : leadCode.ssidpwdLen < 256) :
    (decGetLeadCode leadCode status a).2.1.ssidpwdLen < 256 := by
  unfold decGetLeadCode
  dsimp only
  split
  · exact h
  · split
    · exact h
    · split
      · exact h
      · split
        · exact h
        · exact a.b4.toNat_lt
        · exact h
        · exact h
        · exact h

theorem Ready.decodeAll {p : Priv ScResult} (h : Ready p) :
    Ready (decodeAll (dataDecode crypt) p).2.1 := by
  unfold SmartConfig.decodeAll
  split
  · have hfits := dataDecode_fits crypt p.srcDataBuff h.lead h.fits
    dsimp only
    split
    · exact ⟨h.lead, hfits⟩
    · exact ⟨show 0 < 256 by decide, hfits⟩
  · exact h

theorem Ready.decode {p : Priv ScResult} (h : Ready p) (crypt : Crypt) (f : Frame) :
    Ready (scDecPacketDecode (dataDecode crypt) p f).2.1 := by
  unfold scDecPacketDecode
  cases f.source with
  | none => exact h
  | some a =>
    dsimp only
    split
    · split
      · exact h
      · refine ⟨?_, h.fits⟩
        dsimp only
        split
        · exact getLeadCode_lt h.lead
        · exact getLeadCode_lt h.lead
    · split
      · exact h
      · split
        · split
          · exact ⟨h.lead, h.fits⟩
          · exact Ready.decodeAll ⟨h.lead, h.fits⟩
        · exact h.decodeAll

theorem Ready.recv (h : Ready s.priv) : Ready (s.recv (dataDecode crypt) f).priv := by
  have hdec := h.decode crypt f
  unfold Session.recv smartconfigRecvRawframe
  dsimp only
  split
  · exact ⟨hdec.lead, hdec.fits⟩
  · split
    · exact ⟨hdec.lead, hdec.fits⟩
    · exact hdec

/-- Whatever frames come, the lengths that `dec_data_decode` gets are bytes, and the result it finds
fits. -/
theorem ready_of_run (hfits : result.Fits)
    (h : Run (Step (dataDecode crypt)) ⟨start result, fun _ => none⟩ frames s') :
    Ready s'.priv := by
  have h0 : Ready (start result) := ⟨show 0 < 256 by decide, hfits⟩
  refine Run.invariant (I := fun s => Ready s.priv) h h0 ?_
  rintro s f _ hs ⟨⟩
  exact hs.recv

end

end SmartConfig
end XR806

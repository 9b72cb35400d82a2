import Mathlib.Data.List.Basic

/-!
# XR806.SmartLink.Blink

The provisioning message of `blink.c`: a peer writes it to a characteristic, at an offset of its
choice, and `blink_get_result` takes the SSID and the passphrase out of it.

The model stops at the first read or write outside of the written buffer, the message array or the
result (`none`). The header is read whatever the length of the write, the message gets a terminator
behind its last byte, and the length of the SSID is used as an index before it is checked
(`blink_bounded_iff`).
-/

namespace XR806
namespace Blink

def blinkMsgLenMax : Nat := 108
def blinkMsgSync : Nat := 0x5A6E3C6F
def blinkMsgVersion : UInt8 := 0x10
def blinkMsgVersionIndex : Nat := 4
def blinkMsgFmtIndex : Nat := 5
def blinkMsgSsidIndex : Nat := 9
def blinkMsgFmtSubc : UInt8 := 0
def wlanSsidMaxLen : Nat := 32
def wlanPassphraseMaxLen : Nat := 63

inductive BlinkStatus where
  | normal
  | ready
  | busy
  | timeout
  | complete
  deriving DecidableEq

/-- `blink_priv_t`; the message array is the first `blinkMsgLenMax` bytes. -/
structure BlinkPriv where
  status : BlinkStatus
  message : Nat → UInt8

/-- What `blink_start` leaves. -/
def blinkStart : BlinkPriv := ⟨.ready, fun _ => 0⟩

/-- A write of the peer to the characteristic. -/
structure CharWrite where
  buf : List UInt8
  offset : Nat

/-- The array behind `memset`, `memcpy` and the terminator. -/
def CharWrite.stored (w : CharWrite) (i : Nat) : UInt8 :=
  if w.offset ≤ i then w.buf.getD (i - w.offset) 0 else 0

/-- `blink_parse_message`; its result is not used. -/
def blinkParseMessage (s : BlinkPriv) (w : CharWrite) : Option BlinkPriv := do
  let b0 ← w.buf[0]?
  let b1 ← w.buf[1]?
  let b2 ← w.buf[2]?
  let b3 ← w.buf[3]?
  let sync := b0.toNat <<< 24 ||| b1.toNat <<< 16 ||| b2.toNat <<< 8 ||| b3.toNat
  let version ← w.buf[blinkMsgVersionIndex]?
  if s.status ≠ .complete ∧ sync = blinkMsgSync ∧ version = blinkMsgVersion then
    let fmt ← w.buf[blinkMsgFmtIndex]?
    if fmt = blinkMsgFmtSubc then pure s
    else if w.offset + w.buf.length < blinkMsgLenMax then pure ⟨.complete, w.stored⟩
    else none
  else pure s

inductive WriteRet where
  | len (n : Nat)
  | errInvalidOffset
  deriving DecidableEq

/-- `blink_write_callback`. -/
def blinkWriteCallback (s : BlinkPriv) (w : CharWrite) : Option (WriteRet × BlinkPriv) :=
  if w.offset + w.buf.length > blinkMsgLenMax then some (.errInvalidOffset, s)
  else do
    let s ← blinkParseMessage s w
    pure (.len w.buf.length, s)

/-- `blink_result_t`: the lengths and the bytes that are copied. -/
structure BlinkResult where
  ssid : List UInt8
  ssidLen : Nat
  passphrase : List UInt8
  passphraseLen : Nat

def readMessage (message : Nat → UInt8) (i : Nat) : Option UInt8 :=
  if i < blinkMsgLenMax then some (message i) else none

/-- `memcpy` of `len` bytes of the message to an array of `size` bytes. -/
def copyMessage (message : Nat → UInt8) (i len size : Nat) : Option (List UInt8) :=
  if i + len ≤ blinkMsgLenMax ∧ len ≤ size then some ((List.range len).map fun k => message (i + k))
  else none

/-- `blink_get_result`; the inner `none` is `BLINK_ERROR`. -/
def blinkGetResult (s : BlinkPriv) : Option (Option BlinkResult) :=
  if s.status ≠ .complete then some none
  else do
    let ssidLen ← readMessage s.message blinkMsgSsidIndex
    let passphraseLen ← readMessage s.message (ssidLen.toNat + blinkMsgSsidIndex + 1)
    if ssidLen.toNat > wlanSsidMaxLen ∨ passphraseLen.toNat > wlanPassphraseMaxLen then pure none
    else do
      let ssid ← copyMessage s.message (blinkMsgSsidIndex + 1) ssidLen.toNat wlanSsidMaxLen
      let passphrase ← copyMessage s.message (ssidLen.toNat + blinkMsgSsidIndex + 2)
        passphraseLen.toNat (wlanPassphraseMaxLen + 1)
      -- the terminator goes behind the passphrase
      if passphraseLen.toNat < wlanPassphraseMaxLen + 1 then
        pure (some ⟨ssid, ssidLen.toNat, passphrase, passphraseLen.toNat⟩)
      else none

def runWrites (s : BlinkPriv) : List CharWrite → Option BlinkPriv
  | [] => some s
  | w :: ws => do
    let (_, s) ← blinkWriteCallback s w
    runWrites s ws

/-! ## Bounds -/

namespace CharWrite

variable (w : CharWrite)

/-- The sync word and the version. -/
def Headed : Prop :=
  (w.buf.getD 0 0).toNat <<< 24 ||| (w.buf.getD 1 0).toNat <<< 16 |||
      (w.buf.getD 2 0).toNat <<< 8 ||| (w.buf.getD 3 0).toNat = blinkMsgSync ∧
    w.buf.getD blinkMsgVersionIndex 0 = blinkMsgVersion

instance : Decidable w.Headed := inferInstanceAs (Decidable (_ ∧ _))

/-- The length check turns the write away. -/
def Refused : Prop := w.offset + w.buf.length > blinkMsgLenMax

/-- The write is taken as the message. -/
def Taken : Prop :=
  ¬w.Refused ∧ blinkMsgFmtIndex < w.buf.length ∧ w.Headed ∧
    w.buf.getD blinkMsgFmtIndex 0 ≠ blinkMsgFmtSubc

instance : Decidable w.Refused := inferInstanceAs (Decidable (_ > _))

instance : Decidable w.Taken := inferInstanceAs (Decidable (_ ∧ _))

def ssidLen : Nat := (w.stored blinkMsgSsidIndex).toNat

def passphraseLen : Nat := (w.stored (w.ssidLen + blinkMsgSsidIndex + 1)).toNat

/-- The SSID, the passphrase and their lengths are among the bytes that were received. -/
def Contains (ssidLen passphraseLen : Nat) : Prop :=
  w.offset ≤ blinkMsgSsidIndex ∧
    blinkMsgSsidIndex + 1 + ssidLen + 1 + passphraseLen ≤ w.offset + w.buf.length

/-- A message with room for the terminator, whose lengths are within it unless they are refused. -/
structure WellFormed : Prop where
  room : w.offset + w.buf.length < blinkMsgLenMax
  index : w.ssidLen + blinkMsgSsidIndex + 1 < blinkMsgLenMax
  lengths : w.ssidLen ≤ wlanSsidMaxLen → w.passphraseLen ≤ wlanPassphraseMaxLen →
    w.Contains w.ssidLen w.passphraseLen

/-- The header can be read. -/
def HeaderRead : Prop := ¬w.Refused → blinkMsgVersionIndex < w.buf.length

instance : Decidable w.HeaderRead := inferInstanceAs (Decidable (_ → _))

end CharWrite

/-- The writes up to the message have a header, and a format if it is one; the message is well
formed. -/
def Handled : List CharWrite → Prop
  | [] => True
  | w :: ws =>
    w.HeaderRead ∧ (¬w.Refused → w.Headed → blinkMsgFmtIndex < w.buf.length) ∧
      if w.Taken then w.WellFormed ∧ ∀ w' ∈ ws, w'.HeaderRead else Handled ws

/-- The write that became the message. -/
def received (ws : List CharWrite) : Option CharWrite := ws.find? fun w => w.Taken

/-- The result is within the message that was received, and within `blink_result_t`. -/
def Fits (ws : List CharWrite) (r : BlinkResult) : Prop :=
  (∃ w, received ws = some w ∧ w.Contains r.ssidLen r.passphraseLen) ∧
    r.ssidLen ≤ wlanSsidMaxLen ∧ r.passphraseLen < wlanPassphraseMaxLen + 1

/-- No access of the writes and of the call behind them is outside, and what the call gives
fits. -/
def Bounded (s : BlinkPriv) (ws : List CharWrite) : Prop :=
  ∃ s' r, runWrites s ws = some s' ∧ blinkGetResult s' = some r ∧ ∀ res, r = some res → Fits ws res

section

variable {s s' : BlinkPriv} {w : CharWrite} {ws : List CharWrite}

theorem blinkParseMessage_short (h : w.buf.length ≤ blinkMsgVersionIndex) :
    blinkParseMessage s w = none := by
  obtain ⟨buf, offset⟩ := w
  rcases buf with _ | ⟨b0, _ | ⟨b1, _ | ⟨b2, _ | ⟨b3, _ | ⟨v, rest⟩⟩⟩⟩⟩
  · rfl
  · rfl
  · rfl
  · rfl
  · rfl
  · have hlong : rest.length + 5 ≤ 4 := h
    omega

theorem blinkParseMessage_read (h : blinkMsgVersionIndex < w.buf.length) :
    blinkParseMessage s w =
      if s.status ≠ .complete ∧ w.Headed then
        if w.buf.length ≤ blinkMsgFmtIndex then none
        else if w.buf.getD blinkMsgFmtIndex 0 = blinkMsgFmtSubc then some s
        else if w.offset + w.buf.length < blinkMsgLenMax then some ⟨.complete, w.stored⟩
        else none
      else some s := by
  obtain ⟨buf, offset⟩ := w
  rcases buf with _ | ⟨b0, _ | ⟨b1, _ | ⟨b2, _ | ⟨b3, _ | ⟨v, rest⟩⟩⟩⟩⟩
  case cons.cons.cons.cons.cons =>
    change (if _ then _ else _) = _
    refine if_congr Iff.rfl ?_ rfl
    cases rest with
    | nil => rfl
    | cons fmt rest =>
      have hlong : ¬(b0 :: b1 :: b2 :: b3 :: v :: fmt :: rest).length ≤ blinkMsgFmtIndex := by
        simp only [List.length_cons, blinkMsgFmtIndex]
        omega
      exact (if_neg hlong).symm
  all_goals simp [blinkMsgVersionIndex] at h

/-- A write, behind the message or in front of it. -/
theorem blinkWriteCallback_eq : blinkWriteCallback s w =
    if w.Refused then some (.errInvalidOffset, s)
    else (blinkParseMessage s w).map fun s => (.len w.buf.length, s) := by
  refine if_congr Iff.rfl rfl ?_
  cases blinkParseMessage s w <;> rfl

/-- Once there is a message, only the header is read. -/
theorem runWrites_complete (hs : s.status = .complete) :
    runWrites s ws = some s' ↔ (∀ w ∈ ws, w.HeaderRead) ∧ s' = s := by
  induction ws with
  | nil => exact ⟨fun h => ⟨List.forall_mem_nil _, (Option.some.inj h).symm⟩, fun h => h.2 ▸ rfl⟩
  | cons w ws ih =>
    rw [List.forall_mem_cons, and_assoc, ← ih, runWrites, blinkWriteCallback_eq]
    by_cases href : w.Refused
    · rw [if_pos href]
      exact ⟨fun h => ⟨fun hnot => absurd href hnot, h⟩, fun h => h.2⟩
    rw [if_neg href]
    rcases Nat.lt_or_ge blinkMsgVersionIndex w.buf.length with hlen | hlen
    · rw [blinkParseMessage_read hlen, if_neg (fun h => h.1 hs)]
      exact ⟨fun h => ⟨fun _ => hlen, h⟩, fun h => h.2⟩
    · rw [blinkParseMessage_short hlen]
      exact iff_of_false (Option.some_ne_none _).symm fun h => absurd (h.1 href) (Nat.not_lt.mpr hlen)

/-- What `blink_get_result` makes of the message. -/
theorem blinkGetResult_stored (s : BlinkPriv) (hs : s = ⟨.complete, w.stored⟩) :
    blinkGetResult s =
      if w.ssidLen + blinkMsgSsidIndex + 1 < blinkMsgLenMax then
        if w.ssidLen ≤ wlanSsidMaxLen ∧ w.passphraseLen ≤ wlanPassphraseMaxLen then
          some (some ⟨(List.range w.ssidLen).map fun k => w.stored (blinkMsgSsidIndex + 1 + k),
            w.ssidLen, (List.range w.passphraseLen).map fun k =>
              w.stored (w.ssidLen + blinkMsgSsidIndex + 2 + k), w.passphraseLen⟩)
        else some none
      else none := by
  subst hs
  unfold blinkGetResult
  rw [if_neg (fun h => h rfl)]
  have hfirst : readMessage w.stored blinkMsgSsidIndex = some (w.stored blinkMsgSsidIndex) :=
    if_pos (by decide)
  simp only [hfirst, Option.bind_eq_bind, Option.bind_some]
  unfold readMessage
  change Option.bind (if w.ssidLen + blinkMsgSsidIndex + 1 < blinkMsgLenMax then _ else none) _ = _
  by_cases hindex : w.ssidLen + blinkMsgSsidIndex + 1 < blinkMsgLenMax
  · rw [if_pos hindex, if_pos hindex, Option.bind_some]
    change (if w.ssidLen > wlanSsidMaxLen ∨ w.passphraseLen > wlanPassphraseMaxLen then _
      else _) = _
    by_cases hlen : w.ssidLen ≤ wlanSsidMaxLen ∧ w.passphraseLen ≤ wlanPassphraseMaxLen
    · rw [if_neg (by omega), if_pos hlen]
      have hssid : blinkMsgSsidIndex + 1 + w.ssidLen ≤ blinkMsgLenMax := by
        have := hlen.1
        unfold blinkMsgSsidIndex blinkMsgLenMax wlanSsidMaxLen at *
        omega
      have hpass : w.ssidLen + blinkMsgSsidIndex + 2 + w.passphraseLen ≤ blinkMsgLenMax := by
        unfold blinkMsgSsidIndex blinkMsgLenMax wlanSsidMaxLen wlanPassphraseMaxLen at *
        omega
      have hcopySsid : copyMessage w.stored (blinkMsgSsidIndex + 1) w.ssidLen wlanSsidMaxLen =
          some _ := if_pos ⟨hssid, hlen.1⟩
      have hcopyPass : copyMessage w.stored (w.ssidLen + blinkMsgSsidIndex + 2) w.passphraseLen
          (wlanPassphraseMaxLen + 1) = some _ := if_pos ⟨hpass, by omega⟩
      change Option.bind (copyMessage w.stored (blinkMsgSsidIndex + 1) w.ssidLen wlanSsidMaxLen) _
        = _
      rw [hcopySsid, Option.bind_some]
      change Option.bind (copyMessage w.stored (w.ssidLen + blinkMsgSsidIndex + 2) w.passphraseLen
        (wlanPassphraseMaxLen + 1)) _ = _
      rw [hcopyPass, Option.bind_some]
      exact if_pos (Nat.lt_succ_of_le hlen.2)
    · rw [if_pos (by omega), if_neg hlen]
      rfl
  · rw [if_neg hindex, if_neg hindex]
    rfl

/-- A write that leaves everything as it is. -/
theorem bounded_cons (hw : ∃ r, blinkWriteCallback s w = some (r, s)) (ht : ¬w.Taken) :
    Bounded s (w :: ws) ↔ Bounded s ws := by
  obtain ⟨r, hw⟩ := hw
  have hrec : received (w :: ws) = received ws := List.find?_cons_of_neg (by simpa using ht)
  have hrun : runWrites s (w :: ws) = runWrites s ws := by
    rw [runWrites, hw]
    rfl
  unfold Bounded Fits
  rw [hrun, hrec]

/-- The write that becomes the message. -/
theorem bounded_taken (hs : s.status ≠ .complete) (ht : w.Taken) :
    Bounded s (w :: ws) ↔ w.WellFormed ∧ ∀ w' ∈ ws, w'.HeaderRead := by
  obtain ⟨href, hfmt, hhead, hsubc⟩ := ht
  have hversion : blinkMsgVersionIndex < w.buf.length :=
    Nat.lt_trans (by decide) hfmt
  have hcall : blinkWriteCallback s w =
      if w.offset + w.buf.length < blinkMsgLenMax then
        some (.len w.buf.length, ⟨.complete, w.stored⟩)
      else none := by
    rw [blinkWriteCallback_eq, if_neg href, blinkParseMessage_read hversion, if_pos ⟨hs, hhead⟩,
      if_neg (Nat.not_le.mpr hfmt), if_neg hsubc]
    split <;> rfl
  have hrec : received (w :: ws) = some w :=
    List.find?_cons_of_pos (by simpa using ⟨href, hfmt, hhead, hsubc⟩)
  unfold Bounded
  rw [runWrites, hcall]
  by_cases hroom : w.offset + w.buf.length < blinkMsgLenMax
  · rw [if_pos hroom]
    change (∃ s' r, runWrites ⟨.complete, w.stored⟩ ws = some s' ∧ _) ↔ _
    constructor
    · rintro ⟨s', r, hrun, hget, hfits⟩
      obtain ⟨hall, rfl⟩ := (runWrites_complete rfl).mp hrun
      rw [blinkGetResult_stored _ rfl] at hget
      by_cases hindex : w.ssidLen + blinkMsgSsidIndex + 1 < blinkMsgLenMax
      · rw [if_pos hindex] at hget
        refine ⟨⟨hroom, hindex, fun hssid hpass => ?_⟩, hall⟩
        rw [if_pos ⟨hssid, hpass⟩] at hget
        obtain ⟨⟨w', hw', hcontains⟩, -⟩ := hfits _ (Option.some.inj hget).symm
        rw [hrec] at hw'
        exact Option.some.inj hw' ▸ hcontains
      · rw [if_neg hindex] at hget
        cases hget
    · rintro ⟨hwf, hall⟩
      have hget := blinkGetResult_stored (w := w) _ rfl
      rw [if_pos hwf.index] at hget
      by_cases hlen : w.ssidLen ≤ wlanSsidMaxLen ∧ w.passphraseLen ≤ wlanPassphraseMaxLen
      · rw [if_pos hlen] at hget
        refine ⟨_, _, (runWrites_complete rfl).mpr ⟨hall, rfl⟩, hget, fun res hres => ?_⟩
        obtain rfl := Option.some.inj hres
        exact ⟨⟨w, hrec, hwf.lengths hlen.1 hlen.2⟩, hlen.1, Nat.lt_succ_of_le hlen.2⟩
      · rw [if_neg hlen] at hget
        refine ⟨_, _, (runWrites_complete rfl).mpr ⟨hall, rfl⟩, hget, fun res hres => ?_⟩
        cases hres
  · rw [if_neg hroom]
    refine iff_of_false ?_ fun h => hroom h.1.room
    rintro ⟨s', r, hrun, -⟩
    cases hrun

theorem bounded_iff (hs : s.status ≠ .complete) : Bounded s ws ↔ Handled ws := by
  induction ws with
  | nil =>
    refine iff_of_true ⟨s, none, rfl, if_pos hs, ?_⟩ trivial
    intro res hres
    cases hres
  | cons w ws ih =>
    rw [Handled]
    by_cases href : w.Refused
    · have ht : ¬w.Taken := fun ht => ht.1 href
      rw [bounded_cons ⟨_, blinkWriteCallback_eq.trans (if_pos href)⟩ ht, ih, if_neg ht]
      exact ⟨fun h => ⟨absurd href, absurd href, h⟩, fun h => h.2.2⟩
    rcases Nat.lt_or_ge blinkMsgVersionIndex w.buf.length with hversion | hshort
    · by_cases ht : w.Taken
      · rw [bounded_taken hs ht, if_pos ht]
        exact ⟨fun h => ⟨fun _ => hversion, fun _ _ => ht.2.1, h⟩, fun h => h.2.2⟩
      rw [if_neg ht]
      have hcall : blinkWriteCallback s w = _ :=
        blinkWriteCallback_eq.trans (if_neg href)
      rw [blinkParseMessage_read hversion] at hcall
      by_cases hhead : w.Headed
      · rw [if_pos ⟨hs, hhead⟩] at hcall
        rcases Nat.lt_or_ge blinkMsgFmtIndex w.buf.length with hfmt | hfmt
        · have hsubc : w.buf.getD blinkMsgFmtIndex 0 = blinkMsgFmtSubc :=
            Decidable.byContradiction fun hne => ht ⟨href, hfmt, hhead, hne⟩
          rw [if_neg (Nat.not_le.mpr hfmt), if_pos hsubc] at hcall
          rw [bounded_cons ⟨_, hcall⟩ ht, ih]
          exact ⟨fun h => ⟨fun _ => hversion, fun _ _ => hfmt, h⟩, fun h => h.2.2⟩
        · rw [if_pos hfmt] at hcall
          refine iff_of_false ?_ fun h => Nat.not_lt.mpr hfmt (h.2.1 href hhead)
          rintro ⟨s', r, hrun, -⟩
          rw [runWrites, hcall] at hrun
          cases hrun
      · rw [if_neg fun h => hhead h.2] at hcall
        rw [bounded_cons ⟨_, hcall⟩ ht, ih]
        exact ⟨fun h => ⟨fun _ => hversion, fun _ h => absurd h hhead, h⟩, fun h => h.2.2⟩
    · refine iff_of_false ?_ fun h => Nat.not_lt.mpr hshort (h.1 href)
      rintro ⟨s', r, hrun, -⟩
      rw [runWrites, blinkWriteCallback_eq, if_neg href, blinkParseMessage_short hshort] at hrun
      cases hrun

/-- Whatever the peer writes, all accesses stay inside and a result fits exactly when the writes have
their header and the message is well formed. -/
theorem blink_bounded_iff (ws : List CharWrite) : Bounded blinkStart ws ↔ Handled ws :=
  bounded_iff (fun h => BlinkStatus.noConfusion h)

/-- A message of 16 bytes that says its SSID has 255. -/
theorem ssid_length_overruns : ¬Bounded blinkStart
    [⟨[0x5A, 0x6E, 0x3C, 0x6F, 0x10, 1, 0, 0, 0, 255, 0, 0, 0, 0, 0, 0], 0⟩] := by
  rintro ⟨s', r, hrun, hget, -⟩
  obtain rfl := Option.some.inj hrun
  rw [blinkGetResult_stored _ rfl, if_neg (by decide)] at hget
  cases hget

end

end Blink
end XR806

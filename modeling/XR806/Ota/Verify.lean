import XR806.Ota.Agree
import XR806.Image.Cfg

/-!
# XR806.Ota.Verify

The extra verification of a received image, in the application: behind the last section lies a
record with a digest (`ota_get_verify_data`), and `ota_verify_image` compares it with the digest of
what is in the slot.

The position of the record comes from the sections, the size that is hashed from the number of
bytes received. They agree just when the stream ends with the record (`digest_covers`).
-/

namespace XR806
namespace Ota

open Nor Flash Image

/-- `ota_verify_t`. -/
inductive Verify where
  | none
  | crc32
  | md5
  | sha1
  | sha256
  deriving DecidableEq

/-- The values of `ota_verify_t`; there are no others. -/
def Verify.ofValue : Nat → Option Verify
  | 0 => some .none
  | 1 => some .crc32
  | 2 => some .md5
  | 3 => some .sha1
  | 4 => some .sha256
  | _ => Option.none

/-- The length of the digest. -/
def Verify.length : Verify → Nat
  | .none => 0
  | .crc32 => 4
  | .md5 => 16
  | .sha1 => 20
  | .sha256 => 32

def otaVerifyMagic : Nat := 0x0055AAFF

/-- `sizeof(ota_verify_data_t)`. -/
def verifyDataSize : Nat := 44

/-- `ota_verify_data_t`. -/
structure VerifyData where
  ovMagic : Nat
  ovLength : Nat
  ovVersion : Nat
  ovType : Nat
  ovReserve : Nat
  ovData : List Byte
  deriving DecidableEq

def VerifyData.decode (bytes : List Byte) : VerifyData where
  ovMagic := field bytes 0 4
  ovLength := field bytes 4 2
  ovVersion := field bytes 6 2
  ovType := field bytes 8 2
  ovReserve := field bytes 10 2
  ovData := (bytes.drop 12).take 32

section

variable (board : Board)

/-- The loop of `ota_get_verify_data_pos`; 0 is a bad image, `none` a walk not finished after
`fuel` sections. -/
def verifyDataPos (iop : OtaParam) (seq : Nat) : Nat → Nat → Nat → Prog (Option Nat)
  | 0, _, _ => pure none
  | fuel + 1, flash, addr => do
    match ← halFlashRead board flash addr imageHeaderSize with
    | none => pure (some 0)
    | some bytes =>
      if imageCheckHeader bytes = .invalid then pure (some 0)
      else
        let sh := SectionHeader.decode bytes
        let nextAddr := nextOffset sh .ota
        if nextAddr = imageInvalidAddr then
          pure (some (u32 (addr + imageHeaderSize + sh.dataSize)))
        else verifyDataPos iop seq fuel (iop.flash seq) (iop.secAddr seq nextAddr)

def otaGetVerifyDataPos (fuel seq : Nat) : Flow OtaState Nat := do
  let ota ← Flow.get
  match ota.iop with
  | none => Flow.hang
  | some iop =>
    if seq ≥ imageSeqNum then pure 0
    else
      match ← Flow.lift (verifyDataPos board iop seq fuel iop.blFlash iop.blAddr) with
      | none => Flow.hang
      | some pos => pure pos

/-- `ota_get_verify_data`; `none` is an error. -/
def otaGetVerifyData (fuel : Nat) : Flow OtaState (Option VerifyData) := do
  let ota ← Flow.get
  let seq := otaGetUpdateSeq ota.iop
  if seq ≥ imageSeqNum then pure none
  else if ota.getSize = 0 then pure none
  else
    match ota.iop with
    | none => Flow.hang
    | some iop => do
      let addr ← otaGetVerifyDataPos board fuel seq
      if addr = 0 then pure none
      else
        match ← Flow.lift (halFlashRead board (iop.flash seq) addr verifyDataSize) with
        | none => pure none
        | some bytes =>
          let data := VerifyData.decode bytes
          pure (if data.ovMagic ≠ otaVerifyMagic then none else some data)

/-- The loop of `ota_verify_image_append_process`: the bytes that are hashed. -/
def appendLoop (flash : Nat) : Nat → Nat → Nat → List Byte → Prog (Option (List Byte))
  | 0, _, _, hashed => pure (some hashed)
  | fuel + 1, addr, size, hashed =>
    if size = 0 then pure (some hashed)
    else do
      let readSize := if size > otaBufSize then otaBufSize else size
      match ← halFlashRead board flash addr readSize with
      | none => pure none
      | some buf =>
        appendLoop flash fuel (u32 (addr + readSize)) (size - readSize) (hashed ++ buf)

def otaVerifyImageAppendProcess (flash addr size : Nat) : Prog (Option (List Byte)) := do
  let ok ← allocReq otaBufSize
  if !ok then pure none else appendLoop board flash size addr size []

/-- `ota_verify_image_append`: the bytes that are hashed. -/
def otaVerifyImageAppend (seq : Nat) : Flow OtaState (Option (List Byte)) := do
  let ota ← Flow.get
  match ota.iop with
  | none => Flow.hang
  | some iop =>
    let size := sub32 (sub32 ota.getSize (uint32 ota.skipSize)) verifyDataSize
    Flow.lift (otaVerifyImageAppendProcess board (iop.flash seq) (iop.addr seq) size)

variable (digest : Verify → List Byte → List Byte)

/-- `ota_verify_image_none`, `ota_verify_image_crc32` and so on. -/
def otaVerifyImageBy (verify : Verify) (seq : Nat) (value : List Byte) : Flow OtaState Bool :=
  match verify with
  | .none => pure true
  | verify => do
    match ← otaVerifyImageAppend board seq with
    | none => pure false
    | some hashed => pure (value.take verify.length = digest verify hashed)

/-- `ota_verify_image`; `value` is `none` for NULL. -/
def otaVerifyImage (verify : Nat) (value : Option (List Byte)) : Flow OtaState Bool := do
  if verify ≠ 0 ∧ value = none then pure false
  else
    let ota ← Flow.get
    let seq := otaGetUpdateSeq ota.iop
    if seq ≥ imageSeqNum then pure false
    else if ota.getSize = 0 then pure false
    else
      match Verify.ofValue verify with
      | none => pure false
      | some verify => do
        let ok ← otaVerifyImageBy board digest verify seq (value.getD [])
        if !ok then pure false
        else
          match ota.iop with
          | none => Flow.hang
          | some iop => Flow.lift (imageSetCfg board iop ⟨seq, .verified⟩)

def otaPushFinish (fuel : Nat) : Flow OtaState Bool := do
  let ota ← Flow.get
  match ota.iop with
  | none => Flow.hang
  | some iop =>
    match ← Flow.lift (imageCheckSections board iop fuel (otaGetUpdateSeq ota.iop) .normal) with
    | none => Flow.hang
    | some .invalid => pure false
    | some .valid =>
      match ← otaGetVerifyData board fuel with
      | none => otaVerifyImage board digest 0 none
      | some data => otaVerifyImage board digest data.ovType (some data.ovData)

end

/-! ## The position of the record -/

section

variable {board : Board} {digest : Verify → List Byte → List Byte} {iop : OtaParam}
  {fuel seq flash addr size pos : Nat} {s s' : OtaState} {c : Cells} {hashed bytes : List Byte}
  {data : VerifyData}

theorem verifyDataPos_lt
    (h : ret (verifyDataPos board iop seq fuel flash addr) c = some pos) : pos < 2 ^ 32 := by
  induction fuel generalizing flash addr c with
  | zero => cases h
  | succ fuel ih =>
    rw [verifyDataPos, ret_bind] at h
    cases hread : ret (halFlashRead board flash addr imageHeaderSize) c with
    | none =>
      rw [hread] at h
      cases h
      decide
    | some bytes =>
      rw [hread] at h
      dsimp only at h
      split at h
      · cases h
        decide
      · split at h
        · cases h
          exact Nat.mod_lt _ (by decide)
        · exact ih h

theorem otaGetVerifyDataPos_lt
    (h : Flow.Returns (otaGetVerifyDataPos board fuel seq) s c pos s') : pos < 2 ^ 32 ∧ s' = s := by
  obtain ⟨ota, s₁, h₁, hrest⟩ := Flow.returns_bind.mp h
  obtain ⟨rfl, rfl⟩ := Flow.returns_get.mp h₁
  split at hrest
  · exact absurd hrest Flow.not_returns_hang
  · split at hrest
    · obtain ⟨rfl, rfl⟩ := Flow.returns_pure.mp hrest
      exact ⟨by decide, rfl⟩
    · obtain ⟨r, s₂, h₂, hpos⟩ := Flow.returns_bind.mp hrest
      obtain ⟨hr, rfl⟩ := Flow.returns_lift.mp h₂
      split at hpos
      · exact absurd hpos Flow.not_returns_hang
      · obtain ⟨rfl, rfl⟩ := Flow.returns_pure.mp hpos
        exact ⟨verifyDataPos_lt hr, rfl⟩

/-- A record lies where the sections say. -/
theorem otaGetVerifyData_pos (h : Flow.Returns (otaGetVerifyData board fuel) s c (some data) s') :
    ∃ iop pos, s.iop = some iop ∧
      Flow.Returns (otaGetVerifyDataPos board fuel (otaGetUpdateSeq s.iop)) s c pos s ∧
      pos < 2 ^ 32 := by
  obtain ⟨ota, s₁, h₁, hrest⟩ := Flow.returns_bind.mp h
  obtain ⟨rfl, rfl⟩ := Flow.returns_get.mp h₁
  dsimp only at hrest
  split at hrest
  · cases (Flow.returns_pure.mp hrest).1
  split at hrest
  · cases (Flow.returns_pure.mp hrest).1
  split at hrest
  · exact absurd hrest Flow.not_returns_hang
  · rename_i iop hiop
    obtain ⟨pos, s₂, hpos, -⟩ := Flow.returns_bind.mp hrest
    obtain ⟨hlt, rfl⟩ := otaGetVerifyDataPos_lt hpos
    exact ⟨iop, pos, hiop, hpos, hlt⟩

/-! ## The bytes that are hashed -/

theorem appendLoop_spec (hf : size ≤ fuel)
    (h : ret (appendLoop board flash fuel addr size hashed) c = some bytes) :
    bytes.length = hashed.length + size ∧
      (addr + size ≤ 2 ^ 32 → bytes = hashed ++ readCells c flash addr size) := by
  induction fuel generalizing addr size hashed with
  | zero =>
    obtain rfl : size = 0 := by omega
    cases h
    exact ⟨rfl, fun _ => (List.append_nil _).symm⟩
  | succ fuel ih =>
    rw [appendLoop] at h
    split at h
    · rename_i hzero
      subst hzero
      cases h
      exact ⟨rfl, fun _ => (List.append_nil _).symm⟩
    · rename_i hpos
      generalize hn : (if size > otaBufSize then otaBufSize else size) = n at h
      have hbuf : 0 < otaBufSize := by decide
      have hle : 0 < n ∧ n ≤ size := by
        split at hn <;> omega
      have hcells : post (halFlashRead board flash addr n) c = c := post_flashRead c
      rw [ret_bind, hcells] at h
      rcases ret_flashRead_cases board flash addr n c with hread | hread
      · rw [show ret (halFlashRead board flash addr n) c = _ from hread] at h
        cases h
      · rw [show ret (halFlashRead board flash addr n) c = _ from hread] at h
        obtain ⟨hlen, hbytes⟩ := ih (by omega) h
        rw [List.length_append, length_readCells] at hlen
        refine ⟨by omega, fun hend => ?_⟩
        have hsplit := readCells_append c flash addr n (size - n)
        rw [Nat.add_sub_cancel' hle.2] at hsplit
        rcases Nat.lt_or_ge n size with hmore | hlast
        · rw [u32_of_lt (by omega)] at hbytes
          rw [hbytes (by omega), hsplit, List.append_assoc]
        · obtain rfl : n = size := by omega
          rw [Nat.sub_self] at hbytes
          rw [hbytes (Nat.le_of_lt (Nat.mod_lt _ (by decide)))]
          exact List.append_nil _

theorem otaVerifyImageAppend_spec (hiop : s.iop = some iop)
    (h : Flow.Returns (otaVerifyImageAppend board seq) s c (some hashed) s') :
    s' = s ∧
      hashed.length = sub32 (sub32 s.getSize (uint32 s.skipSize)) verifyDataSize ∧
      (iop.addr seq + hashed.length ≤ 2 ^ 32 →
        hashed = readCells c (iop.flash seq) (iop.addr seq) hashed.length) := by
  obtain ⟨ota, s₁, h₁, hrest⟩ := Flow.returns_bind.mp h
  obtain ⟨rfl, rfl⟩ := Flow.returns_get.mp h₁
  rw [hiop] at hrest
  obtain ⟨hloop, rfl⟩ := Flow.returns_lift.mp hrest
  obtain ⟨hlen, hbytes⟩ := appendLoop_spec (Nat.le_refl _) hloop
  rw [List.length_nil, Nat.zero_add] at hlen
  rw [hlen]
  exact ⟨rfl, rfl, hbytes⟩

theorem otaVerifyImageBy_hashed {alg : Verify} {value : List Byte} (halg : alg ≠ .none)
    (h : Flow.Returns (otaVerifyImageBy board digest alg seq value) s c true s') :
    ∃ hashed s₁, Flow.Returns (otaVerifyImageAppend board seq) s c (some hashed) s₁ ∧
      value.take alg.length = digest alg hashed := by
  unfold otaVerifyImageBy at h
  split at h
  · exact absurd rfl halg
  · obtain ⟨r, s₁, happend, hrest⟩ := Flow.returns_bind.mp h
    cases r with
    | none => cases (Flow.returns_pure.mp hrest).1
    | some hashed =>
      exact ⟨hashed, s₁, happend, of_decide_eq_true (Flow.returns_pure.mp hrest).1⟩

theorem Verify.ofValue_none {verify : Nat} (h : Verify.ofValue verify = some .none) :
    verify = 0 := by
  unfold Verify.ofValue at h
  split at h
  · rfl
  all_goals cases h

/-- An image that verifies has been hashed, and the digest is the value. -/
theorem otaVerifyImage_hashed {verify : Nat} {value : List Byte} (hne : verify ≠ 0)
    (h : Flow.Returns (otaVerifyImage board digest verify (some value)) s c true s') :
    ∃ alg hashed, Verify.ofValue verify = some alg ∧
      Flow.Returns (otaVerifyImageAppend board (otaGetUpdateSeq s.iop)) s c (some hashed) s ∧
      value.take alg.length = digest alg hashed := by
  unfold otaVerifyImage at h
  rw [if_neg (fun hnull => nomatch hnull.2)] at h
  obtain ⟨ota, s₁, h₁, hrest⟩ := Flow.returns_bind.mp h
  obtain ⟨rfl, rfl⟩ := Flow.returns_get.mp h₁
  dsimp only at hrest
  split at hrest
  · cases (Flow.returns_pure.mp hrest).1
  split at hrest
  · cases (Flow.returns_pure.mp hrest).1
  split at hrest
  · cases (Flow.returns_pure.mp hrest).1
  rename_i alg halg
  obtain ⟨ok, s₂, hby, hcfg⟩ := Flow.returns_bind.mp hrest
  cases ok with
  | false => cases (Flow.returns_pure.mp hcfg).1
  | true =>
    obtain ⟨hashed, s₁, happend, hvalue⟩ := otaVerifyImageBy_hashed
      (fun hnone => hne (Verify.ofValue_none (by rw [halg, hnone]))) hby
    cases hiop : s.iop with
    | none =>
      obtain ⟨t, s₃, hget, hhang⟩ := Flow.returns_bind.mp happend
      obtain ⟨rfl, rfl⟩ := Flow.returns_get.mp hget
      rw [hiop] at hhang
      exact absurd hhang Flow.not_returns_hang
    | some iop =>
      obtain ⟨rfl, -⟩ := otaVerifyImageAppend_spec hiop happend
      rw [← hiop]
      exact ⟨alg, hashed, halg, happend, hvalue⟩

/-! ## What the digest is of -/

/-- The digest is of the bytes of the slot in front of the record: a change of one of them changes
what is hashed, and its size is the difference of the counters. -/
structure Covers (board : Board) (iop : OtaParam) (seq pos : Nat) (s : OtaState) (c : Cells)
    (hashed : List Byte) : Prop where
  range : iop.addr seq ≤ pos
  bytes : hashed = readCells c (iop.flash seq) (iop.addr seq) (pos - iop.addr seq)
  changes : ∀ c' hashed' a, Flow.Returns (otaVerifyImageAppend board seq) s c' (some hashed') s →
    iop.addr seq ≤ a → a < pos → c' (iop.flash seq) a ≠ c (iop.flash seq) a → hashed' ≠ hashed
  size : uint32 s.skipSize + verifyDataSize ≤ s.getSize

theorem readCells_ne {c' : Cells} {n a : Nat} (h1 : addr ≤ a) (h2 : a < addr + n)
    (hne : c' flash a ≠ c flash a) : readCells c' flash addr n ≠ readCells c flash addr n := by
  intro heq
  have hget := congrArg (·[a - addr]?) heq
  rw [readCells_getElem? _ _ _ _ _ (by omega), readCells_getElem? _ _ _ _ _ (by omega),
    Nat.add_sub_cancel' h1] at hget
  exact hne (Option.some.inj hget)

/-- With a record found and the image verified by its digest, what was hashed are the bytes in front
of the record just when the received stream ends with the record. -/
theorem digest_covers (hdata : Flow.Returns (otaGetVerifyData board fuel) s c (some data) s')
    (hne : data.ovType ≠ 0) {s'' : OtaState}
    (hverify : Flow.Returns (otaVerifyImage board digest data.ovType (some data.ovData)) s c true
      s'') :
    ∃ iop seq pos alg hashed, s.iop = some iop ∧ seq = otaGetUpdateSeq s.iop ∧
      Flow.Returns (otaGetVerifyDataPos board fuel seq) s c pos s ∧
      Verify.ofValue data.ovType = some alg ∧
      Flow.Returns (otaVerifyImageAppend board seq) s c (some hashed) s ∧
      data.ovData.take alg.length = digest alg hashed ∧
      (Covers board iop seq pos s c hashed ↔ iop.addr seq ≤ pos ∧
        s.getSize = uint32 s.skipSize + (pos - iop.addr seq) + verifyDataSize) := by
  obtain ⟨iop, pos, hiop, hpos, hlt⟩ := otaGetVerifyData_pos hdata
  obtain ⟨alg, hashed, halg, happend, hvalue⟩ := otaVerifyImage_hashed hne hverify
  obtain ⟨-, hlen, hbytes⟩ := otaVerifyImageAppend_spec hiop happend
  refine ⟨iop, _, pos, alg, hashed, hiop, rfl, hpos, halg, happend, hvalue, ?_⟩
  generalize otaGetUpdateSeq s.iop = seq at *
  constructor
  · rintro ⟨hle, hcells, -, hsize⟩
    have hn : hashed.length = pos - iop.addr seq := by rw [hcells, length_readCells]
    rw [hn, sub32_of_le (a := s.getSize) (by omega), sub32_of_le (by omega)] at hlen
    exact ⟨hle, by omega⟩
  · rintro ⟨hle, hsize⟩
    have hn : hashed.length = pos - iop.addr seq := by
      rw [hlen, sub32_of_le (a := s.getSize) (by omega), sub32_of_le (by omega)]
      omega
    rw [hn] at hbytes
    refine ⟨hle, hbytes (by omega), fun c' hashed' a hother h1 h2 hdiff => ?_, by omega⟩
    obtain ⟨-, hlen', hbytes'⟩ := otaVerifyImageAppend_spec hiop hother
    rw [← hlen, hn] at hlen'
    rw [hlen'] at hbytes'
    rw [hbytes' (by omega), hbytes (by omega)]
    exact readCells_ne h1 (by omega) hdiff

end

/-! ## The end of a push -/

section

variable {board : Board} {digest : Verify → List Byte → List Byte} {fuel : Nat}

theorem quiet_verifyDataPos (iop : OtaParam) (seq flash addr : Nat) :
    Quiet (verifyDataPos board iop seq fuel flash addr) := by
  induction fuel generalizing flash addr with
  | zero => exact quiet_pure _
  | succ fuel ih =>
    refine Quiet.bind (quiet_flashRead flash addr imageHeaderSize) fun r => ?_
    cases r with
    | none => exact quiet_pure _
    | some bytes => exact Quiet.ite (quiet_pure _) (Quiet.ite (quiet_pure _) (ih ..))

end

/-! ## A record with a checksum -/

def crc32Step (crc : Nat) : Nat := if crc % 2 = 1 then crc / 2 ^^^ 0xEDB88320 else crc / 2

def crc32 (bytes : List Byte) : Nat :=
  bytes.foldl (fun crc b => crc32Step^[8] (crc ^^^ b.toNat)) 0xFFFFFFFF ^^^ 0xFFFFFFFF

/-- The checksum; the other digests are not needed here. -/
def crcDigest : Verify → List Byte → List Byte
  | .crc32, bytes => leBytes 4 (crc32 bytes)
  | _, _ => []

/-- A bootloader, an application without data behind it, and its record. -/
def recordCells (crc : Nat) : Cells := fun _ a =>
  if a < 64 then
    (leBytes 4 imageMagicNumber ++ leBytes 4 0 ++ leBytes 2 0x2079 ++ leBytes 2 0xFFFF ++
      leBytes 20 0 ++ leBytes 4 0x4000 ++ leBytes 4 imageBootId ++ leBytes 20 0 ++
      leBytes 4 imageInvalidAddr).getD a blank
  else if a < 0x4040 then
    (leBytes 4 imageMagicNumber ++ leBytes 4 0 ++ leBytes 2 0x6079 ++ leBytes 2 0xFFFF ++
      leBytes 20 0 ++ leBytes 4 imageInvalidAddr ++ leBytes 4 0xA5FE5A01 ++ leBytes 24 0).getD
        (a - 0x4000) blank
  else
    (leBytes 4 otaVerifyMagic ++ leBytes 2 32 ++ leBytes 2 0 ++ leBytes 2 1 ++ leBytes 2 0 ++
      leBytes 4 crc ++ leBytes 28 0).getD (a - 0x4040) blank

/-- `getSize` bytes have been received. -/
def recordState (getSize : Nat) : OtaState := ⟨some smallParam, getSize, 0⟩

def recordData (crc : Nat) : VerifyData :=
  ⟨otaVerifyMagic, 32, 0, 1, 0, leBytes 4 crc ++ leBytes 28 0⟩

theorem digest_covers_small : ∃ iop hashed,
    Covers smallBoard iop 0 0x4040 (recordState 108) (recordCells 0x55C2C0E3) hashed := by
  obtain ⟨s', hdata⟩ := Flow.returns_of_fst (m := otaGetVerifyData smallBoard 3)
    (s := recordState 108) (c := recordCells 0x55C2C0E3) (a := some (recordData 0x55C2C0E3))
    (by decide +kernel)
  obtain ⟨s'', hverify⟩ := Flow.returns_of_fst
    (m := otaVerifyImage smallBoard crcDigest 1 (some (recordData 0x55C2C0E3).ovData))
    (s := recordState 108) (c := recordCells 0x55C2C0E3) (a := true) (by decide +kernel)
  obtain ⟨iop, seq, pos, alg, hashed, hiop, rfl, hpos, -, -, -, hiff⟩ :=
    digest_covers hdata (by decide) hverify
  obtain ⟨s₁, hpos'⟩ := Flow.returns_of_fst
    (m := otaGetVerifyDataPos smallBoard 3 (otaGetUpdateSeq (recordState 108).iop))
    (s := recordState 108) (c := recordCells 0x55C2C0E3) (a := 0x4040) (by decide)
  cases hpos.symm.trans hpos'
  cases hiop
  have hseq : otaGetUpdateSeq (recordState 108).iop = 0 := by decide
  rw [hseq] at hiff
  exact ⟨_, hashed, hiff.mpr ⟨by decide, by decide⟩⟩

/-- The stream goes on for 12 bytes behind the record: the head of the record is hashed too, and
the digest in it can be the right one for that. -/
theorem head_of_record_hashed :
    (∃ s', Flow.Returns (otaGetVerifyData smallBoard 3) (recordState 120) (recordCells 0x9AC43A34)
      (some (recordData 0x9AC43A34)) s') ∧
    (∃ s', Flow.Returns (otaGetVerifyDataPos smallBoard 3 0) (recordState 120)
      (recordCells 0x9AC43A34) 0x4040 s') ∧
    (∃ s', Flow.Returns
      (otaVerifyImage smallBoard crcDigest 1 (some (recordData 0x9AC43A34).ovData))
      (recordState 120) (recordCells 0x9AC43A34) true s') ∧
    ∃ s', Flow.Returns (otaVerifyImageAppend smallBoard 0) (recordState 120)
      (recordCells 0x9AC43A34)
      (some (readCells (recordCells 0x9AC43A34) 0 0x4000 (0x4040 - 0x4000 + 12))) s' :=
  ⟨Flow.returns_of_fst (by decide +kernel), Flow.returns_of_fst (by decide +kernel),
    Flow.returns_of_fst (by decide +kernel), Flow.returns_of_fst (by decide +kernel)⟩

end Ota
end XR806

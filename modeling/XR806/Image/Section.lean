import XR806.Image.Fdcm

/-!
# XR806.Image.Section

Images in flash (`image.c`). An image is a chain of sections: the bootloader's header, which both
images share, and behind it the sections of slot 0 or slot 1, each header naming the offset of the
next one. A section is valid when its header has the magic number and sums to `0xFFFF`, and its
data does too.

* `SectionHeader.decode`: the 64 bytes of `section_header_t`;
* `imageCheckSection`: one section, read through a buffer of 1024 bytes;
* `imageCheckSections`: the chain of a slot. A chain may be cyclic, so the walk takes the number of
  sections it may look at; `Passes` says that some number is enough and every section is valid.
-/

namespace XR806
namespace Image

open Nor Flash

def imageSeqNum : Nat := 2
def imageInvalidAddr : Nat := 0xFFFFFFFF
def imageInvalidSize : Nat := 0xFFFF
def imageHeaderSize : Nat := 64
def imageCheckSize : Nat := 1024
def imageMagicNumber : Nat := 0x48495741
def imageBootId : Nat := 0xA5FF5A00

/-- `IMAGE_AREA_SIZE`; the size is in KB. -/
def imageAreaSize (size : Nat) : Nat := size * 1024

inductive ImageVal where
  | invalid
  | valid
  deriving DecidableEq

inductive CheckType where
  | normal
  | ota
  deriving DecidableEq

/-- `section_header_t`. -/
structure SectionHeader where
  magicNumber : Nat
  version : Nat
  headerChksum : Nat
  dataChksum : Nat
  dataSize : Nat
  loadAddr : Nat
  entry : Nat
  bodyLen : Nat
  attr : Nat
  nextAddr : Nat
  id : Nat
  priv : List Nat

/-- The little-endian field of `len` bytes at offset `off`. -/
def field (bytes : List Byte) (off len : Nat) : Nat := leNat ((bytes.drop off).take len)

theorem field_lt (bytes : List Byte) (off len : Nat) : field bytes off len < 256 ^ len := by
  have hlen : ((bytes.drop off).take len).length ≤ len := List.length_take_le ..
  exact Nat.lt_of_lt_of_le (leNat_lt _) (Nat.pow_le_pow_right (by decide) hlen)

namespace SectionHeader

def decode (bytes : List Byte) : SectionHeader where
  magicNumber := field bytes 0 4
  version := field bytes 4 4
  headerChksum := field bytes 8 2
  dataChksum := field bytes 10 2
  dataSize := field bytes 12 4
  loadAddr := field bytes 16 4
  entry := field bytes 20 4
  bodyLen := field bytes 24 4
  attr := field bytes 28 4
  nextAddr := field bytes 32 4
  id := field bytes 36 4
  priv := (List.range 6).map fun i => field bytes (40 + 4 * i) 4

/-- `priv[i]`. -/
def privAt (sh : SectionHeader) (i : Nat) : Nat := sh.priv.getD i 0

/-- `attribute & flag`. -/
def hasFlag (sh : SectionHeader) (flag : Nat) : Bool := sh.attr &&& flag ≠ 0

end SectionHeader

def imageAttrFlagSign : Nat := 1 <<< 2
def imageAttrFlagEnc : Nat := 1 <<< 3
def imageAttrFlagCompress : Nat := 1 <<< 4
def imageAttrFlagSecBin : Nat := 1 <<< 5

/-- `image_ota_param_t`. The arrays are indexed by `image_seq_t`. -/
structure OtaParam where
  otaFlash : Nat
  otaSize : Nat
  otaAddr : Nat
  imgMaxSize : Nat
  imgXzMaxSize : Nat
  blSize : Nat
  runningSeq : Nat
  flash : Nat → Nat
  addr : Nat → Nat

namespace OtaParam

/-- `IMG_BL_FLASH`. -/
def blFlash (iop : OtaParam) : Nat := iop.flash 0

/-- `IMG_BL_ADDR`. -/
def blAddr (iop : OtaParam) : Nat := sub32 (iop.addr 0) iop.blSize

/-- `IMG_SEC_ADDR`. -/
def secAddr (iop : OtaParam) (seq off : Nat) : Nat := sub32 (u32 (iop.addr seq + off)) iop.blSize

end OtaParam

/-! ## Checksums -/

/-- `image_checksum16`, from the sum `chksum` on: words of 4 bytes, a rest of 2, a rest of 1. -/
def imageChecksum16 (chksum : Nat) : List Byte → Nat
  | b0 :: b1 :: b2 :: b3 :: rest =>
    imageChecksum16 ((chksum + leNat [b0, b1] + leNat [b2, b3]) % 2 ^ 16) rest
  | [b0, b1, b2] => (chksum + leNat [b0, b1] + leNat [b2]) % 2 ^ 16
  | [b0, b1] => (chksum + leNat [b0, b1]) % 2 ^ 16
  | [b0] => (chksum + leNat [b0]) % 2 ^ 16
  | [] => chksum

/-- `image_check_header` on the bytes of a header. -/
def imageCheckHeader (bytes : List Byte) : ImageVal :=
  if (SectionHeader.decode bytes).magicNumber ≠ imageMagicNumber then .invalid
  else if imageChecksum16 0 bytes ≠ 0xFFFF then .invalid
  else .valid

/-- `image_check_data`. -/
def imageCheckData (sh : SectionHeader) (body tailer : List Byte) : ImageVal :=
  if body.length = 0 then .invalid
  else
    let chksum :=
      if tailer.length = 0 then imageChecksum16 sh.dataChksum body
      else if body.length % 2 = 0 then
        (imageChecksum16 sh.dataChksum body + imageChecksum16 0 tailer) % 2 ^ 16
      else
        let joint := [body.getD (body.length - 1) 0, tailer.getD 0 0]
        (imageChecksum16 sh.dataChksum (body.take (body.length - 1)) + imageChecksum16 0 joint +
          imageChecksum16 0 (tailer.drop 1)) % 2 ^ 16
    if chksum ≠ 0xFFFF then .invalid else .valid

/-- The offset `_image_check_section` hands on. -/
def nextOffset (sh : SectionHeader) : CheckType → Nat
  | .normal => sh.nextAddr
  | .ota =>
    if sh.id = imageBootId ∨ sh.hasFlag imageAttrFlagSecBin then
      if sh.privAt 5 = imageInvalidAddr then sh.nextAddr else sh.privAt 5
    else sh.nextAddr

section

variable (board : Board)

/-! ## Sections -/

/-- The loop over the data of a section; `none` is a read that fails. -/
def sumData (flash bufLen : Nat) : Nat → Nat → Nat → Nat → Prog (Option Nat)
  | 0, _, _, chksum => pure (some chksum)
  | fuel + 1, addr, dataSize, chksum =>
    if dataSize = 0 then pure (some chksum)
    else do
      let len := if dataSize ≥ bufLen then bufLen else dataSize
      match ← flashRead board flash addr len with
      | none => pure none
      | some buf =>
        sumData flash bufLen fuel (u32 (addr + len)) (dataSize - len) (imageChecksum16 chksum buf)

/-- `_image_check_section`: `none` is `IMAGE_INVALID`, otherwise the offset of the next section. -/
def imageCheckSection (flash addr bufLen : Nat) (checkT : CheckType) : Prog (Option Nat) := do
  match ← flashRead board flash addr imageHeaderSize with
  | none => pure none
  | some bytes =>
    if imageCheckHeader bytes = .invalid then pure none
    else do
      let sh := SectionHeader.decode bytes
      match ← sumData board flash bufLen sh.dataSize (u32 (addr + imageHeaderSize)) sh.dataSize
        sh.dataChksum with
      | none => pure none
      | some chksum => pure (if chksum ≠ 0xFFFF then none else some (nextOffset sh checkT))

/-- The loop `while (1)` of `_image_check_sections`; `none` is a walk not finished after `fuel`
sections. -/
def checkChain (iop : OtaParam) (seq : Nat) (checkT : CheckType) :
    Nat → Nat → Nat → Prog (Option ImageVal)
  | 0, _, _ => pure none
  | fuel + 1, flash, addr => do
    match ← imageCheckSection board flash addr imageCheckSize checkT with
    | none => pure (some .invalid)
    | some nextAddr =>
      if nextAddr = imageInvalidAddr then pure (some .valid)
      else checkChain iop seq checkT fuel (iop.flash seq) (iop.secAddr seq nextAddr)

/-- `_image_check_sections`; `image_check_sections` and `image_check_ota_sections` are its two
check types. -/
def imageCheckSections (iop : OtaParam) (fuel seq : Nat) (checkT : CheckType) :
    Prog (Option ImageVal) := do
  let ok ← allocReq imageCheckSize
  if !ok then pure (some .invalid)
  else checkChain board iop seq checkT fuel iop.blFlash iop.blAddr

/-- Every section of the chain of slot `seq` is valid. -/
def Passes (iop : OtaParam) (checkT : CheckType) (seq : Nat) (c : Cells) : Prop :=
  ∃ fuel, ret (imageCheckSections board iop fuel seq checkT) c = some .valid

end

/-! ## What a check does -/

section

variable {board : Board} {iop : OtaParam} {checkT : CheckType} {seq fuel : Nat} {c c' : Cells}

theorem quiet_sumData (flash bufLen addr dataSize chksum : Nat) :
    Quiet (sumData board flash bufLen fuel addr dataSize chksum) := by
  induction fuel generalizing addr dataSize chksum with
  | zero => exact quiet_pure _
  | succ fuel ih =>
    refine Quiet.ite (quiet_pure _) ((quiet_flashRead _ _ _).bind fun r => ?_)
    cases r with
    | none => exact quiet_pure _
    | some buf => exact ih ..

theorem quiet_imageCheckSection (flash addr bufLen : Nat) :
    Quiet (imageCheckSection board flash addr bufLen checkT) := by
  refine (quiet_flashRead _ _ _).bind fun r => ?_
  cases r with
  | none => exact quiet_pure _
  | some bytes =>
    refine Quiet.ite (quiet_pure _) ((quiet_sumData _ _ _ _ _).bind fun r => ?_)
    cases r with
    | none => exact quiet_pure _
    | some chksum => exact quiet_pure _

theorem quiet_checkChain (flash addr : Nat) :
    Quiet (checkChain board iop seq checkT fuel flash addr) := by
  induction fuel generalizing flash addr with
  | zero => exact quiet_pure _
  | succ fuel ih =>
    refine (quiet_imageCheckSection _ _ _).bind fun r => ?_
    cases r with
    | none => exact quiet_pure _
    | some nextAddr => exact Quiet.ite (quiet_pure _) (ih ..)

theorem quiet_imageCheckSections :
    Quiet (imageCheckSections board iop fuel seq checkT) :=
  (quiet_allocReq _).bind fun _ => Quiet.ite (quiet_pure _) (quiet_checkChain _ _)

/-- A walk that has finished looks at nothing more. -/
theorem checkChain_mono {flash addr fuel' : Nat} {v : ImageVal} (hf : fuel ≤ fuel')
    (h : ret (checkChain board iop seq checkT fuel flash addr) c = some v) :
    ret (checkChain board iop seq checkT fuel' flash addr) c = some v ∧
      reads (checkChain board iop seq checkT fuel' flash addr) c =
        reads (checkChain board iop seq checkT fuel flash addr) c := by
  induction fuel generalizing flash addr fuel' with
  | zero => cases h
  | succ fuel ih =>
    obtain ⟨fuel', rfl⟩ : ∃ k, fuel' = k + 1 := ⟨fuel' - 1, by omega⟩
    have hq : Quiet (imageCheckSection board flash addr imageCheckSize checkT) :=
      quiet_imageCheckSection ..
    simp only [checkChain, ret_bind, reads_bind, hq.post] at h ⊢
    cases hr : ret (imageCheckSection board flash addr imageCheckSize checkT) c with
    | none =>
      rw [hr] at h
      exact ⟨h, rfl⟩
    | some nextAddr =>
      rw [hr] at h
      dsimp only at h ⊢
      split at h
      · rename_i hend
        rw [if_pos hend]
        exact ⟨h, by rw [if_pos hend]⟩
      · rename_i hend
        rw [if_neg hend, if_neg hend]
        obtain ⟨h1, h2⟩ := ih (Nat.le_of_succ_le_succ hf) h
        exact ⟨h1, by rw [h2]⟩

/-- A longer walk starts with the reads of the shorter one. -/
theorem checkChain_reads {flash addr fuel' : Nat} (hf : fuel ≤ fuel') :
    reads (checkChain board iop seq checkT fuel flash addr) c <+:
      reads (checkChain board iop seq checkT fuel' flash addr) c := by
  induction fuel generalizing flash addr fuel' with
  | zero => exact List.nil_prefix
  | succ fuel ih =>
    obtain ⟨fuel', rfl⟩ : ∃ k, fuel' = k + 1 := ⟨fuel' - 1, by omega⟩
    have hq : Quiet (imageCheckSection board flash addr imageCheckSize checkT) :=
      quiet_imageCheckSection ..
    simp only [checkChain, reads_bind, hq.post]
    refine (List.prefix_append_right_inj _).mpr ?_
    cases ret (imageCheckSection board flash addr imageCheckSize checkT) c with
    | none => exact List.prefix_rfl
    | some nextAddr =>
      dsimp only
      split
      · exact List.prefix_rfl
      · exact ih (Nat.le_of_succ_le_succ hf)

variable (board iop checkT seq c) in
/-- The check of slot `seq` reads the cell `a` of device `d`. -/
def Footprint (d a : Nat) : Prop :=
  ∃ fuel, Sees (imageCheckSections board iop fuel seq checkT) c d a

theorem imageCheckSections_eq : reads (imageCheckSections board iop fuel seq checkT) c =
    reads (checkChain board iop seq checkT fuel iop.blFlash iop.blAddr) c ∧
    ret (imageCheckSections board iop fuel seq checkT) c =
      ret (checkChain board iop seq checkT fuel iop.blFlash iop.blAddr) c := ⟨rfl, rfl⟩

/-- The footprint of a walk that has finished. -/
theorem footprint_iff {v : ImageVal} {d a : Nat}
    (h : ret (imageCheckSections board iop fuel seq checkT) c = some v) :
    Footprint board iop checkT seq c d a ↔
      Sees (imageCheckSections board iop fuel seq checkT) c d a := by
  refine ⟨fun ⟨fuel', r, hr, hin⟩ => ⟨r, ?_, hin⟩, fun hs => ⟨fuel, hs⟩⟩
  rw [imageCheckSections_eq.1] at hr ⊢
  rcases Nat.le_total fuel' fuel with hle | hle
  · exact (checkChain_reads hle).subset hr
  · rwa [(checkChain_mono hle h).2] at hr

/-- Whether a slot passes depends on its footprint only. -/
theorem Passes.congr (h : Passes board iop checkT seq c)
    (hc : ∀ d a, Footprint board iop checkT seq c d a → c' d a = c d a) :
    Passes board iop checkT seq c' ∧
      ∀ d a, Footprint board iop checkT seq c' d a ↔ Footprint board iop checkT seq c d a := by
  obtain ⟨fuel, hv⟩ := h
  have hq : Silent (imageCheckSections board iop fuel seq checkT) c :=
    quiet_imageCheckSections.silent c
  obtain ⟨h1, h2⟩ := ret_congr hq fun d a hs => hc d a ⟨fuel, hs⟩
  have hv' : ret (imageCheckSections board iop fuel seq checkT) c' = some .valid := h1.trans hv
  refine ⟨⟨fuel, hv'⟩, fun d a => ?_⟩
  rw [footprint_iff hv, footprint_iff hv', Sees, Sees, h2]

end

end Image
end XR806

import XR806.Boot.Uncompress
import XR806.Nor.Answer

/-!
# XR806.Boot.Load

How the bootloader loads the application (`main.c`): `bl_load_bin` tries the selected slot, then
the other one, and stores a sequence that is not the configured one. With secure boot a section is
only loaded when its signature is right. The state of a boot is the image module's and, for
reasoning only, the list of signature checks that have passed (`BootState.passed`).

Up to the configuration a boot only reads (`quiet_blLoadAppBin`). SHA-256 and the curve are
parameters; what is loaded is checked as it is read, the RAM it goes to
is not modelled.
-/

namespace XR806
namespace Boot

open Nor Flash Image

def imageAppId : Nat := 0xA5FE5A01
def imageAppXipId : Nat := 0xA5FD5A02
def imageAppPsramId : Nat := 0xA5F65A09
def eccSignSize : Nat := 0x40
def eccPkeySize : Nat := 0x40
/-- `sizeof(TCSha256State_v)`. -/
def tcSha256StateSize : Nat := 112
def blInvalidAppEntry : Nat := 0xFFFFFFFF
def blDecBinInbufSize : Nat := 4 * 1024
def blDecBinDictMax : Nat := 32 * 1024

structure BootState where
  img : ImagePriv
  /-- Sequence and section of every signature check that has passed. -/
  passed : List (Nat × Nat)

abbrev Bl (α : Type) : Type := Flow BootState α

namespace Bl

/-- A program of the image module. -/
def image {α : Type} (m : Img α) : Bl α :=
  Flow.zoom BootState.img (fun s img => { s with img }) m

/-- The check of section `id` in the running image has passed. -/
def pass (id : Nat) : Bl Unit :=
  Flow.modify fun s => { s with passed := s.passed ++ [(s.img.iop.runningSeq, id)] }

end Bl

/-- The return values of `bl_load_bin_by_id`, and of the verifying functions. -/
inductive LoadBin where
  | ok
  | noSec
  | invalid
  | tooBig
  deriving DecidableEq

section

variable (bl : BlConfig)

/-! ## Signatures -/

/-- The loop of `bl_sha256_burst` over flash: the bytes that are hashed. -/
def hashBurst : Nat → Nat → Nat → List Byte → Prog (Option (List Byte))
  | 0, _, _, bytes => pure (some bytes)
  | fuel + 1, readAddr, remainLen, bytes =>
    if remainLen = 0 then pure (some bytes)
    else do
      let calcLen := if remainLen > 0x1000 then 0x1000 else remainLen
      match ← flashRead bl.board bl.imgFlash readAddr calcLen with
      | none => pure none
      | some buf => hashBurst fuel (u32 (readAddr + calcLen)) (remainLen - calcLen) (bytes ++ buf)

/-- `bl_sha256_burst` over flash. The remaining length is signed: from 2^31 on nothing is
hashed. -/
def blSha256Burst (faddr len : Nat) : Prog (Option (List Byte)) := do
  let ok ← allocReq 0x1000
  if !ok then pure none
  else do
    let ok ← allocReq tcSha256StateSize
    if !ok then pure none
    else do
      let remainLen := if len < 2 ^ 31 then len else 0
      match ← hashBurst bl remainLen faddr remainLen [] with
      | none => pure none
      | some bytes => pure (some (bl.sha256 bytes))

def blVerifySignature (fuel : Nat) (input signature : List Byte) : Bl LoadBin := do
  match ← Bl.image (imageRead bl.board fuel imageBootId .tailer 0 eccPkeySize) with
  | none => pure .noSec
  | some pkey =>
    if bl.uEccVerify pkey (bl.sha256 input) signature then pure .ok else pure .invalid

/-- `bl_verify_bin_by_id`. A section that is not there verifies. -/
def blVerifyBinById (fuel id : Nat) : Bl LoadBin := do
  let flashAddr ← Bl.image (imageGetSectionAddr bl.board fuel id)
  if flashAddr = imageInvalidAddr then pure .ok
  else do
    match ← Bl.image (imageRead bl.board fuel id .header 0 imageHeaderSize) with
    | none => pure .invalid
    | some bytes =>
      let sh := SectionHeader.decode bytes
      if !sh.hasFlag imageAttrFlagSign then pure .invalid
      else do
        match ← Flow.lift (blSha256Burst bl (u32 (flashAddr + imageHeaderSize)) sh.bodyLen) with
        | none => pure .invalid
        | some digest => do
          match ← Bl.image (imageRead bl.board fuel imageBootId .tailer 0 eccPkeySize) with
          | none => pure .noSec
          | some pkey => do
            match ← Bl.image (imageRead bl.board fuel id .tailer 0 eccSignSize) with
            | none => pure .noSec
            | some sign =>
              if bl.uEccVerify pkey digest sign then do
                Bl.pass id
                pure .ok
              else pure .invalid

/-! ## Loading a section -/

/-- The input of `bl_decompress_bin` when its buffer is used up, with what is left behind it and
the checksum so far; `none` is the end of the input or a read that fails. -/
def refillBin (fuel id : Nat) (input : List Byte) (left offset chksum : Nat) :
    Bl (Option (List Byte × Nat × Nat × Nat)) :=
  if input ≠ [] then pure (some (input, left, offset, chksum))
  else if left = 0 then pure none
  else do
    let readSize := if left > blDecBinInbufSize then blDecBinInbufSize else left
    match ← Bl.image (imageRead bl.board fuel id .body offset readSize) with
    | none => pure none
    | some bytes =>
      pure (some (bytes, left - readSize, u32 (offset + readSize), imageChecksum16 chksum bytes))

/-- The loop of `bl_decompress_bin`; `true` is the return value 0. -/
def decompressBin (fuel id maxSize : Nat) :
    Nat → bl.xz.State → List Byte → Nat → Nat → Nat → Nat → Bl Bool
  | 0, _, _, _, _, _, _ => Flow.hang
  | loopFuel + 1, s, input, left, offset, chksum, outPos => do
    match ← refillBin bl fuel id input left offset chksum with
    | none => pure false
    | some (input, left, offset, chksum) =>
      match bl.xz.run s input (maxSize - outPos) with
      | (s, taken, output, xzret) =>
        if outPos + output.length = maxSize then pure false
        else
          match xzret with
          | .ok =>
            decompressBin fuel id maxSize loopFuel s (input.drop taken) left offset chksum
              (outPos + output.length)
          | .streamEnd => pure (chksum = 0xFFFF)
          | .error => pure false

/-- `bl_decompress_bin`. -/
def blDecompressBin (fuel : Nat) (sh : SectionHeader) (maxSize : Nat) : Bl Bool := do
  let ok ← Flow.lift (allocReq blDecBinInbufSize)
  if !ok then pure false
  else
    match bl.xz.init blDecBinDictMax with
    | none => pure false
    | some s => decompressBin bl fuel sh.id maxSize fuel s [] sh.bodyLen 0 sh.dataChksum 0

/-- The part of `bl_load_bin_by_id` for a section that is not compressed. -/
def blLoadPlain (fuel id : Nat) (sh : SectionHeader) : Bl LoadBin :=
  if sh.bodyLen = 0 then pure .noSec
  else if u32 (sh.loadAddr + sh.dataSize) > bl.ramBase then pure .tooBig
  else do
    match ← Bl.image (imageRead bl.board fuel id .body 0 sh.bodyLen) with
    | none => pure .invalid
    | some body =>
      if bl.secureBoot then do
        match ← Bl.image (imageRead bl.board fuel id .tailer 0 eccSignSize) with
        | none => pure .invalid
        | some sign =>
          if imageCheckData sh body sign = .invalid then pure .invalid
          else if sh.hasFlag imageAttrFlagSign then do
            let ret ← blVerifySignature bl fuel body sign
            if ret ≠ .ok then pure .invalid
            else do
              Bl.pass id
              pure .ok
          else pure .invalid
      else if imageCheckData sh body [] = .invalid then pure .invalid
      else pure .ok

/-- The part of `bl_load_bin_by_id` for a compressed section; `true` is a section that is loaded. -/
def blLoadCompressed (fuel id : Nat) (sh : SectionHeader) : Bl Bool := do
  let ret ← (if bl.secureBoot then blVerifyBinById bl fuel id else pure .ok : Bl LoadBin)
  if ret ≠ .ok then pure false
  else blDecompressBin bl fuel sh (sub32 bl.ramBase sh.loadAddr)

/-- `bl_load_bin_by_id` with the limit `__RAM_BASE`; on success, the section's entry. -/
def blLoadBinById (fuel id : Nat) : Bl (LoadBin × Nat) := do
  match ← Bl.image (imageRead bl.board fuel id .header 0 imageHeaderSize) with
  | none => pure (.noSec, 0)
  | some bytes =>
    if imageCheckHeader bytes = .invalid then pure (.invalid, 0)
    else do
      let sh := SectionHeader.decode bytes
      if bl.binCompress ∧ sh.hasFlag imageAttrFlagCompress then do
        let ok ← blLoadCompressed bl fuel id sh
        pure (if ok then .ok else .invalid, sh.entry)
      else do
        let ret ← blLoadPlain bl fuel id sh
        pure (ret, sh.entry)

def blLoadAppBin (fuel : Nat) : Bl Nat := do
  let (ret, entry) ← blLoadBinById bl fuel imageAppId
  pure (if ret ≠ .ok then blInvalidAppEntry else entry)

/-- The loop of `bl_load_bin`. -/
def loadBinLoop (fuel cfgSeq : Nat) : Nat → Nat → Bl Nat
  | 0, _ => pure blInvalidAppEntry
  | tries + 1, loadSeq => do
    Bl.image (imageSetRunningSeq loadSeq)
    let entry ← blLoadAppBin bl fuel
    if entry ≠ blInvalidAppEntry then
      if loadSeq ≠ cfgSeq then do
        let s ← Flow.get
        -- a failed write is only logged
        let _ ← Flow.lift (imageSetCfg bl.board s.img.iop ⟨loadSeq, .verified⟩)
        pure entry
      else pure entry
    else loadBinLoop fuel cfgSeq tries ((loadSeq + 1) % imageSeqNum)

def blLoadBin (fuel cfgSeq loadSeq : Nat) : Bl Nat := loadBinLoop bl fuel cfgSeq imageSeqNum loadSeq

/-! ## `main` -/

/-- How one pass of `main` behind `try_again` ends. -/
inductive BootRet where
  | runApp (entry : Nat)
  /-- No application in this flash, and what the two variables are left at. -/
  | noApp (cSeq lSeq : Nat)
  | upgrade
  deriving DecidableEq

/-- One of the two sections `main` verifies before it loads the application. -/
def verifyApp (fuel : Nat) (enabled : Bool) (id : Nat) : Bl Bool :=
  if bl.secureBoot ∧ enabled then do
    let ret ← blVerifyBinById bl fuel id
    pure (ret = .ok)
  else pure true

/-- One pass of `main`, from `try_again` on; `cSeq` and `lSeq` are the values of its two
variables. -/
def bootOnce (fuel cSeq lSeq : Nat) : Bl BootRet := do
  match ← Bl.image (blUncompressImage bl fuel cSeq lSeq) with
  | .invalidAppUnzip => pure .upgrade
  | .invalidAppEntry => pure (.noApp cSeq lSeq)
  | .ok cfgSeq loadSeq => do
    let ok ← verifyApp bl fuel bl.appXipBinVerify imageAppXipId
    if !ok then pure .upgrade
    else do
      let ok ← verifyApp bl fuel bl.appPsramBinVerify imageAppPsramId
      if !ok then pure .upgrade
      else do
        let entry ← blLoadBin bl fuel cfgSeq loadSeq
        if entry = blInvalidAppEntry then pure (.noApp cfgSeq loadSeq)
        else pure (.runApp (entry ||| 1))

/-- What a pass of `main` starts from: the two variables, the state of the image module and the
flash. -/
structure Pass where
  cSeq : Nat
  lSeq : Nat
  img : ImagePriv
  flash : Devices

/-- The passes of `main` on the flash `sip`, whatever requests are refused. Where the flash is the
one in the package, a pass that finds no application is followed by one on the external flash,
`ext`. -/
inductive IsPass (fuel : Nat) (img : ImagePriv) (isFlashSip : Bool) (sip ext : Devices) :
    Pass → Prop
  | first : IsPass fuel img isFlashSip sip ext ⟨0, 0, img, sip⟩
  | second (cSeq lSeq : Nat) (es : List Event) (s : BootState) (d : Devices) (hsip : isFlashSip)
    (hno : (bootOnce bl fuel 0 0).Answers ⟨img, []⟩ sip es (.noApp cSeq lSeq) s d) :
    IsPass fuel img isFlashSip sip ext ⟨cSeq, lSeq, s.img, ext⟩

end

/-! ## Nothing is written before the configuration -/

section

variable {bl : BlConfig} {fuel : Nat}

theorem quiet_pass (id : Nat) : Flow.Quiet (Bl.pass id) := Flow.quiet_modify _

theorem quiet_image_read (id : Nat) (seg : ImageSeg) (offset size : Nat) :
    Flow.Quiet (Bl.image (imageRead bl.board fuel id seg offset size)) := (quiet_imageRead ..).zoom

theorem quiet_image_lookup (id : Nat) :
    Flow.Quiet (Bl.image (imageGetSectionAddr bl.board fuel id)) :=
  (quiet_imageGetSectionAddr ..).zoom

theorem quiet_hashBurst (readAddr remainLen : Nat) (bytes : List Byte) :
    Quiet (hashBurst bl fuel readAddr remainLen bytes) := by
  induction fuel generalizing readAddr remainLen bytes with
  | zero => exact quiet_pure _
  | succ fuel ih =>
    refine (quiet_pure _).ite ((quiet_flashRead ..).bind ?_)
    intro r
    cases r with
    | none => exact quiet_pure _
    | some buf => exact ih ..

theorem quiet_blSha256Burst (faddr len : Nat) : Quiet (blSha256Burst bl faddr len) := by
  refine (quiet_allocReq _).bind ?_
  intro ok
  refine (quiet_pure _).ite ((quiet_allocReq _).bind ?_)
  intro ok
  refine (quiet_pure _).ite ((quiet_hashBurst ..).bind ?_)
  intro r
  cases r with
  | none => exact quiet_pure _
  | some bytes => exact quiet_pure _

theorem quiet_blVerifySignature (input signature : List Byte) :
    Flow.Quiet (blVerifySignature bl fuel input signature) := by
  refine (quiet_image_read ..).bind ?_
  intro r
  cases r with
  | none => exact Flow.quiet_pure _
  | some pkey => exact (Flow.quiet_pure _).ite (Flow.quiet_pure _)

theorem quiet_blVerifyBinById (id : Nat) : Flow.Quiet (blVerifyBinById bl fuel id) := by
  refine (quiet_image_lookup _).bind ?_
  intro flashAddr
  refine (Flow.quiet_pure _).ite ((quiet_image_read ..).bind ?_)
  intro r
  cases r with
  | none => exact Flow.quiet_pure _
  | some bytes =>
    refine (Flow.quiet_pure _).ite ((Flow.quiet_lift (quiet_blSha256Burst ..)).bind ?_)
    intro r
    cases r with
    | none => exact Flow.quiet_pure _
    | some digest =>
      refine (quiet_image_read ..).bind ?_
      intro r
      cases r with
      | none => exact Flow.quiet_pure _
      | some pkey =>
        refine (quiet_image_read ..).bind ?_
        intro r
        cases r with
        | none => exact Flow.quiet_pure _
        | some sign =>
          refine Flow.Quiet.ite ((quiet_pass _).bind ?_) (Flow.quiet_pure _)
          intro _
          exact Flow.quiet_pure _

theorem quiet_refillBin (id : Nat) (input : List Byte) (left offset chksum : Nat) :
    Flow.Quiet (refillBin bl fuel id input left offset chksum) := by
  refine (Flow.quiet_pure _).ite ((Flow.quiet_pure _).ite ((quiet_image_read ..).bind ?_))
  intro r
  cases r with
  | none => exact Flow.quiet_pure _
  | some bytes => exact Flow.quiet_pure _

theorem quiet_decompressBin (id maxSize loopFuel : Nat) (s : bl.xz.State) (input : List Byte)
    (left offset chksum outPos : Nat) :
    Flow.Quiet (decompressBin bl fuel id maxSize loopFuel s input left offset chksum outPos) := by
  induction loopFuel generalizing s input left offset chksum outPos with
  | zero => exact Flow.quiet_hang
  | succ loopFuel ih =>
    refine (quiet_refillBin ..).bind ?_
    intro refill
    rcases refill with _ | ⟨input, left, offset, chksum⟩
    · exact Flow.quiet_pure _
    · dsimp only
      refine (Flow.quiet_pure _).ite ?_
      cases (bl.xz.run s input (maxSize - outPos)).2.2.2 with
      | ok => exact ih ..
      | streamEnd => exact Flow.quiet_pure _
      | error => exact Flow.quiet_pure _

theorem quiet_blDecompressBin (sh : SectionHeader) (maxSize : Nat) :
    Flow.Quiet (blDecompressBin bl fuel sh maxSize) := by
  refine (Flow.quiet_lift (quiet_allocReq _)).bind ?_
  intro ok
  refine (Flow.quiet_pure _).ite ?_
  cases bl.xz.init blDecBinDictMax with
  | none => exact Flow.quiet_pure _
  | some s => exact quiet_decompressBin ..

theorem quiet_blLoadPlain (id : Nat) (sh : SectionHeader) :
    Flow.Quiet (blLoadPlain bl fuel id sh) := by
  refine (Flow.quiet_pure _).ite ((Flow.quiet_pure _).ite ((quiet_image_read ..).bind ?_))
  intro r
  cases r with
  | none => exact Flow.quiet_pure _
  | some body =>
    refine Flow.Quiet.ite ((quiet_image_read ..).bind ?_)
      ((Flow.quiet_pure _).ite (Flow.quiet_pure _))
    intro r
    cases r with
    | none => exact Flow.quiet_pure _
    | some sign =>
      refine (Flow.quiet_pure _).ite (Flow.Quiet.ite ?_ (Flow.quiet_pure _))
      refine (quiet_blVerifySignature ..).bind ?_
      intro ret
      refine (Flow.quiet_pure _).ite ((quiet_pass _).bind ?_)
      intro _
      exact Flow.quiet_pure _

theorem quiet_blLoadCompressed (id : Nat) (sh : SectionHeader) :
    Flow.Quiet (blLoadCompressed bl fuel id sh) := by
  refine ((quiet_blVerifyBinById _).ite (Flow.quiet_pure _)).bind ?_
  intro ret
  exact (Flow.quiet_pure _).ite (quiet_blDecompressBin ..)

theorem quiet_blLoadBinById (id : Nat) : Flow.Quiet (blLoadBinById bl fuel id) := by
  refine (quiet_image_read ..).bind ?_
  intro r
  cases r with
  | none => exact Flow.quiet_pure _
  | some bytes =>
    refine (Flow.quiet_pure _).ite (Flow.Quiet.ite ?_ ?_)
    · refine (quiet_blLoadCompressed ..).bind ?_
      intro ok
      exact Flow.quiet_pure _
    · refine (quiet_blLoadPlain ..).bind ?_
      intro ret
      exact Flow.quiet_pure _

theorem quiet_blLoadAppBin : Flow.Quiet (blLoadAppBin bl fuel) := by
  refine (quiet_blLoadBinById _).bind ?_
  intro r
  exact Flow.quiet_pure _

theorem quiet_verifyApp (enabled : Bool) (id : Nat) :
    Flow.Quiet (verifyApp bl fuel enabled id) := by
  refine Flow.Quiet.ite ((quiet_blVerifyBinById _).bind ?_) (Flow.quiet_pure _)
  intro ret
  exact Flow.quiet_pure _

end

end Boot
end XR806

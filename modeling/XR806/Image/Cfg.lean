import XR806.Image.FdcmCut
import XR806.Image.Section

/-!
# XR806.Image.Cfg

The image configuration (`image.c`): which slot to boot and whether it was verified, kept in the
FDCM area of the OTA parameters as two 16-bit magic numbers. A configuration that cannot be read,
or is not verified, selects slot 0.

* `imageGetCfg`, `imageSetCfg`: a set is written, read back and compared, twice at most;
* `imageInit`: the OTA parameters out of the bootloader's header, and the running sequence;
* `storedSeq`: the verified sequence the configuration names, if any.
-/

namespace XR806
namespace Image

open Nor Flash

inductive ImageState where
  | unverified
  | verified
  | undefined
  deriving DecidableEq

structure ImageCfg where
  seq : Nat
  state : ImageState
  deriving DecidableEq

/-- `image_raw_cfg_t`. -/
structure RawCfg where
  rawSeq : Nat
  rawState : Nat
  deriving DecidableEq

/-- `s_image_raw_seq`. -/
def imageRawSeq : List Nat := [0x5555, 0xAAAA]

def imageRawStateUnverified : Nat := 0x6996
def imageRawStateVerified : Nat := 0x9669
def imageWriteRawCfgTryCnt : Nat := 2
def rawCfgSize : Nat := 4

def RawCfg.encode (raw : RawCfg) : List Byte := leBytes 2 raw.rawSeq ++ leBytes 2 raw.rawState

def RawCfg.decode (bytes : List Byte) : RawCfg where
  rawSeq := field bytes 0 2
  rawState := field bytes 2 2

/-- The configuration `image_get_cfg` makes of the raw one. -/
def RawCfg.toCfg (raw : RawCfg) : Option ImageCfg :=
  match imageRawSeq.findIdx? (· = raw.rawSeq) with
  | none => none
  | some seq =>
    some ⟨seq, if raw.rawState = imageRawStateVerified then .verified
      else if raw.rawState = imageRawStateUnverified then .unverified else .undefined⟩

section

variable (board : Board)

def imageGetRawCfg (iop : OtaParam) : Prog (Option RawCfg) := do
  match ← fdcmOpen board iop.otaFlash iop.otaAddr iop.otaSize with
  | none => pure none
  | some fdcmHdl =>
    match ← fdcmRead board fdcmHdl rawCfgSize with
    | none => pure none
    | some bytes => pure (some (RawCfg.decode bytes))

/-- The loop of `image_set_raw_cfg`; `true` is the return value 0. -/
def writeRawCfg (fdcmHdl : FdcmHandle) (raw : List Byte) : Nat → Prog Bool
  | 0 => pure false
  | tries + 1 => do
    let n ← fdcmWrite board fdcmHdl raw
    if n ≠ rawCfgSize then pure false
    else
      match ← fdcmRead board fdcmHdl rawCfgSize with
      | none => pure false
      | some readCfg => if readCfg = raw then pure true else writeRawCfg fdcmHdl raw tries

def imageSetRawCfg (iop : OtaParam) (raw : RawCfg) : Prog Bool := do
  match ← fdcmOpen board iop.otaFlash iop.otaAddr iop.otaSize with
  | none => pure false
  | some fdcmHdl => writeRawCfg board fdcmHdl raw.encode imageWriteRawCfgTryCnt

def imageGetCfg (iop : OtaParam) : Prog (Option ImageCfg) :=
  if iop.otaSize = 0 ∨ iop.otaAddr = imageInvalidAddr then pure none
  else do
    match ← imageGetRawCfg board iop with
    | none => pure none
    | some raw => pure raw.toCfg

/-- `true` is the return value 0. -/
def imageSetCfg (iop : OtaParam) (cfg : ImageCfg) : Prog Bool :=
  if iop.otaSize = 0 ∨ iop.otaAddr = imageInvalidAddr then pure false
  else if cfg.seq ≥ imageSeqNum ∨ cfg.state ≠ .verified then pure false
  else imageSetRawCfg board iop ⟨imageRawSeq.getD cfg.seq 0, imageRawStateVerified⟩

/-! ## Starting the image module -/

def imageInitRunningSeq (iop : OtaParam) : Prog Nat :=
  if iop.otaAddr = imageInvalidAddr then pure 0
  else do
    match ← imageGetCfg board iop with
    | none => pure 0
    | some cfg => pure (if cfg.state = .verified then cfg.seq else 0)

def imageInvalidFlash : Nat := 0xFF
def imageInvalidOtaSize : Nat := 0xFFFFFF

/-- `image_get_bl_size`, without TrustZone. -/
def imageGetBlSize (sh : SectionHeader) : Nat := sh.nextAddr

/-- The parameters `image_init` takes from the bootloader's header, before the running sequence. -/
def otaParamOf (flash addr : Nat) (sh : SectionHeader) : OtaParam :=
  let blSize := imageGetBlSize sh
  let otaFlash := sh.privAt 0 % 2 ^ 8
  let otaSize := sh.privAt 0 / 2 ^ 8 % 2 ^ 24
  let imgMaxSize := sub32 (sh.privAt 2 % 2 ^ 16) (blSize / 1024) % 2 ^ 16
  let imgXzMaxSize := sh.privAt 2 / 2 ^ 16
  let otaFlash := if sh.version < 2 ∨ otaFlash = imageInvalidFlash then flash % 2 ^ 8 else otaFlash
  let otaSize :=
    if sh.version < 2 ∨ otaSize = imageInvalidOtaSize then blSize % 2 ^ 24 else otaSize
  let otaAddr := if sh.version < 2 then 1 <<< 20 else sh.privAt 1
  { otaFlash, otaSize, otaAddr, imgMaxSize, imgXzMaxSize, blSize
    runningSeq := 0
    flash := fun i => if i = 0 then flash % 2 ^ 8 else otaFlash
    addr := fun i =>
      if i = 0 then u32 (addr + blSize)
      else u32 (otaAddr + otaSize + imageAreaSize
        (if imgXzMaxSize = imageInvalidSize then imgMaxSize else imgXzMaxSize) * (i - 1)) }

/-- `none` is the return value -1. -/
def imageInit (flash addr : Nat) : Prog (Option OtaParam) := do
  match ← flashRead board flash addr imageHeaderSize with
  | none => pure none
  | some bytes =>
    let sh := SectionHeader.decode bytes
    if sh.privAt 2 % 2 ^ 16 = imageInvalidSize then pure none
    else do
      let iop := otaParamOf flash addr sh
      let runningSeq ← imageInitRunningSeq board iop
      pure (some { iop with runningSeq })

/-- The sequence a readable and verified configuration names. -/
def storedSeq (iop : OtaParam) (c : Cells) : Option Nat :=
  match ret (imageGetCfg board iop) c with
  | some ⟨seq, .verified⟩ => some seq
  | _ => none

end

section

variable {board : Board} {iop : OtaParam}

theorem quiet_fdcmOpen (flash addr size : Nat) : Quiet (fdcmOpen board flash addr size) := by
  unfold fdcmOpen
  split
  · exact quiet_pure _
  · exact (quiet_allocReq _).bind fun _ => quiet_pure _

theorem quiet_imageGetRawCfg : Quiet (imageGetRawCfg board iop) := by
  refine (quiet_fdcmOpen ..).bind fun r => ?_
  cases r with
  | none => exact quiet_pure _
  | some fdcmHdl =>
    refine (quiet_fdcmRead ..).bind fun r => ?_
    cases r with
    | none => exact quiet_pure _
    | some bytes => exact quiet_pure _

theorem quiet_imageGetCfg : Quiet (imageGetCfg board iop) := by
  refine Quiet.ite (quiet_pure _) (quiet_imageGetRawCfg.bind fun r => ?_)
  cases r with
  | none => exact quiet_pure _
  | some raw => exact quiet_pure _

theorem quiet_imageInitRunningSeq : Quiet (imageInitRunningSeq board iop) := by
  refine Quiet.ite (quiet_pure _) (quiet_imageGetCfg.bind fun r => ?_)
  cases r with
  | none => exact quiet_pure _
  | some cfg => exact quiet_pure _

theorem quiet_imageInit (flash addr : Nat) : Quiet (imageInit board flash addr) := by
  refine (quiet_flashRead ..).bind fun r => ?_
  cases r with
  | none => exact quiet_pure _
  | some bytes =>
    exact Quiet.ite (quiet_pure _) (quiet_imageInitRunningSeq.bind fun _ => quiet_pure _)

/-- The running sequence is the stored one, by default 0. -/
theorem ret_imageInitRunningSeq (c : Cells) :
    ret (imageInitRunningSeq board iop) c = (storedSeq board iop c).getD 0 := by
  unfold imageInitRunningSeq storedSeq
  split
  · rename_i hinv
    rw [imageGetCfg, if_pos (.inr hinv)]
    rfl
  · rw [quiet_imageGetCfg.ret_bind]
    cases ret (imageGetCfg board iop) c with
    | none => rfl
    | some cfg =>
      obtain ⟨seq, state⟩ := cfg
      cases state <;> rfl

/-- The stored sequence does not depend on the running one. -/
theorem storedSeq_running (runningSeq : Nat) (c : Cells) :
    storedSeq board { iop with runningSeq } c = storedSeq board iop c := rfl

theorem ret_imageInit (flash addr : Nat) (c : Cells) :
    ret (imageInit board flash addr) c =
      (ret (flashRead board flash addr imageHeaderSize) c).bind fun bytes =>
        if (SectionHeader.decode bytes).privAt 2 % 2 ^ 16 = imageInvalidSize then none
        else some { otaParamOf flash addr (SectionHeader.decode bytes) with
          runningSeq :=
            (storedSeq board (otaParamOf flash addr (SectionHeader.decode bytes)) c).getD 0 } := by
  rw [imageInit, (quiet_flashRead ..).ret_bind]
  cases ret (flashRead board flash addr imageHeaderSize) c with
  | none => rfl
  | some bytes =>
    dsimp only [Option.bind_some]
    split
    · rfl
    · rw [quiet_imageInitRunningSeq.ret_bind, ret_imageInitRunningSeq]
      rfl

/-- The parameters come from the header alone. -/
theorem imageInit_congr {flash addr : Nat} {c c' : Cells}
    (hc : ∀ a, addr ≤ a → a < addr + imageHeaderSize → c' flash a = c flash a)
    (h : ret (imageInit board flash addr) c = some iop) :
    ret (imageInit board flash addr) c' =
      some { iop with runningSeq := (storedSeq board iop c').getD 0 } := by
  rw [ret_imageInit] at h ⊢
  have hread : ret (flashRead board flash addr imageHeaderSize) c' =
      ret (flashRead board flash addr imageHeaderSize) c := by
    have hcells : readCells c' flash addr imageHeaderSize = readCells c flash addr imageHeaderSize :=
      readCells_congr fun i hi => hc _ (by omega) (by omega)
    unfold flashRead halFlashRead
    split
    · rfl
    split
    · rfl
    · rw [ret_readReq, ret_readReq, hcells]
  rw [hread]
  cases hbytes : ret (flashRead board flash addr imageHeaderSize) c with
  | none =>
    rw [hbytes] at h
    cases h
  | some bytes =>
    rw [hbytes] at h
    dsimp only [Option.bind_some] at h ⊢
    split at h
    · cases h
    · rename_i hmax
      obtain rfl := Option.some.inj h
      rw [if_neg hmax]
      rfl

end

end Image
end XR806

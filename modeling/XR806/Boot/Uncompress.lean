import XR806.Image.CfgCut
import XR806.Image.Rw

/-!
# XR806.Boot.Uncompress

What the bootloader (`main.c`) does before it loads the application: it starts the image module,
reads the configuration and chooses the slot to load. With a compressed image in the OTA area,
the configuration naming slot 1, it first rebuilds slot 0 out of it (`bl_xz_image`).

The xz decoder is a parameter: a state, and a function that takes some input and gives some
output. `blUncompressImage` answers the two sequences, or the error that stops the boot.
-/

namespace XR806
namespace Boot

open Nor Flash Image

/-- `enum xz_ret`, as far as the callers tell the values apart. -/
inductive XzRet where
  | ok
  | streamEnd
  | error
  deriving DecidableEq

/-- The decoder of `xz.h`. `run` gets the input left and the room for output; it answers how much
input it took and the bytes it put out. -/
structure XzDec where
  State : Type
  /-- `xz_dec_init` with a dictionary limit; `none` is a failed allocation. -/
  init : Nat → Option State
  run : State → List Byte → Nat → State × Nat × List Byte × XzRet

/-- What `main.c` is built with. -/
structure BlConfig where
  board : Board
  /-- `PRJCONF_IMG_FLASH` and `PRJCONF_IMG_ADDR`. -/
  imgFlash : Nat
  imgAddr : Nat
  /-- `__RAM_BASE`. -/
  ramBase : Nat
  /-- `CONFIG_BIN_COMPRESS`. -/
  binCompress : Bool
  /-- `CONFIG_SECURE_BOOT`, with `CONFIG_CHIP_ARCH_VER` 3. -/
  secureBoot : Bool
  /-- `CONFIG_APP_XIP_BIN_VERIFY` and `CONFIG_APP_PSRAM_BIN_VERIFY`. -/
  appXipBinVerify : Bool
  appPsramBinVerify : Bool
  xz : XzDec
  sha256 : List Byte → List Byte
  /-- `uECC_verify`: public key, digest, signature. -/
  uEccVerify : List Byte → List Byte → List Byte → Bool

def blDecImgInbufSize : Nat := 4 * 1024
def blDecImgOutbufSize : Nat := 4 * 1024
def blDecImgDictMax : Nat := 8 * 1024

section

variable (bl : BlConfig)

/-- The input of `bl_xz_image` when its buffer is used up, with what is left behind it; `none` is
the end of the input or a read that fails. -/
def refillImage (flash xzAddr : Nat) (input : List Byte) (left offset : Nat) :
    Prog (Option (List Byte × Nat × Nat)) :=
  if input ≠ [] then pure (some (input, left, offset))
  else if left = 0 then pure none
  else do
    let readSize := if left > blDecImgInbufSize then blDecImgInbufSize else left
    match ← flashRead bl.board flash (u32 (xzAddr + offset)) readSize with
    | none => pure none
    | some bytes => pure (some (bytes, left - readSize, u32 (offset + readSize)))

/-- The loop of `bl_xz_image`: input is read a buffer at a time, output is written as it comes.
Every way out is the same; `none` is a loop that has not ended. -/
def xzLoop (flash xzAddr imageAddr : Nat) :
    Nat → bl.xz.State → List Byte → Nat → Nat → Nat → Prog (Option Unit)
  | 0, _, _, _, _, _ => pure none
  | fuel + 1, s, input, left, offset, writePos => do
    match ← refillImage bl flash xzAddr input left offset with
    | none => pure (some ())
    | some (input, left, offset) =>
      match bl.xz.run s input blDecImgOutbufSize with
      | (_, _, _, .error) => pure (some ())
      | (s, taken, output, xzret) => do
        let len ← flashWrite bl.board flash (u32 (imageAddr + writePos)) output
        if len ≠ output.length then pure (some ())
        else if xzret = .streamEnd then pure (some ())
        else
          xzLoop flash xzAddr imageAddr fuel s (input.drop taken) left offset
            (u32 (writePos + output.length))

/-- `bl_xz_image`; the results are those of the source. -/
def blXzImage (fuel seq : Nat) : Img Int := fun img => do
  let iop := img.iop
  let flash := iop.flash seq
  let otaAddr := u32 (iop.otaAddr + iop.otaSize)
  let otaXzAddr := u32 (iop.otaAddr + iop.otaSize + imageHeaderSize)
  match ← flashRead bl.board flash otaAddr imageHeaderSize with
  | none => pure (some (-1, img))
  | some bytes =>
    let xzSh := SectionHeader.decode bytes
    if ¬xzSh.hasFlag imageAttrFlagCompress then pure (some (-2, img))
    else
      match bl.xz.init blDecImgDictMax with
      | none => pure (some (-1, img))
      | some s => do
        let img := { img with iop := { iop with runningSeq := 0 } }
        match ← imageRead bl.board fuel imageBootId .header 0 imageHeaderSize img with
        | none => pure none
        | some (none, img) => pure (some (-1, img))
        | some (some _, img) => do
          let ok ← flashErase bl.board flash (iop.addr 0) (imageAreaSize iop.imgMaxSize)
          if !ok then pure (some (-1, img))
          else do
            match ← xzLoop bl flash otaXzAddr (iop.addr 0) fuel s [] xzSh.bodyLen 0 0 with
            | none => pure none
            | some () => do
              match ← imageCheckSections bl.board img.iop fuel seq .ota with
              | none => pure none
              | some .invalid => pure (some (-1, img))
              | some .valid => do
                let ok ← imageSetCfg bl.board img.iop ⟨0, .verified⟩
                pure (some (if ok then 0 else -1, img))

/-- What `bl_uncompress_image` returns. -/
inductive UncompressRet where
  /-- `BL_INVALID_APP_ENTRY`. -/
  | invalidAppEntry
  /-- `BL_INVALID_APP_UNZIP`. -/
  | invalidAppUnzip
  | ok (cSeq lSeq : Nat)
  deriving DecidableEq

/-- The sequence a configuration names for the bootloader; `IMAGE_SEQ_NUM` is no sequence. -/
def blCfgSeq (cfg : Option ImageCfg) : Nat :=
  match cfg with
  | some cfg => if cfg.state = .verified then cfg.seq else imageSeqNum
  | none => imageSeqNum

/-- `bl_uncompress_image`; `cSeq` and `lSeq` are what `main` has in the two variables. -/
def blUncompressImage (fuel cSeq lSeq : Nat) : Img UncompressRet := fun img => do
  match ← imageInit bl.board bl.imgFlash bl.imgAddr with
  | none => pure (some (.invalidAppEntry, img))
  | some iop =>
    let img : ImagePriv := ⟨iop, fun _ => []⟩
    if iop.otaAddr = imageInvalidAddr then
      pure (some (.ok cSeq lSeq, { img with iop := { iop with runningSeq := 0 } }))
    else do
      let cfg ← imageGetCfg bl.board iop
      let cfgSeq := blCfgSeq cfg
      let loadSeq := if cfgSeq = imageSeqNum then 0 else cfgSeq
      let select (loadSeq : Nat) (img : ImagePriv) :=
        some (UncompressRet.ok cfgSeq loadSeq,
          { img with iop := { img.iop with runningSeq := loadSeq } })
      if cfgSeq = 1 ∧ iop.imgXzMaxSize ≠ imageInvalidSize then do
        match ← blXzImage bl fuel cfgSeq img with
        | none => pure none
        | some (ret, img) =>
          if ret = 0 then pure (select 0 img)
          else if ret = -2 then pure (select loadSeq img)
          else pure (some (.invalidAppUnzip, img))
      else pure (select loadSeq img)

end

end Boot
end XR806

import XR806.Image.Section
import XR806.Nor.Flow

/-!
# XR806.Ota.Session

The two ways an image gets into the slot to be updated: pushed by the application in pieces, or
pulled through a callback. Both count the bytes they have seen in `get_size`, leave the first
`ota_skip_size` of them out, and erase the slot before.

`get_size` starts at 0 in `ota_init` for a push, and in `ota_update_image_process` for a pull.
-/

namespace XR806
namespace Ota

open Nor Flash Image

/-- `CONFIG_OTA_POLICY_PINGPONG` or `CONFIG_OTA_POLICY_IMAGE_COMPRESSION`. -/
inductive Policy
  | pingpong
  | compression
deriving DecidableEq, Repr

/-- `ota_priv` and `ota_skip_size`. -/
structure OtaState where
  iop : Option OtaParam
  getSize : Nat
  skipSize : Int

def otaBufSize : Nat := 2 <<< 10

def otaUpdateSeqPolicy : List Nat := [1, 0]

def uint32 (z : Int) : Nat := (z % 2 ^ 32).toNat

def int32 (n : Nat) : Int := if n < 2 ^ 31 then n else n - 2 ^ 32

def otaGetUpdateSeq : Option OtaParam → Nat
  | none => imageSeqNum
  | some iop =>
    if imageAreaSize iop.imgMaxSize = 0 ∨ iop.blSize = 0 ∨ iop.runningSeq ≥ imageSeqNum then
      imageSeqNum
    else otaUpdateSeqPolicy.getD iop.runningSeq imageSeqNum

def imgMaxSize (policy : Policy) (iop : OtaParam) : Nat :=
  match policy with
  | .pingpong => imageAreaSize iop.imgMaxSize
  | .compression => imageAreaSize iop.imgXzMaxSize

def skipOrDefault (policy : Policy) (iop : OtaParam) (skipSize : Int) : Int :=
  if skipSize < 0 then
    match policy with
    | .pingpong => int32 iop.blSize
    | .compression => 0
  else skipSize

/-- An answer of the callback: whether it is `OTA_STATUS_OK`, what it received, and `eof_flag`. -/
structure Reply where
  ok : Bool
  data : List Byte
  eof : Bool

section

variable (board : Board) (policy : Policy) (param : OtaParam)

/-- `param` is what `image_get_ota_param` points to. -/
def otaInit : Flow OtaState Bool := do
  Flow.modify fun ota => { ota with iop := some param, getSize := 0 }
  pure (policy = .pingpong || param.imgXzMaxSize ≠ imageInvalidSize)

def otaDeinit : Flow OtaState Unit :=
  Flow.modify fun ota => { ota with iop := none, getSize := 0 }

/-! ## Pushing -/

def otaPushInit : Flow OtaState Bool := otaInit policy param

/-- Without `ota_push_init` the slot is looked up through NULL. -/
def otaPushStart : Flow OtaState Bool := do
  let ota ← Flow.get
  match ota.iop with
  | none => Flow.hang
  | some iop =>
    let seq := otaGetUpdateSeq ota.iop
    Flow.modify fun ota => { ota with skipSize := skipOrDefault policy iop ota.skipSize }
    Flow.lift (flashErase board (iop.flash seq) (iop.addr seq) (imgMaxSize policy iop))

def otaSetSkipSize (skipSize : Int) : Flow OtaState Unit :=
  Flow.modify fun ota => { ota with skipSize }

/-- The part of `ota_push_data` for the bytes that are not skipped. -/
def pushWrite (iop : OtaParam) (writeData : List Byte) : Flow OtaState Bool := do
  let ota ← Flow.get
  let remainImgSize := sub32 (u32 (imgMaxSize policy iop + uint32 ota.skipSize)) ota.getSize
  if writeData.length > remainImgSize then pure false
  else
    let seq := otaGetUpdateSeq ota.iop
    let addr := sub32 (u32 (iop.addr seq + ota.getSize)) (uint32 ota.skipSize)
    let ret ← Flow.lift (flashWrite board (iop.flash seq) addr writeData)
    Flow.modify fun ota => { ota with getSize := u32 (ota.getSize + ret) }
    pure (ret = writeData.length)

def otaPushData (data : List Byte) : Flow OtaState Bool := do
  let ota ← Flow.get
  match ota.iop with
  | none => Flow.hang
  | some iop =>
    let size := data.length
    if size = 0 then pure true
    else if ota.getSize < uint32 ota.skipSize then
      let remainSkipSize := sub32 (uint32 ota.skipSize) ota.getSize
      if remainSkipSize ≥ size then
        Flow.modify fun ota => { ota with getSize := u32 (ota.getSize + size) }
        pure true
      else
        Flow.modify fun ota => { ota with getSize := u32 (ota.getSize + remainSkipSize) }
        pushWrite board policy iop (data.drop remainSkipSize)
    else pushWrite board policy iop data

/-! ## Pulling -/

/-- The loop over the bytes to skip. It ends with the answers that are left, or without. -/
def skipLoop : List Reply → Nat → Flow OtaState (Option (List Reply))
  | [], skipSize => if skipSize = 0 then pure (some []) else Flow.hang
  | reply :: rest, skipSize =>
    if skipSize = 0 then pure (some (reply :: rest))
    else if !reply.ok || reply.eof then pure none
    else do
      Flow.modify fun ota => { ota with getSize := u32 (ota.getSize + reply.data.length) }
      skipLoop rest (sub32 skipSize reply.data.length)

/-- The loop that fills the slot. It ends with `ret` and the size that is left of it. -/
def writeLoop (flash : Nat) : List Reply → Nat → Nat → Flow OtaState (Bool × Nat)
  | [], _, left => if left = 0 then pure (false, left) else Flow.hang
  | reply :: rest, addr, left =>
    if left = 0 then pure (false, left)
    else if !reply.ok then pure (false, left)
    else if reply.data.length = 0 then
      if reply.eof then pure (true, left) else writeLoop flash rest addr left
    else do
      let left := sub32 left reply.data.length
      Flow.modify fun ota => { ota with getSize := u32 (ota.getSize + reply.data.length) }
      let ok ← Flow.lift (halFlashWrite board flash addr reply.data)
      if !ok then pure (false, left)
      else if reply.eof then pure (true, left)
      else writeLoop flash rest (u32 (addr + reply.data.length)) left

/-- `ota_update_image_process` up to the check of the sections: whether it gets there. `initOk` is
the answer of `init_cb`, `replies` are those of `get_cb`. -/
def otaDownload (seq : Nat) (initOk : Bool) (replies : List Reply) : Flow OtaState Bool := do
  let ota ← Flow.get
  match ota.iop with
  | none => Flow.hang
  | some iop =>
    let flash := iop.flash seq
    let max := imgMaxSize policy iop
    let erased ← Flow.lift (flashErase board flash (iop.addr seq) max)
    if !erased then pure false
    else
      let mem ← Flow.lift (allocReq otaBufSize)
      if !mem then pure false
      else if !initOk then pure (max = 0)
      else
        Flow.modify fun ota =>
          { ota with getSize := 0, skipSize := skipOrDefault policy iop ota.skipSize }
        let rest ← skipLoop replies (uint32 (skipOrDefault policy iop ota.skipSize))
        match rest with
        | none => pure (max = 0)
        | some rest =>
          let (ok, left) ← writeLoop board flash rest (iop.addr seq) max
          pure (ok || left = 0)

/-- The check of the sections at the end of `ota_update_image_process`. The fuel bounds their
number. -/
def otaCheckLoaded (fuel seq : Nat) : Flow OtaState Bool := do
  let ota ← Flow.get
  match ota.iop with
  | none => Flow.hang
  | some iop =>
    let val ← Flow.lift (imageCheckSections board iop fuel seq .normal)
    match val with
    | none => Flow.hang
    | some val => pure (val ≠ .invalid)

def otaUpdateImageProcess (fuel seq : Nat) (initOk : Bool) (replies : List Reply) :
    Flow OtaState Bool := do
  let loaded ← otaDownload board policy seq initOk replies
  if !loaded then pure false else otaCheckLoaded board fuel seq

def otaUpdateImage (fuel : Nat) (initOk : Bool) (replies : List Reply) : Flow OtaState Bool := do
  let ota ← Flow.get
  let seq := otaGetUpdateSeq ota.iop
  if seq < imageSeqNum then otaUpdateImageProcess board policy fuel seq initOk replies
  else pure false

/-- `ota_get_image` with a protocol that is supported. -/
def otaGetImage (fuel : Nat) (initOk : Bool) (replies : List Reply) : Flow OtaState Bool := do
  let _ ← otaInit policy param
  otaUpdateImage board policy fuel initOk replies

end

end Ota
end XR806

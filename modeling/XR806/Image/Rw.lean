import XR806.Image.Section
import XR806.Nor.Answer

/-!
# XR806.Image.Rw

Finding and reading sections (`app_image_get_addr`, `image_rw`). The addresses found are kept per
slot in the image module's state, so the programs here carry an `ImagePriv`. A search along a
chain that never ends has no result: an `Img` program answers `none` for it.
-/

namespace XR806
namespace Image

open Nor Flash

/-- `sec_addr_t`. -/
structure SecAddr where
  id : Nat
  addr : Nat
  deriving DecidableEq

/-- `image_priv_t`; `secAddr seq` holds the `sec_num[seq]` entries in use. -/
structure ImagePriv where
  iop : OtaParam
  secAddr : Nat → List SecAddr

/-- Programs of the image module. -/
abbrev Img (α : Type) : Type := Flow ImagePriv α

/-- `image_seg_t`. -/
inductive ImageSeg where
  | header
  | body
  | tailer
  deriving DecidableEq

def imageExpandSize : Nat := 5

/-- The section number has 8 bits: with entry 256 the cache starts anew. -/
def pushSecAddr (entries : List SecAddr) (entry : SecAddr) : List SecAddr :=
  if entries.length + 1 = 2 ^ 8 then [] else entries ++ [entry]

def ImagePriv.push (img : ImagePriv) (seq : Nat) (entry : SecAddr) : ImagePriv :=
  { img with secAddr := fun i =>
      if i = seq then pushSecAddr (img.secAddr seq) entry else img.secAddr i }

/-- `image_clear_sec_addr`. -/
def ImagePriv.clearSecAddr (img : ImagePriv) : ImagePriv := { img with secAddr := fun _ => [] }

/-- `image_set_running_seq`. -/
def imageSetRunningSeq (seq : Nat) : Img Unit :=
  Flow.modify fun img => { img with iop := { img.iop with runningSeq := seq } }

section

variable (board : Board)

/-- The loop `while (next_addr != IMAGE_INVALID_ADDR)` of `app_image_get_addr`. -/
def searchSection (seq id : Nat) : Nat → Nat → Nat → Nat → Img Nat
  | 0, _, _, _ => Flow.hang
  | fuel + 1, flash, addr, nextAddr =>
    if nextAddr = imageInvalidAddr then pure imageInvalidAddr
    else do
      let img ← Flow.get
      let secNum := (img.secAddr seq).length
      -- `image_expand_addr`
      let ok ← Flow.lift (if secNum % imageExpandSize = 0 then
        allocReq ((secNum + imageExpandSize) * 8) else pure true)
      if !ok then pure imageInvalidAddr
      else do
        -- `next_addr` and `id` of the section header
        match ← Flow.lift (flashRead board flash (u32 (addr + 32)) 8) with
        | none => pure imageInvalidAddr
        | some shPart => do
          Flow.modify fun img => img.push seq ⟨field shPart 4 4, addr⟩
          if id = field shPart 4 4 then pure addr
          else
            searchSection seq id fuel (img.iop.flash seq)
              (img.iop.secAddr seq (field shPart 0 4)) (field shPart 0 4)

/-- `app_image_get_addr`, what `image_get_addr` is without TrustZone. -/
def imageGetAddr (fuel seq id : Nat) : Img Nat :=
  if seq ≥ imageSeqNum then pure imageInvalidAddr
  else do
    let img ← Flow.get
    match (img.secAddr seq).find? (·.id = id) with
    | some entry => pure entry.addr
    | none =>
      match (img.secAddr seq).getLast? with
      | none => searchSection board seq id fuel img.iop.blFlash img.iop.blAddr img.iop.blAddr
      | some entry => do
        match ← Flow.lift (flashRead board (img.iop.flash seq) (u32 (entry.addr + 32)) 4) with
        | none => pure imageInvalidAddr
        | some bytes =>
          searchSection board seq id fuel (img.iop.flash seq)
            (img.iop.secAddr seq (field bytes 0 4)) (field bytes 0 4)

/-- `image_get_section_addr`. -/
def imageGetSectionAddr (fuel id : Nat) : Img Nat := do
  let img ← Flow.get
  imageGetAddr board fuel img.iop.runningSeq id

/-- `image_rw` for a read; `none` is a read of 0 bytes. -/
def imageRead (fuel id : Nat) (seg : ImageSeg) (offset size : Nat) : Img (Option (List Byte)) := do
  let img ← Flow.get
  let seq := img.iop.runningSeq
  let addr ← imageGetAddr board fuel seq id
  if addr = imageInvalidAddr then pure none
  else
    match seg with
    | .header => Flow.lift (flashRead board (img.iop.flash seq) (u32 (addr + offset)) size)
    | .body =>
      Flow.lift (flashRead board (img.iop.flash seq) (u32 (addr + imageHeaderSize + offset)) size)
    | .tailer => do
      match ← Flow.lift (flashRead board (img.iop.flash seq) (u32 (addr + 24)) 4) with
      | none => pure none
      | some bytes =>
        Flow.lift (flashRead board (img.iop.flash seq)
          (u32 (addr + imageHeaderSize + field bytes 0 4 + offset)) size)

end

/-! ## Searching and reading change no cell, and fail when a request is refused -/

section

variable {board : Board} {fuel : Nat}

theorem strict_flashRead (dev addr n : Nat) : Strict (· = none) (flashRead board dev addr n) := by
  unfold flashRead halFlashRead
  split
  · exact strict_pure _
  · exact (strict_pure _).ite (strict_readReq ..)

theorem strict_searchSection (seq id flash addr nextAddr : Nat) :
    Flow.Strict (· = imageInvalidAddr) (searchSection board seq id fuel flash addr nextAddr) := by
  induction fuel generalizing flash addr nextAddr with
  | zero => exact Flow.strict_hang
  | succ fuel ih =>
    refine (Flow.strict_pure _).ite (Flow.strict_get.bind (fun img => ?_) fun _ h => h.elim)
    refine (Flow.strict_lift ((strict_allocReq _).ite (strict_pure _))).bind (fun ok => ?_) ?_
    · refine (Flow.strict_pure _).ite
        ((Flow.strict_lift (strict_flashRead ..)).bind (fun r => ?_) ?_)
      · cases r with
        | none => exact Flow.strict_pure _
        | some shPart =>
          refine (Flow.strict_modify _).bind (fun _ => ?_) fun _ h => h.elim
          exact (Flow.strict_pure _).ite (ih ..)
      · rintro _ rfl
        exact ⟨_, rfl, rfl⟩
    · rintro _ rfl
      exact ⟨_, rfl, rfl⟩

theorem strict_imageGetAddr (seq id : Nat) :
    Flow.Strict (· = imageInvalidAddr) (imageGetAddr board fuel seq id) := by
  refine (Flow.strict_pure _).ite (Flow.strict_get.bind (fun img => ?_) fun _ h => h.elim)
  cases (img.secAddr seq).find? (·.id = id) with
  | some entry => exact Flow.strict_pure _
  | none =>
    cases (img.secAddr seq).getLast? with
    | none => exact strict_searchSection ..
    | some entry =>
      refine (Flow.strict_lift (strict_flashRead ..)).bind (fun r => ?_) ?_
      · cases r with
        | none => exact Flow.strict_pure _
        | some bytes => exact strict_searchSection ..
      · rintro _ rfl
        exact ⟨_, rfl, rfl⟩

theorem strict_imageGetSectionAddr (id : Nat) :
    Flow.Strict (· = imageInvalidAddr) (imageGetSectionAddr board fuel id) :=
  Flow.strict_get.bind (fun _ => strict_imageGetAddr ..) fun _ h => h.elim

theorem strict_imageRead (id : Nat) (seg : ImageSeg) (offset size : Nat) :
    Flow.Strict (· = none) (imageRead board fuel id seg offset size) := by
  refine Flow.strict_get.bind (fun img => ?_) fun _ h => h.elim
  refine (strict_imageGetAddr ..).bind (fun addr => ?_) ?_
  · refine (Flow.strict_pure _).ite ?_
    cases seg with
    | header => exact Flow.strict_lift (strict_flashRead ..)
    | body => exact Flow.strict_lift (strict_flashRead ..)
    | tailer =>
      refine (Flow.strict_lift (strict_flashRead ..)).bind (fun r => ?_) ?_
      · cases r with
        | none => exact Flow.strict_pure _
        | some bytes => exact Flow.strict_lift (strict_flashRead ..)
      · rintro _ rfl
        exact ⟨_, rfl, rfl⟩
  · rintro _ rfl
    exact ⟨none, if_pos rfl, rfl⟩

theorem quiet_imageGetAddr (seq id : Nat) : Flow.Quiet (imageGetAddr board fuel seq id) :=
  (strict_imageGetAddr ..).quiet

theorem quiet_imageGetSectionAddr (id : Nat) : Flow.Quiet (imageGetSectionAddr board fuel id) :=
  (strict_imageGetSectionAddr ..).quiet

theorem quiet_imageRead (id : Nat) (seg : ImageSeg) (offset size : Nat) :
    Flow.Quiet (imageRead board fuel id seg offset size) :=
  (strict_imageRead ..).quiet

/-! ## Searching and reading keep the parameters -/

theorem keeps_searchSection (seq id flash addr nextAddr : Nat) :
    Flow.Keeps ImagePriv.iop (searchSection board seq id fuel flash addr nextAddr) := by
  induction fuel generalizing flash addr nextAddr with
  | zero => exact Flow.keeps_hang
  | succ fuel ih =>
    refine (Flow.keeps_pure _).ite (Flow.keeps_get.bind ?_)
    intro img
    refine (Flow.keeps_lift _).bind ?_
    intro ok
    refine (Flow.keeps_pure _).ite ((Flow.keeps_lift _).bind ?_)
    intro r
    cases r with
    | none => exact Flow.keeps_pure _
    | some shPart =>
      refine Flow.Keeps.bind (Flow.keeps_modify ?_) ?_
      · intro img
        rfl
      · intro _
        exact (Flow.keeps_pure _).ite (ih ..)

theorem keeps_imageGetAddr (seq id : Nat) :
    Flow.Keeps ImagePriv.iop (imageGetAddr board fuel seq id) := by
  refine (Flow.keeps_pure _).ite (Flow.keeps_get.bind ?_)
  intro img
  cases (img.secAddr seq).find? (·.id = id) with
  | some entry => exact Flow.keeps_pure _
  | none =>
    cases (img.secAddr seq).getLast? with
    | none => exact keeps_searchSection ..
    | some entry =>
      refine (Flow.keeps_lift _).bind ?_
      intro r
      cases r with
      | none => exact Flow.keeps_pure _
      | some bytes => exact keeps_searchSection ..

theorem keeps_imageGetSectionAddr (id : Nat) :
    Flow.Keeps ImagePriv.iop (imageGetSectionAddr board fuel id) := by
  refine Flow.keeps_get.bind ?_
  intro img
  exact keeps_imageGetAddr ..

theorem keeps_imageRead (id : Nat) (seg : ImageSeg) (offset size : Nat) :
    Flow.Keeps ImagePriv.iop (imageRead board fuel id seg offset size) := by
  refine Flow.keeps_get.bind ?_
  intro img
  refine (keeps_imageGetAddr ..).bind ?_
  intro addr
  refine (Flow.keeps_pure _).ite ?_
  cases seg with
  | header => exact Flow.keeps_lift _
  | body => exact Flow.keeps_lift _
  | tailer =>
    refine (Flow.keeps_lift _).bind ?_
    intro r
    cases r with
    | none => exact Flow.keeps_pure _
    | some bytes => exact Flow.keeps_lift _

end

end Image
end XR806

import XR806.Boot.Uncompress

/-!
# XR806.Boot.Unpack

Where `bl_xz_image` writes, and what, for any behaviour of the decoder: its output lies in slot 0
and nothing of it is lost, just when the decoder puts out no more than the slot holds
(`xz_image_fits`). The source computes the size of the slot and does not use it.
-/

namespace XR806
namespace Boot

open Nor Flash Image

/-- The decoder takes what it is given, and puts out what there is room for. -/
structure XzDec.Lawful (xz : XzDec) : Prop where
  taken : ∀ s input room, (xz.run s input room).2.1 ≤ input.length
  room : ∀ s input room, (xz.run s input room).2.2.1.length ≤ room

/-- A call of the decoder and the call of `flash_write` behind it, with its commands; with an error
nothing is written. -/
structure XzStep where
  given : List Byte
  taken : Nat
  ret : XzRet
  addr : Nat
  out : List Byte
  writes : List Write

/-- Each call is given bytes behind those that were taken before. -/
def Fed : List Byte → List XzStep → Prop
  | _, [] => True
  | rest, step :: steps =>
    step.given <+: rest ∧ step.taken ≤ step.given.length ∧ Fed (rest.drop step.taken) steps

section

variable (bl : BlConfig)

/-- The calls `xzLoop` makes. -/
def xzSteps (flash xzAddr imageAddr : Nat) :
    Nat → bl.xz.State → List Byte → Nat → Nat → Nat → Cells → List XzStep
  | 0, _, _, _, _, _, _ => []
  | fuel + 1, s, input, left, offset, writePos, c =>
    match ret (refillImage bl flash xzAddr input left offset) c with
    | none => []
    | some (input, left, offset) =>
      let addr := u32 (imageAddr + writePos)
      match bl.xz.run s input blDecImgOutbufSize with
      | (_, taken, _, .error) => [⟨input, taken, .error, addr, [], []⟩]
      | (s, taken, out, xzret) =>
        let write := flashWrite bl.board flash addr out
        ⟨input, taken, xzret, addr, out, trace write c⟩ ::
          if ret write c ≠ out.length then []
          else if xzret = .streamEnd then []
          else
            xzSteps flash xzAddr imageAddr fuel s (input.drop taken) left offset
              (u32 (writePos + out.length)) (post write c)

/-- What the decoder puts out for the input in `c`, read a buffer at a time. -/
def xzOutput (flash xzAddr : Nat) : Nat → bl.xz.State → List Byte → Nat → Nat → Cells → List Byte
  | 0, _, _, _, _, _ => []
  | fuel + 1, s, input, left, offset, c =>
    match ret (refillImage bl flash xzAddr input left offset) c with
    | none => []
    | some (input, left, offset) =>
      match bl.xz.run s input blDecImgOutbufSize with
      | (_, _, _, .error) => []
      | (s, taken, out, xzret) =>
        out ++
          if xzret = .streamEnd then []
          else xzOutput flash xzAddr fuel s (input.drop taken) left offset c

end

section

variable {bl : BlConfig} {flash xzAddr imageAddr max fuel left offset pos : Nat}
  {s : bl.xz.State} {input rest : List Byte} {c c₀ : Cells}

theorem quiet_refillImage : Quiet (refillImage bl flash xzAddr input left offset) := by
  refine Quiet.ite (quiet_pure _) (Quiet.ite (quiet_pure _) ((quiet_flashRead _ _ _).bind fun r => ?_))
  cases r with
  | none => exact quiet_pure _
  | some bytes => exact quiet_pure _

/-- The commands of the loop are those of its calls. -/
theorem trace_xzLoop : trace (xzLoop bl flash xzAddr imageAddr fuel s input left offset pos) c =
    (xzSteps bl flash xzAddr imageAddr fuel s input left offset pos c).flatMap (·.writes) := by
  induction fuel generalizing s input left offset pos c with
  | zero => rfl
  | succ fuel ih =>
    simp only [xzLoop, xzSteps, trace_bind, quiet_refillImage.trace, quiet_refillImage.post,
      List.nil_append]
    cases ret (refillImage bl flash xzAddr input left offset) c with
    | none => rfl
    | some r =>
      obtain ⟨input, left, offset⟩ := r
      dsimp only
      rcases bl.xz.run s input blDecImgOutbufSize with ⟨s', taken, out, xzret⟩
      cases xzret with
      | error => rfl
      | ok =>
        simp only [trace_bind, List.flatMap_cons]
        split
        · rfl
        · rw [if_neg nofun, if_neg nofun, ih]
      | streamEnd =>
        simp only [trace_bind, List.flatMap_cons]
        split
        · rfl
        · rfl

/-! ## The input -/

/-- The bytes that have not been taken: in the buffer, and in the flash behind it. -/
structure Unread (c : Cells) (flash xzAddr : Nat) (rest input : List Byte) (left offset : Nat) :
    Prop where
  rest : rest = input ++ readCells c flash (xzAddr + offset) left
  memory : xzAddr + offset + left ≤ 2 ^ 32
  size : offset + left < 2 ^ 32

/-- The cells from `lo` to `hi` are those of the start. -/
def Untouched (c₀ c : Cells) (flash lo hi : Nat) : Prop :=
  ∀ a, lo ≤ a → a < hi → c flash a = c₀ flash a

theorem ret_flashRead_congr {board : Board} {addr n : Nat} (h : Untouched c₀ c flash addr (addr + n)) :
    ret (flashRead board flash addr n) c = ret (flashRead board flash addr n) c₀ := by
  unfold flashRead halFlashRead
  split
  · rfl
  · split
    · rfl
    · rw [ret_readReq, ret_readReq]
      exact congrArg some (readCells_congr fun i hi => h _ (by omega) (by omega))

theorem Unread.refill (h : Unread c₀ flash xzAddr rest input left offset)
    (hsame : Untouched c₀ c flash (xzAddr + offset) (xzAddr + offset + left)) :
    ret (refillImage bl flash xzAddr input left offset) c =
        ret (refillImage bl flash xzAddr input left offset) c₀ ∧
      ∀ input' left' offset', ret (refillImage bl flash xzAddr input left offset) c₀ =
          some (input', left', offset') →
        Unread c₀ flash xzAddr rest input' left' offset' ∧ input' <+: rest ∧
          offset ≤ offset' ∧ offset' + left' = offset + left := by
  obtain ⟨hrest, hmem, hsize⟩ := h
  unfold refillImage
  split
  · refine ⟨rfl, fun input' left' offset' heq => ?_⟩
    cases heq
    exact ⟨⟨hrest, hmem, hsize⟩, ⟨_, hrest.symm⟩, Nat.le_refl _, rfl⟩
  split
  · exact ⟨rfl, nofun⟩
  rename_i hempty hleft
  have hnil : input = [] := Decidable.not_not.mp hempty
  generalize hn : (if left > blDecImgInbufSize then blDecImgInbufSize else left) = n
  have hle : n ≤ left := by
    split at hn <;> omega
  have hpos : 0 < n := by
    unfold blDecImgInbufSize at hn
    split at hn <;> omega
  have haddr : u32 (xzAddr + offset) = xzAddr + offset := u32_of_lt (by omega)
  simp only [ret_bind, haddr, post_flashRead]
  refine ⟨?_, fun input' left' offset' heq => ?_⟩
  · rw [ret_flashRead_congr fun a h1 h2 => hsame a h1 (by omega)]
    cases ret (flashRead bl.board flash (xzAddr + offset) n) c₀ <;> rfl
  · rcases ret_flashRead_cases bl.board flash (xzAddr + offset) n c₀ with hr | hr
    · rw [hr] at heq
      cases heq
    · rw [hr] at heq
      cases heq
      have hoff : u32 (offset + n) = offset + n := u32_of_lt (by omega)
      have hsplit := readCells_append c₀ flash (xzAddr + offset) n (left - n)
      rw [Nat.add_sub_cancel' hle] at hsplit
      rw [hnil, List.nil_append] at hrest
      rw [hoff]
      refine ⟨⟨?_, by omega, by omega⟩, ⟨_, (hrest.trans hsplit).symm⟩, by omega, by omega⟩
      rw [hrest, hsplit, Nat.add_assoc]

/-- The decoder has taken some of its input. -/
theorem Unread.take {taken : Nat} (h : Unread c₀ flash xzAddr rest input left offset)
    (ht : taken ≤ input.length) :
    Unread c₀ flash xzAddr (rest.drop taken) (input.drop taken) left offset where
  rest := by rw [h.rest, List.drop_append_of_le_length ht]
  memory := h.memory
  size := h.size

/-! ## The output -/

theorem flashWrite_area {board : Board} {addr size address : Nat} {data : List Byte}
    (h : Inside board flash addr size) (hle : address + data.length ≤ addr + size) :
    ret (flashWrite board flash address data) c = data.length ∧
      Pieces flash address data (trace (flashWrite board flash address data) c) := by
  by_cases hd : data = []
  · subst hd
    rw [flashWrite, ret_bind, trace_bind, halFlashWrite]
    cases board flash with
    | none => exact ⟨rfl, .nil _⟩
    | some chip => exact ⟨rfl, .nil _⟩
  · exact flashWrite_spec h address data hle hd c

/-- All the calls of `flash_write` are for the slot. -/
def InSlot (imageAddr max : Nat) (steps : List XzStep) : Prop :=
  ∀ step ∈ steps, imageAddr ≤ step.addr ∧ step.addr + step.out.length ≤ imageAddr + max

/-- What the loop did with output that the slot has room for. -/
structure Unpacks (flash addr : Nat) (rest output : List Byte) (steps : List XzStep) : Prop where
  fed : Fed rest steps
  outs : steps.flatMap (·.out) = output
  pieces : Pieces flash addr output (steps.flatMap (·.writes))

theorem Unpacks.nil {addr : Nat} : Unpacks flash addr rest [] [] := ⟨trivial, rfl, .nil _⟩

theorem inSlot_cons {step : XzStep} {steps : List XzStep} :
    InSlot imageAddr max (step :: steps) ↔ (imageAddr ≤ step.addr ∧
      step.addr + step.out.length ≤ imageAddr + max) ∧ InSlot imageAddr max steps :=
  List.forall_mem_cons

/-- Whether the output fits, and what was done with it. -/
structure Fits (flash imageAddr max pos : Nat) (rest output : List Byte) (steps : List XzStep) :
    Prop where
  inSlot : InSlot imageAddr max steps ↔ pos + output.length ≤ max
  unpacks : pos + output.length ≤ max → Unpacks flash (imageAddr + pos) rest output steps

theorem Fits.nil (h : pos ≤ max) : Fits flash imageAddr max pos rest [] [] :=
  ⟨iff_of_true nofun h, fun _ => .nil⟩

section

variable {given out output : List Byte} {taken : Nat} {xzret : XzRet} {writes : List Write}
  {steps : List XzStep}

theorem Unpacks.cons {addr step : Nat} (hgiven : given <+: rest) (htaken : taken ≤ given.length)
    (hpieces : Pieces flash addr out writes)
    (h : Unpacks flash (addr + out.length) (rest.drop taken) output steps) :
    Unpacks flash addr rest (out ++ output) (⟨given, taken, xzret, step, out, writes⟩ :: steps) where
  fed := ⟨hgiven, htaken, h.fed⟩
  outs := by rw [List.flatMap_cons, h.outs]
  pieces := hpieces.append h.pieces

/-- A write that fits. -/
theorem Fits.cons (hgiven : given <+: rest) (htaken : taken ≤ given.length)
    (hpieces : Pieces flash (imageAddr + pos) out writes)
    (h : Fits flash imageAddr max (pos + out.length) (rest.drop taken) output steps) :
    Fits flash imageAddr max pos rest (out ++ output)
      (⟨given, taken, xzret, imageAddr + pos, out, writes⟩ :: steps) where
  inSlot := by
    rw [inSlot_cons, h.inSlot, List.length_append]
    constructor
    · intro h
      have := h.2
      omega
    · intro h
      refine ⟨⟨Nat.le_add_right .., ?_⟩, by omega⟩
      dsimp only
      omega
  unpacks hle := by
    rw [List.length_append] at hle
    refine .cons hgiven htaken hpieces ?_
    rw [Nat.add_assoc]
    exact h.unpacks (by omega)

/-- A write that does not fit. -/
theorem Fits.over (hpos : max < pos + out.length) :
    Fits flash imageAddr max pos rest (out ++ output)
      (⟨given, taken, xzret, imageAddr + pos, out, writes⟩ :: steps) where
  inSlot := by
    rw [inSlot_cons, List.length_append]
    refine iff_of_false (fun h => ?_) (by omega)
    have hle := h.1.2
    dsimp only at hle
    omega
  unpacks hle := by
    rw [List.length_append] at hle
    omega

end

/-- The loop from any point on, with the cells `c₀` at its start. -/
theorem fits_xzLoop (hlaw : bl.xz.Lawful) (hslot : Inside bl.board flash imageAddr max)
    (hunread : Unread c₀ flash xzAddr rest input left offset)
    (hsame : Untouched c₀ c flash (xzAddr + offset) (xzAddr + offset + left))
    (hapart : ∀ a, imageAddr ≤ a → a < imageAddr + max →
      ¬(xzAddr + offset ≤ a ∧ a < xzAddr + offset + left)) (hpos : pos ≤ max) :
    Fits flash imageAddr max pos rest (xzOutput bl flash xzAddr fuel s input left offset c₀)
      (xzSteps bl flash xzAddr imageAddr fuel s input left offset pos c) := by
  have hmax := hslot.lt
  induction fuel generalizing s input left offset pos rest c with
  | zero => exact .nil hpos
  | succ fuel ih =>
    obtain ⟨hret, hnext⟩ := hunread.refill hsame
    rw [xzSteps, xzOutput, hret]
    cases hrefill : ret (refillImage bl flash xzAddr input left offset) c₀ with
    | none => exact .nil hpos
    | some r =>
      obtain ⟨input', left', offset'⟩ := r
      obtain ⟨hunread', hprefix, hoff, hend⟩ := hnext _ _ _ hrefill
      have htaken := hlaw.taken s input' blDecImgOutbufSize
      have haddr : u32 (imageAddr + pos) = imageAddr + pos := u32_of_lt (by omega)
      dsimp only
      rw [haddr]
      rcases hrun : bl.xz.run s input' blDecImgOutbufSize with ⟨s', taken, out, xzret⟩
      rw [hrun] at htaken
      cases xzret with
      | error =>
        have herror : Fits flash imageAddr max pos rest ([] ++ [])
            [⟨input', taken, .error, imageAddr + pos, [], []⟩] :=
          .cons hprefix htaken (.nil _) (.nil hpos)
        exact herror
      | streamEnd =>
        dsimp only
        rw [if_pos rfl, if_pos rfl, ite_self]
        rcases Nat.lt_or_ge max (pos + out.length) with hover | hfit
        · exact .over hover
        · obtain ⟨-, hpieces⟩ := flashWrite_area (c := c) hslot
            (show imageAddr + pos + out.length ≤ imageAddr + max by omega)
          exact .cons hprefix htaken hpieces (.nil hfit)
      | ok =>
        dsimp only
        rcases Nat.lt_or_ge max (pos + out.length) with hover | hfit
        · exact .over hover
        · obtain ⟨hall, hpieces⟩ := flashWrite_area (c := c) hslot
            (show imageAddr + pos + out.length ≤ imageAddr + max by omega)
          rw [if_neg (not_not.mpr hall), if_neg nofun, if_neg nofun, u32_of_lt (by omega)]
          refine .cons hprefix htaken hpieces (ih (hunread'.take htaken) ?_ ?_ hfit)
          · intro a h1 h2
            rw [post, applyAll_frame hpieces.confined fun hin => hapart a (by omega) (by omega)
              ⟨by omega, by omega⟩]
            exact hsame a (by omega) (by omega)
          · exact fun a h1 h2 hin => hapart a h1 h2 ⟨by omega, by omega⟩

end

/-! ## The whole function -/

section

variable {bl : BlConfig} {fuel seq : Nat} {img : ImagePriv} {c : Cells}

/-- The address of the compressed image. -/
def otaXzAddr (iop : OtaParam) : Nat := u32 (iop.otaAddr + iop.otaSize + imageHeaderSize)

/-- `bl_xz_image` reaches its loop: there is a compressed image of `bodyLen` bytes, a decoder in
its first state `s`, a bootloader, and slot 0 has been erased. -/
structure XzStart (bl : BlConfig) (fuel seq : Nat) (img : ImagePriv) (c : Cells) (bodyLen : Nat)
    (s : bl.xz.State) : Prop where
  header : ∃ bytes, ret (flashRead bl.board (img.iop.flash seq)
      (u32 (img.iop.otaAddr + img.iop.otaSize)) imageHeaderSize) c = some bytes ∧
    (SectionHeader.decode bytes).hasFlag imageAttrFlagCompress ∧
    bodyLen = (SectionHeader.decode bytes).bodyLen
  decoder : bl.xz.init blDecImgDictMax = some s
  boot : ∃ bytes img', Flow.Returns (imageRead bl.board fuel imageBootId .header 0 imageHeaderSize)
    { img with iop := { img.iop with runningSeq := 0 } } c (some bytes) img'
  erased : ret (flashErase bl.board (img.iop.flash seq) (img.iop.addr 0)
    (imageAreaSize img.iop.imgMaxSize)) c = true

/-- The calls of the loop of `bl_xz_image`. -/
def xzImageSteps (bl : BlConfig) (fuel seq : Nat) (img : ImagePriv) (c : Cells) (bodyLen : Nat)
    (s : bl.xz.State) : List XzStep :=
  xzSteps bl (img.iop.flash seq) (otaXzAddr img.iop) (img.iop.addr 0) fuel s [] bodyLen 0 0
    (post (flashErase bl.board (img.iop.flash seq) (img.iop.addr 0)
      (imageAreaSize img.iop.imgMaxSize)) c)

/-- The commands of `bl_xz_image` are those of the erase, of the loop, and of the configuration at
the end. -/
theorem trace_blXzImage {bodyLen : Nat} {s : bl.xz.State}
    (h : XzStart bl fuel seq img c bodyLen s) :
    ∃ rest, trace (blXzImage bl fuel seq img) c =
        trace (flashErase bl.board (img.iop.flash seq) (img.iop.addr 0)
          (imageAreaSize img.iop.imgMaxSize)) c ++
        ((xzImageSteps bl fuel seq img c bodyLen s).flatMap (·.writes) ++ rest) ∧
      (rest = [] ∨ ∃ iop c', rest = trace (imageSetCfg bl.board iop ⟨0, .verified⟩) c') := by
  obtain ⟨bytes, hread, hflag, rfl⟩ := h.header
  obtain ⟨boot, img', hboot⟩ := h.boot
  have hquiet : Quiet (imageRead bl.board fuel imageBootId .header 0 imageHeaderSize
      { img with iop := { img.iop with runningSeq := 0 } }) := (quiet_imageRead ..).run _
  have herased := h.erased
  unfold Flow.Returns at hboot
  unfold blXzImage
  simp only [trace_bind, trace_flashRead, post_flashRead, hread, List.nil_append, hflag,
    not_true, if_false, h.decoder, hquiet.trace, hquiet.post, hboot, herased, Bool.not_true,
    Bool.false_eq_true, trace_xzLoop]
  refine ⟨_, rfl, ?_⟩
  generalize ret (xzLoop bl _ _ _ _ _ _ _ _ _) _ = r
  cases r with
  | none => exact .inl rfl
  | some u =>
    simp only [trace_bind, quiet_imageCheckSections.trace, quiet_imageCheckSections.post,
      List.nil_append]
    generalize ret (imageCheckSections _ _ _ _ _) _ = val
    cases val with
    | none => exact .inl rfl
    | some val =>
      cases val with
      | invalid => exact .inl rfl
      | valid =>
        dsimp only
        rw [trace_bind]
        exact .inr ⟨img'.iop, _, List.append_nil _⟩

/-- The compressed image lies in the memory of the flash, apart from slot 0. -/
structure XzLayout (bl : BlConfig) (seq bodyLen : Nat) (iop : OtaParam) : Prop where
  slot : Inside bl.board (iop.flash seq) (iop.addr 0) (imageAreaSize iop.imgMaxSize)
  memory : otaXzAddr iop + bodyLen ≤ 2 ^ 32
  apart : ∀ a, iop.addr 0 ≤ a → a < iop.addr 0 + imageAreaSize iop.imgMaxSize →
    ¬(otaXzAddr iop ≤ a ∧ a < otaXzAddr iop + bodyLen)

theorem XzStart.bodyLen_lt {bodyLen : Nat} {s : bl.xz.State}
    (h : XzStart bl fuel seq img c bodyLen s) : bodyLen < 2 ^ 32 := by
  obtain ⟨bytes, -, -, rfl⟩ := h.header
  exact field_lt bytes 24 4

/-- Every write is for slot 0; with the end of the stream all the output has been written and all
input came from the compressed image, in order and once. This is so just when the decoder puts out
no more for that image than slot 0 holds. -/
theorem xz_image_fits {bodyLen : Nat} {s : bl.xz.State} (hlaw : bl.xz.Lawful)
    (hlayout : XzLayout bl seq bodyLen img.iop) (h : XzStart bl fuel seq img c bodyLen s) :
    ∃ steps body rest, steps = xzImageSteps bl fuel seq img c bodyLen s ∧
      body = readCells c (img.iop.flash seq) (otaXzAddr img.iop) bodyLen ∧
      trace (blXzImage bl fuel seq img) c =
        trace (flashErase bl.board (img.iop.flash seq) (img.iop.addr 0)
          (imageAreaSize img.iop.imgMaxSize)) c ++ (steps.flatMap (·.writes) ++ rest) ∧
      (rest = [] ∨ ∃ iop c', rest = trace (imageSetCfg bl.board iop ⟨0, .verified⟩) c') ∧
      (InSlot (img.iop.addr 0) (imageAreaSize img.iop.imgMaxSize) steps ∧
          ((∃ step ∈ steps, step.ret = .streamEnd) → Fed body steps ∧
            Pieces (img.iop.flash seq) (img.iop.addr 0) (steps.flatMap (·.out))
              (steps.flatMap (·.writes))) ↔
        (xzOutput bl (img.iop.flash seq) (otaXzAddr img.iop) fuel s [] bodyLen 0 c).length ≤
          imageAreaSize img.iop.imgMaxSize) := by
  obtain ⟨rest, htrace, hrest⟩ := trace_blXzImage h
  refine ⟨_, _, rest, rfl, rfl, htrace, hrest, ?_⟩
  have hunread : Unread c (img.iop.flash seq) (otaXzAddr img.iop)
      (readCells c (img.iop.flash seq) (otaXzAddr img.iop) bodyLen) [] bodyLen 0 :=
    ⟨rfl, hlayout.memory, by have := h.bodyLen_lt; omega⟩
  have hsame : Untouched c (post (flashErase bl.board (img.iop.flash seq) (img.iop.addr 0)
      (imageAreaSize img.iop.imgMaxSize)) c) (img.iop.flash seq) (otaXzAddr img.iop + 0)
      (otaXzAddr img.iop + 0 + bodyLen) := fun a h1 h2 =>
    applyAll_frame (confined_flashErase hlayout.slot c) fun hin =>
      hlayout.apart a hin.2.1 hin.2.2 ⟨h1, h2⟩
  have hfits : Fits _ _ _ 0 _ _ (xzImageSteps bl fuel seq img c bodyLen s) :=
    fits_xzLoop hlaw hlayout.slot hunread hsame hlayout.apart (Nat.zero_le _)
  rw [← Nat.zero_add (xzOutput ..).length]
  constructor
  · intro hin
    exact hfits.inSlot.mp hin.1
  · intro hle
    have hun := hfits.unpacks hle
    refine ⟨hfits.inSlot.mpr hle, fun _ => ⟨hun.fed, ?_⟩⟩
    rw [hun.outs]
    exact hun.pieces

end

/-! ## A slot of 4 KiB -/

/-- A decoder that fills the buffer `n` times and then puts out one byte at a time. -/
def fillDec (n : Nat) : XzDec where
  State := Nat
  init _ := some n
  run
    | 0, input, room => (0, min 1 input.length, List.replicate (min 1 room) 0, .streamEnd)
    | n + 1, input, room => (n, min 1 input.length, List.replicate room 0, .ok)

theorem fillDec_lawful (n : Nat) : (fillDec n).Lawful where
  taken s input room := by
    cases s with
    | zero => exact Nat.min_le_right ..
    | succ s => exact Nat.min_le_right ..
  room s input room := by
    cases s with
    | zero => exact Nat.le_of_eq (List.length_replicate ..) |>.trans (Nat.min_le_right ..)
    | succ s => exact Nat.le_of_eq (List.length_replicate ..)

def fillBl (n : Nat) : BlConfig where
  board := oneChip
  imgFlash := 0
  imgAddr := 0
  ramBase := 0
  binCompress := false
  secureBoot := false
  appXipBinVerify := false
  appPsramBinVerify := false
  xz := fillDec n
  sha256 := fun _ => []
  uEccVerify := fun _ _ _ => false

/-- Slot 0 behind a bootloader of 16 KiB, the compressed image of 8 bytes in slot 1. -/
def fillImg : ImagePriv where
  iop :=
    { otaFlash := 0, otaSize := 0x1000, otaAddr := 0x10000, imgMaxSize := 4, imgXzMaxSize := 4,
      blSize := 0x4000, runningSeq := 1, flash := fun _ => 0,
      addr := fun seq => if seq = 0 then 0x4000 else 0x11000 }
  secAddr := fun _ => []

/-- The bytes of the two headers that are looked at. -/
def fillCells : Cells := fun _ a =>
  if a < 64 then (leBytes 36 0 ++ leBytes 4 imageBootId ++ leBytes 24 0).getD a blank
  else (leBytes 24 0 ++ leBytes 4 8 ++ leBytes 4 imageAttrFlagCompress).getD (a - 0x11000) blank

theorem fillStart (n : Nat) : XzStart (fillBl n) 3 1 fillImg fillCells 8 n where
  header := ⟨_, rfl, by decide, by decide⟩
  decoder := rfl
  boot := ⟨_, _, rfl⟩
  erased := show ret (flashErase oneChip 0 0x4000 4096) fillCells = true by decide

theorem fillLayout (n : Nat) : XzLayout (fillBl n) 1 8 fillImg.iop where
  slot := ⟨_, rfl, by decide, by decide⟩
  memory := by decide
  apart := by
    intro a h1 h2 h3
    have hend : a < 0x5000 := h2
    have hstart : 0x11040 ≤ a := h3.1
    omega

theorem xz_image_fits_small :
    InSlot 0x4000 4096 (xzImageSteps (fillBl 0) 3 1 fillImg fillCells 8 (0 : Nat)) := by
  obtain ⟨steps, body, rest, rfl, -, -, -, hiff⟩ :=
    xz_image_fits (fillDec_lawful 0) (fillLayout 0) (fillStart 0)
  exact (hiff.mpr (by decide)).1

set_option maxRecDepth 100000 in
/-- One byte more than slot 0 holds is programmed behind it. -/
theorem slot_overrun : XzStart (fillBl 1) 3 1 fillImg fillCells 8 (1 : Nat) ∧
    .program 0 0x5000 [0] ∈ trace (blXzImage (fillBl 1) 3 1 fillImg) fillCells := by
  refine ⟨fillStart 1, ?_⟩
  decide

end Boot
end XR806

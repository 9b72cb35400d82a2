import XR806.Boot.Uncompress
import XR806.Trans.Run

/-!
# XR806.Boot.Select

Which sequence the next boot selects after `image_set_cfg` calls, each of them completed or cut.
The application asks `image_init_running_seq`, the bootloader `bl_uncompress_image`; both take
the stored sequence, and 0 when there is none. So a cut call leaves the old sequence, the new one, or the
default 0 (`boot_selects`); it does lose a stored 1 that way, even when 1 is stored again
(`stored_one_lost`).
-/

namespace XR806
namespace Boot

open Nor Flash Image

/-- A call of `image_set_cfg` with a valid argument; a cut may fall anywhere, also behind its last
command. -/
def SetCfg (g : Grain) (board : Board) (iop : OtaParam) (c : Cells) (seq : Nat) (c' : Cells) :
    Prop := seq < imageSeqNum ∧ Cut g (imageSetCfg board iop ⟨seq, .verified⟩) c c'

section

variable {bl : BlConfig} {iop : OtaParam} {g : Grain} {c₀ c c' : Cells} {seq : Nat}

theorem blCfgSeq_eq (c : Cells) :
    blCfgSeq (ret (imageGetCfg bl.board iop) c) = (storedSeq bl.board iop c).getD imageSeqNum := by
  unfold blCfgSeq storedSeq
  cases ret (imageGetCfg bl.board iop) c with
  | none => rfl
  | some cfg =>
    obtain ⟨seq, state⟩ := cfg
    cases state <;> rfl

/-- `bl_uncompress_image` loads the stored sequence, or 0. -/
theorem blUncompressImage_selects {fuel cSeq lSeq : Nat} {img img' : ImagePriv}
    (hinit : ret (imageInit bl.board bl.imgFlash bl.imgAddr) c = some iop)
    (h : ret (blUncompressImage bl fuel 0 0 img) c = some (.ok cSeq lSeq, img')) :
    lSeq = (storedSeq bl.board iop c).getD 0 ∨ lSeq = 0 := by
  have hquiet : Quiet (imageInit bl.board bl.imgFlash bl.imgAddr) := quiet_imageInit ..
  simp only [blUncompressImage, hquiet.ret_bind, hinit] at h
  split at h
  · cases h
    exact .inr rfl
  rw [quiet_imageGetCfg.ret_bind, blCfgSeq_eq] at h
  have hload : (if (storedSeq bl.board iop c).getD imageSeqNum = imageSeqNum then 0
      else (storedSeq bl.board iop c).getD imageSeqNum) = (storedSeq bl.board iop c).getD 0 ∨
      (if (storedSeq bl.board iop c).getD imageSeqNum = imageSeqNum then 0
      else (storedSeq bl.board iop c).getD imageSeqNum) = 0 := by
    split
    · exact .inr rfl
    · rename_i hne
      cases hs : storedSeq bl.board iop c with
      | none => rw [hs] at hne; exact absurd rfl hne
      | some s => exact .inl rfl
  split at h
  · simp only [ret_bind] at h
    split at h
    · cases h
    · split at h
      · cases h
        exact .inr rfl
      · split at h
        · cases h
          exact hload
        · cases h
  · cases h
    exact hload

theorem SetCfg.tidy (hin : Inside bl.board iop.otaFlash iop.otaAddr iop.otaSize)
    (ht : Tidy iop.cfgArea rawCfgSize c) (h : SetCfg g bl.board iop c seq c') :
    Tidy iop.cfgArea rawCfgSize c' := (imageSetCfg_cut hin ht h.2).1

/-- The header of the bootloader is not in the configuration area. -/
def HeaderApart (bl : BlConfig) (iop : OtaParam) : Prop :=
  ∀ a, bl.imgAddr ≤ a → a < bl.imgAddr + imageHeaderSize →
    ¬InArea iop.otaFlash iop.otaAddr iop.otaSize bl.imgFlash a

theorem SetCfg.header (hin : Inside bl.board iop.otaFlash iop.otaAddr iop.otaSize)
    (hapart : HeaderApart bl iop) (h : SetCfg g bl.board iop c seq c') {a : Nat}
    (h1 : bl.imgAddr ≤ a) (h2 : a < bl.imgAddr + imageHeaderSize) :
    c' bl.imgFlash a = c bl.imgFlash a :=
  (within_imageSetCfg hin).cut h.2 (hapart a h1 h2)

theorem boot_selects (hinit : ret (imageInit bl.board bl.imgFlash bl.imgAddr) c₀ = some iop)
    (hin : Inside bl.board iop.otaFlash iop.otaAddr iop.otaSize) (hapart : HeaderApart bl iop)
    (htidy : Tidy iop.cfgArea rawCfgSize c₀) {seqs : List Nat}
    (hrun : Trans.Run (SetCfg g bl.board iop) c₀ seqs c) :
    (∀ c', SetCfg g bl.board iop c seq c' →
      ret (imageInitRunningSeq bl.board iop) c' ∈
          [ret (imageInitRunningSeq bl.board iop) c, seq, 0] ∧
        ∀ fuel cSeq lSeq img img',
          ret (blUncompressImage bl fuel 0 0 img) c' = some (.ok cSeq lSeq, img') →
          lSeq ∈ [ret (imageInitRunningSeq bl.board iop) c, seq, 0]) ∧
      (ret (imageSetCfg bl.board iop ⟨seq, .verified⟩) c = true →
        ret (imageGetCfg bl.board iop) (post (imageSetCfg bl.board iop ⟨seq, .verified⟩) c) =
          some ⟨seq, .verified⟩) := by
  refine ⟨fun c' hcut => ?_, imageSetCfg_stored⟩
  obtain ⟨htidy', hheader⟩ : Tidy iop.cfgArea rawCfgSize c ∧ ∀ a, bl.imgAddr ≤ a →
      a < bl.imgAddr + imageHeaderSize → c bl.imgFlash a = c₀ bl.imgFlash a := by
    refine hrun.invariant (I := fun c => Tidy iop.cfgArea rawCfgSize c ∧ ∀ a, bl.imgAddr ≤ a →
      a < bl.imgAddr + imageHeaderSize → c bl.imgFlash a = c₀ bl.imgFlash a) ?_ ?_
    · exact ⟨htidy, fun a _ _ => rfl⟩
    · intro c s c' ⟨ht, hh⟩ hs
      exact ⟨hs.tidy hin ht, fun a h1 h2 => (hs.header hin hapart h1 h2).trans (hh a h1 h2)⟩
  have hold : (storedSeq bl.board iop c').getD 0 ∈
      [ret (imageInitRunningSeq bl.board iop) c, seq, 0] := by
    rw [ret_imageInitRunningSeq c]
    rcases (imageSetCfg_cut hin htidy' hcut.2).2 with hs | hs | hs <;> simp [hs]
  refine ⟨by rw [ret_imageInitRunningSeq c']; exact hold, fun fuel cSeq lSeq img img' hl => ?_⟩
  have hinit' := imageInit_congr (fun a h1 h2 =>
    (hcut.header hin hapart h1 h2).trans (hheader a h1 h2)) hinit
  rcases blUncompressImage_selects hinit' hl with h | h
  · rw [h, storedSeq_running]
    exact hold
  · simp [h]

end

/-! ## The default -/

/-- A device whose bootloader header leaves everything to the defaults: the OTA area of 4K is at
1 MB, the images are of 4K. -/
def plainHeader : List Byte :=
  leBytes 4 imageMagicNumber ++ leBytes 4 0 ++ leBytes 24 0 ++ leBytes 4 0x1000 ++
    leBytes 4 imageBootId ++ leBytes 8 0 ++ leBytes 4 0xFFFF0008 ++ leBytes 12 0

def plainCells : Cells := fun _ a => plainHeader.getD a blank

/-- A bootloader for images that are neither compressed nor signed. -/
def plainBl : BlConfig where
  board := oneChip
  imgFlash := 0
  imgAddr := 0
  ramBase := 0x20000
  binCompress := false
  secureBoot := false
  appXipBinVerify := false
  appPsramBinVerify := false
  xz := ⟨Unit, fun _ => none, fun s _ _ => (s, 0, [], .error)⟩
  sha256 := fun _ => []
  uEccVerify := fun _ _ _ => false

/-- The parameters `image_init` finds there. -/
def plainOta : OtaParam :=
  { otaParamOf 0 0 (SectionHeader.decode (readCells plainCells 0 0 imageHeaderSize)) with
    runningSeq := 0 }

theorem tidy_plainCells : Tidy plainOta.cfgArea rawCfgSize plainCells :=
  .of_blank fun a h1 _ => by
    have ha : 64 ≤ a := Nat.le_trans (by decide) h1
    have hlen : plainHeader.length ≤ a := Nat.le_trans (by decide) ha
    exact List.getD_eq_default _ _ hlen

/-- Slot 1 stored, on the plain device. -/
def plainStored : Cells := post (imageSetCfg oneChip plainOta ⟨1, .verified⟩) plainCells

theorem setCfg_plainStored : Trans.Run (SetCfg .op oneChip plainOta) plainCells [1] plainStored :=
  .single ⟨by decide, Cut.finish ..⟩

theorem one_selected_again : ret (imageInitRunningSeq oneChip plainOta)
    (post (imageSetCfg oneChip plainOta ⟨1, .verified⟩) plainStored) ∈
      [ret (imageInitRunningSeq oneChip plainOta) plainStored, 1, 0] := by
  have hinit : ret (imageInit plainBl.board plainBl.imgFlash plainBl.imgAddr) plainCells =
      some plainOta := by
    have hread : ret (flashRead oneChip 0 0 imageHeaderSize) plainCells =
        some (readCells plainCells 0 0 imageHeaderSize) :=
      ret_flashRead ⟨_, rfl, by decide, by decide⟩ (by decide) _
    have hstored : storedSeq oneChip
        (otaParamOf 0 0 (SectionHeader.decode (readCells plainCells 0 0 imageHeaderSize)))
        plainCells = none := by decide
    rw [ret_imageInit, plainBl, hread, Option.bind_some, if_neg (by decide), hstored]
    rfl
  have hapart : HeaderApart plainBl plainOta := by
    rintro a - h2 ⟨-, h3, -⟩
    have h4 : 0x100000 ≤ a := Nat.le_trans (by decide) h3
    have h5 : a < 64 := h2
    omega
  exact ((boot_selects hinit ⟨_, rfl, by decide, by decide⟩ hapart
    tidy_plainCells setCfg_plainStored).1 _ ⟨by decide, Cut.finish ..⟩).1

/-- Storing 1 over a stored 1, cut between the bitmap bit and the slot, boots slot 0. -/
theorem stored_one_lost : ret (imageInitRunningSeq oneChip plainOta) plainStored = 1 ∧
    ∃ c', SetCfg .op oneChip plainOta plainStored 1 c' ∧
      ret (imageInitRunningSeq oneChip plainOta) c' = 0 := by
  have htrace : trace (imageSetCfg oneChip plainOta ⟨1, .verified⟩) plainStored =
      [.program 0 0x100008 [0xFC], .program 0 0x100088 (rawOfSeq 1)] := by decide
  refine ⟨by decide, programCells plainStored 0 0x100008 [0xFC], ⟨by decide, ?_⟩,
    by decide⟩
  rw [Cut, htrace]
  exact .inr (.inr (.inl rfl))

end Boot
end XR806

import XR806.Image.CfgCut
import XR806.Ota.Download
import XR806.Ota.Verify
import XR806.Trans.Run

/-!
# XR806.Ota.PingPong

A device with two slots over sessions, verifications, resets and power cuts. The bootloader starts
the slot that the configuration names; a session writes the one that does not run.

* `boots_complete`: the device boots from a slot whose sections are valid, at whatever write the
  power goes, as long as a session is started only while the slot that runs is the one that boots
  next (`Careful`).
* `session_before_reset`: a session that is started between the acceptance of an image and the reset
  erases that image, and the configuration goes on naming it.

Every request of the flash driver is granted. Failing drivers are in `XR806.Ota.Download`.
-/

namespace XR806
namespace Ota

open Nor Flash Image

/-- `image_priv` and `ota_priv`, which are lost when the power goes. -/
structure Ram where
  param : OtaParam
  ota : OtaState

structure Device where
  /-- `none` when the device is off. -/
  ram : Option Ram
  cells : Cells

/-- The calls of an application. -/
inductive Op where
  | pushInit
  | pushStart
  | pushData (data : List Byte)
  | pushFinish (fuel : Nat)
  | pushStop
  | setSkipSize (skipSize : Int)
  | getImage (fuel : Nat) (initOk : Bool) (replies : List Reply)
  | verifyImage (verify : Nat) (value : Option (List Byte))

inductive Act where
  | boot
  | call (op : Op)
  | cut (op : Op)

section

variable (board : Board) (digest : Verify → List Byte → List Byte) (g : Grain) (flash addr : Nat)

def Op.flow (param : OtaParam) : Op → Flow OtaState Bool
  | .pushInit => otaPushInit .pingpong param
  | .pushStart => otaPushStart board .pingpong
  | .pushData data => otaPushData board .pingpong data
  | .pushFinish fuel => otaPushFinish board digest fuel
  | .pushStop => do
    otaDeinit
    pure true
  | .setSkipSize skipSize => do
    otaSetSkipSize skipSize
    pure true
  | .getImage fuel initOk replies => otaGetImage board .pingpong param fuel initOk replies
  | .verifyImage verify value => otaVerifyImage board digest verify value

/-- A reset at any time, a call that returns, and one during which the power goes. The bootloader is
at `addr` of the device `flash`. -/
inductive Step : Device → Act → Device → Prop
  | boot (d : Device) (param : OtaParam)
    (hinit : ret (imageInit board flash addr) d.cells = some param) :
    Step d .boot ⟨some ⟨param, ⟨none, 0, -1⟩⟩, d.cells⟩
  | call (d : Device) (ram : Ram) (op : Op) (a : Bool) (ota : OtaState) (hram : d.ram = some ram)
    (hrun : Flow.Returns (op.flow board digest ram.param) ram.ota d.cells a ota) :
    Step d (.call op) ⟨some { ram with ota }, post (op.flow board digest ram.param ram.ota) d.cells⟩
  | cut (d : Device) (ram : Ram) (op : Op) (c : Cells) (hram : d.ram = some ram)
    (hcut : Cut g (op.flow board digest ram.param ram.ota) d.cells c) :
    Step d (.cut op) ⟨none, c⟩

end

/-! ## Where a session writes -/

/-- The area of a slot. -/
def InSlot (iop : OtaParam) (seq : Nat) : Nat → Nat → Prop :=
  InArea (iop.flash seq) (iop.addr seq) (imageAreaSize iop.imgMaxSize)

def InCfg (iop : OtaParam) : Nat → Nat → Prop := InArea iop.otaFlash iop.otaAddr iop.otaSize

/-- The slots, the configuration and the bootloader's header are apart. -/
structure Layout (board : Board) (flash addr : Nat) (iop : OtaParam) : Prop where
  slot : ∀ seq < imageSeqNum,
    ErasableArea board (iop.flash seq) (iop.addr seq) (imageAreaSize iop.imgMaxSize)
  cfg : EraseArea board iop.otaFlash iop.otaAddr iop.otaSize
  cfgApart : ∀ seq < imageSeqNum, ∀ d a, InSlot iop seq d a → ¬InCfg iop d a
  headerApart : ∀ a, addr ≤ a → a < addr + imageHeaderSize →
    (∀ seq < imageSeqNum, ¬InSlot iop seq flash a) ∧ ¬InCfg iop flash a
  bl : 0 < iop.blSize ∧ iop.blSize < 2 ^ 31
  /-- The size in KiB is a field of 16 bits. -/
  max : imageAreaSize iop.imgMaxSize < 2 ^ 26

/-- What keeps the bytes of a session in the slot: the next one goes behind `get_size`, less
`ota_skip_size`. -/
structure Counts (iop : OtaParam) (s : OtaState) : Prop where
  param : s.iop = none ∨ s.iop = some iop
  skip : s.skipSize < 2 ^ 31
  size : s.getSize = 0 ∨
    0 ≤ s.skipSize ∧ s.getSize ≤ s.skipSize.toNat + imageAreaSize iop.imgMaxSize

/-- The other slot. -/
def otherSeq (seq : Nat) : Nat := 1 - seq

section

variable {board : Board} {flash addr : Nat} {iop : OtaParam} {s : OtaState} {seq skip max : Nat}
  {c : Cells}

/-- A session writes the slot that does not run. -/
theorem Layout.slotOf (h : Layout board flash addr iop) (hrun : iop.runningSeq < imageSeqNum) :
    otherSeq iop.runningSeq < imageSeqNum ∧ Slot board .pingpong iop (otherSeq iop.runningSeq) := by
  have hother : otherSeq iop.runningSeq < imageSeqNum := by
    unfold otherSeq imageSeqNum
    omega
  have hpos : 4096 ≤ imageAreaSize iop.imgMaxSize :=
    EraseArea.size_ge (h := ⟨_, _, _⟩) (h.slot _ hother).toEraseArea
  have hbl := h.bl.1
  refine ⟨hother, ?_, nofun, h.max, h.slot _ hother⟩
  rw [otaGetUpdateSeq, if_neg (by omega)]
  unfold imageSeqNum at hrun
  rcases hseq : iop.runningSeq with _ | _ | n
  · rfl
  · rfl
  · omega

theorem uint32_eq {z : Int} (h : 0 ≤ z) (h' : z < 2 ^ 31) : uint32 z = z.toNat := by
  unfold uint32
  omega

/-- Where the next bytes go. -/
theorem next_address {a n k : Nat} (h : a + max < 2 ^ 32) (hk : k ≤ n) (hn : n ≤ k + max)
    (hlt : k + max < 2 ^ 32) : sub32 (u32 (a + n)) k = a + (n - k) := by
  unfold sub32 u32
  split <;> omega

/-- A session that has counted so many bytes. -/
structure Session (iop : OtaParam) (skip size : Nat) (s : OtaState) : Prop where
  param : s.iop = some iop
  nonneg : 0 ≤ s.skipSize
  skipped : s.skipSize.toNat = skip
  lt : skip < 2 ^ 31
  size : s.getSize = size

theorem Session.compare (h : Session iop skip max s) : uint32 s.skipSize = skip := by
  have hlt := h.lt
  rw [← h.skipped] at hlt ⊢
  exact uint32_eq h.nonneg (by omega)

theorem Session.counts {size : Nat} (h : Session iop skip size s)
    (hsize : size ≤ skip + imageAreaSize iop.imgMaxSize) : Counts iop s := by
  obtain ⟨hiop, h0, hskip, hlt, rfl⟩ := h
  exact ⟨.inr hiop, by omega, .inr ⟨h0, by omega⟩⟩

theorem Session.count {size n : Nat} (h : Session iop skip size s) (hlt : size + n < 2 ^ 32) :
    Session iop skip (size + n) { s with getSize := u32 (s.getSize + n) } := by
  refine ⟨h.param, h.nonneg, h.skipped, h.lt, ?_⟩
  rw [h.size]
  exact u32_of_lt hlt

theorem Session.pushWrite {size : Nat} (hslot : Slot board .pingpong iop seq)
    (h : Session iop skip size s) (hge : skip ≤ size)
    (hle : size ≤ skip + imageAreaSize iop.imgMaxSize) (data : List Byte) :
    Flow.Stays (InSlot iop seq) (pushWrite board .pingpong iop data) s fun _ s' => Counts iop s' := by
  have hmax : imageAreaSize iop.imgMaxSize < 2 ^ 26 := hslot.max
  have hend : iop.addr seq + imageAreaSize iop.imgMaxSize < 2 ^ 32 := hslot.area.inside.lt
  have hlt := h.lt
  have hremain : sub32 (u32 (imgMaxSize .pingpong iop + skip)) size =
      skip + imageAreaSize iop.imgMaxSize - size := by
    change sub32 (u32 (imageAreaSize iop.imgMaxSize + skip)) size = _
    rw [u32_of_lt (by omega), sub32_of_le (by omega)]
    omega
  refine Flow.stays_get_bind ?_
  dsimp only
  rw [h.param, hslot.update, h.compare, h.size, hremain]
  refine .ite (fun _ => Flow.stays_pure (h.counts hle)) fun hfits => ?_
  rw [next_address hend hge hle (by omega)]
  have hwithin : Nor.Within (InSlot iop seq)
      (flashWrite board (iop.flash seq) (iop.addr seq + (size - skip)) data) :=
    within_flashWrite hslot.area.inside (by omega) (by omega)
  refine (Flow.stays_lift (P := fun n s' => n ≤ data.length ∧ s = s') hwithin fun c => ?_).bind ?_
  · refine ⟨?_, rfl⟩
    rw [flashWrite, ret_bind, ret_pure]
    split
    · exact Nat.le_refl _
    · exact Nat.zero_le _
  · rintro n _ ⟨hn, rfl⟩
    exact Flow.stays_modify_bind (Flow.stays_pure ((h.count (by omega)).counts (by omega)))

theorem Counts.pushData (hslot : Slot board .pingpong iop seq) (h : Counts iop s)
    (h0 : 0 ≤ s.skipSize) (data : List Byte) :
    Flow.Stays (InSlot iop seq) (otaPushData board .pingpong data) s fun _ s' => Counts iop s' := by
  have hmax : imageAreaSize iop.imgMaxSize < 2 ^ 26 := hslot.max
  refine Flow.stays_get_bind ?_
  rcases h.param with hnone | hiop
  · rw [hnone]
    exact Flow.stays_hang
  have hlt := h.skip
  have hle := h.size
  have hs : Session iop s.skipSize.toNat s.getSize s := ⟨hiop, h0, rfl, by omega, rfl⟩
  rw [hiop]
  dsimp only
  rw [hs.compare]
  refine .ite (fun _ => Flow.stays_pure h) fun _ => .ite (fun hskip => ?_) fun hskip => ?_
  · rw [sub32_of_le (by omega)]
    refine .ite (fun hall => ?_) fun hpart => ?_
    · exact Flow.stays_modify_bind (Flow.stays_pure ((hs.count (by omega)).counts (by omega)))
    · exact Flow.stays_modify_bind ((hs.count (by omega)).pushWrite hslot (by omega) (by omega) _)
  · exact hs.pushWrite hslot (by omega) (by omega) _

theorem skipOrDefault_range (hbl : iop.blSize < 2 ^ 31) {z : Int} (hz : z < 2 ^ 31) :
    0 ≤ skipOrDefault .pingpong iop z ∧ skipOrDefault .pingpong iop z < 2 ^ 31 := by
  unfold skipOrDefault
  split
  · change 0 ≤ int32 iop.blSize ∧ int32 iop.blSize < 2 ^ 31
    rw [int32, if_pos hbl]
    omega
  · omega

theorem Counts.pushStart (hslot : Slot board .pingpong iop seq) (hbl : iop.blSize < 2 ^ 31)
    (h : Counts iop s) (h0 : s.getSize = 0) :
    Flow.Stays (InSlot iop seq) (otaPushStart board .pingpong) s fun _ s' => Counts iop s' := by
  refine Flow.stays_get_bind ?_
  rcases h.param with hnone | hiop
  · rw [hnone]
    exact Flow.stays_hang
  rw [hiop]
  dsimp only
  rw [hslot.update]
  refine Flow.stays_modify_bind (Flow.stays_lift (within_flashErase hslot.area.toEraseArea) fun _ => ?_)
  exact ⟨.inr hiop, (skipOrDefault_range hbl h.skip).2, .inl h0⟩

theorem pushStart_leaves (hslot : Slot board .pingpong iop seq) (hiop : s.iop = some iop) :
    ∃ s', Flow.Leaves (otaPushStart board .pingpong) s c true s'
      (eraseCells c (iop.flash seq) (iop.addr seq) (imageAreaSize iop.imgMaxSize)) := by
  obtain ⟨hret, hpost⟩ := flashErase_spec hslot.area c
  obtain ⟨_, getSize, skipSize⟩ := s
  subst hiop
  refine ⟨⟨some iop, getSize, skipOrDefault .pingpong iop skipSize⟩, Flow.leaves_get.bind ?_⟩
  dsimp only
  rw [hslot.update]
  exact (Flow.leaves_modify rfl).bind (Flow.leaves_lift hret hpost)

theorem Session.skipLoop {R : Nat → Nat → Prop} {size left k : Nat} {replies : List Reply}
    (h : Session iop skip size s) (hfits : Fits k left replies) (hk : size + k = skip) :
    Flow.Stays R (skipLoop replies k) s fun r s' => match r with
      | some rest => Session iop skip skip s' ∧ Fits 0 left rest
      | none => ∃ n ≤ skip, Session iop skip n s' := by
  have hlt := h.lt
  induction replies generalizing k size s with
  | nil =>
    refine .ite (fun hzero => Flow.stays_pure ⟨?_, trivial⟩) fun _ => Flow.stays_hang
    have hall : size = skip := by omega
    exact hall ▸ h
  | cons reply replies ih =>
    refine .ite (fun hzero => Flow.stays_pure ⟨?_, hzero ▸ hfits⟩) fun hpos => ?_
    · have hall : size = skip := by omega
      exact hall ▸ h
    refine .ite (fun _ => Flow.stays_pure ⟨size, by omega, h⟩) fun _ => ?_
    obtain ⟨k, rfl⟩ := Nat.exists_eq_succ_of_ne_zero hpos
    obtain ⟨hlen, hrest⟩ := hfits
    have hle : reply.data.length ≤ k + 1 := Nat.le_trans hlen (Nat.min_le_left ..)
    rw [sub32_of_le hle]
    exact Flow.stays_modify_bind (ih (h.count (by omega)) hrest (by omega))

theorem within_halFlashWrite {dev a size address : Nat} {data : List Byte}
    (h : Inside board dev a size) (h1 : a ≤ address) (h2 : address + data.length ≤ a + size) :
    Nor.Within (InArea dev a size) (halFlashWrite board dev address data) where
  confined c := by
    have hw := (within_flashWrite h h1 h2).confined c
    rw [flashWrite, trace_bind, confined_append] at hw
    exact hw.1

theorem Session.writeLoop {dev a size : Nat} {replies : List Reply} {address left : Nat}
    (h : Session iop skip size s) (hmax : max < 2 ^ 26) (harea : Inside board dev a max)
    (hfits : Fits 0 left replies) (hsize : size + left = skip + max)
    (haddr : address + left = a + max) (hle : a ≤ address) :
    Flow.Stays (InArea dev a max) (writeLoop board dev replies address left) s
      fun _ s' => ∃ n ≤ skip + max, Session iop skip n s' := by
  have hend := harea.lt
  have hlt := h.lt
  have hpure : ∀ {size s} r, Session iop skip size s → size ≤ skip + max →
      Flow.Stays (InArea dev a max) (pure r : Flow OtaState (Bool × Nat)) s
        fun _ s' => ∃ n ≤ skip + max, Session iop skip n s' :=
    fun _ hs hn => Flow.stays_pure ⟨_, hn, hs⟩
  induction replies generalizing address left size s with
  | nil => exact .ite (fun _ => hpure _ h (by omega)) fun _ => Flow.stays_hang
  | cons reply replies ih =>
    obtain ⟨hlen, hrest⟩ := hfits
    have hlen' : reply.data.length ≤ left := Nat.le_trans hlen (Nat.min_le_left ..)
    refine .ite (fun _ => hpure _ h (by omega)) fun _ => .ite (fun _ => hpure _ h (by omega)) fun _ =>
      .ite (fun hempty => .ite (fun _ => hpure _ h (by omega)) fun _ => ?_) fun _ => ?_
    · rw [hempty] at hrest
      exact ih h hrest hsize haddr hle
    dsimp only
    rw [sub32_of_le hlen']
    have h' := h.count (n := reply.data.length) (by omega)
    refine Flow.stays_modify_bind ((Flow.stays_lift (P := fun _ s' => { s with
      getSize := u32 (s.getSize + reply.data.length) } = s')
      (within_halFlashWrite harea hle (by omega)) fun _ => rfl).bind ?_)
    rintro ok _ rfl
    refine .ite (fun _ => hpure _ h' (by omega)) fun _ => .ite (fun _ => hpure _ h' (by omega))
      fun _ => ih h' hrest (by omega) ?_ ?_
    · rw [u32_of_lt (by omega)]
      omega
    · rw [u32_of_lt (by omega)]
      omega

theorem Counts.getImage (hseq : seq < imageSeqNum) (hslot : Slot board .pingpong iop seq)
    (hbl : iop.blSize < 2 ^ 31) (h : Counts iop s) (fuel : Nat) (initOk : Bool)
    {replies : List Reply} (hfits : Fits (skipOrDefault .pingpong iop s.skipSize).toNat
      (imageAreaSize iop.imgMaxSize) replies) :
    Flow.Stays (InSlot iop seq) (otaGetImage board .pingpong iop fuel initOk replies) s
      fun _ s' => Counts iop s' := by
  obtain ⟨h0, hlt⟩ := skipOrDefault_range hbl h.skip
  have hmax : imageAreaSize iop.imgMaxSize < 2 ^ 26 := hslot.max
  -- the counts when nothing has been received yet
  have hstart : Counts iop { s with iop := some iop, getSize := 0 } := ⟨.inr rfl, h.skip, .inl rfl⟩
  have hdownload : Flow.Stays (InSlot iop seq) (otaDownload board .pingpong seq initOk replies)
      { s with iop := some iop, getSize := 0 } fun _ s' => Counts iop s' := by
    refine Flow.stays_get_bind ?_
    dsimp only
    refine (Flow.stays_lift (P := fun _ s' => { s with iop := some iop, getSize := 0 } = s')
      (within_flashErase hslot.area.toEraseArea) fun _ => rfl).bind ?_
    rintro erased _ rfl
    refine .ite (fun _ => Flow.stays_pure hstart) fun _ => ?_
    refine (Flow.stays_lift (P := fun _ s' => { s with iop := some iop, getSize := 0 } = s')
      (quiet_allocReq _).within fun _ => rfl).bind ?_
    rintro mem _ rfl
    refine .ite (fun _ => Flow.stays_pure hstart) fun _ => .ite (fun _ => Flow.stays_pure hstart)
      fun _ => ?_
    rw [uint32_eq h0 hlt]
    have hs₀ : Session iop (skipOrDefault .pingpong iop s.skipSize).toNat 0
        ⟨some iop, 0, skipOrDefault .pingpong iop s.skipSize⟩ := ⟨rfl, h0, rfl, by omega, rfl⟩
    refine Flow.stays_modify_bind ((hs₀.skipLoop hfits (Nat.zero_add _)).bind ?_)
    rintro (_ | rest) s₁ hs₁
    · obtain ⟨n, hn, hs₁⟩ := hs₁
      exact Flow.stays_pure (hs₁.counts (Nat.le_add_right_of_le hn))
    · obtain ⟨hs₁, hfits'⟩ := hs₁
      refine (hs₁.writeLoop hmax hslot.area.inside hfits' rfl rfl (Nat.le_refl _)).bind ?_
      rintro ⟨ok, left⟩ s₂ ⟨n, hn, hs₂⟩
      exact Flow.stays_pure (hs₂.counts hn)
  have hinit : Flow.Stays (InSlot iop seq) (otaInit .pingpong iop) s
      fun _ s' => { s with iop := some iop, getSize := 0 } = s' :=
    Flow.stays_modify_bind (Flow.stays_pure rfl)
  refine hinit.bind ?_
  rintro _ _ rfl
  refine Flow.stays_get_bind ?_
  dsimp only
  rw [hslot.update, if_pos hseq]
  refine hdownload.bind fun loaded s₁ hs₁ => .ite (fun _ => Flow.stays_pure hs₁) fun _ => ?_
  refine (Flow.stays_of_quiet quiet_otaCheckLoaded keeps_otaCheckLoaded).mono ?_
  rintro _ _ rfl
  exact hs₁

end

/-! ## What a verification writes -/

/-- The program writes nothing, and goes on with the state as it is. -/
abbrev Looks {α : Type} (m : Flow OtaState α) (s : OtaState) : Prop :=
  Flow.Stays (fun _ _ => False) m s fun _ s' => s = s'

/-- All that the program can write is the sequence of the slot that is updated, and that if `P`. -/
structure Stores (board : Board) (g : Grain) (iop : OtaParam) (c : Cells) (P : Prop)
    (m : Flow OtaState Bool) (s : OtaState) : Prop where
  cut : ∀ c', CutOf g (trace (m s) c) c c' →
    c' = c ∨ P ∧ Cut g (imageSetCfg board iop ⟨otaGetUpdateSeq (some iop), .verified⟩) c c'
  keeps : ∀ a s', Flow.Returns m s c a s' → s = s'

section

variable {board : Board} {digest : Verify → List Byte → List Byte} {g : Grain} {iop : OtaParam}
  {s : OtaState} {c c' : Cells} {P : Prop} {fuel seq : Nat}

theorem looks_lift {α : Type} {p : Prog α} (hp : Quiet p) : Looks (Flow.lift p) s :=
  Flow.stays_lift hp.within fun _ => rfl

theorem Looks.cut {α : Type} {m : Flow OtaState α} (h : Looks m s)
    (hcut : CutOf g (trace (m s) c) c c') : c' = c := by
  funext d a
  exact hcut.frame (h.confined c) not_false

theorem Looks.stores {m : Flow OtaState Bool} (h : Looks m s) : Stores board g iop c P m s :=
  ⟨fun _ hcut => .inl (h.cut hcut), h.returns c⟩

theorem Looks.andThen {α : Type} {m : Flow OtaState α} {f : α → Flow OtaState Bool} (h : Looks m s)
    (hf : ∀ a, Flow.Returns m s c a s → Stores board g iop c P (f a) s) :
    Stores board g iop c P (m >>= f) s := by
  have hpost : post (m s) c = c := h.cut (g := g) (CutOf.finish _ _)
  constructor
  · intro c' hcut
    rw [Flow.bind_run, trace_bind, hpost, cutOf_append] at hcut
    rw [show applyAll (trace (m s) c) c = c from hpost] at hcut
    rcases hcut with hcut | hcut
    · exact .inl (h.cut hcut)
    · cases hr : ret (m s) c with
      | none =>
        rw [hr] at hcut
        exact .inl hcut
      | some r =>
        obtain ⟨a, s'⟩ := r
        obtain rfl := h.returns c a s' hr
        rw [hr] at hcut
        exact (hf a hr).cut c' hcut
  · intro b s' hr
    obtain ⟨a, s₁, hm, hr⟩ := Flow.returns_bind.mp hr
    obtain rfl := h.returns c a s₁ hm
    rw [hpost] at hr
    exact (hf a hm).keeps b s' hr

theorem looks_otaVerifyImageBy (verify : Verify) (value : List Byte) :
    Looks (otaVerifyImageBy board digest verify seq value) s := by
  have happendLoop : ∀ (dev fuel a size : Nat) (hashed : List Byte),
      Quiet (appendLoop board dev fuel a size hashed) := by
    intro dev fuel
    induction fuel with
    | zero => exact fun _ _ _ => quiet_pure _
    | succ fuel ih =>
      intro a size hashed
      refine Quiet.ite (quiet_pure _) ((quiet_flashRead ..).bind fun r => ?_)
      cases r with
      | none => exact quiet_pure _
      | some buf => exact ih ..
  have happend : Looks (otaVerifyImageAppend board seq) s := by
    refine Flow.stays_get_bind ?_
    split
    · exact Flow.stays_hang
    · exact looks_lift ((quiet_allocReq _).bind fun _ => Quiet.ite (quiet_pure _) (happendLoop ..))
  unfold otaVerifyImageBy
  split
  · exact Flow.stays_pure rfl
  · refine happend.bind ?_
    rintro r _ rfl
    cases r <;> exact Flow.stays_pure rfl

theorem looks_otaGetVerifyData : Looks (otaGetVerifyData board fuel) s := by
  have hpos : ∀ seq, Looks (otaGetVerifyDataPos board fuel seq) s := by
    intro seq
    refine Flow.stays_get_bind ?_
    split
    · exact Flow.stays_hang
    · refine .ite (fun _ => Flow.stays_pure rfl) fun _ => ?_
      refine (looks_lift (quiet_verifyDataPos ..)).bind ?_
      rintro r _ rfl
      cases r with
      | none => exact Flow.stays_hang
      | some pos => exact Flow.stays_pure rfl
  refine Flow.stays_get_bind (.ite (fun _ => Flow.stays_pure rfl) fun _ =>
    .ite (fun _ => Flow.stays_pure rfl) fun _ => ?_)
  split
  · exact Flow.stays_hang
  · refine (hpos _).bind ?_
    rintro a _ rfl
    refine .ite (fun _ => Flow.stays_pure rfl) fun _ => ?_
    refine (looks_lift (quiet_flashRead ..)).bind ?_
    rintro r _ rfl
    cases r <;> exact Flow.stays_pure rfl

theorem stores_get {f : OtaState → Flow OtaState Bool} (h : Stores board g iop c P (f s) s) :
    Stores board g iop c P (Flow.get >>= f) s := ⟨h.cut, h.keeps⟩

theorem stores_otaVerifyImage (hiop : s.iop = none ∨ s.iop = some iop) (hP : P) (verify : Nat)
    (value : Option (List Byte)) :
    Stores board g iop c P (otaVerifyImage board digest verify value) s := by
  have hfalse : Stores board g iop c P (pure false) s := Looks.stores (Flow.stays_pure rfl)
  unfold otaVerifyImage
  split
  · exact hfalse
  refine stores_get ?_
  dsimp only
  split
  · exact hfalse
  split
  · exact hfalse
  split
  · exact hfalse
  refine (looks_otaVerifyImageBy ..).andThen fun ok _ => ?_
  cases ok with
  | false => exact hfalse
  | true =>
    rcases hiop with hnone | hiop
    · rw [hnone]
      exact Looks.stores Flow.stays_hang
    · rw [hiop]
      refine ⟨fun c' hcut => .inr ⟨hP, ?_⟩, fun _ _ hr => (Flow.returns_lift.mp hr).2⟩
      change CutOf g (trace (Flow.lift (imageSetCfg board iop _) s) c) c c' at hcut
      rwa [Flow.lift, trace_bind, trace_pure, List.append_nil] at hcut

/-- `ota_push_finish` writes it only when the sections of the slot are valid. -/
theorem stores_otaPushFinish (hiop : s.iop = none ∨ s.iop = some iop) :
    Stores board g iop c (Passes board iop .normal (otaGetUpdateSeq (some iop)) c)
      (otaPushFinish board digest fuel) s := by
  refine stores_get ?_
  rcases hiop with hnone | hiop
  · rw [hnone]
    exact Looks.stores Flow.stays_hang
  rw [hiop]
  refine (looks_lift quiet_imageCheckSections).andThen fun val hval => ?_
  cases val with
  | none => exact Looks.stores Flow.stays_hang
  | some val =>
    cases val with
    | invalid => exact Looks.stores (Flow.stays_pure rfl)
    | valid =>
      refine looks_otaGetVerifyData.andThen fun data _ => ?_
      have hpasses : Passes board iop .normal (otaGetUpdateSeq (some iop)) c :=
        ⟨fuel, (Flow.returns_lift.mp hval).1⟩
      cases data <;> exact stores_otaVerifyImage (.inr hiop) hpasses ..

end

/-! ## The configuration area -/

section

variable {board : Board} {c : Cells}

/-- What `fdcm_read` finds in the configuration area depends on the cells there. -/
theorem tidy_congr {h : FdcmHandle} {c' : Cells} (ha : EraseArea board h.flash h.addr h.size)
    (ht : Tidy h rawCfgSize c) (hc : ∀ d a, InArea h.flash h.addr h.size d a → c' d a = c d a) :
    Tidy h rawCfgSize c' ∧
      ret (fdcmRead board h rawCfgSize) c' = ret (fdcmRead board h rawCfgSize) c := by
  obtain ⟨hfits, -⟩ := fdcmBitmapSize_fits ha rawCfgSize
  have hin := ha.inside
  have hlt := hin.lt
  simp only [fdcmHeaderSize] at hfits
  have hheader : readCells c' h.flash h.addr fdcmHeaderSize =
      readCells c h.flash h.addr fdcmHeaderSize := by
    refine readCells_congr fun i hi => hc _ _ ⟨rfl, by omega, ?_⟩
    simp only [fdcmHeaderSize] at hi
    omega
  by_cases hv : (FdcmHeader.decode (readCells c h.flash h.addr fdcmHeaderSize)).validFor h rawCfgSize
  swap
  · refine ⟨fun hv' => absurd (hheader ▸ hv') hv, ?_⟩
    rw [fdcmRead_invalid hv, fdcmRead_invalid (by rwa [hheader])]
  obtain ⟨bs, n, hbs, hroom, hlog⟩ := ht hv
  have hpos := hlog.pos
  have hlog' : Log h rawCfgSize bs n c' := by
    refine ⟨⟨by rw [hheader]; exact hlog.header, hlog.pos, hlog.fits, hlog.count, ?_⟩, ?_⟩
    · intro i hi
      rw [hc _ _ ⟨rfl, by omega, by omega⟩]
      exact hlog.bitmap i hi
    · intro a h1 h2
      rw [hc _ _ ⟨rfl, by omega, h2⟩]
      exact hlog.free a h1 h2
  refine ⟨fun _ => ⟨bs, n, hbs, hroom, hlog'⟩, ?_⟩
  rw [fdcmRead_index hin hlog'.toIndex, fdcmRead_index hin hlog.toIndex]
  simp only [rawCfgSize] at hroom ⊢
  -- an empty log reads the four bytes in front of its first slot
  have haddr : h.addr ≤ u32 (h.addr + 8 + bs + 4 * sub32 n 1) ∧
      u32 (h.addr + 8 + bs + 4 * sub32 n 1) + 4 ≤ h.addr + h.size := by
    rcases n with _ | n
    · have hsub : sub32 0 1 = 2 ^ 32 - 1 := by decide
      rw [hsub, u32]
      omega
    · rw [sub32_of_le (by omega), u32_of_lt (by omega)]
      omega
  have hread := hin.mono (show u32 (h.addr + 8 + bs + 4 * sub32 n 1) + 4 ≤ _ from haddr.2)
  rw [ret_flashRead hread (by decide), ret_flashRead hread (by decide)]
  refine congrArg some (readCells_congr fun i hi => hc _ _ ⟨rfl, by omega, by omega⟩)

end

/-! ## Runs -/

/-- The sequence that `image_init` takes. -/
def bootSeq (board : Board) (iop : OtaParam) (c : Cells) : Nat := (storedSeq board iop c).getD 0

/-- A slot with valid sections, none of which is in the other slot or in the configuration. -/
structure Complete (board : Board) (iop : OtaParam) (seq : Nat) (c : Cells) : Prop where
  passes : Passes board iop .normal seq c
  apart : ∀ d a, Footprint board iop .normal seq c d a →
    ¬InSlot iop (otherSeq seq) d a ∧ ¬InCfg iop d a

/-- A session is started, and goes on, only while the slot that runs is the one that boots next: when
an image has been accepted, the device is reset first. The bytes are counted from the start of the
session. The image that is accepted is in its slot, and its sections have been checked. -/
def Op.Allowed (board : Board) (ram : Ram) (c : Cells) : Op → Prop
  | .pushInit => True
  | .pushStop => True
  | .setSkipSize skipSize => ram.ota.getSize = 0 ∧ skipSize < 2 ^ 31
  | .pushStart => bootSeq board ram.param c = ram.param.runningSeq ∧ ram.ota.getSize = 0
  | .pushData _ => bootSeq board ram.param c = ram.param.runningSeq ∧ 0 ≤ ram.ota.skipSize
  | .getImage _ _ replies => bootSeq board ram.param c = ram.param.runningSeq ∧
    Fits (skipOrDefault .pingpong ram.param ram.ota.skipSize).toNat
      (imageAreaSize ram.param.imgMaxSize) replies
  | .pushFinish _ => Passes board ram.param .normal (otherSeq ram.param.runningSeq) c →
    Complete board ram.param (otherSeq ram.param.runningSeq) c
  | .verifyImage _ _ => Complete board ram.param (otherSeq ram.param.runningSeq) c

def Careful (board : Board) (d : Device) : Act → Prop
  | .boot => True
  | .call op => ∀ ram, d.ram = some ram → op.Allowed board ram d.cells
  | .cut op => ∀ ram, d.ram = some ram → op.Allowed board ram d.cells

/-- What is kept: the device boots from a complete slot, and so is the one that runs. -/
structure Sound (board : Board) (flash addr : Nat) (iop : OtaParam) (d : Device) : Prop where
  init : ret (imageInit board flash addr) d.cells =
    some { iop with runningSeq := bootSeq board iop d.cells }
  tidy : Tidy iop.cfgArea rawCfgSize d.cells
  seq : bootSeq board iop d.cells < imageSeqNum
  boot : Complete board iop (bootSeq board iop d.cells) d.cells
  ram : ∀ ram, d.ram = some ram → ∃ r < imageSeqNum, ram.param = { iop with runningSeq := r } ∧
    Counts ram.param ram.ota ∧ Complete board iop r d.cells

section

variable {board : Board} {digest : Verify → List Byte → List Byte} {g : Grain} {flash addr : Nat}
  {iop : OtaParam} {c c' : Cells} {d d' : Device} {r seq : Nat} {ram : Ram}

theorem Complete.congr (h : Complete board iop seq c)
    (hc : ∀ d a, ¬InSlot iop (otherSeq seq) d a → ¬InCfg iop d a → c' d a = c d a) :
    Complete board iop seq c' := by
  obtain ⟨hpasses, hsees⟩ := h.passes.congr fun d a hd =>
    hc d a (h.apart d a hd).1 (h.apart d a hd).2
  exact ⟨hpasses, fun d a hd => h.apart d a ((hsees d a).mp hd)⟩

/-- Which slot runs is no matter to the check. -/
theorem imageCheckSections_running (r fuel : Nat) :
    imageCheckSections board { iop with runningSeq := r } fuel seq .normal =
      imageCheckSections board iop fuel seq .normal := by
  have hchain : ∀ fuel flash addr,
      checkChain board { iop with runningSeq := r } seq .normal fuel flash addr =
        checkChain board iop seq .normal fuel flash addr := by
    intro fuel
    induction fuel with
    | zero => exact fun _ _ => rfl
    | succ fuel ih =>
      intro flash addr
      simp only [checkChain, ih]
      rfl
  simp only [imageCheckSections, hchain]
  rfl

theorem Complete.of_running (h : Complete board { iop with runningSeq := r } seq c) :
    Complete board iop seq c := by
  obtain ⟨⟨fuel, hval⟩, hapart⟩ := h
  rw [imageCheckSections_running] at hval
  refine ⟨⟨fuel, hval⟩, fun d a hfoot => hapart d a ?_⟩
  obtain ⟨fuel', hsees⟩ := hfoot
  exact ⟨fuel', (imageCheckSections_running r fuel').symm ▸ hsees⟩

theorem Layout.cfgValid (hl : Layout board flash addr iop) :
    ¬(iop.otaSize = 0 ∨ iop.otaAddr = imageInvalidAddr) := by
  have hsize := EraseArea.size_ge (h := iop.cfgArea) hl.cfg
  change 4096 ≤ iop.otaSize at hsize
  have hlt := hl.cfg.inside.lt
  unfold imageInvalidAddr
  omega

theorem Layout.congr (hl : Layout board flash addr iop) (ht : Tidy iop.cfgArea rawCfgSize c)
    (hc : ∀ d a, InCfg iop d a → c' d a = c d a) :
    Tidy iop.cfgArea rawCfgSize c' ∧ bootSeq board iop c' = bootSeq board iop c := by
  obtain ⟨ht', hread⟩ := tidy_congr (h := iop.cfgArea) hl.cfg ht hc
  refine ⟨ht', ?_⟩
  rw [bootSeq, bootSeq, storedSeq_eq hl.cfgValid hl.cfg, storedSeq_eq hl.cfgValid hl.cfg, hread]

/-- The parameters are read from the bootloader's header, which nothing writes. -/
theorem Layout.init (hl : Layout board flash addr iop)
    (hinit : ret (imageInit board flash addr) c = some { iop with runningSeq := r })
    (hc : ∀ d a, (∀ seq < imageSeqNum, ¬InSlot iop seq d a) → ¬InCfg iop d a → c' d a = c d a) :
    ret (imageInit board flash addr) c' = some { iop with runningSeq := bootSeq board iop c' } := by
  have hheader : ∀ a, addr ≤ a → a < addr + imageHeaderSize → c' flash a = c flash a := by
    intro a h1 h2
    obtain ⟨hslot, hcfg⟩ := hl.headerApart a h1 h2
    exact hc flash a hslot hcfg
  rw [imageInit_congr hheader hinit, storedSeq_running]
  rfl

/-- A session while the slot that runs is the one that boots. -/
theorem Sound.session (hl : Layout board flash addr iop) (h : Sound board flash addr iop d)
    (hboot : bootSeq board iop d.cells = r)
    (hrun : Complete board iop r d.cells)
    (hc : ∀ d' a, ¬InSlot iop (otherSeq r) d' a → c' d' a = d.cells d' a) :
    Sound board flash addr iop ⟨none, c'⟩ ∧ Complete board iop r c' := by
  have hother : otherSeq r < imageSeqNum := by
    unfold otherSeq imageSeqNum
    omega
  obtain ⟨ht, hseq⟩ := hl.congr h.tidy fun d' a hcfg =>
    hc d' a fun hslot => hl.cfgApart _ hother d' a hslot hcfg
  have hrun' : Complete board iop r c' := hrun.congr fun d' a hslot _ => hc d' a hslot
  refine ⟨⟨hl.init h.init fun d' a hslot _ => hc d' a (hslot _ hother), ht, ?_, ?_, nofun⟩, hrun'⟩
  · exact hseq ▸ h.seq
  · rw [hseq, hboot]
    exact hrun'

/-- The sequence of a complete slot is stored, or the power goes while it is. -/
theorem Sound.store (hl : Layout board flash addr iop) (h : Sound board flash addr iop d)
    (hr : r < imageSeqNum) (hrun : Complete board iop r d.cells)
    (hnew : Complete board iop (otherSeq r) d.cells)
    (hcut : Cut g (imageSetCfg board iop ⟨otherSeq r, .verified⟩) d.cells c') :
    Sound board flash addr iop ⟨none, c'⟩ ∧ Complete board iop r c' := by
  have hframe : ∀ d' a, ¬InCfg iop d' a → c' d' a = d.cells d' a := fun d' a hcfg =>
    (within_imageSetCfg hl.cfg.inside).cut hcut hcfg
  have hkept : ∀ seq, Complete board iop seq d.cells → Complete board iop seq c' :=
    fun seq hseq => hseq.congr fun d' a _ hcfg => hframe d' a hcfg
  have hother : otherSeq r < imageSeqNum := by
    unfold otherSeq imageSeqNum
    omega
  obtain ⟨ht, hseq⟩ := imageSetCfg_cut hl.cfg.inside h.tidy hcut
  have hboot : bootSeq board iop c' < imageSeqNum ∧ Complete board iop (bootSeq board iop c') c' := by
    unfold bootSeq
    rcases hseq with hseq | hseq | hseq
    · rw [hseq]
      exact ⟨h.seq, hkept _ h.boot⟩
    · rw [hseq]
      exact ⟨hother, hkept _ hnew⟩
    · -- without a configuration slot 0 boots, which is one of the two
      rw [hseq]
      refine ⟨by decide, hkept _ ?_⟩
      rcases r with _ | r
      · exact hrun
      · have hzero : otherSeq (r + 1) = 0 := by
          unfold otherSeq
          omega
        rw [hzero] at hnew
        exact hnew
  exact ⟨⟨hl.init h.init fun d' a _ hcfg => hframe d' a hcfg, ht, hboot.1, hboot.2, nofun⟩,
    hkept _ hrun⟩

theorem Layout.running (hl : Layout board flash addr iop) (r : Nat) :
    Layout board flash addr { iop with runningSeq := r } :=
  ⟨hl.slot, hl.cfg, hl.cfgApart, hl.headerApart, hl.bl, hl.max⟩

theorem Sound.off (h : Sound board flash addr iop d) : Sound board flash addr iop ⟨none, d.cells⟩ :=
  ⟨h.init, h.tidy, h.seq, h.boot, nofun⟩

/-- A call that changes the state of the session only. -/
theorem Sound.modify (h : Sound board flash addr iop d) {param : OtaParam}
    (hrun : Complete board iop r d.cells) {f : OtaState → OtaState} {s : OtaState}
    {m : Flow OtaState Bool} (hm : m = do Flow.modify f; pure true)
    (hcut : CutOf g (trace (m s) d.cells) d.cells c') (hf : Counts param (f s)) :
    Sound board flash addr iop ⟨none, c'⟩ ∧ Complete board iop r c' ∧
      ∀ a ota, Flow.Returns m s d.cells a ota → Counts param ota := by
  subst hm
  obtain rfl : c' = d.cells := hcut
  refine ⟨h.off, hrun, fun a ota hret => ?_⟩
  obtain ⟨_, s₁, hmod, hpure⟩ := Flow.returns_bind.mp hret
  obtain rfl := Flow.returns_modify.mp hmod
  obtain ⟨-, rfl⟩ := Flow.returns_pure.mp hpure
  exact hf

/-- A call, whether it returns or the power goes. -/
theorem Sound.op (hl : Layout board flash addr iop) (h : Sound board flash addr iop d)
    (hram : d.ram = some ram) {op : Op} (hok : op.Allowed board ram d.cells)
    (hcut : CutOf g (trace (op.flow board digest ram.param ram.ota) d.cells) d.cells c') :
    Sound board flash addr iop ⟨none, c'⟩ ∧ Complete board iop ram.param.runningSeq c' ∧
      ∀ a ota, Flow.Returns (op.flow board digest ram.param) ram.ota d.cells a ota →
        Counts ram.param ota := by
  obtain ⟨r, hr, hparam, hcounts, hrun⟩ := h.ram ram hram
  obtain ⟨param, s⟩ := ram
  dsimp only at hparam hcounts hcut ⊢
  subst hparam
  obtain ⟨hother, hslot⟩ := (hl.running r).slotOf hr
  have hseq := hslot.update
  have hsession : ∀ {m : Flow OtaState Bool}, bootSeq board iop d.cells = r →
      Flow.Stays (InSlot iop (otherSeq r)) m s (fun _ s' => Counts { iop with runningSeq := r } s') →
      CutOf g (trace (m s) d.cells) d.cells c' →
      Sound board flash addr iop ⟨none, c'⟩ ∧ Complete board iop r c' ∧
        ∀ a ota, Flow.Returns m s d.cells a ota → Counts { iop with runningSeq := r } ota := by
    intro m hboot hstays hcut
    have hsound := h.session hl hboot hrun fun d' a hslot => hcut.frame (hstays.confined _) hslot
    exact ⟨hsound.1, hsound.2, hstays.returns _⟩
  have hstores : ∀ {m : Flow OtaState Bool} {P : Prop},
      Stores board g { iop with runningSeq := r } d.cells P m s →
      (P → Complete board { iop with runningSeq := r } (otherSeq r) d.cells) →
      CutOf g (trace (m s) d.cells) d.cells c' →
      Sound board flash addr iop ⟨none, c'⟩ ∧ Complete board iop r c' ∧
        ∀ a ota, Flow.Returns m s d.cells a ota → Counts { iop with runningSeq := r } ota := by
    intro m P hstores hnew hcut
    have hsound : Sound board flash addr iop ⟨none, c'⟩ ∧ Complete board iop r c' := by
      rcases hstores.cut c' hcut with rfl | ⟨hP, hcut⟩
      · exact ⟨h.off, hrun⟩
      · rw [hseq] at hcut
        exact h.store hl hr hrun (hnew hP).of_running hcut
    exact ⟨hsound.1, hsound.2, fun a ota hret => hstores.keeps a ota hret ▸ hcounts⟩
  cases op with
  | pushInit => exact h.modify hrun rfl hcut ⟨.inr rfl, hcounts.skip, .inl rfl⟩
  | pushStop => exact h.modify hrun rfl hcut ⟨.inl rfl, hcounts.skip, .inl rfl⟩
  | setSkipSize skipSize => exact h.modify hrun rfl hcut ⟨hcounts.param, hok.2, .inl hok.1⟩
  | pushStart => exact hsession hok.1 (hcounts.pushStart hslot hl.bl.2 hok.2) hcut
  | pushData data => exact hsession hok.1 (hcounts.pushData hslot hok.2 data) hcut
  | getImage fuel initOk replies =>
    exact hsession hok.1 (hcounts.getImage hother hslot hl.bl.2 fuel initOk hok.2) hcut
  | pushFinish fuel =>
    exact hstores (stores_otaPushFinish hcounts.param) (fun hvalid => hok (hseq ▸ hvalid)) hcut
  | verifyImage verify value =>
    exact hstores (stores_otaVerifyImage hcounts.param trivial verify value) (fun _ => hok) hcut

/-- A step keeps the invariant. -/
theorem Sound.step (hl : Layout board flash addr iop) (h : Sound board flash addr iop d) {act : Act}
    (hstep : Trans.Guarded (Step board digest g flash addr) (Careful board) d act d') :
    Sound board flash addr iop d' := by
  obtain ⟨hok, hstep⟩ := hstep
  cases hstep with
  | boot param hinit =>
    obtain rfl := Option.some.inj (hinit.symm.trans h.init)
    refine ⟨h.init, h.tidy, h.seq, h.boot, ?_⟩
    rintro ram ⟨⟩
    exact ⟨_, h.seq, rfl, ⟨.inl rfl, by change (-1 : Int) < 2 ^ 31; decide, .inl rfl⟩, h.boot⟩
  | call ram op a ota hram hrun =>
    obtain ⟨hsound, hcomplete, hcounts⟩ := h.op hl hram (hok ram hram) (g := g) (CutOf.finish _ _)
    refine ⟨hsound.init, hsound.tidy, hsound.seq, hsound.boot, ?_⟩
    rintro ram' ⟨⟩
    obtain ⟨r, hr, hparam, -⟩ := h.ram ram hram
    refine ⟨r, hr, hparam, hcounts a ota hrun, ?_⟩
    have hr' : ram.param.runningSeq = r := congrArg OtaParam.runningSeq hparam
    exact hr' ▸ hcomplete
  | cut ram op c hram hcut => exact (h.op hl hram (hok ram hram) hcut).1

/-- From a device that is off and boots from a complete slot: whatever sessions, verifications,
resets and power cuts follow, as long as the calls are allowed where they are made, the device boots
from a slot whose sections are valid; and a verified configuration names it. -/
theorem boots_complete (hl : Layout board flash addr iop)
    (hinit : ret (imageInit board flash addr) c = some iop) (ht : Tidy iop.cfgArea rawCfgSize c)
    (hboot : iop.runningSeq < imageSeqNum ∧ Complete board iop iop.runningSeq c) (acts : List Act)
    (hrun : Trans.Run (Trans.Guarded (Step board digest g flash addr) (Careful board)) ⟨none, c⟩
      acts d) :
    ∃ seq < imageSeqNum, ret (imageInit board flash addr) d.cells =
        some { iop with runningSeq := seq } ∧ Passes board iop .normal seq d.cells ∧
      ∀ cfg, ret (imageGetCfg board iop) d.cells = some cfg → cfg.state = .verified →
        cfg.seq = seq := by
  have hseq : iop.runningSeq = bootSeq board iop c := by
    have hsame := hl.init hinit fun _ _ _ _ => rfl
    exact congrArg OtaParam.runningSeq (Option.some.inj (hinit.symm.trans hsame))
  have h0 : Sound board flash addr iop ⟨none, c⟩ := by
    refine ⟨?_, ht, hseq ▸ hboot.1, hseq ▸ hboot.2, nofun⟩
    rw [hinit, ← hseq]
  have h := hrun.invariant (I := Sound board flash addr iop) h0 fun _ _ _ h hstep => h.step hl hstep
  refine ⟨_, h.seq, h.init, h.boot.passes, ?_⟩
  rintro ⟨seq, state⟩ hcfg rfl
  rw [bootSeq, storedSeq, hcfg]
  rfl

end

/-! ## A push that is cut -/

/-- A bootloader of 16 KiB, for slots of 4 KiB. -/
def startHeader : List Byte :=
  leBytes 4 imageMagicNumber ++ leBytes 4 0 ++ leBytes 2 0x2064 ++ leBytes 2 0xFFFF ++
    leBytes 20 0 ++ leBytes 4 0x4000 ++ leBytes 4 imageBootId ++ leBytes 8 0 ++
    leBytes 4 0xFFFF0014 ++ leBytes 12 0

def appHeader : List Byte := emptySection 0x6079 imageInvalidAddr 0xA5FE5A01

/-- The application is in slot 0, and the configuration is blank. -/
def startCells : Cells := fun _ a =>
  if a < 0x4000 then startHeader.getD a blank else appHeader.getD (a - 0x4000) blank

def startParam : OtaParam := otaParamOf 0 0 (SectionHeader.decode startHeader)

theorem start_areas : startParam.addr 0 = 0x4000 ∧ startParam.addr 1 = 0x104000 ∧
    imageAreaSize startParam.imgMaxSize = 0x1000 ∧ startParam.otaAddr = 0x100000 ∧
    startParam.otaSize = 0x4000 := by decide

theorem inSlot_start {seq d a : Nat} (hseq : seq < imageSeqNum) (h : InSlot startParam seq d a) :
    seq = 0 ∧ 0x4000 ≤ a ∧ a < 0x5000 ∨ seq = 1 ∧ 0x104000 ≤ a := by
  obtain ⟨h0, h1, hsize, -⟩ := start_areas
  obtain ⟨-, hge, hlt⟩ := h
  rw [hsize] at hlt
  rcases seq with _ | _ | seq
  · rw [h0] at hge hlt
    exact .inl ⟨rfl, hge, hlt⟩
  · rw [h1] at hge
    exact .inr ⟨rfl, hge⟩
  · unfold imageSeqNum at hseq
    omega

theorem inCfg_start {d a : Nat} (h : InCfg startParam d a) : 0x100000 ≤ a ∧ a < 0x104000 := by
  obtain ⟨-, -, -, haddr, hsize⟩ := start_areas
  obtain ⟨-, hge, hlt⟩ := h
  rw [haddr] at hge
  rw [haddr, hsize] at hlt
  exact ⟨hge, hlt⟩

theorem layout_start : Layout smallBoard 0 0 startParam where
  slot seq hseq := by
    rcases seq with _ | _ | seq
    · exact ⟨⟨⟨_, rfl, by decide, by decide⟩, .kb4, by decide⟩, supported_smallBoard⟩
    · exact ⟨⟨⟨_, rfl, by decide, by decide⟩, .kb4, by decide⟩, supported_smallBoard⟩
    · unfold imageSeqNum at hseq
      omega
  cfg := ⟨⟨_, rfl, by decide, by decide⟩, .kb4, by decide⟩
  cfgApart seq hseq d a hslot hcfg := by
    have hslot := inSlot_start hseq hslot
    have hcfg := inCfg_start hcfg
    omega
  headerApart a _ hlt := by
    change a < 0 + 64 at hlt
    refine ⟨fun seq hseq hslot => ?_, fun hcfg => ?_⟩
    · have hslot := inSlot_start hseq hslot
      omega
    · have hcfg := inCfg_start hcfg
      omega
  bl := by decide
  max := by decide

theorem complete_start : Complete smallBoard startParam 0 startCells := by
  have hval : ret (imageCheckSections smallBoard startParam 2 0 .normal) startCells =
      some .valid := by decide
  have hreads : reads (imageCheckSections smallBoard startParam 2 0 .normal) startCells =
      [(0, 0, 64), (0, 0x4000, 64)] := by decide
  refine ⟨⟨2, hval⟩, fun d a hfoot => ?_⟩
  obtain ⟨r, hr, -, h1, h2⟩ := (footprint_iff hval).mp hfoot
  have hlt : a < 0x4040 := by
    rw [hreads] at hr
    simp only [List.mem_cons, List.not_mem_nil, or_false] at hr
    rcases hr with rfl | rfl
    · dsimp only at h2
      omega
    · dsimp only at h2
      omega
  refine ⟨fun hslot => ?_, fun hcfg => ?_⟩
  · have hslot := inSlot_start (by decide) hslot
    change 1 = 0 ∧ _ ∨ _ at hslot
    omega
  · have hcfg := inCfg_start hcfg
    omega

/-- The cells when the session has erased slot 1. -/
def erasedCells : Cells := eraseCells startCells (startParam.flash (otherSeq 0))
  (startParam.addr (otherSeq 0)) (imageAreaSize startParam.imgMaxSize)

/-- The session erases the slot, and the power goes. -/
theorem boots_complete_small : ∃ seq < imageSeqNum,
    ret (imageInit smallBoard 0 0) erasedCells = some { startParam with runningSeq := seq } ∧
    Passes smallBoard startParam .normal seq erasedCells ∧
    ∀ cfg, ret (imageGetCfg smallBoard startParam) erasedCells = some cfg →
      cfg.state = .verified → cfg.seq = seq := by
  have hinit : ret (imageInit smallBoard 0 0) startCells = some startParam := rfl
  have hrunning : startParam.runningSeq = 0 := by decide
  have hboot : bootSeq smallBoard startParam startCells = startParam.runningSeq := by decide
  have hcomplete : startParam.runningSeq < imageSeqNum ∧
      Complete smallBoard startParam startParam.runningSeq startCells := by
    rw [hrunning]
    exact ⟨by decide, complete_start⟩
  obtain ⟨s', hstart⟩ := pushStart_leaves (c := startCells) (s := ⟨some startParam, 0, -1⟩)
    (layout_start.slotOf hcomplete.1).2 rfl
  have hboot₀ : Step smallBoard (fun _ _ => []) .op 0 0 ⟨none, startCells⟩ .boot
      ⟨some ⟨startParam, ⟨none, 0, -1⟩⟩, startCells⟩ := .boot _ _ hinit
  have hinit' : Step smallBoard (fun _ _ => []) .op 0 0
      ⟨some ⟨startParam, ⟨none, 0, -1⟩⟩, startCells⟩ (.call .pushInit)
      ⟨some ⟨startParam, ⟨some startParam, 0, -1⟩⟩, startCells⟩ :=
    .call ⟨_, startCells⟩ ⟨startParam, ⟨none, 0, -1⟩⟩ .pushInit true _ rfl
      (Flow.returns_bind.mpr ⟨(), _, Flow.returns_modify.mpr rfl, Flow.returns_pure.mpr ⟨rfl, rfl⟩⟩)
  have herased : Cut .op (otaPushStart smallBoard .pingpong ⟨some startParam, 0, -1⟩) startCells
      erasedCells := by
    rw [hrunning] at hstart
    rw [erasedCells, ← hstart.post]
    exact Cut.finish ..
  have hcut : Step smallBoard (fun _ _ => []) .op 0 0
      ⟨some ⟨startParam, ⟨some startParam, 0, -1⟩⟩, startCells⟩ (.cut .pushStart)
      ⟨none, erasedCells⟩ := .cut _ _ _ _ rfl herased
  have hkept := boots_complete layout_start hinit (Tidy.of_invalid (by decide)) hcomplete
    [.boot, .call .pushInit, .cut .pushStart] (.cons ⟨trivial, hboot₀⟩ (.cons ⟨?_, hinit'⟩
      (.cons ⟨?_, hcut⟩ (.nil _))))
  · exact hkept
  · rintro _ ⟨⟩
    trivial
  · rintro _ ⟨⟩
    exact ⟨hboot, rfl⟩

/-! ## A session before the reset -/

section

variable {board : Board} {flash addr : Nat} {iop : OtaParam} {c : Cells} {r seq : Nat}

/-- The offset in the header of a section that is valid. -/
theorem imageCheckSection_next {dev a bufLen next : Nat}
    (h : ret (imageCheckSection board dev a bufLen .normal) c = some next) :
    imageCheckHeader (readCells c dev a imageHeaderSize) = .valid ∧
      next = (SectionHeader.decode (readCells c dev a imageHeaderSize)).nextAddr := by
  unfold imageCheckSection at h
  rw [(quiet_flashRead ..).ret_bind] at h
  rcases ret_flashRead_cases board dev a imageHeaderSize c with hnone | hsome
  · rw [hnone] at h
    cases h
  rw [hsome] at h
  dsimp only at h
  cases hvalid : imageCheckHeader (readCells c dev a imageHeaderSize) with
  | invalid =>
    rw [if_pos hvalid] at h
    cases h
  | valid =>
    rw [if_neg (by simp [hvalid]), (quiet_sumData ..).ret_bind] at h
    split at h
    · cases h
    · rw [ret_pure] at h
      split at h
      · cases h
      · exact ⟨rfl, (Option.some.inj h).symm⟩

theorem imageInit_header (hinit : ret (imageInit board flash addr) c = some iop) :
    ∃ runningSeq, iop = { otaParamOf flash addr
      (SectionHeader.decode (readCells c flash addr imageHeaderSize)) with runningSeq } := by
  rw [ret_imageInit] at hinit
  rcases ret_flashRead_cases board flash addr imageHeaderSize c with hnone | hsome
  · rw [hnone] at hinit
    cases hinit
  rw [hsome] at hinit
  dsimp only [Option.bind_some] at hinit
  split at hinit
  · cases hinit
  · exact ⟨_, (Option.some.inj hinit).symm⟩

/-- The bootloader is the first section, and names the start of the slot as the next one. -/
theorem Passes.second (hl : Layout board flash addr iop) (hseq : seq < imageSeqNum)
    (hinit : ret (imageInit board flash addr) c = some iop) (hflash : flash < 2 ^ 8)
    (haddr : addr < 2 ^ 32) (h : Passes board iop .normal seq c) :
    imageCheckHeader (readCells c (iop.flash seq) (iop.addr seq) imageHeaderSize) = .valid := by
  obtain ⟨fuel, h⟩ := h
  rw [imageCheckSections_eq.2] at h
  have hend := (hl.slot seq hseq).inside.lt
  obtain ⟨hbl, hbl'⟩ := hl.bl
  have hslot : iop.secAddr seq iop.blSize = iop.addr seq := by
    unfold OtaParam.secAddr sub32 u32
    split <;> omega
  have hnext : iop.blSize =
      (SectionHeader.decode (readCells c iop.blFlash iop.blAddr imageHeaderSize)).nextAddr := by
    obtain ⟨runningSeq, hiop⟩ := imageInit_header hinit
    have hsize : iop.blSize =
        (SectionHeader.decode (readCells c flash addr imageHeaderSize)).nextAddr :=
      congrArg OtaParam.blSize hiop
    have hblFlash : iop.blFlash = flash :=
      (congrArg OtaParam.blFlash hiop).trans (Nat.mod_eq_of_lt hflash)
    have hblAddr : iop.blAddr = addr := by
      have hzero : iop.addr 0 = u32 (addr + iop.blSize) := by
        rw [hsize]
        exact congrFun (congrArg OtaParam.addr hiop) 0
      rw [OtaParam.blAddr, hzero]
      unfold sub32 u32
      split <;> omega
    rw [hblFlash, hblAddr, ← hsize]
  cases fuel with
  | zero => cases h
  | succ fuel =>
    rw [checkChain, (quiet_imageCheckSection ..).ret_bind] at h
    cases hfirst : ret (imageCheckSection board iop.blFlash iop.blAddr imageCheckSize .normal) c with
    | none =>
      rw [hfirst] at h
      cases h
    | some next =>
      have hoff : next = iop.blSize := (imageCheckSection_next hfirst).2.trans hnext.symm
      rw [hfirst, hoff] at h
      dsimp only at h
      rw [if_neg (by unfold imageInvalidAddr; omega), hslot] at h
      cases fuel with
      | zero => cases h
      | succ fuel =>
        rw [checkChain, (quiet_imageCheckSection ..).ret_bind] at h
        cases hsecond : ret (imageCheckSection board (iop.flash seq) (iop.addr seq)
            imageCheckSize .normal) c with
        | none =>
          rw [hsecond] at h
          cases h
        | some next => exact (imageCheckSection_next hsecond).1

/-- The application runs from slot `r`, and the other slot has been accepted. A session that is
started before the device has been reset erases the slot that boots next. -/
theorem session_before_reset (hl : Layout board flash addr iop) (hflash : flash < 2 ^ 8)
    (haddr : addr < 2 ^ 32) (hinit : ret (imageInit board flash addr) c = some iop)
    (ht : Tidy iop.cfgArea rawCfgSize c) (hr : r < imageSeqNum)
    (hboot : bootSeq board iop c = otherSeq r) {s : OtaState}
    (hiop : s.iop = some { iop with runningSeq := r }) :
    ∃ s' c', Flow.Leaves (otaPushStart board .pingpong) s c true s' c' ∧
      ret (imageInit board flash addr) c' = some { iop with runningSeq := otherSeq r } ∧
      ¬Passes board iop .normal (otherSeq r) c' := by
  obtain ⟨hother, hslot⟩ := (hl.running r).slotOf hr
  have harea := hl.slot _ hother
  obtain ⟨s', hstart⟩ := pushStart_leaves (c := c) hslot hiop
  have hkept : ∀ d a, ¬InSlot iop (otherSeq r) d a → eraseCells c (iop.flash (otherSeq r))
      (iop.addr (otherSeq r)) (imageAreaSize iop.imgMaxSize) d a = c d a := by
    intro d a hout
    refine if_neg fun hin => hout ?_
    exact hin
  have hinit' := hl.init hinit fun d a hslot _ => hkept d a (hslot _ hother)
  obtain ⟨-, hboot'⟩ := hl.congr ht fun d a hcfg =>
    hkept d a fun hslot => hl.cfgApart _ hother d a hslot hcfg
  rw [hboot', hboot] at hinit'
  refine ⟨s', _, hstart, hinit', fun hpasses => ?_⟩
  obtain ⟨fuel, hval⟩ := hpasses
  rw [← imageCheckSections_running (otherSeq r)] at hval
  have hsize : 4096 ≤ imageAreaSize iop.imgMaxSize := EraseArea.size_ge (h := ⟨_, _, _⟩) harea.toEraseArea
  have hblank : Blank (eraseCells c (iop.flash (otherSeq r)) (iop.addr (otherSeq r))
      (imageAreaSize iop.imgMaxSize)) (iop.flash (otherSeq r)) (iop.addr (otherSeq r))
      imageHeaderSize :=
    (blank_eraseCells _ _ _ _).mono (Nat.le_refl _) (by unfold imageHeaderSize; omega)
  have hvalid := Passes.second (hl.running _) hother hinit' hflash haddr ⟨fuel, hval⟩
  dsimp only at hvalid
  rw [readCells_blank hblank] at hvalid
  exact absurd hvalid (by decide)

end

/-- The configuration is blank while the application runs from slot 1. -/
theorem session_before_reset_small : ∃ s' c', Flow.Leaves (otaPushStart smallBoard .pingpong)
      ⟨some { startParam with runningSeq := 1 }, 0, 0⟩ startCells true s' c' ∧
    ret (imageInit smallBoard 0 0) c' = some { startParam with runningSeq := 0 } ∧
    ¬Passes smallBoard startParam .normal 0 c' :=
  session_before_reset layout_start (by decide) (by decide) rfl (Tidy.of_invalid (by decide))
    (show 1 < imageSeqNum by decide) (by decide) rfl

end Ota
end XR806

import XR806.Ota.Session

/-!
# XR806.Ota.Agree

What a push session and a pull leave in the slot and in `get_size`.

A session that starts with `ota_push_init` leaves the bytes behind the skipped ones in an erased
slot, however the stream was cut, and a pull of the same stream leaves the same
(`push_pull_agree`). `ota_push_start` alone does not: it goes on counting where the session before
has stopped. A pull that gets `eof_flag` with bytes to skip does not count them.
-/

namespace XR806
namespace Ota

open Nor Flash Image

section

variable (board : Board) (policy : Policy)

/-- `ota_push_data` for one piece after the other, up to the first one that fails. -/
def pushAll : List (List Byte) → Flow OtaState Bool
  | [] => pure true
  | data :: rest => do
    let ok ← otaPushData board policy data
    if !ok then pure false else pushAll rest

def restart (chunks : List (List Byte)) : Flow OtaState Bool := do
  let ok ← otaPushStart board policy
  if !ok then pure false else pushAll board policy chunks

def pushSession (param : OtaParam) (chunks : List (List Byte)) : Flow OtaState Bool := do
  let ok ← otaPushInit policy param
  if !ok then pure false else restart board policy chunks

/-- The slot to be updated is there and can be erased. -/
structure Slot (iop : OtaParam) (seq : Nat) : Prop where
  update : otaGetUpdateSeq (some iop) = seq
  valid : policy = .compression → iop.imgXzMaxSize ≠ imageInvalidSize
  /-- The size in KiB is a field of 16 bits. -/
  max : imgMaxSize policy iop < 2 ^ 26
  area : ErasableArea board (iop.flash seq) (iop.addr seq) (imgMaxSize policy iop)

/-- The cells with the stream in the erased slot. -/
def slotImage (iop : OtaParam) (seq skip : Nat) (c : Cells) (stream : List Byte) : Cells :=
  programCells (eraseCells c (iop.flash seq) (iop.addr seq) (imgMaxSize policy iop))
    (iop.flash seq) (iop.addr seq) (stream.drop skip)

end

/-! ## Pushing -/

section

variable {board : Board} {policy : Policy} {iop : OtaParam} {seq skip : Nat} {c : Cells}
  {before data stream : List Byte} {chunks : List (List Byte)} {s : OtaState}

theorem slotImage_nil (h : before.length ≤ skip) : slotImage policy iop seq skip c before =
    eraseCells c (iop.flash seq) (iop.addr seq) (imgMaxSize policy iop) := by
  rw [slotImage, List.drop_of_length_le h, programCells_nil]

theorem slotImage_append (h : skip ≤ before.length) :
    programCells (slotImage policy iop seq skip c before) (iop.flash seq)
      (iop.addr seq + (before.length - skip)) data =
        slotImage policy iop seq skip c (before ++ data) := by
  rw [slotImage, slotImage, List.drop_append_of_le_length h, ← List.length_drop,
    programCells_append]

theorem read_slotImage (h : stream.length ≤ skip + imgMaxSize policy iop) :
    readCells (slotImage policy iop seq skip c stream) (iop.flash seq) (iop.addr seq)
      (imgMaxSize policy iop) = stream.drop skip ++
        List.replicate (imgMaxSize policy iop - (stream.drop skip).length) blank :=
  read_program_blank (blank_eraseCells _ _ _ _) (by rw [List.length_drop]; omega)

/-- The state in which the bytes `before` have been counted. -/
structure At (iop : OtaParam) (skip : Nat) (n : Nat) (s : OtaState) : Prop where
  iop : s.iop = some iop
  skip : uint32 s.skipSize = skip
  count : s.getSize = n

theorem At.push {n k : Nat} (h : At iop skip n s) (hlt : n + k < 2 ^ 32) :
    At iop skip (n + k) { s with getSize := u32 (s.getSize + k) } :=
  ⟨h.iop, h.skip, by dsimp only; rw [h.count, u32_of_lt hlt]⟩

theorem At.update {n : Nat} (h : At iop skip n s) (hslot : Slot board policy iop seq) :
    otaGetUpdateSeq s.iop = seq := by
  rw [h.iop, hslot.update]

theorem pushWrite_leaves (hslot : Slot board policy iop seq) (hat : At iop skip before.length s)
    (hskip : skip < 2 ^ 31) (hle : skip ≤ before.length) (hdata : data ≠ [])
    (hfit : (before ++ data).length ≤ skip + imgMaxSize policy iop) :
    Flow.Leaves (pushWrite board policy iop data) s (slotImage policy iop seq skip c before) true
      { s with getSize := u32 (s.getSize + data.length) }
      (slotImage policy iop seq skip c (before ++ data)) := by
  have hmax := hslot.max
  have harea := hslot.area.inside
  have hlt := harea.lt
  rw [List.length_append] at hfit
  have hremain : sub32 (u32 (imgMaxSize policy iop + uint32 s.skipSize)) s.getSize =
      imgMaxSize policy iop + skip - before.length := by
    rw [hat.skip, hat.count, u32_of_lt (by omega), sub32_of_le (by omega)]
  have haddr : sub32 (u32 (iop.addr seq + s.getSize)) (uint32 s.skipSize) =
      iop.addr seq + (before.length - skip) := by
    rw [hat.skip, hat.count]
    by_cases hwrap : iop.addr seq + before.length < 2 ^ 32
    · rw [u32_of_lt hwrap, sub32_of_le (by omega)]
      omega
    · -- the sum wraps around, and comes back with the subtraction
      have hmod : u32 (iop.addr seq + before.length) = iop.addr seq + before.length - 2 ^ 32 := by
        unfold u32
        omega
      rw [hmod, sub32, if_neg (by omega)]
      omega
  obtain ⟨hret, hpieces⟩ := flashWrite_spec harea (iop.addr seq + (before.length - skip)) data
    (by omega) hdata (slotImage policy iop seq skip c before)
  unfold pushWrite
  refine Flow.leaves_get.bind ?_
  dsimp only
  rw [hremain, if_neg (by omega), hat.update hslot, haddr]
  refine (Flow.leaves_lift hret rfl).bind ((Flow.leaves_modify rfl).bind ?_)
  rw [decide_eq_true rfl, Nor.post, hpieces.applyAll, slotImage_append hle]
  exact Flow.leaves_pure

theorem otaPushData_leaves (hslot : Slot board policy iop seq)
    (hat : At iop skip before.length s) (hskip : skip < 2 ^ 31)
    (hfit : (before ++ data).length ≤ skip + imgMaxSize policy iop) :
    ∃ s', Flow.Leaves (otaPushData board policy data) s
        (slotImage policy iop seq skip c before) true s'
        (slotImage policy iop seq skip c (before ++ data)) ∧
      At iop skip (before ++ data).length s' ∧ s'.skipSize = s.skipSize := by
  have hmax := hslot.max
  have hlen : (before ++ data).length = before.length + data.length := List.length_append
  obtain ⟨iop', getSize, skipSize⟩ := s
  obtain rfl : iop' = some iop := hat.iop
  obtain rfl : getSize = before.length := hat.count
  have hcompare : uint32 skipSize = skip := hat.skip
  unfold otaPushData
  by_cases hnil : data = []
  · subst hnil
    rw [List.append_nil]
    exact ⟨_, Flow.leaves_get.bind Flow.leaves_pure, hat, rfl⟩
  have hpos := List.length_pos_iff.mpr hnil
  have hnext : At iop skip (before ++ data).length
      ⟨some iop, u32 (before.length + data.length), skipSize⟩ := by
    rw [hlen]
    exact hat.push (by omega)
  by_cases hbefore : before.length < skip
  · have hremain : sub32 skip before.length = skip - before.length := sub32_of_le (by omega)
    by_cases hall : skip - before.length ≥ data.length
    · -- the whole piece is skipped
      refine ⟨_, Flow.leaves_get.bind ?_, hnext, rfl⟩
      dsimp only
      rw [hcompare, if_neg (by omega), if_pos hbefore, hremain, if_pos hall,
        slotImage_nil (by omega), slotImage_nil (by omega)]
      exact (Flow.leaves_modify rfl).bind Flow.leaves_pure
    · -- the piece ends the skipped bytes
      have hsplit : before ++ data = (before ++ data.take (skip - before.length)) ++
          data.drop (skip - before.length) := by
        rw [List.append_assoc, List.take_append_drop]
      have hcount : (before ++ data.take (skip - before.length)).length =
          before.length + (skip - before.length) := by
        rw [List.length_append, List.length_take, Nat.min_eq_left (by omega)]
      have hat' : At iop skip (before ++ data.take (skip - before.length)).length
          ⟨some iop, u32 (before.length + (skip - before.length)), skipSize⟩ :=
        hcount ▸ hat.push (k := skip - before.length) (by omega)
      have hdrop : data.drop (skip - before.length) ≠ [] := by
        rw [← List.length_pos_iff, List.length_drop]
        omega
      have hwrite := pushWrite_leaves (c := c) hslot hat' hskip (by omega) hdrop (hsplit ▸ hfit)
      rw [← hsplit, slotImage_nil (by omega), ← slotImage_nil (Nat.le_of_lt hbefore)] at hwrite
      have hlast := hat'.push (k := (data.drop (skip - before.length)).length) (by
        rw [List.length_drop]
        omega)
      rw [← List.length_append, ← hsplit] at hlast
      refine ⟨_, Flow.leaves_get.bind ?_, hlast, rfl⟩
      dsimp only
      rw [hcompare, if_neg (by omega), if_pos hbefore, hremain, if_neg hall]
      exact (Flow.leaves_modify rfl).bind hwrite
  · have hwrite := pushWrite_leaves (c := c) hslot hat hskip (by omega) hnil hfit
    refine ⟨_, Flow.leaves_get.bind ?_, hnext, rfl⟩
    dsimp only
    rw [hcompare, if_neg (by omega), if_neg hbefore]
    exact hwrite

/-- Every piece adds its bytes to those that have come before it. -/
theorem pushAll_leaves (hslot : Slot board policy iop seq) (hat : At iop skip before.length s)
    (hskip : skip < 2 ^ 31)
    (hfit : (before ++ chunks.flatten).length ≤ skip + imgMaxSize policy iop) :
    ∃ s', Flow.Leaves (pushAll board policy chunks) s
        (slotImage policy iop seq skip c before) true s'
        (slotImage policy iop seq skip c (before ++ chunks.flatten)) ∧
      At iop skip (before ++ chunks.flatten).length s' ∧ s'.skipSize = s.skipSize := by
  induction chunks generalizing before s with
  | nil =>
    rw [List.flatten_nil, List.append_nil]
    exact ⟨s, Flow.leaves_pure, hat, rfl⟩
  | cons data rest ih =>
    rw [List.flatten_cons, ← List.append_assoc] at hfit ⊢
    have hfirst : (before ++ data).length ≤ skip + imgMaxSize policy iop := by
      rw [List.length_append] at hfit
      omega
    obtain ⟨s₁, hrun, hat₁, hsame₁⟩ := otaPushData_leaves hslot hat hskip hfirst
    obtain ⟨s', hruns, hat', hsame'⟩ := ih hat₁ hfit
    exact ⟨s', hrun.bind hruns, hat', hsame'.trans hsame₁⟩

theorem uint32_lt {z : Int} (h : 0 ≤ z) (h' : z < 2 ^ 31) : uint32 z < 2 ^ 31 := by
  unfold uint32
  omega

theorem skipOrDefault_eq {z : Int} (h : 0 ≤ z) : skipOrDefault policy iop z = z :=
  if_neg (by omega)

theorem otaPushInit_leaves (hslot : Slot board policy iop seq) :
    Flow.Leaves (otaPushInit policy iop) s c true { s with iop := some iop, getSize := 0 } c := by
  have hvalid : (decide (policy = .pingpong) || decide (iop.imgXzMaxSize ≠ imageInvalidSize)) =
      true := by
    cases hp : policy with
    | pingpong => rfl
    | compression => simp [hslot.valid hp]
  unfold otaPushInit otaInit
  rw [hvalid]
  exact (Flow.leaves_modify rfl).bind Flow.leaves_pure

/-- From a count of 0 on. -/
theorem restart_leaves (hslot : Slot board policy iop seq) (hat : At iop skip 0 s)
    (hnonneg : 0 ≤ s.skipSize) (hskip : skip < 2 ^ 31)
    (hfit : chunks.flatten.length ≤ skip + imgMaxSize policy iop) :
    ∃ s', Flow.Leaves (restart board policy chunks) s c true s'
        (slotImage policy iop seq skip c chunks.flatten) ∧
      At iop skip chunks.flatten.length s' ∧ s'.skipSize = s.skipSize := by
  have hnone : At iop skip ([] : List Byte).length s := hat
  obtain ⟨s', hrun, hat', hsame⟩ := pushAll_leaves (c := c) hslot hnone hskip hfit
  refine ⟨s', ?_, hat', hsame⟩
  obtain ⟨hret, hpost⟩ := flashErase_spec hslot.area c
  have hstart : Flow.Leaves (otaPushStart board policy) s c true s
      (slotImage policy iop seq skip c []) := by
    obtain ⟨iop', getSize, skipSize⟩ := s
    obtain rfl : iop' = some iop := hat.iop
    unfold otaPushStart
    refine Flow.leaves_get.bind ?_
    dsimp only
    rw [hslot.update, slotImage_nil (Nat.zero_le _)]
    have hkeep : skipOrDefault policy iop skipSize = skipSize := skipOrDefault_eq hnonneg
    refine (Flow.leaves_modify (congrArg (OtaState.mk _ _) hkeep)).bind ?_
    exact Flow.leaves_lift hret hpost
  exact hstart.bind hrun

theorem pushSession_leaves (hslot : Slot board policy iop seq) (chunks : List (List Byte))
    (hnonneg : 0 ≤ s.skipSize) (hlt : s.skipSize < 2 ^ 31)
    (hfit : chunks.flatten.length ≤ uint32 s.skipSize + imgMaxSize policy iop) :
    ∃ s', Flow.Leaves (pushSession board policy iop chunks) s c true s'
        (slotImage policy iop seq (uint32 s.skipSize) c chunks.flatten) ∧
      At iop (uint32 s.skipSize) chunks.flatten.length s' ∧
      s'.skipSize = s.skipSize := by
  have hat : At iop (uint32 s.skipSize) 0 { s with iop := some iop, getSize := 0 } :=
    ⟨rfl, rfl, rfl⟩
  obtain ⟨s', hrun, hat', hsame⟩ :=
    restart_leaves (c := c) hslot hat hnonneg (uint32_lt hnonneg hlt) hfit
  exact ⟨s', (otaPushInit_leaves hslot).bind hrun, hat', hsame⟩

end

/-! ## Pulling -/

/-- Answers that fill what is left of the slot, or end the stream. -/
inductive Fills : Nat → List Reply → List Byte → Prop
  | full : Fills 0 [] []
  | more {max : Nat} {data stream : List Byte} {replies : List Reply} : 0 < max →
    data.length ≤ min max otaBufSize → Fills (max - data.length) replies stream →
    Fills max (⟨true, data, false⟩ :: replies) (data ++ stream)
  | eof {max : Nat} {data : List Byte} : 0 < max → data.length ≤ min max otaBufSize →
    Fills max [⟨true, data, true⟩] data

/-- Answers that deliver a stream in sizes up to those asked for: first `skip` bytes, and then
`max`. A short stream ends among the bytes to skip. -/
inductive Delivers (max : Nat) : Nat → List Reply → List Byte → Prop
  | skipped {stream : List Byte} {replies : List Reply} : Fills max replies stream →
    Delivers max 0 replies stream
  | more {skip : Nat} {data stream : List Byte} {replies : List Reply} : 0 < skip →
    data.length ≤ min skip otaBufSize → Delivers max (skip - data.length) replies stream →
    Delivers max skip (⟨true, data, false⟩ :: replies) (data ++ stream)
  | short {skip : Nat} {data : List Byte} : 0 < skip → data.length ≤ min skip otaBufSize →
    Delivers max skip [⟨true, data, true⟩] data

section

variable {board : Board} {policy : Policy} {iop : OtaParam} {seq skip max flash addr : Nat}
  {c : Cells} {stream : List Byte} {replies : List Reply} {s : OtaState}

theorem setSize_eq {n : Nat} (h : n < 2 ^ 32) :
    { s with getSize := u32 n } = ({ s with getSize := n } : OtaState) := by rw [u32_of_lt h]

/-- One answer, with or without bytes. -/
theorem writeLoop_reply {data : List Byte} {eof : Bool} {left : Nat} {rest : List Reply}
    {r : Bool × Nat} {s' : OtaState} {c' : Cells} (hleft : 0 < left) (hle : data.length ≤ left)
    (harea : Inside board flash addr left) (hcount : s.getSize + data.length < 2 ^ 32)
    (h : Flow.Leaves (if eof then pure (true, left - data.length)
        else writeLoop board flash rest (addr + data.length) (left - data.length))
      { s with getSize := s.getSize + data.length } (programCells c flash addr data) r s' c') :
    Flow.Leaves (writeLoop board flash (⟨true, data, eof⟩ :: rest) addr left) s c r s' c' := by
  have hlt := harea.lt
  unfold writeLoop
  rw [if_neg (by omega), Bool.not_true, if_neg Bool.false_ne_true]
  dsimp only
  by_cases hnil : data = []
  · subst hnil
    rw [if_pos List.length_nil]
    rw [programCells_nil] at h
    exact h
  · have hpos := List.length_pos_iff.mpr hnil
    have hinside : Inside board flash addr data.length := harea.mono (by omega)
    obtain ⟨hret, hpieces⟩ := halFlashWrite_spec hinside hnil c
    rw [if_neg (by omega), sub32_of_le hle, u32_of_lt (by omega)]
    refine (Flow.leaves_modify (setSize_eq hcount)).bind ?_
    exact (Flow.leaves_lift hret (hpieces.applyAll c)).bind h

theorem writeLoop_leaves (h : Fills max replies stream) (harea : Inside board flash addr max)
    (hcount : s.getSize + stream.length < 2 ^ 32) :
    ∃ ok left, Flow.Leaves (writeLoop board flash replies addr max) s c (ok, left)
        { s with getSize := s.getSize + stream.length }
        (programCells c flash addr stream) ∧ (ok || decide (left = 0)) = true := by
  induction h generalizing addr c s with
  | full =>
    refine ⟨false, 0, ?_, rfl⟩
    rw [programCells_nil]
    exact Flow.leaves_pure
  | @more max data stream replies hmax hle _ ih =>
    have hle' : data.length ≤ max := by omega
    have harea' : Inside board flash (addr + data.length) (max - data.length) :=
      harea.mono (by omega)
    rw [List.length_append] at hcount ⊢
    obtain ⟨ok, left, hrun, hdone⟩ := ih (c := programCells c flash addr data)
      (s := { s with getSize := s.getSize + data.length }) harea' (by dsimp only; omega)
    refine ⟨ok, left, writeLoop_reply hmax hle' harea (by omega) ?_, hdone⟩
    rw [if_neg Bool.false_ne_true, ← programCells_append, ← Nat.add_assoc]
    exact hrun
  | @eof max data hmax hle =>
    refine ⟨true, max - data.length, writeLoop_reply hmax (by omega) harea hcount ?_, rfl⟩
    rw [if_pos rfl]
    exact Flow.leaves_pure

/-- The bytes to skip are counted and left out, unless `eof_flag` comes before their end. The bytes
that come with it are not counted then. -/
theorem skipLoop_leaves (h : Delivers max skip replies stream)
    (hcount : s.getSize + stream.length < 2 ^ 32) :
    (∃ rest, Flow.Leaves (skipLoop replies skip) s c (some rest)
        { s with getSize := s.getSize + skip } c ∧
      Fills max rest (stream.drop skip) ∧ skip ≤ stream.length ∧
      ∀ reply ∈ rest, reply ∈ replies) ∨
    ∃ last ∈ replies, last.eof = true ∧ stream.length ≤ skip ∧
      Flow.Leaves (skipLoop replies skip) s c none
        { s with getSize := s.getSize + (stream.length - last.data.length) } c ∧
      last.data.length ≤ stream.length := by
  induction h generalizing s with
  | @skipped stream replies hfills =>
    refine .inl ⟨replies, ?_, hfills, Nat.zero_le _, fun _ h => h⟩
    cases replies with
    | nil => exact Flow.leaves_pure
    | cons reply rest => exact Flow.leaves_pure
  | @more skip data stream replies hskip hle _ ih =>
    rw [List.length_append] at hcount
    have hfirst : Flow.Leaves (Flow.modify fun s : OtaState =>
        { s with getSize := u32 (s.getSize + data.length) }) s c ()
        { s with getSize := s.getSize + data.length } c :=
      Flow.leaves_modify (setSize_eq (by omega))
    have hsub : sub32 skip data.length = skip - data.length := sub32_of_le (by omega)
    unfold skipLoop
    rw [if_neg (by omega), Bool.not_true, Bool.false_or, if_neg Bool.false_ne_true]
    dsimp only
    rw [hsub]
    rcases ih (s := { s with getSize := s.getSize + data.length }) (by dsimp only; omega) with
      ⟨rest, hrun, hfills, hlen, hmem⟩ | ⟨last, hlast, heof, hlen, hrun, hshort⟩
    · refine .inl ⟨rest, ?_, ?_, ?_, fun reply hr => List.mem_cons_of_mem _ (hmem reply hr)⟩
      · have hsum : s.getSize + skip = s.getSize + data.length + (skip - data.length) := by omega
        rw [hsum]
        exact hfirst.bind hrun
      · rw [List.drop_append, List.drop_of_length_le (by omega)]
        exact hfills
      · rw [List.length_append]
        omega
    · refine .inr ⟨last, List.mem_cons_of_mem _ hlast, heof, ?_, ?_, ?_⟩
      · rw [List.length_append]
        omega
      · have hsum : s.getSize + ((data ++ stream).length - last.data.length) =
            s.getSize + data.length + (stream.length - last.data.length) := by
          rw [List.length_append]
          omega
        rw [hsum]
        exact hfirst.bind hrun
      · rw [List.length_append]
        omega
  | @short skip data hskip hle =>
    refine .inr ⟨_, List.mem_singleton_self _, rfl, by omega, ?_, Nat.le_refl _⟩
    unfold skipLoop
    rw [if_neg (by omega), Bool.or_true, if_pos rfl]
    dsimp only
    rw [Nat.sub_self]
    exact Flow.leaves_pure

/-- No byte to skip comes together with `eof_flag`. -/
def EndsApart (skip : Nat) (replies : List Reply) (stream : List Byte) : Prop :=
  stream.length ≤ skip → ∀ reply ∈ replies, reply.eof = true → reply.data = []

/-- `ota_update_image_process` with the slot erased and the count at 0. -/
theorem otaDownload_of_loops (hslot : Slot board policy iop seq) {getSize : Nat} {skipSize : Int}
    (hnonneg : 0 ≤ skipSize) {loaded : Bool} {s' : OtaState} {c' : Cells}
    (h : Flow.Leaves
      (skipLoop replies (uint32 skipSize) >>= fun rest => match rest with
        | none => pure (decide (imgMaxSize policy iop = 0))
        | some rest => do
          let (ok, left) ←
            writeLoop board (iop.flash seq) rest (iop.addr seq) (imgMaxSize policy iop)
          pure (ok || left = 0))
      ⟨some iop, 0, skipSize⟩
      (eraseCells c (iop.flash seq) (iop.addr seq) (imgMaxSize policy iop)) loaded s' c') :
    Flow.Leaves (otaDownload board policy seq true replies) ⟨some iop, getSize, skipSize⟩ c
      loaded s' c' := by
  obtain ⟨herase, hpost⟩ := flashErase_spec hslot.area c
  have hkeep : skipOrDefault policy iop skipSize = skipSize := skipOrDefault_eq hnonneg
  unfold otaDownload
  refine Flow.leaves_get.bind ((Flow.leaves_lift herase hpost).bind
    ((Flow.leaves_lift rfl rfl).bind ?_))
  refine (Flow.leaves_modify (congrArg (OtaState.mk _ _) hkeep)).bind ?_
  dsimp only
  rw [hkeep]
  exact h

theorem otaDownload_leaves (hslot : Slot board policy iop seq) (hiop : s.iop = some iop)
    (hnonneg : 0 ≤ s.skipSize) (hlt : s.skipSize < 2 ^ 31)
    (h : Delivers (imgMaxSize policy iop) (uint32 s.skipSize) replies stream)
    (hfit : stream.length ≤ uint32 s.skipSize + imgMaxSize policy iop)
    (hapart : EndsApart (uint32 s.skipSize) replies stream) :
    ∃ loaded s', Flow.Leaves (otaDownload board policy seq true replies) s c loaded s'
        (slotImage policy iop seq (uint32 s.skipSize) c stream) ∧
      s'.getSize = stream.length := by
  have hmax := hslot.max
  have hskip := uint32_lt hnonneg hlt
  obtain ⟨iop', getSize, skipSize⟩ := s
  obtain rfl : iop' = some iop := hiop
  dsimp only at h hfit hapart hskip hnonneg ⊢
  rcases skipLoop_leaves (s := ⟨some iop, 0, skipSize⟩)
      (c := eraseCells c (iop.flash seq) (iop.addr seq) (imgMaxSize policy iop)) h
      (by dsimp only; omega) with
    ⟨rest, hrun, hfills, hlen, -⟩ | ⟨last, hlast, heof, hlen, hrun, -⟩
  · have hdrop : (stream.drop (uint32 skipSize)).length = stream.length - uint32 skipSize :=
      List.length_drop
    obtain ⟨ok, left, hwrite, hdone⟩ := writeLoop_leaves
      (s := ⟨some iop, 0 + uint32 skipSize, skipSize⟩)
      (c := eraseCells c (iop.flash seq) (iop.addr seq) (imgMaxSize policy iop)) hfills
      hslot.area.inside (by dsimp only; omega)
    refine ⟨true, ⟨some iop, 0 + uint32 skipSize + (stream.drop (uint32 skipSize)).length, skipSize⟩,
      otaDownload_of_loops hslot hnonneg (hrun.bind (hwrite.bind ?_)), ?_⟩
    · dsimp only
      rw [hdone]
      exact Flow.leaves_pure
    · dsimp only
      omega
  · refine ⟨decide (imgMaxSize policy iop = 0),
      ⟨some iop, 0 + (stream.length - last.data.length), skipSize⟩,
      otaDownload_of_loops hslot hnonneg (hrun.bind ?_), ?_⟩
    · rw [slotImage_nil hlen]
      exact Flow.leaves_pure
    · dsimp only
      rw [hapart hlen last hlast heof, List.length_nil]
      omega

/-- The check of the sections changes neither the slot nor the count. -/
theorem quiet_otaCheckLoaded {fuel : Nat} : Flow.Quiet (otaCheckLoaded board fuel seq) := by
  refine Flow.quiet_get.bind fun s => ?_
  cases s.iop with
  | none => exact Flow.quiet_hang
  | some iop =>
    refine (Flow.quiet_lift quiet_imageCheckSections).bind fun val => ?_
    cases val with
    | none => exact Flow.quiet_hang
    | some val => exact Flow.quiet_pure _

theorem keeps_otaCheckLoaded {fuel : Nat} : Flow.Keeps id (otaCheckLoaded board fuel seq) := by
  refine Flow.keeps_get.bind fun s => ?_
  cases s.iop with
  | none => exact Flow.keeps_hang
  | some iop =>
    refine (Flow.keeps_lift _).bind fun val => ?_
    cases val with
    | none => exact Flow.keeps_hang
    | some val => exact Flow.keeps_pure _

theorem otaUpdateImageProcess_leaves {loaded initOk : Bool} {s' : OtaState} {c' : Cells}
    (fuel : Nat)
    (h : Flow.Leaves (otaDownload board policy seq initOk replies) s c loaded s' c') :
    post (otaUpdateImageProcess board policy fuel seq initOk replies s) c = c' ∧
      ∀ r t, Flow.Returns (otaUpdateImageProcess board policy fuel seq initOk replies) s c r t →
        t = s' := by
  have hquiet : Flow.Quiet (if !loaded then pure false else otaCheckLoaded board fuel seq) :=
    (Flow.quiet_pure _).ite quiet_otaCheckLoaded
  have hkeeps : Flow.Keeps id (if !loaded then pure false else otaCheckLoaded board fuel seq) :=
    (Flow.keeps_pure _).ite keeps_otaCheckLoaded
  unfold otaUpdateImageProcess
  refine ⟨?_, fun r t hr => ?_⟩
  · rw [Flow.post_bind_run h.returns, h.post]
    exact (hquiet.run s').post c'
  · obtain ⟨loaded', t₁, h₁, h₂⟩ := Flow.returns_bind.mp hr
    obtain ⟨rfl, rfl⟩ := h.unique h₁
    exact hkeeps.run _ _ _ _ h₂

/-- A push session, one call with the whole stream, and a pull of the stream. -/
theorem push_pull_agree (hslot : Slot board policy iop seq) (chunks : List (List Byte))
    (hnonneg : 0 ≤ s.skipSize) (hlt : s.skipSize < 2 ^ 31)
    (hfit : chunks.flatten.length ≤ uint32 s.skipSize + imgMaxSize policy iop) :
    ∃ contents, contents = chunks.flatten.drop (uint32 s.skipSize) ++ List.replicate
        (imgMaxSize policy iop - (chunks.flatten.drop (uint32 s.skipSize)).length) blank ∧
      (∃ s' c', Flow.Leaves (pushSession board policy iop chunks) s c true s' c' ∧
        s'.getSize = chunks.flatten.length ∧
        readCells c' (iop.flash seq) (iop.addr seq) (imgMaxSize policy iop) = contents ∧
        ∃ s₁, Flow.Leaves (pushSession board policy iop [chunks.flatten]) s c true s₁ c' ∧
          s₁.getSize = s'.getSize) ∧
      ∀ s₂ c₂ replies fuel, s₂.iop = some iop → s₂.skipSize = s.skipSize →
        Delivers (imgMaxSize policy iop) (uint32 s.skipSize) replies chunks.flatten →
        EndsApart (uint32 s.skipSize) replies chunks.flatten →
        readCells (post (otaUpdateImageProcess board policy fuel seq true replies s₂) c₂)
          (iop.flash seq) (iop.addr seq) (imgMaxSize policy iop) = contents ∧
        (∃ loaded s', Flow.Returns (otaDownload board policy seq true replies) s₂ c₂ loaded s' ∧
          s'.getSize = chunks.flatten.length) ∧
        ∀ r s', Flow.Returns (otaUpdateImageProcess board policy fuel seq true replies) s₂ c₂ r
          s' → s'.getSize = chunks.flatten.length := by
  refine ⟨_, rfl, ?_, ?_⟩
  · have hone : [chunks.flatten].flatten = chunks.flatten := by simp
    obtain ⟨s', hrun, hat, -⟩ := pushSession_leaves (c := c) hslot chunks hnonneg hlt hfit
    obtain ⟨s₁, hrun₁, hat₁, -⟩ := pushSession_leaves (c := c) hslot [chunks.flatten]
      hnonneg hlt (by rw [hone]; exact hfit)
    rw [hone] at hrun₁ hat₁
    exact ⟨s', _, hrun, hat.count, read_slotImage hfit, s₁, hrun₁,
      hat₁.count.trans hat.count.symm⟩
  · intro s₂ c₂ replies fuel hiop hskip hdelivers hapart
    rw [← hskip] at hnonneg hlt hfit hdelivers hapart ⊢
    obtain ⟨loaded, s', hload, hcount⟩ :=
      otaDownload_leaves (c := c₂) hslot hiop hnonneg hlt hdelivers hfit hapart
    obtain ⟨hpost, hreturns⟩ := otaUpdateImageProcess_leaves fuel hload
    refine ⟨?_, ⟨loaded, s', hload.returns, hcount⟩, fun r t hr => ?_⟩
    · rw [hpost]
      exact read_slotImage hfit
    · rw [hreturns r t hr]
      exact hcount

end

/-! ## A slot of 4 KiB -/

def smallBoard : Board := fun dev => if dev = 0 then some ⟨0x200000, EraseMode.kb4.size⟩ else none

theorem supported_smallBoard {dev addr size : Nat} (chip : Chip)
    (hb : smallBoard dev = some chip) : (erasePlan chip addr size).Supported chip := by
  unfold smallBoard at hb
  split at hb
  · obtain rfl := Option.some.inj hb
    have hsectors : Chip.supports ⟨0x200000, EraseMode.kb4.size⟩ .kb4 = true := by decide
    rw [erasePlan, if_neg fun h => absurd h.2 (by decide), if_neg fun h => absurd h.2 (by decide)]
    split
    · exact List.forall_mem_singleton.mpr fun _ => hsectors
    · exact List.forall_mem_nil _
  · cases hb

/-- The image runs from slot 1. -/
def smallParam : OtaParam where
  otaFlash := 0
  otaSize := 0x1000
  otaAddr := 0x10000
  imgMaxSize := 4
  imgXzMaxSize := imageInvalidSize
  blSize := 0x4000
  runningSeq := 1
  flash := fun _ => 0
  addr := fun seq => if seq = 0 then 0x4000 else 0x8000

theorem slot_small : Slot smallBoard .pingpong smallParam 0 where
  update := by decide
  valid := nofun
  max := by decide
  area := ⟨⟨⟨_, rfl, by decide, by decide⟩, .kb4, by decide⟩, supported_smallBoard⟩

/-- Three bytes in two pieces with the first one skipped, and a pull of them. -/
theorem push_pull_agree_small : ∃ s' c', Flow.Leaves
      (pushSession smallBoard .pingpong smallParam [[1, 2], [3]]) ⟨none, 7, 1⟩ (fun _ _ => 0)
      true s' c' ∧ s'.getSize = 3 ∧
    ∃ loaded s₂, Flow.Returns (otaDownload smallBoard .pingpong 0 true
        [⟨true, [1], false⟩, ⟨true, [2, 3], true⟩]) ⟨some smallParam, 7, 1⟩ (fun _ _ => 0)
      loaded s₂ ∧ s₂.getSize = 3 := by
  obtain ⟨_, -, hpush, hpull⟩ := push_pull_agree (s := ⟨none, 7, 1⟩)
    (c := fun _ _ => 0) slot_small [[1, 2], [3]] (by decide) (by decide) (by decide)
  obtain ⟨s', c', hrun, hcount, -⟩ := hpush
  have hdelivers : Delivers (imgMaxSize .pingpong smallParam) (uint32 1)
      [⟨true, [1], false⟩, ⟨true, [2, 3], true⟩] ([1] ++ [2, 3]) :=
    .more (by decide) (by decide) (.skipped (.eof (by decide) (by decide)))
  obtain ⟨-, hload, -⟩ := hpull ⟨some smallParam, 7, 1⟩ (fun _ _ => 0) _ 0 rfl rfl hdelivers
    fun hle => absurd hle (by decide)
  exact ⟨s', c', hrun, hcount, hload⟩

/-- A session after `ota_push_start` alone, with another one before it. -/
def twoSessions (before chunks : List (List Byte)) : Flow OtaState Bool := do
  let ok ← pushSession smallBoard .pingpong smallParam before
  if !ok then pure false else restart smallBoard .pingpong chunks

theorem returns_of_size {m : Flow OtaState Bool} {s : OtaState} {c : Cells} {a : Bool} {n : Nat}
    (h : (ret (m s) c).map (fun r => (r.1, r.2.getSize)) = some (a, n)) :
    ∃ s', Flow.Returns m s c a s' ∧ s'.getSize = n := by
  obtain ⟨r, hr, heq⟩ := Option.map_eq_some_iff.mp h
  injection heq with ha hn
  exact ⟨r.2, hr.trans (by rw [← ha]), hn⟩

/-- The second session goes on with the count of the first one, and a pull does not count the bytes
to skip that come with `eof_flag`. -/
theorem count_goes_on :
    (¬∀ (before chunks : List (List Byte)) (s s' : OtaState) (c : Cells), 0 ≤ s.skipSize →
      Flow.Returns (twoSessions before chunks) s c true s' →
      s'.getSize = chunks.flatten.length) ∧
    ¬∀ (stream : List Byte) (replies : List Reply) (fuel : Nat) (r : Bool) (s s' : OtaState)
      (c : Cells), s.iop = some smallParam → 0 ≤ s.skipSize →
      Delivers (imgMaxSize .pingpong smallParam) (uint32 s.skipSize) replies stream →
      Flow.Returns (otaUpdateImageProcess smallBoard .pingpong fuel 0 true replies) s c r s' →
      s'.getSize = stream.length := by
  constructor
  · intro hclaim
    obtain ⟨s', hrun, hcount⟩ := returns_of_size (m := twoSessions [[1]] [[2]])
      (s := ⟨none, 0, 0⟩) (c := fun _ _ => 0) (a := true) (n := 2) (by decide)
    have hone := hclaim [[1]] [[2]] _ _ _ (by decide) hrun
    rw [hcount] at hone
    exact absurd hone (by decide)
  · intro hclaim
    obtain ⟨s', hrun, hcount⟩ := returns_of_size
      (m := otaUpdateImageProcess smallBoard .pingpong 0 0 true [⟨true, [1], true⟩])
      (s := ⟨some smallParam, 0, 4⟩) (c := fun _ _ => 0) (a := false) (n := 0)
      (by decide)
    have hone := hclaim [1] _ _ _ _ _ _ rfl (by decide) (.short (by decide) (by decide)) hrun
    rw [hcount] at hone
    exact absurd hone (by decide)

end Ota
end XR806

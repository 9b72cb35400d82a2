import XR806.Flash.Requests
import XR806.Image.FdcmLog

/-!
# XR806.Image.FdcmArea

Whether `fdcm_read` and `fdcm_write` stay in their area, whatever the area holds and whichever
requests fail.

Both compute the place of a slot from the header and the number of used bits, with 32 bits, and
check only a part of it. `fdcm_read` looks for the slot in front of the first free one, also when no
bit is used; its slot has to lie in the area (`ReadFits`). `fdcm_write` checks where the next slot
ends; the carry of that sum may put the slot in front of the area (`WriteFits`).
-/

namespace XR806
namespace Image

open Nor Flash

/-- The header at the start of the area. -/
def areaHeader (h : FdcmHandle) (c : Cells) : FdcmHeader :=
  FdcmHeader.decode (readCells c h.flash h.addr fdcmHeaderSize)

/-- The bits that the bitmap behind the header counts as used. -/
def areaBitCount (h : FdcmHandle) (c : Cells) : Nat :=
  fdcmBitCount (readCells c h.flash (h.addr + fdcmHeaderSize) (areaHeader h c).bitmapSize)

/-- Where slot `n` is, from the start of the area on. -/
def slotOffset (h : FdcmHandle) (d n : Nat) (c : Cells) : Nat :=
  u32 (fdcmHeaderSize + (areaHeader h c).bitmapSize + d * n)

/-- The slot `fdcm_read` takes for the last one. -/
def lastOffset (h : FdcmHandle) (d : Nat) (c : Cells) : Nat :=
  slotOffset h d (sub32 (areaBitCount h c) 1) c

/-- The last slot is in the area, or the driver refuses to read it. -/
def ReadFits (board : Board) (h : FdcmHandle) (d : Nat) (c : Cells) : Prop :=
  (areaHeader h c).validFor h d → Accepts board h.flash (u32 (h.addr + lastOffset h d c)) d →
    lastOffset h d c + d ≤ h.size

/-- The next slot is refused, or it does not end less than a slot behind a carry. -/
def WriteFits (h : FdcmHandle) (d : Nat) (c : Cells) : Prop :=
  (areaHeader h c).validFor h d →
    d ≤ sub32 h.size (fdcmHeaderSize + (areaHeader h c).bitmapSize) →
    ¬fdcmFull h d (areaHeader h c).bitmapSize (areaBitCount h c) →
    d ≤ slotOffset h d (areaBitCount h c + 1) c

/-- Started on the cells `c`, the program makes no request outside the area. -/
def StaysInArea (h : FdcmHandle) (p : Prog α) (c : Cells) : Prop :=
  ∀ busy es r s', Answers p ⟨c, busy⟩ es r s' → ∀ e ∈ es, StaysIn h.flash h.addr (h.addr + h.size) e

section
variable {board : Board} {h : FdcmHandle} {d : Nat} {c : Cells} {data : List Byte}

theorem stays_fdcmRewrite (ha : EraseArea board h.flash h.addr h.size) :
    Only (StaysIn h.flash h.addr (h.addr + h.size)) (fdcmRewrite board h data) := by
  obtain ⟨hfits, -⟩ := fdcmBitmapSize_fits ha data.length
  have hlt := ha.inside.lt
  simp only [fdcmHeaderSize] at hfits
  unfold fdcmRewrite
  dsimp only
  split
  · exact only_pure _
  rename_i hbig
  rw [sub32_of_le (by simp only [fdcmHeaderSize]; omega)] at hbig
  simp only [fdcmHeaderSize] at hbig ⊢
  rw [u32_of_lt (by omega), u32_of_lt (by omega)]
  refine (stays_flashErase ha).bind fun ok => (only_pure _).ite ?_
  refine (stays_flashWrite (Nat.le_refl _) ?_ hlt).bind fun n => (only_pure _).ite ?_
  · rw [FdcmHeader.length_encode]
    simp only [fdcmHeaderSize]
    omega
  refine (stays_flashWrite (by omega) (by simp; omega) hlt).bind fun n => (only_pure _).ite ?_
  exact (stays_flashWrite (by omega) (by omega) hlt).bind fun n => only_pure _

/-! ## The rules -/

theorem StaysInArea.of_only {p : Prog α}
    (hp : Only (StaysIn h.flash h.addr (h.addr + h.size)) p) : StaysInArea h p c :=
  fun _ _ _ _ hrun => hp.mem hrun

/-- A read inside the area, and what is done with its answer. -/
theorem StaysInArea.read {f : Option (List Byte) → Prog α} {n addr : Nat} (hlo : h.addr ≤ addr)
    (hhi : addr + n ≤ h.addr + h.size) (hnone : StaysInArea h (f none) c)
    (hsome : StaysInArea h (f (some (readCells c h.flash addr n))) c) :
    StaysInArea h (flashRead board h.flash addr n >>= f) c := by
  intro busy es r s' hrun e he
  obtain ⟨es₁, es₂, got, s₁, rfl, hread, hrest⟩ := answers_bind.mp hrun
  obtain ⟨rfl, hgot⟩ := answers_flashRead hread
  rcases List.mem_append.mp he with he | he
  · exact (stays_flashRead hlo hhi).mem hread e he
  · rcases hgot with rfl | rfl
    · exact hnone _ _ _ _ hrest e he
    · exact hsome _ _ _ _ hrest e he

theorem StaysInArea.alloc {f : Bool → Prog α} {n : Nat} (hf : ∀ ok, StaysInArea h (f ok) c) :
    StaysInArea h (allocReq n >>= f) c := by
  intro busy es r s' hrun e he
  obtain ⟨es₁, es₂, ok, s₁, rfl, halloc, hrest⟩ := answers_bind.mp hrun
  obtain ⟨rfl, rfl⟩ := answers_allocReq.mp halloc
  rcases List.mem_append.mp he with he | he
  · rw [List.mem_singleton.mp he]
    trivial
  · exact hf ok _ _ _ _ hrest e he

/-- What a run makes when everything is granted stays in the area. -/
theorem StaysInArea.granted {p : Prog α} (hp : StaysInArea h p c) :
    ∀ e ∈ granted p c, StaysIn h.flash h.addr (h.addr + h.size) e := hp _ _ _ _ (answers_ret p c)

/-- A slot is in the area when its offset is. -/
theorem slot_inside {addr size offset d : Nat} (hlt : addr + size < 2 ^ 32)
    (hoff : offset < 2 ^ 32) :
    addr ≤ u32 (addr + offset) ∧ u32 (addr + offset) + d ≤ addr + size ↔ offset + d ≤ size := by
  unfold u32
  omega

theorem slotOffset_lt {n : Nat} : slotOffset h d n c < 2 ^ 32 := Nat.mod_lt _ (by decide)

/-- The address the code computes for slot `n`. -/
theorem slot_address (n : Nat) :
    u32 (h.addr + fdcmHeaderSize + (areaHeader h c).bitmapSize + d * n) =
      u32 (h.addr + slotOffset h d n c) := by
  unfold slotOffset u32
  omega

/-! ## Reading -/

/-- The bitmap behind a valid header is in the area. -/
theorem bitmap_inside (ha : EraseArea board h.flash h.addr h.size)
    (hv : (areaHeader h c).validFor h d) :
    u32 (h.addr + fdcmHeaderSize) = h.addr + fdcmHeaderSize ∧
      h.addr + fdcmHeaderSize + (areaHeader h c).bitmapSize ≤ h.addr + h.size ∧
      ret (flashRead board h.flash (u32 (h.addr + fdcmHeaderSize)) (areaHeader h c).bitmapSize) c =
        some (readCells c h.flash (h.addr + fdcmHeaderSize) (areaHeader h c).bitmapSize) := by
  have hlt := ha.inside.lt
  obtain ⟨-, -, hpos, hfits⟩ := hv
  have hu : u32 (h.addr + fdcmHeaderSize) = h.addr + fdcmHeaderSize := u32_of_lt (by omega)
  rw [hu]
  exact ⟨rfl, by omega, ret_flashRead (ha.inside.mono (by omega)) (Nat.pos_of_ne_zero hpos) c⟩

theorem ret_header (ha : EraseArea board h.flash h.addr h.size) :
    ret (flashRead board h.flash h.addr fdcmHeaderSize) c =
      some (readCells c h.flash h.addr fdcmHeaderSize) := by
  have hsz := EraseArea.size_ge ha
  have hin : Inside board h.flash h.addr fdcmHeaderSize :=
    ha.inside.mono (by simp only [fdcmHeaderSize]; omega)
  exact ret_flashRead hin (by decide) c

/-- A read with everything granted comes to the last slot. -/
theorem granted_fdcmRead (ha : EraseArea board h.flash h.addr h.size)
    (hv : (areaHeader h c).validFor h d) :
    ∃ es, granted (fdcmRead board h d) c =
      es ++ granted (flashRead board h.flash (u32 (h.addr + lastOffset h d c)) d) c := by
  obtain ⟨-, -, hbitmap⟩ := bitmap_inside ha hv
  rw [lastOffset, ← slot_address]
  simp only [fdcmRead, granted_bind, ret_header ha, post_flashRead]
  change ∃ es, _ ++ granted (if ¬(areaHeader h c).validFor h d then pure none else _) c = _
  rw [if_neg (not_not.mpr hv)]
  simp only [granted_bind, ret_allocReq, post_allocReq, Bool.not_true, Bool.false_eq_true, if_false,
    post_flashRead]
  rw [areaHeader] at hbitmap
  rw [hbitmap]
  exact ⟨_ ++ (_ ++ _), by simp only [List.append_assoc]; rfl⟩

theorem staysInArea_fdcmRead (ha : EraseArea board h.flash h.addr h.size) :
    StaysInArea h (fdcmRead board h d) c ↔ ReadFits board h d c := by
  have hlt := ha.inside.lt
  constructor
  · intro hstay hv hacc
    obtain ⟨es, hes⟩ := granted_fdcmRead ha hv
    have hmem : .read h.flash (u32 (h.addr + lastOffset h d c)) d true ∈
        granted (fdcmRead board h d) c := by
      rw [hes, granted_flashRead hacc]
      exact List.mem_append_right _ (List.mem_singleton_self _)
    obtain ⟨-, hlo, hhi⟩ := hstay.granted _ hmem
    exact (slot_inside hlt slotOffset_lt).mp ⟨hlo, hhi⟩
  · intro hfits
    have hsz := EraseArea.size_ge ha
    refine StaysInArea.read (Nat.le_refl _) (by simp only [fdcmHeaderSize]; omega)
      (.of_only (only_pure _)) ?_
    change StaysInArea h (if ¬(areaHeader h c).validFor h d then pure none else _) c
    split
    · exact .of_only (only_pure _)
    rename_i hv
    rw [not_not] at hv
    obtain ⟨hu, hle, -⟩ := bitmap_inside ha hv
    refine StaysInArea.alloc fun ok => ?_
    cases ok with
    | false => exact .of_only (only_pure _)
    | true =>
      simp only [Bool.not_true, Bool.false_eq_true, if_false, hu]
      refine StaysInArea.read (Nat.le_add_right ..) hle (.of_only (only_pure _)) (.of_only ?_)
      refine only_halFlashRead fun hacc ok => ?_
      change Accepts board h.flash (u32 (h.addr + fdcmHeaderSize + (areaHeader h c).bitmapSize +
        d * sub32 (areaBitCount h c) 1)) d at hacc
      change StaysIn h.flash h.addr (h.addr + h.size) (.read h.flash (u32 (h.addr + fdcmHeaderSize +
        (areaHeader h c).bitmapSize + d * sub32 (areaBitCount h c) 1)) d ok)
      rw [slot_address] at hacc ⊢
      exact ⟨rfl, (slot_inside hlt slotOffset_lt).mpr (hfits hv hacc)⟩

/-! ## Writing -/

theorem lt_of_not_full {h : FdcmHandle} {bs n : Nat} (hfull : ¬fdcmFull h d bs n) :
    n / fdcmByteBits < bs ∧ u32 (fdcmHeaderSize + bs + d * (n + 1)) ≤ h.size := by
  simp only [fdcmFull, fdcmByteBits, not_or, not_le, gt_iff_lt, not_lt] at hfull ⊢
  omega

/-- Where the slot lies whose end is at `slotOffset h d (n + 1) c`. -/
theorem slotOffset_succ {n : Nat} :
    slotOffset h d (n + 1) c = u32 (slotOffset h d n c + d) := by
  unfold slotOffset u32
  rw [Nat.mul_succ]
  omega

theorem stays_fdcmAppend (ha : EraseArea board h.flash h.addr h.size) {bitmap : List Byte}
    (hv : (areaHeader h c).validFor h d)
    (hfull : ¬fdcmFull h d (areaHeader h c).bitmapSize (areaBitCount h c)) (hlen : data.length = d)
    (hfits : d ≤ slotOffset h d (areaBitCount h c + 1) c) :
    Only (StaysIn h.flash h.addr (h.addr + h.size))
      (fdcmAppend board h data bitmap (areaHeader h c).bitmapSize (areaBitCount h c)) := by
  have hlt := ha.inside.lt
  obtain ⟨hbyte, hend⟩ := lt_of_not_full hfull
  obtain ⟨hu, hle, -⟩ := bitmap_inside ha hv
  unfold fdcmAppend
  dsimp only
  generalize areaBitCount h c / fdcmByteBits = index at hbyte ⊢
  have hbitAddr : u32 (h.addr + fdcmHeaderSize + index) = h.addr + fdcmHeaderSize + index :=
    u32_of_lt (by omega)
  rw [hbitAddr, hlen, slot_address]
  have hoff := slotOffset_succ (h := h) (d := d) (c := c) (n := areaBitCount h c)
  have hslot : slotOffset h d (areaBitCount h c) c < 2 ^ 32 := slotOffset_lt
  change slotOffset h d (areaBitCount h c + 1) c ≤ h.size at hend
  have hin : slotOffset h d (areaBitCount h c) c + d ≤ h.size := by
    unfold u32 at hoff
    omega
  obtain ⟨hlo, hhi⟩ := (slot_inside hlt hslot).mpr hin
  refine (stays_flashWrite (by omega) (by simp only [List.length_singleton]; omega) hlt).bind fun n => ?_
  exact (only_pure _).ite (stays_flashWrite hlo (by rw [hlen]; exact hhi) hlt)

/-- A write with everything granted comes to the next slot. -/
theorem granted_fdcmWrite (ha : EraseArea board h.flash h.addr h.size) (hlen : data.length = d)
    (hv : (areaHeader h c).validFor h d)
    (hbig : d ≤ sub32 h.size (fdcmHeaderSize + (areaHeader h c).bitmapSize))
    (hfull : ¬fdcmFull h d (areaHeader h c).bitmapSize (areaBitCount h c)) :
    ∃ es c', granted (fdcmWrite board h data) c =
      es ++ granted (flashWrite board h.flash
        (u32 (h.addr + slotOffset h d (areaBitCount h c) c)) data) c' := by
  subst hlen
  have hlt := ha.inside.lt
  obtain ⟨hu, hle, hbitmap⟩ := bitmap_inside ha hv
  obtain ⟨hbyte, -⟩ := lt_of_not_full hfull
  simp only [fdcmWrite, granted_bind, ret_header ha, post_flashRead]
  change ∃ es c', _ ++ granted (if ¬(areaHeader h c).validFor h data.length then _
    else if data.length > sub32 h.size (fdcmHeaderSize + (areaHeader h c).bitmapSize) then pure 0
    else _) c = _
  rw [if_neg (not_not.mpr hv), if_neg (Nat.not_lt.mpr hbig)]
  simp only [granted_bind, ret_allocReq, post_allocReq, Bool.not_true, Bool.false_eq_true, if_false,
    post_flashRead]
  rw [areaHeader] at hbitmap
  rw [hbitmap]
  change ∃ es c', _ ++ (_ ++ (_ ++ granted (if fdcmFull h data.length (areaHeader h c).bitmapSize
    (areaBitCount h c) then _ else fdcmAppend board h data _ (areaHeader h c).bitmapSize
      (areaBitCount h c)) c)) = _
  rw [if_neg hfull, fdcmAppend]
  generalize areaBitCount h c / fdcmByteBits = index at hbyte ⊢
  have hbitAddr : u32 (h.addr + fdcmHeaderSize + index) = h.addr + fdcmHeaderSize + index :=
    u32_of_lt (by omega)
  rw [hbitAddr, slot_address]
  generalize (_ : Byte) &&& ~~~(1#8 <<< (areaBitCount h c % fdcmByteBits)) = byte
  have hone := flashWrite_spec ha.inside (h.addr + fdcmHeaderSize + index) [byte]
    (by rw [List.length_singleton]; omega) (List.cons_ne_nil _ _) c
  simp only [granted_bind, hone.1, List.length_singleton, ne_eq, not_true, if_false]
  exact ⟨_ ++ (_ ++ (_ ++ _)), _, by simp only [List.append_assoc]; rfl⟩

theorem staysInArea_fdcmWrite (ha : EraseArea board h.flash h.addr h.size)
    (hlen : data.length = d) :
    StaysInArea h (fdcmWrite board h data) c ↔ WriteFits h d c := by
  have hlt := ha.inside.lt
  constructor
  · intro hstay hv hbig hfull
    by_contra hcarry
    have hslot : slotOffset h d (areaBitCount h c) c < 2 ^ 32 := slotOffset_lt
    have hoff := slotOffset_succ (h := h) (d := d) (c := c) (n := areaBitCount h c)
    obtain ⟨-, hend⟩ := lt_of_not_full hfull
    change slotOffset h d (areaBitCount h c + 1) c ≤ h.size at hend
    obtain ⟨es, c', hes⟩ := granted_fdcmWrite ha hlen hv hbig hfull
    generalize hn : slotOffset h d (areaBitCount h c) c = offset at hslot hoff hes
    generalize slotOffset h d (areaBitCount h c + 1) c = next at hcarry hoff hend
    obtain ⟨chip, hb, hle, hm⟩ := ha.inside.chip
    -- the byte in front of the area
    have hacc : Accepts board h.flash (u32 (h.addr + offset)) data.length := by
      refine ⟨chip, hb, by omega, ?_⟩
      rw [hlen]
      unfold u32 at hoff ⊢
      omega
    have hlast : d - next - 1 < data.length := by omega
    obtain ⟨a, bs, hmem, h1, h2⟩ := granted_writePages h.flash c' (le_refl data.length)
      (show u32 (h.addr + offset) < 2 ^ 32 from Nat.mod_lt _ (by decide)) hlast
    have hfront : u32 (u32 (h.addr + offset) + (d - next - 1)) = u32 (h.addr + (2 ^ 32 - 1)) := by
      unfold u32 at hoff ⊢
      omega
    rw [hfront] at h1 h2
    have hin := hstay.granted (.command (.program h.flash a bs) true) (by
      rw [hes, granted_flashWrite hacc]
      exact List.mem_append_right _ hmem)
    obtain ⟨-, hlo, hhi⟩ := hin
    unfold u32 at h1 h2
    omega
  · intro hfits
    have hsz := EraseArea.size_ge ha
    refine StaysInArea.read (Nat.le_refl _) (by simp only [fdcmHeaderSize]; omega)
      (.of_only (only_pure _)) ?_
    change StaysInArea h (if ¬(areaHeader h c).validFor h data.length then fdcmRewrite board h data
      else if data.length > sub32 h.size (fdcmHeaderSize + (areaHeader h c).bitmapSize) then pure 0
      else _) c
    rw [hlen]
    split
    · exact .of_only (stays_fdcmRewrite ha)
    rename_i hv
    rw [not_not] at hv
    split
    · exact .of_only (only_pure _)
    rename_i hbig
    obtain ⟨hu, hle, -⟩ := bitmap_inside ha hv
    refine StaysInArea.alloc fun ok => ?_
    cases ok with
    | false => exact .of_only (only_pure _)
    | true =>
      simp only [Bool.not_true, Bool.false_eq_true, if_false, hu]
      refine StaysInArea.read (Nat.le_add_right ..) hle (.of_only (only_pure _)) ?_
      change StaysInArea h (if fdcmFull h d (areaHeader h c).bitmapSize (areaBitCount h c)
        then fdcmRewrite board h data
        else fdcmAppend board h data _ (areaHeader h c).bitmapSize (areaBitCount h c)) c
      split
      · exact .of_only (stays_fdcmRewrite ha)
      · rename_i hfull
        exact .of_only (stays_fdcmAppend ha hv hfull hlen
          (hfits hv (Nat.le_of_not_lt hbig) hfull))

/-- Both stay in the area exactly when the slot they compute is in it. -/
theorem fdcm_stays_in_area (ha : EraseArea board h.flash h.addr h.size) (d : Nat) (c : Cells) :
    (StaysInArea h (fdcmRead board h d) c ↔ ReadFits board h d c) ∧
      ∀ data : List Byte, data.length = d →
        (StaysInArea h (fdcmWrite board h data) c ↔ WriteFits h d c) :=
  ⟨staysInArea_fdcmRead ha, fun _ hlen => staysInArea_fdcmWrite ha hlen⟩

end

theorem fdcm_stays_in_area_blank :
    StaysInArea area4k (fdcmRead oneChip area4k 1) (fun _ _ => blank) ∧
      StaysInArea area4k (fdcmWrite oneChip area4k [0x5A]) fun _ _ => blank :=
  have ha : EraseArea oneChip area4k.flash area4k.addr area4k.size :=
    ⟨inside_area4k, .kb4, by decide⟩
  have hinvalid : ¬(areaHeader area4k fun _ _ => blank).validFor area4k 1 := by decide
  ⟨(fdcm_stays_in_area ha 1 _).1.mpr fun hv => absurd hv hinvalid,
    ((fdcm_stays_in_area ha 1 _).2 [0x5A] rfl).mpr fun hv => absurd hv hinvalid⟩

/-- The second sector of a chip. -/
def secondArea : FdcmHandle := ⟨0, 4096, 4096⟩

/-- A header for chunks of 100 bytes in front of a bitmap with no bit used. -/
def emptyLog : Cells := fun _ a => (FdcmHeader.encode ⟨fdcmIdCode, 1, 100⟩).getD (a - 4096) blank

theorem read_before_area : .read 0 4005 100 true ∈ granted (fdcmRead oneChip secondArea 100) emptyLog ∧
    ¬StaysInArea secondArea (fdcmRead oneChip secondArea 100) emptyLog := by
  have hmem : .read 0 4005 100 true ∈ granted (fdcmRead oneChip secondArea 100) emptyLog := by decide
  refine ⟨hmem, fun hstay => ?_⟩
  obtain ⟨-, hlo, -⟩ := hstay.granted _ hmem
  exact absurd hlo (by decide)

end Image
end XR806

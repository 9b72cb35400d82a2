import XR806.Image.FdcmLog

/-!
# XR806.Image.FdcmCut

What a power cut during `fdcm_write` leaves, as the next `fdcm_read` sees it.

`fdcm_write` clears the bitmap bit before it programs the slot, and a rewrite erases the area
before it writes anything, so neither path is atomic. `AfterCut` lists what can come back; on the
append path it is the old data or a prefix of the new data followed by `0xFF`
(`append_cut`), and only a rewrite can lose the chunk or return other bytes
(`fdcm_write_cut`). A cut that leaves a header without any chunk is another matter: `fdcm_read`
takes slot -1 then.
-/

namespace XR806
namespace Image

open Nor Flash

/-- The next `fdcm_read` after a cut: `old` was the log's chunk `n`, `new` was being written. -/
inductive AfterCut (h : FdcmHandle) (bs n : Nat) (old new : List Byte) : Option (List Byte) → Prop where
  | old : AfterCut h bs n old new (some old)
  /-- A prefix of the slot is programmed. -/
  | torn (j : Nat) (hj : j ≤ new.length) :
    AfterCut h bs n old new (some (new.take j ++ List.replicate (new.length - j) blank))
  /-- A rewrite has erased the header, or not written it yet. -/
  | nothing (hfull : fdcmFull h old.length bs (n + 1)) : AfterCut h bs n old new none
  /-- A rewrite has erased a part of the area. -/
  | erased (hfull : fdcmFull h old.length bs (n + 1)) (data : List Byte)
    (hlen : data.length = old.length)
    (hdata : ∀ i, i < old.length → data.getD i blank = old.getD i blank ∨
      data.getD i blank = blank) : AfterCut h bs n old new (some data)

/-- A header that counts no chunk: it is written, and no bit of its bitmap is cleared yet. -/
def NoChunk (h : FdcmHandle) (d : Nat) (c : Cells) : Prop := ∃ bs, Index h d bs 0 c

section Area

variable {board : Board} {h : FdcmHandle} {g : Grain} {d bs n : Nat} {c c' : Cells}
  {data : List Byte} {ws : List Write}

/-! ## The append -/

/-- A cut append has done nothing, or it has cleared the bit and programmed a prefix. -/
theorem AppendTrace.cut (ht : AppendTrace h bs n data ws) (hc : CutOf g ws c c') :
    c' = c ∨ ∃ j, j ≤ data.length ∧ c' = programCells
      (programCells c h.flash (h.addr + 8 + n / 8) [bitmapByte (n % 8 + 1)]) h.flash
      (h.addr + 8 + bs + data.length * n) (data.take j) := by
  obtain ⟨ws₁, ws₂, rfl, h₁, h₂⟩ := ht.split
  rcases cutOf_append.mp hc with hc | hc
  · obtain ⟨j, hj, rfl⟩ := h₁.cut hc
    rw [List.length_singleton] at hj
    rcases Nat.le_one_iff_eq_zero_or_eq_one.mp hj with rfl | rfl
    · exact .inl (by simp)
    · exact .inr ⟨0, Nat.zero_le _, by simp⟩
  · rw [h₁.applyAll] at hc
    obtain ⟨j, hj, rfl⟩ := h₂.cut hc
    exact .inr ⟨j, hj, rfl⟩

/-- The index and slot `n` when the bit is cleared and `j` bytes are programmed. -/
theorem Log.torn (hl : Log h data.length bs n c) (hn : n < 8 * bs)
    (hroom : 8 + bs + data.length * (n + 1) ≤ h.size) {j : Nat} (hj : j ≤ data.length)
    (hc' : c' = programCells
      (programCells c h.flash (h.addr + 8 + n / 8) [bitmapByte (n % 8 + 1)]) h.flash
      (h.addr + 8 + bs + data.length * n) (data.take j)) :
    Index h data.length bs (n + 1) c' ∧
      readCells c' h.flash (h.addr + 8 + bs + data.length * n) data.length =
        data.take j ++ List.replicate (data.length - j) blank := by
  subst hc'
  refine ⟨(hl.toIndex.next hn).program (by omega), ?_⟩
  have hlen : (data.take j).length = j := by rw [List.length_take]; omega
  have hblank : Blank (programCells c h.flash (h.addr + 8 + n / 8) [bitmapByte (n % 8 + 1)])
      h.flash (h.addr + 8 + bs + data.length * n) data.length := by
    intro a h1 h2
    rw [Nat.mul_succ] at hroom
    rw [programCells_outside (by simp; omega)]
    exact hl.free a h1 (by omega)
  rw [read_program_blank hblank (by omega), hlen]

/-- Reading slot `n` of an area whose index counts `n + 1` chunks. -/
theorem Index.readSlot (ha : Inside board h.flash h.addr h.size) (hi : Index h d bs (n + 1) c)
    (hd : 0 < d) (hroom : 8 + bs + d * (n + 1) ≤ h.size) :
    ret (fdcmRead board h d) c = some (readCells c h.flash (h.addr + 8 + bs + d * n) d) := by
  have hlt := ha.lt
  have hn : n + 1 ≤ d * (n + 1) := Nat.le_mul_of_pos_left _ hd
  rw [fdcmRead_index ha hi, sub32_of_le (by omega), Nat.add_sub_cancel]
  rw [Nat.mul_succ] at hroom
  rw [u32_of_lt (by omega), ret_flashRead (ha.mono (by omega)) hd]

/-- A cut append, read back. -/
theorem append_cut (ha : Inside board h.flash h.addr h.size) (hd : data ≠ [])
    (hl : Log h data.length bs n c) (hn : n < 8 * bs)
    (hroom : 8 + bs + data.length * (n + 1) ≤ h.size) (ht : AppendTrace h bs n data ws)
    (hc : CutOf g ws c c') :
    c' = c ∨ ∃ j, j ≤ data.length ∧ ret (fdcmRead board h data.length) c' =
      some (data.take j ++ List.replicate (data.length - j) blank) := by
  rcases ht.cut hc with rfl | ⟨j, hj, hc'⟩
  · exact .inl rfl
  · obtain ⟨hi, hslot⟩ := hl.torn hn hroom hj hc'
    exact .inr ⟨j, hj, by rw [hi.readSlot ha (List.length_pos_iff.mpr hd) hroom, hslot]⟩

/-! ## The rewrite -/

/-- A header in front of blank cells, whatever its bitmap size is, counts no chunk. -/
theorem index_zero (hblank : Blank c h.flash (h.addr + 8) (h.size - 8))
    (hv : (FdcmHeader.decode (readCells c h.flash h.addr fdcmHeaderSize)).validFor h d) :
    NoChunk h d c := by
  obtain ⟨h1, h2, h3, h4⟩ := hv
  refine ⟨_, ⟨?_, h3, h4, Nat.zero_le _, fun i hi => ?_⟩⟩
  · generalize FdcmHeader.decode _ = header at h1 h2
    cases header
    simp only at h1 h2
    rw [h1, h2]
  · simp only [fdcmHeaderSize] at h4
    rw [hblank _ (by omega) (by simp only [fdcmHeaderSize] at hi; omega)]
    simp [bitmapByte]

/-- The read of an area that counts no chunk goes to the bytes before slot 0. -/
theorem Index.readBefore (ha : Inside board h.flash h.addr h.size) (hi : Index h d bs 0 c)
    (hd' : d < 2 ^ 16) : ret (fdcmRead board h d) c = none ∨ ret (fdcmRead board h d) c =
      some (readCells c h.flash (u32 (h.addr + 8 + bs + 2 ^ 32 - d)) d) := by
  have haddr : u32 (h.addr + 8 + bs + d * sub32 0 1) = u32 (h.addr + 8 + bs + 2 ^ 32 - d) := by
    have : sub32 0 1 = 2 ^ 32 - 1 := by decide
    rw [this, u32, u32]
    omega
  rw [fdcmRead_index ha hi, haddr]
  exact ret_flashRead_cases ..

/-- The header page of an area of at least 4K whose index fits in it. -/
theorem page_of_header (haddr : h.addr % 4096 = 0) {a : Nat} (h1 : h.addr ≤ a)
    (h2 : a < h.addr + 4096) : a / 4096 = h.addr / 4096 := by omega

/-- A cut while the area is erased: the header page is as it was, or blank. -/
theorem Stores.erase_cut {old : List Byte} {es : List Write} (hs : Stores h bs n old c)
    (hbs : bs ≤ fdcmIndexMax) (ha : Inside board h.flash h.addr h.size)
    (haddr : h.addr % 4096 = 0) (hold : old ≠ []) (he : OnlyErases 4096 es)
    (hc : CutOf g es c c') : ret (fdcmRead board h old.length) c' = none ∨
      ∃ data, ret (fdcmRead board h old.length) c' = some data ∧ data.length = old.length ∧
        ∀ i, i < old.length → data.getD i blank = old.getD i blank ∨ data.getD i blank = blank := by
  have hidx : fdcmIndexMax = 1024 := rfl
  rcases he.cut (by decide) hc h.flash (h.addr / 4096) with hkeep | hblank
  · have hsame : ∀ a, h.addr ≤ a → a < h.addr + 8 + bs → c' h.flash a = c h.flash a :=
      fun a h1 h2 => hkeep a (page_of_header haddr h1 (by omega))
    have hi : Index h old.length bs (n + 1) c' := by
      refine ⟨?_, hs.pos, hs.fits, hs.count, fun i hi => ?_⟩
      · rw [← hs.header]
        congr 1
        refine readCells_congr fun i hi => hsame _ (by omega) ?_
        simp only [fdcmHeaderSize] at hi
        omega
      · rw [hsame _ (by omega) (by omega), hs.bitmap i hi]
    refine .inr ⟨_, hi.readSlot ha (List.length_pos_iff.mpr hold) hs.room, by simp, fun i hi => ?_⟩
    have hslot : c h.flash (h.addr + 8 + bs + old.length * n + i) = old.getD i blank := by
      have := readCells_getElem? c h.flash (h.addr + 8 + bs + old.length * n) old.length i hi
      rw [hs.slot] at this
      rw [List.getD_eq_getElem?_getD, this, Option.getD_some]
    rw [List.getD_eq_getElem?_getD, readCells_getElem? _ _ _ _ _ hi, Option.getD_some, ← hslot]
    rcases he.cut (by decide) hc h.flash ((h.addr + 8 + bs + old.length * n + i) / 4096) with
      hcell | hcell
    · exact .inl (hcell _ rfl)
    · exact .inr (hcell _ rfl)
  · refine .inl (fdcmRead_invalid (intact_of_blank (fun a h1 h2 => ?_) _))
    simp only [fdcmHeaderSize] at h2
    exact hblank a (page_of_header haddr h1 (by omega))

/-- A cut after the erase and before the bitmap bit: there is no chunk to read. -/
theorem header_cut {header : FdcmHeader} {j : Nat} (hc' : c' = programCells
      (eraseCells c h.flash h.addr h.size) h.flash h.addr (header.encode.take j)) :
    ret (fdcmRead board h d) c' = none ∨ NoChunk h d c' := by
  by_cases hv : (FdcmHeader.decode (readCells c' h.flash h.addr fdcmHeaderSize)).validFor h d
  · have hlen : (header.encode.take j).length ≤ 8 := by
      rw [List.length_take, FdcmHeader.length_encode]
      exact Nat.min_le_right _ _
    have hblank : Blank c' h.flash (h.addr + 8) (h.size - 8) := by
      intro a h1 h2
      rw [hc', programCells_outside (by omega)]
      exact eraseCells_inside (by omega) (by omega)
    exact .inr (index_zero hblank hv)
  · exact .inl (fdcmRead_invalid hv)

/-- A cut while chunk 0 is appended behind a header that counts as invalid. -/
theorem header_program {a : Nat} {bytes : List Byte} (ha : h.addr + 8 ≤ a) :
    readCells (programCells c h.flash a bytes) h.flash h.addr fdcmHeaderSize =
      readCells c h.flash h.addr fdcmHeaderSize := by
  refine readCells_congr fun i hi => programCells_outside ?_
  simp only [fdcmHeaderSize] at hi
  omega

end Area

section Write

variable {board : Board} {h : FdcmHandle} {g : Grain} {bs n : Nat} {c c' : Cells}
  {old new : List Byte}

/-- Where a cut rewrite can stop: before anything, in the erase, in the header, or in the append of
chunk 0. -/
theorem fdcmRewrite_cut (ha : EraseArea board h.flash h.addr h.size) (hnew : new ≠ [])
    (hc : CutOf g (trace (fdcmRewrite board h new) c) c c') :
    c' = c ∨ (∃ es, OnlyErases 4096 es ∧ CutOf g es c c') ∨
      (∃ j, c' = programCells (eraseCells c h.flash h.addr h.size) h.flash h.addr
        ((FdcmHeader.encode ⟨fdcmIdCode, fdcmBitmapSize h.size new.length, new.length⟩).take j)) ∨
      ∃ ws, 8 + fdcmBitmapSize h.size new.length + new.length ≤ h.size ∧
        AppendTrace h (fdcmBitmapSize h.size new.length) 0 new ws ∧
        CutOf g ws (headerCells h new.length (fdcmBitmapSize h.size new.length) c) c' := by
  have hfits := (fdcmBitmapSize_fits ha new.length).1
  by_cases hbig : new.length > sub32 h.size (fdcmHeaderSize + fdcmBitmapSize h.size new.length)
  · rw [fdcmRewrite_tooBig hbig] at hc
    exact .inl hc
  rw [sub32_of_le (by omega)] at hbig
  simp only [fdcmHeaderSize] at hbig hfits
  cases herase : ret (flashErase board h.flash h.addr h.size) c with
  | false =>
    rw [fdcmRewrite_refused ha herase (by simp only [fdcmHeaderSize]; omega)] at hc
    exact .inr (.inl ⟨_, (flashErase_cases ha c).1, hc⟩)
  | true =>
  obtain ⟨-, ⟨es, hs', as, hws, he, -, happ, hh, has⟩⟩ :=
    fdcmRewrite_spec ha herase hnew (by simp only [fdcmHeaderSize]; omega)
  rw [hws] at hc
  rcases cutOf_append.mp hc with hc | hc
  · exact .inr (.inl ⟨es, he, hc⟩)
  rw [happ] at hc
  rcases cutOf_append.mp hc with hc | hc
  · obtain ⟨j, -, hc'⟩ := hh.cut hc
    exact .inr (.inr (.inl ⟨j, hc'⟩))
  · rw [hh.applyAll] at hc
    exact .inr (.inr (.inr ⟨as, by omega, has, hc⟩))

/-- The header in front of a cut append is as it was. -/
theorem AppendTrace.cut_header {bs : Nat} {ws : List Write} (ht : AppendTrace h bs n new ws)
    (hc : CutOf g ws c c') :
    readCells c' h.flash h.addr fdcmHeaderSize = readCells c h.flash h.addr fdcmHeaderSize := by
  rcases ht.cut hc with rfl | ⟨j, -, rfl⟩
  · rfl
  · rw [header_program (by omega), header_program (by omega)]

/-- The whole header of a rewrite is written. -/
theorem headerCells_eq (d : Nat) : headerCells h d bs c =
    programCells (eraseCells c h.flash h.addr h.size) h.flash h.addr
      ((FdcmHeader.encode ⟨fdcmIdCode, bs, d⟩).take 8) := by
  rw [List.take_of_length_le (by rw [FdcmHeader.length_encode]; exact Nat.le_refl _)]
  rfl

theorem rewrite_cut (ha : EraseArea board h.flash h.addr h.size) (hold : old ≠ [])
    (hd' : old.length < 2 ^ 16) (hlen : new.length = old.length) (hs : Stores h bs n old c)
    (hbs : bs ≤ fdcmIndexMax) (hfull : fdcmFull h old.length bs (n + 1))
    (hchunk : ¬NoChunk h old.length c')
    (hc : CutOf g (trace (fdcmRewrite board h new) c) c c') :
    AfterCut h bs n old new (ret (fdcmRead board h old.length) c') := by
  have hread := fdcmRead_stores ha.inside hold hs
  have hnew : new ≠ [] := List.length_pos_iff.mp (hlen ▸ List.length_pos_iff.mpr hold)
  obtain ⟨mode, hmode⟩ := ha.block
  obtain ⟨chip, hb, -⟩ := ha.inside.chip
  obtain ⟨-, haddr, -, hsz⟩ := erasable_of_getEraseBlock hb hmode
  obtain ⟨hfits, hlt⟩ := fdcmBitmapSize_fits ha new.length
  -- a cut inside the header finds no header
  have hheader : ∀ j, c' = programCells (eraseCells c h.flash h.addr h.size) h.flash h.addr
      ((FdcmHeader.encode ⟨fdcmIdCode, fdcmBitmapSize h.size new.length, new.length⟩).take j) →
      AfterCut h bs n old new (ret (fdcmRead board h old.length) c') := by
    intro j hc'
    rw [(header_cut hc').resolve_right hchunk]
    exact .nothing hfull
  rcases fdcmRewrite_cut ha hnew hc with rfl | ⟨es, he, hc⟩ | ⟨j, hc'⟩ | ⟨ws, hroom, has, hc⟩
  · rw [hread]
    exact .old
  · rcases hs.erase_cut hbs ha.inside haddr hold he hc with hr | ⟨data, hr, h1, h2⟩
    · rw [hr]; exact .nothing hfull
    · rw [hr]; exact .erased hfull data h1 h2
  · exact hheader j hc'
  generalize hbs' : fdcmBitmapSize h.size new.length = bs' at *
  by_cases hzero : bs' = 0
  · -- a bitmap size cut to 0: the header is never valid
    have hr : ret (fdcmRead board h old.length) c' = none := by
      refine fdcmRead_invalid fun hv => ?_
      rw [has.cut_header hc, header_headerCells (by omega) hlt (by omega)] at hv
      exact hv.2.2.1 hzero
    rw [hr]
    exact .nothing hfull
  · have hlog : Log h new.length bs' 0 (headerCells h new.length bs' c) :=
      log_headerCells (by omega) hlt hzero hfits
    rcases append_cut ha.inside hnew hlog (by omega) (by omega) has hc with rfl | ⟨j, hj, hr⟩
    · exact hheader 8 (headerCells_eq _)
    · rw [← hlen, hr]
      exact .torn j hj

/-- A cut write, read back, unless it has left a header without a chunk. -/
theorem fdcm_write_cut (ha : EraseArea board h.flash h.addr h.size) (hold : old ≠ [])
    (hd' : old.length < 2 ^ 16) (hlen : new.length = old.length) (hs : Stores h bs n old c)
    (hbs : bs ≤ fdcmIndexMax) (hchunk : ¬NoChunk h old.length c')
    (hc : Cut g (fdcmWrite board h new) c c') :
    AfterCut h bs n old new (ret (fdcmRead board h old.length) c') := by
  have hread := fdcmRead_stores ha.inside hold hs
  have hnew : new ≠ [] := List.length_pos_iff.mp (hlen ▸ List.length_pos_iff.mpr hold)
  have hl : Log h new.length bs (n + 1) c := hlen ▸ hs.toLog
  rw [Cut, (fdcmWrite_index ha.inside hl.toIndex).2] at hc
  split at hc
  · rw [show c' = c from hc, hread]
    exact .old
  split at hc
  · rename_i hfull
    rw [hlen] at hfull
    exact rewrite_cut ha hold hd' hlen hs hbs hfull hchunk hc
  · rename_i hfull
    rw [hlen, fdcmFull_iff_of_bitmap hd' hbs, not_or, not_le, not_lt, ← hlen] at hfull
    have hspec := fdcmAppend_spec (c := c) ha.inside (by omega) hnew hfull.2
    rcases append_cut ha.inside hnew hl (by omega) hfull.2 hspec.2 hc with rfl | ⟨j, hj, hr⟩
    · rw [hread]
      exact .old
    · rw [← hlen, hr]
      exact .torn j hj

end Write

/-- The cells after one write into a blank area. -/
def wroteOnce : Cells := post (fdcmWrite oneChip area4k [0x11]) fun _ _ => blank

theorem stores_wroteOnce :
    Stores area4k (fdcmBitmapSize area4k.size [0x11#8].length) 0 [0x11] wroteOnce := by
  have hb : Blank (fun _ _ => blank) area4k.flash area4k.addr fdcmHeaderSize := fun _ _ _ => rfl
  have ha : ErasableArea oneChip area4k.flash area4k.addr area4k.size :=
    ⟨⟨inside_area4k, .kb4, by decide⟩, supported_oneChip⟩
  obtain ⟨-, hw⟩ : ret (fdcmWrite oneChip area4k [0x11]) (fun _ _ => blank) = _ ∧
      trace (fdcmWrite oneChip area4k [0x11]) (fun _ _ => blank) = _ :=
    fdcmWrite_invalid ha.inside (by decide) (intact_of_blank hb 1)
  have hr : ret (fdcmRewrite oneChip area4k [0x11]) (fun _ _ => blank) = 0 ∧ _ ∨ _ :=
    fdcmRewrite_stores ha (by decide) (by decide) (by decide)
  rcases hr with h0 | h1
  · exact absurd h0.1 (by decide)
  · rw [wroteOnce, post, hw]
    exact h1.2

theorem trace_second : trace (fdcmWrite oneChip area4k [0x22]) wroteOnce =
    [.program 0 8 [0xFC], .program 0 464 [0x22]] := by decide

theorem cut_after_write : AfterCut area4k (fdcmBitmapSize area4k.size [0x11#8].length) 0 [0x11]
    [0x22] (ret (fdcmRead oneChip area4k 1) (post (fdcmWrite oneChip area4k [0x22]) wroteOnce)) := by
  have hchunk : ¬NoChunk area4k 1 (post (fdcmWrite oneChip area4k [0x22]) wroteOnce) := by
    rintro ⟨bs, hi⟩
    -- two bits of the bitmap are cleared
    have hcleared : post (fdcmWrite oneChip area4k [0x22]) wroteOnce 0 8 = 0xFC := by
      rw [post, trace_second]
      decide
    exact absurd (hcleared.symm.trans (hi.bitmap 0 (Nat.pos_of_ne_zero hi.pos))) (by decide)
  exact fdcm_write_cut ⟨inside_area4k, .kb4, by decide⟩ (by decide) (by decide) rfl
    stores_wroteOnce (fdcmBitmapSize_le _ _) hchunk (Cut.finish .byte _ _)

/-- Between the bitmap bit and the slot, neither the old nor the new chunk is read. -/
theorem cut_before_slot : ∃ c', Cut .op (fdcmWrite oneChip area4k [0x22]) wroteOnce c' ∧
    ret (fdcmRead oneChip area4k 1) wroteOnce = some [0x11] ∧
    ret (fdcmRead oneChip area4k 1) c' = some [0xFF] := by
  refine ⟨programCells wroteOnce 0 8 [0xFC], ?_, by decide +kernel, by decide +kernel⟩
  rw [Cut, trace_second]
  exact .inr (.inr (.inl rfl))

end Image
end XR806

import XR806.Image.Cfg

/-!
# XR806.Image.CfgCut

Power cuts during `image_set_cfg`. The configuration area is `Tidy` when it holds no log of small
chunks, or one `fdcm_write` can have made; a cut write leaves it tidy, so a device can be cut
again and again (`fdcmWrite_tidy`). What is read after the cut is what was read before, the new
chunk, nothing, or bytes that are no configuration (`CutRead`), so the stored sequence after a cut
`image_set_cfg` is the old one, the new one, or none (`imageSetCfg_cut`).
-/

namespace XR806
namespace Image

open Nor Flash

/-- The area has no header for chunks of `d` bytes, or a log of them as `fdcm_write` leaves it. -/
def Tidy (h : FdcmHandle) (d : Nat) (c : Cells) : Prop :=
  (FdcmHeader.decode (readCells c h.flash h.addr fdcmHeaderSize)).validFor h d →
    ∃ bs n, bs ≤ fdcmIndexMax ∧ 8 + bs + d * n ≤ h.size ∧ Log h d bs n c

/-- What `fdcm_read` can return after a cut write of `new`, when it returned `r` before. -/
inductive CutRead (r : Option (List Byte)) (new : List Byte) : Option (List Byte) → Prop where
  | same : CutRead r new r
  | new : CutRead r new (some new)
  | nothing : CutRead r new none
  /-- The last byte is blank. -/
  | unfinished (data : List Byte) (hlen : data.length = new.length)
    (hlast : data.getD (new.length - 1) 0 = blank) : CutRead r new (some data)
  /-- Some bytes are erased. -/
  | mixed (old data : List Byte) (hr : r = some old) (hlen : data.length = new.length)
    (hold : old.length = new.length)
    (hdata : ∀ i, i < new.length → data.getD i blank = old.getD i blank ∨
      data.getD i blank = blank) : CutRead r new (some data)

section Area

variable {board : Board} {h : FdcmHandle} {g : Grain} {d bs n : Nat} {c c' : Cells}
  {new : List Byte} {ws : List Write}

theorem Tidy.of_invalid
    (hv : ¬(FdcmHeader.decode (readCells c h.flash h.addr fdcmHeaderSize)).validFor h d) :
    Tidy h d c := fun h' => absurd h' hv

theorem Tidy.of_blank (hb : Blank c h.flash h.addr fdcmHeaderSize) : Tidy h d c :=
  .of_invalid (intact_of_blank hb d)

/-- The last chunk of a log is whatever its slot holds. -/
theorem Log.stores (hl : Log h d bs (n + 1) c) (hroom : 8 + bs + d * (n + 1) ≤ h.size) :
    Stores h bs n (readCells c h.flash (h.addr + 8 + bs + d * n) d) c := by
  have hlen : (readCells c h.flash (h.addr + 8 + bs + d * n) d).length = d := length_readCells ..
  constructor
  · rwa [hlen]
  · rwa [hlen]
  · rw [hlen]

/-! ## Cuts of an append -/

theorem AppendTrace.cut_tidy (ha : Inside board h.flash h.addr h.size) (hnew : new ≠ [])
    (hbs : bs ≤ fdcmIndexMax) (hl : Log h new.length bs n c) (hn : n < 8 * bs)
    (hroom : 8 + bs + new.length * (n + 1) ≤ h.size) (ht : AppendTrace h bs n new ws)
    (hc : CutOf g ws c c') : c' = c ∨ Tidy h new.length c' ∧
      ∀ r, CutRead r new (ret (fdcmRead board h new.length) c') := by
  have hpos := List.length_pos_iff.mpr hnew
  rcases ht.cut hc with rfl | ⟨j, hj, hc'⟩
  · exact .inl rfl
  obtain ⟨hi, hslot⟩ := hl.torn hn hroom hj hc'
  refine .inr ⟨fun _ => ⟨bs, n + 1, hbs, hroom, hi, fun a h1 h2 => ?_⟩, fun r => ?_⟩
  · rw [Nat.mul_succ] at h1
    rw [hc', programCells_outside (by rw [List.length_take]; omega),
      programCells_outside (by simp; omega)]
    exact hl.free a (by omega) h2
  · rw [hi.readSlot ha hpos hroom, hslot]
    by_cases hend : j = new.length
    · rw [hend, List.take_length, Nat.sub_self, List.replicate_zero, List.append_nil]
      exact .new
    · refine .unfinished _ (by simp; omega) ?_
      rw [List.getD_append_right _ _ _ _ (by simp; omega), List.getD_eq_getElem?_getD,
        List.getElem?_replicate, if_pos (by simp; omega)]
      rfl

/-! ## Cuts of a rewrite -/

/-- While the area is erased, a log keeps its index and stays blank behind its slots, or it is
gone. -/
theorem Log.erase_cut {es : List Write} (hl : Log h d bs n c) (hbs : bs ≤ fdcmIndexMax)
    (hroom : 8 + bs + d * n ≤ h.size) (haddr : h.addr % 4096 = 0) (he : OnlyErases 4096 es)
    (hc : CutOf g es c c') : Tidy h d c' := by
  have hidx : fdcmIndexMax = 1024 := rfl
  rcases he.cut (by decide) hc h.flash (h.addr / 4096) with hkeep | hblank
  · have hsame : ∀ a, h.addr ≤ a → a < h.addr + 8 + bs → c' h.flash a = c h.flash a :=
      fun a h1 h2 => hkeep a (page_of_header haddr h1 (by omega))
    refine fun _ => ⟨bs, n, hbs, hroom, ⟨?_, hl.pos, hl.fits, hl.count, fun i hi => ?_⟩,
      fun a h1 h2 => ?_⟩
    · rw [← hl.header]
      congr 1
      refine readCells_congr fun i hi => hsame _ (by omega) ?_
      simp only [fdcmHeaderSize] at hi
      omega
    · rw [hsame _ (by omega) (by omega), hl.bitmap i hi]
    · rcases he.cut (by decide) hc h.flash (a / 4096) with hcell | hcell
      · rw [hcell a rfl, hl.free a h1 h2]
      · exact hcell a rfl
  · refine .of_blank fun a h1 h2 => ?_
    simp only [fdcmHeaderSize] at h2
    exact hblank a (page_of_header haddr h1 (by omega))

/-- While the area is erased, no header appears. -/
theorem erase_cut_invalid {es : List Write} (haddr : h.addr % 4096 = 0) (he : OnlyErases 4096 es)
    (hv : ¬(FdcmHeader.decode (readCells c h.flash h.addr fdcmHeaderSize)).validFor h d)
    (hc : CutOf g es c c') :
    ¬(FdcmHeader.decode (readCells c' h.flash h.addr fdcmHeaderSize)).validFor h d := by
  rcases he.cut (by decide) hc h.flash (h.addr / 4096) with hkeep | hblank
  · have hsame : readCells c' h.flash h.addr fdcmHeaderSize =
        readCells c h.flash h.addr fdcmHeaderSize := by
      refine readCells_congr fun i hi => hkeep _ (page_of_header haddr (by omega) ?_)
      simp only [fdcmHeaderSize] at hi
      omega
    rwa [hsame]
  · refine intact_of_blank (fun a h1 h2 => ?_) d
    simp only [fdcmHeaderSize] at h2
    exact hblank a (page_of_header haddr h1 (by omega))

/-- The data size of a header whose last byte is blank. -/
theorem dataSize_blank {bytes : List Byte} (h7 : bytes[7]? = some blank) :
    65280 ≤ (FdcmHeader.decode bytes).dataSize := by
  match bytes, h7 with
  | _ :: _ :: _ :: _ :: _ :: _ :: b :: b' :: rest, h7 =>
    obtain rfl : b' = blank := by simpa using h7
    have hb : blank.toNat = 255 := rfl
    simp only [FdcmHeader.decode, List.drop_succ_cons, List.drop_zero, List.take_succ_cons,
      List.take_zero, leNat, hb]
    omega

/-- A header that is not written to its end is not one for small chunks. -/
theorem header_torn {header : FdcmHeader} {j : Nat} (hj : j < 8) (hd : d ≤ fdcmHeaderSize)
    (hsize : fdcmHeaderSize ≤ h.size)
    (hc' : c' = programCells (eraseCells c h.flash h.addr h.size) h.flash h.addr
      (header.encode.take j)) :
    ¬(FdcmHeader.decode (readCells c' h.flash h.addr fdcmHeaderSize)).validFor h d := by
  intro hv
  have hlen : (header.encode.take j).length ≤ j := by rw [List.length_take]; exact Nat.min_le_left ..
  simp only [fdcmHeaderSize] at hd hsize
  have h7 : c' h.flash (h.addr + 7) = blank := by
    rw [hc', programCells_outside (by omega)]
    exact eraseCells_inside (by omega) (by omega)
  have hbig : 65280 ≤
      (FdcmHeader.decode (readCells c' h.flash h.addr fdcmHeaderSize)).dataSize :=
    dataSize_blank (by rw [readCells_getElem? _ _ _ _ _ (by decide), h7])
  rw [hv.2.1] at hbig
  omega

/-- A cut inside the header of a rewrite leaves no chunk. -/
theorem header_cut_tidy (ha : EraseArea board h.flash h.addr h.size) (hnew : new ≠ [])
    (hlen : new.length ≤ fdcmHeaderSize) {j : Nat}
    (hc' : c' = programCells (eraseCells c h.flash h.addr h.size) h.flash h.addr
      ((FdcmHeader.encode ⟨fdcmIdCode, fdcmBitmapSize h.size new.length, new.length⟩).take j))
    (r : Option (List Byte)) : Tidy h new.length c' ∧
      CutRead r new (ret (fdcmRead board h new.length) c') := by
  obtain ⟨hfits, hlt⟩ := fdcmBitmapSize_fits ha new.length
  have hle := fdcmBitmapSize_le h.size new.length
  have hpos := List.length_pos_iff.mpr hnew
  have hlt' := ha.inside.lt
  by_cases hv :
      (FdcmHeader.decode (readCells c' h.flash h.addr fdcmHeaderSize)).validFor h new.length
  · have hj : 8 ≤ j := by
      by_contra hj
      exact header_torn (by omega) hlen (by omega) hc' hv
    generalize fdcmBitmapSize h.size new.length = bs' at *
    simp only [fdcmHeaderSize] at hlen hfits
    obtain rfl : c' = headerCells h new.length bs' c := by
      rw [hc', List.take_of_length_le (by rw [FdcmHeader.length_encode]; exact hj)]
      rfl
    have hzero : bs' ≠ 0 := by
      rw [header_headerCells (by omega) hlt (by simp only [fdcmHeaderSize]; omega)] at hv
      exact hv.2.2.1
    have hlog : Log h new.length bs' 0 (headerCells h new.length bs' c) :=
      log_headerCells (by omega) hlt hzero hfits
    refine ⟨fun _ => ⟨bs', 0, hle, by omega, hlog⟩, ?_⟩
    rcases hlog.readBefore ha.inside (by omega) with hr | hr
    · rw [hr]; exact .nothing
    · -- the bytes in front of slot 0 end with the bitmap
      rw [hr]
      refine .unfinished _ (length_readCells ..) ?_
      have haddr : u32 (h.addr + 8 + bs' + 2 ^ 32 - new.length) =
          h.addr + 8 + bs' - new.length := by
        rw [u32]
        omega
      have hbyte := hlog.bitmap (bs' - 1) (by omega)
      rw [List.getD_eq_getElem?_getD, readCells_getElem? _ _ _ _ _ (by omega), haddr,
        show h.addr + 8 + bs' - new.length + (new.length - 1) = h.addr + 8 + (bs' - 1) by omega,
        hbyte]
      simp [bitmapByte]
  · refine ⟨.of_invalid hv, ?_⟩
    rw [fdcmRead_invalid hv]
    exact .nothing

theorem fdcmRewrite_tidy (ha : EraseArea board h.flash h.addr h.size) (hnew : new ≠ [])
    (hlen : new.length ≤ fdcmHeaderSize)
    (hc : CutOf g (trace (fdcmRewrite board h new) c) c c')
    (herase : ∀ es, OnlyErases 4096 es → CutOf g es c c' → Tidy h new.length c' ∧
      CutRead (ret (fdcmRead board h new.length) c) new
        (ret (fdcmRead board h new.length) c')) :
    c' = c ∨ Tidy h new.length c' ∧ CutRead (ret (fdcmRead board h new.length) c) new
        (ret (fdcmRead board h new.length) c') := by
  obtain ⟨hfits, hlt⟩ := fdcmBitmapSize_fits ha new.length
  have hle := fdcmBitmapSize_le h.size new.length
  rcases fdcmRewrite_cut ha hnew hc with rfl | ⟨es, he, hc⟩ | ⟨j, hc'⟩ | ⟨ws, hroom, has, hc⟩
  · exact .inl rfl
  · exact .inr (herase es he hc)
  · exact .inr (header_cut_tidy ha hnew hlen hc' _)
  have hheader := header_cut_tidy (c := c) ha hnew hlen (headerCells_eq _)
    (ret (fdcmRead board h new.length) c)
  generalize fdcmBitmapSize h.size new.length = bs' at *
  simp only [fdcmHeaderSize] at hlen
  by_cases hzero : bs' = 0
  · have hv :
        ¬(FdcmHeader.decode (readCells c' h.flash h.addr fdcmHeaderSize)).validFor h new.length := by
      intro hv
      rw [has.cut_header hc, header_headerCells (by omega) hlt (by omega)] at hv
      exact hv.2.2.1 hzero
    refine .inr ⟨.of_invalid hv, ?_⟩
    rw [fdcmRead_invalid hv]
    exact .nothing
  · have hlog : Log h new.length bs' 0 (headerCells h new.length bs' c) :=
      log_headerCells (by omega) hlt hzero hfits
    rcases has.cut_tidy ha.inside hnew hle hlog (by omega) (by omega) hc with rfl | ⟨h1, h2⟩
    · exact .inr hheader
    · exact .inr ⟨h1, h2 _⟩

/-! ## The whole write -/

/-- A cut write leaves a tidy area, and what can be read from it. -/
theorem fdcmWrite_tidy (ha : EraseArea board h.flash h.addr h.size) (hnew : new ≠ [])
    (hlen : new.length ≤ fdcmHeaderSize) (ht : Tidy h new.length c)
    (hc : Cut g (fdcmWrite board h new) c c') : Tidy h new.length c' ∧
      CutRead (ret (fdcmRead board h new.length) c) new
        (ret (fdcmRead board h new.length) c') := by
  have hpos := List.length_pos_iff.mpr hnew
  have hsame : c' = c ∨ Tidy h new.length c' ∧ CutRead (ret (fdcmRead board h new.length) c) new
      (ret (fdcmRead board h new.length) c') → Tidy h new.length c' ∧
      CutRead (ret (fdcmRead board h new.length) c) new
        (ret (fdcmRead board h new.length) c') := by
    rintro (rfl | h')
    · exact ⟨ht, .same⟩
    · exact h'
  apply hsame
  obtain ⟨mode, hmode⟩ := ha.block
  obtain ⟨chip, hb, -⟩ := ha.inside.chip
  obtain ⟨-, haddr, -, -⟩ := erasable_of_getEraseBlock hb hmode
  have hsz := EraseArea.size_ge ha
  by_cases hv :
      (FdcmHeader.decode (readCells c h.flash h.addr fdcmHeaderSize)).validFor h new.length
  · obtain ⟨bs, n, hbs, hroom, hl⟩ := ht hv
    rw [Cut, (fdcmWrite_index ha.inside hl.toIndex).2] at hc
    split at hc
    · exact .inl hc
    rename_i hbig
    split at hc
    · rename_i hfull
      refine fdcmRewrite_tidy ha hnew hlen hc fun es he hc => ⟨hl.erase_cut hbs hroom haddr he hc, ?_⟩
      -- a full log has a last chunk
      obtain ⟨n, rfl⟩ : ∃ k, n = k + 1 := by
        refine ⟨n - 1, ?_⟩
        have hfits := hl.fits
        have hpos' := hl.pos
        rw [sub32_of_le (by omega)] at hbig
        rw [fdcmFull_iff_of_bitmap (Nat.lt_of_le_of_lt hlen (by decide)) hbs] at hfull
        simp only [fdcmHeaderSize] at hbig hfits
        by_contra hn
        obtain rfl : n = 0 := by omega
        omega
      have hs := hl.stores hroom
      generalize hold : readCells c h.flash (h.addr + 8 + bs + new.length * n) new.length = old at hs
      have holdlen : old.length = new.length := by rw [← hold, length_readCells]
      have hold0 : old ≠ [] := List.length_pos_iff.mp (by omega)
      have hr0 := fdcmRead_stores ha.inside hold0 hs
      rw [holdlen] at hr0
      rcases hs.erase_cut hbs ha.inside haddr hold0 he hc with hr | ⟨data, hr, h1, h2⟩
      · rw [holdlen] at hr
        rw [hr]
        exact .nothing
      · rw [holdlen] at hr h1 h2
        rw [hr]
        exact .mixed old data hr0 h1 holdlen h2
    · rename_i hfull
      rw [fdcmFull_iff_of_bitmap (Nat.lt_of_le_of_lt hlen (by decide)) hbs, not_or, not_le, not_lt] at hfull
      have hspec := fdcmAppend_spec (c := c) ha.inside (by omega) hnew hfull.2
      rcases hspec.2.cut_tidy ha.inside hnew hbs hl (by omega) hfull.2 hc with hc | ⟨h1, h2⟩
      · exact .inl hc
      · exact .inr ⟨h1, h2 _⟩
  · rw [Cut, (fdcmWrite_invalid ha.inside (by simp only [fdcmHeaderSize]; omega) hv).2] at hc
    refine fdcmRewrite_tidy ha hnew hlen hc fun es he hc => ?_
    have hv' := erase_cut_invalid haddr he hv hc
    refine ⟨.of_invalid hv', ?_⟩
    rw [fdcmRead_invalid hv']
    exact .nothing

end Area

/-! ## The configuration -/

/-- The verified sequence four bytes of raw configuration stand for. -/
def seqOfRaw (bytes : List Byte) : Option Nat :=
  match (RawCfg.decode bytes).toCfg with
  | some ⟨seq, .verified⟩ => some seq
  | _ => none

/-- The bytes of a verified configuration. -/
def rawOfSeq (seq : Nat) : List Byte :=
  RawCfg.encode ⟨imageRawSeq.getD seq 0, imageRawStateVerified⟩

theorem seqOfRaw_rawOfSeq : ∀ seq : Fin imageSeqNum,
    seqOfRaw (rawOfSeq seq) = some seq.val ∧
      (RawCfg.decode (rawOfSeq seq)).toCfg = some ⟨seq, .verified⟩ := by decide

theorem length_rawOfSeq_le (seq : Nat) : (rawOfSeq seq).length ≤ fdcmHeaderSize := by
  simp only [rawOfSeq, RawCfg.encode, List.length_append, length_leBytes, fdcmHeaderSize]
  decide

theorem blank_not_mem_rawOfSeq : ∀ seq : Fin imageSeqNum, blank ∉ rawOfSeq seq := by decide

theorem RawCfg.encode_decode {bytes : List Byte} (hlen : bytes.length = rawCfgSize) :
    (RawCfg.decode bytes).encode = bytes := by
  match bytes, hlen with
  | [b0, b1, b2, b3], _ =>
    have hbyte : ∀ b b' : Byte, leBytes 2 (leNat [b, b']) = [b, b'] := by
      intro b b'
      have hb := b.isLt
      have hb' := b'.isLt
      simp only [leBytes, leNat]
      congr 1
      · exact BitVec.eq_of_toNat_eq (by simp; omega)
      · congr 1
        exact BitVec.eq_of_toNat_eq (by simp; omega)
    change leBytes 2 (leNat [b0, b1]) ++ leBytes 2 (leNat [b2, b3]) = _
    rw [hbyte, hbyte]
    rfl

/-- Only these bytes are a verified configuration. -/
theorem eq_rawOfSeq {bytes : List Byte} {seq : Nat} (hlen : bytes.length = rawCfgSize)
    (h : seqOfRaw bytes = some seq) : seq < imageSeqNum ∧ bytes = rawOfSeq seq := by
  rw [← RawCfg.encode_decode hlen]
  simp only [seqOfRaw, RawCfg.toCfg, imageRawSeq] at h
  generalize RawCfg.decode bytes = raw at h ⊢
  obtain ⟨rawSeq, rawState⟩ := raw
  by_cases hstate : rawState = imageRawStateVerified
  · subst hstate
    by_cases h0 : rawSeq = 0x5555
    · subst h0
      obtain rfl : 0 = seq := by simpa [List.findIdx?_cons] using h
      exact ⟨by decide, rfl⟩
    · by_cases h1 : rawSeq = 0xAAAA
      · subst h1
        obtain rfl : 1 = seq := by simpa [List.findIdx?_cons] using h
        exact ⟨by decide, rfl⟩
      · simp [List.findIdx?_cons, Ne.symm h0, Ne.symm h1] at h
  · simp only [hstate, if_false] at h
    split at h
    · rename_i heq
      split at heq
      · cases heq
      · simp only [Option.some.injEq, ImageCfg.mk.injEq] at heq
        split at heq <;> simp at heq
    · cases h

/-- What is read after a cut names the sequence read before, the new one, or none. -/
theorem CutRead.seq {r r' : Option (List Byte)} {seq : Nat} (hseq : seq < imageSeqNum)
    (h : CutRead r (rawOfSeq seq) r') : r'.bind seqOfRaw = r.bind seqOfRaw ∨
      r'.bind seqOfRaw = some seq ∨ r'.bind seqOfRaw = none := by
  have hlen : ∀ s, (rawOfSeq s).length = rawCfgSize := fun s => by simp [rawOfSeq, RawCfg.encode,
    rawCfgSize]
  cases h with
  | same => exact .inl rfl
  | new => exact .inr (.inl (seqOfRaw_rawOfSeq ⟨seq, hseq⟩).1)
  | nothing => exact .inr (.inr rfl)
  | unfinished data hdata hlast =>
    refine .inr (.inr ?_)
    rw [hlen] at hdata hlast
    by_contra hsome
    obtain ⟨s, hs⟩ := Option.ne_none_iff_exists'.mp hsome
    obtain ⟨hlt, rfl⟩ := eq_rawOfSeq hdata hs
    refine blank_not_mem_rawOfSeq ⟨s, hlt⟩ ?_
    rw [List.getD_eq_getElem?_getD, List.getElem?_eq_getElem (by rw [hdata]; decide)] at hlast
    rw [← hlast]
    exact List.getElem_mem _
  | mixed old data hr hdata hold hmix =>
    rw [hlen] at hdata hold hmix
    by_cases hsome : seqOfRaw data = none
    · exact .inr (.inr hsome)
    obtain ⟨s, hs⟩ := Option.ne_none_iff_exists'.mp hsome
    obtain ⟨hlt, hraw⟩ := eq_rawOfSeq hdata hs
    have hsame : data = old := by
      refine List.ext_getElem (by omega) fun i h1 h2 => ?_
      have hi := hmix i (by omega)
      simp only [List.getD_eq_getElem?_getD, List.getElem?_eq_getElem h1,
        List.getElem?_eq_getElem h2, Option.getD_some] at hi
      refine hi.resolve_right fun hb => blank_not_mem_rawOfSeq ⟨s, hlt⟩ ?_
      rw [← hb, ← hraw]
      exact List.getElem_mem _
    rw [hr, hsame]
    exact .inl rfl

/-- The FDCM area of the configuration. -/
def OtaParam.cfgArea (iop : OtaParam) : FdcmHandle := ⟨iop.otaFlash, iop.otaAddr, iop.otaSize⟩

section Cfg

variable {board : Board} {iop : OtaParam} {cfg : ImageCfg} {g : Grain} {c c' : Cells}

theorem ret_fdcmOpen (flash addr size : Nat) (c : Cells) :
    ret (fdcmOpen board flash addr size) c =
      (flashGetEraseBlock board flash addr size).map fun _ => ⟨flash, addr, size⟩ := by
  unfold fdcmOpen
  split
  · rename_i h
    rw [h]
    rfl
  · rename_i h
    rw [h]
    rfl

/-- The stored sequence is what the configuration area reads as. -/
theorem storedSeq_eq (hsize : ¬(iop.otaSize = 0 ∨ iop.otaAddr = imageInvalidAddr))
    (ha : EraseArea board iop.otaFlash iop.otaAddr iop.otaSize) (c : Cells) :
    storedSeq board iop c =
      (ret (fdcmRead board iop.cfgArea rawCfgSize) c).bind seqOfRaw := by
  obtain ⟨mode, hmode⟩ := ha.block
  rw [storedSeq, imageGetCfg, if_neg hsize, quiet_imageGetRawCfg.ret_bind, imageGetRawCfg,
    (quiet_fdcmOpen ..).ret_bind, ret_fdcmOpen, hmode]
  simp only [Option.map_some]
  rw [(quiet_fdcmRead ..).ret_bind]
  change _ = (ret (fdcmRead board ⟨iop.otaFlash, iop.otaAddr, iop.otaSize⟩ rawCfgSize) c).bind _
  cases ret (fdcmRead board ⟨iop.otaFlash, iop.otaAddr, iop.otaSize⟩ rawCfgSize) c with
  | none => rfl
  | some bytes => rfl

/-- The verified sequence an FDCM area names. -/
def areaSeq (board : Board) (h : FdcmHandle) (c : Cells) : Option Nat :=
  (ret (fdcmRead board h rawCfgSize) c).bind seqOfRaw

theorem length_rawOfSeq (seq : Nat) : (rawOfSeq seq).length = rawCfgSize := by
  simp [rawOfSeq, RawCfg.encode, rawCfgSize]

theorem fdcmWrite_areaSeq {h : FdcmHandle} {seq : Nat}
    (ha : EraseArea board h.flash h.addr h.size) (hseq : seq < imageSeqNum)
    (ht : Tidy h rawCfgSize c) (hc : Cut g (fdcmWrite board h (rawOfSeq seq)) c c') :
    Tidy h rawCfgSize c' ∧ (areaSeq board h c' = areaSeq board h c ∨
      areaSeq board h c' = some seq ∨ areaSeq board h c' = none) := by
  have hlen := length_rawOfSeq seq
  have hraw : rawOfSeq seq ≠ [] := List.length_pos_iff.mp (by rw [hlen]; decide)
  have hw := fdcmWrite_tidy ha hraw (by rw [hlen]; decide) (by rwa [hlen]) hc
  rw [hlen] at hw
  exact ⟨hw.1, hw.2.seq hseq⟩

/-- The loop of `image_set_raw_cfg`, by induction on the tries left. -/
theorem writeRawCfg_cut {h : FdcmHandle} {seq tries : Nat}
    (ha : EraseArea board h.flash h.addr h.size) (hseq : seq < imageSeqNum)
    (ht : Tidy h rawCfgSize c) (hc : Cut g (writeRawCfg board h (rawOfSeq seq) tries) c c') :
    Tidy h rawCfgSize c' ∧ (areaSeq board h c' = areaSeq board h c ∨
      areaSeq board h c' = some seq ∨ areaSeq board h c' = none) := by
  induction tries generalizing c with
  | zero => rw [show c' = c from hc]; exact ⟨ht, .inl rfl⟩
  | succ tries ih =>
    rcases cut_bind.mp hc with hc | hc
    · exact fdcmWrite_areaSeq ha hseq ht hc
    obtain ⟨ht₁, hs₁⟩ := fdcmWrite_areaSeq ha hseq ht (Cut.finish g _ c)
    generalize post (fdcmWrite board h (rawOfSeq seq)) c = c₁ at *
    have hdone : c' = c₁ ∨ Cut g (writeRawCfg board h (rawOfSeq seq) tries) c₁ c' := by
      split at hc
      · exact .inl hc
      rcases cut_bind.mp hc with hc | hc
      · exact .inl ((quiet_fdcmRead h rawCfgSize).cut hc)
      rw [(quiet_fdcmRead h rawCfgSize).post] at hc
      split at hc
      · exact .inl hc
      split at hc
      · exact .inl hc
      · exact .inr hc
    rcases hdone with rfl | hc
    · exact ⟨ht₁, hs₁⟩
    obtain ⟨ht', hs'⟩ := ih ht₁ hc
    refine ⟨ht', ?_⟩
    rcases hs' with hs' | hs' | hs'
    · rw [hs']; exact hs₁
    · exact .inr (.inl hs')
    · exact .inr (.inr hs')

/-- A write that is reported as done reads back. -/
theorem ret_writeRawCfg {h : FdcmHandle} {raw : List Byte} {tries : Nat}
    (hr : ret (writeRawCfg board h raw tries) c = true) :
    ret (fdcmRead board h rawCfgSize) (post (writeRawCfg board h raw tries) c) = some raw := by
  induction tries generalizing c with
  | zero => cases hr
  | succ tries ih =>
    simp only [writeRawCfg, ret_bind, post_bind] at hr ⊢
    generalize post (fdcmWrite board h raw) c = c₁ at *
    split at hr
    · cases hr
    rename_i hn
    rw [if_neg hn]
    simp only [ret_bind, post_bind, (quiet_fdcmRead h rawCfgSize).post] at hr ⊢
    cases hread : ret (fdcmRead board h rawCfgSize) c₁ with
    | none => rw [hread] at hr; cases hr
    | some readCfg =>
      rw [hread] at hr
      dsimp only at hr ⊢
      split at hr
      · rename_i heq
        rw [if_pos heq, post_pure, hread, heq]
      · rename_i heq
        rw [if_neg heq]
        exact ih hr

/-- What `image_set_cfg` does: nothing, or the loop on the configuration area. -/
theorem imageSetCfg_cases (board : Board) (iop : OtaParam) (cfg : ImageCfg) :
    (∀ c, ret (imageSetCfg board iop cfg) c = false ∧ trace (imageSetCfg board iop cfg) c = []) ∨
      ¬(iop.otaSize = 0 ∨ iop.otaAddr = imageInvalidAddr) ∧ cfg.seq < imageSeqNum ∧
        (∃ mode, flashGetEraseBlock board iop.otaFlash iop.otaAddr iop.otaSize = some mode) ∧
        ∀ c, ret (imageSetCfg board iop cfg) c =
            ret (writeRawCfg board iop.cfgArea (rawOfSeq cfg.seq) imageWriteRawCfgTryCnt) c ∧
          trace (imageSetCfg board iop cfg) c =
            trace (writeRawCfg board iop.cfgArea (rawOfSeq cfg.seq) imageWriteRawCfgTryCnt) c := by
  unfold imageSetCfg
  split
  · exact .inl fun c => ⟨rfl, rfl⟩
  rename_i hsize
  split
  · exact .inl fun c => ⟨rfl, rfl⟩
  rename_i hcfg
  have hopen := @ret_fdcmOpen board iop.otaFlash iop.otaAddr iop.otaSize
  cases hblock : flashGetEraseBlock board iop.otaFlash iop.otaAddr iop.otaSize with
  | none =>
    refine .inl fun c => ?_
    rw [imageSetRawCfg, (quiet_fdcmOpen ..).ret_bind, (quiet_fdcmOpen ..).trace_bind, hopen, hblock]
    exact ⟨rfl, rfl⟩
  | some mode =>
    refine .inr ⟨hsize, by omega, ⟨mode, rfl⟩, fun c => ?_⟩
    rw [imageSetRawCfg, (quiet_fdcmOpen ..).ret_bind, (quiet_fdcmOpen ..).trace_bind, hopen, hblock]
    exact ⟨rfl, rfl⟩

/-- After a cut `image_set_cfg` the stored sequence is the old one, the new one, or none. -/
theorem imageSetCfg_cut (hin : Inside board iop.otaFlash iop.otaAddr iop.otaSize)
    (ht : Tidy iop.cfgArea rawCfgSize c) (hc : Cut g (imageSetCfg board iop cfg) c c') :
    Tidy iop.cfgArea rawCfgSize c' ∧ (storedSeq board iop c' = storedSeq board iop c ∨
      storedSeq board iop c' = some cfg.seq ∨ storedSeq board iop c' = none) := by
  rcases imageSetCfg_cases board iop cfg with h | ⟨hsize, hseq, hblock, h⟩
  · rw [Cut, (h c).2] at hc
    rw [show c' = c from hc]
    exact ⟨ht, .inl rfl⟩
  · have ha : EraseArea board iop.otaFlash iop.otaAddr iop.otaSize := ⟨hin, hblock⟩
    rw [Cut, (h c).2] at hc
    rw [storedSeq_eq hsize ha, storedSeq_eq hsize ha]
    exact writeRawCfg_cut (h := iop.cfgArea) ha hseq ht hc

/-- An `image_set_cfg` that returns 0 stores its sequence, whatever the area held. -/
theorem imageSetCfg_stored (hr : ret (imageSetCfg board iop cfg) c = true) :
    ret (imageGetCfg board iop) (post (imageSetCfg board iop cfg) c) =
      some ⟨cfg.seq, .verified⟩ := by
  rcases imageSetCfg_cases board iop cfg with h | ⟨hsize, hseq, ⟨mode, hmode⟩, h⟩
  · rw [(h c).1] at hr
    cases hr
  · rw [(h c).1] at hr
    have hread := ret_writeRawCfg hr
    have hpost : post (imageSetCfg board iop cfg) c =
        post (writeRawCfg board iop.cfgArea (rawOfSeq cfg.seq) imageWriteRawCfgTryCnt) c := by
      rw [post, (h c).2, post]
    rw [hpost, imageGetCfg, if_neg hsize, quiet_imageGetRawCfg.ret_bind, imageGetRawCfg,
      (quiet_fdcmOpen ..).ret_bind, ret_fdcmOpen, hmode]
    simp only [Option.map_some]
    rw [(quiet_fdcmRead ..).ret_bind, ← OtaParam.cfgArea, hread]
    exact (seqOfRaw_rawOfSeq ⟨cfg.seq, hseq⟩).2

/-! ## Writes stay in the configuration area -/

theorem within_fdcmRewrite {h : FdcmHandle} (ha : EraseArea board h.flash h.addr h.size)
    (data : List Byte) : Within (InArea h.flash h.addr h.size) (fdcmRewrite board h data) := by
  obtain ⟨hfits, -⟩ := fdcmBitmapSize_fits ha data.length
  have hlt := ha.inside.lt
  simp only [fdcmHeaderSize] at hfits
  unfold fdcmRewrite
  dsimp only
  split
  · exact (quiet_pure _).within
  rename_i hbig
  rw [sub32_of_le (by simp only [fdcmHeaderSize]; omega)] at hbig
  simp only [fdcmHeaderSize] at hbig ⊢
  rw [u32_of_lt (by omega), u32_of_lt (by omega)]
  refine (within_flashErase ha).bind fun ok => Within.ite (quiet_pure _).within ?_
  refine (within_flashWrite ha.inside (Nat.le_refl _) ?_).bind fun n => ?_
  · rw [FdcmHeader.length_encode]
    simp only [fdcmHeaderSize]
    omega
  refine Within.ite (quiet_pure _).within ?_
  refine (within_flashWrite ha.inside (by omega) (by simp; omega)).bind fun n => ?_
  refine Within.ite (quiet_pure _).within ?_
  exact (within_flashWrite ha.inside (by omega) (by omega)).bind fun n => (quiet_pure _).within

theorem within_fdcmAppend {h : FdcmHandle} {bs n : Nat} (ha : Inside board h.flash h.addr h.size)
    {data bitmap : List Byte} (hn : n < 8 * bs)
    (hroom : 8 + bs + data.length * (n + 1) ≤ h.size) :
    Within (InArea h.flash h.addr h.size) (fdcmAppend board h data bitmap bs n) := by
  have hlt := ha.lt
  rw [Nat.mul_succ] at hroom
  simp only [fdcmAppend, fdcmHeaderSize, fdcmByteBits]
  rw [u32_of_lt (by omega), u32_of_lt (by omega)]
  refine (within_flashWrite ha (by omega) (by simp; omega)).bind fun n => ?_
  exact Within.ite (quiet_pure _).within (within_flashWrite ha (by omega) (by omega))

theorem within_fdcmWrite {h : FdcmHandle} (ha : EraseArea board h.flash h.addr h.size)
    {data : List Byte} (hlen : data.length ≤ fdcmHeaderSize) :
    Within (InArea h.flash h.addr h.size) (fdcmWrite board h data) := by
  refine (quiet_flashRead ..).within.bind fun r => ?_
  cases r with
  | none => exact (quiet_pure _).within
  | some bytes =>
    dsimp only
    split
    · exact within_fdcmRewrite ha data
    rename_i hv
    split
    · exact (quiet_pure _).within
    refine (quiet_allocReq _).within.bind fun ok => ?_
    split
    · exact (quiet_pure _).within
    refine (quiet_flashRead ..).within.bind fun r => ?_
    cases r with
    | none => exact (quiet_pure _).within
    | some bitmap =>
      dsimp only
      split
      · exact within_fdcmRewrite ha data
      rename_i hfull
      have hbs : (FdcmHeader.decode bytes).bitmapSize < 2 ^ 16 := bitmapSize_lt bytes
      simp only [fdcmHeaderSize] at hlen
      rw [fdcmFull_iff fun hn => ?_, not_or, not_le, not_lt] at hfull
      · exact within_fdcmAppend ha.inside hfull.1 hfull.2
      · have := Nat.mul_le_mul_right (fdcmBitCount bitmap + 1) hlen
        omega

theorem within_writeRawCfg {h : FdcmHandle} (ha : EraseArea board h.flash h.addr h.size)
    {raw : List Byte} (hlen : raw.length ≤ fdcmHeaderSize) (tries : Nat) :
    Within (InArea h.flash h.addr h.size) (writeRawCfg board h raw tries) := by
  induction tries with
  | zero => exact (quiet_pure _).within
  | succ tries ih =>
    refine (within_fdcmWrite ha hlen).bind fun n => ?_
    split
    · exact (quiet_pure _).within
    refine (quiet_fdcmRead ..).within.bind fun r => ?_
    cases r with
    | none => exact (quiet_pure _).within
    | some readCfg =>
      dsimp only
      split
      · exact (quiet_pure _).within
      · exact ih

theorem within_imageSetCfg (hin : Inside board iop.otaFlash iop.otaAddr iop.otaSize) :
    Within (InArea iop.otaFlash iop.otaAddr iop.otaSize) (imageSetCfg board iop cfg) where
  confined c := by
    rcases imageSetCfg_cases board iop cfg with h | ⟨-, -, hblock, h⟩
    · rw [(h c).2]
      exact confined_nil _
    · rw [(h c).2]
      exact (within_writeRawCfg (h := iop.cfgArea) ⟨hin, hblock⟩ (length_rawOfSeq_le _) _).confined c

end Cfg

end Image
end XR806

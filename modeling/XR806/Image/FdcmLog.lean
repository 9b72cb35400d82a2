import XR806.Image.Fdcm
import XR806.Trans.Run

/-!
# XR806.Image.FdcmLog

What `fdcm_write` keeps in its area, and that the area is a last-value store.

* `Index`: a header for chunks of `d` bytes and a bitmap counting `n` of them; `Log`: the slots
  behind them are blank as well; `Stores`: the last chunk is a given one.
* `Log.append`, `fdcmRewrite_stores`: both ways of writing lead to `Stores`.
* `fdcm_last_value`: from an intact area, after any writes and erases, `fdcm_read` returns the
  latest data written.

The area has to be intact: a header that fits in front of slots that are already used is taken for
a log, and a program cannot set their bits again (`used_slot_not_written`).
-/

namespace XR806
namespace Image

open Nor Flash

/-! ## Headers and bitmaps -/

theorem FdcmHeader.length_encode (header : FdcmHeader) :
    header.encode.length = fdcmHeaderSize := by
  simp [encode, fdcmHeaderSize]

theorem FdcmHeader.decode_encode {header : FdcmHeader} (hid : header.idCode < 2 ^ 32)
    (hb : header.bitmapSize < 2 ^ 16) (hd : header.dataSize < 2 ^ 16) :
    decode header.encode = header := by
  have h4 : (header.encode).take 4 = leBytes 4 header.idCode := by
    rw [encode, List.append_assoc, List.take_left' (length_leBytes ..)]
  have h6 : ((header.encode).drop 4).take 2 = leBytes 2 header.bitmapSize := by
    rw [encode, List.append_assoc, List.drop_left' (length_leBytes ..),
      List.take_left' (length_leBytes ..)]
  have h8 : ((header.encode).drop 6).take 2 = leBytes 2 header.dataSize := by
    rw [encode, List.drop_left' (by simp), List.take_of_length_le (by simp)]
  cases header
  simp only [decode, h4, h6, h8, leNat_leBytes]
  congr 1
  · exact Nat.mod_eq_of_lt hid
  · exact Nat.mod_eq_of_lt hb
  · exact Nat.mod_eq_of_lt hd

/-- A bitmap byte of which the `k` lowest bits are used. -/
def bitmapByte (k : Nat) : Byte := if 8 ≤ k then 0 else 0xFF#8 <<< k

/-- The bitmap of `size` bytes that counts `n` chunks. -/
def bitmapBytes (size n : Nat) : List Byte := (List.range size).map fun i => bitmapByte (n - 8 * i)

@[simp] theorem length_bitmapBytes (size n : Nat) : (bitmapBytes size n).length = size := by
  simp [bitmapBytes]

theorem bitmapBytes_succ (size n : Nat) :
    bitmapBytes (size + 1) n = bitmapByte n :: bitmapBytes size (n - 8) := by
  simp only [bitmapBytes, List.range_succ_eq_map, List.map_cons, List.map_map]
  congr 1
  exact List.map_congr_left fun i _ => by simp [Nat.mul_succ, Nat.sub_sub, Nat.add_comm]

theorem usedBits_bitmapByte : ∀ n : Fin 8, bitmapByte n ≠ 0 ∧ usedBits 8 (~~~bitmapByte n) = n := by
  decide

theorem fdcmBitCount_bitmapBytes {size n : Nat} (h : n ≤ 8 * size) :
    fdcmBitCount (bitmapBytes size n) = n := by
  induction size generalizing n with
  | zero =>
    obtain rfl : n = 0 := by omega
    rfl
  | succ size ih =>
    rw [bitmapBytes_succ, fdcmBitCount]
    by_cases h8 : 8 ≤ n
    · rw [if_pos (by simp [bitmapByte, h8]), ih (by omega), fdcmByteBits]
      omega
    · obtain ⟨h1, h2⟩ := usedBits_bitmapByte ⟨n, by omega⟩
      rw [if_neg h1, h2]

/-- Clearing the next bit of a byte. -/
theorem bitmapByte_clear : ∀ n : Fin 8, bitmapByte n &&& ~~~(1#8 <<< n.val) = bitmapByte (n + 1) ∧
    bitmapByte n &&& bitmapByte (n + 1) = bitmapByte (n + 1) := by
  decide

/-! ## The log in an area -/

/-- The area starts with a header for chunks of `d` bytes and a bitmap that counts `n` of them. -/
structure Index (h : FdcmHandle) (d bs n : Nat) (c : Cells) : Prop where
  header : FdcmHeader.decode (readCells c h.flash h.addr fdcmHeaderSize) = ⟨fdcmIdCode, bs, d⟩
  pos : bs ≠ 0
  fits : bs + fdcmHeaderSize < h.size
  count : n ≤ 8 * bs
  bitmap : ∀ i, i < bs → c h.flash (h.addr + 8 + i) = bitmapByte (n - 8 * i)

/-- An index, with the slots from `n` on blank. -/
structure Log (h : FdcmHandle) (d bs n : Nat) (c : Cells) : Prop extends Index h d bs n c where
  free : ∀ a, h.addr + 8 + bs + d * n ≤ a → a < h.addr + h.size → c h.flash a = blank

/-- The log's last chunk is `data`. -/
structure Stores (h : FdcmHandle) (bs n : Nat) (data : List Byte) (c : Cells) : Prop
    extends Log h data.length bs (n + 1) c where
  room : 8 + bs + data.length * (n + 1) ≤ h.size
  slot : readCells c h.flash (h.addr + 8 + bs + data.length * n) data.length = data

section Area

variable {board : Board} {h : FdcmHandle} {d bs n : Nat} {c : Cells}

theorem Index.validFor (hi : Index h d bs n c) :
    (FdcmHeader.decode (readCells c h.flash h.addr fdcmHeaderSize)).validFor h d := by
  rw [hi.header]
  exact ⟨rfl, rfl, hi.pos, hi.fits⟩

theorem Index.readBitmap (hi : Index h d bs n c) :
    readCells c h.flash (h.addr + 8) bs = bitmapBytes bs n :=
  List.map_congr_left fun i hmem => hi.bitmap i (List.mem_range.mp hmem)

/-- What `fdcm_read` and `fdcm_write` find out about an area with an index. -/
theorem Index.reads (ha : Inside board h.flash h.addr h.size) (hi : Index h d bs n c) :
    ret (flashRead board h.flash h.addr fdcmHeaderSize) c =
        some (readCells c h.flash h.addr fdcmHeaderSize) ∧
      ret (flashRead board h.flash (u32 (h.addr + fdcmHeaderSize)) bs) c =
        some (bitmapBytes bs n) := by
  have hlt := ha.lt
  have hfits := hi.fits
  have hpos := hi.pos
  simp only [fdcmHeaderSize] at hfits ⊢
  refine ⟨ret_flashRead (ha.mono (by omega)) (by omega) c, ?_⟩
  rw [u32_of_lt (by omega), ret_flashRead (ha.mono (by omega)) (by omega), hi.readBitmap]

theorem fdcmRead_index (ha : Inside board h.flash h.addr h.size) (hi : Index h d bs n c) :
    ret (fdcmRead board h d) c =
      ret (flashRead board h.flash (u32 (h.addr + 8 + bs + d * sub32 n 1)) d) c := by
  obtain ⟨h1, h2⟩ := hi.reads ha
  simp only [fdcmRead, ret_bind, post_flashRead, h1, hi.header]
  have hv := hi.validFor
  rw [hi.header] at hv
  simp only [hv, not_true, if_false, ret_bind, ret_allocReq, post_allocReq, Bool.not_true,
    Bool.false_eq_true, post_flashRead, h2, fdcmBitCount_bitmapBytes hi.count]
  rfl

theorem quiet_fdcmRead (h : FdcmHandle) (d : Nat) : Quiet (fdcmRead board h d) := by
  refine (quiet_flashRead ..).bind fun r => ?_
  cases r with
  | none => exact quiet_pure _
  | some bytes =>
    refine (quiet_pure _).ite ((quiet_allocReq _).bind fun _ => (quiet_pure _).ite ?_)
    refine (quiet_flashRead ..).bind fun r => ?_
    cases r with
    | none => exact quiet_pure _
    | some bitmap => exact quiet_flashRead ..

/-- No header for this chunk size: nothing is read. -/
theorem fdcmRead_invalid
    (hv : ¬(FdcmHeader.decode (readCells c h.flash h.addr fdcmHeaderSize)).validFor h d) :
    ret (fdcmRead board h d) c = none := by
  simp only [fdcmRead, ret_bind, post_flashRead]
  rcases ret_flashRead_cases board h.flash h.addr fdcmHeaderSize c with hr | hr
  · rw [hr]; rfl
  · rw [hr]
    simp only [hv, not_false_eq_true, if_true, ret_pure]

theorem fdcmRead_stores {data : List Byte} (ha : Inside board h.flash h.addr h.size)
    (hd : data ≠ []) (hs : Stores h bs n data c) :
    ret (fdcmRead board h data.length) c = some data := by
  have hlt := ha.lt
  have hroom := hs.room
  have hpos := List.length_pos_iff.mpr hd
  have hn : n + 1 ≤ data.length * (n + 1) := Nat.le_mul_of_pos_left _ hpos
  rw [fdcmRead_index ha hs.toIndex, sub32_of_le (by omega), Nat.add_sub_cancel]
  rw [Nat.mul_succ] at hroom
  rw [u32_of_lt (by omega), ret_flashRead (ha.mono (by omega)) hpos, hs.slot]

/-! ## Appending -/

/-- The byte `fdcm_write` programs into the bitmap. -/
theorem bitmap_next (hn : n < 8 * bs) :
    (bitmapBytes bs n).getD (n / fdcmByteBits) blank &&& ~~~(1#8 <<< (n % fdcmByteBits)) =
      bitmapByte (n % 8 + 1) := by
  have hlt : n / 8 < bs := by omega
  simp only [fdcmByteBits, bitmapBytes]
  rw [List.getD_eq_getElem?_getD, List.getElem?_map, List.getElem?_range hlt]
  simp only [Option.map_some, Option.getD_some]
  rw [show n - 8 * (n / 8) = n % 8 by omega]
  exact (bitmapByte_clear ⟨n % 8, Nat.mod_lt _ (by decide)⟩).1

/-- Clearing the next bit counts one more chunk. -/
theorem Index.next (hi : Index h d bs n c) (hn : n < 8 * bs) :
    Index h d bs (n + 1)
      (programCells c h.flash (h.addr + 8 + n / 8) [bitmapByte (n % 8 + 1)]) where
  header := by
    rw [← hi.header]
    congr 1
    refine readCells_congr fun i hlt => programCells_outside ?_
    simp only [fdcmHeaderSize] at hlt
    omega
  pos := hi.pos
  fits := hi.fits
  count := hn
  bitmap i hlt := by
    by_cases hin : i = n / 8
    · subst hin
      rw [programCells_inside (Nat.le_refl _) (by simp), hi.bitmap _ hlt, Nat.sub_self,
        show n - 8 * (n / 8) = n % 8 by omega, show n + 1 - 8 * (n / 8) = n % 8 + 1 by omega]
      exact (bitmapByte_clear ⟨n % 8, Nat.mod_lt _ (by decide)⟩).2
    · rw [programCells_outside (by simp; omega), hi.bitmap i hlt]
      by_cases hlow : i < n / 8
      · simp only [bitmapByte]
        rw [if_pos (by omega), if_pos (by omega)]
      · congr 1
        omega

/-- Programs in the slots leave the index alone. -/
theorem Index.program (hi : Index h d bs n c) {a : Nat} {data : List Byte}
    (ha : h.addr + 8 + bs ≤ a) : Index h d bs n (programCells c h.flash a data) where
  header := by
    rw [← hi.header]
    congr 1
    refine readCells_congr fun i hlt => programCells_outside ?_
    simp only [fdcmHeaderSize] at hlt
    omega
  pos := hi.pos
  fits := hi.fits
  count := hi.count
  bitmap i hlt := by rw [programCells_outside (by omega), hi.bitmap i hlt]

/-- The cells after `data` is appended as chunk `n`. -/
def appendCells (h : FdcmHandle) (bs n : Nat) (data : List Byte) (c : Cells) : Cells :=
  programCells (programCells c h.flash (h.addr + 8 + n / 8) [bitmapByte (n % 8 + 1)]) h.flash
    (h.addr + 8 + bs + data.length * n) data

theorem Log.append {data : List Byte} (hl : Log h data.length bs n c) (hn : n < 8 * bs)
    (hroom : 8 + bs + data.length * (n + 1) ≤ h.size) :
    Stores h bs n data (appendCells h bs n data c) := by
  have hmul : data.length * (n + 1) = data.length * n + data.length := Nat.mul_succ ..
  have hcell : ∀ a, h.addr + 8 + bs + data.length * n ≤ a → a < h.addr + h.size →
      programCells c h.flash (h.addr + 8 + n / 8) [bitmapByte (n % 8 + 1)] h.flash a = blank := by
    intro a h1 h2
    rw [programCells_outside (by simp; omega)]
    exact hl.free a h1 h2
  refine ⟨⟨(hl.toIndex.next hn).program (by omega), fun a h1 h2 => ?_⟩, hroom, ?_⟩
  · rw [appendCells, programCells_outside (by omega)]
    exact hcell a (by omega) h2
  · refine readCells_eq_of_getElem fun i hi => ?_
    rw [appendCells, programCells_inside (by omega) (by omega), hcell _ (by omega) (by omega),
      blank_and, Nat.add_sub_cancel_left]

/-- The commands of an append: the bitmap byte, then the slot. -/
structure AppendTrace (h : FdcmHandle) (bs n : Nat) (data : List Byte) (ws : List Write) :
    Prop where
  split : ∃ ws₁ ws₂, ws = ws₁ ++ ws₂ ∧
    Pieces h.flash (h.addr + 8 + n / 8) [bitmapByte (n % 8 + 1)] ws₁ ∧
    Pieces h.flash (h.addr + 8 + bs + data.length * n) data ws₂

theorem AppendTrace.applyAll {data : List Byte} {ws : List Write}
    (h' : AppendTrace h bs n data ws) : applyAll ws c = appendCells h bs n data c := by
  obtain ⟨ws₁, ws₂, rfl, h1, h2⟩ := h'.split
  rw [applyAll_append, h1.applyAll, h2.applyAll, appendCells]

theorem fdcmAppend_spec {data : List Byte} (ha : Inside board h.flash h.addr h.size)
    (hn : n < 8 * bs) (hd : data ≠ [])
    (hroom : 8 + bs + data.length * (n + 1) ≤ h.size) :
    ret (fdcmAppend board h data (bitmapBytes bs n) bs n) c = data.length ∧
      AppendTrace h bs n data (trace (fdcmAppend board h data (bitmapBytes bs n) bs n) c) := by
  have hlt := ha.lt
  rw [Nat.mul_succ] at hroom
  obtain ⟨h1, h2⟩ := flashWrite_spec ha (h.addr + 8 + n / 8) [bitmapByte (n % 8 + 1)]
    (by simp; omega) (by simp) c
  obtain ⟨h3, h4⟩ := flashWrite_spec ha (h.addr + 8 + bs + data.length * n) data (by omega) hd
    (post (flashWrite board h.flash (h.addr + 8 + n / 8) [bitmapByte (n % 8 + 1)]) c)
  have hrun : fdcmAppend board h data (bitmapBytes bs n) bs n =
      (do
        let m ← flashWrite board h.flash (h.addr + 8 + n / 8) [bitmapByte (n % 8 + 1)]
        if m ≠ 1 then pure 0
        else flashWrite board h.flash (h.addr + 8 + bs + data.length * n) data) := by
    simp only [fdcmAppend, bitmap_next hn]
    simp only [fdcmHeaderSize, fdcmByteBits]
    rw [u32_of_lt (by omega), u32_of_lt (by omega)]
  rw [hrun]
  simp only [ret_bind, trace_bind, h1, List.length_singleton, ne_eq, not_true, if_false]
  exact ⟨h3, _, _, rfl, h2, h4⟩

/-! ## Starting the log anew -/

theorem fdcmBitmapSize_le (size d : Nat) : fdcmBitmapSize size d ≤ fdcmIndexMax := by
  simp only [fdcmBitmapSize]
  split <;> omega

/-- The cells after the erase and the header of a rewrite. -/
def headerCells (h : FdcmHandle) (d bs : Nat) (c : Cells) : Cells :=
  programCells (eraseCells c h.flash h.addr h.size) h.flash h.addr
    (FdcmHeader.encode ⟨fdcmIdCode, bs, d⟩)

theorem header_headerCells (hd : d < 2 ^ 16) (hbs : bs < 2 ^ 16) (hsize : fdcmHeaderSize ≤ h.size) :
    FdcmHeader.decode (readCells (headerCells h d bs c) h.flash h.addr fdcmHeaderSize) =
      ⟨fdcmIdCode, bs, d⟩ := by
  have hlen : (FdcmHeader.encode ⟨fdcmIdCode, bs, d⟩).length = fdcmHeaderSize :=
    FdcmHeader.length_encode _
  have hid : fdcmIdCode < 2 ^ 32 := by decide
  have hb : Blank (eraseCells c h.flash h.addr h.size) h.flash h.addr fdcmHeaderSize :=
    (blank_eraseCells c h.flash h.addr h.size).mono (Nat.le_refl _) (by omega)
  rw [headerCells, read_program_blank hb (Nat.le_of_eq hlen), hlen, Nat.sub_self,
    List.replicate_zero, List.append_nil, FdcmHeader.decode_encode hid hbs hd]

theorem log_headerCells (hd : d < 2 ^ 16) (hbs : bs < 2 ^ 16) (hpos : bs ≠ 0)
    (hfits : bs + fdcmHeaderSize < h.size) : Log h d bs 0 (headerCells h d bs c) := by
  have hlen : (FdcmHeader.encode ⟨fdcmIdCode, bs, d⟩).length = 8 := FdcmHeader.length_encode _
  have hblank : ∀ a, h.addr + 8 ≤ a → a < h.addr + h.size →
      headerCells h d bs c h.flash a = blank := by
    intro a h1 h2
    rw [headerCells, programCells_outside (by omega)]
    exact eraseCells_inside (by omega) h2
  refine ⟨⟨header_headerCells hd hbs (by omega), hpos, hfits, by omega, fun i hi => ?_⟩,
    fun a h1 h2 => hblank a (by omega) h2⟩
  simp only [fdcmHeaderSize] at hfits
  rw [hblank _ (by omega) (by omega)]
  simp [bitmapByte]

/-- The commands of a rewrite from `c`: erase, header, then the append of chunk 0. -/
structure RewriteTrace (h : FdcmHandle) (bs : Nat) (data : List Byte) (c : Cells)
    (ws : List Write) : Prop where
  split : ∃ es hs as, ws = es ++ (hs ++ as) ∧ OnlyErases 4096 es ∧
    Confined (fun d a => d = h.flash ∧ h.addr ≤ a ∧ a < h.addr + h.size) es ∧
    applyAll es c = eraseCells c h.flash h.addr h.size ∧
    Pieces h.flash h.addr (FdcmHeader.encode ⟨fdcmIdCode, bs, data.length⟩) hs ∧
    AppendTrace h bs 0 data as

theorem RewriteTrace.applyAll {data : List Byte} {ws : List Write}
    (h' : RewriteTrace h bs data c ws) :
    applyAll ws c = appendCells h bs 0 data (headerCells h data.length bs c) := by
  obtain ⟨es, hs, as, rfl, -, -, he, hh, has⟩ := h'.split
  rw [applyAll_append, applyAll_append, he, hh.applyAll, has.applyAll, headerCells]

theorem appendTrace_zero {data : List Byte} {ws₁ ws₂ : List Write}
    (h₁ : Pieces h.flash (h.addr + 8) [0xFE] ws₁)
    (h₂ : Pieces h.flash (h.addr + 8 + bs) data ws₂) : AppendTrace h bs 0 data (ws₁ ++ ws₂) := by
  have hbyte : bitmapByte (0 % 8 + 1) = 0xFE := by decide
  refine ⟨ws₁, ws₂, rfl, ?_, ?_⟩
  · rw [hbyte, Nat.zero_div, Nat.add_zero]
    exact h₁
  · rw [Nat.mul_zero, Nat.add_zero]
    exact h₂

/-- Nothing is written when the chunk does not fit behind the bitmap. -/
theorem fdcmRewrite_tooBig {data : List Byte}
    (hbig : data.length > sub32 h.size (fdcmHeaderSize + fdcmBitmapSize h.size data.length)) :
    fdcmRewrite board h data = pure 0 := by
  rw [fdcmRewrite, if_pos hbig]

/-- A rewrite whose erase is refused has erased what was erased. -/
theorem fdcmRewrite_refused {data : List Byte} (ha : EraseArea board h.flash h.addr h.size)
    (herase : ret (flashErase board h.flash h.addr h.size) c = false)
    (hfit : fdcmHeaderSize + fdcmBitmapSize h.size data.length + data.length ≤ h.size) :
    trace (fdcmRewrite board h data) c = trace (flashErase board h.flash h.addr h.size) c := by
  have hlt := ha.inside.lt
  rw [fdcmRewrite, if_neg (by rw [sub32_of_le] <;> omega)]
  simp only [trace_bind, herase, Bool.not_false, if_true, trace_pure, List.append_nil]

theorem fdcmRewrite_spec {data : List Byte} (ha : EraseArea board h.flash h.addr h.size)
    (herase : ret (flashErase board h.flash h.addr h.size) c = true) (hd : data ≠ []) (hfit : fdcmHeaderSize + fdcmBitmapSize h.size data.length + data.length ≤
      h.size) :
    ret (fdcmRewrite board h data) c = data.length ∧
      RewriteTrace h (fdcmBitmapSize h.size data.length) data c
        (trace (fdcmRewrite board h data) c) := by
  have hlt := ha.inside.lt
  generalize hbs : fdcmBitmapSize h.size data.length = bs at *
  have hlen : (FdcmHeader.encode ⟨fdcmIdCode, bs, data.length⟩).length = 8 :=
    FdcmHeader.length_encode _
  have hpos := List.length_pos_iff.mpr hd
  simp only [fdcmHeaderSize] at hfit
  have hu : u32 (h.addr + 8) = h.addr + 8 := u32_of_lt (by omega)
  have hu' : u32 (h.addr + 8 + bs) = h.addr + 8 + bs := u32_of_lt (by omega)
  obtain ⟨he2, he3, he4⟩ := flashErase_cases ha c
  obtain ⟨hh1, hh2⟩ := flashWrite_spec ha.inside h.addr
    (FdcmHeader.encode ⟨fdcmIdCode, bs, data.length⟩) (by omega)
    (List.length_pos_iff.mp (by omega)) (post (flashErase board h.flash h.addr h.size) c)
  generalize hc₁ : post (flashErase board h.flash h.addr h.size) c = c₁ at *
  obtain ⟨hb1, hb2⟩ := flashWrite_spec ha.inside (h.addr + 8) [0xFE] (by simp; omega) (by simp)
    (post (flashWrite board h.flash h.addr (FdcmHeader.encode ⟨fdcmIdCode, bs, data.length⟩)) c₁)
  generalize hc₂ : post (flashWrite board h.flash h.addr
    (FdcmHeader.encode ⟨fdcmIdCode, bs, data.length⟩)) c₁ = c₂ at *
  obtain ⟨hd1, hd2⟩ := flashWrite_spec ha.inside (h.addr + 8 + bs) data (by omega) hd
    (post (flashWrite board h.flash (h.addr + 8) [0xFE]) c₂)
  rw [fdcmRewrite, hbs, if_neg (by simp only [fdcmHeaderSize]; rw [sub32_of_le] <;> omega)]
  simp only [fdcmHeaderSize, hu, hu', ret_bind, trace_bind, herase, hc₁, hh1, hlen, hc₂, hb1, hd1,
    List.length_singleton, Bool.not_true, Bool.false_eq_true, if_false, ne_eq, not_true,
    ret_pure, trace_pure, List.append_nil, true_and]
  exact ⟨_, _, _, rfl, he2, he3, hc₁.trans (he4 herase), hh2, appendTrace_zero hb2 hd2⟩

/-! ## Writing -/

/-- `fdcm_write` on an area with an index. -/
theorem fdcmWrite_index {data : List Byte} (ha : Inside board h.flash h.addr h.size)
    (hi : Index h data.length bs n c) :
    ret (fdcmWrite board h data) c = ret (
        if data.length > sub32 h.size (fdcmHeaderSize + bs) then pure 0
        else if fdcmFull h data.length bs n then fdcmRewrite board h data
        else fdcmAppend board h data (bitmapBytes bs n) bs n) c ∧
      trace (fdcmWrite board h data) c = trace (
        if data.length > sub32 h.size (fdcmHeaderSize + bs) then pure 0
        else if fdcmFull h data.length bs n then fdcmRewrite board h data
        else fdcmAppend board h data (bitmapBytes bs n) bs n) c := by
  obtain ⟨h1, h2⟩ := hi.reads ha
  have hv := hi.validFor
  rw [hi.header] at hv
  simp only [fdcmWrite, ret_bind, trace_bind, trace_flashRead, post_flashRead, List.nil_append, h1,
    hi.header, hv, not_true, if_false]
  split
  · exact ⟨rfl, rfl⟩
  · simp only [ret_bind, trace_bind, ret_allocReq, trace_allocReq, post_allocReq, Bool.not_true,
      Bool.false_eq_true, if_false, trace_flashRead, post_flashRead, List.nil_append, h2,
      fdcmBitCount_bitmapBytes hi.count, and_self]

theorem fdcmWrite_invalid {data : List Byte} (ha : Inside board h.flash h.addr h.size)
    (hsize : fdcmHeaderSize ≤ h.size)
    (hv : ¬(FdcmHeader.decode (readCells c h.flash h.addr fdcmHeaderSize)).validFor h data.length) :
    ret (fdcmWrite board h data) c = ret (fdcmRewrite board h data) c ∧
      trace (fdcmWrite board h data) c = trace (fdcmRewrite board h data) c := by
  have hin : Inside board h.flash h.addr fdcmHeaderSize := ha.mono (by omega)
  have h1 := ret_flashRead hin (by decide) c
  simp only [fdcmWrite, ret_bind, trace_bind, trace_flashRead, post_flashRead, List.nil_append, h1,
    hv, not_false_eq_true, if_true, and_self]

/-- The area has no header for chunks of `d` bytes, or an intact log of them with a bitmap that is
not larger than the ones `fdcm_write` makes. -/
def Intact (h : FdcmHandle) (d : Nat) (c : Cells) : Prop :=
  (FdcmHeader.decode (readCells c h.flash h.addr fdcmHeaderSize)).validFor h d →
    ∃ bs n, bs ≤ fdcmIndexMax ∧ Log h d bs n c

theorem EraseArea.size_ge (ha : EraseArea board h.flash h.addr h.size) : 4096 ≤ h.size := by
  obtain ⟨mode, hmode⟩ := ha.block
  obtain ⟨chip, hb, -⟩ := ha.inside.chip
  exact (erasable_of_getEraseBlock hb hmode).2.2.2

theorem fdcmBitmapSize_fits (ha : EraseArea board h.flash h.addr h.size) (d : Nat) :
    fdcmBitmapSize h.size d + fdcmHeaderSize < h.size ∧ fdcmBitmapSize h.size d < 2 ^ 16 := by
  have h1 := fdcmBitmapSize_le h.size d
  have h2 := EraseArea.size_ge ha
  simp only [fdcmIndexMax, fdcmHeaderSize] at *
  omega

/-- A rewrite that is not refused leaves a log with the one chunk. -/
theorem fdcmRewrite_stores {data : List Byte} (ha : ErasableArea board h.flash h.addr h.size)
    (hd : data ≠ []) (hd' : data.length < 2 ^ 16) (hbs : fdcmBitmapSize h.size data.length ≠ 0) :
    ret (fdcmRewrite board h data) c = 0 ∧ trace (fdcmRewrite board h data) c = [] ∨
      ret (fdcmRewrite board h data) c = data.length ∧
        Stores h (fdcmBitmapSize h.size data.length) 0 data
          (post (fdcmRewrite board h data) c) := by
  obtain ⟨hfits, hlt⟩ := fdcmBitmapSize_fits ha.toEraseArea data.length
  have hsz := ha.inside.lt
  by_cases hbig : data.length > sub32 h.size (fdcmHeaderSize + fdcmBitmapSize h.size data.length)
  · rw [fdcmRewrite_tooBig hbig]
    exact .inl ⟨rfl, rfl⟩
  · rw [sub32_of_le (by omega)] at hbig
    obtain ⟨h1, h2⟩ := fdcmRewrite_spec ha.toEraseArea (flashErase_spec ha c).1 hd (by omega)
    refine .inr ⟨h1, ?_⟩
    rw [post, h2.applyAll]
    simp only [fdcmHeaderSize] at hbig hfits
    exact (log_headerCells hd' hlt hbs hfits).append (by omega)
      (by rw [Nat.zero_add, Nat.mul_one]; omega)

/-- A write is refused and changes nothing, or it leaves a log whose last chunk is the data. -/
theorem fdcmWrite_stores {data : List Byte} (ha : ErasableArea board h.flash h.addr h.size)
    (hd : data ≠ []) (hd' : data.length < 2 ^ 16) (hbs : fdcmBitmapSize h.size data.length ≠ 0)
    (hin : Intact h data.length c) :
    ret (fdcmWrite board h data) c = 0 ∧ trace (fdcmWrite board h data) c = [] ∨
      ret (fdcmWrite board h data) c = data.length ∧
        ∃ bs n, bs ≤ fdcmIndexMax ∧ Stores h bs n data (post (fdcmWrite board h data) c) := by
  have hrw := fdcmRewrite_stores (c := c) ha hd hd' hbs
  have hmax := fdcmBitmapSize_le h.size data.length
  by_cases hv :
      (FdcmHeader.decode (readCells c h.flash h.addr fdcmHeaderSize)).validFor h data.length
  · obtain ⟨bs, n, hle, hl⟩ := hin hv
    obtain ⟨h1, h2⟩ := fdcmWrite_index ha.inside hl.toIndex
    rw [post, h1, h2]
    split
    · exact .inl ⟨rfl, rfl⟩
    split
    · exact hrw.imp_right fun hs => ⟨hs.1, _, _, hmax, hs.2⟩
    · rename_i hfull
      rw [fdcmFull_iff_of_bitmap hd' hle, not_or, not_le, not_lt] at hfull
      obtain ⟨h3, h4⟩ := fdcmAppend_spec ha.inside hfull.1 hd hfull.2 (c := c) (n := n)
      refine .inr ⟨h3, bs, n, hle, ?_⟩
      rw [h4.applyAll]
      exact hl.append hfull.1 hfull.2
  · obtain ⟨h1, h2⟩ := fdcmWrite_invalid ha.inside
      (by have := EraseArea.size_ge ha.toEraseArea; simp only [fdcmHeaderSize]; omega) hv
    rw [post, h1, h2]
    exact hrw.imp_right fun hs => ⟨hs.1, _, _, hmax, hs.2⟩

theorem Stores.intact {data : List Byte} (hbs : bs ≤ fdcmIndexMax) (hs : Stores h bs n data c) :
    Intact h data.length c := fun _ => ⟨bs, n + 1, hbs, hs.toLog⟩

/-- A blank area has no header. -/
theorem intact_of_blank (hb : Blank c h.flash h.addr fdcmHeaderSize) (d : Nat) :
    ¬(FdcmHeader.decode (readCells c h.flash h.addr fdcmHeaderSize)).validFor h d := by
  intro hv
  rw [readCells_blank hb] at hv
  exact absurd hv.1 (by decide)

end Area

/-! ## A last-value store -/

inductive FdcmOp where
  | write (data : List Byte)
  | erase

/-- The flash, and the data of the latest write since the latest erase. -/
structure StoreState where
  cells : Cells
  last : Option (List Byte)

/-- Writes of `d` bytes and erases. -/
inductive FdcmStep (board : Board) (h : FdcmHandle) (d : Nat) :
    StoreState → FdcmOp → StoreState → Prop where
  | write (s : StoreState) (data : List Byte) (hlen : data.length = d) :
    FdcmStep board h d s (.write data) ⟨post (fdcmWrite board h data) s.cells,
      if ret (fdcmWrite board h data) s.cells = d then some data else s.last⟩
  | erase (s : StoreState) : FdcmStep board h d s .erase ⟨post (fdcmErase board h) s.cells, none⟩

structure StoreInv (h : FdcmHandle) (d : Nat) (s : StoreState) : Prop where
  intact : Intact h d s.cells
  last : ∀ data, s.last = some data → data.length = d ∧ ∃ bs n, Stores h bs n data s.cells

section Runs

variable {board : Board} {h : FdcmHandle} {d : Nat}

theorem StoreInv.step (ha : ErasableArea board h.flash h.addr h.size) (hd : 0 < d) (hd' : d < 2 ^ 16)
    (hbs : fdcmBitmapSize h.size d ≠ 0) {s s' : StoreState} {op : FdcmOp} (hi : StoreInv h d s)
    (hstep : FdcmStep board h d s op s') : StoreInv h d s' := by
  cases hstep with
  | write data hlen =>
    subst hlen
    rcases fdcmWrite_stores ha (List.length_pos_iff.mp hd) hd' hbs hi.intact with
      ⟨h1, h2⟩ | ⟨h1, bs, n, hle, hs⟩
    · have hpost : post (fdcmWrite board h data) s.cells = s.cells := by rw [post, h2, applyAll_nil]
      rw [hpost, h1, if_neg (by omega)]
      exact hi
    · rw [if_pos h1]
      exact ⟨hs.intact hle, fun v hv => by
        obtain rfl := Option.some.inj hv
        exact ⟨rfl, bs, n, hs⟩⟩
  | erase =>
    refine ⟨fun hv => absurd hv (intact_of_blank ?_ d), fun v hv => by cases hv⟩
    have hsz := EraseArea.size_ge ha.toEraseArea
    rw [fdcmErase, (flashErase_spec ha s.cells).2]
    exact (blank_eraseCells s.cells h.flash h.addr h.size).mono (Nat.le_refl _)
      (by simp only [fdcmHeaderSize]; omega)

/-- On an area with room for a header, one bitmap byte and one chunk, the bitmap a rewrite chooses
leaves room for a chunk. -/
theorem fdcmBitmapSize_room (hd : 0 < d) (hsize : fdcmHeaderSize + 1 + d ≤ h.size) :
    fdcmHeaderSize + fdcmBitmapSize h.size d + d ≤ h.size := by
  have hsub : sub32 h.size (fdcmHeaderSize + 1) = h.size - 9 := sub32_of_le (by omega)
  have hle : fdcmBitmapSize h.size d ≤ (h.size - 9) / (d * fdcmByteBits + 1) + 1 := by
    simp only [fdcmBitmapSize, hsub]
    have := Nat.mod_le ((h.size - 9) / (d * fdcmByteBits + 1) + 1) (2 ^ 16)
    split <;> omega
  simp only [fdcmByteBits] at hle
  have hmul := Nat.div_mul_le_self (h.size - 9) (d * 8 + 1)
  simp only [fdcmHeaderSize] at *
  generalize (h.size - 9) / (d * 8 + 1) = q at *
  rcases Nat.eq_zero_or_pos q with rfl | hq
  · omega
  · have h8 : q * (d * 8) ≥ d * 8 := Nat.le_mul_of_pos_left _ hq
    rw [Nat.mul_add, Nat.mul_one] at hmul
    omega

/-- What `fdcm_open` accepts, inside the device. -/
theorem fdcmOpen_area {flash addr size : Nat} {c : Cells} (hin : Inside board flash addr size)
    (hopen : ret (fdcmOpen board flash addr size) c = some h) :
    EraseArea board h.flash h.addr h.size := by
  unfold fdcmOpen at hopen
  split at hopen
  · cases hopen
  · rename_i mode hmode
    simp only [ret_bind, ret_allocReq, if_true, ret_pure, Option.some.injEq] at hopen
    subst hopen
    exact ⟨hin, mode, hmode⟩

/-- No erase is refused: the chip has the blocks that `flash_erase` divides the area into. -/
theorem fdcm_last_value {flash addr size : Nat} {c₀ : Cells} (hin : Inside board flash addr size)
    (hopen : ret (fdcmOpen board flash addr size) c₀ = some h)
    (hblocks : ∀ chip, board h.flash = some chip → (erasePlan chip h.addr h.size).Supported chip)
    (hd : 0 < d) (hd' : d < 2 ^ 16) (hbs : fdcmBitmapSize h.size d ≠ 0) :
    (∀ c ops s, Intact h d c → Trans.Run (FdcmStep board h d) ⟨c, none⟩ ops s →
      ∀ data, s.last = some data → ret (fdcmRead board h d) s.cells = some data) ∧
    ∀ c data, Blank c h.flash h.addr h.size → data.length = d → fdcmHeaderSize + 1 + d ≤ h.size →
      ret (fdcmWrite board h data) c = d := by
  have ha : ErasableArea board h.flash h.addr h.size := ⟨fdcmOpen_area hin hopen, hblocks⟩
  constructor
  · intro c ops s hin hrun data hlast
    have hi : StoreInv h d s := hrun.invariant ⟨hin, fun _ hv => by cases hv⟩
      fun _ _ _ hi hs => hi.step ha hd hd' hbs hs
    obtain ⟨rfl, bs, n, hs⟩ := hi.last data hlast
    exact fdcmRead_stores ha.inside (List.length_pos_iff.mp hd) hs
  · rintro c data hb rfl hsize
    have hb8 : Blank c h.flash h.addr fdcmHeaderSize := hb.mono (Nat.le_refl _) (by omega)
    have hv := intact_of_blank hb8 data.length
    rw [(fdcmWrite_invalid ha.inside (by omega) hv).1]
    exact (fdcmRewrite_spec ha.toEraseArea (flashErase_spec ha c).1 (List.length_pos_iff.mp hd)
      (fdcmBitmapSize_room hd hsize)).1

end Runs

/-- A chip of 8 MB with all three erase modes. -/
def allModes : Chip := ⟨0x800000, 0x19000⟩

theorem supports_allModes (mode : EraseMode) : allModes.supports mode = true := by
  cases mode <;> rfl

def oneChip : Board := fun _ => some allModes

def area4k : FdcmHandle := ⟨0, 0, 4096⟩

theorem inside_area4k : Inside oneChip 0 0 4096 := ⟨_, rfl, by decide, by decide⟩

theorem supported_oneChip {dev addr size : Nat} (chip : Chip) (hb : oneChip dev = some chip) :
    (erasePlan chip addr size).Supported chip := by
  obtain rfl := Option.some.inj hb
  exact fun part _ _ => supports_allModes part.1

/-- A write into a blank area, read back. -/
theorem fdcm_write_read : ret (fdcmRead oneChip area4k 1)
    (post (fdcmWrite oneChip area4k [0x5A]) fun _ _ => blank) = some [0x5A] := by
  have hb : Blank (fun _ _ => blank) area4k.flash area4k.addr area4k.size := fun _ _ _ => rfl
  obtain ⟨hread, hwrite⟩ := @fdcm_last_value oneChip area4k 1 0 0 4096 (fun _ _ => blank)
    inside_area4k rfl supported_oneChip (by decide) (by decide) (by decide)
  have hrun := Trans.Run.single
    (@FdcmStep.write oneChip area4k 1 ⟨fun _ _ => blank, none⟩ [0x5A] rfl)
  refine hread _ _ _ (fun hv => absurd hv (by decide)) hrun _ ?_
  dsimp only
  rw [if_pos (hwrite _ [0x5A] hb rfl (by decide))]

/-- A header for one-byte chunks and a bitmap of one unused byte, in front of a used slot. -/
def usedSlot : Cells := fun _ a =>
  (FdcmHeader.encode ⟨fdcmIdCode, 1, 1⟩ ++ [0xFF, 0x00]).getD a blank

theorem used_slot_not_written : ret (fdcmWrite oneChip area4k [0x5A]) usedSlot = 1 ∧
    ret (fdcmRead oneChip area4k 1) (post (fdcmWrite oneChip area4k [0x5A]) usedSlot) =
      some [0x00] := by
  decide

end Image
end XR806

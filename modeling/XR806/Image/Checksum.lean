import XR806.Flash.Report
import XR806.Image.Section

/-!
# XR806.Image.Checksum

The two ways an image's data is verified: `image_check_data` on a body and a tailer in memory, and
the scan of `_image_check_section` over the flash in pieces of the buffer's size.

Both come to the sum of the data's 16-bit words (`wordSum`). A sum over parts is the sum of the
parts wherever the parts before the last are of even length, which the pieces of the scan are, and
which `image_check_data` arranges by a joint word of the body's last byte and the tailer's first.
-/

namespace XR806
namespace Image

open Nor Flash

/-- The sum of the little-endian 16-bit words; a byte that is left over counts as a word. -/
def wordSum : List Byte → Nat
  | b0 :: b1 :: rest => leNat [b0, b1] + wordSum rest
  | [b0] => leNat [b0]
  | [] => 0

section
variable {chksum : Nat} {bs bs' : List Byte}

theorem imageChecksum16_eq (h : chksum < 2 ^ 16) :
    imageChecksum16 chksum bs = (chksum + wordSum bs) % 2 ^ 16 := by
  induction chksum, bs using imageChecksum16.induct with
  | case1 chksum b0 b1 b2 b3 rest ih =>
    rw [imageChecksum16, ih (Nat.mod_lt _ (by decide)), Nat.mod_add_mod]
    simp only [wordSum, Nat.add_assoc]
  | case2 chksum b0 b1 b2 => simp only [imageChecksum16, wordSum, Nat.add_assoc]
  | case3 chksum b0 b1 => simp only [imageChecksum16, wordSum, Nat.add_zero]
  | case4 chksum b0 => rfl
  | case5 chksum => exact (Nat.mod_eq_of_lt h).symm

theorem wordSum_append (h : bs.length % 2 = 0) :
    wordSum (bs ++ bs') = wordSum bs + wordSum bs' := by
  induction bs using wordSum.induct with
  | case1 b0 b1 rest ih =>
    have hrest : rest.length % 2 = 0 := by
      simp only [List.length_cons] at h
      omega
    simp only [List.cons_append, wordSum, ih hrest, Nat.add_assoc]
  | case2 b0 => cases h
  | case3 => exact (Nat.zero_add _).symm

/-- The sum of a concatenation, with a joint word where the first part is odd. -/
theorem wordSum_joint {b : Byte} (b' : Byte) (bs' : List Byte) (h : bs.length % 2 = 0) :
    wordSum (bs ++ [b] ++ b' :: bs') = wordSum bs + wordSum [b, b'] + wordSum bs' := by
  rw [List.append_assoc, wordSum_append h, Nat.add_assoc]
  rfl

end

/-! ## Data in memory -/

/-- A list by its last element. -/
theorem take_append_last {bs : List Byte} (h : bs ≠ []) :
    bs.take (bs.length - 1) ++ [bs.getD (bs.length - 1) 0] = bs := by
  have hpos := List.length_pos_iff.mpr h
  have hlast : bs.getD (bs.length - 1) 0 = bs.getLast h := by
    rw [List.getD_eq_getElem?_getD, List.getElem?_eq_getElem (by omega), Option.getD_some,
      List.getLast_eq_getElem]
  rw [hlast, ← List.dropLast_eq_take, List.dropLast_concat_getLast]

theorem first_cons_drop {bs : List Byte} (h : bs ≠ []) : bs.getD 0 0 :: bs.drop 1 = bs := by
  cases bs with
  | nil => exact absurd rfl h
  | cons b bs => rfl

/-- `image_check_data` is about the words of body and tailer as one. -/
theorem imageCheckData_valid {sh : SectionHeader} {body tailer : List Byte}
    (hsum : sh.dataChksum < 2 ^ 16) (hbody : body ≠ []) :
    imageCheckData sh body tailer = .valid ↔
      (sh.dataChksum + wordSum (body ++ tailer)) % 2 ^ 16 = 0xFFFF := by
  have hlen : body.length ≠ 0 := mt List.length_eq_zero_iff.mp hbody
  have hpos : 0 < 2 ^ 16 := by decide
  have hchksum : (if tailer.length = 0 then imageChecksum16 sh.dataChksum body
      else if body.length % 2 = 0 then
        (imageChecksum16 sh.dataChksum body + imageChecksum16 0 tailer) % 2 ^ 16
      else
        (imageChecksum16 sh.dataChksum (body.take (body.length - 1)) +
            imageChecksum16 0 [body.getD (body.length - 1) 0, tailer.getD 0 0] +
          imageChecksum16 0 (tailer.drop 1)) % 2 ^ 16) =
      (sh.dataChksum + wordSum (body ++ tailer)) % 2 ^ 16 := by
    simp only [imageChecksum16_eq hsum, imageChecksum16_eq hpos, Nat.zero_add]
    by_cases ht : tailer = []
    · rw [ht, List.append_nil]
      rfl
    rw [if_neg (mt List.length_eq_zero_iff.mp ht)]
    by_cases heven : body.length % 2 = 0
    · rw [if_pos heven, wordSum_append heven]
      omega
    · have hinit : (body.take (body.length - 1)).length % 2 = 0 := by
        rw [List.length_take_of_le (Nat.sub_le ..)]
        omega
      have hjoint := wordSum_joint (b := body.getD (body.length - 1) 0) (tailer.getD 0 0)
        (tailer.drop 1) hinit
      rw [take_append_last hbody, first_cons_drop ht] at hjoint
      rw [if_neg heven, hjoint]
      omega
  simp only [imageCheckData, hlen, if_false]
  rw [hchksum]
  by_cases h : (sh.dataChksum + wordSum (body ++ tailer)) % 2 ^ 16 = 0xFFFF
  · rw [if_neg (not_not.mpr h)]
    exact iff_of_true rfl h
  · rw [if_pos h]
    exact iff_of_false nofun h

/-! ## Data in flash -/

section
variable {board : Board} {dev addr size bufLen fuel chksum : Nat} {c : Cells}

/-- The scan, with pieces of even length. -/
theorem ret_sumData (hin : Inside board dev addr size) (heven : bufLen % 2 = 0) (hpos : 0 < bufLen)
    (hfuel : size ≤ fuel) (hsum : chksum < 2 ^ 16) :
    ret (sumData board dev bufLen fuel addr size chksum) c =
      some ((chksum + wordSum (readCells c dev addr size)) % 2 ^ 16) := by
  induction fuel generalizing addr size chksum with
  | zero =>
    obtain rfl : size = 0 := Nat.le_zero.mp hfuel
    exact congrArg some (Nat.mod_eq_of_lt hsum).symm
  | succ fuel ih =>
    by_cases hzero : size = 0
    · subst hzero
      exact congrArg some (Nat.mod_eq_of_lt hsum).symm
    rw [sumData, if_neg hzero]
    have hsplit : ∃ n, (if size ≥ bufLen then bufLen else size) = n ∧ 0 < n ∧ n ≤ size ∧
        (n % 2 = 0 ∨ size - n = 0) := by
      split
      · exact ⟨bufLen, rfl, hpos, by omega, .inl heven⟩
      · exact ⟨size, rfl, by omega, le_refl _, .inr (Nat.sub_self _)⟩
    obtain ⟨n, hn, hnpos, hnle, hneven⟩ := hsplit
    have hpiece : Inside board dev addr n := hin.mono (by omega)
    have hread := ret_flashRead hpiece hnpos c
    have hend := hin.lt
    have haddr : u32 (addr + n) = addr + n := u32_of_lt (by omega)
    simp only [hn, ret_bind, hread, post_flashRead, haddr]
    rw [imageChecksum16_eq hsum,
      ih (hin.mono (by omega)) (by omega) (Nat.mod_lt _ (by decide)), Nat.mod_add_mod]
    have hcells : readCells c dev addr size =
        readCells c dev addr n ++ readCells c dev (addr + n) (size - n) := by
      rw [← readCells_append, Nat.add_sub_cancel' hnle]
    rw [hcells]
    rcases hneven with hneven | hrest
    · rw [wordSum_append (by rw [length_readCells]; exact hneven), Nat.add_assoc]
    · rw [hrest]
      simp [readCells, wordSum]

/-- A scan that comes to its end has stayed inside the device, if there is room for a piece behind
the device. -/
theorem sumData_inside {chip : Chip} (hb : board dev = some chip)
    (hroom : chip.mSize + bufLen < 2 ^ 32) (haddr : addr ≤ chip.mSize) (hpos : 0 < bufLen)
    (hfuel : size ≤ fuel)
    (h : (ret (sumData board dev bufLen fuel addr size chksum) c).isSome = true) :
    addr + size ≤ chip.mSize := by
  induction fuel generalizing addr size chksum with
  | zero => omega
  | succ fuel ih =>
    by_cases hzero : size = 0
    · omega
    rw [sumData, if_neg hzero] at h
    obtain ⟨n, hn, hnpos, hnle, hnbuf⟩ : ∃ n, (if size ≥ bufLen then bufLen else size) = n ∧
        0 < n ∧ n ≤ size ∧ n ≤ bufLen := by
      split
      · exact ⟨bufLen, rfl, hpos, by omega, le_refl _⟩
      · exact ⟨size, rfl, by omega, le_refl _, by omega⟩
    have hend : u32 (addr + n) = addr + n := u32_of_lt (by omega)
    simp only [hn, ret_bind, post_flashRead, hend] at h
    have hread : addr + n ≤ chip.mSize := by
      by_contra hout
      have hnone : ret (flashRead board dev addr n) c = none := by
        unfold flashRead halFlashRead
        rw [hb]
        dsimp only
        rw [if_pos (.inr (by rw [hend]; omega))]
        rfl
      rw [hnone] at h
      exact absurd h nofun
    rw [ret_flashRead ⟨chip, hb, hread, by omega⟩ hnpos] at h
    have hrest : addr + n + (size - n) ≤ chip.mSize := ih hread (by omega) h
    omega

/-- What passes is a section inside the device, with a valid header and the sum of its data. -/
theorem imageCheckSection_isSome {checkT : CheckType}
    (hboard : ∀ chip, board dev = some chip → chip.mSize + 4096 ≤ 2 ^ 32)
    (haddr : addr + imageHeaderSize < 2 ^ 32) :
    (ret (imageCheckSection board dev addr imageCheckSize checkT) c).isSome = true ↔
      imageCheckHeader (readCells c dev addr imageHeaderSize) = .valid ∧
      Inside board dev addr (imageHeaderSize +
        (SectionHeader.decode (readCells c dev addr imageHeaderSize)).dataSize) ∧
      ((SectionHeader.decode (readCells c dev addr imageHeaderSize)).dataChksum +
        wordSum (readCells c dev (addr + imageHeaderSize)
          (SectionHeader.decode (readCells c dev addr imageHeaderSize)).dataSize)) % 2 ^ 16 =
        0xFFFF := by
  have h64 : imageHeaderSize = 64 := rfl
  have h1024 : imageCheckSize = 1024 := rfl
  have hstart : u32 (addr + imageHeaderSize) = addr + imageHeaderSize := u32_of_lt haddr
  have hchksum : ∀ hdr, (SectionHeader.decode hdr).dataChksum < 2 ^ 16 := fun hdr =>
    field_lt hdr 10 2
  unfold imageCheckSection
  rw [ret_bind, post_flashRead]
  rcases ret_flashRead_cases board dev addr imageHeaderSize c with hread | hread
  · rw [hread]
    refine iff_of_false nofun fun h => ?_
    rw [ret_flashRead (h.2.1.mono (by omega)) (by decide)] at hread
    exact nomatch hread
  rw [hread]
  generalize readCells c dev addr imageHeaderSize = hdr at *
  generalize hsh : SectionHeader.decode hdr = sh at *
  dsimp only
  rw [hsh]
  by_cases hvalid : imageCheckHeader hdr = .invalid
  · rw [if_pos hvalid, hvalid]
    exact iff_of_false nofun fun h => nomatch h.1
  have hval : imageCheckHeader hdr = .valid := by
    cases hv : imageCheckHeader hdr with
    | invalid => exact absurd hv hvalid
    | valid => rfl
  rw [if_neg hvalid, ret_bind, hstart, and_iff_right hval]
  by_cases hin : Inside board dev addr (imageHeaderSize + sh.dataSize)
  · have hbytes : Inside board dev (addr + imageHeaderSize) sh.dataSize := hin.mono (by omega)
    have hscan := ret_sumData (c := c) hbytes (show imageCheckSize % 2 = 0 from rfl) (by decide)
      (le_refl _) (hsh ▸ hchksum hdr)
    rw [hscan, and_iff_right hin]
    dsimp only
    split
    · rename_i hne
      exact iff_of_false nofun hne
    · rename_i heq
      exact iff_of_true rfl (not_not.mp heq)
  · refine iff_of_false (fun h => hin ?_) fun h => hin h.1
    have hsum : (ret (sumData board dev imageCheckSize sh.dataSize (addr + imageHeaderSize)
        sh.dataSize sh.dataChksum) c).isSome = true := by
      cases hs : ret (sumData board dev imageCheckSize sh.dataSize (addr + imageHeaderSize)
          sh.dataSize sh.dataChksum) c with
      | none =>
        rw [hs] at h
        exact h
      | some chksum => rfl
    unfold flashRead halFlashRead at hread
    cases hb : board dev with
    | none =>
      rw [hb] at hread
      exact nomatch hread
    | some chip =>
      have hroom := hboard chip hb
      have hle : addr + imageHeaderSize ≤ chip.mSize := by
        by_contra hout
        rw [hb] at hread
        dsimp only at hread
        rw [if_pos (.inr (by rw [hstart]; omega))] at hread
        exact nomatch hread
      have hend := sumData_inside hb (by omega) hle (by decide) (le_refl _) hsum
      exact ⟨chip, hb, by omega, by omega⟩

/-- A section in flash passes exactly when its header does and `image_check_data` accepts its data
in memory, however it is cut into body and tailer. -/
theorem section_check_agrees {hdr body tailer : List Byte} {checkT : CheckType}
    (hin : Inside board dev addr (imageHeaderSize + (body.length + tailer.length)))
    (hhdr : readCells c dev addr imageHeaderSize = hdr)
    (hdata : readCells c dev (addr + imageHeaderSize) (body.length + tailer.length) =
      body ++ tailer)
    (hsize : (SectionHeader.decode hdr).dataSize = body.length + tailer.length)
    (hbody : body ≠ []) :
    ((ret (imageCheckSection board dev addr imageCheckSize checkT) c).isSome = true ↔
      imageCheckHeader hdr = .valid ∧
        imageCheckData (SectionHeader.decode hdr) body tailer = .valid) ∧
    ∀ bs bs' : List Byte, bs.length % 2 = 0 →
      imageChecksum16 0 (bs ++ bs') = (imageChecksum16 0 bs + imageChecksum16 0 bs') % 2 ^ 16 := by
  constructor
  · have hend := hin.lt
    have hchksum : (SectionHeader.decode hdr).dataChksum < 2 ^ 16 := field_lt hdr 10 2
    have hlen : 0 < body.length := List.length_pos_iff.mpr hbody
    have hread : ret (flashRead board dev addr imageHeaderSize) c = some hdr := by
      rw [ret_flashRead (hin.mono (by omega)) (by decide), hhdr]
    have haddr : u32 (addr + imageHeaderSize) = addr + imageHeaderSize := u32_of_lt (by omega)
    have hbytes : Inside board dev (addr + imageHeaderSize) (body.length + tailer.length) :=
      hin.mono (by omega)
    have hscan := ret_sumData (c := c) hbytes (show imageCheckSize % 2 = 0 from rfl) (by decide)
      (le_refl _) hchksum
    rw [hdata] at hscan
    simp only [imageCheckSection, ret_bind, hread, post_flashRead]
    by_cases hh : imageCheckHeader hdr = .invalid
    · rw [if_pos hh, hh]
      exact iff_of_false nofun fun h => absurd h.1 nofun
    · have hvalid : imageCheckHeader hdr = .valid := by
        cases hv : imageCheckHeader hdr with
        | invalid => exact absurd hv hh
        | valid => rfl
      rw [if_neg hh, imageCheckData_valid hchksum hbody]
      simp only [ret_bind, hsize, haddr, hscan, hvalid, true_and, ret_pure]
      split
      · rename_i hne
        exact iff_of_false nofun hne
      · rename_i heq
        exact iff_of_true rfl (not_not.mp heq)
  · intro bs bs' heven
    have hpos : 0 < 2 ^ 16 := by decide
    rw [imageChecksum16_eq hpos, imageChecksum16_eq hpos, imageChecksum16_eq hpos,
      wordSum_append heven]
    omega

end

/-- The header of a section of three bytes. -/
def threeBytesHeader : List Byte :=
  [0x41, 0x57, 0x49, 0x48, 0, 0, 0, 0, 0x77, 0x62, 0xFB, 0xFD, 3] ++ List.replicate 51 0

def threeBytesFlash : Cells := fun _ a => (threeBytesHeader ++ [1, 2, 3]).getD a blank

theorem section_check_agrees_three :
    (ret (imageCheckSection (fun _ => some smallChip) 0 0 imageCheckSize .normal)
      threeBytesFlash).isSome = true :=
  have hin : Inside (fun _ => some smallChip) 0 0 (imageHeaderSize + (1 + 2)) :=
    ⟨⟨smallChip, rfl, by decide, by decide⟩⟩
  have hhdr : readCells threeBytesFlash 0 0 imageHeaderSize = threeBytesHeader := by decide
  have hdata : readCells threeBytesFlash 0 (0 + imageHeaderSize)
      ([1#8].length + [2#8, 3#8].length) = [1#8] ++ [2#8, 3#8] := by decide
  (section_check_agrees hin hhdr hdata (by decide) (by decide)).1.mpr ⟨by decide, by decide⟩

end Image
end XR806

import XR806.Flash.Report
import XR806.Flash.Requests

/-!
# XR806.Flash.Overwrite

`HAL_Flash_Overwrite` with any answers to its requests: it reads each sector, erases it, and writes
it back with the new bytes in place.

The status of the read is not looked at, so a sector that was not read is written back with what
the buffer holds. Apart from that, and from a page whose wait gives up, `HAL_OK` means that the
range has the new bytes and nothing else has changed (`overwrite_keeps_neighbours`).
-/

namespace XR806
namespace Flash

open Nor

/-! ## The function -/

def sectorSize : Nat := 4096

/-- `HAL_Memcpy(buf + off, ..)`. -/
def patch (buf : List Byte) (off : Nat) (bs : List Byte) : List Byte :=
  buf.take off ++ bs ++ buf.drop (off + bs.length)

/-- The loop of `HAL_Flash_Overwrite`. `junk` is what a read of the sector leaves in the buffer when
it fails. The fuel bounds the number of sectors. -/
def overwriteLoop (board : Board) (junk : Nat → List Byte) (dev : Nat) :
    Nat → Nat → List Byte → Bool → Prog Bool
  | 0, _, _, ret => pure ret
  | fuel + 1, paddr, left, ret =>
    if left = [] then pure ret
    else do
      let saddr := (halFlashMemoryOf board dev .kb4 paddr).getD 0
      -- the status of the read is not looked at
      let got ← halFlashRead board dev saddr sectorSize
      let ok ← halFlashErase board dev .kb4 saddr 1
      if !ok then pure false
      else do
        let ppSize := min left.length (sectorSize - (paddr - saddr))
        let buf := patch (got.getD (junk saddr)) (paddr - saddr) (left.take ppSize)
        let ok ← halFlashWrite board dev saddr buf
        if !ok then pure false
        else overwriteLoop board junk dev fuel (u32 (paddr + ppSize)) (left.drop ppSize) ok

def halFlashOverwrite (board : Board) (junk : Nat → List Byte) (dev addr : Nat)
    (data : List Byte) : Prog Bool :=
  match board dev with
  | none => pure false
  | some chip =>
    if chip.supports .kb4 = false then pure false
    else do
      let ok ← allocReq sectorSize
      if !ok then pure false
      -- the size is an `int32_t` in the loop
      else if 2 ^ 31 ≤ data.length then pure false
      else overwriteLoop board junk dev data.length addr data false

/-! ## Bytes in place of others -/

/-- `bs` in place of the bytes from `addr` on. -/
def storeCells (c : Cells) (dev addr : Nat) (bs : List Byte) : Cells := fun d a =>
  if d = dev ∧ addr ≤ a ∧ a < addr + bs.length then bs.getD (a - addr) blank else c d a

/-- The same in a 32-bit address space: behind the last address comes address 0. -/
def storeRange (c : Cells) (dev addr : Nat) (bs : List Byte) : Cells := fun d a =>
  if d = dev ∧ a < 2 ^ 32 ∧ sub32 a addr < bs.length then bs.getD (sub32 a addr) blank else c d a

section
variable {c : Cells} {dev addr n : Nat} {bs : List Byte}

theorem storeRange_nil : storeRange c dev addr [] = c := by
  funext d a
  exact if_neg fun h => absurd h.2.2 (Nat.not_lt_zero _)

/-- The first bytes, then the rest. -/
theorem storeRange_split (hn : n ≤ bs.length) (hend : addr + n ≤ 2 ^ 32)
    (hlen : bs.length ≤ 2 ^ 32) :
    storeRange (storeCells c dev addr (bs.take n)) dev (u32 (addr + n)) (bs.drop n) =
      storeRange c dev addr bs := by
  have htake : (bs.take n).length = n := List.length_take_of_le hn
  funext d a
  unfold storeRange storeCells
  rw [List.length_drop, htake]
  by_cases hda : d = dev ∧ a < 2 ^ 32
  · obtain ⟨rfl, ha⟩ := hda
    rcases sub32_step ha hend with ⟨h1, h2, h3⟩ | ⟨h1, h2⟩
    · have hfar := sub32_before hend h1 h2
      rw [if_neg (by omega), if_pos ⟨rfl, h1, h2⟩, if_pos ⟨rfl, ha, by omega⟩, h3]
      simp [List.getD_eq_getElem?_getD, show a - addr < n by omega]
    · have hout : ¬(d = d ∧ addr ≤ a ∧ a < addr + n) := by omega
      rw [if_neg hout, h2]
      by_cases hlt : sub32 a (u32 (addr + n)) < bs.length - n
      · rw [if_pos ⟨rfl, ha, hlt⟩, if_pos ⟨rfl, ha, by omega⟩]
        simp [List.getD_eq_getElem?_getD, Nat.add_comm]
      · rw [if_neg (by omega), if_neg (by omega)]
  · have hout : ¬(d = dev ∧ addr ≤ a ∧ a < addr + n) := fun h => hda ⟨h.1, by omega⟩
    rw [if_neg (by tauto), if_neg hout, if_neg (by tauto)]

end

theorem length_patch {buf bs : List Byte} {off : Nat} (h : off + bs.length ≤ buf.length) :
    (patch buf off bs).length = buf.length := by
  simp only [patch, List.length_append, List.length_take, List.length_drop]
  omega

theorem getD_patch {buf bs : List Byte} {off i : Nat} (h : off + bs.length ≤ buf.length) :
    (patch buf off bs).getD i blank =
      if off ≤ i ∧ i < off + bs.length then bs.getD (i - off) blank else buf.getD i blank := by
  have htake : (buf.take off).length = off := List.length_take_of_le (by omega)
  rw [patch, List.append_assoc]
  by_cases h1 : i < off
  · rw [if_neg (by omega), List.getD_append _ _ _ _ (by omega)]
    simp [List.getD_eq_getElem?_getD, h1]
  rw [List.getD_append_right _ _ _ _ (by omega), htake]
  by_cases h2 : i < off + bs.length
  · rw [if_pos ⟨by omega, h2⟩, List.getD_append _ _ _ _ (by omega)]
  · rw [if_neg (by omega), List.getD_append_right _ _ _ _ (by omega)]
    simp only [List.getD_eq_getElem?_getD, List.getElem?_drop]
    congr 2
    omega

/-- A sector that was erased and written back: what the buffer held of it is there again, or does
not matter. -/
theorem sector_stored {c : Cells} {dev saddr off : Nat} {buf bs : List Byte}
    (hlen : buf.length = sectorSize) (hoff : off + bs.length ≤ sectorSize)
    (hbuf : buf = readCells c dev saddr sectorSize ∨ off = 0 ∧ bs.length = sectorSize) :
    programCells (eraseCells c dev saddr sectorSize) dev saddr (patch buf off bs) =
      storeCells c dev (saddr + off) bs := by
  have hplen : (patch buf off bs).length = sectorSize :=
    (length_patch (by omega)).trans hlen
  funext d a
  by_cases hd : d = dev
  · subst hd
    by_cases hin : saddr ≤ a ∧ a < saddr + sectorSize
    · rw [programCells_inside hin.1 (by omega), eraseCells_inside hin.1 hin.2, blank_and,
        getD_patch (by omega), storeCells]
      by_cases hw : saddr + off ≤ a ∧ a < saddr + off + bs.length
      · rw [if_pos (by omega), if_pos ⟨rfl, hw⟩, Nat.sub_sub]
      · rw [if_neg (by omega), if_neg (by tauto)]
        rcases hbuf with hread | ⟨h0, hall⟩
        · rw [hread, List.getD_eq_getElem?_getD, readCells_getElem? _ _ _ _ _ (by omega),
            Option.getD_some, Nat.add_sub_cancel' hin.1]
        · omega
    · rw [programCells_outside (by omega), eraseCells_outside (by omega), storeCells,
        if_neg (by omega)]
  · rw [programCells_outside (.inl hd), eraseCells_outside (.inl hd), storeCells,
      if_neg (by tauto)]

/-! ## What a run tells -/

/-- Nowhere has the wait for a page that was being programmed given up. -/
def PagesDone (es : List Event) : Prop :=
  ∀ (d a : Nat) (bs : List Byte) (dev : Nat),
    ¬[.command (.program d a bs) true, .wait dev false] <:+: es

theorem PagesDone.mono {es es' : List Event} (h : PagesDone es') (hin : es <:+: es') :
    PagesDone es := fun d a bs dev hi => h d a bs dev (hi.trans hin)

theorem pagesDone_of_ok {es : List Event} (h : ∀ e ∈ es, e.ok = true) : PagesDone es := by
  intro d a bs dev hi
  have := h (.wait dev false) (hi.subset (by simp))
  cases this

section
variable {board : Board} {dev addr n : Nat} {s s' : Devices} {es : List Event} {ok : Bool}

/-- A wait of a write follows a page. -/
theorem lateWaits_writePages {fuel address : Nat} {left : List Byte}
    (h : Answers (writePages dev fuel address left) s es ok s') (hp : PagesDone es) :
    lateWaits es = 0 := by
  induction fuel generalizing address left s es with
  | zero =>
    obtain ⟨rfl, -, -⟩ := answers_pure.mp h
    rfl
  | succ fuel ih =>
    simp only [writePages] at h
    obtain ⟨es₁, es₂, ok₁, s₁, rfl, h₁, hrest⟩ := answers_bind.mp h
    obtain ⟨rfl, -⟩ := answers_programReq.mp h₁
    cases ok₁ with
    | false =>
      obtain ⟨rfl, -, -⟩ := answers_pure.mp hrest
      rfl
    | true =>
      obtain ⟨es₃, es₄, ok₂, s₂, rfl, h₂, hnext⟩ := answers_bind.mp hrest
      obtain ⟨rfl, -, -⟩ := answers_waitReq.mp h₂
      have hok₂ : ok₂ = true := by
        by_contra hfalse
        rw [Bool.not_eq_true] at hfalse
        exact hp _ _ _ dev ⟨[], es₄, by rw [hfalse]; rfl⟩
      subst hok₂
      have hp₄ : PagesDone es₄ := hp.mono ⟨_, [], by rw [List.append_nil, List.append_assoc]⟩
      simp only [List.singleton_append, lateWaits_command, lateWaits_done]
      split at hnext
      · obtain ⟨rfl, -, -⟩ := answers_pure.mp hnext
        rfl
      · exact ih hnext hp₄

/-- A write that reports success, and all its pages are done. -/
theorem answers_write_done {data : List Byte} (ha : addr + data.length ≤ 2 ^ 32)
    (ha' : addr < 2 ^ 32) (hlen : data.length < 2 ^ 32)
    (h : Answers (halFlashWrite board dev addr data) s es true s') (hp : PagesDone es) :
    s'.cells = programCells s.cells dev addr data := by
  obtain ⟨hstatus, hcells⟩ := answers_halFlashWrite ha' hlen h
  have hlate : lateWaits es = 0 := by
    unfold halFlashWrite at h
    split at h
    · obtain ⟨rfl, -, -⟩ := answers_pure.mp h
      rfl
    split at h
    · obtain ⟨rfl, -, -⟩ := answers_pure.mp h
      rfl
    · exact lateWaits_writePages h hp
  rw [(hcells (hstatus.mp rfl) hlate).cells, programRange_all ha]

/-- One block is erased when the loop says so, however often it was tried. -/
theorem answers_eraseLoop_one {chip : Chip} {mode : EraseMode} {fuel re : Nat}
    (h : Answers (eraseLoop chip dev (.block mode) fuel 1 addr re false) s es true s') :
    s'.cells = eraseCells s.cells dev addr mode.size := by
  induction fuel generalizing re s es with
  | zero => exact absurd (answers_pure.mp h).2.1 nofun
  | succ fuel ih =>
    have hs : chip.supports mode = true := supports_of_answers one_ne_zero h
    simp only [eraseLoop, one_ne_zero, if_false, defaultErase_block hs] at h
    obtain ⟨es₁, es₂, ok₁, s₁, rfl, h₁, hrest⟩ := answers_bind.mp h
    obtain ⟨-, ht⟩ := answers_eraseReq.mp h₁
    cases ok₁ with
    | false => exact absurd (answers_pure.mp hrest).2.1 nofun
    | true =>
      obtain ⟨es₃, es₄, ok₂, s₂, rfl, h₂, hnext⟩ := answers_bind.mp hrest
      obtain ⟨-, hidle, rfl⟩ := answers_waitReq.mp h₂
      by_cases hagain : !ok₂ ∧ re + 1 < 3
      · rw [if_pos hagain] at hnext
        obtain rfl : ok₂ = false := by simpa using hagain.1
        have hmarks := ht.marks
        rw [ih hnext]
        funext d a
        by_cases hin : d = dev ∧ addr ≤ a ∧ a < addr + mode.size
        · rw [eraseCells, if_pos hin, eraseCells, if_pos hin]
        · rw [eraseCells, if_neg hin, eraseCells, if_neg hin]
          exact hmarks d a hin
      · rw [if_neg hagain] at hnext
        obtain ⟨-, rfl, rfl⟩ := answers_eraseLoop_zero.mp hnext
        rw [ht.settled (hidle rfl)]
        rfl

theorem answers_erase_sector {chip : Chip} (hb : board dev = some chip)
    (h : Answers (halFlashErase board dev .kb4 addr 1) s es true s') :
    s'.cells = eraseCells s.cells dev addr sectorSize ∧ ¬u32 (addr + sectorSize) > chip.mSize := by
  simp only [halFlashErase, hb, Nat.mul_one] at h
  split at h
  · exact absurd (answers_pure.mp h).2.1 Bool.false_ne_true.symm
  · rename_i hin
    split at h
    · exact absurd (answers_pure.mp h).2.1 Bool.false_ne_true.symm
    · exact ⟨answers_eraseLoop_one h, hin⟩

theorem answers_halFlashRead {chip : Chip} {r : Option (List Byte)} (hb : board dev = some chip)
    (h : Answers (halFlashRead board dev addr n) s es r s') (hn : n ≠ 0)
    (hin : ¬u32 (addr + n) > chip.mSize) :
    s' = s ∧ (r = none ∧ es = [.read dev addr n false] ∨ r = some (readCells s.cells dev addr n)) := by
  rw [halFlashRead, hb] at h
  simp only [hn, hin, false_or, if_false] at h
  obtain ⟨ok, rfl, rfl, rfl⟩ := answers_readReq.mp h
  cases ok with
  | false => exact ⟨rfl, .inl ⟨rfl, rfl⟩⟩
  | true => exact ⟨rfl, .inr rfl⟩

/-- Where a read fails, its whole sector gets new bytes. -/
def ReadsDone (es : List Event) (addr size : Nat) : Prop :=
  ∀ dev a n, .read dev a n false ∈ es → sub32 a addr + sectorSize ≤ size

/-- A sector that the loop has passed: `off` bytes of it lie in front of the new ones. -/
theorem overwrite_sector {chip : Chip} {junk : List Byte} {saddr off : Nat} {bs : List Byte}
    {es₁ es₂ es₃ : List Event} {s₁ s₂ s₃ : Devices} {got : Option (List Byte)}
    (hb : board dev = some chip) (hjunk : junk.length = sectorSize)
    (hsaddr : saddr + sectorSize ≤ 2 ^ 32) (hoff : off + bs.length ≤ sectorSize)
    (hread : Answers (halFlashRead board dev saddr sectorSize) s es₁ got s₁)
    (herase : Answers (halFlashErase board dev .kb4 saddr 1) s₁ es₂ true s₂)
    (hwrite : Answers (halFlashWrite board dev saddr (patch (got.getD junk) off bs)) s₂ es₃ true s₃)
    (hpages : PagesDone es₃)
    (hreads : .read dev saddr sectorSize false ∈ es₁ → off = 0 ∧ bs.length = sectorSize) :
    s₃.cells = storeCells s.cells dev (saddr + off) bs := by
  have hsize : sectorSize = 4096 := rfl
  obtain ⟨hcells, hin⟩ := answers_erase_sector hb herase
  obtain ⟨rfl, hgot⟩ := answers_halFlashRead hb hread (by omega) hin
  have hcase : got.getD junk = readCells s₁.cells dev saddr sectorSize ∨
      got.getD junk = junk ∧ off = 0 ∧ bs.length = sectorSize := by
    rcases hgot with ⟨hnone, hes⟩ | hsome
    · exact .inr ⟨by rw [hnone, Option.getD_none], hreads (by simp only [hes, List.mem_singleton])⟩
    · exact .inl (by rw [hsome, Option.getD_some])
  have hbuf : (got.getD junk).length = sectorSize := by
    rcases hcase with hread | ⟨hnone, -⟩
    · rw [hread, length_readCells]
    · rw [hnone, hjunk]
  have hplen : (patch (got.getD junk) off bs).length = sectorSize :=
    (length_patch (by omega)).trans hbuf
  rw [answers_write_done (by omega) (by omega) (by omega) hwrite hpages, hcells]
  exact sector_stored hbuf hoff (hcase.imp_right And.right)

/-! ## The loop -/

/-- What the loop reads: the sector it is at, and sectors further on. -/
def SectorRead (dev paddr size : Nat) (e : Event) : Prop :=
  ∀ d a n ok, e = .read d a n ok →
    d = dev ∧ a < 2 ^ 32 ∧ (a = paddr / sectorSize * sectorSize ∨ sub32 a paddr < size)

/-- The part of a sector that gets new bytes, and where the loop is behind it. -/
structure Advance (paddr size pp : Nat) : Prop where
  fits : paddr - paddr / sectorSize * sectorSize + pp ≤ sectorSize
  le : pp ≤ size
  positive : 0 < size → 0 < pp
  /-- What is left begins with a sector. -/
  aligned : pp < size → u32 (paddr + pp) % sectorSize = 0
  bound : paddr + pp ≤ 2 ^ 32
  sector : paddr / sectorSize * sectorSize + sectorSize ≤ 2 ^ 32
  /-- A sector that counts as one with new bytes only. -/
  whole : sub32 (paddr / sectorSize * sectorSize) paddr + sectorSize ≤ size → size < 2 ^ 31 →
    paddr - paddr / sectorSize * sectorSize = 0 ∧ pp = sectorSize

theorem advance {paddr : Nat} (size : Nat) (ha : paddr < 2 ^ 32) :
    Advance paddr size (min size (sectorSize - (paddr - paddr / sectorSize * sectorSize))) := by
  unfold sectorSize
  constructor
  · unfold sectorSize
    omega
  · exact Nat.min_le_left ..
  · omega
  · unfold u32 sectorSize
    omega
  · omega
  · unfold sectorSize
    omega
  · unfold sub32 sectorSize
    split <;> omega

/-- What is read further on, counted from here. -/
theorem Advance.read_behind {paddr size pp d a n : Nat} {ok : Bool} (h : Advance paddr size pp)
    (hsize : size < 2 ^ 31) (hpp : pp < size)
    (he : SectorRead dev (u32 (paddr + pp)) (size - pp) (.read d a n ok)) :
    d = dev ∧ a < 2 ^ 32 ∧ sub32 a (u32 (paddr + pp)) < size - pp ∧
      sub32 a paddr = sub32 a (u32 (paddr + pp)) + pp := by
  obtain ⟨hd, ha, hpos⟩ := he d a n ok rfl
  have haligned := Nat.div_mul_cancel (Nat.dvd_of_mod_eq_zero (h.aligned hpp))
  have hlt : sub32 a (u32 (paddr + pp)) < size - pp := by
    rcases hpos with hfirst | hlt
    · rw [hfirst, haligned, sub32, if_pos (le_refl _)]
      omega
    · exact hlt
  refine ⟨hd, ha, hlt, ?_⟩
  rcases sub32_step ha h.bound with ⟨h1, h2, -⟩ | ⟨-, h2⟩
  · have := sub32_before h.bound h1 h2
    omega
  · exact h2

section
variable {chip : Chip} {junk : Nat → List Byte} {fuel paddr : Nat} {left : List Byte} {ret : Bool}

theorem memoryOf_kb4 (hb : board dev = some chip) (hs : chip.supports .kb4 = true) :
    (halFlashMemoryOf board dev .kb4 paddr).getD 0 = paddr / sectorSize * sectorSize := by
  simp only [halFlashMemoryOf, hb, hs, if_true, Option.getD_some]
  rfl

theorem overwriteLoop_nil : overwriteLoop board junk dev fuel paddr [] ret = pure ret := by
  cases fuel with
  | zero => rfl
  | succ fuel => rfl

theorem sector_le (paddr : Nat) : paddr / sectorSize * sectorSize ≤ paddr :=
  Nat.div_mul_le_self ..

theorem only_overwriteLoop (hb : board dev = some chip) (hs : chip.supports .kb4 = true)
    (ha : paddr < 2 ^ 32) (hleft : left.length < 2 ^ 31) :
    Only (SectorRead dev paddr left.length) (overwriteLoop board junk dev fuel paddr left ret) := by
  induction fuel generalizing paddr left ret with
  | zero => exact only_pure _
  | succ fuel ih =>
    simp only [overwriteLoop, memoryOf_kb4 hb hs]
    refine (only_pure _).ite ?_
    have hadv := advance left.length ha
    refine (only_halFlashRead fun _ ok d a n ok' he => ?_).bind fun got => ?_
    · cases he
      exact ⟨rfl, (sector_le paddr).trans_lt ha, .inl rfl⟩
    refine (only_halFlashErase fun _ => only_eraseLoop (fun _ _ => True) (fun _ => nofun)
      (fun _ _ _ _ => ⟨fun _ => nofun, trivial⟩) trivial).bind fun ok => ?_
    refine (only_pure _).ite ?_
    refine (only_halFlashWrite fun _ => only_writePages (fun _ _ => True) (fun _ => nofun)
      (fun _ _ _ _ _ => ⟨fun _ => nofun, fun _ => trivial⟩) trivial).bind fun ok => ?_
    refine (only_pure _).ite ?_
    by_cases hlt : min left.length (sectorSize - (paddr - paddr / sectorSize * sectorSize)) <
        left.length
    · refine (ih (Nat.mod_lt _ (by decide)) ?_).mono fun e he => ?_
      · rw [List.length_drop]
        omega
      · rw [List.length_drop] at he
        rintro d a n ok rfl
        obtain ⟨hd, ha', hpos, hback⟩ := hadv.read_behind hleft hlt he
        exact ⟨hd, ha', .inr (by omega)⟩
    · rw [List.drop_eq_nil_of_le (Nat.le_of_not_lt hlt), overwriteLoop_nil]
      exact only_pure _

/-- What the sectors the loop passes have in the end. -/
theorem answers_overwriteLoop (hb : board dev = some chip) (hs : chip.supports .kb4 = true)
    (hjunk : ∀ a, (junk a).length = sectorSize) (ha : paddr < 2 ^ 32) (hleft : left.length < 2 ^ 31)
    (hfuel : left.length ≤ fuel)
    (h : Answers (overwriteLoop board junk dev fuel paddr left ret) s es true s')
    (hp : PagesDone es) (hr : ReadsDone es paddr left.length) :
    s'.cells = storeRange s.cells dev paddr left := by
  induction fuel generalizing paddr left ret s es with
  | zero =>
    obtain ⟨-, -, rfl⟩ := answers_pure.mp h
    rw [List.length_eq_zero_iff.mp (Nat.le_zero.mp hfuel), storeRange_nil]
  | succ fuel ih =>
    by_cases hnil : left = []
    · rw [hnil] at h ⊢
      obtain ⟨-, -, rfl⟩ := answers_pure.mp h
      rw [storeRange_nil]
    simp only [overwriteLoop, memoryOf_kb4 hb hs, hnil, if_false] at h
    obtain ⟨es₁, es', got, s₁, rfl, hread, h⟩ := answers_bind.mp h
    obtain ⟨es₂, es'', ok₂, s₂, rfl, herase, h⟩ := answers_bind.mp h
    cases ok₂ with
    | false => exact absurd (answers_pure.mp h).2.1 nofun
    | true =>
      obtain ⟨es₃, es₄, ok₃, s₃, rfl, hwrite, h⟩ := answers_bind.mp h
      cases ok₃ with
      | false => exact absurd (answers_pure.mp h).2.1 nofun
      | true =>
        have hadv := advance left.length ha
        have hle := sector_le paddr
        generalize min left.length (sectorSize - (paddr - paddr / sectorSize * sectorSize)) = pp
          at hwrite h hadv
        have htake : (left.take pp).length = pp := List.length_take_of_le hadv.le
        have hcells := overwrite_sector hb (hjunk _) hadv.sector (by rw [htake]; exact hadv.fits)
          hread herase hwrite (hp.mono ⟨es₁ ++ es₂, es₄, by simp only [List.append_assoc]⟩) fun hfailed => ?_
        · rw [Nat.add_sub_cancel' hle] at hcells
          have hlen : (left.drop pp).length = left.length - pp := List.length_drop ..
          have hpos := hadv.positive (List.length_pos_iff.mpr hnil)
          have hle := hadv.le
          rw [← storeRange_split hadv.le hadv.bound (by omega), ← hcells]
          refine ih (Nat.mod_lt _ (by decide)) (by omega) (by omega) h
            (hp.mono ⟨es₁ ++ (es₂ ++ es₃), [], by simp only [List.append_assoc, List.append_nil]⟩) ?_
          intro d a n hmem
          by_cases hlt : pp < left.length
          · have hread := (only_overwriteLoop hb hs (Nat.mod_lt _ (by decide)) (by omega)).mem h _ hmem
            rw [hlen] at hread ⊢
            obtain ⟨-, -, -, hback⟩ := hadv.read_behind hleft hlt hread
            have := hr d a n (by simp only [List.mem_append, hmem, or_true])
            omega
          · rw [List.drop_eq_nil_of_le (Nat.le_of_not_lt hlt), overwriteLoop_nil] at h
            obtain ⟨rfl, -, -⟩ := answers_pure.mp h
            cases hmem
        · rw [htake]
          refine hadv.whole (hr dev _ sectorSize ?_) hleft
          exact List.mem_append_left _ hfailed

/-- `HAL_OK` with all its pages done and no sector lost that keeps old bytes: the range has the new
bytes, and everything else is as it was. -/
theorem overwrite_keeps_neighbours {data : List Byte} (hjunk : ∀ a, (junk a).length = sectorSize)
    (ha : addr < 2 ^ 32) (h : Answers (halFlashOverwrite board junk dev addr data) s es true s')
    (hp : PagesDone es) (hr : ReadsDone es addr data.length) :
    s'.cells = storeRange s.cells dev addr data := by
  unfold halFlashOverwrite at h
  split at h
  · exact absurd (answers_pure.mp h).2.1 nofun
  rename_i chip hb
  split at h
  · exact absurd (answers_pure.mp h).2.1 nofun
  rename_i hs
  obtain ⟨es₁, es₂, ok, s₁, rfl, halloc, hloop⟩ := answers_bind.mp h
  obtain ⟨-, rfl⟩ := answers_allocReq.mp halloc
  split at hloop
  · exact absurd (answers_pure.mp hloop).2.1 nofun
  split at hloop
  · exact absurd (answers_pure.mp hloop).2.1 nofun
  rename_i hsize
  exact answers_overwriteLoop hb (Bool.of_not_eq_false hs) hjunk ha (by omega) (le_refl _) hloop
    (hp.mono (List.suffix_append es₁ es₂).isInfix) fun d a n hmem => hr d a n
      (List.mem_append_right _ hmem)

end

end

/-! ## Runs -/

theorem readsDone_of_ok {addr size : Nat} {es : List Event} (h : ∀ e ∈ es, e.ok = true) :
    ReadsDone es addr size := by
  intro d a n hmem
  have := h _ hmem
  cases this

def zeros (_ : Nat) : List Byte := List.replicate sectorSize 0

/-- Two bytes across the border of two sectors. -/
def overwriteTwo : Prog Bool := halFlashOverwrite (fun _ => some smallChip) zeros 0 4095 [1, 2]

set_option maxRecDepth 100000 in
theorem overwriteTwo_ok : Answers overwriteTwo ⟨fun _ _ => 5, false⟩
    (granted overwriteTwo fun _ _ => 5) true ⟨post overwriteTwo fun _ _ => 5, false⟩ := by
  have hok : ret overwriteTwo (fun _ _ => 5) = true := by decide
  rw [← hok]
  exact answers_ret overwriteTwo _

theorem overwrite_keeps_neighbours_two :
    post overwriteTwo (fun _ _ => 5) = storeRange (fun _ _ => 5) 0 4095 [1, 2] := by
  have h := overwrite_keeps_neighbours (fun _ => List.length_replicate) (by decide) overwriteTwo_ok
    (pagesDone_of_ok ok_of_granted) (readsDone_of_ok ok_of_granted)
  dsimp only at h
  exact h

/-- One byte of a sector. -/
def overwriteOne : Prog Bool := halFlashOverwrite (fun _ => some smallChip) zeros 0 1 [7]

set_option maxRecDepth 100000 in
/-- The sector was not read, and is written back with what the buffer held. -/
theorem unread_sector_lost : ∃ es s', Answers overwriteOne ⟨fun _ _ => 5, false⟩ es true s' ∧
    s'.cells 0 0 = 0 := by
  have hok : (script overwriteOne [true, false] fun _ _ => 5).2.1 = true := by decide
  have hrun := answers_script overwriteOne [true, false] fun _ _ => 5
  rw [hok] at hrun
  exact ⟨_, _, hrun, by decide⟩

end Flash
end XR806

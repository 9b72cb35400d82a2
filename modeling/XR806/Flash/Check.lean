import XR806.Flash.Hal

/-!
# XR806.Flash.Check

`HAL_Flash_Check`: whether data is in the flash already, can be programmed over what is there, or
needs an erase first. It reads the area in pieces of 128 bytes and tells from the bits that differ.

The test for a bit that only an erase can set looks at the bits that are set in the flash, so it
finds the ones that a program command clears. The answer is right when nothing differs, or when
there are bits of both kinds (`hal_flash_check_classifies`).
-/

namespace XR806
namespace Flash

open Nor

def flashCheckBufSize : Nat := 128

/-- The buffer and the index of `pbuf` in it: when it is used up, it is filled. -/
def fillBuf (board : Board) (dev paddr : Nat) (buf : List Byte) (i : Nat) :
    Prog (List Byte × Nat) :=
  if i = flashCheckBufSize then do
    -- the status of the read is not looked at
    let got ← halFlashRead board dev paddr flashCheckBufSize
    pure (got.getD buf, 0)
  else pure (buf, i)

/-- The loop of `HAL_Flash_Check` over `data`, with `ret` so far. -/
def checkLoop (board : Board) (dev : Nat) : List Byte → Nat → List Byte → Nat → Int → Prog Int
  | [], _, _, _, r => pure r
  | d :: data, paddr, buf, i, r => do
    let filled ← fillBuf board dev paddr buf i
    let src := filled.1.getD filled.2 0
    let dst := d ^^^ src
    if dst = 0 then checkLoop board dev data (u32 (paddr + 1)) filled.1 (filled.2 + 1) r
    else if dst &&& src ≠ 0 then pure 2
    else checkLoop board dev data (u32 (paddr + 1)) filled.1 (filled.2 + 1) 1

/-- `junk` is what the new buffer holds. -/
def halFlashCheck (board : Board) (junk : List Byte) (dev addr : Nat) (data : List Byte) :
    Prog Int := do
  let ok ← allocReq flashCheckBufSize
  if !ok then pure (-1)
  else checkLoop board dev data addr junk flashCheckBufSize 0

/-! ## Bits -/

/-- Bit `k` of byte `i`. -/
def bitAt (bs : List Byte) (i k : Nat) : Bool := (bs.getD i 0).getLsbD k

/-- Some bit goes from 1 to 0. -/
def Lowers (old new : List Byte) : Prop := ∃ i k, bitAt old i k = true ∧ bitAt new i k = false

/-- Some bit goes from 0 to 1. -/
def Raises (old new : List Byte) : Prop := ∃ i k, bitAt old i k = false ∧ bitAt new i k = true

/-- The documented meaning of the three answers. -/
structure Classifies (old new : List Byte) (v : Int) : Prop where
  same : v = 0 ↔ old = new
  direct : v = 1 ↔
    old ≠ new ∧ ∀ i k, bitAt old i k ≠ bitAt new i k → bitAt old i k = true
  erase : v = 2 ↔ Raises old new

section
variable {s d : Byte} {old new : List Byte}

theorem lowers_byte : (d ^^^ s) &&& s ≠ 0 ↔ ∃ k, s.getLsbD k = true ∧ d.getLsbD k = false := by
  constructor
  · intro h
    by_contra hno
    refine h (BitVec.eq_of_getLsbD_eq fun k _ => ?_)
    have hk : s.getLsbD k = true → d.getLsbD k = true := by
      intro hs
      by_contra hd
      exact hno ⟨k, hs, Bool.eq_false_iff.mpr hd⟩
    rw [BitVec.getLsbD_and, BitVec.getLsbD_xor]
    cases hs : s.getLsbD k with
    | false => simp
    | true => simp [hk hs]
  · rintro ⟨k, hs, hd⟩ h
    have hk : ((d ^^^ s) &&& s).getLsbD k = false := by simp [h]
    rw [BitVec.getLsbD_and, BitVec.getLsbD_xor, hs, hd] at hk
    cases hk

theorem lowers_nil : ¬Lowers [] new := by
  rintro ⟨i, k, h, -⟩
  simp [bitAt] at h

theorem lowers_cons : Lowers (s :: old) (d :: new) ↔
    (∃ k, s.getLsbD k = true ∧ d.getLsbD k = false) ∨ Lowers old new := by
  constructor
  · rintro ⟨i, k, h₁, h₂⟩
    cases i with
    | zero => exact .inl ⟨k, h₁, h₂⟩
    | succ i => exact .inr ⟨i, k, h₁, h₂⟩
  · rintro (⟨k, h₁, h₂⟩ | ⟨i, k, h₁, h₂⟩)
    · exact ⟨0, k, h₁, h₂⟩
    · exact ⟨i + 1, k, h₁, h₂⟩

/-- Bytes that differ have a bit of one kind or the other. -/
theorem ne_cases (hlen : old.length = new.length) (h : old ≠ new) :
    Lowers old new ∨ Raises old new := by
  by_contra hno
  obtain ⟨hl, hr⟩ := not_or.mp hno
  refine h (List.ext_getElem hlen fun i h₁ h₂ => BitVec.eq_of_getLsbD_eq fun k _ => ?_)
  have ho : bitAt old i k = old[i].getLsbD k := by simp [bitAt, h₁]
  have hn : bitAt new i k = new[i].getLsbD k := by simp [bitAt, h₂]
  rw [← ho, ← hn]
  cases hob : bitAt old i k with
  | false =>
    cases hnb : bitAt new i k with
    | false => rfl
    | true => exact absurd ⟨i, k, hob, hnb⟩ hr
  | true =>
    cases hnb : bitAt new i k with
    | false => exact absurd ⟨i, k, hob, hnb⟩ hl
    | true => rfl

theorem Lowers.ne (h : Lowers old new) : old ≠ new := by
  rintro rfl
  obtain ⟨i, k, h₁, h₂⟩ := h
  exact absurd (h₁.symm.trans h₂) nofun

theorem Raises.ne (h : Raises old new) : old ≠ new := by
  rintro rfl
  obtain ⟨i, k, h₁, h₂⟩ := h
  exact absurd (h₁.symm.trans h₂) nofun

end

/-! ## The verdict -/

open Classical in
/-- What the loop answers for an area that holds `old`. -/
noncomputable def verdict (old new : List Byte) (r : Int) : Int :=
  if Lowers old new then 2 else if old = new then r else 1

theorem verdict_same {s : Byte} {old new : List Byte} {r : Int} :
    verdict (s :: old) (s :: new) r = verdict old new r := by
  have hl : Lowers (s :: old) (s :: new) ↔ Lowers old new := by
    rw [lowers_cons, or_iff_right]
    rintro ⟨k, h₁, h₂⟩
    exact absurd (h₁.symm.trans h₂) nofun
  unfold verdict
  by_cases h : Lowers old new
  · rw [if_pos h, if_pos (hl.mpr h)]
  · rw [if_neg h, if_neg (mt hl.mp h)]
    simp only [List.cons.injEq, true_and]

theorem verdict_one {s d : Byte} {old new : List Byte} {r : Int} (hne : s ≠ d)
    (hno : ¬∃ k, s.getLsbD k = true ∧ d.getLsbD k = false) :
    verdict (s :: old) (d :: new) r = verdict old new 1 := by
  have hl : Lowers (s :: old) (d :: new) ↔ Lowers old new := by
    rw [lowers_cons, or_iff_right hno]
  unfold verdict
  by_cases h : Lowers old new
  · rw [if_pos h, if_pos (hl.mpr h)]
  · rw [if_neg h, if_neg (mt hl.mp h)]
    simp only [List.cons.injEq, hne, false_and, if_false, ite_self]

section
variable {board : Board} {dev : Nat} {chip : Chip} {c : Cells}

/-- The loop with the buffer full of the flash from `paddr - i` on, or used up. -/
theorem ret_checkLoop (hb : board dev = some chip) (hm : chip.mSize < 2 ^ 32) (data : List Byte) :
    ∀ (paddr : Nat) (buf : List Byte) (i : Nat) (r : Int), i ≤ flashCheckBufSize →
      (i < flashCheckBufSize → ∃ base, paddr = base + i ∧
        buf = readCells c dev base flashCheckBufSize) →
      paddr + 128 * ((i + data.length + 127) / 128) ≤ chip.mSize + i →
      ret (checkLoop board dev data paddr buf i r) c =
        verdict (readCells c dev paddr data.length) data r := by
  induction data with
  | nil =>
    intro paddr buf i r _ _ _
    simp [checkLoop, verdict, readCells, lowers_nil]
  | cons d data ih =>
    intro paddr buf i r hi hbuf hin
    simp only [flashCheckBufSize, List.length_cons] at hi hbuf hin
    -- the byte of the flash that is compared, and the buffer behind it
    have hstep : ∃ buf' i', i' < 128 ∧ (∃ base, paddr = base + i' ∧
          buf' = readCells c dev base 128) ∧
        paddr + 128 * ((i' + 1 + data.length + 127) / 128) ≤ chip.mSize + i' ∧
        ret (fillBuf board dev paddr buf i) c = (buf', i') ∧
        post (fillBuf board dev paddr buf i) c = c := by
      by_cases hend : i = 128
      · subst hend
        refine ⟨readCells c dev paddr 128, 0, by omega, ⟨paddr, rfl, rfl⟩, by omega, ?_⟩
        have hread : ret (halFlashRead board dev paddr 128) c = some (readCells c dev paddr 128) :=
          ret_flashRead ⟨⟨chip, hb, by omega, hm⟩⟩ (by decide) c
        have hpost : post (halFlashRead board dev paddr 128) c = c := post_flashRead c
        simp only [fillBuf, flashCheckBufSize, if_true]
        simp only [ret_bind, hread, hpost, post_bind, ret_pure, post_pure, Option.getD_some]
        exact ⟨trivial, trivial⟩
      · obtain ⟨base, hp, hbufeq⟩ := hbuf (by omega)
        refine ⟨buf, i, by omega, ⟨base, hp, hbufeq⟩, ?_, ?_⟩
        · rw [Nat.add_assoc i 1, Nat.add_comm 1]
          exact hin
        · rw [fillBuf, if_neg (by simpa [flashCheckBufSize] using hend)]
          exact ⟨rfl, rfl⟩
    obtain ⟨buf', i', hi', ⟨base, hp, hbuf'⟩, hin', hret, hpost⟩ := hstep
    have hsrc : buf'.getD i' 0 = c dev paddr := by
      rw [hbuf', List.getD_eq_getElem?_getD, readCells_getElem? _ _ _ _ _ hi', hp]
      rfl
    have hu : u32 (paddr + 1) = paddr + 1 := u32_of_lt (by omega)
    have hrest : ∀ r, ret (checkLoop board dev data (u32 (paddr + 1)) buf' (i' + 1) r) c =
        verdict (readCells c dev (paddr + 1) data.length) data r := by
      intro r
      rw [hu]
      refine ih _ _ _ r (by simp only [flashCheckBufSize]; omega) (fun _ => ⟨base, by omega, hbuf'⟩) ?_
      omega
    rw [checkLoop, ret_bind, hret, hpost]
    simp only [hsrc, List.length_cons, readCells_succ]
    by_cases hsame : d ^^^ c dev paddr = 0
    · obtain rfl : d = c dev paddr := by simpa using hsame
      rw [if_pos hsame, hrest, verdict_same]
    · have hne : c dev paddr ≠ d := fun he => hsame (by rw [he, BitVec.xor_self]; rfl)
      rw [if_neg hsame]
      by_cases hlow : (d ^^^ c dev paddr) &&& c dev paddr ≠ 0
      · rw [if_pos hlow, verdict, if_pos (lowers_cons.mpr (.inl (lowers_byte.mp hlow)))]
        rfl
      · rw [if_neg hlow, hrest, verdict_one hne (mt lowers_byte.mpr hlow)]

theorem ret_halFlashCheck {addr : Nat} {data : List Byte} (junk : List Byte)
    (h : Inside board dev addr (128 * ((data.length + 127) / 128))) (c : Cells) :
    ret (halFlashCheck board junk dev addr data) c =
      verdict (readCells c dev addr data.length) data 0 := by
  obtain ⟨chip, hb, hle, hm⟩ := h.chip
  simp only [halFlashCheck, ret_bind, ret_allocReq, post_allocReq, Bool.not_true,
    Bool.false_eq_true, if_false]
  refine ret_checkLoop hb hm data addr junk flashCheckBufSize 0 (Nat.le_refl _)
    (fun hlt => absurd hlt (Nat.lt_irrefl _)) ?_
  simp only [flashCheckBufSize]
  omega

/-- With every read of 128 bytes granted, the answer is right exactly when nothing differs, or some
bits are to be cleared and others to be set. -/
theorem hal_flash_check_classifies {addr : Nat} {data : List Byte} (junk : List Byte)
    (h : Inside board dev addr (128 * ((data.length + 127) / 128))) (c : Cells) :
    Classifies (readCells c dev addr data.length) data
        (ret (halFlashCheck board junk dev addr data) c) ↔
      readCells c dev addr data.length = data ∨
        Lowers (readCells c dev addr data.length) data ∧
          Raises (readCells c dev addr data.length) data := by
  rw [ret_halFlashCheck junk h c]
  generalize hold : readCells c dev addr data.length = old
  have hlen : old.length = data.length := by rw [← hold, length_readCells]
  have hdirect : (∀ i k, bitAt old i k ≠ bitAt data i k → bitAt old i k = true) ↔
      ¬Raises old data := by
    constructor
    · rintro hall ⟨i, k, h₁, h₂⟩
      exact absurd (h₁.symm.trans (hall i k (by rw [h₁, h₂]; nofun))) nofun
    · intro hno i k hne
      by_contra ho
      have ho' := Bool.eq_false_iff.mpr ho
      refine hno ⟨i, k, ho', ?_⟩
      rw [ho'] at hne
      exact Bool.eq_true_of_not_eq_false fun h => hne h.symm
  by_cases hsame : old = data
  · have hlow : ¬Lowers old data := fun h => h.ne hsame
    have hrai : ¬Raises old data := fun h => h.ne hsame
    rw [verdict, if_neg hlow, if_pos hsame]
    exact iff_of_true ⟨iff_of_true rfl hsame, iff_of_false nofun fun h => h.1 hsame,
      iff_of_false nofun hrai⟩ (.inl hsame)
  by_cases hlow : Lowers old data
  · rw [verdict, if_pos hlow]
    constructor
    · exact fun hc => .inr ⟨hlow, hc.erase.mp rfl⟩
    · intro hor
      have hrai := (hor.resolve_left hsame).2
      exact ⟨iff_of_false nofun hsame, iff_of_false nofun fun h => hdirect.mp h.2 hrai,
        iff_of_true rfl hrai⟩
  · rw [verdict, if_neg hlow, if_neg hsame]
    have hrai := (ne_cases hlen hsame).resolve_left hlow
    refine iff_of_false (fun hc => ?_) fun hor => hlow (hor.resolve_left hsame).1
    exact absurd (hc.erase.mpr hrai) (by decide)

end

/-- A chip of 256 bytes. -/
def tinyChip : Chip := ⟨256, 4096⟩

theorem hal_flash_check_classifies_mixed :
    Classifies (readCells (fun _ _ => 0x0F#8) 0 0 1) [0xF0#8]
      (ret (halFlashCheck (fun _ => some tinyChip) [] 0 0 [0xF0#8]) fun _ _ => 0x0F#8) :=
  have hin : Inside (fun _ => some tinyChip) 0 0 (128 * (([0xF0#8].length + 127) / 128)) :=
    ⟨⟨tinyChip, rfl, by decide, by decide⟩⟩
  (hal_flash_check_classifies [] hin fun _ _ => 0x0F#8).mpr
    (.inr ⟨⟨0, 0, rfl, rfl⟩, ⟨0, 4, rfl, rfl⟩⟩)

/-- A blank byte that is to be programmed is said to need an erase, and a byte of zeros none. -/
theorem check_polarity :
    ret (halFlashCheck (fun _ => some tinyChip) [] 0 0 [0x00#8]) (fun _ _ => blank) = 2 ∧
      ret (halFlashCheck (fun _ => some tinyChip) [] 0 0 [blank]) (fun _ _ => 0x00#8) = 1 := by
  decide

end Flash
end XR806

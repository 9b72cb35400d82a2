import Mathlib.Data.Finite.Prod
import Mathlib.Order.Interval.Finset.Nat
import XR806.Image.SecCache
import XR806.Ota.Verify
import XR806.Trans.Walk

/-!
# XR806.Image.ChainEnd

When the loops along the sections of an image come to an end. They follow the links in the headers,
keep no record of where they have been and count nothing, so they end exactly when the links do not
lead around in a circle (`chain_walks_end_iff`), and a section that names itself as the next one is
enough to keep them going (`self_link_hangs`).

A place of a walk is the flash and the address of a header; in `app_image_get_addr`, whose loop
tests `next_addr` at its head, that offset belongs to it. Any request may be refused on the way:
this ends a walk early.
-/

namespace XR806
namespace Image

open Nor Flash Ota
open Trans.Walk

section

variable (board : Board)

/-- The loop of `image_get_size`; 0 is a bad image, `none` a walk not finished after `fuel`
sections. -/
def sizeLoop (iop : OtaParam) (seq : Nat) : Nat → Nat → Nat → Prog (Option Nat)
  | 0, _, _ => pure none
  | fuel + 1, flash, addr => do
    match ← flashRead board flash addr imageHeaderSize with
    | none => pure (some 0)
    | some bytes =>
      if imageCheckHeader bytes = .invalid then pure (some 0)
      else
        let sh := SectionHeader.decode bytes
        if sh.nextAddr = imageInvalidAddr then
          pure (some (u32 (sub32 (u32 (addr + imageHeaderSize + sh.dataSize)) (iop.addr seq) +
            iop.blSize)))
        else sizeLoop iop seq fuel (iop.flash seq) (iop.secAddr seq sh.nextAddr)

def imageGetSize (iop : OtaParam) (fuel : Nat) : Prog (Option Nat) :=
  if iop.runningSeq ≥ imageSeqNum then pure (some 0)
  else sizeLoop board iop iop.runningSeq fuel iop.blFlash iop.blAddr

end

/-! ## The links -/

/-- Where the offset `nextAddr` leads. -/
def linkTo (iop : OtaParam) (seq nextAddr : Nat) : Option (Nat × Nat) :=
  if nextAddr = imageInvalidAddr then none else some (iop.flash seq, iop.secAddr seq nextAddr)

section

variable (board : Board) (c : Cells) (iop : OtaParam) (seq : Nat)

/-- The link of a section that is valid. -/
def sectionLink (checkT : CheckType) (place : Nat × Nat) : Option (Nat × Nat) :=
  match ret (imageCheckSection board place.1 place.2 imageCheckSize checkT) c with
  | none => none
  | some nextAddr => linkTo iop seq nextAddr

/-- The link of a section whose header is valid. -/
def headerLink (checkT : CheckType) (place : Nat × Nat) : Option (Nat × Nat) :=
  match ret (flashRead board place.1 place.2 imageHeaderSize) c with
  | none => none
  | some bytes =>
    if imageCheckHeader bytes = .invalid then none
    else linkTo iop seq (nextOffset (SectionHeader.decode bytes) checkT)

/-- The link of any section but the one that is looked for. -/
def lookupLink (id : Nat) (place : Nat × Nat × Nat) : Option (Nat × Nat × Nat) :=
  if place.2.2 = imageInvalidAddr then none
  else
    match ret (flashRead board place.1 (u32 (place.2.1 + 32)) 8) c with
    | none => none
    | some shPart =>
      if id = field shPart 4 4 then none
      else some (iop.flash seq, iop.secAddr seq (field shPart 0 4), field shPart 0 4)

end

/-- Where a lookup on slot `seq` starts to walk, if it does. -/
def lookupStart (board : Board) (c : Cells) (img : ImagePriv) (seq id : Nat) :
    Option (Nat × Nat × Nat) :=
  match (img.secAddr seq).find? (·.id = id) with
  | some _ => none
  | none =>
    match (img.secAddr seq).getLast? with
    | none => some (img.iop.blFlash, img.iop.blAddr, img.iop.blAddr)
    | some entry =>
      match ret (flashRead board (img.iop.flash seq) (u32 (entry.addr + 32)) 4) c with
      | none => none
      | some bytes =>
        some (img.iop.flash seq, img.iop.secAddr seq (field bytes 0 4), field bytes 0 4)

section

variable {board : Board} {c : Cells} {iop : OtaParam} {seq id fuel : Nat} {checkT : CheckType}
  {start : Option (Nat × Nat)}

/-! ### There are finitely many places -/

theorem secAddr_lt {off : Nat} : iop.secAddr seq off < 2 ^ 32 := by
  have hsum : u32 (iop.addr seq + off) < 2 ^ 32 := Nat.mod_lt _ (by decide)
  unfold OtaParam.secAddr sub32
  split <;> omega

theorem linkTo_mem {nextAddr : Nat} {place : Nat × Nat}
    (h : linkTo iop seq nextAddr = some place) :
    place ∈ ({iop.flash seq} : Set Nat) ×ˢ Set.Iio (2 ^ 32) := by
  unfold linkTo at h
  split at h
  · cases h
  · cases h
    exact ⟨rfl, secAddr_lt⟩

theorem finite_places (iop : OtaParam) (seq : Nat) :
    (({iop.flash seq} : Set Nat) ×ˢ Set.Iio (2 ^ 32)).Finite :=
  (Set.finite_singleton _).prod (Set.finite_Iio _)

theorem sectionLink_stops_iff : Stops (sectionLink board c iop seq checkT) start ↔
    Acyclic (sectionLink board c iop seq checkT) start := by
  refine stops_iff_acyclic (finite_places iop seq) ?_
  intro a b h
  unfold sectionLink at h
  split at h
  · cases h
  · exact linkTo_mem h

theorem headerLink_stops_iff : Stops (headerLink board c iop seq checkT) start ↔
    Acyclic (headerLink board c iop seq checkT) start := by
  refine stops_iff_acyclic (finite_places iop seq) ?_
  intro a b h
  unfold headerLink at h
  split at h
  · cases h
  · split at h
    · cases h
    · exact linkTo_mem h

theorem lookupLink_stops_iff {start : Option (Nat × Nat × Nat)} :
    Stops (lookupLink board c iop seq id) start ↔
      Acyclic (lookupLink board c iop seq id) start := by
  have hfin : (({iop.flash seq} : Set Nat) ×ˢ Set.Iio (2 ^ 32) ×ˢ Set.Iio (256 ^ 4)).Finite :=
    (Set.finite_singleton _).prod ((Set.finite_Iio _).prod (Set.finite_Iio _))
  refine stops_iff_acyclic hfin ?_
  intro a b h
  unfold lookupLink at h
  split at h
  · cases h
  · split at h
    · cases h
    · split at h
      · cases h
      · cases h
        exact ⟨rfl, secAddr_lt, field_lt _ 0 4⟩

end

/-! ## Answers that may be refused -/

/-- The program answers what it does with every request granted, or `none`. -/
structure OrNone {α : Type} (p : Prog (Option α)) (c : Cells) : Prop where
  ends : ∀ r, Ends p c r → r = none ∨ r = ret p c

section

variable {board : Board} {c : Cells} {iop : OtaParam} {seq id fuel : Nat} {checkT : CheckType}
  {α β : Type} {p : Prog (Option α)} {f : Option α → Prog (Option β)}

theorem orNone_pure (r : Option α) : OrNone (pure r) c := ⟨fun _ h => .inr (ends_pure.mp h)⟩

theorem orNone_flashRead (dev addr n : Nat) : OrNone (flashRead board dev addr n) c :=
  ⟨fun _ h => ends_flashRead h⟩

theorem OrNone.bind (hp : OrNone p c) (hq : Silent p c) (hnone : ∀ r, Ends (f none) c r → r = none)
    (hf : OrNone (f (ret p c)) c) : OrNone (p >>= f) c := by
  refine ⟨?_⟩
  intro r h
  obtain ⟨a, ha, hr⟩ := ends_bind.mp h
  rw [ret_bind, hq.post]
  rcases hp.ends a ha with rfl | rfl
  · exact .inl (hnone r hr)
  · exact hf.ends r hr

theorem orNone_sumData (flash bufLen addr dataSize chksum : Nat) :
    OrNone (sumData board flash bufLen fuel addr dataSize chksum) c := by
  induction fuel generalizing addr dataSize chksum with
  | zero => exact orNone_pure _
  | succ fuel ih =>
    unfold sumData
    split
    · exact orNone_pure _
    · refine (orNone_flashRead _ _ _).bind ((quiet_flashRead _ _ _).silent c) ?_ ?_
      · exact fun r h => ends_pure.mp h
      · split
        · exact orNone_pure _
        · exact ih ..

theorem orNone_imageCheckSection (flash addr bufLen : Nat) :
    OrNone (imageCheckSection board flash addr bufLen checkT) c := by
  refine (orNone_flashRead _ _ _).bind ((quiet_flashRead _ _ _).silent c) ?_ ?_
  · exact fun r h => ends_pure.mp h
  · split
    · exact orNone_pure _
    · split
      · exact orNone_pure _
      · refine (orNone_sumData ..).bind ((quiet_sumData ..).silent c) ?_ ?_
        · exact fun r h => ends_pure.mp h
        · split
          · exact orNone_pure _
          · exact orNone_pure _

/-- A program that can be refused everything, ends with `none` or as it does when nothing is. -/
theorem ends_orNone_bind (hp : OrNone p c) (hq : Silent p c) (hnone : ¬Ends (f none) c none) :
    Ends (p >>= f) c none ↔ Ends (f (ret p c)) c none := by
  rw [ends_bind]
  constructor
  · rintro ⟨a, ha, h⟩
    rcases hp.ends a ha with rfl | rfl
    · exact absurd h hnone
    · exact h
  · exact fun h => ⟨_, ends_ret hq, h⟩

end

/-! ## The loops -/

section

variable {board : Board} {c : Cells} {iop : OtaParam} {seq id fuel : Nat} {checkT : CheckType}
  {place : Nat × Nat}

theorem not_ends_pure {α : Type} {a b : α} (h : b ≠ a) : ¬Ends (pure a : Prog α) c b :=
  fun hends => h (ends_pure.mp hends)

theorem checkChain_succ :
    Ends (checkChain board iop seq checkT (fuel + 1) place.1 place.2) c none ↔
      ∃ behind, sectionLink board c iop seq checkT place = some behind ∧
        Ends (checkChain board iop seq checkT fuel behind.1 behind.2) c none := by
  have hnone : ¬Ends (pure (some ImageVal.invalid) : Prog (Option ImageVal)) c none :=
    not_ends_pure (Option.some_ne_none _).symm
  unfold sectionLink
  rw [checkChain, ends_orNone_bind (orNone_imageCheckSection ..)
    ((quiet_imageCheckSection ..).silent c) hnone]
  cases ret (imageCheckSection board place.1 place.2 imageCheckSize checkT) c with
  | none => exact iff_of_false hnone (by simp)
  | some nextAddr =>
    dsimp only
    unfold linkTo
    split
    · exact iff_of_false (not_ends_pure (Option.some_ne_none _).symm) (by simp)
    · simp

theorem sizeLoop_succ :
    Ends (sizeLoop board iop seq (fuel + 1) place.1 place.2) c none ↔
      ∃ behind, headerLink board c iop seq .normal place = some behind ∧
        Ends (sizeLoop board iop seq fuel behind.1 behind.2) c none := by
  have hnone : ¬Ends (pure (some 0) : Prog (Option Nat)) c none := not_ends_pure nofun
  unfold headerLink
  rw [sizeLoop, ends_orNone_bind (orNone_flashRead ..) ((quiet_flashRead ..).silent c) hnone]
  cases ret (flashRead board place.1 place.2 imageHeaderSize) c with
  | none => exact iff_of_false hnone (by simp)
  | some bytes =>
    dsimp only
    split
    · exact iff_of_false hnone (by simp)
    · unfold linkTo nextOffset
      dsimp only
      split
      · exact iff_of_false (not_ends_pure nofun) (by simp)
      · simp

theorem verifyDataPos_succ :
    Ends (verifyDataPos board iop seq (fuel + 1) place.1 place.2) c none ↔
      ∃ behind, headerLink board c iop seq .ota place = some behind ∧
        Ends (verifyDataPos board iop seq fuel behind.1 behind.2) c none := by
  have hnone : ¬Ends (pure (some 0) : Prog (Option Nat)) c none :=
    not_ends_pure (Option.some_ne_none _).symm
  have hread : OrNone (halFlashRead board place.1 place.2 imageHeaderSize) c :=
    orNone_flashRead ..
  have hquiet : Silent (halFlashRead board place.1 place.2 imageHeaderSize) c :=
    (quiet_flashRead ..).silent c
  unfold headerLink flashRead
  rw [verifyDataPos, ends_orNone_bind hread hquiet hnone]
  cases ret (halFlashRead board place.1 place.2 imageHeaderSize) c with
  | none => exact iff_of_false hnone (by simp)
  | some bytes =>
    dsimp only
    split
    · exact iff_of_false hnone (by simp)
    · unfold linkTo
      split
      · exact iff_of_false (not_ends_pure (Option.some_ne_none _).symm) (by simp)
      · simp

theorem unfinished_bind {σ α β : Type} {m : Flow σ α} {f : α → Flow σ β} {s : σ}
    (hm : Flow.Halts m s c) : Ends ((m >>= f) s) c none ↔
      ∃ a s₁, Flow.Ends m s c a s₁ ∧ Ends (f a s₁) c none := by
  rw [Flow.bind_run, ends_bind]
  constructor
  · rintro ⟨r, hr, h⟩
    cases r with
    | none => exact absurd hr hm
    | some r => exact ⟨r.1, r.2, hr, h⟩
  · rintro ⟨a, s₁, hr, h⟩
    exact ⟨some (a, s₁), hr, h⟩

theorem unfinished_get {σ β : Type} {f : σ → Flow σ β} {s : σ} :
    Ends ((Flow.get >>= f) s) c none ↔ Ends (f s s) c none := by
  rw [unfinished_bind Flow.halts_get]
  constructor
  · rintro ⟨t, s₁, ht, h⟩
    obtain ⟨rfl, rfl⟩ := Flow.ends_get.mp ht
    exact h
  · exact fun h => ⟨s, s, Flow.ends_get.mpr ⟨rfl, rfl⟩, h⟩

theorem unfinished_modify {σ β : Type} {g : σ → σ} {f : Unit → Flow σ β} {s : σ} :
    Ends ((Flow.modify g >>= f) s) c none ↔ Ends (f () (g s)) c none := by
  rw [unfinished_bind Flow.halts_modify]
  constructor
  · rintro ⟨_, s₁, hs₁, h⟩
    rw [Flow.ends_modify] at hs₁
    subst hs₁
    exact h
  · exact fun h => ⟨(), g s, Flow.ends_modify.mpr rfl, h⟩

/-- As `ends_orNone_bind`. -/
theorem unfinished_lift {σ α β : Type} {p : Prog (Option α)} {f : Option α → Flow σ β} {s : σ}
    (hp : OrNone p c) (hq : Silent p c) (hnone : ¬Ends (f none s) c none) :
    Ends ((Flow.lift p >>= f) s) c none ↔ Ends (f (ret p c) s) c none := by
  rw [unfinished_bind Flow.halts_lift]
  constructor
  · rintro ⟨r, s₁, hlift, h⟩
    obtain ⟨hr, rfl⟩ := Flow.ends_lift.mp hlift
    rcases hp.ends r hr with rfl | rfl
    · exact absurd h hnone
    · exact h
  · exact fun h => ⟨_, s, Flow.ends_lift.mpr ⟨ends_ret hq, rfl⟩, h⟩

/-- A test that may be passed and ends the program otherwise. -/
theorem unfinished_test {σ β : Type} {p : Prog Bool} {b : β} {m : Flow σ β} {s : σ}
    (hp : Ends p c true) :
    Ends ((Flow.lift p >>= fun ok => if !ok then pure b else m) s) c none ↔ Ends (m s) c none := by
  rw [unfinished_bind Flow.halts_lift]
  constructor
  · rintro ⟨ok, s₁, hok, h⟩
    obtain ⟨-, rfl⟩ := Flow.ends_lift.mp hok
    cases ok with
    | false => exact absurd h Flow.halts_pure
    | true => exact h
  · exact fun h => ⟨true, s, Flow.ends_lift.mpr ⟨hp, rfl⟩, h⟩

/-- The state changes on the way, but the places do not depend on it. -/
theorem searchSection_unfinished {img : ImagePriv} (place : Nat × Nat × Nat) (himg : img.iop = iop) :
    Ends (searchSection board seq id fuel place.1 place.2.1 place.2.2 img) c none ↔
      visit (lookupLink board c iop seq id) (some place) fuel ≠ none := by
  induction fuel generalizing img place with
  | zero => exact iff_of_true (.done none c) (Option.some_ne_none place)
  | succ fuel ih =>
    rw [visit_succ_start, Option.bind_some, searchSection, lookupLink]
    by_cases hnext : place.2.2 = imageInvalidAddr
    · rw [if_pos hnext, if_pos hnext, visit_none]
      exact iff_of_false Flow.halts_pure (not_not.mpr rfl)
    · have halloc : Ends (if (img.secAddr seq).length % imageExpandSize = 0 then
          allocReq (((img.secAddr seq).length + imageExpandSize) * 8) else pure true) c true := by
        split
        · exact ends_allocReq _ _ _
        · exact .done true c
      rw [if_neg hnext, if_neg hnext, unfinished_get]
      rw [unfinished_test halloc,
        unfinished_lift (orNone_flashRead ..) ((quiet_flashRead ..).silent c)]
      swap
      · exact Flow.halts_pure
      cases ret (flashRead board place.1 (u32 (place.2.1 + 32)) 8) c with
      | none =>
        rw [visit_none]
        exact iff_of_false Flow.halts_pure (not_not.mpr rfl)
      | some shPart =>
        dsimp only
        rw [unfinished_modify]
        split
        · rw [visit_none]
          exact iff_of_false Flow.halts_pure (not_not.mpr rfl)
        · rw [himg]
          have hpush : (img.push seq ⟨field shPart 4 4, place.2.1⟩).iop = iop := himg
          exact ih (iop.flash seq, iop.secAddr seq (field shPart 0 4), field shPart 0 4) hpush

/-! ## The walks -/

theorem imageCheckSections_finishes : (∃ fuel, ¬Ends (imageCheckSections board iop fuel seq checkT) c
      none) ↔ Stops (sectionLink board c iop seq checkT) (some (iop.blFlash, iop.blAddr)) := by
  rw [← finishes_iff (U := fun fuel place =>
    Ends (checkChain board iop seq checkT fuel place.1 place.2) c none)
    (fun _ => .done none c) (fun _ _ => checkChain_succ)]
  refine exists_congr fun fuel => not_congr ?_
  unfold imageCheckSections
  rw [ends_bind]
  constructor
  · rintro ⟨ok, -, h⟩
    cases ok with
    | false => exact absurd h (not_ends_pure nofun)
    | true => exact h
  · exact fun h => ⟨true, ends_allocReq _ _ _, h⟩

theorem imageGetSize_finishes : (∃ fuel, ¬Ends (imageGetSize board iop fuel) c none) ↔
    (iop.runningSeq < imageSeqNum → Stops (headerLink board c iop iop.runningSeq .normal)
      (some (iop.blFlash, iop.blAddr))) := by
  unfold imageGetSize
  by_cases hseq : iop.runningSeq < imageSeqNum
  · rw [← finishes_iff (U := fun fuel place =>
      Ends (sizeLoop board iop iop.runningSeq fuel place.1 place.2) c none)
      (fun _ => .done none c) (fun _ _ => sizeLoop_succ)]
    simp [hseq, Nat.not_le.mpr hseq]
  · simp only [ge_iff_le, Nat.not_lt.mp hseq, if_true]
    exact iff_of_true ⟨0, not_ends_pure nofun⟩ fun h => absurd h hseq

theorem otaGetVerifyDataPos_finishes {getSize : Nat} {skipSize : Int} :
    (∃ fuel, Flow.Halts (otaGetVerifyDataPos board fuel seq) ⟨some iop, getSize, skipSize⟩ c) ↔
      (seq < imageSeqNum → Stops (headerLink board c iop seq .ota)
        (some (iop.blFlash, iop.blAddr))) := by
  unfold Flow.Halts otaGetVerifyDataPos
  simp only [unfinished_get]
  by_cases hseq : seq < imageSeqNum
  · rw [← finishes_iff (U := fun fuel place =>
      Ends (verifyDataPos board iop seq fuel place.1 place.2) c none)
      (fun _ => .done none c) (fun _ _ => verifyDataPos_succ)]
    simp only [hseq, ge_iff_le, Nat.not_le.mpr hseq, if_false, true_imp_iff]
    refine exists_congr fun fuel => not_congr ?_
    rw [unfinished_bind Flow.halts_lift]
    constructor
    · rintro ⟨r, s₁, hlift, h⟩
      obtain ⟨hr, -⟩ := Flow.ends_lift.mp hlift
      cases r with
      | none => exact hr
      | some pos => exact absurd h Flow.halts_pure
    · exact fun h => ⟨none, _, Flow.ends_lift.mpr ⟨h, rfl⟩, .done none c⟩
  · simp only [ge_iff_le, Nat.not_lt.mp hseq, if_true]
    exact iff_of_true ⟨0, Flow.halts_pure⟩ fun h => absurd h hseq

theorem searchSection_finishes {img : ImagePriv} {flash addr nextAddr : Nat} :
    (∃ fuel, ¬Ends (searchSection board seq id fuel flash addr nextAddr img) c none) ↔
      Stops (lookupLink board c img.iop seq id) (some (flash, addr, nextAddr)) := by
  have hfuel : ∀ fuel, Ends (searchSection board seq id fuel flash addr nextAddr img) c none ↔
      visit (lookupLink board c img.iop seq id) (some (flash, addr, nextAddr)) fuel ≠ none :=
    fun fuel => searchSection_unfinished (flash, addr, nextAddr) rfl
  simp only [hfuel, not_not]
  rfl

theorem imageGetAddr_finishes {img : ImagePriv} :
    (∃ fuel, Flow.Halts (imageGetAddr board fuel seq id) img c) ↔
      (seq < imageSeqNum → Stops (lookupLink board c img.iop seq id)
        (lookupStart board c img seq id)) := by
  unfold Flow.Halts imageGetAddr lookupStart
  by_cases hseq : seq < imageSeqNum
  · simp only [hseq, ge_iff_le, Nat.not_le.mpr hseq, if_false, true_imp_iff, unfinished_get]
    cases (img.secAddr seq).find? (·.id = id) with
    | some entry => exact iff_of_true ⟨0, Flow.halts_pure⟩ ⟨0, rfl⟩
    | none =>
      cases (img.secAddr seq).getLast? with
      | none => exact searchSection_finishes
      | some entry =>
        dsimp only
        refine (exists_congr fun fuel => not_congr (unfinished_lift (orNone_flashRead ..)
          ((quiet_flashRead ..).silent c) ?_)).trans ?_
        · exact Flow.halts_pure
        cases ret (flashRead board (img.iop.flash seq) (u32 (entry.addr + 32)) 4) c with
        | none => exact iff_of_true ⟨0, Flow.halts_pure⟩ ⟨0, rfl⟩
        | some bytes => exact searchSection_finishes
  · simp only [ge_iff_le, Nat.not_lt.mp hseq, if_true]
    exact iff_of_true ⟨0, Flow.halts_pure⟩ fun h => absurd h hseq

/-- Each walk comes to an end, whatever is refused, exactly when its links do not lead it to a
place where it has been. -/
theorem chain_walks_end_iff :
    (∀ seq checkT, (∃ fuel, ¬Ends (imageCheckSections board iop fuel seq checkT) c none) ↔
      Acyclic (sectionLink board c iop seq checkT) (some (iop.blFlash, iop.blAddr))) ∧
    ((∃ fuel, ¬Ends (imageGetSize board iop fuel) c none) ↔ (iop.runningSeq < imageSeqNum →
      Acyclic (headerLink board c iop iop.runningSeq .normal) (some (iop.blFlash, iop.blAddr)))) ∧
    (∀ seq getSize skipSize, (∃ fuel,
        Flow.Halts (otaGetVerifyDataPos board fuel seq) ⟨some iop, getSize, skipSize⟩ c) ↔
      (seq < imageSeqNum →
        Acyclic (headerLink board c iop seq .ota) (some (iop.blFlash, iop.blAddr)))) ∧
    ∀ (img : ImagePriv) (seq id : Nat), (∃ fuel,
        Flow.Halts (imageGetAddr board fuel seq id) img c) ↔
      (seq < imageSeqNum →
        Acyclic (lookupLink board c img.iop seq id) (lookupStart board c img seq id)) := by
  refine ⟨fun seq checkT => ?_, ?_, fun seq getSize skipSize => ?_, fun img seq id => ?_⟩
  · rw [imageCheckSections_finishes, sectionLink_stops_iff]
  · rw [imageGetSize_finishes, headerLink_stops_iff]
  · rw [otaGetVerifyDataPos_finishes, headerLink_stops_iff]
  · rw [imageGetAddr_finishes, lookupLink_stops_iff]

end

/-! ## A section that names itself -/

/-- A header with nothing behind it whose next section is at offset 64. -/
def loopHeader (id : List Byte) : List Byte :=
  [0x41, 0x57, 0x49, 0x48, 0, 0, 0, 0, 0x39, 0x60, 0xFF, 0xFF] ++ List.replicate 20 0 ++
    [64, 0, 0, 0] ++ id ++ List.replicate 20 0 ++ List.replicate 4 0xFF

/-- The bootloader's section at 0 and the application's at 64. -/
def loopFlash : Cells := fun _ a =>
  (loopHeader [0x00, 0x5A, 0xFF, 0xA5] ++ loopHeader [0x01, 0x5A, 0xFE, 0xA5]).getD a blank

def loopIop : OtaParam := { twoIop with runningSeq := 0 }

theorem self_link_hangs :
    (∀ fuel checkT, Ends (imageCheckSections twoBoard loopIop fuel 0 checkT) loopFlash none) ∧
    (∀ fuel, Ends (imageGetSize twoBoard loopIop fuel) loopFlash none) ∧
    (∀ fuel, ¬Flow.Halts (otaGetVerifyDataPos twoBoard fuel 0) ⟨some loopIop, 0, 0⟩ loopFlash) ∧
    ∀ fuel, ¬Flow.Halts (imageGetAddr twoBoard fuel 0 0xA5FD5A02) ⟨loopIop, fun _ => []⟩
      loopFlash := by
  have hsection : ∀ checkT, ¬Stops (sectionLink twoBoard loopFlash loopIop 0 checkT)
      (some (0, 0)) := by
    intro checkT
    cases checkT with
    | normal => exact not_stops_of_loop (a := (0, 64)) (by decide) (by decide)
    | ota => exact not_stops_of_loop (a := (0, 64)) (by decide) (by decide)
  have hheader : ∀ checkT, ¬Stops (headerLink twoBoard loopFlash loopIop 0 checkT)
      (some (0, 0)) := by
    intro checkT
    cases checkT with
    | normal => exact not_stops_of_loop (a := (0, 64)) (by decide) (by decide)
    | ota => exact not_stops_of_loop (a := (0, 64)) (by decide) (by decide)
  have hlookup : ¬Stops (lookupLink twoBoard loopFlash loopIop 0 0xA5FD5A02) (some (0, 0, 0)) :=
    not_stops_of_loop (a := (0, 64, 64)) (by decide) (by decide)
  have hseq : loopIop.runningSeq < imageSeqNum := by decide
  refine ⟨fun fuel checkT => ?_, fun fuel => ?_, fun fuel hends => ?_, fun fuel hends => ?_⟩
  · by_contra hends
    exact hsection checkT (imageCheckSections_finishes.mp ⟨fuel, hends⟩)
  · by_contra hends
    exact hheader .normal (imageGetSize_finishes.mp ⟨fuel, hends⟩ hseq)
  · exact hheader .ota (otaGetVerifyDataPos_finishes.mp ⟨fuel, hends⟩ hseq)
  · exact hlookup (imageGetAddr_finishes.mp ⟨fuel, hends⟩ hseq)

end Image
end XR806

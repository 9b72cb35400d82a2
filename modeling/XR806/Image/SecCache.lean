import XR806.Image.Rw
import XR806.Nor.Refuse
import XR806.Trans.Run

/-!
# XR806.Image.SecCache

The section addresses that `app_image_get_addr` keeps, against the walk of the chain without them.
The cache of a slot is a prefix of its sections, and a lookup goes on behind the last one.

Reads and allocations may be refused; then a lookup answers `IMAGE_INVALID_ADDR` as well, so
`lookup` is the code with `none` for a failure (`hides_imageGetAddr`).

Two things break the prefix. The header behind the bootloader's is looked for on the flash of the
slot, where the bootloader need not be, when the bootloader's section is the only one cached
(`second_lookup_loses`). And the number of sections has 8 bits.
-/

namespace XR806
namespace Image

open Nor Flash

/-! ## Sections -/

/-- The sections from the header at `addr` of `flash` on. A chain ends with `next_addr`, or at a
header the driver does not read. -/
inductive Sections (board : Board) (c : Cells) (iop : OtaParam) (seq : Nat) :
    Nat → Nat → Nat → List SecAddr → Prop where
  | last (flash addr : Nat) : Sections board c iop seq flash addr imageInvalidAddr []
  | lost {flash addr nextAddr : Nat} (hnext : nextAddr ≠ imageInvalidAddr)
      (hread : ret (flashRead board flash (u32 (addr + 32)) 8) c = none) :
      Sections board c iop seq flash addr nextAddr []
  | more {flash addr nextAddr : Nat} {bytes : List Byte} {rest : List SecAddr}
      (hnext : nextAddr ≠ imageInvalidAddr)
      (hread : ret (flashRead board flash (u32 (addr + 32)) 8) c = some bytes)
      (hrest : Sections board c iop seq (iop.flash seq) (iop.secAddr seq (field bytes 0 4))
        (field bytes 0 4) rest) :
      Sections board c iop seq flash addr nextAddr (⟨field bytes 4 4, addr⟩ :: rest)

/-- What a walk answers: the address of the first section with the id. -/
def firstAddr (sections : List SecAddr) (id : Nat) : Nat :=
  ((sections.find? (·.id = id)).map (·.addr)).getD imageInvalidAddr

/-- The number of sections a walk looks at. -/
def visits (id : Nat) : List SecAddr → Nat
  | [] => 0
  | e :: rest => if e.id = id then 1 else 1 + visits id rest

section

variable {id : Nat} {e : SecAddr} {p rest : List SecAddr}

theorem firstAddr_cons_self (h : e.id = id) : firstAddr (e :: rest) id = e.addr := by
  simp [firstAddr, h]

theorem firstAddr_cons_ne (h : e.id ≠ id) : firstAddr (e :: rest) id = firstAddr rest id := by
  simp [firstAddr, h]

theorem firstAddr_append_none (h : p.find? (·.id = id) = none) :
    firstAddr (p ++ rest) id = firstAddr rest id := by
  simp [firstAddr, List.find?_append, h]

theorem firstAddr_append_some (h : p.find? (·.id = id) = some e) :
    firstAddr (p ++ rest) id = e.addr := by
  simp [firstAddr, List.find?_append, h]

theorem visits_append (h : p.find? (·.id = id) = none) :
    visits id (p ++ rest) = p.length + visits id rest := by
  induction p with
  | nil => simp
  | cons e p ih =>
    have hne : e.id ≠ id := by
      intro heq
      simp [heq] at h
    have htail : p.find? (·.id = id) = none := by simpa [hne] using h
    rw [List.cons_append, visits, if_neg hne, ih htail, List.length_cons]
    omega

end

section

variable {board : Board} {c : Cells} {iop : OtaParam} {seq : Nat}

theorem ends_flashRead {dev addr n : Nat} {r : Option (List Byte)}
    (h : Ends (flashRead board dev addr n) c r) :
    r = none ∨ r = ret (flashRead board dev addr n) c := by
  unfold flashRead halFlashRead at h ⊢
  cases hb : board dev with
  | none =>
    rw [hb] at h
    exact .inl (ends_pure.mp h)
  | some chip =>
    rw [hb] at h
    simp only at h ⊢
    split at h
    · exact .inl (ends_pure.mp h)
    · rw [if_neg ‹_›]
      exact ends_readReq.mp h

/-- Behind a section of a chain the chain goes on. -/
theorem Sections.behind {flash addr nextAddr : Nat} {p rest : List SecAddr} {e : SecAddr}
    (h : Sections board c iop seq flash addr nextAddr (p ++ e :: rest)) :
    ∃ bytes, ret (flashRead board (if p = [] then flash else iop.flash seq)
        (u32 (e.addr + 32)) 8) c = some bytes ∧
      Sections board c iop seq (iop.flash seq) (iop.secAddr seq (field bytes 0 4))
        (field bytes 0 4) rest := by
  induction p generalizing flash addr nextAddr with
  | nil =>
    cases h with
    | more hnext hread hrest => exact ⟨_, hread, hrest⟩
  | cons d p ih =>
    cases h with
    | more hnext hread hrest =>
      obtain ⟨bytes, hbytes, hbehind⟩ := ih hrest
      refine ⟨bytes, ?_, hbehind⟩
      rw [if_neg (List.cons_ne_nil _ p)]
      split at hbytes <;> exact hbytes

/-- The first field of a header read in one piece or together with the one behind it. -/
theorem field_of_longer {dev addr : Nat} {bytes short : List Byte}
    (h : ret (flashRead board dev addr 8) c = some bytes)
    (hs : ret (flashRead board dev addr 4) c = some short) :
    field short 0 4 = field bytes 0 4 := by
  rcases ret_flashRead_cases board dev addr 8 c with h8 | h8
  · rw [h8] at h
    cases h
  · rcases ret_flashRead_cases board dev addr 4 c with h4 | h4
    · rw [h4] at hs
      cases hs
    · rw [h8] at h
      rw [h4] at hs
      cases h
      cases hs
      rw [field, field, List.drop_zero, List.drop_zero, readCells_append c dev addr 4 4,
        List.take_append_of_le_length (by simp)]

end

/-! ## Lookups that may fail -/

section

variable (board : Board)

/-- `searchSection`, and `none` for a failure. -/
def lookupFrom (seq id : Nat) : Nat → Nat → Nat → Nat → Img (Option Nat)
  | 0, _, _, _ => Flow.hang
  | fuel + 1, flash, addr, nextAddr =>
    if nextAddr = imageInvalidAddr then pure (some imageInvalidAddr)
    else do
      let img ← Flow.get
      let secNum := (img.secAddr seq).length
      let ok ← Flow.lift (if secNum % imageExpandSize = 0 then
        allocReq ((secNum + imageExpandSize) * 8) else pure true)
      if !ok then pure none
      else do
        match ← Flow.lift (flashRead board flash (u32 (addr + 32)) 8) with
        | none => pure none
        | some shPart => do
          Flow.modify fun img => img.push seq ⟨field shPart 4 4, addr⟩
          if id = field shPart 4 4 then pure (some addr)
          else
            lookupFrom seq id fuel (img.iop.flash seq)
              (img.iop.secAddr seq (field shPart 0 4)) (field shPart 0 4)

/-- `imageGetAddr`, and `none` for a failure. -/
def lookup (fuel seq id : Nat) : Img (Option Nat) :=
  if seq ≥ imageSeqNum then pure (some imageInvalidAddr)
  else do
    let img ← Flow.get
    match (img.secAddr seq).find? (·.id = id) with
    | some entry => pure (some entry.addr)
    | none =>
      match (img.secAddr seq).getLast? with
      | none => lookupFrom board seq id fuel img.iop.blFlash img.iop.blAddr img.iop.blAddr
      | some entry => do
        match ← Flow.lift (flashRead board (img.iop.flash seq) (u32 (entry.addr + 32)) 4) with
        | none => pure none
        | some bytes =>
          lookupFrom board seq id fuel (img.iop.flash seq)
            (img.iop.secAddr seq (field bytes 0 4)) (field bytes 0 4)

end

/-- `m` is `m'` with `IMAGE_INVALID_ADDR` for a failure. -/
structure Hides (m : Img Nat) (m' : Img (Option Nat)) : Prop where
  run : ∀ s c a s', Flow.Ends m s c a s' ↔
    ∃ r, Flow.Ends m' s c r s' ∧ a = r.getD imageInvalidAddr
  halts : ∀ s c, Flow.Halts m' s c → Flow.Halts m s c

section

variable {β : Type} {m : Img β} {f : β → Img Nat} {f' : β → Img (Option Nat)}

theorem hides_pure (r : Option Nat) : Hides (pure (r.getD imageInvalidAddr)) (pure r) where
  run s c a s' := by
    rw [Flow.ends_pure]
    constructor
    · rintro ⟨rfl, rfl⟩
      exact ⟨r, Flow.ends_pure.mpr ⟨rfl, rfl⟩, rfl⟩
    · rintro ⟨r', h, rfl⟩
      obtain ⟨rfl, rfl⟩ := Flow.ends_pure.mp h
      exact ⟨rfl, rfl⟩
  halts _ _ _ := Flow.halts_pure

theorem hides_hang : Hides Flow.hang Flow.hang where
  run s c a s' := by
    constructor
    · intro h
      cases Nor.ends_pure.mp h
    · rintro ⟨r, h, -⟩
      cases Nor.ends_pure.mp h
  halts _ c h := absurd (Nor.Ends.done _ c) h

theorem Hides.bind (h : ∀ b, Hides (f b) (f' b)) : Hides (m >>= f) (m >>= f') where
  run s c a s' := by
    rw [Flow.ends_bind]
    constructor
    · rintro ⟨b, s₁, hm, hf⟩
      obtain ⟨r, hr, ha⟩ := ((h b).run _ _ _ _).mp hf
      exact ⟨r, Flow.ends_bind.mpr ⟨b, s₁, hm, hr⟩, ha⟩
    · rintro ⟨r, hr, ha⟩
      obtain ⟨b, s₁, hm, hf⟩ := Flow.ends_bind.mp hr
      exact ⟨b, s₁, hm, ((h b).run _ _ _ _).mpr ⟨r, hf, ha⟩⟩
  halts s c hm := by
    refine Flow.Halts.bind ?_ ?_
    · intro hnone
      exact hm (Nor.ends_bind.mpr ⟨none, hnone, .done _ c⟩)
    · intro b s₁ hb
      refine (h b).halts s₁ c ?_
      intro hnone
      exact hm (Nor.ends_bind.mpr ⟨some (b, s₁), hb, hnone⟩)

theorem Hides.ite {P : Prop} [Decidable P] {m m' : Img Nat} {n n' : Img (Option Nat)}
    (h : Hides m n) (h' : Hides m' n') : Hides (if P then m else m') (if P then n else n') := by
  split
  · exact h
  · exact h'

end

section

variable {board : Board} {c : Cells} {seq id fuel : Nat} {s s' : ImagePriv} {a : Nat}

theorem hides_searchSection (flash addr nextAddr : Nat) :
    Hides (searchSection board seq id fuel flash addr nextAddr)
      (lookupFrom board seq id fuel flash addr nextAddr) := by
  induction fuel generalizing flash addr nextAddr with
  | zero => exact hides_hang
  | succ fuel ih =>
    refine (hides_pure (some imageInvalidAddr)).ite (Hides.bind ?_)
    intro img
    refine Hides.bind ?_
    intro ok
    refine (hides_pure none).ite (Hides.bind ?_)
    intro r
    cases r with
    | none => exact hides_pure none
    | some shPart =>
      refine Hides.bind ?_
      intro _
      exact (hides_pure (some addr)).ite (ih ..)

/-- A lookup that fails answers `IMAGE_INVALID_ADDR`. -/
theorem hides_imageGetAddr (fuel seq id : Nat) :
    Hides (imageGetAddr board fuel seq id) (lookup board fuel seq id) := by
  refine (hides_pure (some imageInvalidAddr)).ite (Hides.bind ?_)
  intro img
  cases (img.secAddr seq).find? (·.id = id) with
  | some entry => exact hides_pure (some entry.addr)
  | none =>
    cases (img.secAddr seq).getLast? with
    | none => exact hides_searchSection ..
    | some entry =>
      refine Hides.bind ?_
      intro r
      cases r with
      | none => exact hides_pure none
      | some bytes => exact hides_searchSection ..

end

/-! ## A lookup keeps the cache a prefix -/

/-- The cache of a slot holds the first sections of `l`. -/
structure Cached (l : List SecAddr) (cache : List SecAddr) : Prop where
  isPrefix : cache <+: l
  length : cache.length < 2 ^ 8

/-- A lookup on slot `seq` changes the cache of the slot only, and keeps it a prefix of `l`. -/
structure Kept (l : List SecAddr) (seq : Nat) (s s' : ImagePriv) : Prop where
  iop : s'.iop = s.iop
  others : ∀ i, i ≠ seq → s'.secAddr i = s.secAddr i
  cached : Cached l (s'.secAddr seq)

section

variable {board : Board} {c : Cells} {seq id fuel flash addr nextAddr : Nat} {s s' : ImagePriv}
  {r : Option Nat} {l rest : List SecAddr} {e : SecAddr}

theorem visits_eq_zero : visits id rest = 0 ↔ rest = [] := by
  cases rest with
  | nil => simp [visits]
  | cons e rest =>
    simp only [visits, reduceCtorEq, iff_false]
    split <;> omega

theorem Kept.refl (h : Cached l (s.secAddr seq)) : Kept l seq s s := ⟨rfl, fun _ _ => rfl, h⟩

theorem Kept.push (h : Kept l seq (s.push seq e) s') : Kept l seq s s' where
  iop := h.iop
  others i hi := (h.others i hi).trans (if_neg hi)
  cached := h.cached

/-- One more section of the chain in the cache. The one that would be entry 256 empties it. -/
theorem Cached.push {cache : List SecAddr} (h : Cached l cache) (hl : l = cache ++ e :: rest) :
    Cached l (pushSecAddr cache e) ∧
      (cache.length + 1 < 2 ^ 8 → l = pushSecAddr cache e ++ rest) := by
  unfold pushSecAddr
  have hlen := h.length
  split
  · refine ⟨⟨List.nil_prefix, by simp⟩, ?_⟩
    intro hlt
    omega
  · refine ⟨⟨⟨rest, by simp [hl]⟩, ?_⟩, ?_⟩
    · rw [List.length_append, List.length_singleton]
      omega
    · intro _
      simp [hl]

/-- The fuel is larger than the number of sections left. -/
theorem lookupFrom_halts (hrest : Sections board c s.iop seq flash addr nextAddr rest)
    (hfuel : rest.length < fuel) :
    Flow.Halts (lookupFrom board seq id fuel flash addr nextAddr) s c := by
  induction fuel generalizing s flash addr nextAddr rest with
  | zero => omega
  | succ fuel ih =>
    refine Flow.Halts.ite (fun _ => Flow.halts_pure) ?_
    intro hnext
    refine Flow.halts_get.bind ?_
    intro img s₁ hget
    obtain ⟨rfl, rfl⟩ := Flow.ends_get.mp hget
    refine Flow.halts_lift.bind ?_
    intro ok s₂ halloc
    obtain ⟨-, rfl⟩ := Flow.ends_lift.mp halloc
    refine Flow.Halts.ite (fun _ => Flow.halts_pure) ?_
    intro _
    refine Flow.halts_lift.bind ?_
    intro bytes s₃ hlift
    obtain ⟨hread, rfl⟩ := Flow.ends_lift.mp hlift
    cases bytes with
    | none => exact Flow.halts_pure
    | some shPart =>
      refine Flow.halts_modify.bind ?_
      intro _ s₄ hmodify
      rw [Flow.ends_modify] at hmodify
      subst hmodify
      refine Flow.Halts.ite (fun _ => Flow.halts_pure) ?_
      intro _
      have hret := (ends_flashRead hread).resolve_left (Option.some_ne_none _)
      cases hrest with
      | last => exact absurd rfl hnext
      | lost _ hlost => rw [hlost] at hret; cases hret
      | more _ hmore hrest =>
        rw [hmore] at hret
        cases hret
        exact ih hrest (by simpa using hfuel)

/-- One section of the walk: a failure, or a section put into the cache. -/
theorem lookupFrom_succ (hnext : nextAddr ≠ imageInvalidAddr)
    (h : Flow.Ends (lookupFrom board seq id (fuel + 1) flash addr nextAddr) s c r s') :
    (r = none ∧ s' = s) ∨ ∃ shPart,
      ret (flashRead board flash (u32 (addr + 32)) 8) c = some shPart ∧
      (id = field shPart 4 4 ∧ r = some addr ∧ s' = s.push seq ⟨field shPart 4 4, addr⟩ ∨
        id ≠ field shPart 4 4 ∧ Flow.Ends (lookupFrom board seq id fuel (s.iop.flash seq)
          (s.iop.secAddr seq (field shPart 0 4)) (field shPart 0 4))
          (s.push seq ⟨field shPart 4 4, addr⟩) c r s') := by
  rw [lookupFrom, if_neg hnext] at h
  rw [Flow.ends_bind] at h
  obtain ⟨img, s₁, hget, h⟩ := h
  obtain ⟨rfl, rfl⟩ := Flow.ends_get.mp hget
  rw [Flow.ends_bind] at h
  obtain ⟨ok, s₂, halloc, h⟩ := h
  obtain ⟨-, rfl⟩ := Flow.ends_lift.mp halloc
  cases ok with
  | false =>
    obtain ⟨rfl, rfl⟩ := Flow.ends_pure.mp h
    exact .inl ⟨rfl, rfl⟩
  | true =>
    rw [if_neg (by decide), Flow.ends_bind] at h
    obtain ⟨bytes, s₃, hlift, h⟩ := h
    obtain ⟨hread, rfl⟩ := Flow.ends_lift.mp hlift
    cases bytes with
    | none =>
      obtain ⟨rfl, rfl⟩ := Flow.ends_pure.mp h
      exact .inl ⟨rfl, rfl⟩
    | some shPart =>
      have hret := (ends_flashRead hread).resolve_left (Option.some_ne_none _)
      refine .inr ⟨shPart, hret.symm, ?_⟩
      rw [Flow.ends_bind] at h
      obtain ⟨_, s₄, hmodify, h⟩ := h
      rw [Flow.ends_modify] at hmodify
      subst hmodify
      split at h
      · rename_i hid
        obtain ⟨rfl, rfl⟩ := Flow.ends_pure.mp h
        exact .inl ⟨hid, rfl, rfl⟩
      · exact .inr ⟨‹_›, h⟩

/-- The walk behind the cached sections finds what the walk of the whole chain finds. -/
theorem lookupFrom_spec (hrest : Sections board c s.iop seq flash addr nextAddr rest)
    (hcached : Cached l (s.secAddr seq)) (hl : rest ≠ [] → l = s.secAddr seq ++ rest)
    (hvisits : (s.secAddr seq).length + visits id rest ≤ 2 ^ 8)
    (h : Flow.Ends (lookupFrom board seq id fuel flash addr nextAddr) s c r s') :
    (∀ a, r = some a → a = firstAddr rest id) ∧ Kept l seq s s' := by
  induction fuel generalizing s flash addr nextAddr rest with
  | zero => cases Nor.ends_pure.mp h
  | succ fuel ih =>
    cases hrest with
    | last =>
      rw [lookupFrom, if_pos rfl] at h
      obtain ⟨rfl, rfl⟩ := Flow.ends_pure.mp h
      exact ⟨fun a ha => (Option.some.inj ha).symm, .refl hcached⟩
    | lost hnext hlost =>
      obtain ⟨rfl, rfl⟩ | ⟨shPart, hread, -⟩ := lookupFrom_succ hnext h
      · exact ⟨nofun, .refl hcached⟩
      · rw [hlost] at hread
        cases hread
    | @more _ _ _ bytes rest hnext hmore hrest =>
      obtain ⟨rfl, rfl⟩ | ⟨shPart, hread, hcases⟩ := lookupFrom_succ hnext h
      · exact ⟨nofun, .refl hcached⟩
      rw [hmore] at hread
      cases hread
      have hpush := hcached.push (hl (List.cons_ne_nil _ _))
      have hself : (s.push seq ⟨field bytes 4 4, addr⟩).secAddr seq =
          pushSecAddr (s.secAddr seq) ⟨field bytes 4 4, addr⟩ := if_pos rfl
      obtain ⟨hid, rfl, rfl⟩ | ⟨hid, h⟩ := hcases
      · refine ⟨?_, .push (.refl (by rw [hself]; exact hpush.1))⟩
        intro a ha
        rw [firstAddr_cons_self hid.symm]
        exact (Option.some.inj ha).symm
      · rw [visits, if_neg (Ne.symm hid)] at hvisits
        rw [firstAddr_cons_ne (Ne.symm hid)]
        have hlast : (s.secAddr seq).length + 1 = 2 ^ 8 → rest = [] := by
          intro hfull
          have hzero : visits id rest = 0 := by omega
          exact visits_eq_zero.mp hzero
        have hgo : rest ≠ [] → (s.secAddr seq).length + 1 < 2 ^ 8 := by
          intro hne
          have := hcached.length
          have := mt hlast hne
          omega
        have hvisits' : ((s.push seq ⟨field bytes 4 4, addr⟩).secAddr seq).length +
            visits id rest ≤ 2 ^ 8 := by
          rw [hself]
          unfold pushSecAddr
          split
          · rw [hlast ‹_›]
            simp [visits]
          · rw [List.length_append, List.length_singleton]
            omega
        rw [← hself] at hpush
        obtain ⟨hfirst, hkept⟩ := ih (s := s.push seq ⟨field bytes 4 4, addr⟩) hrest hpush.1
          (fun hne => hpush.2 (hgo hne)) hvisits' h
        exact ⟨hfirst, hkept.push⟩

end

/-! ## Lookups -/

section

variable {board : Board} {c : Cells} {seq id fuel : Nat} {s s' : ImagePriv} {r : Option Nat}
  {l : List SecAddr}

/-- The section behind the bootloader's is on the flash of the slot, so a lookup may only go on
from a cache with nothing but the bootloader's section if the bootloader is there, too. -/
def ResumesRight (s : ImagePriv) (seq id : Nat) : Prop :=
  ∀ e, s.secAddr seq = [e] → e.id = id ∨ s.iop.flash seq = s.iop.blFlash

/-- What is behind the last cached section, `e`. -/
theorem Sections.resume
    (hl : Sections board c s.iop seq s.iop.blFlash s.iop.blAddr s.iop.blAddr l)
    (hcached : Cached l (s.secAddr seq)) (hresume : ResumesRight s seq id)
    (hfind : (s.secAddr seq).find? (·.id = id) = none) {e : SecAddr}
    (hlast : (s.secAddr seq).getLast? = some e) :
    ∃ bytes rest, l = s.secAddr seq ++ rest ∧
      ret (flashRead board (s.iop.flash seq) (u32 (e.addr + 32)) 8) c = some bytes ∧
      Sections board c s.iop seq (s.iop.flash seq) (s.iop.secAddr seq (field bytes 0 4))
        (field bytes 0 4) rest := by
  obtain ⟨p, hcache⟩ := List.getLast?_eq_some_iff.mp hlast
  obtain ⟨rest, hrest⟩ := hcached.isPrefix
  rw [hcache, List.append_assoc, List.singleton_append] at hrest
  rw [← hrest] at hl
  obtain ⟨bytes, hread, hbehind⟩ := hl.behind
  refine ⟨bytes, rest, by simp [hcache, ← hrest], ?_, hbehind⟩
  split at hread
  · rename_i hp
    rw [hp, List.nil_append] at hcache
    have hid : e.id ≠ id := by
      intro heq
      simp [hcache, heq] at hfind
    rwa [(hresume e hcache).resolve_left hid]
  · exact hread

/-- Where a lookup on slot `seq` goes on with the walk: behind the cached sections. -/
theorem lookup_cases (hseq : seq < imageSeqNum)
    (hl : Sections board c s.iop seq s.iop.blFlash s.iop.blAddr s.iop.blAddr l)
    (hcached : Cached l (s.secAddr seq)) (hresume : ResumesRight s seq id)
    (h : Flow.Ends (lookup board fuel seq id) s c r s') :
    (∃ e, (s.secAddr seq).find? (·.id = id) = some e ∧ r = some e.addr ∧ s' = s) ∨
    (r = none ∧ s' = s) ∨
    (s.secAddr seq).find? (·.id = id) = none ∧ ∃ flash addr nextAddr rest,
      l = s.secAddr seq ++ rest ∧ Sections board c s.iop seq flash addr nextAddr rest ∧
      Flow.Ends (lookupFrom board seq id fuel flash addr nextAddr) s c r s' := by
  rw [lookup, if_neg (by omega), Flow.ends_bind] at h
  obtain ⟨img, s₁, hget, h⟩ := h
  obtain ⟨rfl, rfl⟩ := Flow.ends_get.mp hget
  cases hfind : (s₁.secAddr seq).find? (·.id = id) with
  | some e =>
    rw [hfind] at h
    obtain ⟨rfl, rfl⟩ := Flow.ends_pure.mp h
    exact .inl ⟨e, rfl, rfl, rfl⟩
  | none =>
    rw [hfind] at h
    refine .inr ?_
    cases hlast : (s₁.secAddr seq).getLast? with
    | none =>
      rw [hlast] at h
      rw [List.getLast?_eq_none_iff.mp hlast]
      exact .inr ⟨rfl, _, _, _, l, rfl, hl, h⟩
    | some e =>
      obtain ⟨bytes, rest, hsplit, hread, hbehind⟩ := hl.resume hcached hresume hfind hlast
      simp only [hlast] at h
      rw [Flow.ends_bind] at h
      obtain ⟨short, s₂, hlift, h⟩ := h
      obtain ⟨hshort, rfl⟩ := Flow.ends_lift.mp hlift
      cases short with
      | none =>
        obtain ⟨rfl, rfl⟩ := Flow.ends_pure.mp h
        exact .inl ⟨rfl, rfl⟩
      | some short =>
        have hret := (ends_flashRead hshort).resolve_left (Option.some_ne_none _)
        rw [← field_of_longer hread hret.symm] at hbehind
        exact .inr ⟨rfl, _, _, _, rest, hsplit, hbehind, h⟩

/-- One lookup on a slot with the sections `l`. -/
theorem lookup_spec (hseq : seq < imageSeqNum)
    (hl : Sections board c s.iop seq s.iop.blFlash s.iop.blAddr s.iop.blAddr l)
    (hcached : Cached l (s.secAddr seq)) (hresume : ResumesRight s seq id)
    (hvisits : visits id l ≤ 2 ^ 8) (h : Flow.Ends (lookup board fuel seq id) s c r s') :
    (∀ a, r = some a → a = firstAddr l id) ∧ Kept l seq s s' := by
  obtain ⟨e, hfind, rfl, rfl⟩ | ⟨rfl, rfl⟩ | ⟨hnone, flash, addr, nextAddr, rest, hsplit, hrest, h⟩ :=
    lookup_cases hseq hl hcached hresume h
  · refine ⟨?_, .refl hcached⟩
    intro a ha
    obtain ⟨rest, hrest⟩ := hcached.isPrefix
    rw [← hrest, firstAddr_append_some hfind]
    exact (Option.some.inj ha).symm
  · exact ⟨nofun, .refl hcached⟩
  · have hfirst : firstAddr l id = firstAddr rest id := by
      rw [hsplit, firstAddr_append_none hnone]
    have hcount : visits id l = (s.secAddr seq).length + visits id rest := by
      conv_lhs => rw [hsplit, visits_append hnone]
    rw [hfirst]
    exact lookupFrom_spec hrest hcached (fun _ => hsplit) (by omega) h

/-- A lookup on a finite chain comes to an end. -/
theorem lookup_halts (hl : seq < imageSeqNum →
      Sections board c s.iop seq s.iop.blFlash s.iop.blAddr s.iop.blAddr l ∧
      Cached l (s.secAddr seq) ∧ ResumesRight s seq id)
    (hfuel : l.length < fuel) : Flow.Halts (imageGetAddr board fuel seq id) s c := by
  refine (hides_imageGetAddr fuel seq id).halts s c ?_
  refine Flow.Halts.ite (fun _ => Flow.halts_pure) ?_
  intro hseq
  obtain ⟨hl, hcached, hresume⟩ := hl (by omega)
  refine Flow.halts_get.bind ?_
  intro img s₁ hget
  obtain ⟨rfl, rfl⟩ := Flow.ends_get.mp hget
  cases hfind : (s₁.secAddr seq).find? (·.id = id) with
  | some e => exact Flow.halts_pure
  | none =>
    cases hlast : (s₁.secAddr seq).getLast? with
    | none => exact lookupFrom_halts hl hfuel
    | some e =>
      obtain ⟨bytes, rest, hsplit, hread, hbehind⟩ := hl.resume hcached hresume hfind hlast
      refine Flow.halts_lift.bind ?_
      intro short s₂ hlift
      obtain ⟨hshort, rfl⟩ := Flow.ends_lift.mp hlift
      cases short with
      | none => exact Flow.halts_pure
      | some short =>
        have hret := (ends_flashRead hshort).resolve_left (Option.some_ne_none _)
        rw [← field_of_longer hread hret.symm] at hbehind
        refine lookupFrom_halts hbehind ?_
        rw [hsplit, List.length_append] at hfuel
        omega

end

/-! ## Runs -/

/-- A lookup, and what it returned: `none` is a failure. -/
structure Lookup where
  seq : Nat
  id : Nat
  result : Option Nat

/-- A lookup on flash `c`, in which any request may be refused. -/
def LookupStep (board : Board) (c : Cells) (s : ImagePriv) (q : Lookup) (s' : ImagePriv) : Prop :=
  ∃ fuel, Flow.Ends (lookup board fuel q.seq q.id) s c q.result s'

/-- What a walk without a cache answers. -/
def plainWalk (chains : Nat → List SecAddr) (seq id : Nat) : Nat :=
  if seq < imageSeqNum then firstAddr (chains seq) id else imageInvalidAddr

/-- The lookup goes on at the right place, and at most 256 sections are walked. -/
def InReach (chains : Nat → List SecAddr) (s : ImagePriv) (q : Lookup) : Prop :=
  q.seq < imageSeqNum → ResumesRight s q.seq q.id ∧ visits q.id (chains q.seq) ≤ 2 ^ 8

section

variable {board : Board} {c : Cells} {iop : OtaParam} {chains : Nat → List SecAddr}
  {s s' : ImagePriv} {q : Lookup} {qs : List Lookup}

/-- The cache of every slot is a prefix of its chain. -/
structure CacheOk (iop : OtaParam) (chains : Nat → List SecAddr) (s : ImagePriv) : Prop where
  iop : s.iop = iop
  cached : ∀ seq < imageSeqNum, Cached (chains seq) (s.secAddr seq)

/-- A lookup keeps the invariant, and returns what the walk without a cache does. -/
theorem CacheOk.step (hchains : ∀ seq < imageSeqNum,
      Sections board c iop seq iop.blFlash iop.blAddr iop.blAddr (chains seq))
    (hok : CacheOk iop chains s)
    (hstep : Trans.Guarded (LookupStep board c) (InReach chains) s q s') :
    CacheOk iop chains s' ∧ ∀ a, q.result = some a → a = plainWalk chains q.seq q.id := by
  obtain ⟨hreach, fuel, h⟩ := hstep
  unfold plainWalk
  by_cases hseq : q.seq < imageSeqNum
  · obtain ⟨hresume, hvisits⟩ := hreach hseq
    have hl := hchains q.seq hseq
    rw [← hok.iop] at hl
    obtain ⟨hfirst, hkept⟩ := lookup_spec hseq hl (hok.cached _ hseq) hresume hvisits h
    rw [if_pos hseq]
    refine ⟨⟨hkept.iop.trans hok.iop, ?_⟩, hfirst⟩
    intro seq hlt
    by_cases heq : seq = q.seq
    · rw [heq]
      exact hkept.cached
    · rw [hkept.others seq heq]
      exact hok.cached seq hlt
  · rw [lookup, if_pos (by omega)] at h
    obtain ⟨hresult, rfl⟩ := Flow.ends_pure.mp h
    rw [if_neg hseq]
    exact ⟨hok, fun a ha => (Option.some.inj (hresult.symm.trans ha)).symm⟩

/-- Every lookup of a run that does not fail returns what the walk without a cache does, and the
next lookup comes to an end. -/
theorem lookups_eq_walk (hchains : ∀ seq < imageSeqNum,
      Sections board c iop seq iop.blFlash iop.blAddr iop.blAddr (chains seq))
    (hrun : Trans.Run (Trans.Guarded (LookupStep board c) (InReach chains)) ⟨iop, fun _ => []⟩
      qs s) :
    (∀ q ∈ qs, ∀ a, q.result = some a → a = plainWalk chains q.seq q.id) ∧
    ∀ q, InReach chains s q → ∀ fuel, (chains q.seq).length < fuel →
      Flow.Halts (imageGetAddr board fuel q.seq q.id) s c := by
  have h0 : CacheOk iop chains ⟨iop, fun _ => []⟩ :=
    ⟨rfl, fun _ _ => ⟨List.nil_prefix, by simp⟩⟩
  obtain ⟨hok, hall⟩ := hrun.labels h0 fun s q s' hs hstep => hs.step hchains hstep
  refine ⟨hall, ?_⟩
  intro q hreach fuel hfuel
  refine lookup_halts ?_ hfuel
  intro hseq
  rw [hok.iop]
  exact ⟨hchains _ hseq, hok.cached _ hseq, (hreach hseq).1⟩

end

/-! ## A bootloader on a flash of its own -/

/-- Device 0 has the bootloader and, erased, slot 0; device 1 has slot 1, with one section. -/
def twoFlash : Cells := fun dev a =>
  if dev = 0 ∧ 32 ≤ a then
    ([64, 0, 0, 0, 0x00, 0x5A, 0xFF, 0xA5] : List Byte).getD (a - 32) blank
  else if dev = 1 ∧ 4096 + 36 ≤ a then
    ([0x01, 0x5A, 0xFE, 0xA5] : List Byte).getD (a - (4096 + 36)) blank
  else blank

def twoBoard : Board := fun dev => if dev < 2 then some ⟨65536, 4096⟩ else none

def twoIop : OtaParam where
  otaFlash := 1
  otaSize := 4096
  otaAddr := 0
  imgMaxSize := 32
  imgXzMaxSize := imageInvalidSize
  blSize := 64
  runningSeq := 1
  flash := fun seq => seq
  addr := fun seq => if seq = 0 then 64 else 4096

/-- `IMAGE_APP_ID`. -/
def imageAppId : Nat := 0xA5FE5A01

def twoChains (seq : Nat) : List SecAddr :=
  [⟨imageBootId, 0⟩, if seq = 0 then ⟨0xFFFFFFFF, 64⟩ else ⟨imageAppId, 4096⟩]

theorem two_reads :
    ret (flashRead twoBoard 0 (u32 (0 + 32)) 8) twoFlash =
      some [64, 0, 0, 0, 0x00, 0x5A, 0xFF, 0xA5] ∧
    ret (flashRead twoBoard 0 (u32 (64 + 32)) 8) twoFlash = some (List.replicate 8 blank) ∧
    ret (flashRead twoBoard 1 (u32 (4096 + 32)) 8) twoFlash =
      some (List.replicate 4 blank ++ [0x01, 0x5A, 0xFE, 0xA5]) := by decide

theorem two_sections : ∀ seq < imageSeqNum,
    Sections twoBoard twoFlash twoIop seq 0 0 0 (twoChains seq) := by
  intro seq hseq
  have hcases : seq = 0 ∨ seq = 1 := by
    unfold imageSeqNum at hseq
    omega
  have hzero : (0 : Nat) ≠ imageInvalidAddr := by decide
  have hnext : (64 : Nat) ≠ imageInvalidAddr := by decide
  rcases hcases with rfl | rfl
  · exact .more hzero two_reads.1 (.more hnext two_reads.2.1 (.last _ _))
  · exact .more hzero two_reads.1 (.more hnext two_reads.2.2 (.last _ _))

/-- The bootloader's section is found first. What it names as the next one is then looked for on
the flash of slot 1, which is erased there, and the section at 4096 is not found. -/
theorem second_lookup_loses :
    (∀ seq < imageSeqNum, Sections twoBoard twoFlash twoIop seq twoIop.blFlash twoIop.blAddr
      twoIop.blAddr (twoChains seq)) ∧
    (∃ s, Trans.Run (LookupStep twoBoard twoFlash) ⟨twoIop, fun _ => []⟩
      [⟨1, imageBootId, some 0⟩, ⟨1, imageAppId, some imageInvalidAddr⟩] s) ∧
    plainWalk twoChains 1 imageAppId = 4096 := by
  refine ⟨two_sections, ⟨_, .cons ⟨2, Flow.Returns.ends rfl rfl⟩
    (.cons ⟨2, Flow.Returns.ends rfl rfl⟩ (.nil _))⟩, by decide⟩

theorem lookups_eq_walk_two : ∃ s, Trans.Run (LookupStep twoBoard twoFlash) ⟨twoIop, fun _ => []⟩
      [⟨1, imageAppId, some 4096⟩, ⟨1, imageBootId, some 0⟩] s ∧
    (4096 : Nat) = plainWalk twoChains 1 imageAppId := by
  have hrun : ∃ s, Trans.Run (Trans.Guarded (LookupStep twoBoard twoFlash) (InReach twoChains))
      ⟨twoIop, fun _ => []⟩ [⟨1, imageAppId, some 4096⟩, ⟨1, imageBootId, some 0⟩] s := by
    refine ⟨_, .cons ⟨?_, 2, Flow.Returns.ends rfl rfl⟩
      (.cons ⟨?_, 2, Flow.Returns.ends rfl rfl⟩ (.nil _))⟩
    · intro _
      exact ⟨nofun, by decide⟩
    · intro _
      exact ⟨nofun, by decide⟩
  obtain ⟨s, hrun⟩ := hrun
  refine ⟨s, hrun.mono fun _ _ _ h => h.2, ?_⟩
  exact (lookups_eq_walk two_sections hrun).1 _ (List.mem_cons_self ..) _ rfl

end Image
end XR806

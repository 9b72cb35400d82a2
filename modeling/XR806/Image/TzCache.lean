import Mathlib.Data.List.Dedup
import Mathlib.Data.List.Perm.Subperm
import XR806.Image.SecCache

/-!
# XR806.Image.TzCache

The section addresses of a boot with TrustZone (`tzboot_image_get_addr`). The first lookup on a slot
reads the secure chain into the cache, from the bootloader on. A section that is not in the cache
is looked for along the non-secure chain, which starts behind the bootloader as well.

That walk starts anew for every section it is asked for, and puts what it comes by into the cache
again (`absent_twice`); and it reads the first header from the flash of the bootloader. A cache in
which nothing of it is left yet, and a slot on the same flash, is what a run has to keep to
(`tz_lookups_ok`). Every request is granted here.
-/

namespace XR806
namespace Image

open Nor Flash

/-! ## The code -/

section

variable (board : Board)

/-- The loop `while (tz_next_addr != IMAGE_INVALID_ADDR)`; `false` is a failure. -/
def readSecure (seq : Nat) : Nat → Nat → Nat → Nat → Img Bool
  | 0, _, _, _ => Flow.hang
  | fuel + 1, flash, addr, tzNextAddr =>
    if tzNextAddr = imageInvalidAddr then pure true
    else do
      let img ← Flow.get
      let secNum := (img.secAddr seq).length
      let attr ← Flow.lift (if secNum ≠ 0 then flashRead board flash (u32 (addr + 28)) 4
        else pure (some []))
      match attr with
      | none => pure false
      | some attr =>
        if secNum ≠ 0 ∧ field attr 0 4 &&& imageAttrFlagSecBin = 0 then pure true
        else do
          let ok ← Flow.lift (if secNum % imageExpandSize = 0 then
            allocReq ((secNum + imageExpandSize) * 8) else pure true)
          if !ok then pure false
          else do
            match ← Flow.lift (flashRead board flash (u32 (addr + 60)) 4) with
            | none => pure false
            | some nextAddr => do
              match ← Flow.lift (flashRead board flash (u32 (addr + 36)) 4) with
              | none => pure false
              | some shId => do
                Flow.modify fun img => img.push seq ⟨field shId 0 4, addr⟩
                readSecure seq fuel (img.iop.flash seq)
                  (img.iop.secAddr seq (field nextAddr 0 4)) (field nextAddr 0 4)

/-- The part of `tzboot_image_get_addr` for an empty cache: the answer, if there is one already. -/
def searchSecure (fuel seq id : Nat) : Img (Option Nat) := do
  let img ← Flow.get
  if (img.secAddr seq).length = 0 then do
    let ok ← readSecure board seq fuel img.iop.blFlash img.iop.blAddr img.iop.blAddr
    if !ok then pure (some imageInvalidAddr)
    else do
      let img ← Flow.get
      pure (((img.secAddr seq).find? (·.id = id)).map (·.addr))
  else pure none

/-- The walk behind the bootloader's header. -/
def searchNonSecure (fuel seq id : Nat) : Img Nat := do
  let img ← Flow.get
  match ← Flow.lift (flashRead board img.iop.blFlash (u32 (img.iop.blAddr + 32)) 4) with
  | none => pure imageInvalidAddr
  | some nextAddr =>
    -- `flash` is still the bootloader's
    searchSection board seq id fuel img.iop.blFlash
      (img.iop.secAddr seq (field nextAddr 0 4)) (field nextAddr 0 4)

/-- `tzboot_image_get_addr`. -/
def tzbootImageGetAddr (fuel seq id : Nat) : Img Nat :=
  if seq ≥ imageSeqNum then pure imageInvalidAddr
  else do
    let img ← Flow.get
    match (img.secAddr seq).find? (·.id = id) with
    | some entry => pure entry.addr
    | none => do
      match ← searchSecure board fuel seq id with
      | some addr => pure addr
      | none => searchNonSecure board fuel seq id

end

/-! ## The chains -/

/-- The secure sections from the header at `addr` of `flash` on, each with its flash. The
bootloader, which is the first, is not asked for its attribute. -/
inductive SecureSections (board : Board) (c : Cells) (iop : OtaParam) (seq : Nat) :
    Bool → Nat → Nat → Nat → List (Nat × SecAddr) → Prop where
  | last (first : Bool) (flash addr : Nat) :
      SecureSections board c iop seq first flash addr imageInvalidAddr []
  | nonSecure {flash addr tzNextAddr : Nat} {attr : List Byte}
      (hnext : tzNextAddr ≠ imageInvalidAddr)
      (hattr : ret (flashRead board flash (u32 (addr + 28)) 4) c = some attr)
      (hflag : field attr 0 4 &&& imageAttrFlagSecBin = 0) :
      SecureSections board c iop seq false flash addr tzNextAddr []
  | more {first : Bool} {flash addr tzNextAddr : Nat} {attr nextAddr shId : List Byte}
      {rest : List (Nat × SecAddr)} (hnext : tzNextAddr ≠ imageInvalidAddr)
      (hattr : first = false → ret (flashRead board flash (u32 (addr + 28)) 4) c = some attr)
      (hflag : first = false → field attr 0 4 &&& imageAttrFlagSecBin ≠ 0)
      (hread : ret (flashRead board flash (u32 (addr + 60)) 4) c = some nextAddr)
      (hid : ret (flashRead board flash (u32 (addr + 36)) 4) c = some shId)
      (hrest : SecureSections board c iop seq false (iop.flash seq)
        (iop.secAddr seq (field nextAddr 0 4)) (field nextAddr 0 4) rest) :
      SecureSections board c iop seq first flash addr tzNextAddr
        ((flash, ⟨field shId 0 4, addr⟩) :: rest)

/-- Where a section is: its flash and its address. -/
def place (x : Nat × SecAddr) : Nat × Nat := (x.1, x.2.addr)

section

variable {board : Board} {c : Cells} {iop : OtaParam} {seq : Nat} {first : Bool}
  {flash addr tzNextAddr nextAddr : Nat}

/-- A section of a chain is the start of the rest of the chain. -/
theorem SecureSections.at_place {p rest : List (Nat × SecAddr)} {x : Nat × SecAddr}
    (h : SecureSections board c iop seq first flash addr tzNextAddr (p ++ x :: rest)) :
    ∃ first' nextAddr', nextAddr' ≠ imageInvalidAddr ∧
      SecureSections board c iop seq first' x.1 x.2.addr nextAddr' (x :: rest) := by
  induction p generalizing first flash addr tzNextAddr with
  | nil =>
    cases h with
    | more hnext hattr hflag hread hid hrest =>
      exact ⟨first, tzNextAddr, hnext, .more hnext hattr hflag hread hid hrest⟩
  | cons y p ih =>
    cases h with
    | more hnext hattr hflag hread hid hrest => exact ih hrest

theorem SecureSections.unique {l l' : List (Nat × SecAddr)}
    (h : SecureSections board c iop seq first flash addr tzNextAddr l)
    (h' : SecureSections board c iop seq first flash addr tzNextAddr l') : l = l' := by
  induction h generalizing l' with
  | last =>
    cases h' with
    | last => rfl
    | nonSecure hnext => exact absurd rfl hnext
    | more hnext => exact absurd rfl hnext
  | nonSecure hnext hattr hflag =>
    cases h' with
    | last => rfl
    | nonSecure => rfl
    | more _ hattr' hflag' =>
      rw [hattr' rfl] at hattr
      cases hattr
      exact absurd hflag (hflag' rfl)
  | more hnext hattr hflag hread hid _ ih =>
    cases h' with
    | last => exact absurd rfl hnext
    | nonSecure _ hattr' hflag' =>
      rw [hattr rfl] at hattr'
      cases hattr'
      exact absurd hflag' (hflag rfl)
    | more _ _ _ hread' hid' hrest' =>
      rw [hread] at hread'
      rw [hid] at hid'
      cases hread'
      cases hid'
      rw [ih hrest']

/-- The place of a section says what is behind it. -/
theorem SecureSections.tail_eq {first' : Bool} {tzNextAddr' : Nat} {x y : Nat × SecAddr}
    {l l' : List (Nat × SecAddr)}
    (h : SecureSections board c iop seq first flash addr tzNextAddr (x :: l))
    (h' : SecureSections board c iop seq first' flash addr tzNextAddr' (y :: l')) : l = l' := by
  cases h with
  | more _ _ _ hread _ hrest =>
    cases h' with
    | more _ _ _ hread' _ hrest' =>
      rw [hread] at hread'
      cases hread'
      exact hrest.unique hrest'

/-- A chain that ends comes by every place once. -/
theorem SecureSections.nodup {l : List (Nat × SecAddr)}
    (h : SecureSections board c iop seq first flash addr tzNextAddr l) : (l.map place).Nodup := by
  induction h with
  | last => exact List.nodup_nil
  | nonSecure => exact List.nodup_nil
  | more hnext hattr hflag hread hid hrest ih =>
    refine List.nodup_cons.mpr ⟨?_, ih⟩
    intro hmem
    obtain ⟨⟨flash', y⟩, hy, hplace⟩ := List.mem_map.mp hmem
    obtain ⟨rfl, rfl⟩ := Prod.mk.inj hplace
    obtain ⟨p, rest', hsplit⟩ := List.append_of_mem hy
    rw [hsplit] at hrest
    obtain ⟨_, _, _, hagain⟩ := hrest.at_place
    have htail := SecureSections.tail_eq (.more hnext hattr hflag hread hid hrest) hagain
    have hlength := congrArg List.length htail
    simp only [List.length_append, List.length_cons] at hlength
    omega

theorem Sections.at_place {p rest : List SecAddr} {x : SecAddr}
    (h : Sections board c iop seq (iop.flash seq) addr nextAddr (p ++ x :: rest)) :
    ∃ nextAddr', nextAddr' ≠ imageInvalidAddr ∧
      Sections board c iop seq (iop.flash seq) x.addr nextAddr' (x :: rest) := by
  induction p generalizing addr nextAddr with
  | nil =>
    cases h with
    | more hnext hread hrest => exact ⟨nextAddr, hnext, .more hnext hread hrest⟩
  | cons y p ih =>
    cases h with
    | more hnext hread hrest => exact ih hrest

theorem Sections.unique {l l' : List SecAddr}
    (h : Sections board c iop seq flash addr nextAddr l)
    (h' : Sections board c iop seq flash addr nextAddr l') : l = l' := by
  induction h generalizing l' with
  | last =>
    cases h' with
    | last => rfl
    | lost hnext => exact absurd rfl hnext
    | more hnext => exact absurd rfl hnext
  | lost hnext hread =>
    cases h' with
    | last => exact absurd rfl hnext
    | lost => rfl
    | more _ hread' =>
      rw [hread] at hread'
      cases hread'
  | more hnext hread _ ih =>
    cases h' with
    | last => exact absurd rfl hnext
    | lost _ hread' =>
      rw [hread] at hread'
      cases hread'
    | more _ hread' hrest' =>
      rw [hread] at hread'
      cases hread'
      rw [ih hrest']

theorem Sections.tail_eq {nextAddr' : Nat} {x y : SecAddr} {l l' : List SecAddr}
    (h : Sections board c iop seq flash addr nextAddr (x :: l))
    (h' : Sections board c iop seq flash addr nextAddr' (y :: l')) : l = l' := by
  cases h with
  | more _ hread hrest =>
    cases h' with
    | more _ hread' hrest' =>
      rw [hread] at hread'
      cases hread'
      exact hrest.unique hrest'

theorem Sections.nodup {l : List SecAddr}
    (h : Sections board c iop seq (iop.flash seq) addr nextAddr l) : (l.map (·.addr)).Nodup := by
  induction l generalizing addr nextAddr with
  | nil => exact List.nodup_nil
  | cons x l ih =>
    cases h with
    | more hnext hread hrest =>
      refine List.nodup_cons.mpr ⟨?_, ih hrest⟩
      intro hmem
      obtain ⟨y, hy, hplace⟩ := List.mem_map.mp hmem
      obtain ⟨p, rest', hsplit⟩ := List.append_of_mem hy
      rw [hsplit] at hrest
      obtain ⟨_, _, hagain⟩ := hrest.at_place
      rw [hplace] at hagain
      have hlength := congrArg List.length (Sections.tail_eq (.more hnext hread hrest) hagain)
      simp only [List.length_append, List.length_cons] at hlength
      omega

end

/-! ## What the walks leave in the cache -/

/-- The sections are put into the cache, in order. -/
def ImagePriv.pushAll (s : ImagePriv) (seq : Nat) (l : List SecAddr) : ImagePriv :=
  l.foldl (fun s e => s.push seq e) s

section

variable {seq : Nat} {s : ImagePriv} {l : List SecAddr}

@[simp] theorem pushAll_nil : s.pushAll seq [] = s := rfl

@[simp] theorem pushAll_cons (e : SecAddr) :
    s.pushAll seq (e :: l) = (s.push seq e).pushAll seq l := rfl

@[simp] theorem pushAll_iop : (s.pushAll seq l).iop = s.iop := by
  induction l generalizing s with
  | nil => rfl
  | cons e l ih => exact ih

theorem pushAll_other {i : Nat} (hi : i ≠ seq) : (s.pushAll seq l).secAddr i = s.secAddr i := by
  induction l generalizing s with
  | nil => rfl
  | cons e l ih => exact ih.trans (if_neg hi)

theorem pushAll_self (s : ImagePriv) (seq : Nat) (l : List SecAddr)
    (h : (s.secAddr seq).length + l.length < 2 ^ 8) :
    (s.pushAll seq l).secAddr seq = s.secAddr seq ++ l := by
  induction l generalizing s with
  | nil => simp
  | cons e l ih =>
    have hpush : (s.push seq e).secAddr seq = s.secAddr seq ++ [e] := by
      refine (if_pos rfl).trans (if_neg ?_)
      rw [List.length_cons] at h
      omega
    rw [pushAll_cons, ih, hpush, List.append_assoc, List.singleton_append]
    rw [hpush, List.length_append, List.length_singleton]
    rw [List.length_cons] at h
    omega

/-- With the section that would be entry 256 the cache is empty. -/
theorem pushAll_full (h : (s.secAddr seq).length + l.length = 2 ^ 8) (hl : l ≠ []) :
    (s.pushAll seq l).secAddr seq = [] := by
  obtain ⟨l', e, rfl⟩ := List.eq_nil_or_concat l |>.resolve_left hl
  rw [List.length_concat] at h
  rw [List.concat_eq_append, ImagePriv.pushAll, List.foldl_append]
  refine (if_pos rfl).trans (if_pos ?_)
  have hself := pushAll_self s seq l' (by omega)
  rw [ImagePriv.pushAll] at hself
  rw [hself, List.length_append]
  omega

end

/-! ## The walks -/

section

variable {board : Board} {c : Cells} {seq id fuel flash addr nextAddr : Nat} {s : ImagePriv}

theorem ret_expand (n : Nat) :
    ret (if n % imageExpandSize = 0 then allocReq ((n + imageExpandSize) * 8) else pure true) c =
      true := by
  split <;> rfl

theorem quiet_expand (n : Nat) :
    Flow.Quiet (Flow.lift (if n % imageExpandSize = 0 then allocReq ((n + imageExpandSize) * 8)
      else pure true) : Img Bool) :=
  Flow.quiet_lift ((quiet_allocReq _).ite (quiet_pure _))

theorem quiet_readSecure (flash addr nextAddr : Nat) :
    Flow.Quiet (readSecure board seq fuel flash addr nextAddr) := by
  induction fuel generalizing flash addr nextAddr with
  | zero => exact Flow.quiet_hang
  | succ fuel ih =>
    refine (Flow.quiet_pure _).ite (Flow.quiet_get.bind ?_)
    intro img
    refine (Flow.quiet_lift ((quiet_flashRead ..).ite (quiet_pure _))).bind ?_
    intro attr
    cases attr with
    | none => exact Flow.quiet_pure _
    | some attr =>
      refine (Flow.quiet_pure _).ite ((quiet_expand _).bind ?_)
      intro ok
      refine (Flow.quiet_pure _).ite ((Flow.quiet_lift (quiet_flashRead ..)).bind ?_)
      intro next
      cases next with
      | none => exact Flow.quiet_pure _
      | some next =>
        refine (Flow.quiet_lift (quiet_flashRead ..)).bind ?_
        intro shId
        cases shId with
        | none => exact Flow.quiet_pure _
        | some shId =>
          refine (Flow.quiet_modify _).bind ?_
          intro _
          exact ih ..

theorem quiet_searchSecure : Flow.Quiet (searchSecure board fuel seq id) := by
  refine Flow.quiet_get.bind ?_
  intro img
  refine Flow.Quiet.ite ((quiet_readSecure ..).bind ?_) (Flow.quiet_pure _)
  intro ok
  exact (Flow.quiet_pure _).ite (Flow.quiet_get.bind fun _ => Flow.quiet_pure _)

/-- The secure chain is put into the cache. -/
theorem readSecure_spec {first : Bool} {l : List (Nat × SecAddr)}
    (hl : SecureSections board c s.iop seq first flash addr nextAddr l)
    (hfirst : (s.secAddr seq).length = 0 ↔ first = true)
    (hlen : (s.secAddr seq).length + l.length < 2 ^ 8) (hfuel : l.length < fuel) :
    Flow.Returns (readSecure board seq fuel flash addr nextAddr) s c true
      (s.pushAll seq (l.map Prod.snd)) := by
  induction fuel generalizing s first flash addr nextAddr l with
  | zero => omega
  | succ fuel ih =>
    have hquiet : Flow.Quiet (Flow.lift (if (s.secAddr seq).length ≠ 0 then
        flashRead board flash (u32 (addr + 28)) 4 else pure (some [])) : Img _) :=
      Flow.quiet_lift ((quiet_flashRead ..).ite (quiet_pure _))
    rw [readSecure]
    cases hl with
    | last =>
      rw [if_pos rfl]
      exact Flow.returns_pure.mpr ⟨rfl, rfl⟩
    | @nonSecure _ _ _ attr hnext hattr hflag =>
      have hne : (s.secAddr seq).length ≠ 0 := mt hfirst.mp Bool.false_ne_true
      rw [if_neg hnext]
      refine Flow.quiet_get.returns_bind.mpr ⟨s, s, Flow.returns_get.mpr ⟨rfl, rfl⟩, ?_⟩
      refine hquiet.returns_bind.mpr ⟨some attr, s, Flow.returns_lift.mpr ⟨?_, rfl⟩, ?_⟩
      · rw [if_pos hne]
        exact hattr
      · simp only
        rw [if_pos ⟨hne, hflag⟩]
        exact Flow.returns_pure.mpr ⟨rfl, rfl⟩
    | @more _ _ _ _ attr next shId rest hnext hattr hflag hread hid hrest =>
      rw [if_neg hnext]
      refine Flow.quiet_get.returns_bind.mpr ⟨s, s, Flow.returns_get.mpr ⟨rfl, rfl⟩, ?_⟩
      have hgo : ∃ attr', ret (if (s.secAddr seq).length ≠ 0 then
            flashRead board flash (u32 (addr + 28)) 4 else pure (some [])) c = some attr' ∧
          ¬((s.secAddr seq).length ≠ 0 ∧ field attr' 0 4 &&& imageAttrFlagSecBin = 0) := by
        cases first with
        | true => exact ⟨[], by rw [if_neg (not_not.mpr (hfirst.mpr rfl))]; rfl,
            fun h => h.1 (hfirst.mpr rfl)⟩
        | false =>
          have hne : (s.secAddr seq).length ≠ 0 := mt hfirst.mp Bool.false_ne_true
          exact ⟨attr, by rw [if_pos hne]; exact hattr rfl, fun h => hflag rfl h.2⟩
      obtain ⟨attr', hattr', hstay⟩ := hgo
      refine hquiet.returns_bind.mpr ⟨some attr', s, Flow.returns_lift.mpr ⟨hattr', rfl⟩, ?_⟩
      simp only
      rw [if_neg hstay]
      refine (quiet_expand _).returns_bind.mpr
        ⟨true, s, Flow.returns_lift.mpr ⟨ret_expand _, rfl⟩, ?_⟩
      refine (Flow.quiet_lift (quiet_flashRead ..)).returns_bind.mpr
        ⟨some next, s, Flow.returns_lift.mpr ⟨hread, rfl⟩, ?_⟩
      refine (Flow.quiet_lift (quiet_flashRead ..)).returns_bind.mpr
        ⟨some shId, s, Flow.returns_lift.mpr ⟨hid, rfl⟩, ?_⟩
      refine (Flow.quiet_modify _).returns_bind.mpr
        ⟨(), s.push seq ⟨field shId 0 4, addr⟩, Flow.returns_modify.mpr rfl, ?_⟩
      rw [List.length_cons] at hlen hfuel
      have hpush : ((s.push seq ⟨field shId 0 4, addr⟩).secAddr seq).length =
          (s.secAddr seq).length + 1 := by
        have hself := pushAll_self s seq [⟨field shId 0 4, addr⟩] (by
          rw [List.length_singleton]
          omega)
        rw [pushAll_cons, pushAll_nil] at hself
        rw [hself, List.length_append, List.length_singleton]
      refine ih hrest ?_ (by omega) (by omega)
      rw [hpush]
      simp

/-- A walk without refusals, and what it leaves in the cache. -/
theorem searchSection_spec {l : List SecAddr}
    (hl : Sections board c s.iop seq flash addr nextAddr l) (hfuel : l.length < fuel) :
    Flow.Returns (searchSection board seq id fuel flash addr nextAddr) s c (firstAddr l id)
      (s.pushAll seq (l.take (visits id l))) := by
  induction fuel generalizing s flash addr nextAddr l with
  | zero => omega
  | succ fuel ih =>
    rw [searchSection]
    cases hl with
    | last =>
      rw [if_pos rfl]
      exact Flow.returns_pure.mpr ⟨rfl, rfl⟩
    | lost hnext hread =>
      rw [if_neg hnext]
      refine Flow.quiet_get.returns_bind.mpr ⟨s, s, Flow.returns_get.mpr ⟨rfl, rfl⟩, ?_⟩
      refine (quiet_expand _).returns_bind.mpr
        ⟨true, s, Flow.returns_lift.mpr ⟨ret_expand _, rfl⟩, ?_⟩
      refine (Flow.quiet_lift (quiet_flashRead ..)).returns_bind.mpr
        ⟨none, s, Flow.returns_lift.mpr ⟨hread, rfl⟩, ?_⟩
      exact Flow.returns_pure.mpr ⟨rfl, rfl⟩
    | @more _ _ _ bytes rest hnext hread hrest =>
      rw [if_neg hnext]
      refine Flow.quiet_get.returns_bind.mpr ⟨s, s, Flow.returns_get.mpr ⟨rfl, rfl⟩, ?_⟩
      refine (quiet_expand _).returns_bind.mpr
        ⟨true, s, Flow.returns_lift.mpr ⟨ret_expand _, rfl⟩, ?_⟩
      refine (Flow.quiet_lift (quiet_flashRead ..)).returns_bind.mpr
        ⟨some bytes, s, Flow.returns_lift.mpr ⟨hread, rfl⟩, ?_⟩
      refine (Flow.quiet_modify _).returns_bind.mpr
        ⟨(), s.push seq ⟨field bytes 4 4, addr⟩, Flow.returns_modify.mpr rfl, ?_⟩
      by_cases hid : id = field bytes 4 4
      · rw [if_pos hid, firstAddr_cons_self hid.symm, visits, if_pos hid.symm]
        exact Flow.returns_pure.mpr ⟨rfl, rfl⟩
      · rw [if_neg hid, firstAddr_cons_ne (Ne.symm hid), visits, if_neg (Ne.symm hid),
          Nat.add_comm, List.take_succ_cons, pushAll_cons]
        rw [List.length_cons] at hfuel
        exact ih hrest (by omega)

end

/-! ## Lookups -/

/-- The chains of a slot; `blNext` is where the bootloader says the non-secure one starts. -/
structure Chains where
  secure : List (Nat × SecAddr)
  blNext : Nat
  nonSecure : List SecAddr

structure ChainsOf (board : Board) (c : Cells) (iop : OtaParam) (seq : Nat) (k : Chains) : Prop where
  secure : SecureSections board c iop seq true iop.blFlash iop.blAddr iop.blAddr k.secure
  header : ∃ bytes, ret (flashRead board iop.blFlash (u32 (iop.blAddr + 32)) 4) c = some bytes ∧
    field bytes 0 4 = k.blNext
  nonSecure : Sections board c iop seq (iop.flash seq) (iop.secAddr seq k.blNext) k.blNext
    k.nonSecure

namespace Chains

variable (k : Chains)

/-- The sections in the order they are looked for. -/
def entries : List SecAddr := k.secure.map Prod.snd ++ k.nonSecure

/-- The non-secure sections with their flash. -/
def onFlash (flash : Nat) (l : List SecAddr) : List (Nat × SecAddr) := l.map fun e => (flash, e)

/-- Where the sections of the two chains are. -/
def places (flash : Nat) : List (Nat × Nat) :=
  (k.secure ++ onFlash flash k.nonSecure).map place

end Chains

/-- Every section is in the cache at most once, and nothing else is. -/
def HoldsOnce (flash : Nat) (k : Chains) (cache : List SecAddr) : Prop :=
  ∃ held : List (Nat × SecAddr), cache = held.map Prod.snd ∧ (held.map place).Nodup ∧
    ∀ x ∈ held, place x ∈ k.places flash

/-- The cache is empty, or it has the secure chain and the first sections of the other one. -/
def Held (flash : Nat) (k : Chains) (cache : List SecAddr) : Prop :=
  cache = [] ∨ ∃ j, cache = k.secure.map Prod.snd ++ k.nonSecure.take j ∧ cache.length < 2 ^ 8 ∧
    ∀ e ∈ k.nonSecure.take j, (flash, e.addr) ∉ k.secure.map place

/-- A lookup on slot `seq` that the cache answers, or the first one that does not find its section
in the secure chain: the non-secure chain is on the flash of the bootloader, what is walked of it
fits into the cache, and none of it is in the secure chain. -/
def FirstWalk (k : Chains) (s : ImagePriv) (seq id : Nat) : Prop :=
  k.secure.length < 2 ^ 8 ∧
    ((∃ e ∈ k.secure.map Prod.snd ++ s.secAddr seq, e.id = id) ∨
      (s.secAddr seq).length ≤ k.secure.length ∧
      (k.blNext = imageInvalidAddr ∨ s.iop.flash seq = s.iop.blFlash) ∧
      k.secure.length + visits id k.nonSecure ≤ 2 ^ 8 ∧
      ∀ e ∈ k.nonSecure.take (visits id k.nonSecure),
        (s.iop.flash seq, e.addr) ∉ k.secure.map place)

section

variable {board : Board} {c : Cells} {seq id fuel flash : Nat} {s s' : ImagePriv} {k : Chains}
  {cache : List SecAddr}

theorem visits_le_length (l : List SecAddr) : visits id l ≤ l.length := by
  induction l with
  | nil => exact Nat.le_refl _
  | cons e l ih =>
    rw [visits, List.length_cons]
    split <;> omega

/-- A cache that holds every section once is not longer than there are sections. -/
theorem HoldsOnce.length_le (h : HoldsOnce flash k cache) :
    cache.length ≤ (k.places flash).dedup.length := by
  obtain ⟨held, rfl, hnodup, hmem⟩ := h
  have hsub : held.map place ⊆ (k.places flash).dedup := by
    intro x hx
    obtain ⟨y, hy, rfl⟩ := List.mem_map.mp hx
    exact List.mem_dedup.mpr (hmem y hy)
  have hle := (List.subperm_of_subset hnodup hsub).length_le
  rwa [List.length_map] at hle ⊢

theorem Held.once (hk : ChainsOf board c s.iop seq k) (h : Held (s.iop.flash seq) k cache) :
    HoldsOnce (s.iop.flash seq) k cache := by
  obtain rfl | ⟨j, rfl, -, hdisjoint⟩ := h
  · exact ⟨[], rfl, List.nodup_nil, nofun⟩
  · refine ⟨k.secure ++ Chains.onFlash (s.iop.flash seq) (k.nonSecure.take j), ?_, ?_, ?_⟩
    · simp [Chains.onFlash]
    · have hflash : (Chains.onFlash (s.iop.flash seq) (k.nonSecure.take j)).map place =
          (k.nonSecure.take j).map fun e => (s.iop.flash seq, e.addr) := by
        rw [Chains.onFlash, List.map_map]
        rfl
      rw [List.map_append, hflash, List.nodup_append]
      refine ⟨hk.secure.nodup, ?_, ?_⟩
      · have haddr := hk.nonSecure.nodup.sublist ((List.take_sublist j _).map _)
        have hpair := List.Nodup.map (Prod.mk_right_injective (s.iop.flash seq)) haddr
        rwa [List.map_map] at hpair
      · rintro x hx y hy rfl
        obtain ⟨e, he, rfl⟩ := List.mem_map.mp hy
        exact hdisjoint e he hx
    · intro x hx
      refine List.mem_map_of_mem ?_
      rw [List.mem_append] at hx ⊢
      refine hx.imp_right ?_
      intro hx
      obtain ⟨e, he, rfl⟩ := List.mem_map.mp hx
      exact List.mem_map_of_mem (List.mem_of_mem_take he)

/-- The walk behind the bootloader's header, when the cache holds the secure chain. -/
theorem searchNonSecure_spec (hk : ChainsOf board c s.iop seq k)
    (hcache : s.secAddr seq = k.secure.map Prod.snd) (hlen : k.secure.length < 2 ^ 8)
    (hflash : k.blNext = imageInvalidAddr ∨ s.iop.flash seq = s.iop.blFlash)
    (hvisits : k.secure.length + visits id k.nonSecure ≤ 2 ^ 8)
    (hdisjoint : ∀ e ∈ k.nonSecure.take (visits id k.nonSecure),
      (s.iop.flash seq, e.addr) ∉ k.secure.map place) :
    ∃ s', (∀ fuel, k.nonSecure.length < fuel → Flow.Returns (searchNonSecure board fuel seq id) s c
        (firstAddr k.nonSecure id) s') ∧
      s'.iop = s.iop ∧ (∀ i, i ≠ seq → s'.secAddr i = s.secAddr i) ∧
      Held (s.iop.flash seq) k (s'.secAddr seq) := by
  obtain ⟨bytes, hread, hnext⟩ := hk.header
  have hl : Sections board c s.iop seq s.iop.blFlash (s.iop.secAddr seq k.blNext) k.blNext
      k.nonSecure := by
    rcases hflash with hlast | hflash
    · have hl := hk.nonSecure
      rw [hlast] at hl ⊢
      rw [hl.unique (.last _ _)]
      exact .last _ _
    · rw [← hflash]
      exact hk.nonSecure
  refine ⟨s.pushAll seq (k.nonSecure.take (visits id k.nonSecure)), ?_, pushAll_iop,
    fun i hi => pushAll_other hi, ?_⟩
  · intro fuel hfuel
    refine Flow.quiet_get.returns_bind.mpr ⟨s, s, Flow.returns_get.mpr ⟨rfl, rfl⟩, ?_⟩
    refine (Flow.quiet_lift (quiet_flashRead ..)).returns_bind.mpr
      ⟨some bytes, s, Flow.returns_lift.mpr ⟨hread, rfl⟩, ?_⟩
    simp only [hnext]
    exact searchSection_spec hl hfuel
  · have htake : (k.nonSecure.take (visits id k.nonSecure)).length = visits id k.nonSecure := by
      rw [List.length_take, Nat.min_eq_left (visits_le_length _)]
    have hcount : (s.secAddr seq).length = k.secure.length := by rw [hcache, List.length_map]
    by_cases hfull : k.secure.length + visits id k.nonSecure = 2 ^ 8
    · refine .inl (pushAll_full (by omega) ?_)
      intro hnil
      rw [hnil, List.length_nil] at htake
      omega
    · have hself := pushAll_self s seq (k.nonSecure.take (visits id k.nonSecure)) (by omega)
      rw [hself, hcache]
      refine .inr ⟨visits id k.nonSecure, rfl, ?_, hdisjoint⟩
      rw [List.length_append, List.length_map]
      omega

/-- The first lookup on a slot reads the secure chain. -/
theorem searchSecure_spec (hk : ChainsOf board c s.iop seq k) (hlen : k.secure.length < 2 ^ 8)
    (hcache : s.secAddr seq = [] ∨ s.secAddr seq = k.secure.map Prod.snd ∧
      (s.secAddr seq).find? (·.id = id) = none) :
    ∃ s₁, (∀ fuel, k.secure.length < fuel → Flow.Returns (searchSecure board fuel seq id) s c
        (((k.secure.map Prod.snd).find? (·.id = id)).map (·.addr)) s₁) ∧
      s₁.iop = s.iop ∧ (∀ i, i ≠ seq → s₁.secAddr i = s.secAddr i) ∧
      s₁.secAddr seq = k.secure.map Prod.snd := by
  by_cases hempty : s.secAddr seq = []
  · have hzero : (s.secAddr seq).length = 0 := by rw [hempty, List.length_nil]
    have hself := pushAll_self s seq (k.secure.map Prod.snd) (by
      rw [List.length_map]
      omega)
    rw [hempty, List.nil_append] at hself
    refine ⟨s.pushAll seq (k.secure.map Prod.snd), ?_, pushAll_iop, fun i hi => pushAll_other hi,
      hself⟩
    intro fuel hfuel
    refine Flow.quiet_get.returns_bind.mpr ⟨s, s, Flow.returns_get.mpr ⟨rfl, rfl⟩, ?_⟩
    rw [if_pos hzero]
    have hsecure := readSecure_spec hk.secure (by simp [hzero]) (by omega) hfuel
    rw [Flow.returns_bind]
    refine ⟨true, _, hsecure, ?_⟩
    refine Flow.quiet_get.returns_bind.mpr ⟨_, _, Flow.returns_get.mpr ⟨rfl, rfl⟩, ?_⟩
    exact Flow.returns_pure.mpr ⟨by rw [hself], rfl⟩
  · obtain ⟨hcache, hfind⟩ := hcache.resolve_left hempty
    refine ⟨s, ?_, rfl, fun _ _ => rfl, hcache⟩
    intro fuel _
    refine Flow.quiet_get.returns_bind.mpr ⟨s, s, Flow.returns_get.mpr ⟨rfl, rfl⟩, ?_⟩
    rw [if_neg (mt List.length_eq_zero_iff.mp hempty), ← hcache, hfind]
    exact Flow.returns_pure.mpr ⟨rfl, rfl⟩

/-- One lookup on a slot: the answer is that of a search along both chains. -/
theorem tzbootImageGetAddr_spec (hseq : seq < imageSeqNum) (hk : ChainsOf board c s.iop seq k)
    (hheld : Held (s.iop.flash seq) k (s.secAddr seq)) (hwalk : FirstWalk k s seq id) :
    ∃ s', (∀ fuel, k.secure.length + k.nonSecure.length < fuel →
        Flow.Returns (tzbootImageGetAddr board fuel seq id) s c (firstAddr k.entries id) s') ∧
      s'.iop = s.iop ∧ (∀ i, i ≠ seq → s'.secAddr i = s.secAddr i) ∧
      Held (s.iop.flash seq) k (s'.secAddr seq) := by
  have hstart : ∀ {fuel a s'}, Flow.Returns (match (s.secAddr seq).find? (·.id = id) with
      | some entry => pure entry.addr
      | none => do
        match ← searchSecure board fuel seq id with
        | some addr => pure addr
        | none => searchNonSecure board fuel seq id) s c a s' →
      Flow.Returns (tzbootImageGetAddr board fuel seq id) s c a s' := by
    intro fuel a s' h
    rw [tzbootImageGetAddr, if_neg (by omega)]
    exact Flow.quiet_get.returns_bind.mpr ⟨s, s, Flow.returns_get.mpr ⟨rfl, rfl⟩, h⟩
  cases hfind : (s.secAddr seq).find? (·.id = id) with
  | some e =>
    refine ⟨s, fun fuel _ => hstart ?_, rfl, fun _ _ => rfl, hheld⟩
    rw [hfind]
    refine Flow.returns_pure.mpr ⟨?_, rfl⟩
    obtain hnil | ⟨j, hcache, -⟩ := hheld
    · rw [hnil] at hfind
      cases hfind
    · rw [Chains.entries, ← List.take_append_drop j k.nonSecure, ← List.append_assoc, ← hcache,
        firstAddr_append_some hfind]
  | none =>
    obtain ⟨hlen, hwalk⟩ := hwalk
    have habsent : ∀ e ∈ s.secAddr seq, e.id ≠ id := by
      intro e he
      simpa using List.find?_eq_none.mp hfind e he
    have hcache : s.secAddr seq = [] ∨ s.secAddr seq = k.secure.map Prod.snd ∧
        (s.secAddr seq).find? (·.id = id) = none := by
      refine hheld.imp_right ?_
      rintro ⟨j, hcache, -⟩
      refine ⟨?_, hfind⟩
      obtain ⟨e, he, hid⟩ | ⟨hle, -⟩ := hwalk
      · refine absurd hid (habsent e ?_)
        rw [hcache] at he ⊢
        rw [List.mem_append] at he ⊢
        exact he.elim .inl List.mem_append.mp
      · rw [hcache, List.length_append, List.length_map] at hle
        have hnil : k.nonSecure.take j = [] := List.length_eq_zero_iff.mp (by omega)
        rw [hcache, hnil, List.append_nil]
    obtain ⟨s₁, hrun, hiop, hothers, hself⟩ := searchSecure_spec hk hlen hcache
    cases hsecure : (k.secure.map Prod.snd).find? (·.id = id) with
    | some e =>
      refine ⟨s₁, fun fuel hfuel => hstart ?_, hiop, hothers, ?_⟩
      · rw [hfind]
        refine quiet_searchSecure.returns_bind.mpr ⟨_, s₁, hrun fuel (by omega), ?_⟩
        rw [hsecure, Chains.entries, firstAddr_append_some hsecure]
        exact Flow.returns_pure.mpr ⟨rfl, rfl⟩
      · refine .inr ⟨0, by simp [hself], ?_, by simp⟩
        rw [hself, List.length_map]
        exact hlen
    | none =>
      obtain ⟨e, he, hid⟩ | ⟨-, hflash, hvisits, hdisjoint⟩ := hwalk
      · refine absurd hid ?_
        rcases List.mem_append.mp he with he | he
        · simpa using List.find?_eq_none.mp hsecure e he
        · exact habsent e he
      · rw [← hiop] at hk hflash hdisjoint ⊢
        obtain ⟨s', hwalk, hiop', hothers', hheld'⟩ :=
          searchNonSecure_spec hk hself hlen hflash hvisits hdisjoint
        refine ⟨s', fun fuel hfuel => hstart ?_, hiop',
          fun i hi => (hothers' i hi).trans (hothers i hi), hheld'⟩
        rw [hfind]
        refine quiet_searchSecure.returns_bind.mpr ⟨_, s₁, hrun fuel (by omega), ?_⟩
        rw [hsecure, Chains.entries, firstAddr_append_none hsecure]
        exact hwalk fuel (by omega)

end

/-! ## Runs -/

/-- A lookup and the address it returned. -/
structure TzLookup where
  seq : Nat
  id : Nat
  addr : Nat

/-- A lookup on flash `c`; the fuel is enough. -/
def TzStep (board : Board) (c : Cells) (s : ImagePriv) (q : TzLookup) (s' : ImagePriv) : Prop :=
  ∃ bound, ∀ fuel, bound < fuel →
    Flow.Returns (tzbootImageGetAddr board fuel q.seq q.id) s c q.addr s'

/-- The first section with the id, in the secure chain or else in the other one. -/
def tzWalk (ks : Nat → Chains) (seq id : Nat) : Nat :=
  if seq < imageSeqNum then firstAddr (ks seq).entries id else imageInvalidAddr

def WalksOnce (ks : Nat → Chains) (s : ImagePriv) (q : TzLookup) : Prop :=
  q.seq < imageSeqNum → FirstWalk (ks q.seq) s q.seq q.id

section

variable {board : Board} {c : Cells} {iop : OtaParam} {ks : Nat → Chains} {s s' : ImagePriv}
  {q : TzLookup} {qs : List TzLookup}

structure TzCacheOk (iop : OtaParam) (ks : Nat → Chains) (s : ImagePriv) : Prop where
  params : s.iop = iop
  held : ∀ seq < imageSeqNum, Held (iop.flash seq) (ks seq) (s.secAddr seq)

/-- A lookup that meets the condition ends, with the right answer, and keeps the invariant. -/
theorem TzCacheOk.next (hks : ∀ seq < imageSeqNum, ChainsOf board c iop seq (ks seq))
    (hok : TzCacheOk iop ks s) (hwalk : WalksOnce ks s q) :
    ∃ s', TzStep board c s { q with addr := tzWalk ks q.seq q.id } s' ∧ TzCacheOk iop ks s' := by
  by_cases hseq : q.seq < imageSeqNum
  · have hk := hks _ hseq
    have hheld := hok.held _ hseq
    rw [← hok.params] at hk hheld
    obtain ⟨s', hrun, hiop, hothers, hheld'⟩ := tzbootImageGetAddr_spec hseq hk hheld (hwalk hseq)
    refine ⟨s', ⟨(ks q.seq).secure.length + (ks q.seq).nonSecure.length, ?_⟩,
      hiop.trans hok.params, ?_⟩
    · rw [tzWalk, if_pos hseq]
      exact hrun
    · intro seq hlt
      by_cases heq : seq = q.seq
      · rw [heq, ← hok.params]
        exact hheld'
      · rw [hothers seq heq]
        exact hok.held seq hlt
  · refine ⟨s, ⟨0, ?_⟩, hok⟩
    intro fuel _
    have hge : q.seq ≥ imageSeqNum := by omega
    have hrun : tzbootImageGetAddr board fuel q.seq q.id = pure imageInvalidAddr := if_pos hge
    rw [tzWalk, if_neg hseq]
    simp only [hrun]
    exact Flow.returns_pure.mpr ⟨rfl, rfl⟩

theorem TzCacheOk.step (hks : ∀ seq < imageSeqNum, ChainsOf board c iop seq (ks seq))
    (hok : TzCacheOk iop ks s) (hstep : Trans.Guarded (TzStep board c) (WalksOnce ks) s q s') :
    TzCacheOk iop ks s' ∧ q.addr = tzWalk ks q.seq q.id := by
  obtain ⟨hwalk, n, hrun⟩ := hstep
  obtain ⟨s₁, ⟨m, hrun₁⟩, hok₁⟩ := hok.next hks hwalk
  have hsame := (hrun (n + m + 1) (by omega)).symm.trans (hrun₁ (n + m + 1) (by omega))
  obtain ⟨haddr, rfl⟩ := Prod.mk.inj (Option.some.inj hsame)
  exact ⟨hok₁, haddr⟩

/-- In every run of lookups that meet the condition each returns the first section with its id, and
every cache holds each section of the two chains at most once. -/
theorem tz_lookups_ok (hks : ∀ seq < imageSeqNum, ChainsOf board c iop seq (ks seq))
    (hrun : Trans.Run (Trans.Guarded (TzStep board c) (WalksOnce ks)) ⟨iop, fun _ => []⟩ qs s) :
    (∀ q ∈ qs, q.addr = tzWalk ks q.seq q.id) ∧
    (∀ seq < imageSeqNum, HoldsOnce (iop.flash seq) (ks seq) (s.secAddr seq) ∧
      (s.secAddr seq).length ≤ ((ks seq).places (iop.flash seq)).dedup.length) ∧
    ∀ q, WalksOnce ks s q → ∃ addr s', TzStep board c s { q with addr } s' := by
  have h0 : TzCacheOk iop ks ⟨iop, fun _ => []⟩ := ⟨rfl, fun _ _ => .inl rfl⟩
  obtain ⟨hok, hall⟩ := hrun.labels h0 fun s q s' hs hstep => hs.step hks hstep
  refine ⟨hall, ?_, ?_⟩
  · intro seq hseq
    have hk := hks seq hseq
    have hheld := hok.held seq hseq
    rw [← hok.params] at hk hheld
    have honce := hheld.once hk
    rw [hok.params] at honce
    exact ⟨honce, honce.length_le⟩
  · intro q hwalk
    obtain ⟨s', hstep, -⟩ := hok.next hks hwalk
    exact ⟨_, s', hstep⟩

end

/-! ## A section that is not there -/

/-- The bootloader at 0, which is the secure chain, and one non-secure section at 64. -/
def tzFlash : Cells := fun dev a =>
  if dev = 0 ∧ 32 ≤ a ∧ a < 40 then
    ([64, 0, 0, 0, 0x00, 0x5A, 0xFF, 0xA5] : List Byte).getD (a - 32) blank
  else if dev = 0 ∧ 100 ≤ a then ([0x01, 0x5A, 0xFE, 0xA5] : List Byte).getD (a - 100) blank
  else blank

def tzIop : OtaParam := { twoIop with flash := fun _ => 0 }

def tzChains (seq : Nat) : Chains where
  secure := [(0, ⟨imageBootId, 0⟩)]
  blNext := 64
  nonSecure := [if seq = 0 then ⟨imageAppId, 64⟩ else ⟨0xFFFFFFFF, 4096⟩]

theorem tz_reads :
    ret (flashRead twoBoard 0 (u32 (0 + 32)) 4) tzFlash = some [64, 0, 0, 0] ∧
    ret (flashRead twoBoard 0 (u32 (0 + 36)) 4) tzFlash = some [0x00, 0x5A, 0xFF, 0xA5] ∧
    ret (flashRead twoBoard 0 (u32 (0 + 60)) 4) tzFlash = some (List.replicate 4 blank) ∧
    ret (flashRead twoBoard 0 (u32 (64 + 32)) 8) tzFlash =
      some (List.replicate 4 blank ++ [0x01, 0x5A, 0xFE, 0xA5]) ∧
    ret (flashRead twoBoard 0 (u32 (4096 + 32)) 8) tzFlash = some (List.replicate 8 blank) := by
  decide

theorem tz_chains : ∀ seq < imageSeqNum, ChainsOf twoBoard tzFlash tzIop seq (tzChains seq) := by
  intro seq hseq
  obtain ⟨hnext, hid, htz, hfirst, hsecond⟩ := tz_reads
  have hzero : (0 : Nat) ≠ imageInvalidAddr := by decide
  have hne : (64 : Nat) ≠ imageInvalidAddr := by decide
  have hsecure : SecureSections twoBoard tzFlash tzIop seq true 0 0 0 (tzChains seq).secure :=
    @SecureSections.more _ _ _ _ true 0 0 0 [] _ _ _ hzero (fun h => absurd h (by decide))
      (fun h => absurd h (by decide)) htz hid (.last _ _ _)
  refine ⟨hsecure, ⟨_, hnext, rfl⟩, ?_⟩
  have hcases : seq = 0 ∨ seq = 1 := by
    unfold imageSeqNum at hseq
    omega
  rcases hcases with rfl | rfl
  · exact .more hne hfirst (.last _ _)
  · exact .more hne hsecond (.last _ _)

def tzStart : ImagePriv := ⟨tzIop, fun _ => []⟩

/-- What the first lookup of slot 0 leaves. -/
def tzOnce : ImagePriv := tzStart.pushAll 0 [⟨imageBootId, 0⟩, ⟨imageAppId, 64⟩]

theorem tzOnce_steps :
    TzStep twoBoard tzFlash tzStart ⟨0, imageAppId, 64⟩ tzOnce ∧
    TzStep twoBoard tzFlash tzOnce ⟨0, imageBootId, 0⟩ tzOnce ∧
    TzStep twoBoard tzFlash tzStart ⟨0, 0x1234, imageInvalidAddr⟩ tzOnce ∧
    TzStep twoBoard tzFlash tzOnce ⟨0, 0x1234, imageInvalidAddr⟩
      (tzOnce.push 0 ⟨imageAppId, 64⟩) := by
  have hfuel : ∀ fuel, 2 < fuel → ∃ k, fuel = k + 3 := fun fuel h => ⟨fuel - 3, by omega⟩
  refine ⟨⟨2, ?_⟩, ⟨2, ?_⟩, ⟨2, ?_⟩, ⟨2, ?_⟩⟩ <;> intro fuel h <;> obtain ⟨k, rfl⟩ := hfuel fuel h
  · rfl
  · rfl
  · rfl
  · rfl

/-- Each of the two lookups puts the one non-secure section into the cache. -/
theorem absent_twice :
    (∀ seq < imageSeqNum, ChainsOf twoBoard tzFlash tzIop seq (tzChains seq)) ∧
    ∃ s, Trans.Run (TzStep twoBoard tzFlash) tzStart
        [⟨0, 0x1234, imageInvalidAddr⟩, ⟨0, 0x1234, imageInvalidAddr⟩] s ∧
      s.secAddr 0 = [⟨imageBootId, 0⟩, ⟨imageAppId, 64⟩, ⟨imageAppId, 64⟩] ∧
      ¬HoldsOnce 0 (tzChains 0) (s.secAddr 0) := by
  obtain ⟨-, -, hfirst, hsecond⟩ := tzOnce_steps
  refine ⟨tz_chains, _, .cons hfirst (.cons hsecond (.nil _)), by decide, ?_⟩
  intro h
  exact absurd h.length_le (by decide)

theorem tz_lookups_ok_two : Trans.Run (TzStep twoBoard tzFlash) tzStart
      [⟨0, imageAppId, 64⟩, ⟨0, imageBootId, 0⟩] tzOnce ∧
    HoldsOnce 0 (tzChains 0) (tzOnce.secAddr 0) := by
  obtain ⟨hfirst, hsecond, -, -⟩ := tzOnce_steps
  have hwalk : WalksOnce tzChains tzStart ⟨0, imageAppId, 64⟩ := by
    intro _
    exact ⟨by decide, .inr ⟨by decide, .inr rfl, by decide, by decide⟩⟩
  have hcached : WalksOnce tzChains tzOnce ⟨0, imageBootId, 0⟩ := by
    intro _
    exact ⟨by decide, .inl ⟨⟨imageBootId, 0⟩, by decide, rfl⟩⟩
  have hrun : Trans.Run (Trans.Guarded (TzStep twoBoard tzFlash) (WalksOnce tzChains)) tzStart
      [⟨0, imageAppId, 64⟩, ⟨0, imageBootId, 0⟩] tzOnce :=
    .cons ⟨hwalk, hfirst⟩ (.cons ⟨hcached, hsecond⟩ (.nil _))
  exact ⟨hrun.mono fun _ _ _ h => h.2, ((tz_lookups_ok tz_chains hrun).2.1 0 (by decide)).1⟩

end Image
end XR806

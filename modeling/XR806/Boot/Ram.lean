import XR806.Boot.Unpack
import XR806.Boot.Load

/-!
# XR806.Boot.Ram

The memory that `bl_load_bin_by_id` writes. The limit is checked against `load_addr + data_size`,
with 32-bit addresses; what is written are `body_len` bytes, with secure boot the signature behind
them, or what the decoder puts out, in at most `max_addr - load_addr` bytes.

`load_stays_below` says for which sections all of it is below the limit.
-/

namespace XR806
namespace Boot

open Nor Flash Image

/-- Bytes stored from `addr` on. -/
structure Store where
  addr : Nat
  bytes : List Byte

/-- The bytes go to `[lo, hi)`; addresses are of 32 bits. -/
def Store.In (store : Store) (lo hi : Nat) : Prop :=
  ∀ i, i < store.bytes.length → lo ≤ u32 (store.addr + i) ∧ u32 (store.addr + i) < hi

section

variable (bl : BlConfig)

/-- What the decoder puts out for `decompressBin`, call by call. -/
def binOutputs (fuel id maxSize : Nat) :
    Nat → bl.xz.State → List Byte → Nat → Nat → Nat → Nat → BootState → Cells → List (List Byte)
  | 0, _, _, _, _, _, _, _, _ => []
  | loopFuel + 1, s, input, left, offset, chksum, outPos, boot, c =>
    match ret (refillBin bl fuel id input left offset chksum boot) c with
    | some (some (input, left, offset, chksum), boot) =>
      match bl.xz.run s input (maxSize - outPos) with
      | (s, taken, output, xzret) =>
        output ::
          if outPos + output.length = maxSize then []
          else
            match xzret with
            | .ok =>
              binOutputs fuel id maxSize loopFuel s (input.drop taken) left offset chksum
                (outPos + output.length) boot c
            | _ => []
    | _ => []

/-- Outputs stored one behind the other. -/
def storesFrom : Nat → List (List Byte) → List Store
  | _, [] => []
  | addr, output :: outputs => ⟨addr, output⟩ :: storesFrom (u32 (addr + output.length)) outputs

/-- The outputs of `bl_decompress_bin`. -/
def decompressOutputs (fuel : Nat) (sh : SectionHeader) (boot : BootState) (c : Cells) :
    List (List Byte) :=
  match bl.xz.init blDecBinDictMax with
  | none => []
  | some s =>
    binOutputs bl fuel sh.id (sub32 bl.ramBase sh.loadAddr) fuel s [] sh.bodyLen 0 sh.dataChksum 0
      boot c

/-- What `blLoadPlain` stores. -/
def plainStores (fuel id : Nat) (sh : SectionHeader) (boot : BootState) (c : Cells) :
    List Store :=
  if sh.bodyLen = 0 then []
  else if u32 (sh.loadAddr + sh.dataSize) > bl.ramBase then []
  else
    match ret (Bl.image (imageRead bl.board fuel id .body 0 sh.bodyLen) boot) c with
    | some (some body, boot) =>
      ⟨sh.loadAddr, body⟩ ::
        if bl.secureBoot then
          match ret (Bl.image (imageRead bl.board fuel id .tailer 0 eccSignSize) boot) c with
          | some (some sign, _) => [⟨u32 (sh.loadAddr + sh.bodyLen), sign⟩]
          | _ => []
        else []
    | _ => []

/-- What `blLoadCompressed` stores. -/
def compressedStores (fuel id : Nat) (sh : SectionHeader) (boot : BootState) (c : Cells) :
    List Store :=
  match ret ((if bl.secureBoot then blVerifyBinById bl fuel id else pure .ok : Bl LoadBin) boot) c
    with
  | some (.ok, boot) => storesFrom sh.loadAddr (decompressOutputs bl fuel sh boot c)
  | _ => []

/-- What `bl_load_bin_by_id` stores from the address of the section on. -/
def loadStores (fuel id : Nat) (boot : BootState) (c : Cells) : List Store :=
  match ret (Bl.image (imageRead bl.board fuel id .header 0 imageHeaderSize) boot) c with
  | some (some bytes, boot) =>
    if imageCheckHeader bytes = .invalid then []
    else
      let sh := SectionHeader.decode bytes
      if bl.binCompress ∧ sh.hasFlag imageAttrFlagCompress then
        compressedStores bl fuel id sh boot c
      else plainStores bl fuel id sh boot c
  | _ => []

end

/-! ## Addresses -/

section

variable {lo hi len : Nat} {store : Store} {outputs : List (List Byte)}

theorem Store.in_nil {addr : Nat} : Store.In ⟨addr, []⟩ lo hi := fun _ hi => absurd hi (Nat.not_lt_zero _)

/-- Bytes that start at the lower end. -/
theorem store_in_iff {bytes : List Byte} (hlo : lo < 2 ^ 32) (hhi : hi < 2 ^ 32) :
    Store.In ⟨lo, bytes⟩ lo hi ↔ bytes = [] ∨ lo + bytes.length ≤ hi := by
  constructor
  · intro h
    by_cases hnil : bytes = []
    · exact .inl hnil
    · right
      have hpos := List.length_pos_iff.mpr hnil
      by_contra hover
      rcases Nat.lt_or_ge hi lo with hlt | hle
      · have hfirst := (h 0 hpos).2
        dsimp only at hfirst
        rw [Nat.add_zero, u32_of_lt hlo] at hfirst
        omega
      · have hbehind := (h (hi - lo) (by dsimp only; omega)).2
        dsimp only at hbehind
        rw [Nat.add_sub_cancel' hle, u32_of_lt hhi] at hbehind
        omega
  · rintro (rfl | hle) i hi
    · cases hi
    · dsimp only at hi ⊢
      rw [u32_of_lt (by omega)]
      omega

theorem store_in_append {addr : Nat} {bytes bytes' : List Byte} :
    Store.In ⟨addr, bytes ++ bytes'⟩ lo hi ↔
      Store.In ⟨addr, bytes⟩ lo hi ∧ Store.In ⟨u32 (addr + bytes.length), bytes'⟩ lo hi := by
  have hstep : ∀ i, u32 (u32 (addr + bytes.length) + i) = u32 (addr + (bytes.length + i)) := by
    intro i
    rw [u32, u32, Nat.mod_add_mod, Nat.add_assoc, u32]
  constructor
  · intro h
    refine ⟨fun i hi => h i ?_, fun i hi => ?_⟩
    · dsimp only at hi ⊢
      rw [List.length_append]
      omega
    · dsimp only at hi ⊢
      rw [hstep]
      refine h (bytes.length + i) ?_
      dsimp only
      rw [List.length_append]
      omega
  · rintro ⟨h1, h2⟩ i hi
    dsimp only at hi ⊢
    rw [List.length_append] at hi
    rcases Nat.lt_or_ge i bytes.length with hlt | hge
    · exact h1 i hlt
    · have htail := h2 (i - bytes.length) (by dsimp only; omega)
      dsimp only at htail
      rwa [hstep, Nat.add_sub_cancel' hge] at htail

theorem storesFrom_in {addr : Nat} :
    (∀ store ∈ storesFrom addr outputs, store.In lo hi) ↔
      Store.In ⟨addr, outputs.flatten⟩ lo hi := by
  induction outputs generalizing addr with
  | nil => exact iff_of_true nofun Store.in_nil
  | cons output outputs ih =>
    rw [storesFrom, List.forall_mem_cons, ih, List.flatten_cons, store_in_append]

end

/-! ## The decoder -/

section

variable {bl : BlConfig} {fuel id maxSize loopFuel left offset chksum outPos : Nat}
  {s : bl.xz.State} {input : List Byte} {boot : BootState} {c : Cells} {sh : SectionHeader}

theorem length_binOutputs (hlaw : bl.xz.Lawful) (hpos : outPos ≤ maxSize) :
    outPos + (binOutputs bl fuel id maxSize loopFuel s input left offset chksum outPos boot
      c).flatten.length ≤ maxSize := by
  induction loopFuel generalizing s input left offset chksum outPos boot with
  | zero => exact hpos
  | succ loopFuel ih =>
    rw [binOutputs]
    split
    · rename_i input' left' offset' chksum' boot' hrefill
      have hroom := hlaw.room s input' (maxSize - outPos)
      rcases hrun : bl.xz.run s input' (maxSize - outPos) with ⟨s', taken, output, xzret⟩
      rw [hrun] at hroom
      dsimp only at hroom ⊢
      rw [List.flatten_cons, List.length_append, ← Nat.add_assoc]
      split
      · rw [List.flatten_nil, List.length_nil]
        omega
      · cases xzret with
        | ok => exact ih (by omega)
        | streamEnd =>
          rw [List.flatten_nil, List.length_nil]
          omega
        | error =>
          rw [List.flatten_nil, List.length_nil]
          omega
    · exact hpos

theorem length_decompressOutputs (hlaw : bl.xz.Lawful) :
    (decompressOutputs bl fuel sh boot c).flatten.length ≤ sub32 bl.ramBase sh.loadAddr := by
  unfold decompressOutputs
  split
  · exact Nat.zero_le _
  · rw [← Nat.zero_add (List.length _)]
    exact length_binOutputs hlaw (Nat.zero_le _)

/-! ## Reads -/

theorem length_flashRead {board : Board} {dev addr size : Nat} {bytes : List Byte}
    (h : ret (flashRead board dev addr size) c = some bytes) : bytes.length = size := by
  rcases ret_flashRead_cases board dev addr size c with hr | hr
  · rw [hr] at h
    cases h
  · rw [hr] at h
    cases h
    exact length_readCells ..

theorem length_imageRead {board : Board} {seg : ImageSeg} {off size : Nat} {img img' : ImagePriv}
    {bytes : List Byte}
    (h : Flow.Returns (imageRead board fuel id seg off size) img c (some bytes) img') :
    bytes.length = size := by
  obtain ⟨img₁, s₁, -, hrest⟩ := Flow.returns_bind.mp h
  obtain ⟨addr, s₂, -, hread⟩ := Flow.returns_bind.mp hrest
  split at hread
  · cases (Flow.returns_pure.mp hread).1
  · cases seg with
    | header => exact length_flashRead (Flow.returns_lift.mp hread).1
    | body => exact length_flashRead (Flow.returns_lift.mp hread).1
    | tailer =>
      obtain ⟨r, s₃, -, htail⟩ := Flow.returns_bind.mp hread
      cases r with
      | none => cases (Flow.returns_pure.mp htail).1
      | some len => exact length_flashRead (Flow.returns_lift.mp htail).1

/-- A read of the section that succeeds, and the state behind it. -/
abbrev ReadOk (bl : BlConfig) (fuel id : Nat) (seg : ImageSeg) (size : Nat) (boot : BootState)
    (c : Cells) (bytes : List Byte) (boot' : BootState) : Prop :=
  Flow.Returns (Bl.image (imageRead bl.board fuel id seg 0 size)) boot c (some bytes) boot'

theorem ReadOk.length {seg : ImageSeg} {size : Nat} {bytes : List Byte} {boot' : BootState}
    (h : ReadOk bl fuel id seg size boot c bytes boot') : bytes.length = size := by
  obtain ⟨img', h, -⟩ := Flow.returns_zoom.mp h
  exact length_imageRead h

theorem ReadOk.unique {seg : ImageSeg} {size : Nat} {bytes bytes' : List Byte}
    {boot₁ boot₂ : BootState} (h : ReadOk bl fuel id seg size boot c bytes boot₁)
    (h' : ReadOk bl fuel id seg size boot c bytes' boot₂) : bytes' = bytes ∧ boot₂ = boot₁ := by
  cases h.symm.trans h'
  exact ⟨rfl, rfl⟩

/-! ## What is below the limit -/

/-- A section that is not compressed ends below the limit, with secure boot together with its
signature, unless it is given up before these are read. -/
def PlainFits (bl : BlConfig) (fuel id : Nat) (sh : SectionHeader) (boot : BootState) (c : Cells) :
    Prop :=
  sh.bodyLen ≠ 0 → u32 (sh.loadAddr + sh.dataSize) ≤ bl.ramBase →
    ∀ body boot₁, ReadOk bl fuel id .body sh.bodyLen boot c body boot₁ →
      sh.loadAddr + sh.bodyLen ≤ bl.ramBase ∧
        (bl.secureBoot → ∀ sign boot₂, ReadOk bl fuel id .tailer eccSignSize boot₁ c sign boot₂ →
          sh.loadAddr + sh.bodyLen + eccSignSize ≤ bl.ramBase)

/-- A compressed section starts below the limit, unless the decoder puts out nothing or is not
called. -/
def CompressedFits (bl : BlConfig) (fuel id : Nat) (sh : SectionHeader) (boot : BootState)
    (c : Cells) : Prop :=
  ∀ boot₁, Flow.Returns
      (if bl.secureBoot then blVerifyBinById bl fuel id else pure .ok : Bl LoadBin) boot c .ok boot₁ →
    sh.loadAddr ≤ bl.ramBase ∨ (decompressOutputs bl fuel sh boot₁ c).flatten = []

theorem plainStores_in (hmax : bl.ramBase < 2 ^ 32) (hload : sh.loadAddr < 2 ^ 32) :
    (∀ store ∈ plainStores bl fuel id sh boot c, store.In sh.loadAddr bl.ramBase) ↔
      PlainFits bl fuel id sh boot c := by
  unfold plainStores PlainFits
  split
  · rename_i hzero
    exact iff_of_true nofun fun hne => absurd hzero hne
  rename_i hpos
  split
  · rename_i hbig
    exact iff_of_true nofun fun _ hle => absurd hbig (Nat.not_lt.mpr hle)
  rename_i hsmall
  split
  · rename_i body boot₁ hread
    have hlen := ReadOk.length hread
    have hbody : Store.In ⟨sh.loadAddr, body⟩ sh.loadAddr bl.ramBase ↔
        sh.loadAddr + sh.bodyLen ≤ bl.ramBase := by
      rw [store_in_iff hload hmax, hlen, or_iff_right]
      rintro rfl
      exact hpos hlen.symm
    have hall : PlainFits bl fuel id sh boot c ↔ sh.loadAddr + sh.bodyLen ≤ bl.ramBase ∧
        (bl.secureBoot → ∀ sign boot₂, ReadOk bl fuel id .tailer eccSignSize boot₁ c sign boot₂ →
          sh.loadAddr + sh.bodyLen + eccSignSize ≤ bl.ramBase) := by
      constructor
      · intro h
        exact h hpos (Nat.not_lt.mp hsmall) body boot₁ hread
      · intro h _ _ body' boot' hread'
        obtain ⟨-, rfl⟩ := ReadOk.unique hread hread'
        exact h
    rw [show (_ → _) ↔ _ from hall, List.forall_mem_cons, hbody]
    refine and_congr_right fun hle => ?_
    split
    · rename_i hsecure
      rw [forall_prop_of_true hsecure]
      split
      · rename_i sign boot₂ hsign
        have hslen := ReadOk.length hsign
        -- the signature lies behind the body: both are one store from the load address on
        have hboth : Store.In ⟨sh.loadAddr, body ++ sign⟩ sh.loadAddr bl.ramBase ↔ _ ∧ _ :=
          store_in_append
        rw [store_in_iff hload hmax, List.length_append, hlen, hslen, ← Nat.add_assoc,
          and_iff_right (hbody.mpr hle)] at hboth
        rw [List.forall_mem_singleton, ← hboth, or_iff_right]
        · constructor
          · intro h sign' boot' hsign'
            exact h
          · intro h
            exact h sign boot₂ hsign
        · intro hnil
          rw [List.append_eq_nil_iff.mp hnil |>.1] at hlen
          exact hpos hlen.symm
      · rename_i hnone
        exact iff_of_true nofun fun sign boot₂ hsign => absurd hsign (hnone sign boot₂)
    · rename_i hplain
      exact iff_of_true nofun fun hsecure => absurd hsecure hplain
  · rename_i hnone
    exact iff_of_true nofun fun _ _ body boot₁ hread => absurd hread (hnone body boot₁)

theorem compressedStores_in (hlaw : bl.xz.Lawful) (hmax : bl.ramBase < 2 ^ 32)
    (hload : sh.loadAddr < 2 ^ 32) :
    (∀ store ∈ compressedStores bl fuel id sh boot c, store.In sh.loadAddr bl.ramBase) ↔
      CompressedFits bl fuel id sh boot c := by
  unfold compressedStores CompressedFits
  split
  · rename_i boot₁ hverify
    have hlen : (decompressOutputs bl fuel sh boot₁ c).flatten.length ≤
        sub32 bl.ramBase sh.loadAddr := length_decompressOutputs hlaw
    rw [storesFrom_in, store_in_iff hload hmax]
    constructor
    · rintro (hnil | hle) boot' hverify'
      · cases hverify.symm.trans hverify'
        exact .inr hnil
      · exact .inl (by omega)
    · intro h
      rcases h boot₁ hverify with hle | hnil
      · rw [sub32_of_le hle] at hlen
        exact .inr (by omega)
      · exact .inl hnil
  · rename_i hnone
    exact iff_of_true nofun fun boot₁ hverify => absurd hverify (hnone boot₁)

/-- A section that has been loaded: the stored bytes are those that were checked. -/
theorem blLoadPlain_stores {boot' : BootState}
    (h : Flow.Returns (blLoadPlain bl fuel id sh) boot c .ok boot') :
    ∃ body sign, (plainStores bl fuel id sh boot c).flatMap (·.bytes) = body ++ sign ∧
      imageCheckData sh body sign = .valid := by
  unfold blLoadPlain at h
  unfold plainStores
  split at h
  · cases (Flow.returns_pure.mp h).1
  rename_i hpos
  split at h
  · cases (Flow.returns_pure.mp h).1
  rename_i hsmall
  rw [if_neg hpos, if_neg hsmall]
  obtain ⟨r, boot₁, hread, hrest⟩ := (quiet_image_read ..).returns_bind.mp h
  unfold Flow.Returns at hread
  rw [hread]
  cases r with
  | none => cases (Flow.returns_pure.mp hrest).1
  | some body =>
    dsimp only at hrest ⊢
    rw [List.flatMap_cons]
    split at hrest
    · obtain ⟨r, boot₂, hsign, hcheck⟩ := (quiet_image_read ..).returns_bind.mp hrest
      unfold Flow.Returns at hsign
      rename_i hsecure
      rw [if_pos hsecure, hsign]
      cases r with
      | none => cases (Flow.returns_pure.mp hcheck).1
      | some sign =>
        dsimp only at hcheck ⊢
        split at hcheck
        · cases (Flow.returns_pure.mp hcheck).1
        · rename_i hvalid
          refine ⟨body, sign, by rw [List.flatMap_singleton], ?_⟩
          cases hv : imageCheckData sh body sign with
          | invalid => exact absurd hv hvalid
          | valid => rfl
    · rename_i hplain
      rw [if_neg hplain]
      split at hrest
      · cases (Flow.returns_pure.mp hrest).1
      · rename_i hvalid
        refine ⟨body, [], rfl, ?_⟩
        cases hv : imageCheckData sh body [] with
        | invalid => exact absurd hv hvalid
        | valid => rfl

/-- For a valid header, everything is stored in `[load_addr, max_addr)` just when the section
fits: `max_addr` is the limit `ramBase`. -/
theorem load_stays_below (hlaw : bl.xz.Lawful) (hmax : bl.ramBase < 2 ^ 32) {bytes : List Byte}
    {boot₁ : BootState} (hread : ReadOk bl fuel id .header imageHeaderSize boot c bytes boot₁)
    (hcheck : imageCheckHeader bytes = .valid) (hsh : sh = SectionHeader.decode bytes) :
    (∀ store ∈ loadStores bl fuel id boot c, store.In sh.loadAddr bl.ramBase) ↔
      if bl.binCompress ∧ sh.hasFlag imageAttrFlagCompress then
        CompressedFits bl fuel id sh boot₁ c
      else PlainFits bl fuel id sh boot₁ c := by
  subst hsh
  have hload : (SectionHeader.decode bytes).loadAddr < 2 ^ 32 := field_lt bytes 16 4
  unfold loadStores
  rw [show ret _ c = _ from hread]
  dsimp only
  rw [if_neg (by rw [hcheck]; nofun)]
  split
  · exact compressedStores_in hlaw hmax hload
  · exact plainStores_in hmax hload

end

/-! ## Sections at the end of the memory -/

/-- A header of an application without a signature, for a memory that ends at `0x20000`. -/
def appHeader (chksum bodyLen : Nat) : List Byte :=
  leBytes 4 imageMagicNumber ++ leBytes 4 0 ++ leBytes 2 chksum ++ leBytes 2 0xFFFF ++
    leBytes 4 4 ++ leBytes 4 0x1FFFC ++ leBytes 4 0 ++ leBytes 4 bodyLen ++ leBytes 4 0 ++
    leBytes 4 imageInvalidAddr ++ leBytes 4 imageAppId ++ leBytes 24 0

/-- The application behind a bootloader of 16 KiB. -/
def appCells (chksum bodyLen : Nat) : Cells := fun _ a =>
  if a < 64 then (leBytes 32 0 ++ leBytes 4 0x4000 ++ leBytes 4 imageBootId).getD a blank
  else (appHeader chksum bodyLen).getD (a - 0x4000) blank

def appBl : BlConfig := { fillBl 0 with ramBase := 0x20000 }

def appBoot : BootState := ⟨{ fillImg with iop := { fillImg.iop with runningSeq := 0 } }, []⟩

/-- The header that is read there. -/
theorem read_appHeader {chksum bodyLen : Nat} {bytes : List Byte}
    (h : (ret (Bl.image (imageRead appBl.board 3 imageAppId .header 0 imageHeaderSize) appBoot)
      (appCells chksum bodyLen)).map Prod.fst = some (some bytes)) :
    ∃ boot₁, ReadOk appBl 3 imageAppId .header imageHeaderSize appBoot (appCells chksum bodyLen)
      bytes boot₁ := by
  obtain ⟨⟨r, boot₁⟩, hr, heq⟩ := Option.map_eq_some_iff.mp h
  cases heq
  exact ⟨boot₁, hr⟩

theorem load_stays_below_small : imageCheckHeader (appHeader 0x6074 4) = .valid ∧
    ∀ store ∈ loadStores appBl 3 imageAppId appBoot (appCells 0x6074 4),
      store.In 0x1FFFC 0x20000 := by
  have hheader : ∃ boot₁, ReadOk appBl 3 imageAppId .header imageHeaderSize appBoot
      (appCells 0x6074 4) (appHeader 0x6074 4) boot₁ := read_appHeader (by decide)
  obtain ⟨boot₁, hread⟩ := hheader
  have hfits : PlainFits appBl 3 imageAppId (SectionHeader.decode (appHeader 0x6074 4)) boot₁
      (appCells 0x6074 4) := fun _ _ _ _ _ => ⟨by decide, nofun⟩
  have hcheck : imageCheckHeader (appHeader 0x6074 4) = .valid := by decide
  exact ⟨hcheck, (load_stays_below (fillDec_lawful 0) (by decide) hread hcheck rfl).mpr hfits⟩

/-- Four bytes of data and a body of eight: the last four bytes are stored above the limit. -/
theorem body_above_limit : imageCheckHeader (appHeader 0x6070 8) = .valid ∧
    (loadStores appBl 3 imageAppId appBoot (appCells 0x6070 8)).map
      (fun store => (store.addr, store.bytes.length)) = [(0x1FFFC, 8)] ∧
    ¬∀ store ∈ loadStores appBl 3 imageAppId appBoot (appCells 0x6070 8),
      store.In 0x1FFFC 0x20000 := by
  have hstores : (loadStores appBl 3 imageAppId appBoot (appCells 0x6070 8)).map
      (fun store => (store.addr, store.bytes.length)) = [(0x1FFFC, 8)] := by decide
  refine ⟨by decide, hstores, fun hall => ?_⟩
  have hbody : (0x1FFFC, 8) ∈ (loadStores appBl 3 imageAppId appBoot (appCells 0x6070 8)).map
      (fun store => (store.addr, store.bytes.length)) := by
    rw [hstores]
    exact List.mem_singleton_self _
  obtain ⟨store, hmem, heq⟩ := List.mem_map.mp hbody
  injection heq with haddr hlen
  have hbelow := (hall store hmem 4 (by omega)).2
  rw [haddr] at hbelow
  exact absurd hbelow (by decide)

end Boot
end XR806

import XR806.Boot.Load
import XR806.Boot.Select

/-!
# XR806.Boot.Secure

What secure boot covers. `main` verifies `APP_XIP` and `APP_PSRAM` in the slot
`bl_uncompress_image` selects, but the application may come from the other slot: `bl_load_bin`
falls back to it without verifying its sections. And a lookup answers the same when a request is
refused and when there is no such section, which counts as verified. `secure_boot_covers_iff` says
exactly in which runs the sections of the slot that is booted have been checked.

* `LookupFails`: a lookup in the running image, through the addresses found so far;
* `LookupSees`: the section is there, and no request of the lookup was refused;
* `Reachable`: a lookup with nothing found so far, as the application makes it;
* `LoadRun`: a pass of `main` that starts an application, taken apart.
-/

namespace XR806
namespace Boot

open Nor Flash Image

section

variable (bl : BlConfig) (fuel : Nat)

/-- With every request granted, the bootloader looks section `id` up in the running image and does
not find it. -/
def LookupFails (s : BootState) (c : Cells) (id : Nat) : Prop :=
  ∃ s', (Bl.image (imageGetSectionAddr bl.board fuel id)).Returns s c imageInvalidAddr s'

/-- The requests that begin with those of the lookup were granted so far, and it finds the
section. -/
def LookupSees (s : BootState) (c : Cells) (es : List Event) (id : Nat) : Prop :=
  granted (Bl.image (imageGetSectionAddr bl.board fuel id) s) c <+: es ∧ ¬LookupFails bl fuel s c id

/-- Section `id` is in the chain of slot `seq`. -/
def Reachable (board : Board) (iop : OtaParam) (seq id : Nat) (c : Cells) : Prop :=
  ∃ fuel addr img, (imageGetAddr board fuel seq id).Returns ⟨iop, fun _ => []⟩ c addr img ∧
    addr ≠ imageInvalidAddr

/-- The reading of a header. -/
def readHeader (id : Nat) : Bl (Option (List Byte)) :=
  Bl.image (imageRead bl.board fuel id .header 0 imageHeaderSize)

/-- The application is compressed, its header is read, and then its section is not seen; `es` are
the requests from the reading of the header on. -/
def AppMissed (s : BootState) (c : Cells) (es : List Event) : Prop :=
  ∃ bytes s', (readHeader bl fuel imageAppId).Returns s c (some bytes) s' ∧ bl.binCompress ∧
    (SectionHeader.decode bytes).hasFlag imageAttrFlagCompress ∧
      ¬LookupSees bl fuel s' c (es.drop (granted (readHeader bl fuel imageAppId s) c).length)
        imageAppId

/-- The sections of the slot that is booted have been checked; `c` is the flash they were read
from. -/
structure Covered (c : Cells) (s : BootState) : Prop where
  app : (s.img.iop.runningSeq, imageAppId) ∈ s.passed
  others : ∀ id ∈ [imageAppXipId, imageAppPsramId],
    Reachable bl.board s.img.iop s.img.iop.runningSeq id c → (s.img.iop.runningSeq, id) ∈ s.passed

/-! ## A pass of `main` -/

/-- The state once `image_set_running_seq` has set `seq`. -/
def BootState.atSeq (s : BootState) (seq : Nat) : BootState :=
  { s with img := { s.img with iop := { s.img.iop with runningSeq := seq } } }

/-- The states in which `bl_load_bin` calls `bl_load_app_bin`, with the requests made before: first
for the selected slot, and when nothing loads for the other one. -/
inductive Attempt (d : Devices) (loadSeq : Nat) (s : BootState) : List Event → BootState → Prop
  | selected : Attempt d loadSeq s [] (s.atSeq loadSeq)
  | other (es : List Event) (s' : BootState)
    (hfail : (blLoadAppBin bl fuel).Answers (s.atSeq loadSeq) d es blInvalidAppEntry s' d) :
    Attempt d loadSeq s es (s'.atSeq ((loadSeq + 1) % imageSeqNum))

/-- A pass that starts an application: the sequences and the flash `bl_uncompress_image` leaves; the
states before the check of `APP_XIP`, before that of `APP_PSRAM`, behind both, and in the attempt
that loads; and the requests of each part. -/
structure LoadRun where
  cfgSeq : Nat
  loadSeq : Nat
  flash : Devices
  s₁ : BootState
  s₂ : BootState
  s₃ : BootState
  s : BootState
  entry : Nat
  unzip : List Event
  xip : List Event
  psram : List Event
  tries : List Event
  load : List Event
  store : List Event

/-- `r` takes the pass `p` apart, which makes the requests `es` and leaves the state `s'`. -/
structure IsRun (p : Pass) (es : List Event) (s' : BootState) (r : LoadRun) : Prop where
  requests : es = r.unzip ++ (r.xip ++ (r.psram ++ (r.tries ++ (r.load ++ r.store))))
  uncompress : (Bl.image (blUncompressImage bl fuel p.cSeq p.lSeq)).Answers ⟨p.img, []⟩ p.flash
    r.unzip (.ok r.cfgSeq r.loadSeq) r.s₁ r.flash
  xip : (verifyApp bl fuel bl.appXipBinVerify imageAppXipId).Answers r.s₁ r.flash r.xip true r.s₂
    r.flash
  psram : (verifyApp bl fuel bl.appPsramBinVerify imageAppPsramId).Answers r.s₂ r.flash r.psram true
    r.s₃ r.flash
  attempt : Attempt bl fuel r.flash r.loadSeq r.s₃ r.tries r.s
  load : (blLoadAppBin bl fuel).Answers r.s r.flash r.load r.entry s' r.flash
  valid : r.entry ≠ blInvalidAppEntry

/-- A section that is in the chain of the slot whose application loads: it was looked up in that
slot, from the state `t` with the requests `es`, and seen. -/
def SectionSeen (r : LoadRun) (t : BootState) (es : List Event) (id : Nat) : Prop :=
  Reachable bl.board r.s.img.iop r.s.img.iop.runningSeq id r.flash.cells →
    r.s.img.iop.runningSeq = r.s₁.img.iop.runningSeq ∧ LookupSees bl fuel t r.flash.cells es id

/-- The checks have seen the sections of the slot whose application loads. -/
structure RunSees (r : LoadRun) : Prop where
  app : ¬AppMissed bl fuel r.s r.flash.cells r.load
  xip : SectionSeen bl fuel r r.s₁ r.xip imageAppXipId
  psram : SectionSeen bl fuel r r.s₂ r.psram imageAppPsramId

/-- Whenever `main` starts an application, in its first pass or in the one on the external flash,
whatever requests are refused, the slot is covered. -/
def SecureBootCovers (img : ImagePriv) (isFlashSip : Bool) (sip ext : Devices) : Prop :=
  ∀ p, IsPass bl fuel img isFlashSip sip ext p → ∀ es entry s' d',
    (bootOnce bl fuel p.cSeq p.lSeq).Answers ⟨p.img, []⟩ p.flash es (.runApp entry) s' d' →
      ∀ r, IsRun bl fuel p es s' r → Covered bl r.flash.cells s'

end

section

variable {bl : BlConfig} {fuel id : Nat} {s s' : BootState} {c : Cells} {d d' : Devices}
  {es : List Event}

/-! ## What a check leaves in the state -/

theorem keeps_image_passed {α : Type} (m : Img α) : Flow.Keeps BootState.passed (Bl.image m) :=
  (Flow.keeps_unit m).zoom fun _ _ _ => rfl

/-- Neither the parameters nor the checks that have passed change. -/
abbrev KeepsBoth {α : Type} (m : Bl α) : Prop :=
  Flow.Keeps (fun s : BootState => (s.img.iop, s.passed)) m

theorem keepsBoth_image {α : Type} {m : Img α} (hm : Flow.Keeps ImagePriv.iop m) :
    KeepsBoth (Bl.image m) := hm.zoom fun _ _ h => Prod.ext h rfl

theorem keepsBoth_read (id : Nat) (seg : ImageSeg) (offset size : Nat) :
    KeepsBoth (Bl.image (imageRead bl.board fuel id seg offset size)) :=
  keepsBoth_image (keeps_imageRead ..)

theorem KeepsBoth.answers {α : Type} {m : Bl α} {a : α} (hm : KeepsBoth m)
    (h : m.Answers s d es a s' d') : s'.img.iop = s.img.iop ∧ s'.passed = s.passed :=
  Prod.mk.inj (Flow.Keeps.answers hm h)

theorem strict_lookup (id : Nat) :
    Flow.Strict (· = imageInvalidAddr) (Bl.image (imageGetSectionAddr bl.board fuel id)) :=
  (strict_imageGetSectionAddr id).zoom

theorem strict_readHeader (id : Nat) : Flow.Strict (· = none) (readHeader bl fuel id) :=
  (strict_imageRead ..).zoom

/-- A lookup has one result. -/
theorem lookupFails_iff {addr : Nat}
    (h : (Bl.image (imageGetSectionAddr bl.board fuel id)).Returns s c addr s') :
    LookupFails bl fuel s c id ↔ addr = imageInvalidAddr := by
  constructor
  · rintro ⟨s₂, h₂⟩
    have := h.symm.trans h₂
    simp only [Option.some.injEq, Prod.mk.injEq] at this
    exact this.1
  · rintro rfl
    exact ⟨s', h⟩

/-- The lookup answers an address when the section was seen, whatever is asked behind it. -/
theorem lookupSees_iff {addr : Nat} (more : List Event)
    (h : (Bl.image (imageGetSectionAddr bl.board fuel id)).Answers s d es addr s' d') :
    LookupSees bl fuel s d.cells (es ++ more) id ↔ addr ≠ imageInvalidAddr := by
  constructor
  · rintro ⟨hgranted, hfound⟩
    obtain ⟨-, hret, -⟩ :=
      Answers.granted_of_prefix h (((strict_lookup id).quiet.run s).silent _) hgranted
    rintro rfl
    exact hfound ⟨s', hret.symm⟩
  · intro hvalid
    obtain ⟨rfl, hret⟩ := (strict_lookup id).answers h hvalid
    exact ⟨List.prefix_append .., fun hfails => hvalid ((lookupFails_iff hret).mp hfails)⟩

/-- The check of section `id` passed and is noted, or nothing is noted and the result is not
`ok`. -/
def Signed (id : Nat) (s : BootState) (r : LoadBin) (s' : BootState) : Prop :=
  s'.img.iop = s.img.iop ∧
    (s'.passed = s.passed ++ [(s.img.iop.runningSeq, id)] ∨ s'.passed = s.passed ∧ r ≠ .ok)

/-- The program answers `ok` only after it has noted the check of section `id`, and it notes no
other, whatever is refused. -/
structure Signs (id : Nat) (m : Bl LoadBin) : Prop where
  yields : ∀ s, Yields (fun o => ∀ q ∈ o, Signed id s q.1 q.2) (m s)

theorem Signs.answers {m : Bl LoadBin} {r : LoadBin} (hm : Signs id m)
    (h : m.Answers s d es r s' d') : Signed id s r s' :=
  (hm.yields s).answers h (r, s') rfl

theorem signs_pure {r : LoadBin} (hr : r ≠ .ok) : Signs id (pure r) where
  yields s q hq := by
    obtain rfl := Option.some.inj hq
    exact ⟨rfl, .inr ⟨rfl, hr⟩⟩

theorem signs_pass : Signs id (do Bl.pass id; pure .ok) where
  yields s q hq := by
    obtain rfl := Option.some.inj hq
    exact ⟨rfl, .inl rfl⟩

theorem Signs.bind {α : Type} {p : Bl α} {f : α → Bl LoadBin} (hp : KeepsBoth p)
    (hf : ∀ a, Signs id (f a)) : Signs id (p >>= f) where
  yields s := (hp.yields s).bind fun o ho => by
    cases o with
    | none => exact fun q hq => nomatch hq
    | some q =>
      obtain ⟨hiop, hpassed⟩ := Prod.mk.inj (ho q rfl)
      refine ((hf q.1).yields q.2).mono fun o' ho' q' hq' => ?_
      have hsigned := ho' q' hq'
      rwa [Signed, hiop, hpassed] at hsigned

theorem Signs.ite {P : Prop} [Decidable P] {m m' : Bl LoadBin} (hm : Signs id m)
    (hm' : Signs id m') : Signs id (if P then m else m') := by
  split
  · exact hm
  · exact hm'

theorem keepsBoth_verifySignature (input signature : List Byte) :
    KeepsBoth (blVerifySignature bl fuel input signature) := by
  refine (keepsBoth_read ..).bind ?_
  intro r
  cases r with
  | none => exact Flow.keeps_pure _
  | some pkey => exact (Flow.keeps_pure _).ite (Flow.keeps_pure _)

theorem keepsBoth_lift {α : Type} (p : Prog α) : KeepsBoth (Flow.lift p : Bl α) :=
  Flow.keeps_lift _

/-- `bl_verify_bin_by_id` behind the lookup. -/
theorem signs_verify {flashAddr : Nat} : Signs id (do
    match ← Bl.image (imageRead bl.board fuel id .header 0 imageHeaderSize) with
    | none => pure .invalid
    | some bytes =>
      let sh := SectionHeader.decode bytes
      if !sh.hasFlag imageAttrFlagSign then pure .invalid
      else do
        match ← Flow.lift (blSha256Burst bl (u32 (flashAddr + imageHeaderSize)) sh.bodyLen) with
        | none => pure .invalid
        | some digest => do
          match ← Bl.image (imageRead bl.board fuel imageBootId .tailer 0 eccPkeySize) with
          | none => pure .noSec
          | some pkey => do
            match ← Bl.image (imageRead bl.board fuel id .tailer 0 eccSignSize) with
            | none => pure .noSec
            | some sign =>
              if bl.uEccVerify pkey digest sign then do
                Bl.pass id
                pure .ok
              else pure .invalid) := by
  refine Signs.bind (keepsBoth_read ..) ?_
  intro r
  cases r with
  | none => exact signs_pure (by decide)
  | some bytes =>
    refine (signs_pure (by decide)).ite (Signs.bind (keepsBoth_lift _) ?_)
    intro r
    cases r with
    | none => exact signs_pure (by decide)
    | some digest =>
      refine Signs.bind (keepsBoth_read ..) ?_
      intro r
      cases r with
      | none => exact signs_pure (by decide)
      | some pkey =>
        refine Signs.bind (keepsBoth_read ..) ?_
        intro r
        cases r with
        | none => exact signs_pure (by decide)
        | some sign => exact signs_pass.ite (signs_pure (by decide))

/-- A check of section `id` in state `s` left `s'`: it passed, or there was nothing to check. -/
inductive Noted (id : Nat) (seen ok : Prop) (s s' : BootState) : Prop where
  | passed (hpassed : s'.passed = s.passed ++ [(s.img.iop.runningSeq, id)]) (hseen : seen)
  | not (hpassed : s'.passed = s.passed) (hmissed : ok → ¬seen)

namespace Noted

variable {seen ok ok' : Prop} {s₀ s₁ : BootState}

theorem imp (h : Noted id seen ok s s') (hok : ok' → ok) : Noted id seen ok' s s' := by
  cases h with
  | passed hpassed hseen => exact .passed hpassed hseen
  | not hpassed hmissed => exact .not hpassed fun h => hmissed (hok h)

/-- What keeps the notes may stand in front of the check, or behind it. -/
theorem pre (h : Noted id seen ok s s') (hiop : s.img.iop = s₀.img.iop)
    (hkeep : s.passed = s₀.passed) : Noted id seen ok s₀ s' := by
  cases h with
  | passed hpassed hseen => exact .passed (by rw [hpassed, hiop, hkeep]) hseen
  | not hpassed hmissed => exact .not (hpassed.trans hkeep) hmissed

theorem post (h : Noted id seen ok s s') (hkeep : s₁.passed = s'.passed) :
    Noted id seen ok s s₁ := by
  cases h with
  | passed hpassed hseen => exact .passed (hkeep.trans hpassed) hseen
  | not hpassed hmissed => exact .not (hkeep.trans hpassed) hmissed

theorem mem_iff (h : Noted id seen ok s s') (hok : ok) (e : Nat × Nat) :
    e ∈ s'.passed ↔ e ∈ s.passed ∨ e = (s.img.iop.runningSeq, id) ∧ seen := by
  cases h with
  | passed hpassed hseen => simp [hpassed, hseen]
  | not hpassed hmissed => simp [hpassed, hmissed hok]

/-- Whatever came of the check, it added nothing but its own note. -/
theorem mem_iff_of_ne (h : Noted id seen ok s s') {e : Nat × Nat}
    (he : e ≠ (s.img.iop.runningSeq, id)) : e ∈ s'.passed ↔ e ∈ s.passed := by
  cases h with
  | passed hpassed hseen => simp [hpassed, he]
  | not hpassed hmissed => simp [hpassed]

end Noted

theorem Signed.noted {r : LoadBin} {seen : Prop} (h : Signed id s r s') (hseen : seen) :
    Noted id seen (r = .ok) s s' := by
  rcases h.2 with hpassed | ⟨hpassed, hr⟩
  · exact .passed hpassed hseen
  · exact .not hpassed fun hok => absurd hok hr

theorem blVerifyBinById_spec {r : LoadBin} (more : List Event)
    (h : (blVerifyBinById bl fuel id).Answers s d es r s' d') : s'.img.iop = s.img.iop ∧
      Noted id (LookupSees bl fuel s d.cells (es ++ more) id) (r = .ok) s s' := by
  obtain ⟨es₁, es₂, flashAddr, s₁, rfl, h₁, h⟩ := (quiet_image_lookup _).answers_bind.mp h
  rw [List.append_assoc]
  have hsees := lookupSees_iff (es₂ ++ more) h₁
  obtain ⟨hiop, hpassed⟩ := KeepsBoth.answers (keepsBoth_image (keeps_imageGetSectionAddr id)) h₁
  split at h
  · rename_i hinv
    obtain ⟨-, -, rfl, -⟩ := Flow.answers_pure.mp h
    exact ⟨hiop, .not hpassed fun _ hseen => hsees.mp hseen hinv⟩
  · rename_i hfound
    have hsigned := signs_verify.answers h
    exact ⟨hsigned.1.trans hiop, (hsigned.noted (hsees.mpr hfound)).pre hiop hpassed⟩

theorem verifyApp_spec (hsecure : bl.secureBoot) {enabled : Bool} (henabled : enabled)
    (h : (verifyApp bl fuel enabled id).Answers s d es true s' d') :
    s'.img.iop = s.img.iop ∧ Noted id (LookupSees bl fuel s d.cells es id) True s s' := by
  rw [verifyApp, if_pos ⟨hsecure, henabled⟩] at h
  obtain ⟨es₁, es₂, r, s₁, rfl, h₁, h₂⟩ := (quiet_blVerifyBinById id).answers_bind.mp h
  obtain ⟨rfl, hr, rfl, -⟩ := Flow.answers_pure.mp h₂
  obtain ⟨hiop, hnoted⟩ := blVerifyBinById_spec [] h₁
  exact ⟨hiop, hnoted.imp fun _ => of_decide_eq_true hr.symm⟩

/-! ## What loading the application leaves in the state -/

/-- A section that is not compressed is signed or not loaded. -/
theorem signs_loadPlain (hsecure : bl.secureBoot) (sh : SectionHeader) :
    Signs id (blLoadPlain bl fuel id sh) := by
  refine (signs_pure (by decide)).ite ((signs_pure (by decide)).ite
    (Signs.bind (keepsBoth_read ..) ?_))
  intro r
  cases r with
  | none => exact signs_pure (by decide)
  | some body =>
    dsimp only
    rw [if_pos hsecure]
    refine Signs.bind (keepsBoth_read ..) ?_
    intro r
    cases r with
    | none => exact signs_pure (by decide)
    | some sign =>
      refine (signs_pure (by decide)).ite (Signs.ite ?_ (signs_pure (by decide)))
      refine Signs.bind (keepsBoth_verifySignature ..) ?_
      intro ret
      exact (signs_pure (by decide)).ite signs_pass

theorem appMissed_iff {bytes : List Byte} (es : List Event)
    (h : (readHeader bl fuel imageAppId).Returns s c (some bytes) s') :
    AppMissed bl fuel s c (granted (readHeader bl fuel imageAppId s) c ++ es) ↔ bl.binCompress ∧
      (SectionHeader.decode bytes).hasFlag imageAttrFlagCompress ∧
      ¬LookupSees bl fuel s' c es imageAppId := by
  rw [AppMissed, List.drop_left]
  constructor
  · rintro ⟨bytes₂, s₂, h₂, hrest⟩
    have := h.symm.trans h₂
    simp only [Option.some.injEq, Prod.mk.injEq] at this
    rwa [this.1, this.2]
  · exact fun hrest => ⟨bytes, s', h, hrest⟩

theorem keepsBoth_refillBin (input : List Byte) (left offset chksum : Nat) :
    KeepsBoth (refillBin bl fuel id input left offset chksum) := by
  refine (Flow.keeps_pure _).ite ((Flow.keeps_pure _).ite ((keepsBoth_read ..).bind ?_))
  intro r
  cases r with
  | none => exact Flow.keeps_pure _
  | some bytes => exact Flow.keeps_pure _

theorem keepsBoth_decompressBin (maxSize loopFuel : Nat) (st : bl.xz.State) (input : List Byte)
    (left offset chksum outPos : Nat) :
    KeepsBoth (decompressBin bl fuel id maxSize loopFuel st input left offset chksum outPos) := by
  induction loopFuel generalizing st input left offset chksum outPos with
  | zero => exact Flow.keeps_hang
  | succ loopFuel ih =>
    refine (keepsBoth_refillBin ..).bind ?_
    intro refill
    rcases refill with _ | ⟨input, left, offset, chksum⟩
    · exact Flow.keeps_pure _
    · dsimp only
      refine (Flow.keeps_pure _).ite ?_
      cases (bl.xz.run st input (maxSize - outPos)).2.2.2 with
      | ok => exact ih ..
      | streamEnd => exact Flow.keeps_pure _
      | error => exact Flow.keeps_pure _

theorem keepsBoth_blDecompressBin (sh : SectionHeader) (maxSize : Nat) :
    KeepsBoth (blDecompressBin bl fuel sh maxSize) := by
  refine (keepsBoth_lift _).bind ?_
  intro ok
  refine (Flow.keeps_pure _).ite ?_
  cases bl.xz.init blDecBinDictMax with
  | none => exact Flow.keeps_pure _
  | some st => exact keepsBoth_decompressBin ..

/-- A compressed section is looked up once more by its check. -/
theorem blLoadCompressed_spec (hsecure : bl.secureBoot) {sh : SectionHeader} {ok : Bool}
    (h : (blLoadCompressed bl fuel id sh).Answers s d es ok s' d') :
    s'.img.iop = s.img.iop ∧ Noted id (LookupSees bl fuel s d.cells es id) ok s s' := by
  rw [blLoadCompressed, if_pos hsecure] at h
  obtain ⟨es₁, es₂, ret, s₁, rfl, h₁, h⟩ := (quiet_blVerifyBinById id).answers_bind.mp h
  obtain ⟨hiop, hnoted⟩ := blVerifyBinById_spec es₂ h₁
  split at h
  · obtain ⟨-, rfl, rfl, -⟩ := Flow.answers_pure.mp h
    exact ⟨hiop, hnoted.imp fun hfalse => by cases hfalse⟩
  · rename_i hret
    obtain ⟨hiop', hpassed⟩ := KeepsBoth.answers (keepsBoth_blDecompressBin ..) h
    exact ⟨hiop'.trans hiop, (hnoted.imp fun _ => not_not.mp hret).post hpassed⟩

theorem blLoadBinById_spec (hsecure : bl.secureBoot) {r : LoadBin} {entry : Nat}
    (h : (blLoadBinById bl fuel imageAppId).Answers s d es (r, entry) s' d') :
    s'.img.iop = s.img.iop ∧
      Noted imageAppId (¬AppMissed bl fuel s d.cells es) (r = .ok) s s' := by
  obtain ⟨es₁, es₂, bytes, s₁, rfl, h₁, hrest⟩ := (quiet_image_read ..).answers_bind.mp h
  obtain ⟨hiop, hpassed⟩ := KeepsBoth.answers (keepsBoth_read ..) h₁
  cases bytes with
  | none =>
    obtain ⟨-, hr, rfl, -⟩ := Flow.answers_pure.mp hrest
    exact ⟨hiop, .not hpassed fun hok => by simp [hok] at hr⟩
  | some bytes =>
    obtain ⟨rfl, hread⟩ := (strict_readHeader imageAppId).answers h₁ (by simp)
    have hmissed := appMissed_iff es₂ hread
    dsimp only at hrest
    split at hrest
    · obtain ⟨-, hr, rfl, -⟩ := Flow.answers_pure.mp hrest
      exact ⟨hiop, .not hpassed fun hok => by simp [hok] at hr⟩
    split at hrest
    · rename_i hcompress
      obtain ⟨es₃, es₄, ok, s₂, rfl, h₂, h₃⟩ := (quiet_blLoadCompressed ..).answers_bind.mp hrest
      obtain ⟨rfl, hr, rfl, -⟩ := Flow.answers_pure.mp h₃
      rw [List.append_nil] at hmissed ⊢
      obtain ⟨hiop', hnoted⟩ := blLoadCompressed_spec hsecure h₂
      simp only [hcompress.1, hcompress.2, true_and] at hmissed
      have hok : r = .ok → ok = true := by
        obtain ⟨rfl, -⟩ := Prod.mk.inj hr
        cases ok <;> simp
      rw [hmissed, not_not]
      exact ⟨hiop'.trans hiop, (hnoted.imp hok).pre hiop hpassed⟩
    · -- the section is loaded as it is, and no second lookup can miss it
      rename_i hplain
      obtain ⟨es₃, es₄, ret, s₂, rfl, h₂, h₃⟩ := (quiet_blLoadPlain ..).answers_bind.mp hrest
      obtain ⟨rfl, hr, rfl, -⟩ := Flow.answers_pure.mp h₃
      obtain ⟨rfl, -⟩ := Prod.mk.inj hr
      have hsigned := (signs_loadPlain hsecure _).answers h₂
      rw [hmissed]
      exact ⟨hsigned.1.trans hiop,
        (hsigned.noted fun hm => hplain ⟨hm.1, hm.2.1⟩).pre hiop hpassed⟩

theorem blLoadAppBin_spec (hsecure : bl.secureBoot) {entry : Nat}
    (h : (blLoadAppBin bl fuel).Answers s d es entry s' d') :
    s'.img.iop = s.img.iop ∧ Noted imageAppId (¬AppMissed bl fuel s d.cells es)
      (entry ≠ blInvalidAppEntry) s s' := by
  obtain ⟨es₁, es₂, ⟨ret, entry'⟩, s₁, rfl, h₁, h⟩ :=
    (quiet_blLoadBinById _).answers_bind.mp h
  obtain ⟨rfl, hentry, rfl, -⟩ := Flow.answers_pure.mp h
  rw [List.append_nil]
  obtain ⟨hiop, hnoted⟩ := blLoadBinById_spec hsecure h₁
  refine ⟨hiop, hnoted.imp ?_⟩
  intro hvalid
  by_contra hret
  exact hvalid (by rw [hentry, if_pos hret])

/-! ## A pass, taken apart -/

theorem answers_setRunningSeq {seq : Nat} {u : Unit}
    (h : (Bl.image (imageSetRunningSeq seq)).Answers s d es u s' d') :
    es = [] ∧ s' = s.atSeq seq ∧ d' = d := by
  cases h
  exact ⟨rfl, rfl, rfl⟩

/-- Once an application loads, all that is left to do is to store its sequence. -/
theorem answers_storeSeq {cfgSeq loadSeq entry entry' : Nat}
    (h : (if loadSeq ≠ cfgSeq then do
        let s ← Flow.get
        let _ ← Flow.lift (imageSetCfg bl.board s.img.iop ⟨loadSeq, .verified⟩)
        pure entry
      else pure entry : Bl Nat).Answers s d es entry' s' d') : entry' = entry ∧ s' = s := by
  split at h
  · obtain ⟨_, _, _, _, _, -, h₁, h₂⟩ := Flow.answers_bind.mp h
    obtain ⟨-, -, rfl, -⟩ := Flow.answers_get.mp h₁
    obtain ⟨_, _, _, _, _, -, h₃, h₄⟩ := Flow.answers_bind.mp h₂
    obtain ⟨-, rfl⟩ := Flow.answers_lift.mp h₃
    obtain ⟨-, hentry, hs, -⟩ := Flow.answers_pure.mp h₄
    exact ⟨hentry, hs⟩
  · obtain ⟨-, hentry, hs, -⟩ := Flow.answers_pure.mp h
    exact ⟨hentry, hs⟩

/-- One turn of `bl_load_bin`: the application loads, or the next turn follows. -/
theorem loadBinLoop_answers {cfgSeq tries loadSeq entry : Nat}
    (h : (loadBinLoop bl fuel cfgSeq (tries + 1) loadSeq).Answers s d es entry s' d') :
    ∃ es₁ es₂, es = es₁ ++ es₂ ∧
      (entry ≠ blInvalidAppEntry ∧
          (blLoadAppBin bl fuel).Answers (s.atSeq loadSeq) d es₁ entry s' d ∨
        ∃ s₁, (blLoadAppBin bl fuel).Answers (s.atSeq loadSeq) d es₁ blInvalidAppEntry s₁ d ∧
          (loadBinLoop bl fuel cfgSeq tries ((loadSeq + 1) % imageSeqNum)).Answers s₁ d es₂ entry
            s' d') := by
  obtain ⟨_, _, _, _, _, rfl, h₁, h⟩ := Flow.answers_bind.mp h
  obtain ⟨rfl, rfl, rfl⟩ := answers_setRunningSeq h₁
  obtain ⟨es₁, es₂, entry₁, s₁, rfl, h₁, h⟩ := quiet_blLoadAppBin.answers_bind.mp h
  refine ⟨es₁, es₂, rfl, ?_⟩
  split at h
  · rename_i hvalid
    obtain ⟨rfl, rfl⟩ := answers_storeSeq h
    exact .inl ⟨hvalid, h₁⟩
  · rename_i hinvalid
    obtain rfl := not_not.mp hinvalid
    exact .inr ⟨s₁, h₁, h⟩

theorem blLoadBin_answers {cfgSeq loadSeq entry : Nat} (hvalid : entry ≠ blInvalidAppEntry)
    (h : (blLoadBin bl fuel cfgSeq loadSeq).Answers s d es entry s' d') :
    ∃ tries load store s₁, es = tries ++ (load ++ store) ∧
      Attempt bl fuel d loadSeq s tries s₁ ∧ (blLoadAppBin bl fuel).Answers s₁ d load entry s' d := by
  obtain ⟨es₁, es₂, rfl, ⟨-, h⟩ | ⟨s₁, hfail, h⟩⟩ := loadBinLoop_answers h
  · exact ⟨[], es₁, es₂, _, rfl, .selected, h⟩
  · obtain ⟨es₂, es₃, rfl, ⟨-, h⟩ | ⟨s₂, -, h⟩⟩ := loadBinLoop_answers h
    · exact ⟨es₁, es₂, es₃, _, rfl, .other es₁ s₁ hfail, h⟩
    · exact absurd (Flow.answers_pure.mp h).2.1 hvalid

/-- A pass that starts an application has come to `bl_load_bin`, and the application loads. -/
theorem isRun_of_answers {p : Pass} {entry : Nat}
    (h : (bootOnce bl fuel p.cSeq p.lSeq).Answers ⟨p.img, []⟩ p.flash es (.runApp entry) s' d') :
    ∃ r, IsRun bl fuel p es s' r := by
  obtain ⟨unzip, es, ret, s₁, flash, rfl, h₁, h⟩ := Flow.answers_bind.mp h
  cases ret with
  | invalidAppEntry => cases (Flow.answers_pure.mp h).2.1
  | invalidAppUnzip => cases (Flow.answers_pure.mp h).2.1
  | ok cfgSeq loadSeq =>
    obtain ⟨xip, es, ok, s₂, rfl, h₂, h⟩ := (quiet_verifyApp ..).answers_bind.mp h
    cases ok with
    | false => cases (Flow.answers_pure.mp h).2.1
    | true =>
      obtain ⟨psram, es, ok, s₃, rfl, h₃, h⟩ := (quiet_verifyApp ..).answers_bind.mp h
      cases ok with
      | false => cases (Flow.answers_pure.mp h).2.1
      | true =>
        obtain ⟨es, _, e, s₄, _, rfl, h₄, h⟩ := Flow.answers_bind.mp h
        split at h
        · cases (Flow.answers_pure.mp h).2.1
        · rename_i hvalid
          obtain ⟨rfl, -, rfl, -⟩ := Flow.answers_pure.mp h
          obtain ⟨tries, load, store, s, rfl, hattempt, hload⟩ := blLoadBin_answers hvalid h₄
          rw [List.append_nil]
          exact ⟨⟨cfgSeq, loadSeq, flash, s₁, s₂, s₃, s, e, unzip, xip, psram, tries, load, store⟩,
            rfl, h₁, h₂, h₃, hattempt, hload, hvalid⟩

/-! ## What has been checked once the application has loaded -/

/-- An attempt that has failed has noted nothing about the slot of the next one. -/
theorem Attempt.mem_iff {loadSeq : Nat} {s₃ : BootState} (hsecure : bl.secureBoot)
    (h : Attempt bl fuel d loadSeq s₃ es s) (id : Nat) :
    (s.img.iop.runningSeq, id) ∈ s.passed ↔ (s.img.iop.runningSeq, id) ∈ s₃.passed := by
  cases h with
  | selected => rfl
  | other _ s₄ hfail =>
    refine (blLoadAppBin_spec hsecure hfail).2.mem_iff_of_ne ?_
    intro he
    have : (loadSeq + 1) % 2 = loadSeq := congrArg Prod.fst he
    omega

variable {p : Pass} {r : LoadRun}

/-- What has been noted of a slot once its application has loaded. -/
theorem IsRun.passed_iff (hr : IsRun bl fuel p es s' r) (hsecure : bl.secureBoot)
    (hxip : bl.appXipBinVerify) (hpsram : bl.appPsramBinVerify) (id : Nat) :
    (s'.img.iop.runningSeq, id) ∈ s'.passed ↔
      r.s.img.iop.runningSeq = r.s₁.img.iop.runningSeq ∧
        (id = imageAppXipId ∧ LookupSees bl fuel r.s₁ r.flash.cells r.xip imageAppXipId ∨
          id = imageAppPsramId ∧ LookupSees bl fuel r.s₂ r.flash.cells r.psram imageAppPsramId) ∨
      id = imageAppId ∧ ¬AppMissed bl fuel r.s r.flash.cells r.load := by
  have hnone : r.s₁.passed = [] := (keeps_image_passed _).answers hr.uncompress
  obtain ⟨hiop₂, hnoted₂⟩ := verifyApp_spec hsecure hxip hr.xip
  obtain ⟨-, hnoted₃⟩ := verifyApp_spec hsecure hpsram hr.psram
  obtain ⟨hiop, hnoted⟩ := blLoadAppBin_spec hsecure hr.load
  rw [hiop, hnoted.mem_iff hr.valid, hr.attempt.mem_iff hsecure, hnoted₃.mem_iff trivial,
    hnoted₂.mem_iff trivial, hnone, hiop₂]
  simp only [List.not_mem_nil, false_or, Prod.mk.injEq]
  tauto

/-! ## The main result -/

theorem IsRun.covered_iff (hr : IsRun bl fuel p es s' r) (hsecure : bl.secureBoot)
    (hxip : bl.appXipBinVerify) (hpsram : bl.appPsramBinVerify) :
    Covered bl r.flash.cells s' ↔ RunSees bl fuel r := by
  have hids : imageAppId ≠ imageAppXipId ∧ imageAppId ≠ imageAppPsramId ∧
    imageAppXipId ≠ imageAppPsramId := by decide
  have hpassed := hr.passed_iff hsecure hxip hpsram
  have hiop := (blLoadAppBin_spec hsecure hr.load).1
  constructor
  · rintro ⟨happ, hothers⟩
    rw [hpassed] at happ
    simp only [hpassed] at hothers
    rw [hiop] at hothers
    refine ⟨by simpa [hids] using happ, ?_, ?_⟩
    · intro hreach
      simpa [hids, hids.1.symm] using hothers _ (by simp) hreach
    · intro hreach
      simpa [hids, hids.2.1.symm, hids.2.2.symm] using hothers _ (by simp) hreach
  · rintro ⟨happ, hx, hp⟩
    refine ⟨(hpassed _).mpr (.inr ⟨rfl, happ⟩), ?_⟩
    intro id hid hreach
    rw [hiop] at hreach
    simp only [List.mem_cons, List.not_mem_nil, or_false] at hid
    refine (hpassed _).mpr (.inl ?_)
    rcases hid with rfl | rfl
    · exact ⟨(hx hreach).1, .inl ⟨rfl, (hx hreach).2⟩⟩
    · exact ⟨(hp hreach).1, .inr ⟨rfl, (hp hreach).2⟩⟩

end

/-! ## The other slot -/

/-- The plain bootloader, checking signatures; every signature is right. -/
def checkingBl : BlConfig :=
  { plainBl with
    secureBoot := true
    appXipBinVerify := true
    appPsramBinVerify := true
    uEccVerify := fun _ _ _ => true }

/-- A signed application of four bytes, and behind it an `APP_XIP` without a signature. -/
def otherSlotImage : List Byte :=
  leBytes 4 imageMagicNumber ++ leBytes 4 0 ++ leBytes 2 0x4FE7 ++ leBytes 2 0xFFFF ++ leBytes 4 4 ++
    leBytes 8 0 ++ leBytes 4 4 ++ leBytes 4 imageAttrFlagSign ++ leBytes 4 0x1084 ++
    leBytes 4 imageAppId ++ leBytes 24 0 ++ leBytes 68 0 ++
    (leBytes 32 0 ++ leBytes 4 imageInvalidAddr ++ leBytes 4 imageAppXipId)

/-- Slot 0 is blank, the image is in slot 1. -/
def otherSlotCells : Cells := fun _ a =>
  if a < 0x101000 then plainHeader.getD a blank else otherSlotImage.getD (a - 0x101000) blank

def otherSlotPriv : ImagePriv := ⟨plainOta, fun _ => []⟩

/-- The pass on slot 1. -/
def otherSlotPass : Pass := ⟨0, 0, otherSlotPriv, ⟨otherSlotCells, false⟩⟩

theorem otherSlot_silent :
    Silent (Bl.image (blUncompressImage checkingBl 8 0 0) ⟨otherSlotPriv, []⟩) otherSlotCells := by
  show trace _ _ = []
  decide +kernel

/-- What the pass comes to: the application of slot 1 runs, its signature is all that has been
checked, and the lookup the application makes finds an `APP_XIP`. -/
theorem otherSlot_run :
    (ret (bootOnce checkingBl 8 0 0 ⟨otherSlotPriv, []⟩) otherSlotCells).map (fun r =>
      (r.1, r.2.passed, r.2.img.iop.runningSeq,
        (ret (imageGetAddr oneChip 8 1 imageAppXipId ⟨r.2.img.iop, fun _ => []⟩)
          otherSlotCells).map Prod.fst)) =
      some (.runApp 1, [(1, imageAppId)], 1, some 0x101084) := by decide +kernel

/-- With every request granted, slot 1 runs and is not covered. -/
theorem otherSlot_not_covered : ∃ es s' d', (bootOnce checkingBl 8 0 0).Answers ⟨otherSlotPriv, []⟩
    otherSlotPass.flash es (.runApp 1) s' d' ∧ ∃ r, IsRun checkingBl 8 otherSlotPass es s' r ∧
      ¬Covered checkingBl r.flash.cells s' := by
  obtain ⟨⟨ret, s'⟩, hrun, hr⟩ := Option.map_eq_some_iff.mp otherSlot_run
  simp only [Prod.mk.injEq] at hr
  obtain ⟨rfl, hpassed, hseq, hfound⟩ := hr
  have hanswers := answers_ret (bootOnce checkingBl 8 0 0 ⟨otherSlotPriv, []⟩) otherSlotCells
  rw [hrun] at hanswers
  obtain ⟨r, hr⟩ := isRun_of_answers (p := otherSlotPass) hanswers
  refine ⟨_, s', _, hanswers, r, hr, ?_⟩
  -- all was granted, so the flash is still the one the pass started with
  have hgranted := hr.requests
  rw [bootOnce, Flow.bind_run, granted_bind] at hgranted
  obtain ⟨-, -, hflash⟩ :=
    Answers.granted_of_prefix hr.uncompress otherSlot_silent ⟨_, hgranted⟩
  rw [hflash]
  rintro ⟨-, hothers⟩
  obtain ⟨⟨addr, img⟩, hget, rfl⟩ := Option.map_eq_some_iff.mp hfound
  have hxip := hothers imageAppXipId (by simp)
  rw [hseq, hpassed] at hxip
  exact absurd (hxip ⟨8, _, img, hget, by decide⟩) (by decide)

end Boot
end XR806

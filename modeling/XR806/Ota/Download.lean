import XR806.Ota.Agree
import XR806.Flash.Report

/-!
# XR806.Ota.Download

What `ota_update_image_process` has stored when it returns `OTA_STATUS_OK`, whatever the callbacks
answer and whichever calls of `HAL_Flash_Write` fail (`update_process_stores`).

The loop takes the size of a piece off the size that is left before it writes the piece. A failed
write of the piece that fills the slot leaves 0, which is taken for a full slot: if the sections
there pass their check all the same, the piece is missing and the update succeeds.
-/

namespace XR806
namespace Ota

open Nor Flash Image

/-! ## The stream -/

/-- The answers that are left behind the skipped prefix. -/
def afterSkip : Nat → List Reply → Option (List Reply)
  | 0, replies => some replies
  | _ + 1, [] => none
  | skip + 1, reply :: rest =>
    if !reply.ok || reply.eof then none else afterSkip (skip + 1 - reply.data.length) rest

/-- The number of bytes that are skipped. -/
def skipped : Nat → List Reply → Nat
  | 0, _ => 0
  | _ + 1, [] => 0
  | skip + 1, reply :: rest =>
    if !reply.ok || reply.eof then 0
    else reply.data.length + skipped (skip + 1 - reply.data.length) rest

/-- The bytes that are received for a slot of this size. -/
def received : Nat → List Reply → List Byte
  | 0, _ => []
  | _ + 1, [] => []
  | left + 1, reply :: rest =>
    if !reply.ok then []
    else if reply.eof then reply.data
    else reply.data ++ received (left + 1 - reply.data.length) rest

/-- The bytes that are received behind the skipped prefix. -/
def receivedAfter (skip left : Nat) (replies : List Reply) : List Byte :=
  match afterSkip skip replies with
  | none => []
  | some rest => received left rest

/-- No answer is longer than it was asked for. -/
def Fits : Nat → Nat → List Reply → Prop
  | _, _, [] => True
  | 0, left, reply :: rest =>
    reply.data.length ≤ min left otaBufSize ∧ Fits 0 (left - reply.data.length) rest
  | skip + 1, left, reply :: rest =>
    reply.data.length ≤ min (skip + 1) otaBufSize ∧
      Fits (skip + 1 - reply.data.length) left rest

/-! ## Calls of `HAL_Flash_Write` -/

/-- A call, and whether it returned `HAL_OK`. -/
structure WriteCall where
  addr : Nat
  data : List Byte
  ok : Bool

inductive Calls (board : Board) (flash : Nat) :
    List WriteCall → Devices → List Event → Devices → Prop
  | nil (s : Devices) : Calls board flash [] s [] s
  | cons {call : WriteCall} {calls : List WriteCall} {s s₁ s' : Devices} {es es' : List Event}
    (h : Answers (halFlashWrite board flash call.addr call.data) s es call.ok s₁)
    (hrest : Calls board flash calls s₁ es' s') :
    Calls board flash (call :: calls) s (es ++ es') s'

/-- Each call is for the bytes behind those of the call before. -/
def InLine : Nat → List WriteCall → Prop
  | _, [] => True
  | addr, call :: calls => call.addr = addr ∧ InLine (u32 (addr + call.data.length)) calls

def written (calls : List WriteCall) : List Byte := calls.flatMap (·.data)

/-- The data was written from `addr` on. -/
structure Stored (addr : Nat) (data : List Byte) (calls : List WriteCall) : Prop where
  done : ∀ call ∈ calls, call.ok = true
  inLine : InLine addr calls
  data : written calls = data

@[simp] theorem written_nil : written [] = [] := rfl

@[simp] theorem written_cons {call : WriteCall} {calls : List WriteCall} :
    written (call :: calls) = call.data ++ written calls := rfl

section

variable {board : Board} {flash addr skip left : Nat} {replies rest : List Reply} {reply : Reply}
  {ota ota' : OtaState} {s s' : Devices} {es : List Event}

/-! ## The loops -/

theorem answers_skipLoop {r : Option (List Reply)} (hfits : Fits skip left replies)
    (hget : ota.getSize < 2 ^ 32)
    (h : Flow.Answers (skipLoop replies skip) ota s es r ota' s') :
    es = [] ∧ s' = s ∧ r = afterSkip skip replies ∧
      ota' = { ota with getSize := u32 (ota.getSize + skipped skip replies) } ∧
      ∀ rest, r = some rest → Fits 0 left rest := by
  induction replies generalizing skip ota es with
  | nil =>
    cases skip with
    | zero =>
      obtain ⟨rfl, rfl, rfl, rfl⟩ := Flow.answers_pure.mp h
      refine ⟨rfl, rfl, rfl, ?_, fun rest heq => ?_⟩
      · rw [skipped, Nat.add_zero, u32_of_lt hget]
      · cases heq
        trivial
    | succ skip => exact absurd h Flow.not_answers_hang
  | cons reply rest ih =>
    cases skip with
    | zero =>
      obtain ⟨rfl, rfl, rfl, rfl⟩ := Flow.answers_pure.mp h
      refine ⟨rfl, rfl, rfl, ?_, fun rest heq => ?_⟩
      · rw [skipped, Nat.add_zero, u32_of_lt hget]
      · cases heq
        exact hfits
    | succ skip =>
      simp only [skipLoop, if_neg (Nat.succ_ne_zero skip)] at h
      simp only [afterSkip, skipped]
      split at h
      · rename_i hbad
        obtain ⟨rfl, rfl, rfl, rfl⟩ := Flow.answers_pure.mp h
        rw [if_pos hbad, if_pos hbad]
        refine ⟨rfl, rfl, rfl, ?_, nofun⟩
        rw [Nat.add_zero, u32_of_lt hget]
      · rename_i hgood
        obtain ⟨es₁, es₂, u, ota₁, s₁, rfl, h₁, h₂⟩ := Flow.answers_bind.mp h
        obtain ⟨rfl, rfl, rfl⟩ := Flow.answers_modify.mp h₁
        rw [if_neg hgood, if_neg hgood]
        rw [sub32_of_le (by have := hfits.1; omega)] at h₂
        obtain ⟨rfl, rfl, rfl, rfl, hrest⟩ := ih hfits.2 (Nat.mod_lt _ (by decide)) h₂
        refine ⟨rfl, rfl, rfl, ?_, hrest⟩
        simp only [u32, Nat.mod_add_mod, Nat.add_assoc]

/-- What the loop over the slot did. -/
structure WriteRun (board : Board) (flash addr left : Nat) (replies : List Reply) (ota : OtaState)
    (s : Devices) (es : List Event) (ok : Bool) (left' : Nat) (ota' : OtaState) (s' : Devices)
    (calls : List WriteCall) : Prop where
  made : Calls board flash calls s es s'
  inLine : InLine addr calls
  part : written calls <+: received left replies
  size : left' + (written calls).length = left
  count : ota' = { ota with getSize := u32 (ota.getSize + (written calls).length) }
  failed : (∃ call ∈ calls, call.ok = false) → ok = false
  all : (∀ call ∈ calls, call.ok = true) → ok = true ∨ left' = 0 →
    written calls = received left replies

/-- The loop ends without a write. -/
theorem WriteRun.stop {ok : Bool} (hget : ota.getSize < 2 ^ 32)
    (hall : ok = true ∨ left = 0 → received left replies = []) :
    WriteRun board flash addr left replies ota s [] ok left ota s [] where
  made := .nil s
  inLine := trivial
  part := List.nil_prefix
  size := rfl
  count := by rw [written_nil, List.length_nil, Nat.add_zero, u32_of_lt hget]
  failed := nofun
  all _ h := (hall h).symm

/-- The loop writes a piece, and goes on unless that failed. -/
theorem WriteRun.cons (next : List Reply) {es' : List Event} {s₁ : Devices} {data : List Byte}
    {done ok : Bool} {left' : Nat} {calls : List WriteCall}
    (h : Answers (halFlashWrite board flash addr data) s es done s₁) (hle : data.length ≤ left)
    (hrec : received left replies = data ++ received (left - data.length) next)
    (hfail : done = false → ok = false)
    (hrun : WriteRun board flash (u32 (addr + data.length)) (left - data.length) next
      { ota with getSize := u32 (ota.getSize + data.length) } s₁ es' ok left' ota' s' calls) :
    WriteRun board flash addr left replies ota s (es ++ es') ok left' ota' s'
      (⟨addr, data, done⟩ :: calls) where
  made := .cons h hrun.made
  inLine := ⟨rfl, hrun.inLine⟩
  part := by
    rw [hrec, written_cons]
    exact (List.prefix_append_right_inj _).mpr hrun.part
  size := by
    have := hrun.size
    rw [written_cons, List.length_append]
    dsimp only
    omega
  count := by
    rw [hrun.count, written_cons, List.length_append]
    simp only [u32, Nat.mod_add_mod, Nat.add_assoc]
  failed := by
    rintro ⟨call, hcall, hok⟩
    cases hcall with
    | head => exact hfail hok
    | tail _ hcall => exact hrun.failed ⟨call, hcall, hok⟩
  all hok hend := by
    rw [hrec, written_cons, hrun.all (fun call hcall => hok call (List.mem_cons_of_mem _ hcall)) hend]

@[simp] theorem received_zero : received 0 replies = [] := by cases replies <;> rfl

@[simp] theorem received_nil : received left [] = [] := by cases left <;> rfl

theorem answers_writeLoop {ok : Bool} {left' : Nat} (hfits : Fits 0 left replies)
    (hget : ota.getSize < 2 ^ 32)
    (h : Flow.Answers (writeLoop board flash replies addr left) ota s es (ok, left') ota' s') :
    ∃ calls, WriteRun board flash addr left replies ota s es ok left' ota' s' calls := by
  induction replies generalizing addr left ota s es with
  | nil =>
    rw [writeLoop] at h
    split at h
    · obtain ⟨rfl, heq, rfl, rfl⟩ := Flow.answers_pure.mp h
      cases heq
      exact ⟨[], .stop hget fun _ => received_nil⟩
    · exact absurd h Flow.not_answers_hang
  | cons reply rest ih =>
    simp only [writeLoop] at h
    split at h
    · rename_i hzero
      obtain ⟨rfl, heq, rfl, rfl⟩ := Flow.answers_pure.mp h
      cases heq
      rw [hzero]
      exact ⟨[], .stop hget fun _ => received_zero⟩
    rename_i hpos
    obtain ⟨left, rfl⟩ : ∃ n, left = n + 1 := ⟨left - 1, by omega⟩
    split at h
    · rename_i hbad
      obtain ⟨rfl, heq, rfl, rfl⟩ := Flow.answers_pure.mp h
      cases heq
      exact ⟨[], .stop hget fun _ => by rw [received, if_pos hbad]⟩
    rename_i hgood
    split at h
    · rename_i hempty
      have hnil : reply.data = [] := List.length_eq_zero_iff.mp hempty
      split at h
      · rename_i heof
        obtain ⟨rfl, heq, rfl, rfl⟩ := Flow.answers_pure.mp h
        cases heq
        exact ⟨[], .stop hget fun _ => by rw [received, if_neg hgood, if_pos heof, hnil]⟩
      · rename_i heof
        have hfits' := hfits.2
        rw [hempty, Nat.sub_zero] at hfits'
        obtain ⟨calls, hrun⟩ := ih hfits' hget h
        have hrec : received (left + 1) (reply :: rest) = received (left + 1) rest := by
          rw [received, if_neg hgood, if_neg heof, hempty, hnil, List.nil_append, Nat.sub_zero]
        exact ⟨calls, hrun.made, hrun.inLine, hrec ▸ hrun.part, hrun.size, hrun.count,
          hrun.failed, hrec ▸ hrun.all⟩
    have hle : reply.data.length ≤ left + 1 := by
      have := hfits.1
      omega
    rw [sub32_of_le hle] at h
    obtain ⟨es₁, es₂, u, ota₁, s₁, rfl, h₁, hwrite⟩ := Flow.answers_bind.mp h
    obtain ⟨rfl, rfl, rfl⟩ := Flow.answers_modify.mp h₁
    obtain ⟨es₃, es₄, done, ota₂, s₂, rfl, h₂, hnext⟩ := Flow.answers_bind.mp hwrite
    obtain ⟨hcall, rfl⟩ := Flow.answers_lift.mp h₂
    have hsize : u32 (ota.getSize + reply.data.length) < 2 ^ 32 := Nat.mod_lt _ (by decide)
    rw [List.nil_append]
    cases done with
    | false =>
      obtain ⟨rfl, heq, rfl, rfl⟩ := Flow.answers_pure.mp hnext
      cases heq
      refine ⟨_, .cons (if reply.eof then [] else rest) hcall hle ?_ (fun _ => rfl)
        (.stop hsize fun hend => ?_)⟩
      · rw [received, if_neg hgood]
        cases reply.eof <;> simp
      · rw [hend.resolve_left nofun, received_zero]
    | true =>
      simp only [Bool.not_true, Bool.false_eq_true, if_false] at hnext
      split at hnext
      · rename_i heof
        obtain ⟨rfl, heq, rfl, rfl⟩ := Flow.answers_pure.mp hnext
        cases heq
        refine ⟨_, .cons [] hcall hle ?_ nofun (.stop hsize fun _ => received_nil)⟩
        rw [received, if_neg hgood, if_pos heof, received_nil, List.append_nil]
      · rename_i heof
        obtain ⟨calls, hrun⟩ := ih hfits.2 hsize hnext
        refine ⟨_, .cons rest hcall hle ?_ nofun hrun⟩
        rw [received, if_neg hgood, if_neg heof]

end

/-! ## The whole process -/

section

variable {board : Board} {policy : Policy} {iop : OtaParam} {seq fuel : Nat} {initOk : Bool}
  {replies asked : List Reply} {ota ota' : OtaState} {s s' : Devices} {es : List Event}
  {calls : List WriteCall} {ok : Bool}

/-- The requests of a download: the slot is erased, the buffer allocated, the pieces written. -/
def Requests (board : Board) (flash addr max : Nat) (s : Devices) (es : List Event) (s' : Devices)
    (calls : List WriteCall) : Prop :=
  ∃ es₀ mem es₁ s₀ erased, es = es₀ ++ (mem ++ es₁) ∧
    Answers (flashErase board flash addr max) s es₀ erased s₀ ∧
    (mem = [] ∨ ∃ got, mem = [.alloc otaBufSize got]) ∧ Calls board flash calls s₀ es₁ s'

/-- What the download did. -/
structure Loading (board : Board) (flash addr skip max : Nat) (asked : List Reply) (s : Devices)
    (es : List Event) (loaded : Bool) (ota' : OtaState) (s' : Devices) (calls : List WriteCall) :
    Prop where
  requests : Requests board flash addr max s es s' calls
  inLine : InLine addr calls
  part : written calls <+: receivedAfter skip max asked
  stored : loaded = true → (∀ call ∈ calls, call.ok = true) →
    written calls = receivedAfter skip max asked
  count : loaded = true → ota'.getSize = u32 (skipped skip asked + (written calls).length)
  failed : (∃ call ∈ calls, call.ok = false) → (loaded = true ↔ (written calls).length = max)

variable {flash addr skip max : Nat}

theorem receivedAfter_zero : receivedAfter skip 0 asked = [] := by
  unfold receivedAfter
  split
  · rfl
  · exact received_zero

/-- The download ends without a write: with an error, unless there is no slot to fill. -/
theorem Loading.none {es₀ mem : List Event} {erased : Bool} {loaded : Bool}
    (h : Answers (flashErase board flash addr max) s es₀ erased s')
    (hmem : mem = [] ∨ ∃ got, mem = [.alloc otaBufSize got]) (hloaded : loaded = true → max = 0)
    (hcount : loaded = true → ota'.getSize = u32 (skipped skip asked)) :
    Loading board flash addr skip max asked s (es₀ ++ mem) loaded ota' s' [] where
  requests := ⟨es₀, mem, [], s', erased, by rw [List.append_nil], h, hmem, .nil s'⟩
  inLine := trivial
  part := List.nil_prefix
  stored hl _ := by rw [hloaded hl, receivedAfter_zero, written_nil]
  count := hcount
  failed := nofun

theorem answers_otaDownload (hiop : ota.iop = some iop) (hget : ota.getSize = 0)
    (hfits : Fits (uint32 (skipOrDefault policy iop ota.skipSize)) (imgMaxSize policy iop) replies)
    (h : Flow.Answers (otaDownload board policy seq initOk replies) ota s es ok ota' s') :
    ota'.iop = some iop ∧ ∃ calls, Loading board (iop.flash seq) (iop.addr seq)
      (uint32 (skipOrDefault policy iop ota.skipSize)) (imgMaxSize policy iop)
      (if initOk then replies else []) s es ok ota' s' calls := by
  unfold otaDownload at h
  generalize hskip : uint32 (skipOrDefault policy iop ota.skipSize) = skip at hfits ⊢
  generalize hmax : imgMaxSize policy iop = max at hfits ⊢
  obtain ⟨es₁, es₂, t, ota₁, s₁, rfl, h₁, hrest⟩ := Flow.answers_bind.mp h
  obtain ⟨rfl, rfl, rfl, rfl⟩ := Flow.answers_get.mp h₁
  simp only [hiop, hskip, hmax] at hrest
  obtain ⟨es₃, es₄, erased, ota₂, s₂, rfl, h₂, hmem⟩ := Flow.answers_bind.mp hrest
  obtain ⟨herase, rfl⟩ := Flow.answers_lift.mp h₂
  rw [List.nil_append]
  cases erased with
  | false =>
    obtain ⟨rfl, rfl, rfl, rfl⟩ := Flow.answers_pure.mp hmem
    exact ⟨hiop, [], .none herase (.inl rfl) nofun nofun⟩
  | true =>
  obtain ⟨es₅, es₆, mem, ota₃, s₃, rfl, h₃, hinit⟩ := Flow.answers_bind.mp hmem
  obtain ⟨halloc, rfl⟩ := Flow.answers_lift.mp h₃
  obtain ⟨rfl, rfl⟩ := answers_allocReq.mp halloc
  cases mem with
  | false =>
    obtain ⟨rfl, rfl, rfl, rfl⟩ := Flow.answers_pure.mp hinit
    exact ⟨hiop, [], .none herase (.inr ⟨_, rfl⟩) nofun nofun⟩
  | true =>
  cases initOk with
  | false =>
    obtain ⟨rfl, rfl, rfl, rfl⟩ := Flow.answers_pure.mp hinit
    refine ⟨hiop, [], .none herase (.inr ⟨_, rfl⟩) of_decide_eq_true fun _ => ?_⟩
    rw [hget]
    cases skip <;> rfl
  | true =>
  obtain ⟨es₇, es₈, u, ota₄, s₄, rfl, h₄, hloop⟩ := Flow.answers_bind.mp hinit
  obtain ⟨rfl, rfl, rfl⟩ := Flow.answers_modify.mp h₄
  obtain ⟨es₉, es', rest, ota₅, s₅, rfl, h₅, hwrite⟩ := Flow.answers_bind.mp hloop
  obtain ⟨rfl, rfl, rfl, rfl, hfits'⟩ := answers_skipLoop hfits (Nat.two_pow_pos 32) h₅
  simp only [List.nil_append, Nat.zero_add, if_true] at hwrite ⊢
  cases hafter : afterSkip skip replies with
  | none =>
    rw [hafter] at hwrite
    obtain ⟨rfl, rfl, rfl, rfl⟩ := Flow.answers_pure.mp hwrite
    exact ⟨hiop, [], .none herase (.inr ⟨_, rfl⟩) of_decide_eq_true fun _ => rfl⟩
  | some rest =>
    rw [hafter] at hwrite
    obtain ⟨es₁₀, es₁₁, ⟨done, left'⟩, ota₆, s₆, rfl, h₆, hend⟩ := Flow.answers_bind.mp hwrite
    obtain ⟨rfl, rfl, rfl, rfl⟩ := Flow.answers_pure.mp hend
    obtain ⟨calls, hrun⟩ := answers_writeLoop (hfits' rest hafter) (Nat.mod_lt _ (by decide)) h₆
    have hrec : receivedAfter skip max replies = received max rest := by
      rw [receivedAfter, hafter]
    have hleft := hrun.size
    refine ⟨by rw [hrun.count]; exact hiop, calls, ?_⟩
    rw [List.append_nil]
    refine ⟨⟨es₃, _, es₁₀, _, true, rfl, herase, .inr ⟨_, rfl⟩, hrun.made⟩, hrun.inLine,
      ?_, fun hok hall => ?_, fun _ => ?_, fun hfail => ?_⟩
    · rw [hrec]
      exact hrun.part
    · rw [hrec]
      exact hrun.all hall (by simpa using hok)
    · rw [hrun.count]
      simp only [u32, Nat.mod_add_mod]
    · rw [hrun.failed hfail, Bool.false_or, decide_eq_true_eq]
      omega

theorem answers_otaCheckLoaded (h : Flow.Answers (otaCheckLoaded board fuel seq) ota s es ok ota' s') :
    ota' = ota := by
  obtain ⟨es₁, es₂, t, ota₁, s₁, rfl, h₁, hrest⟩ := Flow.answers_bind.mp h
  obtain ⟨rfl, rfl, rfl, rfl⟩ := Flow.answers_get.mp h₁
  split at hrest
  · exact absurd hrest Flow.not_answers_hang
  · obtain ⟨es₃, es₄, val, ota₂, s₂, rfl, h₂, hnext⟩ := Flow.answers_bind.mp hrest
    obtain ⟨-, rfl⟩ := Flow.answers_lift.mp h₂
    split at hnext
    · exact absurd hnext Flow.not_answers_hang
    · exact (Flow.answers_pure.mp hnext).2.2.1

/-- The run of the process: the download, and when that has loaded all, the check of the sections,
which answers `valid`. -/
structure Transfer (board : Board) (policy : Policy) (iop : OtaParam) (fuel seq skip : Nat)
    (asked : List Reply) (s : Devices) (es : List Event) (ok : Bool) (ota' : OtaState)
    (s' : Devices) (calls : List WriteCall) (valid : Bool) : Prop where
  run : ∃ es₁ es₂ s₁, es = es₁ ++ es₂ ∧
    Requests board (iop.flash seq) (iop.addr seq) (imgMaxSize policy iop) s es₁ s₁ calls ∧
    (es₂ = [] ∧ ok = false ∨
      Flow.Answers (otaCheckLoaded board fuel seq) ota' s₁ es₂ valid ota' s' ∧ ok = valid)
  inLine : InLine (iop.addr seq) calls
  part : written calls <+: receivedAfter skip (imgMaxSize policy iop) asked

/-- An update that succeeds has stored what it received, and counted it, just when no write fails
with which the slot is full and then found valid. -/
theorem update_process_stores (hiop : ota.iop = some iop) (hget : ota.getSize = 0)
    (hfits : Fits (uint32 (skipOrDefault policy iop ota.skipSize)) (imgMaxSize policy iop) replies)
    (h : Flow.Answers (otaUpdateImageProcess board policy fuel seq initOk replies) ota s es ok ota'
      s') :
    ∃ skip asked data calls valid,
      skip = uint32 (skipOrDefault policy iop ota.skipSize) ∧
      asked = (if initOk then replies else []) ∧
      data = receivedAfter skip (imgMaxSize policy iop) asked ∧
      Transfer board policy iop fuel seq skip asked s es ok ota' s' calls valid ∧
      ((ok = true → Stored (iop.addr seq) data calls ∧
          ota'.getSize = u32 (skipped skip asked + data.length)) ↔
        (valid = true → ∀ call ∈ calls, call.ok = false →
          (written calls).length ≠ imgMaxSize policy iop)) := by
  obtain ⟨es₁, es₂, loaded, ota₁, s₁, rfl, h₁, hrest⟩ := Flow.answers_bind.mp h
  obtain ⟨hiop₁, calls, hload⟩ := answers_otaDownload hiop hget hfits h₁
  cases loaded with
  | false =>
    obtain ⟨rfl, rfl, rfl, rfl⟩ := Flow.answers_pure.mp hrest
    refine ⟨_, _, _, calls, true, rfl, rfl, rfl, ⟨⟨es₁, [], _, rfl, hload.requests, .inl ⟨rfl, rfl⟩⟩,
      hload.inLine, hload.part⟩, iff_of_true nofun fun _ call hcall hok hfull => ?_⟩
    cases (hload.failed ⟨call, hcall, hok⟩).mpr hfull
  | true =>
    obtain rfl := answers_otaCheckLoaded hrest
    refine ⟨_, _, _, calls, ok, rfl, rfl, rfl, ⟨⟨es₁, es₂, _, rfl, hload.requests,
      .inr ⟨hrest, rfl⟩⟩, hload.inLine, hload.part⟩, forall_congr' fun _ => ?_⟩
    constructor
    · intro hall call hcall hok
      rw [hall.1.done call hcall] at hok
      cases hok
    · intro hlost
      have hdone : ∀ call ∈ calls, call.ok = true := fun call hcall => by
        by_contra hok
        have hfail : call.ok = false := by simpa using hok
        exact hlost call hcall hfail ((hload.failed ⟨call, hcall, hfail⟩).mp rfl)
      have hdata := hload.stored rfl hdone
      exact ⟨⟨hdone, hload.inLine, hdata⟩, by rw [hload.count rfl, hdata]⟩

end

/-! ## An image of two sections -/

/-- A section header without data. -/
def emptySection (chksum next id : Nat) : List Byte :=
  leBytes 4 imageMagicNumber ++ leBytes 4 0 ++ leBytes 2 chksum ++ leBytes 2 0xFFFF ++
    leBytes 20 0 ++ leBytes 4 next ++ leBytes 4 id ++ leBytes 24 0

/-- A bootloader in front of slot 0 of `smallParam`. -/
def bootCells : Cells := fun _ a => (emptySection 0x2077 0x4000 imageBootId).getD a blank

/-- An application that fills the slot; its last byte comes alone. -/
def appReplies : List Reply :=
  [⟨true, emptySection 0x6079 imageInvalidAddr 0xA5FE5A01 ++ List.replicate 1984 blank, false⟩,
    ⟨true, List.replicate 2047 blank, false⟩, ⟨true, [0], false⟩]

def appUpdate : Prog (Option (Bool × OtaState)) :=
  otaUpdateImageProcess smallBoard .pingpong 2 0 true appReplies ⟨some smallParam, 0, 0⟩

/-- The download of it, the commands answered by `oks`. -/
theorem answers_appUpdate {oks : List Bool} {n : Nat}
    (h : (replay appUpdate oks bootCells).2.1.map (fun r => (r.1, r.2.getSize)) = some (true, n)) :
    ∃ ota', Flow.Answers (otaUpdateImageProcess smallBoard .pingpong 2 0 true appReplies)
      ⟨some smallParam, 0, 0⟩ ⟨bootCells, false⟩ (replay appUpdate oks bootCells).1 true ota'
      ⟨(replay appUpdate oks bootCells).2.2, false⟩ ∧ ota'.getSize = n := by
  obtain ⟨⟨ok, ota'⟩, hr, heq⟩ := Option.map_eq_some_iff.mp h
  cases heq
  have hrun := answers_replay appUpdate oks bootCells
  rw [hr] at hrun
  exact ⟨ota', hrun, rfl⟩

theorem fits_appReplies : Fits 0 4096 appReplies := by
  simp only [appReplies, Fits, List.length_append, List.length_replicate]
  decide

set_option maxRecDepth 100000 in
theorem update_process_stores_small : ∃ (ota' : OtaState) (calls : List WriteCall),
    ota'.getSize = 4096 ∧
    ((∀ call ∈ calls, call.ok = false → (written calls).length ≠ 4096) →
      Stored 0x4000 (receivedAfter 0 4096 appReplies) calls) := by
  have hgranted : (replay appUpdate [] bootCells).2.1.map (fun r => (r.1, r.2.getSize)) =
      some (true, 4096) := by decide
  obtain ⟨ota', hrun, hcount⟩ := answers_appUpdate hgranted
  obtain ⟨skip, asked, data, calls, valid, rfl, rfl, rfl, -, hiff⟩ :=
    update_process_stores (show (⟨some smallParam, 0, 0⟩ : OtaState).iop = some smallParam from rfl)
      rfl (by exact fits_appReplies) hrun
  exact ⟨ota', calls, hcount, fun hlost => (hiff.mpr (fun _ => hlost) rfl).1⟩

set_option maxRecDepth 100000 in
/-- The command for the last byte is refused, and the update succeeds without it. -/
theorem last_byte_lost : ∃ es ota' s',
    Flow.Answers (otaUpdateImageProcess smallBoard .pingpong 2 0 true appReplies)
      ⟨some smallParam, 0, 0⟩ ⟨bootCells, false⟩ es true ota' s' ∧
    (receivedAfter 0 4096 appReplies).getD 4095 blank = 0 ∧
    s'.cells 0 (0x4000 + 4095) = blank ∧
    Event.command (.program 0 (0x4000 + 4095) [0]) false ∈ es := by
  have hrefused : (replay appUpdate (List.replicate 33 true ++ [false]) bootCells).2.1.map
      (fun r => (r.1, r.2.getSize)) = some (true, 4096) := by decide
  obtain ⟨ota', hrun, -⟩ := answers_appUpdate hrefused
  exact ⟨_, ota', _, hrun, by decide, by decide, by decide⟩

end Ota
end XR806

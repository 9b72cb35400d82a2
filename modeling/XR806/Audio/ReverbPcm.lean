import XR806.Audio.ReverbBuffer
import Mathlib.Data.Fintype.Basic
import Mathlib.Data.List.Nodup
import Mathlib.Algebra.Ring.Int.Defs

/-!
# XR806.Audio.ReverbPcm

The reverb stream: writes put their bytes into a ring, and in block mode wait on a binary semaphore
for the room that they lack; a read gets bytes and releases the semaphore when the flag
`waitingSem` says that a write waits. Any number of writes can overlap, since nothing locks them.

A token that is left over from a read costs a write another round only. But there is one flag for
all of the writes, and each clears it as it goes on: another one that waits is not released then,
however much room there is. It does not come to that while a write begins to wait only when no other
one waits or has still to go on (`reverb_kept`).
-/

namespace XR806
namespace Audio
namespace ReverbPcm

open Trans (Along along_foldl along_and along_forall)

/-! ## The stream -/

def ringBufSize : Nat := 4096

/-- `struct ReverbPcmConfig`, and the fields of `struct SscPcmConfig` that a write reads. -/
structure Config where
  channels : Nat
  rate : Nat

/-- Where a write is, with its size and the bytes that it has left. -/
inductive Phase
  | fresh
  | running (left : List UInt8)
  /-- In `RG_SemaphoreWait`. -/
  | waiting (size : Nat) (left : List UInt8)
  /-- The token is handed to it. -/
  | released (size : Nat) (left : List UInt8)
  | returned (size : Nat)
  deriving DecidableEq

namespace Phase

def release : Phase → Phase
  | waiting size left => released size left
  | ph => ph

def Waits : Phase → Prop
  | waiting .. => True
  | _ => False

/-- In its wait, or behind it and still to go on. -/
def Pending : Phase → Prop
  | waiting .. | released .. => True
  | _ => False

instance : DecidablePred Pending := fun ph => by
  unfold Pending
  split <;> infer_instance

/-- What has been put is the begin of what was given, up to what is left. -/
def Owes (written given : List UInt8) : Phase → Prop
  | fresh => written = []
  | running left | waiting _ left | released _ left => written ++ left = given
  | returned _ => written = given

end Phase

variable {W : Type*}

/-- `ReverbContext`, with the tokens of the semaphore and the writes that wait for one, in the order
in which they get it. Behind that, of each write where it is and the bytes that it has to put, the
bytes that were put with the write each is of, and the bytes that the reads have got. -/
structure State (W : Type*) where
  ring : ReverbBuffer
  outputInfo : Config
  putBlock : Nat
  waitingSem : Bool
  tokens : Nat
  waiters : List W
  phase : W → Phase
  given : W → List UInt8
  log : List (W × UInt8)
  got : List UInt8

/-- `reverb_pcm_create`. -/
def reverbPcmCreate : Option (State W) :=
  (ReverbBuffer.init ringBufSize).map fun ring =>
    { ring
      outputInfo := ⟨1, 16000⟩
      putBlock := 0
      waitingSem := false
      tokens := 0
      waiters := []
      phase := fun _ => .fresh
      given := fun _ => []
      log := []
      got := [] }

/-- What a write has to put: `mixer` is `mixer_process`, which works in place, and `resampled` what
the resampler makes of it, where it is asked. -/
def converted (mixer : List UInt8 → List UInt8) (outputInfo config : Config)
    (data resampled : List UInt8) : List UInt8 :=
  if outputInfo.rate ≠ 0 ∧ outputInfo.rate ≠ config.rate then resampled
  else if outputInfo.channels ≠ 0 ∧ outputInfo.channels ≠ config.channels % 2 ^ 8 then
    (mixer data).take (data.length / 2)
  else data

namespace State

/-- `RG_SemaphoreRelease`. -/
def semaphoreRelease [DecidableEq W] (s : State W) : State W :=
  if 1 ≤ s.tokens then s
  else
    match s.waiters with
    | [] => { s with tokens := s.tokens + 1 }
    | w :: rest =>
      { s with
        waiters := rest
        phase := Function.update s.phase w (s.phase w).release }

/-- `reverb_pcm_read`. -/
def reverbPcmRead [DecidableEq W] (s : State W) (size : Nat) : State W × Nat :=
  let r := s.ring.get size
  let s := { s with ring := r.1, got := s.got ++ r.2.2 }
  (if s.waitingSem then s.semaphoreRelease else s, r.2.1)

/-- `STREAM_CMD_SET_BLOCK_MODE`. -/
def setBlockMode [DecidableEq W] (s : State W) (block : Int) : State W :=
  let s := { s with putBlock := (block % 2 ^ 8).toNat }
  if block = 0 then if s.waitingSem then s.semaphoreRelease else s else s

/-- `STREAM_CMD_SET_OUTPUT_CONFIG`. -/
def setOutputConfig (s : State W) (config : Config) : State W :=
  if config.channels > 1 then s else { s with outputInfo := config }

section
variable [DecidableEq W]

def goto (s : State W) (w : W) (ph : Phase) : State W :=
  { s with phase := Function.update s.phase w ph }

/-- The put of a write. -/
def put (s : State W) (w : W) (left : List UInt8) : State W :=
  { s with
    ring := (s.ring.put left).1
    log := s.log ++ (left.take (s.ring.put left).2).map (w, ·) }.goto w
      (.running (left.drop (s.ring.put left).2))

/-- A write waits, at a place among those that wait already. -/
def suspend (s : State W) (w : W) (size place : Nat) (left : List UInt8) : State W :=
  { s with
    waitingSem := true
    waiters := s.waiters.take place ++ w :: s.waiters.drop place }.goto w (.waiting size left)

/-- The loop of `reverb_pcm_write`, up to its wait: a token that is there is taken at once. -/
def writeLoop (w : W) (size place : Nat) : (tokens : Nat) → State W → List UInt8 → State W
  | tokens, s, left =>
    if left = [] then s.goto w (.returned size)
    else
      let rest := left.drop (s.ring.put left).2
      let s := s.put w left
      if rest ≠ [] ∧ s.putBlock ≠ 0 then
        match tokens with
        | 0 => s.suspend w size place rest
        | n + 1 => writeLoop w size place n { s with tokens := n, waitingSem := false } rest
      else s.goto w (.returned size)

/-- `reverb_pcm_write`, of `size` bytes, with `bytes` to put. -/
def reverbPcmWrite (s : State W) (w : W) (size place : Nat) (bytes : List UInt8) : State W :=
  writeLoop w size place s.tokens
    ({ s with given := Function.update s.given w bytes }.goto w (.running bytes)) bytes

/-- A write goes on behind its wait. -/
def resume (s : State W) (w : W) (place : Nat) : State W :=
  match s.phase w with
  | .released size left =>
    writeLoop w size place s.tokens ({ s with waitingSem := false }.goto w (.running left)) left
  | _ => s

end

end State

/-! ## Runs -/

inductive Label (W : Type*)
  | write (w : W) (config : Config) (data resampled : List UInt8) (place : Nat)
  | resume (w : W) (place : Nat)
  | read (size : Nat)
  | setBlockMode (block : Int)
  | setOutputConfig (config : Config)

/-- The block mode is not left. -/
def Label.Blocks : Label W → Prop
  | setBlockMode block => block % 2 ^ 8 ≠ 0
  | _ => True

instance : DecidablePred (Label.Blocks (W := W)) := fun a => by
  unfold Label.Blocks
  split <;> infer_instance

namespace State

variable (mixer : List UInt8 → List UInt8)

/-- Each write is called once. -/
def next [DecidableEq W] (s : State W) : Label W → State W
  | .write w config data resampled place =>
    if s.phase w = .fresh then
      s.reverbPcmWrite w data.length place (converted mixer s.outputInfo config data resampled)
    else s
  | .resume w place => s.resume w place
  | .read size => (s.reverbPcmRead size).1
  | .setBlockMode block => s.setBlockMode block
  | .setOutputConfig config => s.setOutputConfig config

/-- The bytes that are to be put as the step begins. -/
def toPut [DecidableEq W] (s : State W) : Label W → Option (W × List UInt8)
  | .write w config data resampled _ =>
    if s.phase w = .fresh then some (w, converted mixer s.outputInfo config data resampled)
    else none
  | .resume w _ =>
    match s.phase w with
    | .released _ left => some (w, left)
    | _ => none
  | _ => none

/-- A write finds room for its bytes, or no other one waits or has still to go on. -/
def Apart [DecidableEq W] (s : State W) (a : Label W) : Prop :=
  match s.toPut mixer a with
  | some (w, left) => s.ring.free < left.length → ∀ u, (s.phase u).Pending → u = w
  | none => True

instance [Fintype W] [DecidableEq W] (s : State W) : DecidablePred (s.Apart mixer) := fun a => by
  unfold Apart
  split <;> infer_instance

/-- The bytes of the write that were put. -/
def written [DecidableEq W] (s : State W) (w : W) : List UInt8 :=
  (s.log.filter (·.1 = w)).map Prod.snd

/-- The reads have got the bytes in the order of the puts, the writes that have returned have put
all of theirs, and while there is room the next read releases each one that waits. -/
structure Law [DecidableEq W] (s : State W) : Prop where
  ordered : s.got <+: s.log.map Prod.snd
  written : ∀ w size, s.phase w = .returned size → s.written w = s.given w
  released : ∀ w size left, s.phase w = .waiting size left → 0 < s.ring.free →
    ∀ n, ((s.reverbPcmRead n).1.phase w) = .released size left

/-! ## What each step keeps -/

/-- The bytes that were put are those that were got and those in the ring, and each write has put
what it does not have left. -/
structure Accounted [DecidableEq W] (s : State W) : Prop where
  flow : ∃ items, s.ring.Stores items ∧ s.log.map Prod.snd = s.got ++ items
  owes : ∀ w, (s.phase w).Owes (s.written w) (s.given w)

/-- At most one write is in its wait or has still to go on, and when it waits the flag is set and no
token is there. -/
structure Queued (s : State W) : Prop where
  waits : ∀ w, w ∈ s.waiters ↔ (s.phase w).Waits
  nodup : s.waiters.Nodup
  single : ∀ u v, (s.phase u).Pending → (s.phase v).Pending → u = v
  token : s.waiters ≠ [] → s.tokens = 0
  flag : s.waiters ≠ [] → s.waitingSem = true

structure Orderly [DecidableEq W] (s : State W) : Prop where
  accounted : s.Accounted
  queued : s.Queued
  blocking : s.putBlock ≠ 0

end State

namespace Phase

theorem Waits.pending {ph : Phase} (h : ph.Waits) : ph.Pending := by
  cases ph with
  | waiting | released => trivial
  | fresh | running | returned => exact h

end Phase

namespace State

section

variable [DecidableEq W] {s : State W} {w u : W} {left : List UInt8} {ph : Phase}

@[simp] theorem goto_phase_same : (s.goto w ph).phase w = ph := Function.update_self _ _ _

theorem goto_phase_ne (hu : u ≠ w) : (s.goto w ph).phase u = s.phase u :=
  Function.update_of_ne hu _ _

theorem written_put_same :
    (s.put w left).written w = s.written w ++ left.take (s.ring.put left).2 := by
  change ((s.log ++ (left.take (s.ring.put left).2).map (w, ·)).filter (·.1 = w)).map Prod.snd = _
  rw [List.filter_append, List.map_append]
  refine congrArg (s.written w ++ ·) ?_
  rw [List.filter_eq_self.mpr, List.map_map]
  · exact List.map_id _
  · rintro ⟨v, b⟩ hb
    obtain ⟨_, _, hv⟩ := List.mem_map.mp hb
    exact decide_eq_true (congrArg Prod.fst hv).symm

theorem written_put_ne (hu : u ≠ w) : (s.put w left).written u = s.written u := by
  change ((s.log ++ (left.take (s.ring.put left).2).map (w, ·)).filter (·.1 = u)).map Prod.snd = _
  rw [List.filter_append, List.map_append]
  refine (congrArg (s.written u ++ ·) ?_).trans (List.append_nil _)
  rw [List.filter_eq_nil_iff.mpr, List.map_nil]
  rintro ⟨v, b⟩ hb
  obtain ⟨_, _, hv⟩ := List.mem_map.mp hb
  have hvw : w = v := congrArg Prod.fst hv
  exact fun hvu => hu ((of_decide_eq_true hvu).symm.trans hvw.symm)

theorem Accounted.goto (h : s.Accounted) (howes : ph.Owes (s.written w) (s.given w)) :
    (s.goto w ph).Accounted where
  flow := h.flow
  owes := fun u => by
    rcases eq_or_ne u w with rfl | hu
    · rw [goto_phase_same]
      exact howes
    · rw [goto_phase_ne hu]
      exact h.owes u

theorem Accounted.put (h : s.Accounted) (hw : s.phase w = .running left) :
    (s.put w left).Accounted := by
  obtain ⟨items, hstores, hlog⟩ := h.flow
  refine ⟨⟨_, (hstores.put left).2, ?_⟩, fun u => ?_⟩
  · change (s.log ++ (left.take (s.ring.put left).2).map (w, ·)).map Prod.snd = s.got ++ _
    rw [List.map_append, List.map_map, hlog, List.append_assoc]
    exact congrArg (fun l => s.got ++ (items ++ l)) (List.map_id _)
  · have howes := h.owes u
    rcases eq_or_ne u w with rfl | hu
    · rw [hw] at howes
      have hphase : (s.put u left).phase u = .running (left.drop (s.ring.put left).2) :=
        goto_phase_same
      rw [hphase, written_put_same]
      change _ ++ _ ++ _ = s.given u
      rw [List.append_assoc, List.take_append_drop]
      exact howes
    · rw [written_put_ne hu]
      have hphase : (s.put w left).phase u = s.phase u := goto_phase_ne hu
      rw [hphase]
      exact howes

/-- A write that does not wait moves to where it does not wait either. -/
theorem Queued.goto (h : s.Queued) (hw : ¬(s.phase w).Waits) (hph : ¬ph.Pending) :
    (s.goto w ph).Queued where
  waits := fun u => by
    rcases eq_or_ne u w with rfl | hu
    · rw [goto_phase_same]
      exact iff_of_false (fun hm => hw ((h.waits u).mp hm)) fun hp => hph hp.pending
    · rw [goto_phase_ne hu]
      exact h.waits u
  nodup := h.nodup
  single := fun u v hu hv => by
    have hne {x : W} (hx : ((s.goto w ph).phase x).Pending) : x ≠ w := by
      rintro rfl
      rw [goto_phase_same] at hx
      exact hph hx
    rw [goto_phase_ne (hne hu)] at hu
    rw [goto_phase_ne (hne hv)] at hv
    exact h.single u v hu hv
  token := h.token
  flag := h.flag

omit [DecidableEq W] in
theorem Queued.waiters_nil (h : s.Queued) (hall : ∀ u, ¬(s.phase u).Pending) : s.waiters = [] :=
  List.eq_nil_iff_forall_not_mem.mpr fun u hu => hall u ((h.waits u).mp hu).pending

omit [DecidableEq W] in
/-- Only one write waits. -/
theorem Queued.waiters_eq (h : s.Queued) (hw : w ∈ s.waiters) : s.waiters = [w] := by
  by_contra hne
  rcases (h.nodup.ne_singleton_iff w).mp hne with hnil | ⟨u, hu, huw⟩
  · exact absurd hw (hnil ▸ List.not_mem_nil)
  · exact huw (h.single u w ((h.waits u).mp hu).pending ((h.waits w).mp hw).pending)

/-- With no other write pending, a write waits. -/
theorem Queued.suspend {size place : Nat} (h : s.Queued)
    (hall : ∀ u, ¬(s.phase u).Pending) (htoken : s.tokens = 0) :
    (s.suspend w size place left).Queued := by
  have hnone := h.waiters_nil hall
  have hwaiters : (s.suspend w size place left).waiters = [w] := by
    change s.waiters.take place ++ w :: s.waiters.drop place = [w]
    rw [hnone, List.take_nil, List.drop_nil, List.nil_append]
  have hself : (s.suspend w size place left).phase w = .waiting size left := goto_phase_same
  have hother {u : W} (hu : u ≠ w) : (s.suspend w size place left).phase u = s.phase u :=
    goto_phase_ne hu
  have honly {u : W} (hp : ((s.suspend w size place left).phase u).Pending) : u = w := by
    by_contra hu
    rw [hother hu] at hp
    exact hall u hp
  refine ⟨fun u => ?_, ?_, fun u v hu hv => (honly hu).trans (honly hv).symm, fun _ => htoken,
    fun _ => rfl⟩
  · rw [hwaiters, List.mem_singleton]
    refine ⟨?_, fun hu => honly hu.pending⟩
    rintro rfl
    rw [hself]
    trivial
  · rw [hwaiters]
    exact List.nodup_singleton w

omit [DecidableEq W] in
/-- The flag is cleared where no write waits. -/
theorem Queued.clear {n : Nat} (h : s.Queued) (hnone : s.waiters = []) :
    ({ s with tokens := n, waitingSem := false } : State W).Queued :=
  ⟨h.waits, h.nodup, h.single, fun hne => absurd hnone hne, fun hne => absurd hnone hne⟩

/-! The release of the semaphore -/

theorem release_pending : ph.release.Pending ↔ ph.Pending := by
  cases ph with
  | waiting | fresh | running | released | returned => exact Iff.rfl

theorem not_release_waits : ¬ph.release.Waits := by
  cases ph with
  | waiting | fresh | running | released | returned => exact not_false

theorem release_owes {written given : List UInt8} :
    ph.release.Owes written given ↔ ph.Owes written given := by
  cases ph with
  | waiting | fresh | running | released | returned => exact Iff.rfl

/-- A write that waits is the one that the token is handed to. -/
theorem Queued.semaphoreRelease_eq (h : s.Queued) (hw : w ∈ s.waiters) :
    s.semaphoreRelease =
      { s with waiters := [], phase := Function.update s.phase w (s.phase w).release } := by
  have hlist := h.waiters_eq hw
  have htoken := h.token (hlist ▸ List.cons_ne_nil w [])
  rw [State.semaphoreRelease, if_neg (by omega), hlist]

theorem semaphoreRelease_nil (hnone : s.waiters = []) :
    s.semaphoreRelease = if 1 ≤ s.tokens then s else { s with tokens := s.tokens + 1 } := by
  rw [State.semaphoreRelease, hnone]

theorem Orderly.semaphoreRelease (h : s.Orderly) : s.semaphoreRelease.Orderly := by
  by_cases hnone : s.waiters = []
  · rw [semaphoreRelease_nil hnone]
    split
    · exact h
    · exact ⟨⟨h.accounted.flow, h.accounted.owes⟩, ⟨h.queued.waits, h.queued.nodup,
        h.queued.single, fun hne => absurd hnone hne, h.queued.flag⟩, h.blocking⟩
  · obtain ⟨w, hw⟩ := List.exists_mem_of_ne_nil _ hnone
    have hlist := h.queued.waiters_eq hw
    rw [h.queued.semaphoreRelease_eq hw]
    have hpending (u : W) : (Function.update s.phase w (s.phase w).release u).Pending ↔
        (s.phase u).Pending := by
      rcases eq_or_ne u w with rfl | hu
      · rw [Function.update_self, release_pending]
      · rw [Function.update_of_ne hu]
    refine ⟨⟨h.accounted.flow, fun u => ?_⟩, ⟨fun u => ?_, List.nodup_nil, fun u v hu hv => ?_,
      fun hne => absurd rfl hne, fun hne => absurd rfl hne⟩, h.blocking⟩
    · change Phase.Owes _ _ (Function.update s.phase w (s.phase w).release u)
      have howes := h.accounted.owes u
      rcases eq_or_ne u w with rfl | hu
      · rw [Function.update_self]
        exact release_owes.mpr howes
      · rw [Function.update_of_ne hu]
        exact howes
    · refine iff_of_false List.not_mem_nil ?_
      change ¬(Function.update s.phase w (s.phase w).release u).Waits
      rcases eq_or_ne u w with rfl | hu
      · rw [Function.update_self]
        exact not_release_waits
      · rw [Function.update_of_ne hu]
        exact fun hwaits => hu (List.mem_singleton.mp (hlist ▸ (h.queued.waits u).mpr hwaits))
    · exact h.queued.single u v ((hpending u).mp hu) ((hpending v).mp hv)

/-! The loop of a write -/

/-- What a put leaves over did not fit. -/
theorem Accounted.room (h : s.Accounted) (hrest : left.drop (s.ring.put left).2 ≠ []) :
    s.ring.free < left.length := by
  obtain ⟨items, hstores, -⟩ := h.flow
  rw [hstores.free_eq]
  rw [(hstores.put left).1, Ne, List.drop_eq_nil_iff] at hrest
  omega

omit [DecidableEq W] in
theorem running_not_waits (hw : s.phase w = .running left) : ¬(s.phase w).Waits := by
  rw [hw]
  exact not_false

theorem Orderly.put (h : s.Orderly) (hw : s.phase w = .running left) : (s.put w left).Orderly :=
  have hqueued : (s.goto w (.running (left.drop (s.ring.put left).2))).Queued :=
    h.queued.goto (running_not_waits hw) not_false
  ⟨h.accounted.put hw, ⟨hqueued.waits, hqueued.nodup, hqueued.single, hqueued.token, hqueued.flag⟩,
    h.blocking⟩

theorem put_phase :
    (s.put w left).phase w = .running (left.drop (s.ring.put left).2) := goto_phase_same

theorem Orderly.finish {size : Nat} (h : s.Orderly) (hw : s.phase w = .running []) :
    (s.goto w (.returned size)).Orderly := by
  have howes := h.accounted.owes w
  rw [hw] at howes
  exact ⟨h.accounted.goto ((List.append_nil _).symm.trans howes),
    h.queued.goto (running_not_waits hw) not_false, h.blocking⟩

theorem Orderly.suspend {size place : Nat} (h : s.Orderly) (hw : s.phase w = .running left)
    (hall : ∀ u, ¬(s.phase u).Pending) (htoken : s.tokens = 0) :
    (s.suspend w size place left).Orderly := by
  have howes := h.accounted.owes w
  rw [hw] at howes
  have haccounted : (s.goto w (.waiting size left)).Accounted := h.accounted.goto howes
  exact ⟨⟨haccounted.flow, haccounted.owes⟩, h.queued.suspend hall htoken, h.blocking⟩

/-- One round of the loop, where `k` is what comes of it when bytes are left over. -/
theorem Orderly.round {size : Nat} {k : State W} (h : s.Orderly) (hw : s.phase w = .running left)
    (hk : s.ring.free < left.length → k.Orderly) :
    (if left = [] then s.goto w (.returned size)
      else if left.drop (s.ring.put left).2 ≠ [] ∧ s.putBlock ≠ 0 then k
      else (s.put w left).goto w (.returned size)).Orderly := by
  split
  case isTrue hnil =>
    exact h.finish (hnil ▸ hw)
  case isFalse =>
    split
    case isTrue hwait => exact hk (h.accounted.room hwait.1)
    case isFalse hdone =>
      have hrest : left.drop (s.ring.put left).2 = [] :=
        Classical.not_not.mp fun hne => hdone ⟨hne, h.blocking⟩
      exact (h.put hw).finish (put_phase.trans (congrArg Phase.running hrest))

theorem put_not_pending (hall : ∀ u, ¬(s.phase u).Pending) (u : W) :
    ¬((s.put w left).phase u).Pending := by
  rcases eq_or_ne u w with rfl | hu
  · rw [put_phase]
    exact not_false
  · have hphase : (s.put w left).phase u = s.phase u := goto_phase_ne hu
    rw [hphase]
    exact hall u

theorem Orderly.writeLoop {size place n : Nat} (h : s.Orderly) (hw : s.phase w = .running left)
    (htokens : s.tokens = n) (hapart : s.ring.free < left.length → ∀ u, ¬(s.phase u).Pending) :
    (State.writeLoop w size place n s left).Orderly := by
  induction n generalizing s left with
  | zero =>
    exact h.round hw fun hroom =>
      (h.put hw).suspend put_phase (put_not_pending (hapart hroom)) htokens
  | succ n ih =>
    refine h.round hw fun hroom => ?_
    have hput := h.put hw
    have hall : ∀ u, ¬((s.put w left).phase u).Pending := put_not_pending (hapart hroom)
    have hclear := hput.queued.clear (n := n) (hput.queued.waiters_nil hall)
    exact ih ⟨⟨hput.accounted.flow, hput.accounted.owes⟩, hclear, h.blocking⟩ put_phase rfl
      fun _ => hall

/-! The other calls -/

theorem Orderly.get (h : s.Orderly) (size : Nat) :
    ({ s with ring := (s.ring.get size).1, got := s.got ++ (s.ring.get size).2.2 } :
      State W).Orderly := by
  obtain ⟨items, hstores, hlog⟩ := h.accounted.flow
  have hget := hstores.get size
  refine ⟨⟨⟨_, hget.2, ?_⟩, h.accounted.owes⟩, ⟨h.queued.waits, h.queued.nodup, h.queued.single,
    h.queued.token, h.queued.flag⟩, h.blocking⟩
  change s.log.map Prod.snd = (s.got ++ (s.ring.get size).2.2) ++ _
  rw [congrArg Prod.snd hget.1, List.append_assoc, List.take_append_drop, hlog]

theorem Orderly.reverbPcmRead (h : s.Orderly) (size : Nat) : (s.reverbPcmRead size).1.Orderly := by
  rw [State.reverbPcmRead]
  change (ite _ _ _ : State W).Orderly
  split
  · exact (h.get size).semaphoreRelease
  · exact h.get size

theorem setBlockMode_orderly {block : Int} (ha : s.Accounted) (hq : s.Queued)
    (hblock : block % 2 ^ 8 ≠ 0) : (s.setBlockMode block).Orderly := by
  have hne : block ≠ 0 := by
    rintro rfl
    exact hblock rfl
  rw [State.setBlockMode, if_neg hne]
  refine ⟨⟨ha.flow, ha.owes⟩, ⟨hq.waits, hq.nodup, hq.single, hq.token, hq.flag⟩, ?_⟩
  dsimp only
  omega

theorem Orderly.setOutputConfig (h : s.Orderly) (config : Config) :
    (s.setOutputConfig config).Orderly := by
  rw [State.setOutputConfig]
  split
  · exact h
  · exact ⟨⟨h.accounted.flow, h.accounted.owes⟩, ⟨h.queued.waits, h.queued.nodup, h.queued.single,
      h.queued.token, h.queued.flag⟩, h.blocking⟩

/-- Only the write that runs could be pending. -/
theorem goto_running_not_pending (hall : ∀ u, (s.phase u).Pending → u = w) (u : W) :
    ¬((s.goto w (.running left)).phase u).Pending := by
  rcases eq_or_ne u w with rfl | hu
  · rw [goto_phase_same]
    exact not_false
  · rw [goto_phase_ne hu]
    exact fun hp => hu (hall u hp)

theorem Orderly.reverbPcmWrite {size place : Nat} {bytes : List UInt8} (h : s.Orderly)
    (hw : s.phase w = .fresh)
    (hapart : s.ring.free < bytes.length → ∀ u, (s.phase u).Pending → u = w) :
    (s.reverbPcmWrite w size place bytes).Orderly := by
  let given : State W := { s with given := Function.update s.given w bytes }
  have hwritten : s.written w = [] := by
    have howes := h.accounted.owes w
    rw [hw] at howes
    exact howes
  have hgiven : given.Accounted := by
    refine ⟨h.accounted.flow, fun u => ?_⟩
    change (s.phase u).Owes (s.written u) (Function.update s.given w bytes u)
    rcases eq_or_ne u w with rfl | hu
    · rw [hw]
      exact hwritten
    · rw [Function.update_of_ne hu]
      exact h.accounted.owes u
  have hqueued : given.Queued := ⟨h.queued.waits, h.queued.nodup, h.queued.single, h.queued.token,
    h.queued.flag⟩
  have howes : (Phase.running bytes).Owes (given.written w) (given.given w) := by
    change s.written w ++ bytes = Function.update s.given w bytes w
    rw [hwritten, Function.update_self, List.nil_append]
  have hfresh : ¬(given.phase w).Waits := by
    change ¬(s.phase w).Waits
    rw [hw]
    exact not_false
  exact Orderly.writeLoop ⟨hgiven.goto howes, hqueued.goto hfresh not_false, h.blocking⟩
    goto_phase_same rfl fun hroom => goto_running_not_pending (hapart hroom)

theorem Orderly.resume {place : Nat} (h : s.Orderly)
    (hapart : ∀ size left, s.phase w = .released size left →
      s.ring.free < left.length → ∀ u, (s.phase u).Pending → u = w) :
    (s.resume w place).Orderly := by
  rw [State.resume]
  split
  case h_1 size left hw =>
    have howes := h.accounted.owes w
    rw [hw] at howes
    have hpending : (s.phase w).Pending := by
      rw [hw]
      trivial
    have hreleased : ¬(s.phase w).Waits := by
      rw [hw]
      exact not_false
    have hnone : s.waiters = [] := List.eq_nil_iff_forall_not_mem.mpr fun u hu => by
      have hwaits := (h.queued.waits u).mp hu
      rw [h.queued.single u w hwaits.pending hpending] at hwaits
      exact hreleased hwaits
    have haccounted : (s.goto w (.running left)).Accounted := h.accounted.goto howes
    have hqueued : ({ s with waitingSem := false }.goto w (.running left) : State W).Queued :=
      (h.queued.clear hnone).goto hreleased not_false
    exact Orderly.writeLoop ⟨⟨haccounted.flow, haccounted.owes⟩, hqueued, h.blocking⟩
      goto_phase_same rfl fun hroom => goto_running_not_pending (hapart size left hw hroom)
  case h_2 => exact h

theorem Orderly.next {mixer : List UInt8 → List UInt8} {a : Label W} (h : s.Orderly)
    (hblocks : a.Blocks) (ha : s.Apart mixer a) : (s.next mixer a).Orderly := by
  cases a with
  | write w config data resampled place =>
    rw [State.next]
    split
    case isTrue hw =>
      rw [Apart, toPut, if_pos hw] at ha
      exact h.reverbPcmWrite hw ha
    case isFalse => exact h
  | resume w place =>
    refine h.resume fun size left hw => ?_
    rw [Apart, toPut, hw] at ha
    exact ha
  | read size => exact h.reverbPcmRead size
  | setBlockMode block => exact setBlockMode_orderly h.accounted h.queued hblocks
  | setOutputConfig config => exact h.setOutputConfig config

theorem Orderly.law (h : s.Orderly) : s.Law where
  ordered := by
    obtain ⟨items, -, hlog⟩ := h.accounted.flow
    exact ⟨items, hlog.symm⟩
  written := fun w size hw => by
    have howes := h.accounted.owes w
    rw [hw] at howes
    exact howes
  released := fun w size left hw _ n => by
    have hmem : w ∈ s.waiters := (h.queued.waits w).mpr (by rw [hw]; trivial)
    have hflag := h.queued.flag (List.ne_nil_of_mem hmem)
    rw [State.reverbPcmRead]
    change (ite (s.waitingSem = true) _ _ : State W).phase w = _
    rw [if_pos hflag, (h.get n).queued.semaphoreRelease_eq hmem]
    change Function.update s.phase w (s.phase w).release w = _
    rw [Function.update_self, hw]
    rfl

theorem reverbPcmCreate_orderly {block : Int} (hs : reverbPcmCreate = some s)
    (hblock : block % 2 ^ 8 ≠ 0) : (s.setBlockMode block).Orderly := by
  obtain ⟨ring, hring, rfl⟩ := Option.map_eq_some_iff.mp hs
  have hstores : ring.Stores [] := ReverbBuffer.init_stores (by decide) hring
  refine setBlockMode_orderly ⟨⟨[], hstores, rfl⟩, fun _ => rfl⟩
    ⟨fun _ => iff_of_false List.not_mem_nil not_false, List.nodup_nil, fun _ _ hu => hu.elim,
      fun hne => absurd rfl hne, fun hne => absurd rfl hne⟩ hblock

end

end State

/-- A ring of each size carries its bytes. On top of it, in block mode, as long as a write that does
not find room for its bytes begins to wait only when no other one waits or has still to go on, the
writes that have returned have put all of theirs, and while there is room the next read releases
each one that waits. -/
theorem reverb_kept [DecidableEq W] {size : Nat} {r : ReverbBuffer} {s : State W} {block : Int}
    {mixer : List UInt8 → List UInt8} {as : List (Label W)} (hsize : size < 2 ^ 32)
    (hr : ReverbBuffer.init size = some r) (calls : List ReverbBuffer.Call)
    (hs : reverbPcmCreate = some s) (hblock : block % 2 ^ 8 ≠ 0) (hblocks : ∀ a ∈ as, a.Blocks)
    (has : Along (State.next mixer) (State.Apart mixer) (s.setBlockMode block) as) :
    (Along ReverbBuffer.Traffic.next ReverbBuffer.Traffic.Counted ⟨r, [], []⟩ calls ∧
        (calls.foldl ReverbBuffer.Traffic.next ⟨r, [], []⟩).Kept size) ∧
      (as.foldl (State.next mixer) (s.setBlockMode block)).Law := by
  refine ⟨ReverbBuffer.Traffic.ring_kept hsize hr calls, State.Orderly.law ?_⟩
  refine along_foldl (State.reverbPcmCreate_orderly hs hblock) (fun s a h ha => h.next ha.1 ha.2)
    (along_and.mpr ⟨along_forall.mpr hblocks, has⟩)

set_option maxRecDepth 100000 in
/-- A write of 4098 bytes waits for room, is released by a read and waits no more, beside a ring of
four bytes in which a put wraps. -/
theorem reverb_kept_once :
    (Along ReverbBuffer.Traffic.next ReverbBuffer.Traffic.Counted
        ⟨⟨List.replicate 4 0, 4, 0, 0, false⟩, [], []⟩
        [.put [1, 2, 3], .get 2, .put [4, 5, 6, 7], .get 9] ∧
      ([.put [1, 2, 3], .get 2, .put [4, 5, 6, 7], .get 9].foldl ReverbBuffer.Traffic.next
        ⟨⟨List.replicate 4 0, 4, 0, 0, false⟩, [], []⟩).Kept 4) ∧
      (([.write true ⟨1, 16000⟩ (List.replicate 4098 0) [] 0, .read 3, .resume true 0] :
        List (Label Bool)).foldl (State.next id)
          ((reverbPcmCreate.get (by decide)).setBlockMode 1)).Law :=
  reverb_kept (by decide) (by decide) _ (Option.some_get _).symm (by decide)
    (by decide) (by decide)

/-- Two writes wait, and a read lets the first one put what it has left: it clears the flag, and the
second one goes on waiting in spite of the room and of further reads. -/
def twoWrites : List (Label Bool) :=
  [.write true ⟨1, 16000⟩ (List.replicate 4098 0) [] 0, .write false ⟨1, 16000⟩ [0] [] 1, .read 3,
    .resume true 0]

set_option maxRecDepth 100000 in
theorem reverb_not_kept :
    ¬∀ (s : State Bool) (block : Int) (as : List (Label Bool)), reverbPcmCreate = some s →
      block % 2 ^ 8 ≠ 0 → (∀ a ∈ as, a.Blocks) →
      (as.foldl (State.next id) (s.setBlockMode block)).Law := by
  intro h
  have hlaw := h (reverbPcmCreate.get (by decide)) 1 twoWrites (Option.some_get _).symm (by decide)
    (by decide)
  have hwaits : (twoWrites.foldl (State.next id)
      ((reverbPcmCreate.get (by decide)).setBlockMode 1)).phase false = .waiting 1 [0] := by
    decide
  have hroom : 0 < (twoWrites.foldl (State.next id)
      ((reverbPcmCreate.get (by decide)).setBlockMode 1)).ring.free := by decide
  have hstill : ((twoWrites.foldl (State.next id)
      ((reverbPcmCreate.get (by decide)).setBlockMode 1)).reverbPcmRead 4).1.phase false ≠
        .released 1 [0] := by decide
  exact hstill (hlaw.released false 1 [0] hwaits hroom 4)

end ReverbPcm
end Audio
end XR806

import XR806.Trans.Along
import XR806.Trans.Tally

/-!
# XR806.Pthread.Cond

The condition variables of the pthread layer: a counting semaphore, with the number of the waiting
threads and the number of the tokens beside it. A broadcast posts as many tokens as threads wait,
and nothing keeps them for those threads: between the unlocking of the mutex and the wait in the
semaphore a thread that comes later can take one.

* `cond_kept`: as long as a thread that comes later leaves enough tokens, no thread stays behind in
  a wait that was there at a broadcast. The number of the tokens is right as long as no wait times
  out, the error is right in any run, and the time that `pthread_cond_timedwait` passes on is what
  is left until the deadline for few deadlines only: it is the time since.
-/

namespace XR806
namespace Pthread
namespace Cond

open Trans (Along along_foldl tally tally_update tally_le_tally le_tally tally_eq_zero)

/-! ## Times and errors -/

structure Timespec where
  sec : Int
  nsec : Int

/-- The milliseconds from `b` to `a`, as the layer computes them. -/
def Timespec.msecSince (a b : Timespec) : Int :=
  (a.sec - b.sec) * 1000 + (a.nsec - b.nsec).tdiv 1000000

/-- What `pthread_cond_timedwait` passes to `OS_SemaphoreWait`, an `OS_Time_t`. -/
def timedwaitMs (now c : Timespec) : Nat := (now.msecSince c % 2 ^ 32).toNat

inductive OsStatus
  | ok
  | timeout
  deriving DecidableEq

/-- `ETIMEOUT`. -/
def etimeout : Int := 21

/-- `err`, an unsigned char. -/
def timedwaitErr : OsStatus → Nat
  | .ok => 0
  | .timeout => (-etimeout % 2 ^ 8).toNat

/-! ## Threads -/

/-- Where a thread is. In a wait, `ms` is the time of a `pthread_cond_timedwait` and `none` in a
`pthread_cond_wait`, and `counted` says that there was a broadcast since it began, or a signal with
no other thread that waited. -/
inductive Phase
  /-- Not in a call. -/
  | running
  | finished
  /-- In `pthread_mutex_lock`. -/
  | locking
  /-- Behind `wait++`. -/
  | entered (ms : Option Nat)
  /-- Behind the unlocking of the mutex. -/
  | unlocked (ms : Option Nat) (counted : Bool)
  /-- In `OS_SemaphoreWait`. -/
  | blocked (ms : Option Nat) (counted : Bool)
  /-- Behind `OS_SemaphoreWait`. -/
  | woken (ms : Option Nat) (ret : OsStatus)
  /-- Behind `wait--`. -/
  | leaving (ms : Option Nat) (ret : OsStatus)
  /-- Behind `cnt--`. -/
  | relocking (ms : Option Nat) (ret : OsStatus)
  /-- Before `cnt++` in `sem_post`, with so many to post after it. -/
  | posting (n : Nat)
  /-- Behind `cnt++`. -/
  | releasing (n : Nat)
  deriving DecidableEq

namespace Phase

/-- Counted in `wait`. -/
def inWait : Phase → Nat
  | entered _ | unlocked .. | blocked .. | woken .. => 1
  | _ => 0

/-- Without a token yet. -/
def waits : Phase → Nat
  | unlocked .. | blocked .. => 1
  | _ => 0

def counted : Phase → Nat
  | unlocked _ true | blocked _ true => 1
  | _ => 0

/-- The tokens that a signal or a broadcast has still to release. -/
def toPost : Phase → Nat
  | posting n | releasing n => n + 1
  | _ => 0

/-- With a token that is still counted, or one that is counted already. -/
def pending : Phase → Nat
  | woken _ .ok | leaving _ .ok | releasing _ => 1
  | _ => 0

/-- In a `pthread_cond_wait`, and was there at the broadcast. -/
def Owed : Phase → Prop
  | unlocked none true | blocked none true => True
  | _ => False

instance : DecidablePred Owed := fun ph => by
  unfold Owed
  split <;> infer_instance

def IsBlocked : Phase → Prop
  | blocked .. => True
  | _ => False

instance : DecidablePred IsBlocked := fun ph => by
  unfold IsBlocked
  split <;> infer_instance

/-- There is a broadcast. -/
def count : Phase → Phase
  | unlocked ms _ => unlocked ms true
  | blocked ms _ => blocked ms true
  | ph => ph

/-- Behind a post, with so many to go. -/
def posted : Nat → Phase
  | 0 => running
  | n + 1 => posting n

end Phase

/-! ## The condition variable -/

variable {T : Type*}

/-- A condition variable, its mutex and its threads; `tokens` are those in the semaphore. Behind
`wait`: the waits that timed out and counted a token off, and what each `pthread_cond_timedwait` has
returned, beside the result of its `OS_SemaphoreWait`. -/
structure State (T : Type*) where
  phase : T → Phase
  holder : Option T
  depth : Nat
  tokens : Nat
  cnt : Int
  wait : Nat
  timeouts : Nat
  returned : List (OsStatus × Nat)

/-- Behind `pthread_cond_init`. -/
def State.initial : State T where
  phase := fun _ => .running
  holder := none
  depth := 0
  tokens := 0
  cnt := 0
  wait := 0
  timeouts := 0
  returned := []

namespace State

section
variable [DecidableEq T]

def goto (s : State T) (t : T) (ph : Phase) : State T :=
  { s with phase := Function.update s.phase t ph }

/-- The mutex is recursive. -/
def Available (s : State T) (t : T) : Prop := s.holder = none ∨ s.holder = some t

instance (s : State T) (t : T) : Decidable (s.Available t) := instDecidableOr

def mutexLock (s : State T) (t : T) : State T :=
  { s with holder := some t, depth := s.depth + 1 }

def mutexUnlock (s : State T) (t : T) : State T :=
  if s.holder = some t then
    if s.depth ≤ 1 then { s with holder := none, depth := 0 } else { s with depth := s.depth - 1 }
  else s

/-- A thread in a wait arrives at the semaphore. -/
def semaphoreWait (s : State T) (t : T) (ms : Option Nat) (counted : Bool) : State T :=
  if 0 < s.tokens then { s.goto t (.woken ms .ok) with tokens := s.tokens - 1 }
  else s.goto t (.blocked ms counted)

/-- The next access of a call. -/
def next (s : State T) (t : T) : State T :=
  match s.phase t with
  | .locking => if s.Available t then (s.mutexLock t).goto t .running else s
  | .entered ms => (s.mutexUnlock t).goto t (.unlocked ms false)
  | .unlocked ms counted => s.semaphoreWait t ms counted
  | .woken ms ret => { s.goto t (.leaving ms ret) with wait := s.wait - 1 }
  | .leaving ms ret =>
    { s.goto t (.relocking ms ret) with
      cnt := s.cnt - 1
      timeouts := s.timeouts + if ret = .timeout then 1 else 0 }
  | .relocking ms ret =>
    if s.Available t then
      { (s.mutexLock t).goto t .running with
        returned := if ms = none then s.returned else (ret, timedwaitErr ret) :: s.returned }
    else s
  | .posting n => { s.goto t (.releasing n) with cnt := s.cnt + 1 }
  | _ => s

/-- `OS_SemaphoreRelease`: the token goes to `u` when `u` waits, and into the semaphore when no
thread waits. -/
def release [Fintype T] (s : State T) (t u : T) : State T :=
  match s.phase t with
  | .releasing n =>
    match s.phase u with
    | .blocked ms _ => (s.goto t (.posted n)).goto u (.woken ms .ok)
    | _ =>
      if ∃ v, (s.phase v).IsBlocked then s
      else { s.goto t (.posted n) with tokens := s.tokens + 1 }
  | _ => s

/-- A wait times out. -/
def timeout (s : State T) (t : T) : State T :=
  match s.phase t with
  | .blocked (some ms) _ => s.goto t (.woken (some ms) .timeout)
  | _ => s

/-- In a call that is made while holding the mutex, or not at all. -/
def locked (s : State T) (t : T) (f : State T → State T) : State T :=
  if s.phase t = .running ∧ s.holder = some t then f s else s

/-- `pthread_cond_wait` and `pthread_cond_timedwait`, up to `wait++`. -/
def condWait (s : State T) (t : T) (ms : Option Nat) : State T :=
  { s.goto t (.entered ms) with wait := s.wait + 1 }

/-- `pthread_cond_signal`, up to its first access. -/
def condSignal [Fintype T] (s : State T) (t : T) : State T :=
  if s.wait = 0 then s
  else if tally Phase.waits s.phase = 1 then
    { s with phase := fun u => (s.phase u).count }.goto t (.posting 0)
  else s.goto t (.posting 0)

/-- `pthread_cond_broadcast`, up to its first access. -/
def condBroadcast (s : State T) (t : T) : State T :=
  match s.wait with
  | 0 => s
  | n + 1 => { s with phase := fun u => (s.phase u).count }.goto t (.posting n)

end

end State

inductive Label (T : Type*)
  | lock (t : T)
  | unlock (t : T)
  | finish (t : T)
  | wait (t : T)
  | timedwait (t : T) (now c : Timespec)
  | signal (t : T)
  | broadcast (t : T)
  | next (t : T)
  | release (t u : T)
  | timeout (t : T)

namespace State

section
variable [Fintype T] [DecidableEq T]

def step (s : State T) : Label T → State T
  | .lock t => if s.phase t = .running then s.goto t .locking else s
  | .unlock t => s.locked t (·.mutexUnlock t)
  | .finish t => if s.phase t = .running then s.goto t .finished else s
  | .wait t => s.locked t (·.condWait t none)
  | .timedwait t now c => s.locked t (·.condWait t (some (timedwaitMs now c)))
  | .signal t => s.locked t (·.condSignal t)
  | .broadcast t => s.locked t (·.condBroadcast t)
  | .next t => s.next t
  | .release t u => s.release t u
  | .timeout t => s.timeout t

def Runnable (s : State T) (t : T) : Prop :=
  match s.phase t with
  | .finished | .blocked .. => False
  | .locking | .relocking .. => s.Available t
  | _ => True

/-- No thread can run, and one is left in a wait that it was in at a broadcast, with the mutex
free. -/
def Stranded (s : State T) (t : T) : Prop :=
  s.holder = none ∧ (∀ u, ¬s.Runnable u) ∧ s.phase t = .blocked none true

/-- `cnt` is the number of the tokens: of those in the semaphore, of those that were taken and are
not counted off yet, and of one that is counted and not released yet. -/
def CountsTokens (s : State T) : Prop := s.cnt = s.tokens + tally Phase.pending s.phase

/-- A token can go to another thread: there are more of them, in the semaphore or to be posted, than
threads that were there at a broadcast and have none yet. -/
def Spare (s : State T) : Prop :=
  (∃ u, (s.phase u).Owed) →
    tally Phase.counted s.phase < s.tokens + tally Phase.toPost s.phase

/-- A thread that was not there at a broadcast leaves enough tokens for those that were. -/
def LeavesEnough (s : State T) : Label T → Prop
  | .next t =>
    match s.phase t with
    | .unlocked _ false => 0 < s.tokens → s.Spare
    | _ => True
  | .release t u =>
    match s.phase t, s.phase u with
    | .releasing _, .blocked _ false => s.Spare
    | _, _ => True
  | _ => True

end

/-! ## The counts -/

end State

namespace Phase

/-- In a step of a call that holds the mutex. -/
def Holds : Phase → Prop
  | entered _ | posting _ | releasing _ => True
  | _ => False

section
variable (ph : Phase)

@[simp] theorem count_inWait : ph.count.inWait = ph.inWait := by cases ph <;> rfl

@[simp] theorem count_pending : ph.count.pending = ph.pending := by cases ph <;> rfl

@[simp] theorem count_counted : ph.count.counted = ph.waits := by cases ph <;> rfl

@[simp] theorem count_holds : ph.count.Holds ↔ ph.Holds := by cases ph <;> exact Iff.rfl

@[simp] theorem count_isBlocked : ph.count.IsBlocked ↔ ph.IsBlocked := by
  cases ph <;> exact Iff.rfl

theorem waits_le_inWait : ph.waits ≤ ph.inWait := by cases ph <;> simp [waits, inWait]

theorem Owed.counted {ph : Phase} (h : ph.Owed) : ph.counted = 1 := by
  revert h
  unfold Owed
  split
  · exact fun _ => rfl
  · exact fun _ => rfl
  · exact False.elim

@[simp] theorem posted_inWait (n : Nat) : (posted n).inWait = 0 := by cases n <;> rfl

@[simp] theorem posted_toPost (n : Nat) : (posted n).toPost = n := by cases n <;> rfl

@[simp] theorem posted_pending (n : Nat) : (posted n).pending = 0 := by cases n <;> rfl

@[simp] theorem posted_counted (n : Nat) : (posted n).counted = 0 := by cases n <;> rfl

theorem not_owed_unlocked (ms : Option Nat) : ¬(unlocked ms false).Owed := by
  cases ms <;> exact id

theorem Owed.of_blocked {ms : Option Nat} {c : Bool} (h : (blocked ms c).Owed) :
    (unlocked ms c).Owed := by
  cases ms <;> cases c <;> exact h

theorem counted_blocked (ms : Option Nat) (c : Bool) :
    (blocked ms c).counted = (unlocked ms c).counted := by cases c <;> rfl

theorem posted_not_owed (n : Nat) : ¬(posted n).Owed := by cases n <;> exact id

theorem posted_not_isBlocked (n : Nat) : ¬(posted n).IsBlocked := by cases n <;> exact id

end

end Phase

namespace State

section
variable {s : State T}

theorem mutexUnlock_goto [DecidableEq T] (s : State T) (t : T) (ph : Phase) :
    (s.mutexUnlock t).goto t ph = (s.goto t ph).mutexUnlock t := by
  by_cases hh : s.holder = some t <;> by_cases hd : s.depth ≤ 1 <;> simp [mutexUnlock, goto, hh, hd]

theorem mutexUnlock_tokens [DecidableEq T] (s : State T) (t : T) :
    (s.mutexUnlock t).tokens = s.tokens := by
  rw [State.mutexUnlock]
  split
  · split <;> rfl
  · rfl

theorem mutexUnlock_phase [DecidableEq T] (s : State T) (t : T) :
    (s.mutexUnlock t).phase = s.phase := by
  rw [State.mutexUnlock]
  split
  · split <;> rfl
  · rfl

variable [Fintype T]

theorem tally_count {w : Phase → Nat} (hw : ∀ ph, w ph.count = w ph) (p : T → Phase) :
    tally w (fun u => (p u).count) = tally w p :=
  Nat.le_antisymm (tally_le_tally fun _ => Nat.le_of_eq (hw _))
    (tally_le_tally fun _ => Nat.le_of_eq (hw _).symm)

/-- What holds in any run: `wait` and `cnt` are what they are meant to be, but for the waits that
timed out. -/
structure Sound (s : State T) : Prop where
  wait : s.wait = tally Phase.inWait s.phase
  blocked : 0 < s.tokens → ∀ u, ¬(s.phase u).IsBlocked
  holder : ∀ u, (s.phase u).Holds → s.holder = some u
  cnt : s.cnt = s.tokens + tally Phase.pending s.phase - s.timeouts
  returned : ∀ r ∈ s.returned, r.2 ≠ 0 ↔ r.1 = .timeout

theorem sound_initial : (initial : State T).Sound where
  wait := (tally_eq_zero.mpr fun _ => rfl).symm
  blocked := fun h => absurd h (Nat.lt_irrefl 0)
  holder := fun _ h => h.elim
  cnt := by
    have hp : tally Phase.pending (initial : State T).phase = 0 := tally_eq_zero.mpr fun _ => rfl
    rw [hp]
    rfl
  returned := fun r h => absurd h List.not_mem_nil

theorem Sound.count (h : s.Sound) : Sound { s with phase := fun u => (s.phase u).count } := by
  refine ⟨h.wait.trans (tally_count Phase.count_inWait _).symm, fun hpos u => ?_, fun u hu => ?_,
    ?_, h.returned⟩
  · rw [Phase.count_isBlocked]
    exact h.blocked hpos u
  · rw [Phase.count_holds] at hu
    exact h.holder u hu
  · have hp := tally_count Phase.count_pending s.phase
    dsimp only
    rw [hp]
    exact h.cnt

variable [DecidableEq T]

/-- One thread moves on. -/
theorem Sound.goto (h : s.Sound) {t : T} {ph : Phase} {holder : Option T} {depth tokens : Nat}
    {cnt : Int} {wait timeouts : Nat} {returned : List (OsStatus × Nat)}
    (hwait : wait + (s.phase t).inWait = s.wait + ph.inWait)
    (hblocked : 0 < tokens → ¬ph.IsBlocked ∧ ∀ u, ¬(s.phase u).IsBlocked)
    (hholder : ∀ u, u ≠ t → s.holder = some u → holder = some u)
    (hph : ph.Holds → holder = some t)
    (hcnt : cnt - tokens + timeouts + (s.phase t).pending =
      s.cnt - s.tokens + s.timeouts + ph.pending)
    (hreturned : ∀ r ∈ returned, r.2 ≠ 0 ↔ r.1 = .timeout) :
    Sound { s.goto t ph with holder, depth, tokens, cnt, wait, timeouts, returned } := by
  have hin := tally_update Phase.inWait s.phase t ph
  have hpending := tally_update Phase.pending s.phase t ph
  have hw := h.wait
  have hc := h.cnt
  refine ⟨?_, fun hpos u => ?_, fun u hu => ?_, ?_, hreturned⟩
  · dsimp only [State.goto]
    omega
  · dsimp only [State.goto]
    by_cases hut : u = t
    · rw [hut, Function.update_self]
      exact (hblocked hpos).1
    · rw [Function.update_of_ne hut]
      exact (hblocked hpos).2 u
  · dsimp only [State.goto] at hu ⊢
    by_cases hut : u = t
    · rw [hut, Function.update_self] at hu
      rw [hut]
      exact hph hu
    · rw [Function.update_of_ne hut] at hu
      exact hholder u hut (h.holder u hu)
  · dsimp only [State.goto]
    omega

theorem Sound.lock (h : s.Sound) {t : T} {returned : List (OsStatus × Nat)}
    (hin : (s.phase t).inWait = 0) (hpending : (s.phase t).pending = 0)
    (ha : s.Available t) (hreturned : ∀ r ∈ returned, r.2 ≠ 0 ↔ r.1 = .timeout) :
    Sound { (s.mutexLock t).goto t .running with returned } := by
  refine h.goto (by rw [hin]; rfl) (fun hpos => ⟨id, h.blocked hpos⟩) (fun u hu hs => ?_)
    False.elim (by rw [hpending]; rfl) hreturned
  rcases ha with hn | ht
  · exact absurd (hs.symm.trans hn) (Option.some_ne_none u)
  · exact absurd (Option.some_inj.mp (hs.symm.trans ht)) hu

theorem Sound.unlock (h : s.Sound) {t : T} (hph : ¬(s.phase t).Holds) :
    (s.mutexUnlock t).Sound := by
  have hrelease : ∀ u, (s.phase u).Holds → s.holder ≠ some t := by
    intro u hu ht
    have hut : u = t := Option.some_inj.mp ((h.holder u hu).symm.trans ht)
    exact hph (hut ▸ hu)
  rw [State.mutexUnlock]
  split
  · rename_i ht
    split
    · exact ⟨h.wait, h.blocked, fun u hu => absurd ht (hrelease u hu), h.cnt, h.returned⟩
    · exact ⟨h.wait, h.blocked, h.holder, h.cnt, h.returned⟩
  · exact h

theorem Sound.next (h : s.Sound) (t : T) : (s.next t).Sound := by
  have hblocked := h.blocked
  rw [State.next]
  split
  · rename_i hp
    split
    · rename_i ha
      exact h.lock (by rw [hp]; rfl) (by rw [hp]; rfl) ha h.returned
    · exact h
  · rename_i ms hp
    rw [mutexUnlock_goto]
    have hgoto : (s.goto t (.unlocked ms false)).Sound :=
      h.goto (by rw [hp]; rfl) (fun hpos => ⟨id, hblocked hpos⟩) (fun _ _ => id) False.elim
        (by rw [hp]; rfl) h.returned
    refine hgoto.unlock ?_
    dsimp only [State.goto]
    rw [Function.update_self]
    exact id
  · rename_i ms counted hp
    rw [State.semaphoreWait]
    split
    · rename_i hpos
      exact h.goto (by rw [hp]; rfl) (fun _ => ⟨id, hblocked hpos⟩) (fun _ _ => id) False.elim
        (by rw [hp]; dsimp only [State.goto, Phase.pending]; omega) h.returned
    · rename_i hpos
      exact h.goto (by rw [hp]; rfl) (fun hpos' => absurd hpos' hpos) (fun _ _ => id) False.elim
        (by rw [hp]; rfl) h.returned
  · rename_i ms ret hp
    have hw := h.wait
    have hle := le_tally (w := Phase.inWait) (p := s.phase) t
    rw [hp] at hle
    dsimp only [Phase.inWait] at hle
    refine h.goto (by rw [hp]; dsimp only [Phase.inWait]; omega) (fun hpos => ⟨id, hblocked hpos⟩)
      (fun _ _ => id) False.elim ?_ h.returned
    rw [hp]
    cases ret <;> rfl
  · rename_i ms ret hp
    refine h.goto (by rw [hp]; rfl) (fun hpos => ⟨id, hblocked hpos⟩) (fun _ _ => id) False.elim ?_
      h.returned
    rw [hp]
    cases ret <;> simp [State.goto, Phase.pending] <;> omega
  · rename_i ms ret hp
    split
    · rename_i ha
      refine h.lock (by rw [hp]; rfl) (by rw [hp]; rfl) ha ?_
      split
      · exact h.returned
      · intro r hr
        rcases List.mem_cons.mp hr with he | hr
        · rw [he]
          cases ret <;> decide
        · exact h.returned r hr
    · exact h
  · rename_i n hp
    refine h.goto (by rw [hp]; rfl) (fun hpos => ⟨id, hblocked hpos⟩) (fun _ _ => id)
      (fun _ => h.holder t (by rw [hp]; trivial)) ?_ h.returned
    rw [hp]
    dsimp only [State.goto, Phase.pending]
    omega
  · exact h

theorem Sound.release (h : s.Sound) (t u : T) : (s.release t u).Sound := by
  rw [State.release]
  split
  · rename_i n hp
    have hto : ∀ cnt, cnt + 1 = s.cnt → ¬0 < s.tokens →
        Sound { s.goto t (.posted n) with cnt } := by
      intro cnt hcnt hpos
      refine h.goto (by rw [hp, Phase.posted_inWait]; rfl) (fun h => absurd h hpos)
        (fun _ _ => id) ?_ ?_ h.returned
      · cases n <;> exact fun _ => h.holder t (by rw [hp]; trivial)
      · rw [hp, Phase.posted_pending]
        dsimp only [State.goto, Phase.pending]
        omega
    split
    · rename_i ms counted hu
      have hpos : ¬0 < s.tokens := fun hpos => h.blocked hpos u (by rw [hu]; trivial)
      have hne : u ≠ t := by
        rintro rfl
        exact Phase.noConfusion (hu.symm.trans hp)
      have hphase : Function.update s.phase t (.posted n) u = .blocked ms counted :=
        (Function.update_of_ne hne _ _).trans hu
      refine (hto (s.cnt - 1) (by omega) hpos).goto ?_ (fun h => absurd h hpos) (fun _ _ => id)
        False.elim ?_ h.returned
      · dsimp only [State.goto]
        rw [hphase]
        rfl
      · dsimp only [State.goto]
        rw [hphase]
        dsimp only [Phase.pending]
        omega
    · split
      · exact h
      · rename_i hnone
        refine h.goto (by rw [hp, Phase.posted_inWait]; rfl)
          (fun _ => ⟨Phase.posted_not_isBlocked n, fun v hv => hnone ⟨v, hv⟩⟩)
          (fun _ _ => id) ?_ ?_ h.returned
        · cases n <;> exact fun _ => h.holder t (by rw [hp]; trivial)
        · rw [hp, Phase.posted_pending]
          dsimp only [State.goto, Phase.pending]
          omega
  · exact h

theorem Sound.timeout (h : s.Sound) (t : T) : (s.timeout t).Sound := by
  rw [State.timeout]
  split
  · rename_i ms counted hp
    exact h.goto (by rw [hp]; rfl) (fun hpos => ⟨id, h.blocked hpos⟩) (fun _ _ => id) False.elim
      (by rw [hp]; rfl) h.returned
  · exact h

/-- A thread that holds the mutex and is not in a call goes on. -/
theorem Sound.begin (h : s.Sound) {t : T} {ph : Phase} (hp : s.phase t = .running)
    (hph : ph.Holds → s.holder = some t) (hb : ¬ph.IsBlocked) (hpending : ph.pending = 0)
    {wait : Nat} (hwait : wait = s.wait + ph.inWait) : Sound { s.goto t ph with wait } :=
  h.goto (by rw [hp]; exact hwait) (fun hpos => ⟨hb, h.blocked hpos⟩) (fun _ _ => id) hph
    (by rw [hp, hpending]; rfl) h.returned

theorem Sound.locked (h : s.Sound) {t : T} {f : State T → State T}
    (hf : s.phase t = .running → s.holder = some t → (f s).Sound) : (s.locked t f).Sound := by
  rw [State.locked]
  split
  · rename_i hl
    exact hf hl.1 hl.2
  · exact h

theorem Sound.step (h : s.Sound) (l : Label T) : (s.step l).Sound := by
  cases l with
  | lock t =>
    rw [State.step]
    split
    · rename_i hp
      exact h.begin hp False.elim id rfl rfl
    · exact h
  | unlock t =>
    rw [State.step]
    exact h.locked fun hp _ => h.unlock (by rw [hp]; exact id)
  | finish t =>
    rw [State.step]
    split
    · rename_i hp
      exact h.begin hp False.elim id rfl rfl
    · exact h
  | wait t =>
    rw [State.step]
    exact h.locked fun hp hh => h.begin hp (fun _ => hh) id rfl rfl
  | timedwait t now c =>
    rw [State.step]
    exact h.locked fun hp hh => h.begin hp (fun _ => hh) id rfl rfl
  | signal t =>
    rw [State.step]
    refine h.locked fun hp hh => ?_
    rw [condSignal]
    split
    · exact h
    · split
      · exact h.count.begin (congrArg Phase.count hp) (fun _ => hh) id rfl rfl
      · exact h.begin hp (fun _ => hh) id rfl rfl
  | broadcast t =>
    rw [State.step]
    refine h.locked fun hp hh => ?_
    rw [condBroadcast]
    split
    · exact h
    · exact h.count.begin (congrArg Phase.count hp) (fun _ => hh) id rfl rfl
  | next t => exact h.next t
  | release t u => exact h.release t u
  | timeout t => exact h.timeout t

end

/-! ## The tokens of a broadcast -/

section
variable {p : T → Phase}

theorem owed_of_update [DecidableEq T] {t : T} {ph : Phase} (hph : ph.Owed → (p t).Owed) {u : T}
    (hu : (Function.update p t ph u).Owed) : ∃ u, (p u).Owed := by
  by_cases hut : u = t
  · rw [hut, Function.update_self] at hu
    exact ⟨t, hph hu⟩
  · rw [Function.update_of_ne hut] at hu
    exact ⟨u, hu⟩

variable [Fintype T]

/-- There are tokens for those that were there at a broadcast. -/
def Enough (p : T → Phase) (tokens : Nat) : Prop :=
  (∃ u, (p u).Owed) → tally Phase.counted p ≤ tokens + tally Phase.toPost p

theorem enough_initial (tokens : Nat) : Enough (initial : State T).phase tokens :=
  fun ⟨_, hu⟩ => hu.elim

variable [DecidableEq T]

theorem Enough.update {tokens tokens' : Nat} (h : Enough p tokens) {t : T} {ph : Phase}
    (hph : ph.Owed → (p t).Owed)
    (hle : ph.counted + tokens + (p t).toPost ≤ (p t).counted + tokens' + ph.toPost) :
    Enough (Function.update p t ph) tokens' := by
  rintro ⟨u, hu⟩
  have henough := h (owed_of_update hph hu)
  have hcounted := tally_update Phase.counted p t ph
  have hpost := tally_update Phase.toPost p t ph
  omega

/-- One that was not there takes a token, and there is one more than needed. -/
theorem enough_of_spare {s : State T} (h : s.Spare) {t : T} {ph : Phase}
    (hph : ph.Owed → (s.phase t).Owed) (hcounted : ph.counted = (s.phase t).counted)
    (hpost : ph.toPost = (s.phase t).toPost) {tokens : Nat} (htokens : s.tokens = tokens + 1) :
    Enough (Function.update s.phase t ph) tokens := by
  rintro ⟨u, hu⟩
  have hspare := h (owed_of_update hph hu)
  have hc := tally_update Phase.counted s.phase t ph
  have hp := tally_update Phase.toPost s.phase t ph
  omega

theorem Spare.released {s : State T} (h : s.Spare) {t : T} {n : Nat}
    (hp : s.phase t = .releasing n) :
    Spare { s.goto t (.posted n) with tokens := s.tokens + 1 } := by
  rintro ⟨u, hu⟩
  have hspare := h (owed_of_update (fun ho => absurd ho (Phase.posted_not_owed n)) hu)
  have hc := tally_update Phase.counted s.phase t (.posted n)
  have hpost := tally_update Phase.toPost s.phase t (.posted n)
  rw [hp, Phase.posted_counted] at hc
  rw [hp, Phase.posted_toPost] at hpost
  dsimp only [State.goto, Phase.counted, Phase.toPost] at hc hpost ⊢
  omega

/-- As many tokens are posted as there are threads that wait. -/
theorem enough_of_count {t : T} (ht : p t = .running) {n : Nat}
    (hn : tally Phase.waits p ≤ n + 1) (tokens : Nat) :
    Enough (Function.update (fun u => (p u).count) t (.posting n)) tokens := by
  rintro -
  have hcounted := tally_update Phase.counted (fun u => (p u).count) t (.posting n)
  have hpost := tally_update Phase.toPost (fun u => (p u).count) t (.posting n)
  have hwaits : tally Phase.counted (fun u => (p u).count) ≤ tally Phase.waits p :=
    tally_le_tally fun u => Nat.le_of_eq (p u).count_counted
  rw [ht] at hcounted hpost
  change _ + 0 = _ + 0 at hcounted
  change _ + 0 = _ + (n + 1) at hpost
  omega

variable {s : State T}

theorem Enough.next (h : Enough s.phase s.tokens) (t : T) (hl : s.LeavesEnough (.next t)) :
    Enough (s.next t).phase (s.next t).tokens := by
  rw [State.next]
  rw [LeavesEnough] at hl
  split
  · rename_i hp
    split
    · exact h.update False.elim (by rw [hp]; exact Nat.le_refl _)
    · exact h
  · rename_i ms hp
    rw [mutexUnlock_goto, mutexUnlock_phase, mutexUnlock_tokens]
    exact h.update (fun ho => absurd ho (Phase.not_owed_unlocked ms))
      (by rw [hp]; exact Nat.le_refl _)
  · rename_i ms counted hp
    rw [hp] at hl
    rw [State.semaphoreWait]
    split
    · rename_i hpos
      cases counted with
      | true =>
        refine h.update False.elim ?_
        rw [hp]
        dsimp only [Phase.counted, Phase.toPost]
        omega
      | false =>
        exact enough_of_spare (hl hpos) False.elim (by rw [hp]; rfl) (by rw [hp]; rfl)
          (Nat.sub_add_cancel hpos).symm
    · refine h.update (by rw [hp]; exact Phase.Owed.of_blocked) ?_
      rw [hp, Phase.counted_blocked]
      exact Nat.le_refl _
  · rename_i ms ret hp
    exact h.update False.elim (by rw [hp]; exact Nat.le_refl _)
  · rename_i ms ret hp
    exact h.update False.elim (by rw [hp]; exact Nat.le_refl _)
  · rename_i ms ret hp
    split
    · exact h.update False.elim (by rw [hp]; exact Nat.le_refl _)
    · exact h
  · rename_i n hp
    exact h.update False.elim (by rw [hp]; exact Nat.le_refl _)
  · exact h

theorem Enough.release (h : Enough s.phase s.tokens) (t u : T)
    (hl : s.LeavesEnough (.release t u)) :
    Enough (s.release t u).phase (s.release t u).tokens := by
  rw [State.release]
  rw [LeavesEnough] at hl
  split
  · rename_i n hp
    have hto : Enough (Function.update s.phase t (.posted n)) (s.tokens + 1) := by
      refine h.update (fun ho => absurd ho (Phase.posted_not_owed n)) ?_
      rw [hp, Phase.posted_counted, Phase.posted_toPost]
      dsimp only [Phase.counted, Phase.toPost]
      omega
    split
    · rename_i ms counted hu
      rw [hp, hu] at hl
      have hne : u ≠ t := by
        rintro rfl
        exact Phase.noConfusion (hu.symm.trans hp)
      have hphase : Function.update s.phase t (.posted n) u = .blocked ms counted :=
        (Function.update_of_ne hne _ _).trans hu
      cases counted with
      | true =>
        refine hto.update False.elim ?_
        rw [hphase]
        dsimp only [State.goto, Phase.counted, Phase.toPost]
        omega
      | false =>
        refine enough_of_spare (hl.released hp) False.elim ?_ ?_ rfl
        · exact (congrArg Phase.counted hphase).symm
        · exact (congrArg Phase.toPost hphase).symm
    · split
      · exact h
      · exact hto
  · exact h

theorem Enough.timeout (h : Enough s.phase s.tokens) (t : T) :
    Enough (s.timeout t).phase (s.timeout t).tokens := by
  rw [State.timeout]
  split
  · rename_i ms counted hp
    refine h.update False.elim ?_
    rw [hp]
    dsimp only [State.goto, Phase.counted, Phase.toPost]
    omega
  · exact h

theorem Enough.locked (h : Enough s.phase s.tokens) {t : T} {f : State T → State T}
    (hf : s.phase t = .running → Enough (f s).phase (f s).tokens) :
    Enough (s.locked t f).phase (s.locked t f).tokens := by
  rw [State.locked]
  split
  · rename_i hl
    exact hf hl.1
  · exact h

theorem Enough.step (h : Enough s.phase s.tokens) (hs : s.Sound) (l : Label T)
    (hl : s.LeavesEnough l) : Enough (s.step l).phase (s.step l).tokens := by
  have hbegin : ∀ {t : T} {ph : Phase}, s.phase t = .running → ¬ph.Owed → ph.counted = 0 →
      Enough (Function.update s.phase t ph) s.tokens := by
    intro t ph hp howed hcounted
    refine h.update (fun ho => absurd ho howed) ?_
    rw [hp, hcounted]
    dsimp only [Phase.counted, Phase.toPost]
    omega
  cases l with
  | lock t =>
    rw [State.step]
    split
    · rename_i hp
      exact hbegin hp id rfl
    · exact h
  | unlock t =>
    rw [State.step]
    refine h.locked fun _ => ?_
    rw [mutexUnlock_phase, mutexUnlock_tokens]
    exact h
  | finish t =>
    rw [State.step]
    split
    · rename_i hp
      exact hbegin hp id rfl
    · exact h
  | wait t =>
    rw [State.step]
    exact h.locked fun hp => hbegin hp id rfl
  | timedwait t now c =>
    rw [State.step]
    exact h.locked fun hp => hbegin hp id rfl
  | signal t =>
    rw [State.step]
    refine h.locked fun hp => ?_
    rw [condSignal]
    split
    · exact h
    · split
      · rename_i hone
        exact enough_of_count hp (Nat.le_of_eq hone) _
      · exact hbegin hp id rfl
  | broadcast t =>
    rw [State.step]
    refine h.locked fun hp => ?_
    rw [condBroadcast]
    split
    · exact h
    · rename_i n hn
      have hwaits : tally Phase.waits s.phase ≤ tally Phase.inWait s.phase :=
        tally_le_tally fun u => (s.phase u).waits_le_inWait
      have hwait := hs.wait
      exact enough_of_count hp (by omega) _
  | next t => exact h.next t hl
  | release t u => exact h.release t u hl
  | timeout t => exact h.timeout t

omit [DecidableEq T] in
theorem Sound.not_stranded (h : s.Sound) (henough : Enough s.phase s.tokens) (t : T) :
    ¬s.Stranded t := by
  rintro ⟨hfree, -, ht⟩
  have howed : (s.phase t).Owed := by
    rw [ht]
    trivial
  have htokens : ¬0 < s.tokens := fun hpos => h.blocked hpos t (by rw [ht]; trivial)
  have hpost : tally Phase.toPost s.phase = 0 := by
    refine tally_eq_zero.mpr fun u => ?_
    by_contra hu
    have hholds : (s.phase u).Holds := by
      revert hu
      cases s.phase u <;> simp [Phase.toPost, Phase.Holds]
    exact Option.some_ne_none u ((h.holder u hholds).symm.trans hfree)
  have hle := henough ⟨t, howed⟩
  have hone := le_tally (w := Phase.counted) (p := s.phase) t
  rw [howed.counted] at hone
  omega

end

end State

/-! ## Runs -/

section
variable [Fintype T] [DecidableEq T]

instance (s : State T) : Decidable s.Spare := by
  unfold State.Spare
  infer_instance

instance (s : State T) (l : Label T) : Decidable (s.LeavesEnough l) := by
  cases l <;> unfold State.LeavesEnough
  case next t => dsimp only; split <;> infer_instance
  case release t u => dsimp only; split <;> infer_instance
  all_goals infer_instance

instance (s : State T) (t : T) : Decidable (s.Runnable t) := by
  unfold State.Runnable
  split <;> infer_instance

instance (s : State T) (t : T) : Decidable (s.Stranded t) := by
  unfold State.Stranded
  infer_instance

instance (s : State T) : Decidable s.CountsTokens := by
  unfold State.CountsTokens
  infer_instance

theorem timedwaitMs_eq (now c : Timespec) :
    (timedwaitMs now c : Int) = max 0 (c.msecSince now) ↔
      c.msecSince now = 2 ^ 31 ∨ c.msecSince now ≤ 0 ∧ (2 ^ 32 : Int) ∣ c.msecSince now := by
  have hneg : now.msecSince c = -c.msecSince now := by
    rw [Timespec.msecSince, Timespec.msecSince, ← neg_sub c.nsec now.nsec, Int.neg_tdiv]
    omega
  rw [timedwaitMs, hneg]
  omega

/-- A thread is stranded in no run in which the others leave enough tokens; `cnt` is the number of
the tokens exactly as long as no wait has timed out; the error is right in every run; and the time
that is passed on is what is left until the deadline for few deadlines. -/
theorem cond_kept (ls : List (Label T)) :
    (Along State.step State.LeavesEnough State.initial ls →
        ∀ t, ¬(ls.foldl State.step State.initial).Stranded t) ∧
      ((ls.foldl State.step (State.initial : State T)).CountsTokens ↔
        (ls.foldl State.step (State.initial : State T)).timeouts = 0) ∧
      (∀ r ∈ (ls.foldl State.step (State.initial : State T)).returned,
        r.2 ≠ 0 ↔ r.1 = .timeout) ∧
      ∀ now c, (timedwaitMs now c : Int) = max 0 (c.msecSince now) ↔
        c.msecSince now = 2 ^ 31 ∨ c.msecSince now ≤ 0 ∧ (2 ^ 32 : Int) ∣ c.msecSince now := by
  have hsound : (ls.foldl State.step (State.initial : State T)).Sound :=
    List.foldlRecOn ls State.step State.sound_initial fun _ h l _ => h.step l
  refine ⟨fun h => ?_, ?_, hsound.returned, timedwaitMs_eq⟩
  · have hrun : (ls.foldl State.step (State.initial : State T)).Sound ∧
        State.Enough (ls.foldl State.step (State.initial : State T)).phase
          (ls.foldl State.step (State.initial : State T)).tokens :=
      along_foldl (I := fun s => s.Sound ∧ State.Enough s.phase s.tokens)
        ⟨State.sound_initial, State.enough_initial _⟩
        (fun _ l hs hl => ⟨hs.1.step l, hs.2.step hs.1 l hl⟩) h
    exact hrun.1.not_stranded hrun.2
  · have hcnt := hsound.cnt
    rw [State.CountsTokens]
    omega

end

/-- A thread waits, and gets the token of a broadcast. -/
theorem cond_kept_broadcast : ∀ t, ¬([Label.lock (0 : Fin 2), .next 0, .wait 0, .next 0, .next 0,
    .lock 1, .next 1, .broadcast 1, .next 1, .release 1 0, .unlock 1, .next 0, .next 0,
    .next 0].foldl State.step State.initial).Stranded t :=
  (cond_kept _).1 (by decide)

/-- The thread that broadcasts waits itself, and takes the token before the one that it was for; a
deadline one second ahead is passed on as another time; and the timeout counts a token off. -/
theorem cond_not_kept :
    ([Label.lock (0 : Fin 2), .next 0, .wait 0, .next 0, .lock 1, .next 1, .broadcast 1, .next 1,
        .release 1 1, .wait 1, .next 1, .next 1, .next 1, .next 1, .next 1, .unlock 1, .finish 1,
        .next 0].foldl State.step State.initial).Stranded 0 ∧
      (timedwaitMs ⟨0, 0⟩ ⟨1, 0⟩ : Int) ≠ max 0 (Timespec.msecSince ⟨1, 0⟩ ⟨0, 0⟩) ∧
      ¬([Label.lock (0 : Fin 1), .next 0, .timedwait 0 ⟨0, 0⟩ ⟨1, 0⟩, .next 0, .next 0, .timeout 0,
        .next 0, .next 0, .next 0].foldl State.step State.initial).CountsTokens := by
  exact ⟨by decide, by decide, by decide⟩

end Cond
end Pthread
end XR806

import Mathlib.Logic.Function.Basic
import XR806.Trans.Run

/-!
# XR806.Pm.Wakelock

`wakelock.c`: the wakelocks, their timer, and the semaphore `pm_wait_wakelocks` waits on.

A section under `arch_irq_save` is one step. What a call still has to do after such a section is a
`Pending` continuation, so calls of any number of threads interleave in every order.

`_wakelock_update` gives a token each time it finds the list empty, and nothing takes a token
back. A lock taken while a token is still there does not stop the next wait
(`stale_token_waits`). When no lock is taken over a token, a wait that returns finds no lock held
(`pm_wait_wakelocks_safe`).
-/

namespace XR806
namespace Pm

def osWaitForever : BitVec 32 := 0xFFFFFFFF

def osSemaphoreMaxCount : Nat := 0xFFFFFFFF

/-- `OS_TimeAfter`. -/
def osTimeAfter (a b : BitVec 32) : Bool := (b - a).slt 0

def osTimeBefore (a b : BitVec 32) : Bool := osTimeAfter b a

def osTimeAfterEqual (a b : BitVec 32) : Bool := ¬(a - b).slt 0

/-- `OS_MSecsToTicks`. -/
def osMSecsToTicks (hz : Nat) (msec : BitVec 32) : BitVec 32 :=
  msec * BitVec.ofNat 32 (1000 / (1000000 / hz))

/-- `PM_WKL_WAIT_FOREVER`, `PM_WKL_WAIT_TIMEOUT` and `PM_WKL_WAIT_NUM`. -/
def pmWklWaitForever : Nat := 0
def pmWklWaitTimeout : Nat := 1
def pmWklWaitNum : Nat := 2

def einval : Int := 22

/-- What a thread does next after a section with interrupts off. -/
inductive Pending where
  /-- Call `_wakelock_update`. -/
  | update
  /-- `_wakelock_update` has read the time. -/
  | updateAt (now : BitVec 32)
  /-- `OS_TimerChangePeriod` at the end of `_wakelock_update`. -/
  | changePeriod (ms : BitVec 32)
  deriving DecidableEq

structure Wakelocks (W : Type) where
  /-- `wakelocks_list`, head first. -/
  list : List W
  /-- A 16-bit counter. -/
  ref : W → BitVec 16
  expires : W → BitVec 32
  /-- The node's links are not `NULL`. -/
  linked : W → Bool
  timerArg : Option W
  timerExpires : BitVec 32
  /-- The period of the running timer. -/
  timer : Option (BitVec 32)
  /-- The count of the semaphore `wakelocks_wait`. -/
  tokens : Nat
  ticks : BitVec 32
  pending : List Pending

variable {W : Type}

namespace Wakelocks

/-- After `pm_wakelocks_init`, at time `ticks`, the wakelocks still zero. -/
def init (ticks : BitVec 32) : Wakelocks W where
  list := []
  ref _ := 0
  expires _ := 0
  linked _ := false
  timerArg := none
  timerExpires := 0
  timer := none
  tokens := 0
  ticks := ticks
  pending := []

/-- Some lock on the list is held. -/
def Held (s : Wakelocks W) : Prop :=
  ∃ wl ∈ s.list, s.ref wl ≠ 0 ∨ osTimeAfter (s.expires wl) s.ticks = true

def semaphoreRelease (s : Wakelocks W) : Wakelocks W :=
  if s.tokens < osSemaphoreMaxCount then { s with tokens := s.tokens + 1 } else s

def push (s : Wakelocks W) (p : Pending) : Wakelocks W := { s with pending := p :: s.pending }

end Wakelocks

section Calls

variable [DecidableEq W]

/-- When a lock taken now for `msec` expires; `OS_WAIT_FOREVER` is stepped over. -/
def wakelockExpires (hz : Nat) (msec : BitVec 32) (s : Wakelocks W) : BitVec 32 :=
  let expires := s.ticks + osMSecsToTicks hz msec
  if expires = osWaitForever then expires + 1 else expires

def wakelockActiveTimer (hz : Nat) (wl : W) (msec : BitVec 32) (s : Wakelocks W) : Wakelocks W :=
  if msec = 0 then s
  else
    let expires := wakelockExpires hz msec s
    let s := { s with expires := Function.update s.expires wl expires }
    if s.timerExpires = osWaitForever then s
    else if osTimeAfter expires s.timerExpires then
      { s with timer := some msec, timerArg := some wl, timerExpires := expires }
    else s

def wakelockStayAwake (wl : W) (s : Wakelocks W) : Wakelocks W :=
  { s with
    ref := Function.update s.ref wl (s.ref wl + 1)
    timer := none
    timerExpires := osWaitForever }

/-- The loop of `_wakelock_update`: what stays on the list, and the latest expiry with its lock, or
`none` when the loop was left at a lock with references. -/
def wakelockScan (s : Wakelocks W) (now : BitVec 32) :
    List W → BitVec 32 × Option W → List W × Option (BitVec 32 × Option W)
  | [], latest => ([], some latest)
  | wl :: rest, latest =>
    if s.ref wl ≠ 0 then (wl :: rest, none)
    else if osTimeAfterEqual now (s.expires wl) then wakelockScan s now rest latest
    else
      let latest :=
        if latest.1 = osWaitForever ∨ osTimeBefore latest.1 (s.expires wl) then
          (s.expires wl, some wl)
        else latest
      let (kept, r) := wakelockScan s now rest latest
      (wl :: kept, r)

/-- `_wakelock_update` from `arch_irq_save` to `arch_irq_restore`. -/
def wakelockUpdate (now : BitVec 32) (s : Wakelocks W) : Nat × Wakelocks W :=
  match wakelockScan s now s.list (osWaitForever, none) with
  | (kept, none) => (2, { s with list := kept })
  | (kept, some (expires, wlMax)) =>
    let wlNull := s.list = []
    let s := { s with list := kept }
    if wlNull ∨ expires = osWaitForever then (0, s.semaphoreRelease)
    else if osTimeAfter expires s.ticks then
      (1, { s with timerArg := wlMax, timerExpires := expires }.push
        (.changePeriod (expires - s.ticks)))
    else (0, s)

def wakelockTimerCb (s : Wakelocks W) : Wakelocks W :=
  let s := match s.timerArg with
    | some wl => if s.ref wl = 0 then { s with list := s.list.erase wl } else s
    | none => s
  s.push .update

/-- The argument checks of `pm_wake_lock`. -/
def lockArgs (wl : Option W) (type : Nat) (timeoutMs : BitVec 32) : Prop :=
  wl ≠ none ∧ type < pmWklWaitNum ∧ ¬(type = pmWklWaitTimeout ∧ timeoutMs = 0)

instance (wl : Option W) (type : Nat) (timeoutMs : BitVec 32) :
    Decidable (lockArgs wl type timeoutMs) := inferInstanceAs (Decidable (_ ∧ _ ∧ _))

def pmWakeLock (hz : Nat) (wl : Option W) (type : Nat) (timeoutMs : BitVec 32)
    (s : Wakelocks W) : Int × Wakelocks W :=
  match wl with
  | none => (-einval, s)
  | some wl =>
    if type ≥ pmWklWaitNum then (-einval, s)
    else if type = pmWklWaitTimeout ∧ timeoutMs = 0 then (-einval, s)
    else
      let timeoutMs := if type = pmWklWaitForever then 0 else timeoutMs
      let s :=
        if wl ∈ s.list then s
        else { s with list := wl :: s.list, linked := Function.update s.linked wl true }
      if type = pmWklWaitTimeout then (0, wakelockActiveTimer hz wl timeoutMs s)
      else (0, wakelockStayAwake wl s)

/-- `none`: the list is not empty and `list_del` runs on a node that was never linked. -/
def pmWakeUnlock (wl : Option W) (type : Nat) (s : Wakelocks W) : Option (Int × Wakelocks W) :=
  match wl with
  | none => some (-einval, s)
  | some wl =>
    if s.list = [] then some (0, s.push .update)
    else if type = pmWklWaitTimeout ∧ s.ref wl = 0 then
      if s.linked wl then some (0, { s with list := s.list.erase wl }.push .update) else none
    else if type = pmWklWaitForever then
      some (0, { s with ref := Function.update s.ref wl (s.ref wl - 1) }.push .update)
    else some (0, s.push .update)

/-- `pm_wait_wakelocks` returns; `none` while it is blocked. -/
def pmWaitWakelocks (s : Wakelocks W) : Option (Nat × Wakelocks W) :=
  if s.tokens = 0 then none else some (0, { s with tokens := s.tokens - 1 })

/-- A pending continuation runs. -/
def Pending.run (s : Wakelocks W) : Pending → Wakelocks W
  | .update => s.push (.updateAt s.ticks)
  | .updateAt now => (wakelockUpdate now s).2
  | .changePeriod ms => { s with timer := some ms }

inductive WlOp (W : Type) where
  | lock (wl : Option W) (type : Nat) (timeoutMs : BitVec 32)
  | unlock (wl : Option W) (type : Nat)
  | timerCb
  | wait
  | tick
  | resume (i : Nat)

/-- The timer task runs the callback some time after the timer expired, and a stop command may
still be queued then: the callback can come at any time. -/
def wlStep (hz : Nat) (s : Wakelocks W) : WlOp W → Option (Wakelocks W)
  | .lock wl type timeoutMs => some (pmWakeLock hz wl type timeoutMs s).2
  | .unlock wl type => (pmWakeUnlock wl type s).map Prod.snd
  | .timerCb => some (wakelockTimerCb s)
  | .wait => (pmWaitWakelocks s).map Prod.snd
  | .tick => some { s with ticks := s.ticks + 1 }
  | .resume i => (s.pending[i]?).map fun p => p.run { s with pending := s.pending.eraseIdx i }

def WlStep (hz : Nat) (s : Wakelocks W) (op : WlOp W) (s' : Wakelocks W) : Prop :=
  wlStep hz s op = some s'

/-- No lock is taken while a token of the semaphore has not been waited for. -/
def NoStaleToken (s : Wakelocks W) : WlOp W → Prop
  | .lock wl type timeoutMs => lockArgs wl type timeoutMs → s.tokens = 0
  | _ => True

end Calls

/-! ## The scan -/

section Scan

variable {s : Wakelocks W} {now expires : BitVec 32} {wlMax : Option W} {kept : List W}

/-- The latest expiry is that of the latest lock. -/
def Latest (s : Wakelocks W) (latest : BitVec 32 × Option W) : Prop :=
  ∃ wl, latest = (s.expires wl, some wl)

theorem wakelockScan_latest (list : List W) {latest : BitVec 32 × Option W} (hl : Latest s latest)
    (h : wakelockScan s now list latest = (kept, some (expires, wlMax))) :
    Latest s (expires, wlMax) := by
  induction list generalizing latest kept with
  | nil =>
    obtain ⟨-, rfl⟩ := by simpa [wakelockScan] using h
    exact hl
  | cons wl rest ih =>
    simp only [wakelockScan] at h
    split at h
    · cases h
    split at h
    · exact ih hl h
    · generalize hr : wakelockScan s now rest _ = r at h
      obtain ⟨kept', res⟩ := r
      obtain ⟨-, rfl⟩ := by simpa using h
      refine ih ?_ hr
      split
      · exact ⟨wl, rfl⟩
      · exact hl

/-- A scan that comes to the end either leaves an empty list, or it has seen a lock that expires
later; `PM_ABORT(!wl_max)` holds there. -/
theorem wakelockScan_done (list : List W)
    (h : wakelockScan s now list (osWaitForever, none) = (kept, some (expires, wlMax))) :
    kept = [] ∧ expires = osWaitForever ∨ Latest s (expires, wlMax) := by
  induction list generalizing kept with
  | nil =>
    simp only [wakelockScan, Prod.mk.injEq, Option.some.injEq] at h
    exact .inl ⟨h.1.symm, h.2.1.symm⟩
  | cons wl rest ih =>
    simp only [wakelockScan] at h
    split at h
    · cases h
    split at h
    · exact ih h
    · generalize hr : wakelockScan s now rest _ = r at h
      obtain ⟨kept', res⟩ := r
      obtain ⟨-, rfl⟩ := by simpa using h
      exact .inr (wakelockScan_latest rest ⟨wl, if_pos (.inl trivial)⟩ hr)

end Scan

/-! ## The invariant -/

/-- Tokens are only there while the list is empty. -/
structure TokenInv (s : Wakelocks W) : Prop where
  tokens : s.tokens ≠ 0 → s.list = []
  expires : ∀ wl, s.expires wl ≠ osWaitForever

theorem tokenInv_init (ticks : BitVec 32) : TokenInv (Wakelocks.init ticks : Wakelocks W) := by
  refine ⟨fun _ => rfl, fun wl => ?_⟩
  change (0 : BitVec 32) ≠ osWaitForever
  decide

section Steps

variable {s : Wakelocks W}

/-- A step that gives no token, only takes locks off the list, and sets no expiry. -/
theorem TokenInv.of_shrink {s' : Wakelocks W} (hi : TokenInv s)
    (ht : s'.tokens ≠ 0 → s.tokens ≠ 0) (hl : ∀ wl ∈ s'.list, wl ∈ s.list)
    (he : s'.expires = s.expires) : TokenInv s' := by
  refine ⟨fun h => ?_, fun wl => by rw [he]; exact hi.expires wl⟩
  refine List.eq_nil_iff_forall_not_mem.mpr fun wl hwl => ?_
  have := hl wl hwl
  rw [hi.tokens (ht h)] at this
  cases this

theorem wakelockScan_subset (s : Wakelocks W) (now : BitVec 32) (list : List W)
    (latest : BitVec 32 × Option W) : ∀ wl ∈ (wakelockScan s now list latest).1, wl ∈ list := by
  induction list generalizing latest with
  | nil => simp [wakelockScan]
  | cons wl rest ih =>
    intro x hx
    simp only [wakelockScan] at hx
    split at hx
    · exact hx
    split at hx
    · exact List.mem_cons_of_mem _ (ih _ x hx)
    · rcases List.mem_cons.mp hx with rfl | hx
      · exact List.mem_cons_self ..
      · exact List.mem_cons_of_mem _ (ih _ x hx)

theorem TokenInv.wakelockUpdate (hi : TokenInv s) (now : BitVec 32) :
    TokenInv (wakelockUpdate now s).2 := by
  have hsub := wakelockScan_subset s now s.list (osWaitForever, none)
  unfold Pm.wakelockUpdate
  generalize hscan : wakelockScan s now s.list (osWaitForever, none) = r at hsub
  obtain ⟨kept, _ | ⟨expires, wlMax⟩⟩ := r
  · exact hi.of_shrink id hsub rfl
  · dsimp only
    split
    · -- a token is given: nothing is left on the list
      rename_i hempty
      have hkept : kept = [] := by
        rcases wakelockScan_done s.list hscan with ⟨hk, -⟩ | ⟨wl, hl⟩
        · exact hk
        · rcases hempty with hnil | hforever
          · exact List.eq_nil_iff_forall_not_mem.mpr fun x hx => by simpa [hnil] using hsub x hx
          · obtain ⟨rfl, -⟩ := by simpa using hl
            exact absurd hforever (hi.expires wl)
      subst hkept
      unfold Wakelocks.semaphoreRelease
      split
      · exact ⟨fun _ => rfl, hi.expires⟩
      · exact ⟨fun _ => rfl, hi.expires⟩
    · split
      · exact hi.of_shrink id hsub rfl
      · exact hi.of_shrink id hsub rfl

theorem TokenInv.pending (hi : TokenInv s) (p : Pending) : TokenInv (p.run s) := by
  cases p with
  | update => exact hi.of_shrink id (fun _ h => h) rfl
  | updateAt now => exact hi.wakelockUpdate now
  | changePeriod ms => exact hi.of_shrink id (fun _ h => h) rfl

variable [DecidableEq W]

omit [DecidableEq W] in
theorem wakelockExpires_ne (hz : Nat) (msec : BitVec 32) (s : Wakelocks W) :
    wakelockExpires hz msec s ≠ osWaitForever := by
  simp only [wakelockExpires]
  split
  · rename_i h
    rw [h]
    decide
  · assumption

theorem TokenInv.wakelockActiveTimer (hi : TokenInv s) (hz : Nat) (wl : W) (msec : BitVec 32)
    (ht : s.tokens = 0) : TokenInv (wakelockActiveTimer hz wl msec s) := by
  have hexp : ∀ x, Function.update s.expires wl (wakelockExpires hz msec s) x ≠ osWaitForever := by
    intro x
    by_cases hx : x = wl
    · rw [hx, Function.update_self]
      exact wakelockExpires_ne hz msec s
    · rw [Function.update_of_ne hx]
      exact hi.expires x
  unfold Pm.wakelockActiveTimer
  split
  · exact hi
  dsimp only
  split
  · exact ⟨fun h => absurd ht h, hexp⟩
  split
  · exact ⟨fun h => absurd ht h, hexp⟩
  · exact ⟨fun h => absurd ht h, hexp⟩

theorem TokenInv.pmWakeLock (hi : TokenInv s) {hz : Nat} {wl : Option W} {type : Nat}
    {timeoutMs : BitVec 32} (h : lockArgs wl type timeoutMs → s.tokens = 0) :
    TokenInv (pmWakeLock hz wl type timeoutMs s).2 := by
  unfold Pm.pmWakeLock
  cases wl with
  | none => exact hi
  | some wl =>
    dsimp only
    split
    · exact hi
    split
    · exact hi
    rename_i htype hargs
    have ht : s.tokens = 0 := h ⟨by simp, by omega, hargs⟩
    have hi' : TokenInv (if wl ∈ s.list then s else
        { s with list := wl :: s.list, linked := Function.update s.linked wl true }) := by
      split
      · exact hi
      · exact ⟨fun h => absurd ht h, hi.expires⟩
    have ht' : (if wl ∈ s.list then s else
        { s with list := wl :: s.list, linked := Function.update s.linked wl true }).tokens = 0 := by
      split <;> exact ht
    split
    · exact hi'.wakelockActiveTimer hz wl _ ht'
    · exact ⟨fun h => absurd ht' h, hi'.expires⟩

theorem TokenInv.pmWakeUnlock (hi : TokenInv s) {wl : Option W} {type : Nat} {ret : Int}
    {s' : Wakelocks W} (h : pmWakeUnlock wl type s = some (ret, s')) : TokenInv s' := by
  unfold Pm.pmWakeUnlock at h
  cases wl with
  | none =>
    obtain ⟨-, rfl⟩ := by simpa using h
    exact hi
  | some wl =>
    dsimp only at h
    split at h
    · obtain ⟨-, rfl⟩ := by simpa using h
      exact hi.of_shrink id (fun _ h => h) rfl
    split at h
    · split at h
      · obtain ⟨-, rfl⟩ := by simpa using h
        exact hi.of_shrink id (fun _ h => List.mem_of_mem_erase h) rfl
      · cases h
    · split at h <;>
      · obtain ⟨-, rfl⟩ := by simpa using h
        exact hi.of_shrink id (fun _ h => h) rfl

theorem TokenInv.wakelockTimerCb (hi : TokenInv s) : TokenInv (wakelockTimerCb s) := by
  unfold Pm.wakelockTimerCb
  split
  · split
    · exact hi.of_shrink id (fun _ h => List.mem_of_mem_erase h) rfl
    · exact hi.of_shrink id (fun _ h => h) rfl
  · exact hi.of_shrink id (fun _ h => h) rfl

theorem TokenInv.step (hi : TokenInv s) {hz : Nat} {op : WlOp W} {s' : Wakelocks W}
    (hstep : Trans.Guarded (WlStep hz) NoStaleToken s op s') : TokenInv s' := by
  obtain ⟨hok, h⟩ := hstep
  cases op with
  | lock wl type timeoutMs =>
    obtain rfl := Option.some.inj h
    exact hi.pmWakeLock hok
  | unlock wl type =>
    obtain ⟨⟨ret, s₁⟩, h₁, rfl⟩ := Option.map_eq_some_iff.mp h
    exact hi.pmWakeUnlock h₁
  | timerCb =>
    obtain rfl := Option.some.inj h
    exact hi.wakelockTimerCb
  | wait =>
    obtain ⟨⟨ret, s₁⟩, h₁, rfl⟩ := Option.map_eq_some_iff.mp h
    unfold pmWaitWakelocks at h₁
    split at h₁
    · cases h₁
    · rename_i ht
      obtain ⟨-, rfl⟩ := by simpa using h₁
      exact hi.of_shrink (fun _ => ht) (fun _ h => h) rfl
  | tick =>
    obtain rfl := Option.some.inj h
    exact hi.of_shrink id (fun _ h => h) rfl
  | resume i =>
    obtain ⟨p, -, rfl⟩ := Option.map_eq_some_iff.mp h
    have hi' : TokenInv { s with pending := s.pending.eraseIdx i } :=
      hi.of_shrink id (fun _ h => h) rfl
    exact hi'.pending p

end Steps

/-! ## Waiting -/

section Wait

variable [DecidableEq W]

theorem pm_wait_wakelocks_safe {hz : Nat} {ticks : BitVec 32} {ops : List (WlOp W)}
    {s s' : Wakelocks W}
    (h : Trans.Run (Trans.Guarded (WlStep hz) NoStaleToken) (Wakelocks.init ticks) ops s)
    (hwait : WlStep hz s .wait s') : ¬s.Held := by
  have hi : TokenInv s := h.invariant (tokenInv_init ticks) fun _ _ _ hi hs => hi.step hs
  have ht : s.tokens ≠ 0 := by
    intro ht
    simp [WlStep, wlStep, pmWaitWakelocks, ht] at hwait
  rintro ⟨wl, hwl, -⟩
  rw [hi.tokens ht] at hwl
  cases hwl

/-- Conversely, a forever lock taken over a token lets the next wait return while it is held. -/
theorem lock_over_token {hz : Nat} {s : Wakelocks W} {wl : W} (ht : s.tokens ≠ 0)
    (href : s.ref wl + 1 ≠ 0) : ∃ s' s'',
      WlStep hz s (.lock (some wl) pmWklWaitForever 0) s' ∧ WlStep hz s' .wait s'' ∧ s'.Held := by
  obtain ⟨s', hs', htok, hmem, href'⟩ : ∃ s', WlStep hz s (.lock (some wl) pmWklWaitForever 0) s' ∧
      s'.tokens = s.tokens ∧ wl ∈ s'.list ∧ s'.ref wl = s.ref wl + 1 := by
    refine ⟨_, rfl, ?_⟩
    simp only [pmWakeLock, pmWklWaitForever, pmWklWaitTimeout, pmWklWaitNum, wakelockStayAwake]
    by_cases hwl : wl ∈ s.list
    · simp [hwl]
    · simp [hwl]
  have hwait : WlStep hz s' .wait { s' with tokens := s'.tokens - 1 } := by
    simp [WlStep, wlStep, pmWaitWakelocks, htok, ht]
  exact ⟨s', _, hs', hwait, wl, hmem, .inl (by rwa [href'])⟩

end Wait

/-- Lock, unlock and update: the list is empty, a token is there, and the wait returns. -/
theorem pm_wait_wakelocks_after_unlock : ∃ s s', Trans.Run (Trans.Guarded (WlStep 1000) NoStaleToken)
      (Wakelocks.init 0 : Wakelocks Nat)
      [.lock (some 0) pmWklWaitForever 0, .unlock (some 0) pmWklWaitForever, .resume 0, .resume 0]
      s ∧ WlStep 1000 s .wait s' ∧ ¬s.Held := by
  have h : ∃ s s', Trans.Run (Trans.Guarded (WlStep 1000) NoStaleToken)
      (Wakelocks.init 0 : Wakelocks Nat)
      [.lock (some 0) pmWklWaitForever 0, .unlock (some 0) pmWklWaitForever, .resume 0, .resume 0]
      s ∧ WlStep 1000 s .wait s' :=
    ⟨_, _, .cons ⟨fun _ => rfl, rfl⟩ (.cons ⟨trivial, rfl⟩ (.cons ⟨trivial, rfl⟩
      (.cons ⟨trivial, rfl⟩ (.nil _)))), rfl⟩
  obtain ⟨s, s', hrun, hwait⟩ := h
  exact ⟨s, s', hrun, hwait, pm_wait_wakelocks_safe hrun hwait⟩

/-- The token of the first unlock outlives it: with the lock taken again, the wait returns. -/
theorem stale_token_waits : ∃ s s', Trans.Run (WlStep 1000) (Wakelocks.init 0 : Wakelocks Nat)
      [.lock (some 0) pmWklWaitForever 0, .unlock (some 0) pmWklWaitForever, .resume 0, .resume 0,
        .lock (some 0) pmWklWaitForever 0] s ∧ WlStep 1000 s .wait s' ∧ s.Held := by
  refine ⟨_, _, .cons rfl (.cons rfl (.cons rfl (.cons rfl (.cons rfl (.nil _))))), rfl,
    0, List.mem_singleton.mpr rfl, .inl ?_⟩
  decide

end Pm
end XR806

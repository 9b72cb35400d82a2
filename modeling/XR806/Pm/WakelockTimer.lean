import Mathlib.Algebra.Group.Nat.Defs
import Mathlib.Data.List.TakeWhile
import XR806.Pm.Wakelock

/-!
# XR806.Pm.WakelockTimer

The timer of the wakelocks, with the tick at which it fires.

Here a call of `pm_wake_lock` or `pm_wake_unlock` and a callback of the timer run to their end; each
is a run of the steps of `XR806.Pm.Wakelock` (`timed_step_run`).

`_wakelock_update` always leaves the timer at the latest expiry. `_wakelock_active_timer` goes by
the cached expiry alone, and it is stale after an untimed lock, after the list has become empty, and
when the lock is the one the timer runs for. Where it is not, the timer is armed whenever it is
needed (`wakelock_timer_armed`).
-/

namespace XR806
namespace Pm

open Trans

def configTickRateHz : Nat := 1000

structure TimedLocks (W : Type) where
  locks : Wakelocks W
  /-- The tick at which the running timer fires. -/
  due : Option (BitVec 32)

inductive TimedOp (W : Type) where
  | lock (wl : Option W) (type : Nat) (timeoutMs : BitVec 32)
  | unlock (wl : Option W) (type : Nat)
  /-- The timer fires. -/
  | expire
  | wait
  | tick

variable {W : Type}

namespace TimedLocks

def init (ticks : BitVec 32) : TimedLocks W := ⟨.init ticks, none⟩

/-- The tick that is `ms` from now. -/
def after (t : TimedLocks W) (ms : BitVec 32) : BitVec 32 :=
  t.locks.ticks + osMSecsToTicks configTickRateHz ms

def setTicks (t : TimedLocks W) (ticks : BitVec 32) : TimedLocks W :=
  { t with locks := { t.locks with ticks } }

/-- What is pending runs. -/
def resume (t : TimedLocks W) : TimedLocks W :=
  match t.locks.pending with
  | [] => t
  | p :: rest =>
    { locks := p.run { t.locks with pending := rest }
      due := match p with
        | .changePeriod ms => some (t.after ms)
        | _ => t.due }

/-- `_wakelock_update`, its second half, and `OS_TimerChangePeriod` at its end. -/
def complete (t : TimedLocks W) : TimedLocks W := t.resume.resume.resume

section

variable [DecidableEq W]

/-- `_wakelock_stay_awake` stops the timer; `_wakelock_active_timer` arms it when the lock expires
after what the timer is cached to be armed for. -/
def lockDue (type : Nat) (timeoutMs : BitVec 32) (t : TimedLocks W) : Option (BitVec 32) :=
  if type = pmWklWaitForever then none
  else if t.locks.timerExpires ≠ osWaitForever ∧
      osTimeAfter (wakelockExpires configTickRateHz timeoutMs t.locks) t.locks.timerExpires then
    some (t.after timeoutMs)
  else t.due

def lock (wl : Option W) (type : Nat) (timeoutMs : BitVec 32) (t : TimedLocks W) :
    TimedLocks W where
  locks := (pmWakeLock configTickRateHz wl type timeoutMs t.locks).2
  due := if lockArgs wl type timeoutMs then t.lockDue type timeoutMs else t.due

def unlock (wl : Option W) (type : Nat) (t : TimedLocks W) : Option (TimedLocks W) :=
  (pmWakeUnlock wl type t.locks).map fun (_, locks) => { t with locks }.complete

/-- The timer fires once. -/
def expire (t : TimedLocks W) : TimedLocks W :=
  TimedLocks.complete { locks := wakelockTimerCb t.locks, due := none }

end

end TimedLocks

section

variable [DecidableEq W]

/-- No tick passes the one at which the timer fires. -/
def timedStep (t : TimedLocks W) : TimedOp W → Option (TimedLocks W)
  | .lock wl type timeoutMs => some (t.lock wl type timeoutMs)
  | .unlock wl type => t.unlock wl type
  | .expire => if t.due = some t.locks.ticks then some t.expire else none
  | .wait => (pmWaitWakelocks t.locks).map fun (_, locks) => { t with locks }
  | .tick =>
    if t.due = some t.locks.ticks then none
    else some (t.setTicks (t.locks.ticks + 1))

def TimedStep (t : TimedLocks W) (op : TimedOp W) (t' : TimedLocks W) : Prop :=
  timedStep t op = some t'

/-! ## What is wanted -/

/-- No lock on the list is held without a timeout. -/
def TimedOnly (s : Wakelocks W) : Prop := ∀ wl ∈ s.list, s.ref wl = 0

/-- The timer fires at the latest expiry on the list or one tick later. -/
structure FiresFor (list : List W) (expires : W → BitVec 32) (due : BitVec 32) : Prop where
  covers : ∀ wl ∈ list, osTimeAfter (expires wl) due = false
  meets : ∃ wl ∈ list, due = expires wl ∨ due = expires wl + 1

def Armed (t : TimedLocks W) : Prop :=
  t.locks.list ≠ [] → TimedOnly t.locks →
    ∃ due, t.due = some due ∧ FiresFor t.locks.list t.locks.expires due

/-- Without further calls the timer fires, and its callback leaves the list empty. -/
def Emptied (t : TimedLocks W) : Prop :=
  t.locks.list ≠ [] → TimedOnly t.locks →
    ∃ n t', Run TimedStep t (List.replicate n .tick ++ [.expire]) t' ∧ t'.locks.list = []

/-- Neither the locks nor the timer nor the semaphore differ. -/
structure Unchanged (t t' : TimedLocks W) : Prop where
  list : t'.locks.list = t.locks.list
  ref : t'.locks.ref = t.locks.ref
  expires : t'.locks.expires = t.locks.expires
  timerExpires : t'.locks.timerExpires = t.locks.timerExpires
  due : t'.due = t.due
  tokens : t'.locks.tokens = t.locks.tokens

/-- `_wakelock_active_timer` arms the timer, and for the latest of the locks; or the timer runs on
for one that is on the list. -/
def Arms (t : TimedLocks W) (wl : W) (timeoutMs : BitVec 32) : Prop :=
  let expires := wakelockExpires configTickRateHz timeoutMs t.locks
  let cached := t.locks.timerExpires
  cached ≠ osWaitForever ∧
    if osTimeAfter expires cached then
      t.after timeoutMs ≠ osWaitForever ∧
        ∀ wl' ∈ t.locks.list, wl' ≠ wl → osTimeAfter (t.locks.expires wl') expires = false
    else
      t.due = some cached ∧ (cached = expires ∨ cached = expires + 1 ∨
        ∃ wl' ∈ t.locks.list, wl' ≠ wl ∧
          (cached = t.locks.expires wl' ∨ cached = t.locks.expires wl' + 1))

/-- The unlock of a lock that is not on the list finds nothing to do. -/
def Idle (t : TimedLocks W) (wl : W) (type : Nat) : Prop :=
  t.locks.list ≠ [] ∧ type ≠ pmWklWaitForever ∧
    (type = pmWklWaitTimeout → t.locks.ref wl = 0 → t.locks.linked wl = true) ∧
    (∀ wl' ∈ t.locks.list.takeWhile fun wl' => t.locks.ref wl' = 0,
      osTimeAfter (t.locks.expires wl') t.locks.ticks = true) ∧
    (TimedOnly t.locks → ∃ wl' ∈ t.locks.list, t.due = some (t.locks.expires wl'))

def TimerKept (t : TimedLocks W) : TimedOp W → Prop
  | .lock (some wl) type timeoutMs =>
    lockArgs (some wl) type timeoutMs →
      if type = pmWklWaitForever then t.locks.ref wl + 1 ≠ 0
      else TimedOnly t.locks → t.locks.ref wl = 0 → Arms t wl timeoutMs
  | .unlock (some wl) type => wl ∉ t.locks.list → Idle t wl type
  | _ => True

end

/-! ## Ticks -/

section

variable {a b now ms : BitVec 32}

theorem osTimeAfter_iff : osTimeAfter a b = true ↔ 2 ^ 31 ≤ (b - a).toNat := by
  refine (BitVec.slt_zero_iff_msb_cond).trans ?_
  rw [BitVec.msb_eq_decide, decide_eq_true_iff]

/-- Of two ticks ahead of now, the one further ahead is after the other. -/
theorem osTimeAfter_ahead (ha : osTimeAfter a now = true) (hb : osTimeAfter b now = true) :
    osTimeAfter a b = true ↔ (b - now).toNat < (a - now).toNat := by
  rw [osTimeAfter_iff, BitVec.toNat_sub] at *
  rw [BitVec.toNat_sub, BitVec.toNat_sub]
  have ha' := a.isLt
  have hb' := b.isLt
  have hnow := now.isLt
  omega

theorem osTimeAfter_false_ahead (ha : osTimeAfter a now = true) (hb : osTimeAfter b now = true) :
    osTimeAfter a b = false ↔ (a - now).toNat ≤ (b - now).toNat := by
  rw [← Bool.not_eq_true, osTimeAfter_ahead ha hb, Nat.not_lt]

@[simp] theorem osTimeAfter_self : osTimeAfter a a = false := by
  rw [← Bool.not_eq_true, osTimeAfter_iff, BitVec.sub_self]
  decide

theorem osTimeAfterEqual_eq : osTimeAfterEqual now a = !osTimeAfter a now := by
  unfold osTimeAfterEqual osTimeAfter
  cases (now - a).slt 0 <;> rfl

/-- At 1000 ticks a second a tick is a millisecond. -/
theorem osMSecsToTicks_eq : osMSecsToTicks configTickRateHz ms = ms := BitVec.mul_one ms

end

/-! ## The scan -/

section

variable {s : Wakelocks W} {now expires : BitVec 32} {wlMax : Option W} {kept : List W}

/-- What a whole scan finds: no lock has references, those that have expired are gone, and the
expiry is the latest of the rest. -/
structure Scanned (s : Wakelocks W) (now : BitVec 32) (list : List W) (kept : List W)
    (expires : BitVec 32) : Prop where
  ref : ∀ wl ∈ list, s.ref wl = 0
  ahead : kept = list.filter fun wl => osTimeAfter (s.expires wl) now
  covers : ∀ wl ∈ kept, osTimeAfter (s.expires wl) expires = false

theorem wakelockScan_whole (hexp : ∀ wl, s.expires wl ≠ osWaitForever) (list : List W)
    {latest : BitVec 32 × Option W}
    (hl : latest.1 = osWaitForever ∨ osTimeAfter latest.1 now = true)
    (h : wakelockScan s now list latest = (kept, some (expires, wlMax))) :
    Scanned s now list kept expires ∧
      (latest.1 ≠ osWaitForever →
        osTimeAfter expires now = true ∧ osTimeAfter latest.1 expires = false) ∧
      (expires = latest.1 ∨ ∃ wl ∈ kept, expires = s.expires wl) ∧
      (kept ≠ [] → expires ≠ osWaitForever) := by
  induction list generalizing latest kept with
  | nil =>
    simp only [wakelockScan, Prod.mk.injEq, Option.some.injEq] at h
    obtain ⟨rfl, rfl⟩ := h
    refine ⟨⟨List.forall_mem_nil _, rfl, List.forall_mem_nil _⟩,
      fun hne => ⟨hl.resolve_left hne, osTimeAfter_self⟩, .inl rfl, fun h => absurd rfl h⟩
  | cons wl rest ih =>
    rw [wakelockScan] at h
    by_cases href : s.ref wl ≠ 0
    · rw [if_pos href] at h
      exact absurd (congrArg Prod.snd h).symm (Option.some_ne_none _)
    rw [if_neg href] at h
    rw [not_not] at href
    by_cases hexpired : osTimeAfterEqual now (s.expires wl) = true
    · -- the lock has expired
      rw [if_pos hexpired] at h
      rw [osTimeAfterEqual_eq, Bool.not_eq_true'] at hexpired
      obtain ⟨hscan, hlatest, hfrom, hne⟩ := ih hl h
      refine ⟨⟨?_, ?_, hscan.covers⟩, hlatest, hfrom, hne⟩
      · exact List.forall_mem_cons.mpr ⟨href, hscan.ref⟩
      · rw [List.filter_cons_of_neg (by rw [hexpired]; exact Bool.false_ne_true)]
        exact hscan.ahead
    · rw [if_neg hexpired] at h
      rw [osTimeAfterEqual_eq, Bool.not_eq_true, Bool.not_eq_false'] at hexpired
      dsimp only at h
      generalize hlatest : (if latest.1 = osWaitForever ∨ osTimeBefore latest.1 (s.expires wl) then
        (s.expires wl, some wl) else latest) = latest' at h
      generalize hrest : wakelockScan s now rest latest' = r at h
      obtain ⟨kept', r⟩ := r
      simp only [Prod.mk.injEq] at h
      obtain ⟨rfl, rfl⟩ := h
      have hl' : latest'.1 ≠ osWaitForever ∧ osTimeAfter latest'.1 now = true ∧
          osTimeAfter (s.expires wl) latest'.1 = false ∧
          (latest.1 ≠ osWaitForever → osTimeAfter latest.1 latest'.1 = false) ∧
          (latest'.1 = latest.1 ∨ latest'.1 = s.expires wl) := by
        rw [← hlatest]
        split
        · rename_i hbefore
          refine ⟨hexp wl, hexpired, osTimeAfter_self, fun hne => ?_, .inr rfl⟩
          have hahead := hl.resolve_left hne
          have hlt := (osTimeAfter_ahead hexpired hahead).mp (hbefore.resolve_left hne)
          exact (osTimeAfter_false_ahead hahead hexpired).mpr (Nat.le_of_lt hlt)
        · rename_i hbefore
          rw [not_or, Bool.not_eq_true] at hbefore
          exact ⟨hbefore.1, hl.resolve_left hbefore.1, hbefore.2, fun _ => osTimeAfter_self,
            .inl rfl⟩
      obtain ⟨hne', hahead', hwl, hold, hfrom'⟩ := hl'
      obtain ⟨hscan, hlast, hfrom, -⟩ := ih (.inr hahead') hrest
      obtain ⟨hahead, hcover⟩ := hlast hne'
      have htrans : ∀ e, osTimeAfter e now = true → osTimeAfter e latest'.1 = false →
          osTimeAfter e expires = false := by
        intro e he hle
        rw [osTimeAfter_false_ahead he hahead'] at hle
        rw [osTimeAfter_false_ahead hahead' hahead] at hcover
        exact (osTimeAfter_false_ahead he hahead).mpr (Nat.le_trans hle hcover)
      refine ⟨⟨List.forall_mem_cons.mpr ⟨href, hscan.ref⟩, ?_, ?_⟩, ?_, ?_, ?_⟩
      · rw [List.filter_cons, if_pos hexpired, ← hscan.ahead]
      · exact List.forall_mem_cons.mpr ⟨htrans _ hexpired hwl, hscan.covers⟩
      · exact fun hne => ⟨hahead, htrans _ (hl.resolve_left hne) (hold hne)⟩
      · rcases hfrom with hfrom | ⟨x, hx, hfrom⟩
        · rcases hfrom' with hfrom' | hfrom'
          · exact .inl (hfrom.trans hfrom')
          · exact .inr ⟨wl, List.mem_cons_self .., hfrom.trans hfrom'⟩
        · exact .inr ⟨x, List.mem_cons_of_mem _ hx, hfrom⟩
      · intro _
        rcases hfrom with hfrom | ⟨x, -, hfrom⟩
        · rw [hfrom]
          exact hne'
        · rw [hfrom]
          exact hexp x

/-- The scan that is left at a lock with references keeps this lock. -/
theorem wakelockScan_left (list : List W) {latest : BitVec 32 × Option W}
    (h : wakelockScan s now list latest = (kept, none)) : ∃ wl ∈ kept, s.ref wl ≠ 0 := by
  induction list generalizing latest kept with
  | nil => exact nomatch congrArg Prod.snd h
  | cons wl rest ih =>
    rw [wakelockScan] at h
    split at h
    · rename_i href
      obtain rfl := congrArg Prod.fst h
      exact ⟨wl, List.mem_cons_self .., href⟩
    · split at h
      · exact ih h
      · dsimp only at h
        generalize hrest : wakelockScan s now rest _ = r at h
        obtain ⟨kept', r⟩ := r
        simp only [Prod.mk.injEq] at h
        obtain ⟨rfl, rfl⟩ := h
        obtain ⟨x, hx, href⟩ := ih hrest
        exact ⟨x, List.mem_cons_of_mem _ hx, href⟩

/-- Where no lock in front of one with references has expired, all stay. -/
theorem wakelockScan_keeps (s : Wakelocks W) (now : BitVec 32) (list : List W)
    (latest : BitVec 32 × Option W)
    (h : ∀ wl ∈ list.takeWhile fun wl => s.ref wl = 0, osTimeAfter (s.expires wl) now = true) :
    (wakelockScan s now list latest).1 = list := by
  induction list generalizing latest with
  | nil => rfl
  | cons wl rest ih =>
    rw [wakelockScan]
    by_cases href : s.ref wl ≠ 0
    · rw [if_pos href]
    · rw [if_neg href]
      rw [not_not] at href
      rw [List.takeWhile_cons_of_pos (by simpa using href)] at h
      obtain ⟨hwl, hrest⟩ := List.forall_mem_cons.mp h
      rw [if_neg (by rw [osTimeAfterEqual_eq, hwl]; exact Bool.false_ne_true)]
      exact congrArg (List.cons wl) (ih _ hrest)

end

/-! ## `_wakelock_update` -/

section

variable {s : Wakelocks W} {t t' : TimedLocks W}

/-- The list is left with a lock that has references, empty, or with the timer at its latest
expiry. -/
inductive Outcome (t t' : TimedLocks W) : Prop
  | held (href : ∃ wl ∈ t'.locks.list, t'.locks.ref wl ≠ 0)
      (hlist : (∀ wl ∈ t.locks.list.takeWhile fun wl => t.locks.ref wl = 0,
        osTimeAfter (t.locks.expires wl) t.locks.ticks = true) → t'.locks.list = t.locks.list)
      (hcached : t'.locks.timerExpires = t.locks.timerExpires) (hdue : t'.due = t.due)
      (htokens : t'.locks.tokens = t.locks.tokens)
  | empty (hlist : t'.locks.list = []) (href : TimedOnly t.locks)
      (hexpired : ∀ wl ∈ t.locks.list, osTimeAfter (t.locks.expires wl) t.locks.ticks = false)
  | armed (expires : BitVec 32) (href : TimedOnly t.locks)
      (hlist : t'.locks.list =
        t.locks.list.filter fun wl => osTimeAfter (t.locks.expires wl) t.locks.ticks)
      (hcached : t'.locks.timerExpires = expires) (hdue : t'.due = some expires)
      (hcovers : ∀ wl ∈ t'.locks.list, osTimeAfter (t.locks.expires wl) expires = false)
      (hmeets : ∃ wl ∈ t'.locks.list, expires = t.locks.expires wl)
      (htokens : t'.locks.tokens = t.locks.tokens)

structure Updated (t t' : TimedLocks W) : Prop where
  pending : t'.locks.pending = []
  ref : t'.locks.ref = t.locks.ref
  expires : t'.locks.expires = t.locks.expires
  ticks : t'.locks.ticks = t.locks.ticks
  subset : ∀ wl ∈ t'.locks.list, wl ∈ t.locks.list
  outcome : Outcome t t'

theorem complete_updated (hpending : t.locks.pending = [.update])
    (hexp : ∀ wl, t.locks.expires wl ≠ osWaitForever) : Updated t t.complete := by
  obtain ⟨⟨list, ref, expires, linked, timerArg, timerExpires, timer, tokens, ticks, pending⟩,
    due⟩ := t
  dsimp only at hpending hexp
  subst hpending
  have hfirst : TimedLocks.complete ⟨⟨list, ref, expires, linked, timerArg, timerExpires, timer,
      tokens, ticks, [.update]⟩, due⟩ = TimedLocks.resume
      ⟨(wakelockUpdate ticks ⟨list, ref, expires, linked, timerArg, timerExpires, timer,
        tokens, ticks, []⟩).2, due⟩ := rfl
  rw [hfirst]
  generalize hs : (⟨list, ref, expires, linked, timerArg, timerExpires, timer, tokens, ticks, []⟩ :
    Wakelocks W) = s
  have hexp' : ∀ wl, s.expires wl ≠ osWaitForever := by
    rw [← hs]
    exact hexp
  have hkeeps := wakelockScan_keeps s ticks list (osWaitForever, none)
  have hsub := wakelockScan_subset s ticks list (osWaitForever, none)
  generalize hscan : wakelockScan s ticks list (osWaitForever, none) = r at hkeeps hsub
  obtain ⟨kept, _ | ⟨latest, wlMax⟩⟩ := r
  · have hupdate : wakelockUpdate ticks s = (2, { s with list := kept }) := by
      rw [wakelockUpdate, show s.list = list by rw [← hs], hscan]
    obtain ⟨x, hx, href⟩ := wakelockScan_left list hscan
    rw [hupdate]
    subst hs
    exact ⟨rfl, rfl, rfl, rfl, hsub, .held ⟨x, hx, href⟩ hkeeps rfl rfl rfl⟩
  · obtain ⟨hwhole, -, hfrom, hne⟩ := wakelockScan_whole hexp' list (.inl rfl) hscan
    by_cases hkept : kept = []
    · have hforever : latest = osWaitForever := by
        rcases hfrom with hfrom | ⟨wl, hwl, -⟩
        · exact hfrom
        · rw [hkept] at hwl
          exact nomatch hwl
      have hupdate : wakelockUpdate ticks s = (0, { s with list := [] }.semaphoreRelease) := by
        rw [wakelockUpdate, show s.list = list by rw [← hs], hscan]
        dsimp only
        rw [if_pos (.inr hforever), hkept]
      rw [hupdate]
      subst hs
      have hexpired : ∀ wl ∈ list, osTimeAfter (expires wl) ticks = false := by
        intro wl hwl
        rw [hwhole.ahead] at hkept
        exact Bool.eq_false_iff.mpr (List.filter_eq_nil_iff.mp hkept wl hwl)
      unfold Wakelocks.semaphoreRelease
      split
      · exact ⟨rfl, rfl, rfl, rfl, nofun, .empty rfl hwhole.ref hexpired⟩
      · exact ⟨rfl, rfl, rfl, rfl, nofun, .empty rfl hwhole.ref hexpired⟩
    · obtain ⟨wl, hwl, hlatest⟩ := hfrom.resolve_left (hne hkept)
      have hahead : osTimeAfter latest ticks = true := by
        rw [hwhole.ahead] at hwl
        rw [hlatest]
        exact (List.mem_filter.mp hwl).2
      have hlist : s.list ≠ [] := by
        intro hnil
        rw [← hs] at hnil
        rw [hwhole.ahead, show list = [] from hnil] at hkept
        exact hkept rfl
      have hupdate : wakelockUpdate ticks s = (1, { s with
          list := kept, timerArg := wlMax, timerExpires := latest }.push
            (.changePeriod (latest - ticks))) := by
        rw [wakelockUpdate, show s.list = list by rw [← hs], hscan]
        dsimp only
        rw [if_neg, if_pos]
        · rw [← hs]
        · rw [← hs]
          exact hahead
        · rintro (h | h)
          · rw [← hs] at hlist
            exact hlist h
          · exact hne hkept h
      have hdue : ticks + osMSecsToTicks configTickRateHz (latest - ticks) = latest := by
        rw [osMSecsToTicks_eq, BitVec.add_comm, BitVec.sub_add_cancel]
      rw [hupdate]
      subst hs
      refine ⟨rfl, rfl, rfl, rfl, hsub, .armed latest hwhole.ref hwhole.ahead rfl ?_ hwhole.covers
        ⟨wl, hwl, hlatest⟩ rfl⟩
      exact congrArg some hdue

/-! ## The invariant -/

structure TimerInv (t : TimedLocks W) : Prop where
  pending : t.locks.pending = []
  expires : ∀ wl, t.locks.expires wl ≠ osWaitForever
  armed : t.locks.list ≠ [] → TimedOnly t.locks →
    t.due = some t.locks.timerExpires ∧
      FiresFor t.locks.list t.locks.expires t.locks.timerExpires

theorem timerInv_init (ticks : BitVec 32) : TimerInv (TimedLocks.init ticks : TimedLocks W) := by
  refine ⟨rfl, fun wl => ?_, fun h => absurd rfl h⟩
  change (0 : BitVec 32) ≠ osWaitForever
  decide

/-- Whatever was before, an update leaves the timer where it belongs. -/
theorem Updated.inv (h : Updated t t') (hexp : ∀ wl, t.locks.expires wl ≠ osWaitForever) :
    TimerInv t' := by
  refine ⟨h.pending, by rw [h.expires]; exact hexp, fun hlist href => ?_⟩
  cases h.outcome with
  | held hheld =>
    obtain ⟨wl, hwl, hne⟩ := hheld
    exact absurd (href wl hwl) hne
  | empty hempty => exact absurd hempty hlist
  | armed latest _ _ hcached hdue hcovers hmeets =>
    obtain ⟨wl, hwl, hlatest⟩ := hmeets
    rw [hcached, hdue]
    refine ⟨rfl, ?_, wl, hwl, ?_⟩
    · rw [h.expires]
      exact hcovers
    · rw [h.expires]
      exact .inl hlatest

theorem TimerInv.of_complete {locks : Wakelocks W} {due : Option (BitVec 32)} (h : TimerInv t)
    (hpending : locks.pending = .update :: t.locks.pending)
    (hexp : locks.expires = t.locks.expires) :
    TimerInv (TimedLocks.complete ⟨locks, due⟩) := by
  rw [h.pending] at hpending
  have hexp' : ∀ wl, locks.expires wl ≠ osWaitForever := by
    rw [hexp]
    exact h.expires
  exact (complete_updated hpending hexp').inv hexp'

variable [DecidableEq W]

theorem TimerInv.expire (h : TimerInv t) : TimerInv t.expire := by
  refine h.of_complete ?_ ?_
  · unfold wakelockTimerCb
    split
    · split <;> rfl
    · rfl
  · unfold wakelockTimerCb
    split
    · split <;> rfl
    · rfl

theorem TimerInv.unlock {wl : Option W} {type : Nat} (h : TimerInv t)
    (heq : t.unlock wl type = some t') : TimerInv t' := by
  obtain ⟨⟨ret, locks⟩, hlocks, rfl⟩ := Option.map_eq_some_iff.mp heq
  cases wl with
  | none =>
    obtain rfl := congrArg Prod.snd (Option.some.inj hlocks)
    have hsame : TimedLocks.complete { t with locks := t.locks } = t := by
      simp only [TimedLocks.complete, TimedLocks.resume, h.pending]
    dsimp only
    rw [hsame]
    exact h
  | some wl =>
    have hpush : locks.pending = .update :: t.locks.pending ∧ locks.expires = t.locks.expires := by
      unfold pmWakeUnlock at hlocks
      dsimp only at hlocks
      split at hlocks
      · obtain rfl := congrArg Prod.snd (Option.some.inj hlocks)
        exact ⟨rfl, rfl⟩
      split at hlocks
      · split at hlocks
        · obtain rfl := congrArg Prod.snd (Option.some.inj hlocks)
          exact ⟨rfl, rfl⟩
        · exact nomatch hlocks
      · split at hlocks
        · obtain rfl := congrArg Prod.snd (Option.some.inj hlocks)
          exact ⟨rfl, rfl⟩
        · obtain rfl := congrArg Prod.snd (Option.some.inj hlocks)
          exact ⟨rfl, rfl⟩
    exact h.of_complete hpush.1 hpush.2

/-- The lock is on the list, as `pm_wake_lock` puts it there. -/
def listed (wl : W) (s : Wakelocks W) : Wakelocks W :=
  if wl ∈ s.list then s
  else { s with list := wl :: s.list, linked := Function.update s.linked wl true }

theorem pmWakeLock_refused {wl : Option W} {type : Nat} {timeoutMs : BitVec 32}
    (h : ¬lockArgs wl type timeoutMs) :
    (pmWakeLock configTickRateHz wl type timeoutMs s).2 = s := by
  unfold lockArgs at h
  unfold pmWakeLock
  cases wl with
  | none => rfl
  | some wl =>
    dsimp only
    split
    · rfl
    · split
      · rfl
      · rename_i htype hzero
        exact absurd ⟨nofun, Nat.lt_of_not_le htype, hzero⟩ h

theorem pmWakeLock_forever (wl : W) (timeoutMs : BitVec 32) :
    (pmWakeLock configTickRateHz (some wl) pmWklWaitForever timeoutMs s).2 =
      wakelockStayAwake wl (listed wl s) := by
  unfold pmWakeLock
  dsimp only
  rw [if_neg (by decide), if_neg fun hzero => absurd hzero.1 (by decide), if_neg (by decide)]
  rfl

theorem pmWakeLock_timeout (wl : W) {timeoutMs : BitVec 32} (h : timeoutMs ≠ 0) :
    (pmWakeLock configTickRateHz (some wl) pmWklWaitTimeout timeoutMs s).2 =
      wakelockActiveTimer configTickRateHz wl timeoutMs (listed wl s) := by
  unfold pmWakeLock
  dsimp only
  rw [if_neg (by decide), if_neg fun hzero => h hzero.2, if_pos rfl, if_neg (by decide)]
  rfl

theorem mem_listed {wl x : W} : x ∈ (listed wl s).list ↔ x = wl ∨ x ∈ s.list := by
  unfold listed
  split
  · rename_i h
    constructor
    · exact .inr
    · rintro (rfl | hx)
      · exact h
      · exact hx
  · exact List.mem_cons

@[simp] theorem listed_ref {wl : W} : (listed wl s).ref = s.ref := by
  unfold listed
  split <;> rfl

@[simp] theorem listed_expires {wl : W} : (listed wl s).expires = s.expires := by
  unfold listed
  split <;> rfl

@[simp] theorem listed_timerExpires {wl : W} : (listed wl s).timerExpires = s.timerExpires := by
  unfold listed
  split <;> rfl

@[simp] theorem listed_ticks {wl : W} : (listed wl s).ticks = s.ticks := by
  unfold listed
  split <;> rfl

@[simp] theorem listed_pending {wl : W} : (listed wl s).pending = s.pending := by
  unfold listed
  split <;> rfl

theorem TimerInv.lockForever {wl : W} {timeoutMs : BitVec 32} (h : TimerInv t)
    (hargs : lockArgs (some wl) pmWklWaitForever timeoutMs) (href : t.locks.ref wl + 1 ≠ 0) :
    TimerInv (t.lock (some wl) pmWklWaitForever timeoutMs) := by
  unfold TimedLocks.lock
  rw [pmWakeLock_forever, if_pos hargs]
  refine ⟨?_, ?_, fun _ honly => ?_⟩
  · exact listed_pending.trans h.pending
  · intro x
    exact (congrFun listed_expires x).trans_ne (h.expires x)
  · -- the lock itself has a reference now
    have hone : t.locks.ref wl + 1 = 0 := by
      have hzero := honly wl (mem_listed.mpr (.inl rfl))
      simpa [wakelockStayAwake] using hzero
    exact absurd hone href

theorem TimerInv.lockTimeout {wl : W} {timeoutMs : BitVec 32} (h : TimerInv t)
    (hargs : lockArgs (some wl) pmWklWaitTimeout timeoutMs)
    (harms : TimedOnly t.locks → t.locks.ref wl = 0 → Arms t wl timeoutMs) :
    TimerInv (t.lock (some wl) pmWklWaitTimeout timeoutMs) := by
  have hms : timeoutMs ≠ 0 := fun hzero => hargs.2.2 ⟨rfl, hzero⟩
  have hsame : wakelockExpires configTickRateHz timeoutMs (listed wl t.locks) =
      wakelockExpires configTickRateHz timeoutMs t.locks := by
    unfold wakelockExpires
    rw [listed_ticks]
  unfold TimedLocks.lock
  rw [pmWakeLock_timeout wl hms, if_pos hargs, TimedLocks.lockDue, if_neg (by decide),
    wakelockActiveTimer, if_neg hms]
  dsimp only
  rw [hsame, listed_timerExpires, listed_expires]
  unfold Arms at harms
  dsimp only at harms
  have hne := wakelockExpires_ne configTickRateHz timeoutMs t.locks
  generalize hexpires : wakelockExpires configTickRateHz timeoutMs t.locks = expires at hne harms ⊢
  generalize hcached : t.locks.timerExpires = cached at harms ⊢
  have hexp : ∀ x, Function.update t.locks.expires wl expires x ≠ osWaitForever := by
    intro x
    by_cases hx : x = wl
    · rw [hx, Function.update_self]
      exact hne
    · rw [Function.update_of_ne hx]
      exact h.expires x
  have hself : Function.update t.locks.expires wl expires wl = expires := Function.update_self ..
  -- what is known when no lock has references
  have honly : TimedOnly { listed wl t.locks with
      expires := Function.update t.locks.expires wl expires } →
      TimedOnly t.locks ∧ t.locks.ref wl = 0 := by
    intro href
    unfold TimedOnly at href
    dsimp only at href
    rw [listed_ref] at href
    exact ⟨fun x hx => href x (mem_listed.mpr (.inr hx)), href wl (mem_listed.mpr (.inl rfl))⟩
  by_cases hforever : cached = osWaitForever
  · rw [if_pos hforever]
    refine ⟨listed_pending.trans h.pending, hexp, fun _ href => ?_⟩
    obtain ⟨href', hwl⟩ := honly href
    exact absurd hforever (harms href' hwl).1
  rw [if_neg hforever]
  by_cases hafter : osTimeAfter expires cached = true
  · rw [if_pos hafter, if_pos ⟨hforever, hafter⟩]
    refine ⟨listed_pending.trans h.pending, hexp, fun _ href => ?_⟩
    obtain ⟨href', hwl⟩ := honly href
    obtain ⟨-, harm⟩ := harms href' hwl
    rw [if_pos hafter] at harm
    have hdue : t.after timeoutMs = expires := by
      rw [← hexpires, wakelockExpires]
      exact (if_neg harm.1).symm
    refine ⟨congrArg some hdue, ?_, wl, mem_listed.mpr (.inl rfl), .inl ?_⟩
    · intro x hx
      dsimp only
      by_cases hxwl : x = wl
      · rw [hxwl, Function.update_self]
        exact osTimeAfter_self
      · rw [Function.update_of_ne hxwl]
        exact harm.2 x ((mem_listed.mp hx).resolve_left hxwl) hxwl
    · exact hself.symm
  · rw [if_neg hafter, if_neg fun hboth => hafter hboth.2]
    refine ⟨listed_pending.trans h.pending, hexp, fun _ href => ?_⟩
    obtain ⟨href', hwl⟩ := honly href
    obtain ⟨-, harm⟩ := harms href' hwl
    rw [if_neg hafter] at harm
    refine ⟨harm.1, ?_, ?_⟩
    · intro x hx
      dsimp only
      by_cases hxwl : x = wl
      · rw [hxwl, Function.update_self]
        exact Bool.eq_false_iff.mpr hafter
      · rw [Function.update_of_ne hxwl]
        have hmem := (mem_listed.mp hx).resolve_left hxwl
        have hcovers := (h.armed (List.ne_nil_of_mem hmem) href').2.covers x hmem
        rwa [hcached] at hcovers
    · rcases harm.2 with hmeets | hmeets | ⟨x, hx, hxwl, hmeets⟩
      · exact ⟨wl, mem_listed.mpr (.inl rfl), .inl (hmeets.trans hself.symm)⟩
      · refine ⟨wl, mem_listed.mpr (.inl rfl), .inr (hmeets.trans ?_)⟩
        exact congrArg (· + 1) hself.symm
      · refine ⟨x, mem_listed.mpr (.inr hx), ?_⟩
        dsimp only
        rw [Function.update_of_ne hxwl]
        exact hmeets

theorem TimerInv.step {op : TimedOp W} (h : TimerInv t)
    (hstep : Guarded TimedStep TimerKept t op t') : TimerInv t' := by
  obtain ⟨hkept, hstep⟩ := hstep
  cases op with
  | lock wl type timeoutMs =>
    obtain rfl := Option.some.inj hstep
    by_cases hargs : lockArgs wl type timeoutMs
    · obtain ⟨hne, htype, hzero⟩ := hargs
      obtain ⟨wl, rfl⟩ := Option.ne_none_iff_exists'.mp hne
      have hkept' := hkept ⟨hne, htype, hzero⟩
      by_cases hforever : type = pmWklWaitForever
      · subst hforever
        rw [if_pos rfl] at hkept'
        exact h.lockForever ⟨hne, htype, hzero⟩ hkept'
      · rw [if_neg hforever] at hkept'
        have htimeout : type = pmWklWaitTimeout := by
          unfold pmWklWaitNum at htype
          unfold pmWklWaitForever at hforever
          unfold pmWklWaitTimeout
          omega
        subst htimeout
        exact h.lockTimeout ⟨hne, htype, hzero⟩ hkept'
    · unfold TimedLocks.lock
      rw [pmWakeLock_refused hargs, if_neg hargs]
      exact h
  | unlock wl type => exact h.unlock hstep
  | expire =>
    dsimp only [TimedStep, timedStep] at hstep
    split at hstep
    · obtain rfl := Option.some.inj hstep
      exact h.expire
    · exact nomatch hstep
  | wait =>
    obtain ⟨⟨ret, locks⟩, hwait, rfl⟩ := Option.map_eq_some_iff.mp hstep
    unfold pmWaitWakelocks at hwait
    split at hwait
    · exact nomatch hwait
    · obtain rfl := congrArg Prod.snd (Option.some.inj hwait)
      exact ⟨h.pending, h.expires, h.armed⟩
  | tick =>
    dsimp only [TimedStep, timedStep] at hstep
    split at hstep
    · exact nomatch hstep
    · obtain rfl := Option.some.inj hstep
      exact ⟨h.pending, h.expires, h.armed⟩

omit [DecidableEq W] in
theorem TimerInv.isArmed (h : TimerInv t) : Armed t := fun hlist href =>
  ⟨_, (h.armed hlist href).1, (h.armed hlist href).2⟩

/-! ## Without further calls -/

/-- The ticks up to the one at which the timer fires. -/
theorem run_ticks (n : Nat) (hn : n < 2 ^ 32)
    (hdue : t.due = some (t.locks.ticks + BitVec.ofNat 32 n)) :
    Run TimedStep t (List.replicate n .tick)
      (t.setTicks (t.locks.ticks + BitVec.ofNat 32 n)) := by
  induction n generalizing t with
  | zero =>
    rw [BitVec.add_zero]
    exact .nil t
  | succ n ih =>
    have hlater : t.due ≠ some t.locks.ticks := by
      rw [hdue]
      intro hsome
      have heq := congrArg BitVec.toNat (Option.some.inj hsome)
      rw [BitVec.toNat_add, BitVec.toNat_ofNat] at heq
      have hlt := t.locks.ticks.isLt
      omega
    have hsum : t.locks.ticks + 1 + BitVec.ofNat 32 n =
        t.locks.ticks + BitVec.ofNat 32 (n + 1) := by
      apply BitVec.eq_of_toNat_eq
      rw [BitVec.toNat_add, BitVec.toNat_add, BitVec.toNat_add, BitVec.toNat_ofNat,
        BitVec.toNat_ofNat, show (1 : BitVec 32).toNat = 1 from rfl]
      omega
    have hdue' : (t.setTicks (t.locks.ticks + 1)).due =
        some (t.locks.ticks + 1 + BitVec.ofNat 32 n) := by
      rw [hsum]
      exact hdue
    have hrun := ih (Nat.lt_of_succ_lt hn) hdue'
    have hend : (t.setTicks (t.locks.ticks + 1)).setTicks (t.locks.ticks + 1 + BitVec.ofNat 32 n) =
        t.setTicks (t.locks.ticks + BitVec.ofNat 32 (n + 1)) := by
      rw [hsum]
      rfl
    exact .cons (if_neg hlater) (hend ▸ hrun)

/-- When the timer fires at the latest expiry, nothing stays on the list. -/
theorem TimerInv.expire_empties (h : TimerInv t) (href : TimedOnly t.locks)
    (hcovers : ∀ wl ∈ t.locks.list, osTimeAfter (t.locks.expires wl) t.locks.ticks = false) :
    t.expire.locks.list = [] := by
  unfold TimedLocks.expire
  generalize hcb : wakelockTimerCb t.locks = locks
  have hlocks : locks.pending = [.update] ∧ locks.expires = t.locks.expires ∧
      locks.ref = t.locks.ref ∧ locks.ticks = t.locks.ticks ∧
      ∀ wl ∈ locks.list, wl ∈ t.locks.list := by
    rw [← hcb, wakelockTimerCb]
    split
    · split
      · exact ⟨congrArg _ h.pending, rfl, rfl, rfl, fun _ hwl => List.mem_of_mem_erase hwl⟩
      · exact ⟨congrArg _ h.pending, rfl, rfl, rfl, fun _ hwl => hwl⟩
    · exact ⟨congrArg _ h.pending, rfl, rfl, rfl, fun _ hwl => hwl⟩
  obtain ⟨hpending, hexp, href', hticks, hsub⟩ := hlocks
  have hexp' : ∀ wl, locks.expires wl ≠ osWaitForever := by
    rw [hexp]
    exact h.expires
  have hupdated := complete_updated (t := ⟨locks, none⟩) hpending hexp'
  cases hupdated.outcome with
  | held hheld =>
    obtain ⟨wl, hwl, hne⟩ := hheld
    have hzero := href wl (hsub wl (hupdated.subset wl hwl))
    rw [hupdated.ref] at hne
    exact absurd (by rw [← href'] at hzero; exact hzero) hne
  | empty hempty => exact hempty
  | armed latest _ hlist _ _ _ hmeets =>
    obtain ⟨wl, hwl, -⟩ := hmeets
    rw [hlist, List.mem_filter] at hwl
    have hnot := hcovers wl (hsub wl hwl.1)
    dsimp only at hwl
    rw [hexp, hticks, hnot] at hwl
    exact nomatch hwl.2

theorem TimerInv.emptied (h : TimerInv t) : Emptied t := by
  intro hlist href
  obtain ⟨hdue, hcovers, -⟩ := h.armed hlist href
  generalize t.locks.timerExpires = due at hdue hcovers
  have hreach : t.locks.ticks + BitVec.ofNat 32 (due - t.locks.ticks).toNat = due := by
    rw [BitVec.ofNat_toNat, BitVec.setWidth_eq, BitVec.add_comm, BitVec.sub_add_cancel]
  have hrun := run_ticks (due - t.locks.ticks).toNat (due - t.locks.ticks).isLt
    (by rw [hreach]; exact hdue)
  rw [hreach] at hrun
  generalize ht' : t.setTicks due = t' at hrun
  have hinv : TimerInv t' := by
    rw [← ht']
    exact ⟨h.pending, h.expires, h.armed⟩
  have hfires : TimedStep t' .expire t'.expire := by
    refine if_pos ?_
    rw [← ht']
    exact hdue
  refine ⟨_, _, hrun.append (.single hfires), hinv.expire_empties ?_ ?_⟩
  · rw [← ht']
    exact href
  · rw [← ht']
    exact hcovers

/-! ## A lock that is not on the list -/

theorem TimerInv.unlock_idle {wl : W} {type : Nat} (h : TimerInv t) (hwl : wl ∉ t.locks.list)
    (hidle : Idle t wl type) : ∃ t', TimedStep t (.unlock (some wl) type) t' ∧ Unchanged t t' := by
  obtain ⟨hlist, hforever, hlinked, hahead, hdue⟩ := hidle
  have hunlock : pmWakeUnlock (some wl) type t.locks = some (0, t.locks.push .update) := by
    unfold pmWakeUnlock
    dsimp only
    rw [if_neg hlist]
    by_cases htimeout : type = pmWklWaitTimeout ∧ t.locks.ref wl = 0
    · rw [if_pos htimeout, if_pos (hlinked htimeout.1 htimeout.2), List.erase_of_not_mem hwl]
    · rw [if_neg htimeout, if_neg hforever]
  have hpending : (t.locks.push .update).pending = [.update] :=
    congrArg (List.cons Pending.update) h.pending
  refine ⟨_, congrArg (Option.map _) hunlock, ?_⟩
  have hupdated := complete_updated (t := { t with locks := t.locks.push .update }) hpending
    h.expires
  have htake : TimedOnly t.locks →
      (t.locks.list.takeWhile fun x => t.locks.ref x = 0) = t.locks.list := fun href =>
    List.takeWhile_eq_self_iff.mpr fun x hx => decide_eq_true (href x hx)
  cases hupdated.outcome with
  | held _ hkeeps hcached hdue' htokens =>
    exact ⟨hkeeps hahead, hupdated.ref, hupdated.expires, hcached, hdue', htokens⟩
  | empty _ href hexpired =>
    -- the first lock on the list has not expired
    obtain ⟨x, rest, hcons⟩ := List.exists_cons_of_ne_nil hlist
    have hmem : x ∈ t.locks.list := by
      rw [hcons]
      exact List.mem_cons_self ..
    have hx := hahead x (by rw [htake href]; exact hmem)
    exact absurd hx (Bool.eq_false_iff.mp (hexpired x hmem))
  | armed latest href hfilter hcached hdue' hcovers hmeets htokens =>
    have hall : ∀ x ∈ t.locks.list, osTimeAfter (t.locks.expires x) t.locks.ticks = true := by
      rw [htake href] at hahead
      exact hahead
    have hsame : t.locks.list.filter (fun x => osTimeAfter (t.locks.expires x) t.locks.ticks) =
        t.locks.list := List.filter_eq_self.mpr hall
    have hkeep := hfilter.trans hsame
    obtain ⟨hcache, hcover, -⟩ := h.armed hlist href
    obtain ⟨x, hx, hdue⟩ := hdue href
    obtain ⟨y, hy, rfl⟩ := hmeets
    rw [hkeep] at hy
    have hxy : t.locks.expires x = t.locks.expires y := by
      have hle := hcovers x (by rw [hkeep]; exact hx)
      have hge := hcover y hy
      rw [← Option.some.inj (hdue.symm.trans hcache)] at hge
      have hlex := (osTimeAfter_false_ahead (hall x hx) (hall y hy)).mp hle
      have hley := (osTimeAfter_false_ahead (hall y hy) (hall x hx)).mp hge
      exact (BitVec.sub_left_inj _).mp (BitVec.eq_of_toNat_eq (Nat.le_antisymm hlex hley))
    refine ⟨hkeep, hupdated.ref, hupdated.expires, ?_, ?_, htokens⟩
    · exact hcached.trans (hxy.symm.trans (Option.some.inj (hdue.symm.trans hcache)))
    · rw [hdue', hdue, hxy]
      rfl

/-! ## Every run -/

/-- The invariant and what it is for, in every state in which only calls have been made that leave
the timer where it belongs. -/
theorem wakelock_timer_armed {ticks : BitVec 32} {ops : List (TimedOp W)} {t : TimedLocks W}
    (h : Run (Guarded TimedStep TimerKept) (TimedLocks.init ticks) ops t) :
    Armed t ∧ Emptied t ∧ ∀ wl type, wl ∉ t.locks.list → TimerKept t (.unlock (some wl) type) →
      ∃ t', TimedStep t (.unlock (some wl) type) t' ∧ Unchanged t t' := by
  have hinv : TimerInv t := h.invariant (timerInv_init ticks) fun _ _ _ hi hs => hi.step hs
  exact ⟨hinv.isArmed, hinv.emptied, fun wl type hwl hkept => hinv.unlock_idle hwl (hkept hwl)⟩

end

/-- A lock for 100 ms and a second one for 30 ms: the timer is armed for the first. -/
theorem wakelock_timer_armed_two : ∃ t : TimedLocks Nat,
    Run (Guarded TimedStep TimerKept) (TimedLocks.init 5)
      [.lock (some 0) pmWklWaitTimeout 100, .tick, .lock (some 1) pmWklWaitTimeout 30] t ∧
    t.due = some 105 ∧ Armed t ∧ Emptied t := by
  have hrun : ∃ t : TimedLocks Nat, Run (Guarded TimedStep TimerKept) (TimedLocks.init 5)
      [.lock (some 0) pmWklWaitTimeout 100, .tick, .lock (some 1) pmWklWaitTimeout 30] t ∧
      t.due = some 105 := by
    refine ⟨_, .cons ⟨fun _ _ _ => ?_, rfl⟩ (.cons ⟨trivial, rfl⟩
      (.cons ⟨fun _ _ _ => ?_, rfl⟩ (.nil _))), rfl⟩
    · unfold Arms
      decide
    · unfold Arms
      decide
  obtain ⟨t, hrun, hdue⟩ := hrun
  obtain ⟨harmed, hemptied, -⟩ := wakelock_timer_armed hrun
  exact ⟨t, hrun, hdue, harmed, hemptied⟩

/-- After an untimed lock and its unlock the cached expiry is still for ever, and a lock with a
timeout is not waited for. -/
theorem timer_never_armed : ∃ t : TimedLocks Nat,
    Run TimedStep (TimedLocks.init 5) [.lock (some 0) pmWklWaitForever 0,
      .unlock (some 0) pmWklWaitForever, .lock (some 0) pmWklWaitTimeout 100] t ∧ ¬Armed t := by
  refine ⟨_, .cons rfl (.cons rfl (.cons rfl (.nil _))), fun h => ?_⟩
  obtain ⟨due, hdue, -⟩ := h (List.cons_ne_nil _ _) (by unfold TimedOnly; decide)
  exact nomatch hdue

/-! ## The steps of the calls -/

section

variable [DecidableEq W] {t t' : TimedLocks W}

omit [DecidableEq W] in
theorem resume_nil (h : t.locks.pending = []) : t.resume = t := by
  unfold TimedLocks.resume
  rw [h]

theorem resume_run (t : TimedLocks W) :
    ∃ ops, Run (WlStep configTickRateHz) t.locks ops t.resume.locks := by
  cases hpending : t.locks.pending with
  | nil => exact ⟨[], by rw [resume_nil hpending]; exact .nil _⟩
  | cons p rest =>
    refine ⟨[.resume 0], .single ?_⟩
    unfold TimedLocks.resume WlStep wlStep
    rw [hpending]
    rfl

theorem complete_run (t : TimedLocks W) :
    ∃ ops, Run (WlStep configTickRateHz) t.locks ops t.complete.locks := by
  obtain ⟨ops₁, h₁⟩ := resume_run t
  obtain ⟨ops₂, h₂⟩ := resume_run t.resume
  obtain ⟨ops₃, h₃⟩ := resume_run t.resume.resume
  exact ⟨_, (h₁.append h₂).append h₃⟩

/-- A call that runs to its end is a run of the steps with interrupts off. -/
theorem timed_step_run {op : TimedOp W} (h : TimedStep t op t') :
    ∃ ops, Run (WlStep configTickRateHz) t.locks ops t'.locks := by
  cases op with
  | lock wl type timeoutMs =>
    obtain rfl := Option.some.inj h
    exact ⟨[.lock wl type timeoutMs], .single rfl⟩
  | unlock wl type =>
    obtain ⟨⟨ret, locks⟩, hlocks, rfl⟩ := Option.map_eq_some_iff.mp h
    obtain ⟨ops, hrun⟩ := complete_run { t with locks }
    have hstep : WlStep configTickRateHz t.locks (.unlock wl type) locks :=
      congrArg (Option.map Prod.snd) hlocks
    exact ⟨_, .cons hstep hrun⟩
  | expire =>
    dsimp only [TimedStep, timedStep] at h
    split at h
    · obtain rfl := Option.some.inj h
      obtain ⟨ops, hrun⟩ := complete_run { locks := wakelockTimerCb t.locks, due := none }
      exact ⟨.timerCb :: ops, .cons rfl hrun⟩
    · exact nomatch h
  | wait =>
    obtain ⟨⟨ret, locks⟩, hwait, rfl⟩ := Option.map_eq_some_iff.mp h
    exact ⟨[.wait], .single (congrArg (Option.map Prod.snd) hwait)⟩
  | tick =>
    dsimp only [TimedStep, timedStep] at h
    split at h
    · exact nomatch h
    · obtain rfl := Option.some.inj h
      exact ⟨[.tick], .single rfl⟩

end

end Pm
end XR806

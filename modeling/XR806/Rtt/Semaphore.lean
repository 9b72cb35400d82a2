import XR806.Rtt.Ipc
import XR806.Trans.Run

/-!
# XR806.Rtt.Semaphore

The semaphores of the OS layer on RT-Thread (`os_semaphore.c`): a kernel semaphore and the maximum
of its count, which the kernel does not know. `OS_SemaphoreRelease` looks at the count first and
releases afterwards, and nothing keeps another release away in between.

* `sem_counts`: in every run tokens are neither lost nor made: the waits that were served and the
  count are the initial count and the releases that added a token or woke a thread. A release that
  finds a thread waiting is not dropped.
* `sem_keeps_maximum`: the count stays within its maximum exactly as long as every release would
  still pass its test when it releases, or wakes a thread.
-/

namespace XR806
namespace Rtt

/-! ## The kernel's semaphore -/

def rtSemValueMax : Nat := 2 ^ 16 - 1

/-- `struct rt_semaphore`. -/
structure Semaphore where
  value : Nat
  suspendThread : List Waiter
  flag : IpcFlag
  deriving DecidableEq

inductive Take where
  | ok
  | timeout
  | suspended
  deriving DecidableEq

inductive Release where
  | added
  | woke (thread : Nat)
  | full
  deriving DecidableEq

/-- `rt_sem_create`. -/
def rtSemCreate (value : Nat) (flag : IpcFlag) : Semaphore := ⟨value % 2 ^ 16, [], flag⟩

/-- `rt_sem_take` by a thread, up to where it is suspended. -/
def rtSemTake (sem : Semaphore) (thread currentPriority : Nat) (time : Int) : Semaphore × Take :=
  if sem.value > 0 then ({ sem with value := sem.value - 1 }, .ok)
  else if time = 0 then (sem, .timeout)
  else
    let waiter := ⟨thread, currentPriority, time > 0⟩
    ({ sem with suspendThread := rtIpcListSuspend sem.suspendThread waiter sem.flag }, .suspended)

/-- `rt_sem_release`. The thread it resumes takes the token with it. -/
def rtSemRelease (sem : Semaphore) : Semaphore × Release :=
  match sem.suspendThread with
  | waiter :: rest => ({ sem with suspendThread := rest }, .woke waiter.thread)
  | [] =>
    if sem.value < rtSemValueMax then ({ sem with value := sem.value + 1 }, .added)
    else (sem, .full)

/-- `rt_thread_timeout` of a thread that is suspended on the semaphore. -/
def rtSemTimeout (sem : Semaphore) (thread : Nat) : Semaphore :=
  { sem with suspendThread := sem.suspendThread.filter (·.thread ≠ thread) }

/-! ## `os_semaphore.c` -/

/-- `RTT_SEM`. -/
structure RttSem where
  maxCount : Nat
  handle : Semaphore
  deriving DecidableEq

def osSemaphoreCreate (initCount maxCount : Nat) : RttSem := ⟨maxCount, rtSemCreate initCount .prio⟩

def osSemaphoreCreateBinary : RttSem := ⟨1, rtSemCreate 0 .prio⟩

/-- `OS_SemaphoreWait`; an interrupt handler does not wait. -/
def osSemaphoreWait (tickPerSecond : Nat) (sem : RttSem) (caller : Caller)
    (currentPriority waitMS : Nat) : RttSem × Take :=
  let (thread, ms) := match caller with
    | .thread n => (n, waitMS)
    | .interrupt n => (n, 0)
  let (handle, take) :=
    rtSemTake sem.handle thread currentPriority (rtInt32 (rtTickFromMillisecond tickPerSecond ms))
  ({ sem with handle }, take)

/-- The test of `OS_SemaphoreRelease`: the release is dropped. -/
def osReleaseDropped (sem : RttSem) : Bool := sem.handle.value ≥ sem.maxCount

/-! ## Runs -/

/-- A semaphore, and the callers between the two steps of `OS_SemaphoreRelease`. -/
structure SemState where
  sem : RttSem
  releasing : List Caller
  deriving DecidableEq

namespace SemState

def value (s : SemState) : Nat := s.sem.handle.value

def waiters (s : SemState) : List Waiter := s.sem.handle.suspendThread

/-- The caller is in a call already. -/
def busy (s : SemState) (caller : Caller) : Bool :=
  caller ∈ s.releasing || s.waiters.any fun w => caller = .thread w.thread

end SemState

inductive SemEvent where
  | wait (caller : Caller) (currentPriority waitMS : Nat) (result : Take)
  /-- The timer of a suspended thread runs out. -/
  | timeout (thread : Nat)
  | test (caller : Caller) (dropped : Bool)
  | release (caller : Caller) (result : Release)
  deriving DecidableEq

variable {tickPerSecond : Nat}

variable (tickPerSecond) in
inductive SemStep : SemState → SemEvent → SemState → Prop where
  | wait {s : SemState} {caller : Caller} {currentPriority waitMS : Nat} (hfree : ¬s.busy caller) :
    SemStep s (.wait caller currentPriority waitMS
        (osSemaphoreWait tickPerSecond s.sem caller currentPriority waitMS).2)
      { s with sem := (osSemaphoreWait tickPerSecond s.sem caller currentPriority waitMS).1 }
  | timeout {s : SemState} {w : Waiter} (hw : w ∈ s.waiters) (htimed : w.timed) :
    SemStep s (.timeout w.thread)
      { s with sem := { s.sem with handle := rtSemTimeout s.sem.handle w.thread } }
  | drop {s : SemState} {caller : Caller} (hfree : ¬s.busy caller)
    (htest : osReleaseDropped s.sem) : SemStep s (.test caller true) s
  | pass {s : SemState} {caller : Caller} (hfree : ¬s.busy caller)
    (htest : ¬osReleaseDropped s.sem) :
    SemStep s (.test caller false) { s with releasing := caller :: s.releasing }
  | release {s : SemState} {caller : Caller} (hin : caller ∈ s.releasing) :
    SemStep s (.release caller (rtSemRelease s.sem.handle).2)
      { s with
        sem := { s.sem with handle := (rtSemRelease s.sem.handle).1 }
        releasing := s.releasing.erase caller }

/-! ## What is counted -/

/-- A wait that is served. A thread that is woken has its `OS_OK`. -/
def SemEvent.serves : SemEvent → Bool
  | .wait _ _ _ .ok => true
  | .release _ (.woke _) => true
  | _ => false

/-- A release that adds a token or wakes a thread. -/
def SemEvent.gives : SemEvent → Bool
  | .release _ .added => true
  | .release _ (.woke _) => true
  | _ => false

/-- No release is at its second step when its test would fail by now, unless it wakes a thread, or
the kernel has the same maximum. -/
def SemSafe (s : SemState) : SemEvent → Prop
  | .release _ _ =>
    s.waiters ≠ [] ∨ s.value < s.sem.maxCount ∨ s.sem.maxCount = rtSemValueMax
  | _ => True

def semStart (initCount maxCount : Nat) : SemState := ⟨osSemaphoreCreate initCount maxCount, []⟩

/-- Threads only wait for a semaphore that has no token. -/
structure SemInv (maxCount : Nat) (s : SemState) : Prop where
  maxCount : s.sem.maxCount = maxCount
  empty : s.waiters ≠ [] → s.value = 0
  bound : s.value ≤ rtSemValueMax

section

variable {s s' : SemState} {e : SemEvent} {es : List SemEvent} {initCount maxCount : Nat}

theorem osSemaphoreCreateBinary_eq : osSemaphoreCreateBinary = osSemaphoreCreate 0 1 := rfl

/-- What the first half of `rt_sem_take` does. -/
theorem rtSemTake_cases (sem : Semaphore) (thread currentPriority : Nat) (time : Int) :
    (∃ value, sem.value = value + 1 ∧
      rtSemTake sem thread currentPriority time = ({ sem with value }, .ok)) ∨
    (sem.value = 0 ∧ rtSemTake sem thread currentPriority time = (sem, .timeout)) ∨
    (sem.value = 0 ∧ ∃ suspendThread,
      rtSemTake sem thread currentPriority time = ({ sem with suspendThread }, .suspended)) := by
  unfold rtSemTake
  split
  · exact .inl ⟨sem.value - 1, by omega, rfl⟩
  · split
    · exact .inr (.inl ⟨by omega, rfl⟩)
    · exact .inr (.inr ⟨by omega, _, rfl⟩)

theorem rtSemRelease_cases (sem : Semaphore) :
    (∃ waiter rest, sem.suspendThread = waiter :: rest ∧
      rtSemRelease sem = ({ sem with suspendThread := rest }, .woke waiter.thread)) ∨
    (sem.suspendThread = [] ∧ sem.value < rtSemValueMax ∧
      rtSemRelease sem = ({ sem with value := sem.value + 1 }, .added)) ∨
    (sem.suspendThread = [] ∧ rtSemValueMax ≤ sem.value ∧ rtSemRelease sem = (sem, .full)) := by
  unfold rtSemRelease
  cases hlist : sem.suspendThread with
  | cons waiter rest => exact .inl ⟨waiter, rest, rfl, rfl⟩
  | nil =>
    dsimp only
    split
    · exact .inr (.inl ⟨rfl, ‹_›, rfl⟩)
    · exact .inr (.inr ⟨rfl, by omega, rfl⟩)

theorem osSemaphoreWait_cases (sem : RttSem) (caller : Caller) (currentPriority waitMS : Nat) :
    (∃ value, sem.handle.value = value + 1 ∧
      osSemaphoreWait tickPerSecond sem caller currentPriority waitMS =
        ({ sem with handle := { sem.handle with value } }, .ok)) ∨
    (sem.handle.value = 0 ∧
      osSemaphoreWait tickPerSecond sem caller currentPriority waitMS = (sem, .timeout)) ∨
    (sem.handle.value = 0 ∧ ∃ suspendThread,
      osSemaphoreWait tickPerSecond sem caller currentPriority waitMS =
        ({ sem with handle := { sem.handle with suspendThread } }, .suspended)) := by
  unfold osSemaphoreWait
  generalize (match caller with | .thread n => (n, waitMS) | .interrupt n => (n, 0)) = args
  obtain ⟨thread, ms⟩ := args
  obtain ⟨value, hv, htake⟩ | ⟨hv, htake⟩ | ⟨hv, list, htake⟩ :=
    rtSemTake_cases sem.handle thread currentPriority (rtInt32 (rtTickFromMillisecond tickPerSecond ms))
  · exact .inl ⟨value, hv, by simp only [htake]⟩
  · exact .inr (.inl ⟨hv, by simp only [htake]⟩)
  · exact .inr (.inr ⟨hv, list, by simp only [htake]⟩)

/-- One step: what it counts, and that threads still only wait for an empty semaphore. -/
theorem SemStep.spec (h : SemStep tickPerSecond s e s') (hinv : SemInv maxCount s) :
    SemInv maxCount s' ∧ s'.value + e.serves.toNat = s.value + e.gives.toNat := by
  obtain ⟨hmax, hempty, hbound⟩ := hinv
  cases h with
  | @wait caller currentPriority waitMS hfree =>
    obtain ⟨value, hv, hwait⟩ | ⟨hv, hwait⟩ | ⟨hv, list, hwait⟩ :=
      osSemaphoreWait_cases s.sem caller currentPriority waitMS
    · have hvalue : s.value = value + 1 := hv
      rw [hwait]
      refine ⟨⟨hmax, ?_, ?_⟩, ?_⟩
      · intro hne
        have hzero := hempty hne
        omega
      · change value ≤ rtSemValueMax
        omega
      · exact hvalue.symm
    · rw [hwait]
      exact ⟨⟨hmax, hempty, hbound⟩, rfl⟩
    · rw [hwait]
      exact ⟨⟨hmax, fun _ => hv, hbound⟩, rfl⟩
  | timeout hw htimed =>
    refine ⟨⟨hmax, ?_, hbound⟩, rfl⟩
    intro _
    exact hempty (List.ne_nil_of_mem hw)
  | drop hfree htest => exact ⟨⟨hmax, hempty, hbound⟩, rfl⟩
  | pass hfree htest => exact ⟨⟨hmax, hempty, hbound⟩, rfl⟩
  | @release caller hin =>
    obtain ⟨waiter, rest, hlist, hrel⟩ | ⟨hlist, hlt, hrel⟩ | ⟨hlist, hfull, hrel⟩ :=
      rtSemRelease_cases s.sem.handle
    · have hzero : s.value = 0 := hempty (by rw [SemState.waiters, hlist]; exact List.cons_ne_nil _ _)
      rw [hrel]
      exact ⟨⟨hmax, fun _ => hzero, hbound⟩, rfl⟩
    · rw [hrel]
      exact ⟨⟨hmax, fun hne => absurd hlist hne, hlt⟩, rfl⟩
    · rw [hrel]
      exact ⟨⟨hmax, hempty, hbound⟩, rfl⟩

theorem semInv_start (hinit : initCount ≤ maxCount) (hmax : maxCount ≤ rtSemValueMax) :
    SemInv maxCount (semStart initCount maxCount) ∧
      (semStart initCount maxCount).value = initCount := by
  have hvalue : initCount % 2 ^ 16 = initCount := Nat.mod_eq_of_lt (by unfold rtSemValueMax at hmax; omega)
  refine ⟨⟨rfl, fun hne => absurd rfl hne, ?_⟩, hvalue⟩
  change initCount % 2 ^ 16 ≤ rtSemValueMax
  omega

/-- A run: the tokens taken and those left are the tokens there were and those given. -/
theorem sem_counts (hinv : SemInv maxCount s) (h : Trans.Run (SemStep tickPerSecond) s es s') :
    SemInv maxCount s' ∧
      s'.value + es.countP SemEvent.serves = s.value + es.countP SemEvent.gives := by
  induction h with
  | nil s => exact ⟨hinv, rfl⟩
  | cons hs _ ih =>
    obtain ⟨hinv₁, hstep⟩ := hs.spec hinv
    obtain ⟨hinv', hrun⟩ := ih hinv₁
    have hcount : ∀ b : Bool, (if b = true then 1 else 0) = b.toNat := fun b => by cases b <;> rfl
    refine ⟨hinv', ?_⟩
    simp only [List.countP_cons, hcount]
    omega

/-! ## The maximum -/

/-- A step oversteps the maximum exactly when it is not safe. -/
theorem SemStep.le_iff (h : SemStep tickPerSecond s e s') (hinv : SemInv maxCount s)
    (hle : s.value ≤ maxCount) : s'.value ≤ maxCount ↔ SemSafe s e := by
  have hcount := (h.spec hinv).2
  have hmax := hinv.maxCount
  have hkeep : e.gives = false → s'.value ≤ maxCount := by
    intro hgives
    rw [hgives, Bool.toNat_false] at hcount
    omega
  cases h with
  | wait hfree => exact iff_of_true (hkeep rfl) trivial
  | timeout hw htimed => exact iff_of_true (hkeep rfl) trivial
  | drop hfree htest => exact iff_of_true (hkeep rfl) trivial
  | pass hfree htest => exact iff_of_true (hkeep rfl) trivial
  | @release caller hin =>
    obtain ⟨waiter, rest, hlist, hrel⟩ | ⟨hlist, hlt, hrel⟩ | ⟨hlist, hfull, hrel⟩ :=
      rtSemRelease_cases s.sem.handle
    · rw [hrel]
      exact iff_of_true hle (.inl (by rw [SemState.waiters, hlist]; exact List.cons_ne_nil _ _))
    · have hwaiters : s.waiters = [] := hlist
      have hlt' : s.value < rtSemValueMax := hlt
      rw [hrel]
      simp only [SemSafe, hwaiters, ne_eq, not_true, false_or, hmax]
      change s.value + 1 ≤ maxCount ↔ _
      omega
    · have hfull' : rtSemValueMax ≤ s.value := hfull
      rw [hrel]
      have hbound := hinv.bound
      refine iff_of_true hle (.inr ?_)
      rw [hmax]
      omega

theorem SemInv.test_passes {caller : Caller} {dropped : Bool} (hinv : SemInv maxCount s)
    (hpos : 1 ≤ maxCount) (hne : s.waiters ≠ [])
    (h : SemStep tickPerSecond s (.test caller dropped) s') : dropped = false := by
  cases h with
  | drop hfree htest =>
    have hzero := hinv.empty hne
    have hmax := hinv.maxCount
    have hge : s.value ≥ s.sem.maxCount := of_decide_eq_true htest
    omega
  | pass hfree htest => rfl

theorem release_wakes {caller : Caller} {result : Release} (hne : s.waiters ≠ [])
    (h : SemStep tickPerSecond s (.release caller result) s') : ∃ t, result = .woke t := by
  cases h with
  | release hin =>
    obtain ⟨waiter, rest, hlist, hrel⟩ | ⟨hlist, -⟩ | ⟨hlist, -⟩ := rtSemRelease_cases s.sem.handle
    · exact ⟨waiter.thread, congrArg Prod.snd hrel⟩
    · exact absurd hlist hne
    · exact absurd hlist hne

/-- While every step is safe the count keeps to its maximum, and a step that is not safe breaks it.
In any run the tokens add up, and a release that finds a thread waiting at its test, or when it
releases, is not dropped there. -/
theorem sem_keeps_maximum (hinit : initCount ≤ maxCount) (hpos : 1 ≤ maxCount)
    (hmax : maxCount ≤ 65535) :
    (∀ es s, Trans.Run (Trans.Guarded (SemStep tickPerSecond) SemSafe) (semStart initCount maxCount)
      es s → s.value ≤ maxCount) ∧
    ∀ es s, Trans.Run (SemStep tickPerSecond) (semStart initCount maxCount) es s →
      s.value + es.countP SemEvent.serves = initCount + es.countP SemEvent.gives ∧
      (∀ e s', s.value ≤ maxCount → SemStep tickPerSecond s e s' →
        (s'.value ≤ maxCount ↔ SemSafe s e)) ∧
      (s.waiters ≠ [] → ∀ caller s',
        (∀ dropped, SemStep tickPerSecond s (.test caller dropped) s' → dropped = false) ∧
        ∀ result, SemStep tickPerSecond s (.release caller result) s' →
          ∃ t, result = .woke t) := by
  obtain ⟨hstart, hvalue⟩ := semInv_start hinit hmax
  constructor
  · intro es s h
    have hkeep : SemInv maxCount s ∧ s.value ≤ maxCount := by
      refine h.invariant (I := fun s => SemInv maxCount s ∧ s.value ≤ maxCount)
        ⟨hstart, hvalue.trans_le hinit⟩ ?_
      rintro s₁ e s₂ ⟨hinv, hle⟩ ⟨hsafe, hstep⟩
      exact ⟨(hstep.spec hinv).1, (hstep.le_iff hinv hle).mpr hsafe⟩
    exact hkeep.2
  · intro es s h
    obtain ⟨hinv, hcount⟩ := sem_counts hstart h
    rw [hvalue] at hcount
    refine ⟨hcount, fun e s' hle hstep => hstep.le_iff hinv hle, ?_⟩
    intro hne caller s'
    exact ⟨fun _ hstep => hinv.test_passes hpos hne hstep, fun _ hstep => release_wakes hne hstep⟩

end

/-- The completion semaphore of a driver: a thread is interrupted between its test and its release
by a handler that releases, too. -/
theorem binary_holds_two : ∃ s, Trans.Run (SemStep 1000) ⟨osSemaphoreCreateBinary, []⟩
    [.test (.thread 1) false, .test (.interrupt 1) false, .release (.interrupt 1) .added,
      .release (.thread 1) .added] s ∧ s.value = 2 := by
  exact ⟨_, .cons (.pass (by decide) (by decide)) (.cons (.pass (by decide) (by decide))
    (.cons (.release (by decide)) (.cons (.release (by decide)) (.nil _)))), rfl⟩

theorem sem_keeps_maximum_binary : ∃ s, Trans.Run (Trans.Guarded (SemStep 1000) SemSafe)
    (semStart 0 1) [.test (.thread 1) false, .release (.thread 1) .added] s ∧ s.value ≤ 1 := by
  have htest : Trans.Guarded (SemStep 1000) SemSafe (semStart 0 1) (.test (.thread 1) false)
      ⟨osSemaphoreCreate 0 1, [.thread 1]⟩ := ⟨trivial, .pass (by decide) (by decide)⟩
  have hrelease : Trans.Guarded (SemStep 1000) SemSafe ⟨osSemaphoreCreate 0 1, [.thread 1]⟩
      (.release (.thread 1) .added) ⟨⟨1, ⟨1, [], .prio⟩⟩, []⟩ :=
    ⟨.inr (.inl (by decide)), .release (by decide)⟩
  have hrun := Trans.Run.cons htest (.cons hrelease (.nil _))
  exact ⟨_, hrun, (sem_keeps_maximum (by decide) (by decide) (by decide)).1 _ _ hrun⟩

end Rtt
end XR806

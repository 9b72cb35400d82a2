import Mathlib.Data.List.Nodup
import Mathlib.Data.List.Sort
import Mathlib.Logic.Function.Basic
import XR806.Rtt.Ipc
import XR806.Trans.Run

/-!
# XR806.Rtt.Mutex

The mutexes of the RT-Thread kernel (`rt_mutex_take`, `rt_mutex_release` of `ipc.c`) as
`os_mutex.c` uses them: any number of mutexes and threads, with the priorities that the owners
inherit from the threads that wait.

* `mutex_counts`: in every run a mutex is locked by at most one thread, as often as it has locked
  the mutex and not unlocked it, and is free exactly when no thread has.
* `priority_inherited`: while no thread locks a second mutex, the owner of a mutex runs, its
  priority is not behind that of a thread that waits for the mutex, and the threads that own no
  mutex have their own priority. The mutex goes to the waiting thread that is first in priority.
-/

namespace XR806
namespace Rtt

/-! ## The kernel's mutexes -/

def rtMutexValueMax : Nat := 2 ^ 16 - 1

def rtMutexHoldMax : Nat := 2 ^ 8 - 1

/-- `struct rt_mutex`. -/
structure Mutex where
  value : Nat
  originalPriority : Nat
  hold : Nat
  owner : Option Nat
  suspendThread : List Waiter
  flag : IpcFlag

inductive MutexTake where
  | ok
  | full
  | timeout
  | suspended
  deriving DecidableEq

inductive MutexRelease where
  | error
  /-- The thread still holds the mutex. -/
  | nested
  | woke (thread : Nat)
  | freed
  | full
  deriving DecidableEq

/-- `rt_mutex_create`. -/
def rtMutexCreate (flag : IpcFlag) : Mutex := ⟨1, 0xff, 0, none, [], flag⟩

/-- The mutexes, and `current_priority` of each thread. -/
structure Mutexes where
  mutex : Nat → Mutex
  priority : Nat → Nat

def Waiter.changePriority (t p : Nat) (w : Waiter) : Waiter :=
  if w.thread = t then { w with currentPriority := p } else w

namespace Mutexes

def set (s : Mutexes) (m : Nat) (mutex : Mutex) : Mutexes :=
  { s with mutex := Function.update s.mutex m mutex }

/-- `RT_THREAD_CTRL_CHANGE_PRIORITY`. A thread that is suspended keeps its place in the list. -/
def changePriority (s : Mutexes) (t p : Nat) : Mutexes where
  mutex m :=
    { s.mutex m with suspendThread := (s.mutex m).suspendThread.map (Waiter.changePriority t p) }
  priority := Function.update s.priority t p

/-- The owner gets the priority of a thread that is going to wait, when that is higher. -/
def inherit (s : Mutexes) (owner t : Nat) : Mutexes :=
  if s.priority t < s.priority owner then s.changePriority owner (s.priority t) else s

/-- The owner gets its original priority back. -/
def restore (s : Mutexes) (m t : Nat) : Mutexes :=
  if (s.mutex m).originalPriority ≠ s.priority t then
    s.changePriority t (s.mutex m).originalPriority
  else s

/-- `rt_ipc_list_suspend` on the list of the mutex. -/
def suspend (s : Mutexes) (t m : Nat) (timed : Bool) : Mutexes :=
  s.set m { s.mutex m with
    suspendThread :=
      rtIpcListSuspend (s.mutex m).suspendThread ⟨t, s.priority t, timed⟩ (s.mutex m).flag }

end Mutexes

/-- `rt_mutex_take` by the thread `t`, up to where it is suspended. -/
def rtMutexTake (s : Mutexes) (t m : Nat) (time : Int) : Mutexes × MutexTake :=
  let mutex := s.mutex m
  if mutex.owner = some t then
    if mutex.hold < rtMutexHoldMax then (s.set m { mutex with hold := mutex.hold + 1 }, .ok)
    else (s, .full)
  else if mutex.value > 0 then
    let mutex := { mutex with
      value := mutex.value - 1, owner := some t, originalPriority := s.priority t }
    if mutex.hold < rtMutexHoldMax then (s.set m { mutex with hold := mutex.hold + 1 }, .ok)
    else (s.set m mutex, .full)
  else if time = 0 then (s, .timeout)
  else
    let s := match mutex.owner with
      | some owner => s.inherit owner t
      | none => s
    (s.suspend t m (time > 0), .suspended)

/-- `rt_mutex_release` by the thread `t`. -/
def rtMutexRelease (s : Mutexes) (t m : Nat) : Mutexes × MutexRelease :=
  if (s.mutex m).owner ≠ some t then (s, .error)
  else
    let hold := (s.mutex m).hold - 1
    if hold = 0 then
      let s := s.restore m t
      let mutex := { s.mutex m with hold }
      match mutex.suspendThread with
      | waiter :: rest =>
        let mutex := { mutex with
          owner := some waiter.thread, originalPriority := s.priority waiter.thread }
        if hold < rtMutexHoldMax then
          (s.set m { mutex with hold := hold + 1, suspendThread := rest }, .woke waiter.thread)
        else (s.set m mutex, .full)
      | [] =>
        if mutex.value < rtMutexValueMax then
          (s.set m { mutex with
            value := mutex.value + 1, owner := none, originalPriority := 0xff }, .freed)
        else (s.set m mutex, .full)
    else (s.set m { s.mutex m with hold }, .nested)

/-- `rt_thread_timeout` of a thread that is suspended on the mutex. -/
def rtMutexTimeout (s : Mutexes) (t m : Nat) : Mutexes :=
  s.set m { s.mutex m with
    suspendThread := (s.mutex m).suspendThread.filter (·.thread ≠ t) }

/-! ## `os_mutex.c` -/

/-- `OS_MutexLock` and `OS_RecursiveMutexLock` of a thread. -/
def osMutexLock (tickPerSecond : Nat) (s : Mutexes) (t m waitMS : Nat) : Mutexes × MutexTake :=
  rtMutexTake s t m (rtInt32 (rtTickFromMillisecond tickPerSecond waitMS))

/-- `OS_MutexUnlock` and `OS_RecursiveMutexUnlock` of a thread. -/
def osMutexUnlock (s : Mutexes) (t m : Nat) : Mutexes × MutexRelease := rtMutexRelease s t m

/-- `OS_MutexCreate` and `OS_RecursiveMutexCreate`, and the priorities of the threads. -/
def mutexStart (base : Nat → Nat) : Mutexes := ⟨fun _ => rtMutexCreate .prio, base⟩

/-! ## Runs -/

/-- The threads that are suspended on the mutex. -/
def Mutexes.threads (s : Mutexes) (m : Nat) : List Nat :=
  (s.mutex m).suspendThread.map Waiter.thread

def Mutexes.Waiting (s : Mutexes) (t : Nat) : Prop := ∃ m, t ∈ s.threads m

inductive MutexEvent where
  | lock (t m waitMS : Nat) (result : MutexTake)
  | unlock (t m : Nat) (result : MutexRelease)
  /-- The timer of a suspended thread runs out. -/
  | timeout (t m : Nat)

variable {tickPerSecond : Nat}

variable (tickPerSecond) in
inductive MutexStep : Mutexes → MutexEvent → Mutexes → Prop where
  | lock {s : Mutexes} {t m waitMS : Nat} (hruns : ¬s.Waiting t) :
    MutexStep s (.lock t m waitMS (osMutexLock tickPerSecond s t m waitMS).2)
      (osMutexLock tickPerSecond s t m waitMS).1
  | unlock {s : Mutexes} {t m : Nat} (hruns : ¬s.Waiting t) :
    MutexStep s (.unlock t m (osMutexUnlock s t m).2) (osMutexUnlock s t m).1
  | timeout {s : Mutexes} {w : Waiter} {m : Nat} (hw : w ∈ (s.mutex m).suspendThread)
    (htimed : w.timed) : MutexStep s (.timeout w.thread m) (rtMutexTimeout s w.thread m)

/-- The thread gets the mutex, once more or from the thread that unlocks it. -/
def MutexEvent.locks (t m : Nat) : MutexEvent → Bool
  | .lock t' m' _ .ok => t' = t ∧ m' = m
  | .unlock _ m' (.woke t') => t' = t ∧ m' = m
  | _ => false

/-- The thread unlocks the mutex, and holds it once less. -/
def MutexEvent.unlocks (t m : Nat) : MutexEvent → Bool
  | .unlock t' m' result => t' = t ∧ m' = m ∧ result ≠ .error
  | _ => false

/-- The mutex of the call. -/
def MutexEvent.mutex : MutexEvent → Nat
  | .lock _ m _ _ => m
  | .unlock _ m _ => m
  | .timeout _ m => m

/-- How often the thread holds the mutex. -/
def Mutexes.held (s : Mutexes) (t m : Nat) : Nat :=
  if (s.mutex m).owner = some t then (s.mutex m).hold else 0

/-- A mutex without an owner is free and nobody waits for it. -/
structure Mutexes.Inv (s : Mutexes) : Prop where
  free : ∀ m, (s.mutex m).owner = none →
    (s.mutex m).value = 1 ∧ (s.mutex m).hold = 0 ∧ s.threads m = []
  owned : ∀ m t, (s.mutex m).owner = some t →
    (s.mutex m).value = 0 ∧ 1 ≤ (s.mutex m).hold ∧ (s.mutex m).hold ≤ rtMutexHoldMax
  once : ∀ m, (s.threads m).Nodup
  one : ∀ t m m', t ∈ s.threads m → t ∈ s.threads m' → m = m'
  other : ∀ t m, t ∈ s.threads m → (s.mutex m).owner ≠ some t

section

variable {s s' : Mutexes} {e : MutexEvent} {es : List MutexEvent} {t u o p m n : Nat} {mutex : Mutex}

namespace Mutexes

@[simp] theorem set_mutex : (s.set m mutex).mutex m = mutex := Function.update_self ..

theorem set_mutex_of_ne (h : n ≠ m) : (s.set m mutex).mutex n = s.mutex n :=
  Function.update_of_ne h ..

@[simp] theorem set_priority : (s.set m mutex).priority = s.priority := rfl

@[simp] theorem set_threads : (s.set m mutex).threads m = mutex.suspendThread.map Waiter.thread := by
  simp [threads]

theorem set_threads_of_ne (h : n ≠ m) : (s.set m mutex).threads n = s.threads n := by
  simp [threads, set_mutex_of_ne h]

theorem set_held_of_ne (h : n ≠ m) : (s.set m mutex).held t n = s.held t n := by
  simp [held, set_mutex_of_ne h]

/-- The states differ in the priorities at most. -/
structure Alike (s s' : Mutexes) : Prop where
  value : ∀ m, (s'.mutex m).value = (s.mutex m).value
  hold : ∀ m, (s'.mutex m).hold = (s.mutex m).hold
  owner : ∀ m, (s'.mutex m).owner = (s.mutex m).owner
  originalPriority : ∀ m, (s'.mutex m).originalPriority = (s.mutex m).originalPriority
  flag : ∀ m, (s'.mutex m).flag = (s.mutex m).flag
  threads : ∀ m, s'.threads m = s.threads m

theorem alike_refl : s.Alike s :=
  ⟨fun _ => rfl, fun _ => rfl, fun _ => rfl, fun _ => rfl, fun _ => rfl, fun _ => rfl⟩

theorem changePriority_alike : s.Alike (s.changePriority t p) := by
  refine ⟨fun _ => rfl, fun _ => rfl, fun _ => rfl, fun _ => rfl, fun _ => rfl, fun m => ?_⟩
  have hsame : ∀ w : Waiter, (w.changePriority t p).thread = w.thread := by
    intro w
    unfold Waiter.changePriority
    split <;> rfl
  simp [Mutexes.threads, changePriority, Function.comp_def, hsame]

theorem inherit_alike : s.Alike (s.inherit o t) := by
  unfold inherit
  split
  · exact changePriority_alike
  · exact alike_refl

theorem restore_alike : s.Alike (s.restore m t) := by
  unfold restore
  split
  · exact changePriority_alike
  · exact alike_refl

theorem Alike.waiting (h : s.Alike s') : s'.Waiting t ↔ s.Waiting t := by
  simp [Waiting, h.threads]

theorem Alike.held (h : s.Alike s') : s'.held t m = s.held t m := by
  simp [Mutexes.held, h.owner, h.hold]

theorem Alike.inv (h : s.Alike s') (hinv : s.Inv) : s'.Inv := by
  refine ⟨fun m hm => ?_, fun m t hm => ?_, fun m => ?_, fun t m n hm hn => ?_, fun t m hm => ?_⟩
  · rw [h.owner] at hm
    simpa [h.value, h.hold, h.threads] using hinv.free m hm
  · rw [h.owner] at hm
    simpa [h.value, h.hold] using hinv.owned m t hm
  · simpa [h.threads] using hinv.once m
  · rw [h.threads] at hm hn
    exact hinv.one t m n hm hn
  · rw [h.threads] at hm
    simpa [h.owner] using hinv.other t m hm

theorem Inv.set (h : s.Inv)
    (hfree : mutex.owner = none → mutex.value = 1 ∧ mutex.hold = 0 ∧ mutex.suspendThread = [])
    (howned : ∀ t, mutex.owner = some t →
      mutex.value = 0 ∧ 1 ≤ mutex.hold ∧ mutex.hold ≤ rtMutexHoldMax)
    (honce : (mutex.suspendThread.map Waiter.thread).Nodup)
    (hone : ∀ t ∈ mutex.suspendThread.map Waiter.thread, t ∈ s.threads m ∨ ¬s.Waiting t)
    (hother : ∀ t ∈ mutex.suspendThread.map Waiter.thread, mutex.owner ≠ some t) :
    (s.set m mutex).Inv := by
  have hsame : ∀ {t n}, t ∈ (s.set m mutex).threads m → t ∈ s.threads n → m = n := by
    intro t n hm hn
    rw [set_threads] at hm
    obtain hin | hnot := hone t hm
    · exact h.one t m n hin hn
    · exact absurd ⟨n, hn⟩ hnot
  refine ⟨fun n hn => ?_, fun n t hn => ?_, fun n => ?_, fun t n n' hn hn' => ?_, fun t n hn => ?_⟩
  · by_cases hnm : n = m
    · subst hnm
      simpa using hfree (by simpa using hn)
    · rw [set_mutex_of_ne hnm] at hn ⊢
      rw [set_threads_of_ne hnm]
      exact h.free n hn
  · by_cases hnm : n = m
    · subst hnm
      simpa using howned t (by simpa using hn)
    · rw [set_mutex_of_ne hnm] at hn ⊢
      exact h.owned n t hn
  · by_cases hnm : n = m
    · subst hnm
      simpa using honce
    · rw [set_threads_of_ne hnm]
      exact h.once n
  · by_cases hnm : n = m
    · subst hnm
      by_cases hnm' : n' = n
      · exact hnm'.symm
      · rw [set_threads_of_ne hnm'] at hn'
        exact hsame hn hn'
    · rw [set_threads_of_ne hnm] at hn
      by_cases hnm' : n' = m
      · subst hnm'
        exact (hsame hn' hn).symm
      · rw [set_threads_of_ne hnm'] at hn'
        exact h.one t n n' hn hn'
  · by_cases hnm : n = m
    · subst hnm
      simpa using hother t (by simpa using hn)
    · rw [set_threads_of_ne hnm] at hn
      rw [set_mutex_of_ne hnm]
      exact h.other t n hn

end Mutexes

open Mutexes

/-- What the first half of `rt_mutex_take` does. -/
theorem rtMutexTake_cases (h : s.Inv) (t m : Nat) (time : Int) :
    ((s.mutex m).owner = some t ∧ (s.mutex m).hold < rtMutexHoldMax ∧
      rtMutexTake s t m time =
        (s.set m { s.mutex m with hold := (s.mutex m).hold + 1 }, .ok)) ∨
    ((s.mutex m).owner = some t ∧ rtMutexTake s t m time = (s, .full)) ∨
    ((s.mutex m).owner = none ∧ rtMutexTake s t m time =
      (s.set m { s.mutex m with
        value := 0, owner := some t, originalPriority := s.priority t, hold := 1 }, .ok)) ∨
    (∃ o, (s.mutex m).owner = some o ∧ o ≠ t ∧ rtMutexTake s t m time = (s, .timeout)) ∨
    ∃ o timed, (s.mutex m).owner = some o ∧ o ≠ t ∧
      rtMutexTake s t m time = ((s.inherit o t).suspend t m timed, .suspended) := by
  unfold rtMutexTake
  cases howner : (s.mutex m).owner with
  | none =>
    obtain ⟨hvalue, hhold, -⟩ := h.free m howner
    exact .inr (.inr (.inl ⟨rfl, by simp [howner, hvalue, hhold, rtMutexHoldMax]⟩))
  | some o =>
    obtain ⟨hvalue, -, -⟩ := h.owned m o howner
    by_cases ho : o = t
    · subst ho
      by_cases hlt : (s.mutex m).hold < rtMutexHoldMax
      · exact .inl ⟨rfl, hlt, by simp [hlt, howner]⟩
      · exact .inr (.inl ⟨rfl, by simp [hlt, howner]⟩)
    · by_cases htime : time = 0
      · exact .inr (.inr (.inr (.inl ⟨o, rfl, ho, by simp [hvalue, htime, howner, ho]⟩)))
      · exact .inr (.inr (.inr (.inr ⟨o, time > 0, rfl, ho, by simp [hvalue, htime, howner, ho]⟩)))

theorem rtMutexRelease_cases (h : s.Inv) (t m : Nat) :
    ((s.mutex m).owner ≠ some t ∧ rtMutexRelease s t m = (s, .error)) ∨
    ((s.mutex m).owner = some t ∧ 2 ≤ (s.mutex m).hold ∧
      rtMutexRelease s t m =
        (s.set m { s.mutex m with hold := (s.mutex m).hold - 1 }, .nested)) ∨
    ((s.mutex m).owner = some t ∧ (s.mutex m).hold = 1 ∧ ∃ w rest,
      ((s.restore m t).mutex m).suspendThread = w :: rest ∧
      rtMutexRelease s t m =
        ((s.restore m t).set m { (s.restore m t).mutex m with
          owner := some w.thread, originalPriority := (s.restore m t).priority w.thread, hold := 1,
          suspendThread := rest }, .woke w.thread)) ∨
    ((s.mutex m).owner = some t ∧ (s.mutex m).hold = 1 ∧ s.threads m = [] ∧
      rtMutexRelease s t m =
        ((s.restore m t).set m { (s.restore m t).mutex m with
          value := 1, owner := none, originalPriority := 0xff, hold := 0 }, .freed)) := by
  unfold rtMutexRelease
  by_cases howner : (s.mutex m).owner = some t
  · obtain ⟨hvalue, hpos, -⟩ := h.owned m t howner
    rw [if_neg (not_not.mpr howner)]
    by_cases hhold : (s.mutex m).hold = 1
    · have hzero : ((s.restore m t).mutex m).value = 0 := (restore_alike.value m).trans hvalue
      have hthreads : (s.restore m t).threads m = s.threads m := restore_alike.threads m
      cases hlist : ((s.restore m t).mutex m).suspendThread with
      | cons w rest =>
        refine .inr (.inr (.inl ⟨howner, hhold, w, rest, rfl, ?_⟩))
        simp [hhold, hlist, rtMutexHoldMax]
      | nil =>
        have hnil : s.threads m = [] := by
          rw [← hthreads, threads, hlist, List.map_nil]
        refine .inr (.inr (.inr ⟨howner, hhold, hnil, ?_⟩))
        simp [hhold, hlist, hzero, rtMutexValueMax]
    · have hne : (s.mutex m).hold - 1 ≠ 0 := by omega
      exact .inr (.inl ⟨howner, by omega, by simp [hne]⟩)
  · exact .inl ⟨howner, by rw [if_pos howner]⟩

/-- What one call changes in how often the threads hold the mutexes. -/
def Counts (s : Mutexes) (e : MutexEvent) (s' : Mutexes) : Prop :=
  ∀ t m, s'.held t m + (e.unlocks t m).toNat = s.held t m + (e.locks t m).toNat

theorem MutexEvent.other (h : e.mutex ≠ n) : e.locks t n = false ∧ e.unlocks t n = false := by
  cases e with
  | lock u m waitMS result => cases result <;> simp_all [locks, unlocks, mutex]
  | unlock u m result => cases result <;> simp_all [locks, unlocks, mutex]
  | timeout u m => exact ⟨rfl, rfl⟩

/-- The counts are right when those of the mutex are. -/
theorem Mutexes.Alike.counts (h : s.Alike s') (hm : e.mutex = m)
    (hself : ∀ t, (if mutex.owner = some t then mutex.hold else 0) + (e.unlocks t m).toNat =
      s.held t m + (e.locks t m).toNat) : Counts s e (s'.set m mutex) := by
  intro t n
  by_cases hnm : n = m
  · subst hnm
    simpa [Mutexes.held] using hself t
  · obtain ⟨hlocks, hunlocks⟩ := MutexEvent.other (t := t) (hm.trans_ne (Ne.symm hnm))
    rw [set_held_of_ne hnm, h.held, hlocks, hunlocks]

theorem Mutexes.Inv.lock (h : s.Inv) (hruns : ¬s.Waiting t) (waitMS : Nat) (time : Int) :
    (rtMutexTake s t m time).1.Inv ∧
      Counts s (.lock t m waitMS (rtMutexTake s t m time).2) (rtMutexTake s t m time).1 := by
  obtain ⟨howner, hlt, htake⟩ | ⟨howner, htake⟩ | ⟨howner, htake⟩ | ⟨o, howner, ho, htake⟩ |
    ⟨o, timed, howner, ho, htake⟩ := rtMutexTake_cases h t m time
  · -- the owner locks it once more
    obtain ⟨hvalue, hpos, -⟩ := h.owned m t howner
    rw [htake]
    constructor
    · refine h.set (by simp [howner]) ?_ (h.once m) (fun u hu => .inl hu) (fun u hu => h.other u m hu)
      intro u _
      exact ⟨hvalue, by simp, hlt⟩
    · refine alike_refl.counts rfl fun u => ?_
      by_cases hu : t = u <;> simp [held, howner, hu, MutexEvent.locks, MutexEvent.unlocks]
  · rw [htake]
    exact ⟨h, fun u n => by simp [MutexEvent.locks, MutexEvent.unlocks]⟩
  · -- the mutex was free
    obtain ⟨hvalue, hhold, hthreads⟩ := h.free m howner
    have hlist : (s.mutex m).suspendThread = [] := List.map_eq_nil_iff.mp hthreads
    rw [htake]
    constructor
    · refine h.set (by simp) ?_ (by simp [hlist]) (by simp [hlist]) (by simp [hlist])
      intro u _
      simp [rtMutexHoldMax]
    · refine alike_refl.counts rfl fun u => ?_
      by_cases hu : t = u <;> simp [held, howner, hu, MutexEvent.locks, MutexEvent.unlocks]
  · rw [htake]
    exact ⟨h, fun u n => by simp [MutexEvent.locks, MutexEvent.unlocks]⟩
  · -- the thread is suspended
    have halike : s.Alike (s.inherit o t) := inherit_alike
    have hinv := halike.inv h
    have hruns' : ¬(s.inherit o t).Waiting t := fun hw => hruns (halike.waiting.mp hw)
    have howner' : ((s.inherit o t).mutex m).owner = some o := (halike.owner m).trans howner
    have hperm := (rtIpcListSuspend_perm ((s.inherit o t).mutex m).suspendThread
      ⟨t, (s.inherit o t).priority t, timed⟩ ((s.inherit o t).mutex m).flag).map Waiter.thread
    rw [htake]
    constructor
    · refine hinv.set (fun hnone => ?_) (fun u hu => hinv.owned m u hu) ?_ ?_ ?_
      · rw [howner'] at hnone
        cases hnone
      · rw [hperm.nodup_iff]
        exact List.nodup_cons.mpr ⟨fun hin => hruns' ⟨m, hin⟩, hinv.once m⟩
      · intro u hu
        obtain rfl | hin := List.mem_cons.mp (hperm.mem_iff.mp hu)
        · exact .inr hruns'
        · exact .inl hin
      · intro u hu
        obtain hself | hin := List.mem_cons.mp (hperm.mem_iff.mp hu)
        · intro hown
          exact ho ((Option.some.inj (howner'.symm.trans hown)).trans hself)
        · exact hinv.other u m hin
    · refine halike.counts rfl fun u => ?_
      simp [held, halike.owner, halike.hold, MutexEvent.locks, MutexEvent.unlocks]

theorem Mutexes.Inv.unlock (h : s.Inv) (hruns : ¬s.Waiting t) :
    (rtMutexRelease s t m).1.Inv ∧
      Counts s (.unlock t m (rtMutexRelease s t m).2) (rtMutexRelease s t m).1 := by
  have halike : s.Alike (s.restore m t) := restore_alike
  have hinv := halike.inv h
  obtain ⟨howner, hrel⟩ | ⟨howner, htwo, hrel⟩ | ⟨howner, hone, w, rest, hlist, hrel⟩ |
    ⟨howner, hone, hnil, hrel⟩ := rtMutexRelease_cases h t m
  · rw [hrel]
    exact ⟨h, fun u n => by simp [MutexEvent.locks, MutexEvent.unlocks]⟩
  · -- the thread still holds it
    obtain ⟨hvalue, -, hmax⟩ := h.owned m t howner
    rw [hrel]
    constructor
    · refine h.set (by simp [howner]) ?_ (h.once m) (fun u hu => .inl hu) (fun u hu => h.other u m hu)
      intro u _
      exact ⟨hvalue, by dsimp only; omega, by dsimp only; omega⟩
    · refine alike_refl.counts rfl fun u => ?_
      by_cases hu : t = u
      · simp [held, howner, hu, MutexEvent.locks, MutexEvent.unlocks]
        omega
      · simp [held, howner, hu, MutexEvent.locks, MutexEvent.unlocks]
  · -- the first thread of the list owns it
    have hthreads : s.threads m = w.thread :: rest.map Waiter.thread := by
      rw [← halike.threads, threads, hlist, List.map_cons]
    have hw : w.thread ≠ t := by
      rintro rfl
      exact hruns ⟨m, by simp [hthreads]⟩
    have honce := h.once m
    rw [hthreads, List.nodup_cons] at honce
    have hin : ∀ u ∈ rest.map Waiter.thread, u ∈ s.threads m := by
      intro u hu
      rw [hthreads]
      exact .tail _ hu
    rw [hrel]
    constructor
    · refine hinv.set (by simp) ?_ honce.2 ?_ ?_
      · intro u _
        exact ⟨(halike.value m).trans (h.owned m t howner).1, by simp [rtMutexHoldMax]⟩
      · intro u hu
        exact .inl ((halike.threads m).symm ▸ hin u hu)
      · rintro u hu heq
        obtain rfl := Option.some.inj heq
        exact honce.1 hu
    · refine halike.counts rfl fun u => ?_
      by_cases hu : t = u
      · subst hu
        simp [held, howner, hone, hw, MutexEvent.locks, MutexEvent.unlocks]
      · by_cases hwu : w.thread = u <;>
          simp [held, howner, hu, hwu, MutexEvent.locks, MutexEvent.unlocks]
  · -- the mutex is free
    have hlist : ((s.restore m t).mutex m).suspendThread = [] :=
      List.map_eq_nil_iff.mp ((halike.threads m).trans hnil)
    rw [hrel]
    constructor
    · exact hinv.set (by simp [hlist]) (by simp) (by simp [hlist]) (by simp [hlist]) (by simp [hlist])
    · refine halike.counts rfl fun u => ?_
      by_cases hu : t = u <;> simp [held, howner, hone, hu, MutexEvent.locks, MutexEvent.unlocks]

theorem Mutexes.Inv.timeout (h : s.Inv) :
    (rtMutexTimeout s t m).Inv ∧ Counts s (.timeout t m) (rtMutexTimeout s t m) := by
  have hsub : (((s.mutex m).suspendThread.filter (·.thread ≠ t)).map Waiter.thread).Sublist
      (s.threads m) := List.filter_sublist.map _
  constructor
  · refine h.set (fun hnone => ?_) (fun u hu => h.owned m u hu) ((h.once m).sublist hsub) ?_ ?_
    · obtain ⟨hvalue, hhold, hthreads⟩ := h.free m hnone
      rw [hthreads, List.sublist_nil, List.map_eq_nil_iff] at hsub
      exact ⟨hvalue, hhold, hsub⟩
    · intro u hu
      exact .inl (hsub.subset hu)
    · intro u hu
      exact h.other u m (hsub.subset hu)
  · refine alike_refl.counts rfl fun u => ?_
    simp [held, MutexEvent.locks, MutexEvent.unlocks]

theorem MutexStep.spec (h : MutexStep tickPerSecond s e s') (hinv : s.Inv) :
    s'.Inv ∧ Counts s e s' := by
  cases h with
  | lock hruns => exact hinv.lock hruns _ _
  | unlock hruns => exact hinv.unlock hruns
  | timeout hw htimed => exact hinv.timeout

theorem mutexStart_inv (base : Nat → Nat) : (mutexStart base).Inv :=
  ⟨fun _ _ => ⟨rfl, rfl, rfl⟩, nofun, fun _ => .nil, nofun, nofun⟩

/-- A run: what the threads hold is what they have locked and not unlocked. -/
theorem mutex_run (hinv : s.Inv) (h : Trans.Run (MutexStep tickPerSecond) s es s') :
    s'.Inv ∧ ∀ t m, s'.held t m + es.countP (·.unlocks t m) =
      s.held t m + es.countP (·.locks t m) := by
  induction h with
  | nil s => exact ⟨hinv, fun _ _ => rfl⟩
  | cons hs _ ih =>
    obtain ⟨hinv₁, hstep⟩ := hs.spec hinv
    obtain ⟨hinv', hrun⟩ := ih hinv₁
    have hcount : ∀ b : Bool, (if b = true then 1 else 0) = b.toNat := fun b => by cases b <;> rfl
    refine ⟨hinv', fun t m => ?_⟩
    have hone := hstep t m
    have hrest := hrun t m
    simp only [List.countP_cons, hcount]
    omega

/-- At most one thread has locked a mutex and not unlocked it; the mutex is held as often as that.
Nobody waits for a mutex that no thread holds. -/
theorem mutex_counts (base : Nat → Nat) (es : List MutexEvent) (s : Mutexes)
    (h : Trans.Run (MutexStep tickPerSecond) (mutexStart base) es s) (m : Nat) :
    ((s.mutex m).owner = none → s.threads m = [] ∧
      ∀ t, es.countP (·.locks t m) = es.countP (·.unlocks t m)) ∧
    ∀ t, (s.mutex m).owner = some t →
      es.countP (·.locks t m) = es.countP (·.unlocks t m) + (s.mutex m).hold ∧
      1 ≤ (s.mutex m).hold ∧ (s.mutex m).hold ≤ 255 ∧ t ∉ s.threads m ∧
      ∀ u, u ≠ t → es.countP (·.locks u m) = es.countP (·.unlocks u m) := by
  obtain ⟨hinv, hcount⟩ := mutex_run (mutexStart_inv base) h
  have hzero : ∀ t, (mutexStart base).held t m = 0 := fun t => rfl
  constructor
  · intro hnone
    refine ⟨(hinv.free m hnone).2.2, fun t => ?_⟩
    have heq := hcount t m
    rw [hzero, held, hnone, if_neg nofun] at heq
    omega
  · intro t howner
    obtain ⟨-, hpos, hmax⟩ := hinv.owned m t howner
    refine ⟨?_, hpos, hmax, fun hin => hinv.other t m hin howner, fun u hu => ?_⟩
    · have heq := hcount t m
      rw [hzero, held, if_pos howner] at heq
      omega
    · have heq := hcount u m
      have hne : (s.mutex m).owner ≠ some u := fun hown =>
        hu (Option.some.inj (hown.symm.trans howner))
      rw [hzero, held, if_neg hne] at heq
      omega

/-! ## The priorities -/

/-- The thread owns no other mutex. -/
def LocksOne (s : Mutexes) : MutexEvent → Prop
  | .lock t m _ _ => ∀ n, (s.mutex n).owner = some t → n = m
  | _ => True

/-- The owners run, before no thread that waits for them; `base` are the threads' own priorities. -/
structure Mutexes.Inherits (base : Nat → Nat) (s : Mutexes) : Prop where
  flag : ∀ m, (s.mutex m).flag = .prio
  single : ∀ t m n, (s.mutex m).owner = some t → (s.mutex n).owner = some t → m = n
  runs : ∀ t m, (s.mutex m).owner = some t → ¬s.Waiting t
  own : ∀ t, (∀ m, (s.mutex m).owner ≠ some t) → s.priority t = base t
  original : ∀ t m, (s.mutex m).owner = some t →
    (s.mutex m).originalPriority = base t ∧ s.priority t ≤ base t
  first : ∀ t m, (s.mutex m).owner = some t →
    ∀ w ∈ (s.mutex m).suspendThread, s.priority t ≤ base w.thread
  live : ∀ m, ∀ w ∈ (s.mutex m).suspendThread, w.currentPriority = base w.thread
  sorted : ∀ m, (s.mutex m).suspendThread.Pairwise (·.currentPriority ≤ ·.currentPriority)

theorem insertByPriority_sorted (w : Waiter) {list : List Waiter}
    (h : list.Pairwise (·.currentPriority ≤ ·.currentPriority)) :
    (insertByPriority w list).Pairwise (·.currentPriority ≤ ·.currentPriority) := by
  induction list with
  | nil => exact List.pairwise_singleton _ _
  | cons sthread rest ih =>
    obtain ⟨hfirst, hrest⟩ := List.pairwise_cons.mp h
    unfold insertByPriority
    split
    · rename_i hlt
      refine List.pairwise_cons.mpr ⟨fun v hv => ?_, h⟩
      obtain rfl | hv := List.mem_cons.mp hv
      · exact hlt.le
      · exact hlt.le.trans (hfirst v hv)
    · rename_i hge
      refine List.pairwise_cons.mpr ⟨fun v hv => ?_, ih hrest⟩
      obtain rfl | hv := List.mem_cons.mp ((insertByPriority_perm w rest).mem_iff.mp hv)
      · exact Nat.le_of_not_lt hge
      · exact hfirst v hv

namespace Mutexes

/-- A thread that runs is in no list. -/
theorem changePriority_eq (hruns : ¬s.Waiting t) :
    s.changePriority t p = { s with priority := Function.update s.priority t p } := by
  have hmutex : (s.changePriority t p).mutex = s.mutex := by
    funext m
    have hsame : (s.mutex m).suspendThread.map (Waiter.changePriority t p) =
        (s.mutex m).suspendThread.map id := by
      refine List.map_congr_left fun w hw => ?_
      have hne : w.thread ≠ t := by
        rintro rfl
        exact hruns ⟨m, List.mem_map_of_mem hw⟩
      simp [Waiter.changePriority, hne]
    simp [changePriority, hsame]
  rw [← hmutex]
  rfl

theorem inherit_eq (hruns : ¬s.Waiting o) : s.inherit o t =
    { s with priority := Function.update s.priority o (min (s.priority t) (s.priority o)) } := by
  unfold inherit
  split
  · rename_i hlt
    rw [changePriority_eq hruns, min_eq_left hlt.le]
  · rename_i hge
    rw [min_eq_right (Nat.le_of_not_lt hge), Function.update_eq_self]

theorem restore_eq (hruns : ¬s.Waiting t) : s.restore m t =
    { s with priority := Function.update s.priority t (s.mutex m).originalPriority } := by
  unfold restore
  split
  · exact changePriority_eq hruns
  · rename_i heq
    rw [not_not.mp heq, Function.update_eq_self]

theorem Inherits.ownsNone {base : Nat → Nat} (h : s.Inherits base) (hm : (s.mutex m).owner ≠ some t)
    (hother : ∀ n, n ≠ m → (s.mutex n).owner ≠ some t) : s.priority t = base t := by
  refine h.own t fun n => ?_
  by_cases hnm : n = m
  · rw [hnm]
    exact hm
  · exact hother n hnm

/-- An owner is in no list, and owns no other mutex. -/
theorem Inherits.alone {base : Nat → Nat} (h : s.Inherits base) (hm : (s.mutex m).owner = some t) :
    t ∉ s.threads m ∧ ∀ n, n ≠ m → (s.mutex n).owner ≠ some t ∧ t ∉ s.threads n :=
  ⟨fun hin => h.runs t m hm ⟨m, hin⟩,
    fun n hnm => ⟨fun hn => hnm (h.single t n m hn hm), fun hin => h.runs t m hm ⟨n, hin⟩⟩⟩

/-- One mutex changes, and priorities of threads that own no other. -/
theorem Inherits.put {base : Nat → Nat} (h : s.Inherits base) (priority : Nat → Nat)
    (hflag : mutex.flag = .prio)
    (hown : ∀ u, mutex.owner ≠ some u → (∀ n, n ≠ m → (s.mutex n).owner ≠ some u) →
      priority u = base u)
    (hkeep : ∀ u n, n ≠ m → (s.mutex n).owner = some u → priority u = s.priority u)
    (howner : ∀ u, mutex.owner = some u →
      (∀ n, n ≠ m → (s.mutex n).owner ≠ some u ∧ u ∉ s.threads n) ∧
      u ∉ mutex.suspendThread.map Waiter.thread ∧ mutex.originalPriority = base u ∧
      priority u ≤ base u ∧ ∀ w ∈ mutex.suspendThread, priority u ≤ base w.thread)
    (hruns : ∀ u n, n ≠ m → (s.mutex n).owner = some u →
      u ∉ mutex.suspendThread.map Waiter.thread)
    (hlive : ∀ w ∈ mutex.suspendThread, w.currentPriority = base w.thread)
    (hsorted : mutex.suspendThread.Pairwise (·.currentPriority ≤ ·.currentPriority)) :
    (({ s with priority } : Mutexes).set m mutex).Inherits base := by
  have hself : (({ s with priority } : Mutexes).set m mutex).mutex m = mutex := set_mutex
  have hother : ∀ {n}, n ≠ m →
      (({ s with priority } : Mutexes).set m mutex).mutex n = s.mutex n := fun hn => set_mutex_of_ne hn
  have hthreads : ∀ {n}, n ≠ m →
      (({ s with priority } : Mutexes).set m mutex).threads n = s.threads n := fun hn =>
    set_threads_of_ne hn
  refine ⟨fun n => ?_, fun t n n' hn hn' => ?_, ?_, fun t ht => ?_, fun t n hn => ?_,
    fun t n hn w hw => ?_, fun n w hw => ?_, fun n => ?_⟩
  · by_cases hnm : n = m
    · rw [hnm, hself, hflag]
    · rw [hother hnm, h.flag]
  · by_cases hnm : n = m
    · by_cases hnm' : n' = m
      · rw [hnm, hnm']
      · rw [hnm, hself] at hn
        rw [hother hnm'] at hn'
        exact absurd hn' ((howner t hn).1 n' hnm').1
    · rw [hother hnm] at hn
      by_cases hnm' : n' = m
      · rw [hnm', hself] at hn'
        exact absurd hn ((howner t hn').1 n hnm).1
      · rw [hother hnm'] at hn'
        exact h.single t n n' hn hn'
  · rintro t n hn ⟨n', hin⟩
    by_cases hnm : n = m
    · rw [hnm, hself] at hn
      obtain ⟨hothers, hnot, -⟩ := howner t hn
      by_cases hnm' : n' = m
      · rw [hnm', set_threads] at hin
        exact hnot hin
      · rw [hthreads hnm'] at hin
        exact (hothers n' hnm').2 hin
    · rw [hother hnm] at hn
      by_cases hnm' : n' = m
      · rw [hnm', set_threads] at hin
        exact hruns t n hnm hn hin
      · rw [hthreads hnm'] at hin
        exact h.runs t n hn ⟨n', hin⟩
  · refine hown t (by simpa [hself] using ht m) fun n hnm => ?_
    simpa [hother hnm] using ht n
  · by_cases hnm : n = m
    · rw [hnm, hself] at hn ⊢
      obtain ⟨-, -, horiginal, hle, -⟩ := howner t hn
      exact ⟨horiginal, hle⟩
    · rw [hother hnm] at hn ⊢
      obtain ⟨horiginal, hle⟩ := h.original t n hn
      exact ⟨horiginal, (hkeep t n hnm hn).trans_le hle⟩
  · by_cases hnm : n = m
    · rw [hnm, hself] at hn hw
      exact (howner t hn).2.2.2.2 w hw
    · rw [hother hnm] at hn hw
      exact (hkeep t n hnm hn).trans_le (h.first t n hn w hw)
  · by_cases hnm : n = m
    · rw [hnm, hself] at hw
      exact hlive w hw
    · rw [hother hnm] at hw
      exact h.live n w hw
  · by_cases hnm : n = m
    · rw [hnm, hself]
      exact hsorted
    · rw [hother hnm]
      exact h.sorted n

/-- Nothing changes but how often the owner holds the mutex. -/
theorem Inherits.hold {base : Nat → Nat} (h : s.Inherits base) (hold : Nat) :
    (s.set m { s.mutex m with hold }).Inherits base := by
  refine h.put s.priority (h.flag m) (fun u hu hn => h.ownsNone hu hn) (fun _ _ _ _ => rfl)
    (fun u hu => ?_) (fun u n _ hn hin => h.runs u n hn ⟨m, hin⟩) (h.live m) (h.sorted m)
  obtain ⟨horiginal, hle⟩ := h.original u m hu
  obtain ⟨hnot, hothers⟩ := h.alone hu
  exact ⟨hothers, hnot, horiginal, hle, h.first u m hu⟩

theorem Inherits.lock {base : Nat → Nat} (h : s.Inherits base) (hinv : s.Inv)
    (hruns : ¬s.Waiting t) (hone : ∀ n, (s.mutex n).owner = some t → n = m) (time : Int) :
    (rtMutexTake s t m time).1.Inherits base := by
  obtain ⟨howner, hlt, htake⟩ | ⟨howner, htake⟩ | ⟨howner, htake⟩ | ⟨o, howner, ho, htake⟩ |
    ⟨o, timed, howner, ho, htake⟩ := rtMutexTake_cases hinv t m time
  · rw [htake]
    exact h.hold _
  · rw [htake]
    exact h
  · have hlist : (s.mutex m).suspendThread = [] :=
      List.map_eq_nil_iff.mp (hinv.free m howner).2.2
    have hown : s.priority t = base t := by
      refine h.own t fun n hn => ?_
      rw [hone n hn, howner] at hn
      cases hn
    rw [htake]
    refine h.put s.priority (h.flag m) (fun u hu hn => h.ownsNone (by simp [howner]) hn)
      (fun _ _ _ _ => rfl) (fun u hu => ?_) (by simp [hlist]) (by simp [hlist]) (by simp [hlist])
    obtain rfl := Option.some.inj hu
    refine ⟨fun n hnm => ⟨fun hn => hnm (hone n hn), fun hin => hruns ⟨n, hin⟩⟩, ?_⟩
    simp [hlist, hown]
  · rw [htake]
    exact h
  · -- the thread waits, and the owner runs at its priority at least
    have hfree : ∀ n, (s.mutex n).owner ≠ some t := by
      intro n hn
      rw [hone n hn, howner] at hn
      exact ho (Option.some.inj hn)
    have hown : s.priority t = base t := h.own t hfree
    obtain ⟨horiginal, hle⟩ := h.original o m howner
    rw [htake, inherit_eq (h.runs o m howner)]
    have hself : ∀ x, Function.update s.priority o x t = base t := fun x =>
      (Function.update_of_ne (Ne.symm ho) ..).trans hown
    simp only [suspend, hself, h.flag m, rtIpcListSuspend]
    have hperm := insertByPriority_perm ⟨t, base t, timed⟩ (s.mutex m).suspendThread
    have hmem : ∀ u, u ∈ (insertByPriority ⟨t, base t, timed⟩ (s.mutex m).suspendThread).map
        Waiter.thread → u = t ∨ u ∈ s.threads m := fun u hu =>
      List.mem_cons.mp ((hperm.map Waiter.thread).mem_iff.mp hu)
    refine h.put _ rfl (fun u hu hn => ?_) (fun u n hnm hn => ?_) (fun u hu => ?_)
      (fun u n hnm hn hin => ?_) (fun w hw => ?_) (insertByPriority_sorted _ (h.sorted m))
    · have huo : u ≠ o := by
        rintro rfl
        exact hu howner
      rw [Function.update_of_ne huo]
      exact h.ownsNone hu hn
    · have huo : u ≠ o := by
        rintro rfl
        exact hnm (h.single u n m hn howner)
      exact Function.update_of_ne huo ..
    · obtain rfl := Option.some.inj (hu.symm.trans howner)
      obtain ⟨hnot, hothers⟩ := h.alone hu
      refine ⟨hothers, fun hin => ?_, horiginal, ?_, fun w hw => ?_⟩
      · obtain heq | hin := hmem u hin
        · exact ho heq
        · exact hnot hin
      · rw [Function.update_self]
        exact (min_le_right _ _).trans hle
      · rw [Function.update_self]
        obtain rfl | hin := List.mem_cons.mp (hperm.mem_iff.mp hw)
        · exact (min_le_left _ _).trans hown.le
        · exact (min_le_right _ _).trans (h.first u m hu w hin)
    · obtain heq | hin := hmem u hin
      · rw [heq] at hn
        exact hfree n hn
      · exact h.runs u n hn ⟨m, hin⟩
    · obtain rfl | hin := List.mem_cons.mp (hperm.mem_iff.mp hw)
      · rfl
      · exact h.live m w hin

theorem Inherits.unlock {base : Nat → Nat} (h : s.Inherits base) (hinv : s.Inv)
    (hruns : ¬s.Waiting t) : (rtMutexRelease s t m).1.Inherits base := by
  -- the thread has its own priority again
  have hrest : (s.mutex m).owner = some t → ∀ u, ((∀ n, n ≠ m → (s.mutex n).owner ≠ some u) →
        Function.update s.priority t (s.mutex m).originalPriority u = base u) ∧
      ∀ n, n ≠ m → (s.mutex n).owner = some u →
        Function.update s.priority t (s.mutex m).originalPriority u = s.priority u := by
    intro howner u
    by_cases hut : u = t
    · subst hut
      rw [Function.update_self]
      exact ⟨fun _ => (h.original u m howner).1, fun n hnm hn => absurd hn ((h.alone howner).2 n hnm).1⟩
    · rw [Function.update_of_ne hut]
      exact ⟨fun hn => h.ownsNone (fun hm => hut (Option.some.inj (hm.symm.trans howner))) hn,
        fun _ _ _ => rfl⟩
  obtain ⟨howner, hrel⟩ | ⟨howner, htwo, hrel⟩ | ⟨howner, hone, w, rest, hlist, hrel⟩ |
    ⟨howner, hone, hnil, hrel⟩ := rtMutexRelease_cases hinv t m
  · rw [hrel]
    exact h
  · rw [hrel]
    exact h.hold _
  · -- the first thread that waits has its own priority, and no other is before it
    rw [restore_eq hruns] at hlist hrel
    dsimp only at hlist hrel
    have hthreads : s.threads m = w.thread :: rest.map Waiter.thread := by
      rw [threads, hlist, List.map_cons]
    have hwaits : s.Waiting w.thread := ⟨m, by simp [hthreads]⟩
    have hw : w.thread ≠ t := by
      intro heq
      exact hruns (heq ▸ hwaits)
    have hfree : ∀ n, (s.mutex n).owner ≠ some w.thread := fun n hn => h.runs _ n hn hwaits
    have hown : s.priority w.thread = base w.thread := h.own _ hfree
    have honce := hinv.once m
    rw [hthreads, List.nodup_cons] at honce
    have hsorted := h.sorted m
    rw [hlist, List.pairwise_cons] at hsorted
    have hlive := h.live m
    rw [hlist] at hlive
    rw [hrel]
    refine h.put _ (h.flag m) (fun u _ hn => (hrest howner u).1 hn) (fun u n => (hrest howner u).2 n)
      (fun u hu => ?_) (fun u n hnm hn hin => ?_) (fun v hv => hlive v (.tail _ hv)) hsorted.2
    · obtain rfl := Option.some.inj hu
      simp only [Function.update_of_ne hw, hown]
      refine ⟨fun n hnm => ⟨hfree n, fun hin => hnm ?_⟩, honce.1, trivial, le_rfl, fun v hv => ?_⟩
      · exact hinv.one w.thread n m hin (by simp [hthreads])
      · rw [← hlive w (.head _), ← hlive v (.tail _ hv)]
        exact hsorted.1 v hv
    · exact h.runs u n hn ⟨m, by rw [hthreads]; exact .tail _ hin⟩
  · rw [restore_eq hruns] at hrel
    dsimp only at hrel
    have hlist : (s.mutex m).suspendThread = [] := List.map_eq_nil_iff.mp hnil
    rw [hrel]
    exact h.put _ (h.flag m) (fun u _ hn => (hrest howner u).1 hn) (fun u n => (hrest howner u).2 n)
      nofun (by simp [hlist]) (by simp [hlist]) (by simp [hlist])

theorem Inherits.timeout {base : Nat → Nat} (h : s.Inherits base) :
    (rtMutexTimeout s t m).Inherits base := by
  have hsub : ((s.mutex m).suspendThread.filter (·.thread ≠ t)).Sublist (s.mutex m).suspendThread :=
    List.filter_sublist
  have hthreads := (hsub.map Waiter.thread).subset
  refine h.put s.priority (h.flag m) (fun u hu hn => h.ownsNone hu hn) (fun _ _ _ _ => rfl)
    (fun u hu => ?_) (fun u n _ hn hin => h.runs u n hn ⟨m, hthreads hin⟩)
    (fun w hw => h.live m w (hsub.subset hw)) ((h.sorted m).sublist hsub)
  obtain ⟨horiginal, hle⟩ := h.original u m hu
  obtain ⟨hnot, hothers⟩ := h.alone hu
  exact ⟨hothers, fun hin => hnot (hthreads hin), horiginal, hle,
    fun w hw => h.first u m hu w (hsub.subset hw)⟩

end Mutexes

theorem MutexStep.inherits {base : Nat → Nat} (h : MutexStep tickPerSecond s e s')
    (hone : LocksOne s e) (hinv : s.Inv) (hinherits : s.Inherits base) : s'.Inherits base := by
  cases h with
  | lock hruns => exact hinherits.lock hinv hruns hone _
  | unlock hruns => exact hinherits.unlock hinv hruns
  | timeout hw htimed => exact hinherits.timeout

theorem mutexStart_inherits (base : Nat → Nat) : (mutexStart base).Inherits base :=
  ⟨fun _ => rfl, nofun, nofun, fun _ _ => rfl, nofun, nofun, nofun, fun _ => .nil⟩

/-- The thread that a release wakes waited for the mutex, before no other of a higher priority. -/
theorem Mutexes.Inherits.woke {base : Nat → Nat} (h : s.Inherits base) (hinv : s.Inv)
    (hstep : MutexStep tickPerSecond s (.unlock t m (.woke u)) s') :
    u ∈ s.threads m ∧ (∀ v ∈ s.threads m, base u ≤ base v) ∧ (s'.mutex m).owner = some u ∧
      s'.priority t = base t := by
  generalize he : MutexEvent.unlock t m (.woke u) = e at hstep
  cases hstep with
  | lock hruns => cases he
  | timeout hw htimed => cases he
  | unlock hruns =>
    obtain ⟨rfl, rfl, hwoke⟩ := MutexEvent.unlock.inj he
    unfold osMutexUnlock at hwoke ⊢
    obtain ⟨-, hrel⟩ | ⟨-, -, hrel⟩ | ⟨howner, -, w, rest, hlist, hrel⟩ | ⟨-, -, -, hrel⟩ :=
      rtMutexRelease_cases hinv t m
    · rw [hrel] at hwoke
      cases hwoke
    · rw [hrel] at hwoke
      cases hwoke
    · rw [hrel] at hwoke ⊢
      obtain rfl := MutexRelease.woke.inj hwoke
      rw [restore_eq hruns] at hlist ⊢
      dsimp only at hlist
      have hthreads : s.threads m = w.thread :: rest.map Waiter.thread := by
        rw [threads, hlist, List.map_cons]
      have hsorted := h.sorted m
      have hlive := h.live m
      rw [hlist] at hsorted hlive
      refine ⟨by simp [hthreads], fun v hv => ?_, by simp, ?_⟩
      · rw [hthreads] at hv
        obtain rfl | hv := List.mem_cons.mp hv
        · exact le_rfl
        · obtain ⟨x, hx, rfl⟩ := List.mem_map.mp hv
          rw [← hlive w (.head _), ← hlive x (.tail _ hx)]
          exact (List.pairwise_cons.mp hsorted).1 x hx
      · simp [(h.original t m howner).1]
    · rw [hrel] at hwoke
      cases hwoke

/-- While no thread locks a second mutex: an owner runs, at its own priority or at one it has from
the threads that wait for it, and not behind them; whoever owns none has its own priority; a mutex
that is unlocked goes to the first in priority of those that wait. -/
theorem priority_inherited (base : Nat → Nat) (es : List MutexEvent) (s : Mutexes)
    (h : Trans.Run (Trans.Guarded (MutexStep tickPerSecond) LocksOne) (mutexStart base) es s) :
    (∀ t m, (s.mutex m).owner = some t → ¬s.Waiting t ∧ s.priority t ≤ base t ∧
      ∀ u ∈ s.threads m, s.priority t ≤ s.priority u) ∧
    (∀ t, (∀ m, (s.mutex m).owner ≠ some t) → s.priority t = base t) ∧
    ∀ t m u s', MutexStep tickPerSecond s (.unlock t m (.woke u)) s' →
      u ∈ s.threads m ∧ (∀ v ∈ s.threads m, s.priority u ≤ s.priority v) ∧
      (s'.mutex m).owner = some u ∧ s'.priority t = base t := by
  obtain ⟨hinv, hinherits⟩ : s.Inv ∧ s.Inherits base := by
    refine h.invariant (I := fun s => s.Inv ∧ s.Inherits base)
      ⟨mutexStart_inv base, mutexStart_inherits base⟩ ?_
    rintro s₁ e s₂ ⟨hinv, hinherits⟩ ⟨hone, hstep⟩
    exact ⟨(hstep.spec hinv).1, hstep.inherits hone hinv hinherits⟩
  -- a thread that waits owns none
  have hwaits : ∀ m, ∀ u ∈ s.threads m, s.priority u = base u := fun m u hu =>
    hinherits.own u fun n hn => hinherits.runs u n hn ⟨m, hu⟩
  refine ⟨fun t m howner => ⟨hinherits.runs t m howner, (hinherits.original t m howner).2, ?_⟩,
    hinherits.own, fun t m u s' hstep => ?_⟩
  · intro u hu
    rw [hwaits m u hu]
    obtain ⟨w, hw, rfl⟩ := List.mem_map.mp hu
    exact hinherits.first t m howner w hw
  · obtain ⟨hin, hfirst, howner, hown⟩ := hinherits.woke hinv hstep
    refine ⟨hin, fun v hv => ?_, howner, hown⟩
    rw [hwaits m u hin, hwaits m v hv]
    exact hfirst v hv

end

/-! ## Two threads -/

def twoPriorities : Nat → Nat := fun t => if t = 1 then 5 else 3

theorem Mutexes.not_waiting {s : Mutexes} {t : Nat} (h : ∀ m, s.threads m = []) : ¬s.Waiting t := by
  rintro ⟨m, hm⟩
  rw [h m] at hm
  cases hm

/-- The first thread has the mutex, and the second, of a higher priority, waits for it. -/
theorem two_run : Trans.Run (Trans.Guarded (MutexStep 1000) LocksOne) (mutexStart twoPriorities)
    [.lock 1 0 1000 .ok, .lock 2 0 1000 .suspended]
    (osMutexLock 1000 (osMutexLock 1000 (mutexStart twoPriorities) 1 0 1000).1 2 0 1000).1 := by
  have hstart : ∀ m, (mutexStart twoPriorities).threads m = [] := fun _ => rfl
  have hother : ∀ {m}, m ≠ 0 → (osMutexLock 1000 (mutexStart twoPriorities) 1 0 1000).1.mutex m =
      (mutexStart twoPriorities).mutex m := fun hm => Mutexes.set_mutex_of_ne hm
  refine .cons ⟨nofun, .lock (Mutexes.not_waiting hstart)⟩ (.cons ⟨fun n hn => ?_, .lock ?_⟩ (.nil _))
  · by_cases hm : n = 0
    · exact hm
    · rw [hother hm] at hn
      cases hn
  · refine Mutexes.not_waiting fun m => ?_
    by_cases hm : m = 0
    · subst hm
      rfl
    · rw [Mutexes.threads, hother hm]
      rfl

theorem mutex_counts_two : ∃ s, Trans.Run (MutexStep 1000) (mutexStart twoPriorities)
    [.lock 1 0 1000 .ok, .lock 2 0 1000 .suspended] s ∧ (s.mutex 0).hold = 1 := by
  have hrun := two_run.mono fun _ _ _ hstep => hstep.2
  have hcount := ((mutex_counts twoPriorities _ _ hrun 0).2 1 rfl).1
  exact ⟨_, hrun, (Nat.add_left_cancel hcount.symm : _ = 1)⟩

theorem priority_inherited_two : ∃ s, Trans.Run (Trans.Guarded (MutexStep 1000) LocksOne)
    (mutexStart twoPriorities) [.lock 1 0 1000 .ok, .lock 2 0 1000 .suspended] s ∧
    ¬s.Waiting 1 ∧ s.priority 1 ≤ s.priority 2 ∧ s.priority 2 = 3 := by
  obtain ⟨hruns, -, hfirst⟩ := (priority_inherited twoPriorities _ _ two_run).1 1 0 rfl
  exact ⟨_, two_run, hruns, hfirst 2 (.head _), rfl⟩

end Rtt
end XR806

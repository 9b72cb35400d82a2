import Mathlib.Algebra.Group.Nat.Defs
import Mathlib.Algebra.Ring.Int.Defs
import Mathlib.Data.List.Nodup
import Mathlib.Logic.Function.Basic
import XR806.Trans.Run

/-!
# XR806.Rtt.Thread

`os_thread.c` of the RT-Thread port over the kernel's scheduler (`scheduler.c`, `thread.c`,
`idle.c`): the list of the ready threads of each priority, the bits of the priorities with ready
threads, the lock of the scheduler, and the threads whose memory the idle thread frees.

A call is one step, with the switch to another thread that `rt_schedule` makes in it.
-/

namespace XR806
namespace Rtt

/-! ## The scheduler -/

/-- `RT_THREAD_READY`, `RT_THREAD_SUSPEND` and `RT_THREAD_CLOSE`; `freed` is the memory of a thread
that was there. -/
inductive Stat where
  | ready
  | suspend
  | close
  | freed
  deriving DecidableEq

structure Thread where
  currentPriority : Nat
  stat : Stat
  deriving DecidableEq

structure Sched where
  thread : Nat → Option Thread
  /-- `rt_thread_priority_table`. -/
  table : Nat → List Nat
  /-- The bits of `rt_thread_ready_priority_group`. -/
  group : Nat → Bool
  /-- `rt_current_thread`. -/
  current : Option Nat
  /-- `rt_scheduler_lock_nest`, an `rt_int16_t`. -/
  lockNest : Int
  /-- How many calls to suspend the scheduler are open. -/
  suspends : Nat
  /-- `rt_thread_defunct`. -/
  defunct : List Nat

/-- The idle thread. -/
def idle : Nat := 0

def int16 (n : Int) : Int := (n + 2 ^ 15) % 2 ^ 16 - 2 ^ 15

namespace Sched

def setStat (s : Sched) (t : Nat) (stat : Stat) : Sched :=
  { s with
    thread := Function.update s.thread t ((s.thread t).map fun thread => { thread with stat }) }

def priority (s : Sched) (t : Nat) : Nat := ((s.thread t).map Thread.currentPriority).getD 0

/-- The lowest bit of the group; `lowest` is `RT_THREAD_PRIORITY_MAX - 1`. -/
def highest (s : Sched) (lowest : Nat) : Option Nat :=
  (List.range (lowest + 1)).find? s.group

/-- `rt_schedule`. -/
def schedule (s : Sched) (lowest : Nat) : Sched :=
  if s.lockNest = 0 then
    match s.highest lowest with
    | none => s
    | some p =>
      match s.table p with
      | [] => s
      | t :: _ => { s with current := some t }
  else s

/-- `rt_schedule_insert_thread`. -/
def insertThread (s : Sched) (t : Nat) : Sched :=
  let p := s.priority t
  { s.setStat t .ready with
    table := Function.update s.table p (s.table p ++ [t])
    group := Function.update s.group p true }

/-- `rt_schedule_remove_thread`: the thread goes from the list it is in. -/
def removeThread (s : Sched) (t : Nat) : Sched :=
  let p := s.priority t
  let list := (s.table p).erase t
  { s with
    table := Function.update s.table p list
    group := if list = [] then Function.update s.group p false else s.group
    defunct := s.defunct.erase t }

/-- `rt_thread_startup` of a thread that `rt_thread_create` has made. -/
def create (s : Sched) (lowest t priority : Nat) : Sched :=
  let s' := { s with thread := Function.update s.thread t (some ⟨priority, .suspend⟩) }.insertThread t
  if s'.current = none then s' else s'.schedule lowest

/-- `rt_thread_suspend` of the running thread, and `rt_schedule`. -/
def block (s : Sched) (lowest t : Nat) : Sched :=
  ((s.removeThread t).setStat t .suspend).schedule lowest

/-- `rt_thread_resume`, and `rt_schedule`. -/
def wake (s : Sched) (lowest t : Nat) : Sched := (s.insertThread t).schedule lowest

/-- `rt_thread_yield`. -/
def yield (s : Sched) (lowest t : Nat) : Sched :=
  match s.thread t with
  | some ⟨p, .ready⟩ =>
    if 1 < (s.table p).length then
      { s with table := Function.update s.table p ((s.table p).erase t ++ [t]) }.schedule lowest
    else s
  | _ => s

/-- `rt_thread_delete`. -/
def delete (s : Sched) (t : Nat) : Sched :=
  match s.thread t with
  | some ⟨_, .close⟩ => s
  | _ =>
    let s' := (s.removeThread t).setStat t .close
    { s' with defunct := t :: s'.defunct }

/-- `rt_thread_exit`. -/
def exit (s : Sched) (lowest t : Nat) : Sched :=
  let s' := (s.removeThread t).setStat t .close
  { s' with defunct := t :: s'.defunct }.schedule lowest

/-- `rt_enter_critical`. -/
def enterCritical (s : Sched) : Sched :=
  { s with lockNest := int16 (s.lockNest + 1), suspends := s.suspends + 1 }

/-- `rt_exit_critical`. -/
def exitCritical (s : Sched) (lowest : Nat) : Sched :=
  let nest := int16 (s.lockNest - 1)
  let s' := { s with suspends := s.suspends - 1 }
  if nest ≤ 0 then
    if s.current = none then { s' with lockNest := 0 }
    else { s' with lockNest := 0 }.schedule lowest
  else { s' with lockNest := nest }

/-- `rt_system_scheduler_start`. -/
def start (s : Sched) (lowest : Nat) : Sched :=
  match s.highest lowest with
  | none => s
  | some p =>
    match s.table p with
    | [] => s
    | t :: _ => { s with current := some t }

/-- `OS_ThreadIsSchedulerRunning`, of the level as an `rt_uint16_t`. -/
def isRunning (s : Sched) : Bool := s.lockNest % 2 ^ 16 = 0

/-- One round of `rt_thread_idle_excute`. -/
def free (s : Sched) (t : Nat) (rest : List Nat) : Sched :=
  { s.setStat t .freed with defunct := rest }

end Sched

/-! ## The port -/

inductive ThreadEvent where
  | create (t priority : Nat)
  | block (t : Nat)
  | wake (t : Nat)
  | yield (t : Nat)
  /-- `OS_ThreadDelete`, of the caller for `NULL`. -/
  | delete (caller t : Nat)
  /-- The thread's function returns. -/
  | exit (t : Nat)
  | suspendScheduler
  | resumeScheduler
  | start
  | isRunning (answer : Bool)
  /-- The thread executes a statement, outside of the kernel. -/
  | statement (t : Nat)
  /-- The idle thread frees the stack and the record of the thread. -/
  | free (t : Nat)
  deriving DecidableEq

inductive ThreadStep (lowest : Nat) : Sched → ThreadEvent → Sched → Prop where
  | create {s : Sched} {t priority : Nat} (hnew : s.thread t = none) (hle : priority ≤ lowest) :
    ThreadStep lowest s (.create t priority) (s.create lowest t priority)
  | block {s : Sched} {t priority : Nat} (hcurrent : s.current = some t) (hidle : t ≠ idle)
    (ht : s.thread t = some ⟨priority, .ready⟩) :
    ThreadStep lowest s (.block t) (s.block lowest t)
  | wake {s : Sched} {t priority : Nat} (hstarted : s.current ≠ none)
    (ht : s.thread t = some ⟨priority, .suspend⟩) :
    ThreadStep lowest s (.wake t) (s.wake lowest t)
  | yield {s : Sched} {t : Nat} (hcurrent : s.current = some t) :
    ThreadStep lowest s (.yield t) (s.yield lowest t)
  | delete {s : Sched} {caller t : Nat} {thread : Thread} (hcurrent : s.current = some caller)
    (ht : s.thread t = some thread) (hidle : t ≠ idle) (hfreed : thread.stat ≠ .freed) :
    ThreadStep lowest s (.delete caller t) (s.delete t)
  | exit {s : Sched} {t : Nat} (hcurrent : s.current = some t) (hidle : t ≠ idle)
    (hlock : s.lockNest = 0) : ThreadStep lowest s (.exit t) (s.exit lowest t)
  | suspendScheduler {s : Sched} : ThreadStep lowest s .suspendScheduler s.enterCritical
  | resumeScheduler {s : Sched} :
    ThreadStep lowest s .resumeScheduler (s.exitCritical lowest)
  | start {s : Sched} (hcurrent : s.current = none) :
    ThreadStep lowest s .start (s.start lowest)
  | isRunning {s : Sched} : ThreadStep lowest s (.isRunning s.isRunning) s
  | statement {s : Sched} {t : Nat} (hcurrent : s.current = some t) :
    ThreadStep lowest s (.statement t) s
  | free {s : Sched} {t : Nat} {rest : List Nat} (hcurrent : s.current = some idle)
    (hdefunct : s.defunct = t :: rest) : ThreadStep lowest s (.free t) (s.free t rest)

/-- After `rt_system_scheduler_init` and `rt_thread_idle_init`. -/
def schedStart (lowest : Nat) : Sched where
  thread := Function.update (fun _ => none) idle (some ⟨lowest, .ready⟩)
  table := Function.update (fun _ => []) lowest [idle]
  group := Function.update (fun _ => false) lowest true
  current := none
  lockNest := 0
  suspends := 0
  defunct := []

/-! ## The lists of the scheduler -/

structure Sched.Core (lowest : Nat) (s : Sched) : Prop where
  table : ∀ p t, t ∈ s.table p ↔ s.thread t = some ⟨p, .ready⟩
  nodup : ∀ p, (s.table p).Nodup
  group : ∀ p, s.group p = true ↔ s.table p ≠ []
  le : ∀ t thread, s.thread t = some thread → thread.currentPriority ≤ lowest
  idle : s.thread idle = some ⟨lowest, .ready⟩
  defunctNodup : s.defunct.Nodup
  defunct : ∀ t, t ∈ s.defunct ↔ ∃ p, s.thread t = some ⟨p, .close⟩

def Stat.Alive (stat : Stat) : Prop := stat = .ready ∨ stat = .suspend

/-- The running thread is alive, and no ready thread is before it unless the scheduler is locked. -/
structure Sched.Runs (s : Sched) : Prop where
  there : ∀ c, s.current = some c → ∃ thread, s.thread c = some thread ∧ thread.stat.Alive
  first : ∀ c thread, s.current = some c → s.lockNest = 0 → s.thread c = some thread →
    thread.stat ≠ .suspend ∧ ∀ u q, s.thread u = some ⟨q, .ready⟩ → thread.currentPriority ≤ q

section

variable {lowest p t u : Nat} {s s' : Sched} {stat st : Stat} {thread : Thread} {e : ThreadEvent}

namespace Sched

theorem setStat_self (ht : s.thread t = some ⟨p, st⟩) :
    (s.setStat t stat).thread t = some ⟨p, stat⟩ := by
  rw [setStat, ht]
  exact Function.update_self ..

theorem setStat_of_ne (h : u ≠ t) : (s.setStat t stat).thread u = s.thread u :=
  Function.update_of_ne h ..

theorem priority_eq (ht : s.thread t = some ⟨p, st⟩) : s.priority t = p := by
  rw [priority, ht]
  rfl

/-- The first thread of the highest priority, of which no ready thread has a smaller number. -/
theorem Core.highest (h : s.Core lowest) : ∃ p t rest, s.highest lowest = some p ∧
    s.table p = t :: rest ∧ s.thread t = some ⟨p, .ready⟩ ∧
    ∀ u q, s.thread u = some ⟨q, .ready⟩ → p ≤ q := by
  have hidle : s.group lowest = true :=
    (h.group lowest).mpr (List.ne_nil_of_mem ((h.table lowest Rtt.idle).mpr h.idle))
  cases hp : s.highest lowest with
  | none =>
    have hno := List.find?_eq_none.mp hp lowest (List.mem_range.mpr (Nat.lt_succ_self _))
    exact absurd hidle hno
  | some p =>
    obtain ⟨hgroup, -, hbefore⟩ := List.find?_range_eq_some.mp hp
    cases htable : s.table p with
    | nil => exact absurd htable ((h.group p).mp hgroup)
    | cons t rest =>
      refine ⟨p, t, rest, rfl, htable, (h.table p t).mp (by rw [htable]; exact .head _), ?_⟩
      intro u q hu
      by_contra hlt
      have hno := hbefore q (Nat.lt_of_not_le hlt)
      have hyes := (h.group q).mpr (List.ne_nil_of_mem ((h.table q u).mpr hu))
      rw [hyes] at hno
      cases hno

theorem schedule_eq (h : s.Core lowest) (hlock : s.lockNest = 0) : ∃ p t,
    s.schedule lowest = { s with current := some t } ∧ s.thread t = some ⟨p, .ready⟩ ∧
    ∀ u q, s.thread u = some ⟨q, .ready⟩ → p ≤ q := by
  obtain ⟨p, t, rest, hp, htable, ht, hmin⟩ := h.highest
  refine ⟨p, t, ?_, ht, hmin⟩
  unfold schedule
  rw [if_pos hlock, hp]
  dsimp only
  rw [htable]

/-- What does not look at the running thread is as it was. -/
theorem Core.current (h : s.Core lowest) {current : Option Nat} :
    { s with current }.Core lowest :=
  ⟨h.table, h.nodup, h.group, h.le, h.idle, h.defunctNodup, h.defunct⟩

theorem Core.schedule (h : s.Core lowest)
    (hthere : s.lockNest ≠ 0 → ∀ c, s.current = some c →
      ∃ thread, s.thread c = some thread ∧ thread.stat.Alive) :
    (s.schedule lowest).Core lowest ∧ (s.schedule lowest).Runs := by
  by_cases hlock : s.lockNest = 0
  · obtain ⟨p, t, hs, ht, hmin⟩ := schedule_eq h hlock
    rw [hs]
    refine ⟨h.current, fun c hc => ?_, fun c thread hc _ hthread => ?_⟩
    · obtain rfl := Option.some.inj hc
      exact ⟨_, ht, .inl rfl⟩
    · obtain rfl := Option.some.inj hc
      obtain rfl := Option.some.inj (ht.symm.trans hthread)
      exact ⟨nofun, hmin⟩
  · have hs : s.schedule lowest = s := if_neg hlock
    rw [hs]
    exact ⟨h, hthere hlock, fun c thread _ hzero => absurd hzero hlock⟩

theorem Core.insertThread (h : s.Core lowest) (ht : s.thread t = some ⟨p, .suspend⟩) :
    (s.insertThread t).Core lowest := by
  have hp := priority_eq ht
  have hself : (s.insertThread t).thread t = some ⟨p, .ready⟩ := setStat_self ht
  have hother : ∀ {u}, u ≠ t → (s.insertThread t).thread u = s.thread u := fun hu =>
    setStat_of_ne hu
  have htable : (s.insertThread t).table = Function.update s.table p (s.table p ++ [t]) := by
    rw [Sched.insertThread, hp]
  have hgroup : (s.insertThread t).group = Function.update s.group p true := by
    rw [Sched.insertThread, hp]
  have hnot : ∀ q, t ∉ s.table q := fun q hin => by
    have hready := (h.table q t).mp hin
    rw [ht] at hready
    cases hready
  have hidle : Rtt.idle ≠ t := by
    rintro rfl
    rw [h.idle] at ht
    cases ht
  refine ⟨fun q u => ?_, fun q => ?_, fun q => ?_, fun u thread hu => ?_, ?_, h.defunctNodup,
    fun u => ?_⟩
  · rw [htable]
    by_cases hq : q = p
    · subst hq
      rw [Function.update_self, List.mem_append, List.mem_singleton]
      by_cases hu : u = t
      · subst hu
        exact ⟨fun _ => hself, fun _ => .inr rfl⟩
      · rw [hother hu, ← h.table q u]
        exact or_iff_left hu
    · rw [Function.update_of_ne hq]
      by_cases hu : u = t
      · subst hu
        rw [hself]
        exact ⟨fun hin => absurd hin (hnot q), fun heq => by
          injection heq with heq
          injection heq with heq
          exact absurd heq.symm hq⟩
      · rw [hother hu]
        exact h.table q u
  · rw [htable]
    by_cases hq : q = p
    · subst hq
      rw [Function.update_self]
      exact List.nodup_append.mpr ⟨h.nodup q, List.nodup_singleton t, fun u hu v hv heq =>
        hnot q (List.mem_singleton.mp hv ▸ heq ▸ hu)⟩
    · rw [Function.update_of_ne hq]
      exact h.nodup q
  · rw [htable, hgroup]
    by_cases hq : q = p
    · subst hq
      rw [Function.update_self, Function.update_self]
      simp
    · rw [Function.update_of_ne hq, Function.update_of_ne hq]
      exact h.group q
  · by_cases hut : u = t
    · subst hut
      obtain rfl := Option.some.inj (hself.symm.trans hu)
      exact show p ≤ lowest from h.le u _ ht
    · exact h.le u thread ((hother hut).symm.trans hu)
  · rw [hother hidle]
    exact h.idle
  · by_cases hu : u = t
    · subst hu
      rw [hself]
      refine ⟨fun hin => ?_, fun ⟨q, hq⟩ => by cases hq⟩
      obtain ⟨q, hq⟩ := (h.defunct u).mp hin
      rw [ht] at hq
      cases hq
    · rw [hother hu]
      exact h.defunct u

/-- A thread is no longer ready: it waits, or its memory is to be freed. -/
theorem Core.removeThread (h : s.Core lowest) (ht : s.thread t = some ⟨p, st⟩) (hidle : t ≠ Rtt.idle)
    (hready : stat ≠ .ready) {d : List Nat} (hnodup : d.Nodup)
    (hd : ∀ u, u ∈ d ↔ u ≠ t ∧ u ∈ s.defunct ∨ u = t ∧ stat = .close) :
    { (s.removeThread t).setStat t stat with defunct := d }.Core lowest := by
  have hp := priority_eq ht
  have hself : ((s.removeThread t).setStat t stat).thread t = some ⟨p, stat⟩ := setStat_self ht
  have hother : ∀ {u}, u ≠ t → ((s.removeThread t).setStat t stat).thread u = s.thread u :=
    fun hu => setStat_of_ne hu
  have htable : ((s.removeThread t).setStat t stat).table =
      Function.update s.table p ((s.table p).erase t) := by
    rw [setStat, Sched.removeThread, hp]
  have hgroup : ((s.removeThread t).setStat t stat).group =
      if (s.table p).erase t = [] then Function.update s.group p false else s.group := by
    rw [setStat, Sched.removeThread, hp]
  have hnot : ∀ q, q ≠ p → t ∉ s.table q := fun q hq hin => by
    have hthread := (h.table q t).mp hin
    rw [ht] at hthread
    injection hthread with hthread
    injection hthread with hthread
    exact hq hthread.symm
  refine ⟨fun q u => ?_, fun q => ?_, fun q => ?_, fun u thread hu => ?_, ?_, hnodup, fun u => ?_⟩
  · change u ∈ ((s.removeThread t).setStat t stat).table q ↔
      ((s.removeThread t).setStat t stat).thread u = _
    rw [htable]
    by_cases hu : u = t
    · subst hu
      rw [hself]
      refine ⟨fun hin => ?_, fun heq => by
        injection heq with heq; injection heq with _ heq; exact absurd heq hready⟩
      by_cases hq : q = p
      · subst hq
        rw [Function.update_self] at hin
        exact absurd rfl ((h.nodup q).mem_erase_iff.mp hin).1
      · rw [Function.update_of_ne hq] at hin
        exact absurd hin (hnot q hq)
    · rw [hother hu, ← h.table q u]
      by_cases hq : q = p
      · subst hq
        rw [Function.update_self]
        exact List.mem_erase_of_ne hu
      · rw [Function.update_of_ne hq]
  · change (((s.removeThread t).setStat t stat).table q).Nodup
    rw [htable]
    by_cases hq : q = p
    · subst hq
      rw [Function.update_self]
      exact (h.nodup q).erase t
    · rw [Function.update_of_ne hq]
      exact h.nodup q
  · change ((s.removeThread t).setStat t stat).group q = true ↔
      ((s.removeThread t).setStat t stat).table q ≠ []
    rw [htable, hgroup]
    by_cases hq : q = p
    · subst hq
      rw [Function.update_self]
      by_cases hnil : (s.table q).erase t = []
      · rw [if_pos hnil, Function.update_self, hnil]
        simp
      · rw [if_neg hnil, h.group q]
        exact ⟨fun _ => hnil, fun _ hq => hnil (by rw [hq]; rfl)⟩
    · rw [Function.update_of_ne hq]
      split
      · rw [Function.update_of_ne hq]
        exact h.group q
      · exact h.group q
  · by_cases hut : u = t
    · subst hut
      obtain rfl := Option.some.inj (hself.symm.trans hu)
      exact show p ≤ lowest from h.le u _ ht
    · exact h.le u thread ((hother hut).symm.trans hu)
  · exact (hother hidle.symm).trans h.idle
  · change u ∈ d ↔ ∃ q, ((s.removeThread t).setStat t stat).thread u = _
    rw [hd]
    by_cases hu : u = t
    · subst hu
      rw [hself]
      refine ⟨?_, fun ⟨q, hq⟩ => .inr ⟨rfl, by injection hq with hq; injection hq⟩⟩
      rintro (⟨hne, -⟩ | ⟨-, rfl⟩)
      · exact absurd rfl hne
      · exact ⟨p, rfl⟩
    · rw [hother hu, ← h.defunct u]
      exact ⟨fun hor => hor.elim And.right fun heq => absurd heq.1 hu, fun hin => .inl ⟨hu, hin⟩⟩

theorem there_setStat (h : ∃ thread, s.thread u = some thread ∧ thread.stat.Alive)
    (halive : u = t → stat.Alive) :
    ∃ thread, (s.setStat t stat).thread u = some thread ∧ thread.stat.Alive := by
  obtain ⟨⟨q, st⟩, hu, hstat⟩ := h
  by_cases hut : u = t
  · subst hut
    exact ⟨_, setStat_self hu, halive rfl⟩
  · exact ⟨_, (setStat_of_ne hut).trans hu, hstat⟩

theorem Core.block (h : s.Core lowest) (hr : s.Runs) (ht : s.thread t = some ⟨p, .ready⟩)
    (hidle : t ≠ Rtt.idle) : (s.block lowest t).Core lowest ∧ (s.block lowest t).Runs := by
  have hnot : t ∉ s.defunct := fun hin => by
    obtain ⟨q, hq⟩ := (h.defunct t).mp hin
    rw [ht] at hq
    cases hq
  have hready : Stat.suspend ≠ .ready := nofun
  have hcore := h.removeThread ht hidle hready (h.defunctNodup.erase t) fun u => by
    rw [h.defunctNodup.mem_erase_iff]
    exact ⟨.inl, fun hor => hor.elim id fun heq => nomatch heq.2⟩
  exact Core.schedule hcore fun _ c hc => there_setStat (hr.there c hc) fun _ => .inr rfl

theorem Core.wake (h : s.Core lowest) (hr : s.Runs) (ht : s.thread t = some ⟨p, .suspend⟩) :
    (s.wake lowest t).Core lowest ∧ (s.wake lowest t).Runs :=
  (h.insertThread ht).schedule fun _ c hc => there_setStat (hr.there c hc) fun _ => .inl rfl

/-- A deleted thread goes to the list of those whose memory is to be freed. -/
theorem Core.close (h : s.Core lowest) (ht : s.thread t = some ⟨p, st⟩) (hidle : t ≠ Rtt.idle) :
    { (s.removeThread t).setStat t .close with
      defunct := t :: ((s.removeThread t).setStat t .close).defunct }.Core lowest := by
  have hready : Stat.close ≠ .ready := nofun
  refine h.removeThread ht hidle hready ?_ fun u => ?_
  · exact List.nodup_cons.mpr ⟨fun hin => absurd rfl (h.defunctNodup.mem_erase_iff.mp hin).1,
      h.defunctNodup.erase t⟩
  · change u ∈ t :: s.defunct.erase t ↔ _
    rw [List.mem_cons, h.defunctNodup.mem_erase_iff]
    by_cases hu : u = t
    · simp [hu]
    · simp [hu]

theorem Core.exit (h : s.Core lowest) (hr : s.Runs) (hcurrent : s.current = some t)
    (hidle : t ≠ Rtt.idle) (hlock : s.lockNest = 0) :
    (s.exit lowest t).Core lowest ∧ (s.exit lowest t).Runs := by
  obtain ⟨⟨p, st⟩, ht, -⟩ := hr.there t hcurrent
  exact (h.close ht hidle).schedule fun hnot => absurd hlock hnot

theorem Core.delete (h : s.Core lowest) (hr : s.Runs) (ht : s.thread t = some thread)
    (hidle : t ≠ Rtt.idle) (hcurrent : s.current ≠ some t) :
    (s.delete t).Core lowest ∧ (s.delete t).Runs := by
  obtain ⟨p, st⟩ := thread
  unfold Sched.delete
  rw [ht]
  split
  · exact ⟨h, hr⟩
  · have hne : ∀ c, s.current = some c → c ≠ t := fun c hc heq => hcurrent (heq ▸ hc)
    refine ⟨h.close ht hidle, fun c hc => there_setStat (hr.there c hc) fun heq =>
      absurd heq (hne c hc), fun c thread hc hlock hthread => ?_⟩
    obtain ⟨hsuspend, hmin⟩ := hr.first c thread hc hlock
      ((setStat_of_ne (s := s.removeThread t) (hne c hc)).symm.trans hthread)
    refine ⟨hsuspend, fun u r hu => hmin u r ?_⟩
    by_cases hut : u = t
    · subst hut
      have hself : ((s.removeThread u).setStat u .close).thread u = some ⟨p, .close⟩ :=
        setStat_self ht
      cases hself.symm.trans hu
    · exact (setStat_of_ne hut).symm.trans hu

theorem Core.create (h : s.Core lowest) (hr : s.Runs) (hnew : s.thread t = none) (hle : p ≤ lowest) :
    (s.create lowest t p).Core lowest ∧ (s.create lowest t p).Runs := by
  have hother : ∀ {u}, u ≠ t → { s with
      thread := Function.update s.thread t (some ⟨p, .suspend⟩) }.thread u = s.thread u :=
    fun hu => Function.update_of_ne hu ..
  have hself : { s with thread := Function.update s.thread t (some ⟨p, .suspend⟩) }.thread t =
      some ⟨p, .suspend⟩ := Function.update_self ..
  have hadd : { s with thread := Function.update s.thread t (some ⟨p, .suspend⟩) }.Core lowest := by
    refine ⟨fun q u => ?_, h.nodup, h.group, fun u thread hu => ?_, ?_, h.defunctNodup, fun u => ?_⟩
    · by_cases hu : u = t
      · subst hu
        rw [hself]
        refine ⟨fun hin => ?_, nofun⟩
        rw [(h.table q u).mp hin] at hnew
        cases hnew
      · rw [hother hu]
        exact h.table q u
    · by_cases hut : u = t
      · subst hut
        obtain rfl := Option.some.inj (hself.symm.trans hu)
        exact hle
      · exact h.le u thread ((hother hut).symm.trans hu)
    · refine (hother ?_).trans h.idle
      rintro rfl
      rw [h.idle] at hnew
      cases hnew
    · by_cases hu : u = t
      · subst hu
        rw [hself]
        refine ⟨fun hin => ?_, fun ⟨q, hq⟩ => by cases hq⟩
        obtain ⟨q, hq⟩ := (h.defunct u).mp hin
        rw [hq] at hnew
        cases hnew
      · rw [hother hu]
        exact h.defunct u
  have hcore := hadd.insertThread hself
  unfold Sched.create
  dsimp only
  split
  · rename_i hnone
    refine ⟨hcore, fun c hc => ?_, fun c thread hc => ?_⟩
    · rw [hnone] at hc
      cases hc
    · rw [hnone] at hc
      cases hc
  · refine hcore.schedule fun _ c hc => there_setStat ?_ fun _ => .inl rfl
    obtain ⟨thread, hthread, hstat⟩ := hr.there c hc
    refine ⟨thread, (hother ?_).trans hthread, hstat⟩
    rintro rfl
    rw [hthread] at hnew
    cases hnew

theorem Core.yield (h : s.Core lowest) (hr : s.Runs) :
    (s.yield lowest t).Core lowest ∧ (s.yield lowest t).Runs := by
  unfold Sched.yield
  split
  · rename_i p ht
    split
    · have hin := (h.table p t).mpr ht
      have hperm : ((s.table p).erase t ++ [t]).Perm (s.table p) :=
        List.perm_append_singleton .. |>.trans (List.perm_cons_erase hin).symm
      refine Core.schedule ⟨fun q u => ?_, fun q => ?_, fun q => ?_, h.le, h.idle, h.defunctNodup,
        h.defunct⟩ fun _ => hr.there
      · by_cases hq : q = p
        · subst hq
          dsimp only
          rw [Function.update_self, hperm.mem_iff]
          exact h.table q u
        · dsimp only
          rw [Function.update_of_ne hq]
          exact h.table q u
      · by_cases hq : q = p
        · subst hq
          dsimp only
          rw [Function.update_self, hperm.nodup_iff]
          exact h.nodup q
        · dsimp only
          rw [Function.update_of_ne hq]
          exact h.nodup q
      · by_cases hq : q = p
        · subst hq
          dsimp only
          rw [Function.update_self, h.group q]
          exact ⟨fun _ => by simp, fun _ => List.ne_nil_of_mem hin⟩
        · dsimp only
          rw [Function.update_of_ne hq]
          exact h.group q
    · exact ⟨h, hr⟩
  · exact ⟨h, hr⟩

theorem Core.start (h : s.Core lowest) : (s.start lowest).Core lowest ∧ (s.start lowest).Runs := by
  obtain ⟨p, t, rest, hp, htable, ht, hmin⟩ := h.highest
  have hs : s.start lowest = { s with current := some t } := by
    unfold Sched.start
    rw [hp]
    dsimp only
    rw [htable]
  rw [hs]
  refine ⟨h.current, fun c hc => ?_, fun c thread hc _ hthread => ?_⟩
  · obtain rfl := Option.some.inj hc
    exact ⟨_, ht, .inl rfl⟩
  · obtain rfl := Option.some.inj hc
    obtain rfl := Option.some.inj (ht.symm.trans hthread)
    exact ⟨nofun, hmin⟩

theorem Core.free (h : s.Core lowest) (hr : s.Runs) {rest : List Nat}
    (hcurrent : s.current = some Rtt.idle) (hdefunct : s.defunct = t :: rest) :
    (s.free t rest).Core lowest ∧ (s.free t rest).Runs := by
  obtain ⟨p, ht⟩ := (h.defunct t).mp (by rw [hdefunct]; exact .head _)
  have hself : (s.free t rest).thread t = some ⟨p, .freed⟩ := setStat_self ht
  have hother : ∀ {u}, u ≠ t → (s.free t rest).thread u = s.thread u := fun hu => setStat_of_ne hu
  have hidle : Rtt.idle ≠ t := by
    rintro rfl
    cases h.idle.symm.trans ht
  have hnodup := h.defunctNodup
  rw [hdefunct] at hnodup
  obtain ⟨hnot, hrest⟩ := List.nodup_cons.mp hnodup
  have hready : ∀ u q, (s.free t rest).thread u = some ⟨q, .ready⟩ ↔
      s.thread u = some ⟨q, .ready⟩ := by
    intro u q
    by_cases hu : u = t
    · subst hu
      rw [hself, ht]
      exact ⟨nofun, nofun⟩
    · rw [hother hu]
  refine ⟨⟨fun q u => (h.table q u).trans (hready u q).symm, h.nodup, h.group, fun u thread hu => ?_,
    (hready _ _).mpr h.idle, hrest, fun u => ?_⟩, fun c hc => ?_, fun c thread hc hlock hthread => ?_⟩
  · by_cases hut : u = t
    · subst hut
      obtain rfl := Option.some.inj (hself.symm.trans hu)
      exact show p ≤ lowest from h.le u _ ht
    · exact h.le u thread ((hother hut).symm.trans hu)
  · change u ∈ rest ↔ _
    by_cases hu : u = t
    · subst hu
      rw [hself]
      exact ⟨fun hin => absurd hin hnot, fun ⟨q, hq⟩ => nomatch hq⟩
    · rw [hother hu, ← h.defunct u, hdefunct, List.mem_cons, or_iff_right hu]
  · obtain rfl := Option.some.inj (hcurrent.symm.trans hc)
    exact ⟨_, (hready _ _).mpr h.idle, .inl rfl⟩
  · obtain rfl := Option.some.inj (hcurrent.symm.trans hc)
    obtain ⟨hsuspend, hmin⟩ := hr.first _ thread hc hlock ((hother hidle).symm.trans hthread)
    exact ⟨hsuspend, fun u q hu => hmin u q ((hready u q).mp hu)⟩

end Sched

/-! ## Runs -/

/-- No thread deletes itself, and the calls that suspend the scheduler can be counted. -/
def ThreadSane (s : Sched) : ThreadEvent → Prop
  | .delete caller t => t ≠ caller
  | .suspendScheduler => s.suspends + 1 < 2 ^ 15
  | _ => True

structure Sched.Inv (lowest : Nat) (s : Sched) : Prop where
  core : s.Core lowest
  runs : s.Runs
  nest : s.lockNest = s.suspends
  lt : s.suspends < 2 ^ 15

theorem int16_of_lt {n : Int} (hlow : -2 ^ 15 ≤ n) (hhigh : n < 2 ^ 15) : int16 n = n := by
  unfold int16
  omega

theorem Sched.Inv.enterCritical (h : s.Inv lowest) (hlt : s.suspends + 1 < 2 ^ 15) :
    s.enterCritical.Inv lowest := by
  have hnest := h.nest
  have hsucc : int16 (s.lockNest + 1) = (s.suspends + 1 : Nat) := by
    rw [hnest, int16_of_lt (by omega) (by omega)]
    rfl
  refine ⟨⟨h.core.table, h.core.nodup, h.core.group, h.core.le, h.core.idle, h.core.defunctNodup,
    h.core.defunct⟩, ⟨h.runs.there, fun _ _ _ hzero => ?_⟩, hsucc, hlt⟩
  change int16 (s.lockNest + 1) = 0 at hzero
  rw [hsucc] at hzero
  omega

theorem Sched.schedule_nest : (s.schedule lowest).lockNest = s.lockNest ∧
    (s.schedule lowest).suspends = s.suspends := by
  unfold Sched.schedule
  split
  · split
    · exact ⟨rfl, rfl⟩
    · split <;> exact ⟨rfl, rfl⟩
  · exact ⟨rfl, rfl⟩

theorem Sched.Inv.exitCritical (h : s.Inv lowest) : (s.exitCritical lowest).Inv lowest := by
  obtain ⟨hcore, hr, hnest, hlt⟩ := h
  have hpred : int16 (s.lockNest - 1) = s.lockNest - 1 := int16_of_lt (by omega) (by omega)
  have hopen : ∀ {n}, ({ s with lockNest := n, suspends := s.suspends - 1 } : Sched).Core lowest :=
    ⟨hcore.table, hcore.nodup, hcore.group, hcore.le, hcore.idle, hcore.defunctNodup, hcore.defunct⟩
  simp only [Sched.exitCritical, hpred]
  split
  · rename_i hle
    have hzero : s.suspends - 1 = 0 := by omega
    split
    · rename_i hnone
      refine ⟨hopen, ⟨hr.there, fun c _ hc => ?_⟩, by rw [hzero]; rfl,
        by rw [hzero]; exact Nat.two_pow_pos 15⟩
      cases hnone.symm.trans hc
    · obtain ⟨hcore', hr'⟩ := Sched.Core.schedule (hopen (n := 0)) fun hnot => absurd rfl hnot
      refine ⟨hcore', hr', ?_, ?_⟩
      · rw [Sched.schedule_nest.1, Sched.schedule_nest.2, hzero]
        rfl
      · rw [Sched.schedule_nest.2]
        exact Nat.lt_of_le_of_lt (Nat.sub_le ..) hlt
  · rename_i hpos
    exact ⟨hopen, ⟨hr.there, fun _ _ _ hzero =>
      absurd hzero (show s.lockNest - 1 ≠ 0 by omega)⟩, by dsimp only; omega,
      Nat.lt_of_le_of_lt (Nat.sub_le ..) hlt⟩

theorem Sched.Inv.of_schedule (hnest : s.lockNest = s.suspends) (hlt : s.suspends < 2 ^ 15)
    (h : (s.schedule lowest).Core lowest ∧ (s.schedule lowest).Runs) :
    (s.schedule lowest).Inv lowest := by
  refine ⟨h.1, h.2, ?_, ?_⟩
  · rw [Sched.schedule_nest.1, Sched.schedule_nest.2]
    exact hnest
  · rw [Sched.schedule_nest.2]
    exact hlt

theorem ThreadStep.inv (h : Trans.Guarded (ThreadStep lowest) ThreadSane s e s')
    (hi : s.Inv lowest) : s'.Inv lowest := by
  obtain ⟨hsane, h⟩ := h
  obtain ⟨hcore, hr, hnest, hlt⟩ := hi
  cases h with
  | create hnew hle =>
    have hcreate := hcore.create hr hnew hle
    unfold Sched.create at hcreate ⊢
    dsimp only at hcreate ⊢
    split at hcreate
    · rename_i hnone
      rw [if_pos hnone]
      exact ⟨hcreate.1, hcreate.2, hnest, hlt⟩
    · rename_i hsome
      rw [if_neg hsome]
      exact .of_schedule hnest hlt hcreate
  | block hcurrent hidle ht => exact .of_schedule hnest hlt (hcore.block hr ht hidle)
  | wake hstarted ht => exact .of_schedule hnest hlt (hcore.wake hr ht)
  | @yield t hcurrent =>
    have hyield := hcore.yield (t := t) hr
    unfold Sched.yield at hyield ⊢
    split at hyield
    · split at hyield
      · rename_i hlen
        rw [if_pos hlen]
        exact .of_schedule hnest hlt hyield
      · rename_i hlen
        rw [if_neg hlen]
        exact ⟨hcore, hr, hnest, hlt⟩
    · exact ⟨hcore, hr, hnest, hlt⟩
  | @delete caller t thread hcurrent ht hidle hfreed =>
    have hne : s.current ≠ some t := fun heq =>
      absurd (Option.some.inj (heq.symm.trans hcurrent)) (show t ≠ caller from hsane)
    obtain ⟨hcore', hr'⟩ := hcore.delete hr ht hidle hne
    have hsame : (s.delete t).lockNest = s.lockNest ∧ (s.delete t).suspends = s.suspends := by
      unfold Sched.delete
      split <;> exact ⟨rfl, rfl⟩
    exact ⟨hcore', hr', by rw [hsame.1, hsame.2, hnest], by rw [hsame.2]; exact hlt⟩
  | exit hcurrent hidle hlock => exact .of_schedule hnest hlt (hcore.exit hr hcurrent hidle hlock)
  | suspendScheduler => exact Sched.Inv.enterCritical ⟨hcore, hr, hnest, hlt⟩ hsane
  | resumeScheduler => exact Sched.Inv.exitCritical ⟨hcore, hr, hnest, hlt⟩
  | start hcurrent =>
    obtain ⟨hcore', hr'⟩ := hcore.start
    have hsame : (s.start lowest).lockNest = s.lockNest ∧
        (s.start lowest).suspends = s.suspends := by
      unfold Sched.start
      split
      · exact ⟨rfl, rfl⟩
      · split <;> exact ⟨rfl, rfl⟩
    exact ⟨hcore', hr', by rw [hsame.1, hsame.2, hnest], by rw [hsame.2]; exact hlt⟩
  | isRunning => exact ⟨hcore, hr, hnest, hlt⟩
  | statement => exact ⟨hcore, hr, hnest, hlt⟩
  | free hcurrent hdefunct =>
    obtain ⟨hcore', hr'⟩ := hcore.free hr hcurrent hdefunct
    exact ⟨hcore', hr', hnest, hlt⟩

theorem inv_start (lowest : Nat) : (schedStart lowest).Inv lowest := by
  have hself : (schedStart lowest).thread idle = some ⟨lowest, .ready⟩ := by simp [schedStart]
  have hother : ∀ {t}, t ≠ idle → (schedStart lowest).thread t = none := fun ht => by
    simp [schedStart, ht]
  have htable : (schedStart lowest).table lowest = [idle] := by simp [schedStart]
  have hempty : ∀ {p}, p ≠ lowest → (schedStart lowest).table p = [] := fun hp => by
    simp [schedStart, hp]
  refine ⟨⟨fun p t => ?_, fun p => ?_, fun p => ?_, fun t thread ht => ?_, hself, .nil, fun t => ?_⟩,
    ⟨nofun, nofun⟩, rfl, Nat.two_pow_pos 15⟩
  · by_cases ht : t = idle
    · subst ht
      rw [hself]
      by_cases hp : p = lowest
      · subst hp
        rw [htable]
        exact ⟨fun _ => rfl, fun _ => .head _⟩
      · rw [hempty hp]
        exact ⟨nofun, fun heq => absurd (by cases heq; rfl) hp⟩
    · rw [hother ht]
      refine ⟨fun hin => ?_, nofun⟩
      by_cases hp : p = lowest
      · subst hp
        rw [htable] at hin
        exact absurd (List.mem_singleton.mp hin) ht
      · rw [hempty hp] at hin
        cases hin
  · by_cases hp : p = lowest
    · subst hp
      rw [htable]
      exact List.nodup_singleton _
    · rw [hempty hp]
      exact .nil
  · by_cases hp : p = lowest
    · subst hp
      rw [htable]
      simp [schedStart]
    · rw [hempty hp]
      simp [schedStart, hp]
  · by_cases hidle : t = idle
    · subst hidle
      obtain rfl := Option.some.inj (hself.symm.trans ht)
      exact Nat.le_refl _
    · cases (hother hidle).symm.trans ht
  · refine ⟨nofun, fun ⟨p, hp⟩ => ?_⟩
    by_cases hidle : t = idle
    · subst hidle
      cases hself.symm.trans hp
    · cases (hother hidle).symm.trans hp

/-- Another thread of a greater `OS_Priority` is ready. -/
def Sched.Outranked (s : Sched) (t : Nat) : Prop :=
  ∃ u p, u ≠ idle ∧ s.thread u = some ⟨p, .ready⟩ ∧ s.priority t < p

/-- The threads that are ready have one `OS_Priority`. -/
def Sched.OnePriority (s : Sched) : Prop :=
  ∀ u v p q, u ≠ idle → v ≠ idle → s.thread u = some ⟨p, .ready⟩ → s.thread v = some ⟨q, .ready⟩ →
    p = q

/-- The running thread is one of the highest kernel priority, so that all are of its priority is
what it takes that none outranks it. -/
theorem Sched.Inv.outranked_iff (h : s.Inv lowest) (hcurrent : s.current = some t)
    (hlock : s.suspends = 0) (hidle : t ≠ idle) : ¬s.Outranked t ↔ s.OnePriority := by
  have hzero : s.lockNest = 0 := by rw [h.nest, hlock]; rfl
  obtain ⟨⟨p, st⟩, ht, halive⟩ := h.runs.there t hcurrent
  obtain ⟨hsuspend, hmin⟩ := h.runs.first t _ hcurrent hzero ht
  have hready : s.thread t = some ⟨p, .ready⟩ := by
    rcases halive with heq | heq
    · cases heq
      exact ht
    · exact absurd heq hsuspend
  have hp : s.priority t = p := Sched.priority_eq ht
  constructor
  · intro hnot u v q r hu hv hqu hrv
    have hle : ∀ w k, w ≠ idle → s.thread w = some ⟨k, .ready⟩ → k = p := by
      intro w k hw hk
      refine Nat.le_antisymm (Nat.le_of_not_lt fun hlt => hnot ⟨w, k, hw, hk, ?_⟩) (hmin w k hk)
      rw [hp]
      exact hlt
    rw [hle u q hu hqu, hle v r hv hrv]
  · rintro hone ⟨u, q, hu, hq, hlt⟩
    rw [hp, hone t u p q hidle hu hready hq] at hlt
    exact Nat.lt_irrefl _ hlt

theorem Sched.Inv.idle_not_outranked (h : s.Inv lowest) : ¬s.Outranked idle := by
  rintro ⟨u, q, -, hq, hlt⟩
  rw [Sched.priority_eq h.core.idle] at hlt
  exact absurd (h.core.le u _ hq) (Nat.not_le_of_lt hlt)

/-- How often the thread's memory has been freed, as its record says. -/
def Sched.freedCount (s : Sched) (t : Nat) : Nat :=
  match s.thread t with
  | some ⟨_, .freed⟩ => 1
  | _ => 0

namespace Sched

theorem schedule_thread : (s.schedule lowest).thread = s.thread := by
  unfold schedule
  split
  · split
    · rfl
    · split <;> rfl
  · rfl

theorem freedCount_congr (h : s'.thread t = s.thread t) : s.freedCount t = s'.freedCount t := by
  rw [freedCount, freedCount, h]

theorem freedCount_of_ne (h : s.thread t = some thread) (hne : thread.stat ≠ .freed) :
    s.freedCount t = 0 := by
  obtain ⟨p, stat⟩ := thread
  rw [freedCount, h]
  cases stat with
  | freed => exact absurd rfl hne
  | _ => rfl

theorem freedCount_setStat (ht : s.thread t = some thread) (hne : thread.stat ≠ .freed)
    (hstat : stat ≠ .freed) (hs : s'.thread = (s.setStat t stat).thread) :
    s.freedCount u = s'.freedCount u := by
  by_cases hu : u = t
  · subst hu
    rw [freedCount_of_ne ht hne, freedCount_of_ne ((congrFun hs u).trans (setStat_self ht)) hstat]
  · exact freedCount_congr ((congrFun hs u).trans (setStat_of_ne hu))

end Sched

/-- Only the idle thread's step frees a thread. -/
theorem ThreadStep.freed (h : ThreadStep lowest s e s') (hi : s.Inv lowest) (t : Nat) :
    s.freedCount t + (if e = .free t then 1 else 0) = s'.freedCount t := by
  obtain ⟨hcore, hr, -, -⟩ := hi
  have hsuspend : Stat.suspend ≠ .freed := nofun
  have hclose : Stat.close ≠ .freed := nofun
  have hready : Stat.ready ≠ .freed := nofun
  cases h with
  | @create u p hnew hle =>
    rw [if_neg nofun, Nat.add_zero]
    have hthread : (s.create lowest u p).thread = ({ s with
        thread := Function.update s.thread u (some ⟨p, .suspend⟩) }.insertThread u).thread := by
      unfold Sched.create
      dsimp only
      split
      · rfl
      · exact Sched.schedule_thread
    have hself : ({ s with thread := Function.update s.thread u (some ⟨p, .suspend⟩) }.insertThread
        u).thread u = some ⟨p, .ready⟩ :=
      Sched.setStat_self (Function.update_self ..)
    by_cases htu : t = u
    · subst htu
      rw [Sched.freedCount_of_ne ((congrFun hthread t).trans hself) nofun, Sched.freedCount, hnew]
    · refine Sched.freedCount_congr ((congrFun hthread t).trans ?_)
      exact (Sched.setStat_of_ne htu).trans (Function.update_of_ne htu ..)
  | block hcurrent hidle ht =>
    rw [if_neg nofun, Nat.add_zero]
    exact Sched.freedCount_setStat ht hready hsuspend Sched.schedule_thread
  | wake hstarted ht =>
    rw [if_neg nofun, Nat.add_zero]
    exact Sched.freedCount_setStat ht hsuspend hready Sched.schedule_thread
  | yield hcurrent =>
    rw [if_neg nofun, Nat.add_zero]
    unfold Sched.yield
    split
    · split
      · exact Sched.freedCount_congr (congrFun Sched.schedule_thread t)
      · rfl
    · rfl
  | delete hcurrent ht hidle hfreed =>
    rw [if_neg nofun, Nat.add_zero]
    unfold Sched.delete
    split
    · rfl
    · exact Sched.freedCount_setStat ht hfreed hclose rfl
  | @exit u hcurrent hidle hlock =>
    obtain ⟨thread, ht, halive⟩ := hr.there u hcurrent
    have hne : thread.stat ≠ .freed := fun heq => by
      rcases halive with h | h <;> rw [heq] at h <;> cases h
    rw [if_neg nofun, Nat.add_zero]
    exact Sched.freedCount_setStat ht hne hclose Sched.schedule_thread
  | suspendScheduler => rfl
  | resumeScheduler =>
    rw [if_neg nofun, Nat.add_zero]
    unfold Sched.exitCritical
    dsimp only
    split
    · split
      · rfl
      · exact Sched.freedCount_congr (congrFun Sched.schedule_thread t)
    · rfl
  | start hcurrent =>
    rw [if_neg nofun, Nat.add_zero]
    unfold Sched.start
    split
    · rfl
    · split <;> rfl
  | isRunning => rfl
  | statement => rfl
  | @free u rest hcurrent hdefunct =>
    obtain ⟨p, hu⟩ := (hcore.defunct u).mp (by rw [hdefunct]; exact .head _)
    by_cases htu : t = u
    · subst htu
      have hself : (s.free t rest).thread t = some ⟨p, .freed⟩ := Sched.setStat_self hu
      rw [if_pos rfl, Sched.freedCount_of_ne hu hclose, Sched.freedCount, hself]
    · rw [if_neg fun heq => htu (by injection heq with heq; exact heq.symm), Nat.add_zero]
      exact Sched.freedCount_congr (Sched.setStat_of_ne htu)

theorem count_free {es : List ThreadEvent}
    (h : Trans.Run (Trans.Guarded (ThreadStep lowest) ThreadSane) s es s') (hi : s.Inv lowest)
    (t : Nat) : s.freedCount t + es.count (.free t) = s'.freedCount t := by
  induction h with
  | nil s => rfl
  | @cons s s₁ s' e es hs hrest ih =>
    rw [List.count_cons, ← ih (ThreadStep.inv hs hi), ← hs.2.freed hi t]
    by_cases he : e = .free t
    · subst he
      simp
      omega
    · simp [he]

/-! ## The port -/

/-- The thread that makes the call. -/
def ThreadEvent.by : ThreadEvent → Option Nat
  | .block t | .yield t | .exit t | .statement t => some t
  | .delete caller _ => some caller
  | _ => none

/-- Where the port does what `os_thread.h` says: threads that are ready together have one
`OS_Priority`, no thread deletes itself, and the scheduler has been started when a thread asks
whether it runs. -/
def ThreadOk (s : Sched) (e : ThreadEvent) : Prop :=
  ThreadSane s e ∧ match e with
    | .statement t => s.suspends = 0 → t ≠ idle → s.OnePriority
    | .isRunning _ => s.current ≠ none
    | _ => True

/-- What `os_thread.h` says of a step. -/
structure ThreadHolds (s : Sched) (e : ThreadEvent) : Prop where
  highest : ∀ t, e = .statement t → s.suspends = 0 → ¬s.Outranked t
  ended : ∀ t p, e.by = some t → s.thread t ≠ some ⟨p, .close⟩ ∧ s.thread t ≠ some ⟨p, .freed⟩
  free : ∀ t, e = .free t → s.current ≠ some t ∧ s.freedCount t = 0
  running : ∀ answer, e = .isRunning answer → (answer = true ↔ s.current ≠ none ∧ s.suspends = 0)

theorem Sched.Inv.isRunning_iff (h : s.Inv lowest) : s.isRunning = true ↔ s.suspends = 0 := by
  have hnest := h.nest
  have hlt := h.lt
  rw [Sched.isRunning, decide_eq_true_iff, hnest]
  omega

theorem ThreadStep.by_current (h : ThreadStep lowest s e s') (he : e.by = some t) :
    s.current = some t := by
  cases h with
  | block hcurrent => exact hcurrent.trans he
  | yield hcurrent => exact hcurrent.trans he
  | delete hcurrent => exact hcurrent.trans he
  | exit hcurrent => exact hcurrent.trans he
  | statement hcurrent => exact hcurrent.trans he
  | _ => cases he

theorem ThreadStep.holds (h : Trans.Guarded (ThreadStep lowest) ThreadOk s e s')
    (hi : s.Inv lowest) : ThreadHolds s e := by
  obtain ⟨⟨-, hok⟩, h⟩ := h
  refine ⟨fun t he hlock => ?_, fun t p he => ?_, fun t he => ?_, fun answer he => ?_⟩
  · subst he
    by_cases hidle : t = idle
    · subst hidle
      exact hi.idle_not_outranked
    · have hcurrent := h.by_current rfl
      exact (hi.outranked_iff hcurrent hlock hidle).mpr (hok hlock hidle)
  · obtain ⟨thread, ht, halive⟩ := hi.runs.there t (h.by_current he)
    rw [ht]
    constructor <;> rintro heq <;> cases heq <;> rcases halive with heq | heq <;> cases heq
  · subst he
    cases h with
    | free hcurrent hdefunct =>
      obtain ⟨p, ht⟩ := (hi.core.defunct t).mp (by rw [hdefunct]; exact .head _)
      refine ⟨fun heq => ?_, Sched.freedCount_of_ne ht nofun⟩
      obtain rfl := Option.some.inj (hcurrent.symm.trans heq)
      cases hi.core.idle.symm.trans ht
  · subst he
    have hstarted : s.current ≠ none := hok
    cases h with
    | isRunning =>
      rw [hi.isRunning_iff]
      exact (and_iff_right hstarted).symm

/-- In runs that meet the condition every step is as `os_thread.h` says. In those where no thread
deletes itself each thread's memory is freed once at most, and a deleted one's waits for it; a
thread that runs is outranked by none just when the ready threads have one priority; and the
scheduler is said to run just when it is not suspended, be it started or not. -/
theorem threads_keep_contract (lowest : Nat) :
    (∀ es s e s', Trans.Run (Trans.Guarded (ThreadStep lowest) ThreadOk) (schedStart lowest) es s →
      Trans.Guarded (ThreadStep lowest) ThreadOk s e s' → ThreadHolds s e) ∧
    ∀ es s, Trans.Run (Trans.Guarded (ThreadStep lowest) ThreadSane) (schedStart lowest) es s →
      (∀ t, es.count (.free t) = s.freedCount t) ∧
      (∀ t p, s.thread t = some ⟨p, .close⟩ → t ∈ s.defunct) ∧
      (∀ t, s.current = some t → s.suspends = 0 → t ≠ idle →
        (¬s.Outranked t ↔ s.OnePriority)) ∧
      (s.isRunning = true ↔ s.suspends = 0) := by
  constructor
  · intro es s e s' hrun hstep
    have hi : s.Inv lowest := hrun.invariant (I := Sched.Inv lowest) (inv_start lowest)
      fun _ _ _ hi hs => ThreadStep.inv ⟨hs.1.1, hs.2⟩ hi
    exact ThreadStep.holds hstep hi
  · intro es s hrun
    have hi : s.Inv lowest := hrun.invariant (I := Sched.Inv lowest) (inv_start lowest)
      fun _ _ _ hi hs => ThreadStep.inv hs hi
    refine ⟨fun t => ?_, fun t p ht => (hi.core.defunct t).mpr ⟨p, ht⟩,
      fun t hcurrent hlock hidle => hi.outranked_iff hcurrent hlock hidle, hi.isRunning_iff⟩
    have hnone : (schedStart lowest).freedCount t = 0 := by
      by_cases ht : t = idle
      · subst ht
        exact Sched.freedCount_of_ne (inv_start lowest).core.idle nofun
      · simp [Sched.freedCount, schedStart, ht]
    rw [← count_free hrun (inv_start lowest) t, hnone, Nat.zero_add]

end

/-- Two threads of `OS_PRIORITY_NORMAL`, of which the first has yielded to the second. -/
def twoReady : Sched := ((((schedStart 7).create 7 1 3).create 7 2 3).start 7).yield 7 1

theorem twoReady_onePriority : twoReady.OnePriority := by
  have hall : ∀ u p, u ≠ idle → twoReady.thread u = some ⟨p, .ready⟩ → p = 3 := by
    intro u p hu h
    match u with
    | 0 => exact absurd rfl hu
    | 1 => exact (congrArg Thread.currentPriority (Option.some.inj h)).symm
    | 2 => exact (congrArg Thread.currentPriority (Option.some.inj h)).symm
    | _ + 3 => cases h
  intro u v p q hu hv hp hq
  exact (hall u p hu hp).trans (hall v q hv hq).symm

/-- The second thread executes a statement while the first is ready, deletes it and blocks; then the
idle thread frees it, and the scheduler is said to run. -/
theorem threads_keep_contract_one : ∃ s,
    Trans.Run (Trans.Guarded (ThreadStep 7) ThreadOk) (schedStart 7)
      [.create 1 3, .create 2 3, .start, .yield 1] twoReady ∧
    ThreadHolds twoReady (.statement 2) ∧
    Trans.Run (Trans.Guarded (ThreadStep 7) ThreadOk) twoReady [.statement 2, .delete 2 1, .block 2]
      s ∧
    ThreadHolds s (.free 1) ∧ ThreadHolds s (.isRunning true) := by
  have hrun : Trans.Run (Trans.Guarded (ThreadStep 7) ThreadOk) (schedStart 7)
      [.create 1 3, .create 2 3, .start, .yield 1] twoReady :=
    .cons ⟨⟨trivial, trivial⟩, .create rfl (by decide)⟩
      (.cons ⟨⟨trivial, trivial⟩, .create rfl (by decide)⟩
        (.cons ⟨⟨trivial, trivial⟩, .start rfl⟩ (.cons ⟨⟨trivial, trivial⟩, .yield rfl⟩ (.nil _))))
  have hstatement : Trans.Guarded (ThreadStep 7) ThreadOk twoReady (.statement 2) twoReady :=
    ⟨⟨trivial, fun _ _ => twoReady_onePriority⟩, .statement rfl⟩
  have hrest : Trans.Run (Trans.Guarded (ThreadStep 7) ThreadOk) twoReady
      [.statement 2, .delete 2 1, .block 2] ((twoReady.delete 1).block 7 2) :=
    .cons hstatement (.cons ⟨⟨show 1 ≠ 2 by decide, trivial⟩,
      .delete rfl (show _ = some ⟨3, .ready⟩ from rfl) (by decide) nofun⟩
        (.cons ⟨⟨trivial, trivial⟩, @ThreadStep.block 7 _ 2 3 rfl (by decide) rfl⟩ (.nil _)))
  have hboth := hrun.append hrest
  exact ⟨_, hrun, (threads_keep_contract 7).1 _ _ _ _ hrun hstatement, hrest,
    (threads_keep_contract 7).1 _ _ _ _ hboth ⟨⟨trivial, trivial⟩, .free rfl rfl⟩,
    (threads_keep_contract 7).1 _ _ _ _ hboth ⟨⟨trivial, by decide⟩, .isRunning⟩⟩

/-- A thread of `OS_PRIORITY_LOW` runs while one of `OS_PRIORITY_HIGH` is ready, one that has deleted
itself goes on, and a scheduler that has not been started is said to run. -/
theorem low_before_high :
    (∃ s, Trans.Run (ThreadStep 7) (schedStart 7) [.create 1 1, .create 2 5, .start] s ∧
      ThreadStep 7 s (.statement 1) s ∧ s.suspends = 0 ∧ s.Outranked 1) ∧
    (∃ s, Trans.Run (ThreadStep 7) (schedStart 7) [.create 1 3, .start, .delete 1 1] s ∧
      ThreadStep 7 s (.statement 1) s ∧ s.thread 1 = some ⟨3, .close⟩) ∧
    ThreadStep 7 (schedStart 7) (.isRunning true) (schedStart 7) ∧
      (schedStart 7).current = none := by
  refine ⟨⟨(((schedStart 7).create 7 1 1).create 7 2 5).start 7, ?_, .statement (by decide), rfl,
    2, 5, by decide, by decide, by decide⟩,
    ⟨((((schedStart 7).create 7 1 3).start 7).delete 1), ?_, .statement (by decide), by decide⟩,
    .isRunning, rfl⟩
  · exact .cons (.create rfl (by decide)) (.cons (.create (by decide) (by decide))
      (.cons (.start (by decide)) (.nil _)))
  · exact .cons (.create rfl (by decide)) (.cons (.start (by decide))
      (.cons (.delete (by decide) (show _ = some ⟨3, .ready⟩ by decide) (by decide) nofun) (.nil _)))

end Rtt
end XR806

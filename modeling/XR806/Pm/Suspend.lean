import Mathlib.Logic.Function.Basic
import Mathlib.Data.List.Nodup
import Mathlib.Tactic.Common

/-!
# XR806.Pm.Suspend

`pm.c`: the device lists, registration, and `suspend_devices_and_enter`.

A device has one list node for each `PmOp`. `devs op` is `dpm_list` or `dpm_late_early_list`,
`moved op` is `dpm_suspended_list` or `dpm_noirq_list`; `list_move` takes the head of one to the
head of the other. What the callbacks, the platform operations and the pending wakeups answer is
the environment `SuspendEnv`; every call is recorded in `events`.

* `Bracketed`: what a cycle owes its caller (lists restored, resumes undo suspends, no `enter`
  behind a failed device).
* `UnmaskedStop`: the one way to break it. `dpm_suspend_noirq` also stops at a device that returns
  0 with `PRIMASK` clear, and reports that stop as success.
* `suspendDevicesAndEnter_bracketed_iff`: a cycle is bracketed exactly when it does not run into
  that stop.
-/

namespace XR806
namespace Pm

inductive SuspendState where
  | on
  | sleep
  | standby
  | hibernation
  deriving DecidableEq

def SuspendState.toNat : SuspendState → Nat
  | .on => 0
  | .sleep => 1
  | .standby => 2
  | .hibernation => 3

inductive TestLevel where
  | none
  | core
  | platform
  | devices
  deriving DecidableEq

/-- `PM_OP_NORMAL`, `PM_OP_NOIRQ`. -/
inductive PmOp where
  | normal
  | noirq
  deriving DecidableEq

def pmWakeupSrcWlan : Int := 0x20000

inductive Event (D : Type) where
  | suspend (op : PmOp) (dev : D)
  | resume (op : PmOp) (dev : D)
  | begin
  | prepare
  | prepareLate
  | enter
  | wake
  | finish
  | «end»
  | disableIrqs
  | enableIrqs
  | suspendScheduler
  | resumeScheduler
  | setEvent (event : Int)
  deriving DecidableEq

structure SuspendStats (D : Type) where
  success : Int
  fail : Int
  failedSuspend : PmOp → Int
  failedResume : PmOp → Int
  failedDev : Option D
  lastFailedStep : TestLevel

structure DpmState (D : Type) where
  devs : PmOp → List D
  moved : PmOp → List D
  /-- How often `check_wakeup_irqs` has run. -/
  checks : Nat
  stats : SuspendStats D
  events : List (Event D)

/-- The answers a cycle gets. `none` is a platform operation that is `NULL`. -/
structure SuspendEnv (D : Type) where
  suspend : PmOp → D → Int
  resume : PmOp → D → Int
  /-- `PRIMASK` is still set when the device's `suspend_noirq` returns. -/
  irqFlags : D → Bool
  wakeup : Nat → Int
  begin : Option Int
  prepare : Option Int
  prepareLate : Bool
  wake : Bool
  finish : Bool
  «end» : Bool
  pmTestLevel : TestLevel
  userSelPowerMode : SuspendState
  pmDebug : Bool

variable {D : Type}

namespace DpmState

def emit (s : DpmState D) (e : Event D) : DpmState D := { s with events := s.events ++ [e] }

def emitIf (s : DpmState D) (b : Bool) (e : Event D) : DpmState D := if b then s.emit e else s

/-- `list_move` of the head of `devs op`, which leaves `rest`. -/
def suspended (s : DpmState D) (op : PmOp) (dev : D) (rest : List D) : DpmState D :=
  { s with
    devs := Function.update s.devs op rest
    moved := Function.update s.moved op (dev :: s.moved op) }

/-- `list_move` of the head of `moved op`, which leaves `rest`. -/
def resumed (s : DpmState D) (op : PmOp) (dev : D) (rest : List D) : DpmState D :=
  { s with
    devs := Function.update s.devs op (dev :: s.devs op)
    moved := Function.update s.moved op rest }

/-- The `if (error)` block after the loops of `dpm_suspend_noirq` and `dpm_suspend`. -/
def suspendFailed (s : DpmState D) (op : PmOp) (dev : D) : DpmState D :=
  { s with
    stats := { s.stats with
      failedSuspend := Function.update s.stats.failedSuspend op (s.stats.failedSuspend op + 1)
      failedDev := some dev
      lastFailedStep := .devices } }

def resumeFailed (s : DpmState D) (op : PmOp) : DpmState D :=
  { s with
    stats := { s.stats with
      failedResume := Function.update s.stats.failedResume op (s.stats.failedResume op + 1) } }

def countFail (s : DpmState D) : DpmState D :=
  { s with stats := { s.stats with fail := s.stats.fail + 1 } }

def countSuccess (s : DpmState D) : DpmState D :=
  { s with stats := { s.stats with success := s.stats.success + 1 } }

end DpmState

/-! ## Registration -/

/-- Which callbacks a driver has, and its latencies. -/
structure Driver where
  suspend : Bool
  resume : Bool
  suspendNoirq : Bool
  resumeNoirq : Bool
  enterLatency : Int
  exitLatency : Int

/-- The lists between two cycles: no device is in one of them twice. -/
structure Registry (D : Type) where
  devs : PmOp → List D
  nodup : ∀ op, (devs op).Nodup
  enterLatency : Int
  exitLatency : Int

namespace Registry

def empty : Registry D := ⟨fun _ => [], fun _ => List.nodup_nil, 0, 0⟩

/-- `list_add`: at the head. -/
def listAdd [DecidableEq D] (r : Registry D) (op : PmOp) (dev : D) (h : dev ∉ r.devs op) :
    Registry D :=
  { r with
    devs := Function.update r.devs op (dev :: r.devs op)
    nodup := by
      intro o
      by_cases ho : o = op
      · subst ho; simpa using ⟨h, r.nodup o⟩
      · simpa [Function.update_of_ne ho] using r.nodup o }

def addLatency (r : Registry D) (drv : Driver) : Registry D :=
  { r with
    enterLatency := r.enterLatency + drv.enterLatency
    exitLatency := r.exitLatency + drv.exitLatency }

/-- The state in which a cycle starts. -/
def start (r : Registry D) (stats : SuspendStats D) : DpmState D :=
  ⟨r.devs, fun _ => [], 0, stats, []⟩

end Registry

/-- From the label `next` on. -/
def pmRegisterNoirq [DecidableEq D] (drv : D → Driver) (dev : D) (r : Registry D) :
    Int × Registry D :=
  if (drv dev).suspendNoirq ∨ (drv dev).resumeNoirq then
    if ¬(drv dev).suspendNoirq ∨ ¬(drv dev).resumeNoirq then (-1, r)
    else if h : dev ∈ r.devs .noirq then (-1, r)
    else (0, (r.listAdd .noirq dev h).addLatency (drv dev))
  else (0, r.addLatency (drv dev))

def pmRegisterOps [DecidableEq D] (drv : D → Driver) (dev : D) (r : Registry D) :
    Int × Registry D :=
  -- a node that is linked is in the list of its `PmOp`
  if dev ∈ r.devs .normal then (-1, r)
  else if dev ∈ r.devs .noirq then (-1, r)
  else if (¬(drv dev).suspendNoirq ∨ ¬(drv dev).resumeNoirq) ∧
      (¬(drv dev).suspend ∨ ¬(drv dev).resume) then (-1, r)
  else if (drv dev).suspend ∨ (drv dev).resume then
    if ¬(drv dev).suspend ∨ ¬(drv dev).resume then (-1, r)
    else if h : dev ∈ r.devs .normal then pmRegisterNoirq drv dev r
    else pmRegisterNoirq drv dev (r.listAdd .normal dev h)
  else pmRegisterNoirq drv dev r

/-- The callbacks the passes call are there. -/
def Callable (drv : D → Driver) (r : Registry D) : Prop :=
  (∀ dev ∈ r.devs .normal, (drv dev).suspend = true ∧ (drv dev).resume = true) ∧
    ∀ dev ∈ r.devs .noirq, (drv dev).suspendNoirq = true ∧ (drv dev).resumeNoirq = true

theorem Callable.pmRegisterNoirq [DecidableEq D] {drv : D → Driver} {r : Registry D}
    (h : Callable drv r) (dev : D) : Callable drv (pmRegisterNoirq drv dev r).2 := by
  unfold Pm.pmRegisterNoirq
  split
  · split
    · exact h
    · rename_i hno
      split
      · exact h
      · refine ⟨by simpa [Registry.addLatency, Registry.listAdd] using h.1, ?_⟩
        simp only [not_or, Bool.not_eq_true, Bool.not_eq_false] at hno
        simpa [Registry.addLatency, Registry.listAdd, hno] using h.2
  · exact h

theorem Callable.pmRegisterOps [DecidableEq D] {drv : D → Driver} {r : Registry D}
    (h : Callable drv r) (dev : D) : Callable drv (pmRegisterOps drv dev r).2 := by
  unfold Pm.pmRegisterOps
  split; · exact h
  split; · exact h
  split; · exact h
  split
  · split
    · exact h
    · rename_i hno
      refine Callable.pmRegisterNoirq ⟨?_, by simpa [Registry.listAdd] using h.2⟩ dev
      simp only [not_or, Bool.not_eq_true, Bool.not_eq_false] at hno
      simpa [Registry.listAdd, hno] using h.1
  · exact h.pmRegisterNoirq dev

/-! ## One cycle -/

def validState (env : SuspendEnv D) (state : SuspendState) : Bool :=
  if env.userSelPowerMode = .on then false else env.userSelPowerMode = state

def suspendTest (env : SuspendEnv D) (level : TestLevel) : Bool := env.pmTestLevel = level

def checkWakeupIrqs (env : SuspendEnv D) (s : DpmState D) : Int × DpmState D :=
  (env.wakeup s.checks, { s with checks := s.checks + 1 })

/-- A pending wakeup resets the CPU instead of leaving this mode. -/
def reboots (wakeup : Int) (state : SuspendState) : Prop :=
  wakeup ≠ 0 ∧ SuspendState.hibernation.toNat ≤ state.toNat

instance (wakeup : Int) (state : SuspendState) : Decidable (reboots wakeup state) :=
  inferInstanceAs (Decidable (_ ∧ _))

/-- The loop over `dpm_late_early_list`; `none` is `PM_REBOOT`. -/
def dpmSuspendNoirqLoop (env : SuspendEnv D) (state : SuspendState) :
    List D → DpmState D → Option (Int × DpmState D)
  | [], s => some (0, s)
  | dev :: rest, s =>
    let s := s.emit (.suspend .noirq dev)
    let error := env.suspend .noirq dev
    if error ≠ 0 ∨ ¬env.irqFlags dev then
      some (error, if error ≠ 0 then s.suspendFailed .noirq dev else s)
    else
      let (wakeup, s) := checkWakeupIrqs env (s.suspended .noirq dev rest)
      if reboots wakeup state then none
      else if wakeup ≠ 0 then some (-1, s.suspendFailed .noirq dev)
      else dpmSuspendNoirqLoop env state rest s

def dpmSuspendNoirq (env : SuspendEnv D) (state : SuspendState) (s : DpmState D) :
    Option (Int × DpmState D) :=
  dpmSuspendNoirqLoop env state (s.devs .noirq) s

def dpmSuspendLoop (env : SuspendEnv D) : List D → DpmState D → Int × DpmState D
  | [], s => (0, s)
  | dev :: rest, s =>
    let s := s.emit (.suspend .normal dev)
    let error := env.suspend .normal dev
    if error ≠ 0 then (error, s.suspendFailed .normal dev)
    else dpmSuspendLoop env rest (s.suspended .normal dev rest)

def dpmSuspend (env : SuspendEnv D) (s : DpmState D) : Int × DpmState D :=
  dpmSuspendLoop env (s.devs .normal) s

/-- The loop of `dpm_resume_noirq` and of `dpm_resume`. -/
def dpmResumeLoop (env : SuspendEnv D) (op : PmOp) : List D → DpmState D → DpmState D
  | [], s => s
  | dev :: rest, s =>
    let s := (s.resumed op dev rest).emit (.resume op dev)
    dpmResumeLoop env op rest (if env.resume op dev ≠ 0 then s.resumeFailed op else s)

def dpmResumeNoirq (env : SuspendEnv D) (s : DpmState D) : DpmState D :=
  dpmResumeLoop env .noirq (s.moved .noirq) s

def dpmResume (env : SuspendEnv D) (s : DpmState D) : DpmState D :=
  dpmResumeLoop env .normal (s.moved .normal) s

/-- The wakeup event that `Platform_finish` sets, and the `wakeup` it leaves. -/
def setWakeupEvent (env : SuspendEnv D) (error wakeup : Int) (s : DpmState D) :
    Int × DpmState D :=
  if error = pmWakeupSrcWlan then (wakeup, s.emit (.setEvent pmWakeupSrcWlan))
  else if wakeup ≠ 0 ∨ error ≠ 0 then
    if wakeup = 0 then
      let (wakeup, s) := checkWakeupIrqs env s
      (wakeup, s.emit (.setEvent wakeup))
    else (wakeup, s.emit (.setEvent wakeup))
  else (wakeup, s)

/-- From the label `Platform_finish` on. -/
def platformFinish (env : SuspendEnv D) (error wakeup : Int) (s : DpmState D) :
    Int × DpmState D :=
  let (wakeup, s) := setWakeupEvent env error wakeup s
  (wakeup, (s.emit .enableIrqs).emitIf env.finish .finish)

/-- From the label `Resume_noirq_devices` on. -/
def resumeNoirqDevices (env : SuspendEnv D) (error wakeup : Int) (s : DpmState D) :
    Int × DpmState D :=
  platformFinish env error wakeup (dpmResumeNoirq env s)

/-- From the label `Platform_wake` on. -/
def platformWake (env : SuspendEnv D) (error wakeup : Int) (s : DpmState D) : Int × DpmState D :=
  resumeNoirqDevices env error wakeup (s.emitIf env.wake .wake)

/-- What follows a `dpm_suspend_noirq` that returned 0. -/
def suspendCore (env : SuspendEnv D) (state : SuspendState) (s : DpmState D) :
    Option (Int × DpmState D) :=
  if suspendTest env .devices then some (resumeNoirqDevices env 0 0 s)
  else if suspendTest env .platform then some (platformWake env 0 0 s)
  else
    let (wakeup, s) := checkWakeupIrqs env s
    if reboots wakeup state then none
    else
      let s := s.emitIf env.prepareLate .prepareLate
      let s := if suspendTest env .core ∨ wakeup ≠ 0 then s else s.emit .enter
      some (platformWake env 0 wakeup s)

def suspendEnter (env : SuspendEnv D) (state : SuspendState) (s : DpmState D) :
    Option (Int × DpmState D) :=
  let s := s.emitIf env.prepare.isSome .prepare
  if env.prepare.getD 0 ≠ 0 then some (platformFinish env (env.prepare.getD 0) 0 s)
  else
    let (wakeup, s) := checkWakeupIrqs env (s.emit .disableIrqs)
    if reboots wakeup state then none
    else if wakeup ≠ 0 then some (platformFinish env (-1) wakeup s)
    else do
      let (error, s) ← dpmSuspendNoirq env state s
      if error ≠ 0 then some (resumeNoirqDevices env error 0 s.countFail)
      else suspendCore env state s

/-- From the label `Close` on. -/
def close (env : SuspendEnv D) (error : Int) (s : DpmState D) : Int × DpmState D :=
  let s := s.emitIf env.end .end
  (error, if error = pmWakeupSrcWlan then s.emit (.setEvent pmWakeupSrcWlan) else s)

/-- From the label `Resume_devices` on. -/
def resumeDevices (env : SuspendEnv D) (error : Int) (s : DpmState D) : Int × DpmState D :=
  close env error (dpmResume env s)

/-- What follows a `dpm_suspend` that returned 0. -/
def devicesSuspended (env : SuspendEnv D) (state : SuspendState) (s : DpmState D) :
    Option (Int × DpmState D) :=
  let s := if env.pmDebug then s.countSuccess else s
  if suspendTest env .devices then some (resumeDevices env 0 s)
  else do
    let (error, s) ← suspendEnter env state (s.emit .suspendScheduler)
    some (resumeDevices env error (s.emit .resumeScheduler))

def suspendDevicesAndEnter (env : SuspendEnv D) (state : SuspendState) (s : DpmState D) :
    Option (Int × DpmState D) :=
  if ¬validState env state then some (-1, s)
  else
    let s := s.emitIf env.begin.isSome .begin
    if env.begin.getD 0 ≠ 0 then some (close env (env.begin.getD 0) s)
    else
      let (error, s) := dpmSuspend env s
      if error ≠ 0 then
        some (resumeDevices env error (if env.pmDebug then s.countFail else s))
      else devicesSuspended env state s

/-! ## What one cycle owes -/

def Event.suspend? (op : PmOp) : Event D → Option D
  | .suspend o dev => if o = op then some dev else none
  | _ => none

def Event.resume? (op : PmOp) : Event D → Option D
  | .resume o dev => if o = op then some dev else none
  | _ => none

/-- The devices whose suspend callback ran, in order. -/
def suspends (op : PmOp) (es : List (Event D)) : List D := es.filterMap (Event.suspend? op)

/-- The devices whose resume callback ran, in order. -/
def resumes (op : PmOp) (es : List (Event D)) : List D := es.filterMap (Event.resume? op)

structure Bracketed [DecidableEq D] (env : SuspendEnv D) (r : Registry D) (s : DpmState D) :
    Prop where
  devs : s.devs = r.devs
  moved : ∀ op, s.moved op = []
  undone : ∀ op, resumes op s.events =
    ((suspends op s.events).filter fun dev => env.suspend op dev = 0).reverse
  once : ∀ op dev, (resumes op s.events).count dev =
    if dev ∈ suspends op s.events ∧ env.suspend op dev = 0 then 1 else 0
  guarded : ∀ a b, s.events = a ++ .enter :: b →
    ∀ op, ∀ dev ∈ r.devs op, dev ∈ suspends op a ∧ env.suspend op dev = 0

/-- The noirq pass over `devs`, whose first wakeup check is number `k`, comes to a device that
returns 0 with `PRIMASK` clear. -/
def UnmaskedStop (env : SuspendEnv D) (k : Nat) (devs : List D) : Prop :=
  ∃ pre dev post, devs = pre ++ dev :: post ∧
    (∀ d ∈ pre, env.suspend .noirq d = 0 ∧ env.irqFlags d = true) ∧
    (∀ i, i < pre.length → env.wakeup (k + i) = 0) ∧
    env.suspend .noirq dev = 0 ∧ env.irqFlags dev = false

/-- The cycle gets as far as the noirq pass. -/
structure ReachesNoirq (env : SuspendEnv D) (state : SuspendState) (r : Registry D) : Prop where
  valid : validState env state = true
  begin : env.begin.getD 0 = 0
  suspend : ∀ dev ∈ r.devs .normal, env.suspend .normal dev = 0
  test : suspendTest env .devices = false
  prepare : env.prepare.getD 0 = 0
  wakeup : env.wakeup 0 = 0

/-! ## Events of no consequence -/

def Event.Inert : Event D → Prop
  | .suspend .. | .resume .. | .enter => False
  | _ => True

/-- Only events that are neither device calls nor `enter`. -/
def Inert (es : List (Event D)) : Prop := ∀ e ∈ es, e.Inert

section Projections

variable {op o : PmOp} {es : List (Event D)}

@[simp] theorem suspends_append (es fs : List (Event D)) :
    suspends op (es ++ fs) = suspends op es ++ suspends op fs := List.filterMap_append

@[simp] theorem resumes_append (es fs : List (Event D)) :
    resumes op (es ++ fs) = resumes op es ++ resumes op fs := List.filterMap_append

@[simp] theorem suspends_map_suspend (ds : List D) :
    suspends op (ds.map (Event.suspend o)) = if o = op then ds else [] := by
  induction ds with
  | nil => simp [suspends]
  | cons d ds ih =>
    simp only [suspends] at ih
    split <;> simp_all [suspends, Event.suspend?]

@[simp] theorem suspends_map_resume (ds : List D) :
    suspends op (ds.map (Event.resume o)) = [] := by
  simp [suspends, List.filterMap_map, Function.comp_def, Event.suspend?]

@[simp] theorem resumes_map_resume (ds : List D) :
    resumes op (ds.map (Event.resume o)) = if o = op then ds else [] := by
  induction ds with
  | nil => simp [resumes]
  | cons d ds ih =>
    simp only [resumes] at ih
    split <;> simp_all [resumes, Event.resume?]

@[simp] theorem resumes_map_suspend (ds : List D) :
    resumes op (ds.map (Event.suspend o)) = [] := by
  simp [resumes, List.filterMap_map, Function.comp_def, Event.resume?]

/-- A chunk without device calls. -/
def NoCalls (es : List (Event D)) : Prop := ∀ e ∈ es, e = .enter ∨ e.Inert

theorem NoCalls.suspends (h : NoCalls es) : suspends op es = [] := by
  refine List.filterMap_eq_nil_iff.mpr fun e he => ?_
  cases e with
  | suspend o d => simpa [Event.Inert] using h _ he
  | _ => rfl

theorem NoCalls.resumes (h : NoCalls es) : resumes op es = [] := by
  refine List.filterMap_eq_nil_iff.mpr fun e he => ?_
  cases e with
  | resume o d => simpa [Event.Inert] using h _ he
  | _ => rfl

theorem Inert.noCalls (h : Inert es) : NoCalls es := fun e he => .inr (h e he)

theorem Inert.enter (h : Inert es) : Event.enter ∉ es := fun he => h _ he

theorem inert_nil : Inert ([] : List (Event D)) := fun _ h => by cases h

theorem noCalls_nil : NoCalls ([] : List (Event D)) := inert_nil.noCalls

theorem NoCalls.append {fs : List (Event D)} (h : NoCalls es) (h' : NoCalls fs) :
    NoCalls (es ++ fs) := fun e he => (List.mem_append.mp he).elim (h e) (h' e)

theorem noCalls_enter : NoCalls [(Event.enter : Event D)] :=
  fun _ he => .inl (List.mem_singleton.mp he)

theorem Inert.append {fs : List (Event D)} (h : Inert es) (h' : Inert fs) : Inert (es ++ fs) :=
  fun e he => (List.mem_append.mp he).elim (h e) (h' e)

end Projections

/-- `s'` is `s` after a few inert events. -/
structure Stays (s s' : DpmState D) (es : List (Event D)) : Prop where
  devs : s'.devs = s.devs
  moved : s'.moved = s.moved
  events : s'.events = s.events ++ es
  inert : Inert es

namespace Stays

variable {s s' s'' : DpmState D} {es fs : List (Event D)}

theorem refl (s : DpmState D) : Stays s s [] := ⟨rfl, rfl, by simp, inert_nil⟩

theorem trans (h : Stays s s' es) (h' : Stays s' s'' fs) : Stays s s'' (es ++ fs) :=
  ⟨h'.devs.trans h.devs, h'.moved.trans h.moved, by rw [h'.events, h.events, List.append_assoc],
    h.inert.append h'.inert⟩

theorem emit (s : DpmState D) {e : Event D} (he : e.Inert) : Stays s (s.emit e) [e] :=
  ⟨rfl, rfl, rfl, by intro e' h; rw [List.mem_singleton] at h; rwa [h]⟩

theorem emitIf (s : DpmState D) (b : Bool) {e : Event D} (he : e.Inert) :
    ∃ es, Stays s (s.emitIf b e) es := by
  cases b with
  | false => exact ⟨[], refl s⟩
  | true => exact ⟨[e], emit s he⟩

theorem checkWakeupIrqs (env : SuspendEnv D) (s : DpmState D) :
    Stays s (checkWakeupIrqs env s).2 [] := ⟨rfl, rfl, (List.append_nil _).symm, inert_nil⟩

end Stays

theorem setWakeupEvent_stays (env : SuspendEnv D) (error wakeup : Int) (s : DpmState D) :
    ∃ es, Stays s (setWakeupEvent env error wakeup s).2 es := by
  unfold setWakeupEvent
  split
  · exact ⟨_, Stays.emit s trivial⟩
  · split
    · split
      · exact ⟨_, (Stays.checkWakeupIrqs env s).trans (Stays.emit _ trivial)⟩
      · exact ⟨_, Stays.emit s trivial⟩
    · exact ⟨_, Stays.refl s⟩

theorem platformFinish_stays (env : SuspendEnv D) (error wakeup : Int) (s : DpmState D) :
    ∃ es, Stays s (platformFinish env error wakeup s).2 es := by
  obtain ⟨es, hes⟩ := setWakeupEvent_stays env error wakeup s
  obtain ⟨fs, hfs⟩ := Stays.emitIf
    ((setWakeupEvent env error wakeup s).2.emit .enableIrqs) env.finish (e := .finish) trivial
  exact ⟨_, (hes.trans (Stays.emit (e := .enableIrqs) _ trivial)).trans hfs⟩

theorem close_stays (env : SuspendEnv D) (error : Int) (s : DpmState D) :
    ∃ es, Stays s (close env error s).2 es := by
  obtain ⟨es, hes⟩ := Stays.emitIf s env.end (e := .end) trivial
  simp only [close]
  split
  · exact ⟨_, hes.trans (Stays.emit _ trivial)⟩
  · exact ⟨_, hes⟩

/-! ## The passes -/

/-- How a suspend pass over some devices ends: the error it returns, the devices it has not moved,
and the device it stopped at, if any. -/
inductive PassEnd (env : SuspendEnv D) (op : PmOp) : Int → List D → List D → Prop where
  | all : PassEnd env op 0 [] []
  | cut (error : Int) (post : List D) (h : error ≠ 0) : PassEnd env op error post []
  | failed (dev : D) (rest : List D) (h : env.suspend op dev ≠ 0) :
    PassEnd env op (env.suspend op dev) (dev :: rest) [dev]
  | unmasked (dev : D) (rest : List D) (h : env.suspend op dev = 0) :
    PassEnd env op 0 (dev :: rest) [dev]

/-- `s'` is `s` after a suspend pass that moved `pre`, left `post` and called `calls`. -/
structure Suspended (op : PmOp) (pre post calls : List D) (s s' : DpmState D) : Prop where
  devs : s'.devs = Function.update s.devs op post
  moved : s'.moved = Function.update s.moved op (pre.reverse ++ s.moved op)
  events : s'.events = s.events ++ calls.map (.suspend op)

/-- One more device in front of a pass. -/
theorem Suspended.cons {op : PmOp} {dev : D} {rest pre post calls : List D} {s s' : DpmState D}
    {k : Nat} (h : Suspended op pre post calls
      { (s.emit (.suspend op dev)).suspended op dev rest with checks := k } s') :
    Suspended op (dev :: pre) post (dev :: calls) s s' where
  devs := by rw [h.devs]; simp [DpmState.suspended, DpmState.emit]
  moved := by rw [h.moved]; simp [DpmState.suspended, DpmState.emit]
  events := by rw [h.events]; simp [DpmState.suspended, DpmState.emit]

theorem dpmSuspendLoop_spec (env : SuspendEnv D) (devs : List D) (s : DpmState D)
    (hs : s.devs .normal = devs) : ∃ pre post stop, devs = pre ++ post ∧
      Suspended .normal pre post (pre ++ stop) s (dpmSuspendLoop env devs s).2 ∧
      (∀ dev ∈ pre, env.suspend .normal dev = 0) ∧
      PassEnd env .normal (dpmSuspendLoop env devs s).1 post stop ∧
      ((dpmSuspendLoop env devs s).1 = 0 → stop = []) ∧
      ((dpmSuspendLoop env devs s).1 ≠ 0 → ∃ dev ∈ devs, env.suspend .normal dev ≠ 0) := by
  induction devs generalizing s with
  | nil =>
    refine ⟨[], [], [], rfl, ⟨?_, ?_, ?_⟩, by simp, .all, fun _ => rfl, fun h => absurd rfl h⟩
    · simp [dpmSuspendLoop, ← hs]
    · simp [dpmSuspendLoop]
    · simp [dpmSuspendLoop]
  | cons dev rest ih =>
    by_cases he : env.suspend .normal dev = 0
    · obtain ⟨pre, post, stop, h1, h2, h3, h4, h5, h6⟩ :=
        ih ((s.emit (.suspend .normal dev)).suspended .normal dev rest)
          (by simp [DpmState.suspended])
      have hloop : dpmSuspendLoop env (dev :: rest) s = dpmSuspendLoop env rest
          ((s.emit (.suspend .normal dev)).suspended .normal dev rest) := by
        simp [dpmSuspendLoop, he]
      rw [hloop]
      refine ⟨dev :: pre, post, stop, by rw [h1]; rfl, h2.cons, ?_, h4, h5, fun h => ?_⟩
      · simpa [he] using h3
      · obtain ⟨d, hd, hne⟩ := h6 h
        exact ⟨d, List.mem_cons_of_mem _ hd, hne⟩
    · have hloop : dpmSuspendLoop env (dev :: rest) s = (env.suspend .normal dev,
          (s.emit (.suspend .normal dev)).suspendFailed .normal dev) := by
        simp [dpmSuspendLoop, he]
      rw [hloop]
      refine ⟨[], dev :: rest, [dev], rfl, ⟨?_, ?_, ?_⟩, by simp, .failed dev rest he,
        fun h => absurd h he, fun _ => ⟨dev, by simp, he⟩⟩
      · simp [DpmState.suspendFailed, DpmState.emit, ← hs]
      · simp [DpmState.suspendFailed, DpmState.emit]
      · simp [DpmState.suspendFailed, DpmState.emit]

theorem dpmSuspend_spec (env : SuspendEnv D) (s : DpmState D) :
    ∃ pre post stop, s.devs .normal = pre ++ post ∧
      Suspended .normal pre post (pre ++ stop) s (dpmSuspend env s).2 ∧
      (∀ dev ∈ pre, env.suspend .normal dev = 0) ∧
      PassEnd env .normal (dpmSuspend env s).1 post stop ∧
      ((dpmSuspend env s).1 = 0 → stop = []) ∧
      ((dpmSuspend env s).1 ≠ 0 → ∃ dev ∈ s.devs .normal, env.suspend .normal dev ≠ 0) :=
  dpmSuspendLoop_spec env (s.devs .normal) s rfl

theorem not_unmaskedStop_nil (env : SuspendEnv D) (k : Nat) : ¬UnmaskedStop env k [] := by
  rintro ⟨pre, dev, post, h, -⟩
  simp at h

theorem unmaskedStop_cons (env : SuspendEnv D) (k : Nat) (dev : D) (rest : List D) :
    UnmaskedStop env k (dev :: rest) ↔ env.suspend .noirq dev = 0 ∧
      (env.irqFlags dev = false ∨
        env.irqFlags dev = true ∧ env.wakeup k = 0 ∧ UnmaskedStop env (k + 1) rest) := by
  constructor
  · rintro ⟨pre, d, post, hsplit, hpre, hw, he, hm⟩
    cases pre with
    | nil =>
      obtain ⟨rfl, rfl⟩ := by simpa using hsplit
      exact ⟨he, .inl hm⟩
    | cons p pre =>
      obtain ⟨rfl, rfl⟩ := by simpa using hsplit
      obtain ⟨hp, hpm⟩ := hpre dev (by simp)
      refine ⟨hp, .inr ⟨hpm, hw 0 (by simp), pre, d, post, rfl, ?_, ?_, he, hm⟩⟩
      · exact fun x hx => hpre x (by simp [hx])
      · intro i hi
        have := hw (i + 1) (by simpa using hi)
        rwa [Nat.add_right_comm, Nat.add_assoc]
  · rintro ⟨he, hm | ⟨hm, hk, pre, d, post, rfl, hpre, hw, hd, hdm⟩⟩
    · exact ⟨[], dev, rest, rfl, by simp, by simp, he, hm⟩
    · refine ⟨dev :: pre, d, post, rfl, ?_, ?_, hd, hdm⟩
      · simpa [he, hm] using hpre
      · intro i hi
        cases i with
        | zero => simpa using hk
        | succ i => simpa [Nat.add_right_comm, Nat.add_assoc] using hw i (by simpa using hi)

theorem dpmSuspendNoirqLoop_spec (env : SuspendEnv D) (state : SuspendState) (devs : List D)
    (s : DpmState D) (hs : s.devs .noirq = devs) {error : Int} {s' : DpmState D}
    (h : dpmSuspendNoirqLoop env state devs s = some (error, s')) :
    ∃ pre post stop, devs = pre ++ post ∧ Suspended .noirq pre post (pre ++ stop) s s' ∧
      (∀ dev ∈ pre, env.suspend .noirq dev = 0) ∧ PassEnd env .noirq error post stop ∧
      (error = 0 ∧ stop ≠ [] ↔ UnmaskedStop env s.checks devs) := by
  induction devs generalizing s with
  | nil =>
    simp only [dpmSuspendNoirqLoop, Option.some.injEq, Prod.mk.injEq] at h
    obtain ⟨rfl, rfl⟩ := h
    refine ⟨[], [], [], rfl, ⟨?_, ?_, ?_⟩, by simp, .all, ?_⟩
    · simp [← hs]
    · simp
    · simp
    · simp [not_unmaskedStop_nil]
  | cons dev rest ih =>
    rw [unmaskedStop_cons]
    simp only [dpmSuspendNoirqLoop] at h
    by_cases he : env.suspend .noirq dev = 0
    swap
    · rw [if_pos (.inl he), if_pos he] at h
      obtain ⟨rfl, rfl⟩ := by simpa using h
      refine ⟨[], dev :: rest, [dev], rfl, ⟨?_, ?_, ?_⟩, by simp, .failed dev rest he, ?_⟩
      · simp [DpmState.suspendFailed, DpmState.emit, ← hs]
      · simp [DpmState.suspendFailed, DpmState.emit]
      · simp [DpmState.suspendFailed, DpmState.emit]
      · simp [he]
    by_cases hm : env.irqFlags dev = true
    swap
    · rw [if_pos (.inr hm), if_neg (by simpa using he)] at h
      obtain ⟨rfl, rfl⟩ := by simpa using h
      rw [he]
      refine ⟨[], dev :: rest, [dev], rfl, ⟨?_, ?_, ?_⟩, by simp, .unmasked dev rest he, ?_⟩
      · simp [DpmState.emit, ← hs]
      · simp [DpmState.emit]
      · simp [DpmState.emit]
      · simp [hm]
    rw [if_neg (by simp [he, hm])] at h
    have hk : (((s.emit (.suspend .noirq dev)).suspended .noirq dev rest).checks) = s.checks := rfl
    simp only [checkWakeupIrqs, hk] at h
    split at h
    · cases h
    split at h
    · rename_i hw
      obtain ⟨rfl, rfl⟩ := by simpa using h
      refine ⟨[dev], rest, [], rfl, ⟨?_, ?_, ?_⟩, by simpa using he,
        .cut _ rest (by decide), ?_⟩
      · simp [DpmState.suspendFailed, DpmState.suspended, DpmState.emit]
      · simp [DpmState.suspendFailed, DpmState.suspended, DpmState.emit]
      · simp [DpmState.suspendFailed, DpmState.suspended, DpmState.emit]
      · simp [hm, hw]
    · rename_i hw
      obtain ⟨pre, post, stop, h1, h2, h3, h4, h5⟩ :=
        ih _ (by simp [DpmState.suspended]) h
      refine ⟨dev :: pre, post, stop, by rw [h1]; rfl, h2.cons, ?_, h4, ?_⟩
      · simpa [he] using h3
      · rw [h5]; simp [he, hm, not_not.mp hw]

theorem dpmResumeLoop_spec (env : SuspendEnv D) (op : PmOp) (devs : List D) (s : DpmState D)
    (hs : s.moved op = devs) :
    (dpmResumeLoop env op devs s).devs = Function.update s.devs op (devs.reverse ++ s.devs op) ∧
      (dpmResumeLoop env op devs s).moved = Function.update s.moved op [] ∧
      (dpmResumeLoop env op devs s).events = s.events ++ devs.map (.resume op) := by
  induction devs generalizing s with
  | nil => exact ⟨by simp [dpmResumeLoop], by simp [dpmResumeLoop, ← hs], by simp [dpmResumeLoop]⟩
  | cons dev rest ih =>
    simp only [dpmResumeLoop]
    split
    · obtain ⟨h1, h2, h3⟩ := ih ((((s.resumed op dev rest).emit (.resume op dev))).resumeFailed op)
        (by simp [DpmState.resumeFailed, DpmState.resumed, DpmState.emit])
      refine ⟨?_, ?_, ?_⟩
      · rw [h1]; simp [DpmState.resumeFailed, DpmState.resumed, DpmState.emit]
      · rw [h2]; simp [DpmState.resumeFailed, DpmState.resumed, DpmState.emit]
      · rw [h3]; simp [DpmState.resumeFailed, DpmState.resumed, DpmState.emit]
    · obtain ⟨h1, h2, h3⟩ := ih ((s.resumed op dev rest).emit (.resume op dev))
        (by simp [DpmState.resumed, DpmState.emit])
      refine ⟨?_, ?_, ?_⟩
      · rw [h1]; simp [DpmState.resumed, DpmState.emit]
      · rw [h2]; simp [DpmState.resumed, DpmState.emit]
      · rw [h3]; simp [DpmState.resumed, DpmState.emit]

/-! ## A pass and its undoing -/

/-- The events `es` of a suspend pass over `devs`, of what follows it (`mid`) and of the resume
pass that undoes it. -/
structure PassTrace (env : SuspendEnv D) (op : PmOp) (devs : List D) (error : Int)
    (stop : List D) (mid es : List (Event D)) : Prop where
  shape : ∃ pre post, devs = pre ++ post ∧ (∀ dev ∈ pre, env.suspend op dev = 0) ∧
    PassEnd env op error post stop ∧
    es = (pre ++ stop).map (.suspend op) ++ mid ++ pre.reverse.map (.resume op)

/-- Nothing was called. -/
theorem PassTrace.nothing (env : SuspendEnv D) (op : PmOp) (devs : List D) {error : Int}
    (h : error ≠ 0) : PassTrace env op devs error [] [] [] :=
  ⟨[], devs, rfl, by simp, .cut error devs h, by simp⟩

/-- An event that is not in the first part of a trace is in the second. -/
theorem split_after {es fs a b : List (Event D)} {e : Event D} (h : es ++ fs = a ++ e :: b)
    (he : e ∉ es) : ∃ a', a = es ++ a' ∧ fs = a' ++ e :: b := by
  rcases List.append_eq_append_iff.mp h with ⟨a', rfl, h'⟩ | ⟨c, rfl, h'⟩
  · exact ⟨a', rfl, h'⟩
  · cases c with
    | nil => exact ⟨[], by simp, by simpa using h'.symm⟩
    | cons x c =>
      obtain ⟨rfl, -⟩ := by simpa using h'
      exact absurd (by simp) he

/-- An event that is not in the second part of a trace is in the first. -/
theorem split_before {es fs a b : List (Event D)} {e : Event D} (h : es ++ fs = a ++ e :: b)
    (he : e ∉ fs) : ∃ b', es = a ++ e :: b' := by
  rcases List.append_eq_append_iff.mp h with ⟨a', rfl, rfl⟩ | ⟨c, rfl, h'⟩
  · exact absurd (by simp) he
  · cases c with
    | nil =>
      rw [List.nil_append] at h'
      exact absurd (by simp [← h']) he
    | cons x c =>
      obtain ⟨rfl, -⟩ := by simpa using h'
      exact ⟨c, rfl⟩

section PassTrace

variable {env : SuspendEnv D} {op : PmOp} {devs stop : List D} {error : Int}
  {mid es : List (Event D)}

theorem PassTrace.suspends_other {o : PmOp} (h : PassTrace env op devs error stop mid es)
    (ho : op ≠ o) : suspends o es = suspends o mid := by
  obtain ⟨pre, post, -, -, -, rfl⟩ := h.shape
  simp [-List.map_append, -List.map_reverse, ho]

theorem PassTrace.resumes_other {o : PmOp} (h : PassTrace env op devs error stop mid es)
    (ho : op ≠ o) : resumes o es = resumes o mid := by
  obtain ⟨pre, post, -, -, -, rfl⟩ := h.shape
  simp [-List.map_append, -List.map_reverse, ho]

/-- The resumes undo the suspends exactly when the pass did not stop at a device that
returned 0. -/
theorem PassTrace.undone_iff (h : PassTrace env op devs error stop mid es)
    (hs : suspends op mid = []) (hr : resumes op mid = []) :
    resumes op es = ((suspends op es).filter fun dev => env.suspend op dev = 0).reverse ↔
      ¬(error = 0 ∧ stop ≠ []) := by
  obtain ⟨pre, post, -, hpre, hend, rfl⟩ := h.shape
  have hfil : pre.filter (fun dev => decide (env.suspend op dev = 0)) = pre :=
    List.filter_eq_self.mpr fun dev hdev => by simpa using hpre dev hdev
  simp only [suspends_append, resumes_append, suspends_map_suspend, suspends_map_resume,
    resumes_map_suspend, resumes_map_resume, hs, hr, if_true, List.append_nil, List.nil_append,
    List.filter_append, hfil]
  cases hend with
  | all => simp
  | cut _ _ h => simp
  | failed dev rest hdev => simp [hdev]
  | unmasked dev rest hdev => simp [hdev]

theorem PassTrace.suspends_eq (h : PassTrace env op devs error stop mid es)
    (hs : suspends op mid = []) : ∃ post, devs = suspends op es ++ post := by
  obtain ⟨pre, post, rfl, -, hend, rfl⟩ := h.shape
  simp only [suspends_append, suspends_map_suspend, suspends_map_resume, hs, if_true,
    List.append_nil]
  cases hend with
  | all => exact ⟨[], by simp⟩
  | cut error post h => exact ⟨post, by simp⟩
  | failed dev rest h => exact ⟨rest, by simp⟩
  | unmasked dev rest h => exact ⟨rest, by simp⟩

theorem PassEnd.of_success {post : List D} (h : PassEnd env op error post stop)
    (herr : error = 0) (hstop : stop = []) : post = [] := by
  cases h with
  | all => rfl
  | cut _ _ h => exact absurd herr h
  | failed dev rest h => exact absurd herr h
  | unmasked dev rest h => cases hstop

theorem enter_not_mem_map_suspend (ds : List D) : Event.enter ∉ ds.map (Event.suspend op) := by
  simp

theorem enter_not_mem_map_resume (ds : List D) : Event.enter ∉ ds.map (Event.resume op) := by
  simp

/-- `enter` can only be in the middle of a pass, and in a pass that went through every device was
suspended before it. -/
theorem PassTrace.enter (h : PassTrace env op devs error stop mid es) {a b : List (Event D)}
    (he : es = a ++ .enter :: b) : ∃ a' b', mid = a' ++ .enter :: b' ∧
      (∀ o, ∀ dev ∈ suspends o a', dev ∈ suspends o a) ∧ (error = 0 → stop = [] →
        ∀ dev ∈ devs, dev ∈ suspends op a ∧ env.suspend op dev = 0) := by
  obtain ⟨pre, post, rfl, hpre, hend, rfl⟩ := h.shape
  obtain ⟨b', he⟩ := split_before he (enter_not_mem_map_resume _)
  obtain ⟨a', rfl, hmid⟩ := split_after he (enter_not_mem_map_suspend _)
  refine ⟨a', b', hmid, fun o dev hdev => ?_, fun herr hstop dev hdev => ?_⟩
  · rw [suspends_append]
    exact List.mem_append_right _ hdev
  · obtain rfl := hend.of_success herr hstop
    subst hstop
    rw [List.append_nil] at hdev
    exact ⟨by simp [-List.map_append, hdev], hpre dev hdev⟩

end PassTrace

/-! ## The two levels of a cycle -/

/-- `s'` is `s` after a pass over `devs op` and its undoing: the lists are as before. -/
structure Undone (op : PmOp) (s s' : DpmState D) (es : List (Event D)) : Prop where
  devs : s'.devs = s.devs
  moved : s'.moved = s.moved
  events : s'.events = s.events ++ es

theorem Undone.of_stays {op : PmOp} {s s' : DpmState D} {es : List (Event D)}
    (h : Stays s s' es) : Undone op s s' es := ⟨h.devs, h.moved, h.events⟩

theorem Stays.trans_undone {op : PmOp} {s s' s'' : DpmState D} {es fs : List (Event D)}
    (h : Stays s s' es) (h' : Undone op s' s'' fs) : Undone op s s'' (es ++ fs) :=
  ⟨h'.devs.trans h.devs, h'.moved.trans h.moved, by rw [h'.events, h.events, List.append_assoc]⟩

theorem Undone.trans_stays {op : PmOp} {s s' s'' : DpmState D} {es fs : List (Event D)}
    (h : Undone op s s' es) (h' : Stays s' s'' fs) : Undone op s s'' (es ++ fs) :=
  ⟨h'.devs.trans h.devs, h'.moved.trans h.moved, by rw [h'.events, h.events, List.append_assoc]⟩

/-- A suspend pass, something that leaves the lists alone, and the resume pass. -/
theorem Suspended.undone (env : SuspendEnv D) {op : PmOp} {pre post calls : List D}
    {s s₁ s₂ : DpmState D} {mid : List (Event D)} (h : Suspended op pre post calls s s₁)
    (hd : s.devs op = pre ++ post) (hm : s.moved op = []) (hdevs : s₂.devs = s₁.devs)
    (hmoved : s₂.moved = s₁.moved) (hev : s₂.events = s₁.events ++ mid) :
    Undone op s (dpmResumeLoop env op (s₂.moved op) s₂)
      (calls.map (.suspend op) ++ mid ++ pre.reverse.map (.resume op)) := by
  obtain ⟨h1, h2, h3⟩ := dpmResumeLoop_spec env op (s₂.moved op) s₂ rfl
  have hmop : s₂.moved op = pre.reverse := by rw [hmoved, h.moved]; simp [hm]
  refine ⟨?_, ?_, ?_⟩
  · rw [h1, hmop, hdevs, h.devs]
    simp [← hd]
  · rw [h2, hmoved, h.moved]
    simp [← hm]
  · rw [h3, hmop, hev, h.events]
    simp

/-- `suspend_enter` over the noirq devices `devs`, its first wakeup check being number `k`: a
noirq pass, undone, between inert events. The pass stops at an unmasked device exactly when it is
reached and there is one. -/
structure EnterTrace (env : SuspendEnv D) (k : Nat) (devs : List D) (error : Int)
    (stop : List D) (es : List (Event D)) : Prop where
  shape : ∃ a es' mid b, es = a ++ es' ++ b ∧ Inert a ∧ Inert b ∧ NoCalls mid ∧
    (Event.enter ∈ mid → error = 0) ∧ PassTrace env .noirq devs error stop mid es'
  unmasked : error = 0 ∧ stop ≠ [] ↔
    env.prepare.getD 0 = 0 ∧ env.wakeup k = 0 ∧ UnmaskedStop env (k + 1) devs

section EnterTrace

variable {env : SuspendEnv D} {k : Nat} {devs stop : List D} {error : Int} {es : List (Event D)}

/-- The noirq pass does not run. -/
theorem EnterTrace.nothing (h : Inert es) (hn : ¬(env.prepare.getD 0 = 0 ∧ env.wakeup k = 0)) :
    EnterTrace env k devs (-1) [] es := by
  refine ⟨⟨es, [], [], [], by simp, h, inert_nil, noCalls_nil, by simp,
    PassTrace.nothing env .noirq _ (by decide)⟩, ?_⟩
  simp only [ne_eq, not_true, and_false, false_iff]
  exact fun hc => hn ⟨hc.1, hc.2.1⟩

theorem EnterTrace.normal (h : EnterTrace env k devs error stop es) :
    suspends .normal es = [] ∧ resumes .normal es = [] := by
  obtain ⟨a, es', mid, b, rfl, ha, hb, hmid, -, hp⟩ := h.shape
  have hne : PmOp.noirq ≠ .normal := by decide
  simp [ha.noCalls.suspends, hb.noCalls.suspends, ha.noCalls.resumes, hb.noCalls.resumes,
    hp.suspends_other hne, hp.resumes_other hne, hmid.suspends, hmid.resumes]

theorem EnterTrace.undone_iff (h : EnterTrace env k devs error stop es) :
    resumes .noirq es =
        ((suspends .noirq es).filter fun dev => env.suspend .noirq dev = 0).reverse ↔
      ¬(error = 0 ∧ stop ≠ []) := by
  obtain ⟨a, es', mid, b, rfl, ha, hb, hmid, -, hp⟩ := h.shape
  simpa [ha.noCalls.suspends, hb.noCalls.suspends, ha.noCalls.resumes, hb.noCalls.resumes] using
    hp.undone_iff hmid.suspends hmid.resumes

theorem EnterTrace.suspends_eq (h : EnterTrace env k devs error stop es) :
    ∃ post, devs = suspends .noirq es ++ post := by
  obtain ⟨a, es', mid, b, rfl, ha, hb, hmid, -, hp⟩ := h.shape
  simpa [ha.noCalls.suspends, hb.noCalls.suspends] using hp.suspends_eq hmid.suspends

theorem EnterTrace.enter (h : EnterTrace env k devs error stop es)
    (hun : ¬(error = 0 ∧ stop ≠ [])) {a b : List (Event D)} (he : es = a ++ .enter :: b) :
    ∀ dev ∈ devs, dev ∈ suspends .noirq a ∧ env.suspend .noirq dev = 0 := by
  obtain ⟨c, es', mid, d, rfl, hc, hd, hmid, hen, hp⟩ := h.shape
  obtain ⟨b', he'⟩ := split_before he hd.enter
  obtain ⟨a', rfl, hes'⟩ := split_after he' hc.enter
  obtain ⟨a'', b'', hm, hsub, hall⟩ := hp.enter hes'
  have herr : error = 0 := hen (by simp [hm])
  have hstop : stop = [] := by
    by_contra hne
    exact hun ⟨herr, hne⟩
  intro dev hdev
  obtain ⟨h1, h2⟩ := hall herr hstop dev hdev
  exact ⟨by rw [suspends_append]; exact List.mem_append_right _ h1, h2⟩

end EnterTrace

/-- What `suspend_enter` does between the two noirq passes when the first returned 0. -/
theorem suspendCore_spec {env : SuspendEnv D} {state : SuspendState} {s s' : DpmState D}
    {ret : Int} (h : suspendCore env state s = some (ret, s')) :
    ∃ s₂ mid wakeup, s₂.devs = s.devs ∧ s₂.moved = s.moved ∧ s₂.events = s.events ++ mid ∧
      NoCalls mid ∧ (resumeNoirqDevices env 0 wakeup s₂).2 = s' := by
  simp only [suspendCore, platformWake] at h
  split at h
  · exact ⟨s, [], 0, rfl, rfl, by simp, noCalls_nil, congrArg Prod.snd (Option.some.inj h)⟩
  split at h
  · obtain ⟨es, hes⟩ := Stays.emitIf s env.wake (e := .wake) trivial
    exact ⟨_, es, 0, hes.devs, hes.moved, hes.events, hes.inert.noCalls,
      congrArg Prod.snd (Option.some.inj h)⟩
  split at h
  · cases h
  obtain ⟨es, hes⟩ := Stays.emitIf (checkWakeupIrqs env s).2 env.prepareLate (e := .prepareLate)
    trivial
  have hes := (Stays.checkWakeupIrqs env s).trans hes
  split at h
  · obtain ⟨fs, hfs⟩ := Stays.emitIf
      ((checkWakeupIrqs env s).2.emitIf env.prepareLate .prepareLate) env.wake (e := .wake) trivial
    have hall := hes.trans hfs
    exact ⟨_, _, _, hall.devs, hall.moved, hall.events, hall.inert.noCalls,
      congrArg Prod.snd (Option.some.inj h)⟩
  · obtain ⟨fs, hfs⟩ := Stays.emitIf
      (((checkWakeupIrqs env s).2.emitIf env.prepareLate .prepareLate).emit .enter) env.wake
      (e := .wake) trivial
    refine ⟨_, [] ++ es ++ [.enter] ++ fs, _, hfs.devs.trans hes.devs, hfs.moved.trans hes.moved,
      ?_, (hes.inert.noCalls.append noCalls_enter).append hfs.inert.noCalls,
      congrArg Prod.snd (Option.some.inj h)⟩
    rw [hfs.events, DpmState.emit, hes.events]
    simp

theorem suspendEnter_spec {env : SuspendEnv D} {state : SuspendState} {s s' : DpmState D}
    {ret : Int} (hm : s.moved .noirq = []) (h : suspendEnter env state s = some (ret, s')) :
    ∃ es error stop, Undone .noirq s s' es ∧
      EnterTrace env s.checks (s.devs .noirq) error stop es := by
  simp only [suspendEnter] at h
  obtain ⟨es₁, hes₁⟩ := Stays.emitIf s env.prepare.isSome (e := .prepare) trivial
  by_cases hp : env.prepare.getD 0 = 0
  swap
  · rw [if_pos hp] at h
    obtain ⟨es₂, hes₂⟩ := platformFinish_stays env (env.prepare.getD 0) 0
      (s.emitIf env.prepare.isSome .prepare)
    rw [congrArg Prod.snd (Option.some.inj h)] at hes₂
    have hes := hes₁.trans hes₂
    exact ⟨_, _, _, .of_stays hes, .nothing hes.inert fun hc => hp hc.1⟩
  rw [if_neg (by simpa using hp)] at h
  have hchecks : ((s.emitIf env.prepare.isSome .prepare).emit .disableIrqs).checks = s.checks := by
    cases env.prepare.isSome <;> rfl
  generalize hs₁ : (s.emitIf env.prepare.isSome .prepare).emit .disableIrqs = s₁ at h hchecks
  have hst₁ : Stays s (checkWakeupIrqs env s₁).2 (es₁ ++ [.disableIrqs] ++ []) := by
    subst hs₁
    exact (hes₁.trans (Stays.emit (e := .disableIrqs) _ trivial)).trans (.checkWakeupIrqs env _)
  split at h
  · cases h
  by_cases hw : env.wakeup s.checks = 0
  swap
  · have hw' : (checkWakeupIrqs env s₁).1 ≠ 0 := by rwa [checkWakeupIrqs, hchecks]
    rw [if_pos hw'] at h
    obtain ⟨es₂, hes₂⟩ := platformFinish_stays env (-1) (checkWakeupIrqs env s₁).1
      (checkWakeupIrqs env s₁).2
    rw [congrArg Prod.snd (Option.some.inj h)] at hes₂
    have hes := hst₁.trans hes₂
    exact ⟨_, _, _, .of_stays hes, .nothing hes.inert fun hc => hw hc.2⟩
  have hw' : ¬(checkWakeupIrqs env s₁).1 ≠ 0 := by rw [checkWakeupIrqs, hchecks]; simpa using hw
  rw [if_neg hw'] at h
  have hchecks₂ : (checkWakeupIrqs env s₁).2.checks = s.checks + 1 := by
    rw [checkWakeupIrqs, hchecks]
  generalize (checkWakeupIrqs env s₁).2 = s₂ at h hst₁ hchecks₂
  cases hloop : dpmSuspendNoirq env state s₂ with
  | none => rw [hloop] at h; cases h
  | some p =>
    obtain ⟨error, s₃⟩ := p
    rw [hloop] at h
    obtain ⟨pre, post, stop, hd, hsus, hpre, hend, hun⟩ :=
      dpmSuspendNoirqLoop_spec env state _ s₂ rfl hloop
    rw [hst₁.devs] at hd
    -- the rest of the function is a resume pass over whatever `s₄` has moved
    obtain ⟨s₄, mid, e, wakeup, hdevs, hmoved, hev, hmid, hen, hret⟩ :
        ∃ s₄ mid e wakeup, s₄.devs = s₃.devs ∧ s₄.moved = s₃.moved ∧
          s₄.events = s₃.events ++ mid ∧ NoCalls mid ∧ (Event.enter ∈ mid → error = 0) ∧
          (resumeNoirqDevices env e wakeup s₄).2 = s' := by
      by_cases he : error = 0
      · rw [Option.bind_eq_bind, Option.bind_some, if_neg (by simpa using he)] at h
        obtain ⟨s₄, mid, wakeup, h1, h2, h3, h4, h5⟩ := suspendCore_spec h
        exact ⟨s₄, mid, 0, wakeup, h1, h2, h3, h4, fun _ => he, h5⟩
      · rw [Option.bind_eq_bind, Option.bind_some, if_pos he] at h
        exact ⟨s₃.countFail, [], error, 0, rfl, rfl, by simp [DpmState.countFail], noCalls_nil,
          by simp, congrArg Prod.snd (Option.some.inj h)⟩
    have hres := hsus.undone env (by rw [hst₁.devs]; exact hd) (by rw [hst₁.moved]; exact hm)
      hdevs hmoved hev
    obtain ⟨fs, hfs⟩ := platformFinish_stays env e wakeup (dpmResumeNoirq env s₄)
    rw [show (platformFinish env e wakeup (dpmResumeNoirq env s₄)).2 = s' from hret] at hfs
    refine ⟨_, error, stop, (hst₁.trans_undone hres).trans_stays hfs, ⟨_, _, mid, fs, ?_,
      hst₁.inert, hfs.inert, hmid, hen, pre, post, hd, hpre, hend, rfl⟩, ?_⟩
    · simp
    · rw [hun, hchecks₂, hst₁.devs]
      simp [hp, hw]

theorem dpmSuspendLoop_checks (env : SuspendEnv D) (devs : List D) (s : DpmState D) :
    (dpmSuspendLoop env devs s).2.checks = s.checks := by
  induction devs generalizing s with
  | nil => rfl
  | cons dev rest ih =>
    simp only [dpmSuspendLoop]
    split
    · rfl
    · rw [ih]; rfl

/-- The whole cycle: a pass over the normal devices, undone, with the noirq pass inside it. -/
structure CycleTrace (env : SuspendEnv D) (state : SuspendState) (r : Registry D)
    (es : List (Event D)) : Prop where
  shape : ∃ a es' mid b error stop, es = a ++ es' ++ b ∧ Inert a ∧ Inert b ∧
    PassTrace env .normal (r.devs .normal) error stop mid es' ∧ (error = 0 → stop = []) ∧
    (Inert mid ∧ ¬ReachesNoirq env state r ∨
      error = 0 ∧ ∃ c es₂ d error₂ stop₂, mid = c ++ es₂ ++ d ∧ Inert c ∧ Inert d ∧
        EnterTrace env 0 (r.devs .noirq) error₂ stop₂ es₂ ∧
        (error₂ = 0 ∧ stop₂ ≠ [] ↔
          ReachesNoirq env state r ∧ UnmaskedStop env 1 (r.devs .noirq)))

/-- The normal pass does not run. -/
theorem CycleTrace.nothing {env : SuspendEnv D} {state : SuspendState} {r : Registry D}
    {es : List (Event D)} (h : Inert es) (hn : ¬ReachesNoirq env state r) :
    CycleTrace env state r es :=
  ⟨es, [], [], [], -1, [], by simp, h, inert_nil, .nothing env .normal _ (by decide),
    fun _ => rfl, .inl ⟨inert_nil, hn⟩⟩

/-- `Resume_devices` after a suspend pass of the normal devices. -/
theorem Suspended.resumeDevices (env : SuspendEnv D) {pre post calls : List D}
    {s s₁ s₂ : DpmState D} {mid : List (Event D)} (error : Int)
    (h : Suspended .normal pre post calls s s₁) (hd : s.devs .normal = pre ++ post)
    (hm : s.moved .normal = []) (hdevs : s₂.devs = s₁.devs) (hmoved : s₂.moved = s₁.moved)
    (hev : s₂.events = s₁.events ++ mid) :
    ∃ b, Inert b ∧ Undone .normal s (resumeDevices env error s₂).2
      (calls.map (.suspend .normal) ++ mid ++ pre.reverse.map (.resume .normal) ++ b) := by
  obtain ⟨b, hb⟩ := close_stays env error (dpmResume env s₂)
  exact ⟨b, hb.inert, (h.undone env hd hm hdevs hmoved hev).trans_stays hb⟩

theorem Undone.cycle {env : SuspendEnv D} {state : SuspendState} {r : Registry D}
    {stats : SuspendStats D} {s₁ s : DpmState D} {a b mid : List (Event D)} {error : Int}
    {pre post stop : List D} (ha : Stays (r.start stats) s₁ a)
    (hu : Undone .normal s₁ s ((pre ++ stop).map (.suspend .normal) ++ mid ++
      pre.reverse.map (.resume .normal) ++ b)) (hb : Inert b)
    (hd : r.devs .normal = pre ++ post) (hpre : ∀ dev ∈ pre, env.suspend .normal dev = 0)
    (hend : PassEnd env .normal error post stop) (hstop : error = 0 → stop = [])
    (hmid : Inert mid ∧ ¬ReachesNoirq env state r ∨
      error = 0 ∧ ∃ c es₂ d error₂ stop₂, mid = c ++ es₂ ++ d ∧ Inert c ∧ Inert d ∧
        EnterTrace env 0 (r.devs .noirq) error₂ stop₂ es₂ ∧
        (error₂ = 0 ∧ stop₂ ≠ [] ↔
          ReachesNoirq env state r ∧ UnmaskedStop env 1 (r.devs .noirq))) :
    s.devs = r.devs ∧ s.moved = (fun _ => []) ∧ CycleTrace env state r s.events := by
  have h := ha.trans_undone hu
  refine ⟨h.devs, h.moved, a, _, mid, b, error, stop, ?_, ha.inert, hb,
    ⟨pre, post, hd, hpre, hend, rfl⟩, hstop, hmid⟩
  rw [show s.events = _ from h.events]
  simp [Registry.start]

theorem devicesSuspended_spec {env : SuspendEnv D} {state : SuspendState} {s s' : DpmState D}
    {ret : Int} (hm : s.moved .noirq = []) (h : devicesSuspended env state s = some (ret, s')) :
    ∃ s₂ mid error, s₂.devs = s.devs ∧ s₂.moved = s.moved ∧ s₂.events = s.events ++ mid ∧
      (resumeDevices env error s₂).2 = s' ∧
      (Inert mid ∧ suspendTest env .devices = true ∨
        suspendTest env .devices = false ∧ ∃ c es d error₂ stop, mid = c ++ es ++ d ∧
          Inert c ∧ Inert d ∧ EnterTrace env s.checks (s.devs .noirq) error₂ stop es) := by
  simp only [devicesSuspended] at h
  obtain ⟨s₁, hs₁, hst, hk⟩ : ∃ s₁, (if env.pmDebug then s.countSuccess else s) = s₁ ∧
      Stays s s₁ [] ∧ s₁.checks = s.checks := by
    refine ⟨_, rfl, ?_, ?_⟩ <;> split
    · exact ⟨rfl, rfl, by simp [DpmState.countSuccess], inert_nil⟩
    · exact .refl s
    · rfl
    · rfl
  rw [hs₁] at h
  by_cases ht : suspendTest env .devices = true
  · rw [if_pos ht] at h
    exact ⟨s₁, [], 0, hst.devs, hst.moved, hst.events, congrArg Prod.snd (Option.some.inj h),
      .inl ⟨inert_nil, ht⟩⟩
  rw [if_neg ht] at h
  have hst₂ := hst.trans (Stays.emit (e := .suspendScheduler) s₁ trivial)
  cases henter : suspendEnter env state (s₁.emit .suspendScheduler) with
  | none => rw [henter] at h; cases h
  | some p =>
    obtain ⟨error, s₃⟩ := p
    rw [henter] at h
    obtain ⟨es, error₂, stop, hu, htr⟩ := suspendEnter_spec (by rw [hst₂.moved]; exact hm) henter
    have hu' := (hst₂.trans_undone hu).trans_stays
      (Stays.emit (e := .resumeScheduler) s₃ trivial)
    refine ⟨_, _, error, hu'.devs, hu'.moved, hu'.events, congrArg Prod.snd (Option.some.inj h),
      .inr ⟨by simpa using ht, _, es, _, error₂, stop, rfl, hst₂.inert,
        (Stays.emit (e := .resumeScheduler) s₃ trivial).inert, ?_⟩⟩
    rw [← hk, ← hst₂.devs]
    exact htr

theorem suspendDevicesAndEnter_spec {env : SuspendEnv D} {state : SuspendState} {r : Registry D}
    {stats : SuspendStats D} {s : DpmState D} {ret : Int}
    (h : suspendDevicesAndEnter env state (r.start stats) = some (ret, s)) :
    s.devs = r.devs ∧ s.moved = (fun _ => []) ∧ CycleTrace env state r s.events := by
  simp only [suspendDevicesAndEnter] at h
  by_cases hv : validState env state = true
  swap
  · rw [if_pos (by simpa using hv)] at h
    obtain ⟨-, rfl⟩ := by simpa using h
    exact ⟨rfl, rfl, .nothing inert_nil fun hc => hv hc.valid⟩
  rw [if_neg (by simpa using hv)] at h
  obtain ⟨es₁, hes₁⟩ := Stays.emitIf (r.start stats) env.begin.isSome (e := .begin) trivial
  have hchecks : ((r.start stats).emitIf env.begin.isSome .begin).checks = 0 := by
    cases env.begin.isSome <;> rfl
  generalize (r.start stats).emitIf env.begin.isSome .begin = s₁ at h hes₁ hchecks
  by_cases hb : env.begin.getD 0 = 0
  swap
  · rw [if_pos hb] at h
    obtain ⟨es₂, hes₂⟩ := close_stays env (env.begin.getD 0) s₁
    rw [congrArg Prod.snd (Option.some.inj h)] at hes₂
    have hes := hes₁.trans hes₂
    refine ⟨hes.devs, hes.moved, ?_⟩
    rw [show s.events = _ from hes.events]
    exact .nothing hes.inert fun hc => hb hc.begin
  rw [if_neg (by simpa using hb)] at h
  obtain ⟨pre, post, stop, hd, hsus, hpre, hend, hstop, hfail⟩ := dpmSuspend_spec env s₁
  have hdr : r.devs .normal = pre ++ post := by rw [← hd, hes₁.devs]; rfl
  have hm₁ : ∀ op, s₁.moved op = [] := fun op => by rw [hes₁.moved]; rfl
  have hchecks₂ : (dpmSuspend env s₁).2.checks = 0 := (dpmSuspendLoop_checks ..).trans hchecks
  generalize dpmSuspend env s₁ = p at h hsus hend hstop hfail hchecks₂
  obtain ⟨error, s₂⟩ := p
  by_cases he : error = 0
  swap
  · rw [if_pos he] at h
    obtain ⟨s₃, hs₃, h1, h2, h3⟩ : ∃ s₃, (if env.pmDebug then s₂.countFail else s₂) = s₃ ∧
        s₃.devs = s₂.devs ∧ s₃.moved = s₂.moved ∧ s₃.events = s₂.events ++ [] := by
      refine ⟨_, rfl, ?_, ?_, ?_⟩ <;> split <;> simp [DpmState.countFail]
    rw [hs₃] at h
    obtain ⟨b, hbi, hu⟩ := hsus.resumeDevices env error hd (hm₁ _) h1 h2 h3
    rw [congrArg Prod.snd (Option.some.inj h)] at hu
    refine hu.cycle hes₁ hbi hdr hpre hend hstop (.inl ⟨inert_nil, fun hc => ?_⟩)
    obtain ⟨dev, hdev, hne⟩ := hfail he
    rw [hes₁.devs] at hdev
    exact hne (hc.suspend dev hdev)
  rw [if_neg (by simpa using he)] at h
  have hnoirq : s₂.devs .noirq = r.devs .noirq := by
    rw [hsus.devs, Function.update_of_ne (by decide), hes₁.devs]; rfl
  have hm₂ : s₂.moved .noirq = [] := by
    rw [hsus.moved, Function.update_of_ne (by decide)]; exact hm₁ _
  obtain ⟨s₃, mid, e, h1, h2, h3, h4, h5⟩ := devicesSuspended_spec hm₂ h
  obtain ⟨b, hbi, hu⟩ := hsus.resumeDevices env e hd (hm₁ _) h1 h2 h3
  rw [h4] at hu
  refine hu.cycle hes₁ hbi hdr hpre hend hstop ?_
  rw [hchecks₂, hnoirq] at h5
  rcases h5 with ⟨hmid, ht⟩ | ⟨ht, c, es, d, error₂, stop₂, rfl, hc, hdi, htr⟩
  · exact .inl ⟨hmid, fun hc => by rw [hc.test] at ht; cases ht⟩
  refine .inr ⟨he, c, es, d, error₂, stop₂, rfl, hc, hdi, htr, htr.unmasked.trans ?_⟩
  refine ⟨fun ⟨hp, hw, hstop'⟩ => ⟨⟨hv, hb, fun dev hdev => ?_, ht, hp, hw⟩, hstop'⟩,
    fun ⟨hr, hstop'⟩ => ⟨hr.prepare, hr.wakeup, hstop'⟩⟩
  obtain rfl := hend.of_success he (hstop he)
  rw [hdr, List.append_nil] at hdev
  exact hpre dev hdev

section CycleTrace

variable {env : SuspendEnv D} {state : SuspendState} {r : Registry D} {es : List (Event D)}

/-- What the cycle records about the devices of one kind: the suspends are a prefix of the list,
and they are undone, except behind an unmasked stop. -/
theorem CycleTrace.calls (h : CycleTrace env state r es) (op : PmOp) :
    (∃ post, r.devs op = suspends op es ++ post) ∧
      (resumes op es = ((suspends op es).filter fun dev => env.suspend op dev = 0).reverse ↔
        ¬(op = .noirq ∧ ReachesNoirq env state r ∧ UnmaskedStop env 1 (r.devs .noirq))) := by
  obtain ⟨a, es', mid, b, error, stop, rfl, ha, hb, hp, hstop, hmid⟩ := h.shape
  have hns : ¬(error = 0 ∧ stop ≠ []) := fun hc => hc.2 (hstop hc.1)
  simp only [suspends_append, resumes_append, ha.noCalls.suspends, hb.noCalls.suspends,
    ha.noCalls.resumes, hb.noCalls.resumes, List.nil_append, List.append_nil]
  cases op with
  | normal =>
    obtain ⟨hs, hr⟩ : suspends .normal mid = [] ∧ resumes .normal mid = [] := by
      rcases hmid with ⟨hmid, -⟩ | ⟨-, c, es₂, d, _, _, rfl, hc, hd, htr, -⟩
      · exact ⟨hmid.noCalls.suspends, hmid.noCalls.resumes⟩
      · simp [hc.noCalls.suspends, hd.noCalls.suspends, hc.noCalls.resumes, hd.noCalls.resumes,
          htr.normal]
    refine ⟨hp.suspends_eq hs, (hp.undone_iff hs hr).trans ?_⟩
    simp [hns]
  | noirq =>
    rw [hp.suspends_other (by decide), hp.resumes_other (by decide)]
    rcases hmid with ⟨hmid, hn⟩ | ⟨-, c, es₂, d, _, _, rfl, hc, hd, htr, hun⟩
    · simp [hmid.noCalls.suspends, hmid.noCalls.resumes, hn]
    · simp only [suspends_append, resumes_append, hc.noCalls.suspends, hd.noCalls.suspends,
        hc.noCalls.resumes, hd.noCalls.resumes, List.nil_append, List.append_nil]
      refine ⟨htr.suspends_eq, htr.undone_iff.trans (not_congr ?_)⟩
      rw [hun]
      simp

theorem CycleTrace.guarded (h : CycleTrace env state r es)
    (hn : ¬(ReachesNoirq env state r ∧ UnmaskedStop env 1 (r.devs .noirq)))
    {a b : List (Event D)} (he : es = a ++ .enter :: b) (op : PmOp) :
    ∀ dev ∈ r.devs op, dev ∈ suspends op a ∧ env.suspend op dev = 0 := by
  obtain ⟨c, es', mid, d, error, stop, rfl, hc, hd, hp, hstop, hmid⟩ := h.shape
  obtain ⟨b', he'⟩ := split_before he hd.enter
  obtain ⟨a', rfl, hes'⟩ := split_after he' hc.enter
  obtain ⟨a'', b'', hm, hsub, hall⟩ := hp.enter hes'
  rcases hmid with ⟨hmid, -⟩ | ⟨herr, e, es₂, f, error₂, stop₂, hm', hei, hfi, htr, hun⟩
  · exact absurd (by simp [hm]) hmid.enter
  suffices hin : ∀ dev ∈ r.devs op, dev ∈ suspends op a' ∧ env.suspend op dev = 0 by
    intro dev hdev
    obtain ⟨h1, h2⟩ := hin dev hdev
    exact ⟨by rw [suspends_append]; exact List.mem_append_right _ h1, h2⟩
  cases op with
  | normal => exact hall herr (hstop herr)
  | noirq =>
    rw [hm] at hm'
    obtain ⟨b₃, h₃⟩ := split_before hm'.symm hfi.enter
    obtain ⟨a₃, rfl, h₄⟩ := split_after h₃ hei.enter
    intro dev hdev
    obtain ⟨h1, h2⟩ := htr.enter (fun hc => hn (hun.mp hc)) h₄ dev hdev
    exact ⟨hsub _ _ (by rw [suspends_append]; exact List.mem_append_right _ h1), h2⟩

end CycleTrace

/-- In a list without repetitions, undoing calls each device once. -/
theorem count_undone [DecidableEq D] {ok : D → Prop} [DecidablePred ok] {ds : List D}
    (h : ds.Nodup) (dev : D) :
    ((ds.filter fun d => ok d).reverse).count dev = if dev ∈ ds ∧ ok dev then 1 else 0 := by
  rw [List.count_reverse, (h.filter _).count]
  simp

theorem suspendDevicesAndEnter_bracketed_iff [DecidableEq D] {env : SuspendEnv D}
    {state : SuspendState} {r : Registry D} {stats : SuspendStats D} {ret : Int} {s : DpmState D}
    (h : suspendDevicesAndEnter env state (r.start stats) = some (ret, s)) :
    Bracketed env r s ↔
      ¬(ReachesNoirq env state r ∧ UnmaskedStop env 1 (r.devs .noirq)) := by
  obtain ⟨hdevs, hmoved, htr⟩ := suspendDevicesAndEnter_spec h
  constructor
  · intro hb hc
    exact (htr.calls .noirq).2.mp (hb.undone .noirq) ⟨rfl, hc⟩
  · intro hn
    have hundone : ∀ op, resumes op s.events =
        ((suspends op s.events).filter fun dev => env.suspend op dev = 0).reverse :=
      fun op => (htr.calls op).2.mpr fun hc => hn hc.2
    refine ⟨hdevs, fun op => by rw [hmoved], hundone, fun op dev => ?_,
      fun a b he op => htr.guarded hn he op⟩
    obtain ⟨post, hpost⟩ := (htr.calls op).1
    have hnd : (suspends op s.events).Nodup := by
      have := r.nodup op
      rw [hpost] at this
      exact this.of_append_left
    rw [hundone op, count_undone hnd]

/-- Two devices with noirq callbacks that return 0; the first leaves `PRIMASK` clear. -/
def unmaskedEnv : SuspendEnv Nat where
  suspend _ _ := 0
  resume _ _ := 0
  irqFlags dev := dev ≠ 0
  wakeup _ := 0
  begin := none
  prepare := none
  prepareLate := false
  wake := false
  finish := false
  «end» := false
  pmTestLevel := .none
  userSelPowerMode := .sleep
  pmDebug := false

def twoNoirq : Registry Nat where
  devs op := match op with
    | .normal => []
    | .noirq => [0, 1]
  nodup op := by cases op <;> decide
  enterLatency := 0
  exitLatency := 0

def noStats : SuspendStats Nat := ⟨0, 0, fun _ => 0, fun _ => 0, none, .none⟩

/-- Device 0 is suspended and never resumed, device 1 is not suspended, and `enter` runs. -/
theorem unmasked_enters : ∃ s, suspendDevicesAndEnter unmaskedEnv .sleep
      (twoNoirq.start noStats) = some (0, s) ∧
    suspends .noirq s.events = [0] ∧ resumes .noirq s.events = [] ∧ .enter ∈ s.events ∧
    ¬Bracketed unmaskedEnv twoNoirq s := by
  refine ⟨_, rfl, by decide, by decide, by decide, fun hb => ?_⟩
  exact absurd (hb.undone .noirq) (by decide)

/-- The same devices, `PRIMASK` left set. -/
def maskedEnv : SuspendEnv Nat := { unmaskedEnv with irqFlags := fun _ => true }

theorem masked_bracketed : ∃ s, suspendDevicesAndEnter maskedEnv .sleep
      (twoNoirq.start noStats) = some (0, s) ∧ Bracketed maskedEnv twoNoirq s := by
  have hn : ¬(ReachesNoirq maskedEnv .sleep twoNoirq ∧
      UnmaskedStop maskedEnv 1 (twoNoirq.devs .noirq)) := by
    rintro ⟨-, pre, dev, post, -, -, -, -, hm⟩
    cases hm
  exact ⟨_, rfl, (suspendDevicesAndEnter_bracketed_iff rfl).mpr hn⟩

end Pm
end XR806

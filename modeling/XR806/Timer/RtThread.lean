import Mathlib.Logic.Function.Basic
import XR806.Rtt.Ipc
import XR806.Timer.Contract

/-!
# XR806.Timer.RtThread

`os_timer.c` of the RT-Thread port over the kernel's timers (`timer.c`): a list of the active timers
in the order of their timeouts, which `rt_timer_check` looks through at each tick.
-/

namespace XR806
namespace Timer

open Rtt

/-! ## The timers of the kernel -/

/-- `struct rt_timer`; its flags `RT_TIMER_FLAG_PERIODIC` and `RT_TIMER_FLAG_ACTIVATED`. -/
structure RtTimer where
  periodic : Bool
  activated : Bool
  timeoutTick : Nat
  initTick : Nat
  deriving DecidableEq

/-- Where the processor is: `rt_timer_check` has interrupts disabled, so only a callback makes calls
while it runs. -/
inductive Phase where
  | outside
  | checking
  /-- In the callback of the timer, and whether the timer is in the temporary list. -/
  | calling (timer : Nat) (listed : Bool)
  deriving DecidableEq

structure RtTimers where
  /-- The ticks since the start, of which `rt_tick_get` answers the low 32 bits. -/
  now : Nat
  timer : Nat → Option RtTimer
  /-- The private records that are not freed. -/
  priv : Nat → Option Priv
  /-- `rt_timer_list`. -/
  list : List Nat
  phase : Phase

/-- `RT_TICK_MAX / 2`. -/
def rtTickMaxHalf : Nat := (2 ^ 32 - 1) / 2

/-- The loop of `rt_timer_start` over the list, behind the timers with the same timeout. -/
def insertByTimeout (timeout : Nat → Nat) (x : Nat) : List Nat → List Nat
  | [] => [x]
  | t :: rest =>
    if sub32 (timeout t) (timeout x) = 0 then t :: insertByTimeout timeout x rest
    else if sub32 (timeout t) (timeout x) < rtTickMaxHalf then x :: t :: rest
    else t :: insertByTimeout timeout x rest

def Phase.remove (x : Nat) : Phase → Phase
  | .calling timer listed => .calling timer (listed && timer != x)
  | phase => phase

namespace RtTimers

def tickGet (s : RtTimers) : Nat := u32 s.now

def timeout (s : RtTimers) (x : Nat) : Nat := ((s.timer x).map RtTimer.timeoutTick).getD 0

def set (s : RtTimers) (x : Nat) (timer : Option RtTimer) : RtTimers :=
  { s with timer := Function.update s.timer x timer }

@[simp] theorem set_self (s : RtTimers) (x : Nat) (o : Option RtTimer) :
    (s.set x o).timer x = o := Function.update_self ..

theorem set_of_ne {s : RtTimers} {x y : Nat} {o : Option RtTimer} (h : y ≠ x) :
    (s.set x o).timer y = s.timer y := Function.update_of_ne h ..

/-- `_rt_timer_remove`: from the list it is in, which may be the temporary one. -/
def remove (s : RtTimers) (x : Nat) : RtTimers :=
  { s with list := s.list.erase x, phase := s.phase.remove x }

/-- `rt_timer_start`. -/
def timerStart (s : RtTimers) (x : Nat) (t : RtTimer) : RtTimers :=
  let s' := (s.remove x).set x
    (some { t with timeoutTick := u32 (s.tickGet + t.initTick), activated := true })
  { s' with list := insertByTimeout s'.timeout x s'.list }

/-- `rt_timer_stop`. -/
def timerStop (s : RtTimers) (x : Nat) (t : RtTimer) : RtTimers :=
  if t.activated then (s.remove x).set x (some { t with activated := false }) else s

/-- `rt_timer_delete`. -/
def timerDelete (s : RtTimers) (x : Nat) : RtTimers := (s.remove x).set x none

/-- `rt_timer_check` up to the call of the timeout function. -/
def timerTake (s : RtTimers) (x : Nat) (t : RtTimer) (rest : List Nat) : RtTimers :=
  { s.set x (some { t with activated := t.periodic && t.activated }) with
    list := rest, phase := .calling x true }

/-- `rt_timer_check` from the timeout function's return on. -/
def timerReturn (s : RtTimers) (x : Nat) (listed : Bool) : RtTimers :=
  let s' := { s with phase := .checking }
  match s.timer x with
  | none => s'
  | some t =>
    if listed && t.periodic && t.activated then s'.timerStart x { t with activated := false }
    else s'

/-- The timer at the head of the list has timed out. -/
def TimedOut (s : RtTimers) (t : RtTimer) : Prop :=
  sub32 s.tickGet t.timeoutTick < rtTickMaxHalf

end RtTimers

/-! ## The port -/

inductive RtStep (tickPerSecond : Nat) : RtTimers → TimerEvent → RtTimers → Prop where
  | create {s : RtTimers} {x periodMS : Nat} {periodic : Bool} {priv : Priv}
    (hphase : s.phase ≠ .checking) (htimer : s.timer x = none) (hpriv : s.priv x = none) :
    RtStep tickPerSecond s (.create x periodic priv periodMS)
      { s.set x (some ⟨periodic, false, 0, rtTickFromMillisecond tickPerSecond periodMS⟩) with
        priv := Function.update s.priv x (some priv) }
  | start {s : RtTimers} {x : Nat} {t : RtTimer} (hphase : s.phase ≠ .checking)
    (ht : s.timer x = some t) : RtStep tickPerSecond s (.start x) (s.timerStart x t)
  | changePeriod {s : RtTimers} {x periodMS : Nat} {t : RtTimer} (hphase : s.phase ≠ .checking)
    (ht : s.timer x = some t) :
    RtStep tickPerSecond s (.changePeriod x periodMS)
      (s.set x (some { t with initTick := rtTickFromMillisecond tickPerSecond periodMS }))
  | stop {s : RtTimers} {x : Nat} {t : RtTimer} (hphase : s.phase ≠ .checking)
    (ht : s.timer x = some t) : RtStep tickPerSecond s (.stop x) (s.timerStop x t)
  | delete {s : RtTimers} {x : Nat} {t : RtTimer} (hphase : s.phase ≠ .checking)
    (ht : s.timer x = some t) : RtStep tickPerSecond s (.delete x) (s.timerDelete x)
  | free {s : RtTimers} {x : Nat} {priv : Priv} (hphase : s.phase ≠ .checking)
    (ht : s.timer x = none) (hpriv : s.priv x = some priv) :
    RtStep tickPerSecond s (.free x) { s with priv := Function.update s.priv x none }
  | isActive {s : RtTimers} {x : Nat} {t : RtTimer} (hphase : s.phase ≠ .checking)
    (ht : s.timer x = some t) : RtStep tickPerSecond s (.isActive x t.activated) s
  | tick {s : RtTimers} (hphase : s.phase = .outside) :
    RtStep tickPerSecond s .tick { s with now := s.now + 1, phase := .checking }
  | expire {s : RtTimers} {x : Nat} {rest : List Nat} {t : RtTimer}
    (hphase : s.phase = .checking) (hlist : s.list = x :: rest) (ht : s.timer x = some t)
    (hout : s.TimedOut t) :
    RtStep tickPerSecond s (.expire x (s.priv x)) (s.timerTake x t rest)
  | returned {s : RtTimers} {x : Nat} {listed : Bool} (hphase : s.phase = .calling x listed) :
    RtStep tickPerSecond s .kernel (s.timerReturn x listed)
  | checked {s : RtTimers} (hphase : s.phase = .checking)
    (hlist : ∀ x rest t, s.list = x :: rest → s.timer x = some t → ¬s.TimedOut t) :
    RtStep tickPerSecond s .kernel { s with phase := .outside }

/-! ## Ticks of 32 bits -/

section

variable {now d e x : Nat} {timeout due : Nat → Nat} {list : List Nat}

/-- A tick is pending at `now`, in reach of the comparisons of 32 bits. -/
def Near (now d : Nat) : Prop := now ≤ d ∧ d < now + rtTickMaxHalf

theorem sub32_eq_zero_iff (hd : Near now d) (he : Near now e) :
    sub32 (u32 e) (u32 d) = 0 ↔ e = d := by
  unfold Near rtTickMaxHalf at hd he
  unfold sub32 u32
  split <;> omega

theorem sub32_lt_iff (hd : Near now d) (he : Near now e) :
    sub32 (u32 e) (u32 d) < rtTickMaxHalf ↔ d ≤ e := by
  unfold Near rtTickMaxHalf at hd he
  unfold sub32 u32 rtTickMaxHalf
  split <;> omega

theorem u32_inj_of_near (hd : Near now d) (he : Near now e) (h : u32 d = u32 e) : d = e := by
  unfold Near rtTickMaxHalf at hd he
  unfold u32 at h
  omega

theorem perm_insertByTimeout : (insertByTimeout timeout x list).Perm (x :: list) := by
  induction list with
  | nil => exact .refl _
  | cons t rest ih =>
    unfold insertByTimeout
    split
    · exact (ih.cons t).trans (.swap x t rest)
    · split
      · exact .refl _
      · exact (ih.cons t).trans (.swap x t rest)

theorem sorted_insertByTimeout (hx : timeout x = u32 (due x) ∧ Near now (due x))
    (hall : ∀ y ∈ list, timeout y = u32 (due y) ∧ Near now (due y))
    (hsorted : list.Pairwise fun y z => due y ≤ due z) :
    (insertByTimeout timeout x list).Pairwise fun y z => due y ≤ due z := by
  induction list with
  | nil => exact List.pairwise_singleton _ _
  | cons t rest ih =>
    obtain ⟨hhead, htail⟩ := List.pairwise_cons.mp hsorted
    obtain ⟨ht, hneart⟩ := hall t (.head _)
    have hrec := ih (fun y hy => hall y (.tail _ hy)) htail
    have hbehind : due t ≤ due x →
        (t :: insertByTimeout timeout x rest).Pairwise fun y z => due y ≤ due z := by
      intro hle
      refine List.pairwise_cons.mpr ⟨fun y hy => ?_, hrec⟩
      rcases List.mem_cons.mp (perm_insertByTimeout.mem_iff.mp hy) with rfl | hin
      · exact hle
      · exact hhead y hin
    unfold insertByTimeout
    rw [ht, hx.1]
    split
    · rename_i hzero
      exact hbehind ((sub32_eq_zero_iff hx.2 hneart).mp hzero).le
    · split
      · rename_i hlt
        have hle := (sub32_lt_iff hx.2 hneart).mp hlt
        refine List.pairwise_cons.mpr ⟨fun y hy => ?_, hsorted⟩
        rcases List.mem_cons.mp hy with rfl | hin
        · exact hle
        · exact hle.trans (hhead y hin)
      · rename_i hlt
        exact hbehind (Nat.le_of_not_le fun hle => hlt ((sub32_lt_iff hx.2 hneart).mpr hle))

end

/-! ## The kernel's timers and those of the contract -/

/-- The expiry that is pending of a timer: it is in the list, or it goes there when its callback
returns. -/
inductive Armed (s : RtTimers) (x : Nat) (t : RtTimer) : Option Nat → Prop where
  | listed {d : Nat} (hin : x ∈ s.list) (hact : t.activated) (htick : t.timeoutTick = u32 d)
    (hnear : Near s.now d) (hphase : s.phase ≠ .calling x true) : Armed s x t (some d)
  | reloading (hout : x ∉ s.list) (hact : t.activated) (hper : t.periodic)
    (hphase : s.phase = .calling x true) : Armed s x t (some (s.now + t.initTick))
  | dormant (hout : x ∉ s.list) (hact : t.activated = false) : Armed s x t none

structure RtTimer.Is (t : RtTimer) (c : OsTimer) : Prop where
  periodic : t.periodic = c.periodic
  period : t.initTick = c.period
  pos : 1 ≤ t.initTick
  lt : t.initTick < rtTickMaxHalf
  valid : c.valid

/-- The timer and its private record, and what the contract has of them. -/
inductive RtSame (s : RtTimers) (x : Nat) : Option OsTimer → Prop where
  | new (ht : s.timer x = none) (hpriv : s.priv x = none) (hout : x ∉ s.list) : RtSame s x none
  | deleted {c : OsTimer} (ht : s.timer x = none) (hpriv : s.priv x = some c.priv)
    (hout : x ∉ s.list) (hvalid : c.valid = false) (hdue : c.due = none) : RtSame s x (some c)
  | live {t : RtTimer} {c : OsTimer} (ht : s.timer x = some t) (hpriv : s.priv x = some c.priv)
    (hin : t.Is c) (harmed : Armed s x t c.due) : RtSame s x (some c)

def Timers.dueAt (a : Timers) (x : Nat) : Nat := ((a.timer x).bind OsTimer.due).getD 0

structure RtRel (s : RtTimers) (a : Timers) : Prop where
  now : a.now = s.now
  nodup : s.list.Nodup
  sorted : s.list.Pairwise fun x y => a.dueAt x ≤ a.dueAt y
  same : ∀ x, RtSame s x (a.timer x)
  outside : s.phase = .outside → ∀ x ∈ s.list, s.now < a.dueAt x

/-- What a step leaves alone of a timer. -/
structure Kept (s s' : RtTimers) (y : Nat) : Prop where
  timer : s'.timer y = s.timer y
  priv : s'.priv y = s.priv y
  mem : y ∈ s'.list ↔ y ∈ s.list
  phase : s'.phase = .calling y true ↔ s.phase = .calling y true

section

variable {s s' : RtTimers} {a : Timers} {x y n : Nat} {t : RtTimer} {c : OsTimer}
  {o : Option OsTimer} {p : Option Priv} {due : Option Nat}

theorem Armed.kept (h : Armed s y t due) (hnow : s'.now = s.now) (hk : Kept s s' y) :
    Armed s' y t due := by
  cases h with
  | listed hin hact htick hnear hphase =>
    exact .listed (hk.mem.mpr hin) hact htick (hnow ▸ hnear) fun h => hphase (hk.phase.mp h)
  | reloading hout hact hper hphase =>
    rw [← hnow]
    exact .reloading (fun h => hout (hk.mem.mp h)) hact hper (hk.phase.mpr hphase)
  | dormant hout hact => exact .dormant (fun h => hout (hk.mem.mp h)) hact

theorem RtSame.kept (h : RtSame s y o) (hnow : s'.now = s.now) (hk : Kept s s' y) :
    RtSame s' y o := by
  cases h with
  | new ht hpriv hout =>
    exact .new (hk.timer.trans ht) (hk.priv.trans hpriv) fun h => hout (hk.mem.mp h)
  | deleted ht hpriv hout hvalid hdue =>
    exact .deleted (hk.timer.trans ht) (hk.priv.trans hpriv) (fun h => hout (hk.mem.mp h)) hvalid
      hdue
  | live ht hpriv hin harmed =>
    exact .live (hk.timer.trans ht) (hk.priv.trans hpriv) hin (harmed.kept hnow hk)

theorem dueAt_set_of_ne (h : y ≠ x) : (a.set x o).dueAt y = a.dueAt y := by
  rw [Timers.dueAt, Timers.set_of_ne h, Timers.dueAt]

theorem dueAt_eq {d : Nat} (hc : a.timer x = some c) (hdue : c.due = some d) : a.dueAt x = d := by
  rw [Timers.dueAt, hc, Option.bind_some, hdue, Option.getD_some]

/-- The contract's timer of one that is there. -/
theorem RtRel.live (h : RtRel s a) (ht : s.timer x = some t) : ∃ c, a.timer x = some c ∧
    s.priv x = some c.priv ∧ t.Is c ∧ Armed s x t c.due := by
  have hx := h.same x
  cases hc : a.timer x with
  | none =>
    rw [hc] at hx
    cases hx with
    | new hnone => rw [hnone] at ht; cases ht
  | some c =>
    rw [hc] at hx
    cases hx with
    | deleted hnone => rw [hnone] at ht; cases ht
    | live ht' hpriv hin harmed =>
      obtain rfl : t = _ := Option.some.inj (ht.symm.trans ht')
      exact ⟨c, rfl, hpriv, hin, harmed⟩

/-- The timers of the list, with the ticks on which they are due. -/
theorem RtRel.listed (h : RtRel s a) (hin : x ∈ s.list) : ∃ t c, s.timer x = some t ∧
    a.timer x = some c ∧ c.due = some (a.dueAt x) ∧ t.activated ∧
    t.timeoutTick = u32 (a.dueAt x) ∧ Near s.now (a.dueAt x) := by
  have hx := h.same x
  cases hc : a.timer x with
  | none =>
    rw [hc] at hx
    cases hx with
    | new _ _ hout => exact absurd hin hout
  | some c =>
    rw [hc] at hx
    cases hx with
    | deleted _ _ hout => exact absurd hin hout
    | @live t _ ht hpriv his harmed =>
      generalize hdue : c.due = due at harmed
      cases harmed with
      | @listed d _ hact htick hnear _ =>
        have hd := dueAt_eq hc hdue
        exact ⟨t, c, ht, rfl, hd ▸ hdue, hact, hd ▸ htick, hd ▸ hnear⟩
      | reloading hout => exact absurd hin hout
      | dormant hout => exact absurd hin hout

/-- One timer has changed. -/
theorem RtRel.put (h : RtRel s a) (hnow : s'.now = s.now) (hkept : ∀ y, y ≠ x → Kept s s' y)
    (hx : RtSame s' x o) (hnodup : s'.list.Nodup)
    (hsorted : s'.list.Pairwise fun y z => (a.set x o).dueAt y ≤ (a.set x o).dueAt z)
    (hout : s'.phase = .outside → s.phase = .outside)
    (hlater : s'.phase = .outside → x ∈ s'.list → s.now < (a.set x o).dueAt x) :
    RtRel s' (a.set x o) := by
  refine ⟨h.now.trans hnow.symm, hnodup, hsorted, fun y => ?_, fun hphase y hy => ?_⟩
  · by_cases hyx : y = x
    · subst hyx
      rw [Timers.set_self]
      exact hx
    · rw [Timers.set_of_ne hyx]
      exact (h.same y).kept hnow (hkept y hyx)
  · rw [hnow]
    by_cases hyx : y = x
    · subst hyx
      exact hlater hphase hy
    · rw [dueAt_set_of_ne hyx]
      exact h.outside (hout hphase) y ((hkept y hyx).mem.mp hy)

/-- The other timers of the list stay in order. -/
theorem RtRel.sorted_erase (h : RtRel s a) :
    (s.list.erase x).Pairwise fun y z => (a.set x o).dueAt y ≤ (a.set x o).dueAt z := by
  refine (h.sorted.sublist List.erase_sublist).imp_of_mem fun hy hz hle => ?_
  rw [dueAt_set_of_ne (h.nodup.mem_erase_iff.mp hy).1, dueAt_set_of_ne (h.nodup.mem_erase_iff.mp hz).1]
  exact hle

theorem Phase.remove_eq_calling (h : y ≠ x) {phase : Phase} :
    phase.remove x = .calling y true ↔ phase = .calling y true := by
  cases phase with
  | calling z listed =>
    by_cases hz : z = y
    · subst hz
      have hne : (z != x) = true := by simpa using h
      simp [Phase.remove, hne]
    · simp [Phase.remove, hz]
  | _ => exact Iff.rfl

theorem Phase.remove_ne_calling {phase : Phase} : phase.remove x ≠ .calling x true := by
  cases phase with
  | calling z listed =>
    intro h
    simp only [Phase.remove, Phase.calling.injEq, Bool.and_eq_true] at h
    simp [h.1] at h
  | _ => nofun

theorem Phase.remove_eq_outside {phase : Phase} (h : phase.remove x = .outside) :
    phase = .outside := by
  cases phase with
  | calling z listed => cases h
  | _ => exact h

/-- One timer has changed, and is not in the list any more. -/
theorem RtRel.leave (h : RtRel s a) (hnow : s'.now = s.now) (hlist : s'.list = s.list.erase x)
    (htimer : ∀ y, y ≠ x → s'.timer y = s.timer y) (hpriv : ∀ y, y ≠ x → s'.priv y = s.priv y)
    (hphase : ∀ y, y ≠ x → (s'.phase = .calling y true ↔ s.phase = .calling y true))
    (hx : RtSame s' x o) (hout : s'.phase = .outside → s.phase = .outside) :
    RtRel s' (a.set x o) := by
  refine h.put hnow (fun y hy => ⟨htimer y hy, hpriv y hy, ?_, hphase y hy⟩) hx ?_ ?_ hout ?_
  · rw [hlist]
    exact List.mem_erase_of_ne hy
  · rw [hlist]
    exact h.nodup.erase x
  · rw [hlist]
    exact h.sorted_erase
  · intro _ hin
    rw [hlist] at hin
    exact absurd rfl (h.nodup.mem_erase_iff.mp hin).1

/-- `rt_timer_start`, from the callers and from `rt_timer_check`. -/
theorem RtRel.timerStart (h : RtRel s a) (phase : Phase)
    (hphase : ∀ y, y ≠ x → (phase = .calling y true ↔ s.phase = .calling y true))
    (hout : phase = .outside → s.phase = .outside) (hpriv : s.priv x = some c.priv)
    (hin : t.Is c) (hdue : c.due = some (s.now + t.initTick)) :
    RtRel ({ s with phase }.timerStart x t) (a.set x (some c)) := by
  have hperm : ({ s with phase }.timerStart x t).list.Perm (x :: s.list.erase x) :=
    perm_insertByTimeout
  have hself : ({ s with phase }.timerStart x t).timer x =
      some { t with timeoutTick := u32 (s.tickGet + t.initTick), activated := true } :=
    RtTimers.set_self ..
  have hother : ∀ {y}, y ≠ x → ({ s with phase }.timerStart x t).timer y = s.timer y :=
    fun hy => RtTimers.set_of_ne hy
  have hticks : u32 (s.tickGet + t.initTick) = u32 (s.now + t.initTick) := Nat.mod_add_mod ..
  have hnear : Near s.now (s.now + t.initTick) :=
    ⟨Nat.le_add_right .., Nat.add_lt_add_left hin.lt _⟩
  have hat : (a.set x (some c)).dueAt x = s.now + t.initTick := dueAt_eq (Timers.set_self ..) hdue
  refine h.put rfl (fun y hy => ⟨hother hy, rfl, ?_, ?_⟩) ?_ ?_ ?_ ?_ ?_
  · rw [hperm.mem_iff, List.mem_cons, or_iff_right hy]
    exact List.mem_erase_of_ne hy
  · exact (Phase.remove_eq_calling hy).trans (hphase y hy)
  · refine .live hself hpriv ⟨hin.periodic, hin.period, hin.pos, hin.lt, hin.valid⟩ ?_
    rw [hdue]
    exact .listed (hperm.mem_iff.mpr (.head _)) rfl hticks hnear Phase.remove_ne_calling
  · rw [hperm.nodup_iff, List.nodup_cons]
    exact ⟨fun hx => (h.nodup.mem_erase_iff.mp hx).1 rfl, h.nodup.erase x⟩
  · refine @sorted_insertByTimeout s.now x _ _ _ ⟨?_, hat ▸ hnear⟩ (fun y hy => ?_) h.sorted_erase
    · rw [RtTimers.timeout, RtTimers.set_self, hat]
      exact hticks
    · obtain ⟨hyx, hmem⟩ := h.nodup.mem_erase_iff.mp hy
      obtain ⟨t', _, ht', -, -, -, htick, hnear'⟩ := h.listed hmem
      rw [dueAt_set_of_ne hyx, RtTimers.timeout, RtTimers.set_of_ne hyx]
      refine ⟨?_, hnear'⟩
      change ((s.timer y).map RtTimer.timeoutTick).getD 0 = _
      rw [ht']
      exact htick
  · exact fun hp => hout (Phase.remove_eq_outside hp)
  · intro _ _
    rw [hat]
    exact Nat.lt_add_of_pos_right hin.pos

theorem Armed.isSome (h : Armed s x t due) : due.isSome = t.activated := by
  cases h with
  | listed _ hact => rw [hact]; rfl
  | reloading _ hact => rw [hact]; rfl
  | dormant _ hact => rw [hact]; rfl

theorem Armed.eq_none (h : Armed s x t due) (hact : t.activated = false) :
    due = none ∧ x ∉ s.list := by
  cases h with
  | listed _ hact' => rw [hact] at hact'; cases hact'
  | reloading _ hact' => rw [hact] at hact'; cases hact'
  | dormant hout _ => exact ⟨rfl, hout⟩

theorem RtRel.timerStop (h : RtRel s a) (ht : s.timer x = some t) (hpriv : s.priv x = some c.priv)
    (hin : t.Is c) (hdue : c.due = none) : RtRel (s.timerStop x t) (a.set x (some c)) := by
  unfold RtTimers.timerStop
  split
  · refine h.leave rfl rfl (fun y hy => RtTimers.set_of_ne hy) (fun _ _ => rfl)
      (fun y hy => Phase.remove_eq_calling hy) ?_ Phase.remove_eq_outside
    refine .live (RtTimers.set_self ..) hpriv
      ⟨hin.periodic, hin.period, hin.pos, hin.lt, hin.valid⟩ ?_
    rw [hdue]
    exact .dormant (fun hx => (h.nodup.mem_erase_iff.mp hx).1 rfl) rfl
  · rename_i hact
    obtain ⟨c', hc', -, -, harmed⟩ := h.live ht
    have hout := (harmed.eq_none (Bool.eq_false_of_not_eq_true hact)).2
    refine h.leave rfl (List.erase_of_not_mem hout).symm (fun _ _ => rfl) (fun _ _ => rfl)
      (fun _ _ => Iff.rfl) (.live ht hpriv hin ?_) id
    rw [hdue]
    exact .dormant hout (Bool.eq_false_of_not_eq_true hact)

theorem RtRel.timerDelete (h : RtRel s a) (hpriv : s.priv x = some c.priv)
    (hvalid : c.valid = false) (hdue : c.due = none) :
    RtRel (s.timerDelete x) (a.set x (some c)) :=
  h.leave rfl rfl (fun _ hy => RtTimers.set_of_ne hy) (fun _ _ => rfl)
    (fun _ hy => Phase.remove_eq_calling hy)
    (.deleted (RtTimers.set_self ..) hpriv (fun hx => (h.nodup.mem_erase_iff.mp hx).1 rfl) hvalid
      hdue) Phase.remove_eq_outside

/-- The timer at the head of the list has timed out just when it is due. -/
theorem RtRel.timedOut_iff (h : RtRel s a) (hin : x ∈ s.list) (ht : s.timer x = some t) :
    s.TimedOut t ↔ a.dueAt x = s.now := by
  obtain ⟨t', _, ht', -, -, -, htick, hnear⟩ := h.listed hin
  obtain rfl : t = t' := Option.some.inj (ht.symm.trans ht')
  have hnow : Near s.now s.now := ⟨Nat.le_refl _, Nat.lt_add_of_pos_right (by decide)⟩
  rw [RtTimers.TimedOut, htick, RtTimers.tickGet, sub32_lt_iff hnear hnow]
  exact ⟨fun hle => hle.antisymm hnear.1, Nat.le_of_eq⟩

theorem RtRel.timerTake (h : RtRel s a) {rest : List Nat} (hphase : s.phase = .checking)
    (hlist : s.list = x :: rest) (hpriv : s.priv x = some c.priv) (hin : t.Is c)
    (hact : t.activated) :
    RtRel (s.timerTake x t rest) (a.set x
      (some { c with due := if c.periodic then some (a.now + c.period) else none })) := by
  have herase : rest = s.list.erase x := by rw [hlist, List.erase_cons_head]
  have hout : x ∉ rest := fun hx => (h.nodup.mem_erase_iff.mp (herase ▸ hx)).1 rfl
  refine h.leave rfl herase (fun y hy => RtTimers.set_of_ne hy) (fun _ _ => rfl) (fun y hy => ?_)
    (.live (RtTimers.set_self ..) hpriv ⟨hin.periodic, hin.period, hin.pos, hin.lt, hin.valid⟩ ?_)
    nofun
  · rw [hphase]
    exact ⟨fun heq => absurd (by injection heq) hy.symm, nofun⟩
  · rw [← hin.periodic, ← hin.period, h.now]
    by_cases hper : t.periodic
    · rw [if_pos hper]
      exact .reloading hout (by rw [hper, hact]; rfl) hper rfl
    · rw [if_neg hper]
      exact .dormant hout (by rw [Bool.eq_false_of_not_eq_true hper]; rfl)

/-- The callback returns: a periodic timer that it has left alone is armed as the contract has
armed it when it expired. -/
theorem RtRel.timerReturn (h : RtRel s a) {listed : Bool} (hphase : s.phase = .calling x listed) :
    RtRel (s.timerReturn x listed) a := by
  have hother : ∀ y, y ≠ x →
      ((Phase.checking = .calling y true) ↔ s.phase = .calling y true) := by
    intro y hy
    rw [hphase]
    exact ⟨nofun, fun heq => absurd (by injection heq) hy.symm⟩
  have hstay : RtSame { s with phase := .checking } x (a.timer x) →
      RtRel { s with phase := .checking } a := by
    intro hx
    have hput : RtRel { s with phase := .checking } (a.set x (a.timer x)) :=
      h.put rfl (fun y hy => ⟨rfl, rfl, Iff.rfl, hother y hy⟩) hx h.nodup
        (by rw [Timers.set_same rfl]; exact h.sorted) nofun nofun
    rwa [Timers.set_same rfl] at hput
  unfold RtTimers.timerReturn
  dsimp only
  cases hc : a.timer x with
  | none =>
    have hx := h.same x
    rw [hc] at hx
    cases hx with
    | new ht hpriv hout =>
      rw [ht]
      exact hstay (hc ▸ .new ht hpriv hout)
  | some c =>
    have hx := h.same x
    rw [hc] at hx
    cases hx with
    | deleted ht hpriv hout hvalid hdue =>
      rw [ht]
      exact hstay (hc ▸ .deleted ht hpriv hout hvalid hdue)
    | @live t _ ht hpriv hin harmed =>
      rw [ht]
      dsimp only
      generalize hdue : c.due = due at harmed
      cases harmed with
      | listed hmem hact htick hnear hnot =>
        have hlisted : listed = false := by
          cases listed with
          | false => rfl
          | true => exact absurd hphase hnot
        rw [hlisted, Bool.false_and, Bool.false_and, if_neg (by decide)]
        exact hstay (hc ▸ .live ht hpriv hin (hdue ▸ .listed hmem hact htick hnear nofun))
      | reloading hout hact hper hcall =>
        have hlisted : listed = true := by
          rw [hphase] at hcall
          injection hcall
        have hcond : (listed && t.periodic && t.activated) = true := by
          rw [hlisted, hper, hact]
          rfl
        rw [if_pos hcond]
        have hstart := h.timerStart (t := { t with activated := false }) .checking
          hother nofun hpriv ⟨hin.periodic, hin.period, hin.pos, hin.lt, hin.valid⟩ hdue
        rw [Timers.set_same hc] at hstart
        exact hstart
      | dormant hout hact =>
        rw [hact, Bool.and_false, if_neg (by decide)]
        exact hstay (hc ▸ .live ht hpriv hin (hdue ▸ .dormant hout hact))

/-- The time in ticks of a period, when the conversion gives it and the kernel can compare it. -/
structure RtTicks (ticksPerMs periodMS : Nat) : Prop where
  exact : rtTickFromMillisecond (1000 * ticksPerMs) periodMS = ticksPerMs * periodMS
  pos : 1 ≤ ticksPerMs * periodMS
  lt : ticksPerMs * periodMS < rtTickMaxHalf

/-- Where the port does what `os_timer.h` says: a new period comes to a timer whose expiry is
pending for that time already, or that is armed at the end of its callback. -/
def RtOk (ticksPerMs : Nat) (s : RtTimers) : TimerEvent → Prop
  | .create _ _ _ periodMS => RtTicks ticksPerMs periodMS
  | .changePeriod x periodMS => RtTicks ticksPerMs periodMS ∧
    ∃ t, s.timer x = some t ∧ t.activated ∧
      (t.timeoutTick = u32 (s.now + ticksPerMs * periodMS) ∨
        t.periodic ∧ s.phase = .calling x true)
  | _ => True

theorem RtRel.changePeriod (h : RtRel s a) {ticksPerMs periodMS : Nat}
    (hok : RtOk ticksPerMs s (.changePeriod x periodMS)) (ht : s.timer x = some t)
    (hc : a.timer x = some c) (hpriv : s.priv x = some c.priv) (hin : t.Is c)
    (harmed : Armed s x t c.due) :
    RtRel (s.set x (some { t with
        initTick := rtTickFromMillisecond (1000 * ticksPerMs) periodMS }))
      (a.set x (some ({ c with period := ticksPerMs * periodMS }.setDue a.now
        (some (a.now + ticksPerMs * periodMS))))) := by
  obtain ⟨⟨hexact, hpos, hlt⟩, t', ht', hact, hwhen⟩ := hok
  obtain rfl : t = t' := Option.some.inj (ht.symm.trans ht')
  have hnear : Near s.now (s.now + ticksPerMs * periodMS) :=
    ⟨Nat.le_add_right .., Nat.add_lt_add_left hlt _⟩
  have hsame : RtSame (s.set x (some { t with
      initTick := rtTickFromMillisecond (1000 * ticksPerMs) periodMS })) x
      (some ({ c with period := ticksPerMs * periodMS }.setDue a.now
        (some (a.now + ticksPerMs * periodMS)))) := by
    refine .live (RtTimers.set_self ..) hpriv ⟨hin.periodic, hexact, hexact ▸ hpos, hexact ▸ hlt,
      hin.valid⟩ ?_
    change Armed _ x _ (some (a.now + ticksPerMs * periodMS))
    rw [h.now]
    generalize c.due = due at harmed
    cases harmed with
    | @listed d hmem _ htick hd hphase =>
      rcases hwhen with hwhen | ⟨-, hcall⟩
      · exact .listed hmem hact hwhen hnear hphase
      · exact absurd hcall hphase
    | reloading hout _ hper hphase =>
      rw [← hexact]
      exact .reloading hout hact hper hphase
    | dormant _ hnot => rw [hact] at hnot; cases hnot
  have hdue : x ∈ s.list → a.dueAt x = s.now + ticksPerMs * periodMS := by
    intro hmem
    obtain ⟨t', c', ht', hc', hdue, -, htick, hd⟩ := h.listed hmem
    obtain rfl : t = t' := Option.some.inj (ht.symm.trans ht')
    rcases hwhen with hwhen | ⟨hper, hcall⟩
    · exact u32_inj_of_near hd hnear (htick.symm.trans hwhen)
    · generalize c.due = due at harmed
      cases harmed with
      | listed _ _ _ _ hphase => exact absurd hcall hphase
      | reloading hout => exact absurd hmem hout
      | dormant hout => exact absurd hmem hout
  have hnew : (a.set x (some ({ c with period := ticksPerMs * periodMS }.setDue a.now
      (some (a.now + ticksPerMs * periodMS))))).dueAt x = s.now + ticksPerMs * periodMS := by
    rw [← h.now]
    exact dueAt_eq (Timers.set_self ..) rfl
  refine h.put rfl (fun y hy => ⟨RtTimers.set_of_ne hy, rfl, Iff.rfl, Iff.rfl⟩) hsame h.nodup ?_ id
    fun _ _ => ?_
  · have hkeep : ∀ y ∈ s.list, (a.set x (some ({ c with period := ticksPerMs * periodMS }.setDue
        a.now (some (a.now + ticksPerMs * periodMS))))).dueAt y = a.dueAt y := by
      intro y hy
      by_cases hyx : y = x
      · subst hyx
        rw [hnew, hdue hy]
      · exact dueAt_set_of_ne hyx
    refine h.sorted.imp_of_mem fun hy hz hle => ?_
    rw [hkeep _ hy, hkeep _ hz]
    exact hle
  · rw [hnew]
    exact Nat.lt_add_of_pos_right hpos

/-- The next tick: nothing that is due is left over from this one. -/
theorem RtRel.tick (h : RtRel s a) (hphase : s.phase = .outside) :
    RtRel { s with now := s.now + 1, phase := .checking }
      ⟨a.now + 1, fun x => (a.timer x).map fun c => { c with overtaken := false }⟩ := by
  have hat : ∀ x, (Timers.mk (a.now + 1) fun x => (a.timer x).map fun c =>
      { c with overtaken := false }).dueAt x = a.dueAt x := by
    intro x
    rw [Timers.dueAt, Timers.dueAt]
    dsimp only
    cases a.timer x <;> rfl
  refine ⟨by rw [h.now], h.nodup, ?_, fun x => ?_, nofun⟩
  · exact h.sorted.imp fun hle => by rw [hat, hat]; exact hle
  · have hx := h.same x
    dsimp only
    cases hc : a.timer x with
    | none =>
      rw [hc] at hx
      cases hx with
      | new ht hpriv hout => exact .new ht hpriv hout
    | some c =>
      rw [hc] at hx
      cases hx with
      | deleted ht hpriv hout hvalid hdue => exact .deleted ht hpriv hout hvalid hdue
      | live ht hpriv hin harmed =>
        refine .live ht hpriv ⟨hin.periodic, hin.period, hin.pos, hin.lt, hin.valid⟩ ?_
        change Armed _ x _ c.due
        generalize hdue : c.due = due at harmed
        cases harmed with
        | @listed d hmem hact htick hnear hcall =>
          have hlater := h.outside hphase x hmem
          rw [dueAt_eq hc hdue] at hlater
          have hreach : d < s.now + 1 + rtTickMaxHalf := Nat.lt_of_lt_of_le hnear.2 (by omega)
          exact .listed hmem hact htick ⟨hlater, hreach⟩ nofun
        | reloading _ _ _ hcall => rw [hphase] at hcall; cases hcall
        | dormant hout hact => exact .dormant hout hact

/-- The first timer of the list is not due, so none is. -/
theorem RtRel.checked (h : RtRel s a) (hphase : s.phase = .checking)
    (hlist : ∀ x rest t, s.list = x :: rest → s.timer x = some t → ¬s.TimedOut t) :
    RtRel { s with phase := .outside } a := by
  refine ⟨h.now, h.nodup, h.sorted, fun x => ?_, fun _ y hy => ?_⟩
  · refine (h.same x).kept rfl ⟨rfl, rfl, Iff.rfl, ?_⟩
    rw [hphase]
    exact ⟨nofun, nofun⟩
  · cases hl : s.list with
    | nil => rw [hl] at hy; cases hy
    | cons x rest =>
      have hmem : x ∈ s.list := by rw [hl]; exact .head _
      obtain ⟨t, _, ht, -, -, -, -, hnear⟩ := h.listed hmem
      have hhead : s.now < a.dueAt x := by
        refine Nat.lt_of_le_of_ne hnear.1 fun heq => hlist x rest t hl ht ?_
        exact (h.timedOut_iff hmem ht).mpr heq.symm
      have hsorted := h.sorted
      rw [hl] at hsorted hy
      rcases List.mem_cons.mp hy with rfl | hin
      · exact hhead
      · exact hhead.trans_le ((List.pairwise_cons.mp hsorted).1 y hin)

theorem RtStep.contract {ticksPerMs : Nat} {e : TimerEvent}
    (h : Trans.Guarded (RtStep (1000 * ticksPerMs)) (RtOk ticksPerMs) s e s') (hr : RtRel s a) :
    ∃ a', ContractStep ticksPerMs a e a' ∧ RtRel s' a' := by
  obtain ⟨hok, h⟩ := h
  cases h with
  | @create x periodMS periodic priv hphase htimer hpriv =>
    have hx := hr.same x
    have hc : a.timer x = none := by
      generalize ho : a.timer x = o at hx
      cases hx with
      | new => rfl
      | deleted _ hpriv' => rw [hpriv] at hpriv'; cases hpriv'
      | live ht => rw [htimer] at ht; cases ht
    have hout : x ∉ s.list := fun hin => by
      obtain ⟨t, _, ht, _⟩ := hr.listed hin
      rw [htimer] at ht
      cases ht
    refine ⟨_, .create hc, hr.leave rfl (List.erase_of_not_mem hout).symm
      (fun y hy => RtTimers.set_of_ne hy) (fun y hy => Function.update_of_ne hy ..)
      (fun _ _ => Iff.rfl) ?_ id⟩
    obtain ⟨hexact, hpos, hlt⟩ : RtTicks ticksPerMs periodMS := hok
    exact .live (RtTimers.set_self ..) (Function.update_self ..)
      ⟨rfl, hexact, hexact ▸ hpos, hexact ▸ hlt, rfl⟩ (.dormant hout rfl)
  | @start x t hphase ht =>
    obtain ⟨c, hc, hpriv, hin, -⟩ := hr.live ht
    refine ⟨_, .start hc hin.valid, hr.timerStart s.phase (fun _ _ => Iff.rfl) id hpriv
      ⟨hin.periodic, hin.period, hin.pos, hin.lt, hin.valid⟩ ?_⟩
    rw [hin.period, ← hr.now]
    rfl
  | @changePeriod x periodMS t hphase ht =>
    obtain ⟨c, hc, hpriv, hin, harmed⟩ := hr.live ht
    exact ⟨_, .changePeriod hc hin.valid, hr.changePeriod hok ht hc hpriv hin harmed⟩
  | @stop x t hphase ht =>
    obtain ⟨c, hc, hpriv, hin, -⟩ := hr.live ht
    exact ⟨_, .stop hc hin.valid, hr.timerStop ht hpriv
      ⟨hin.periodic, hin.period, hin.pos, hin.lt, hin.valid⟩ rfl⟩
  | @delete x t hphase ht =>
    obtain ⟨c, hc, hpriv, hin, -⟩ := hr.live ht
    exact ⟨_, .delete hc hin.valid, hr.timerDelete hpriv rfl rfl⟩
  | @free x priv hphase ht hpriv =>
    have hx := hr.same x
    generalize ho : a.timer x = o at hx
    cases hx with
    | new _ hnone => rw [hnone] at hpriv; cases hpriv
    | live ht' => rw [ht'] at ht; cases ht
    | deleted _ _ hout hvalid hdue =>
      exact ⟨_, .free ho hvalid, hr.leave rfl (List.erase_of_not_mem hout).symm (fun _ _ => rfl)
        (fun y hy => Function.update_of_ne hy ..) (fun _ _ => Iff.rfl)
        (.new ht (Function.update_self ..) hout) id⟩
  | @isActive x t hphase ht =>
    obtain ⟨c, hc, hpriv, hin, harmed⟩ := hr.live ht
    rw [← harmed.isSome]
    exact ⟨a, .isActive hc hin.valid, hr⟩
  | tick hphase =>
    refine ⟨_, .tick fun x c hc hdue => ?_, hr.tick hphase⟩
    have hx := hr.same x
    rw [hc] at hx
    cases hx with
    | deleted _ _ _ _ hnone => rw [hnone] at hdue; cases hdue
    | live ht _ _ harmed =>
      have hat := dueAt_eq hc hdue
      generalize c.due = due at harmed hdue
      cases harmed with
      | listed hmem =>
        have hlater := hr.outside hphase x hmem
        rw [hat, hr.now] at hlater
        exact absurd hlater (Nat.lt_irrefl _)
      | reloading _ _ _ hcall => rw [hphase] at hcall; cases hcall
      | dormant => cases hdue
  | @expire x rest t hphase hlist ht hout =>
    have hmem : x ∈ s.list := by rw [hlist]; exact .head _
    obtain ⟨t', c, ht', hc, hdue, hact, -, -⟩ := hr.listed hmem
    obtain rfl : t = t' := Option.some.inj (ht.symm.trans ht')
    obtain ⟨c', hc', hpriv, hin, -⟩ := hr.live ht
    obtain rfl : c = c' := Option.some.inj (hc.symm.trans hc')
    rw [hpriv]
    rw [(hr.timedOut_iff hmem ht).mp hout, ← hr.now] at hdue
    exact ⟨_, .expire hc hdue, hr.timerTake hphase hlist hpriv hin hact⟩
  | returned hphase => exact ⟨a, .kernel, hr.timerReturn hphase⟩
  | checked hphase hlist => exact ⟨a, .kernel, hr.checked hphase hlist⟩

def rtTimersStart (now : Nat) : RtTimers := ⟨now, fun _ => none, fun _ => none, [], .outside⟩

theorem rtRel_start (now : Nat) : RtRel (rtTimersStart now) (timersStart now) :=
  ⟨rfl, .nil, .nil, fun _ => .new rfl rfl nofun, fun _ _ h => nomatch h⟩

end

end Timer
end XR806

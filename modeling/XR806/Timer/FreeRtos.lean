import Mathlib.Logic.Function.Basic
import XR806.Word
import XR806.Pm.Wakelock
import XR806.Timer.Contract

/-!
# XR806.Timer.FreeRtos

`os_timer.c` of the FreeRTOS port: the calls send commands to the kernel's timer task (`timers.c`),
which runs the callbacks of the expired timers and handles the commands one by one.

Times are counted without wrapping around; the kernel's second list is for those behind the
overflow of its 32-bit tick.
-/

namespace XR806
namespace Timer

/-! ## The timer task -/

/-- `OS_MSecsToTicks`. -/
def osMSecsToTicks (hz msec : Nat) : Nat := (Pm.osMSecsToTicks hz (.ofNat 32 msec)).toNat

/-- `Timer_t`; its flags `tmrSTATUS_IS_AUTORELOAD` and `tmrSTATUS_IS_ACTIVE`. -/
structure FrTimer where
  autoReload : Bool
  active : Bool
  period : Nat
  /-- The value of its item in the lists of active timers. -/
  item : Option Nat
  deriving DecidableEq

/-- `tmrCOMMAND_START` and so on. -/
inductive Command where
  | start
  | stop
  | changePeriod (period : Nat)
  | delete
  deriving DecidableEq

/-- `DaemonTaskMessage_t`. -/
structure Message where
  timer : Nat
  command : Command
  /-- The tick it was sent at, or a start counts from. -/
  sent : Nat
  deriving DecidableEq

/-- `prvProcessReceivedCommands`, for a timer that has not expired before the command is handled. -/
def Message.apply (m : Message) (now : Nat) (t : FrTimer) : Option FrTimer :=
  match m.command with
  | .start => some { t with active := true, item := some (m.sent + t.period) }
  | .stop => some { t with active := false, item := none }
  | .changePeriod period => some { t with active := true, period, item := some (now + period) }
  | .delete => none

/-- The timer has expired before the start of it is handled. -/
def Message.Late (m : Message) (now : Nat) (t : FrTimer) : Prop :=
  m.command = .start ∧ m.sent + t.period ≤ now

structure FrTimers where
  now : Nat
  timer : Nat → Option FrTimer
  /-- The private records that are not freed. -/
  priv : Nat → Option Priv
  /-- The handle of the timer is valid. -/
  valid : Nat → Bool
  /-- `xTimerQueue`. -/
  queue : List Message

namespace FrTimers

def set (s : FrTimers) (x : Nat) (timer : Option FrTimer) : FrTimers :=
  { s with timer := Function.update s.timer x timer }

def send (s : FrTimers) (m : Message) : FrTimers := { s with queue := s.queue ++ [m] }

/-- `prvProcessExpiredTimer`, of a timer that was due at `d`. -/
def processExpired (s : FrTimers) (x : Nat) (t : FrTimer) (d : Nat) : FrTimers :=
  if t.autoReload then
    if d + t.period ≤ s.now then (s.set x (some { t with item := none })).send ⟨x, .start, d⟩
    else s.set x (some { t with item := some (d + t.period) })
  else s.set x (some { t with active := false, item := none })

/-- The timer task starts a timer that has expired since. -/
def processLate (s : FrTimers) (x : Nat) (t : FrTimer) (sent : Nat) : FrTimers :=
  let s' := s.set x (some { t with active := true, item := none })
  if t.autoReload then s'.send ⟨x, .start, sent + t.period⟩ else s'

end FrTimers

/-! ## The port -/

inductive FrStep (hz queueLength : Nat) : FrTimers → TimerEvent → FrTimers → Prop where
  | create {s : FrTimers} {x periodMS : Nat} {periodic : Bool} {priv : Priv}
    (hpos : 0 < osMSecsToTicks hz periodMS) (htimer : s.timer x = none) (hpriv : s.priv x = none)
    (hvalid : s.valid x = false) (hqueue : ∀ m ∈ s.queue, m.timer ≠ x) :
    FrStep hz queueLength s (.create x periodic priv periodMS)
      { s.set x (some ⟨periodic, false, osMSecsToTicks hz periodMS, none⟩) with
        priv := Function.update s.priv x (some priv)
        valid := Function.update s.valid x true }
  | start {s : FrTimers} {x : Nat} (hvalid : s.valid x) (hroom : s.queue.length < queueLength) :
    FrStep hz queueLength s (.start x) (s.send ⟨x, .start, s.now⟩)
  | changePeriod {s : FrTimers} {x periodMS : Nat} (hvalid : s.valid x)
    (hroom : s.queue.length < queueLength) :
    FrStep hz queueLength s (.changePeriod x periodMS) (s.send ⟨x, .changePeriod periodMS, s.now⟩)
  | stop {s : FrTimers} {x : Nat} (hvalid : s.valid x) (hroom : s.queue.length < queueLength) :
    FrStep hz queueLength s (.stop x) (s.send ⟨x, .stop, s.now⟩)
  | delete {s : FrTimers} {x : Nat} (hvalid : s.valid x) (hroom : s.queue.length < queueLength) :
    FrStep hz queueLength s (.delete x)
      { s.send ⟨x, .delete, s.now⟩ with valid := Function.update s.valid x false }
  | free {s : FrTimers} {x : Nat} {priv : Priv} (hvalid : s.valid x = false)
    (hpriv : s.priv x = some priv) :
    FrStep hz queueLength s (.free x) { s with priv := Function.update s.priv x none }
  | isActive {s : FrTimers} {x : Nat} {t : FrTimer} (hvalid : s.valid x)
    (ht : s.timer x = some t) : FrStep hz queueLength s (.isActive x t.active) s
  | tick {s : FrTimers} : FrStep hz queueLength s .tick { s with now := s.now + 1 }
  | expire {s : FrTimers} {x d : Nat} {t : FrTimer} (ht : s.timer x = some t)
    (hitem : t.item = some d) (hle : d ≤ s.now) :
    FrStep hz queueLength s (.expire x (s.priv x)) (s.processExpired x t d)
  | handle {s : FrTimers} {m : Message} {rest : List Message} {t : FrTimer}
    (hqueue : s.queue = m :: rest) (ht : s.timer m.timer = some t) (hlate : ¬m.Late s.now t) :
    FrStep hz queueLength s .kernel
      { s.set m.timer (m.apply s.now t) with queue := rest }
  | late {s : FrTimers} {m : Message} {rest : List Message} {t : FrTimer}
    (hqueue : s.queue = m :: rest) (ht : s.timer m.timer = some t) (hlate : m.Late s.now t) :
    FrStep hz queueLength s (.expire m.timer (s.priv m.timer))
      ({ s with queue := rest }.processLate m.timer t m.sent)

/-! ## Commands that are not handled yet -/

/-- What becomes of the timer when each command does what it does when it is sent. -/
def replay : List Message → FrTimer → Option FrTimer
  | [], t => some t
  | m :: rest, t => (m.apply m.sent t).bind (replay rest)

/-- The commands for the timer, in order. -/
def FrTimers.messages (s : FrTimers) (x : Nat) : List Message :=
  s.queue.filter fun m => m.timer = x

def FrTimers.outcome (s : FrTimers) (x : Nat) : Option FrTimer :=
  (s.timer x).bind (replay (s.messages x))

structure FrTimer.Ok (t : FrTimer) : Prop where
  pos : 1 ≤ t.period
  active : t.active = t.item.isSome

structure Message.Ok (m : Message) (now : Nat) : Prop where
  sent : m.sent ≤ now
  pos : ∀ period, m.command = .changePeriod period → 1 ≤ period

/-- An expiry that the timer task may come to now was due in this tick, and a call that it has not
handled has overtaken it if there is one. -/
structure Overtaking (s : FrTimers) (x : Nat) (overtaken : Bool) (t : FrTimer) : Prop where
  now : ∀ d, t.item = some d → d < s.now → ∃ m ∈ s.messages x, m.sent < s.now
  overtaken : t.item = some s.now → s.messages x ≠ [] → (∀ m ∈ s.messages x, m.sent = s.now) →
    overtaken

/-- The timer after its commands, and what the contract has of it. -/
structure FrTimer.Is (t : FrTimer) (c : OsTimer) : Prop where
  periodic : t.autoReload = c.periodic
  period : t.period = c.period
  due : t.item = c.due

inductive FrSame (s : FrTimers) (x : Nat) : Option OsTimer → Prop where
  | gone (hpriv : s.priv x = none) (hvalid : s.valid x = false) (hout : s.outcome x = none)
    (hover : ∀ t, s.timer x = some t → Overtaking s x false t) : FrSame s x none
  | deleted {c : OsTimer} (hpriv : s.priv x = some c.priv) (hvalid : s.valid x = false)
    (hcvalid : c.valid = false) (hdue : c.due = none) (hout : s.outcome x = none)
    (hover : ∀ t, s.timer x = some t → Overtaking s x c.overtaken t) : FrSame s x (some c)
  | live {t : FrTimer} {c : OsTimer} (hpriv : s.priv x = some c.priv) (hvalid : s.valid x)
    (hcvalid : c.valid) (hout : s.outcome x = some t) (his : t.Is c)
    (hover : ∀ t, s.timer x = some t → Overtaking s x c.overtaken t) : FrSame s x (some c)

structure FrRel (s : FrTimers) (a : Timers) : Prop where
  now : a.now = s.now
  ok : ∀ x t, s.timer x = some t → t.Ok
  messages : ∀ m ∈ s.queue, m.Ok s.now
  same : ∀ x, FrSame s x (a.timer x)

/-- Where the port does what `os_timer.h` says. The timer task is in time: it handles a new period in
the tick it was sent in, comes to an expiry in the tick it is due, and not to one that a call of an
earlier tick has put off. A record is freed when the end of its timer has been handled or the timer is
not due in this tick, and nobody asks for a timer with commands in the queue. -/
def FrOk (ticksPerMs : Nat) (s : FrTimers) : TimerEvent → Prop
  | .create _ _ _ periodMS =>
    osMSecsToTicks (1000 * ticksPerMs) periodMS = ticksPerMs * periodMS
  | .changePeriod _ periodMS => 1 ≤ periodMS ∧ ticksPerMs = 1
  | .isActive x _ => s.messages x = []
  | .free x => ∀ t, s.timer x = some t → t.item ≠ some s.now
  | .expire x _ => ∀ m ∈ s.messages x, m.sent = s.now
  | .tick => ∀ x t, s.outcome x = some t → t.item ≠ some s.now
  | .kernel => ∀ m rest period, s.queue = m :: rest → m.command = .changePeriod period →
    m.sent = s.now
  | _ => True

section

variable {s s' : FrTimers} {a : Timers} {x y now : Nat} {t t' : FrTimer} {c : OsTimer}
  {m : Message} {o : Option OsTimer} {ms : List Message}

namespace FrTimers

@[simp] theorem set_self (s : FrTimers) (x : Nat) (o : Option FrTimer) :
    (s.set x o).timer x = o := Function.update_self ..

theorem set_of_ne {o : Option FrTimer} (h : y ≠ x) : (s.set x o).timer y = s.timer y :=
  Function.update_of_ne h ..

theorem messages_send_self : (s.send m).messages m.timer = s.messages m.timer ++ [m] := by
  simp [messages, send]

theorem messages_send_of_ne (h : y ≠ m.timer) : (s.send m).messages y = s.messages y := by
  simp [messages, send, h.symm]

theorem messages_cons_self {rest : List Message} (h : s.queue = m :: rest) :
    s.messages m.timer = m :: { s with queue := rest }.messages m.timer := by
  simp [messages, h]

theorem messages_cons_of_ne {rest : List Message} (h : s.queue = m :: rest) (hy : y ≠ m.timer) :
    s.messages y = { s with queue := rest }.messages y := by
  simp [messages, h, hy.symm]

end FrTimers

theorem replay_append : replay (ms ++ [m]) t = (replay ms t).bind (m.apply m.sent) := by
  induction ms generalizing t with
  | nil =>
    change (m.apply m.sent t).bind (replay []) = m.apply m.sent t
    exact Option.bind_fun_some _
  | cons m' rest ih =>
    rw [List.cons_append, replay, replay, Option.bind_assoc]
    exact congrArg _ (funext fun _ => ih)

/-- A command for a timer takes nothing from it but its kind and period. -/
theorem Message.apply_congr (hauto : t.autoReload = t'.autoReload) (hperiod : t.period = t'.period) :
    m.apply now t = m.apply now t' := by
  obtain ⟨auto, active, period, item⟩ := t
  obtain ⟨auto', active', period', item'⟩ := t'
  obtain rfl : auto = auto' := hauto
  obtain rfl : period = period' := hperiod
  unfold Message.apply
  cases m.command <;> rfl

theorem replay_congr (hne : ms ≠ []) (hauto : t.autoReload = t'.autoReload)
    (hperiod : t.period = t'.period) : replay ms t = replay ms t' := by
  cases ms with
  | nil => exact absurd rfl hne
  | cons m rest => rw [replay, replay, Message.apply_congr hauto hperiod]

/-- A command that is handled in time arms nothing for this tick or an earlier one. -/
theorem Message.apply_ok (hm : m.Ok now) (hpos : 1 ≤ t.period) (hlate : ¬m.Late now t)
    (h : m.apply now t = some t') : t'.Ok ∧ ∀ d, t'.item = some d → now < d := by
  unfold Message.apply at h
  cases hcommand : m.command with
  | start =>
    rw [hcommand] at h
    obtain rfl := Option.some.inj h
    refine ⟨⟨hpos, rfl⟩, fun d hd => ?_⟩
    obtain rfl := Option.some.inj hd
    exact Nat.lt_of_not_le fun hle => hlate ⟨hcommand, hle⟩
  | stop =>
    rw [hcommand] at h
    obtain rfl := Option.some.inj h
    exact ⟨⟨hpos, rfl⟩, nofun⟩
  | changePeriod period =>
    rw [hcommand] at h
    obtain rfl := Option.some.inj h
    refine ⟨⟨hm.pos period hcommand, rfl⟩, fun d hd => ?_⟩
    obtain rfl := Option.some.inj hd
    exact Nat.lt_add_of_pos_right (hm.pos period hcommand)
  | delete =>
    rw [hcommand] at h
    cases h

/-- What a step leaves alone of a timer. -/
structure FrKept (s s' : FrTimers) (y : Nat) : Prop where
  timer : s'.timer y = s.timer y
  priv : s'.priv y = s.priv y
  valid : s'.valid y = s.valid y
  messages : s'.messages y = s.messages y

theorem FrKept.outcome (h : FrKept s s' y) : s'.outcome y = s.outcome y := by
  rw [FrTimers.outcome, FrTimers.outcome, h.timer, h.messages]

theorem FrSame.kept (h : FrSame s y o) (hnow : s'.now = s.now) (hk : FrKept s s' y) :
    FrSame s' y o := by
  have hover : ∀ {b}, (∀ t, s.timer y = some t → Overtaking s y b t) →
      ∀ t, s'.timer y = some t → Overtaking s' y b t := by
    intro b h t ht
    obtain ⟨h₁, h₂⟩ := h t (hk.timer ▸ ht)
    rw [← hk.messages, ← hnow] at h₁ h₂
    exact ⟨h₁, h₂⟩
  cases h with
  | gone hpriv hvalid hgone h =>
    exact .gone (hk.priv.trans hpriv) (hk.valid.trans hvalid) (hk.outcome.trans hgone) (hover h)
  | deleted hpriv hvalid hcvalid hdue hgone h =>
    exact .deleted (hk.priv.trans hpriv) (hk.valid.trans hvalid) hcvalid hdue
      (hk.outcome.trans hgone) (hover h)
  | live hpriv hvalid hcvalid hlive his h =>
    exact .live (hk.priv.trans hpriv) (hk.valid.trans hvalid) hcvalid (hk.outcome.trans hlive) his
      (hover h)

/-- One timer has changed. -/
theorem FrRel.put (h : FrRel s a) (hnow : s'.now = s.now) (hkept : ∀ y, y ≠ x → FrKept s s' y)
    (hok : ∀ t, s'.timer x = some t → t.Ok) (hmessages : ∀ m ∈ s'.queue, m.Ok s.now)
    (hx : FrSame s' x o) : FrRel s' (a.set x o) := by
  refine ⟨h.now.trans hnow.symm, fun y t ht => ?_, hnow ▸ hmessages, fun y => ?_⟩
  · by_cases hy : y = x
    · subst hy
      exact hok t ht
    · exact h.ok y t ((hkept y hy).timer ▸ ht)
  · by_cases hy : y = x
    · subst hy
      rw [Timers.set_self]
      exact hx
    · rw [Timers.set_of_ne hy]
      exact (h.same y).kept hnow (hkept y hy)

/-- The timer whose handle is valid. -/
theorem FrRel.live (h : FrRel s a) (hvalid : s.valid x) : ∃ t c, a.timer x = some c ∧ c.valid ∧
    s.priv x = some c.priv ∧ s.outcome x = some t ∧ t.Is c ∧
    ∀ t, s.timer x = some t → Overtaking s x c.overtaken t := by
  have hx := h.same x
  generalize ho : a.timer x = o at hx
  cases hx with
  | gone _ hnot => rw [hnot] at hvalid; cases hvalid
  | deleted _ hnot => rw [hnot] at hvalid; cases hvalid
  | live hpriv _ hcvalid hout his hover => exact ⟨_, _, rfl, hcvalid, hpriv, hout, his, hover⟩

theorem FrTimers.outcome_send (h : s.outcome m.timer = some t) :
    (s.send m).outcome m.timer = m.apply m.sent t := by
  obtain ⟨u, hu, hreplay⟩ := Option.bind_eq_some_iff.mp h
  rw [outcome, messages_send_self]
  change (s.timer m.timer).bind (replay (s.messages m.timer ++ [m])) = _
  rw [hu, Option.bind_some, replay_append, hreplay, Option.bind_some]

/-- A call overtakes what is due, be it an expiry that is pending or one that is overtaken. -/
theorem Overtaking.send (hout : s.outcome m.timer = some t) (his : t.Is c)
    {u : FrTimer} (hu : s.timer m.timer = some u) (h : Overtaking s m.timer c.overtaken u) :
    Overtaking (s.send m) m.timer (c.overtaken || c.due = some s.now) u := by
  constructor
  · intro d hd hlt
    obtain ⟨m', hm', hearlier⟩ := h.now d hd hlt
    refine ⟨m', ?_, hearlier⟩
    rw [FrTimers.messages_send_self]
    exact List.mem_append_left _ hm'
  · intro hitem _ hall
    rw [FrTimers.messages_send_self] at hall
    by_cases hnone : s.messages m.timer = []
    · rw [FrTimers.outcome, hu, Option.bind_some, hnone] at hout
      obtain rfl : u = t := Option.some.inj hout
      have hdue : c.due = some s.now := his.due.symm.trans hitem
      rw [hdue]
      simp
    · rw [h.overtaken hitem hnone fun m' hm' => hall m' (List.mem_append_left _ hm'), Bool.true_or]

theorem FrRel.messages_send (h : FrRel s a) (hm : m.Ok s.now) : ∀ m' ∈ (s.send m).queue,
    m'.Ok s.now := by
  intro m' hin
  rcases List.mem_append.mp hin with hin | hin
  · exact h.messages m' hin
  · rw [List.mem_singleton.mp hin]
    exact hm

/-- A command of a call that leaves the handle valid. -/
theorem FrRel.send (h : FrRel s a) (hvalid : s.valid m.timer) (hc : a.timer m.timer = some c)
    (hm : m.Ok s.now) {c' : OsTimer} (hpriv : c'.priv = c.priv)
    (hcvalid : c'.valid) (hover : c'.overtaken = (c.overtaken || c.due = some s.now))
    (happly : ∀ t : FrTimer, t.Is c → ∃ t', m.apply m.sent t = some t' ∧ t'.Is c') :
    FrRel (s.send m) (a.set m.timer (some c')) := by
  obtain ⟨t, c₁, hc₁, -, hp, hout, his, hov⟩ := h.live hvalid
  obtain rfl : c = c₁ := Option.some.inj (hc.symm.trans hc₁)
  obtain ⟨t', ht', his'⟩ := happly t his
  refine h.put rfl (fun y hy => ⟨rfl, rfl, rfl, FrTimers.messages_send_of_ne hy⟩) (h.ok _)
    (h.messages_send hm)
    (.live (hpriv ▸ hp) hvalid hcvalid ((FrTimers.outcome_send hout).trans ht') his' ?_)
  intro u hu
  rw [hover]
  exact (hov u hu).send hout his hu

/-- `OS_TimerDelete`, up to the free of the record. -/
theorem FrRel.delete (h : FrRel s a) (hvalid : s.valid x) (hc : a.timer x = some c) :
    FrRel { s.send ⟨x, .delete, s.now⟩ with valid := Function.update s.valid x false }
      (a.set x (some { c.setDue a.now none with valid := false })) := by
  obtain ⟨t, c₁, hc₁, -, hp, hout, his, hov⟩ := h.live hvalid
  obtain rfl : c = c₁ := Option.some.inj (hc.symm.trans hc₁)
  have hsent := fun u (hu : s.timer x = some u) =>
    Overtaking.send (m := ⟨x, .delete, s.now⟩) hout his hu (hov u hu)
  refine h.put rfl (fun y hy => ⟨rfl, rfl, Function.update_of_ne hy ..,
    FrTimers.messages_send_of_ne hy⟩) (h.ok x) (h.messages_send ⟨Nat.le_refl _, nofun⟩)
      (.deleted hp (Function.update_self ..) rfl rfl
        (FrTimers.outcome_send (m := ⟨x, .delete, s.now⟩) hout) fun u hu => ?_)
  obtain ⟨h₁, h₂⟩ := hsent u hu
  rw [← h.now] at h₂
  exact ⟨h₁, h.now ▸ h₂⟩

/-- What an expiry of this tick makes of a timer. -/
def FrTimer.expired (t : FrTimer) (now : Nat) : FrTimer :=
  { t with
    active := t.autoReload && t.active
    item := if t.autoReload then some (now + t.period) else none }

theorem FrTimers.processExpired_eq (hpos : 1 ≤ t.period) :
    s.processExpired x t s.now = s.set x (some (t.expired s.now)) := by
  unfold processExpired FrTimer.expired
  by_cases hauto : t.autoReload
  · rw [if_pos hauto, if_neg (by omega), if_pos hauto, hauto, Bool.true_and]
  · rw [if_neg hauto, if_neg hauto, Bool.eq_false_of_not_eq_true hauto, Bool.false_and]

theorem FrTimer.expired_ok (hok : t.Ok) (hitem : t.item = some now) :
    (t.expired now).Ok ∧ ∀ d, (t.expired now).item = some d → now < d := by
  have hpos := hok.pos
  have hactive : t.active = true := by rw [hok.active, hitem]; rfl
  unfold expired
  rw [hactive]
  cases hauto : t.autoReload with
  | false => exact ⟨⟨hpos, rfl⟩, nofun⟩
  | true =>
    refine ⟨⟨hpos, rfl⟩, fun d hd => ?_⟩
    obtain rfl := Option.some.inj hd
    exact Nat.lt_add_of_pos_right hpos

/-- Nothing is due of a timer whose expiry is later. -/
theorem Overtaking.later {b : Bool} (h : ∀ d, t.item = some d → s.now < d) : Overtaking s x b t :=
  ⟨fun d hd hlt => absurd (h d hd) (Nat.lt_asymm hlt), fun hd => absurd (h _ hd) (Nat.lt_irrefl _)⟩

/-- The timer task runs the callback of an expired timer; commands for it may be waiting. -/
theorem FrRel.expire (h : FrRel s a) {ticksPerMs d : Nat} (ht : s.timer x = some t)
    (hitem : t.item = some d) (hle : d ≤ s.now) (hsent : ∀ m ∈ s.messages x, m.sent = s.now) :
    ∃ a', ContractStep ticksPerMs a (.expire x (s.priv x)) a' ∧
      FrRel (s.processExpired x t d) a' := by
  have hok := h.ok x t ht
  have hx := h.same x
  have hover : ∃ b, Overtaking s x b t := by
    generalize a.timer x = o at hx
    cases hx with
    | gone _ _ _ hover => exact ⟨_, hover t ht⟩
    | deleted _ _ _ _ _ hover => exact ⟨_, hover t ht⟩
    | live _ _ _ _ _ hover => exact ⟨_, hover t ht⟩
  obtain rfl : d = s.now := by
    obtain ⟨b, hover⟩ := hover
    by_contra hne
    obtain ⟨m, hm, hlt⟩ := hover.now d hitem (Nat.lt_of_le_of_ne hle hne)
    exact absurd (hsent m hm) (Nat.ne_of_lt hlt)
  obtain ⟨hok', hlater⟩ := FrTimer.expired_ok hok hitem
  rw [FrTimers.processExpired_eq hok.pos]
  have hset : ∀ u, (s.set x (some (t.expired s.now))).timer x = some u → u = t.expired s.now := by
    intro u hu
    rw [FrTimers.set_self] at hu
    exact (Option.some.inj hu).symm
  have hput : ∀ {o}, FrSame (s.set x (some (t.expired s.now))) x o →
      FrRel (s.set x (some (t.expired s.now))) (a.set x o) := fun hx =>
    h.put rfl (fun y hy => ⟨FrTimers.set_of_ne hy, rfl, rfl, rfl⟩) (fun u hu => hset u hu ▸ hok')
      h.messages hx
  have hnext : ∀ {b} u, (s.set x (some (t.expired s.now))).timer x = some u →
      Overtaking (s.set x (some (t.expired s.now))) x b u := fun u hu =>
    .later fun d hd => hlater d (hset u hu ▸ hd)
  have hout : s.messages x ≠ [] →
      (s.set x (some (t.expired s.now))).outcome x = s.outcome x := by
    intro hne
    rw [FrTimers.outcome, FrTimers.outcome, FrTimers.set_self, ht]
    exact replay_congr hne rfl rfl
  have hne : s.outcome x = none → s.messages x ≠ [] := by
    intro hgone hnil
    rw [FrTimers.outcome, ht, hnil] at hgone
    cases hgone
  generalize ho : a.timer x = o at hx
  cases hx with
  | gone _ _ hgone hover =>
    -- the record is freed, and the timer was not due before its end is handled
    exact absurd ((hover t ht).overtaken hitem (hne hgone) hsent) Bool.false_ne_true
  | @deleted c hp hvalid hcvalid hdue hgone hover =>
    -- the timer's end is waiting in the queue, but the record is not freed yet
    replace hne := hne hgone
    rw [hp]
    exact ⟨_, .overtaken ho ((hover t ht).overtaken hitem hne hsent),
      hput (.deleted hp hvalid hcvalid hdue ((hout hne).trans hgone) hnext)⟩
  | @live t' c hp hvalid hcvalid hlive his hover =>
    rw [hp]
    by_cases hnil : s.messages x = []
    · -- nothing overtakes the expiry
      rw [FrTimers.outcome, ht, hnil] at hlive
      obtain rfl : t = t' := Option.some.inj hlive
      refine ⟨_, .expire ho (by rw [← his.due, hitem, h.now]), hput (.live hp hvalid hcvalid
        (t := t.expired s.now) ?_ ⟨his.periodic, his.period, ?_⟩ hnext)⟩
      · rw [FrTimers.outcome, FrTimers.set_self]
        change replay (s.messages x) _ = _
        rw [hnil]
        rfl
      · rw [FrTimer.expired, his.periodic, his.period, h.now]
    · exact ⟨_, .overtaken ho ((hover t ht).overtaken hitem hnil hsent),
        hput (.live hp hvalid hcvalid ((hout hnil).trans hlive)
          ⟨his.periodic, his.period, his.due⟩ hnext)⟩

/-- The timer task handles the first command. -/
theorem FrRel.handle (h : FrRel s a) {rest : List Message} (hqueue : s.queue = m :: rest)
    (ht : s.timer m.timer = some t) (hlate : ¬m.Late s.now t)
    (hsent : ∀ period, m.command = .changePeriod period → m.sent = s.now) :
    FrRel { s.set m.timer (m.apply s.now t) with queue := rest } a := by
  have hpromised : m.apply s.now t = m.apply m.sent t := by
    unfold Message.apply
    cases hcommand : m.command with
    | changePeriod period => rw [hsent period hcommand]
    | _ => rfl
  have happly : ∀ u, m.apply s.now t = some u → u.Ok ∧ ∀ d, u.item = some d → s.now < d :=
    fun u hu => Message.apply_ok (h.messages m (by rw [hqueue]; exact .head _))
      (h.ok _ t ht).pos hlate hu
  have hself : { s.set m.timer (m.apply s.now t) with queue := rest }.timer m.timer =
      m.apply s.now t := FrTimers.set_self ..
  have hout : { s.set m.timer (m.apply s.now t) with queue := rest }.outcome m.timer =
      s.outcome m.timer := by
    rw [FrTimers.outcome, FrTimers.outcome, hself, ht, FrTimers.messages_cons_self hqueue, hpromised]
    rfl
  have hnext : ∀ {b} u, { s.set m.timer (m.apply s.now t) with queue := rest }.timer m.timer =
      some u → Overtaking { s.set m.timer (m.apply s.now t) with queue := rest } m.timer b u :=
    fun u hu => .later (happly u (hself.symm.trans hu)).2
  have hput : FrRel { s.set m.timer (m.apply s.now t) with queue := rest }
      (a.set m.timer (a.timer m.timer)) := by
    refine h.put rfl (fun y hy => ⟨FrTimers.set_of_ne hy, rfl, rfl,
      (FrTimers.messages_cons_of_ne hqueue hy).symm⟩)
      (fun u hu => (happly u (hself.symm.trans hu)).1)
      (fun m' hm' => h.messages m' (by rw [hqueue]; exact .tail _ hm')) ?_
    have hx := h.same m.timer
    generalize a.timer m.timer = o at hx
    cases hx with
    | gone hpriv hvalid hgone => exact .gone hpriv hvalid (hout.trans hgone) hnext
    | deleted hpriv hvalid hcvalid hdue hgone =>
      exact .deleted hpriv hvalid hcvalid hdue (hout.trans hgone) hnext
    | live hpriv hvalid hcvalid hlive his =>
      exact .live hpriv hvalid hcvalid (hout.trans hlive) his hnext
  rwa [Timers.set_same rfl] at hput

/-- The next tick: the timer task has come to every expiry of this one. -/
theorem FrRel.tick (h : FrRel s a) (hidle : ∀ x t, s.outcome x = some t → t.item ≠ some s.now) :
    FrRel { s with now := s.now + 1 }
      ⟨a.now + 1, fun x => (a.timer x).map fun c => { c with overtaken := false }⟩ := by
  refine ⟨by rw [h.now], h.ok, fun m hm => ?_, fun x => ?_⟩
  · obtain ⟨hsent, hpos⟩ := h.messages m hm
    exact ⟨Nat.le_succ_of_le hsent, hpos⟩
  have hsent : ∀ m ∈ s.messages x, m.sent < s.now + 1 := fun m hm =>
    Nat.lt_succ_of_le (h.messages m (List.mem_filter.mp hm).1).sent
  have hnext : ∀ {b}, (∀ t, s.timer x = some t → Overtaking s x b t) →
      ∀ t, s.timer x = some t → Overtaking { s with now := s.now + 1 } x false t := by
    intro b hover t ht
    constructor
    · intro d hd hlt
      by_cases hnil : s.messages x = []
      · -- then the timer is as it has been promised, and not due
        have hout : s.outcome x = some t := by
          rw [FrTimers.outcome, ht, hnil]
          rfl
        have hnot : d ≠ s.now := fun heq => hidle x t hout (heq ▸ hd)
        obtain ⟨m, hm, _⟩ := (hover t ht).now d hd
          (Nat.lt_of_le_of_ne (Nat.le_of_lt_succ hlt) hnot)
        rw [hnil] at hm
        cases hm
      · obtain ⟨m, hm⟩ := List.exists_mem_of_ne_nil _ hnil
        exact ⟨m, hm, hsent m hm⟩
    · intro _ hne hall
      obtain ⟨m, hm⟩ := List.exists_mem_of_ne_nil _ hne
      exact absurd (hall m hm) (Nat.ne_of_lt (hsent m hm))
  have hx := h.same x
  dsimp only
  generalize a.timer x = o at hx
  cases hx with
  | gone hpriv hvalid hgone hover => exact .gone hpriv hvalid hgone (hnext hover)
  | deleted hpriv hvalid hcvalid hdue hgone hover =>
    exact .deleted hpriv hvalid hcvalid hdue hgone (hnext hover)
  | live hpriv hvalid hcvalid hlive his hover =>
    exact .live hpriv hvalid hcvalid hlive ⟨his.periodic, his.period, his.due⟩ (hnext hover)

theorem FrStep.contract {ticksPerMs queueLength : Nat} {e : TimerEvent}
    (h : Trans.Guarded (FrStep (1000 * ticksPerMs) queueLength) (FrOk ticksPerMs) s e s')
    (hr : FrRel s a) : ∃ a', ContractStep ticksPerMs a e a' ∧ FrRel s' a' := by
  obtain ⟨hok, h⟩ := h
  cases h with
  | @create x periodMS periodic priv hpos htimer hpriv hvalid hqueue =>
    have hx := hr.same x
    generalize ho : a.timer x = o at hx
    cases hx with
    | deleted hp => rw [hpriv] at hp; cases hp
    | live hp => rw [hpriv] at hp; cases hp
    | gone =>
      have hperiod : osMSecsToTicks (1000 * ticksPerMs) periodMS = ticksPerMs * periodMS := hok
      have hnil : s.messages x = [] :=
        List.filter_eq_nil_iff.mpr fun m hm => by simpa using hqueue m hm
      have hnew : ∀ u, (s.set x (some ⟨periodic, false, osMSecsToTicks (1000 * ticksPerMs) periodMS,
          none⟩)).timer x = some u →
          u = ⟨periodic, false, osMSecsToTicks (1000 * ticksPerMs) periodMS, none⟩ := by
        intro u hu
        rw [FrTimers.set_self] at hu
        exact (Option.some.inj hu).symm
      refine ⟨_, .create ho, hr.put rfl (fun y hy => ⟨FrTimers.set_of_ne hy,
        Function.update_of_ne hy .., Function.update_of_ne hy .., rfl⟩) ?_ hr.messages ?_⟩
      · intro u hu
        rw [hnew u hu]
        exact ⟨hpos, rfl⟩
      · refine .live (t := ⟨periodic, false, osMSecsToTicks (1000 * ticksPerMs) periodMS, none⟩)
          (Function.update_self ..) (Function.update_self ..) rfl ?_ ⟨rfl, hperiod, rfl⟩ ?_
        · change Option.bind ((s.set x _).timer x) (replay (s.messages x)) = _
          rw [FrTimers.set_self, hnil]
          rfl
        · intro u hu
          rw [hnew u hu]
          exact .later nofun
  | @start x hvalid hroom =>
    obtain ⟨t, c, hc, hcvalid, -⟩ := hr.live hvalid
    have hm : (Message.mk x .start s.now).Ok s.now := ⟨Nat.le_refl _, nofun⟩
    refine ⟨_, .start hc hcvalid, FrRel.send (m := ⟨x, .start, s.now⟩) hr hvalid hc hm rfl
      hcvalid (by rw [← hr.now]; rfl) fun u hu => ?_⟩
    exact ⟨_, rfl, hu.periodic, hu.period, by rw [hu.period, ← hr.now]; rfl⟩
  | @changePeriod x periodMS hvalid hroom =>
    obtain ⟨hpos, rfl⟩ : 1 ≤ periodMS ∧ ticksPerMs = 1 := hok
    obtain ⟨t, c, hc, hcvalid, -⟩ := hr.live hvalid
    have hm : (Message.mk x (.changePeriod periodMS) s.now).Ok s.now :=
      ⟨Nat.le_refl _, fun period hperiod => by cases hperiod; exact hpos⟩
    refine ⟨_, .changePeriod hc hcvalid, FrRel.send (m := ⟨x, .changePeriod periodMS, s.now⟩) hr
      hvalid hc hm rfl hcvalid (by rw [← hr.now]; rfl) fun u hu => ?_⟩
    refine ⟨_, rfl, hu.periodic, (Nat.one_mul _).symm, ?_⟩
    rw [Nat.one_mul, ← hr.now]
    rfl
  | @stop x hvalid hroom =>
    obtain ⟨t, c, hc, hcvalid, -⟩ := hr.live hvalid
    have hm : (Message.mk x .stop s.now).Ok s.now := ⟨Nat.le_refl _, nofun⟩
    refine ⟨_, .stop hc hcvalid, FrRel.send (m := ⟨x, .stop, s.now⟩) hr hvalid hc hm rfl
      hcvalid (by rw [← hr.now]; rfl) fun u hu => ?_⟩
    exact ⟨_, rfl, hu.periodic, hu.period, rfl⟩
  | @delete x hvalid hroom =>
    obtain ⟨t, c, hc, hcvalid, -⟩ := hr.live hvalid
    exact ⟨_, .delete hc hcvalid, hr.delete hvalid hc⟩
  | @free x priv hvalid hpriv =>
    have hx := hr.same x
    generalize ho : a.timer x = o at hx
    cases hx with
    | gone hp => rw [hpriv] at hp; cases hp
    | live _ hv => rw [hvalid] at hv; cases hv
    | deleted hp _ hcvalid hdue hgone hover =>
      exact ⟨_, .free ho hcvalid, hr.put rfl (fun y hy => ⟨rfl, Function.update_of_ne hy .., rfl,
        rfl⟩) (hr.ok x) hr.messages (.gone (Function.update_self ..) hvalid hgone fun t ht =>
          ⟨(hover t ht).now, fun hitem => absurd hitem (hok t ht)⟩)⟩
  | @isActive x t hvalid ht =>
    obtain ⟨u, c, hc, hcvalid, -, hout, his, -⟩ := hr.live hvalid
    have hnil : s.messages x = [] := hok
    rw [FrTimers.outcome, ht, hnil] at hout
    obtain rfl : t = u := Option.some.inj hout
    rw [(hr.ok x t ht).active, his.due]
    exact ⟨a, .isActive hc hcvalid, hr⟩
  | tick =>
    refine ⟨_, .tick fun x c hc hdue => ?_, hr.tick hok⟩
    have hx := hr.same x
    rw [hc] at hx
    cases hx with
    | deleted _ _ _ hnone => rw [hnone] at hdue; cases hdue
    | live _ _ _ hlive his => exact hok x _ hlive (by rw [his.due, hdue, hr.now])
  | expire ht hitem hle => exact hr.expire ht hitem hle hok
  | handle hqueue ht hlate =>
    exact ⟨a, .kernel, hr.handle hqueue ht hlate fun period hperiod =>
      hok _ _ period hqueue hperiod⟩
  | @late m rest t hqueue ht hlate =>
    -- the start was sent in an earlier tick
    have hsent : m.sent = s.now := hok m (by rw [FrTimers.messages_cons_self hqueue]; exact .head _)
    have hpos := (hr.ok _ t ht).pos
    have hle := hlate.2
    omega

def frTimersStart (now : Nat) : FrTimers := ⟨now, fun _ => none, fun _ => none, fun _ => false, []⟩

theorem frRel_start (now : Nat) : FrRel (frTimersStart now) (timersStart now) :=
  ⟨rfl, nofun, nofun, fun _ => .gone rfl rfl rfl nofun⟩

end

end Timer
end XR806

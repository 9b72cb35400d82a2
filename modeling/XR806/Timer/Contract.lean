import Mathlib.Logic.Function.Basic
import XR806.Trans.Run

/-!
# XR806.Timer.Contract

What `os_timer.h` says of the timers, in ticks: a call that starts a timer arms it, an armed timer
expires on its tick, and a periodic one is armed again then.

An expiry of the tick at hand that a call overtakes may still take place in that tick.
-/

namespace XR806
namespace Timer

/-- `OS_TimerPriv`, as given to `OS_TimerCreate`. -/
structure Priv where
  callback : Nat
  argument : Nat
  deriving DecidableEq

inductive TimerEvent where
  | create (timer : Nat) (periodic : Bool) (priv : Priv) (periodMS : Nat)
  | start (timer : Nat)
  | changePeriod (timer periodMS : Nat)
  | stop (timer : Nat)
  /-- The kernel has accepted that the timer is deleted. -/
  | delete (timer : Nat)
  /-- The private record is freed, at the end of `OS_TimerDelete`. -/
  | free (timer : Nat)
  | isActive (timer : Nat) (answer : Bool)
  /-- The callback is run, with what the private record says, if it is not freed. -/
  | expire (timer : Nat) (priv : Option Priv)
  | tick
  /-- A step of the kernel's own. -/
  | kernel
  deriving DecidableEq

/-- A timer that is not freed. -/
structure OsTimer where
  periodic : Bool
  /-- In ticks. -/
  period : Nat
  priv : Priv
  /-- The tick of the expiry that is pending. -/
  due : Option Nat
  /-- A call came before an expiry of this tick. -/
  overtaken : Bool
  valid : Bool
  deriving DecidableEq

structure Timers where
  now : Nat
  timer : Nat → Option OsTimer

def timersStart (now : Nat) : Timers := ⟨now, fun _ => none⟩

def Timers.set (a : Timers) (x : Nat) (timer : Option OsTimer) : Timers :=
  { a with timer := Function.update a.timer x timer }

@[simp] theorem Timers.set_now (a : Timers) (x : Nat) (o : Option OsTimer) :
    (a.set x o).now = a.now := rfl

@[simp] theorem Timers.set_self (a : Timers) (x : Nat) (o : Option OsTimer) :
    (a.set x o).timer x = o := Function.update_self ..

theorem Timers.set_of_ne {a : Timers} {x y : Nat} {o : Option OsTimer} (h : y ≠ x) :
    (a.set x o).timer y = a.timer y := Function.update_of_ne h ..

theorem Timers.set_same {a : Timers} {x : Nat} {o : Option OsTimer} (h : a.timer x = o) :
    a.set x o = a := by
  rw [Timers.set, ← h, Function.update_eq_self]

def OsTimer.setDue (t : OsTimer) (now : Nat) (due : Option Nat) : OsTimer :=
  { t with due, overtaken := t.overtaken || t.due = some now }

inductive ContractStep (ticksPerMs : Nat) : Timers → TimerEvent → Timers → Prop where
  | create {a : Timers} {x periodMS : Nat} {periodic : Bool} {priv : Priv}
    (hnew : a.timer x = none) :
    ContractStep ticksPerMs a (.create x periodic priv periodMS)
      (a.set x (some ⟨periodic, ticksPerMs * periodMS, priv, none, false, true⟩))
  | start {a : Timers} {x : Nat} {t : OsTimer} (ht : a.timer x = some t) (hvalid : t.valid) :
    ContractStep ticksPerMs a (.start x)
      (a.set x (some (t.setDue a.now (some (a.now + t.period)))))
  | changePeriod {a : Timers} {x periodMS : Nat} {t : OsTimer} (ht : a.timer x = some t)
    (hvalid : t.valid) :
    ContractStep ticksPerMs a (.changePeriod x periodMS)
      (a.set x (some ({ t with period := ticksPerMs * periodMS }.setDue a.now
        (some (a.now + ticksPerMs * periodMS)))))
  | stop {a : Timers} {x : Nat} {t : OsTimer} (ht : a.timer x = some t) (hvalid : t.valid) :
    ContractStep ticksPerMs a (.stop x) (a.set x (some (t.setDue a.now none)))
  | delete {a : Timers} {x : Nat} {t : OsTimer} (ht : a.timer x = some t) (hvalid : t.valid) :
    ContractStep ticksPerMs a (.delete x)
      (a.set x (some { t.setDue a.now none with valid := false }))
  | free {a : Timers} {x : Nat} {t : OsTimer} (ht : a.timer x = some t)
    (hvalid : t.valid = false) : ContractStep ticksPerMs a (.free x) (a.set x none)
  | isActive {a : Timers} {x : Nat} {t : OsTimer} (ht : a.timer x = some t) (hvalid : t.valid) :
    ContractStep ticksPerMs a (.isActive x t.due.isSome) a
  | expire {a : Timers} {x : Nat} {t : OsTimer} (ht : a.timer x = some t)
    (hdue : t.due = some a.now) :
    ContractStep ticksPerMs a (.expire x (some t.priv))
      (a.set x (some { t with due := if t.periodic then some (a.now + t.period) else none }))
  | overtaken {a : Timers} {x : Nat} {t : OsTimer} (ht : a.timer x = some t)
    (hover : t.overtaken) :
    ContractStep ticksPerMs a (.expire x (some t.priv))
      (a.set x (some { t with overtaken := false }))
  | tick {a : Timers} (hrun : ∀ x t, a.timer x = some t → t.due ≠ some a.now) :
    ContractStep ticksPerMs a .tick
      ⟨a.now + 1, fun x => (a.timer x).map fun t => { t with overtaken := false }⟩
  | kernel {a : Timers} : ContractStep ticksPerMs a .kernel a

/-! ## What the contract promises -/

/-- A call that may change what is pending of the timer. -/
def TimerEvent.Calls (x : Nat) : TimerEvent → Prop
  | .create timer _ _ _ | .start timer | .changePeriod timer _ | .stop timer | .delete timer
  | .free timer => timer = x
  | _ => False

section

variable {k x d periodMS : Nat} {a a' : Timers} {e : TimerEvent} {es : List TimerEvent}
  {t : OsTimer} {answer : Bool} {p : Option Priv}

/-- What a call arms. -/
theorem ContractStep.changePeriod_inv (h : ContractStep k a (.changePeriod x periodMS) a') :
    ∃ t, a.timer x = some t ∧ a'.now = a.now ∧ ∃ c, a'.timer x = some c ∧
      c.due = some (a.now + k * periodMS) ∧ c.overtaken = (t.overtaken || t.due = some a.now) := by
  cases h with
  | changePeriod ht => exact ⟨_, ht, rfl, _, Timers.set_self .., rfl, rfl⟩

theorem ContractStep.isActive_inv (h : ContractStep k a (.isActive x answer) a') :
    ∃ t, a.timer x = some t ∧ answer = t.due.isSome := by
  cases h with
  | isActive ht => exact ⟨_, ht, rfl⟩

theorem ContractStep.expire_inv (h : ContractStep k a (.expire x p) a') :
    ∃ t, a.timer x = some t ∧ p = some t.priv ∧ (t.due = some a.now ∨ t.overtaken) := by
  cases h with
  | expire ht hdue => exact ⟨_, ht, rfl, .inl hdue⟩
  | overtaken ht hover => exact ⟨_, ht, rfl, .inr hover⟩

/-- A timer that nobody calls: it expires when it is due, or stays as it is. -/
theorem ContractStep.alone (h : ContractStep k a e a') (ht : a.timer x = some t)
    (hover : t.overtaken = false) (hcalls : ¬e.Calls x) :
    (e = .expire x (some t.priv) ∧ t.due = some a.now ∧ a'.now = a.now ∧ a'.timer x =
      some { t with due := if t.periodic then some (a.now + t.period) else none }) ∨
    (e ≠ .expire x (some t.priv) ∧ a'.timer x = some t ∧
      (a'.now = a.now ∨ t.due ≠ some a.now ∧ a'.now = a.now + 1)) := by
  have hother : ∀ {y o}, y ≠ x → (a.set y o).timer x = some t := fun hy => by
    rw [Timers.set_of_ne hy.symm, ht]
  cases h with
  | create => exact .inr ⟨nofun, hother hcalls, .inl rfl⟩
  | start => exact .inr ⟨nofun, hother hcalls, .inl rfl⟩
  | changePeriod => exact .inr ⟨nofun, hother hcalls, .inl rfl⟩
  | stop => exact .inr ⟨nofun, hother hcalls, .inl rfl⟩
  | delete => exact .inr ⟨nofun, hother hcalls, .inl rfl⟩
  | free => exact .inr ⟨nofun, hother hcalls, .inl rfl⟩
  | isActive => exact .inr ⟨nofun, ht, .inl rfl⟩
  | @expire y u hu hdue =>
    by_cases hy : y = x
    · subst hy
      obtain rfl : t = u := Option.some.inj (ht.symm.trans hu)
      exact .inl ⟨rfl, hdue, rfl, Timers.set_self ..⟩
    · exact .inr ⟨fun heq => hy (by injection heq), hother hy, .inl rfl⟩
  | @overtaken y u hu hnow =>
    by_cases hy : y = x
    · subst hy
      obtain rfl : t = u := Option.some.inj (ht.symm.trans hu)
      rw [hover] at hnow
      cases hnow
    · exact .inr ⟨fun heq => hy (by injection heq), hother hy, .inl rfl⟩
  | tick hrun =>
    refine .inr ⟨nofun, ?_, .inr ⟨hrun x t ht, rfl⟩⟩
    dsimp only
    rw [ht, Option.map_some, ← hover]
  | kernel => exact .inr ⟨nofun, ht, .inl rfl⟩

theorem ContractStep.now_le (h : ContractStep k a e a') : a.now ≤ a'.now := by
  cases h with
  | tick => exact Nat.le_succ _
  | _ => exact Nat.le_refl _

/-- A periodic timer that is due at `d` expires then and each period later, and not otherwise: `n`
expiries have been when it is not later than `d + n * period`. -/
theorem expires_every_period (h : Trans.Run (ContractStep k) a es a') (ht : a.timer x = some t)
    (hperiodic : t.periodic) (hdue : t.due = some d) (hle : a.now ≤ d)
    (hover : t.overtaken = false) (hcalls : ∀ e ∈ es, ¬e.Calls x) :
    a'.timer x = some { t with
      due := some (d + es.count (.expire x (some t.priv)) * t.period) } ∧
    a'.now ≤ d + es.count (.expire x (some t.priv)) * t.period ∧
    ∀ m, m < es.count (.expire x (some t.priv)) → d + m * t.period ≤ a'.now := by
  induction h generalizing t d with
  | nil a =>
    rw [List.count_nil, Nat.zero_mul, Nat.add_zero, ← hdue]
    exact ⟨ht, hle, nofun⟩
  | @cons a a₁ a' e es hs hrest ih =>
    have hcalls' : ∀ e ∈ es, ¬e.Calls x := fun e he => hcalls e (.tail _ he)
    rcases hs.alone ht hover (hcalls e (.head _)) with ⟨rfl, hnow, hsame, hnext⟩ |
      ⟨hne, hnext, hlater⟩
    · obtain rfl : d = a.now := Option.some.inj (hdue.symm.trans hnow)
      rw [if_pos hperiodic] at hnext
      obtain ⟨htimer, hend, hall⟩ :=
        ih hnext hperiodic rfl (hsame ▸ Nat.le_add_right ..) hover hcalls'
      have hsum : ∀ n, a.now + t.period + n * t.period = a.now + (n + 1) * t.period := fun n => by
        rw [Nat.succ_mul, Nat.add_assoc, Nat.add_comm t.period]
      rw [List.count_cons_self, ← hsum]
      refine ⟨htimer, hend, fun m hm => ?_⟩
      cases m with
      | zero =>
        rw [Nat.zero_mul, Nat.add_zero, ← hsame]
        exact hrest.invariant (I := fun s => a₁.now ≤ s.now) (Nat.le_refl _)
          fun _ _ _ hi hs => Nat.le_trans hi hs.now_le
      | succ m =>
        rw [← hsum]
        exact hall m (Nat.lt_of_succ_lt_succ hm)
    · rw [List.count_cons_of_ne hne]
      refine ih hnext hperiodic hdue ?_ hover hcalls'
      rcases hlater with hsame | ⟨hnot, hsucc⟩
      · exact hsame ▸ hle
      · rw [hsucc]
        exact Nat.lt_of_le_of_ne hle fun heq => hnot (heq ▸ hdue)

/-- A timer that is not periodic expires once, when it is due, and is inactive then. -/
theorem expires_once (h : Trans.Run (ContractStep k) a es a') (ht : a.timer x = some t)
    (hperiodic : t.periodic = false) (hle : ∀ d, t.due = some d → a.now ≤ d)
    (hover : t.overtaken = false) (hcalls : ∀ e ∈ es, ¬e.Calls x) :
    (es.count (.expire x (some t.priv)) = 0 ∧ a'.timer x = some t ∧
      ∀ d, t.due = some d → a'.now ≤ d) ∨
    (es.count (.expire x (some t.priv)) = 1 ∧ a'.timer x = some { t with due := none } ∧
      ∃ d, t.due = some d ∧ d ≤ a'.now) := by
  induction h generalizing t with
  | nil a => exact .inl ⟨rfl, ht, hle⟩
  | @cons a a₁ a' e es hs hrest ih =>
    have hcalls' : ∀ e ∈ es, ¬e.Calls x := fun e he => hcalls e (.tail _ he)
    rcases hs.alone ht hover (hcalls e (.head _)) with ⟨rfl, hnow, hsame, hnext⟩ |
      ⟨hne, hnext, hlater⟩
    · rw [hperiodic, if_neg (by decide)] at hnext
      rw [List.count_cons_self]
      rcases ih hnext rfl nofun hover hcalls' with ⟨hzero, hend, -⟩ | ⟨-, -, d, hd, -⟩
      · refine .inr ⟨by rw [hzero], hperiodic ▸ hend, a.now, hnow, ?_⟩
        rw [← hsame]
        exact hrest.invariant (I := fun s => a₁.now ≤ s.now) (Nat.le_refl _)
          fun _ _ _ hi hs => Nat.le_trans hi hs.now_le
      · cases hd
    · rw [List.count_cons_of_ne hne]
      refine ih hnext hperiodic (fun d hd => ?_) hover hcalls'
      rcases hlater with hsame | ⟨hnot, hsucc⟩
      · exact hsame ▸ hle d hd
      · rw [hsucc]
        exact Nat.lt_of_le_of_ne (hle d hd) fun heq => hnot (heq ▸ hd)

end

end Timer
end XR806

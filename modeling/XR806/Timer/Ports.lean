import XR806.Timer.FreeRtos
import XR806.Timer.RtThread

/-!
# XR806.Timer.Ports

The timers of both ports against `os_timer.h`.

On RT-Thread `OS_TimerChangePeriod` stores the new period and arms nothing (`period_not_armed`). On
FreeRTOS it hands on milliseconds for ticks, and `OS_TimerDelete` frees the record that the timer
task may still read.
-/

namespace XR806
namespace Timer

/-- Whatever the order of calls, ticks and expiries, both ports do as the contract says, as long as
each step is one at which the port can. -/
theorem ports_keep_contract (ticksPerMs queueLength now : Nat) :
    (∀ es s, Trans.Run (Trans.Guarded (RtStep (1000 * ticksPerMs)) (RtOk ticksPerMs))
        (rtTimersStart now) es s →
      ∃ a, Trans.Run (ContractStep ticksPerMs) (timersStart now) es a ∧ RtRel s a) ∧
    ∀ es s, Trans.Run (Trans.Guarded (FrStep (1000 * ticksPerMs) queueLength) (FrOk ticksPerMs))
        (frTimersStart now) es s →
      ∃ a, Trans.Run (ContractStep ticksPerMs) (timersStart now) es a ∧ FrRel s a :=
  ⟨fun _ _ h => h.simulation (rtRel_start now) fun _ _ _ _ hr hs => RtStep.contract hs hr,
    fun _ _ h => h.simulation (frRel_start now) fun _ _ _ _ hr hs => FrStep.contract hs hr⟩

/-- A timer of five milliseconds that is started. -/
theorem ports_keep_contract_started : ∃ s a,
    Trans.Run (Trans.Guarded (RtStep (1000 * 1)) (RtOk 1)) (rtTimersStart 0)
      [.create 0 true ⟨1, 2⟩ 5, .start 0] s ∧
    Trans.Run (ContractStep 1) (timersStart 0) [.create 0 true ⟨1, 2⟩ 5, .start 0] a := by
  have hrun : ∃ s, Trans.Run (Trans.Guarded (RtStep (1000 * 1)) (RtOk 1)) (rtTimersStart 0)
      [.create 0 true ⟨1, 2⟩ 5, .start 0] s :=
    ⟨_, .cons ⟨⟨by decide, by decide, by decide⟩,
      .create (show Phase.outside ≠ .checking by decide) rfl rfl⟩
        (.cons ⟨trivial, .start (show Phase.outside ≠ .checking by decide) rfl⟩ (.nil _))⟩
  obtain ⟨s, hs⟩ := hrun
  obtain ⟨a, ha, -⟩ := (ports_keep_contract 1 10 0).1 _ _ hs
  exact ⟨s, a, hs, ha⟩

/-- A period change that does not start a timer, an expiry that reads a freed record, and one after
five milliseconds at two ticks each that comes with the fifth tick. -/
theorem period_not_armed :
    ((∃ s, Trans.Run (RtStep 1000) (rtTimersStart 0)
        [.create 0 false ⟨1, 2⟩ 5, .changePeriod 0 5, .isActive 0 false] s) ∧
      ¬∃ a, Trans.Run (ContractStep 1) (timersStart 0)
        [.create 0 false ⟨1, 2⟩ 5, .changePeriod 0 5, .isActive 0 false] a) ∧
    ((∃ s, Trans.Run (FrStep 2000 10) (frTimersStart 0)
        [.create 0 false ⟨1, 2⟩ 5, .changePeriod 0 1, .kernel, .tick, .expire 0 (some ⟨1, 2⟩)] s) ∧
      ¬∃ a, Trans.Run (ContractStep 2) (timersStart 0)
        [.create 0 false ⟨1, 2⟩ 5, .changePeriod 0 1, .kernel, .tick, .expire 0 (some ⟨1, 2⟩)] a) ∧
    (∃ s, Trans.Run (FrStep 1000 10) (frTimersStart 0) [.create 0 false ⟨1, 2⟩ 1, .start 0, .kernel,
        .tick, .delete 0, .free 0, .expire 0 none] s) ∧
      ¬∃ a, Trans.Run (ContractStep 1) (timersStart 0) [.create 0 false ⟨1, 2⟩ 1, .start 0, .kernel,
        .tick, .delete 0, .free 0, .expire 0 none] a := by
  refine ⟨⟨?_, ?_⟩, ⟨?_, ?_⟩, ?_, ?_⟩
  · have hactive : ∀ s : RtTimers, s.phase ≠ .checking → s.timer 0 = some ⟨false, false, 0, 5⟩ →
        RtStep 1000 s (.isActive 0 false) s := fun s hphase ht => .isActive hphase ht
    exact ⟨_, .cons (.create (show Phase.outside ≠ .checking by decide) rfl rfl)
      (.cons (.changePeriod (show Phase.outside ≠ .checking by decide) rfl)
        (.cons (hactive _ (show Phase.outside ≠ .checking by decide) rfl) (.nil _)))⟩
  · rintro ⟨a, h⟩
    obtain _ | ⟨-, _ | ⟨hchange, _ | ⟨hactive, -⟩⟩⟩ := h
    obtain ⟨-, -, -, c, hc, hdue, -⟩ := hchange.changePeriod_inv
    obtain ⟨t, ht, hanswer⟩ := hactive.isActive_inv
    obtain rfl : c = t := Option.some.inj (hc.symm.trans ht)
    rw [hdue] at hanswer
    cases hanswer
  · exact ⟨_, .cons (.create (by decide) rfl rfl rfl nofun) (.cons (.changePeriod rfl (by decide))
      (.cons (.handle rfl rfl fun hlate => nomatch hlate.1)
        (.cons .tick (.cons (.expire rfl rfl (by decide)) (.nil _)))))⟩
  · rintro ⟨a, h⟩
    obtain _ | ⟨hcreate, _ | ⟨hchange, _ | ⟨hkernel, _ | ⟨htick, _ | ⟨hexpire, -⟩⟩⟩⟩⟩ := h
    cases hcreate
    obtain ⟨t, ht, hnow, c, hc, hdue, hover⟩ := hchange.changePeriod_inv
    rw [Timers.set_self] at ht
    obtain rfl := Option.some.inj ht
    cases hkernel
    cases htick
    obtain ⟨u, hu, -, hwhen⟩ := hexpire.expire_inv
    dsimp only at hu hwhen
    rw [hc] at hu
    obtain rfl := Option.some.inj hu
    rw [hnow] at hwhen
    rcases hwhen with hnow | hover
    · exact absurd (hdue.symm.trans hnow) (by decide)
    · cases hover
  · exact ⟨_, .cons (.create (by decide) rfl rfl rfl nofun) (.cons (.start rfl (by decide))
      (.cons (.handle rfl rfl fun hlate => absurd hlate.2 (by decide)) (.cons .tick
        (.cons (.delete rfl (by decide)) (.cons (.free rfl rfl)
          (.cons (.expire rfl rfl (by decide)) (.nil _)))))))⟩
  · rintro ⟨a, h⟩
    obtain _ | ⟨-, _ | ⟨-, _ | ⟨-, _ | ⟨-, _ | ⟨-, _ | ⟨-, _ | ⟨hexpire, -⟩⟩⟩⟩⟩⟩⟩ := h
    obtain ⟨t, -, hnone, -⟩ := hexpire.expire_inv
    cases hnone

end Timer
end XR806

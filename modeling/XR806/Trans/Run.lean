import Mathlib.Tactic.Common

/-!
# Trans.Run

Labelled transition systems `step : σ → α → σ → Prop`, their finite runs, and the rules that
carry a fact about one step to whole runs.

* `Run.invariant`: what every step preserves holds at the end of every run.
* `Run.labels`: the same, and a fact about the label of every step.
* `Run.flow`: when each step puts its items behind a stock of them, or takes its items from the
  front, they come out in the order in which they went in.
* `Run.peak`: a maximum that every step brings up to date is the greatest value of the run.
* `Run.simulation`: a relation that every step of one system can keep by a step of another with
  the same label is kept by whole runs.
* `Guarded step ok`: the steps of `step` that also meet the condition `ok`.
-/

namespace Trans

variable {σ τ α β : Type*}

inductive Run (step : σ → α → σ → Prop) : σ → List α → σ → Prop where
  | nil (s : σ) : Run step s [] s
  | cons {s s' s'' : σ} {a : α} {as : List α} : step s a s' → Run step s' as s'' →
    Run step s (a :: as) s''

/-- The states some run from `s` ends in. -/
def Reachable (step : σ → α → σ → Prop) (s s' : σ) : Prop := ∃ as, Run step s as s'

/-- On the way from `s` to `s'`, the greatest value of `f` is `n`. -/
def IsPeak (step : σ → α → σ → Prop) (f : σ → Nat) (s s' : σ) (n : Nat) : Prop :=
  (∀ bs t cs, Run step s bs t → Run step t cs s' → f t ≤ n) ∧
    ∃ bs t cs, Run step s bs t ∧ Run step t cs s' ∧ f t = n

def Guarded (step : σ → α → σ → Prop) (ok : σ → α → Prop) (s : σ) (a : α) (s' : σ) : Prop :=
  ok s a ∧ step s a s'

section

variable {step step' : σ → α → σ → Prop} {s s' s'' : σ} {a : α} {as bs : List α}

theorem Run.single (h : step s a s') : Run step s [a] s' := .cons h (.nil s')

theorem Run.append (h : Run step s as s') (h' : Run step s' bs s'') :
    Run step s (as ++ bs) s'' := by
  induction h with
  | nil s => exact h'
  | cons hs _ ih => exact .cons hs (ih h')

theorem Run.mono (h : Run step s as s') (hstep : ∀ s a s', step s a s' → step' s a s') :
    Run step' s as s' := by
  induction h with
  | nil s => exact .nil s
  | cons hs _ ih => exact .cons (hstep _ _ _ hs) ih

theorem Run.invariant {I : σ → Prop} (h : Run step s as s') (h0 : I s)
    (hstep : ∀ s a s', I s → step s a s' → I s') : I s' := by
  induction h with
  | nil s => exact h0
  | cons hs _ ih => exact ih (hstep _ _ _ h0 hs)

/-- As `Run.invariant`, and every label has a property that each step gives it. -/
theorem Run.labels {I : σ → Prop} {P : α → Prop} (h : Run step s as s') (h0 : I s)
    (hstep : ∀ s a s', I s → step s a s' → I s' ∧ P a) : I s' ∧ ∀ a ∈ as, P a := by
  induction h with
  | nil s => exact ⟨h0, nofun⟩
  | cons hs _ ih =>
    obtain ⟨hI, hP⟩ := hstep _ _ _ h0 hs
    obtain ⟨hI', hall⟩ := ih hI
    exact ⟨hI', List.forall_mem_cons.mpr ⟨hP, hall⟩⟩

/-- What comes out is what was there and what goes in, in that order. -/
theorem Run.flow {I : σ → Prop} {stock : σ → List β} {into out : α → List β} (h : Run step s as s')
    (h0 : I s)
    (hstep : ∀ s a s', I s → step s a s' → I s' ∧ stock s ++ into a = out a ++ stock s') :
    stock s ++ as.flatMap into = as.flatMap out ++ stock s' := by
  induction h with
  | nil s => simp
  | @cons s s₁ s' a as hs _ ih =>
    obtain ⟨hI, hone⟩ := hstep _ _ _ h0 hs
    calc stock s ++ (a :: as).flatMap into
        = out a ++ (stock s₁ ++ as.flatMap into) := by
          rw [List.flatMap_cons, ← List.append_assoc, hone, List.append_assoc]
      _ = (a :: as).flatMap out ++ stock s' := by
          rw [ih hI, List.flatMap_cons, List.append_assoc]

/-- A maximum that starts right, and that every step brings up to date. -/
theorem Run.peak {I : σ → Prop} {f g : σ → Nat} (h : Run step s as s') (h0 : I s) (hg : g s = f s)
    (hstep : ∀ s a s', I s → step s a s' → I s' ∧ g s' = max (g s) (f s')) :
    IsPeak step f s s' (g s') := by
  constructor
  · intro bs t cs hbefore hafter
    obtain ⟨ht, hle⟩ : I t ∧ f t ≤ g t := by
      refine hbefore.invariant (I := fun t => I t ∧ f t ≤ g t) ⟨h0, Nat.le_of_eq hg.symm⟩ ?_
      intro t a t' ht hs
      obtain ⟨hI, hmax⟩ := hstep t a t' ht.1 hs
      exact ⟨hI, hmax ▸ Nat.le_max_right ..⟩
    refine (hafter.invariant (I := fun t => I t ∧ f _ ≤ g t) ⟨ht, hle⟩ ?_).2
    intro t a t' ht hs
    obtain ⟨hI, hmax⟩ := hstep t a t' ht.1 hs
    exact ⟨hI, hmax ▸ Nat.le_trans ht.2 (Nat.le_max_left ..)⟩
  · refine (h.invariant (I := fun s' => I s' ∧ (∃ as, Run step s as s') ∧
      ∃ bs t cs, Run step s bs t ∧ Run step t cs s' ∧ f t = g s')
      ⟨h0, ⟨[], .nil s⟩, [], s, [], .nil s, .nil s, hg.symm⟩ ?_).2.2
    rintro t a t' ⟨hI, ⟨as, hrun⟩, bs, u, cs, hbefore, hafter, hu⟩ hs
    obtain ⟨hI', hmax⟩ := hstep t a t' hI hs
    have hrun' := hrun.append (.single hs)
    refine ⟨hI', ⟨_, hrun'⟩, ?_⟩
    rcases Nat.le_total (g t) (f t') with hle | hle
    · exact ⟨_, t', [], hrun', .nil t', by rw [hmax, Nat.max_eq_right hle]⟩
    · exact ⟨bs, u, _, hbefore, hafter.append (.single hs), by rw [hmax, Nat.max_eq_left hle, hu]⟩

theorem Run.simulation {stepT : τ → α → τ → Prop} {R : σ → τ → Prop} {t : τ}
    (h : Run step s as s') (h0 : R s t)
    (hstep : ∀ s a s' t, R s t → step s a s' → ∃ t', stepT t a t' ∧ R s' t') :
    ∃ t', Run stepT t as t' ∧ R s' t' := by
  induction h generalizing t with
  | nil s => exact ⟨t, .nil t, h0⟩
  | cons hs _ ih =>
    obtain ⟨t₁, ht₁, hr₁⟩ := hstep _ _ _ _ h0 hs
    obtain ⟨t', ht', hr'⟩ := ih hr₁
    exact ⟨t', .cons ht₁ ht', hr'⟩

end

end Trans

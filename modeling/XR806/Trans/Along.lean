import Mathlib.Tactic.Common

/-!
# Trans.Along

Machines `next : σ → α → σ` that take one step for each label, and what holds of every step of a
run.

* `Along next P s as`: each step of the run from `s` has `P`, a property of the state before it and
  its label.
* `along_iff`: two properties that say the same of each step from a state with the invariant say
  the same of a run, when steps that have them keep the invariant.
* `along_imp`: one property of each step from a state with the invariant gives another.
* `along_and`, `along_append`: two properties, and a run in two parts.
* `along_forall`: a property of the labels alone.
* `along_foldl`: an invariant that such steps keep holds behind the run.
-/

namespace Trans

variable {σ α : Type*}

def Along (next : σ → α → σ) (P : σ → α → Prop) : σ → List α → Prop
  | _, [] => True
  | s, a :: as => P s a ∧ Along next P (next s a) as

section

variable {next : σ → α → σ} {P Q : σ → α → Prop} {I : σ → Prop} {s : σ} {as : List α}

instance decidableAlong [∀ s a, Decidable (P s a)] :
    (s : σ) → (as : List α) → Decidable (Along next P s as)
  | _, [] => isTrue trivial
  | s, a :: as =>
    have := decidableAlong (next s a) as
    inferInstanceAs (Decidable (_ ∧ _))

theorem along_iff (hs : I s) (h : ∀ s a, I s → (P s a ↔ Q s a))
    (hnext : ∀ s a, I s → Q s a → I (next s a)) : Along next P s as ↔ Along next Q s as := by
  induction as generalizing s with
  | nil => exact Iff.rfl
  | cons a as ih =>
    rw [Along, Along, h s a hs]
    exact and_congr_right fun hq => ih (hnext s a hs hq)

theorem along_imp (hs : I s) (h : ∀ s a, I s → P s a → I (next s a) ∧ Q s a)
    (hp : Along next P s as) : Along next Q s as := by
  induction as generalizing s with
  | nil => trivial
  | cons a as ih =>
    have ha := h s a hs hp.1
    exact ⟨ha.2, ih ha.1 hp.2⟩

theorem along_and :
    Along next (fun s a => P s a ∧ Q s a) s as ↔ Along next P s as ∧ Along next Q s as := by
  induction as generalizing s with
  | nil => exact ⟨fun _ => ⟨trivial, trivial⟩, fun _ => trivial⟩
  | cons a as ih =>
    rw [Along, Along, Along, ih]
    exact and_and_and_comm

theorem along_forall {P : α → Prop} : Along next (fun _ => P) s as ↔ ∀ a ∈ as, P a := by
  induction as generalizing s with
  | nil => exact ⟨fun _ _ h => absurd h List.not_mem_nil, fun _ => trivial⟩
  | cons a as ih =>
    rw [Along, ih]
    exact List.forall_mem_cons.symm

theorem along_foldl (hs : I s) (h : ∀ s a, I s → P s a → I (next s a))
    (hp : Along next P s as) : I (as.foldl next s) := by
  induction as generalizing s with
  | nil => exact hs
  | cons a as ih => exact ih (h s a hs hp.1) hp.2

theorem along_append {bs : List α} :
    Along next P s (as ++ bs) ↔ Along next P s as ∧ Along next P (as.foldl next s) bs := by
  induction as generalizing s with
  | nil => exact ⟨fun h => ⟨trivial, h⟩, fun h => h.2⟩
  | cons a as ih =>
    rw [List.cons_append, Along, Along, ih, and_assoc, List.foldl_cons]

end

end Trans

import Mathlib.Data.Set.Finite.Basic
import Mathlib.Tactic.Common

/-!
# Trans.Walk

Walks along links: `next a` is the place behind `a`, or `none` where the walk ends.

* `visit next start n`: the place `n` links behind the start.
* `Stops`: some number of links leads to the end. `Acyclic`: no place is visited twice.
* `stops_iff_acyclic`: with finitely many places to link to, the two are the same.
* `unfinished_iff`: a loop with fuel that goes on exactly where there is a link has not finished
  after `n` rounds when `n` links can be followed.
-/

namespace Trans
namespace Walk

variable {α : Type*} {next : α → Option α} {start : Option α} {a b : α} {i j n : Nat}

def visit (next : α → Option α) (start : Option α) : Nat → Option α
  | 0 => start
  | n + 1 => (visit next start n).bind next

def Stops (next : α → Option α) (start : Option α) : Prop := ∃ n, visit next start n = none

def Acyclic (next : α → Option α) (start : Option α) : Prop :=
  ∀ i j a, visit next start i = some a → visit next start j = some a → i = j

theorem visit_succ : visit next start (n + 1) = (visit next start n).bind next := rfl

theorem visit_none : visit next none n = none := by
  induction n with
  | zero => rfl
  | succ n ih => rw [visit_succ, ih]; rfl

theorem visit_succ_start : visit next start (n + 1) = visit next (start.bind next) n := by
  induction n with
  | zero => rfl
  | succ n ih => rw [visit_succ, ih, visit_succ]

/-- Behind two visits of one place the walk goes the same way. -/
theorem visit_add (h : visit next start i = visit next start j) (k : Nat) :
    visit next start (i + k) = visit next start (j + k) := by
  induction k with
  | zero => exact h
  | succ k ih => rw [← Nat.add_assoc, ← Nat.add_assoc, visit_succ, visit_succ, ih]

theorem visit_le (h : visit next start i = none) (hij : i ≤ j) : visit next start j = none := by
  induction hij with
  | refl => exact h
  | step _ ih => rw [visit_succ, ih]; rfl

/-- A walk that comes to a place twice does not stop: the rest of it would be too short. -/
theorem Stops.acyclic (h : Stops next start) : Acyclic next start := by
  classical
  have hend := Nat.find_spec h
  have hmin : ∀ {n}, visit next start n = none → Nat.find h ≤ n := fun hn => Nat.find_min' h hn
  generalize Nat.find h = m at hend hmin
  have hlt : ∀ {i j a}, visit next start i = some a → visit next start j = some a → ¬i < j := by
    intro i j a hi hj hij
    have hjm : j < m := by
      by_contra hle
      rw [visit_le hend (Nat.le_of_not_lt hle)] at hj
      cases hj
    have hsame := visit_add (hi.trans hj.symm) (m - j)
    rw [Nat.add_sub_cancel' hjm.le, hend] at hsame
    have := hmin hsame
    omega
  intro i j a hi hj
  exact Nat.le_antisymm (Nat.le_of_not_lt (hlt hj hi)) (Nat.le_of_not_lt (hlt hi hj))

theorem stops_iff_acyclic {S : Set α} (hS : S.Finite) (hnext : ∀ a b, next a = some b → b ∈ S) :
    Stops next start ↔ Acyclic next start := by
  refine ⟨Stops.acyclic, ?_⟩
  intro hacyclic
  by_contra hstops
  have hsome : ∀ n, ∃ a, visit next start n = some a := by
    intro n
    exact Option.ne_none_iff_exists'.mp fun hn => hstops ⟨n, hn⟩
  choose place hplace using hsome
  have hmem : ∀ n, place (n + 1) ∈ S := by
    intro n
    refine hnext (place n) _ ?_
    have hvisit := hplace (n + 1)
    rwa [visit_succ, hplace n] at hvisit
  have hinj : Function.Injective fun n => place (n + 1) := by
    intro i j hij
    have hi := hplace (i + 1)
    rw [show place (i + 1) = place (j + 1) from hij] at hi
    exact Nat.succ.inj (hacyclic _ _ _ hi (hplace (j + 1)))
  exact Set.infinite_of_injective_forall_mem hinj hmem hS

/-- A place that links to itself. -/
theorem visit_loop (h : next a = some a) : visit next (some a) n = some a := by
  induction n with
  | zero => rfl
  | succ n ih => rw [visit_succ, ih]; exact h

theorem not_stops_of_loop (hstart : start.bind next = some a) (h : next a = some a) :
    ¬Stops next start := by
  rintro ⟨n, hn⟩
  have hbehind := visit_le hn (Nat.le_succ n)
  rw [visit_succ_start, hstart, visit_loop h] at hbehind
  cases hbehind

theorem unfinished_iff {U : Nat → α → Prop} (hzero : ∀ a, U 0 a)
    (hsucc : ∀ n a, U (n + 1) a ↔ ∃ b, next a = some b ∧ U n b) :
    U n a ↔ visit next (some a) n ≠ none := by
  induction n generalizing a with
  | zero => exact iff_of_true (hzero a) (Option.some_ne_none a)
  | succ n ih =>
    rw [hsucc, visit_succ_start, Option.bind_some]
    cases next a with
    | none => simp [visit_none]
    | some b => simp [ih]

/-- The loop comes to an end, with enough fuel, exactly when the walk does. -/
theorem finishes_iff {U : Nat → α → Prop} (hzero : ∀ a, U 0 a)
    (hsucc : ∀ n a, U (n + 1) a ↔ ∃ b, next a = some b ∧ U n b) :
    (∃ n, ¬U n a) ↔ Stops next (some a) := by
  simp only [unfinished_iff hzero hsucc, not_not]
  rfl

end Walk
end Trans

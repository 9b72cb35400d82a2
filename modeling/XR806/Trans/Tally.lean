import Mathlib.Algebra.BigOperators.Group.Finset.Basic
import Mathlib.Algebra.Order.BigOperators.Group.Finset
import Mathlib.Data.Fintype.Basic

/-!
# Trans.Tally

Finitely many parties, each in a state of its own, and what their states weigh together.

* `tally_update`: one of them moves on.
* `tally_le_tally`, `le_tally`: all of them, and one of them, against the others.
* `tally_eq_zero`: none of them weighs anything.
-/

namespace Trans

variable {ι α : Type*} [Fintype ι]

def tally (w : α → Nat) (p : ι → α) : Nat := ∑ i, w (p i)

section
variable {w : α → Nat} {p : ι → α}

theorem tally_update [DecidableEq ι] (w : α → Nat) (p : ι → α) (i : ι) (a : α) :
    tally w (Function.update p i a) + w (p i) = tally w p + w a := by
  have hnew := Finset.add_sum_erase Finset.univ (fun j => w (Function.update p i a j))
    (Finset.mem_univ i)
  have hold := Finset.add_sum_erase Finset.univ (fun j => w (p j)) (Finset.mem_univ i)
  have hrest : ∑ j ∈ Finset.univ.erase i, w (Function.update p i a j) =
      ∑ j ∈ Finset.univ.erase i, w (p j) := by
    refine Finset.sum_congr rfl fun j hj => ?_
    rw [Function.update_of_ne (Finset.ne_of_mem_erase hj)]
  rw [Function.update_self] at hnew
  rw [tally, tally]
  omega

theorem tally_le_tally {v : α → Nat} {q : ι → α} (h : ∀ i, w (p i) ≤ v (q i)) :
    tally w p ≤ tally v q := Finset.sum_le_sum fun i _ => h i

theorem le_tally (i : ι) : w (p i) ≤ tally w p :=
  Finset.single_le_sum (f := fun j => w (p j)) (fun _ _ => Nat.zero_le _) (Finset.mem_univ i)

theorem tally_eq_zero : tally w p = 0 ↔ ∀ i, w (p i) = 0 := by
  rw [tally, Finset.sum_eq_zero_iff]
  exact ⟨fun h i => h i (Finset.mem_univ i), fun h i _ => h i⟩

end

end Trans

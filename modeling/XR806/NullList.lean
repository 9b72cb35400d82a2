import Mathlib.Data.List.Basic
import Mathlib.Logic.Function.Basic

/-!
# NullList

Singly linked lists that end in NULL, as the links of their nodes. `Lists next p L` says that the
walk along `next` from `p` comes past the nodes `L` and then to the end.
-/

namespace NullList

variable {α : Type*} {next next' : α → Option α} {p q : Option α} {a b : α} {L : List α}

inductive Lists (next : α → Option α) : Option α → List α → Prop
  | nil : Lists next none []
  | cons {a : α} {L : List α} : Lists next (next a) L → Lists next (some a) (a :: L)

/-- The first `n` nodes from `p` on. -/
def follow (next : α → Option α) : Nat → Option α → List α
  | 0, _ => []
  | _ + 1, none => []
  | n + 1, some a => a :: follow next n (next a)

theorem Lists.follow (h : Lists next p L) : follow next L.length p = L := by
  induction h with
  | nil => rfl
  | cons _ ih => exact congrArg _ ih

theorem lists_none : Lists next none L ↔ L = [] := by
  constructor
  · intro h
    cases h
    rfl
  · rintro rfl
    exact .nil

theorem lists_some : Lists next (some a) L ↔ ∃ L', L = a :: L' ∧ Lists next (next a) L' := by
  constructor
  · intro h
    cases h with
    | cons h => exact ⟨_, rfl, h⟩
  · rintro ⟨L', rfl, h⟩
    exact .cons h

theorem lists_nil : Lists next p [] ↔ p = none := by
  constructor
  · intro h
    cases h
    rfl
  · rintro rfl
    exact .nil

theorem lists_cons : Lists next p (a :: L) ↔ p = some a ∧ Lists next (next a) L := by
  constructor
  · intro h
    cases h with
    | cons h => exact ⟨rfl, h⟩
  · rintro ⟨rfl, h⟩
    exact .cons h

theorem Lists.congr (h : Lists next p L) (hnext : ∀ a ∈ L, next' a = next a) :
    Lists next' p L := by
  induction h with
  | nil => exact .nil
  | @cons a L _ ih =>
    obtain ⟨ha, hL⟩ := List.forall_mem_cons.mp hnext
    exact .cons (ha ▸ ih hL)

section

variable [DecidableEq α]

theorem Lists.update (h : Lists next p L) (ha : a ∉ L) :
    Lists (Function.update next a q) p L := by
  refine h.congr fun b hb => Function.update_of_ne ?_ ..
  rintro rfl
  exact ha hb

theorem Lists.push (h : Lists next p L) (ha : a ∉ L) :
    Lists (Function.update next a p) (some a) (a :: L) := by
  refine .cons ?_
  rw [Function.update_self]
  exact h.update ha

/-- Links a node behind the last one. -/
theorem Lists.snoc (h : Lists next p (L ++ [b])) (hnd : (L ++ [b]).Nodup) (ha : next a = none)
    (hab : a ≠ b) : Lists (Function.update next b (some a)) p (L ++ [b, a]) := by
  induction L generalizing p with
  | nil =>
    obtain ⟨rfl, -⟩ := lists_cons.mp h
    refine .cons ?_
    rw [Function.update_self]
    refine .cons ?_
    rw [Function.update_of_ne hab, ha]
    exact .nil
  | cons c L ih =>
    rw [List.cons_append] at h hnd
    obtain ⟨rfl, hrest⟩ := lists_cons.mp h
    obtain ⟨hc, hnd'⟩ := List.nodup_cons.mp hnd
    have hcb : c ≠ b := by
      rintro rfl
      exact hc (List.mem_append_right _ (List.mem_singleton_self _))
    refine .cons ?_
    rw [Function.update_of_ne hcb]
    exact ih hrest hnd'

end

end NullList

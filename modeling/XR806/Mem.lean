import Mathlib.Data.List.Basic
import Mathlib.Tactic.Common

/-!
# Mem

Memory as a function of the address, and lists of values that stand at an address.

* `begins_append`: two lists behind each other.
* `begins_memcpy_self`, `begins_memcpy_before`: what is at an address after a copy.
-/

namespace Mem

variable {α : Type*} {mem mem' : Nat → α} {a dest : Nat} {x : α} {xs ys : List α}

/-- Some values at an address. -/
def Begins (mem : Nat → α) : Nat → List α → Prop
  | _, [] => True
  | a, x :: xs => mem a = x ∧ Begins mem (a + 1) xs

/-- A copy of some values to an address. -/
def memcpy (mem : Nat → α) (dest : Nat) (xs : List α) : Nat → α := fun a =>
  if dest ≤ a then (xs[a - dest]?).getD (mem a) else mem a

/-- Memory that begins with a list. -/
def ofList (x : α) (xs : List α) : Nat → α := fun a => xs.getD a x

@[simp] theorem begins_nil : Begins mem a [] := trivial

@[simp] theorem begins_cons : Begins mem a (x :: xs) ↔ mem a = x ∧ Begins mem (a + 1) xs := Iff.rfl

@[simp] theorem begins_append :
    Begins mem a (xs ++ ys) ↔ Begins mem a xs ∧ Begins mem (a + xs.length) ys := by
  induction xs generalizing a with
  | nil => simp
  | cons x xs ih =>
    simp only [List.cons_append, begins_cons, ih, List.length_cons]
    rw [show a + 1 + xs.length = a + (xs.length + 1) by omega, and_assoc]

theorem begins_iff : Begins mem a xs ↔ ∀ i (h : i < xs.length), mem (a + i) = xs[i] := by
  induction xs generalizing a with
  | nil => simp
  | cons x xs ih =>
    rw [begins_cons, ih]
    constructor
    · rintro ⟨hhead, htail⟩ i hi
      cases i with
      | zero => simpa using hhead
      | succ i => simpa [Nat.add_assoc, Nat.add_comm 1] using htail i (by simpa using hi)
    · intro h
      refine ⟨h 0 (Nat.zero_lt_succ _), fun i hi => ?_⟩
      rw [Nat.add_assoc, Nat.add_comm 1]
      exact h (i + 1) (Nat.succ_lt_succ hi)

theorem begins_congr (h : ∀ i < xs.length, mem' (dest + i) = mem (a + i)) :
    Begins mem' dest xs ↔ Begins mem a xs := by
  rw [begins_iff, begins_iff]
  exact forall₂_congr fun i hi => by rw [h i hi]

theorem begins_ofList : Begins (ofList x xs) 0 xs := by
  refine begins_iff.mpr fun i hi => ?_
  rw [ofList, Nat.zero_add, List.getD_eq_getElem?_getD, List.getElem?_eq_getElem hi,
    Option.getD_some]

theorem begins_memcpy_self : Begins (memcpy mem dest xs) dest xs := by
  refine begins_iff.mpr fun i hi => ?_
  rw [memcpy, if_pos (by omega), Nat.add_sub_cancel_left, List.getElem?_eq_getElem hi,
    Option.getD_some]

theorem begins_memcpy_before (h : a + ys.length ≤ dest) :
    Begins (memcpy mem dest xs) a ys ↔ Begins mem a ys := by
  refine begins_congr fun i hi => ?_
  rw [memcpy, if_neg (by omega)]

end Mem

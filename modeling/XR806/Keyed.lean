import Mathlib.Algebra.GroupWithZero.Nat
import Mathlib.Algebra.Order.BigOperators.Group.List
import Mathlib.Data.List.Basic
import Mathlib.Tactic.Common

/-!
# Keyed

Tables of rows in fixed places, where `key` gives the key of a row, if it has one.

* `Distinct key rows`: no key is in two places.
* `Distinct.of_kept`: rows that keep their keys or lose them. `Distinct.put`: a row is put in a place
  when no other row has its key.
* `Distinct.findIdx?_eq`: a search for a key finds the place that has it.
* `sum_map_set`: what the rows add up to when one of them changes.
-/

namespace Keyed

variable {α κ : Type*} {key : α → Option κ} {rows rows' : List α} {a b : α} {k : κ} {i n : Nat}

def Distinct (key : α → Option κ) (rows : List α) : Prop :=
  ∀ (i j : Nat) (a b : α) (k : κ), rows[i]? = some a → rows[j]? = some b → key a = some k → key b = some k → i = j

theorem Distinct.of_kept (h : Distinct key rows)
    (hkept : ∀ (i : Nat) (b : α) (k : κ), rows'[i]? = some b → key b = some k →
      ∃ a, rows[i]? = some a ∧ key a = some k) : Distinct key rows' := by
  intro i j a b k ha hb hka hkb
  obtain ⟨a', ha', hka'⟩ := hkept i a k ha hka
  obtain ⟨b', hb', hkb'⟩ := hkept j b k hb hkb
  exact h i j a' b' k ha' hb' hka' hkb'

theorem getElem?_set_cases (h : (rows.set n b)[i]? = some a) :
    i = n ∧ a = b ∨ i ≠ n ∧ rows[i]? = some a := by
  rw [List.getElem?_set] at h
  split at h
  · subst i
    split at h
    · cases h
      exact .inl ⟨rfl, rfl⟩
    · cases h
  · rename_i hne
    exact .inr ⟨fun heq => hne heq.symm, h⟩

theorem Distinct.put (h : Distinct key rows)
    (hfree : ∀ (i : Nat) (a : α) (k : κ), i ≠ n → rows[i]? = some a → key b = some k → key a ≠ some k) :
    Distinct key (rows.set n b) := by
  intro i j a c k ha hc hka hkc
  obtain ⟨rfl, rfl⟩ | ⟨hi, ha'⟩ := getElem?_set_cases ha
  · obtain ⟨rfl, -⟩ | ⟨hj, hc'⟩ := getElem?_set_cases hc
    · rfl
    · exact absurd hkc (hfree j c k hj hc' hka)
  · obtain ⟨rfl, rfl⟩ | ⟨hj, hc'⟩ := getElem?_set_cases hc
    · exact absurd hka (hfree i a k hi ha' hkc)
    · exact h i j a c k ha' hc' hka hkc

theorem Distinct.findIdx?_eq {p : α → Bool} (h : Distinct key rows) (ha : rows[i]? = some a)
    (hka : key a = some k) (hp : ∀ b, p b = true ↔ key b = some k) : rows.findIdx? p = some i := by
  cases hfind : rows.findIdx? p with
  | none =>
    have hno := List.findIdx?_eq_none_iff.mp hfind a (List.mem_of_getElem? ha)
    rw [(hp a).mpr hka] at hno
    cases hno
  | some j =>
    obtain ⟨hlt, hpj, -⟩ := List.findIdx?_eq_some_iff_getElem.mp hfind
    exact congrArg some (h j i _ a k (List.getElem?_eq_getElem hlt) ha ((hp _).mp hpj) hka)

theorem sum_map_set (f : α → Nat) (h : rows[n]? = some a) :
    ((rows.set n b).map f).sum + f a = (rows.map f).sum + f b := by
  induction rows generalizing n with
  | nil => simp at h
  | cons c rows ih =>
    cases n with
    | zero =>
      obtain rfl : c = a := by simpa using h
      simp only [List.set_cons_zero, List.map_cons, List.sum_cons]
      omega
    | succ n =>
      have hrest := ih (by simpa using h)
      simp only [List.set_cons_succ, List.map_cons, List.sum_cons]
      omega

end Keyed

import Mathlib.Data.List.Basic

/-!
# Scanner

A loop over an input that ends at the first stop letter and takes a step at every other, which may
fail. It looks at a letter only while its state leaves room.

* `scan_field`: on an input with a stop the loop runs over the letters before it;
* `scan_eq_some_iff`: what a loop that has come to its end has read;
* `run_filter`: letters that do nothing may be left out.
-/

structure Scanner (α σ ε : Type) where
  room : σ → Bool
  stop : α → Bool
  finish : α → List α → ε
  step : σ → α → Option σ

namespace Scanner

variable {α σ ε : Type} (m : Scanner α σ ε)

/-- What the stop letter leaves, and the state the loop comes to it in. -/
def scan : List α → σ → Option (ε × σ)
  | [], _ => none
  | a :: input, s =>
    if m.room s then
      if m.stop a then some (m.finish a input, s) else (m.step s a).bind (scan input)
    else none

/-- The loop over the letters before the stop. -/
def run : List α → σ → Option σ
  | [], s => if m.room s then some s else none
  | a :: field, s => if m.room s then (m.step s a).bind (run field) else none

variable {field rest input : List α} {b : α} {s t : σ} {e : ε}

theorem scan_field (hf : ∀ a ∈ field, m.stop a = false) (hb : m.stop b = true) :
    m.scan (field ++ b :: rest) s = (m.run field s).map fun t => (m.finish b rest, t) := by
  induction field generalizing s with
  | nil => by_cases hr : m.room s <;> simp [scan, run, hb, hr]
  | cons a field ih =>
    have ha : m.stop a = false := hf a List.mem_cons_self
    have ih' := fun s => ih (s := s) fun x hx => hf x (List.mem_cons_of_mem a hx)
    by_cases hr : m.room s
    · cases hs : m.step s a with
      | none => simp [scan, run, ha, hr, hs]
      | some s' => simp [scan, run, ha, hr, hs, ih']
    · simp [scan, run, hr]

theorem stop_of_scan (h : m.scan input s = some (e, t)) :
    ∃ field b rest, input = field ++ b :: rest ∧ (∀ a ∈ field, m.stop a = false) ∧
      m.stop b = true := by
  induction input generalizing s with
  | nil => cases h
  | cons a input ih =>
    cases ha : m.stop a with
    | true => exact ⟨[], a, input, rfl, List.forall_mem_nil _, ha⟩
    | false =>
      by_cases hr : m.room s
      · cases hs : m.step s a with
        | none => simp [scan, ha, hr, hs] at h
        | some s' =>
          simp only [scan, ha, hr, hs, if_true, Bool.false_eq_true, if_false, Option.bind_some] at h
          obtain ⟨field, b, rest, rfl, hf, hb⟩ := ih h
          exact ⟨a :: field, b, rest, rfl, List.forall_mem_cons.mpr ⟨ha, hf⟩, hb⟩
      · simp [scan, hr] at h

/-- A field up to a stop is unique. -/
theorem field_unique {stop : α → Bool} {field field' : List α} {b b' : α} {rest rest' : List α}
    (h : field ++ b :: rest = field' ++ b' :: rest') (hf : ∀ a ∈ field, stop a = false)
    (hb : stop b = true) (hf' : ∀ a ∈ field', stop a = false) (hb' : stop b' = true) :
    field = field' ∧ b = b' ∧ rest = rest' := by
  induction field generalizing field' with
  | nil =>
    cases field' with
    | nil =>
      obtain ⟨rfl, rfl⟩ := List.cons_eq_cons.mp h
      exact ⟨rfl, rfl, rfl⟩
    | cons a field' =>
      obtain ⟨rfl, -⟩ := List.cons_eq_cons.mp h
      exact absurd ((hf' b List.mem_cons_self).symm.trans hb) Bool.false_ne_true
  | cons a field ih =>
    obtain ⟨ha, hf⟩ := List.forall_mem_cons.mp hf
    cases field' with
    | nil =>
      obtain ⟨rfl, -⟩ := List.cons_eq_cons.mp h
      exact absurd (ha.symm.trans hb') Bool.false_ne_true
    | cons a' field' =>
      obtain ⟨rfl, hrest⟩ := List.cons_eq_cons.mp h
      obtain ⟨rfl, rfl, rfl⟩ := ih hrest hf (List.forall_mem_cons.mp hf').2
      exact ⟨rfl, rfl, rfl⟩

theorem scan_eq_some_iff : m.scan input s = some (e, t) ↔
    ∃ field b rest, input = field ++ b :: rest ∧ (∀ a ∈ field, m.stop a = false) ∧
      m.stop b = true ∧ m.run field s = some t ∧ e = m.finish b rest := by
  constructor
  · intro h
    obtain ⟨field, b, rest, rfl, hf, hb⟩ := m.stop_of_scan h
    rw [m.scan_field hf hb] at h
    obtain ⟨t', ht, heq⟩ := Option.map_eq_some_iff.mp h
    cases heq
    exact ⟨field, b, rest, rfl, hf, hb, ht, rfl⟩
  · rintro ⟨field, b, rest, rfl, hf, hb, ht, rfl⟩
    rw [m.scan_field hf hb, ht]
    rfl

theorem run_cons_of_step {a : α} {s' : σ} (hs : m.step s a = some s') (hr : m.room s = true) :
    m.run (a :: field) s = m.run field s' := by
  rw [run, if_pos hr, hs, Option.bind_some]

theorem run_filter {keep : α → Bool} (hk : ∀ s a, keep a = false → m.step s a = some s) :
    m.run (field.filter keep) s = m.run field s := by
  induction field generalizing s with
  | nil => rfl
  | cons a field ih =>
    cases ha : keep a with
    | true =>
      rw [List.filter_cons_of_pos ha, run, run]
      split
      · exact congrArg _ (funext fun _ => ih)
      · rfl
    | false =>
      have hn : ¬keep a = true := by simp [ha]
      rw [List.filter_cons_of_neg hn, ih, run, hk s a ha, Option.bind_some]
      split
      · rfl
      · rename_i hr
        cases field <;> simp [run, hr]

end Scanner

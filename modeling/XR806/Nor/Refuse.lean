import XR806.Nor.Flow

/-!
# Nor.Refuse

Programs that only look, when a read, a wait or an allocation may be refused: `Ends p c a` says that
`p` can answer `a` on cells `c`, and `Flow.Ends m s c a s'` is the same for a program with a state.
-/

namespace Nor

open Prog

variable {α β σ : Type}

inductive Ends : Prog α → Cells → α → Prop where
  | done (a : α) (c : Cells) : Ends (.done a) c a
  | read {dev addr n : Nat} {k : Option (List Byte) → Prog α} {c : Cells} {a : α} :
      Ends (k (some (readCells c dev addr n))) c a → Ends (.read dev addr n k) c a
  | readRefused {dev addr n : Nat} {k : Option (List Byte) → Prog α} {c : Cells} {a : α} :
      Ends (k none) c a → Ends (.read dev addr n k) c a
  | wait {dev : Nat} {k : Bool → Prog α} {c : Cells} {a : α} (ok : Bool) :
      Ends (k ok) c a → Ends (.wait dev k) c a
  | alloc {n : Nat} {k : Bool → Prog α} {c : Cells} {a : α} (ok : Bool) :
      Ends (k ok) c a → Ends (.alloc n k) c a

theorem ends_pure {a b : α} {c : Cells} : Ends (pure a) c b ↔ b = a := by
  constructor
  · intro h
    cases h
    rfl
  · rintro rfl
    exact .done _ c

theorem ends_bind {p : Prog α} {f : α → Prog β} {c : Cells} {b : β} :
    Ends (p >>= f) c b ↔ ∃ a, Ends p c a ∧ Ends (f a) c b := by
  change Ends (p.bind f) c b ↔ _
  constructor
  · intro h
    induction p with
    | done a => exact ⟨a, .done a c, h⟩
    | read dev addr n k ih =>
      cases h with
      | read h =>
        obtain ⟨a, ha, hb⟩ := ih _ h
        exact ⟨a, .read ha, hb⟩
      | readRefused h =>
        obtain ⟨a, ha, hb⟩ := ih _ h
        exact ⟨a, .readRefused ha, hb⟩
    | program dev addr bs k ih => cases h
    | erase dev addr n k ih => cases h
    | wait dev k ih =>
      cases h with
      | wait ok h =>
        obtain ⟨a, ha, hb⟩ := ih _ h
        exact ⟨a, .wait ok ha, hb⟩
    | alloc n k ih =>
      cases h with
      | alloc ok h =>
        obtain ⟨a, ha, hb⟩ := ih _ h
        exact ⟨a, .alloc ok ha, hb⟩
  · rintro ⟨a, ha, hb⟩
    induction ha with
    | done a c => exact hb
    | read _ ih => exact .read (ih hb)
    | readRefused _ ih => exact .readRefused (ih hb)
    | wait ok _ ih => exact .wait ok (ih hb)
    | alloc ok _ ih => exact .alloc ok (ih hb)

theorem ends_readReq {dev addr n : Nat} {c : Cells} {r : Option (List Byte)} :
    Ends (readReq dev addr n) c r ↔ r = none ∨ r = some (readCells c dev addr n) := by
  constructor
  · intro h
    cases h with
    | read h => exact .inr (ends_pure.mp h)
    | readRefused h => exact .inl (ends_pure.mp h)
  · rintro (rfl | rfl)
    · exact .readRefused (.done _ c)
    · exact .read (.done _ c)

theorem ends_allocReq (n : Nat) (c : Cells) (ok : Bool) : Ends (allocReq n) c ok :=
  .alloc ok (.done ok c)

/-- One way to end is that everything is granted. -/
theorem ends_ret {p : Prog α} {c : Cells} (hp : Silent p c) : Ends p c (ret p c) := by
  induction p with
  | done a => exact .done a c
  | read dev addr n k ih => exact .read (ih _ hp)
  | program dev addr bs k _ => cases hp
  | erase dev addr n k _ => cases hp
  | wait dev k ih => exact .wait true (ih _ hp)
  | alloc n k ih => exact .alloc true (ih _ hp)

namespace Flow

/-- From state `s` the program can end on cells `c` with result `a` in state `s'`. -/
def Ends (m : Flow σ α) (s : σ) (c : Cells) (a : α) (s' : σ) : Prop :=
  Nor.Ends (m s) c (some (a, s'))

/-- Whatever is refused, the program comes to an end. -/
def Halts (m : Flow σ α) (s : σ) (c : Cells) : Prop := ¬Nor.Ends (m s) c none

section

variable {m : Flow σ α} {f : α → Flow σ β} {p : Prog α} {s s' : σ} {c : Cells} {a : α} {b : β}

theorem ends_pure {a' : α} : Ends (pure a) s c a' s' ↔ a' = a ∧ s' = s := by
  rw [Ends, pure_run, Nor.ends_pure, Option.some.injEq, Prod.mk.injEq]

theorem ends_bind : Ends (m >>= f) s c b s' ↔
    ∃ a s₁, Ends m s c a s₁ ∧ Ends (f a) s₁ c b s' := by
  rw [Ends, bind_run, Nor.ends_bind]
  constructor
  · rintro ⟨r, hr, h⟩
    cases r with
    | none => cases Nor.ends_pure.mp h
    | some r => exact ⟨r.1, r.2, hr, h⟩
  · rintro ⟨a, s₁, hm, h⟩
    exact ⟨some (a, s₁), hm, h⟩

theorem ends_lift : Ends (lift p) s c a s' ↔ Nor.Ends p c a ∧ s' = s := by
  rw [Ends, lift, Nor.ends_bind]
  constructor
  · rintro ⟨a', ha, h⟩
    cases Nor.ends_pure.mp h
    exact ⟨ha, rfl⟩
  · rintro ⟨ha, rfl⟩
    exact ⟨a, ha, .done _ c⟩

theorem ends_get {t : σ} : Ends get s c t s' ↔ t = s ∧ s' = s := by
  rw [Ends, get, Nor.ends_pure, Option.some.injEq, Prod.mk.injEq]

theorem ends_modify {g : σ → σ} {u : Unit} : Ends (modify g) s c u s' ↔ s' = g s := by
  rw [Ends, modify, Nor.ends_pure, Option.some.injEq, Prod.mk.injEq]
  exact ⟨fun h => h.2, fun h => ⟨rfl, h⟩⟩

theorem Returns.ends (h : Returns m s c a s') (hm : Silent (m s) c) : Ends m s c a s' := by
  have hends := ends_ret hm
  rwa [show ret (m s) c = some (a, s') from h] at hends

theorem halts_pure : Halts (pure a : Flow σ α) s c := by
  intro h
  cases Nor.ends_pure.mp h

theorem halts_lift : Halts (lift p : Flow σ α) s c := by
  intro h
  obtain ⟨a, -, h⟩ := Nor.ends_bind.mp h
  cases Nor.ends_pure.mp h

theorem halts_get : Halts (get : Flow σ σ) s c := by
  intro h
  cases Nor.ends_pure.mp h

theorem halts_modify {g : σ → σ} : Halts (modify g) s c := by
  intro h
  cases Nor.ends_pure.mp h

theorem Halts.bind (hm : Halts m s c) (hf : ∀ a s₁, Ends m s c a s₁ → Halts (f a) s₁ c) :
    Halts (m >>= f) s c := by
  intro h
  rw [bind_run] at h
  obtain ⟨r, hr, h⟩ := Nor.ends_bind.mp h
  cases r with
  | none => exact hm hr
  | some r => exact hf r.1 r.2 hr h

theorem Halts.ite {P : Prop} [Decidable P] {m' : Flow σ α} (hm : P → Halts m s c)
    (hm' : ¬P → Halts m' s c) : Halts (if P then m else m') s c := by
  split
  · exact hm ‹_›
  · exact hm' ‹_›

end

end Flow

end Nor

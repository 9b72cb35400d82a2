import XR806.Nor.Prog

/-!
# Nor.Flow

Programs over NOR flash with a state in RAM, which need not come to an end: `Flow σ α` takes a
state to a `Prog` that answers a result and the state left, or `none`.

* `Flow.Returns m s c a s'`: `m` ends, from state `s` and cells `c`, with result `a` in state `s'`.
  One lemma for each way a program is put together takes such a run apart.
* `Flow.Leaves m s c a s' c'`: the same, and the cells left are `c'`. These runs compose.
* `Flow.Keeps view m`: the program ends with the part `view` of the state as it was.
* `Flow.Quiet`, `Flow.Within`: the program issues no command, or stays in a region, from every
  state.
* `Flow.Stays R m s Q`: from state `s` the program stays in the region `R`, and ends as `Q` says.
-/

namespace Nor

/-- `none` is a program that has not come to an end. -/
def Flow (σ α : Type) : Type := σ → Prog (Option (α × σ))

namespace Flow

variable {σ τ α β : Type}

/-- Carry on with a result, if there is one. -/
def next (f : α → Flow σ β) : Option (α × σ) → Prog (Option (β × σ))
  | none => pure none
  | some (a, s) => f a s

instance : Monad (Flow σ) where
  pure a := fun s => pure (some (a, s))
  bind m f := fun s => m s >>= next f

/-- A program that does not use the state. -/
def lift (p : Prog α) : Flow σ α := fun s => p >>= fun a => pure (some (a, s))

def get : Flow σ σ := fun s => pure (some (s, s))

def modify (f : σ → σ) : Flow σ Unit := fun s => pure (some ((), f s))

/-- The program does not come to an end. -/
def hang : Flow σ α := fun _ => pure none

/-- A program on a part of the state. -/
def zoom (view : τ → σ) (put : τ → σ → τ) (m : Flow σ α) : Flow τ α := fun t =>
  m (view t) >>= fun
    | none => pure none
    | some (a, s) => pure (some (a, put t s))

theorem bind_run (m : Flow σ α) (f : α → Flow σ β) (s : σ) : (m >>= f) s = m s >>= next f := rfl

theorem pure_run (a : α) (s : σ) : (pure a : Flow σ α) s = pure (some (a, s)) := rfl

/-- From state `s` and cells `c` the program ends with result `a` in state `s'`. -/
def Returns (m : Flow σ α) (s : σ) (c : Cells) (a : α) (s' : σ) : Prop := ret (m s) c = some (a, s')

section Returns

variable {m m' : Flow σ α} {f : α → Flow σ β} {s s' : σ} {c : Cells} {a : α} {b : β}

theorem returns_of_fst (h : (ret (m s) c).map Prod.fst = some a) : ∃ s', Returns m s c a s' := by
  obtain ⟨⟨a', s'⟩, hr, rfl⟩ := Option.map_eq_some_iff.mp h
  exact ⟨s', hr⟩

theorem returns_pure {a' : α} : Returns (pure a) s c a' s' ↔ a = a' ∧ s = s' := by
  simp [Returns, pure_run]

theorem returns_bind : Returns (m >>= f) s c b s' ↔
    ∃ a s₁, Returns m s c a s₁ ∧ Returns (f a) s₁ (Nor.post (m s) c) b s' := by
  unfold Returns
  rw [bind_run, ret_bind]
  constructor
  · intro h
    cases hm : ret (m s) c with
    | none =>
      rw [hm] at h
      cases h
    | some r =>
      rw [hm] at h
      exact ⟨r.1, r.2, rfl, h⟩
  · rintro ⟨a, s₁, hm, h⟩
    rw [hm]
    exact h

theorem post_bind_run {s₁ : σ} (h : Returns m s c a s₁) :
    Nor.post ((m >>= f) s) c = Nor.post (f a s₁) (Nor.post (m s) c) := by
  rw [bind_run, post_bind, show ret (m s) c = some (a, s₁) from h]
  rfl

theorem returns_lift {p : Prog α} : Returns (lift p) s c a s' ↔ ret p c = a ∧ s = s' := by
  simp [Returns, lift]

theorem returns_get {t : σ} : Returns get s c t s' ↔ s = t ∧ s = s' := by
  simp [Returns, get]

theorem returns_modify {g : σ → σ} {u : Unit} : Returns (modify g) s c u s' ↔ g s = s' := by
  simp [Returns, modify]

theorem not_returns_hang : ¬Returns (hang : Flow σ α) s c a s' := by
  simp [Returns, hang]

theorem returns_zoom {view : τ → σ} {put : τ → σ → τ} {t t' : τ} :
    Returns (zoom view put m) t c a t' ↔ ∃ s', Returns m (view t) c a s' ∧ t' = put t s' := by
  simp only [Returns, zoom, ret_bind]
  cases ret (m (view t)) c with
  | none => simp
  | some r =>
    obtain ⟨a', s'⟩ := r
    simp only [ret_pure, Option.some.injEq, Prod.mk.injEq]
    constructor
    · rintro ⟨rfl, rfl⟩
      exact ⟨s', ⟨rfl, rfl⟩, rfl⟩
    · rintro ⟨s'', ⟨rfl, rfl⟩, rfl⟩
      exact ⟨rfl, rfl⟩

end Returns

/-! ## Runs with the cells they leave -/

/-- As `Returns`, with `c'` for the cells left. -/
structure Leaves (m : Flow σ α) (s : σ) (c : Cells) (a : α) (s' : σ) (c' : Cells) : Prop where
  returns : Returns m s c a s'
  post : Nor.post (m s) c = c'

section Leaves

variable {m m' : Flow σ α} {f : α → Flow σ β} {s s' s₁ : σ} {c c' c₁ : Cells} {a : α} {b : β}

theorem leaves_pure : Leaves (pure a) s c a s c := ⟨returns_pure.mpr ⟨rfl, rfl⟩, rfl⟩

theorem leaves_get : Leaves get s c s s c := ⟨returns_get.mpr ⟨rfl, rfl⟩, rfl⟩

theorem leaves_modify {g : σ → σ} (h : g s = s') : Leaves (modify g) s c () s' c :=
  ⟨returns_modify.mpr h, rfl⟩

theorem leaves_lift {p : Prog α} (hr : ret p c = a) (hp : Nor.post p c = c') :
    Leaves (lift p) s c a s c' := by
  refine ⟨returns_lift.mpr ⟨hr, rfl⟩, ?_⟩
  unfold lift
  rw [post_bind, hp]
  rfl

theorem Leaves.bind (h : Leaves m s c a s₁ c₁) (h' : Leaves (f a) s₁ c₁ b s' c') :
    Leaves (m >>= f) s c b s' c' := by
  refine ⟨returns_bind.mpr ⟨a, s₁, h.returns, ?_⟩, ?_⟩
  · rw [h.post]
    exact h'.returns
  · rw [post_bind_run h.returns, h.post]
    exact h'.post

theorem leaves_pure_iff {a' : α} :
    Leaves (pure a) s c a' s' c' ↔ a = a' ∧ s = s' ∧ c = c' :=
  ⟨fun h => ⟨(returns_pure.mp h.returns).1, (returns_pure.mp h.returns).2, h.post⟩,
    fun h => ⟨returns_pure.mpr ⟨h.1, h.2.1⟩, h.2.2⟩⟩

theorem Leaves.unique {a' : α} (h : Leaves m s c a s₁ c₁) (h' : Returns m s c a' s') :
    a' = a ∧ s' = s₁ := by
  have heq := h'.symm.trans h.returns
  injection heq with heq
  exact ⟨congrArg Prod.fst heq, congrArg Prod.snd heq⟩

end Leaves

/-! ## Parts of the state a program leaves alone -/

/-- A result, if there is one, comes with the `view` of the state `s`. -/
def Kept (view : σ → τ) (s : σ) (r : Option (α × σ)) : Prop := ∀ q ∈ r, view q.2 = view s

/-- The program ends with the `view` of the state it started with, whatever is answered. -/
structure Keeps (view : σ → τ) (m : Flow σ α) : Prop where
  yields : ∀ s, Yields (Kept view s) (m s)

section Keeps

variable {ρ : Type} {view : σ → τ} {m m' : Flow σ α} {f : α → Flow σ β}

theorem Keeps.run (hm : Keeps view m) (s : σ) (c : Cells) (a : α) (s' : σ)
    (h : Returns m s c a s') : view s' = view s := (hm.yields s).ret c (a, s') h

theorem kept_none {s : σ} : Kept view s (none : Option (α × σ)) := fun _ h => nomatch h

theorem kept_some {s s' : σ} {a : α} (h : view s' = view s) : Kept view s (some (a, s')) :=
  fun _ hq => Option.some.inj hq ▸ h

theorem keeps_pure (a : α) : Keeps view (pure a) := ⟨fun _ => kept_some rfl⟩

theorem keeps_hang : Keeps view (hang : Flow σ α) := ⟨fun _ => kept_none⟩

theorem keeps_get : Keeps view get := ⟨fun _ => kept_some rfl⟩

theorem keeps_lift (p : Prog α) : Keeps view (lift p) :=
  ⟨fun _ => (yields_any (fun _ => trivial) p).bind fun _ (_ : True) => kept_some rfl⟩

theorem keeps_modify {g : σ → σ} (hg : ∀ s, view (g s) = view s) : Keeps view (modify g) :=
  ⟨fun s => kept_some (hg s)⟩

/-- The view of a state with one value only. -/
theorem keeps_unit (m : Flow σ α) : Keeps (fun _ => ()) m :=
  ⟨fun s => yields_any (fun _ _ _ => rfl) (m s)⟩

theorem Keeps.bind (hm : Keeps view m) (hf : ∀ a, Keeps view (f a)) : Keeps view (m >>= f) where
  yields s := (hm.yields s).bind fun r hr => by
    cases r with
    | none => exact kept_none
    | some q =>
      have hq : view q.2 = view s := hr q rfl
      exact ((hf q.1).yields q.2).mono fun r' hr' q' hq' => (hr' q' hq').trans hq

theorem Keeps.zoom {part : τ → σ} {put : τ → σ → τ} {view : σ → ρ} {ρ' : Type} {view' : τ → ρ'}
    (hm : Keeps view m) (h : ∀ t s, view s = view (part t) → view' (put t s) = view' t) :
    Keeps view' (zoom part put m) where
  yields t := (hm.yields (part t)).bind fun r hr => by
    cases r with
    | none => exact kept_none
    | some q => exact kept_some (h t q.2 (hr q rfl))

theorem Keeps.ite {P : Prop} [Decidable P] (hm : Keeps view m) (hm' : Keeps view m') :
    Keeps view (if P then m else m') := by
  split
  · exact hm
  · exact hm'

end Keeps

/-! ## Quiet programs, and where a program writes -/

structure Quiet (m : Flow σ α) : Prop where
  run : ∀ s, Nor.Quiet (m s)

structure Within (R : Nat → Nat → Prop) (m : Flow σ α) : Prop where
  run : ∀ s, Nor.Within R (m s)

section Regions

variable {R : Nat → Nat → Prop} {m m' : Flow σ α} {f : α → Flow σ β} {p : Prog α}

theorem quiet_pure (a : α) : Quiet (pure a : Flow σ α) := ⟨fun _ => Nor.quiet_pure _⟩

theorem quiet_hang : Quiet (hang : Flow σ α) := ⟨fun _ => Nor.quiet_pure _⟩

theorem quiet_get : Quiet (get : Flow σ σ) := ⟨fun _ => Nor.quiet_pure _⟩

theorem quiet_modify (g : σ → σ) : Quiet (modify g) := ⟨fun _ => Nor.quiet_pure _⟩

theorem quiet_lift (hp : Nor.Quiet p) : Quiet (lift p : Flow σ α) :=
  ⟨fun _ => hp.bind fun _ => Nor.quiet_pure _⟩

theorem Quiet.bind (hm : Quiet m) (hf : ∀ a, Quiet (f a)) : Quiet (m >>= f) where
  run s := (hm.run s).bind fun r => by
    cases r with
    | none => exact Nor.quiet_pure _
    | some r => exact (hf r.1).run r.2

theorem Quiet.ite {P : Prop} [Decidable P] (hm : Quiet m) (hm' : Quiet m') :
    Quiet (if P then m else m') := by
  split
  · exact hm
  · exact hm'

theorem Quiet.zoom {view : τ → σ} {put : τ → σ → τ} (hm : Quiet m) :
    Quiet (zoom view put m) where
  run t := (hm.run (view t)).bind fun r => by
    cases r with
    | none => exact Nor.quiet_pure _
    | some r => exact Nor.quiet_pure _

/-- Behind a quiet program the cells are the same. -/
theorem Quiet.returns_bind (hm : Quiet m) {s s' : σ} {c : Cells} {b : β} :
    Returns (m >>= f) s c b s' ↔ ∃ a s₁, Returns m s c a s₁ ∧ Returns (f a) s₁ c b s' := by
  rw [Flow.returns_bind, (hm.run s).post]

/-- Behind a quiet program that returns, the rest is what is left to run. -/
theorem Quiet.leaves_bind (hm : Quiet m) {s s' s₁ : σ} {c c' : Cells} {a : α} {b : β}
    (h : Returns m s c a s₁) : Leaves (m >>= f) s c b s' c' ↔ Leaves (f a) s₁ c b s' c' := by
  have hpost := post_bind_run (f := f) h
  rw [(hm.run s).post] at hpost
  constructor
  · rintro ⟨hr, hp⟩
    obtain ⟨a', s₂, ha, hf⟩ := hm.returns_bind.mp hr
    injection ha.symm.trans h with heq
    cases heq
    exact ⟨hf, hpost.symm.trans hp⟩
  · rintro ⟨hr, hp⟩
    exact ⟨hm.returns_bind.mpr ⟨a, s₁, h, hr⟩, hpost.trans hp⟩

end Regions

/-! ## Programs that stay in a region from one state -/

/-- From state `s` and any cells: the commands, and a result with the state it leaves. -/
structure Stays (R : Nat → Nat → Prop) (m : Flow σ α) (s : σ) (Q : α → σ → Prop) : Prop where
  confined : ∀ c, Confined R (trace (m s) c)
  returns : ∀ c a s', Returns m s c a s' → Q a s'

section Stays

variable {R : Nat → Nat → Prop} {m m' : Flow σ α} {f : α → Flow σ β} {p : Prog α} {s : σ}
  {P P' : α → σ → Prop} {Q : β → σ → Prop}

theorem stays_pure {a : α} (h : P a s) : Stays R (pure a) s P where
  confined _ := confined_nil R
  returns _ _ _ hr := by
    obtain ⟨rfl, rfl⟩ := returns_pure.mp hr
    exact h

theorem stays_hang : Stays R (hang : Flow σ α) s P where
  confined _ := confined_nil R
  returns _ _ _ hr := absurd hr not_returns_hang

theorem stays_lift (hp : Nor.Within R p) (h : ∀ c, P (ret p c) s) :
    Stays R (lift p) s P where
  confined c := (hp.bind fun _ => (Nor.quiet_pure _).within).confined c
  returns c _ _ hr := by
    obtain ⟨rfl, rfl⟩ := returns_lift.mp hr
    exact h c

theorem Stays.bind (hm : Stays R m s P) (hf : ∀ a s₁, P a s₁ → Stays R (f a) s₁ Q) :
    Stays R (m >>= f) s Q where
  confined c := by
    rw [bind_run, trace_bind]
    refine confined_append.mpr ⟨hm.confined c, ?_⟩
    cases hr : ret (m s) c with
    | none => exact confined_nil R
    | some r => exact (hf r.1 r.2 (hm.returns c _ _ hr)).confined _
  returns c b s' hr := by
    obtain ⟨a, s₁, hm', hf'⟩ := returns_bind.mp hr
    exact (hf a s₁ (hm.returns _ _ _ hm')).returns _ _ _ hf'

theorem stays_get_bind {f : σ → Flow σ β} (h : Stays R (f s) s Q) : Stays R (get >>= f) s Q where
  confined c := h.confined c
  returns c b s' hr := by
    obtain ⟨_, _, hg, hr'⟩ := returns_bind.mp hr
    obtain ⟨rfl, rfl⟩ := returns_get.mp hg
    exact h.returns _ b s' hr'

theorem stays_modify_bind {g : σ → σ} {f : Unit → Flow σ β} (h : Stays R (f ()) (g s) Q) :
    Stays R (modify g >>= f) s Q where
  confined c := h.confined c
  returns c b s' hr := by
    obtain ⟨_, _, hg, hr'⟩ := returns_bind.mp hr
    obtain rfl := returns_modify.mp hg
    exact h.returns _ b s' hr'

theorem Stays.ite {C : Prop} [Decidable C] (hm : C → Stays R m s P) (hm' : ¬C → Stays R m' s P) :
    Stays R (if C then m else m') s P := by
  split
  · exact hm ‹_›
  · exact hm' ‹_›

theorem stays_of_quiet (hm : Quiet m) (hk : Keeps id m) : Stays R m s fun _ s' => s = s' where
  confined c := ((hm.run s).within).confined c
  returns c a s' hr := (hk.run s c a s' hr).symm

theorem Stays.mono (hm : Stays R m s P) (h : ∀ a s', P a s' → P' a s') : Stays R m s P' :=
  ⟨hm.confined, fun c a s' hr => h a s' (hm.returns c a s' hr)⟩

end Stays

end Flow

end Nor

import XR806.Nor.Flow

/-!
# Nor.Answer

Programs over NOR flash when any request may fail: `Answers p s es a s'` says that `p`, started on
the devices `s`, can make the requests `es`, answered as noted there, and end with `a` on `s'`.

* A command that is accepted is carried out, or it is still at work when the program goes on; then
  a wait for the device fails. A command that is refused or still at work may have left anything in
  the cells it is about, and nothing elsewhere.
* `Flow.Answers` is the same for a program with a state.
* `answers_ret`: what is granted throughout is `ret`, `trace` and `post`;
* `Strict F p`: a program that only looks, and that a refused request leads to a result of `F`;
* `answers_replay`: a run with some commands refused, computed.
-/

namespace Nor

open Prog

variable {α β σ : Type}

/-- The cells, and whether a device is still at work on the last command. -/
structure Devices where
  cells : Cells
  busy : Bool

/-- A request and its answer. -/
inductive Event where
  | read (dev addr n : Nat) (ok : Bool)
  | command (w : Write) (ok : Bool)
  | wait (dev : Nat) (ok : Bool)
  | alloc (n : Nat) (ok : Bool)
  deriving DecidableEq

namespace Event

def ok : Event → Bool
  | .read _ _ _ ok => ok
  | .command _ ok => ok
  | .wait _ ok => ok
  | .alloc _ ok => ok

/-- A wait that gave up. -/
def isLate : Event → Bool
  | .wait _ ok => !ok
  | _ => false

/-- A command that was not accepted. -/
def isRefusal : Event → Bool
  | .command _ ok => !ok
  | _ => false

end Event

/-- `c'` differs from `c` at most where the command is about. -/
def Write.Marks (w : Write) (c c' : Cells) : Prop := ∀ d a, ¬w.Touches d a → c' d a = c d a

inductive Takes (w : Write) : Bool → Devices → Devices → Prop where
  | done (s : Devices) : Takes w true s ⟨w.apply s.cells, false⟩
  | late (s : Devices) {c : Cells} (h : w.Marks s.cells c) : Takes w true s ⟨c, true⟩
  | refused (s : Devices) {c : Cells} (h : w.Marks s.cells c) : Takes w false s ⟨c, s.busy⟩

inductive Answers : Prog α → Devices → List Event → α → Devices → Prop where
  | done (a : α) (s : Devices) : Answers (.done a) s [] a s
  | read {dev addr n : Nat} {k : Option (List Byte) → Prog α} {s s' : Devices} {es : List Event}
      {a : α} (ok : Bool)
      (h : Answers (k (if ok then some (readCells s.cells dev addr n) else none)) s es a s') :
      Answers (.read dev addr n k) s (.read dev addr n ok :: es) a s'
  | program {dev addr : Nat} {bs : List Byte} {k : Bool → Prog α} {s s₁ s' : Devices}
      {es : List Event} {a : α} (ok : Bool) (ht : Takes (.program dev addr bs) ok s s₁)
      (h : Answers (k ok) s₁ es a s') :
      Answers (.program dev addr bs k) s (.command (.program dev addr bs) ok :: es) a s'
  | erase {dev addr n : Nat} {k : Bool → Prog α} {s s₁ s' : Devices} {es : List Event} {a : α}
      (ok : Bool) (ht : Takes (.erase dev addr n) ok s s₁) (h : Answers (k ok) s₁ es a s') :
      Answers (.erase dev addr n k) s (.command (.erase dev addr n) ok :: es) a s'
  | wait {dev : Nat} {k : Bool → Prog α} {s s' : Devices} {es : List Event} {a : α} (ok : Bool)
      (hok : ok = true → s.busy = false) (h : Answers (k ok) s es a s') :
      Answers (.wait dev k) s (.wait dev ok :: es) a s'
  | alloc {n : Nat} {k : Bool → Prog α} {s s' : Devices} {es : List Event} {a : α} (ok : Bool)
      (h : Answers (k ok) s es a s') : Answers (.alloc n k) s (.alloc n ok :: es) a s'

section

variable {p : Prog α} {f : α → Prog β} {s s' : Devices} {es : List Event} {a : α} {b : β}

theorem answers_pure {a' : α} : Answers (pure a) s es a' s' ↔ es = [] ∧ a' = a ∧ s' = s := by
  constructor
  · intro h
    cases h
    exact ⟨rfl, rfl, rfl⟩
  · rintro ⟨rfl, rfl, rfl⟩
    exact .done _ _

theorem answers_bind : Answers (p >>= f) s es b s' ↔
    ∃ es₁ es₂ a s₁, es = es₁ ++ es₂ ∧ Answers p s es₁ a s₁ ∧ Answers (f a) s₁ es₂ b s' := by
  change Answers (p.bind f) s es b s' ↔ _
  constructor
  · intro h
    induction p generalizing s es with
    | done a => exact ⟨[], es, a, s, rfl, .done a s, h⟩
    | read dev addr n k ih =>
      cases h with
      | read ok h =>
        obtain ⟨es₁, es₂, a, s₁, rfl, h₁, h₂⟩ := ih _ h
        exact ⟨_, es₂, a, s₁, rfl, .read ok h₁, h₂⟩
    | program dev addr bs k ih =>
      cases h with
      | program ok ht h =>
        obtain ⟨es₁, es₂, a, s₁, rfl, h₁, h₂⟩ := ih _ h
        exact ⟨_, es₂, a, s₁, rfl, .program ok ht h₁, h₂⟩
    | erase dev addr n k ih =>
      cases h with
      | erase ok ht h =>
        obtain ⟨es₁, es₂, a, s₁, rfl, h₁, h₂⟩ := ih _ h
        exact ⟨_, es₂, a, s₁, rfl, .erase ok ht h₁, h₂⟩
    | wait dev k ih =>
      cases h with
      | wait ok hok h =>
        obtain ⟨es₁, es₂, a, s₁, rfl, h₁, h₂⟩ := ih _ h
        exact ⟨_, es₂, a, s₁, rfl, .wait ok hok h₁, h₂⟩
    | alloc n k ih =>
      cases h with
      | alloc ok h =>
        obtain ⟨es₁, es₂, a, s₁, rfl, h₁, h₂⟩ := ih _ h
        exact ⟨_, es₂, a, s₁, rfl, .alloc ok h₁, h₂⟩
  · rintro ⟨es₁, es₂, a, s₁, rfl, h₁, h₂⟩
    induction h₁ with
    | done a s => exact h₂
    | read ok _ ih => exact .read ok (ih h₂)
    | program ok ht _ ih => exact .program ok ht (ih h₂)
    | erase ok ht _ ih => exact .erase ok ht (ih h₂)
    | wait ok hok _ ih => exact .wait ok hok (ih h₂)
    | alloc ok _ ih => exact .alloc ok (ih h₂)

theorem answers_programReq {dev addr : Nat} {bs : List Byte} {ok : Bool} :
    Answers (programReq dev addr bs) s es ok s' ↔
      es = [.command (.program dev addr bs) ok] ∧ Takes (.program dev addr bs) ok s s' := by
  constructor
  · intro h
    cases h with
    | program ok ht h =>
      cases h
      exact ⟨rfl, ht⟩
  · rintro ⟨rfl, ht⟩
    exact .program ok ht (.done _ _)

theorem answers_eraseReq {dev addr n : Nat} {ok : Bool} :
    Answers (eraseReq dev addr n) s es ok s' ↔
      es = [.command (.erase dev addr n) ok] ∧ Takes (.erase dev addr n) ok s s' := by
  constructor
  · intro h
    cases h with
    | erase ok ht h =>
      cases h
      exact ⟨rfl, ht⟩
  · rintro ⟨rfl, ht⟩
    exact .erase ok ht (.done _ _)

theorem answers_waitReq {dev : Nat} {ok : Bool} : Answers (waitReq dev) s es ok s' ↔
    es = [.wait dev ok] ∧ (ok = true → s.busy = false) ∧ s' = s := by
  constructor
  · intro h
    cases h with
    | wait ok hok h =>
      cases h
      exact ⟨rfl, hok, rfl⟩
  · rintro ⟨rfl, hok, rfl⟩
    exact .wait ok hok (.done _ _)

theorem answers_readReq {dev addr n : Nat} {r : Option (List Byte)} :
    Answers (readReq dev addr n) s es r s' ↔
      ∃ ok, es = [.read dev addr n ok] ∧
        r = (if ok then some (readCells s.cells dev addr n) else none) ∧ s' = s := by
  constructor
  · intro h
    cases h with
    | read ok h =>
      cases h
      exact ⟨ok, rfl, rfl, rfl⟩
  · rintro ⟨ok, rfl, rfl, rfl⟩
    exact .read ok (.done _ _)

theorem answers_allocReq {n : Nat} {ok : Bool} :
    Answers (allocReq n) s es ok s' ↔ es = [.alloc n ok] ∧ s' = s := by
  constructor
  · intro h
    cases h with
    | alloc ok h =>
      cases h
      exact ⟨rfl, rfl⟩
  · rintro ⟨rfl, rfl⟩
    exact .alloc ok (.done _ _)

/-- A command that was accepted and is waited for has been carried out. -/
theorem Takes.settled {w : Write} {s s' : Devices} (h : Takes w true s s')
    (hidle : s'.busy = false) : s' = ⟨w.apply s.cells, false⟩ := by
  cases h with
  | done => rfl
  | late => cases hidle

theorem Takes.marks {w : Write} {ok : Bool} {s s' : Devices} (h : Takes w ok s s') :
    w.Marks s.cells s'.cells := by
  cases h with
  | done => exact fun d a hna => w.apply_of_not_touches hna
  | late _ h => exact h
  | refused _ h => exact h

theorem Quiet.answers (hp : Quiet p) (h : Answers p s es a s') : s' = s := by
  obtain ⟨hp⟩ := hp
  induction h with
  | done a s => rfl
  | read ok _ ih => exact ih (hp _)
  | program ok _ _ _ => exact hp.elim
  | erase ok _ _ _ => exact hp.elim
  | wait ok _ _ ih => exact ih (hp ok)
  | alloc ok _ ih => exact ih (hp ok)

theorem Yields.answers {Q : α → Prop} (hp : Yields Q p) (h : Answers p s es a s') : Q a := by
  induction h with
  | done a s => exact hp
  | read ok _ ih => exact ih (hp _)
  | program ok _ _ ih => exact ih (hp ok)
  | erase ok _ _ ih => exact ih (hp ok)
  | wait ok _ _ ih => exact ih (hp ok)
  | alloc ok _ ih => exact ih (hp ok)

end

/-! ## The requests a program makes -/

/-- Whatever the answers, the program makes no request but these. -/
structure Only (P : Event → Prop) (p : Prog α) : Prop where
  mem : ∀ {s es a s'}, Answers p s es a s' → ∀ e ∈ es, P e

section Only

variable {P Q : Event → Prop} {p : Prog α} {f : α → Prog β} {dev addr n : Nat} {bs : List Byte}

theorem only_pure (a : α) : Only P (pure a) where
  mem h e he := by
    obtain ⟨rfl, -, -⟩ := answers_pure.mp h
    cases he

theorem Only.bind (hp : Only P p) (hf : ∀ a, Only P (f a)) : Only P (p >>= f) where
  mem h e he := by
    obtain ⟨es₁, es₂, a, s₁, rfl, h₁, h₂⟩ := answers_bind.mp h
    rcases List.mem_append.mp he with he | he
    · exact hp.mem h₁ e he
    · exact (hf a).mem h₂ e he

theorem Only.ite {c : Prop} [Decidable c] {q : Prog α} (hp : Only P p) (hq : Only P q) :
    Only P (if c then p else q) := by
  split
  · exact hp
  · exact hq

theorem Only.mono (hp : Only P p) (h : ∀ e, P e → Q e) : Only Q p :=
  ⟨fun ha e he => h e (hp.mem ha e he)⟩

theorem only_readReq (h : ∀ ok, P (.read dev addr n ok)) : Only P (readReq dev addr n) where
  mem ha e he := by
    obtain ⟨ok, rfl, -, -⟩ := answers_readReq.mp ha
    exact List.mem_singleton.mp he ▸ h ok

theorem only_programReq (h : ∀ ok, P (.command (.program dev addr bs) ok)) :
    Only P (programReq dev addr bs) where
  mem ha e he := by
    obtain ⟨rfl, -⟩ := answers_programReq.mp ha
    exact List.mem_singleton.mp he ▸ h _

theorem only_eraseReq (h : ∀ ok, P (.command (.erase dev addr n) ok)) :
    Only P (eraseReq dev addr n) where
  mem ha e he := by
    obtain ⟨rfl, -⟩ := answers_eraseReq.mp ha
    exact List.mem_singleton.mp he ▸ h _

theorem only_waitReq (h : ∀ ok, P (.wait dev ok)) : Only P (waitReq dev) where
  mem ha e he := by
    obtain ⟨rfl, -⟩ := answers_waitReq.mp ha
    exact List.mem_singleton.mp he ▸ h _

end Only

/-! ## Everything granted -/

/-- The requests a program makes when all are granted. -/
def granted : Prog α → Cells → List Event
  | .done _, _ => []
  | .read dev addr n k, c =>
    .read dev addr n true :: granted (k (some (readCells c dev addr n))) c
  | .program dev addr bs k, c =>
    .command (.program dev addr bs) true :: granted (k true) (programCells c dev addr bs)
  | .erase dev addr n k, c =>
    .command (.erase dev addr n) true :: granted (k true) (eraseCells c dev addr n)
  | .wait dev k, c => .wait dev true :: granted (k true) c
  | .alloc n k, c => .alloc n true :: granted (k true) c

theorem answers_ret (p : Prog α) (c : Cells) :
    Answers p ⟨c, false⟩ (granted p c) (ret p c) ⟨post p c, false⟩ := by
  induction p generalizing c with
  | done a => exact .done a _
  | read dev addr n k ih => exact .read true (ih _ c)
  | program dev addr bs k ih => exact .program true (.done _) (ih true _)
  | erase dev addr n k ih => exact .erase true (.done _) (ih true _)
  | wait dev k ih => exact .wait true (fun _ => rfl) (ih true c)
  | alloc n k ih => exact .alloc true (ih true c)

section
variable {c : Cells} {dev addr n : Nat} {bs : List Byte}

@[simp] theorem granted_pure (a : α) : granted (pure a : Prog α) c = [] := rfl

@[simp] theorem granted_readReq :
    granted (readReq dev addr n) c = [.read dev addr n true] := rfl

@[simp] theorem granted_programReq :
    granted (programReq dev addr bs) c = [.command (.program dev addr bs) true] := rfl

@[simp] theorem granted_eraseReq :
    granted (eraseReq dev addr n) c = [.command (.erase dev addr n) true] := rfl

@[simp] theorem granted_waitReq : granted (waitReq dev) c = [.wait dev true] := rfl

@[simp] theorem granted_allocReq : granted (allocReq n) c = [.alloc n true] := rfl

@[simp] theorem granted_bind (p : Prog α) (f : α → Prog β) :
    granted (p >>= f) c = granted p c ++ granted (f (ret p c)) (post p c) := by
  change granted (p.bind f) c = _
  induction p generalizing c with
  | done a => rfl
  | read dev addr n k ih => exact congrArg (_ :: ·) (ih _)
  | program dev addr bs k ih => exact congrArg (_ :: ·) (ih true)
  | erase dev addr n k ih => exact congrArg (_ :: ·) (ih true)
  | wait dev k ih => exact congrArg (_ :: ·) (ih true)
  | alloc n k ih => exact congrArg (_ :: ·) (ih true)

end

theorem ok_of_granted {p : Prog α} {c : Cells} : ∀ e ∈ granted p c, e.ok = true := by
  induction p generalizing c with
  | done a => exact fun e he => absurd he List.not_mem_nil
  | read dev addr n k ih => exact List.forall_mem_cons.mpr ⟨rfl, ih _⟩
  | program dev addr bs k ih => exact List.forall_mem_cons.mpr ⟨rfl, ih true⟩
  | erase dev addr n k ih => exact List.forall_mem_cons.mpr ⟨rfl, ih true⟩
  | wait dev k ih => exact List.forall_mem_cons.mpr ⟨rfl, ih true⟩
  | alloc n k ih => exact List.forall_mem_cons.mpr ⟨rfl, ih true⟩

/-- A program whose requests are the ones it makes when all are granted. -/
theorem Answers.granted_of_prefix {p : Prog α} {s s' : Devices} {es es' : List Event} {a : α}
    (h : Answers p s es a s') (hp : Silent p s.cells) (hes : granted p s.cells <+: es ++ es') :
    es = granted p s.cells ∧ a = ret p s.cells ∧ s' = s := by
  induction h with
  | done a s => exact ⟨rfl, rfl, rfl⟩
  | read ok _ ih =>
    obtain ⟨heq, hrest⟩ := List.cons_prefix_cons.mp hes
    injection heq with _ _ _ hok
    subst hok
    obtain ⟨h1, h2, h3⟩ := ih hp hrest
    exact ⟨congrArg _ h1, h2, h3⟩
  | program ok _ _ _ => cases hp
  | erase ok _ _ _ => cases hp
  | wait ok _ _ ih =>
    obtain ⟨heq, hrest⟩ := List.cons_prefix_cons.mp hes
    injection heq with _ hok
    subst hok
    obtain ⟨h1, h2, h3⟩ := ih hp hrest
    exact ⟨congrArg _ h1, h2, h3⟩
  | alloc ok _ ih =>
    obtain ⟨heq, hrest⟩ := List.cons_prefix_cons.mp hes
    injection heq with _ hok
    subst hok
    obtain ⟨h1, h2, h3⟩ := ih hp hrest
    exact ⟨congrArg _ h1, h2, h3⟩

/-! ## What a refusal leads to -/

/-- The program only looks, and it ends with a result of `F` if a request is refused. -/
structure Strict (F : α → Prop) (p : Prog α) : Prop where
  quiet : Quiet p
  run : ∀ {s es a s'}, Answers p s es a s' → es = granted p s.cells ∧ a = ret p s.cells ∨ F a

section Strict

variable {F : α → Prop} {G : β → Prop} {p q : Prog α} {f : α → Prog β}

theorem strict_pure (a : α) : Strict F (pure a) where
  quiet := quiet_pure a
  run h := by
    obtain ⟨rfl, rfl, -⟩ := answers_pure.mp h
    exact .inl ⟨rfl, rfl⟩

theorem strict_readReq (dev addr n : Nat) : Strict (· = none) (readReq dev addr n) where
  quiet := quiet_readReq dev addr n
  run h := by
    obtain ⟨ok, rfl, rfl, -⟩ := answers_readReq.mp h
    cases ok with
    | false => exact .inr rfl
    | true => exact .inl ⟨rfl, rfl⟩

theorem strict_allocReq (n : Nat) : Strict (· = false) (allocReq n) where
  quiet := quiet_allocReq n
  run {_ _ ok _} h := by
    obtain ⟨rfl, -⟩ := answers_allocReq.mp h
    cases ok with
    | false => exact .inr rfl
    | true => exact .inl ⟨rfl, rfl⟩

theorem Strict.bind (hp : Strict F p) (hf : ∀ a, Strict G (f a))
    (hF : ∀ a, F a → ∃ b, f a = pure b ∧ G b) : Strict G (p >>= f) where
  quiet := hp.quiet.bind fun a => (hf a).quiet
  run h := by
    obtain ⟨es₁, es₂, a, s₁, rfl, h₁, h₂⟩ := answers_bind.mp h
    rcases hp.run h₁ with ⟨rfl, rfl⟩ | hfail
    · obtain rfl := hp.quiet.answers h₁
      refine ((hf _).run h₂).imp_left ?_
      rintro ⟨rfl, rfl⟩
      rw [granted_bind, ret_bind, hp.quiet.post]
      exact ⟨rfl, rfl⟩
    · obtain ⟨b, hb, hG⟩ := hF a hfail
      rw [hb] at h₂
      exact .inr ((answers_pure.mp h₂).2.1 ▸ hG)

theorem Strict.ite {P : Prop} [Decidable P] (hp : Strict F p) (hq : Strict F q) :
    Strict F (if P then p else q) := by
  split
  · exact hp
  · exact hq

end Strict

/-! ## Commands refused by plan -/

/-- The run in which the commands are answered by `oks` in turn, and all other requests granted. A
refused command leaves the cells as they are. -/
def replay : Prog α → List Bool → Cells → List Event × α × Cells
  | .done a, _, c => ([], a, c)
  | .read dev addr n k, oks, c =>
    let (es, a, c') := replay (k (some (readCells c dev addr n))) oks c
    (.read dev addr n true :: es, a, c')
  | .program dev addr bs k, oks, c =>
    let ok := oks.headD true
    let (es, a, c') := replay (k ok) oks.tail (if ok then programCells c dev addr bs else c)
    (.command (.program dev addr bs) ok :: es, a, c')
  | .erase dev addr n k, oks, c =>
    let ok := oks.headD true
    let (es, a, c') := replay (k ok) oks.tail (if ok then eraseCells c dev addr n else c)
    (.command (.erase dev addr n) ok :: es, a, c')
  | .wait dev k, oks, c =>
    let (es, a, c') := replay (k true) oks c
    (.wait dev true :: es, a, c')
  | .alloc n k, oks, c =>
    let (es, a, c') := replay (k true) oks c
    (.alloc n true :: es, a, c')

theorem takes_planned (w : Write) (ok : Bool) (c : Cells) :
    Takes w ok ⟨c, false⟩ ⟨if ok then w.apply c else c, false⟩ := by
  cases ok with
  | false => exact .refused ⟨c, false⟩ fun _ _ _ => rfl
  | true => exact .done ⟨c, false⟩

theorem answers_replay (p : Prog α) (oks : List Bool) (c : Cells) :
    Answers p ⟨c, false⟩ (replay p oks c).1 (replay p oks c).2.1 ⟨(replay p oks c).2.2, false⟩ := by
  induction p generalizing oks c with
  | done a => exact .done a _
  | read dev addr n k ih => exact .read true (ih _ oks c)
  | program dev addr bs k ih => exact .program _ (takes_planned _ _ c) (ih _ oks.tail _)
  | erase dev addr n k ih => exact .erase _ (takes_planned _ _ c) (ih _ oks.tail _)
  | wait dev k ih => exact .wait true (fun _ => rfl) (ih true oks c)
  | alloc n k ih => exact .alloc true (ih true oks c)

/-- The run in which all requests, not only commands, are answered by `oks` in turn. -/
def script : Prog α → List Bool → Cells → List Event × α × Cells
  | .done a, _, c => ([], a, c)
  | .read dev addr n k, oks, c =>
    let ok := oks.headD true
    let (es, a, c') := script (k (if ok then some (readCells c dev addr n) else none)) oks.tail c
    (.read dev addr n ok :: es, a, c')
  | .program dev addr bs k, oks, c =>
    let ok := oks.headD true
    let (es, a, c') := script (k ok) oks.tail (if ok then programCells c dev addr bs else c)
    (.command (.program dev addr bs) ok :: es, a, c')
  | .erase dev addr n k, oks, c =>
    let ok := oks.headD true
    let (es, a, c') := script (k ok) oks.tail (if ok then eraseCells c dev addr n else c)
    (.command (.erase dev addr n) ok :: es, a, c')
  | .wait dev k, oks, c =>
    let ok := oks.headD true
    let (es, a, c') := script (k ok) oks.tail c
    (.wait dev ok :: es, a, c')
  | .alloc n k, oks, c =>
    let ok := oks.headD true
    let (es, a, c') := script (k ok) oks.tail c
    (.alloc n ok :: es, a, c')

theorem answers_script (p : Prog α) (oks : List Bool) (c : Cells) :
    Answers p ⟨c, false⟩ (script p oks c).1 (script p oks c).2.1 ⟨(script p oks c).2.2, false⟩ := by
  induction p generalizing oks c with
  | done a => exact .done a _
  | read dev addr n k ih => exact .read _ (ih _ oks.tail c)
  | program dev addr bs k ih => exact .program _ (takes_planned _ _ c) (ih _ oks.tail _)
  | erase dev addr n k ih => exact .erase _ (takes_planned _ _ c) (ih _ oks.tail _)
  | wait dev k ih => exact .wait _ (fun _ => rfl) (ih _ oks.tail c)
  | alloc n k ih => exact .alloc _ (ih _ oks.tail c)

namespace Flow

/-- As `Nor.Answers`, from state `s` to state `s'`. -/
def Answers (m : Flow σ α) (s : σ) (d : Devices) (es : List Event) (a : α) (s' : σ)
    (d' : Devices) : Prop := Nor.Answers (m s) d es (some (a, s')) d'

section

variable {m : Flow σ α} {f : α → Flow σ β} {p : Prog α} {s s' : σ} {d d' : Devices}
  {es : List Event} {a : α} {b : β}

theorem answers_pure {a' : α} :
    Answers (pure a) s d es a' s' d' ↔ es = [] ∧ a' = a ∧ s' = s ∧ d' = d := by
  rw [Answers, pure_run, Nor.answers_pure, Option.some.injEq, Prod.mk.injEq, and_assoc]

theorem answers_bind : Answers (m >>= f) s d es b s' d' ↔
    ∃ es₁ es₂ a s₁ d₁, es = es₁ ++ es₂ ∧ Answers m s d es₁ a s₁ d₁ ∧
      Answers (f a) s₁ d₁ es₂ b s' d' := by
  rw [Answers, bind_run, Nor.answers_bind]
  constructor
  · rintro ⟨es₁, es₂, r, d₁, rfl, h₁, h₂⟩
    cases r with
    | none => cases (Nor.answers_pure.mp h₂).2.1
    | some r => exact ⟨es₁, es₂, r.1, r.2, d₁, rfl, h₁, h₂⟩
  · rintro ⟨es₁, es₂, a, s₁, d₁, rfl, h₁, h₂⟩
    exact ⟨es₁, es₂, some (a, s₁), d₁, rfl, h₁, h₂⟩

theorem answers_lift : Answers (lift p) s d es a s' d' ↔ Nor.Answers p d es a d' ∧ s' = s := by
  rw [Answers, lift, Nor.answers_bind]
  constructor
  · rintro ⟨es₁, es₂, a', d₁, rfl, h₁, h₂⟩
    obtain ⟨rfl, heq, rfl⟩ := Nor.answers_pure.mp h₂
    cases heq
    rw [List.append_nil]
    exact ⟨h₁, rfl⟩
  · rintro ⟨h, rfl⟩
    exact ⟨es, [], a, d', (List.append_nil es).symm, h, .done _ _⟩

theorem answers_get {t : σ} :
    Answers get s d es t s' d' ↔ es = [] ∧ t = s ∧ s' = s ∧ d' = d := by
  rw [Answers, get, Nor.answers_pure, Option.some.injEq, Prod.mk.injEq, and_assoc]

theorem answers_modify {g : σ → σ} {u : Unit} :
    Answers (modify g) s d es u s' d' ↔ es = [] ∧ s' = g s ∧ d' = d := by
  rw [Answers, modify, Nor.answers_pure, Option.some.injEq, Prod.mk.injEq]
  exact ⟨fun h => ⟨h.1, h.2.1.2, h.2.2⟩, fun h => ⟨h.1, ⟨rfl, h.2.1⟩, h.2.2⟩⟩

theorem not_answers_hang : ¬Answers (hang : Flow σ α) s d es a s' d' := by
  intro h
  cases (Nor.answers_pure.mp h).2.1

theorem Quiet.answers (hm : Quiet m) (h : Answers m s d es a s' d') : d' = d :=
  (hm.run s).answers h

/-- Behind a quiet program the devices are the same. -/
theorem Quiet.answers_bind (hm : Quiet m) : Answers (m >>= f) s d es b s' d' ↔
    ∃ es₁ es₂ a s₁, es = es₁ ++ es₂ ∧ Answers m s d es₁ a s₁ d ∧ Answers (f a) s₁ d es₂ b s' d' := by
  rw [Flow.answers_bind]
  constructor
  · rintro ⟨es₁, es₂, a, s₁, d₁, rfl, h₁, h₂⟩
    obtain rfl := hm.answers h₁
    exact ⟨es₁, es₂, a, s₁, rfl, h₁, h₂⟩
  · rintro ⟨es₁, es₂, a, s₁, rfl, h₁, h₂⟩
    exact ⟨es₁, es₂, a, s₁, d, rfl, h₁, h₂⟩

theorem Keeps.answers {ρ : Type} {view : σ → ρ} (hm : Keeps view m)
    (h : Answers m s d es a s' d') : view s' = view s := (hm.yields s).answers h (a, s') rfl

end

/-! ## Strict programs with a state -/

/-- As `Nor.Strict`, with any state. -/
structure Strict (F : α → Prop) (m : Flow σ α) : Prop where
  run : ∀ s, Nor.Strict (fun r => ∀ q ∈ r, F q.1) (m s)

section

variable {τ : Type} {F : α → Prop} {G : β → Prop} {m m' : Flow σ α} {f : α → Flow σ β} {p : Prog α}

theorem Strict.quiet (hm : Strict F m) : Quiet m := ⟨fun s => (hm.run s).quiet⟩

theorem strict_pure (a : α) : Strict F (pure a : Flow σ α) := ⟨fun _ => Nor.strict_pure _⟩

theorem strict_hang : Strict F (hang : Flow σ α) := ⟨fun _ => Nor.strict_pure _⟩

theorem strict_get : Strict (fun _ => False) (get : Flow σ σ) := ⟨fun _ => Nor.strict_pure _⟩

theorem strict_modify (g : σ → σ) : Strict (fun _ => False) (modify g) :=
  ⟨fun _ => Nor.strict_pure _⟩

theorem strict_lift (hp : Nor.Strict F p) : Strict F (lift p : Flow σ α) where
  run s := hp.bind (fun _ => Nor.strict_pure _) fun a ha =>
    ⟨some (a, s), rfl, fun _ hq => Option.some.inj hq ▸ ha⟩

theorem Strict.bind (hm : Strict F m) (hf : ∀ a, Strict G (f a))
    (hF : ∀ a, F a → ∃ b, f a = pure b ∧ G b) : Strict G (m >>= f) where
  run s := by
    refine (hm.run s).bind (fun r => ?_) fun r hr => ?_
    · cases r with
      | none => exact Nor.strict_pure _
      | some q => exact (hf q.1).run q.2
    · cases r with
      | none => exact ⟨none, rfl, fun _ hq => nomatch hq⟩
      | some q =>
        obtain ⟨b, hb, hG⟩ := hF q.1 (hr q rfl)
        refine ⟨some (b, q.2), ?_, fun _ hq => Option.some.inj hq ▸ hG⟩
        exact congrFun hb q.2

theorem Strict.ite {P : Prop} [Decidable P] (hm : Strict F m) (hm' : Strict F m') :
    Strict F (if P then m else m') := by
  split
  · exact hm
  · exact hm'

theorem Strict.zoom {part : τ → σ} {put : τ → σ → τ} (hm : Strict F m) :
    Strict F (zoom part put m) where
  run t := by
    refine (hm.run (part t)).bind (fun r => ?_) fun r hr => ?_
    · cases r with
      | none => exact Nor.strict_pure _
      | some q => exact Nor.strict_pure _
    · cases r with
      | none => exact ⟨none, rfl, fun _ hq => nomatch hq⟩
      | some q =>
        exact ⟨some (q.1, put t q.2), rfl, fun _ hq => Option.some.inj hq ▸ hr q rfl⟩

/-- Without a refusal that leads to a result of `F`, everything was granted. -/
theorem Strict.answers {s s' : σ} {d d' : Devices} {es : List Event} {a : α} (hm : Strict F m)
    (h : Answers m s d es a s' d') (ha : ¬F a) :
    es = granted (m s) d.cells ∧ Returns m s d.cells a s' := by
  obtain ⟨hes, hret⟩ := ((hm.run s).run h).resolve_right fun hF => ha (hF (a, s') rfl)
  exact ⟨hes, hret.symm⟩

end

end Flow

end Nor

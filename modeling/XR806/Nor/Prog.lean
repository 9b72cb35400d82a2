import XR806.Nor.Cells

/-!
# Nor.Prog

Programs over NOR flash, as trees of requests: read some cells, program, erase, wait for the
device, allocate memory. The continuation sees the answer, so one tree serves every way the
requests can be answered. Here they are all granted:

* `ret p c`   — the value the program returns from cells `c`;
* `trace p c` — the commands it issues, in order;
* `post p c`  — the cells it leaves, `applyAll (trace p c) c`.

`Cut g p c c'` says that a power cut during `p` can leave `c'`. The three functions and `Cut`
distribute over `>>=`, which is all a proof about a program needs.

* `Quiet p`: the program issues no command, whatever is refused; `Yields Q p`: it ends with a result
  of `Q`; `Within R p`: it stays inside the region `R`;
* `reads p c`: what it reads, so that a quiet program answers the same on cells that agree there
  (`ret_congr`).
-/

namespace Nor

inductive Prog (α : Type) where
  | done (a : α)
  | read (dev addr n : Nat) (k : Option (List Byte) → Prog α)
  | program (dev addr : Nat) (bs : List Byte) (k : Bool → Prog α)
  | erase (dev addr n : Nat) (k : Bool → Prog α)
  | wait (dev : Nat) (k : Bool → Prog α)
  | alloc (n : Nat) (k : Bool → Prog α)

namespace Prog

variable {α β : Type}

def bind : Prog α → (α → Prog β) → Prog β
  | .done a, f => f a
  | .read dev addr n k, f => .read dev addr n fun r => (k r).bind f
  | .program dev addr bs k, f => .program dev addr bs fun r => (k r).bind f
  | .erase dev addr n k, f => .erase dev addr n fun r => (k r).bind f
  | .wait dev k, f => .wait dev fun r => (k r).bind f
  | .alloc n k, f => .alloc n fun r => (k r).bind f

instance : Monad Prog where
  pure := .done
  bind := bind

end Prog

open Prog

variable {α β : Type}

def ret : Prog α → Cells → α
  | .done a, _ => a
  | .read dev addr n k, c => ret (k (some (readCells c dev addr n))) c
  | .program dev addr bs k, c => ret (k true) (programCells c dev addr bs)
  | .erase dev addr n k, c => ret (k true) (eraseCells c dev addr n)
  | .wait _ k, c => ret (k true) c
  | .alloc _ k, c => ret (k true) c

def trace : Prog α → Cells → List Write
  | .done _, _ => []
  | .read dev addr n k, c => trace (k (some (readCells c dev addr n))) c
  | .program dev addr bs k, c =>
    .program dev addr bs :: trace (k true) (programCells c dev addr bs)
  | .erase dev addr n k, c => .erase dev addr n :: trace (k true) (eraseCells c dev addr n)
  | .wait _ k, c => trace (k true) c
  | .alloc _ k, c => trace (k true) c

def post (p : Prog α) (c : Cells) : Cells := applyAll (trace p c) c

@[simp] theorem ret_pure (a : α) (c : Cells) : ret (pure a) c = a := rfl
@[simp] theorem trace_pure (a : α) (c : Cells) : trace (pure a : Prog α) c = [] := rfl
@[simp] theorem post_pure (a : α) (c : Cells) : post (pure a : Prog α) c = c := rfl

/-! The requests as programs of their own. -/

def readReq (dev addr n : Nat) : Prog (Option (List Byte)) := .read dev addr n .done
def programReq (dev addr : Nat) (bs : List Byte) : Prog Bool := .program dev addr bs .done
def eraseReq (dev addr n : Nat) : Prog Bool := .erase dev addr n .done
def waitReq (dev : Nat) : Prog Bool := .wait dev .done
def allocReq (n : Nat) : Prog Bool := .alloc n .done

section Requests

variable (c : Cells) (dev addr n : Nat) (bs : List Byte)

@[simp] theorem ret_readReq : ret (readReq dev addr n) c = some (readCells c dev addr n) := rfl
@[simp] theorem trace_readReq : trace (readReq dev addr n) c = [] := rfl
@[simp] theorem ret_programReq : ret (programReq dev addr bs) c = true := rfl
@[simp] theorem trace_programReq :
    trace (programReq dev addr bs) c = [.program dev addr bs] := rfl
@[simp] theorem post_programReq :
    post (programReq dev addr bs) c = programCells c dev addr bs := rfl
@[simp] theorem ret_eraseReq : ret (eraseReq dev addr n) c = true := rfl
@[simp] theorem trace_eraseReq : trace (eraseReq dev addr n) c = [.erase dev addr n] := rfl
@[simp] theorem post_eraseReq : post (eraseReq dev addr n) c = eraseCells c dev addr n := rfl
@[simp] theorem ret_waitReq : ret (waitReq dev) c = true := rfl
@[simp] theorem trace_waitReq : trace (waitReq dev) c = [] := rfl
@[simp] theorem ret_allocReq : ret (allocReq n) c = true := rfl
@[simp] theorem trace_allocReq : trace (allocReq n) c = [] := rfl
@[simp] theorem post_readReq : post (readReq dev addr n) c = c := rfl
@[simp] theorem post_waitReq : post (waitReq dev) c = c := rfl
@[simp] theorem post_allocReq : post (allocReq n) c = c := rfl

end Requests

theorem run_bind (p : Prog α) (f : α → Prog β) (c : Cells) :
    ret (p >>= f) c = ret (f (ret p c)) (post p c) ∧
      trace (p >>= f) c = trace p c ++ trace (f (ret p c)) (post p c) := by
  change ret (p.bind f) c = _ ∧ trace (p.bind f) c = _
  induction p generalizing c with
  | done a => exact ⟨rfl, rfl⟩
  | read dev addr n k ih => exact ih _ c
  | program dev addr bs k ih =>
    obtain ⟨h1, h2⟩ := ih true (programCells c dev addr bs)
    exact ⟨h1, congrArg _ h2⟩
  | erase dev addr n k ih =>
    obtain ⟨h1, h2⟩ := ih true (eraseCells c dev addr n)
    exact ⟨h1, congrArg _ h2⟩
  | wait dev k ih => exact ih _ c
  | alloc n k ih => exact ih _ c

@[simp] theorem ret_bind (p : Prog α) (f : α → Prog β) (c : Cells) :
    ret (p >>= f) c = ret (f (ret p c)) (post p c) := (run_bind p f c).1

@[simp] theorem trace_bind (p : Prog α) (f : α → Prog β) (c : Cells) :
    trace (p >>= f) c = trace p c ++ trace (f (ret p c)) (post p c) := (run_bind p f c).2

@[simp] theorem post_bind (p : Prog α) (f : α → Prog β) (c : Cells) :
    post (p >>= f) c = post (f (ret p c)) (post p c) := by
  simp [post]

/-! ## Programs that only look -/

/-- The program issues no command from `c`. -/
def Silent (p : Prog α) (c : Cells) : Prop := trace p c = []

theorem Silent.post {p : Prog α} {c : Cells} (h : Silent p c) : post p c = c := by
  rw [Nor.post, show trace p c = [] from h, applyAll_nil]

def CommandFree : Prog α → Prop
  | .done _ => True
  | .read _ _ _ k => ∀ r, CommandFree (k r)
  | .program _ _ _ _ | .erase _ _ _ _ => False
  | .wait _ k | .alloc _ k => ∀ ok, CommandFree (k ok)

/-- The program issues no command, whatever the cells are and whatever is refused. -/
structure Quiet (p : Prog α) : Prop where
  free : CommandFree p

section Quiet

variable {p : Prog α} {f : α → Prog β}

theorem Quiet.silent (h : Quiet p) (c : Cells) : Silent p c := by
  obtain ⟨h⟩ := h
  induction p with
  | done a => rfl
  | read dev addr n k ih => exact ih _ (h _)
  | program dev addr bs k _ => exact h.elim
  | erase dev addr n k _ => exact h.elim
  | wait dev k ih => exact ih _ (h _)
  | alloc n k ih => exact ih _ (h _)

theorem Quiet.trace (h : Quiet p) (c : Cells) : trace p c = [] := h.silent c

theorem Quiet.post (h : Quiet p) (c : Cells) : post p c = c := (h.silent c).post

theorem quiet_pure (a : α) : Quiet (pure a : Prog α) := ⟨trivial⟩

theorem quiet_readReq (dev addr n : Nat) : Quiet (readReq dev addr n) := ⟨fun _ => trivial⟩

theorem quiet_allocReq (n : Nat) : Quiet (allocReq n) := ⟨fun _ => trivial⟩

theorem Quiet.bind (hp : Quiet p) (hf : ∀ a, Quiet (f a)) : Quiet (p >>= f) := by
  obtain ⟨hp⟩ := hp
  refine ⟨?_⟩
  change CommandFree (p.bind f)
  induction p with
  | done a => exact (hf a).free
  | read dev addr n k ih => exact fun r => ih r (hp r)
  | program dev addr bs k _ => exact hp.elim
  | erase dev addr n k _ => exact hp.elim
  | wait dev k ih => exact fun ok => ih ok (hp ok)
  | alloc n k ih => exact fun ok => ih ok (hp ok)

theorem Quiet.ite {P : Prop} [Decidable P] {q : Prog α} (hp : Quiet p) (hq : Quiet q) :
    Quiet (if P then p else q) := by
  split
  · exact hp
  · exact hq

/-- Behind a quiet program the cells are the same. -/
theorem Quiet.ret_bind (h : Quiet p) (c : Cells) : ret (p >>= f) c = ret (f (ret p c)) c := by
  rw [Nor.ret_bind, h.post]

theorem Quiet.trace_bind (h : Quiet p) (c : Cells) :
    Nor.trace (p >>= f) c = Nor.trace (f (ret p c)) c := by
  rw [Nor.trace_bind, h.trace, h.post, List.nil_append]

end Quiet

/-! ## What a program can end with -/

/-- Whatever is answered, the program ends with a result of `Q`. -/
def Yields (Q : α → Prop) : Prog α → Prop
  | .done a => Q a
  | .read _ _ _ k => ∀ r, Yields Q (k r)
  | .program _ _ _ k | .erase _ _ _ k | .wait _ k | .alloc _ k => ∀ ok, Yields Q (k ok)

section Yields

variable {P Q : α → Prop} {R : β → Prop} {p : Prog α} {f : α → Prog β}

theorem Yields.bind (hp : Yields P p) (hf : ∀ a, P a → Yields R (f a)) : Yields R (p >>= f) := by
  change Yields R (p.bind f)
  induction p with
  | done a => exact hf a hp
  | read dev addr n k ih => exact fun r => ih r (hp r)
  | program dev addr bs k ih => exact fun ok => ih ok (hp ok)
  | erase dev addr n k ih => exact fun ok => ih ok (hp ok)
  | wait dev k ih => exact fun ok => ih ok (hp ok)
  | alloc n k ih => exact fun ok => ih ok (hp ok)

theorem Yields.mono (hp : Yields P p) (h : ∀ a, P a → Q a) : Yields Q p := by
  induction p with
  | done a => exact h a hp
  | read dev addr n k ih => exact fun r => ih r (hp r)
  | program dev addr bs k ih => exact fun ok => ih ok (hp ok)
  | erase dev addr n k ih => exact fun ok => ih ok (hp ok)
  | wait dev k ih => exact fun ok => ih ok (hp ok)
  | alloc n k ih => exact fun ok => ih ok (hp ok)

theorem yields_any (h : ∀ a, Q a) (p : Prog α) : Yields Q p := by
  induction p with
  | done a => exact h a
  | read dev addr n k ih => exact ih
  | program dev addr bs k ih => exact ih
  | erase dev addr n k ih => exact ih
  | wait dev k ih => exact ih
  | alloc n k ih => exact ih

theorem Yields.ret (hp : Yields Q p) (c : Cells) : Q (ret p c) := by
  induction p generalizing c with
  | done a => exact hp
  | read dev addr n k ih => exact ih _ (hp _) _
  | program dev addr bs k ih => exact ih _ (hp _) _
  | erase dev addr n k ih => exact ih _ (hp _) _
  | wait dev k ih => exact ih _ (hp _) _
  | alloc n k ih => exact ih _ (hp _) _

end Yields

/-! ## What a program reads -/

/-- The areas the program reads, in order: device, address, size. -/
def reads : Prog α → Cells → List (Nat × Nat × Nat)
  | .done _, _ => []
  | .read dev addr n k, c => (dev, addr, n) :: reads (k (some (readCells c dev addr n))) c
  | .program dev addr bs k, c => reads (k true) (programCells c dev addr bs)
  | .erase dev addr n k, c => reads (k true) (eraseCells c dev addr n)
  | .wait _ k, c => reads (k true) c
  | .alloc _ k, c => reads (k true) c

/-- The program reads the cell `a` of device `d`. -/
def Sees (p : Prog α) (c : Cells) (d a : Nat) : Prop :=
  ∃ r ∈ reads p c, d = r.1 ∧ r.2.1 ≤ a ∧ a < r.2.1 + r.2.2

@[simp] theorem reads_pure (a : α) (c : Cells) : reads (pure a : Prog α) c = [] := rfl

@[simp] theorem reads_bind (p : Prog α) (f : α → Prog β) (c : Cells) :
    reads (p >>= f) c = reads p c ++ reads (f (ret p c)) (post p c) := by
  change reads (p.bind f) c = _
  induction p generalizing c with
  | done a => rfl
  | read dev addr n k ih => exact congrArg _ (ih _ c)
  | program dev addr bs k ih => exact ih true _
  | erase dev addr n k ih => exact ih true _
  | wait dev k ih => exact ih true c
  | alloc n k ih => exact ih true c

/-- A program that only looks answers the same on cells that agree where it looks. -/
theorem ret_congr {p : Prog α} {c c' : Cells} (hp : Silent p c)
    (h : ∀ d a, Sees p c d a → c' d a = c d a) : ret p c' = ret p c ∧ reads p c' = reads p c := by
  induction p with
  | done a => exact ⟨rfl, rfl⟩
  | read dev addr n k ih =>
    have hcells : readCells c' dev addr n = readCells c dev addr n :=
      readCells_congr fun i hi => h dev (addr + i)
        ⟨_, List.mem_cons_self .., rfl, by simp, by simpa using hi⟩
    have hrest : ∀ d a, Sees (k (some (readCells c dev addr n))) c d a → c' d a = c d a :=
      fun d a ⟨r, hr, hin⟩ => h d a ⟨r, List.mem_cons_of_mem _ hr, hin⟩
    obtain ⟨h1, h2⟩ := ih _ hp hrest
    simp only [ret, reads, hcells]
    exact ⟨h1, congrArg _ h2⟩
  | program dev addr bs k _ => cases hp
  | erase dev addr n k _ => cases hp
  | wait dev k ih => exact ih true hp h
  | alloc n k ih => exact ih true hp h

/-! ## Where a program writes -/

/-- Every command of the program stays inside the region `R`. -/
structure Within (R : Nat → Nat → Prop) (p : Prog α) : Prop where
  confined : ∀ c, Confined R (trace p c)

section Within

variable {R : Nat → Nat → Prop} {p : Prog α} {f : α → Prog β}

theorem Quiet.within (h : Quiet p) : Within R p where
  confined c := by
    rw [h.trace]
    exact confined_nil R

theorem Within.bind (hp : Within R p) (hf : ∀ a, Within R (f a)) : Within R (p >>= f) where
  confined c := by
    rw [trace_bind]
    exact confined_append.mpr ⟨hp.confined c, (hf _).confined _⟩

theorem Within.ite {P : Prop} [Decidable P] {q : Prog α} (hp : Within R p) (hq : Within R q) :
    Within R (if P then p else q) := by
  split
  · exact hp
  · exact hq

end Within

/-! ## Power cuts -/

def Cut (g : Grain) (p : Prog α) (c c' : Cells) : Prop := CutOf g (trace p c) c c'

theorem Cut.finish (g : Grain) (p : Prog α) (c : Cells) : Cut g p c (post p c) := CutOf.finish _ c

theorem cut_bind {g : Grain} {p : Prog α} {f : α → Prog β} {c c' : Cells} :
    Cut g (p >>= f) c c' ↔ Cut g p c c' ∨ Cut g (f (ret p c)) (post p c) c' := by
  rw [Cut, trace_bind, cutOf_append]; rfl

theorem Within.cut {R : Nat → Nat → Prop} {g : Grain} {p : Prog α} {c c' : Cells}
    (hp : Within R p) (hc : Cut g p c c') {d a : Nat} (ha : ¬R d a) : c' d a = c d a :=
  CutOf.frame hc (hp.confined c) ha

theorem Quiet.cut {g : Grain} {p : Prog α} {c c' : Cells} (h : Quiet p) :
    Cut g p c c' → c' = c := by
  rw [Cut, h.trace]
  exact id

end Nor

import XR806.Trans.Along
import Mathlib.Data.List.Basic
import Mathlib.Logic.Function.Basic

/-!
# XR806.Pthread.Task

The thread records of the pthread layer and the list that they are in. `pthread_create` starts the
thread first and puts its record into the list afterwards, behind the lock that the first call has
to make; `pthread_self` and `pthread_exit` look for the record by the handle of the thread, and
`pthread_join` by its address, which a later record can have again.

While no record is looked for before it is in the list, none is put where the record of a thread was
that is still to be joined, and no two calls make the lock, every record is found, and freed once
(`tasks_kept`).
-/

namespace XR806
namespace Pthread
namespace Task

open Trans (Along along_foldl)

/-! ## Threads and records -/

/-- Where the `pthread_create` of a thread is. -/
inductive Creator
  /-- Behind the allocation of the record, whose address is the result. -/
  | allocated
  /-- Behind `OS_ThreadCreate`. -/
  | started
  /-- Behind a look at the lock that found none. -/
  | creating
  | ready
  /-- The record is in the list. -/
  | added
  /-- There was no thread. -/
  | failed
  deriving DecidableEq

inductive Life
  | unstarted
  | running
  /-- The function of the thread has returned. -/
  | returned
  /-- Behind `pthread_exit`, up to `OS_ThreadDelete`. -/
  | finished
  | gone
  deriving DecidableEq

/-- Where the `pthread_join` of a thread is; `late` says that the thread had finished when it was
called. -/
inductive Join
  | none
  | waiting (timeout : Int) (late : Bool)
  /-- In `OS_MSleep`. -/
  | sleeping (exit : Bool) (timeout : Int) (late : Bool)
  | done
  deriving DecidableEq

structure Thread where
  addr : Nat
  handle : Nat
  creator : Creator
  life : Life
  join : Join

/-- What is in an `xr_pthread_t`: the handle, and the number of the thread. -/
structure Record where
  owner : Nat
  handle : Nat

namespace Life

/-- The function of the thread has returned. -/
def Returned (l : Life) : Prop := l = returned ∨ l = finished ∨ l = gone

instance : DecidablePred Returned := fun _ => instDecidableOr

def Over (l : Life) : Prop := l = finished ∨ l = gone

instance : DecidablePred Over := fun _ => instDecidableOr

theorem not_over_unstarted : ¬unstarted.Over := by decide

theorem not_over_running : ¬running.Over := by decide

theorem not_over_returned : ¬returned.Over := by decide

end Life

/-- There is a join to come that has to find the thread finished. -/
def Join.Pending : Join → Prop
  | none => True
  | waiting _ late | sleeping _ _ late => late = true
  | done => False

instance : DecidablePred Join.Pending := fun j => by
  unfold Join.Pending
  split <;> infer_instance

def Join.Waits : Join → Prop
  | waiting .. => True
  | _ => False

instance : DecidablePred Join.Waits := fun j => by
  unfold Join.Waits
  split <;> infer_instance

/-- The kernel knows the thread. -/
def Thread.Alive (th : Thread) : Prop := th.life ≠ .unstarted ∧ th.life ≠ .gone

instance : DecidablePred Thread.Alive := fun _ => instDecidableAnd

/-- The list, its lock, the memory and the threads, of which there are `count`. Behind `lock`: how
often the record of each thread was freed; whether the list was accessed without its one lock;
whether a `pthread_self` has returned something else than the thread's own record; and whether a
`pthread_join` has returned 0 before the function had returned, or -1 for a thread that had
finished. -/
structure State where
  threads : Nat → Thread
  count : Nat
  mem : Nat → Option Record
  tasks : List Nat
  lock : Bool
  frees : Nat → Nat
  unprotected : Bool
  selfWrong : Bool
  early : Bool
  refused : Bool

namespace State

def initial : State where
  threads := fun _ => ⟨0, 0, .failed, .unstarted, .done⟩
  count := 0
  mem := fun _ => none
  tasks := []
  lock := false
  frees := fun _ => 0
  unprotected := false
  selfWrong := false
  early := false
  refused := false

/-! ## `pthread_create` -/

def put (s : State) (k : Nat) (th : Thread) : State :=
  { s with threads := Function.update s.threads k th }

/-- The list is accessed, under its lock when there is one. -/
def access (s : State) : State := { s with unprotected := s.unprotected || !s.lock }

/-- A call allocates its record, at `a`. -/
def malloc (s : State) (a : Nat) : State :=
  if (s.mem a).isNone then
    { s.put s.count ⟨a, 0, .allocated, .unstarted, .none⟩ with
      count := s.count + 1
      mem := Function.update s.mem a (some ⟨s.count, 0⟩) }
  else s

/-- `OS_ThreadCreate` starts the thread, with a handle that no thread of the kernel has. -/
def threadCreate (s : State) (k handle : Nat) : State :=
  let th := s.threads k
  if th.creator = .allocated ∧ ∀ j < s.count, (s.threads j).Alive → (s.threads j).handle ≠ handle
  then
    { s.put k { th with handle, creator := .started, life := .running } with
      mem := Function.update s.mem th.addr (some ⟨k, handle⟩) }
  else s

/-- `OS_ThreadCreate` fails, and the record is freed. -/
def threadCreateFails (s : State) (k : Nat) : State :=
  let th := s.threads k
  if th.creator = .allocated then
    { s.put k { th with creator := .failed } with mem := Function.update s.mem th.addr none }
  else s

/-- `OS_MutexIsValid`, in `pthread_create` and in `OS_MutexCreate`. -/
def mutexIsValid (s : State) (k : Nat) : State :=
  let th := s.threads k
  if th.creator = .started then
    s.put k { th with creator := if s.lock then .ready else .creating }
  else s

/-- The rest of `OS_MutexCreate`. A second lock takes the place of the first. -/
def mutexCreate (s : State) (k : Nat) : State :=
  let th := s.threads k
  if th.creator = .creating then
    { s.put k { th with creator := .ready } with
      lock := true
      unprotected := s.unprotected || s.lock }
  else s

/-- `list_add`. -/
def listAdd (s : State) (k : Nat) : State :=
  let th := s.threads k
  if th.creator = .ready then
    { s.access.put k { th with creator := .added } with tasks := th.addr :: s.tasks }
  else s

/-! ## The thread -/

/-- The first record in the list with the handle. -/
def find (s : State) (handle : Nat) : Option Nat :=
  s.tasks.find? fun a => (s.mem a).any fun r => r.handle == handle

/-- `pthread_self`. -/
def self (s : State) (k : Nat) : State :=
  let th := s.threads k
  if th.life = .running then
    { s.access with selfWrong := s.selfWrong || s.find th.handle ≠ some th.addr }
  else s

def ret (s : State) (k : Nat) : State :=
  let th := s.threads k
  if th.life = .running then s.put k { th with life := .returned } else s

/-- `list_del` and `free`. -/
def remove (s : State) (a : Nat) : State :=
  { s with
    tasks := s.tasks.erase a
    mem := Function.update s.mem a none
    frees := fun k => s.frees k + if (s.mem a).any (·.owner == k) then 1 else 0 }

/-- `pthread_exit`, up to `OS_ThreadDelete`. -/
def exit (s : State) (k : Nat) : State :=
  let th := s.threads k
  if th.life = .returned then
    match s.find th.handle with
    | some a => (s.access.remove a).put k { th with life := .finished }
    | none => s.access.put k { th with life := .finished }
  else s

/-- The kernel deletes the thread. -/
def threadDelete (s : State) (k : Nat) : State :=
  let th := s.threads k
  if th.life = .finished then s.put k { th with life := .gone } else s

/-! ## `pthread_join` -/

def join (s : State) (k : Nat) : State :=
  let th := s.threads k
  if th.join = .none ∧ th.creator ≠ .failed then
    s.put k { th with join := .waiting 20000 (th.life.Over) }
  else s

/-- A pass looks for the record. -/
def joinLook (s : State) (k : Nat) : State :=
  let th := s.threads k
  match th.join with
  | .waiting timeout late =>
    s.access.put k { th with join := .sleeping (th.addr ∉ s.tasks) timeout late }
  | _ => s

/-- The end of a pass. -/
def joinWake (s : State) (k : Nat) : State :=
  let th := s.threads k
  match th.join with
  | .sleeping exit timeout late =>
    if timeout - 10 ≤ 0 then { s.put k { th with join := .done } with refused := s.refused || late }
    else if exit then
      { s.put k { th with join := .done } with early := s.early || ¬th.life.Returned }
    else s.put k { th with join := .waiting (timeout - 10) late }
  | _ => s

end State

inductive Label
  | malloc (a : Nat)
  | threadCreate (k handle : Nat)
  | threadCreateFails (k : Nat)
  | mutexIsValid (k : Nat)
  | mutexCreate (k : Nat)
  | listAdd (k : Nat)
  | self (k : Nat)
  | ret (k : Nat)
  | exit (k : Nat)
  | threadDelete (k : Nat)
  | join (k : Nat)
  | joinLook (k : Nat)
  | joinWake (k : Nat)

def State.step (s : State) : Label → State
  | .malloc a => s.malloc a
  | .threadCreate k handle => s.threadCreate k handle
  | .threadCreateFails k => s.threadCreateFails k
  | .mutexIsValid k => s.mutexIsValid k
  | .mutexCreate k => s.mutexCreate k
  | .listAdd k => s.listAdd k
  | .self k => s.self k
  | .ret k => s.ret k
  | .exit k => s.exit k
  | .threadDelete k => s.threadDelete k
  | .join k => s.join k
  | .joinLook k => s.joinLook k
  | .joinWake k => s.joinWake k

/-- A record is looked for behind `list_add` only; none is put where the record of a finished thread
was that is to be joined; and no two calls make the lock. -/
def State.InOrder (s : State) : Label → Prop
  | .malloc a =>
    ∀ k < s.count, (s.threads k).life.Over → (s.threads k).join.Pending → (s.threads k).addr ≠ a
  | .mutexIsValid _ => s.lock = false → ∀ k < s.count, (s.threads k).creator ≠ .creating
  | .self k => (s.threads k).life = .running → (s.threads k).creator = .added
  | .exit k => (s.threads k).life = .returned → (s.threads k).creator = .added
  | .joinLook k => (s.threads k).join.Waits → (s.threads k).creator = .added
  | _ => True

/-- Nothing went wrong up to here: each finished thread has freed its record once, and no other has;
and the list holds no record of a finished thread. -/
structure State.Kept (s : State) : Prop where
  locked : s.unprotected = false
  self : s.selfWrong = false
  freed : ∀ k < s.count, s.frees k = if (s.threads k).life.Over then 1 else 0
  tasks : ∀ a ∈ s.tasks, ∃ r, s.mem a = some r ∧ ¬(s.threads r.owner).life.Over
  early : s.early = false
  refused : s.refused = false

/-! ## The invariant -/

namespace Thread

/-- Its record is allocated. -/
def HasRecord (th : Thread) : Prop := th.creator ≠ .failed ∧ ¬th.life.Over

/-- Its record is in the list. -/
def Listed (th : Thread) : Prop := th.creator = .added ∧ ¬th.life.Over

theorem Listed.hasRecord {th : Thread} (h : th.Listed) : th.HasRecord :=
  ⟨by rw [h.1]; decide, h.2⟩

/-- The kernel knows both by one handle. -/
def SameHandle (t u : Thread) : Prop := t.Alive ∧ u.Alive ∧ t.handle = u.handle

theorem SameHandle.symm {t u : Thread} (h : SameHandle t u) : SameHandle u t :=
  ⟨h.2.1, h.1, h.2.2.symm⟩

def BothCreating (t u : Thread) : Prop := t.creator = .creating ∧ u.creator = .creating

/-- What holds of a thread, with what is at the address of its record. -/
structure Ok (th : Thread) (k : Nat) (s : State) : Prop where
  unstarted : th.life = .unstarted ↔ th.creator = .allocated ∨ th.creator = .failed
  hasRecord : th.HasRecord → s.mem th.addr = some ⟨k, th.handle⟩
  listed : th.Listed → th.addr ∈ s.tasks
  ended : th.life.Over → th.creator = .added
  pending : th.life.Over → th.join.Pending → s.mem th.addr = none
  frees : s.frees k = if th.life.Over then 1 else 0
  locked : th.creator = .ready ∨ th.creator = .added → s.lock = true
  creating : th.creator = .creating → s.lock = false
  late : th.join.Pending → th.join = .none ∨ th.life.Over ∧
    (th.join = .waiting 20000 true ∨ th.join = .sleeping true 20000 true)
  asleep : ∀ t l, th.join = .sleeping true t l → th.life.Returned

/-- Before its `OS_ThreadCreate`. -/
theorem Ok.not_over {th : Thread} {k : Nat} {s : State} (h : th.Ok k s)
    (hc : th.creator = .allocated) : ¬th.life.Over := by
  rw [h.unstarted.mpr (.inl hc)]
  exact Life.not_over_unstarted

/-- What holds of a thread is about its record only. -/
theorem Ok.of {th : Thread} {k : Nat} {s s' : State} (h : th.Ok k s)
    (hrec : th.HasRecord → s'.mem th.addr = s.mem th.addr)
    (hpending : th.life.Over → th.join.Pending → s'.mem th.addr = s.mem th.addr)
    (htasks : th.Listed → th.addr ∈ s.tasks → th.addr ∈ s'.tasks) (hfrees : s'.frees k = s.frees k)
    (hlock : s.lock = true → s'.lock = true)
    (hcreating : th.creator = .creating → s'.lock = false) : th.Ok k s' where
  unstarted := h.unstarted
  hasRecord := fun hr => (hrec hr).trans (h.hasRecord hr)
  listed := fun hl => htasks hl (h.listed hl)
  ended := h.ended
  pending := fun ho hp => (hpending ho hp).trans (h.pending ho hp)
  frees := hfrees.trans h.frees
  locked := fun hc => hlock (h.locked hc)
  creating := hcreating
  late := h.late
  asleep := h.asleep

end Thread

namespace State

structure Inv (s : State) : Prop where
  ok : ∀ k < s.count, (s.threads k).Ok k s
  rest : ∀ k, s.count ≤ k → s.threads k = ⟨0, 0, .failed, .unstarted, .done⟩
  unborn : ∀ k, s.count ≤ k → s.frees k = 0
  mem : ∀ a r, s.mem a = some r →
    r.owner < s.count ∧ (s.threads r.owner).addr = a ∧ (s.threads r.owner).HasRecord
  tasks : ∀ a ∈ s.tasks, ∃ k < s.count, (s.threads k).addr = a ∧ (s.threads k).Listed
  nodup : s.tasks.Nodup
  handles : ∀ j < s.count, ∀ k < s.count, (s.threads j).Alive → (s.threads k).Alive →
    (s.threads j).handle = (s.threads k).handle → j = k
  creating : ∀ j < s.count, ∀ k < s.count, (s.threads j).creator = .creating →
    (s.threads k).creator = .creating → j = k
  locked : s.unprotected = false
  self : s.selfWrong = false
  early : s.early = false
  refused : s.refused = false

theorem inv_initial : initial.Inv where
  ok := fun k h => absurd h (Nat.not_lt_zero k)
  rest := fun _ _ => rfl
  unborn := fun _ _ => rfl
  mem := fun _ r h => absurd h.symm (Option.some_ne_none r)
  tasks := fun _ h => absurd h List.not_mem_nil
  nodup := List.nodup_nil
  handles := fun j h => absurd h (Nat.not_lt_zero j)
  creating := fun j h => absurd h (Nat.not_lt_zero j)
  locked := rfl
  self := rfl
  early := rfl
  refused := rfl

section
variable {s : State} {k : Nat}

theorem Inv.kept (h : s.Inv) : s.Kept where
  locked := h.locked
  self := h.self
  freed := fun k hk => (h.ok k hk).frees
  tasks := fun a ha => by
    obtain ⟨k, hk, haddr, hlisted⟩ := h.tasks a ha
    have hrec := (h.ok k hk).hasRecord hlisted.hasRecord
    rw [haddr] at hrec
    exact ⟨_, hrec, hlisted.2⟩
  early := h.early
  refused := h.refused

theorem Inv.lt (h : s.Inv) (hk : (s.threads k).creator ≠ .failed ∨ (s.threads k).join ≠ .done) :
    k < s.count := by
  by_contra hle
  rw [h.rest k (Nat.le_of_not_lt hle)] at hk
  exact hk.elim (fun h => h rfl) fun h => h rfl

theorem Inv.lt_of_started (h : s.Inv) (hl : (s.threads k).life ≠ .unstarted) : k < s.count := by
  by_contra hle
  rw [h.rest k (Nat.le_of_not_lt hle)] at hl
  exact hl rfl

theorem put_same (s : State) (k : Nat) (th : Thread) : (s.put k th).threads k = th :=
  Function.update_self ..

theorem put_other {j : Nat} (h : j ≠ k) (th : Thread) : (s.put k th).threads j = s.threads j :=
  Function.update_of_ne h _ _

/-- No two threads are related behind a step of one that is then related to none. -/
theorem put_pairs {n : Nat} {th : Thread} {R : Thread → Thread → Prop}
    (hsymm : ∀ {t u}, R t u → R u t) (hnew : ∀ j < n, j ≠ k → ¬R th (s.threads j))
    (hold : ∀ i < n, i ≠ k → ∀ j < n, j ≠ k → R (s.threads i) (s.threads j) → i = j) :
    ∀ i < n, ∀ j < n, R ((s.put k th).threads i) ((s.put k th).threads j) → i = j := by
  intro i hi j hj hr
  by_cases hik : i = k
  · by_cases hjk : j = k
    · exact hik.trans hjk.symm
    · rw [hik, put_same, put_other hjk] at hr
      exact absurd hr (hnew j hj hjk)
  · by_cases hjk : j = k
    · rw [hjk, put_same, put_other hik] at hr
      exact absurd (hsymm hr) (hnew i hi hik)
    · rw [put_other hik, put_other hjk] at hr
      exact hold i hi hik j hj hjk hr

/-- What a thread keeps when one moves on that keeps it. -/
theorem put_rel {P : Thread → Thread → Prop} {th : Thread} (hrefl : ∀ t, P t t)
    (hth : P (s.threads k) th) (j : Nat) : P (s.threads j) ((s.put k th).threads j) := by
  by_cases hjk : j = k
  · rw [hjk, put_same]
    exact hth
  · rw [put_other hjk]
    exact hrefl _

/-- One thread moves on, and keeps its record. -/
theorem Inv.put (h : s.Inv) {th : Thread} {lock unprotected selfWrong early refused : Bool}
    (haddr : th.addr = (s.threads k).addr) (hhandle : th.handle = (s.threads k).handle)
    (hrec : (s.threads k).HasRecord → th.HasRecord)
    (hlisted : (s.threads k).Listed → th.Listed)
    (halive : th.Alive → (s.threads k).Alive)
    (hcreating : th.creator = .creating → ∀ j < s.count, (s.threads j).creator = .creating → j = k)
    (hlock : s.lock = true → lock = true)
    (hmade : lock = true → s.lock = true ∨
      ∀ j < s.count, (s.threads j).creator = .creating → j = k)
    (hok : k < s.count → th.Ok k { s.put k th with lock, unprotected, selfWrong, early, refused })
    (hrest : k < s.count) (hun : unprotected = false) (hself : selfWrong = false)
    (hearly : early = false) (hrefused : refused = false) :
    Inv { s.put k th with lock, unprotected, selfWrong, early, refused } := by
  have haddrs := put_rel (P := fun t t' => t'.addr = t.addr) (fun _ => rfl) haddr
  have hhandles := put_rel (P := fun t t' => t'.handle = t.handle) (fun _ => rfl) hhandle
  have hrecs := put_rel (P := fun t t' => t.HasRecord → t'.HasRecord) (fun _ => id) hrec
  have hlisteds := put_rel (P := fun t t' => t.Listed → t'.Listed) (fun _ => id) hlisted
  have halives := put_rel (P := fun t t' => t'.Alive → t.Alive) (fun _ => id) halive
  refine ⟨fun j hj => ?_, fun j hj => ?_, h.unborn, fun a r hr => ?_, fun a ha => ?_, h.nodup,
    fun i hi j hj => ?_, fun i hi j hj => ?_, hun, hself, hearly, hrefused⟩
  · dsimp only at hj ⊢
    by_cases hjk : j = k
    · rw [hjk, put_same]
      exact hok hrest
    · rw [put_other hjk]
      refine (h.ok j hj).of (fun _ => rfl) (fun _ _ => rfl) (fun _ => id) rfl hlock fun hc => ?_
      have hfree := (h.ok j hj).creating hc
      refine Bool.eq_false_iff.mpr fun hl => ?_
      rcases hmade hl with ht | hall
      · exact absurd (hfree.symm.trans ht) Bool.false_ne_true
      · exact hjk (hall j hj hc)
  · exact (put_other (fun hjk => absurd (hjk ▸ hj) (Nat.not_le_of_lt hrest)) th).trans (h.rest j hj)
  · obtain ⟨howner, ha, hr⟩ := h.mem a r hr
    exact ⟨howner, (haddrs _).trans ha, hrecs _ hr⟩
  · obtain ⟨j, hj, haddr, hl⟩ := h.tasks a ha
    exact ⟨j, hj, (haddrs j).trans haddr, hlisteds j hl⟩
  · intro hai haj heq
    exact h.handles i hi j hj (halives i hai) (halives j haj)
      ((hhandles i).symm.trans (heq.trans (hhandles j)))
  · exact fun hci hcj => put_pairs (R := Thread.BothCreating) And.symm
      (fun j hj hjk hr => hjk (hcreating hr.1 j hj hr.2))
      (fun i hi _ j hj _ hr => h.creating i hi j hj hr.1 hr.2) i hi j hj ⟨hci, hcj⟩

/-! ## The lock -/

/-- A call of `pthread_create` goes on behind `OS_ThreadCreate` and before `list_add`. -/
theorem Inv.putCreator (h : s.Inv) {creator : Creator} {lock unprotected : Bool}
    (hold : (s.threads k).creator = .started ∨ (s.threads k).creator = .creating)
    (hnew : creator = .creating ∧ lock = false ∨ creator = .ready ∧ lock = true)
    (hlock : s.lock = true → lock = true)
    (hsole : ∀ j < s.count, (s.threads j).creator = .creating → j = k)
    (hun : unprotected = false) :
    Inv { s.put k { s.threads k with creator } with lock, unprotected } := by
  have hk : k < s.count := h.lt (.inl (by rcases hold with h | h <;> rw [h] <;> decide))
  have hok := h.ok k hk
  have hover : ¬(s.threads k).life.Over := fun ho => by
    have hadded := hok.ended ho
    rcases hold with h | h <;> exact Creator.noConfusion (h.symm.trans hadded)
  have hstarted : (s.threads k).life ≠ .unstarted := fun hu => by
    rcases hok.unstarted.mp hu with ha | ha <;> rcases hold with h | h <;>
      exact Creator.noConfusion (h.symm.trans ha)
  have hne : creator ≠ .failed ∧ creator ≠ .allocated ∧ creator ≠ .added := by
    rcases hnew with ⟨h, -⟩ | ⟨h, -⟩ <;> rw [h] <;> decide
  have hrecord : (s.threads k).HasRecord :=
    ⟨by rcases hold with h | h <;> rw [h] <;> decide, hover⟩
  have hready : creator = .ready → lock = true := fun hc => by
    rcases hnew with ⟨h, -⟩ | ⟨-, h⟩
    · exact Creator.noConfusion (hc.symm.trans h)
    · exact h
  have hcreating : creator = .creating → lock = false := fun hc => by
    rcases hnew with ⟨-, h⟩ | ⟨h, -⟩
    · exact h
    · exact Creator.noConfusion (hc.symm.trans h)
  refine h.put rfl rfl (fun hr => ⟨hne.1, hr.2⟩) (fun hl => ?_) id (fun _ => hsole) hlock
    (fun _ => .inr hsole) (fun _ => ?_) hk hun h.self h.early h.refused
  · rcases hold with h | h <;> exact Creator.noConfusion (h.symm.trans hl.1)
  · exact ⟨⟨fun hu => absurd hu hstarted, fun hc => hc.elim (absurd · hne.2.1) (absurd · hne.1)⟩,
      fun _ => hok.hasRecord hrecord, fun hl => absurd hl.1 hne.2.2, fun ho => absurd ho hover,
      fun ho => absurd ho hover, hok.frees, fun hc => hc.elim hready (absurd · hne.2.2),
      hcreating, hok.late, hok.asleep⟩

theorem Inv.mutexIsValid (h : s.Inv)
    (hin : s.lock = false → ∀ j < s.count, (s.threads j).creator ≠ .creating) :
    (s.mutexIsValid k).Inv := by
  rw [State.mutexIsValid]
  split
  · rename_i hc
    cases hl : s.lock with
    | true =>
      refine h.putCreator (.inl hc) (.inr ⟨rfl, hl⟩) id (fun j hj hcj => ?_) h.locked
      exact absurd (((h.ok j hj).creating hcj).symm.trans hl) Bool.false_ne_true
    | false =>
      exact h.putCreator (.inl hc) (.inl ⟨rfl, hl⟩) id (fun j hj hcj => absurd hcj (hin hl j hj))
        h.locked
  · exact h

theorem Inv.mutexCreate (h : s.Inv) : (s.mutexCreate k).Inv := by
  rw [State.mutexCreate]
  split
  · rename_i hc
    have hk : k < s.count := h.lt (.inl (by rw [hc]; decide))
    refine h.putCreator (.inr hc) (.inr ⟨rfl, rfl⟩) (fun _ => rfl)
      (fun j hj hcj => h.creating j hj k hk hcj hc) ?_
    rw [h.locked, (h.ok k hk).creating hc]
    rfl
  · exact h

/-! ## The thread and its join -/

/-- A thread goes on without its record, or its join does. -/
theorem Inv.putLife (h : s.Inv) (hk : k < s.count) {life : Life} {join : Join}
    {unprotected early refused : Bool}
    (hover : life.Over ↔ (s.threads k).life.Over)
    (hunstarted : life = .unstarted ↔ (s.threads k).life = .unstarted)
    (hgone : life ≠ .gone → (s.threads k).life ≠ .gone)
    (hpending : join.Pending → (s.threads k).join.Pending)
    (hlate : join.Pending → join = .none ∨ life.Over ∧
      (join = .waiting 20000 true ∨ join = .sleeping true 20000 true))
    (hasleep : ∀ t l, join = .sleeping true t l → life.Returned)
    (hun : unprotected = false) (hearly : early = false) (hrefused : refused = false) :
    Inv { s.put k { s.threads k with life, join } with unprotected, early, refused } := by
  have hok := h.ok k hk
  refine h.put rfl rfl (fun hr => ⟨hr.1, mt hover.mp hr.2⟩) (fun hl => ⟨hl.1, mt hover.mp hl.2⟩)
    (fun ha => ⟨mt hunstarted.mpr ha.1, hgone ha.2⟩)
    (fun hc j hj hcj => h.creating j hj k hk hcj hc) id (fun hl => .inl hl) (fun _ => ?_) hk hun
    h.self hearly hrefused
  exact ⟨hunstarted.trans hok.unstarted, fun hr => hok.hasRecord ⟨hr.1, mt hover.mpr hr.2⟩,
    fun hl => hok.listed ⟨hl.1, mt hover.mpr hl.2⟩, fun ho => hok.ended (hover.mp ho),
    fun ho hp => hok.pending (hover.mp ho) (hpending hp),
    hok.frees.trans (if_congr hover.symm rfl rfl), hok.locked, hok.creating, hlate, hasleep⟩

theorem Inv.access (h : s.Inv) (hl : s.lock = true) : s.access.unprotected = false := by
  rw [State.access, h.locked, hl]
  rfl

theorem Inv.ret (h : s.Inv) : (s.ret k).Inv := by
  rw [State.ret]
  split
  · rename_i hl
    have hk : k < s.count := h.lt_of_started (by rw [hl]; exact Life.noConfusion)
    have hok := h.ok k hk
    refine h.putLife hk ?_ ?_ (fun _ => ?_) id (fun hp => ?_) (fun t l _ => .inl rfl) h.locked
      h.early h.refused
    · rw [hl]
      decide
    · rw [hl]
      decide
    · rw [hl]
      decide
    · rcases hok.late hp with hn | ⟨ho, -⟩
      · exact .inl hn
      · rw [hl] at ho
        exact absurd ho (by decide)
  · exact h

theorem Inv.threadDelete (h : s.Inv) : (s.threadDelete k).Inv := by
  rw [State.threadDelete]
  split
  · rename_i hl
    have hk : k < s.count := h.lt_of_started (by rw [hl]; exact Life.noConfusion)
    have hok := h.ok k hk
    refine h.putLife hk ?_ ?_ (fun hg => absurd rfl hg) id (fun hp => ?_)
      (fun t l _ => .inr (.inr rfl)) h.locked h.early h.refused
    · rw [hl]
      decide
    · rw [hl]
      decide
    · exact (hok.late hp).imp id fun hj => ⟨.inr rfl, hj.2⟩
  · exact h

theorem Inv.join (h : s.Inv) : (s.join k).Inv := by
  rw [State.join]
  split
  · rename_i hj
    have hk : k < s.count := h.lt (.inl hj.2)
    refine h.putLife hk Iff.rfl Iff.rfl id (fun _ => ?_) (fun hp => ?_)
      (fun t l he => Join.noConfusion he) h.locked h.early h.refused
    · rw [hj.1]
      trivial
    · exact .inr ⟨of_decide_eq_true hp, .inl (congrArg _ hp)⟩
  · exact h

theorem Inv.joinLook (h : s.Inv) (hin : (s.threads k).join.Waits → (s.threads k).creator = .added) :
    (s.joinLook k).Inv := by
  rw [State.joinLook]
  split
  · rename_i timeout late hj
    rw [hj] at hin
    have hadded := hin trivial
    have hk : k < s.count := h.lt (.inl (by rw [hadded]; decide))
    have hok := h.ok k hk
    have hlate := hok.late
    rw [hj] at hlate
    refine h.putLife hk Iff.rfl Iff.rfl id (fun hp => by rw [hj]; exact hp) (fun hp => ?_)
      (fun t l he => ?_) (h.access (hok.locked (.inr hadded))) h.early h.refused
    · obtain ⟨ho, hw⟩ := (hlate hp).resolve_left Join.noConfusion
      have hnone := hok.pending ho (by rw [hj]; exact hp)
      have hout : (s.threads k).addr ∉ s.tasks := fun hmem => by
        obtain ⟨j, hjc, haddr, hl⟩ := h.tasks _ hmem
        have hsome := (h.ok j hjc).hasRecord hl.hasRecord
        rw [haddr, hnone] at hsome
        exact absurd hsome.symm (Option.some_ne_none _)
      rcases hw with hw | hw
      · cases hw
        exact .inr ⟨ho, .inr (by rw [decide_eq_true hout])⟩
      · exact Join.noConfusion hw
    · have hout : (s.threads k).addr ∉ s.tasks := of_decide_eq_true (Join.sleeping.inj he).1
      refine .inr ?_
      by_contra ho
      exact hout (hok.listed ⟨hadded, ho⟩)
  · exact h

theorem Inv.joinWake (h : s.Inv) : (s.joinWake k).Inv := by
  rw [State.joinWake]
  split
  · rename_i exit timeout late hj
    have hk : k < s.count := h.lt (.inr (by rw [hj]; exact Join.noConfusion))
    have hok := h.ok k hk
    have hlate : late = true → exit = true ∧ timeout = 20000 := by
      intro hl
      have hp : (s.threads k).join.Pending := by
        rw [hj]
        exact hl
      rcases hok.late hp with hn | ⟨-, hn | hn⟩
      · exact Join.noConfusion (hj.symm.trans hn)
      · exact Join.noConfusion (hj.symm.trans hn)
      · have hinj := Join.sleeping.inj (hj.symm.trans hn)
        exact ⟨hinj.1, hinj.2.1⟩
    split
    · rename_i hover
      have hl : late = false := by
        refine Bool.eq_false_iff.mpr fun hl => ?_
        have := (hlate hl).2
        omega
      refine h.putLife hk Iff.rfl Iff.rfl id False.elim False.elim
        (fun t l he => Join.noConfusion he) h.locked h.early ?_
      rw [h.refused, hl]
      rfl
    · split
      · rename_i hexit
        refine h.putLife hk Iff.rfl Iff.rfl id False.elim False.elim
          (fun t l he => Join.noConfusion he) h.locked ?_ h.refused
        have hr := hok.asleep timeout late (by rw [hj, hexit])
        rw [h.early, decide_eq_false (not_not_intro hr)]
        rfl
      · rename_i hexit
        refine h.putLife hk Iff.rfl Iff.rfl id (fun hp => by rw [hj]; exact hp)
          (fun hp => absurd (hlate hp).1 hexit) (fun t l he => Join.noConfusion he) h.locked h.early
          h.refused
  · exact h

/-! ## Records -/

theorem Inv.addr_inj (h : s.Inv) {j : Nat} (hj : j < s.count) (hk : k < s.count)
    (hrj : (s.threads j).HasRecord) (hrk : (s.threads k).HasRecord)
    (heq : (s.threads j).addr = (s.threads k).addr) : j = k := by
  have hcell := ((h.ok j hj).hasRecord hrj).symm.trans
    ((congrArg s.mem heq).trans ((h.ok k hk).hasRecord hrk))
  exact congrArg Record.owner (Option.some_inj.mp hcell)

/-- One thread moves on, with its record. -/
theorem Inv.putRecord (h : s.Inv) (hk : k < s.count) {th : Thread} {mem : Nat → Option Record}
    {tasks : List Nat} {frees : Nat → Nat} {unprotected : Bool}
    (hheld : (s.threads k).HasRecord) (haddr : th.addr = (s.threads k).addr)
    (hmem : ∀ a, a ≠ (s.threads k).addr → mem a = s.mem a)
    (hcell : ∀ r, mem (s.threads k).addr = some r → r.owner = k ∧ th.HasRecord)
    (htasks : ∀ a, a ≠ (s.threads k).addr → (a ∈ tasks ↔ a ∈ s.tasks))
    (hin : (s.threads k).addr ∈ tasks → th.Listed) (hnodup : tasks.Nodup)
    (hfrees : ∀ j, j ≠ k → frees j = s.frees j)
    (halive : th.Alive → ∀ j < s.count, j ≠ k → (s.threads j).Alive →
      (s.threads j).handle ≠ th.handle)
    (hcreating : th.creator ≠ .creating)
    (hok : th.Ok k { s.put k th with mem, tasks, frees, unprotected })
    (hun : unprotected = false) :
    Inv { s.put k th with mem, tasks, frees, unprotected } := by
  have hne : ∀ j < s.count, j ≠ k → (s.threads j).HasRecord →
      (s.threads j).addr ≠ (s.threads k).addr :=
    fun j hj hjk hr heq => hjk (h.addr_inj hj hk hr hheld heq)
  have hkcell := (h.ok k hk).hasRecord hheld
  have hlt : ∀ j, s.count ≤ j → j ≠ k :=
    fun j hj hjk => absurd (hjk ▸ hj) (Nat.not_le_of_lt hk)
  refine ⟨fun j hj => ?_, fun j hj => (put_other (hlt j hj) th).trans (h.rest j hj),
    fun j hj => (hfrees j (hlt j hj)).trans (h.unborn j hj), fun a r hr => ?_, fun a ha => ?_,
    hnodup, fun i hi j hj => ?_, fun i hi j hj => ?_, hun, h.self, h.early, h.refused⟩
  · dsimp only at hj ⊢
    by_cases hjk : j = k
    · rw [hjk, put_same]
      exact hok
    · rw [put_other hjk]
      have hj' := h.ok j hj
      refine hj'.of (fun hr => hmem _ (hne j hj hjk hr)) (fun ho hp => hmem _ fun heq => ?_)
        (fun hl ha => (htasks _ (hne j hj hjk hl.hasRecord)).mpr ha) (hfrees j hjk) id hj'.creating
      have hnone := hj'.pending ho hp
      rw [heq, hkcell] at hnone
      exact Option.some_ne_none _ hnone
  · dsimp only at hr ⊢
    by_cases ha : a = (s.threads k).addr
    · rw [ha] at hr ⊢
      obtain ⟨howner, hth⟩ := hcell r hr
      rw [howner, put_same]
      exact ⟨hk, haddr, hth⟩
    · obtain ⟨howner, hra, hrec⟩ := h.mem a r ((hmem a ha).symm.trans hr)
      have hrk : r.owner ≠ k := fun he => ha (hra.symm.trans (by rw [he]))
      rw [put_other hrk]
      exact ⟨howner, hra, hrec⟩
  · dsimp only at ha ⊢
    by_cases hak : a = (s.threads k).addr
    · rw [hak] at ha ⊢
      exact ⟨k, hk, by rw [put_same]; exact haddr, by rw [put_same]; exact hin ha⟩
    · obtain ⟨j, hj, hja, hl⟩ := h.tasks a ((htasks a hak).mp ha)
      have hjk : j ≠ k := fun he => hak (hja.symm.trans (by rw [he]))
      exact ⟨j, hj, by rw [put_other hjk]; exact hja, by rw [put_other hjk]; exact hl⟩
  · exact fun hai haj heq => put_pairs (R := Thread.SameHandle) Thread.SameHandle.symm
      (fun j hj hjk hr => halive hr.1 j hj hjk hr.2.1 hr.2.2.symm)
      (fun i hi _ j hj _ hr => h.handles i hi j hj hr.1 hr.2.1 hr.2.2) i hi j hj ⟨hai, haj, heq⟩
  · exact fun hci hcj => put_pairs (R := Thread.BothCreating) And.symm
      (fun _ _ _ hr => hcreating hr.1)
      (fun i hi _ j hj _ hr => h.creating i hi j hj hr.1 hr.2) i hi j hj ⟨hci, hcj⟩

theorem Inv.not_listed (h : s.Inv) (hk : k < s.count) (hheld : (s.threads k).HasRecord)
    (hc : (s.threads k).creator ≠ .added) : (s.threads k).addr ∉ s.tasks := by
  intro hmem
  obtain ⟨j, hj, haddr, hl⟩ := h.tasks _ hmem
  have hjk := h.addr_inj hj hk hl.hasRecord hheld haddr
  exact hc (hjk ▸ hl.1)

theorem Inv.threadCreate (h : s.Inv) (handle : Nat) : (s.threadCreate k handle).Inv := by
  rw [State.threadCreate]
  split
  · rename_i hc
    obtain ⟨hc, hfree⟩ := hc
    have hk : k < s.count := h.lt (.inl (by rw [hc]; decide))
    have hok := h.ok k hk
    have hover := hok.not_over hc
    have hheld : (s.threads k).HasRecord := ⟨by rw [hc]; decide, hover⟩
    have hout := h.not_listed hk hheld (by rw [hc]; decide)
    refine h.putRecord hk hheld rfl (fun a ha => Function.update_of_ne ha _ _) (fun r hr => ?_)
      (fun _ _ => Iff.rfl) (fun hin => absurd hin hout) h.nodup (fun _ _ => rfl)
      (fun _ j hj _ ha => hfree j hj ha) (fun he => Creator.noConfusion he) ?_ h.locked
    · rw [Function.update_self] at hr
      exact ⟨congrArg Record.owner (Option.some_inj.mp hr).symm, fun he => Creator.noConfusion he,
        Life.not_over_running⟩
    · refine ⟨⟨Life.noConfusion, fun he => he.elim Creator.noConfusion Creator.noConfusion⟩,
        fun _ => Function.update_self .., fun hl => Creator.noConfusion hl.1,
        fun ho => absurd ho Life.not_over_running, fun ho => absurd ho Life.not_over_running, ?_,
        fun hl => hl.elim Creator.noConfusion Creator.noConfusion, Creator.noConfusion,
        fun hp => ?_, fun t l he => ?_⟩
      · exact hok.frees.trans (by rw [if_neg hover, if_neg Life.not_over_running])
      · exact (hok.late hp).imp id fun ho => absurd ho.1 hover
      · have hr := hok.asleep t l he
        rw [hok.unstarted.mpr (.inl hc)] at hr
        exact absurd hr (by decide)
  · exact h

theorem Inv.threadCreateFails (h : s.Inv) : (s.threadCreateFails k).Inv := by
  rw [State.threadCreateFails]
  split
  · rename_i hc
    have hk : k < s.count := h.lt (.inl (by rw [hc]; decide))
    have hok := h.ok k hk
    have hover := hok.not_over hc
    have hheld : (s.threads k).HasRecord := ⟨by rw [hc]; decide, hover⟩
    have hout := h.not_listed hk hheld (by rw [hc]; decide)
    refine h.putRecord hk hheld rfl (fun a ha => Function.update_of_ne ha _ _) (fun r hr => ?_)
      (fun _ _ => Iff.rfl) (fun hin => absurd hin hout) h.nodup (fun _ _ => rfl)
      (fun ha => absurd (hok.unstarted.mpr (.inl hc)) ha.1) (fun he => Creator.noConfusion he) ?_
      h.locked
    · rw [Function.update_self] at hr
      exact absurd hr.symm (Option.some_ne_none r)
    · exact ⟨⟨fun _ => .inr rfl, fun _ => hok.unstarted.mpr (.inl hc)⟩, fun hr => absurd rfl hr.1,
        fun hl => Creator.noConfusion hl.1, fun ho => absurd ho hover, fun ho => absurd ho hover,
        hok.frees, fun hl => hl.elim Creator.noConfusion Creator.noConfusion, Creator.noConfusion,
        hok.late, hok.asleep⟩
  · exact h

theorem Inv.listAdd (h : s.Inv) : (s.listAdd k).Inv := by
  rw [State.listAdd]
  split
  · rename_i hc
    have hk : k < s.count := h.lt (.inl (by rw [hc]; decide))
    have hok := h.ok k hk
    have hover : ¬(s.threads k).life.Over :=
      fun ho => Creator.noConfusion (hc.symm.trans (hok.ended ho))
    have hheld : (s.threads k).HasRecord := ⟨by rw [hc]; decide, hover⟩
    have hout := h.not_listed hk hheld (by rw [hc]; decide)
    have hlock := hok.locked (.inl hc)
    refine h.putRecord hk hheld rfl (fun _ _ => rfl) (fun r hr => ?_) (fun a ha => ?_)
      (fun _ => ⟨rfl, hover⟩) (List.nodup_cons.mpr ⟨hout, h.nodup⟩) (fun _ _ => rfl)
      (fun hak j hj hjk haj heq => hjk (h.handles j hj k hk haj hak heq))
      (fun he => Creator.noConfusion he) ?_ (h.access hlock)
    · have hcell := (hok.hasRecord hheld).symm.trans hr
      exact ⟨congrArg Record.owner (Option.some_inj.mp hcell).symm,
        fun he => Creator.noConfusion he, hover⟩
    · exact ⟨fun hin => (List.mem_cons.mp hin).resolve_left ha, List.mem_cons_of_mem _⟩
    · refine ⟨⟨fun hu => ?_, fun he => he.elim Creator.noConfusion Creator.noConfusion⟩,
        fun _ => hok.hasRecord hheld, fun _ => List.mem_cons_self, fun ho => absurd ho hover,
        fun ho => absurd ho hover, hok.frees, fun _ => hlock, Creator.noConfusion, hok.late,
        hok.asleep⟩
      rcases hok.unstarted.mp hu with ha | ha <;> exact Creator.noConfusion (hc.symm.trans ha)
  · exact h

theorem Inv.find (h : s.Inv) (hk : k < s.count) (hl : (s.threads k).Listed)
    (ha : (s.threads k).Alive) : s.find (s.threads k).handle = some (s.threads k).addr := by
  have hcell := (h.ok k hk).hasRecord hl.hasRecord
  have hsome : (s.find (s.threads k).handle).isSome := by
    rw [State.find, List.find?_isSome]
    exact ⟨_, (h.ok k hk).listed hl, by simp [hcell]⟩
  obtain ⟨a, hfind⟩ := Option.isSome_iff_exists.mp hsome
  have hmem : a ∈ s.tasks := List.mem_of_find?_eq_some hfind
  have hpred := List.find?_some hfind
  obtain ⟨j, hj, haddr, hlj⟩ := h.tasks a hmem
  have hokj := h.ok j hj
  have hcellj := hokj.hasRecord hlj.hasRecord
  rw [haddr] at hcellj
  have hhandle : (s.threads j).handle = (s.threads k).handle := by simpa [hcellj] using hpred
  have halive : (s.threads j).Alive := by
    refine ⟨fun hu => ?_, fun hg => hlj.2 (.inr hg)⟩
    rcases hokj.unstarted.mp hu with hc | hc <;> exact Creator.noConfusion (hlj.1.symm.trans hc)
  rw [hfind, ← haddr, h.handles j hj k hk halive ha hhandle]

theorem Inv.pthreadSelf (h : s.Inv)
    (hin : (s.threads k).life = .running → (s.threads k).creator = .added) : (s.self k).Inv := by
  rw [State.self]
  split
  · rename_i hr
    have hadded := hin hr
    have hk : k < s.count := h.lt (.inl (by rw [hadded]; decide))
    have hl : (s.threads k).Listed := ⟨hadded, by rw [hr]; exact Life.not_over_running⟩
    have hfind := h.find hk hl ⟨by rw [hr]; decide, by rw [hr]; decide⟩
    refine ⟨fun j hj => (h.ok j hj).of (fun _ => rfl) (fun _ _ => rfl) (fun _ => id) rfl id
      (h.ok j hj).creating, h.rest, h.unborn, h.mem, h.tasks, h.nodup, h.handles, h.creating,
      h.access ((h.ok k hk).locked (.inr hadded)), ?_, h.early, h.refused⟩
    dsimp only
    rw [h.self, decide_eq_false (not_not_intro hfind)]
    rfl
  · exact h

theorem Inv.exit (h : s.Inv)
    (hin : (s.threads k).life = .returned → (s.threads k).creator = .added) : (s.exit k).Inv := by
  rw [State.exit]
  split
  · rename_i hr
    have hadded := hin hr
    have hk : k < s.count := h.lt (.inl (by rw [hadded]; decide))
    have hok := h.ok k hk
    have hover : ¬(s.threads k).life.Over := by
      rw [hr]
      exact Life.not_over_returned
    have hl : (s.threads k).Listed := ⟨hadded, hover⟩
    have hcell := hok.hasRecord hl.hasRecord
    have hlock := hok.locked (.inr hadded)
    have halive : (s.threads k).Alive := ⟨by rw [hr]; decide, by rw [hr]; decide⟩
    rw [h.find hk hl halive]
    refine h.putRecord hk hl.hasRecord rfl (fun a ha => Function.update_of_ne ha _ _)
      (fun r hr => ?_) (fun a ha => List.mem_erase_of_ne ha) (fun hmem => ?_) (h.nodup.erase _)
      (fun j hj => ?_) (fun _ j hj hjk haj heq => hjk (h.handles j hj k hk haj halive heq))
      (fun he => ?_) ?_ (h.access hlock)
    · dsimp only [State.remove] at hr
      rw [Function.update_self] at hr
      exact absurd hr.symm (Option.some_ne_none r)
    · exact absurd hmem h.nodup.not_mem_erase
    · simp [State.remove, State.access, hcell, hj.symm]
    · exact Creator.noConfusion (hadded.symm.trans he)
    · refine ⟨⟨Life.noConfusion, fun hu => ?_⟩, fun hr => absurd (.inl rfl) hr.2,
        fun hl => absurd (.inl rfl) hl.2, fun _ => hadded, fun _ _ => Function.update_self .., ?_,
        fun _ => hlock, fun he => Creator.noConfusion (hadded.symm.trans he), fun hp => ?_,
        fun t l he => .inr (.inl rfl)⟩
      · rcases hu with hc | hc <;> exact Creator.noConfusion (hadded.symm.trans hc)
      · have hfrees := hok.frees
        rw [if_neg hover] at hfrees
        simp [State.remove, State.access, hcell, hfrees, Life.Over]
      · exact (hok.late hp).imp id fun ho => absurd ho.1 hover
  · exact h

theorem Inv.malloc (h : s.Inv) {a : Nat}
    (hin : ∀ k < s.count, (s.threads k).life.Over → (s.threads k).join.Pending →
      (s.threads k).addr ≠ a) : (s.malloc a).Inv := by
  rw [State.malloc]
  split
  · rename_i hfree
    have hnone : s.mem a = none := Option.isNone_iff_eq_none.mp hfree
    have hne : ∀ k < s.count, (s.threads k).HasRecord → (s.threads k).addr ≠ a := by
      intro k hk hr heq
      have hcell := (h.ok k hk).hasRecord hr
      rw [heq, hnone] at hcell
      exact Option.some_ne_none _ hcell.symm
    have hlast : ∀ {k}, k < s.count + 1 → k ≠ s.count → k < s.count := by
      intro k hk hne
      omega
    refine ⟨fun k hk => ?_, fun k hk => ?_, fun k hk => h.unborn k (Nat.le_of_succ_le hk),
      fun b r hr => ?_, fun b hb => ?_, h.nodup,
      fun i hi j hj => ?_, fun i hi j hj => ?_, h.locked, h.self, h.early, h.refused⟩
    · dsimp only at hk ⊢
      by_cases hkc : k = s.count
      · rw [hkc, put_same]
        have hfrees := h.unborn s.count (Nat.le_refl _)
        exact ⟨⟨fun _ => .inl rfl, fun _ => rfl⟩, fun _ => Function.update_self ..,
          fun hl => Creator.noConfusion hl.1, fun ho => absurd ho Life.not_over_unstarted,
          fun ho => absurd ho Life.not_over_unstarted, hfrees,
          fun hl => hl.elim Creator.noConfusion Creator.noConfusion, Creator.noConfusion,
          fun _ => .inl rfl, fun t l he => Join.noConfusion he⟩
      · rw [put_other hkc]
        have hk' := hlast hk hkc
        exact (h.ok k hk').of (fun hr => Function.update_of_ne (hne k hk' hr) _ _)
          (fun ho hp => Function.update_of_ne (hin k hk' ho hp) _ _) (fun _ => id) rfl id
          (h.ok k hk').creating
    · dsimp only at hk ⊢
      rw [put_other (by omega)]
      exact h.rest k (by omega)
    · dsimp only at hr ⊢
      by_cases hb : b = a
      · rw [hb, Function.update_self] at hr
        cases hr
        rw [put_same, hb]
        exact ⟨Nat.lt_succ_self _, rfl, fun he => Creator.noConfusion he, Life.not_over_unstarted⟩
      · rw [Function.update_of_ne hb] at hr
        obtain ⟨howner, haddr, hrec⟩ := h.mem b r hr
        rw [put_other (by omega)]
        exact ⟨Nat.lt_succ_of_lt howner, haddr, hrec⟩
    · obtain ⟨k, hk, haddr, hl⟩ := h.tasks b hb
      dsimp only
      exact ⟨k, Nat.lt_succ_of_lt hk, by rw [put_other (by omega)]; exact haddr,
        by rw [put_other (by omega)]; exact hl⟩
    · exact fun hai haj heq => put_pairs (R := Thread.SameHandle) Thread.SameHandle.symm
        (fun _ _ _ hr => hr.1.1 rfl)
        (fun i hi hic j hj hjc hr =>
          h.handles i (hlast hi hic) j (hlast hj hjc) hr.1 hr.2.1 hr.2.2) i hi j hj ⟨hai, haj, heq⟩
    · exact fun hci hcj => put_pairs (R := Thread.BothCreating) And.symm
        (fun _ _ _ hr => Creator.noConfusion hr.1)
        (fun i hi hic j hj hjc hr =>
          h.creating i (hlast hi hic) j (hlast hj hjc) hr.1 hr.2) i hi j hj ⟨hci, hcj⟩
  · exact h

theorem Inv.step (h : s.Inv) (l : Label) (hin : s.InOrder l) : (s.step l).Inv := by
  cases l with
  | malloc a => exact h.malloc hin
  | threadCreate k handle => exact h.threadCreate handle
  | threadCreateFails k => exact h.threadCreateFails
  | mutexIsValid k => exact h.mutexIsValid hin
  | mutexCreate k => exact h.mutexCreate
  | listAdd k => exact h.listAdd
  | self k => exact h.pthreadSelf hin
  | ret k => exact h.ret
  | exit k => exact h.exit hin
  | threadDelete k => exact h.threadDelete
  | join k => exact h.join
  | joinLook k => exact h.joinLook hin
  | joinWake k => exact h.joinWake

end

end State

/-! ## Runs -/

instance (s : State) (l : Label) : Decidable (s.InOrder l) := by
  cases l <;> unfold State.InOrder <;> infer_instance

/-- In a run in which records are looked for behind `list_add` only, no record is put where one of a
finished thread was that is to be joined, and one call makes the lock, all calls do what they
should. -/
theorem tasks_kept (ls : List Label) (h : Along State.step State.InOrder State.initial ls) :
    (ls.foldl State.step State.initial).Kept :=
  (along_foldl State.inv_initial (fun _ l hi hl => hi.step l hl) h).kept

/-- Two threads, of which the second gets the memory of the first behind its join. -/
theorem tasks_kept_two :
    ([Label.malloc 0, .threadCreate 0 7, .mutexIsValid 0, .mutexCreate 0, .listAdd 0, .self 0,
      .join 0, .joinLook 0, .ret 0, .exit 0, .joinWake 0, .joinLook 0, .joinWake 0, .threadDelete 0,
      .malloc 0, .threadCreate 1 7, .mutexIsValid 1, .listAdd 1, .self 1, .ret 1, .exit 1, .join 1,
      .joinLook 1, .joinWake 1].foldl State.step State.initial).Kept :=
  tasks_kept _ (by decide +kernel)

/-- A thread that is done before its creator goes on: it gets no record of its own, frees none, and
its record is left in the list. -/
theorem tasks_not_kept :
    ([Label.malloc 0, .threadCreate 0 7, .self 0].foldl State.step State.initial).selfWrong = true ∧
      ([Label.malloc 0, .threadCreate 0 7, .ret 0, .exit 0, .mutexIsValid 0, .mutexCreate 0,
        .listAdd 0].foldl State.step State.initial).frees 0 = 0 ∧
      ([Label.malloc 0, .threadCreate 0 7, .join 0, .joinLook 0, .joinWake 0].foldl State.step
        State.initial).early = true ∧
      ¬∀ ls : List Label, (ls.foldl State.step State.initial).Kept := by
  have hself : ([Label.malloc 0, .threadCreate 0 7, .self 0].foldl State.step
      State.initial).selfWrong = true := by decide
  exact ⟨hself, by decide, by decide,
    fun h => absurd ((h _).self.symm.trans hself) Bool.false_ne_true⟩

end Task
end Pthread
end XR806

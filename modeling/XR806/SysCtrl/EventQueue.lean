import Mathlib.Data.List.Basic
import XR806.Ring
import XR806.Trans.Run

/-!
# XR806.SysCtrl.EventQueue

The event queue of the system controller, a list of nodes that are to travel between `head`, the
messages that wait, and `pool`, the nodes that are free.

A push does not take its node off the pool, and a pop puts the node back on the list that it comes
from. So the first node is on both lists from the first message on (`Slot`), and it is the only one
that is ever used: the queue holds one message, the one that was sent last. It keeps its promises in
a run without messages only (`queue_ok`), and delivers the messages of a run in which each one is
sent after the one before it has been received.
-/

namespace XR806
namespace SysCtrl

open Ring Trans

inductive Node
  | head
  | pool
  | vec (i : Nat)
deriving DecidableEq, Repr

/-- A message is named by its place in `sent`, which says the event of each message that was
accepted. `returned` are the messages that a receiver got, and `taking` counts the receivers that
have the semaphore and wait for the lock. -/
structure State where
  links : Links Node
  arg : Node → Nat
  sem : Nat
  taking : Nat
  sent : List UInt32
  returned : List Nat

/-! ## Creation -/

/-- The loop of `sorted_list_init` over the nodes below `i`, the highest first. -/
def initPool : Nat → Links Node → Links Node
  | 0, l => l
  | i + 1, l => initPool i ((l.init (.vec i)).addTail (.vec i) .pool)

/-- `prio_event_queue_create`. -/
def create (size : Nat) (arg : Node → Nat) : State where
  links := initPool size (((Links.mk id id).init .head).init .pool)
  arg := arg
  sem := 0
  taking := 0
  sent := []
  returned := []

/-! ## Sending and receiving -/

def complareEventMsg (events : List UInt32) (newArg oldArg : Nat) : Int :=
  if events.getD newArg 0 < events.getD oldArg 0 then 1 else 0

/-- The node after which `list_for_each_entry` puts the new one. -/
def findPlace (links : Links Node) (compare : Node → Int) : Nat → Node → Option Node
  | 0, _ => none
  | fuel + 1, tmp =>
    if tmp = .head then some tmp
    else if compare tmp ≥ 0 then some (links.prev tmp)
    else findPlace links compare fuel (links.next tmp)

/-- The part of `sorted_list_push` under the lock, once there is a node. -/
def sortedListPush (c : State) (event : UInt32) (fuel : Nat) : Option State :=
  let node := c.links.next .pool
  let sent := c.sent ++ [event]
  let arg := Function.update c.arg node c.sent.length
  let compare := fun tmp => complareEventMsg sent c.sent.length (arg tmp)
  (findPlace c.links compare fuel (c.links.next .head)).map fun tmp =>
    -- the binary semaphore stays at 1
    { c with links := c.links.addAfter node tmp, arg, sent, sem := min (c.sem + 1) 1 }

/-- The part of `sorted_list_pop` under the lock. -/
def sortedListPop (c : State) : State :=
  let node := c.links.next .head
  if node = .head then c
  else
    { c with
      returned := c.returned ++ [c.arg node]
      links := (c.links.del node).addTail node .head }

inductive Act
  | send (event : UInt32)
  | sendFull
  | sendNoMem
  | wait
  | timeout
  | pop
deriving DecidableEq, Repr

def Act.accepts : Act → Bool
  | .send _ => true
  | _ => false

/-- Sends fail without memory for the message, or when the pool is empty until the time is up. A
receiver takes the semaphore, or times out on it, and gets a message under the lock. -/
inductive Step : State → Act → State → Prop
  | send {c c' : State} {event : UInt32} {fuel : Nat} : c.links.next .pool ≠ .pool →
    sortedListPush c event fuel = some c' → Step c (.send event) c'
  | sendFull {c : State} : c.links.next .pool = .pool → Step c .sendFull c
  | sendNoMem {c : State} : Step c .sendNoMem c
  | wait {c : State} {n : Nat} : c.sem = n + 1 →
    Step c .wait { c with sem := n, taking := c.taking + 1 }
  | timeout {c : State} : c.sem = 0 → Step c .timeout c
  | pop {c : State} {n : Nat} : c.taking = n + 1 →
    Step c .pop (sortedListPop { c with taking := n })

/-! ## What the queue promises -/

/-- The messages that were accepted and not returned yet. -/
def State.pending (c : State) : List Nat :=
  (List.range c.sent.length).filter (· ∉ c.returned)

/-- The message that the next receiver gets. -/
def State.upNext (c : State) : Option Nat :=
  if c.links.next .head = .head then none else some (c.arg (c.links.next .head))

/-- Of two events the one that is `before` the other is received first. -/
structure Delivers (before : UInt32 → UInt32 → Prop) (N : Nat) (c : State) : Prop where
  room : c.pending.length ≤ N
  once : c.returned.Nodup
  accepted : ∀ id ∈ c.returned, id < c.sent.length
  kept : ∀ id ∈ c.pending, ∃ node, Linked c.links .head node ∧ c.arg node = id
  awake : c.taking < c.pending.length → 0 < c.sem
  byEvent : ∀ id ∈ c.pending, c.upNext = some id → ∀ j ∈ c.pending,
    c.sent.getD id 0 ≠ c.sent.getD j 0 → before (c.sent.getD id 0) (c.sent.getD j 0)
  inOrder : ∀ id ∈ c.pending, c.upNext = some id → ∀ j ∈ c.pending,
    c.sent.getD id 0 = c.sent.getD j 0 → id ≤ j

/-- Every node is on one of the two lists. -/
structure Good (before : UInt32 → UInt32 → Prop) (N : Nat) (c : State) : Prop
    extends Delivers before N c where
  linked : ∀ i < N,
    Xor (Linked c.links .head (.vec i)) (Linked c.links .pool (.vec i))

/-! ## The new queue -/

section

variable {N i j : Nat} {l : Links Node} {arg : Node → Nat}

/-- The nodes from `i` on are in the pool. -/
structure Chained (N i : Nat) (l : Links Node) : Prop where
  headNext : l.next .head = .head
  headPrev : l.prev .head = .head
  first : l.next .pool = if i = N then .pool else .vec (N - 1)
  last : l.prev .pool = if i = N then .pool else .vec i
  chain : ∀ j, i ≤ j → j < N → l.next (.vec j) = if j = i then .pool else .vec (j - 1)

theorem chained_nil : Chained N N (((Links.mk id id).init .head).init .pool) := by
  refine ⟨?_, ?_, ?_, ?_, fun j hle hlt => absurd hlt (Nat.not_lt.mpr hle)⟩
  · simp [init_next]
  · simp [init_prev]
  · simp [init_next]
  · simp [init_prev]

theorem Chained.add (h : Chained N (i + 1) l) (hi : i < N) :
    Chained N i ((l.init (.vec i)).addTail (.vec i) .pool) := by
  have hne : i ≠ N := Nat.ne_of_lt hi
  unfold Links.addTail
  rw [init_prev, if_neg nofun, h.last]
  refine ⟨?_, ?_, ?_, ?_, fun j hle hlt => ?_⟩
  · rw [insert_next, init_next, h.headNext]
    split <;> simp_all
  · rw [insert_prev, init_prev, h.headPrev]
    simp
  · rw [insert_next, init_next, h.first]
    by_cases hN : i + 1 = N
    · subst hN
      simp
    · simp [hN, hne]
  · rw [insert_prev]
    simp [hne]
  · rw [insert_next, init_next]
    by_cases hj : j = i
    · subst hj
      by_cases hN : j + 1 = N
      · simp [hN]
      · simp [hN]
    · have hnext := h.chain j (by omega) hlt
      by_cases hN : i + 1 = N
      · omega
      · by_cases hj' : j = i + 1
        · simp [hN, hj']
        · simp [hN, hj, hj', hnext]

theorem chained_initPool (h : Chained N i l) (hi : i ≤ N) : Chained N 0 (initPool i l) := by
  induction i generalizing l with
  | zero => exact h
  | succ i ih => exact ih (h.add hi) (Nat.le_of_succ_le hi)

theorem chained_create : Chained N 0 (create N arg).links :=
  chained_initPool chained_nil (Nat.le_refl N)

theorem Chained.linked (h : Chained N 0 l) (hj : j < N) : Linked l .pool (.vec j) := by
  -- from the last node of the pool to the first one
  induction hd : N - 1 - j generalizing j with
  | zero =>
    have hfirst : l.next .pool = .vec j := by
      rw [h.first, if_neg (by omega)]
      exact congrArg Node.vec (by omega)
    rw [← hfirst]
    exact .first (by simp [hfirst])
  | succ d ih =>
    have hnext : l.next (.vec (j + 1)) = .vec j := h.chain (j + 1) (Nat.zero_le _) (by omega)
    rw [← hnext]
    exact .step (ih (by omega) (by omega)) (by simp [hnext])

theorem good_create {before : UInt32 → UInt32 → Prop} : Good before N (create N arg) := by
  have hchain : Chained N 0 (create N arg).links := chained_create
  have hpending : (create N arg).pending = [] := rfl
  have hnone : ∀ id ∈ (create N arg).pending, False := by simp [hpending]
  refine ⟨⟨by simp [hpending], List.nodup_nil, nofun, fun id hid => (hnone id hid).elim, ?_,
    fun id hid => (hnone id hid).elim, fun id hid => (hnone id hid).elim⟩, ?_⟩
  · rw [hpending]
    exact nofun
  · intro i hi
    exact .inr ⟨hchain.linked hi, not_linked_nil hchain.headNext⟩

end

/-! ## The first message and after -/

section

variable {N : Nat} {c c' : State} {a : Act} {as : List Act} {arg : Node → Nat}

/-- The one node in use is the first of both lists. -/
structure Slot (N : Nat) (c : State) : Prop where
  pool : c.links.next .pool = .vec (N - 1)
  first : c.links.next .head = .vec (N - 1)
  last : c.links.prev .head = .vec (N - 1)
  links : (c.links.next (.vec (N - 1)) = .head ∨ c.links.next (.vec (N - 1)) = .vec (N - 1)) ∧
      c.links.prev (.vec (N - 1)) = .head ∨
    c.links.next (.vec (N - 1)) = .vec (N - 1) ∧ c.links.prev (.vec (N - 1)) = .vec (N - 1)
  arg : c.arg (.vec (N - 1)) + 1 = c.sent.length
  sem : c.sem ≤ 1

theorem complare_nonneg {events : List UInt32} {x y : Nat} : complareEventMsg events x y ≥ 0 := by
  unfold complareEventMsg
  split <;> decide

/-- The walk ends at the first node. -/
theorem findPlace_eq {links : Links Node} {compare : Node → Int} {fuel : Nat} {tmp : Node}
    (h : ∀ node, compare node ≥ 0) : findPlace links compare (fuel + 1) tmp =
      some (if tmp = .head then .head else links.prev tmp) := by
  unfold findPlace
  split
  · rename_i htmp
    rw [htmp]
  · rw [if_pos (h tmp)]

/-- What a push leaves. -/
def pushed (c : State) (event : UInt32) : State :=
  { c with
    links := c.links.addAfter (c.links.next .pool)
      (if c.links.next .head = .head then .head else c.links.prev (c.links.next .head))
    arg := Function.update c.arg (c.links.next .pool) c.sent.length
    sent := c.sent ++ [event]
    sem := min (c.sem + 1) 1 }

theorem push_succ {event : UInt32} (fuel : Nat) :
    sortedListPush c event (fuel + 1) = some (pushed c event) := by
  unfold sortedListPush
  dsimp only
  rw [findPlace_eq fun _ => complare_nonneg]
  rfl

theorem push_eq {event : UInt32} {fuel : Nat} (h : sortedListPush c event fuel = some c') :
    c' = pushed c event := by
  cases fuel with
  | zero => exact nomatch h
  | succ fuel => exact (Option.some.inj ((push_succ fuel).symm.trans h)).symm

/-- A push puts the node where it is already. -/
theorem Slot.push (h : Slot N c) {event : UInt32} {fuel : Nat}
    (hpush : sortedListPush c event fuel = some c') : Slot N c' := by
  have hlinks := h.links
  rw [push_eq hpush, pushed, h.pool, h.first, if_neg nofun]
  refine ⟨?_, ?_, ?_, ?_, by simp, Nat.min_le_right ..⟩
  · rcases hlinks with ⟨-, hprev⟩ | ⟨-, hprev⟩ <;>
      simp [Links.addAfter, insert_next, hprev, h.pool]
  · rcases hlinks with ⟨-, hprev⟩ | ⟨-, hprev⟩ <;>
      simp [Links.addAfter, insert_next, hprev, h.first]
  · rcases hlinks with ⟨-, hprev⟩ | ⟨hnext, hprev⟩
    · simp [Links.addAfter, insert_prev, hprev, h.first, h.last]
    · simp [Links.addAfter, insert_prev, hprev, hnext, h.last]
  · rcases hlinks with ⟨-, hprev⟩ | ⟨hnext, hprev⟩
    · left
      simp [Links.addAfter, insert_next, insert_prev, hprev, h.first]
    · right
      simp [Links.addAfter, insert_next, insert_prev, hprev, hnext]

/-- The first push leaves the node on the pool. -/
theorem slot_first {event : UInt32} {fuel : Nat} (hN : 1 ≤ N)
    (hpush : sortedListPush (create N arg) event fuel = some c') : Slot N c' := by
  have h : Chained N 0 (create N arg).links := chained_create
  have hfirst : (create N arg).links.next .pool = .vec (N - 1) := by
    rw [h.first, if_neg (by omega)]
  rw [push_eq hpush, pushed, hfirst, if_pos h.headNext]
  refine ⟨?_, ?_, ?_, ?_, by simp, Nat.min_le_right ..⟩
  · simp [Links.addAfter, insert_next, hfirst]
  · simp [Links.addAfter, insert_next]
  · simp [Links.addAfter, insert_prev, h.headNext]
  · left
    simp [Links.addAfter, insert_next, insert_prev, h.headNext]

theorem Slot.pop (h : Slot N c) : Slot N (sortedListPop c) ∧
    (sortedListPop c).returned = c.returned ++ [c.sent.length - 1] := by
  have hlinks := h.links
  have harg := h.arg
  unfold sortedListPop
  dsimp only
  rw [h.first, if_neg nofun]
  refine ⟨⟨?_, ?_, ?_, ?_, h.arg, h.sem⟩, by rw [← harg]; rfl⟩
  · rcases hlinks with ⟨hnext | hnext, hprev⟩ | ⟨hnext, hprev⟩ <;>
      simp [Links.addTail, insert_next, del_next, del_prev, hnext, hprev, h.pool, h.last]
  · rcases hlinks with ⟨hnext | hnext, hprev⟩ | ⟨hnext, hprev⟩ <;>
      simp [Links.addTail, insert_next, del_next, del_prev, hnext, hprev, h.first, h.last]
  · rcases hlinks with ⟨hnext | hnext, hprev⟩ | ⟨hnext, hprev⟩ <;>
      simp [Links.addTail, insert_prev]
  · rcases hlinks with ⟨hnext | hnext, hprev⟩ | ⟨hnext, hprev⟩ <;>
      simp [Links.addTail, insert_next, insert_prev, del_prev, hnext, hprev, h.last]

theorem Slot.step (h : Slot N c) (hstep : Step c a c') : Slot N c' := by
  cases hstep with
  | send _ hpush => exact h.push hpush
  | sendFull => exact h
  | sendNoMem => exact h
  | wait hsem => exact ⟨h.pool, h.first, h.last, h.links, h.arg, by have := h.sem; dsimp only; omega⟩
  | timeout => exact h
  | @pop n =>
    have h' : Slot N { c with taking := n } := ⟨h.pool, h.first, h.last, h.links, h.arg, h.sem⟩
    exact h'.pop.1

/-- From the first message on a node is on both lists. -/
theorem Slot.not_good {before : UInt32 → UInt32 → Prop} (h : Slot N c) (hN : 1 ≤ N) :
    ¬Good before N c := by
  intro hgood
  have hhead : Linked c.links .head (.vec (N - 1)) := by
    have hlinked : Linked c.links .head (c.links.next .head) := .first (by simp [h.first])
    rwa [h.first] at hlinked
  have hpool : Linked c.links .pool (.vec (N - 1)) := by
    have hlinked : Linked c.links .pool (c.links.next .pool) := .first (by simp [h.pool])
    rwa [h.pool] at hlinked
  rcases hgood.linked (N - 1) (by omega) with ⟨-, hnot⟩ | ⟨-, hnot⟩
  · exact hnot hpool
  · exact hnot hhead

/-- A step from the new queue sends the first message or leaves it as it is. -/
theorem step_create (hN : 1 ≤ N) (h : Step (create N arg) a c') :
    a.accepts = true ∧ Slot N c' ∨ a.accepts = false ∧ c' = create N arg := by
  cases h with
  | send _ hpush => exact .inl ⟨rfl, slot_first hN hpush⟩
  | sendFull => exact .inr ⟨rfl, rfl⟩
  | sendNoMem => exact .inr ⟨rfl, rfl⟩
  | wait hsem => exact nomatch hsem
  | timeout => exact .inr ⟨rfl, rfl⟩
  | pop htaking => exact nomatch htaking

theorem run_create (hN : 1 ≤ N) (h : Run Step (create N arg) as c) :
    (∃ a ∈ as, a.accepts = true) ∧ Slot N c ∨ (∀ a ∈ as, a.accepts = false) ∧ c = create N arg := by
  generalize hc : create N arg = c₀ at h
  induction h with
  | nil => exact .inr ⟨nofun, rfl⟩
  | @cons _ c₁ _ a as hstep hrun ih =>
    subst hc
    rcases step_create hN hstep with ⟨ha, hslot⟩ | ⟨ha, rfl⟩
    · exact .inl ⟨⟨a, List.mem_cons_self, ha⟩, hrun.invariant hslot fun _ _ _ h hs => h.step hs⟩
    · rcases ih rfl with ⟨⟨b, hb, hacc⟩, hslot⟩ | ⟨hall, hc⟩
      · exact .inl ⟨⟨b, List.mem_cons_of_mem _ hb, hacc⟩, hslot⟩
      · exact .inr ⟨List.forall_mem_cons.mpr ⟨ha, hall⟩, hc⟩

/-! ## One message at a time -/

/-- A message is sent when all messages before it have been received. -/
def Idle (c : State) (a : Act) : Prop := a.accepts = true → c.returned.length = c.sent.length

/-- What has been received, with the semaphore or a receiver for what has not. -/
structure Turn (c : State) : Prop where
  order : c.returned = List.range c.returned.length
  count : c.returned.length = c.sent.length ∧ c.sem = 0 ∧ c.taking = 0 ∨
    c.returned.length + 1 = c.sent.length ∧ c.sem + c.taking = 1

theorem turn_create : Turn (create N arg) := ⟨rfl, .inl ⟨rfl, rfl, rfl⟩⟩

theorem Turn.step (h : Turn c) (hslot : Slot N c ∨ c = create N arg) (hidle : Idle c a)
    (hstep : Step c a c') : Turn c' := by
  have hcount := h.count
  cases hstep with
  | send _ hpush =>
    have hall := hidle rfl
    rw [push_eq hpush]
    refine ⟨h.order, .inr ⟨by simp [pushed, hall], ?_⟩⟩
    dsimp only [pushed]
    omega
  | sendFull => exact h
  | sendNoMem => exact h
  | wait hsem => exact ⟨h.order, .inr ⟨by dsimp only; omega, by dsimp only; omega⟩⟩
  | timeout => exact h
  | @pop n htaking =>
    cases hslot with
    | inl hslot =>
      have h' : Slot N { c with taking := n } :=
        ⟨hslot.pool, hslot.first, hslot.last, hslot.links, hslot.arg, hslot.sem⟩
      have hret : (sortedListPop { c with taking := n }).returned =
          c.returned ++ [c.returned.length] := by
        rw [h'.pop.2]
        dsimp only
        congr 2
        omega
      have hkeep : (sortedListPop { c with taking := n }).sent = c.sent ∧
          (sortedListPop { c with taking := n }).sem = c.sem ∧
          (sortedListPop { c with taking := n }).taking = n := by
        unfold sortedListPop
        dsimp only
        split <;> exact ⟨rfl, rfl, rfl⟩
      obtain ⟨hsent, hsem, htak⟩ := hkeep
      refine ⟨?_, .inl ?_⟩
      · rw [hret, List.length_append, List.length_singleton, List.range_succ, ← h.order]
      · rw [hret, hsent, hsem, htak, List.length_append, List.length_singleton]
        omega
    | inr hnew =>
      rw [hnew] at htaking
      exact nomatch htaking

theorem Turn.pending (h : Turn c) : c.returned.length = c.sent.length ∧ c.pending = [] ∨
    c.sem + c.taking = 1 ∧ c.pending = [c.sent.length - 1] := by
  have hfilter : c.pending =
      (List.range c.sent.length).filter (· ∉ List.range c.returned.length) := by
    rw [State.pending, ← h.order]
  rcases h.count with ⟨hall, -⟩ | ⟨hone, hsem⟩
  · left
    refine ⟨hall, ?_⟩
    rw [hfilter, hall]
    simp
  · right
    refine ⟨hsem, ?_⟩
    rw [hfilter, ← hone, List.range_succ, List.filter_append]
    simp

theorem Turn.delivers {before : UInt32 → UInt32 → Prop} (h : Turn c) (hN : 1 ≤ N)
    (hslot : Slot N c ∨ c = create N arg) : Delivers before N c := by
  cases hslot with
  | inr hnew =>
    rw [hnew]
    exact good_create.toDelivers
  | inl hslot =>
    have hnodup : c.returned.Nodup := by
      rw [h.order]
      exact List.nodup_range
    have haccepted : ∀ id ∈ c.returned, id < c.sent.length := by
      intro id hid
      rw [h.order] at hid
      have hlt := List.mem_range.mp hid
      have hcount := h.count
      omega
    rcases h.pending with ⟨-, hnil⟩ | ⟨hsem, hone⟩
    · exact ⟨by simp [hnil], hnodup, haccepted, by simp [hnil], by simp [hnil], by simp [hnil],
        by simp [hnil]⟩
    · have hlinked : Linked c.links .head (.vec (N - 1)) := by
        have hlinked : Linked c.links .head (c.links.next .head) := .first (by simp [hslot.first])
        rwa [hslot.first] at hlinked
      have harg := hslot.arg
      refine ⟨by simpa [hone] using hN, hnodup, haccepted, ?_, ?_, ?_, ?_⟩
      · intro id hid
        rw [hone, List.mem_singleton] at hid
        exact ⟨_, hlinked, by omega⟩
      · rw [hone, List.length_singleton]
        omega
      · intro id hid _ j hj hne
        rw [hone, List.mem_singleton] at hid hj
        exact absurd (by rw [hid, hj]) hne
      · intro id hid _ j hj _
        rw [hone, List.mem_singleton] at hid hj
        omega

theorem queue_ok (before : UInt32 → UInt32 → Prop) (hN : 1 ≤ N)
    (h : Run Step (create N arg) as c) :
    (Good before N c ↔ ∀ a ∈ as, a.accepts = false) ∧
      (Run (Guarded Step Idle) (create N arg) as c → Delivers before N c) := by
  constructor
  · rcases run_create hN h with ⟨⟨a, ha, hacc⟩, hslot⟩ | ⟨hall, rfl⟩
    · constructor
      · exact fun hgood => absurd hgood (hslot.not_good hN)
      · intro hall
        rw [hall a ha] at hacc
        exact nomatch hacc
    · exact ⟨fun _ => hall, fun _ => good_create⟩
  · intro hrun
    have hinv := hrun.invariant (I := fun c => Turn c ∧ (Slot N c ∨ c = create N arg))
      ⟨turn_create, .inr rfl⟩ fun c a c' hI hs => by
        refine ⟨hI.1.step hI.2 hs.1 hs.2, ?_⟩
        rcases hI.2 with hslot | rfl
        · exact .inl (hslot.step hs.2)
        · exact (step_create hN hs.2).imp And.right And.right
    exact hinv.1.delivers hN hinv.2

/-- A new queue of two nodes, with a message that is sent and received. -/
theorem queue_ok_turn : ∃ c, Run Step (create 2 fun _ => 0) [.send 5, .wait, .pop] c ∧
    c.returned = [0] ∧ ¬Good (· < ·) 2 c ∧ Delivers (· < ·) 2 c := by
  have hrun : Run (Guarded Step Idle) (create 2 fun _ => 0) [.send 5, .wait, .pop] _ :=
    .cons ⟨fun _ => rfl, .send (by decide) (push_succ 0)⟩
      (.cons ⟨nofun, .wait rfl⟩ (.single ⟨nofun, .pop rfl⟩))
  have hplain := hrun.mono fun _ _ _ h => h.2
  obtain ⟨hgood, hdeliver⟩ := queue_ok (· < ·) (by decide) hplain
  refine ⟨_, hplain, by decide, fun h => ?_, hdeliver hrun⟩
  exact nomatch hgood.mp h (.send 5) List.mem_cons_self

/-- A queue of one node accepts two messages. -/
theorem second_overwrites_first : ¬∃ before : UInt32 → UInt32 → Prop,
    ∀ (N : Nat) (arg : Node → Nat) (as : List Act) (c : State), 1 ≤ N →
      Run Step (create N arg) as c → Good before N c := by
  rintro ⟨before, hclaim⟩
  have hrun : Run Step (create 1 fun _ => 0) [.send 5, .send 3] _ :=
    .cons (.send (by decide) (push_succ 0))
      (.single (.send (by decide) (push_succ 0)))
  have hroom := (hclaim 1 _ _ _ (by decide) hrun).room
  exact absurd hroom (by decide)

end

end SysCtrl
end XR806

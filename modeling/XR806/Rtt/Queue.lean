import XR806.Rtt.MessageQueue
import XR806.Trans.Run

/-!
# XR806.Rtt.Queue

The queues of the OS layer on RT-Thread (`os_queue.c`): a kernel message queue, whose messages are
as large as its field says, and whose waiting times are handed on as they are.

Any number of callers are in `OS_QueueSend` and `OS_QueueReceive` at once; what a call does between
two points where interrupts are disabled is a step of its own. A call that finds nothing is
suspended, and looks again when it has been woken, with what is left of its time.

* `queue_items`: in every run items come out of the queue as they were linked into it, and each
  caller passes on what it reads and what it takes.
* `os_queue_exact`: whether the items have the size that was asked for, and how long a call that
  fails has waited.
-/

namespace XR806
namespace Rtt

open NullList

/-! ## Calls -/

inductive Side where
  | send
  | recv
  deriving DecidableEq

/-- What a call waits for: the tick it started at and the time it was given, and what is left of it
since the tick at which it was suspended last. -/
structure Waiting where
  start : Nat
  waitMS : Nat
  timeout : Int
  since : Nat
  deriving DecidableEq

/-- Where a caller is in `OS_QueueSend` or `OS_QueueReceive`. -/
inductive Call where
  | idle
  | suspended (side : Side) (w : Waiting)
  /-- Resumed at a tick, in front of the next pass through the loop. -/
  | woken (side : Side) (w : Waiting) (stopped : Nat)
  /-- Resumed by its timer. -/
  | expired (side : Side) (w : Waiting) (stopped : Nat)
  | copyIn (msg : Nat)
  | link (msg : Nat)
  | copyOut (msg : Nat)
  | putBack (msg : Nat)
  deriving DecidableEq

/-- The message the caller has, and whether it is ended with NULL. -/
def Call.message : Call → Option (Nat × Bool)
  | .copyIn msg => some (msg, false)
  | .link msg => some (msg, true)
  | .copyOut msg => some (msg, false)
  | .putBack msg => some (msg, false)
  | _ => none

structure MqState where
  mq : MessageQueue
  now : Nat
  call : Caller → Call

inductive MqEvent where
  | suspend (side : Side) (caller : Caller)
  /-- A call fails that had waited until `stopped`, and returns at `now`. -/
  | fail (side : Side) (caller : Caller) (w : Waiting) (stopped now : Nat)
  /-- A sender has a message to fill. -/
  | reserve (caller : Caller)
  /-- The bytes that are read at `item`. -/
  | read (caller : Caller) (item : List UInt8)
  /-- The item is on the queue; `OS_QueueSend` answers `OS_OK` if there was room to count it. -/
  | link (caller : Caller) (item : List UInt8) (ok : Bool)
  | unlink (caller : Caller) (item : List UInt8)
  /-- The bytes that are written to `item`. -/
  | write (caller : Caller) (item : List UInt8)
  /-- `OS_QueueReceive` answers `OS_OK`. -/
  | received (caller : Caller)
  | tick

namespace MessageQueue

/-- The threads that are suspended on a side of the queue. -/
def waiters (mq : MessageQueue) : Side → List Waiter
  | .send => mq.suspendSenderThread
  | .recv => mq.suspendThread

def setWaiters (mq : MessageQueue) (list : List Waiter) : Side → MessageQueue
  | .send => { mq with suspendSenderThread := list }
  | .recv => { mq with suspendThread := list }

/-- The loop ends with a message. -/
def Finds (mq : MessageQueue) (msg : Nat) : Side → Prop
  | .send => mq.free = some msg
  | .recv => mq.entry ≠ 0 ∧ mq.head = some msg

/-- The condition of the loop. -/
def Empty (mq : MessageQueue) : Side → Prop
  | .send => mq.free = none
  | .recv => mq.entry = 0

def take (mq : MessageQueue) (msg : Nat) : Side → MessageQueue
  | .send => mq.takeFree msg
  | .recv => mq.unlinkHead msg

end MessageQueue

/-- What is left of a timeout, `ticks` ticks after the thread was suspended. -/
def timeLeft (timeout : Int) (ticks : Nat) : Int :=
  if timeout > 0 then
    let left := rtInt32 ((timeout - (ticks % 2 ^ 32 : Nat)) % 2 ^ 32).toNat
    if left < 0 then 0 else left
  else timeout

/-- The time `OS_QueueSend` and `OS_QueueReceive` hand on, as an `rt_int32_t`. -/
def osTimeout : Caller → Nat → Int
  | .thread _, waitMS => rtInt32 waitMS
  | .interrupt _, _ => rtInt32 0

def Call.taken (msg : Nat) : Side → Call
  | .send => .copyIn msg
  | .recv => .copyOut msg

def MqEvent.taken (caller : Caller) (item : List UInt8) : Side → MqEvent
  | .send => .reserve caller
  | .recv => .unlink caller item

def Call.wake (now : Nat) : Call → Call
  | .suspended side w => .woken side w now
  | call => call

/-- The timer of the call runs out at `now`. -/
def Call.runsOut (now : Nat) : Call → Bool
  | .suspended _ w => 0 < w.timeout ∧ w.since + w.timeout ≤ now
  | _ => false

def Call.tick (now : Nat) (call : Call) : Call :=
  match call with
  | .suspended side w => if call.runsOut now then .expired side w now else call
  | call => call

namespace MqState

/-- What one caller does to the queue, and where it is then. -/
def put (s : MqState) (mq : MessageQueue) (caller : Caller) (call : Call) : MqState :=
  { s with mq, call := Function.update s.call caller call }

/-- `rt_ipc_list_resume`, if a thread is suspended. -/
def resume (s : MqState) (side : Side) : MqState :=
  match s.mq.waiters side with
  | [] => s
  | w :: rest =>
    s.put (s.mq.setWaiters rest side) (.thread w.thread)
      ((s.call (.thread w.thread)).wake s.now)

/-- `rt_mq_send_wait` from the lock on that links the message. -/
def linked (s : MqState) (caller : Caller) (msg : Nat) : MqState :=
  let s' := s.put (s.mq.linkTail msg).1 caller .idle
  if (s.mq.linkTail msg).2 then s'.resume .recv else s'

/-- `rt_mq_recv` from the lock on that frees the message. -/
def freed (s : MqState) (caller : Caller) (msg : Nat) : MqState :=
  (s.put (s.mq.putBack msg) caller .idle).resume .send

/-- `rt_timer_check` at the next tick. -/
def tick (s : MqState) : MqState :=
  let runs := fun w : Waiter => !(s.call (.thread w.thread)).runsOut (s.now + 1)
  { mq := { s.mq with
      suspendThread := s.mq.suspendThread.filter runs
      suspendSenderThread := s.mq.suspendSenderThread.filter runs }
    now := s.now + 1
    call := fun caller => (s.call caller).tick (s.now + 1) }

end MqState

/-- A pass through the loop at the start of a call. -/
inductive Pass (s : MqState) (caller : Caller) (side : Side) (w : Waiting) (stopped : Nat) :
    MqEvent → MqState → Prop where
  | take {msg : Nat} (hfinds : s.mq.Finds msg side) :
    Pass s caller side w stopped (.taken caller (s.mq.content msg) side)
      (s.put (s.mq.take msg side) caller (.taken msg side))
  | fail (hempty : s.mq.Empty side) (htime : w.timeout = 0) :
    Pass s caller side w stopped (.fail side caller w stopped s.now) (s.put s.mq caller .idle)
  | suspend {thread currentPriority : Nat} (hempty : s.mq.Empty side) (htime : w.timeout ≠ 0)
    (hthread : caller = .thread thread) :
    Pass s caller side w stopped (.suspend side caller)
      (s.put (s.mq.setWaiters (rtIpcListSuspend (s.mq.waiters side)
        ⟨thread, currentPriority, w.timeout > 0⟩ s.mq.flag) side) caller
        (.suspended side { w with since := s.now }))

inductive MqStep : MqState → MqEvent → MqState → Prop where
  | start {s s' : MqState} {caller : Caller} {side : Side} {waitMS : Nat} {e : MqEvent}
    (hcall : s.call caller = .idle) (hms : waitMS < 2 ^ 32)
    (hpass : Pass s caller side ⟨s.now, waitMS, osTimeout caller waitMS, s.now⟩ s.now e s') :
    MqStep s e s'
  | retry {s s' : MqState} {caller : Caller} {side : Side} {w : Waiting} {stopped : Nat}
    {e : MqEvent} (hcall : s.call caller = .woken side w stopped)
    (hpass : Pass s caller side { w with timeout := timeLeft w.timeout (s.now - w.since) } stopped
      e s') : MqStep s e s'
  | expired {s : MqState} {caller : Caller} {side : Side} {w : Waiting} {stopped : Nat}
    (hcall : s.call caller = .expired side w stopped) :
    MqStep s (.fail side caller w stopped s.now) (s.put s.mq caller .idle)
  | copyIn {s : MqState} {caller : Caller} {msg : Nat} {buffer : Nat → UInt8}
    (hcall : s.call caller = .copyIn msg) :
    MqStep s (.read caller ((List.range s.mq.msgSize).map buffer))
      (s.put (s.mq.copyIn msg buffer) caller (.link msg))
  | link {s : MqState} {caller : Caller} {msg : Nat} (hcall : s.call caller = .link msg) :
    MqStep s (.link caller (s.mq.content msg) (s.mq.linkTail msg).2)
      (s.linked caller msg)
  | copyOut {s : MqState} {caller : Caller} {msg : Nat} (hcall : s.call caller = .copyOut msg) :
    MqStep s (.write caller (s.mq.content msg)) (s.put s.mq caller (.putBack msg))
  | putBack {s : MqState} {caller : Caller} {msg : Nat} (hcall : s.call caller = .putBack msg) :
    MqStep s (.received caller)
      (s.freed caller msg)
  | tick {s : MqState} : MqStep s .tick s.tick

/-- `OS_QueueCreate`. -/
def osQueueCreate (alignSize queueLen itemSize : Nat) : MessageQueue :=
  rtMqCreate alignSize itemSize queueLen .prio

def mqStart (alignSize queueLen itemSize now : Nat) : MqState :=
  ⟨osQueueCreate alignSize queueLen itemSize, now, fun _ => .idle⟩

/-! ## Threads that are resumed -/

/-- The two queues differ in the threads that are suspended on them only. -/
structure SamePool (mq mq' : MessageQueue) : Prop where
  msgSize : mq'.msgSize = mq.msgSize
  maxMsgs : mq'.maxMsgs = mq.maxMsgs
  entry : mq'.entry = mq.entry
  head : mq'.head = mq.head
  tail : mq'.tail = mq.tail
  free : mq'.free = mq.free
  next : mq'.next = mq.next
  msg : mq'.msg = mq.msg

/-- A call that is suspended has been resumed, or nothing has happened. -/
def Roused (call call' : Call) : Prop :=
  call' = call ∨ ∃ side w stopped, call = .suspended side w ∧
    (call' = .woken side w stopped ∨ call' = .expired side w stopped)

/-- The message whose data a sender has read, and is to link. -/
def Call.reading : Call → Option Nat
  | .link msg => some msg
  | _ => none

/-- The message whose data a receiver is to write. -/
def Call.writing : Call → Option Nat
  | .copyOut msg => some msg
  | _ => none

namespace MqState

/-- The items on the queue. -/
def stock (s : MqState) : List (List UInt8) := s.mq.queue.map s.mq.content

def inHand (s : MqState) (caller : Caller) : List (List UInt8) :=
  ((s.call caller).reading.map s.mq.content).toList

def outHand (s : MqState) (caller : Caller) : List (List UInt8) :=
  ((s.call caller).writing.map s.mq.content).toList

end MqState

structure MqInv (size max : Nat) (s : MqState) : Prop where
  store : ∃ free, Store s.mq (fun caller => (s.call caller).message) s.mq.queue free
  msgSize : s.mq.msgSize = size
  maxMsgs : s.mq.maxMsgs = max
  room : max < 2 ^ 16

section

variable {mq mq' : MessageQueue} {s s' : MqState} {side : Side} {call call' : Call}
  {caller : Caller} {msg n size max : Nat} {e : MqEvent} {w : Waiting}

theorem put_call_self : (s.put mq caller call).call caller = call := Function.update_self ..

theorem put_call_of_ne {c : Caller} (hc : c ≠ caller) :
    (s.put mq caller call).call c = s.call c := Function.update_of_ne hc ..

theorem SamePool.refl (mq : MessageQueue) : SamePool mq mq := ⟨rfl, rfl, rfl, rfl, rfl, rfl, rfl, rfl⟩

theorem samePool_setWaiters (list : List Waiter) : SamePool mq (mq.setWaiters list side) := by
  cases side <;> exact ⟨rfl, rfl, rfl, rfl, rfl, rfl, rfl, rfl⟩

theorem SamePool.content (h : SamePool mq mq') : mq'.content = mq.content := by
  funext n
  rw [MessageQueue.content, MessageQueue.content, h.msgSize, h.msg]

theorem SamePool.queue (h : SamePool mq mq') : mq'.queue = mq.queue := by
  rw [MessageQueue.queue, MessageQueue.queue, h.next, h.entry, h.head]

theorem SamePool.store {κ : Type} {held : κ → Option (Nat × Bool)} {queue free : List Nat}
    (h : SamePool mq mq') (hs : Store mq held queue free) : Store mq' held queue free where
  lists := by rw [h.next, h.head]; exact hs.lists
  frees := by rw [h.next, h.free]; exact hs.frees
  tail := by rw [h.tail]; exact hs.tail
  entry := by rw [h.entry]; exact hs.entry
  places := by rw [h.maxMsgs]; exact hs.places
  ended := by rw [h.next]; exact hs.ended

theorem Roused.message (h : Roused call call') : call'.message = call.message := by
  obtain rfl | ⟨side, w, stopped, rfl, rfl | rfl⟩ := h <;> rfl

theorem Roused.reading (h : Roused call call') : call'.reading = call.reading := by
  obtain rfl | ⟨side, w, stopped, rfl, rfl | rfl⟩ := h <;> rfl

theorem Roused.writing (h : Roused call call') : call'.writing = call.writing := by
  obtain rfl | ⟨side, w, stopped, rfl, rfl | rfl⟩ := h <;> rfl

theorem roused_wake (now : Nat) : Roused call (call.wake now) := by
  cases call with
  | suspended side w => exact .inr ⟨side, w, now, rfl, .inl rfl⟩
  | _ => exact .inl rfl

theorem roused_tick (now : Nat) : Roused call (call.tick now) := by
  cases call with
  | suspended side w =>
    unfold Call.tick
    dsimp only
    split
    · exact .inr ⟨side, w, now, rfl, .inr rfl⟩
    · exact .inl rfl
  | _ => exact .inl rfl

/-- Between the two states threads have been resumed, and nothing else has happened. -/
structure Resumed (s s' : MqState) : Prop where
  pool : SamePool s.mq s'.mq
  call : ∀ caller, Roused (s.call caller) (s'.call caller)

theorem resumed_resume (s : MqState) (side : Side) : Resumed s (s.resume side) := by
  unfold MqState.resume
  split
  · exact ⟨.refl _, fun _ => .inl rfl⟩
  · rename_i w rest _
    refine ⟨samePool_setWaiters rest, fun caller => ?_⟩
    by_cases hc : caller = .thread w.thread
    · subst hc
      rw [put_call_self]
      exact roused_wake _
    · rw [put_call_of_ne hc]
      exact .inl rfl

theorem resumed_tick (s : MqState) : Resumed s s.tick :=
  ⟨⟨rfl, rfl, rfl, rfl, rfl, rfl, rfl, rfl⟩, fun _ => roused_tick _⟩

theorem Resumed.inv (h : Resumed s s') (hinv : MqInv size max s) : MqInv size max s' := by
  obtain ⟨⟨free, hstore⟩, hsize, hmax, hroom⟩ := hinv
  have hheld : (fun caller => (s'.call caller).message) = fun caller => (s.call caller).message :=
    funext fun caller => (h.call caller).message
  refine ⟨⟨free, ?_⟩, h.pool.msgSize.trans hsize, h.pool.maxMsgs.trans hmax, hroom⟩
  rw [hheld, h.pool.queue]
  exact h.pool.store hstore

theorem Resumed.stock (h : Resumed s s') : s'.stock = s.stock := by
  rw [MqState.stock, MqState.stock, h.pool.queue, h.pool.content]

theorem Resumed.inHand (h : Resumed s s') : s'.inHand caller = s.inHand caller := by
  rw [MqState.inHand, MqState.inHand, (h.call caller).reading, h.pool.content]

theorem Resumed.outHand (h : Resumed s s') : s'.outHand caller = s.outHand caller := by
  rw [MqState.outHand, MqState.outHand, (h.call caller).writing, h.pool.content]

/-! ## Items -/

end

namespace MqEvent

/-- What goes into the queue, and what comes out of it. -/
def into : MqEvent → List (List UInt8)
  | .link _ item _ => [item]
  | _ => []

def outOf : MqEvent → List (List UInt8)
  | .unlink _ item => [item]
  | _ => []

/-- What a caller reads and what it links, what it unlinks and what it writes. -/
def readBy (caller : Caller) : MqEvent → List (List UInt8)
  | .read c item => if c = caller then [item] else []
  | _ => []

def linkedBy (caller : Caller) : MqEvent → List (List UInt8)
  | .link c item _ => if c = caller then [item] else []
  | _ => []

def unlinkedBy (caller : Caller) : MqEvent → List (List UInt8)
  | .unlink c item => if c = caller then [item] else []
  | _ => []

def writtenBy (caller : Caller) : MqEvent → List (List UInt8)
  | .write c item => if c = caller then [item] else []
  | _ => []

/-- The caller the event belongs to. -/
def caller : MqEvent → Option Caller
  | .suspend _ caller => caller
  | .fail _ caller _ _ _ => caller
  | .reserve caller => caller
  | .read caller _ => caller
  | .link caller _ _ => caller
  | .unlink caller _ => caller
  | .write caller _ => caller
  | .received caller => caller
  | .tick => none

end MqEvent

/-- What a step does with the items on the queue and with those that callers have. -/
structure Moves (s : MqState) (e : MqEvent) (s' : MqState) : Prop where
  stock : s.stock ++ e.into = e.outOf ++ s'.stock
  inHand : ∀ caller, s.inHand caller ++ e.readBy caller = e.linkedBy caller ++ s'.inHand caller
  outHand : ∀ caller,
    s.outHand caller ++ e.unlinkedBy caller = e.writtenBy caller ++ s'.outHand caller

section

variable {mq mq' : MessageQueue} {s s' s'' : MqState} {side : Side} {call call' : Call}
  {caller : Caller} {msg n size max : Nat} {e : MqEvent} {w : Waiting}

theorem Moves.resumed (h : Moves s e s') (h' : Resumed s' s'') : Moves s e s'' := by
  refine ⟨?_, fun caller => ?_, fun caller => ?_⟩
  · rw [h'.stock]
    exact h.stock
  · rw [h'.inHand]
    exact h.inHand caller
  · rw [h'.outHand]
    exact h.outHand caller

theorem put_message : (fun c => ((s.put mq caller call).call c).message) =
    Function.update (fun c => (s.call c).message) caller call.message := by
  funext c
  by_cases hc : c = caller
  · subst hc
    rw [put_call_self, Function.update_self]
  · rw [put_call_of_ne hc, Function.update_of_ne hc]

theorem MqEvent.by_others (h : e.caller ≠ some caller) : e.readBy caller = [] ∧
    e.linkedBy caller = [] ∧ e.unlinkedBy caller = [] ∧ e.writtenBy caller = [] := by
  cases e with
  | read c item => exact ⟨if_neg fun hc => h (congrArg some hc), rfl, rfl, rfl⟩
  | link c item ok => exact ⟨rfl, if_neg fun hc => h (congrArg some hc), rfl, rfl⟩
  | unlink c item => exact ⟨rfl, rfl, if_neg fun hc => h (congrArg some hc), rfl⟩
  | write c item => exact ⟨rfl, rfl, rfl, if_neg fun hc => h (congrArg some hc)⟩
  | _ => exact ⟨rfl, rfl, rfl, rfl⟩

theorem Call.message_of_reading (h : call.reading = some n) : call.message = some (n, true) := by
  cases call with
  | link msg =>
    cases h
    rfl
  | _ => cases h

theorem Call.message_of_writing (h : call.writing = some n) : call.message = some (n, false) := by
  cases call with
  | copyOut msg =>
    cases h
    rfl
  | _ => cases h

/-- A step of one caller moves the items that it should when it leaves the messages of the others
alone. -/
theorem moves_update (he : e.caller = some caller)
    (hothers : ∀ c m b, c ≠ caller → (s.call c).message = some (m, b) →
      mq'.content m = s.mq.content m)
    (hstock : s.stock ++ e.into = e.outOf ++ mq'.queue.map mq'.content)
    (hin : s.inHand caller ++ e.readBy caller =
      e.linkedBy caller ++ (call.reading.map mq'.content).toList)
    (hout : s.outHand caller ++ e.unlinkedBy caller =
      e.writtenBy caller ++ (call.writing.map mq'.content).toList) :
    Moves s e (s.put mq' caller call) := by
  refine ⟨hstock, fun c => ?_, fun c => ?_⟩
  · by_cases hc : c = caller
    · subst hc
      rw [hin, MqState.inHand, put_call_self]
      rfl
    · have hne : e.caller ≠ some c := by
        rw [he]
        exact fun heq => hc (Option.some.inj heq).symm
      have hnone := MqEvent.by_others hne
      rw [hnone.1, hnone.2.1, List.append_nil, List.nil_append, MqState.inHand, MqState.inHand,
        put_call_of_ne hc]
      cases hread : (s.call c).reading with
      | none => rfl
      | some m =>
        exact congrArg (fun item => [item])
          (hothers c m true hc (Call.message_of_reading hread)).symm
  · by_cases hc : c = caller
    · subst hc
      rw [hout, MqState.outHand, put_call_self]
      rfl
    · have hne : e.caller ≠ some c := by
        rw [he]
        exact fun heq => hc (Option.some.inj heq).symm
      have hnone := MqEvent.by_others hne
      rw [hnone.2.2.1, hnone.2.2.2, List.append_nil, List.nil_append, MqState.outHand,
        MqState.outHand, put_call_of_ne hc]
      cases hwrite : (s.call c).writing with
      | none => rfl
      | some m =>
        exact congrArg (fun item => [item])
          (hothers c m false hc (Call.message_of_writing hwrite)).symm

/-- A caller without a message goes on without one, and the pool stays as it is. -/
theorem MqInv.goOn (hinv : MqInv size max s) (hpool : SamePool s.mq mq')
    (he : e.caller = some caller) (hnone : (s.call caller).message = none)
    (hcall : call.message = none) (hin : e.into = [] ∧ e.outOf = [])
    (hby : e.readBy caller = [] ∧ e.linkedBy caller = [] ∧ e.unlinkedBy caller = [] ∧
      e.writtenBy caller = []) :
    MqInv size max (s.put mq' caller call) ∧
      Moves s e (s.put mq' caller call) := by
  have hreading : ∀ {call : Call}, call.message = none → call.reading = none := by
    intro call h
    cases hr : call.reading with
    | none => rfl
    | some m => rw [Call.message_of_reading hr] at h; cases h
  have hwriting : ∀ {call : Call}, call.message = none → call.writing = none := by
    intro call h
    cases hw : call.writing with
    | none => rfl
    | some m => rw [Call.message_of_writing hw] at h; cases h
  obtain ⟨⟨free, hstore⟩, hsize, hmax, hroom⟩ := hinv
  refine ⟨⟨⟨free, ?_⟩, hpool.msgSize.trans hsize, hpool.maxMsgs.trans hmax, hroom⟩, ?_⟩
  · rw [put_message, hcall, ← hnone, Function.update_eq_self]
    change Store mq' _ mq'.queue free
    rw [hpool.queue]
    exact hpool.store hstore
  · refine moves_update he (fun _ _ _ _ _ => by rw [hpool.content]) ?_ ?_ ?_
    · rw [hin.1, hin.2, hpool.queue, hpool.content]
      exact List.append_nil _
    · rw [hby.1, hby.2.1, MqState.inHand, hreading hnone, hreading hcall]
      rfl
    · rw [hby.2.2.1, hby.2.2.2, MqState.outHand, hwriting hnone, hwriting hcall]
      rfl

/-- A caller finds a message. -/
theorem MqInv.take (hinv : MqInv size max s) (hnone : (s.call caller).message = none)
    (hfinds : s.mq.Finds msg side) :
    MqInv size max (s.put (s.mq.take msg side) caller (.taken msg side)) ∧
      Moves s (.taken caller (s.mq.content msg) side)
        (s.put (s.mq.take msg side) caller (.taken msg side)) := by
  obtain ⟨⟨free, hstore⟩, hsize, hmax, hroom⟩ := hinv
  have hreading : s.inHand caller = [] := by
    cases hcall : s.call caller with
    | link m => rw [hcall] at hnone; cases hnone
    | _ => rw [MqState.inHand, hcall]; rfl
  have hwriting : s.outHand caller = [] := by
    cases hcall : s.call caller with
    | copyOut m => rw [hcall] at hnone; cases hnone
    | _ => rw [MqState.outHand, hcall]; rfl
  cases side with
  | send =>
    have hfree : s.mq.free = some msg := hfinds
    obtain ⟨free', rfl, -⟩ := lists_some.mp (hfree ▸ hstore.frees)
    have hstore' := hstore.takeFree (c := caller)
    refine ⟨⟨⟨free', ?_⟩, hsize, hmax, hroom⟩, ?_⟩
    · rw [put_message]
      exact hstore'
    · refine moves_update rfl (fun _ _ _ _ _ => rfl) (List.append_nil _) ?_ ?_
      · rw [hreading]
        rfl
      · rw [hwriting]
        rfl
  | recv =>
    obtain ⟨-, hhead⟩ := hfinds
    obtain ⟨queue, hqueue, -⟩ := lists_some.mp (hhead ▸ hstore.lists)
    rw [hqueue] at hstore
    have hstore' := hstore.unlinkHead (c := caller)
    have hqueue' := hstore'.queue_eq
    refine ⟨⟨⟨free, ?_⟩, hsize, hmax, hroom⟩, ?_⟩
    · rw [put_message]
      change Store _ _ (s.mq.unlinkHead msg).queue free
      rw [hqueue']
      exact hstore'
    · refine moves_update rfl (fun _ _ _ _ _ => rfl) ?_ ?_ ?_
      · change s.stock ++ [] = [s.mq.content msg] ++
          (s.mq.unlinkHead msg).queue.map s.mq.content
        rw [hqueue', List.append_nil, MqState.stock, hqueue]
        rfl
      · rw [hreading]
        rfl
      · rw [hwriting]
        simp only [MqEvent.taken, MqEvent.unlinkedBy, MqEvent.writtenBy, if_true]
        rfl

theorem content_copyIn {buffer : Nat → UInt8} : (mq.copyIn msg buffer).content n =
    if n = msg then (List.range mq.msgSize).map buffer else mq.content n := by
  unfold MessageQueue.content MessageQueue.copyIn
  dsimp only
  by_cases hn : n = msg
  · subst hn
    rw [if_pos rfl, Function.update_self]
    exact List.map_congr_left fun i hi => if_pos (List.mem_range.mp hi)
  · rw [if_neg hn, Function.update_of_ne hn]

theorem MqInv.copyIn {buffer : Nat → UInt8} (hinv : MqInv size max s)
    (hcall : s.call caller = .copyIn msg) :
    MqInv size max (s.put (s.mq.copyIn msg buffer) caller (.link msg)) ∧
      Moves s (.read caller ((List.range s.mq.msgSize).map buffer))
        (s.put (s.mq.copyIn msg buffer) caller (.link msg)) := by
  obtain ⟨⟨free, hstore⟩, hsize, hmax, hroom⟩ := hinv
  have hheld : (s.call caller).message = some (msg, false) := by rw [hcall]; rfl
  have hstore' : Store (s.mq.copyIn msg buffer) _ _ _ := hstore.copyIn hheld
  have hqueue' := hstore'.queue_eq
  refine ⟨⟨⟨free, ?_⟩, hsize, hmax, hroom⟩, ?_⟩
  · rw [put_message]
    change Store _ _ (s.mq.copyIn msg buffer).queue free
    rw [hqueue']
    exact hstore'
  · refine moves_update rfl ?_ ?_ ?_ ?_
    · intro c m b hc hm
      rw [content_copyIn, if_neg (hstore.places.ne hheld hm hc)]
    · change s.stock ++ [] = _
      rw [List.append_nil, hqueue', MqState.stock]
      refine List.map_congr_left fun m hm => ?_
      rw [content_copyIn, if_neg]
      rintro rfl
      exact (hstore.places.theirs caller m false hheld).2 (List.mem_append_left _ hm)
    · simp only [MqState.inHand, hcall, Call.reading, MqEvent.readBy, MqEvent.linkedBy,
        Option.map_some, Option.map_none, content_copyIn, if_true]
      rfl
    · simp only [MqState.outHand, hcall, Call.writing, MqEvent.unlinkedBy, MqEvent.writtenBy]
      rfl

theorem MqInv.linked (hinv : MqInv size max s) (hcall : s.call caller = .link msg) :
    (s.mq.linkTail msg).2 = true ∧ MqInv size max (s.linked caller msg) ∧
      Moves s (.link caller (s.mq.content msg) (s.mq.linkTail msg).2) (s.linked caller msg) := by
  obtain ⟨⟨free, hstore⟩, hsize, hmax, hroom⟩ := hinv
  have hheld : (s.call caller).message = some (msg, true) := by rw [hcall]; rfl
  obtain ⟨hok, hstore'⟩ := hstore.linkTail (hmax ▸ hroom) hheld
  have hqueue' := hstore'.queue_eq
  have hfields : (s.mq.linkTail msg).1.msgSize = s.mq.msgSize ∧
      (s.mq.linkTail msg).1.maxMsgs = s.mq.maxMsgs ∧
      (s.mq.linkTail msg).1.content = s.mq.content := by
    unfold MessageQueue.linkTail
    dsimp only
    by_cases hentry : s.mq.entry < rtMqEntryMax
    · rw [if_pos hentry]
      exact ⟨rfl, rfl, rfl⟩
    · rw [if_neg hentry]
      exact ⟨rfl, rfl, rfl⟩
  have hinv' : MqInv size max (s.put (s.mq.linkTail msg).1 caller .idle) := by
    refine ⟨⟨free, ?_⟩, hfields.1.trans hsize, hfields.2.1.trans hmax, hroom⟩
    rw [put_message]
    change Store _ _ (s.mq.linkTail msg).1.queue free
    rw [hqueue']
    exact hstore'
  have hmoves : Moves s (.link caller (s.mq.content msg) (s.mq.linkTail msg).2)
      (s.put (s.mq.linkTail msg).1 caller .idle) := by
    refine moves_update rfl (fun _ _ _ _ _ => by rw [hfields.2.2]) ?_ ?_ ?_
    · change s.stock ++ [s.mq.content msg] = [] ++ _
      rw [hqueue', hfields.2.2, List.map_append, List.nil_append]
      rfl
    · simp only [MqState.inHand, hcall, Call.reading, MqEvent.readBy, MqEvent.linkedBy,
        Option.map_some, Option.map_none, if_true]
      rfl
    · simp only [MqState.outHand, hcall, Call.writing, MqEvent.unlinkedBy, MqEvent.writtenBy]
      rfl
  have hlinked : s.linked caller msg = (s.put (s.mq.linkTail msg).1 caller .idle).resume .recv :=
    if_pos hok
  rw [hlinked]
  exact ⟨hok, (resumed_resume _ _).inv hinv', hmoves.resumed (resumed_resume _ _)⟩

theorem MqInv.copyOut (hinv : MqInv size max s) (hcall : s.call caller = .copyOut msg) :
    MqInv size max (s.put s.mq caller (.putBack msg)) ∧
      Moves s (.write caller (s.mq.content msg)) (s.put s.mq caller (.putBack msg)) := by
  obtain ⟨⟨free, hstore⟩, hsize, hmax, hroom⟩ := hinv
  have hheld : (s.call caller).message = (Call.putBack msg).message := by rw [hcall]; rfl
  refine ⟨⟨⟨free, ?_⟩, hsize, hmax, hroom⟩, ?_⟩
  · rw [put_message, ← hheld, Function.update_eq_self]
    exact hstore
  · refine moves_update rfl (fun _ _ _ _ _ => rfl) (List.append_nil _) ?_ ?_
    · simp only [MqState.inHand, hcall, Call.reading, MqEvent.readBy, MqEvent.linkedBy]
      rfl
    · simp only [MqState.outHand, hcall, Call.writing, MqEvent.unlinkedBy, MqEvent.writtenBy,
        Option.map_some, Option.map_none, if_true]
      rfl

theorem MqInv.freed (hinv : MqInv size max s) (hcall : s.call caller = .putBack msg) :
    MqInv size max (s.freed caller msg) ∧ Moves s (.received caller) (s.freed caller msg) := by
  obtain ⟨⟨free, hstore⟩, hsize, hmax, hroom⟩ := hinv
  have hheld : (s.call caller).message = some (msg, false) := by rw [hcall]; rfl
  have hstore' := hstore.putBack hheld
  have hqueue' := hstore'.queue_eq
  have hinv' : MqInv size max (s.put (s.mq.putBack msg) caller .idle) := by
    refine ⟨⟨msg :: free, ?_⟩, hsize, hmax, hroom⟩
    rw [put_message]
    change Store _ _ (s.mq.putBack msg).queue _
    rw [hqueue']
    exact hstore'
  have hmoves : Moves s (.received caller) (s.put (s.mq.putBack msg) caller .idle) := by
    refine moves_update rfl (fun _ _ _ _ _ => rfl) ?_ ?_ ?_
    · change s.stock ++ [] = _
      rw [hqueue', List.append_nil]
      rfl
    · simp only [MqState.inHand, hcall, Call.reading, MqEvent.readBy, MqEvent.linkedBy]
      rfl
    · simp only [MqState.outHand, hcall, Call.writing, MqEvent.unlinkedBy, MqEvent.writtenBy]
      rfl
  exact ⟨(resumed_resume _ _).inv hinv', hmoves.resumed (resumed_resume _ _)⟩

theorem Pass.spec {stopped : Nat} (h : Pass s caller side w stopped e s')
    (hinv : MqInv size max s) (hnone : (s.call caller).message = none) :
    MqInv size max s' ∧ Moves s e s' := by
  cases h with
  | take hfinds => exact hinv.take hnone hfinds
  | fail hempty htime =>
    exact hinv.goOn (.refl _) rfl hnone rfl ⟨rfl, rfl⟩ ⟨rfl, rfl, rfl, rfl⟩
  | suspend hempty htime hthread =>
    exact hinv.goOn (samePool_setWaiters _) rfl hnone rfl ⟨rfl, rfl⟩ ⟨rfl, rfl, rfl, rfl⟩

theorem MqStep.spec (h : MqStep s e s') (hinv : MqInv size max s) :
    MqInv size max s' ∧ Moves s e s' := by
  cases h with
  | start hcall hms hpass => exact hpass.spec hinv (by rw [hcall]; rfl)
  | retry hcall hpass => exact hpass.spec hinv (by rw [hcall]; rfl)
  | expired hcall =>
    exact hinv.goOn (.refl _) rfl (by rw [hcall]; rfl) rfl ⟨rfl, rfl⟩ ⟨rfl, rfl, rfl, rfl⟩
  | copyIn hcall => exact hinv.copyIn hcall
  | link hcall => exact (hinv.linked hcall).2
  | copyOut hcall => exact hinv.copyOut hcall
  | putBack hcall => exact hinv.freed hcall
  | tick =>
    refine ⟨(resumed_tick s).inv hinv, Moves.resumed ?_ (resumed_tick s)⟩
    exact ⟨List.append_nil _, fun _ => List.append_nil _, fun _ => List.append_nil _⟩

end

/-! ## Times -/

/-- What a call waits for, at `now`: less than what it was given, or for ever. Interrupts never
wait. -/
structure Waiting.Ok (w : Waiting) (caller : Caller) (now : Nat) : Prop where
  thread : ∃ n, caller = .thread n
  started : w.start ≤ w.since
  since : w.since ≤ now
  ne : w.timeout ≠ 0
  lt : w.timeout < 2 ^ 31
  deadline : 0 < w.timeout → w.waitMS < 2 ^ 31 ∧ w.since + w.timeout = w.start + w.waitMS ∧
    now ≤ w.start + w.waitMS

def Call.Timed (caller : Caller) (now : Nat) : Call → Prop
  | .suspended _ w => w.Ok caller now ∧ (0 < w.timeout → now < w.start + w.waitMS)
  | .woken _ w stopped => w.Ok caller stopped ∧ stopped ≤ now
  | .expired _ w stopped => (∃ n, caller = .thread n) ∧ stopped = w.start + w.waitMS ∧
    stopped ≤ now ∧ w.waitMS < 2 ^ 31
  | _ => True

/-- A call of a thread that fails was suspended no longer than for its time, and has not given up
before. A call of an interrupt fails at once. -/
def MqEvent.InTime : MqEvent → Prop
  | .fail _ (.thread _) w stopped now => w.waitMS < 2 ^ 31 ∧ w.start ≤ stopped ∧
    stopped ≤ w.start + w.waitMS ∧ w.start + w.waitMS ≤ now
  | .fail _ (.interrupt _) w stopped now => stopped = w.start ∧ now = w.start
  | _ => True

/-- No thread that is woken is kept from running until half of the tick's range is over. -/
def MqState.Prompt (s : MqState) (_ : MqEvent) : Prop :=
  ∀ caller side w stopped, s.call caller = .woken side w stopped → s.now - w.since < 2 ^ 31

def MqState.Timed (s : MqState) : Prop := ∀ caller, (s.call caller).Timed caller s.now

section

variable {mq : MessageQueue} {s s' : MqState} {side : Side} {call : Call} {caller : Caller}
  {e : MqEvent} {w : Waiting} {now stopped : Nat}

theorem rtInt32_of_lt {n : Nat} (h : n < 2 ^ 31) : rtInt32 n = n := by
  have hmod : n % 2 ^ 32 = n := Nat.mod_eq_of_lt (by omega)
  rw [rtInt32, hmod, if_pos h]

theorem rtInt32_of_ge {n : Nat} (h : 2 ^ 31 ≤ n) (hlt : n < 2 ^ 32) : rtInt32 n = n - 2 ^ 32 := by
  have hmod : n % 2 ^ 32 = n := Nat.mod_eq_of_lt hlt
  rw [rtInt32, hmod, if_neg (by omega)]

/-- As long as the difference of the ticks fits, what is left is the difference, or nothing. -/
theorem timeLeft_eq {timeout : Int} {ticks : Nat} (hpos : 0 < timeout) (hlt : timeout < 2 ^ 31)
    (hticks : ticks < 2 ^ 31) : timeLeft timeout ticks = max (timeout - ticks) 0 := by
  have hmod : ticks % 2 ^ 32 = ticks := Nat.mod_eq_of_lt (by omega)
  rw [timeLeft, if_pos hpos, hmod]
  dsimp only
  by_cases h : timeout - ticks < 0
  · have hwrap : ((timeout - ticks) % 2 ^ 32).toNat = (2 ^ 32 + timeout - ticks).toNat := by omega
    have hneg : rtInt32 ((timeout - ticks) % 2 ^ 32).toNat < 0 := by
      rw [hwrap, rtInt32_of_ge (by omega) (by omega)]
      omega
    rw [if_pos hneg]
    omega
  · have hsame : ((timeout - ticks) % 2 ^ 32).toNat = (timeout - ticks).toNat := by omega
    have hleft : rtInt32 ((timeout - ticks) % 2 ^ 32).toNat = timeout - ticks := by
      rw [hsame, rtInt32_of_lt (by omega)]
      omega
    rw [hleft, if_neg h]
    omega

theorem MqState.Timed.put (h : s.Timed) (hcall : call.Timed caller s.now) :
    (s.put mq caller call).Timed := by
  intro c
  by_cases hc : c = caller
  · subst hc
    rw [put_call_self]
    exact hcall
  · rw [put_call_of_ne hc]
    exact h c

theorem Call.Timed.wake (h : call.Timed caller now) : (call.wake now).Timed caller now := by
  cases call with
  | suspended side w => exact ⟨h.1, Nat.le_refl _⟩
  | _ => exact h

theorem Call.Timed.tick (h : call.Timed caller now) :
    (call.tick (now + 1)).Timed caller (now + 1) := by
  cases call with
  | suspended side w =>
    obtain ⟨⟨hthread, hstart, hsince, hne, hlt, hdead⟩, hnow⟩ := h
    unfold Call.tick
    dsimp only
    split
    · rename_i hruns
      obtain ⟨hpos, hle⟩ : 0 < w.timeout ∧ (w.since : Int) + w.timeout ≤ (now + 1 : Nat) :=
        of_decide_eq_true hruns
      obtain ⟨hms, heq, -⟩ := hdead hpos
      have := hnow hpos
      exact ⟨hthread, by omega, Nat.le_refl _, hms⟩
    · rename_i hruns
      have hlater : 0 < w.timeout → ¬(w.since : Int) + w.timeout ≤ (now + 1 : Nat) :=
        fun hpos hle => hruns (decide_eq_true ⟨hpos, hle⟩)
      refine ⟨⟨hthread, hstart, by omega, hne, hlt, fun hpos => ?_⟩, fun hpos => ?_⟩
      · obtain ⟨hms, heq, -⟩ := hdead hpos
        have := hlater hpos
        exact ⟨hms, heq, by omega⟩
      · obtain ⟨hms, heq, -⟩ := hdead hpos
        have := hlater hpos
        omega
  | woken side w stopped => exact ⟨h.1, Nat.le_succ_of_le h.2⟩
  | expired side w stopped => exact ⟨h.1, h.2.1, Nat.le_succ_of_le h.2.2.1, h.2.2.2⟩
  | _ => trivial

theorem MqState.Timed.resume (h : s.Timed) : (s.resume side).Timed := by
  unfold MqState.resume
  split
  · exact h
  · exact h.put (h _).wake

/-- A pass through the loop, when the call may be suspended for what it waits for. -/
theorem Pass.timed (h : Pass s caller side w stopped e s') (htimed : s.Timed)
    (hfail : w.timeout = 0 → (MqEvent.fail side caller w stopped s.now).InTime)
    (hok : w.timeout ≠ 0 → (∃ n, caller = .thread n) →
      { w with since := s.now }.Ok caller s.now ∧ (0 < w.timeout → s.now < w.start + w.waitMS)) :
    s'.Timed ∧ e.InTime := by
  cases h with
  | take hfinds =>
    cases side with
    | send => exact ⟨htimed.put trivial, trivial⟩
    | recv => exact ⟨htimed.put trivial, trivial⟩
  | fail hempty htime =>
    exact ⟨htimed.put trivial, hfail htime⟩
  | suspend hempty htime hthread =>
    exact ⟨htimed.put (hok htime ⟨_, hthread⟩), trivial⟩

theorem MqStep.timed (h : Trans.Guarded MqStep MqState.Prompt s e s') (htimed : s.Timed) :
    s'.Timed ∧ e.InTime := by
  obtain ⟨hprompt, h⟩ := h
  cases h with
  | @start _ caller side waitMS _ hcall hms hpass =>
    refine hpass.timed htimed ?_ ?_
    · intro htime
      cases caller with
      | interrupt n => exact ⟨rfl, rfl⟩
      | thread n =>
        have hzero : rtInt32 waitMS = 0 := htime
        have hlt : waitMS < 2 ^ 31 := by
          by_contra hge
          rw [rtInt32_of_ge (by omega) hms] at hzero
          omega
        rw [rtInt32_of_lt hlt] at hzero
        have hms0 : waitMS = 0 := by omega
        subst hms0
        exact ⟨hlt, Nat.le_refl _, Nat.le_refl _, Nat.le_refl _⟩
    · rintro htime ⟨n, rfl⟩
      have hcases : (waitMS < 2 ^ 31 ∧ osTimeout (.thread n) waitMS = waitMS) ∨
          (osTimeout (.thread n) waitMS : Int) < 0 := by
        by_cases hlt : waitMS < 2 ^ 31
        · exact .inl ⟨hlt, rtInt32_of_lt hlt⟩
        · refine .inr ?_
          rw [osTimeout, rtInt32_of_ge (by omega) hms]
          omega
      dsimp only at htime ⊢
      generalize osTimeout (.thread n) waitMS = timeout at htime hcases ⊢
      refine ⟨⟨⟨n, rfl⟩, Nat.le_refl _, Nat.le_refl _, htime, ?_, fun hpos => ?_⟩, fun hpos => ?_⟩
      · dsimp only
        omega
      · dsimp only at hpos ⊢
        omega
      · omega
  | @retry _ caller side w stopped _ hcall hpass =>
    obtain ⟨⟨hthread, hstart, hsince, hne, hlt, hdead⟩, hstopped⟩ :
        w.Ok caller stopped ∧ stopped ≤ s.now := by
      have := htimed caller
      rw [hcall] at this
      exact this
    have hticks := hprompt caller side w stopped hcall
    have hleft : 0 < w.timeout →
        timeLeft w.timeout (s.now - w.since) = max (w.timeout - (s.now - w.since : Nat)) 0 :=
      fun hpos => timeLeft_eq hpos hlt hticks
    have hforever : w.timeout ≤ 0 → timeLeft w.timeout (s.now - w.since) = w.timeout :=
      fun hle => if_neg (by omega)
    refine hpass.timed htimed ?_ ?_
    · intro htime
      obtain ⟨n, rfl⟩ := hthread
      change _ ∧ _ ∧ _ ∧ _
      dsimp only at htime ⊢
      have hpos : 0 < w.timeout := by
        by_contra hle
        rw [hforever (by omega)] at htime
        exact hne htime
      obtain ⟨hms, heq, hbefore⟩ := hdead hpos
      rw [hleft hpos] at htime
      omega
    · intro htime _
      dsimp only at htime ⊢
      by_cases hpos : 0 < w.timeout
      · obtain ⟨hms, heq, hbefore⟩ := hdead hpos
        rw [hleft hpos] at htime ⊢
        refine ⟨⟨hthread, by dsimp only; omega, Nat.le_refl _, htime, by dsimp only; omega,
          fun _ => ?_⟩,
          fun _ => by omega⟩
        dsimp only
        omega
      · rw [hforever (by omega)] at htime ⊢
        refine ⟨⟨hthread, by dsimp only; omega, Nat.le_refl _, htime, hlt, fun h => absurd h hpos⟩,
          fun h => absurd h hpos⟩
  | @expired caller side w stopped hcall =>
    refine ⟨htimed.put trivial, ?_⟩
    obtain ⟨⟨n, rfl⟩, heq, hle, hms⟩ : (∃ n, caller = .thread n) ∧
        stopped = w.start + w.waitMS ∧ stopped ≤ s.now ∧ w.waitMS < 2 ^ 31 := by
      have := htimed caller
      rw [hcall] at this
      exact this
    exact ⟨hms, by omega, by omega, by omega⟩
  | copyIn hcall => exact ⟨htimed.put trivial, trivial⟩
  | @link caller msg hcall =>
    have hput : (s.put (s.mq.linkTail msg).1 caller .idle).Timed := htimed.put trivial
    refine ⟨?_, trivial⟩
    unfold MqState.linked
    dsimp only
    split
    · exact hput.resume
    · exact hput
  | copyOut hcall => exact ⟨htimed.put trivial, trivial⟩
  | @putBack caller msg hcall =>
    have hput : (s.put (s.mq.putBack msg) caller .idle).Timed := htimed.put trivial
    exact ⟨hput.resume, trivial⟩
  | tick => exact ⟨fun caller => (htimed caller).tick, trivial⟩

end

/-! ## The queue -/

/-- The transfers are of `size` bytes, and a linked item is counted. -/
def MqEvent.Sized (size : Nat) : MqEvent → Prop
  | .read _ item => item.length = size
  | .write _ item => item.length = size
  | .link _ _ ok => ok = true
  | _ => True

/-- A call waited for `waitMS` milliseconds, to within one tick: it was suspended until `stopped` and
gave up at `now`. -/
def WaitedMs (tickPerSecond : Nat) (w : Waiting) (stopped now : Nat) : Prop :=
  (stopped - w.start) * 1000 ≤ w.waitMS * tickPerSecond + 1000 ∧
    w.waitMS * tickPerSecond ≤ (now - w.start) * 1000 + 1000

/-- `waitMS` ticks are `waitMS` milliseconds, to within one tick. -/
def TicksAreMs (tickPerSecond waitMS : Nat) : Prop :=
  waitMS * 1000 ≤ waitMS * tickPerSecond + 1000 ∧ waitMS * tickPerSecond ≤ waitMS * 1000 + 1000

section

variable {s s' : MqState} {e : MqEvent} {es : List MqEvent} {size max k itemSize queueLen now : Nat}

theorem rtAlign_two_pow (size k : Nat) :
    rtAlign size (2 ^ k) = u32 (size + 2 ^ k - 1) - u32 (size + 2 ^ k - 1) % 2 ^ k := by
  rw [rtAlign, clearBits, Nat.and_two_pow_sub_one_eq_mod]

theorem msgSize_eq_iff (hpos : 1 ≤ itemSize) : rtAlign itemSize (2 ^ k) % 2 ^ 16 = itemSize ↔
    2 ^ k ∣ itemSize ∧ itemSize < 2 ^ 16 := by
  constructor
  · intro h
    have hlt : itemSize < 2 ^ 16 := by
      rw [← h]
      exact Nat.mod_lt _ (by decide)
    have hdvd : 2 ^ k ∣ rtAlign itemSize (2 ^ k) := by
      rw [rtAlign_two_pow]
      exact Nat.dvd_sub_mod _
    refine ⟨?_, hlt⟩
    rcases Nat.le_total k 16 with hk | hk
    · rw [← h]
      exact (Nat.dvd_mod_iff (Nat.pow_dvd_pow 2 hk)).mpr hdvd
    · have hzero := Nat.mod_eq_zero_of_dvd ((Nat.pow_dvd_pow 2 hk).trans hdvd)
      omega
  · rintro ⟨hdvd, hlt⟩
    have hle : 2 ^ k ≤ itemSize := Nat.le_of_dvd hpos hdvd
    have hkpos : 0 < 2 ^ k := Nat.two_pow_pos k
    have hfit : u32 (itemSize + 2 ^ k - 1) = itemSize + (2 ^ k - 1) := by
      rw [u32_of_lt (by omega)]
      omega
    have hrest : (itemSize + (2 ^ k - 1)) % 2 ^ k = 2 ^ k - 1 := by
      rw [Nat.add_mod, Nat.mod_eq_zero_of_dvd hdvd, Nat.zero_add, Nat.mod_mod,
        Nat.mod_eq_of_lt (by omega)]
    rw [rtAlign_two_pow, hfit, hrest, Nat.add_sub_cancel, Nat.mod_eq_of_lt hlt]

/-- The size of a message, and the size of the pool. -/
theorem osQueueCreate_fits (hpos : 1 ≤ itemSize) :
    ((osQueueCreate (2 ^ k) queueLen itemSize).msgSize = itemSize ∧
      (osQueueCreate (2 ^ k) queueLen itemSize).poolSize =
        (itemSize + 4) * (queueLen % 2 ^ 16)) ↔
    2 ^ k ∣ itemSize ∧ itemSize < 2 ^ 16 ∧ (itemSize + 4) * (queueLen % 2 ^ 16) < 2 ^ 32 := by
  rw [← and_assoc, ← msgSize_eq_iff hpos]
  refine and_congr_right fun hsize => ?_
  have hmsg : (osQueueCreate (2 ^ k) queueLen itemSize).msgSize = itemSize := hsize
  have hmax : (osQueueCreate (2 ^ k) queueLen itemSize).maxMsgs = queueLen % 2 ^ 16 := rfl
  rw [MessageQueue.poolSize, hmsg, hmax, u32]
  exact ⟨fun h => h ▸ Nat.mod_lt _ (by decide), Nat.mod_eq_of_lt⟩

theorem mqInv_start (alignSize queueLen itemSize now : Nat) :
    MqInv (osQueueCreate alignSize queueLen itemSize).msgSize
      (osQueueCreate alignSize queueLen itemSize).maxMsgs
      (mqStart alignSize queueLen itemSize now) := by
  obtain ⟨free, hstore⟩ := store_create (κ := Caller) alignSize itemSize queueLen .prio
  refine ⟨⟨free, ?_⟩, rfl, rfl, Nat.mod_lt _ (by decide)⟩
  have hqueue := hstore.queue_eq
  change Store _ _ (rtMqCreate alignSize itemSize queueLen .prio).queue free
  rw [hqueue]
  exact hstore

theorem MqStep.sized (h : MqStep s e s') (hinv : MqInv size max s) : e.Sized size := by
  have hlen : ∀ n, (s.mq.content n).length = size := by
    intro n
    rw [MessageQueue.content, List.length_map, List.length_range, hinv.msgSize]
  have hpass : ∀ {caller side w stopped}, Pass s caller side w stopped e s' → e.Sized size := by
    intro caller side w stopped hp
    cases hp with
    | take hfinds => cases side <;> trivial
    | _ => trivial
  cases h with
  | start hcall hms hp => exact hpass hp
  | retry hcall hp => exact hpass hp
  | copyIn hcall =>
    change (List.map _ _).length = size
    rw [List.length_map, List.length_range, hinv.msgSize]
  | link hcall => exact (hinv.linked hcall).1
  | copyOut hcall => exact hlen _
  | _ => trivial

/-- The messages of the queue are so many as its field says. -/
theorem MqInv.stock_length (hinv : MqInv size max s) :
    s.stock.length = s.mq.entry ∧ s.mq.entry ≤ max := by
  obtain ⟨⟨free, hstore⟩, -, hmax, -⟩ := hinv
  refine ⟨?_, hmax ▸ hstore.entry_le⟩
  rw [MqState.stock, List.length_map, hstore.entry]

/-- In any run items come out as they went in, and callers hand on what they read and take. -/
theorem queue_items (h : Trans.Run MqStep (mqStart (2 ^ k) queueLen itemSize now) es s) :
    es.flatMap MqEvent.into = es.flatMap MqEvent.outOf ++ s.stock ∧
    (∀ caller, es.flatMap (MqEvent.readBy caller) =
      es.flatMap (MqEvent.linkedBy caller) ++ s.inHand caller) ∧
    (∀ caller, es.flatMap (MqEvent.unlinkedBy caller) =
      es.flatMap (MqEvent.writtenBy caller) ++ s.outHand caller) ∧
    s.stock.length ≤ queueLen ∧
    ∀ e ∈ es, e.Sized (osQueueCreate (2 ^ k) queueLen itemSize).msgSize := by
  have hinv := mqInv_start (2 ^ k) queueLen itemSize now
  have hmax : (osQueueCreate (2 ^ k) queueLen itemSize).maxMsgs ≤ queueLen :=
    Nat.mod_le _ _
  have hstock : (mqStart (2 ^ k) queueLen itemSize now).stock ++ es.flatMap MqEvent.into =
      es.flatMap MqEvent.outOf ++ s.stock :=
    h.flow hinv fun _ _ _ hi hs => ⟨(hs.spec hi).1, (hs.spec hi).2.stock⟩
  have hin : ∀ caller, (mqStart (2 ^ k) queueLen itemSize now).inHand caller ++
      es.flatMap (MqEvent.readBy caller) =
        es.flatMap (MqEvent.linkedBy caller) ++ s.inHand caller := fun caller =>
    h.flow hinv fun _ _ _ hi hs => ⟨(hs.spec hi).1, (hs.spec hi).2.inHand caller⟩
  have hout : ∀ caller, (mqStart (2 ^ k) queueLen itemSize now).outHand caller ++
      es.flatMap (MqEvent.unlinkedBy caller) =
        es.flatMap (MqEvent.writtenBy caller) ++ s.outHand caller := fun caller =>
    h.flow hinv fun _ _ _ hi hs => ⟨(hs.spec hi).1, (hs.spec hi).2.outHand caller⟩
  have hempty : (mqStart (2 ^ k) queueLen itemSize now).stock = [] := by
    obtain ⟨free, hstore⟩ := store_create (κ := Caller) (2 ^ k) itemSize queueLen .prio
    exact List.map_eq_nil_iff.mpr hstore.queue_eq
  rw [hempty, List.nil_append] at hstock
  refine ⟨hstock, hin, hout, ?_, ?_⟩
  · have hend := (h.invariant hinv fun _ _ _ hi hs => (hs.spec hi).1).stock_length
    exact hend.1.le.trans (hend.2.trans hmax)
  · exact (h.labels hinv fun _ _ _ hi hs => ⟨(hs.spec hi).1, hs.sized hi⟩).2

theorem InTime.waited {side : Side} {n tickPerSecond stopped stop : Nat} {w : Waiting}
    (h : (MqEvent.fail side (.thread n) w stopped stop).InTime) :
    (TicksAreMs tickPerSecond w.waitMS → WaitedMs tickPerSecond w stopped stop) ∧
      (stopped = stop → WaitedMs tickPerSecond w stopped stop →
        TicksAreMs tickPerSecond w.waitMS) := by
  obtain ⟨hms, hstart, hle, hge⟩ := h
  have hlow : (stopped - w.start) * 1000 ≤ w.waitMS * 1000 :=
    Nat.mul_le_mul_right 1000 (Nat.sub_le_iff_le_add'.mpr hle)
  have hhigh : w.waitMS * 1000 ≤ (stop - w.start) * 1000 :=
    Nat.mul_le_mul_right 1000 (Nat.le_sub_of_add_le' hge)
  constructor
  · rintro ⟨h₁, h₂⟩
    exact ⟨hlow.trans h₁, h₂.trans (Nat.add_le_add_right hhigh 1000)⟩
  · rintro rfl ⟨h₁, h₂⟩
    have heq : stopped - w.start = w.waitMS := by omega
    rw [heq] at h₁ h₂
    exact ⟨h₁, h₂⟩

/-- Items come out as they went in, at most `queueLen` of them wait, and transfers have the size of
a message. That is the size of an item, in a pool with room for all, exactly when the alignment
divides it and it has 16 bits and the size of the pool 32.

A thread whose call fails has waited for as many ticks as it was given milliseconds, an interrupt
not at all. -/
theorem os_queue_exact (hitem : 1 ≤ itemSize) (tickPerSecond : Nat) :
    (((osQueueCreate (2 ^ k) queueLen itemSize).msgSize = itemSize ∧
        (osQueueCreate (2 ^ k) queueLen itemSize).poolSize =
          (itemSize + 4) * (queueLen % 2 ^ 16)) ↔
      2 ^ k ∣ itemSize ∧ itemSize < 2 ^ 16 ∧ (itemSize + 4) * (queueLen % 2 ^ 16) < 2 ^ 32) ∧
    (∀ es s, Trans.Run MqStep (mqStart (2 ^ k) queueLen itemSize now) es s →
      es.flatMap MqEvent.into = es.flatMap MqEvent.outOf ++ s.stock ∧
      (∀ caller, es.flatMap (MqEvent.readBy caller) =
        es.flatMap (MqEvent.linkedBy caller) ++ s.inHand caller) ∧
      (∀ caller, es.flatMap (MqEvent.unlinkedBy caller) =
        es.flatMap (MqEvent.writtenBy caller) ++ s.outHand caller) ∧
      s.stock.length ≤ queueLen ∧
      ∀ e ∈ es, e.Sized (osQueueCreate (2 ^ k) queueLen itemSize).msgSize) ∧
    ∀ es s, Trans.Run (Trans.Guarded MqStep MqState.Prompt)
        (mqStart (2 ^ k) queueLen itemSize now) es s →
      (∀ side n w stopped stop, .fail side (.thread n) w stopped stop ∈ es →
        w.waitMS < 2 ^ 31 ∧
        (TicksAreMs tickPerSecond w.waitMS → WaitedMs tickPerSecond w stopped stop) ∧
        (stopped = stop → WaitedMs tickPerSecond w stopped stop →
          TicksAreMs tickPerSecond w.waitMS)) ∧
      ∀ side n w stopped stop, .fail side (.interrupt n) w stopped stop ∈ es →
        (WaitedMs tickPerSecond w stopped stop ↔ w.waitMS * tickPerSecond ≤ 1000) := by
  refine ⟨osQueueCreate_fits hitem, fun es s h => queue_items h, fun es s h => ?_⟩
  have hstart : (mqStart (2 ^ k) queueLen itemSize now).Timed := fun _ => trivial
  obtain ⟨-, htimes⟩ := h.labels (P := MqEvent.InTime) hstart fun _ _ _ hi hs =>
    MqStep.timed hs hi
  constructor
  · intro side n w stopped stop hmem
    exact ⟨(htimes _ hmem).1, InTime.waited (htimes _ hmem)⟩
  · intro side n w stopped stop hmem
    obtain ⟨rfl, rfl⟩ : stopped = w.start ∧ stop = w.start := htimes _ hmem
    rw [WaitedMs, Nat.sub_self, Nat.zero_mul, Nat.zero_add]
    exact and_iff_right (Nat.zero_le _)

end

theorem prompt_of_now {s : MqState} (h : s.now < 2 ^ 31) (e : MqEvent) : s.Prompt e :=
  fun _ _ _ _ _ => Nat.lt_of_le_of_lt (Nat.sub_le ..) h

/-- An aligned queue of one item on a port with a tick a millisecond. A receive is suspended, takes
the item of a send that comes a tick later, and a second receive gives up after two ticks. -/
theorem os_queue_exact_aligned : ∃ es s, Trans.Run (Trans.Guarded MqStep MqState.Prompt)
    (mqStart (2 ^ 2) 1 8 0) es s ∧ (osQueueCreate (2 ^ 2) 1 8).msgSize = 8 ∧
      es.flatMap MqEvent.into = es.flatMap MqEvent.outOf ++ s.stock ∧
      es.flatMap MqEvent.outOf = [[1, 2, 3, 4, 5, 6, 7, 8]] ∧
      .fail .recv (.thread 1) ⟨1, 2, 2, 1⟩ 3 3 ∈ es ∧ WaitedMs 1000 ⟨1, 2, 2, 1⟩ 3 3 := by
  have hrun : ∃ s, Trans.Run (Trans.Guarded MqStep MqState.Prompt) (mqStart (2 ^ 2) 1 8 0)
      [.suspend .recv (.thread 1), .tick, .reserve (.thread 2),
        .read (.thread 2) ((List.range 8).map fun i => .ofNat (i + 1)),
        .link (.thread 2) [1, 2, 3, 4, 5, 6, 7, 8] true,
        .unlink (.thread 1) [1, 2, 3, 4, 5, 6, 7, 8], .write (.thread 1) [1, 2, 3, 4, 5, 6, 7, 8],
        .received (.thread 1), .suspend .recv (.thread 1), .tick, .tick,
        .fail .recv (.thread 1) ⟨1, 2, 2, 1⟩ 3 3] s :=
    ⟨_, .cons ⟨prompt_of_now (by decide) _, .start rfl (by decide)
        (show Pass _ _ .recv ⟨0, 5, 5, 0⟩ 0 _ _ from
          @Pass.suspend _ _ _ _ _ 1 7 (by rfl) (by decide) rfl)⟩
      (.cons ⟨prompt_of_now (by decide) _, .tick⟩
      (.cons ⟨prompt_of_now (by decide) _, .start rfl (by decide)
        (show Pass _ (.thread 2) .send ⟨1, 0, 0, 1⟩ 1 _ _ from @Pass.take _ _ _ _ _ 0 rfl)⟩
      (.cons ⟨prompt_of_now (by decide) _, @MqStep.copyIn _ _ 0 _ rfl⟩
      (.cons ⟨prompt_of_now (by decide) _, @MqStep.link _ _ 0 rfl⟩
      (.cons ⟨prompt_of_now (by decide) _, @MqStep.retry _ _ (.thread 1) .recv ⟨0, 5, 5, 0⟩ 1 _ rfl
        (@Pass.take _ _ .recv _ _ 0 ⟨by decide, rfl⟩)⟩
      (.cons ⟨prompt_of_now (by decide) _, @MqStep.copyOut _ _ 0 rfl⟩
      (.cons ⟨prompt_of_now (by decide) _, @MqStep.putBack _ _ 0 rfl⟩
      (.cons ⟨prompt_of_now (by decide) _, .start rfl (by decide)
        (show Pass _ _ .recv ⟨1, 2, 2, 1⟩ 1 _ _ from
          @Pass.suspend _ _ _ _ _ 1 7 (by rfl) (by decide) rfl)⟩
      (.cons ⟨prompt_of_now (by decide) _, .tick⟩
      (.cons ⟨prompt_of_now (by decide) _, .tick⟩
      (.cons ⟨prompt_of_now (by decide) _, .expired rfl⟩ (.nil _))))))))))))⟩
  obtain ⟨s, hrun⟩ := hrun
  refine ⟨_, s, hrun, ?_, ?_, rfl, by simp, ?_⟩
  · exact ((@os_queue_exact 2 8 1 0 (by decide) 1000).1.mpr (by decide)).1
  · exact ((os_queue_exact (by decide) 1000).2.1 _ _ (hrun.mono fun _ _ _ h => h.2)).1
  · exact (((os_queue_exact (by decide) 1000).2.2 _ _ hrun).1 .recv 1 _ 3 3 (by simp)).2.1
      ⟨by decide, by decide⟩

/-- A send on a queue of items of five bytes reads eight. With a tick of ten milliseconds a receive
that was given two milliseconds waits for twenty. -/
theorem queue_reads_too_much : (∃ s, Trans.Run MqStep (mqStart (2 ^ 2) 1 5 0)
    [.reserve (.thread 1), .read (.thread 1) [1, 2, 3, 4, 5, 6, 7, 8]] s) ∧
    (∃ s, Trans.Run MqStep (mqStart (2 ^ 2) 1 5 0) [.suspend .recv (.thread 1), .tick, .tick,
      .fail .recv (.thread 1) ⟨0, 2, 2, 0⟩ 2 2] s) ∧ ¬WaitedMs 100 ⟨0, 2, 2, 0⟩ 2 2 := by
  refine ⟨?_, ?_, ?_⟩
  · have hpass : Pass (mqStart (2 ^ 2) 1 5 0) (.thread 1) .send ⟨0, 0, 0, 0⟩ 0 _
        ((mqStart (2 ^ 2) 1 5 0).put ((osQueueCreate (2 ^ 2) 1 5).takeFree 0) (.thread 1)
          (.copyIn 0)) := .take rfl
    have hread : MqStep ((mqStart (2 ^ 2) 1 5 0).put ((osQueueCreate (2 ^ 2) 1 5).takeFree 0)
        (.thread 1) (.copyIn 0)) (.read (.thread 1) ((List.range 8).map fun i => .ofNat (i + 1))) _ :=
      .copyIn rfl
    exact ⟨_, .cons (.start rfl (by decide) hpass) (.cons hread (.nil _))⟩
  · have hpass : Pass (mqStart (2 ^ 2) 1 5 0) (.thread 1) .recv ⟨0, 2, 2, 0⟩ 0 _
        ((mqStart (2 ^ 2) 1 5 0).put ((osQueueCreate (2 ^ 2) 1 5).setWaiters [⟨1, 0, true⟩] .recv)
          (.thread 1) (.suspended .recv ⟨0, 2, 2, 0⟩)) := .suspend rfl (by decide) rfl
    have hsuspend : MqStep _ (.suspend .recv (.thread 1)) _ := .start rfl (by decide) hpass
    exact ⟨_, .cons hsuspend (.cons MqStep.tick (.cons MqStep.tick
      (.cons (MqStep.expired rfl) (.nil _))))⟩
  · rw [WaitedMs]
    decide

end Rtt
end XR806

import XR806.Word

/-!
# XR806.Rtt.Ipc

What the IPC objects of the RT-Thread kernel share (`ipc.c`, `clock.c`): the list of the threads
that are suspended on an object, and the ticks of a waiting time.
-/

namespace XR806
namespace Rtt

/-! ## Ticks -/

/-- `rt_int32_t` of an unsigned value. -/
def rtInt32 (n : Nat) : Int :=
  if n % 2 ^ 32 < 2 ^ 31 then (n % 2 ^ 32 : Nat) else (n % 2 ^ 32 : Nat) - 2 ^ 32

/-- `RT_WAITING_FOREVER`. -/
def rtWaitingForever : Nat := 2 ^ 32 - 1

/-- `rt_tick_from_millisecond`; the argument is an `rt_int32_t`. -/
def rtTickFromMillisecond (tickPerSecond ms : Nat) : Nat :=
  if rtInt32 ms < 0 then rtWaitingForever
  else u32 (tickPerSecond * (ms / 1000) + (tickPerSecond * (ms % 1000) + 999) / 1000)

/-! ## Suspended threads -/

/-- A thread, or one run of an interrupt handler. -/
inductive Caller where
  | thread (n : Nat)
  | interrupt (n : Nat)
  deriving DecidableEq

/-- `RT_IPC_FLAG_FIFO` and `RT_IPC_FLAG_PRIO`. -/
inductive IpcFlag where
  | fifo
  | prio
  deriving DecidableEq

/-- A suspended thread, and whether its timer runs. -/
structure Waiter where
  thread : Nat
  currentPriority : Nat
  timed : Bool
  deriving DecidableEq

/-- Before the first thread of a larger number, which is a lower priority. -/
def insertByPriority (thread : Waiter) : List Waiter → List Waiter
  | [] => [thread]
  | sthread :: rest =>
    if thread.currentPriority < sthread.currentPriority then thread :: sthread :: rest
    else sthread :: insertByPriority thread rest

def rtIpcListSuspend (list : List Waiter) (thread : Waiter) : IpcFlag → List Waiter
  | .fifo => list ++ [thread]
  | .prio => insertByPriority thread list

theorem insertByPriority_perm (w : Waiter) (list : List Waiter) :
    (insertByPriority w list).Perm (w :: list) := by
  induction list with
  | nil => exact .refl _
  | cons sthread rest ih =>
    unfold insertByPriority
    split
    · exact .refl _
    · exact (ih.cons sthread).trans (.swap w sthread rest)

theorem rtIpcListSuspend_perm (list : List Waiter) (w : Waiter) (flag : IpcFlag) :
    (rtIpcListSuspend list w flag).Perm (w :: list) := by
  cases flag with
  | fifo => exact List.perm_append_singleton w list
  | prio => exact insertByPriority_perm w list

end Rtt
end XR806

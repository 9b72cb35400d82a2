import Mathlib.Data.List.Nodup
import Mathlib.Logic.Function.Basic
import XR806.Rtt.Ipc
import XR806.Trans.Run

/-!
# XR806.Rtt.Event

The event sets of the RT-Thread kernel (`rt_event_send`, `rt_event_recv` of `ipc.c`): any number of
threads that receive, each with the events it waits for, all of them or any, and clearing what it
receives or not.

* `event_wakes`: in every state of a run no thread sleeps whose events are set, and a thread only
  receives events it asked for, which were set; all of them when it asked for all.
* `event_once`: an event is cleared at most as often as it is sent, so that one send serves at most
  one thread that clears what it receives.
-/

namespace XR806
namespace Rtt

/-! ## The kernel's event sets -/

/-- `RT_EVENT_FLAG_AND`, `RT_EVENT_FLAG_OR` and `RT_EVENT_FLAG_CLEAR`. -/
structure EventOption where
  and : Bool
  or : Bool
  clear : Bool
  deriving DecidableEq

/-- `struct rt_event`, and `event_set` and `event_info` of each thread. -/
structure Event where
  set : BitVec 32
  suspendThread : List Waiter
  flag : IpcFlag
  eventSet : Nat → BitVec 32
  eventInfo : Nat → EventOption

/-- A thread and the events it receives. -/
structure Received where
  thread : Nat
  option : EventOption
  wanted : BitVec 32
  got : BitVec 32
  deriving DecidableEq

inductive EventResult where
  | error
  | timeout
  | suspended
  | invalid
  /-- `RT_EOK`, and who has received. -/
  | ok (received : List Received)
  deriving DecidableEq

/-- `rt_event_create`. -/
def rtEventCreate (flag : IpcFlag) : Event :=
  ⟨0, [], flag, fun _ => 0, fun _ => ⟨false, false, false⟩⟩

/-- The events that a thread receives out of the set, if its condition is met. -/
def eventStatus (option : EventOption) (wanted set : BitVec 32) : Option (BitVec 32) :=
  if option.and then if set &&& wanted = wanted then some (set &&& wanted) else none
  else if option.or then if set &&& wanted ≠ 0 then some (set &&& wanted) else none
  else none

/-- `rt_event_recv` of the thread `t`, up to where it is suspended. -/
def rtEventRecv (event : Event) (t currentPriority : Nat) (set : BitVec 32) (option : EventOption)
    (timeout : Int) : Event × EventResult :=
  if set = 0 then (event, .error)
  else
    match eventStatus option set event.set with
    | some got =>
      ({ event with
          set := if option.clear then event.set &&& ~~~set else event.set
          eventSet := Function.update event.eventSet t got
          eventInfo := Function.update event.eventInfo t option },
        .ok [⟨t, option, set, got⟩])
    | none =>
      if timeout = 0 then (event, .timeout)
      else
        ({ event with
            suspendThread :=
              rtIpcListSuspend event.suspendThread ⟨t, currentPriority, timeout > 0⟩ event.flag
            eventSet := Function.update event.eventSet t set
            eventInfo := Function.update event.eventInfo t option },
          .suspended)

/-- The loop of `rt_event_send` over the suspended threads: the event with the threads that stay
suspended, those it resumes, and whether it comes to the end. -/
def rtEventScan (event : Event) : List Waiter → Event × List Received × Bool
  | [] => ({ event with suspendThread := [] }, [], true)
  | w :: rest =>
    let option := event.eventInfo w.thread
    let wanted := event.eventSet w.thread
    if option.and || option.or then
      match eventStatus option wanted event.set with
      | some got =>
        let event := { event with
          set := if option.clear then event.set &&& ~~~got else event.set
          eventSet := Function.update event.eventSet w.thread got }
        let (event, received, valid) := rtEventScan event rest
        (event, ⟨w.thread, option, wanted, got⟩ :: received, valid)
      | none =>
        let (event, received, valid) := rtEventScan event rest
        ({ event with suspendThread := w :: event.suspendThread }, received, valid)
    else ({ event with suspendThread := w :: rest }, [], false)

/-- `rt_event_send`. -/
def rtEventSend (event : Event) (set : BitVec 32) : Event × EventResult :=
  if set = 0 then (event, .error)
  else
    let event := { event with set := event.set ||| set }
    match rtEventScan event event.suspendThread with
    | (event, received, true) => (event, .ok received)
    | (event, _, false) => (event, .invalid)

/-- `RT_IPC_CMD_RESET` of `rt_event_control`. -/
def rtEventReset (event : Event) : Event := { event with suspendThread := [], set := 0 }

/-- `rt_thread_timeout` of a thread that is suspended on the event. -/
def rtEventTimeout (event : Event) (t : Nat) : Event :=
  { event with suspendThread := event.suspendThread.filter (·.thread ≠ t) }

/-! ## Runs -/

def Event.threads (event : Event) : List Nat := event.suspendThread.map Waiter.thread

inductive EventCall where
  | recv (t : Nat) (set : BitVec 32) (option : EventOption) (result : EventResult)
  | send (set : BitVec 32) (result : EventResult)
  | reset
  /-- The timer of a suspended thread runs out. -/
  | timeout (t : Nat)

/-- A thread that receives runs, and asks for all of its events or for any of them. -/
inductive EventStep : Event → EventCall → Event → Prop where
  | recv {event : Event} {t currentPriority : Nat} {set : BitVec 32} {option : EventOption}
    {timeout : Int} (hruns : t ∉ event.threads) (hoption : option.and || option.or) :
    EventStep event
      (.recv t set option (rtEventRecv event t currentPriority set option timeout).2)
      (rtEventRecv event t currentPriority set option timeout).1
  | send {event : Event} {set : BitVec 32} :
    EventStep event (.send set (rtEventSend event set).2) (rtEventSend event set).1
  | reset {event : Event} : EventStep event .reset (rtEventReset event)
  | timeout {event : Event} {w : Waiter} (hw : w ∈ event.suspendThread) (htimed : w.timed) :
    EventStep event (.timeout w.thread) (rtEventTimeout event w.thread)

def EventResult.received : EventResult → List Received
  | .ok received => received
  | _ => []

def EventCall.received : EventCall → List Received
  | .recv _ _ _ result => result.received
  | .send _ result => result.received
  | _ => []

/-- The events that are sent. -/
def EventCall.sent : EventCall → BitVec 32
  | .send set _ => set
  | _ => 0

/-- The thread clears the bit. -/
def Received.clears (b : Nat) (r : Received) : Bool := r.option.clear && r.got.getLsbD b

/-- The threads that sleep have asked for events, which are not set. -/
structure Event.Inv (event : Event) : Prop where
  once : event.threads.Nodup
  wanted : ∀ t ∈ event.threads, event.eventSet t ≠ 0
  option : ∀ t ∈ event.threads, (event.eventInfo t).and || (event.eventInfo t).or
  sleeps : ∀ t ∈ event.threads,
    eventStatus (event.eventInfo t) (event.eventSet t) event.set = none

/-- What a thread may receive out of a set. -/
structure Received.Good (set : BitVec 32) (r : Received) : Prop where
  wanted : ∀ b, r.got.getLsbD b → r.wanted.getLsbD b
  sent : ∀ b, r.got.getLsbD b → set.getLsbD b
  some : r.got ≠ 0
  all : r.option.and → r.got = r.wanted

section

variable {event event' : Event} {e : EventCall} {es : List EventCall} {t b : Nat}
  {option : EventOption} {set set' wanted got : BitVec 32} {list : List Waiter}

theorem eventStatus_eq_some (h : eventStatus option wanted set = some got) :
    got = set &&& wanted ∧ (option.and → got = wanted) ∧ (wanted ≠ 0 → got ≠ 0) := by
  unfold eventStatus at h
  split at h
  · split at h
    · rename_i hall
      obtain rfl := Option.some.inj h
      exact ⟨rfl, fun _ => hall, fun hne => by rwa [hall]⟩
    · cases h
  · split at h
    · split at h
      · rename_i hand hor hne
        obtain rfl := Option.some.inj h
        exact ⟨rfl, fun hyes => absurd hyes hand, fun _ => hne⟩
      · cases h
    · cases h

/-- With fewer events set a condition that was not met is not met. -/
theorem eventStatus_none_mono (h : eventStatus option wanted set = none)
    (hsub : ∀ b, set'.getLsbD b → set.getLsbD b) : eventStatus option wanted set' = none := by
  unfold eventStatus at h ⊢
  split
  · rename_i hand
    rw [if_pos hand] at h
    split at h
    · cases h
    · rename_i hnot
      rw [if_neg]
      intro hall
      apply hnot
      ext i hi
      have hbit := congrArg (·.getLsbD i) hall
      have hi' := hsub i
      simp only [BitVec.getLsbD_and] at hbit
      simp only [← BitVec.getLsbD_eq_getElem, BitVec.getLsbD_and]
      cases hw : wanted.getLsbD i with
      | false => simp
      | true => simp_all
  · rename_i hand
    rw [if_neg hand] at h
    split
    · rename_i hor
      rw [if_pos hor] at h
      split at h
      · cases h
      · rename_i hzero
        rw [if_neg]
        rw [not_not] at hzero ⊢
        ext i hi
        have hbit := congrArg (·.getLsbD i) hzero
        have hi' := hsub i
        simp only [BitVec.getLsbD_and] at hbit
        simp only [← BitVec.getLsbD_eq_getElem, BitVec.getLsbD_and]
        cases hs : set'.getLsbD i with
        | false => simp
        | true => simp_all
    · rfl

theorem Received.good (h : eventStatus option wanted set = some got) (hne : wanted ≠ 0) :
    Received.Good set ⟨t, option, wanted, got⟩ := by
  obtain ⟨hgot, hall, hsome⟩ := eventStatus_eq_some h
  refine ⟨fun b hb => ?_, fun b hb => ?_, hsome hne, hall⟩
  · rw [hgot, BitVec.getLsbD_and, Bool.and_eq_true] at hb
    exact hb.2
  · rw [hgot, BitVec.getLsbD_and, Bool.and_eq_true] at hb
    exact hb.1

/-- What a thread clears is no longer set, and nothing else goes; `x` are the bits it clears. -/
theorem clears_add (t : Nat) (option : EventOption) (set wanted got x : BitVec 32) (hgot : ∀ b, got.getLsbD b → set.getLsbD b)
    (hx : ∀ b, set.getLsbD b → x.getLsbD b = got.getLsbD b) :
    (Received.clears b ⟨t, option, wanted, got⟩).toNat +
      ((if option.clear then set &&& ~~~x else set).getLsbD b).toNat = (set.getLsbD b).toNat := by
  have hgot' := hgot b
  have hx' := hx b
  cases hclear : option.clear with
  | false => simp [Received.clears, hclear]
  | true =>
    cases hs : set.getLsbD b with
    | false =>
      have hno : got.getLsbD b = false := by
        rw [hs] at hgot'
        simpa using hgot'
      simp [Received.clears, hclear, hs, hno]
    | true =>
      have hlt := BitVec.lt_of_getLsbD hs
      simp only [Received.clears, hclear, if_true, BitVec.getLsbD_and, BitVec.getLsbD_not, hs, hlt,
        hx' hs]
      cases got.getLsbD b <;> rfl

/-- The loop of `rt_event_send`: it comes to the end, and leaves the threads whose condition the
events that are left do not meet. -/
theorem rtEventScan_spec (honce : (list.map Waiter.thread).Nodup)
    (hwanted : ∀ w ∈ list, event.eventSet w.thread ≠ 0)
    (hoption : ∀ w ∈ list,
      (event.eventInfo w.thread).and || (event.eventInfo w.thread).or) :
    ∃ event' received, rtEventScan event list = (event', received, true) ∧
      event'.eventInfo = event.eventInfo ∧ event'.suspendThread.Sublist list ∧
      (∀ t, t ∉ list.map Waiter.thread → event'.eventSet t = event.eventSet t) ∧
      (∀ w ∈ event'.suspendThread, event'.eventSet w.thread = event.eventSet w.thread ∧
        eventStatus (event.eventInfo w.thread) (event.eventSet w.thread) event'.set = none) ∧
      (∀ b, received.countP (Received.clears b) + (event'.set.getLsbD b).toNat =
        (event.set.getLsbD b).toNat) ∧
      ∀ r ∈ received, r.Good event.set := by
  induction list generalizing event with
  | nil =>
    exact ⟨_, [], rfl, rfl, .refl _, fun _ _ => rfl, nofun, fun _ => Nat.zero_add _, nofun⟩
  | cons w rest ih =>
    rw [List.map_cons, List.nodup_cons] at honce
    obtain ⟨hw, honce⟩ := honce
    have hne := hwanted w (.head _)
    have hrest : ∀ v ∈ rest, v.thread ≠ w.thread := by
      rintro v hv heq
      exact hw (heq ▸ List.mem_map_of_mem hv)
    unfold rtEventScan
    simp only [hoption w (.head _), if_true]
    cases hstatus : eventStatus (event.eventInfo w.thread) (event.eventSet w.thread) event.set with
    | some got =>
      obtain ⟨hgot, -, -⟩ := eventStatus_eq_some hstatus
      have hgood := Received.good (t := w.thread) hstatus hne
      have hcount := fun b => clears_add (b := b) w.thread (event.eventInfo w.thread) event.set
        (event.eventSet w.thread) got got hgood.sent fun _ _ => rfl
      obtain ⟨event', received, hscan, hinfo, hsub, hframe, hsleeps, hclears, hall⟩ :=
        @ih { event with
          set := if (event.eventInfo w.thread).clear then event.set &&& ~~~got else event.set
          eventSet := Function.update event.eventSet w.thread got } honce
          (fun v hv => by
            dsimp only
            rw [Function.update_of_ne (hrest v hv)]
            exact hwanted v (.tail _ hv))
          (fun v hv => hoption v (.tail _ hv))
      simp only [hscan]
      refine ⟨_, _, rfl, hinfo, hsub.cons w, fun t ht => ?_, fun v hv => ?_, fun b => ?_, ?_⟩
      · rw [List.map_cons, List.mem_cons, not_or] at ht
        rw [hframe t ht.2]
        exact Function.update_of_ne ht.1 ..
      · obtain ⟨hset, hnone⟩ := hsleeps v hv
        dsimp only at hset hnone
        rw [Function.update_of_ne (hrest v (hsub.subset hv))] at hset hnone
        exact ⟨hset, hnone⟩
      · have hone := hcount b
        have hmore := hclears b
        have hbool : ∀ c : Bool, (if c = true then 1 else 0) = c.toNat := fun c => by cases c <;> rfl
        rw [List.countP_cons, hbool]
        dsimp only at hmore
        omega
      · intro r hr
        obtain rfl | hr := List.mem_cons.mp hr
        · exact hgood
        · have hthis := hall r hr
          refine ⟨hthis.wanted, fun b hb => ?_, hthis.some, hthis.all⟩
          have hset := hthis.sent b hb
          have hone := hcount b
          dsimp only at hset
          rw [hset] at hone
          cases hs : event.set.getLsbD b with
          | true => rfl
          | false =>
            rw [hs] at hone
            simp at hone
    | none =>
      obtain ⟨event', received, hscan, hinfo, hsub, hframe, hsleeps, hclears, hall⟩ := @ih event honce
        (fun v hv => hwanted v (.tail _ hv)) (fun v hv => hoption v (.tail _ hv))
      simp only [hscan]
      refine ⟨_, _, rfl, hinfo, hsub.cons_cons w, fun t ht => ?_, fun v hv => ?_, hclears, hall⟩
      · rw [List.map_cons, List.mem_cons, not_or] at ht
        exact hframe t ht.2
      · obtain rfl | hv := List.mem_cons.mp hv
        · refine ⟨hframe v.thread hw, eventStatus_none_mono hstatus fun b hb => ?_⟩
          have hcount := hclears b
          rw [hb] at hcount
          cases hs : event.set.getLsbD b with
          | true => rfl
          | false =>
            rw [hs] at hcount
            simp at hcount
        · exact hsleeps v hv

/-- One call: what it clears was set before it or is sent by it. -/
def EventCall.Keeps (event : Event) (e : EventCall) (event' : Event) : Prop :=
  (∀ b, e.received.countP (Received.clears b) + (event'.set.getLsbD b).toNat ≤
    (event.set.getLsbD b).toNat + (e.sent.getLsbD b).toNat) ∧
  ∀ r ∈ e.received, r.Good (event.set ||| e.sent)

theorem rtEventRecv_cases (event : Event) (t currentPriority : Nat) (set : BitVec 32)
    (option : EventOption) (timeout : Int) :
    (rtEventRecv event t currentPriority set option timeout).1 = event ∧
      (rtEventRecv event t currentPriority set option timeout).2.received = [] ∨
    (∃ got, set ≠ 0 ∧ eventStatus option set event.set = some got ∧
      rtEventRecv event t currentPriority set option timeout =
        ({ event with
            set := if option.clear then event.set &&& ~~~set else event.set
            eventSet := Function.update event.eventSet t got
            eventInfo := Function.update event.eventInfo t option },
          .ok [⟨t, option, set, got⟩])) ∨
    (set ≠ 0 ∧ eventStatus option set event.set = none ∧ ∃ timed,
      rtEventRecv event t currentPriority set option timeout =
        ({ event with
            suspendThread :=
              rtIpcListSuspend event.suspendThread ⟨t, currentPriority, timed⟩ event.flag
            eventSet := Function.update event.eventSet t set
            eventInfo := Function.update event.eventInfo t option },
          .suspended)) := by
  unfold rtEventRecv
  by_cases hset : set = 0
  · exact .inl (by simp [hset, EventResult.received])
  · rw [if_neg hset]
    cases hstatus : eventStatus option set event.set with
    | some got => exact .inr (.inl ⟨got, hset, rfl, rfl⟩)
    | none =>
      by_cases htime : timeout = 0
      · exact .inl (by simp [htime, EventResult.received])
      · exact .inr (.inr ⟨hset, rfl, timeout > 0, by simp [htime]⟩)

/-- A thread that sleeps goes on sleeping where its own condition and the events are as before. -/
theorem Event.Inv.mono (h : event.Inv) (honce : event'.threads.Nodup)
    (hsub : ∀ b, event'.set.getLsbD b → event.set.getLsbD b)
    (hkeep : ∀ t ∈ event'.threads, t ∈ event.threads ∧ event'.eventSet t = event.eventSet t ∧
      event'.eventInfo t = event.eventInfo t) : event'.Inv := by
  refine ⟨honce, fun t ht => ?_, fun t ht => ?_, fun t ht => ?_⟩
  all_goals obtain ⟨hin, hset, hinfo⟩ := hkeep t ht
  · rw [hset]
    exact h.wanted t hin
  · rw [hinfo]
    exact h.option t hin
  · rw [hset, hinfo]
    exact eventStatus_none_mono (h.sleeps t hin) hsub

theorem Event.Inv.recv (h : event.Inv) (hruns : t ∉ event.threads)
    (hoption : option.and || option.or) (currentPriority : Nat) (timeout : Int) :
    (rtEventRecv event t currentPriority set option timeout).1.Inv ∧
      (EventCall.recv t set option
        (rtEventRecv event t currentPriority set option timeout).2).Keeps event
        (rtEventRecv event t currentPriority set option timeout).1 := by
  obtain ⟨hsame, hnone⟩ | ⟨got, hne, hstatus, hrecv⟩ | ⟨hne, hstatus, timed, hrecv⟩ :=
    rtEventRecv_cases event t currentPriority set option timeout
  · rw [hsame]
    exact ⟨h, by simp [EventCall.Keeps, EventCall.received, hnone]⟩
  · -- the thread receives
    have hgood := Received.good (t := t) hstatus hne
    have hclears := fun b => clears_add (b := b) t option event.set set got set hgood.sent
      fun b hb => by
        rw [(eventStatus_eq_some hstatus).1, BitVec.getLsbD_and, hb, Bool.true_and]
    rw [hrecv]
    constructor
    · refine h.mono h.once (fun b hb => ?_) fun u hu => ?_
      · have hone := hclears b
        dsimp only at hb
        rw [hb] at hone
        cases hs : event.set.getLsbD b with
        | true => rfl
        | false =>
          rw [hs] at hone
          simp at hone
      · have hut : u ≠ t := fun heq => hruns (heq ▸ hu)
        exact ⟨hu, Function.update_of_ne hut .., Function.update_of_ne hut ..⟩
    · have hbool : ∀ c : Bool, (if c = true then 1 else 0) = c.toNat := fun c => by cases c <;> rfl
      refine ⟨fun b => ?_, fun r hr => ?_⟩
      · simp only [EventCall.received, EventResult.received, List.countP_singleton, hbool, hclears b]
        exact Nat.le_add_right ..
      · obtain rfl := List.mem_singleton.mp hr
        simpa [EventCall.sent] using hgood
  · -- the thread sleeps
    rw [hrecv]
    have hperm := (rtIpcListSuspend_perm event.suspendThread ⟨t, currentPriority, timed⟩
      event.flag).map Waiter.thread
    have hmem : ∀ u, u ∈ (rtIpcListSuspend event.suspendThread ⟨t, currentPriority, timed⟩
        event.flag).map Waiter.thread → u = t ∨ u ≠ t ∧ u ∈ event.threads := by
      intro u hu
      obtain rfl | hin := List.mem_cons.mp (hperm.mem_iff.mp hu)
      · exact .inl rfl
      · exact .inr ⟨fun heq => hruns (heq ▸ hin), hin⟩
    constructor
    · refine ⟨hperm.nodup_iff.mpr (List.nodup_cons.mpr ⟨hruns, h.once⟩), fun u hu => ?_,
        fun u hu => ?_, fun u hu => ?_⟩
      all_goals obtain rfl | ⟨hut, hin⟩ := hmem u hu
      · simpa using hne
      · simpa [hut] using h.wanted u hin
      · simpa using hoption
      · simpa [hut] using h.option u hin
      · simpa using hstatus
      · simpa [hut] using h.sleeps u hin
    · exact ⟨fun b => by simp [EventCall.received, EventResult.received], nofun⟩

theorem Event.Inv.send (h : event.Inv) : (rtEventSend event set).1.Inv ∧
    (EventCall.send set (rtEventSend event set).2).Keeps event (rtEventSend event set).1 := by
  unfold rtEventSend
  by_cases hzero : set = 0
  · simp only [hzero, if_true]
    exact ⟨h, fun b => by simp [EventCall.received, EventResult.received], nofun⟩
  · obtain ⟨event', received, hscan, hinfo, hsub, -, hsleeps, hclears, hall⟩ :=
      @rtEventScan_spec { event with set := event.set ||| set } event.suspendThread h.once
        (fun w hw => h.wanted _ (List.mem_map_of_mem hw))
        (fun w hw => h.option _ (List.mem_map_of_mem hw))
    simp only [hzero, if_false, hscan]
    have hthreads : ∀ t ∈ event'.threads, t ∈ event.threads ∧
        event'.eventSet t = event.eventSet t ∧
        eventStatus (event.eventInfo t) (event.eventSet t) event'.set = none := by
      intro t ht
      obtain ⟨w, hw, rfl⟩ := List.mem_map.mp ht
      exact ⟨List.mem_map_of_mem (hsub.subset hw), hsleeps w hw⟩
    constructor
    · refine ⟨h.once.sublist (hsub.map _), fun t ht => ?_, fun t ht => ?_, fun t ht => ?_⟩
      all_goals obtain ⟨hin, hset, hnone⟩ := hthreads t ht
      · rw [hset]
        exact h.wanted t hin
      · rw [hinfo]
        exact h.option t hin
      · rw [hset, hinfo]
        exact hnone
    · refine ⟨fun b => ?_, hall⟩
      have hcount := hclears b
      rw [BitVec.getLsbD_or] at hcount
      simp only [EventCall.received, EventResult.received, EventCall.sent]
      cases hs : event.set.getLsbD b <;> cases hsent : set.getLsbD b
      all_goals
        rw [hs, hsent] at hcount
        simp only [Bool.or_false, Bool.or_true, Bool.toNat_false, Bool.toNat_true] at hcount ⊢
        omega

theorem Event.Inv.timeout (h : event.Inv) : (rtEventTimeout event t).Inv := by
  have hsub : (rtEventTimeout event t).threads.Sublist event.threads := List.filter_sublist.map _
  exact h.mono (h.once.sublist hsub) (fun _ hb => hb) fun u hu => ⟨hsub.subset hu, rfl, rfl⟩

theorem EventStep.spec (h : EventStep event e event') (hinv : event.Inv) :
    event'.Inv ∧ e.Keeps event event' := by
  cases h with
  | recv hruns hoption => exact hinv.recv hruns hoption _ _
  | send => exact hinv.send
  | reset =>
    refine ⟨⟨.nil, nofun, nofun, nofun⟩, fun b => ?_, nofun⟩
    simp [EventCall.received, rtEventReset]
  | timeout hw htimed =>
    refine ⟨hinv.timeout, fun b => ?_, nofun⟩
    simp [EventCall.received, rtEventTimeout]

theorem rtEventCreate_inv (flag : IpcFlag) : (rtEventCreate flag).Inv :=
  ⟨.nil, nofun, nofun, nofun⟩

theorem event_run (hinv : event.Inv) (h : Trans.Run EventStep event es event') :
    event'.Inv ∧ ∀ b, (es.flatMap EventCall.received).countP (Received.clears b) +
      (event'.set.getLsbD b).toNat ≤
        (event.set.getLsbD b).toNat + es.countP (·.sent.getLsbD b) := by
  induction h with
  | nil event => exact ⟨hinv, fun b => by simp⟩
  | cons hs _ ih =>
    obtain ⟨hinv₁, hkeeps, -⟩ := hs.spec hinv
    obtain ⟨hinv', hrun⟩ := ih hinv₁
    have hbool : ∀ c : Bool, (if c = true then 1 else 0) = c.toNat := fun c => by cases c <;> rfl
    refine ⟨hinv', fun b => ?_⟩
    have hone := hkeeps b
    have hrest := hrun b
    rw [List.flatMap_cons, List.countP_append, List.countP_cons, hbool]
    omega

/-- No thread sleeps while its condition is met, after any run; and the next call gives a thread
only events it wants that are set or just sent, one at least and all of them when it wants all. -/
theorem event_wakes (flag : IpcFlag) (es : List EventCall) (event : Event)
    (h : Trans.Run EventStep (rtEventCreate flag) es event) :
    (∀ t ∈ event.threads,
      eventStatus (event.eventInfo t) (event.eventSet t) event.set = none) ∧
    ∀ e event', EventStep event e event' → ∀ r ∈ e.received, r.got ≠ 0 ∧
      (∀ b, r.got.getLsbD b →
        r.wanted.getLsbD b ∧ (event.set.getLsbD b ∨ e.sent.getLsbD b)) ∧
      (r.option.and → r.got = r.wanted) := by
  have hinv := (event_run (rtEventCreate_inv flag) h).1
  refine ⟨hinv.sleeps, fun e event' hstep r hr => ?_⟩
  have hgood := (hstep.spec hinv).2.2 r hr
  refine ⟨hgood.some, fun b hb => ⟨hgood.wanted b hb, ?_⟩, hgood.all⟩
  simpa using hgood.sent b hb

/-- Each time a thread clears an event, or the event is still set, it has been sent once more. -/
theorem event_once (flag : IpcFlag) (es : List EventCall) (event : Event)
    (h : Trans.Run EventStep (rtEventCreate flag) es event) (b : Nat) :
    (es.flatMap EventCall.received).countP (Received.clears b) + (event.set.getLsbD b).toNat ≤
      es.countP (·.sent.getLsbD b) := by
  have hrun := (event_run (rtEventCreate_inv flag) h).2 b
  simpa [rtEventCreate] using hrun

end

/-- Two threads wait for the same event to clear it; it is sent once, and wakes the first. -/
theorem event_first : Trans.Run EventStep (rtEventCreate .fifo)
    [.recv 1 1 ⟨false, true, true⟩ .suspended, .recv 2 1 ⟨false, true, true⟩ .suspended,
      .send 1 (.ok [⟨1, ⟨false, true, true⟩, 1, 1⟩])]
    ⟨0, [⟨2, 5, false⟩], .fifo, Function.update (Function.update (Function.update
      (fun _ => 0) 1 1) 2 1) 1 1, Function.update (Function.update (fun _ => ⟨false, false, false⟩) 1
        ⟨false, true, true⟩) 2 ⟨false, true, true⟩⟩ :=
  .cons (@EventStep.recv _ _ 5 _ _ (-1) (List.not_mem_nil) rfl)
    (.cons (@EventStep.recv _ _ 5 _ _ (-1) (by decide) rfl) (.cons .send (.nil _)))

theorem event_wakes_first : ∃ es event, Trans.Run EventStep (rtEventCreate .fifo) es event ∧
    event.threads = [2] ∧ eventStatus (event.eventInfo 2) (event.eventSet 2) event.set = none :=
  ⟨_, _, event_first, rfl, (event_wakes .fifo _ _ event_first).1 2 (.head _)⟩

theorem event_once_first : ∃ es event, Trans.Run EventStep (rtEventCreate .fifo) es event ∧
    (es.flatMap EventCall.received).countP (Received.clears 0) ≤ 1 :=
  ⟨_, _, event_first, event_once .fifo _ _ event_first 0⟩

end Rtt
end XR806

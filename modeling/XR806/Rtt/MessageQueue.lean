import Mathlib.Data.List.Nodup
import Mathlib.Data.List.Perm.Subperm
import XR806.NullList
import XR806.Rtt.Ipc

/-!
# XR806.Rtt.MessageQueue

The message queue of the RT-Thread kernel (`ipc.c`): a pool of messages that are linked into the
queue or into the list of free ones. A sender takes a free message, copies its data into it and links
it to the tail; a receiver takes the head, copies the data out and puts the message back. Neither
holds a lock while it copies, so a message may be on no list.

`Store mq held ready queue free` says which message is where: on the queue, on the list of the free
ones, or with a caller. Each of the operations on the lists moves one message.
-/

namespace XR806
namespace Rtt

open NullList

def rtMqEntryMax : Nat := 2 ^ 16 - 1

/-- `RT_ALIGN`. -/
def rtAlign (size align : Nat) : Nat := clearBits (u32 (size + align - 1)) (align - 1)

/-- `struct rt_messagequeue`; the pool is `next` and the bytes `msg` behind it. -/
structure MessageQueue where
  msgSize : Nat
  maxMsgs : Nat
  entry : Nat
  head : Option Nat
  tail : Option Nat
  free : Option Nat
  next : Nat → Option Nat
  msg : Nat → Nat → UInt8
  suspendThread : List Waiter
  suspendSenderThread : List Waiter
  flag : IpcFlag

/-- The loop that puts the messages below `temp` into the list of free ones. -/
def initFree : Nat → (Nat → Option Nat) × Option Nat
  | 0 => (fun _ => none, none)
  | temp + 1 => (Function.update (initFree temp).1 temp (initFree temp).2, some temp)

/-- `rt_mq_create` with the memory for it. Sizes and numbers of messages have 16 bits. -/
def rtMqCreate (alignSize msgSize maxMsgs : Nat) (flag : IpcFlag) : MessageQueue where
  msgSize := rtAlign msgSize alignSize % 2 ^ 16
  maxMsgs := maxMsgs % 2 ^ 16
  entry := 0
  head := none
  tail := none
  free := (initFree (maxMsgs % 2 ^ 16)).2
  next := (initFree (maxMsgs % 2 ^ 16)).1
  msg := fun _ _ => 0
  suspendThread := []
  suspendSenderThread := []
  flag := flag

namespace MessageQueue

variable (mq : MessageQueue)

/-- The bytes that are asked for the pool. -/
def poolSize : Nat := u32 ((mq.msgSize + 4) * mq.maxMsgs)

/-- The data of a message. -/
def content (msg : Nat) : List UInt8 := (List.range mq.msgSize).map (mq.msg msg)

/-! The parts of `rt_mq_send_wait` and `rt_mq_recv`, in their order. -/

def takeFree (msg : Nat) : MessageQueue := { mq with free := mq.next msg }

/-- The data is copied from `buffer`. -/
def copyIn (msg : Nat) (buffer : Nat → UInt8) : MessageQueue :=
  { mq with
    next := Function.update mq.next msg none
    msg := Function.update mq.msg msg fun i => if i < mq.msgSize then buffer i else mq.msg msg i }

/-- Links a message to the tail; `false` is a number of messages that has no room in its field. -/
def linkTail (msg : Nat) : MessageQueue × Bool :=
  let mq' := { mq with
    next := match mq.tail with
      | some tail => Function.update mq.next tail (some msg)
      | none => mq.next
    tail := some msg
    head := match mq.head with
      | some head => some head
      | none => some msg }
  if mq.entry < rtMqEntryMax then ({ mq' with entry := mq.entry + 1 }, true) else (mq', false)

def unlinkHead (msg : Nat) : MessageQueue :=
  { mq with
    head := mq.next msg
    tail := if mq.tail = some msg then none else mq.tail
    entry := mq.entry - 1 }

def putBack (msg : Nat) : MessageQueue :=
  { mq with
    next := Function.update mq.next msg mq.free
    free := some msg }

/-- The messages of the queue. -/
def queue : List Nat := follow mq.next mq.entry mq.head

end MessageQueue

/-! ## Where the messages are -/

/-- The messages `L` are in the lists, and the others that are in use with one caller each, who has
ended his message with NULL or not yet. -/
structure Places {κ : Type} (maxMsgs : Nat) (held : κ → Option (Nat × Bool)) (L : List Nat) :
    Prop where
  nodup : L.Nodup
  bound : ∀ n ∈ L, n < maxMsgs
  theirs : ∀ c n b, held c = some (n, b) → n < maxMsgs ∧ n ∉ L
  distinct : ∀ c c' n b b', held c = some (n, b) → held c' = some (n, b') → c = c'

/-- The queue and the list of free messages are `queue` and `free`. -/
structure Store {κ : Type} (mq : MessageQueue) (held : κ → Option (Nat × Bool))
    (queue free : List Nat) : Prop where
  lists : Lists mq.next mq.head queue
  frees : Lists mq.next mq.free free
  tail : mq.tail = queue.getLast?
  entry : mq.entry = queue.length
  places : Places mq.maxMsgs held (queue ++ free)
  ended : ∀ c n, held c = some (n, true) → mq.next n = none

theorem length_le_of_nodup {L : List Nat} {k : Nat} (hnd : L.Nodup) (hlt : ∀ n ∈ L, n < k) :
    L.length ≤ k := by
  have hsub : L ⊆ List.range k := fun n hn => List.mem_range.mpr (hlt n hn)
  have hlen := (List.subperm_of_subset hnd hsub).length_le
  rwa [List.length_range] at hlen

theorem initFree_lists (n : Nat) : ∃ free, Lists (initFree n).1 (initFree n).2 free ∧
    free.Nodup ∧ ∀ m ∈ free, m < n := by
  induction n with
  | zero => exact ⟨[], .nil, List.nodup_nil, nofun⟩
  | succ n ih =>
    obtain ⟨free, hlists, hnd, hlt⟩ := ih
    have hn : n ∉ free := fun hmem => Nat.lt_irrefl n (hlt n hmem)
    refine ⟨n :: free, hlists.push hn, List.nodup_cons.mpr ⟨hn, hnd⟩, ?_⟩
    intro m hm
    rcases List.mem_cons.mp hm with rfl | hm
    · exact Nat.lt_succ_self _
    · exact Nat.lt_succ_of_lt (hlt m hm)

section

variable {κ : Type} {mq : MessageQueue} {held : κ → Option (Nat × Bool)} {queue free L L' : List Nat}
  {c c' : κ} {n m k : Nat} {b b' : Bool}

theorem store_create (alignSize msgSize maxMsgs : Nat) (flag : IpcFlag) :
    ∃ free, Store (rtMqCreate alignSize msgSize maxMsgs flag) (fun _ : κ => none) [] free := by
  obtain ⟨free, hlists, hnd, hlt⟩ := initFree_lists (maxMsgs % 2 ^ 16)
  exact ⟨free, .nil, hlists, rfl, rfl, ⟨hnd, hlt, nofun, nofun⟩, nofun⟩

theorem Store.queue_eq (h : Store mq held queue free) : mq.queue = queue := by
  rw [MessageQueue.queue, h.entry, h.lists.follow]

theorem Store.entry_le (h : Store mq held queue free) : mq.entry ≤ mq.maxMsgs := by
  have hlen := length_le_of_nodup h.places.nodup h.places.bound
  rw [List.length_append] at hlen
  rw [h.entry]
  omega

/-- A message that a caller has is not on the queue. -/
theorem Store.entry_lt (h : Store mq held queue free) (hc : held c = some (n, b)) :
    mq.entry < mq.maxMsgs := by
  obtain ⟨hlt, hnot⟩ := h.places.theirs c n b hc
  have hlen := length_le_of_nodup (List.nodup_cons.mpr ⟨hnot, h.places.nodup⟩)
    (List.forall_mem_cons.mpr ⟨hlt, h.places.bound⟩)
  rw [List.length_cons, List.length_append] at hlen
  rw [h.entry]
  omega

theorem Places.ne (h : Places k held L) (hc : held c = some (n, b)) (hc' : held c' = some (m, b'))
    (hne : c' ≠ c) : m ≠ n := by
  rintro rfl
  exact hne (h.distinct c' c m b' b hc' hc)

variable [DecidableEq κ]

/-- A message goes from the lists to a caller. -/
theorem Places.take (h : Places k held L) (hL : L.Perm (n :: L')) :
    Places k (Function.update held c (some (n, b))) L' := by
  obtain ⟨hn, hnd⟩ := List.nodup_cons.mp (hL.nodup_iff.mp h.nodup)
  have hmem : ∀ m, m = n ∨ m ∈ L' → m ∈ L := fun m hm => hL.mem_iff.mpr (List.mem_cons.mpr hm)
  have hheld : ∀ c' m b', Function.update held c (some (n, b)) c' = some (m, b') →
      c' = c ∧ m = n ∨ c' ≠ c ∧ held c' = some (m, b') := by
    intro c' m b' hm
    by_cases hc : c' = c
    · subst hc
      rw [Function.update_self] at hm
      cases hm
      exact .inl ⟨rfl, rfl⟩
    · rw [Function.update_of_ne hc] at hm
      exact .inr ⟨hc, hm⟩
  refine ⟨hnd, fun m hm => h.bound m (hmem m (.inr hm)), ?_, ?_⟩
  · intro c' m b' hm
    obtain ⟨-, rfl⟩ | ⟨-, hold⟩ := hheld c' m b' hm
    · exact ⟨h.bound m (hmem m (.inl rfl)), hn⟩
    · obtain ⟨hlt, hnot⟩ := h.theirs c' m b' hold
      exact ⟨hlt, fun hin => hnot (hmem m (.inr hin))⟩
  · intro c₁ c₂ m b₁ b₂ h₁ h₂
    have hnot : ∀ c' b', held c' ≠ some (n, b') := fun c' b' hc' =>
      (h.theirs c' n b' hc').2 (hmem n (.inl rfl))
    obtain ⟨rfl, hm₁⟩ | ⟨-, hold₁⟩ := hheld c₁ m b₁ h₁
    · obtain ⟨rfl, -⟩ | ⟨-, hold₂⟩ := hheld c₂ m b₂ h₂
      · rfl
      · exact absurd (hm₁ ▸ hold₂) (hnot c₂ b₂)
    · obtain ⟨-, hm₂⟩ | ⟨-, hold₂⟩ := hheld c₂ m b₂ h₂
      · exact absurd (hm₂ ▸ hold₁) (hnot c₁ b₁)
      · exact h.distinct c₁ c₂ m b₁ b₂ hold₁ hold₂

/-- A caller's message goes back to the lists. -/
theorem Places.give (h : Places k held L) (hc : held c = some (n, b)) (hL : L'.Perm (n :: L)) :
    Places k (Function.update held c none) L' := by
  obtain ⟨hlt, hn⟩ := h.theirs c n b hc
  have hmem : ∀ m ∈ L', m = n ∨ m ∈ L := fun m hm => List.mem_cons.mp (hL.mem_iff.mp hm)
  have hheld : ∀ c' m b', Function.update held c none c' = some (m, b') →
      c' ≠ c ∧ held c' = some (m, b') := by
    intro c' m b' hm
    by_cases hc' : c' = c
    · subst hc'
      rw [Function.update_self] at hm
      cases hm
    · rw [Function.update_of_ne hc'] at hm
      exact ⟨hc', hm⟩
  refine ⟨hL.nodup_iff.mpr (List.nodup_cons.mpr ⟨hn, h.nodup⟩), ?_, ?_, ?_⟩
  · intro m hm
    rcases hmem m hm with rfl | hm
    · exact hlt
    · exact h.bound m hm
  · intro c' m b' hm
    obtain ⟨hne, hold⟩ := hheld c' m b' hm
    obtain ⟨hlt', hnot⟩ := h.theirs c' m b' hold
    refine ⟨hlt', fun hin => ?_⟩
    rcases hmem m hin with rfl | hin
    · exact h.ne hc hold hne rfl
    · exact hnot hin
  · intro c₁ c₂ m b₁ b₂ h₁ h₂
    exact h.distinct c₁ c₂ m b₁ b₂ (hheld c₁ m b₁ h₁).2 (hheld c₂ m b₂ h₂).2

/-- What the links of the callers' messages are, when only those of other places change. -/
theorem ended_update {next next' : Nat → Option Nat} {v : Option (Nat × Bool)}
    (h : ∀ c n, held c = some (n, true) → next n = none)
    (hc : ∀ n, v = some (n, true) → next' n = none)
    (hnext : ∀ c' m, c' ≠ c → held c' = some (m, true) → next' m = next m) :
    ∀ c' m, Function.update held c v c' = some (m, true) → next' m = none := by
  intro c' m hm
  by_cases hc' : c' = c
  · subst hc'
    rw [Function.update_self] at hm
    exact hc m hm
  · rw [Function.update_of_ne hc'] at hm
    rw [hnext c' m hc' hm]
    exact h c' m hm

theorem Store.takeFree (h : Store mq held queue (n :: free)) :
    Store (mq.takeFree n) (Function.update held c (some (n, false))) queue free where
  lists := h.lists
  frees := (lists_cons.mp h.frees).2
  tail := h.tail
  entry := h.entry
  places := h.places.take List.perm_middle
  ended := ended_update h.ended (by simp) fun _ _ _ _ => rfl

theorem Store.unlinkHead (h : Store mq held (n :: queue) free) :
    Store (mq.unlinkHead n) (Function.update held c (some (n, false))) queue free where
  lists := (lists_cons.mp h.lists).2
  frees := h.frees
  tail := by
    have htail := h.tail
    have hn := (List.nodup_cons.mp (List.nodup_append.mp h.places.nodup).1).1
    change (if mq.tail = some n then none else mq.tail) = queue.getLast?
    cases hq : queue.getLast? with
    | none =>
      rw [List.getLast?_eq_none_iff] at hq
      subst hq
      exact if_pos htail
    | some last =>
      rw [List.getLast?_cons, hq] at htail
      rw [htail]
      have hne : last ≠ n := fun heq => hn (heq ▸ List.mem_of_getLast? hq)
      exact if_neg fun heq => hne (Option.some.inj heq)
  entry := by
    have hentry := h.entry
    rw [List.length_cons] at hentry
    change mq.entry - 1 = queue.length
    omega
  places := h.places.take (List.Perm.refl _)
  ended := ended_update h.ended (by simp) fun _ _ _ _ => rfl

theorem Store.copyIn {buffer : Nat → UInt8} (h : Store mq held queue free)
    (hc : held c = some (n, false)) :
    Store (mq.copyIn n buffer) (Function.update held c (some (n, true))) queue free := by
  have hnot := (h.places.theirs c n false hc).2
  have hq : n ∉ queue := fun hin => hnot (List.mem_append_left _ hin)
  have hf : n ∉ free := fun hin => hnot (List.mem_append_right _ hin)
  refine ⟨h.lists.update hq, h.frees.update hf, h.tail, h.entry, ?_, ?_⟩
  · have hplaces := (h.places.give hc (List.Perm.refl _)).take (c := c) (b := true)
      (List.Perm.refl _)
    rwa [Function.update_idem] at hplaces
  · refine ended_update h.ended ?_ ?_
    · intro m hm
      cases hm
      exact Function.update_self ..
    · intro c' m hne hm
      exact Function.update_of_ne (h.places.ne hc hm hne) ..

theorem Store.putBack (h : Store mq held queue free) (hc : held c = some (n, b)) :
    Store (mq.putBack n) (Function.update held c none) queue (n :: free) := by
  have hnot := (h.places.theirs c n b hc).2
  have hq : n ∉ queue := fun hin => hnot (List.mem_append_left _ hin)
  have hf : n ∉ free := fun hin => hnot (List.mem_append_right _ hin)
  refine ⟨h.lists.update hq, h.frees.push hf, h.tail, h.entry,
    h.places.give hc List.perm_middle, ?_⟩
  refine ended_update h.ended (fun _ hm => nomatch hm) ?_
  intro c' m hne hm
  exact Function.update_of_ne (h.places.ne hc hm hne) ..

/-- The number of messages has room in its field. -/
theorem Store.linkTail (h : Store mq held queue free) (hmax : mq.maxMsgs < 2 ^ 16)
    (hc : held c = some (n, true)) : (mq.linkTail n).2 = true ∧
      Store (mq.linkTail n).1 (Function.update held c none) (queue ++ [n]) free := by
  obtain ⟨hlt, hnot⟩ := h.places.theirs c n true hc
  have hq : n ∉ queue := fun hin => hnot (List.mem_append_left _ hin)
  have hf : n ∉ free := fun hin => hnot (List.mem_append_right _ hin)
  have hroom : mq.entry < rtMqEntryMax := by
    have := h.entry_lt hc
    unfold rtMqEntryMax
    omega
  have hperm : (queue ++ [n] ++ free).Perm (n :: (queue ++ free)) := by
    rw [List.append_assoc]
    exact List.perm_middle
  have hplaces := h.places.give hc hperm
  have hnd := (List.nodup_append.mp h.places.nodup).1
  have hentry : mq.entry + 1 = (queue ++ [n]).length := by
    rw [h.entry, List.length_append, List.length_singleton]
  unfold MessageQueue.linkTail
  rw [if_pos hroom]
  refine ⟨rfl, ?_⟩
  rcases List.eq_nil_or_concat' queue with rfl | ⟨rest, last, rfl⟩
  · have hhead : mq.head = none := lists_nil.mp h.lists
    have htail : mq.tail = none := h.tail
    simp only [hhead, htail]
    have hlists : Lists mq.next (some n) [n] := .cons (h.ended c n hc ▸ .nil)
    exact ⟨hlists, h.frees, rfl, hentry, hplaces, ended_update h.ended (fun _ hm => nomatch hm)
      fun _ _ _ _ => rfl⟩
  · have htail : mq.tail = some last := h.tail.trans (by simp)
    obtain ⟨head, hhead⟩ : ∃ head, mq.head = some head := by
      cases hmq : mq.head with
      | none => exact absurd (lists_none.mp (hmq ▸ h.lists)) (by simp)
      | some head => exact ⟨head, rfl⟩
    simp only [htail, hhead]
    have hlast : last ∈ rest ++ [last] := List.mem_append_right _ (List.mem_singleton_self _)
    have hne : n ≠ last := fun heq => hq (heq ▸ hlast)
    have hlastf : last ∉ free := fun hin =>
      (List.nodup_append.mp h.places.nodup).2.2 last hlast last hin rfl
    have hlists := h.lists.snoc hnd (h.ended c n hc) hne
    rw [hhead] at hlists
    refine ⟨?_, h.frees.update hlastf, by simp, hentry, hplaces, ?_⟩
    · rw [List.append_assoc]
      exact hlists
    · refine ended_update h.ended (fun _ hm => nomatch hm) ?_
      intro c' m _ hm
      refine Function.update_of_ne ?_ ..
      rintro rfl
      exact (h.places.theirs c' m true hm).2 (List.mem_append_left _ hlast)

end

end Rtt
end XR806

import XR806.Trans.Along
import Mathlib.Data.List.Nodup
import Mathlib.Logic.Function.Basic

/-!
# XR806.Audio.SoundStream

The sound streams: each registered type has a priority, and counts its users that created it and
those that opened it. Of the types that are open only the one with the highest priority has its
driver open; an open takes the driver over, and a close hands it back.

Each call keeps that, except a close whose driver call fails as it hands back: nothing is open then,
although a type is (`streams_lawful`).
-/

namespace XR806
namespace Audio
namespace SoundStream

open Trans (Along along_iff along_and)

/-! ## The registered types -/

/-- `SoundStreamNodeS`. -/
structure Node where
  type : Nat
  priority : Nat
  stream : Option Nat
  createRefs : Int
  openRefs : Int
  deriving DecidableEq

/-- `SoundStreamRegister`. -/
def Node.register (type priority : Nat) : Node := ⟨type, priority, none, 0, 0⟩

/-- The registered types, the stream of the context when there is a context, the number of the
streams that were created, and of each driver whether it is open; `misused`: one was opened while it
was open, or closed while it was not. -/
structure State where
  nodes : List Node
  context : Option (Option Nat)
  created : Nat
  opened : Nat → Bool
  misused : Bool

/-- Each type is registered, and none is created. -/
def State.init (types : List (Nat × Nat)) : State where
  nodes := types.map fun t => Node.register t.1 t.2
  context := none
  created := 0
  opened := fun _ => false
  misused := false

/-- `FindStreamNodeByType`. -/
def findStreamNodeByType (l : List Node) (type : Nat) : Option Node :=
  l.find? fun n => n.type = type

/-- The node that is found changes. -/
def setNode (type : Nat) (f : Node → Node) : List Node → List Node
  | [] => []
  | n :: l => if n.type = type then f n :: l else n :: setNode type f l

/-- `FindCreateRefsByType`. -/
def findCreateRefsByType (l : List Node) (type : Nat) : Int :=
  match findStreamNodeByType l type with
  | some n => n.createRefs
  | none => 0

/-- `FindOpenRefsByType`. -/
def findOpenRefsByType (l : List Node) (type : Nat) : Int :=
  match findStreamNodeByType l type with
  | some n => n.openRefs
  | none => 0

/-- `AllSoundStreamIsDestroyed`. -/
def allSoundStreamIsDestroyed (l : List Node) : Bool := l.all fun n => n.createRefs = 0

/-- The stream and the priority of the loops over the open types. -/
def look (current : Option Nat × Nat) (n : Node) : Option Nat × Nat :=
  if n.openRefs ≠ 0 ∧ current.2 ≤ n.priority then (n.stream, n.priority) else current

/-- `FindCurrentSoundStream`. -/
def findCurrentSoundStream (l : List Node) : Option Nat := (l.foldl look (none, 0)).1

/-- `FindCurrentSoundStreamPriority`. -/
def findCurrentSoundStreamPriority (l : List Node) : Nat := (l.foldl look (none, 0)).2

namespace State

/-! ## The drivers -/

/-- `SoundStreamOpen`. -/
def soundStreamOpen (s : State) (stream : Option Nat) (ok : Bool) : State × Int :=
  match stream with
  | none => (s, -1)
  | some i =>
    let s := { s with misused := s.misused || s.opened i }
    if ok then ({ s with opened := Function.update s.opened i true }, 0) else (s, -1)

/-- `SoundStreamClose`. -/
def soundStreamClose (s : State) (stream : Option Nat) : State :=
  match stream with
  | none => s
  | some i =>
    { s with
      misused := s.misused || !s.opened i
      opened := Function.update s.opened i false }

/-! ## The calls -/

def set (s : State) (type : Nat) (f : Node → Node) : State :=
  { s with nodes := setNode type f s.nodes }

/-- `SoundStreamCreate`. -/
def soundStreamCreate (s : State) (type : Nat) (ok : Bool) : State × Int :=
  match findStreamNodeByType s.nodes type with
  | none => (s, -1)
  | some n =>
    if n.createRefs + 1 > 1 then
      (s.set type fun n => { n with createRefs := n.createRefs + 1 }, 0)
    else if ok then
      ({ s.set type fun n =>
          { n with createRefs := n.createRefs + 1, stream := some s.created } with
        created := s.created + 1 }, 0)
    else
      (s.set type fun n => { n with createRefs := n.createRefs + 1 - 1, stream := none }, -1)

/-- `SoundStreamDestroy`. -/
def soundStreamDestroy (s : State) (type : Nat) : State :=
  match findStreamNodeByType s.nodes type with
  | none => s
  | some n =>
    if n.createRefs - 1 ≠ 0 then s.set type fun n => { n with createRefs := n.createRefs - 1 }
    else s.set type fun n => { n with createRefs := n.createRefs - 1, stream := none }

/-- `SoundStreamSelectOpen`. -/
def soundStreamSelectOpen (s : State) (type : Nat) (ok : Bool) : State × Int :=
  let stream := findCurrentSoundStream s.nodes
  let priority := findCurrentSoundStreamPriority s.nodes
  match findStreamNodeByType s.nodes type with
  | none => (s, -1)
  | some n =>
    let s := s.set type fun n => { n with openRefs := n.openRefs + 1 }
    if n.openRefs + 1 > 1 then (s, 0)
    else if n.priority < priority then (s, 0)
    else
      let r := s.soundStreamOpen n.stream ok
      if r.2 ≠ 0 then (r.1.set type fun n => { n with openRefs := n.openRefs - 1 }, -1)
      else (r.1.soundStreamClose stream, 0)

/-- `SoundStreamSelectClose`. -/
def soundStreamSelectClose (s : State) (type : Nat) (ok : Bool) : State × Int :=
  match findStreamNodeByType s.nodes type with
  | none => (s, -1)
  | some n =>
    let s := s.set type fun n => { n with openRefs := n.openRefs - 1 }
    if n.openRefs - 1 ≠ 0 then (s, 0)
    else if n.priority < findCurrentSoundStreamPriority s.nodes then (s, 0)
    else
      let s := s.soundStreamClose n.stream
      match findCurrentSoundStream s.nodes with
      | some i => ((s.soundStreamOpen (some i) ok).1, 0)
      | none => (s, 0)

/-- `snd_stream_create`, which may get no memory for a context. -/
def sndStreamCreate (s : State) (type : Nat) (malloc ok : Bool) : State :=
  if allSoundStreamIsDestroyed s.nodes && !malloc then s
  else
    let s := if allSoundStreamIsDestroyed s.nodes then { s with context := some none } else s
    let r := s.soundStreamCreate type ok
    if r.2 ≠ 0 ∧ allSoundStreamIsDestroyed r.1.nodes then { r.1 with context := none } else r.1

/-- `snd_stream_destroy`. -/
def sndStreamDestroy (s : State) (type : Nat) : State :=
  if findCreateRefsByType s.nodes type = 0 then s
  else
    let s := s.soundStreamDestroy type
    if allSoundStreamIsDestroyed s.nodes then { s with context := none } else s

/-- The context gets the current stream. -/
def refresh (s : State) : State :=
  { s with context := s.context.map fun _ => findCurrentSoundStream s.nodes }

/-- `snd_stream_open`. -/
def sndStreamOpen (s : State) (type : Nat) (ok : Bool) : State × Int :=
  if findCreateRefsByType s.nodes type = 0 then (s, -1)
  else
    let r := s.soundStreamSelectOpen type ok
    (r.1.refresh, r.2)

/-- `snd_stream_close`. -/
def sndStreamClose (s : State) (type : Nat) (ok : Bool) : State × Int :=
  if findOpenRefsByType s.nodes type = 0 then (s, -1)
  else
    let r := s.soundStreamSelectClose type ok
    (r.1.refresh, r.2)

end State

/-- The calls, with what they get of the memory, of the creator and of the driver that they open. -/
inductive Label
  | create (type : Nat) (malloc ok : Bool)
  | destroy (type : Nat)
  | sndOpen (type : Nat) (ok : Bool)
  | sndClose (type : Nat) (ok : Bool)

def State.step (s : State) : Label → State
  | .create type malloc ok => s.sndStreamCreate type malloc ok
  | .destroy type => s.sndStreamDestroy type
  | .sndOpen type ok => (s.sndStreamOpen type ok).1
  | .sndClose type ok => (s.sndStreamClose type ok).1

/-! ## What the calls are meant to do -/

/-- The open type with the highest priority. -/
structure IsTop (l : List Node) (n : Node) : Prop where
  mem : n ∈ l
  opened : 0 < n.openRefs
  top : ∀ m ∈ l, 0 < m.openRefs → m.priority ≤ n.priority

namespace State

/-- The open driver is the one of the open type with the highest priority. -/
structure Arbitrated (s : State) : Prop where
  none : (∀ n ∈ s.nodes, ¬0 < n.openRefs) → ∀ i, s.opened i = false
  top : ∀ n, IsTop s.nodes n →
    ∃ i, n.stream = some i ∧ (∀ j, s.opened j = true ↔ j = i) ∧ s.context = some (some i)

/-- A call leaves the right driver open and calls none out of turn, and an open that fails changes
nothing. -/
structure Lawful (s : State) (l : Label) : Prop where
  arbitrated : (s.step l).Arbitrated
  misused : (s.step l).misused = false
  failed : ∀ type ok, l = .sndOpen type ok → (s.sndStreamOpen type ok).2 ≠ 0 →
    (s.step l).nodes = s.nodes ∧ (s.step l).opened = s.opened

/-- A type is destroyed only when it is not open. -/
def DestroysClosed (s : State) : Label → Prop
  | .destroy type => findOpenRefsByType s.nodes type = 0
  | _ => True

/-- The last user closes the type that has the driver, and another type is open. -/
def HandsBack (s : State) (type : Nat) : Prop :=
  ∃ n ∈ findStreamNodeByType s.nodes type, n.openRefs = 1 ∧
    (∀ m ∈ s.nodes, 0 < m.openRefs → m.priority ≤ n.priority) ∧
    ∃ m ∈ s.nodes, 0 < m.openRefs ∧ m ≠ n

/-- The driver that is handed back to opens. -/
def HandsBackWell (s : State) : Label → Prop
  | .sndClose type ok => s.HandsBack type → ok = true
  | _ => True

end State

/-! ## Lists of nodes -/

theorem setNode_split {l : List Node} {type : Nat} {n : Node}
    (h : findStreamNodeByType l type = some n) :
    ∃ pre post, l = pre ++ n :: post ∧ ∀ f, setNode type f l = pre ++ f n :: post := by
  induction l with
  | nil => exact absurd h.symm (Option.some_ne_none n)
  | cons m l ih =>
    rw [findStreamNodeByType, List.find?_cons] at h
    by_cases hm : m.type = type
    · rw [decide_eq_true hm] at h
      cases h
      exact ⟨[], l, rfl, fun f => if_pos hm⟩
    · rw [decide_eq_false hm] at h
      obtain ⟨pre, post, hl, hset⟩ := ih h
      refine ⟨m :: pre, post, congrArg (m :: ·) hl, fun f => ?_⟩
      rw [setNode, if_neg hm, hset f]
      rfl

theorem setNode_setNode (l : List Node) (type : Nat) {f g : Node → Node}
    (hf : ∀ n, (f n).type = n.type) (hg : ∀ n, g (f n) = n) :
    setNode type g (setNode type f l) = l := by
  induction l with
  | nil => rfl
  | cons n l ih =>
    rw [setNode]
    split
    · rename_i hn
      rw [setNode, if_pos ((hf n).trans hn), hg]
    · rename_i hn
      rw [setNode, if_neg hn, ih]

theorem mem_split {pre post : List Node} {n m : Node} :
    m ∈ pre ++ n :: post ↔ m = n ∨ m ∈ pre ++ post := by
  rw [List.mem_append, List.mem_cons, List.mem_append]
  tauto

/-- What holds of the registered types in any run. -/
structure Good (l : List Node) (created : Nat) : Prop where
  distinct : (l.map Node.priority).Nodup
  positive : ∀ n ∈ l, 0 < n.priority
  openRefs : ∀ n ∈ l, 0 ≤ n.openRefs
  createRefs : ∀ n ∈ l, 0 ≤ n.createRefs
  users : ∀ n ∈ l, 0 < n.openRefs → 0 < n.createRefs
  stream : ∀ n ∈ l, 0 < n.createRefs ↔ n.stream.isSome
  streams : (l.filterMap Node.stream).Nodup
  fresh : ∀ n ∈ l, ∀ i, n.stream = some i → i < created

section
variable {l pre post : List Node} {n n' : Node} {created : Nat}

/-- One node changes its counts. -/
theorem Good.set (h : Good (pre ++ n :: post) created) (hpriority : n'.priority = n.priority)
    (hopen : 0 ≤ n'.openRefs) (hcreate : 0 ≤ n'.createRefs)
    (hcreated : 0 < n'.openRefs → 0 < n'.createRefs)
    (hstream : 0 < n'.createRefs ↔ n'.stream.isSome)
    (hold : n'.stream = n.stream ∨ n'.stream = none) : Good (pre ++ n' :: post) created := by
  have hmem : ∀ {m}, m ∈ pre ++ post → m ∈ pre ++ n :: post := fun hm => mem_split.mpr (.inr hm)
  have hall : ∀ {P : Node → Prop}, P n' → (∀ m ∈ pre ++ n :: post, P m) →
      ∀ m ∈ pre ++ n' :: post, P m := by
    intro P hn' hP m hm
    rcases mem_split.mp hm with he | hm
    · rw [he]
      exact hn'
    · exact hP m (hmem hm)
  have hself := mem_split.mpr (.inl rfl : n = n ∨ n ∈ pre ++ post)
  refine ⟨?_, hall ?_ h.positive, hall hopen h.openRefs, hall hcreate h.createRefs,
    hall hcreated h.users, hall hstream h.stream, ?_, hall ?_ h.fresh⟩
  · have heq : (pre ++ n' :: post).map Node.priority = (pre ++ n :: post).map Node.priority := by
      rw [List.map_append, List.map_append, List.map_cons, List.map_cons, hpriority]
    rw [heq]
    exact h.distinct
  · rw [hpriority]
    exact h.positive n hself
  · have hstreams := h.streams
    rw [List.filterMap_append, List.filterMap_cons] at hstreams ⊢
    rcases hold with he | he
    · rw [he]
      exact hstreams
    · rw [he]
      refine hstreams.sublist ((List.Sublist.refl _).append ?_)
      cases n.stream with
      | none => exact List.Sublist.refl _
      | some i => exact List.sublist_cons_self _ _
  · intro i hi
    rcases hold with he | he
    · exact h.fresh n hself i (he.symm.trans hi)
    · exact absurd (he.symm.trans hi).symm (Option.some_ne_none i)

/-- One node gets a new stream. -/
theorem Good.create (h : Good (pre ++ n :: post) created) (hn : n.stream = none)
    (hpriority : n'.priority = n.priority) (hopen : n'.openRefs = n.openRefs)
    (hcreate : 0 < n'.createRefs) (hstream : n'.stream = some created) :
    Good (pre ++ n' :: post) (created + 1) := by
  have hself := mem_split.mpr (.inl rfl : n = n ∨ n ∈ pre ++ post)
  have hkeep : Good (pre ++ { n' with stream := n.stream, createRefs := n.createRefs } :: post)
      created :=
    h.set hpriority (by dsimp only; rw [hopen]; exact h.openRefs n hself) (h.createRefs n hself)
      (by dsimp only; rw [hopen]; exact h.users n hself) (h.stream n hself) (.inl rfl)
  have hall : ∀ {P : Node → Prop}, P n' → (∀ m ∈ pre ++ n :: post, P m) →
      ∀ m ∈ pre ++ n' :: post, P m := by
    intro P hn' hP m hm
    rcases mem_split.mp hm with he | hm
    · rw [he]
      exact hn'
    · exact hP m (mem_split.mpr (.inr hm))
  refine ⟨?_, hall (by rw [hpriority]; exact h.positive n hself) h.positive,
    hall (by rw [hopen]; exact h.openRefs n hself) h.openRefs,
    hall (Int.le_of_lt hcreate) h.createRefs, hall (fun _ => hcreate) h.users,
    hall (by rw [hstream]; exact ⟨fun _ => rfl, fun _ => hcreate⟩) h.stream, ?_,
    hall (fun i hi => ?_) fun m hm i hi => Nat.lt_succ_of_lt (h.fresh m hm i hi)⟩
  · have hdistinct := hkeep.distinct
    rw [List.map_append, List.map_cons] at hdistinct ⊢
    exact hdistinct
  · have hstreams := h.streams
    rw [List.filterMap_append, List.filterMap_cons, hn] at hstreams
    rw [List.filterMap_append, List.filterMap_cons, hstream]
    refine List.nodup_middle.mpr (List.nodup_cons.mpr ⟨fun hmem => ?_, hstreams⟩)
    rw [← List.filterMap_append, List.mem_filterMap] at hmem
    obtain ⟨m, hm, hi⟩ := hmem
    exact Nat.lt_irrefl _ (h.fresh m (mem_split.mpr (.inr hm)) created hi)
  · rw [hstream] at hi
    cases hi
    exact Nat.lt_succ_self _

theorem Good.eq_of_priority (h : Good l created) {a b : Node} (ha : a ∈ l) (hb : b ∈ l)
    (heq : a.priority = b.priority) : a = b := List.inj_on_of_nodup_map h.distinct ha hb heq

/-- Two types do not share a stream. -/
theorem Good.stream_ne (h : Good (pre ++ n :: post) created) {m : Node} (hm : m ∈ pre ++ post)
    {i : Nat} (hi : n.stream = some i) : m.stream ≠ some i := by
  intro hmi
  have hstreams := h.streams
  rw [List.filterMap_append, List.filterMap_cons, hi] at hstreams
  have hnot := (List.nodup_cons.mp (List.nodup_middle.mp hstreams)).1
  rw [← List.filterMap_append] at hnot
  exact hnot (List.mem_filterMap.mpr ⟨m, hm, hmi⟩)

/-! ## The current stream -/

theorem foldl_look (hopen : ∀ n ∈ l, 0 ≤ n.openRefs) (current : Option Nat × Nat) :
    (l.foldl look current = current ∧ ∀ m ∈ l, 0 < m.openRefs → m.priority < current.2) ∨
      ∃ n ∈ l, 0 < n.openRefs ∧ l.foldl look current = (n.stream, n.priority) ∧
        current.2 ≤ n.priority ∧ ∀ m ∈ l, 0 < m.openRefs → m.priority ≤ n.priority := by
  induction l generalizing current with
  | nil => exact .inl ⟨rfl, fun m hm => absurd hm List.not_mem_nil⟩
  | cons n l ih =>
    have hn := hopen n List.mem_cons_self
    have hl := fun m hm => hopen m (List.mem_cons_of_mem n hm)
    rw [List.foldl_cons]
    by_cases hlook : n.openRefs ≠ 0 ∧ current.2 ≤ n.priority
    · have hpos : 0 < n.openRefs := by omega
      rw [look, if_pos hlook]
      refine .inr ?_
      rcases ih hl (n.stream, n.priority) with ⟨heq, hlt⟩ | ⟨m, hm, hpm, heq, hle, htop⟩
      · refine ⟨n, List.mem_cons_self, hpos, heq, hlook.2, fun m hm hpm => ?_⟩
        rcases List.mem_cons.mp hm with he | hm
        · exact Nat.le_of_eq (congrArg Node.priority he)
        · exact Nat.le_of_lt (hlt m hm hpm)
      · refine ⟨m, List.mem_cons_of_mem n hm, hpm, heq, Nat.le_trans hlook.2 hle,
          fun k hk hpk => ?_⟩
        rcases List.mem_cons.mp hk with he | hk
        · rw [he]
          exact hle
        · exact htop k hk hpk
    · rw [look, if_neg hlook]
      rcases ih hl current with ⟨heq, hlt⟩ | ⟨m, hm, hpm, heq, hle, htop⟩
      · refine .inl ⟨heq, fun m hm hpm => ?_⟩
        rcases List.mem_cons.mp hm with he | hm
        · rw [he] at hpm ⊢
          omega
        · exact hlt m hm hpm
      · refine .inr ⟨m, List.mem_cons_of_mem n hm, hpm, heq, hle, fun k hk hpk => ?_⟩
        rcases List.mem_cons.mp hk with he | hk
        · rw [he] at hpk ⊢
          omega
        · exact htop k hk hpk

/-- Either no type is open, or one of them is the top. -/
theorem Good.current (h : Good l created) :
    (l.foldl look (none, 0) = (none, 0) ∧ ∀ m ∈ l, ¬0 < m.openRefs) ∨
      ∃ n, IsTop l n ∧ l.foldl look (none, 0) = (n.stream, n.priority) := by
  rcases foldl_look h.openRefs (none, 0) with ⟨heq, hlt⟩ | ⟨n, hn, hpos, heq, -, htop⟩
  · exact .inl ⟨heq, fun m hm hpm => Nat.not_lt_zero _ (hlt m hm hpm)⟩
  · exact .inr ⟨n, ⟨hn, hpos, htop⟩, heq⟩

theorem Good.isTop_inj (h : Good l created) {a b : Node} (ha : IsTop l a) (hb : IsTop l b) :
    a = b :=
  h.eq_of_priority ha.mem hb.mem
    (Nat.le_antisymm (hb.top a ha.mem ha.opened) (ha.top b hb.mem hb.opened))

theorem Good.current_of_top (h : Good l created) (hn : IsTop l n) :
    l.foldl look (none, 0) = (n.stream, n.priority) := by
  rcases h.current with ⟨-, hnone⟩ | ⟨m, hm, heq⟩
  · exact absurd hn.opened (hnone n hn.mem)
  · rw [heq, h.isTop_inj hm hn]

theorem Good.current_of_none (h : Good l created) (hnone : ∀ m ∈ l, ¬0 < m.openRefs) :
    l.foldl look (none, 0) = (none, 0) := by
  rcases h.current with ⟨heq, -⟩ | ⟨m, hm, -⟩
  · exact heq
  · exact absurd hm.opened (hnone m hm.mem)

/-- The types that are open behind the last close of another. -/
theorem Good.lower_of_closed {pre post : List Node} {n : Node} {created : Nat}
    (h : Good (pre ++ { n with openRefs := n.openRefs - 1 } :: post) created) :
    ¬n.priority < findCurrentSoundStreamPriority
        (pre ++ { n with openRefs := n.openRefs - 1 } :: post) ↔
      ∀ m ∈ pre ++ { n with openRefs := n.openRefs - 1 } :: post, 0 < m.openRefs →
        m.priority ≤ n.priority := by
  rcases h.current with ⟨heq, hnone⟩ | ⟨k, hk, heq⟩
  · rw [findCurrentSoundStreamPriority, heq]
    exact ⟨fun _ m hm hpos => absurd hpos (hnone m hm), fun _ => Nat.not_lt_zero _⟩
  · rw [findCurrentSoundStreamPriority, heq]
    exact ⟨fun hle m hm hpos => Nat.le_trans (hk.top m hm hpos) (Nat.le_of_not_lt hle),
      fun htop => Nat.not_lt_of_le (htop k hk.mem hk.opened)⟩

theorem Good.not_mem (h : Good (pre ++ n :: post) created) : n ∉ pre ++ post := by
  have hdistinct := h.distinct
  rw [List.map_append, List.map_cons] at hdistinct
  have hnot := (List.nodup_cons.mp (List.nodup_middle.mp hdistinct)).1
  rw [← List.map_append] at hnot
  exact fun hmem => hnot (List.mem_map_of_mem hmem)

/-- Behind the close of a type there is a current stream when another type is open. -/
theorem Good.other_open (h : Good (pre ++ n :: post) created)
    (h' : Good (pre ++ n' :: post) created) (hn' : ¬0 < n'.openRefs) :
    (∃ i, findCurrentSoundStream (pre ++ n' :: post) = some i) ↔
      ∃ m ∈ pre ++ n :: post, 0 < m.openRefs ∧ m ≠ n := by
  rcases h'.current with ⟨heq, hnone⟩ | ⟨k, hk, heq⟩
  · rw [findCurrentSoundStream, heq]
    refine ⟨fun ⟨i, hi⟩ => absurd hi.symm (Option.some_ne_none i), fun ⟨m, hm, hpos, hne⟩ => ?_⟩
    have hrest := (mem_split.mp hm).resolve_left hne
    exact absurd hpos (hnone m (mem_split.mpr (.inr hrest)))
  · rw [findCurrentSoundStream, heq]
    have hkn' : k ≠ n' := fun he => hn' (he ▸ hk.opened)
    have hrest := (mem_split.mp hk.mem).resolve_left hkn'
    refine ⟨fun _ => ⟨k, mem_split.mpr (.inr hrest), hk.opened, fun he => h.not_mem (he ▸ hrest)⟩,
      fun _ => Option.isSome_iff_exists.mp ?_⟩
    exact (h'.stream k hk.mem).mp (h'.users k hk.mem hk.opened)

/-- The top among the others stays the top. -/
theorem isTop_set {m : Node} (hm : IsTop (pre ++ n :: post) m)
    (hne : m ≠ n) (hn : 0 < n'.openRefs → n'.priority ≤ m.priority) :
    IsTop (pre ++ n' :: post) m := by
  refine ⟨mem_split.mpr (.inr ((mem_split.mp hm.mem).resolve_left hne)), hm.opened,
    fun k hk hpk => ?_⟩
  rcases mem_split.mp hk with he | hk
  · rw [he] at hpk ⊢
    exact hn hpk
  · exact hm.top k (mem_split.mpr (.inr hk)) hpk

theorem Good.setOpenRefs (h : Good (pre ++ n :: post) created) (hcreated : 0 < n.createRefs)
    {refs : Int} (hrefs : 0 ≤ refs) : Good (pre ++ { n with openRefs := refs } :: post) created :=
  have hn : n ∈ pre ++ n :: post := mem_split.mpr (.inl rfl)
  h.set rfl hrefs (h.createRefs n hn) (fun _ => hcreated) (h.stream n hn) (.inl rfl)

/-- A type below the current one does not change it. -/
theorem Good.current_of_lower (h : Good (pre ++ n :: post) created)
    (h' : Good (pre ++ n' :: post) created) (hpriority : n'.priority = n.priority)
    (hlower : n.priority < findCurrentSoundStreamPriority (pre ++ n :: post)) :
    findCurrentSoundStream (pre ++ n' :: post) = findCurrentSoundStream (pre ++ n :: post) := by
  rcases h.current with ⟨heq, -⟩ | ⟨m, hm, heq⟩
  · rw [findCurrentSoundStreamPriority, heq] at hlower
    exact absurd hlower (Nat.not_lt_zero _)
  · rw [findCurrentSoundStreamPriority, heq] at hlower
    have hmn : m ≠ n := fun he => Nat.lt_irrefl _ (he ▸ hlower)
    have htop : IsTop (pre ++ n' :: post) m :=
      isTop_set hm hmn fun _ => hpriority ▸ Nat.le_of_lt hlower
    rw [findCurrentSoundStream, findCurrentSoundStream, h'.current_of_top htop, heq]

/-- A node that stays open, or closed, leaves the current stream alone. -/
theorem current_set (hopen : n'.openRefs ≠ 0 ↔ n.openRefs ≠ 0)
    (hpriority : n'.priority = n.priority) (hstream : n.openRefs ≠ 0 → n'.stream = n.stream)
    (current : Option Nat × Nat) :
    (pre ++ n' :: post).foldl look current = (pre ++ n :: post).foldl look current := by
  have hlook : ∀ c, look c n' = look c n := by
    intro c
    rw [look, look]
    by_cases hn : n.openRefs ≠ 0
    · rw [hpriority, hstream hn]
      exact if_congr (and_congr_left' hopen) rfl rfl
    · rw [if_neg fun h => hn (hopen.mp h.1), if_neg fun h => hn h.1]
  rw [List.foldl_append, List.foldl_append, List.foldl_cons, List.foldl_cons, hlook]

end

namespace State

structure Inv (s : State) : Prop where
  good : Good s.nodes s.created
  driver : ∀ j, s.opened j = true ↔ findCurrentSoundStream s.nodes = some j
  context : ∀ c, s.context = some c → c = findCurrentSoundStream s.nodes
  used : ∀ n ∈ s.nodes, 0 < n.createRefs → s.context ≠ none
  misused : s.misused = false

section
variable {s : State}

theorem Inv.arbitrated (h : s.Inv) : s.Arbitrated where
  none := by
    intro hnone i
    have hcurrent : findCurrentSoundStream s.nodes = none :=
      congrArg Prod.fst (h.good.current_of_none hnone)
    refine Bool.eq_false_iff.mpr fun hi => ?_
    exact absurd (hcurrent.symm.trans ((h.driver i).mp hi)).symm (Option.some_ne_none i)
  top := by
    intro n hn
    have hcurrent : findCurrentSoundStream s.nodes = n.stream :=
      congrArg Prod.fst (h.good.current_of_top hn)
    have hcreated := h.good.users n hn.mem hn.opened
    obtain ⟨i, hi⟩ := Option.isSome_iff_exists.mp ((h.good.stream n hn.mem).mp hcreated)
    refine ⟨i, hi, fun j => ?_, ?_⟩
    · rw [h.driver j, hcurrent, hi, Option.some_inj]
      exact eq_comm
    · obtain ⟨c, hc⟩ := Option.ne_none_iff_exists'.mp (h.used n hn.mem hcreated)
      rw [hc, h.context c hc, hcurrent, hi]

theorem inv_init {types : List (Nat × Nat)} (hdistinct : (types.map Prod.snd).Nodup)
    (hpositive : ∀ t ∈ types, 0 < t.2) : (init types).Inv := by
  have hmem : ∀ n ∈ (init types).nodes, ∃ t ∈ types, Node.register t.1 t.2 = n :=
    fun n hn => List.mem_map.mp hn
  have hzero : ∀ n ∈ (init types).nodes, n.openRefs = 0 ∧ n.createRefs = 0 ∧ n.stream = none := by
    intro n hn
    obtain ⟨t, -, rfl⟩ := hmem n hn
    exact ⟨rfl, rfl, rfl⟩
  have hgood : Good (init types).nodes 0 := by
    refine ⟨?_, fun n hn => ?_, fun n hn => Int.le_of_eq (hzero n hn).1.symm,
      fun n hn => Int.le_of_eq (hzero n hn).2.1.symm, fun n hn hpos => ?_, fun n hn => ?_, ?_,
      fun n hn i hi => ?_⟩
    · have heq : (init types).nodes.map Node.priority = types.map Prod.snd := List.map_map ..
      rw [heq]
      exact hdistinct
    · obtain ⟨t, ht, rfl⟩ := hmem n hn
      exact hpositive t ht
    · rw [(hzero n hn).1] at hpos
      exact absurd hpos (Int.lt_irrefl 0)
    · rw [(hzero n hn).2.1, (hzero n hn).2.2]
      exact ⟨fun h => absurd h (Int.lt_irrefl 0), fun h => absurd h Bool.false_ne_true⟩
    · have hnil : (init types).nodes.filterMap Node.stream = [] :=
        List.filterMap_eq_nil_iff.mpr fun n hn => (hzero n hn).2.2
      rw [hnil]
      exact List.nodup_nil
    · exact absurd ((hzero n hn).2.2.symm.trans hi).symm (Option.some_ne_none i)
  have hcurrent : findCurrentSoundStream (init types).nodes = none :=
    congrArg Prod.fst (hgood.current_of_none fun n hn => by
      rw [(hzero n hn).1]
      exact Int.lt_irrefl 0)
  refine ⟨hgood, fun j => ?_, fun c hc => absurd hc.symm (Option.some_ne_none c),
    fun n hn hpos => ?_, rfl⟩
  · rw [hcurrent]
    exact ⟨fun h => absurd h Bool.false_ne_true, fun h => absurd h.symm (Option.some_ne_none j)⟩
  · rw [(hzero n hn).2.1] at hpos
    exact absurd hpos (Int.lt_irrefl 0)

/-! ## Creating and destroying -/

/-- A node that stays open, or closed, changes. -/
theorem Inv.set (h : s.Inv) {type : Nat} {n : Node} {f : Node → Node} {created : Nat}
    (hfind : findStreamNodeByType s.nodes type = some n)
    (hopen : (f n).openRefs ≠ 0 ↔ n.openRefs ≠ 0) (hpriority : (f n).priority = n.priority)
    (hstream : n.openRefs ≠ 0 → (f n).stream = n.stream) (hcontext : s.context ≠ none)
    (hgood : ∀ pre post, Good (pre ++ n :: post) s.created → Good (pre ++ f n :: post) created) :
    Inv { s.set type f with created } := by
  obtain ⟨pre, post, hl, hset⟩ := setNode_split hfind
  have hnodes : (s.set type f).nodes = pre ++ f n :: post := hset f
  have hcurrent : findCurrentSoundStream (s.set type f).nodes = findCurrentSoundStream s.nodes := by
    rw [findCurrentSoundStream, findCurrentSoundStream, hnodes, hl,
      current_set hopen hpriority hstream]
  refine ⟨?_, fun j => ?_, fun c hc => ?_, fun _ _ _ => hcontext, h.misused⟩
  · dsimp only
    rw [hnodes]
    exact hgood pre post (hl ▸ h.good)
  · dsimp only
    rw [hcurrent]
    exact h.driver j
  · dsimp only
    rw [hcurrent]
    exact h.context c hc

theorem mem_of_find {l : List Node} {type : Nat} {n : Node}
    (h : findStreamNodeByType l type = some n) : n ∈ l := List.mem_of_find?_eq_some h

theorem Inv.soundStreamCreate (h : s.Inv) (hcontext : s.context ≠ none) (type : Nat) (ok : Bool) :
    (s.soundStreamCreate type ok).1.Inv := by
  rw [State.soundStreamCreate]
  cases hfind : findStreamNodeByType s.nodes type with
  | none => exact h
  | some n =>
    have hn := mem_of_find hfind
    have hcreate := h.good.createRefs n hn
    have hopen := h.good.openRefs n hn
    have husers := h.good.users n hn
    have hstream := h.good.stream n hn
    dsimp only
    split
    · rename_i hmore
      refine h.set hfind Iff.rfl rfl (fun _ => rfl) hcontext fun pre post hg => ?_
      refine hg.set rfl hopen (by dsimp only; omega) (fun _ => by dsimp only; omega) ?_ (.inl rfl)
      rw [← hstream]
      dsimp only
      omega
    · rename_i hmore
      have hnone : n.stream = none := by
        refine Option.not_isSome_iff_eq_none.mp fun hsome => ?_
        have := hstream.mpr hsome
        omega
      split
      · refine h.set hfind Iff.rfl rfl (fun hne => ?_) hcontext fun pre post hg =>
          hg.create hnone rfl rfl (by dsimp only; omega) rfl
        omega
      · refine h.set hfind Iff.rfl rfl (fun _ => hnone.symm) hcontext fun pre post hg => ?_
        refine hg.set rfl hopen (by dsimp only; omega) (fun hpos => ?_) ?_ (.inr rfl)
        · have := husers hpos
          omega
        · dsimp only
          rw [Int.add_sub_cancel, hstream, hnone]

/-- No type is created. -/
theorem createRefs_of_destroyed {l : List Node} (h : allSoundStreamIsDestroyed l = true) :
    ∀ n ∈ l, n.createRefs = 0 := fun n hn => of_decide_eq_true (List.all_eq_true.mp h n hn)

theorem Inv.current_of_destroyed (h : s.Inv) (hd : allSoundStreamIsDestroyed s.nodes = true) :
    findCurrentSoundStream s.nodes = none :=
  congrArg Prod.fst (h.good.current_of_none fun n hn hpos => by
    have := h.good.users n hn hpos
    have := createRefs_of_destroyed hd n hn
    omega)

theorem Inv.newContext (h : s.Inv) (hd : allSoundStreamIsDestroyed s.nodes = true) :
    Inv { s with context := some none } :=
  ⟨h.good, h.driver, fun c hc => by cases hc; exact (h.current_of_destroyed hd).symm,
    fun _ _ _ => Option.some_ne_none _, h.misused⟩

theorem Inv.noContext (h : s.Inv) (hd : allSoundStreamIsDestroyed s.nodes = true) :
    Inv { s with context := none } :=
  ⟨h.good, h.driver, fun c hc => absurd hc.symm (Option.some_ne_none c),
    fun n hn hpos => absurd (createRefs_of_destroyed hd n hn) (by omega), h.misused⟩

theorem Inv.sndStreamCreate (h : s.Inv) (type : Nat) (malloc ok : Bool) :
    (s.sndStreamCreate type malloc ok).Inv := by
  have hend : ∀ {r : State × Int}, r.1.Inv →
      Inv (if r.2 ≠ 0 ∧ allSoundStreamIsDestroyed r.1.nodes then { r.1 with context := none }
        else r.1) := by
    intro r hr
    split
    · rename_i hd
      exact hr.noContext hd.2
    · exact hr
  rw [State.sndStreamCreate]
  split
  · exact h
  · refine hend ?_
    split
    · rename_i hd
      exact (h.newContext hd).soundStreamCreate (Option.some_ne_none _) type ok
    · rename_i hd
      refine h.soundStreamCreate (fun hnone => hd (List.all_eq_true.mpr fun n hn => ?_)) type ok
      have hcreate := h.good.createRefs n hn
      refine decide_eq_true (Int.le_antisymm (Int.not_lt.mp fun hpos => ?_) hcreate)
      exact h.used n hn hpos hnone

theorem Inv.sndStreamDestroy (h : s.Inv) (type : Nat)
    (hclosed : findOpenRefsByType s.nodes type = 0) : (s.sndStreamDestroy type).Inv := by
  rw [State.sndStreamDestroy]
  split
  · exact h
  · rename_i hc
    have hdestroy : (s.soundStreamDestroy type).Inv := by
      rw [State.soundStreamDestroy]
      rw [findOpenRefsByType] at hclosed
      rw [findCreateRefsByType] at hc
      cases hfind : findStreamNodeByType s.nodes type with
      | none => exact h
      | some n =>
        rw [hfind] at hclosed hc
        dsimp only at hclosed hc ⊢
        have hn := mem_of_find hfind
        have hcreate := h.good.createRefs n hn
        have hstream := h.good.stream n hn
        have hcontext := h.used n hn (by omega)
        split
        · refine h.set hfind Iff.rfl rfl (fun _ => rfl) hcontext fun pre post hg => ?_
          refine hg.set rfl (by dsimp only; omega) (by dsimp only; omega)
            (fun _ => by dsimp only; omega) ?_ (.inl rfl)
          rw [← hstream]
          dsimp only
          omega
        · refine h.set hfind Iff.rfl rfl (fun hne => absurd hclosed hne) hcontext
            fun pre post hg => ?_
          refine hg.set rfl (by dsimp only; omega) (by dsimp only; omega)
            (fun hpos => by dsimp only at hpos; omega) ?_ (.inr rfl)
          refine ⟨fun hpos => ?_, fun h => absurd h Bool.false_ne_true⟩
          dsimp only at hpos
          omega
    dsimp only
    split
    · rename_i hd
      exact hdestroy.noContext hd
    · exact hdestroy

/-! ## Opening and closing -/

/-- The driver of the top is the one that is open, and the context is refreshed. -/
theorem inv_refresh (hgood : Good s.nodes s.created)
    (hdriver : ∀ j, s.opened j = true ↔ findCurrentSoundStream s.nodes = some j)
    (hcontext : s.context ≠ none) (hmisused : s.misused = false) : s.refresh.Inv := by
  refine ⟨hgood, hdriver, fun c hc => ?_, fun _ _ _ => ?_, hmisused⟩
  · obtain ⟨c', -, he⟩ := Option.map_eq_some_iff.mp hc
    exact he.symm
  · rw [refresh]
    exact fun h => hcontext (Option.map_eq_none_iff.mp h)

theorem Inv.refresh (h : s.Inv) (hcontext : s.context ≠ none) : s.refresh.Inv :=
  inv_refresh h.good h.driver hcontext h.misused

theorem update_true_iff {opened : Nat → Bool} {i j : Nat} (h : ∀ j, j ≠ i → opened j = false) :
    Function.update opened i true j = true ↔ some i = some j := by
  rw [Option.some_inj]
  by_cases hj : j = i
  · rw [hj, Function.update_self]
    exact ⟨fun _ => rfl, fun _ => rfl⟩
  · rw [Function.update_of_ne hj, h j hj]
    exact ⟨fun h => absurd h Bool.false_ne_true, fun h => absurd h.symm hj⟩

/-- The driver of a type that is not open is not open. -/
theorem Inv.not_opened (h : s.Inv) {pre post : List Node} {n : Node} {i : Nat}
    (hl : s.nodes = pre ++ n :: post) (hn : ¬0 < n.openRefs) (hi : n.stream = some i) :
    s.opened i = false := by
  refine Bool.eq_false_iff.mpr fun hopened => ?_
  have hcurrent := (h.driver i).mp hopened
  have hgood := h.good
  rw [hl] at hcurrent hgood
  rcases hgood.current with ⟨heq, -⟩ | ⟨m, hm, heq⟩
  · rw [findCurrentSoundStream, heq] at hcurrent
    exact absurd hcurrent.symm (Option.some_ne_none i)
  · rw [findCurrentSoundStream, heq] at hcurrent
    have hmn : m ≠ n := fun he => hn (he ▸ hm.opened)
    exact hgood.stream_ne ((mem_split.mp hm.mem).resolve_left hmn) hi hcurrent

/-- The type gets the driver: its own is opened, and the one that was open is closed. -/
theorem Inv.takeOver (h : s.Inv) {pre post : List Node} {n n' : Node} {i : Nat}
    {nodes : List Node} (hl : s.nodes = pre ++ n :: post) (hn : ¬0 < n.openRefs)
    (hi : n.stream = some i) (hnodes : nodes = pre ++ n' :: post) (hgood : Good nodes s.created)
    (hn' : 0 < n'.openRefs) (hi' : n'.stream = some i)
    (htop : findCurrentSoundStreamPriority s.nodes ≤ n'.priority) (hcontext : s.context ≠ none) :
    (soundStreamClose
      { s with
        nodes
        misused := s.misused || s.opened i
        opened := Function.update s.opened i true }
      (findCurrentSoundStream s.nodes)).refresh.Inv := by
  have hclosed := h.not_opened hl hn hi
  have htop' : IsTop (pre ++ n' :: post) n' := by
    refine ⟨mem_split.mpr (.inl rfl), hn', fun k hk hpk => ?_⟩
    rcases mem_split.mp hk with he | hk
    · exact Nat.le_of_eq (congrArg Node.priority he)
    · have hk' : k ∈ s.nodes := hl ▸ mem_split.mpr (.inr hk)
      rcases h.good.current with ⟨-, hnone⟩ | ⟨m, hm, heq⟩
      · exact absurd hpk (hnone k hk')
      · have hpriority : findCurrentSoundStreamPriority s.nodes = m.priority :=
          congrArg Prod.snd heq
        exact Nat.le_trans (hm.top k hk' hpk) (hpriority ▸ htop)
  have hcurrent : findCurrentSoundStream nodes = some i := by
    rw [hnodes] at hgood ⊢
    rw [findCurrentSoundStream, hgood.current_of_top htop']
    exact hi'
  cases hold : findCurrentSoundStream s.nodes with
  | none =>
    refine inv_refresh hgood (fun j => ?_) hcontext ?_
    · dsimp only [soundStreamClose]
      rw [hcurrent]
      refine update_true_iff fun j _ => Bool.eq_false_iff.mpr fun hopened => ?_
      exact absurd (((h.driver j).mp hopened).symm.trans hold) (Option.some_ne_none j)
    · dsimp only [soundStreamClose]
      rw [h.misused, hclosed]
      rfl
  | some k =>
    have hopened := (h.driver k).mpr hold
    have hki : k ≠ i := by
      rintro rfl
      exact absurd (hclosed.symm.trans hopened) Bool.false_ne_true
    refine inv_refresh hgood (fun j => ?_) hcontext ?_
    · dsimp only [soundStreamClose]
      rw [hcurrent, Function.update_comm hki.symm]
      refine update_true_iff fun j _ => ?_
      by_cases hj : j = k
      · rw [hj, Function.update_self]
      · rw [Function.update_of_ne hj]
        refine Bool.eq_false_iff.mpr fun hopened => hj ?_
        exact Option.some_inj.mp (((h.driver j).mp hopened).symm.trans hold)
    · dsimp only [soundStreamClose]
      rw [h.misused, hclosed, Function.update_of_ne hki, hopened]
      rfl

/-- What `SoundStreamSelectOpen` does: the counts and the open driver. -/
theorem Inv.selectOpen (h : s.Inv) {type : Nat} {n : Node} (ok : Bool)
    (hfind : findStreamNodeByType s.nodes type = some n) (hcreated : 0 < n.createRefs) :
    (s.soundStreamSelectOpen type ok).1.refresh.Inv ∧
      ((s.soundStreamSelectOpen type ok).2 ≠ 0 →
        (s.soundStreamSelectOpen type ok).1.nodes = s.nodes ∧
          (s.soundStreamSelectOpen type ok).1.opened = s.opened) := by
  have hn := mem_of_find hfind
  have hopen := h.good.openRefs n hn
  have hcontext := h.used n hn hcreated
  obtain ⟨i, hi⟩ := Option.isSome_iff_exists.mp ((h.good.stream n hn).mp hcreated)
  obtain ⟨pre, post, hl, hset⟩ := setNode_split hfind
  have hbefore : Good (pre ++ n :: post) s.created := hl ▸ h.good
  have hgood : Good (pre ++ { n with openRefs := n.openRefs + 1 } :: post) s.created :=
    hbefore.setOpenRefs hcreated (by omega)
  rw [State.soundStreamSelectOpen, hfind]
  dsimp only
  split
  · rename_i hmore
    refine ⟨Inv.refresh (h.set hfind ?_ rfl (fun _ => rfl) hcontext fun pre post hg => ?_) hcontext,
      fun hne => absurd rfl hne⟩
    · dsimp only
      omega
    · exact hg.setOpenRefs hcreated (by omega)
  · rename_i hfirst
    have hzero : ¬0 < n.openRefs := by omega
    split
    · rename_i hlower
      refine ⟨inv_refresh ?_ (fun j => ?_) hcontext h.misused, fun hne => absurd rfl hne⟩
      · dsimp only [State.set]
        rw [hset]
        exact hgood
      · dsimp only [State.set]
        rw [hset, h.driver j, hl, hbefore.current_of_lower hgood rfl (hl ▸ hlower)]
    · rename_i hhigher
      rw [hi]
      cases ok with
      | true =>
        refine ⟨h.takeOver hl hzero hi (hset _) ?_ (by dsimp only; omega) hi
          (Nat.le_of_not_lt hhigher) hcontext, fun hne => absurd rfl hne⟩
        change Good (setNode type _ s.nodes) s.created
        rw [hset]
        exact hgood
      | false =>
        have hnodes : setNode type (fun n => { n with openRefs := n.openRefs - 1 })
            (setNode type (fun n => { n with openRefs := n.openRefs + 1 }) s.nodes) = s.nodes := by
          refine setNode_setNode _ _ (fun _ => rfl) fun n => ?_
          dsimp only
          rw [Int.add_sub_cancel]
        refine ⟨inv_refresh ?_ (fun j => ?_) hcontext ?_, fun _ => ⟨hnodes, rfl⟩⟩
        · exact hnodes.symm ▸ h.good
        · change s.opened j = true ↔
            findCurrentSoundStream (setNode type _ (setNode type _ s.nodes)) = some j
          rw [hnodes]
          exact h.driver j
        · exact Bool.or_eq_false_iff.mpr ⟨h.misused, h.not_opened hl hzero hi⟩

theorem find_of_createRefs {l : List Node} {type : Nat} (h : findCreateRefsByType l type ≠ 0) :
    ∃ n, findStreamNodeByType l type = some n ∧ n.createRefs ≠ 0 := by
  rw [findCreateRefsByType] at h
  cases hfind : findStreamNodeByType l type with
  | none =>
    rw [hfind] at h
    exact absurd rfl h
  | some n =>
    rw [hfind] at h
    exact ⟨n, rfl, h⟩

theorem find_of_openRefs {l : List Node} {type : Nat} (h : findOpenRefsByType l type ≠ 0) :
    ∃ n, findStreamNodeByType l type = some n ∧ n.openRefs ≠ 0 := by
  rw [findOpenRefsByType] at h
  cases hfind : findStreamNodeByType l type with
  | none =>
    rw [hfind] at h
    exact absurd rfl h
  | some n =>
    rw [hfind] at h
    exact ⟨n, rfl, h⟩

theorem Inv.sndStreamOpen (h : s.Inv) (type : Nat) (ok : Bool) :
    (s.sndStreamOpen type ok).1.Inv ∧ ((s.sndStreamOpen type ok).2 ≠ 0 →
      (s.sndStreamOpen type ok).1.nodes = s.nodes ∧
        (s.sndStreamOpen type ok).1.opened = s.opened) := by
  rw [State.sndStreamOpen]
  split
  · exact ⟨h, fun _ => ⟨rfl, rfl⟩⟩
  · rename_i hc
    obtain ⟨n, hfind, hne⟩ := find_of_createRefs hc
    have hcreate := h.good.createRefs n (mem_of_find hfind)
    exact h.selectOpen ok hfind (by omega)

/-- The last user closes the type that has the driver: no driver is open. -/
structure Closed (s s' : State) (type : Nat) : Prop where
  nodes : s'.nodes = setNode type (fun n => { n with openRefs := n.openRefs - 1 }) s.nodes
  good : Good s'.nodes s'.created
  driver : ∀ j, s'.opened j = false
  context : s'.context = s.context
  misused : s'.misused = false

theorem Inv.closed (h : s.Inv) {type : Nat} {n : Node}
    (hfind : findStreamNodeByType s.nodes type = some n) (hone : n.openRefs = 1)
    (htop : ∀ m ∈ s.nodes, 0 < m.openRefs → m.priority ≤ n.priority) :
    Closed s ((s.set type fun n => { n with openRefs := n.openRefs - 1 }).soundStreamClose n.stream)
      type := by
  have hn := mem_of_find hfind
  have hcreated := h.good.users n hn (by omega)
  obtain ⟨i, hi⟩ := Option.isSome_iff_exists.mp ((h.good.stream n hn).mp hcreated)
  obtain ⟨pre, post, hl, hset⟩ := setNode_split hfind
  have hbefore : Good (pre ++ n :: post) s.created := hl ▸ h.good
  have hgood : Good (pre ++ { n with openRefs := n.openRefs - 1 } :: post) s.created :=
    hbefore.setOpenRefs hcreated (by omega)
  have hcurrent : findCurrentSoundStream s.nodes = some i := by
    rw [findCurrentSoundStream, h.good.current_of_top ⟨hn, by omega, htop⟩]
    exact hi
  rw [hi]
  refine ⟨rfl, ?_, fun j => ?_, rfl, ?_⟩
  · change Good (setNode type _ s.nodes) s.created
    rw [hset]
    exact hgood
  · dsimp only [soundStreamClose]
    by_cases hj : j = i
    · rw [hj, Function.update_self]
    · rw [Function.update_of_ne hj]
      refine Bool.eq_false_iff.mpr fun hopened => hj ?_
      exact Option.some_inj.mp (((h.driver j).mp hopened).symm.trans hcurrent)
  · change (s.misused || !s.opened i) = false
    rw [h.misused, (h.driver i).mpr hcurrent]
    rfl

/-- What `SoundStreamSelectClose` does, when the driver that it hands back to opens. -/
theorem Inv.selectClose (h : s.Inv) {type : Nat} {n : Node} {ok : Bool}
    (hfind : findStreamNodeByType s.nodes type = some n) (hopen : n.openRefs ≠ 0)
    (hok : s.HandsBack type → ok = true) : (s.soundStreamSelectClose type ok).1.refresh.Inv := by
  have hn := mem_of_find hfind
  have hnonneg := h.good.openRefs n hn
  have hcreated := h.good.users n hn (by omega)
  have hcontext := h.used n hn hcreated
  obtain ⟨pre, post, hl, hset⟩ := setNode_split hfind
  have hbefore : Good (pre ++ n :: post) s.created := hl ▸ h.good
  have hgood' : Good (pre ++ { n with openRefs := n.openRefs - 1 } :: post) s.created :=
    hbefore.setOpenRefs hcreated (by omega)
  rw [State.soundStreamSelectClose, hfind]
  dsimp only
  split
  · refine Inv.refresh (h.set hfind ?_ rfl (fun _ => rfl) hcontext fun _ _ hg => ?_) hcontext
    · dsimp only
      omega
    · exact hg.setOpenRefs hcreated (by omega)
  · rename_i hlast
    have hone : n.openRefs = 1 := by omega
    split
    · rename_i hlower
      refine inv_refresh ?_ (fun j => ?_) hcontext h.misused
      · change Good (setNode type _ s.nodes) s.created
        rw [hset]
        exact hgood'
      · change s.opened j = true ↔ findCurrentSoundStream (setNode type _ s.nodes) = some j
        change n.priority < findCurrentSoundStreamPriority (setNode type _ s.nodes) at hlower
        rw [hset] at hlower ⊢
        rw [h.driver j, hl, hgood'.current_of_lower hbefore rfl hlower]
    · rename_i hhigher
      change ¬n.priority < findCurrentSoundStreamPriority (setNode type _ s.nodes) at hhigher
      rw [hset] at hhigher
      have htop : ∀ m ∈ s.nodes, 0 < m.openRefs → m.priority ≤ n.priority := by
        intro m hm hpos
        rcases mem_split.mp (hl ▸ hm) with he | hm
        · exact Nat.le_of_eq (congrArg Node.priority he)
        · exact hgood'.lower_of_closed.mp hhigher m (mem_split.mpr (.inr hm)) hpos
      have hclosed := h.closed hfind hone htop
      generalize soundStreamClose _ n.stream = s' at hclosed ⊢
      have hcontext' := hclosed.context ▸ hcontext
      cases hcurrent : findCurrentSoundStream s'.nodes with
      | none =>
        refine inv_refresh hclosed.good (fun j => ?_) hcontext' hclosed.misused
        dsimp only
        rw [hcurrent, hclosed.driver j]
        exact ⟨fun h => absurd h Bool.false_ne_true, fun h => absurd h.symm (Option.some_ne_none j)⟩
      | some k =>
        have hback : s.HandsBack type := by
          refine ⟨n, hfind, hone, htop, ?_⟩
          rw [hclosed.nodes, hset] at hcurrent
          rw [hl]
          exact (hbefore.other_open hgood' (by dsimp only; omega)).mp ⟨k, hcurrent⟩
        rw [hok hback]
        refine inv_refresh hclosed.good (fun j => ?_) hcontext' ?_
        · change Function.update s'.opened k true j = true ↔
            findCurrentSoundStream s'.nodes = some j
          rw [hcurrent]
          exact update_true_iff fun j _ => hclosed.driver j
        · change (s'.misused || s'.opened k) = false
          rw [hclosed.misused, hclosed.driver k]
          rfl

/-- When the driver that it hands back to does not open, a close leaves none open. -/
theorem Inv.selectClose_fails (h : s.Inv) {type : Nat} (hback : s.HandsBack type) :
    ¬(s.sndStreamClose type false).1.Arbitrated := by
  obtain ⟨n, hfind, hone, htop, m, hm, hpos, hne⟩ := hback
  have hn := mem_of_find hfind
  have hcreated := h.good.users n hn (by omega)
  obtain ⟨pre, post, hl, hset⟩ := setNode_split hfind
  have hbefore : Good (pre ++ n :: post) s.created := hl ▸ h.good
  have hgood : Good (pre ++ { n with openRefs := n.openRefs - 1 } :: post) s.created :=
    hbefore.setOpenRefs hcreated (by omega)
  have hopened : findOpenRefsByType s.nodes type ≠ 0 := by
    rw [findOpenRefsByType, hfind]
    dsimp only
    omega
  have hhigher : ¬n.priority < findCurrentSoundStreamPriority
      (s.set type fun n => { n with openRefs := n.openRefs - 1 }).nodes := by
    rw [State.set, hset]
    refine hgood.lower_of_closed.mpr fun k hk hpk => ?_
    rcases mem_split.mp hk with he | hk
    · rw [he] at hpk
      dsimp only at hpk
      omega
    · exact htop k (hl ▸ mem_split.mpr (.inr hk)) hpk
  have hclosed := h.closed hfind hone htop
  obtain ⟨k, hcurrent⟩ := (hbefore.other_open hgood (by dsimp only; omega)).mpr
    ⟨m, hl ▸ hm, hpos, hne⟩
  intro harb
  rw [State.sndStreamClose, if_neg hopened, State.soundStreamSelectClose, hfind] at harb
  dsimp only at harb
  rw [if_neg (by omega), if_neg hhigher] at harb
  generalize soundStreamClose _ n.stream = s' at hclosed harb
  have hcurrent' : findCurrentSoundStream s'.nodes = some k := by
    rw [hclosed.nodes, hset]
    exact hcurrent
  rw [hcurrent'] at harb
  rcases hclosed.good.current with ⟨heq, -⟩ | ⟨t, ht, -⟩
  · rw [findCurrentSoundStream, heq] at hcurrent'
    exact absurd hcurrent'.symm (Option.some_ne_none k)
  · obtain ⟨i, -, hi, -⟩ := harb.top t ht
    exact absurd ((hclosed.driver i).symm.trans ((hi i).mpr rfl)) Bool.false_ne_true

theorem Inv.step (h : s.Inv) (l : Label) (hd : s.DestroysClosed l) (hl : s.HandsBackWell l) :
    (s.step l).Inv := by
  cases l with
  | create type malloc ok => exact h.sndStreamCreate type malloc ok
  | destroy type => exact h.sndStreamDestroy type hd
  | sndOpen type ok => exact (h.sndStreamOpen type ok).1
  | sndClose type ok =>
    rw [State.step, State.sndStreamClose]
    split
    · exact h
    · rename_i hne
      obtain ⟨n, hfind, hopen⟩ := find_of_openRefs hne
      exact h.selectClose hfind hopen hl

/-- A call does what it is meant to exactly when the driver that it hands back to opens. -/
theorem Inv.lawful_handsBack (h : s.Inv) (l : Label) (hd : s.DestroysClosed l) :
    s.Lawful l ↔ s.HandsBackWell l := by
  constructor
  · intro hlaw
    cases l with
    | create type malloc ok => trivial
    | destroy type => trivial
    | sndOpen type ok => trivial
    | sndClose type ok =>
      intro hback
      by_contra hok
      rw [Bool.not_eq_true] at hok
      subst hok
      exact h.selectClose_fails hback hlaw.arbitrated
  · intro hl
    have hstep := h.step l hd hl
    refine ⟨hstep.arbitrated, hstep.misused, ?_⟩
    rintro type ok rfl
    exact (h.sndStreamOpen type ok).2

end

end State

/-! ## Runs -/

instance (s : State) (type : Nat) : Decidable (s.HandsBack type) := by
  unfold State.HandsBack
  infer_instance

instance (s : State) (l : Label) : Decidable (s.HandsBackWell l) := by
  cases l <;> unfold State.HandsBackWell <;> infer_instance

instance (s : State) (l : Label) : Decidable (s.DestroysClosed l) := by
  cases l <;> unfold State.DestroysClosed <;> infer_instance

/-- In a run that destroys a type only when it is not open, every call does what it is meant to
exactly when every driver that a close hands back to opens. -/
theorem streams_lawful {types : List (Nat × Nat)} (hdistinct : (types.map Prod.snd).Nodup)
    (hpositive : ∀ t ∈ types, 0 < t.2) (ls : List Label)
    (hd : Along State.step State.DestroysClosed (State.init types) ls) :
    Along State.step State.Lawful (State.init types) ls ↔
      Along State.step State.HandsBackWell (State.init types) ls := by
  have hiff : Along State.step (fun s l => s.DestroysClosed l ∧ s.Lawful l) (State.init types) ls ↔
      Along State.step (fun s l => s.DestroysClosed l ∧ s.HandsBackWell l) (State.init types) ls :=
    along_iff (State.inv_init hdistinct hpositive)
      (fun s l h => and_congr_right fun hd => h.lawful_handsBack l hd)
      fun s l h hl => h.step l hl.1 hl.2
  rw [along_and, along_and] at hiff
  exact ⟨fun h => (hiff.mp ⟨hd, h⟩).2, fun h => (hiff.mpr ⟨hd, h⟩).2⟩

/-- The card is opened, the reverb takes its driver over, and hands it back. -/
theorem streams_lawful_reverb :
    Along State.step State.Lawful (State.init [(0, 1), (1, 2)])
      [.create 0 true true, .create 1 true true, .sndOpen 0 true, .sndOpen 1 true,
        .sndClose 1 true, .destroy 1] :=
  (streams_lawful (by decide) (by decide) _ (by decide)).mpr (by decide)

/-- The card's driver does not open again as the reverb is closed: its type is open, and it is
not. -/
theorem streams_not_lawful :
    ¬Along State.step State.Lawful (State.init [(0, 1), (1, 2)])
      [.create 0 true true, .create 1 true true, .sndOpen 0 true, .sndOpen 1 true,
        .sndClose 1 false] := by
  rintro ⟨-, -, -, -, h, -⟩
  obtain ⟨i, hstream, hi, -⟩ :=
    h.arbitrated.top ⟨0, 1, some 0, 1, 1⟩ ⟨by decide, by decide, by decide⟩
  cases hstream
  exact absurd ((hi 0).mpr rfl) (by decide)

end SoundStream
end Audio
end XR806

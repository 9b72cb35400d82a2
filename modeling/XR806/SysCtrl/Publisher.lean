import Mathlib.Tactic
import XR806.Ring
import XR806.Trans.Run

/-!
# XR806.SysCtrl.Publisher

The publisher of the system controller and its observers. A trigger may call the publisher again, so
that notifies are nested; a state has one frame for each notify that runs, with the observer whose
trigger it is in.

A notify that has ended inside another one leaves the publisher idle, and its end takes observers
off the list that the other one still walks over. In a run that keeps clear of what follows from
that, and of four more slips around an observer that is attached again or touched again
(`Sound`), every notify keeps its promises (`publisher_ok`).
-/

namespace XR806
namespace SysCtrl
namespace Publisher

open Ring Trans

/-- `observer_state`, without `OBSERVER_WORKING`, which is set nowhere. -/
inductive ObserverState
  | idle
  | attached
  | attachedOnce
  | detached
deriving DecidableEq, Repr

/-- What the calls have asked for: `subscribed` when `attach` or `touch` has returned 0, and
`triggered` when a trigger is entered. -/
inductive Happened (α : Type*)
  | subscribed (obs : α) (once : Bool)
  | detached (obs : α)
  | triggered (obs : α)
deriving DecidableEq, Repr

/-- A notify in the trigger of `itor`, with the observers that it has triggered. For each observer
that it has come to, `turns` says whether the event matched one that was subscribed. -/
structure Frame (α : Type*) where
  event : UInt32
  itor : α
  triggered : List α
  turns : List (α × Bool)

/-- A notify that has ended, with the observers on the list at its end. -/
structure Notified (α : Type*) where
  triggered : List α
  turns : List (α × Bool)
  members : List α

/-- The node of an observer is `some`, and `none` is the head of the list. The frames, the notifies
that have ended and what has happened come with the latest first. -/
structure State (α : Type*) where
  links : Links (Option α)
  state : α → ObserverState
  working : Bool
  frames : List (Frame α)
  ended : List (Notified α)
  log : List (Happened α)

/-- The comparison of the publisher, and the events that the observers look for. -/
structure Base (α : Type*) where
  compare : UInt32 → UInt32 → Int
  event : α → UInt32

/-- A publisher that was just created, and observers that were just initialised. -/
def create (α : Type*) : State α where
  links := { next := id, prev := id }
  state := fun _ => .idle
  working := false
  frames := []
  ended := []
  log := []

section

variable {α : Type*} [DecidableEq α]

/-- What an observer is subscribed to: nothing, every event (`some false`) or one more event
(`some true`). -/
def subscription : List (Happened α) → α → Option Bool
  | [], _ => none
  | .subscribed obs once :: log, x => if x = obs then some once else subscription log x
  | .detached obs :: log, x => if x = obs then none else subscription log x
  | .triggered obs :: log, x =>
    if x = obs ∧ subscription log x = some true then none else subscription log x

/-- Only subscribed observers are triggered. -/
def LogOk : List (Happened α) → Prop
  | [] => True
  | .triggered obs :: log => subscription log obs ≠ none ∧ LogOk log
  | _ :: log => LogOk log

/-! ## The calls -/

def listEmpty (c : State α) (obs : α) : Prop := c.links.next (some obs) = some obs

instance (c : State α) (obs : α) : Decidable (listEmpty c obs) :=
  inferInstanceAs (Decidable (_ = _))

def attachState (once : Bool) : ObserverState := if once then .attachedOnce else .attached

/-- `__attach`, with its result. -/
def attach (c : State α) (once : Bool) (obs : α) : Int × State α :=
  if c.state obs = .detached then
    (0, { c with state := Function.update c.state obs (attachState once),
                 log := .subscribed obs once :: c.log })
  else if listEmpty c obs then
    (0, { c with links := c.links.addTail (some obs) none,
                 state := Function.update c.state obs (attachState once),
                 log := .subscribed obs once :: c.log })
  else (-1, c)

def detach (c : State α) (obs : α) : State α :=
  if c.working then
    { c with state := Function.update c.state obs .detached, log := .detached obs :: c.log }
  else
    { c with links := c.links.del (some obs), state := Function.update c.state obs .idle,
             log := .detached obs :: c.log }

variable (base : Base α)

/-- The check of the first loop of `notify`. -/
def Triggers (c : State α) (event : UInt32) (obs : α) : Prop :=
  base.compare event (base.event obs) = 0 ∧
    (c.state obs = .attached ∨ c.state obs = .attachedOnce)

instance (c : State α) (event : UInt32) (obs : α) : Decidable (Triggers base c event obs) :=
  inferInstanceAs (Decidable (_ ∧ _))

/-- The first loop from a position on, up to the next trigger or to the end of the list, with the
observers that it passes. It may take more steps than `fuel`. -/
def scan (c : State α) (event : UInt32) : Nat → Option α → Option (List α × Option α)
  | 0, _ => none
  | _ + 1, none => some ([], none)
  | fuel + 1, some obs =>
    if Triggers base c event obs then some ([], some obs)
    else (scan c event fuel (c.links.next (some obs))).map fun r => (obs :: r.1, r.2)

/-- The second loop, with the observers that it comes to. -/
def sweep : Nat → Links (Option α) → (α → ObserverState) → Option α →
    Option (List α × Links (Option α) × (α → ObserverState))
  | 0, _, _, _ => none
  | _ + 1, links, state, none => some ([], links, state)
  | fuel + 1, links, state, some obs =>
    let safe := links.next (some obs)
    (if state obs = .detached then
      sweep fuel (links.del (some obs)) (Function.update state obs .idle) safe
    else sweep fuel links state safe).map fun r => (obs :: r.1, r.2)

/-- The turn of an observer in a notify. -/
def turn (c : State α) (event : UInt32) (obs : α) : α × Bool :=
  (obs, base.compare event (base.event obs) = 0 ∧ subscription c.log obs ≠ none)

/-- `notify` from a position of its first loop on, up to the next trigger or its own end. -/
def walk (fuel : Nat) (c : State α) (event : UInt32) (triggered : List α)
    (turns : List (α × Bool)) (pos : Option α) : Option (State α) :=
  match scan base c event fuel pos with
  | none => none
  | some (passed, some obs) =>
    some { c with
      frames := { event, itor := obs, triggered := triggered ++ [obs],
                  turns := turns ++ (passed ++ [obs]).map (turn base c event) } :: c.frames
      log := .triggered obs :: c.log }
  | some (passed, none) =>
    (sweep fuel c.links c.state (c.links.next none)).map fun (members, links, state) =>
      { c with
        links, state, working := false
        ended := { triggered, turns := turns ++ passed.map (turn base c event), members } ::
          c.ended }

def notify (fuel : Nat) (c : State α) (event : UInt32) : Option (State α) :=
  walk base fuel { c with working := true } event [] [] (c.links.next none)

/-- The trigger of the innermost notify has returned: a one-shot observer is used up. -/
def returned (c : State α) (f : Frame α) (frames : List (Frame α)) : State α :=
  { c with
    frames
    state := if c.state f.itor = .attachedOnce then Function.update c.state f.itor .detached
      else c.state }

def ret (fuel : Nat) (c : State α) : Option (State α) :=
  match c.frames with
  | [] => none
  | f :: frames =>
    walk base fuel (returned c f frames) f.event f.triggered f.turns (c.links.next (some f.itor))

inductive Call (α : Type*)
  | attach (once : Bool) (obs : α)
  | detach (obs : α)
  | notify (event : UInt32)
  | ret

/-- The calls of the publisher, at any time, and the return of the trigger that runs. -/
inductive Step : State α → Call α → State α → Prop
  | attach {c : State α} {once : Bool} {obs : α} : Step c (.attach once obs) (attach c once obs).2
  | detach {c : State α} {obs : α} : Step c (.detach obs) (detach c obs)
  | notify {c c' : State α} {event : UInt32} {fuel : Nat} : notify base fuel c event = some c' →
    Step c (.notify event) c'
  | ret {c c' : State α} {fuel : Nat} : ret base fuel c = some c' → Step c .ret c'

end

/-! ## The turns of a notify -/

section
variable {α : Type*} {L A B past rest triggered : List α} {turns : List (α × Bool)}

/-- What a notify has done of its turns. -/
structure Fair (triggered : List α) (turns : List (α × Bool)) : Prop where
  nodup : triggered.Nodup
  exact : triggered = (turns.filter (·.2)).map (·.1)

/-- The turns of a notify that has come past `past` and has `rest` in front of it. -/
structure Turned (past rest : List α) (triggered : List α) (turns : List (α × Bool)) :
    Prop where
  past : ∀ x ∈ past, x ∈ turns.map (·.1)
  rest : ∀ x ∈ rest, x ∉ triggered
  fair : Fair triggered turns

def FrameOk (L : List α) (f : Frame α) : Prop :=
  ∃ pre post, L = pre ++ f.itor :: post ∧ Turned (pre ++ [f.itor]) post f.triggered f.turns

theorem nodup_of_owns {links : Links (Option α)} (h : Owns links none (L.map some)) : L.Nodup :=
  List.Nodup.of_map _ (List.nodup_cons.mp h.lists.2).2

theorem mem_map_some {x : α} : some x ∈ none :: L.map some ↔ x ∈ L := by simp

/-- Observers that are taken off the list do not matter. -/
theorem Turned.filter (h : Turned past rest triggered turns) (p : α → Bool) :
    Turned (past.filter p) (rest.filter p) triggered turns :=
  ⟨fun x hx => h.past x (List.mem_filter.mp hx).1, fun x hx => h.rest x (List.mem_filter.mp hx).1,
    h.fair⟩

theorem Turned.add (h : Turned past rest triggered turns) {x : α} (hx : x ∉ triggered) :
    Turned past (rest ++ [x]) triggered turns := by
  refine ⟨h.past, fun y hy => ?_, h.fair⟩
  rcases List.mem_append.mp hy with hy | hy
  · exact h.rest y hy
  · exact List.mem_singleton.mp hy ▸ hx

theorem FrameOk.filter {f : Frame α} (h : FrameOk L f) {p : α → Bool} (hp : p f.itor = true) :
    FrameOk (L.filter p) f := by
  obtain ⟨pre, post, rfl, ht⟩ := h
  refine ⟨pre.filter p, post.filter p, by simp [hp], ?_⟩
  have := ht.filter p
  simpa [hp] using this

theorem FrameOk.add {f : Frame α} (h : FrameOk L f) {x : α} (hx : x ∉ f.triggered) :
    FrameOk (L ++ [x]) f := by
  obtain ⟨pre, post, rfl, ht⟩ := h
  exact ⟨pre, post ++ [x], by simp, ht.add hx⟩

/-- Observers whose turn came without a trigger. -/
theorem Turned.pass (h : Turned past (A ++ B) triggered turns) {t : α → α × Bool}
    (ht : ∀ x ∈ A, t x = (x, false)) : Turned (past ++ A) B triggered (turns ++ A.map t) := by
  have hmap : A.map t = A.map fun x => (x, false) := List.map_congr_left ht
  rw [hmap]
  refine ⟨fun x hx => ?_, fun x hx => h.rest x (by simp [hx]), h.fair.nodup, ?_⟩
  · rw [List.map_append, List.map_map]
    rcases List.mem_append.mp hx with hx | hx
    · exact List.mem_append_left _ (h.past x hx)
    · exact List.mem_append_right _ (by simpa using hx)
  · rw [List.filter_append, List.map_append, ← h.fair.exact]
    simp [List.filter_map, Function.comp_def]

/-- An observer whose turn came with its trigger. -/
theorem Turned.hit {x : α} (h : Turned past (x :: B) triggered turns) {t : α → α × Bool}
    (ht : t x = (x, true)) (hx : x ∉ B) :
    Turned (past ++ [x]) B (triggered ++ [x]) (turns ++ [t x]) := by
  have hnew : x ∉ triggered := h.rest x (by simp)
  rw [ht]
  refine ⟨fun y hy => ?_, fun y hy => ?_, ?_, ?_⟩
  · rw [List.map_append]
    rcases List.mem_append.mp hy with hy | hy
    · exact List.mem_append_left _ (h.past y hy)
    · exact List.mem_append_right _ (by simpa using hy)
  · intro hm
    rcases List.mem_append.mp hm with hm | hm
    · exact h.rest y (by simp [hy]) hm
    · exact hx (List.mem_singleton.mp hm ▸ hy)
  · refine List.nodup_append.mpr ⟨h.fair.nodup, by simp, ?_⟩
    rintro y hy z hz rfl
    exact hnew (List.mem_singleton.mp hz ▸ hy)
  · rw [List.filter_append, List.map_append, ← h.fair.exact]
    rfl

end

section

variable {α : Type*} [DecidableEq α] (base : Base α)

/-! ## What is promised, and when it is kept -/

/-- The promise of the publisher. -/
structure Promise [Fintype α] (c : State α) : Prop where
  triggered : LogOk c.log
  member : ∀ obs once, subscription c.log obs = some once → c.state obs = attachState once ∧
    ∃ L : List α, Lists c.links none (L.map some) ∧ obs ∈ L
  running : ∀ f ∈ c.frames, Fair f.triggered f.turns ∧ f.triggered.length ≤ Fintype.card α
  ended : ∀ n ∈ c.ended, Fair n.triggered n.turns ∧ ∀ obs ∈ n.members, obs ∈ n.turns.map (·.1)
  starts : ∀ event, ∃ c', Step base c (.notify event) c'
  goes : c.frames ≠ [] → ∃ c', Step base c .ret c'

/-- Where a notify goes on: to an observer whose one shot is not used up already, or to an end at
which no observer whose trigger still runs is marked as detached. -/
def WalkSound (c : State α) (event : UInt32) (pos : Option α) : Prop :=
  ∀ fuel passed next, scan base c event fuel pos = some (passed, next) →
    match next with
    | some obs => ¬(c.state obs = .attachedOnce ∧ subscription c.log obs = none)
    | none => ∀ f ∈ c.frames, c.state f.itor ≠ .detached

/-- The calls that keep clear of the slips. -/
def Sound (c : State α) : Call α → Prop
  | .attach _ obs =>
    listEmpty c obs → c.state obs ≠ .detached ∧ ∀ f ∈ c.frames, obs ∉ f.triggered
  | .detach obs => c.working = false → ∀ f ∈ c.frames, f.itor ≠ obs
  | .notify event => WalkSound base { c with working := true } event (c.links.next none)
  | .ret => ∀ f frames, c.frames = f :: frames →
    ¬(c.state f.itor = .attachedOnce ∧ subscription c.log f.itor ≠ none) ∧
      WalkSound base (returned c f frames) f.event (c.links.next (some f.itor))

/-! ## The invariant -/

structure Inv (c : State α) (L : List α) : Prop where
  owns : Owns c.links none (L.map some)
  listed : ∀ x, c.state x = .attached ∨ c.state x = .attachedOnce → x ∈ L
  idle : ∀ x, c.state x = .idle → x ∉ L
  subscribed : ∀ x once, subscription c.log x = some once → c.state x = attachState once
  attached : ∀ x, c.state x = .attached → subscription c.log x = some false
  log : LogOk c.log
  frames : ∀ f ∈ c.frames, FrameOk L f
  ended : ∀ n ∈ c.ended, Fair n.triggered n.turns ∧ ∀ obs ∈ n.members, obs ∈ n.turns.map (·.1)

variable {base} {c c' : State α} {L A B : List α}

theorem listEmpty_iff (h : Inv c L) {x : α} : listEmpty c x ↔ x ∉ L := by
  constructor
  · exact fun he hx => h.owns.lists.next_ne (List.mem_map_of_mem hx) he
  · exact fun hx => (h.owns.alone (some x) fun hm => hx (mem_map_some.mp hm)).1

theorem not_subscribed_detached (h : Inv c L) {x : α} (hx : c.state x = .detached) :
    subscription c.log x = none := by
  cases hs : subscription c.log x with
  | none => rfl
  | some once =>
    have := h.subscribed x once hs
    cases once <;> simp [hx, attachState] at this

/-! ## The two loops -/

section
variable {event : UInt32} {p : Option α}

omit [DecidableEq α] in
theorem scan_mono {pos : Option α} {fuel more : Nat} {r : List α × Option α} (hf : fuel ≤ more)
    (h : scan base c event fuel pos = some r) : scan base c event more pos = some r := by
  induction fuel generalizing more pos r with
  | zero => cases h
  | succ fuel ih =>
    obtain ⟨more, rfl⟩ : ∃ n, more = n + 1 := ⟨more - 1, by omega⟩
    cases pos with
    | none => exact h
    | some x =>
      by_cases ht : Triggers base c event x
      · rw [scan, if_pos ht] at h ⊢
        exact h
      · rw [scan, if_neg ht] at h ⊢
        obtain ⟨r', hr, rfl⟩ := Option.map_eq_some_iff.mp h
        rw [ih (Nat.le_of_succ_le_succ hf) hr]
        rfl

/-- The first loop comes to one place, however many steps it may take. -/
theorem walkSound_of_scan {pos : Option α} (fuel : Nat) (passed : List α) (next : Option α)
    (hnext : match next with
      | some obs => ¬(c.state obs = .attachedOnce ∧ subscription c.log obs = none)
      | none => ∀ f ∈ c.frames, c.state f.itor ≠ .detached)
    (h : scan base c event fuel pos = some (passed, next)) : WalkSound base c event pos := by
  intro fuel' passed' next' h'
  have hboth := scan_mono (Nat.le_max_left fuel fuel') h
  rw [scan_mono (Nat.le_max_right fuel fuel') h'] at hboth
  cases hboth
  exact hnext

omit [DecidableEq α] in
/-- What the first loop comes to: the first observer that is to be triggered, or the end. -/
theorem scan_some {links : Links (Option α)} (hl : c.links = links)
    (hp : Path links p (B.map some) none) {fuel : Nat} {passed : List α} {next : Option α}
    (hs : scan base c event fuel (links.next p) = some (passed, next)) :
    (∀ x ∈ passed, ¬Triggers base c event x) ∧
      match next with
      | some x => Triggers base c event x ∧ ∃ post, B = passed ++ x :: post
      | none => passed = B := by
  induction B generalizing p fuel passed with
  | nil =>
    have hn : links.next p = none := hp.1
    rw [hn] at hs
    cases fuel with
    | zero => cases hs
    | succ fuel =>
      cases hs
      exact ⟨by simp, rfl⟩
  | cons x B ih =>
    have hn : links.next p = some x := hp.1
    rw [hn] at hs
    cases fuel with
    | zero => cases hs
    | succ fuel =>
      by_cases ht : Triggers base c event x
      · rw [scan, if_pos ht] at hs
        cases hs
        exact ⟨by simp, ht, B, rfl⟩
      · rw [scan, if_neg ht, hl] at hs
        obtain ⟨⟨passed', next'⟩, hr, heq⟩ := Option.map_eq_some_iff.mp hs
        cases heq
        obtain ⟨hpassed, hnext⟩ := ih hp.2.2 hr
        refine ⟨by simpa [ht] using hpassed, ?_⟩
        cases next' with
        | none => exact congrArg (x :: ·) hnext
        | some y =>
          obtain ⟨hy, post, rfl⟩ := hnext
          exact ⟨hy, post, rfl⟩

omit [DecidableEq α] in
theorem scan_ends {links : Links (Option α)} (hl : c.links = links)
    (hp : Path links p (B.map some) none) {fuel : Nat} (hf : B.length < fuel) :
    ∃ r, scan base c event fuel (links.next p) = some r := by
  induction B generalizing p fuel with
  | nil =>
    have hn : links.next p = none := hp.1
    rw [hn]
    cases fuel with
    | zero => simp at hf
    | succ fuel => exact ⟨_, rfl⟩
  | cons x B ih =>
    have hn : links.next p = some x := hp.1
    rw [hn]
    cases fuel with
    | zero => simp at hf
    | succ fuel =>
      by_cases ht : Triggers base c event x
      · exact ⟨_, by rw [scan, if_pos ht]⟩
      · obtain ⟨r, hr⟩ := ih hp.2.2 (Nat.lt_of_succ_lt_succ hf)
        exact ⟨(x :: r.1, r.2), by rw [scan, if_neg ht, hl, hr]; rfl⟩

end

omit [DecidableEq α] in
theorem path_next {links : Links (Option α)} {x : α} (h : Owns links none ((A ++ x :: B).map some)) :
    links.next (some x) = (B.map some).headD none := by
  have hpath := h.lists.1
  rw [List.map_append, List.map_cons] at hpath
  exact (path_append.mp hpath).2.next_head

/-- The second loop takes the observers that are marked as detached off the list. -/
theorem sweep_some {links links' : Links (Option α)} {state state' : α → ObserverState}
    {members : List α} {fuel : Nat} (h : Owns links none ((A ++ B).map some))
    (hs : sweep fuel links state ((B.map some).headD none) = some (members, links', state')) :
    members = B ∧ Owns links' none ((A ++ B.filter (state · ≠ .detached)).map some) ∧
      ∀ x, state' x = if x ∈ B ∧ state x = .detached then .idle else state x := by
  induction B generalizing A links state fuel members with
  | nil =>
    cases fuel with
    | zero => cases hs
    | succ fuel =>
      cases hs
      exact ⟨rfl, by simpa using h, by simp⟩
  | cons x B ih =>
    cases fuel with
    | zero => cases hs
    | succ fuel =>
      have hx : x ∉ B := by
        have hnd := (List.nodup_append.mp (nodup_of_owns h)).2.1
        exact (List.nodup_cons.mp hnd).1
      rw [List.map_cons, List.headD_cons, sweep, path_next h] at hs
      by_cases hd : state x = .detached
      · rw [if_pos hd] at hs
        obtain ⟨⟨members', r⟩, hr, heq⟩ := Option.map_eq_some_iff.mp hs
        cases heq
        have hdel : Owns (links.del (some x)) none ((A ++ B).map some) := by
          rw [List.map_append] at h ⊢
          exact h.del
        obtain ⟨rfl, howns, hstate⟩ := ih hdel hr
        have hne : ∀ y ∈ members', y ≠ x := fun y hy he => hx (he ▸ hy)
        refine ⟨rfl, ?_, fun y => ?_⟩
        · have hfilter : members'.filter (fun y => Function.update state x .idle y ≠ .detached) =
              (x :: members').filter (state · ≠ .detached) := by
            rw [List.filter_cons_of_neg (by simpa using hd)]
            exact List.filter_congr fun y hy => by
              rw [Function.update_of_ne (hne y hy)]
          rwa [hfilter] at howns
        · rw [hstate y]
          by_cases hyx : y = x
          · subst hyx
            simp [hx, hd]
          · simp [hyx]
      · rw [if_neg hd] at hs
        obtain ⟨⟨members', r⟩, hr, heq⟩ := Option.map_eq_some_iff.mp hs
        cases heq
        obtain ⟨rfl, howns, hstate⟩ := ih (A := A ++ [x]) (by simpa using h) hr
        refine ⟨rfl, ?_, fun y => ?_⟩
        · rw [List.filter_cons_of_pos (by simpa using hd)]
          simpa using howns
        · rw [hstate y]
          by_cases hyx : y = x
          · subst hyx
            simp [hx, hd]
          · simp [hyx]

theorem sweep_ends {links : Links (Option α)} {state : α → ObserverState} {fuel : Nat}
    (h : Owns links none ((A ++ B).map some)) (hf : B.length < fuel) :
    ∃ r, sweep fuel links state ((B.map some).headD none) = some r := by
  induction B generalizing A links state fuel with
  | nil =>
    cases fuel with
    | zero => simp at hf
    | succ fuel => exact ⟨_, rfl⟩
  | cons x B ih =>
    cases fuel with
    | zero => simp at hf
    | succ fuel =>
      have hf' : B.length < fuel := Nat.lt_of_succ_lt_succ hf
      rw [List.map_cons, List.headD_cons, sweep, path_next h]
      by_cases hd : state x = .detached
      · have hdel : Owns (links.del (some x)) none ((A ++ B).map some) := by
          rw [List.map_append] at h ⊢
          exact h.del
        obtain ⟨r, hr⟩ : ∃ r, sweep fuel (links.del (some x)) (Function.update state x .idle) _ =
            some r := ih hdel hf'
        exact ⟨_, by rw [if_pos hd, hr]; rfl⟩
      · obtain ⟨r, hr⟩ : ∃ r, sweep fuel links state _ = some r :=
          ih (A := A ++ [x]) (by simpa using h) hf'
        exact ⟨_, by rw [if_neg hd, hr]; rfl⟩

/-! ## One call -/

section
variable {event : UInt32} {p : Option α} {past triggered passed : List α}
  {turns : List (α × Bool)} {obs : α}

/-- An observer that is passed was not to be triggered. -/
theorem turn_passed (h : Inv c L) (hn : ¬Triggers base c event obs) :
    turn base c event obs = (obs, false) := by
  refine Prod.ext rfl (decide_eq_false ?_)
  rintro ⟨hc, hs⟩
  obtain ⟨once, honce⟩ := Option.ne_none_iff_exists'.mp hs
  refine hn ⟨hc, ?_⟩
  rw [h.subscribed obs once honce]
  cases once with
  | false => exact .inl rfl
  | true => exact .inr rfl

/-- An observer that is triggered is subscribed, unless its one shot is used up. -/
theorem subscribed_of_triggers (h : Inv c L) (ht : Triggers base c event obs)
    (hs : ¬(c.state obs = .attachedOnce ∧ subscription c.log obs = none)) :
    subscription c.log obs ≠ none := by
  rcases ht.2 with hstate | hstate
  · rw [h.attached obs hstate]
    simp
  · exact fun hnone => hs ⟨hstate, hnone⟩

theorem subscription_triggered (log : List (Happened α)) (obs x : α) (once : Bool)
    (h : subscription (.triggered obs :: log) x = some once) : subscription log x = some once := by
  rw [subscription] at h
  split at h
  · cases h
  · exact h

/-- The first loop enters a trigger. -/
theorem inv_enter (h : Inv c L) (hL : L = past ++ (passed ++ obs :: B))
    (ht : Turned past (passed ++ obs :: B) triggered turns)
    (hpassed : ∀ x ∈ passed, ¬Triggers base c event x) (hobs : Triggers base c event obs)
    (hs : ¬(c.state obs = .attachedOnce ∧ subscription c.log obs = none)) :
    Inv { c with
      frames := { event, itor := obs, triggered := triggered ++ [obs],
                  turns := turns ++ (passed ++ [obs]).map (turn base c event) } :: c.frames
      log := .triggered obs :: c.log } L := by
  have hsub := subscribed_of_triggers h hobs hs
  have hturn : turn base c event obs = (obs, true) := Prod.ext rfl (decide_eq_true ⟨hobs.1, hsub⟩)
  have hnd : obs ∉ B := by
    have hLnd := nodup_of_owns h.owns
    rw [hL, ← List.append_assoc] at hLnd
    exact (List.nodup_cons.mp (List.nodup_append.mp hLnd).2.1).1
  have hframe : FrameOk L ⟨event, obs, triggered ++ [obs],
      turns ++ (passed ++ [obs]).map (turn base c event)⟩ := by
    have hpass := ht.pass (t := turn base c event) fun x hx => turn_passed h (hpassed x hx)
    have hhit := hpass.hit hturn hnd
    refine ⟨past ++ passed, B, by simp [hL], ?_⟩
    rw [List.map_append, ← List.append_assoc]
    exact hhit
  refine ⟨h.owns, h.listed, h.idle, fun x once hx => ?_, fun x hx => ?_, ⟨hsub, h.log⟩, ?_,
    h.ended⟩
  · exact h.subscribed x once (subscription_triggered _ _ _ _ hx)
  · have hxs := h.attached x hx
    have hne : ¬(x = obs ∧ subscription c.log x = some true) := by simp [hxs]
    exact (if_neg hne).trans hxs
  · exact List.forall_mem_cons.mpr ⟨hframe, h.frames⟩

/-- A notify ends. -/
theorem inv_end (h : Inv c L) (hL : L = past ++ B) (ht : Turned past B triggered turns)
    (hpassed : ∀ x ∈ B, ¬Triggers base c event x) (hs : ∀ f ∈ c.frames, c.state f.itor ≠ .detached)
    {fuel : Nat} {members : List α} {links : Links (Option α)} {state : α → ObserverState}
    (hsweep : sweep fuel c.links c.state (c.links.next none) = some (members, links, state)) :
    Inv { c with
      links, state, working := false
      ended := { triggered, turns := turns ++ B.map (turn base c event), members } :: c.ended }
      (L.filter (c.state · ≠ .detached)) := by
  rw [h.owns.lists.1.next_head] at hsweep
  obtain ⟨rfl, howns, hstate⟩ := sweep_some (A := []) h.owns hsweep
  have hnil : Turned past (B ++ []) triggered turns := by rwa [List.append_nil]
  have hturned := hnil.pass (t := turn base c event) fun x hx => turn_passed h (hpassed x hx)
  have hsubscribed : ∀ x once, subscription c.log x = some once → state x = attachState once := by
    intro x once hx
    have hx' := h.subscribed x once hx
    have hne : ¬(x ∈ members ∧ c.state x = .detached) := fun hd => by
      rw [not_subscribed_detached h hd.2] at hx
      cases hx
    rw [hstate x, if_neg hne, hx']
  -- an observer that is still attached was not marked
  have hof : ∀ x, state x ≠ .idle → state x = c.state x := by
    intro x hx
    rw [hstate x] at hx ⊢
    exact ite_eq_right_iff.mpr fun hd => absurd (if_pos hd) hx
  have hlisted : ∀ x, state x = .attached ∨ state x = .attachedOnce →
      x ∈ members.filter (c.state · ≠ .detached) := by
    intro x hx
    rw [hof x (by rcases hx with hx | hx <;> simp [hx])] at hx
    refine List.mem_filter.mpr ⟨h.listed x hx, ?_⟩
    rcases hx with hx | hx <;> simp [hx]
  have hidle : ∀ x, state x = .idle → x ∉ members.filter (c.state · ≠ .detached) := by
    intro x hx hm
    obtain ⟨hxL, hxd⟩ := List.mem_filter.mp hm
    rw [hstate x] at hx
    split at hx
    · rename_i hd
      simp [hd.2] at hxd
    · exact h.idle x hx hxL
  have hattached : ∀ x, state x = .attached → subscription c.log x = some false := fun x hx =>
    h.attached x ((hof x (by simp [hx])).symm.trans hx)
  refine ⟨by simpa using howns, hlisted, hidle, hsubscribed, hattached, h.log,
    fun f hf => (h.frames f hf).filter (by simpa using hs f hf), ?_⟩
  refine List.forall_mem_cons.mpr ⟨⟨hturned.fair, fun x hx => ?_⟩, h.ended⟩
  exact hturned.past x (hL ▸ hx)

/-- A notify goes on from a position. -/
theorem inv_walk (h : Inv c L) (hL : L = past ++ B) (hp : Path c.links p (B.map some) none)
    (ht : Turned past B triggered turns) (hs : WalkSound base c event (c.links.next p)) {fuel : Nat}
    (hw : walk base fuel c event triggered turns (c.links.next p) = some c') :
    ∃ L, Inv c' L := by
  unfold walk at hw
  split at hw
  · cases hw
  · rename_i passed obs hscan
    cases hw
    obtain ⟨hpassed, hobs, post, rfl⟩ := scan_some rfl hp hscan
    exact ⟨L, inv_enter h hL ht hpassed hobs (hs _ _ _ hscan)⟩
  · rename_i passed hscan
    obtain ⟨hpassed, rfl⟩ := scan_some rfl hp hscan
    obtain ⟨⟨members, links, state⟩, hsweep, rfl⟩ := Option.map_eq_some_iff.mp hw
    exact ⟨_, inv_end h hL ht hpassed (hs _ _ _ hscan) hsweep⟩

/-- Both loops end. -/
theorem walk_ends (h : Owns c.links none (L.map some)) (hL : L = past ++ B)
    (hp : Path c.links p (B.map some) none) :
    ∃ fuel c', walk base fuel c event triggered turns (c.links.next p) = some c' := by
  have hle : B.length < L.length + 1 := by
    rw [hL, List.length_append]
    omega
  obtain ⟨⟨passed, next⟩, hr⟩ : ∃ r, scan base c event _ (c.links.next p) = some r :=
    scan_ends rfl hp hle
  refine ⟨L.length + 1, ?_⟩
  unfold walk
  rw [hr]
  cases next with
  | some obs => exact ⟨_, rfl⟩
  | none =>
    obtain ⟨r, hsweep⟩ : ∃ r, sweep (L.length + 1) c.links c.state _ = some r :=
      sweep_ends (A := []) h (Nat.lt_succ_self _)
    dsimp only
    rw [h.lists.1.next_head, hsweep]
    exact ⟨_, rfl⟩

end

omit [DecidableEq α] in
/-- The trigger of a frame returns to the rest of the list. -/
theorem path_return {links : Links (Option α)} {f : Frame α} {pre post : List α}
    (h : Owns links none (L.map some)) (hL : L = pre ++ f.itor :: post) :
    Path links (some f.itor) (post.map some) none := by
  have hpath := h.lists.1
  rw [hL, List.map_append, List.map_cons] at hpath
  exact (path_append.mp hpath).2

theorem inv_working (h : Inv c L) : Inv { c with working := true } L :=
  ⟨h.owns, h.listed, h.idle, h.subscribed, h.attached, h.log, h.frames, h.ended⟩

theorem inv_returned {f : Frame α} {frames : List (Frame α)} (h : Inv c L)
    (hf : c.frames = f :: frames)
    (hs : ¬(c.state f.itor = .attachedOnce ∧ subscription c.log f.itor ≠ none)) :
    Inv (returned c f frames) L := by
  have hframes : ∀ f' ∈ frames, FrameOk L f' := fun f' hf' => h.frames f' (by simp [hf, hf'])
  by_cases honce : c.state f.itor = .attachedOnce
  · have hnone : subscription c.log f.itor = none := by
      by_contra hne
      exact hs ⟨honce, hne⟩
    have hstate : (returned c f frames).state = Function.update c.state f.itor .detached :=
      if_pos honce
    have hne : ∀ x once, subscription c.log x = some once → x ≠ f.itor := by
      rintro x once hx rfl
      rw [hnone] at hx
      cases hx
    have hof : ∀ x, (returned c f frames).state x ≠ .detached →
        (returned c f frames).state x = c.state x := by
      intro x hx
      rw [hstate] at hx ⊢
      by_cases he : x = f.itor
      · exact absurd (by rw [he, Function.update_self]) hx
      · exact Function.update_of_ne he _ _
    refine ⟨h.owns, fun x hx => h.listed x ?_, fun x hx => h.idle x ?_, fun x once hx => ?_,
      fun x hx => h.attached x ?_, h.log, hframes, h.ended⟩
    · rwa [hof x (by rcases hx with hx | hx <;> simp [hx])] at hx
    · rwa [hof x (by simp [hx])] at hx
    · rw [hstate, Function.update_of_ne (hne x once hx)]
      exact h.subscribed x once hx
    · rwa [hof x (by simp [hx])] at hx
  · have hstate : (returned c f frames).state = c.state := if_neg honce
    refine ⟨h.owns, fun x hx => h.listed x (hstate ▸ hx), fun x hx => h.idle x (hstate ▸ hx),
      fun x once hx => hstate ▸ h.subscribed x once hx, fun x hx => h.attached x (hstate ▸ hx), h.log,
      hframes, h.ended⟩

section
variable {obs : α} {once : Bool}

theorem subscription_subscribed (log : List (Happened α)) (x : α) :
    subscription (.subscribed obs once :: log) x = if x = obs then some once else subscription log x :=
  rfl

theorem subscription_detached (log : List (Happened α)) (x : α) :
    subscription (.detached obs :: log) x = if x = obs then none else subscription log x :=
  rfl

/-- The observer is on the list `M` and gets its new state. -/
theorem inv_subscribe {M : List α} {links : Links (Option α)} (h : Inv c L)
    (howns : Owns links none (M.map some)) (hmem : ∀ x, x ∈ M ↔ x ∈ L ∨ x = obs)
    (hframes : ∀ f ∈ c.frames, FrameOk M f) :
    Inv { c with links, state := Function.update c.state obs (attachState once),
                 log := .subscribed obs once :: c.log } M := by
  have hstate : ∀ x, x ≠ obs → Function.update c.state obs (attachState once) x = c.state x :=
    fun x hx => Function.update_of_ne hx _ _
  refine ⟨howns, fun x hx => (hmem x).mpr ?_, fun x hx => ?_, fun x once' hx => ?_, fun x hx => ?_,
    h.log, hframes, h.ended⟩
  · by_cases he : x = obs
    · exact .inr he
    · exact .inl (h.listed x (by simpa [hstate x he] using hx))
  · have hx : Function.update c.state obs (attachState once) x = .idle := hx
    by_cases he : x = obs
    · rw [he, Function.update_self] at hx
      cases once <;> simp [attachState] at hx
    · rw [hstate x he] at hx
      exact fun hm => ((hmem x).mp hm).elim (h.idle x hx) he
  · have hx : subscription (.subscribed obs once :: c.log) x = some once' := hx
    change Function.update c.state obs (attachState once) x = attachState once'
    rw [subscription_subscribed] at hx
    by_cases he : x = obs
    · rw [if_pos he] at hx
      cases hx
      rw [he, Function.update_self]
    · rw [if_neg he] at hx
      rw [hstate x he]
      exact h.subscribed x once' hx
  · have hx : Function.update c.state obs (attachState once) x = .attached := hx
    change subscription (.subscribed obs once :: c.log) x = some false
    rw [subscription_subscribed]
    by_cases he : x = obs
    · rw [he, Function.update_self] at hx
      cases once with
      | false => rw [if_pos he]
      | true => simp [attachState] at hx
    · rw [hstate x he] at hx
      rw [if_neg he]
      exact h.attached x hx

theorem inv_attach (h : Inv c L) (hs : Sound base c (.attach once obs)) :
    ∃ L, Inv (attach c once obs).2 L := by
  unfold attach
  split_ifs with hd he
  · -- still on the list
    have hmem : obs ∈ L := by
      by_contra hn
      exact (hs ((listEmpty_iff h).mpr hn)).1 hd
    exact ⟨L, inv_subscribe h h.owns (fun x => ⟨.inl, fun hx => hx.elim id (· ▸ hmem)⟩) h.frames⟩
  · have hmem : obs ∉ L := (listEmpty_iff h).mp he
    have howns : Owns (c.links.addTail (some obs) none) none ((L ++ [obs]).map some) := by
      rw [List.map_append]
      exact h.owns.addTail fun hm => hmem (mem_map_some.mp hm)
    exact ⟨L ++ [obs], inv_subscribe h howns (fun x => by simp) fun f hf =>
      (h.frames f hf).add ((hs he).2 f hf)⟩
  · exact ⟨L, h⟩

/-- The observer is marked or taken off the list. -/
theorem inv_unsubscribe {M : List α} {links : Links (Option α)} {left : ObserverState}
    (h : Inv c L) (hto : left = .idle ∨ left = .detached) (howns : Owns links none (M.map some))
    (hmem : ∀ x, x ≠ obs → (x ∈ M ↔ x ∈ L)) (hidle : left = .idle → obs ∉ M)
    (hframes : ∀ f ∈ c.frames, FrameOk M f) :
    Inv { c with links, state := Function.update c.state obs left, log := .detached obs :: c.log }
      M := by
  have hne : ∀ x once', subscription (.detached obs :: c.log) x = some once' → x ≠ obs := by
    rintro x once' hx rfl
    rw [subscription_detached, if_pos rfl] at hx
    cases hx
  have hstate : ∀ x, x ≠ obs → Function.update c.state obs left x = c.state x :=
    fun x hx => Function.update_of_ne hx _ _
  have hself : ∀ x s, Function.update c.state obs left x = s → s ≠ left → x ≠ obs := by
    rintro x s hx hs rfl
    exact hs (hx.symm.trans (Function.update_self ..))
  have hneq : left ≠ .attached ∧ left ≠ .attachedOnce := by
    rcases hto with rfl | rfl <;> simp
  refine ⟨howns, fun x hx => ?_, fun x hx => ?_, fun x once' hx => ?_, fun x hx => ?_, h.log,
    hframes, h.ended⟩
  · have he : x ≠ obs := by
      rcases hx with hx | hx
      · exact hself x _ hx hneq.1.symm
      · exact hself x _ hx hneq.2.symm
    exact (hmem x he).mpr (h.listed x (by simpa [hstate x he] using hx))
  · have hx : Function.update c.state obs left x = .idle := hx
    by_cases he : x = obs
    · rw [he, Function.update_self] at hx
      exact he ▸ hidle hx
    · rw [hstate x he] at hx
      exact fun hm => h.idle x hx ((hmem x he).mp hm)
  · have he := hne x once' hx
    have hx : subscription (.detached obs :: c.log) x = some once' := hx
    rw [subscription_detached, if_neg he] at hx
    exact (hstate x he).trans (h.subscribed x once' hx)
  · have he := hself x _ hx hneq.1.symm
    have hx : Function.update c.state obs left x = .attached := hx
    rw [hstate x he] at hx
    exact (if_neg he).trans (h.attached x hx)

theorem inv_detach (h : Inv c L) (hs : Sound base c (.detach obs)) :
    ∃ L, Inv (detach c obs) L := by
  unfold detach
  split
  · exact ⟨L, inv_unsubscribe h (.inr rfl) h.owns (fun _ _ => Iff.rfl) nofun h.frames⟩
  · rename_i hw
    have hitor := hs (by simpa using hw)
    by_cases hm : obs ∈ L
    · have hnd := nodup_of_owns h.owns
      have hframes : ∀ f ∈ c.frames, FrameOk (L.filter (· ≠ obs)) f := fun f hf =>
        (h.frames f hf).filter (by simpa using hitor f hf)
      obtain ⟨A, B, rfl⟩ := List.append_of_mem hm
      have hA : ∀ x ∈ A, x ≠ obs := fun x hx he =>
        (List.nodup_append.mp hnd).2.2 x hx obs (by simp) he
      have hB : ∀ x ∈ B, x ≠ obs := fun x hx he =>
        (List.nodup_cons.mp (List.nodup_append.mp hnd).2.1).1 (he ▸ hx)
      have hfilter : (A ++ obs :: B).filter (· ≠ obs) = A ++ B := by
        rw [List.filter_append, List.filter_cons_of_neg (by simp),
          List.filter_eq_self.mpr (by simpa using hA), List.filter_eq_self.mpr (by simpa using hB)]
      rw [hfilter] at hframes
      have howns : Owns (c.links.del (some obs)) none ((A ++ B).map some) := by
        have := h.owns
        rw [List.map_append] at this ⊢
        exact this.del
      refine ⟨A ++ B, inv_unsubscribe h (.inl rfl) howns (fun x hx => ?_) (fun _ hm => ?_) hframes⟩
      · simp [hx]
      · rcases List.mem_append.mp hm with hm | hm
        · exact hA obs hm rfl
        · exact hB obs hm rfl
    · -- nothing to take off
      obtain ⟨hn, hp⟩ := h.owns.alone (some obs) fun hx => hm (mem_map_some.mp hx)
      rw [del_self hn hp]
      exact ⟨L, inv_unsubscribe h (.inl rfl) h.owns (fun _ _ => Iff.rfl) (fun _ => hm) h.frames⟩

end

/-- One call keeps the invariant. -/
theorem step_inv {a : Call α} (h : Inv c L) (hs : Sound base c a) (hstep : Step base c a c') :
    ∃ L, Inv c' L := by
  cases hstep with
  | attach => exact inv_attach h hs
  | detach => exact inv_detach h hs
  | notify hw =>
    have ht : Turned ([] : List α) L [] [] :=
      ⟨by simp, by simp, List.nodup_nil, rfl⟩
    exact inv_walk (inv_working h) rfl h.owns.lists.1 ht hs hw
  | ret hw =>
    unfold ret at hw
    split at hw
    · cases hw
    · rename_i f frames hf
      obtain ⟨honce, hwalk⟩ := hs f frames hf
      obtain ⟨pre, post, hL, ht⟩ := h.frames f (by simp [hf])
      have hinv := inv_returned h hf honce
      exact inv_walk hinv (by rw [hL]; simp) (path_return h.owns hL) ht hwalk hw

theorem inv_create : Inv (create α) [] := by
  refine ⟨⟨⟨⟨rfl, rfl⟩, by simp⟩, fun y _ => ⟨rfl, rfl⟩⟩, ?_, ?_, ?_, ?_, trivial, ?_, ?_⟩ <;>
    simp [create, subscription]

theorem Inv.promise [Fintype α] (h : Inv c L) : Promise base c where
  triggered := h.log
  member := fun obs once hs => by
    have hstate := h.subscribed obs once hs
    refine ⟨hstate, L, h.owns.lists, h.listed obs ?_⟩
    cases once with
    | false => exact .inl hstate
    | true => exact .inr hstate
  running := fun f hf => by
    obtain ⟨pre, post, -, ht⟩ := h.frames f hf
    exact ⟨ht.fair, ht.fair.nodup.length_le_card⟩
  ended := h.ended
  starts := fun event => by
    obtain ⟨fuel, c', hw⟩ := walk_ends (c := { c with working := true }) h.owns
      (List.nil_append L).symm h.owns.lists.1
    exact ⟨c', .notify hw⟩
  goes := fun hne => by
    obtain ⟨f, frames, hf⟩ := List.exists_cons_of_ne_nil hne
    obtain ⟨pre, post, hL, ht⟩ := h.frames f (by simp [hf])
    have hL' : L = (pre ++ [f.itor]) ++ post := by rw [hL]; simp
    obtain ⟨fuel, c', hw⟩ := walk_ends (c := returned c f frames) h.owns hL'
      (path_return h.owns hL)
    have hret : ret base fuel c = some c' := by
      unfold ret
      rw [hf]
      exact hw
    exact ⟨c', .ret hret⟩

/-- Every state that calls free of the slips lead to keeps the promise. -/
theorem publisher_ok [Fintype α] (calls : List (Call α)) (c : State α)
    (h : Run (Guarded (Step base) (Sound base)) (create α) calls c) : Promise base c := by
  have hinv : ∃ L, Inv c L := by
    refine h.invariant (I := fun c => ∃ L, Inv c L) ⟨[], inv_create⟩ ?_
    rintro _ _ _ ⟨L, hI⟩ ⟨hs, hstep⟩
    exact step_inv hI hs hstep
  obtain ⟨L, hinv⟩ := hinv
  exact hinv.promise

omit [DecidableEq α] in
theorem scan_self {event : UInt32} {x : α} (hn : c.links.next (some x) = some x)
    (ht : ¬Triggers base c event x) (fuel : Nat) : scan base c event fuel (some x) = none := by
  induction fuel with
  | zero => rfl
  | succ fuel ih => rw [scan, if_neg ht, hn, ih]; rfl

/-- The trigger of an observer that was taken off the list has nowhere to return to: the loop stays
at the observer. -/
theorem ret_stuck {f : Frame α} {frames : List (Frame α)} (hf : c.frames = f :: frames)
    (hn : c.links.next (some f.itor) = some f.itor) (hi : c.state f.itor = .idle) :
    ¬Step base c .ret c' := by
  intro hstep
  cases hstep with
  | ret hw =>
    have hstate : (returned c f frames).state = c.state := if_neg (by simp [hi])
    have ht : ¬Triggers base (returned c f frames) f.event f.itor := by
      rintro ⟨-, hx⟩
      rw [hstate, hi] at hx
      simp at hx
    unfold ret at hw
    rw [hf] at hw
    dsimp only at hw
    rw [hn, walk, scan_self (c := returned c f frames) hn ht] at hw
    cases hw

end

/-! ### Two observers -/

/-- A publisher whose observers are all of the event 1. -/
def allBase (α : Type) : Base α where
  compare := fun new obs => if new = obs then 0 else 1
  event := fun _ => 1

section

variable {α : Type} [DecidableEq α]

/-- A notify and the return of a trigger, for which five steps of the loops are enough here. -/
def afterNotify (c : State α) (event : UInt32) : State α :=
  (notify (allBase α) 5 c event).getD c

def afterReturn (c : State α) : State α := (ret (allBase α) 5 c).getD c

end

/-- One observer is touched and one is attached. -/
def touched : State Bool := (attach (attach (create Bool) true false).2 false true).2

/-- The trigger of the touched observer detaches the other one: neither is on the list any more. -/
theorem publisher_ok_touch :
    Promise (allBase Bool) (afterReturn (detach (afterNotify touched 1) true)) := by
  have hnotify : notify (allBase Bool) 5 touched 1 = some (afterNotify touched 1) := rfl
  have hret : ret (allBase Bool) 5 (detach (afterNotify touched 1) true) =
      some (afterReturn (detach (afterNotify touched 1) true)) := rfl
  refine publisher_ok [.attach true false, .attach false true, .notify 1, .detach true, .ret] _
    (.cons ⟨?_, .attach⟩ (.cons ⟨?_, .attach⟩ (.cons ⟨?_, .notify hnotify⟩
      (.cons ⟨?_, .detach⟩ (.cons ⟨?_, .ret hret⟩ (.nil _))))))
  · exact fun _ => ⟨by decide, nofun⟩
  · exact fun _ => ⟨by decide, nofun⟩
  · exact walkSound_of_scan 1 [] (some false) (by decide) rfl
  · exact fun hidle => nomatch hidle
  · intro f frames hf
    cases hf
    refine ⟨fun h => h.2 (by decide), ?_⟩
    exact walkSound_of_scan 2 [true] none nofun rfl

def attached : State Unit := (attach (create Unit) false ()).2

/-- A trigger that notifies and then detaches its own observer: the outer notify does not end. -/
theorem nested_notify_stuck : ¬∀ (calls : List (Call Unit)) (c : State Unit),
    Run (Step (allBase Unit)) (create Unit) calls c → Promise (allBase Unit) c := by
  intro h
  have houter : notify (allBase Unit) 5 attached 1 = some (afterNotify attached 1) := rfl
  have hinner : notify (allBase Unit) 5 (afterNotify attached 1) 2 =
      some (afterNotify (afterNotify attached 1) 2) := rfl
  have hrun : Run (Step (allBase Unit)) (create Unit) [.attach false (), .notify 1, .notify 2, .detach ()]
      (detach (afterNotify (afterNotify attached 1) 2) ()) :=
    .cons .attach (.cons (.notify houter) (.cons (.notify hinner) (.cons .detach (.nil _))))
  have hframes : (detach (afterNotify (afterNotify attached 1) 2) ()).frames =
      [⟨1, (), [()], [((), true)]⟩] := rfl
  obtain ⟨c', hret⟩ := (h _ _ hrun).goes (by rw [hframes]; exact List.cons_ne_nil _ _)
  exact ret_stuck hframes rfl rfl hret

end Publisher
end SysCtrl
end XR806

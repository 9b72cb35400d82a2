import XR806.Trans.Along

/-!
# XR806.Buttons.Protocol

The two modules that turn the states of buttons into callbacks. Interrupts of the buttons and the
callback of one timer release the same binary semaphore, and the thread that waits for it looks at a
flag of the timer to see which it was. A token that stands for both is taken for the timer, a flag
that is set late is taken for the next timer, and a short-long button that is released behind its
expiry leaves the flag to the next button. When the buttons and the timer leave each other the time
to be handled, every object calls back in the order of its kind, a timed press comes only of buttons
that were held, and no change is lost (`protocol_kept`).
-/

namespace XR806
namespace Buttons

open Trans (Along along_imp)

/-! ## Objects -/

/-- `BUTTON_TYPE`. -/
inductive ButtonType
  | short
  | long
  | shortLong
  | combinedLong
  | repeatLong
  deriving DecidableEq

/-- `BUTTON_STATE`. -/
inductive ButtonState
  | press
  | release
  | repeatPress
  | repeatRelease
  | invalidSta
  deriving DecidableEq

/-- What a `button_obj` is created with, and whether it is started. -/
structure ButtonObj where
  idMask : BitVec 32
  repeatTimeoutMs : Nat
  timeoutMs : Nat
  en : Bool
  func : ButtonType

/-- The objects of the list, by their place in it. -/
def button (objs : List ButtonObj) (i : Nat) : ButtonObj := objs.getD i ⟨0, 0, 0, false, .short⟩

def getButtonsObj (objs : List ButtonObj) (idMask : BitVec 32) : Option Nat :=
  objs.findIdx? fun obj => obj.idMask = idMask

/-! ## The state -/

/-- Where the thread is: at the semaphore, at the flag, behind the event of the timer, before it
reads the buttons, and behind it when they have changed. -/
inductive Pc
  | wait
  | check
  | clear
  | read
  | handle
  deriving DecidableEq

/-- A callback: its object and state, and at that time the buttons, since when they were so, and the
time. -/
structure Report where
  obj : Nat
  sta : ButtonState
  actual : BitVec 32
  since : Nat
  time : Nat

/-- The buttons, the time, the semaphore, when the timer is due if it is active, whether its
callback has released the semaphore and not set the flag, and the variables of the module and of its
thread. -/
structure State where
  actual : BitVec 32
  since : Nat
  now : Nat
  sem : Bool
  timer : Option Nat
  inCallback : Bool
  timeUp : Bool
  current : Option Nat
  sta : Nat → ButtonState
  pc : Pc
  buttonsState : BitVec 32
  prev : BitVec 32
  log : List Report

/-- Behind the creation of the objects. -/
def start : State where
  actual := 0
  since := 0
  now := 0
  sem := false
  timer := none
  inCallback := false
  timeUp := false
  current := none
  sta := fun _ => .invalidSta
  pc := .wait
  buttonsState := 0
  prev := 0
  log := []

def State.setSta (s : State) (i : Nat) (sta : ButtonState) : State :=
  { s with sta := fun j => if j = i then sta else s.sta j }

/-- Sets the state of an object and calls its callback. -/
def State.call (s : State) (i : Nat) (sta : ButtonState) : State :=
  { s.setSta i sta with log := s.log ++ [⟨i, sta, s.actual, s.since, s.now⟩] }

/-- `OS_TimerStop`, and the flag is reset. -/
def State.stopTimer (s : State) : State := { s with timer := none, timeUp := false }

/-- How `OS_TimerChangePeriod`, which starts the timer, and `OS_TimerStart` end. -/
inductive TimerCalls
  | ok
  | periodFails
  | startFails
  deriving DecidableEq

def State.startTimer (s : State) (calls : TimerCalls) (ms : Nat) : State × Bool :=
  match calls with
  | .ok => ({ s with timer := some (s.now + ms) }, true)
  | .periodFails => (s, false)
  | .startFails => ({ s with timer := some (s.now + ms) }, false)

/-! ## Release -/

/-- `ALL_BUTTONS_RELEASE`. -/
def allButtonsRelease : BitVec 32 := 0

/-- The end of each of the release functions. -/
def State.leave (s : State) (i : Nat) (buttonsState : BitVec 32) : State :=
  let s := s.setSta i .invalidSta
  if buttonsState = allButtonsRelease then { s with current := none } else s

def shortButtonRelease (buttonsState : BitVec 32) (i : Nat) (s : State) : State :=
  let s :=
    if buttonsState = allButtonsRelease ∧ s.sta i = .press then s.call i .release else s
  s.leave i buttonsState

def longButtonRelease (buttonsState : BitVec 32) (i : Nat) (s : State) : State :=
  let s := s.stopTimer
  let s := if s.sta i = .press ∨ s.sta i = .repeatPress then s.call i .release else s
  s.leave i buttonsState

def shortLongButtonRelease (buttonsState : BitVec 32) (i : Nat) (s : State) : State :=
  let s :=
    if s.timer.isSome then s.stopTimer.call i .release
    else if s.sta i = .press then s.call i .repeatRelease
    else s
  s.leave i buttonsState

def repeatLongButtonRelease (buttonsState : BitVec 32) (i : Nat) (s : State) : State :=
  longButtonRelease buttonsState i s

def combinedLongButtonRelease (buttonsState : BitVec 32) (i : Nat) (s : State) : State :=
  let s := s.stopTimer
  let s := if s.sta i = .press then s.call i .release else s
  s.leave i buttonsState

def releaseCurrentTiggeredObj (objs : List ButtonObj) (buttonsState : BitVec 32) (s : State) :
    State :=
  match s.current with
  | none => s
  | some i =>
    match (button objs i).func with
    | .short => shortButtonRelease buttonsState i s
    | .long => longButtonRelease buttonsState i s
    | .shortLong => shortLongButtonRelease buttonsState i s
    | .combinedLong => combinedLongButtonRelease buttonsState i s
    | .repeatLong => repeatLongButtonRelease buttonsState i s

/-! ## Press -/

def shortButtonPress (i : Nat) (s : State) : State :=
  if s.current.isSome then s else { s.setSta i .press with current := some i }

/-- Starts the timer of an object, which becomes the triggered one. -/
def trigger (objs : List ButtonObj) (calls : TimerCalls) (i : Nat) (s : State) : State :=
  let (s, started) := s.startTimer calls (button objs i).timeoutMs
  if started then { s.setSta i .invalidSta with current := some i } else s

def longButtonPress (objs : List ButtonObj) (calls : TimerCalls) (i : Nat) (s : State) : State :=
  if s.current.isSome then s else trigger objs calls i s

def shortLongButtonPress (objs : List ButtonObj) (calls : TimerCalls) (i : Nat) (s : State) :
    State :=
  longButtonPress objs calls i s

def repeatLongButtonPress (objs : List ButtonObj) (calls : TimerCalls) (i : Nat) (s : State) :
    State :=
  longButtonPress objs calls i s

/-- Interrupts the triggered object, unless that is a combined one too. -/
def combinedLongButtonPress (objs : List ButtonObj) (calls : TimerCalls) (i : Nat) (s : State) :
    State :=
  let buttonsState := (button objs i).idMask
  match s.current with
  | none => trigger objs calls i s
  | some j =>
    match (button objs j).func with
    | .short => trigger objs calls i (shortButtonRelease buttonsState j s)
    | .long => trigger objs calls i (longButtonRelease buttonsState j s)
    | .shortLong => trigger objs calls i (shortLongButtonRelease buttonsState j s)
    | .combinedLong => combinedLongButtonRelease buttonsState j s
    | .repeatLong => trigger objs calls i s

def pressObj (objs : List ButtonObj) (calls : TimerCalls) (i : Nat) (s : State) : State :=
  match (button objs i).func with
  | .short => shortButtonPress i s
  | .long => longButtonPress objs calls i s
  | .shortLong => shortLongButtonPress objs calls i s
  | .combinedLong => combinedLongButtonPress objs calls i s
  | .repeatLong => repeatLongButtonPress objs calls i s

/-! ## The timer and the thread -/

def buttonTimerEvent (objs : List ButtonObj) (calls : TimerCalls) (s : State) : State :=
  match s.current with
  | none => s
  | some i =>
    match (button objs i).func with
    | .short => s
    | .repeatLong =>
      let sta :=
        if s.sta i = .invalidSta then .press
        else if s.sta i = .press ∨ s.sta i = .repeatPress then .repeatPress
        else s.sta i
      ((s.call i sta).startTimer calls (button objs i).repeatTimeoutMs).1
    | _ => s.call i .press

/-- `buttons.c` and `matrix_buttons.c`, which differ in the loop of the thread. -/
inductive Module
  | buttons
  | matrixButtons
  deriving DecidableEq

/-- The end of the loop: the thread of the matrix waits for the semaphore when it has last read that
all buttons are released, and else goes on to look at them. -/
def contin (m : Module) (s : State) : State :=
  { s with
    pc := if m = .matrixButtons ∧ s.buttonsState ≠ allButtonsRelease then .check else .wait }

/-- What the thread does with buttons that have changed. -/
def handleChange (objs : List ButtonObj) (calls : TimerCalls) (s : State) : State :=
  let obj := getButtonsObj objs s.buttonsState
  let s := releaseCurrentTiggeredObj objs s.buttonsState s
  match obj with
  | none => s
  | some i => if (button objs i).en then pressObj objs calls i s else s

/-- A step of `buttons_process_thread` or of `matrix_buttons_process_thread`. -/
def processThread (m : Module) (objs : List ButtonObj) (calls : TimerCalls) (s : State) : State :=
  match s.pc with
  | .wait => if s.sem then { s with sem := false, pc := .check } else s
  | .check =>
    if s.timeUp then { buttonTimerEvent objs calls s with pc := .clear } else { s with pc := .read }
  | .clear => contin m { s with timeUp := false }
  | .read =>
    let s := { s with buttonsState := s.actual }
    if s.prev = s.buttonsState then contin m s
    else { s with prev := s.buttonsState, pc := .handle }
  | .handle => contin m (handleChange objs calls s)

/-- The buttons change and interrupt, time goes on, the timer expires and its callback releases the
semaphore, the callback sets the flag, or the thread takes a step. -/
inductive Label
  | change (actual : BitVec 32)
  | tick
  | expire
  | callback
  | thread (calls : TimerCalls)

def State.due (s : State) : Bool :=
  match s.timer with
  | none => false
  | some deadline => deadline ≤ s.now

def next (m : Module) (objs : List ButtonObj) (s : State) : Label → State
  | .change actual =>
    { s with
      actual := actual
      since := if actual = s.actual then s.since else s.now
      sem := true }
  | .tick => { s with now := s.now + 1 }
  | .expire => if s.due then { s with timer := none, sem := true, inCallback := true } else s
  | .callback => if s.inCallback then { s with inCallback := false, timeUp := true } else s
  | .thread calls => processThread m objs calls s

/-! ## The protocol -/

/-- Whether the callbacks of an object stand at a press. -/
inductive Phase
  | released
  | pressed
  deriving DecidableEq

/-- What an object of each kind may report next: a short one `RELEASE`, a long or combined one
`PRESS` and `RELEASE` in turn, a short-long one `RELEASE` or `PRESS` and `REPEAT_RELEASE`, and one
that repeats `PRESS`, any number of `REPEAT_PRESS` and `RELEASE`. -/
def follow : ButtonType → Phase → ButtonState → Option Phase
  | .short, .released, .release => some .released
  | .long, .released, .press => some .pressed
  | .long, .pressed, .release => some .released
  | .combinedLong, .released, .press => some .pressed
  | .combinedLong, .pressed, .release => some .released
  | .shortLong, .released, .release => some .released
  | .shortLong, .released, .press => some .pressed
  | .shortLong, .pressed, .repeatRelease => some .released
  | .repeatLong, .released, .press => some .pressed
  | .repeatLong, .pressed, .repeatPress => some .pressed
  | .repeatLong, .pressed, .release => some .released
  | _, _, _ => none

/-- The states that an object has reported. -/
def reported (log : List Report) (i : Nat) : List ButtonState :=
  (log.filter fun r => r.obj = i).map Report.sta

def phase (objs : List ButtonObj) (log : List Report) (i : Nat) : Option Phase :=
  (reported log i).foldlM (follow (button objs i).func) .released

/-- Every object has kept to its grammar, a press was reported when its buttons had been held for
its timeout, and while the thread waits without a token it has seen the buttons as they are. -/
structure Good (objs : List ButtonObj) (s : State) : Prop where
  grammar : ∀ i < objs.length, phase objs s.log i ≠ none
  held : ∀ r ∈ s.log, r.sta = .press → r.actual = (button objs r.obj).idMask ∧
    r.since + (button objs r.obj).timeoutMs ≤ r.time
  seen : s.pc = .wait → s.sem = false → s.prev = s.actual

instance decidableGood (objs : List ButtonObj) (s : State) : Decidable (Good objs s) :=
  decidable_of_iff ((∀ i < objs.length, phase objs s.log i ≠ none) ∧
      (∀ r ∈ s.log, r.sta = .press → r.actual = (button objs r.obj).idMask ∧
        r.since + (button objs r.obj).timeoutMs ≤ r.time) ∧
      (s.pc = .wait → s.sem = false → s.prev = s.actual))
    ⟨fun h => ⟨h.1, h.2.1, h.2.2⟩, fun h => ⟨h.grammar, h.held, h.seen⟩⟩

/-- An expiry is on its way to the thread, which has not dealt with it. -/
def State.expired (s : State) : Bool := s.inCallback || (s.timeUp && s.pc ≠ .clear)

/-- The buttons change only when the last change has been read and no expiry is on its way, the
timer expires only when the last change has been handled, the thread does not interrupt the callback
of the timer, and the commands to the timer do not fail. -/
def Timely (s : State) : Label → Prop
  | .change _ => s.prev = s.actual ∧ s.expired = false
  | .tick => True
  | .expire => s.prev = s.actual ∧ s.pc ≠ .handle
  | .callback => True
  | .thread calls => s.inCallback = false ∧ calls = .ok

instance decidableTimely (s : State) : (a : Label) → Decidable (Timely s a)
  | .change _ => inferInstanceAs (Decidable (_ ∧ _))
  | .tick => isTrue trivial
  | .expire => inferInstanceAs (Decidable (_ ∧ _))
  | .callback => isTrue trivial
  | .thread _ => inferInstanceAs (Decidable (_ ∧ _))

/-! ## What the callbacks of an object add up to -/

section

variable {objs : List ButtonObj} {m : Module} {calls : TimerCalls} {s s' : State} {i j : Nat}
  {b : BitVec 32} {sta : ButtonState} {log : List Report} {r : Report}

theorem reported_append (reps : List Report) :
    reported (log ++ reps) i = reported log i ++ reported reps i := by
  simp [reported]

theorem phase_self {p : Phase} (h : phase objs log i = some p) (hr : r.obj = i) :
    phase objs (log ++ [r]) i = follow (button objs i).func p r.sta := by
  have hone : reported [r] i = [r.sta] := by simp [reported, hr]
  rw [phase, reported_append, hone, List.foldlM_append]
  rw [phase] at h
  rw [h]
  cases hnext : follow (button objs i).func p r.sta <;> simp [hnext]

theorem phase_other (hr : r.obj ≠ i) : phase objs (log ++ [r]) i = phase objs log i := by
  have hnone : reported [r] i = [] := by simp [reported, hr]
  rw [phase, reported_append, hnone, List.append_nil]
  rfl

/-- Where the callbacks of an object stand. -/
def State.standing (objs : List ButtonObj) (s : State) (i : Nat) : Phase :=
  if s.current = some i ∧ (button objs i).func ≠ .short ∧ s.sta i ≠ .invalidSta then .pressed
  else .released

/-- What the state of the triggered object may be. -/
def StaOk (func : ButtonType) (sta : ButtonState) : Prop :=
  sta = .invalidSta ∨ sta = .press ∨ (func = .repeatLong ∧ sta = .repeatPress)

/-! ## The invariant -/

structure Inv (objs : List ButtonObj) (s : State) : Prop where
  since : s.since ≤ s.now
  same : s.buttonsState = s.prev
  unread : s.prev ≠ s.actual → s.sem = true ∨ s.pc = .check ∨ s.pc = .read
  expired : s.expired = true → s.prev = s.actual ∧ s.timer = none
  handling : s.pc = .handle → s.expired = false
  armed : s.timer.isSome = true ∨ s.expired = true →
    ∃ i, s.current = some i ∧ (button objs i).func ≠ .short ∧
      (s.pc ≠ .handle → s.prev = (button objs i).idMask) ∧
      ((button objs i).func ≠ .repeatLong → s.sta i = .invalidSta)
  deadline : ∀ i d, s.current = some i → s.timer = some d → s.prev = s.actual → s.pc ≠ .handle →
    s.sta i = .invalidSta → s.since + (button objs i).timeoutMs ≤ d
  ripe : ∀ i, s.current = some i → s.expired = true → s.sta i = .invalidSta →
    s.since + (button objs i).timeoutMs ≤ s.now
  sta : ∀ i, s.current = some i → StaOk (button objs i).func (s.sta i)
  phase : ∀ i, phase objs s.log i = some (s.standing objs i)
  held : ∀ r ∈ s.log, r.sta = .press → r.actual = (button objs r.obj).idMask ∧
    r.since + (button objs r.obj).timeoutMs ≤ r.time

theorem inv_start : Inv objs start where
  since := Nat.le_refl _
  same := rfl
  unread h := absurd rfl h
  expired h := absurd h Bool.false_ne_true
  handling _ := rfl
  armed h := h.elim (fun h => absurd h Bool.false_ne_true) fun h => absurd h Bool.false_ne_true
  deadline _ _ h := absurd h.symm (Option.some_ne_none _)
  ripe _ h := absurd h.symm (Option.some_ne_none _)
  sta _ h := absurd h.symm (Option.some_ne_none _)
  phase _ := rfl
  held _ h := absurd h List.not_mem_nil

theorem Inv.good (h : Inv objs s) : Good objs s where
  grammar i _ hnone := Option.some_ne_none _ ((h.phase i).symm.trans hnone)
  held := h.held
  seen hwait hsem := Decidable.byContradiction fun hne => by
    rcases h.unread hne with h' | h' | h' <;> simp_all

/-! ## The environment -/

theorem Inv.change (h : Inv objs s) (hread : s.prev = s.actual) (hexpired : s.expired = false) :
    Inv objs (next m objs s (.change b)) where
  since := by
    simp only [next]
    split
    · exact h.since
    · exact Nat.le_refl _
  same := h.same
  unread _ := .inl rfl
  expired h' := absurd (hexpired.symm.trans h') Bool.false_ne_true
  handling := h.handling
  armed := h.armed
  deadline i d hcur htimer hprev hpc hsta := by
    have hb : b = s.actual := (hread.symm.trans hprev).symm
    simp only [next, if_pos hb]
    exact h.deadline i d hcur htimer hread hpc hsta
  ripe _ _ h' := absurd (hexpired.symm.trans h') Bool.false_ne_true
  sta := h.sta
  phase := h.phase
  held := h.held

theorem Inv.tick (h : Inv objs s) : Inv objs (next m objs s .tick) where
  since := Nat.le_succ_of_le h.since
  same := h.same
  unread := h.unread
  expired := h.expired
  handling := h.handling
  armed := h.armed
  deadline := h.deadline
  ripe i hcur hexpired hsta := Nat.le_succ_of_le (h.ripe i hcur hexpired hsta)
  sta := h.sta
  phase := h.phase
  held := h.held

theorem Inv.expire (h : Inv objs s) (hread : s.prev = s.actual) (hpc : s.pc ≠ .handle) :
    Inv objs (next m objs s .expire) := by
  cases htimer : s.timer with
  | none =>
    have hdue : s.due = false := by rw [State.due, htimer]
    rw [next, hdue]
    exact h
  | some d =>
    by_cases hd : d ≤ s.now
    · have hdue : s.due = true := by simp [State.due, htimer, hd]
      rw [next, if_pos hdue]
      obtain ⟨i, hi⟩ := h.armed (.inl (by rw [htimer]; rfl))
      exact {
        since := h.since
        same := h.same
        unread := fun h' => absurd hread h'
        expired := fun _ => ⟨hread, rfl⟩
        handling := fun h' => absurd h' hpc
        armed := fun _ => ⟨i, hi⟩
        deadline := fun _ _ _ h' => absurd h'.symm (Option.some_ne_none _)
        ripe := fun j hcur _ hsta => Nat.le_trans (h.deadline j d hcur htimer hread hpc hsta) hd
        sta := h.sta
        phase := h.phase
        held := h.held }
    · have hdue : s.due = false := by simp [State.due, htimer, hd]
      rw [next, hdue]
      exact h

theorem Inv.callback (h : Inv objs s) : Inv objs (next m objs s .callback) := by
  rw [next]
  split
  · rename_i hin
    have hexpired : s.expired = true := by rw [State.expired, hin, Bool.true_or]
    exact {
      since := h.since
      same := h.same
      unread := h.unread
      expired := fun _ => h.expired hexpired
      handling := fun hpc => absurd ((h.handling hpc).symm.trans hexpired) Bool.false_ne_true
      armed := fun _ => h.armed (.inr hexpired)
      deadline := h.deadline
      ripe := fun i hcur _ hsta => h.ripe i hcur hexpired hsta
      sta := h.sta
      phase := h.phase
      held := h.held }
  · exact h

/-! ## The thread between two changes -/

/-- The thread goes on with nothing handled and a token taken at most. -/
theorem Inv.move (h : Inv objs s) (sem : Bool) (pc : Pc) (hhandle : s.pc ≠ .handle)
    (hclear : s.pc ≠ .clear) (hhandle' : pc ≠ .handle) (hclear' : pc ≠ .clear)
    (hunread : s.prev ≠ s.actual → sem = true ∨ pc = .check ∨ pc = .read) :
    Inv objs { s with sem := sem, pc := pc } := by
  have hexpired : State.expired { s with sem := sem, pc := pc } = s.expired := by
    simp [State.expired, hclear, hclear']
  exact {
    since := h.since
    same := h.same
    unread := hunread
    expired := fun h' => h.expired (hexpired.symm.trans h')
    handling := fun h' => absurd h' hhandle'
    armed := fun h' => by
      obtain ⟨i, hcur, hfunc, hmask, hsta⟩ := h.armed (h'.imp_right hexpired.symm.trans)
      exact ⟨i, hcur, hfunc, fun _ => hmask hhandle, hsta⟩
    deadline := fun i d hcur htimer hprev _ => h.deadline i d hcur htimer hprev hhandle
    ripe := fun i hcur h' => h.ripe i hcur (hexpired.symm.trans h')
    sta := h.sta
    phase := h.phase
    held := h.held }

/-- The end of the loop differs in where the thread goes on. -/
theorem Inv.contin (h : Inv objs { s with pc := .wait }) : Inv objs (contin m s) := by
  rw [Buttons.contin]
  split
  · exact h.move s.sem .check Pc.noConfusion Pc.noConfusion Pc.noConfusion Pc.noConfusion
      fun _ => .inr (.inl rfl)
  · exact h

theorem Inv.clear (h : Inv objs s) (hpc : s.pc = .clear) (hin : s.inCallback = false) :
    Inv objs { s with timeUp := false, pc := .wait } where
  since := h.since
  same := h.same
  unread h' := .inl ((h.unread h').resolve_right (by simp [hpc]))
  expired h' := absurd h' (by simp [State.expired, hin])
  handling h' := Pc.noConfusion h'
  armed h' := by
    obtain ⟨i, hcur, hfunc, hmask, hsta⟩ := h.armed
      (.inl (h'.resolve_right (by simp [State.expired, hin])))
    exact ⟨i, hcur, hfunc, fun _ => hmask (by simp [hpc]), hsta⟩
  deadline i d hcur htimer hprev _ := h.deadline i d hcur htimer hprev (by simp [hpc])
  ripe _ _ h' := absurd h' (by simp [State.expired, hin])
  sta := h.sta
  phase := h.phase
  held := h.held

theorem Inv.readChange (h : Inv objs s) (hpc : s.pc = .read) (hread : s.prev ≠ s.actual) :
    Inv objs { s with buttonsState := s.actual, prev := s.actual, pc := .handle } := by
  have hexpired : s.expired = false := Bool.eq_false_iff.mpr fun h' => hread (h.expired h').1
  have hnone : State.expired
      { s with buttonsState := s.actual, prev := s.actual, pc := .handle } = false := by
    simpa [State.expired, hpc] using hexpired
  exact {
    since := h.since
    same := rfl
    unread := fun h' => absurd rfl h'
    expired := fun h' => absurd (hnone.symm.trans h') Bool.false_ne_true
    handling := fun _ => hnone
    armed := fun h' => by
      obtain ⟨i, hcur, hfunc, -, hsta⟩ := h.armed
        (.inl (h'.resolve_right fun h' => Bool.false_ne_true (hnone.symm.trans h')))
      exact ⟨i, hcur, hfunc, fun h' => absurd rfl h', hsta⟩
    deadline := fun _ _ _ _ _ h' => absurd rfl h'
    ripe := fun _ _ h' => absurd (hnone.symm.trans h') Bool.false_ne_true
    sta := h.sta
    phase := h.phase
    held := h.held }

/-! ## The event of the timer -/

theorem standing_current (hcur : s.current = some i) (hfunc : (button objs i).func ≠ .short) :
    s.standing objs i = if s.sta i = .invalidSta then .released else .pressed := by
  by_cases hsta : s.sta i = .invalidSta <;> simp [State.standing, hcur, hfunc, hsta]

theorem standing_other (hcur : s.current = some i) (hne : j ≠ i) :
    s.standing objs j = .released := by
  have hne' : i ≠ j := hne.symm
  simp [State.standing, hcur, hne']

/-- A callback of the triggered object, which goes on from where its callbacks stand. -/
theorem phase_call (h : ∀ j, phase objs s.log j = some (s.standing objs j))
    (hcur : s.current = some i) (hcur' : s'.current = some i)
    (hlog : s'.log = s.log ++ [r]) (hr : r.obj = i)
    (hfollow : follow (button objs i).func (s.standing objs i) r.sta = some (s'.standing objs i)) :
    phase objs s'.log j = some (s'.standing objs j) := by
  rw [hlog]
  by_cases hj : j = i
  · rw [hj, phase_self (h i) hr, hfollow]
  · rw [phase_other (by rw [hr]; exact fun h' => hj h'.symm), h j, standing_other hcur hj,
      standing_other hcur' hj]

theorem setSta_self : (s.setSta i sta).sta i = sta := if_pos rfl

/-- The thread behind a callback that leaves the object at a press. -/
theorem Inv.called (h : Inv objs s) (hcur : s.current = some i)
    (hfunc : (button objs i).func ≠ .short) (hread : s.prev = s.actual)
    (hmask : s.prev = (button objs i).idMask) (hin : s.inCallback = false) {timer : Option Nat}
    (htimer : timer.isSome = true → (button objs i).func = .repeatLong)
    (hok : StaOk (button objs i).func sta) (hsta : sta ≠ .invalidSta)
    (hfollow : follow (button objs i).func (s.standing objs i) sta = some .pressed)
    (hheld : sta = .press → s.since + (button objs i).timeoutMs ≤ s.now) :
    Inv objs { s.call i sta with timer := timer, pc := .clear } := by
  have hnone : State.expired { s.call i sta with timer := timer, pc := .clear } = false := by
    simp [State.expired, State.call, State.setSta, hin]
  have hself : State.sta { s.call i sta with timer := timer, pc := .clear } i = sta := setSta_self
  have hstanding :
      State.standing objs { s.call i sta with timer := timer, pc := .clear } i = .pressed := by
    have hcur' : State.current { s.call i sta with timer := timer, pc := .clear } = some i := hcur
    rw [standing_current hcur' hfunc, hself, if_neg hsta]
  exact {
    since := h.since
    same := h.same
    unread := fun h' => absurd hread h'
    expired := fun h' => absurd (hnone.symm.trans h') Bool.false_ne_true
    handling := fun h' => Pc.noConfusion h'
    armed := fun h' => by
      have hrepeat := htimer
        (h'.resolve_right fun h' => Bool.false_ne_true (hnone.symm.trans h'))
      exact ⟨i, hcur, hfunc, fun _ => hmask, fun h' => absurd hrepeat h'⟩
    deadline := fun j d hcur' _ _ _ hsta' => by
      obtain rfl := Option.some.inj (hcur.symm.trans hcur')
      exact absurd (hself.symm.trans hsta') hsta
    ripe := fun _ _ h' => absurd (hnone.symm.trans h') Bool.false_ne_true
    sta := fun j hcur' => by
      obtain rfl := Option.some.inj (hcur.symm.trans hcur')
      exact hself.symm ▸ hok
    phase := fun j => phase_call (r := ⟨i, sta, s.actual, s.since, s.now⟩) h.phase hcur hcur rfl rfl
      (hfollow.trans (congrArg some hstanding.symm))
    held := fun r hr hpress => by
      rcases List.mem_append.mp hr with hr | hr
      · exact h.held r hr hpress
      · obtain rfl := List.mem_singleton.mp hr
        exact ⟨hread.symm.trans hmask, hheld hpress⟩ }

theorem Inv.event (h : Inv objs s) (hpc : s.pc = .check) (hup : s.timeUp = true)
    (hin : s.inCallback = false) :
    Inv objs { buttonTimerEvent objs .ok s with pc := .clear } := by
  have hexpired : s.expired = true := by simp [State.expired, hup, hpc]
  obtain ⟨hread, htimer⟩ := h.expired hexpired
  obtain ⟨i, hcur, hfunc, hmask, hinvalid⟩ := h.armed (.inr hexpired)
  have hmask := hmask (by simp [hpc])
  have hripe := h.ripe i hcur hexpired
  have hstanding := standing_current hcur hfunc
  -- the kinds that report a press once
  have honce (hevent : buttonTimerEvent objs .ok s = s.call i .press)
      (hinvalid : s.sta i = .invalidSta)
      (hfollow : follow (button objs i).func .released .press = some .pressed) :
      Inv objs { buttonTimerEvent objs .ok s with pc := .clear } := by
    have hcall : { buttonTimerEvent objs .ok s with pc := .clear } =
        { s.call i .press with timer := none, pc := .clear } := by
      rw [hevent, ← htimer]
      rfl
    rw [hcall]
    refine h.called hcur hfunc hread hmask hin (fun h' => absurd h' Bool.false_ne_true)
      (.inr (.inl rfl)) ButtonState.noConfusion ?_ fun _ => hripe hinvalid
    rw [hstanding, if_pos hinvalid, hfollow]
  cases hkind : (button objs i).func with
  | short => exact absurd hkind hfunc
  | long =>
    exact honce (by rw [buttonTimerEvent, hcur]; simp only [hkind]) (hinvalid (by simp [hkind]))
      (by rw [hkind]; rfl)
  | shortLong =>
    exact honce (by rw [buttonTimerEvent, hcur]; simp only [hkind]) (hinvalid (by simp [hkind]))
      (by rw [hkind]; rfl)
  | combinedLong =>
    exact honce (by rw [buttonTimerEvent, hcur]; simp only [hkind]) (hinvalid (by simp [hkind]))
      (by rw [hkind]; rfl)
  | repeatLong =>
    have hok := h.sta i hcur
    by_cases hfirst : s.sta i = .invalidSta
    · have hevent : buttonTimerEvent objs .ok s = { s.call i .press with
          timer := some (s.now + (button objs i).repeatTimeoutMs) } := by
        rw [buttonTimerEvent, hcur]
        simp only [hkind, if_pos hfirst]
        rfl
      rw [hevent]
      refine h.called hcur hfunc hread hmask hin (fun _ => hkind) (.inr (.inl rfl))
        ButtonState.noConfusion ?_ fun _ => hripe hfirst
      rw [hstanding, if_pos hfirst, hkind]
      rfl
    · have hagain : s.sta i = .press ∨ s.sta i = .repeatPress :=
        (hok.resolve_left hfirst).imp_right And.right
      have hevent : buttonTimerEvent objs .ok s = { s.call i .repeatPress with
          timer := some (s.now + (button objs i).repeatTimeoutMs) } := by
        rw [buttonTimerEvent, hcur]
        simp only [hkind, if_neg hfirst, if_pos hagain]
        rfl
      rw [hevent]
      refine h.called hcur hfunc hread hmask hin (fun _ => hkind) (.inr (.inr ⟨hkind, rfl⟩))
        ButtonState.noConfusion ?_ fun h' => ButtonState.noConfusion h'
      rw [hstanding, if_neg hfirst, hkind]
      rfl

/-! ## The release of the triggered object -/

/-- A release that calls back `reps`. -/
def State.released (s : State) (i : Nat) (b : BitVec 32) (reps : List Report) : State :=
  { s with
    timer := none
    timeUp := false
    current := if b = allButtonsRelease then none else s.current
    sta := fun j => if j = i then .invalidSta else s.sta j
    log := s.log ++ reps }

theorem leave_eq (htimer : s.timer = none) (hup : s.timeUp = false) :
    s.leave i b = s.released i b [] := by
  obtain ⟨actual, since, now, sem, timer, inCallback, timeUp, current, sta, pc, buttonsState, prev,
    log⟩ := s
  obtain rfl : timer = none := htimer
  obtain rfl : timeUp = false := hup
  by_cases hb : b = allButtonsRelease <;> simp [State.leave, State.released, State.setSta, hb]

theorem call_leave_eq (htimer : s.timer = none) (hup : s.timeUp = false) :
    (s.call i sta).leave i b = s.released i b [⟨i, sta, s.actual, s.since, s.now⟩] := by
  have hsta : (fun j => if j = i then ButtonState.invalidSta else if j = i then sta else s.sta j) =
      fun j => if j = i then .invalidSta else s.sta j := by
    funext j
    by_cases hj : j = i <;> simp [hj]
  obtain ⟨actual, since, now, sem, timer, inCallback, timeUp, current, states, pc, buttonsState,
    prev, log⟩ := s
  obtain rfl : timer = none := htimer
  obtain rfl : timeUp = false := hup
  by_cases hb : b = allButtonsRelease <;>
    simp [State.leave, State.released, State.call, State.setSta, hb, hsta]

theorem released_stopTimer (reps : List Report) :
    s.stopTimer.released i b reps = s.released i b reps := rfl

theorem shortButtonRelease_eq (htimer : s.timer = none) (hup : s.timeUp = false) :
    shortButtonRelease b i s = s.released i b
      (if b = allButtonsRelease ∧ s.sta i = .press then
        [⟨i, .release, s.actual, s.since, s.now⟩] else []) := by
  rw [shortButtonRelease]
  split
  · exact call_leave_eq htimer hup
  · exact leave_eq htimer hup

theorem longButtonRelease_eq :
    longButtonRelease b i s = s.released i b
      (if s.sta i = .press ∨ s.sta i = .repeatPress then
        [⟨i, .release, s.actual, s.since, s.now⟩] else []) := by
  rw [longButtonRelease, ← released_stopTimer]
  have hsta : s.stopTimer.sta = s.sta := rfl
  simp only [hsta]
  split
  · exact call_leave_eq rfl rfl
  · exact leave_eq rfl rfl

theorem shortLongButtonRelease_eq (hup : s.timeUp = false) :
    shortLongButtonRelease b i s = s.released i b
      (if s.timer.isSome then [⟨i, .release, s.actual, s.since, s.now⟩]
      else if s.sta i = .press then [⟨i, .repeatRelease, s.actual, s.since, s.now⟩] else []) := by
  rw [shortLongButtonRelease]
  split
  · exact call_leave_eq rfl rfl
  · rename_i htimer
    have hnone : s.timer = none := Option.not_isSome_iff_eq_none.mp htimer
    split
    · exact call_leave_eq hnone hup
    · exact leave_eq hnone hup

theorem combinedLongButtonRelease_eq :
    combinedLongButtonRelease b i s = s.released i b
      (if s.sta i = .press then [⟨i, .release, s.actual, s.since, s.now⟩] else []) := by
  rw [combinedLongButtonRelease, ← released_stopTimer]
  have hsta : s.stopTimer.sta = s.sta := rfl
  simp only [hsta]
  split
  · exact call_leave_eq rfl rfl
  · exact leave_eq rfl rfl

/-- Between the release of the triggered object and the press of the next. -/
structure Clean (objs : List ButtonObj) (s : State) : Prop where
  since : s.since ≤ s.now
  same : s.buttonsState = s.prev
  unread : s.prev ≠ s.actual → s.sem = true
  inCallback : s.inCallback = false
  timeUp : s.timeUp = false
  timer : s.timer = none
  sta : ∀ i, s.current = some i → s.buttonsState ≠ allButtonsRelease ∧ s.sta i = .invalidSta
  phase : ∀ i, phase objs s.log i = some .released
  held : ∀ r ∈ s.log, r.sta = .press → r.actual = (button objs r.obj).idMask ∧
    r.since + (button objs r.obj).timeoutMs ≤ r.time

theorem Inv.idle (h : Inv objs s) (hpc : s.pc = .handle) :
    s.inCallback = false ∧ s.timeUp = false := by
  have hexpired := h.handling hpc
  simpa [State.expired, hpc] using hexpired

theorem Inv.unreadHandle (h : Inv objs s) (hpc : s.pc = .handle) (hne : s.prev ≠ s.actual) :
    s.sem = true :=
  (h.unread hne).resolve_right (by simp [hpc])

theorem Inv.clean_none (h : Inv objs s) (hpc : s.pc = .handle) (hcur : s.current = none) :
    Clean objs s where
  since := h.since
  same := h.same
  unread := h.unreadHandle hpc
  inCallback := (h.idle hpc).1
  timeUp := (h.idle hpc).2
  timer := by
    cases htimer : s.timer with
    | none => rfl
    | some d =>
      obtain ⟨i, hcur', -⟩ := h.armed (.inl (by rw [htimer]; rfl))
      exact absurd (hcur'.symm.trans hcur) (Option.some_ne_none i)
  sta i hcur' := absurd (hcur'.symm.trans hcur) (Option.some_ne_none i)
  phase i := by
    rw [h.phase i, State.standing, hcur]
    simp
  held := h.held

/-- A release that is silent when the callbacks are at rest, and else ends the press. -/
theorem Inv.clean_released {reps : List Report} (h : Inv objs s) (hpc : s.pc = .handle)
    (hcur : s.current = some i)
    (hreps : (reps = [] ∧ s.standing objs i = .released) ∨
      ∃ sta, reps = [⟨i, sta, s.actual, s.since, s.now⟩] ∧ sta ≠ .press ∧
        follow (button objs i).func (s.standing objs i) sta = some .released) :
    Clean objs (s.released i s.buttonsState reps) where
  since := h.since
  same := h.same
  unread := h.unreadHandle hpc
  inCallback := (h.idle hpc).1
  timeUp := rfl
  timer := rfl
  sta j hcur' := by
    simp only [State.released] at hcur' ⊢
    split at hcur'
    · exact absurd hcur'.symm (Option.some_ne_none j)
    · rename_i hb
      obtain rfl := Option.some.inj (hcur.symm.trans hcur')
      exact ⟨hb, if_pos rfl⟩
  phase j := by
    have hphase := h.phase j
    by_cases hj : j = i
    · subst hj
      rcases hreps with ⟨rfl, hrest⟩ | ⟨sta, rfl, -, hfollow⟩
      · simpa [State.released, hrest] using hphase
      · exact (phase_self hphase rfl).trans hfollow
    · rw [standing_other hcur hj] at hphase
      rcases hreps with ⟨rfl, -⟩ | ⟨sta, rfl, -, -⟩
      · simpa [State.released] using hphase
      · exact (phase_other (fun h' => hj h'.symm)).trans hphase
  held r hr hpress := by
    rcases List.mem_append.mp hr with hr | hr
    · exact h.held r hr hpress
    · rcases hreps with ⟨rfl, -⟩ | ⟨sta, rfl, hne, -⟩
      · exact absurd hr List.not_mem_nil
      · obtain rfl := List.mem_singleton.mp hr
        exact absurd hpress hne

theorem Inv.clean (h : Inv objs s) (hpc : s.pc = .handle) :
    Clean objs (releaseCurrentTiggeredObj objs s.buttonsState s) := by
  have hup := (h.idle hpc).2
  cases hcur : s.current with
  | none =>
    rw [releaseCurrentTiggeredObj, hcur]
    exact h.clean_none hpc hcur
  | some i =>
    have hok := h.sta i hcur
    have harmed (htimer : s.timer.isSome = true) : (button objs i).func ≠ .short ∧
        ((button objs i).func ≠ .repeatLong → s.sta i = .invalidSta) := by
      obtain ⟨j, hcur', hfunc, -, hsta⟩ := h.armed (.inl htimer)
      obtain rfl := Option.some.inj (hcur.symm.trans hcur')
      exact ⟨hfunc, hsta⟩
    have hstanding (hfunc : (button objs i).func ≠ .short) := standing_current hcur hfunc
    rw [releaseCurrentTiggeredObj, hcur]
    cases hkind : (button objs i).func with
    | short =>
      have htimer : s.timer = none := Option.not_isSome_iff_eq_none.mp fun h' =>
        (harmed h').1 hkind
      have hrest : s.standing objs i = .released := by simp [State.standing, hkind]
      simp only [hkind, shortButtonRelease_eq htimer hup]
      refine h.clean_released hpc hcur ?_
      split
      · exact .inr ⟨.release, rfl, ButtonState.noConfusion, by rw [hrest, hkind]; rfl⟩
      · exact .inl ⟨rfl, hrest⟩
    | long =>
      have hstanding := hstanding (by simp [hkind])
      simp only [hkind, longButtonRelease_eq]
      refine h.clean_released hpc hcur ?_
      rcases hok with hsta | hsta | ⟨hrepeat, -⟩
      · exact .inl ⟨by simp [hsta], by rw [hstanding, if_pos hsta]⟩
      · refine .inr ⟨.release, by simp [hsta], ButtonState.noConfusion, ?_⟩
        rw [hstanding, hsta, hkind]
        rfl
      · exact absurd (hkind.symm.trans hrepeat) ButtonType.noConfusion
    | shortLong =>
      have hstanding := hstanding (by simp [hkind])
      simp only [hkind, shortLongButtonRelease_eq hup]
      refine h.clean_released hpc hcur ?_
      by_cases htimer : s.timer.isSome = true
      · have hsta := (harmed htimer).2 (by simp [hkind])
        refine .inr ⟨.release, by simp [htimer], ButtonState.noConfusion, ?_⟩
        rw [hstanding, if_pos hsta, hkind]
        rfl
      · rcases hok with hsta | hsta | ⟨hrepeat, -⟩
        · exact .inl ⟨by simp [htimer, hsta], by rw [hstanding, if_pos hsta]⟩
        · refine .inr ⟨.repeatRelease, by simp [htimer, hsta], ButtonState.noConfusion, ?_⟩
          rw [hstanding, hsta, hkind]
          rfl
        · exact absurd (hkind.symm.trans hrepeat) ButtonType.noConfusion
    | combinedLong =>
      have hstanding := hstanding (by simp [hkind])
      simp only [hkind, combinedLongButtonRelease_eq]
      refine h.clean_released hpc hcur ?_
      rcases hok with hsta | hsta | ⟨hrepeat, -⟩
      · exact .inl ⟨by simp [hsta], by rw [hstanding, if_pos hsta]⟩
      · refine .inr ⟨.release, by simp [hsta], ButtonState.noConfusion, ?_⟩
        rw [hstanding, hsta, hkind]
        rfl
      · exact absurd (hkind.symm.trans hrepeat) ButtonType.noConfusion
    | repeatLong =>
      have hstanding := hstanding (by simp [hkind])
      simp only [hkind, repeatLongButtonRelease, longButtonRelease_eq]
      refine h.clean_released hpc hcur ?_
      rcases hok with hsta | hsta | ⟨-, hsta⟩
      · exact .inl ⟨by simp [hsta], by rw [hstanding, if_pos hsta]⟩
      · refine .inr ⟨.release, by simp [hsta], ButtonState.noConfusion, ?_⟩
        rw [hstanding, hsta, hkind]
        rfl
      · refine .inr ⟨.release, by simp [hsta], ButtonState.noConfusion, ?_⟩
        rw [hstanding, hsta, hkind]
        rfl

/-! ## The press of the next object -/

theorem leave_buttonsState : (s.leave i b).buttonsState = s.buttonsState := by
  rw [State.leave]
  split <;> rfl

theorem release_buttonsState :
    (releaseCurrentTiggeredObj objs b s).buttonsState = s.buttonsState := by
  cases hcur : s.current with
  | none => rw [releaseCurrentTiggeredObj, hcur]
  | some i =>
    rw [releaseCurrentTiggeredObj, hcur]
    cases hkind : (button objs i).func <;>
      simp only [hkind, shortButtonRelease, longButtonRelease, shortLongButtonRelease,
        combinedLongButtonRelease, repeatLongButtonRelease, leave_buttonsState] <;>
      (repeat' split) <;> rfl

theorem Clean.rest (h : Clean objs s) : Inv objs { s with pc := .wait } where
  since := h.since
  same := h.same
  unread hne := .inl (h.unread hne)
  expired h' := absurd h' (by simp [State.expired, h.inCallback, h.timeUp])
  handling h' := Pc.noConfusion h'
  armed h' := absurd h' (by simp [State.expired, h.inCallback, h.timeUp, h.timer])
  deadline i d _ htimer := absurd (htimer.symm.trans h.timer) (Option.some_ne_none d)
  ripe _ _ h' := absurd h' (by simp [State.expired, h.inCallback, h.timeUp])
  sta i hcur := .inl (h.sta i hcur).2
  phase i := by
    rw [h.phase i, State.standing, if_neg fun h' => h'.2.2 (h.sta i h'.1).2]
  held := h.held

theorem Clean.pressed_short (h : Clean objs s) (hkind : (button objs i).func = .short) :
    Inv objs { s.setSta i .press with current := some i, pc := .wait } where
  since := h.since
  same := h.same
  unread hne := .inl (h.unread hne)
  expired h' := absurd h' (by simp [State.expired, State.setSta, h.inCallback, h.timeUp])
  handling h' := Pc.noConfusion h'
  armed h' := absurd h' (by simp [State.expired, State.setSta, h.inCallback, h.timeUp, h.timer])
  deadline i d _ htimer := absurd (htimer.symm.trans h.timer) (Option.some_ne_none d)
  ripe _ _ h' := absurd h' (by simp [State.expired, State.setSta, h.inCallback, h.timeUp])
  sta j hcur := by
    obtain rfl := Option.some.inj hcur
    exact .inr (.inl setSta_self)
  phase j := by
    refine (h.phase j).trans (congrArg some ?_)
    rw [State.standing, if_neg]
    rintro ⟨hcur, hfunc, -⟩
    obtain rfl := Option.some.inj hcur
    exact hfunc hkind
  held := h.held

/-- The buttons have been held since the change that the timer is started for, or longer. -/
theorem Clean.triggered (h : Clean objs s) (hfunc : (button objs i).func ≠ .short)
    (hmask : (button objs i).idMask = s.buttonsState) :
    Inv objs { trigger objs .ok i s with pc := .wait } where
  since := h.since
  same := h.same
  unread hne := .inl (h.unread hne)
  expired h' := absurd h' (by
    simp [trigger, State.startTimer, State.expired, State.setSta, h.inCallback, h.timeUp])
  handling h' := Pc.noConfusion h'
  armed _ := ⟨i, rfl, hfunc, fun _ => h.same.symm.trans hmask.symm, fun _ => setSta_self⟩
  deadline j d hcur htimer _ _ _ := by
    obtain rfl := Option.some.inj hcur
    obtain rfl := Option.some.inj htimer
    exact Nat.add_le_add_right h.since _
  ripe _ _ h' := absurd h' (by
    simp [trigger, State.startTimer, State.expired, State.setSta, h.inCallback, h.timeUp])
  sta j hcur := by
    obtain rfl := Option.some.inj hcur
    exact .inl setSta_self
  phase j := by
    refine (h.phase j).trans (congrArg some ?_)
    rw [State.standing, if_neg]
    rintro ⟨hcur, -, hsta⟩
    obtain rfl := Option.some.inj hcur
    exact hsta setSta_self
  held := h.held

/-- What is released again stays as it is. -/
theorem Clean.released_again (h : Clean objs s) (hcur : s.current = some j) :
    s.released j s.buttonsState [] = s := by
  obtain ⟨hb, hinvalid⟩ := h.sta j hcur
  have hsta : (fun k => if k = j then ButtonState.invalidSta else s.sta k) = s.sta := by
    funext k
    by_cases hk : k = j <;> simp [hk, hinvalid]
  rw [State.released, if_neg hb, hsta, List.append_nil, ← h.timer, ← h.timeUp]

theorem Clean.combined (h : Clean objs s) (hmask : (button objs i).idMask = s.buttonsState) :
    combinedLongButtonPress objs .ok i s = trigger objs .ok i s ∨
      combinedLongButtonPress objs .ok i s = s := by
  cases hcur : s.current with
  | none =>
    rw [combinedLongButtonPress, hcur]
    exact .inl rfl
  | some j =>
    have hagain := h.released_again hcur
    have hsta := (h.sta j hcur).2
    rw [combinedLongButtonPress, hcur, hmask]
    cases hkind : (button objs j).func with
    | short => simp [hkind, shortButtonRelease_eq h.timer h.timeUp, hsta, hagain]
    | long => simp [hkind, longButtonRelease_eq, hsta, hagain]
    | shortLong => simp [hkind, shortLongButtonRelease_eq h.timeUp, h.timer, hsta, hagain]
    | combinedLong => simp [hkind, combinedLongButtonRelease_eq, hsta, hagain]
    | repeatLong => simp [hkind]

theorem Clean.press (h : Clean objs s) (hmask : (button objs i).idMask = s.buttonsState) :
    Inv objs { pressObj objs .ok i s with pc := .wait } := by
  -- the kinds that wait for the release of the last object
  have hlong (hfunc : (button objs i).func ≠ .short) :
      Inv objs { longButtonPress objs .ok i s with pc := .wait } := by
    rw [longButtonPress]
    split
    · exact h.rest
    · exact h.triggered hfunc hmask
  rw [pressObj]
  cases hkind : (button objs i).func with
  | short =>
    simp only [shortButtonPress]
    split
    · exact h.rest
    · exact h.pressed_short hkind
  | long => simpa only [hkind] using hlong (by simp [hkind])
  | shortLong => simpa only [hkind, shortLongButtonPress] using hlong (by simp [hkind])
  | combinedLong =>
    rcases h.combined hmask with hpress | hpress
    · simp only [hpress]
      exact h.triggered (by simp [hkind]) hmask
    · simp only [hpress]
      exact h.rest
  | repeatLong => simpa only [hkind, repeatLongButtonPress] using hlong (by simp [hkind])

theorem getButtonsObj_mask (h : getButtonsObj objs b = some i) :
    (button objs i).idMask = b := by
  obtain ⟨hi, hmask, -⟩ := List.findIdx?_eq_some_iff_getElem.mp h
  rw [button, List.getD_eq_getElem?_getD, List.getElem?_eq_getElem hi, Option.getD_some]
  exact of_decide_eq_true hmask

theorem Inv.handle (h : Inv objs s) (hpc : s.pc = .handle) :
    Inv objs { handleChange objs .ok s with pc := .wait } := by
  have hclean := h.clean hpc
  rw [handleChange]
  cases hobj : getButtonsObj objs s.buttonsState with
  | none => exact hclean.rest
  | some i =>
    dsimp only
    split
    · exact hclean.press ((getButtonsObj_mask hobj).trans release_buttonsState.symm)
    · exact hclean.rest

/-! ## Runs -/

theorem Inv.thread (h : Inv objs s) (hin : s.inCallback = false) :
    Inv objs (next m objs s (.thread .ok)) := by
  rw [next, processThread]
  cases hpc : s.pc with
  | wait =>
    dsimp only
    split
    · exact h.move false .check (by simp [hpc]) (by simp [hpc]) Pc.noConfusion Pc.noConfusion
        fun _ => .inr (.inl rfl)
    · exact h
  | check =>
    dsimp only
    split
    · rename_i hup
      exact h.event hpc hup hin
    · exact h.move s.sem .read (by simp [hpc]) (by simp [hpc]) Pc.noConfusion Pc.noConfusion
        fun _ => .inr (.inr rfl)
  | clear => exact (h.clear hpc hin).contin
  | read =>
    dsimp only
    split
    · rename_i hread
      have hsame := congrArg (fun b => { s with buttonsState := b, pc := .wait })
        (hread.symm.trans h.same.symm)
      have hmove := h.move s.sem .wait (by simp [hpc]) (by simp [hpc]) Pc.noConfusion
        Pc.noConfusion fun hne => absurd hread hne
      exact Inv.contin ((congrArg (Inv objs) hsame).mpr hmove)
    · rename_i hread
      exact h.readChange hpc hread
  | handle => exact (h.handle hpc).contin

theorem Inv.next (h : Inv objs s) (a : Label) (ha : Timely s a) : Inv objs (next m objs s a) := by
  cases a with
  | change b => exact h.change ha.1 ha.2
  | tick => exact h.tick
  | expire => exact h.expire ha.1 ha.2
  | callback => exact h.callback
  | thread calls =>
    obtain ⟨hin, rfl⟩ := ha
    exact h.thread hin

/-- In every timely run of either module, with any objects, the protocol is kept in each state. -/
theorem protocol_kept (m : Module) (objs : List ButtonObj) (labels : List Label)
    (h : Along (next m objs) Timely start labels) :
    Along (next m objs) (fun s a => Good objs (next m objs s a)) start labels :=
  along_imp (I := Inv objs) inv_start
    (fun _ a hinv ha => ⟨hinv.next a ha, (hinv.next a ha).good⟩) h

/-- A long button of 2 ms is held for 3 ms. -/
def heldLong : List Label :=
  [.change 1, .thread .ok, .thread .ok, .thread .ok, .thread .ok, .tick, .tick, .expire, .callback,
    .thread .ok, .thread .ok, .thread .ok, .tick, .change 0, .thread .ok, .thread .ok, .thread .ok,
    .thread .ok]

theorem heldLong_kept :
    Along (next .buttons [⟨1, 0, 2, true, .long⟩])
      (fun s a => Good [⟨1, 0, 2, true, .long⟩] (next .buttons [⟨1, 0, 2, true, .long⟩] s a)) start
      heldLong :=
  protocol_kept .buttons [⟨1, 0, 2, true, .long⟩] heldLong (by decide)

/-- A long button is released before the timer expires, and the thread gets one token for both. -/
def releasedAtExpiry : List Label :=
  [.change 1, .thread .ok, .thread .ok, .thread .ok, .thread .ok, .tick, .tick, .change 0, .expire,
    .callback, .thread .ok, .thread .ok, .thread .ok]

/-- A short-long button expires while its combination with another is handled, which then takes the
expiry for its own. -/
def combinedAtExpiry : List Label :=
  [.change 1, .thread .ok, .thread .ok, .thread .ok, .thread .ok, .tick, .tick, .change 3,
    .thread .ok, .thread .ok, .expire, .callback, .thread .ok, .thread .ok]

/-- `buttons.c` loses the release, and `matrix_buttons.c` reports a press too early. -/
theorem protocol_broken :
    ¬Along (next .buttons [⟨1, 0, 2, true, .long⟩])
      (fun s a => Good [⟨1, 0, 2, true, .long⟩] (next .buttons [⟨1, 0, 2, true, .long⟩] s a)) start
      releasedAtExpiry ∧
    ¬Along (next .matrixButtons [⟨1, 0, 2, true, .shortLong⟩, ⟨3, 0, 5, true, .combinedLong⟩])
      (fun s a => Good [⟨1, 0, 2, true, .shortLong⟩, ⟨3, 0, 5, true, .combinedLong⟩]
        (next .matrixButtons [⟨1, 0, 2, true, .shortLong⟩, ⟨3, 0, 5, true, .combinedLong⟩] s a))
      start combinedAtExpiry := by
  decide

end

end Buttons
end XR806

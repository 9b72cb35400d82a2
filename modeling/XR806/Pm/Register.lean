import XR806.Pm.Suspend
import XR806.Pm.Wakelock

/-!
# XR806.Pm.Register

`pm_register_ops` and `pm_unregister_ops` over any sequence of calls. A device with both callbacks of
the normal pair and one of the noirq pair is linked into `dpm_list` before the other pair is looked
at, and stays there when the call returns its error (`Half`).
-/

namespace XR806
namespace Pm

section

variable {D : Type} [DecidableEq D]

/-- `pm_register_ops`. -/
def registerOps (drv : D → Option Driver) (dev : Option D) (r : Registry D) : Int × Registry D :=
  match dev with
  | none => (-einval, r)
  | some dev =>
    match drv dev with
    -- whether or not a node is linked
    | none => (-1, r)
    | some d => pmRegisterOps (fun _ => d) dev r

namespace Registry

/-- `list_del`. -/
def listDel (r : Registry D) (op : PmOp) (dev : D) : Registry D :=
  { r with
    devs := Function.update r.devs op ((r.devs op).erase dev)
    nodup := by
      intro o
      by_cases ho : o = op
      · subst ho
        rw [Function.update_self]
        exact (r.nodup o).erase dev
      · rw [Function.update_of_ne ho]
        exact r.nodup o }

def subLatency (r : Registry D) (d : Driver) : Registry D :=
  { r with
    enterLatency := max (r.enterLatency - d.enterLatency) 0
    exitLatency := max (r.exitLatency - d.exitLatency) 0 }

end Registry

/-- `pm_unregister_ops`; `none` is a device without a driver, which it looks into. -/
def unregisterOps (drv : D → Option Driver) (dev : Option D) (r : Registry D) :
    Option (Int × Registry D) :=
  match dev with
  | none => some (-einval, r)
  | some dev =>
    (drv dev).map fun d =>
      -- a node that is in no list is `NULL`, or linked to itself
      if d.suspend ∧ dev ∉ r.devs .normal then (-1, r)
      else if d.suspendNoirq ∧ dev ∉ r.devs .noirq then (-1, r)
      else
        let r := r.subLatency d
        let r := if d.suspend then r.listDel .normal dev else r
        (0, if d.suspendNoirq then r.listDel .noirq dev else r)

/-- The registry, and the devices that are registered: the last call for them to return 0 was that of
`pm_register_ops`. -/
structure RegState (D : Type) where
  registry : Registry D
  registered : D → Prop

inductive RegCall (D : Type) where
  | register (dev : Option D)
  | unregister (dev : Option D)

def RegState.mark (s : RegState D) (dev : Option D) (ret : Int) (p : Prop) (d : D) : Prop :=
  if ret = 0 ∧ dev = some d then p else s.registered d

inductive RegStep (drv : D → Option Driver) : RegState D → RegCall D → RegState D → Prop where
  | register {s : RegState D} {dev : Option D} {ret : Int} {r : Registry D}
    (hrun : registerOps drv dev s.registry = (ret, r)) :
    RegStep drv s (.register dev) ⟨r, s.mark dev ret True⟩
  | unregister {s : RegState D} {dev : Option D} {ret : Int} {r : Registry D}
    (hrun : unregisterOps drv dev s.registry = some (ret, r)) :
    RegStep drv s (.unregister dev) ⟨r, s.mark dev ret False⟩

def RegState.start : RegState D := ⟨.empty, fun _ => False⟩

/-! ## One call -/

/-- The driver supplies the pair of callbacks. -/
def Driver.Pair (d : Driver) : PmOp → Prop
  | .normal => d.suspend ∧ d.resume
  | .noirq => d.suspendNoirq ∧ d.resumeNoirq

instance (d : Driver) : (op : PmOp) → Decidable (d.Pair op)
  | .normal | .noirq => inferInstanceAs (Decidable (_ ∧ _))

/-- One callback of a pair only. -/
def Driver.HalfPair (d : Driver) : PmOp → Prop
  | .normal => (d.suspend ∨ d.resume) ∧ ¬d.Pair .normal
  | .noirq => (d.suspendNoirq ∨ d.resumeNoirq) ∧ ¬d.Pair .noirq

instance (d : Driver) : (op : PmOp) → Decidable (d.HalfPair op)
  | .normal | .noirq => inferInstanceAs (Decidable (_ ∧ _))

/-- The normal pair is there, of the noirq pair one callback, and the device is in no list. -/
def Half (drv : D → Option Driver) (r : Registry D) (dev : Option D) : Prop :=
  ∃ x d, dev = some x ∧ drv x = some d ∧ (∀ op, x ∉ r.devs op) ∧ d.Pair .normal ∧ d.HalfPair .noirq

/-- What a registration that returns 0 makes of the lists. -/
structure Registers (r r' : Registry D) (dev : D) (d : Driver) : Prop where
  whole : ∀ op, ¬d.HalfPair op
  fresh : ∀ op, dev ∉ r.devs op
  devs : ∀ op, r'.devs op = if d.Pair op then dev :: r.devs op else r.devs op

variable {drv : D → Option Driver} {r : Registry D} {dev : D} {d : Driver}

theorem pmRegisterNoirq_cases (hnot : dev ∉ r.devs .noirq) :
    d.HalfPair .noirq ∧ pmRegisterNoirq (fun _ => d) dev r = (-1, r) ∨
    ¬d.HalfPair .noirq ∧ (pmRegisterNoirq (fun _ => d) dev r).1 = 0 ∧
      (pmRegisterNoirq (fun _ => d) dev r).2.devs .normal = r.devs .normal ∧
      (pmRegisterNoirq (fun _ => d) dev r).2.devs .noirq =
        if d.Pair .noirq then dev :: r.devs .noirq else r.devs .noirq := by
  unfold pmRegisterNoirq Driver.HalfPair Driver.Pair
  by_cases h1 : d.suspendNoirq <;> by_cases h2 : d.resumeNoirq <;>
    simp [h1, h2, hnot, Registry.addLatency, Registry.listAdd]

/-- What `pm_register_ops` does, by what the driver supplies. -/
theorem pmRegisterOps_cases (r : Registry D) (dev : D) (d : Driver) :
    (pmRegisterOps (fun _ => d) dev r = (-1, r) ∧
      ¬((∀ op, dev ∉ r.devs op) ∧ d.Pair .normal ∧ d.HalfPair .noirq)) ∨
    ((∀ op, dev ∉ r.devs op) ∧ d.Pair .normal ∧ d.HalfPair .noirq ∧
      ∃ h, pmRegisterOps (fun _ => d) dev r = (-1, r.listAdd .normal dev h)) ∨
    (pmRegisterOps (fun _ => d) dev r).1 = 0 ∧
      Registers r (pmRegisterOps (fun _ => d) dev r).2 dev d := by
  unfold pmRegisterOps
  split
  · rename_i hin
    exact .inl ⟨rfl, fun h => h.1 .normal hin⟩
  split
  · rename_i hin
    exact .inl ⟨rfl, fun h => h.1 .noirq hin⟩
  rename_i hnormal hnoirq
  have hfresh : ∀ op, dev ∉ r.devs op := fun op => by
    cases op
    · exact hnormal
    · exact hnoirq
  split
  · rename_i hneither
    refine .inl ⟨rfl, fun h => ?_⟩
    obtain ⟨-, hpair, -⟩ := h
    exact hneither.2.elim (fun hs => hs hpair.1) fun hs => hs hpair.2
  rename_i hsome
  split
  · rename_i hany
    split
    · rename_i hhalf
      refine .inl ⟨rfl, fun h => ?_⟩
      obtain ⟨-, hpair, -⟩ := h
      exact hhalf.elim (fun hs => hs hpair.1) fun hs => hs hpair.2
    · rename_i hwhole
      have hpair : d.Pair .normal := by
        rw [not_or, not_not, not_not] at hwhole
        exact hwhole
      have hkeep : (r.listAdd .normal dev hnormal).devs .noirq = r.devs .noirq := by
        simp [Registry.listAdd]
      have hlinked : (r.listAdd .normal dev hnormal).devs .normal = dev :: r.devs .normal := by
        simp [Registry.listAdd]
      rcases pmRegisterNoirq_cases (d := d) (r := r.listAdd .normal dev hnormal)
        (by rw [hkeep]; exact hnoirq) with ⟨hhalf, hrun⟩ | ⟨hwhole', hret, h1, h2⟩
      · exact .inr (.inl ⟨hfresh, hpair, hhalf, hnormal, hrun⟩)
      · refine .inr (.inr ⟨hret, fun op => ?_, hfresh, fun op => ?_⟩)
        · cases op
          · exact fun hhalf => hhalf.2 hpair
          · exact hwhole'
        · cases op
          · rw [h1, hlinked, if_pos hpair]
          · rw [h2, hkeep]
  · rename_i hno
    have hpair : ¬d.Pair .normal := fun h => hno (.inl h.1)
    rcases pmRegisterNoirq_cases (d := d) (r := r) hnoirq with ⟨-, hrun⟩ | ⟨hwhole, hret, h1, h2⟩
    · rw [hrun]
      exact .inl ⟨rfl, fun h => hpair h.2.1⟩
    · refine .inr (.inr ⟨hret, fun op => ?_, hfresh, fun op => ?_⟩)
      · cases op
        · exact fun hhalf => hno hhalf.1
        · exact hwhole
      · cases op
        · rw [h1, if_neg hpair]
        · exact h2

/-- A registration either leaves the registry as it was, or it is the half one, or it links the device
into the lists of its pairs. -/
theorem registerOps_cases (drv : D → Option Driver) (r : Registry D) (x : Option D) :
    ((registerOps drv x r).1 ≠ 0 ∧ (registerOps drv x r).2 = r ∧ ¬Half drv r x) ∨
    (Half drv r x ∧ ∃ dev h, x = some dev ∧
      registerOps drv x r = (-1, r.listAdd .normal dev h)) ∨
    ((registerOps drv x r).1 = 0 ∧ ∃ dev d, x = some dev ∧ drv dev = some d ∧
      Registers r (registerOps drv x r).2 dev d) := by
  cases x with
  | none => exact .inl ⟨show (-einval : Int) ≠ 0 by decide, rfl, nofun⟩
  | some dev =>
    cases hd : drv dev with
    | none =>
      have hrun : registerOps drv (some dev) r = (-1, r) := by simp only [registerOps, hd]
      rw [hrun]
      refine .inl ⟨show (-1 : Int) ≠ 0 by decide, rfl, ?_⟩
      rintro ⟨y, d, hy, hdrv, -⟩
      obtain rfl := Option.some.inj hy
      rw [hd] at hdrv
      cases hdrv
    | some d =>
      have hrun : registerOps drv (some dev) r = pmRegisterOps (fun _ => d) dev r := by
        simp only [registerOps, hd]
      rw [hrun]
      rcases pmRegisterOps_cases r dev d with
        ⟨hfail, hnot⟩ | ⟨hfresh, hpair, hhalf, hlink⟩ | ⟨hret, hok⟩
      · rw [hfail]
        refine .inl ⟨show (-1 : Int) ≠ 0 by decide, rfl, ?_⟩
        rintro ⟨y, d', hy, hdrv, hrest⟩
        obtain rfl := Option.some.inj hy
        obtain rfl := Option.some.inj (hd.symm.trans hdrv)
        exact hnot hrest
      · obtain ⟨h, hlink⟩ := hlink
        exact .inr (.inl ⟨⟨dev, d, rfl, hd, hfresh, hpair, hhalf⟩, dev, h, rfl, hlink⟩)
      · exact .inr (.inr ⟨hret, dev, d, rfl, hd, hok⟩)

/-! ## Runs -/

/-- What is known of a device that is registered. -/
structure Linked (drv : D → Option Driver) (r : Registry D) (dev : D) (d : Driver) : Prop where
  driver : drv dev = some d
  whole : ∀ op, ¬d.HalfPair op
  mem : ∀ op, dev ∈ r.devs op ↔ d.Pair op

def RegInv (drv : D → Option Driver) (s : RegState D) : Prop :=
  ∀ dev, s.registered dev → ∃ d, Linked drv s.registry dev d

omit [DecidableEq D] in
theorem Linked.of_mem {r' : Registry D} (h : Linked drv r dev d)
    (hmem : ∀ op, dev ∈ r'.devs op ↔ dev ∈ r.devs op) : Linked drv r' dev d :=
  ⟨h.driver, h.whole, fun op => (hmem op).trans (h.mem op)⟩

theorem Driver.pair_iff (hwhole : ∀ op, ¬d.HalfPair op) :
    (d.suspend = true ↔ d.Pair .normal) ∧ (d.suspendNoirq = true ↔ d.Pair .noirq) := by
  refine ⟨⟨fun h => ?_, And.left⟩, ⟨fun h => ?_, And.left⟩⟩
  · by_contra hpair
    exact hwhole .normal ⟨.inl h, hpair⟩
  · by_contra hpair
    exact hwhole .noirq ⟨.inl h, hpair⟩

/-- A registered device is taken out of the lists, and nothing else. -/
theorem unregisterOps_linked (h : Linked drv r dev d) :
    ∃ r', unregisterOps drv (some dev) r = some (0, r') ∧
      ∀ op, r'.devs op = (r.devs op).erase dev := by
  obtain ⟨hnormal, hnoirq⟩ := Driver.pair_iff h.whole
  have h1 : ¬(d.suspend = true ∧ dev ∉ r.devs .normal) := fun hnot =>
    hnot.2 ((h.mem _).mpr (hnormal.mp hnot.1))
  have h2 : ¬(d.suspendNoirq = true ∧ dev ∉ r.devs .noirq) := fun hnot =>
    hnot.2 ((h.mem _).mpr (hnoirq.mp hnot.1))
  have hrun : unregisterOps drv (some dev) r = some
      (let q := if d.suspend then (r.subLatency d).listDel .normal dev else r.subLatency d
       (0, if d.suspendNoirq then q.listDel .noirq dev else q)) := by
    rw [unregisterOps, h.driver, Option.map_some, if_neg h1, if_neg h2]
  refine ⟨_, hrun, fun op => ?_⟩
  have hne : PmOp.noirq ≠ .normal := by decide
  by_cases hs : d.suspend = true
  · by_cases hn : d.suspendNoirq = true
    · rw [if_pos hs, if_pos hn]
      cases op with
      | normal => simp [Registry.listDel, Registry.subLatency, hne.symm]
      | noirq => simp [Registry.listDel, Registry.subLatency, hne]
    · have hnot : dev ∉ r.devs .noirq := fun hin => hn (hnoirq.mpr ((h.mem _).mp hin))
      rw [if_pos hs, if_neg hn]
      cases op with
      | normal => simp [Registry.listDel, Registry.subLatency]
      | noirq => simp [Registry.listDel, Registry.subLatency, hne, List.erase_of_not_mem hnot]
  · have hnot : dev ∉ r.devs .normal := fun hin => hs (hnormal.mpr ((h.mem _).mp hin))
    by_cases hn : d.suspendNoirq = true
    · rw [if_neg hs, if_pos hn]
      cases op with
      | normal => simp [Registry.listDel, Registry.subLatency, hne.symm, List.erase_of_not_mem hnot]
      | noirq => simp [Registry.listDel, Registry.subLatency]
    · have hnot' : dev ∉ r.devs .noirq := fun hin => hn (hnoirq.mpr ((h.mem _).mp hin))
      rw [if_neg hs, if_neg hn]
      cases op with
      | normal => simp [Registry.subLatency, List.erase_of_not_mem hnot]
      | noirq => simp [Registry.subLatency, List.erase_of_not_mem hnot']

/-- `pm_unregister_ops` takes no other device out of a list, and puts none in. -/
theorem unregisterOps_mem {x : Option D} {ret : Int} {r' : Registry D}
    (h : unregisterOps drv x r = some (ret, r')) {y : D} (hy : x ≠ some y) (op : PmOp) :
    y ∈ r'.devs op ↔ y ∈ r.devs op := by
  cases x with
  | none =>
    cases h
    rfl
  | some dev =>
    have hne : y ≠ dev := fun heq => hy (heq ▸ rfl)
    obtain ⟨d, -, hd⟩ := Option.map_eq_some_iff.mp h
    split at hd
    · cases hd
      rfl
    split at hd
    · cases hd
      rfl
    obtain ⟨-, rfl⟩ := Prod.mk.inj hd
    have hdel : ∀ (q : Registry D) o, y ∈ (q.listDel o dev).devs op ↔ y ∈ q.devs op := by
      intro q o
      by_cases ho : op = o
      · subst ho
        simp [Registry.listDel, List.mem_erase_of_ne hne]
      · simp [Registry.listDel, ho]
    split
    · rw [hdel]
      split
      · rw [hdel]
        rfl
      · rfl
    · split
      · rw [hdel]
        rfl
      · rfl

theorem RegState.mark_of_ne {s : RegState D} {x : Option D} {ret : Int} {p : Prop} {y : D}
    (h : x ≠ some y) : s.mark x ret p y ↔ s.registered y := by
  rw [RegState.mark, if_neg fun heq => h heq.2]

theorem RegState.mark_of_fail {s : RegState D} {x : Option D} {ret : Int} {p : Prop} {y : D}
    (h : ret ≠ 0) : s.mark x ret p y ↔ s.registered y := by
  rw [RegState.mark, if_neg fun heq => h heq.1]

theorem mem_listAdd {op : PmOp} {h : dev ∉ r.devs op} {y : D} (hy : y ≠ dev) (o : PmOp) :
    y ∈ (r.listAdd op dev h).devs o ↔ y ∈ r.devs o := by
  by_cases ho : o = op
  · subst ho
    simp [Registry.listAdd, hy]
  · simp [Registry.listAdd, ho]

omit [DecidableEq D] in
theorem Registers.linked {r' : Registry D} (h : Registers r r' dev d) (hdrv : drv dev = some d) :
    Linked drv r' dev d := by
  refine ⟨hdrv, h.whole, fun op => ?_⟩
  rw [h.devs]
  split
  · rename_i hpair
    exact ⟨fun _ => hpair, fun _ => List.mem_cons_self⟩
  · rename_i hpair
    exact ⟨fun hin => absurd hin (h.fresh op), fun hp => absurd hp hpair⟩

omit [DecidableEq D] in
theorem Registers.mem_of_ne {r' : Registry D} (h : Registers r r' dev d) {y : D} (hy : y ≠ dev)
    (op : PmOp) : y ∈ r'.devs op ↔ y ∈ r.devs op := by
  rw [h.devs]
  split
  · simp [hy]
  · rfl

theorem RegStep.inv {s s' : RegState D} {call : RegCall D} (h : RegStep drv s call s')
    (hi : RegInv drv s) : RegInv drv s' := by
  cases h with
  | @register x ret r' hrun =>
    intro y hy
    rcases registerOps_cases drv s.registry x with
      ⟨hret, hr, -⟩ | ⟨hhalf, dev, hnot, rfl, hlink⟩ | ⟨hret, dev, d, rfl, hdrv, hok⟩
    · rw [hrun] at hret hr
      obtain rfl : r' = s.registry := hr
      exact hi y ((RegState.mark_of_fail hret).mp hy)
    · obtain ⟨rfl, rfl⟩ := Prod.mk.inj (hrun.symm.trans hlink)
      have hret : (-1 : Int) ≠ 0 := by decide
      obtain ⟨e, he⟩ := hi y
        ((RegState.mark_of_fail (x := some dev) (p := True) hret).mp hy)
      have hne : y ≠ dev := by
        rintro rfl
        obtain ⟨x, d, hx, hdrv, -, -, hd⟩ := hhalf
        obtain rfl := Option.some.inj hx
        obtain rfl := Option.some.inj (he.driver.symm.trans hdrv)
        exact he.whole .noirq hd
      exact ⟨e, he.of_mem (mem_listAdd (h := hnot) hne)⟩
    · rw [hrun] at hret hok
      by_cases hne : y = dev
      · subst hne
        exact ⟨d, hok.linked hdrv⟩
      · have hx : some dev ≠ some y := fun heq => hne (Option.some.inj heq).symm
        obtain ⟨e, he⟩ := hi y ((RegState.mark_of_ne hx).mp hy)
        exact ⟨e, he.of_mem fun op => hok.mem_of_ne hne op⟩
  | @unregister x ret r' hrun =>
    intro y hy
    by_cases hx : x = some y
    · subst hx
      by_cases hret : ret = 0
      · have hgone : ¬s.mark (some y) ret False y := by
          rw [RegState.mark, if_pos ⟨hret, rfl⟩]
          exact id
        exact absurd hy hgone
      · obtain ⟨d, hd⟩ := hi y ((RegState.mark_of_fail hret).mp hy)
        obtain ⟨r'', hok, -⟩ := unregisterOps_linked hd
        rw [hrun] at hok
        exact absurd (congrArg Prod.fst (Option.some.inj hok)) hret
    · obtain ⟨d, hd⟩ := hi y ((RegState.mark_of_ne hx).mp hy)
      exact ⟨d, hd.of_mem fun op => unregisterOps_mem hrun hx op⟩

/-- The states a sequence of calls gets to. -/
inductive Reached (drv : D → Option Driver) : RegState D → Prop where
  | start : Reached drv .start
  | step {s s' : RegState D} {call : RegCall D} : Reached drv s → RegStep drv s call s' →
      Reached drv s'

theorem Reached.inv {s : RegState D} (h : Reached drv s) : RegInv drv s := by
  induction h with
  | start => exact fun _ hy => hy.elim
  | step _ hstep ih => exact hstep.inv ih

/-! ## All or nothing -/

/-- What a call of `pm_register_ops` is to do. -/
def AllOrNothing (drv : D → Option Driver) (r : Registry D) (x : Option D) : Prop :=
  ((registerOps drv x r).1 ≠ 0 → (registerOps drv x r).2 = r) ∧
    ((registerOps drv x r).1 = 0 → ∃ dev d, x = some dev ∧ drv dev = some d ∧
      ∀ op, (registerOps drv x r).2.devs op =
          (if d.Pair op then dev :: r.devs op else r.devs op) ∧
        ((registerOps drv x r).2.devs op).count dev = if d.Pair op then 1 else 0)

theorem Registers.count {r' : Registry D} (h : Registers r r' dev d) (op : PmOp) :
    (r'.devs op).count dev = if d.Pair op then 1 else 0 := by
  rw [h.devs]
  split
  · rw [List.count_cons_self, List.count_eq_zero_of_not_mem (h.fresh op)]
  · exact List.count_eq_zero_of_not_mem (h.fresh op)

theorem allOrNothing_iff (x : Option D) : AllOrNothing drv r x ↔ ¬Half drv r x := by
  rcases registerOps_cases drv r x with
    ⟨hret, hr, hnot⟩ | ⟨hhalf, dev, hnot, rfl, hlink⟩ | ⟨hret, dev, d, rfl, hdrv, hok⟩
  · exact ⟨fun _ => hnot, fun _ => ⟨fun _ => hr, fun h => absurd h hret⟩⟩
  · refine ⟨fun h => ?_, fun h => absurd hhalf h⟩
    have hsame := h.1 (by rw [hlink]; exact show (-1 : Int) ≠ 0 by decide)
    rw [hlink] at hsame
    have hdevs := congrArg (fun q => (q.devs .normal).length) hsame
    simp [Registry.listAdd] at hdevs
  · refine ⟨fun _ => ?_, fun _ => ⟨fun h => absurd hret h, fun _ => ?_⟩⟩
    · rintro ⟨y, e, hy, he, -, -, hhalf⟩
      obtain rfl := Option.some.inj hy
      obtain rfl := Option.some.inj (hdrv.symm.trans he)
      exact hok.whole .noirq hhalf
    · exact ⟨dev, d, rfl, hdrv, fun op => ⟨hok.devs op, hok.count op⟩⟩

/-- In every state that calls get to, a registration is all or nothing unless it is the half one, and
`pm_unregister_ops` takes a registered device out of every list. -/
theorem register_all_or_nothing (drv : D → Option Driver) {s : RegState D} (h : Reached drv s) :
    (∀ x, AllOrNothing drv s.registry x ↔ ¬Half drv s.registry x) ∧
    ∀ dev, s.registered dev → ∃ r, unregisterOps drv (some dev) s.registry = some (0, r) ∧
      ∀ op, dev ∉ r.devs op ∧ r.devs op = (s.registry.devs op).erase dev := by
  refine ⟨fun x => allOrNothing_iff x, fun dev hdev => ?_⟩
  obtain ⟨d, hd⟩ := h.inv dev hdev
  obtain ⟨r, hrun, hr⟩ := unregisterOps_linked hd
  refine ⟨r, hrun, fun op => ⟨?_, hr op⟩⟩
  rw [hr op, (s.registry.nodup op).mem_erase_iff]
  exact fun hin => hin.1 rfl

end

/-- A driver without `resume_noirq`. -/
def halfDriver : Driver := ⟨true, true, true, false, 0, 0⟩

theorem register_all_or_nothing_small :
    ¬AllOrNothing (fun _ : Unit => some halfDriver) .empty (some ()) := by
  have h := (register_all_or_nothing (fun _ : Unit => some halfDriver) .start).1 (some ())
  exact fun hall => h.mp hall
    ⟨(), halfDriver, rfl, rfl, fun _ => List.not_mem_nil, by decide, by decide⟩

/-- The call returns its error, and the device is in `dpm_list`. -/
theorem registerOps_leaves_half :
    (registerOps (fun _ : Unit => some halfDriver) (some ()) .empty).1 = -1 ∧
      (registerOps (fun _ : Unit => some halfDriver) (some ()) .empty).2.devs .normal = [()] ∧
      ¬AllOrNothing (fun _ : Unit => some halfDriver) .empty (some ()) := by
  refine ⟨by decide, by decide, fun h => ?_⟩
  have hsame := congrArg (fun q => (q.devs .normal).length) (h.1 (by decide))
  exact absurd hsame (by decide)

end Pm
end XR806

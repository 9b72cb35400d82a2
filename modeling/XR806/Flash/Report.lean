import XR806.Flash.Hal
import XR806.Nor.Answer

/-!
# XR806.Flash.Report

What the driver reports when the device fails: `HAL_Flash_Write` and `HAL_Flash_Erase` with any
answers to their commands and waits (`hal_flash_reports`).

Both keep one status for all pages or blocks. A refused command ends the loop, a wait that gives up
does not: the status it sets is overwritten by the next page, and an erase gives up a block after
two tries in all that had to be repeated. What is reported is whether all commands were accepted
and the last wait succeeded (`Passed`); of the commands that erase the whole chip nobody looks at
the answers (`Unnoticed`).
-/

namespace XR806
namespace Flash

open Nor

/-! ## Areas of a 32-bit address space -/

/-- `bs` programmed from `addr` on; behind the last address comes address 0. -/
def programRange (c : Cells) (dev addr : Nat) (bs : List Byte) : Cells := fun d a =>
  if d = dev ∧ a < 2 ^ 32 ∧ sub32 a addr < bs.length then
    c d a &&& bs.getD (sub32 a addr) blank
  else c d a

def eraseRange (c : Cells) (dev addr n : Nat) : Cells := fun d a =>
  if d = dev ∧ a < 2 ^ 32 ∧ sub32 a addr < n then blank else c d a

/-- The erase commands for `n` blocks from `addr` on. -/
def blockErases (dev blk : Nat) : Nat → Nat → List Write
  | _, 0 => []
  | addr, n + 1 => .erase dev addr blk :: blockErases dev blk (u32 (addr + blk)) n

@[simp] theorem length_blockErases (dev blk addr n : Nat) :
    (blockErases dev blk addr n).length = n := by
  induction n generalizing addr with
  | zero => rfl
  | succ n ih => rw [blockErases, List.length_cons, ih]

section

variable {c c' : Cells} {dev addr blk n : Nat} {bs : List Byte}

/-- How far an address lies behind `addr`, and behind the address `n` further on. -/
theorem sub32_step {a : Nat} (ha : a < 2 ^ 32) (hend : addr + n ≤ 2 ^ 32) :
    (addr ≤ a ∧ a < addr + n ∧ sub32 a addr = a - addr) ∨
      ((a < addr ∨ addr + n ≤ a) ∧ sub32 a addr = sub32 a (u32 (addr + n)) + n) := by
  unfold sub32 u32
  split
  · by_cases hin : a < addr + n
    · exact .inl ⟨‹_›, hin, rfl⟩
    · refine .inr ⟨.inr (by omega), ?_⟩
      split <;> omega
  · refine .inr ⟨.inl (by omega), ?_⟩
    split <;> omega

/-- How far the addresses in front of the one `n` further on lie behind that one. -/
theorem sub32_before {a : Nat} (hend : addr + n ≤ 2 ^ 32) (h1 : addr ≤ a) (h2 : a < addr + n) :
    2 ^ 32 - n ≤ sub32 a (u32 (addr + n)) := by
  unfold sub32 u32
  split <;> omega

/-- The first bytes, then the rest. -/
theorem programRange_split (hn : n ≤ bs.length) (hend : addr + n ≤ 2 ^ 32)
    (hlen : bs.length ≤ 2 ^ 32) :
    programRange (programCells c dev addr (bs.take n)) dev (u32 (addr + n)) (bs.drop n) =
      programRange c dev addr bs := by
  have htake : (bs.take n).length = n := List.length_take_of_le hn
  funext d a
  unfold programRange
  rw [List.length_drop]
  by_cases hda : d = dev ∧ a < 2 ^ 32
  · obtain ⟨rfl, ha⟩ := hda
    rcases sub32_step ha hend with ⟨h1, h2, h3⟩ | ⟨h1, h2⟩
    · have hfar := sub32_before hend h1 h2
      rw [if_neg (by omega), if_pos ⟨rfl, ha, by omega⟩, h3,
        programCells_inside h1 (by omega)]
      simp [List.getD_eq_getElem?_getD, show a - addr < n by omega]
    · rw [programCells_outside (by omega), h2]
      by_cases hlt : sub32 a (u32 (addr + n)) < bs.length - n
      · rw [if_pos ⟨rfl, ha, hlt⟩, if_pos ⟨rfl, ha, by omega⟩]
        simp [List.getD_eq_getElem?_getD, Nat.add_comm]
      · rw [if_neg (by omega), if_neg (by omega)]
  · have hout : programCells c dev addr (bs.take n) d a = c d a := by
      by_cases hd : d = dev
      · exact programCells_outside (.inr (.inr (by omega)))
      · exact programCells_outside (.inl hd)
    rw [if_neg (by tauto), if_neg (by tauto), hout]

theorem programRange_all (hend : addr + bs.length ≤ 2 ^ 32) :
    programCells c dev addr bs = programRange c dev addr bs := by
  funext d a
  unfold programRange programCells sub32
  by_cases hda : d = dev ∧ addr ≤ a ∧ a < addr + bs.length
  · rw [if_pos hda, if_pos ⟨hda.1, by omega, by rw [if_pos hda.2.1]; omega⟩, if_pos hda.2.1]
  · rw [if_neg hda, if_neg]
    rintro ⟨hd, ha, hlt⟩
    split at hlt
    · exact hda ⟨hd, by omega, by omega⟩
    · omega

/-- The first block, then the rest. -/
theorem eraseRange_split (hend : addr + blk ≤ 2 ^ 32) :
    eraseRange (eraseCells c dev addr blk) dev (u32 (addr + blk)) n =
      eraseRange c dev addr (blk + n) := by
  funext d a
  unfold eraseRange
  by_cases hda : d = dev ∧ a < 2 ^ 32
  · obtain ⟨rfl, ha⟩ := hda
    rcases sub32_step ha hend with ⟨h1, h2, h3⟩ | ⟨h1, h2⟩
    · rw [if_pos (c := d = d ∧ a < 2 ^ 32 ∧ sub32 a addr < blk + n) ⟨rfl, ha, by omega⟩,
        eraseCells_inside h1 h2, ite_self]
    · rw [eraseCells_outside (by omega), h2]
      by_cases hlt : sub32 a (u32 (addr + blk)) < n
      · rw [if_pos ⟨rfl, ha, hlt⟩, if_pos ⟨rfl, ha, by omega⟩]
      · rw [if_neg (by omega), if_neg (by omega)]
  · have hout : eraseCells c dev addr blk d a = c d a := by
      by_cases hd : d = dev
      · exact eraseCells_outside (.inr (.inr (by omega)))
      · exact eraseCells_outside (.inl hd)
    rw [if_neg (by tauto), if_neg (by tauto), hout]

/-- What was in the area does not matter. -/
theorem eraseRange_congr (hend : addr + blk ≤ 2 ^ 32) (hn : blk ≤ n)
    (h : (Write.erase dev addr blk).Marks c c') :
    eraseRange c' dev addr n = eraseRange c dev addr n := by
  funext d a
  unfold eraseRange
  split
  · rfl
  · rename_i hout
    refine h d a fun ht => hout ⟨ht.1, by have := ht.2; omega, ?_⟩
    rcases sub32_step (a := a) (by have := ht.2; omega) hend with ⟨_, _, h3⟩ | ⟨h1, _⟩
    · have := ht.2
      omega
    · have := ht.2
      omega

theorem eraseRange_zero : eraseRange c dev addr 0 = c := by
  funext d a
  exact if_neg fun h => by omega

end

/-! ## What a run tells -/

/-- All commands were accepted and the last request was granted. -/
def Passed (es : List Event) : Prop :=
  (∀ e ∈ es, e.isRefusal = false) ∧ ∃ e, es.getLast? = some e ∧ e.ok = true

/-- The last command was refused, and a wait has succeeded all the same. -/
def Unnoticed (es : List Event) : Prop :=
  ∃ w dev, [.command w false, .wait dev true] <:+ es

/-- The number of waits that gave up. -/
def lateWaits (es : List Event) : Nat := es.countP (·.isLate)

/-- The commands that were accepted and then waited for until they were done. -/
def completed : List Event → List Write
  | .command w true :: .wait _ true :: es => w :: completed es
  | _ :: es => completed es
  | [] => []

section

variable {e : Event} {es : List Event} {w : Write} {dev : Nat}

theorem not_passed_nil : ¬Passed [] := by
  rintro ⟨-, e, he, -⟩
  cases he

theorem not_passed_refused : ¬Passed ([.command w false] ++ []) := by
  rintro ⟨h, -⟩
  cases h _ (List.mem_singleton_self _)

theorem passed_single : Passed [e] ↔ e.isRefusal = false ∧ e.ok = true := by
  simp [Passed]

theorem passed_cons (hes : es ≠ []) : Passed (e :: es) ↔ e.isRefusal = false ∧ Passed es := by
  obtain ⟨e', es', rfl⟩ := List.exists_cons_of_ne_nil hes
  simp [Passed, and_assoc]

@[simp] theorem lateWaits_nil : lateWaits [] = 0 := rfl

@[simp] theorem lateWaits_command {ok : Bool} :
    lateWaits (.command w ok :: es) = lateWaits es := by
  simp [lateWaits, Event.isLate]

@[simp] theorem lateWaits_done : lateWaits (.wait dev true :: es) = lateWaits es := by
  simp [lateWaits, Event.isLate]

@[simp] theorem lateWaits_late : lateWaits (.wait dev false :: es) = lateWaits es + 1 := by
  simp [lateWaits, Event.isLate]

@[simp] theorem completed_done :
    completed (.command w true :: .wait dev true :: es) = w :: completed es := rfl

@[simp] theorem completed_late {ok : Bool} :
    completed (.command w ok :: .wait dev false :: es) = completed es := by
  cases ok with
  | false => rfl
  | true => rfl

theorem not_unnoticed_nil : ¬Unnoticed [] := by
  rintro ⟨w, dev, h⟩
  exact absurd (List.suffix_nil.mp h) (List.cons_ne_nil _ _)

theorem not_unnoticed_single : ¬Unnoticed [e] := by
  rintro ⟨w, dev, h⟩
  exact absurd h.length_le (by simp)

theorem unnoticed_late {ok : Bool} :
    Unnoticed (.command w ok :: .wait dev false :: es) ↔ Unnoticed es := by
  simp [Unnoticed, List.suffix_cons_iff]

theorem unnoticed_accepted {ok : Bool} :
    Unnoticed (.command w true :: .wait dev ok :: es) ↔ Unnoticed es := by
  simp [Unnoticed, List.suffix_cons_iff]

end

/-! ## Writing -/

/-- What `HAL_OK` of a write should mean: every page was programmed, and waited for until it was. -/
structure Programmed (es : List Event) (dev addr : Nat) (data : List Byte) (c c' : Cells) :
    Prop where
  pages : ∀ e ∈ es, e.ok = true
  cells : c' = programRange c dev addr data

section

variable {board : Board} {dev addr : Nat} {data : List Byte} {s s' : Devices} {es : List Event}
  {ok : Bool}

theorem answers_writePages {fuel address : Nat} {left : List Byte} (hl : left ≠ [])
    (hf : left.length ≤ fuel) (ha : address < 2 ^ 32) (hlen : left.length < 2 ^ 32)
    (h : Answers (writePages dev fuel address left) s es ok s') :
    es ≠ [] ∧ (ok = true ↔ Passed es) ∧
      (Passed es → lateWaits es = 0 → Programmed es dev address left s.cells s'.cells) := by
  induction fuel generalizing address left s es with
  | zero => exact absurd (List.length_eq_zero_iff.mp (by omega)) hl
  | succ fuel ih =>
    have hpos : 0 < left.length := List.length_pos_iff.mpr hl
    have hpage : address % pageWriteByte < pageWriteByte := Nat.mod_lt _ (by decide)
    simp only [writePages] at h
    generalize hpp : min left.length (pageWriteByte - address % pageWriteByte) = pp at h
    have hend : address + pp ≤ 2 ^ 32 := by
      unfold pageWriteByte at hpp
      omega
    obtain ⟨es₁, es₂, ok₁, s₁, rfl, h₁, hrest⟩ := answers_bind.mp h
    obtain ⟨rfl, ht⟩ := answers_programReq.mp h₁
    cases ok₁ with
    | false =>
      obtain ⟨rfl, rfl, rfl⟩ := answers_pure.mp hrest
      exact ⟨by simp, iff_of_false Bool.false_ne_true not_passed_refused,
        fun h => absurd h not_passed_refused⟩
    | true =>
      obtain ⟨es₃, es₄, ok₂, s₂, rfl, h₂, hnext⟩ := answers_bind.mp hrest
      obtain ⟨rfl, hidle, rfl⟩ := answers_waitReq.mp h₂
      simp only [List.singleton_append]
      by_cases hlast : pp = left.length
      · rw [if_pos hlast] at hnext
        obtain ⟨rfl, rfl, rfl⟩ := answers_pure.mp hnext
        rw [passed_cons (by simp), passed_single]
        refine ⟨by simp, by simp [Event.isRefusal, Event.ok], fun hpass hlate => ?_⟩
        obtain rfl : ok = true := hpass.2.2
        obtain rfl := ht.settled (hidle rfl)
        refine ⟨by simp [Event.ok], ?_⟩
        rw [hlast, List.take_length]
        exact programRange_all (by omega)
      · rw [if_neg hlast] at hnext
        obtain ⟨hne, hiff, hcells⟩ := ih (by simp; omega) (by simp; omega)
          (Nat.mod_lt _ (by decide)) (by simp; omega) hnext
        rw [passed_cons (by simp), passed_cons hne]
        refine ⟨by simp, by simp [Event.isRefusal, hiff], fun hpass hlate => ?_⟩
        cases ok₂ with
        | false => simp at hlate
        | true =>
          obtain rfl := ht.settled (hidle rfl)
          obtain ⟨hpages, hrest⟩ := hcells hpass.2.2 (by simpa using hlate)
          refine ⟨by simpa [Event.ok] using hpages, hrest.trans ?_⟩
          exact programRange_split (by omega) hend (by omega)

theorem answers_halFlashWrite (ha : addr < 2 ^ 32) (hlen : data.length < 2 ^ 32)
    (h : Answers (halFlashWrite board dev addr data) s es ok s') :
    (ok = true ↔ Passed es) ∧
      (Passed es → lateWaits es = 0 → Programmed es dev addr data s.cells s'.cells) := by
  unfold halFlashWrite at h
  split at h
  · obtain ⟨rfl, rfl, -⟩ := answers_pure.mp h
    exact ⟨by simp [not_passed_nil], fun h => absurd h not_passed_nil⟩
  · split at h
    · obtain ⟨rfl, rfl, -⟩ := answers_pure.mp h
      exact ⟨by simp [not_passed_nil], fun h => absurd h not_passed_nil⟩
    · rename_i hacc
      have hne : data ≠ [] := fun h0 => hacc (.inl (by rw [h0]; rfl))
      exact (answers_writePages hne (Nat.le_refl _) ha hlen h).2

/-- A page that was not waited for to the end shows in the answers. -/
theorem Programmed.lateWaits {c c' : Cells} (h : Programmed es dev addr data c c') :
    lateWaits es = 0 := by
  refine List.countP_eq_zero.mpr fun e he hlate => ?_
  have hok := h.pages e he
  cases e with
  | wait _ ok => simp_all [Event.isLate, Event.ok]
  | _ => cases hlate

end

/-! ## Erasing -/

/-- `rom_HAL_Flash_Erase`. -/
def romHalFlashErase (board : Board) (dev : Nat) (mode : FlashEraseMode) (addr blkCnt : Nat) :
    Prog Bool :=
  match mode with
  | .block mode => halFlashErase board dev mode addr blkCnt
  | .chip =>
    match board dev with
    | none => pure false
    | some chip =>
      if u32 (addr + FlashEraseMode.chip.value * blkCnt) > chip.mSize then pure false
      else if blkCnt ≠ 1 then pure false
      else if addr % FlashEraseMode.chip.value ≠ 0 then pure false
      else eraseLoop chip dev .chip 3 1 addr 0 false

/-- Where the blocks of an erase start, and their size. -/
def eraseUnit (chip : Chip) (mode : FlashEraseMode) (addr : Nat) : Nat × Nat :=
  match mode with
  | .chip => (0, chip.mSize)
  | .block mode => (addr, mode.size)

/-- What `HAL_OK` of an erase should mean: every block was erased, and waited for until it was. -/
structure Erased (es : List Event) (dev addr blk cnt : Nat) (c c' : Cells) : Prop where
  blocks : completed es = blockErases dev blk addr cnt
  cells : c' = eraseRange c dev addr (blk * cnt)

section

variable {board : Board} {chip : Chip} {dev addr blk cnt : Nat} {s s' : Devices}
  {es : List Event} {ok : Bool}

/-- What the loop did, from the answers it got. -/
structure EraseRun (dev addr blk cnt re : Nat) (s : Devices) (es : List Event) (ok : Bool)
    (s' : Devices) : Prop where
  some : es ≠ []
  status : ok = true ↔ Passed es
  counts : Passed es → (completed es).length + lateWaits es = cnt + min (lateWaits es) (2 - re)
  erased : Passed es → re + lateWaits es < 3 → Erased es dev addr blk cnt s.cells s'.cells
  noticed : ¬Unnoticed es

theorem answers_eraseLoop_zero {mode : FlashEraseMode} {fuel re : Nat} {r : Bool} :
    Answers (eraseLoop chip dev mode fuel 0 addr re r) s es ok s' ↔ es = [] ∧ ok = r ∧ s' = s := by
  cases fuel with
  | zero => exact answers_pure
  | succ fuel => exact answers_pure

/-- A loop over blocks that ends well has found them among the chip's. -/
theorem supports_of_answers {mode : EraseMode} {fuel re : Nat} {r : Bool} (hc : cnt ≠ 0)
    (h : Answers (eraseLoop chip dev (.block mode) (fuel + 1) cnt addr re r) s es true s') :
    chip.supports mode = true := by
  by_contra hs
  rw [eraseLoop_refused (Bool.eq_false_of_not_eq_true hs) hc] at h
  exact absurd (answers_pure.mp h).2.1 Bool.false_ne_true.symm

/-- A block that was erased, the last one. -/
theorem EraseRun.last {re : Nat} (hend : addr + blk ≤ 2 ^ 32) : EraseRun dev addr blk 1 re s
    [.command (.erase dev addr blk) true, .wait dev true] true
    ⟨eraseCells s.cells dev addr blk, false⟩ where
  some := by simp
  status := by simp [Passed, Event.isRefusal, Event.ok]
  counts _ := by simp [completed]
  erased _ _ := by
    refine ⟨rfl, ?_⟩
    have hsplit : eraseRange _ dev _ 0 = eraseRange s.cells dev addr _ := eraseRange_split hend
    rw [eraseRange_zero, Nat.add_zero] at hsplit
    rw [Nat.mul_one]
    exact hsplit
  noticed := unnoticed_accepted.not.mpr not_unnoticed_nil

/-- A block that was erased, and the run from the next one. -/
theorem EraseRun.next {re : Nat} (hend : addr + blk ≤ 2 ^ 32)
    (h : EraseRun dev (u32 (addr + blk)) blk cnt re ⟨eraseCells s.cells dev addr blk, false⟩ es ok
      s') : EraseRun dev addr blk (cnt + 1) re s
    (.command (.erase dev addr blk) true :: .wait dev true :: es) ok s' where
  some := by simp
  status := by
    rw [passed_cons (by simp), passed_cons h.some, h.status]
    simp [Event.isRefusal]
  counts hpass := by
    rw [passed_cons (by simp), passed_cons h.some] at hpass
    have := h.counts hpass.2.2
    simp only [completed_done, List.length_cons, lateWaits_command, lateWaits_done]
    omega
  erased hpass hlate := by
    rw [passed_cons (by simp), passed_cons h.some] at hpass
    obtain ⟨hblocks, hcells⟩ := h.erased hpass.2.2 (by simpa using hlate)
    refine ⟨by rw [completed_done, hblocks, blockErases], ?_⟩
    rw [hcells, eraseRange_split hend, Nat.mul_succ, Nat.add_comm]
  noticed := unnoticed_accepted.not.mpr h.noticed

/-- A block that is not waited for to the end and not tried again. -/
theorem EraseRun.skip {re : Nat} {s₁ : Devices} (hre : 2 ≤ re)
    (h : EraseRun dev (u32 (addr + blk)) blk cnt (re + 1) s₁ es ok s') :
    EraseRun dev addr blk (cnt + 1) re s
      (.command (.erase dev addr blk) true :: .wait dev false :: es) ok s' where
  some := by simp
  status := by
    rw [passed_cons (by simp), passed_cons h.some, h.status]
    simp [Event.isRefusal]
  counts hpass := by
    rw [passed_cons (by simp), passed_cons h.some] at hpass
    have := h.counts hpass.2.2
    simp only [completed_late, lateWaits_command, lateWaits_late]
    omega
  erased hpass hlate := by
    simp only [lateWaits_command, lateWaits_late] at hlate
    omega
  noticed := unnoticed_late.not.mpr h.noticed

/-- A block that is not waited for to the end and tried again. -/
theorem EraseRun.again {re : Nat} {s₁ : Devices} (hre : re < 2) (hc : 0 < cnt)
    (hend : addr + blk ≤ 2 ^ 32) (hmarks : (Write.erase dev addr blk).Marks s.cells s₁.cells)
    (h : EraseRun dev addr blk cnt (re + 1) s₁ es ok s') : EraseRun dev addr blk cnt re s
      (.command (.erase dev addr blk) true :: .wait dev false :: es) ok s' where
  some := by simp
  status := by
    rw [passed_cons (by simp), passed_cons h.some, h.status]
    simp [Event.isRefusal]
  counts hpass := by
    rw [passed_cons (by simp), passed_cons h.some] at hpass
    have := h.counts hpass.2.2
    simp only [completed_late, lateWaits_command, lateWaits_late]
    omega
  erased hpass hlate := by
    rw [passed_cons (by simp), passed_cons h.some] at hpass
    simp only [lateWaits_command, lateWaits_late] at hlate
    obtain ⟨hblocks, hcells⟩ := h.erased hpass.2.2 (by omega)
    refine ⟨by rw [completed_late, hblocks], ?_⟩
    rw [hcells]
    exact eraseRange_congr hend (Nat.le_mul_of_pos_right _ hc) hmarks
  noticed := unnoticed_late.not.mpr h.noticed

theorem answers_eraseLoop {mode : EraseMode} (hs : chip.supports mode = true) {fuel re : Nat}
    {r : Bool} (hf : cnt + (2 - re) ≤ fuel) (hc : 0 < cnt)
    (hend : ∀ i, i < cnt → u32 (addr + mode.size * i) + mode.size ≤ 2 ^ 32) (ha : addr < 2 ^ 32)
    (h : Answers (eraseLoop chip dev (.block mode) fuel cnt addr re r) s es ok s') :
    EraseRun dev addr mode.size cnt re s es ok s' := by
  induction fuel generalizing cnt addr re r s es with
  | zero => omega
  | succ fuel ih =>
    have hblk : addr + mode.size ≤ 2 ^ 32 := by
      have := hend 0 hc
      rwa [Nat.mul_zero, Nat.add_zero, u32_of_lt ha] at this
    simp only [eraseLoop, if_neg (Nat.pos_iff_ne_zero.mp hc), defaultErase_block hs,
      FlashEraseMode.value] at h
    obtain ⟨es₁, es₂, ok₁, s₁, rfl, h₁, hrest⟩ := answers_bind.mp h
    obtain ⟨rfl, ht⟩ := answers_eraseReq.mp h₁
    cases ok₁ with
    | false =>
      obtain ⟨rfl, rfl, rfl⟩ := answers_pure.mp hrest
      exact ⟨by simp, iff_of_false Bool.false_ne_true not_passed_refused,
        fun h => absurd h not_passed_refused,
        fun h => absurd h not_passed_refused, not_unnoticed_single⟩
    | true =>
      obtain ⟨es₃, es₄, ok₂, s₂, rfl, h₂, hnext⟩ := answers_bind.mp hrest
      obtain ⟨rfl, hidle, rfl⟩ := answers_waitReq.mp h₂
      simp only [List.singleton_append]
      by_cases hagain : !ok₂ ∧ re + 1 < 3
      · rw [if_pos hagain] at hnext
        obtain rfl : ok₂ = false := by simpa using hagain.1
        exact .again (by omega) hc hblk ht.marks (ih (by omega) hc hend ha hnext)
      · rw [if_neg hagain] at hnext
        obtain ⟨cnt, rfl⟩ : ∃ k, cnt = k + 1 := ⟨cnt - 1, by omega⟩
        have hend' : ∀ i, i < cnt →
            u32 (u32 (addr + mode.size) + mode.size * i) + mode.size ≤ 2 ^ 32 := by
          intro i hi
          have := hend (i + 1) (by omega)
          unfold u32 at this ⊢
          rwa [Nat.mod_add_mod, Nat.add_assoc, Nat.add_comm mode.size, ← Nat.mul_succ]
        rw [Nat.add_sub_cancel] at hnext
        rcases Nat.eq_zero_or_pos cnt with rfl | hpos
        · obtain ⟨rfl, rfl, rfl⟩ := answers_eraseLoop_zero.mp hnext
          cases ok with
          | true =>
            obtain rfl := ht.settled (hidle rfl)
            exact .last hblk
          | false =>
            have hnot : ¬Passed [.command (.erase dev addr mode.size) true, .wait dev false] := by
              simp [Passed, Event.ok]
            exact ⟨by simp, iff_of_false Bool.false_ne_true hnot, fun h => absurd h hnot,
              fun h => absurd h hnot, unnoticed_late.not.mpr not_unnoticed_nil⟩
        · cases ok₂ with
          | true =>
            obtain rfl := ht.settled (hidle rfl)
            exact .next hblk (ih (by omega) hpos hend' (Nat.mod_lt _ (by decide)) hnext)
          | false =>
            have hre : 2 ≤ re := by
              have := not_and.mp hagain rfl
              omega
            exact .skip hre (ih (by omega) hpos hend' (Nat.mod_lt _ (by decide)) hnext)

/-- Blocks that lie in line do not cross the end of the address space. -/
theorem blocks_end (mode : EraseMode) (ha : addr % mode.size = 0) (i : Nat) :
    u32 (addr + mode.size * i) + mode.size ≤ 2 ^ 32 := by
  obtain ⟨k, hk⟩ := Nat.dvd_of_mod_eq_zero ha
  unfold u32
  cases mode with
  | kb4 =>
    simp only [EraseMode.size] at hk ⊢
    omega
  | kb32 =>
    simp only [EraseMode.size] at hk ⊢
    omega
  | kb64 =>
    simp only [EraseMode.size] at hk ⊢
    omega

/-! ## Erasing the whole chip -/

/-- What the tries of an erase of the whole chip, of which `re` have failed, did. -/
structure ChipRun (dev size re : Nat) (s : Devices) (es : List Event) (ok : Bool) (s' : Devices) :
    Prop where
  some : es ≠ []
  late : Passed es → re + lateWaits es < 3
  erased : ok = true → (Erased es dev 0 size 1 s.cells s'.cells ↔ ¬Unnoticed es)
  failed : ok = false → ¬Unnoticed es

/-- The try behind which nothing is repeated. -/
theorem ChipRun.last {size re : Nat} {accepted : Bool} (hre : re < 3) (hsize : size ≤ 2 ^ 32)
    (ht : Takes (.erase dev 0 size) accepted s s') (hidle : ok = true → s'.busy = false) :
    ChipRun dev size re s [.command (.erase dev 0 size) accepted, .wait dev ok] ok s' := by
  refine ⟨List.cons_ne_nil _ _, fun hpass => ?_, ?_, ?_⟩
  · rw [passed_cons (List.cons_ne_nil _ _), passed_single] at hpass
    obtain rfl : ok = true := hpass.2.2
    simpa using hre
  · rintro rfl
    cases accepted with
    | false =>
      refine iff_of_false (fun herased => ?_) (not_not.mpr ⟨_, dev, List.suffix_refl _⟩)
      exact absurd herased.blocks.symm (List.cons_ne_nil _ _)
    | true =>
      obtain rfl := ht.settled (hidle rfl)
      have hrun : EraseRun dev 0 size 1 re s _ true _ := .last (by omega)
      have hpass : Passed [.command (.erase dev 0 size) true, .wait dev true] := hrun.status.mp rfl
      exact iff_of_true (hrun.erased hpass (by simpa using hre)) hrun.noticed
  · rintro rfl
    exact unnoticed_late.not.mpr not_unnoticed_nil

/-- A try that is repeated. -/
theorem ChipRun.again {size re : Nat} {accepted : Bool} {s₁ : Devices} (hsize : size ≤ 2 ^ 32)
    (hmarks : (Write.erase dev 0 size).Marks s.cells s₁.cells)
    (h : ChipRun dev size (re + 1) s₁ es ok s') :
    ChipRun dev size re s (.command (.erase dev 0 size) accepted :: .wait dev false :: es) ok s' where
  some := List.cons_ne_nil _ _
  late hpass := by
    rw [passed_cons (List.cons_ne_nil _ _), passed_cons h.some] at hpass
    have := h.late hpass.2.2
    simp only [lateWaits_command, lateWaits_late]
    omega
  erased hok := by
    have hcells : eraseRange s₁.cells dev 0 (size * 1) = eraseRange s.cells dev 0 (size * 1) :=
      eraseRange_congr (by omega) (by omega) hmarks
    have hsame : Erased (.command (.erase dev 0 size) accepted :: .wait dev false :: es) dev 0 size 1
        s.cells s'.cells ↔ Erased es dev 0 size 1 s₁.cells s'.cells :=
      ⟨fun h => ⟨completed_late.symm.trans h.blocks, h.cells.trans hcells.symm⟩,
        fun h => ⟨completed_late.trans h.blocks, h.cells.trans hcells⟩⟩
    rw [hsame, unnoticed_late]
    exact h.erased hok
  failed hok := unnoticed_late.not.mpr (h.failed hok)

theorem answers_eraseChip (hs : chip.mEraseSizeSupport &&& FlashEraseMode.chip.value ≠ 0)
    (hsize : chip.mSize ≤ 2 ^ 32) {fuel re : Nat} {r : Bool} (hf : 1 + (2 - re) ≤ fuel)
    (hre : re < 3) (h : Answers (eraseLoop chip dev .chip fuel 1 addr re r) s es ok s') :
    ChipRun dev chip.mSize re s es ok s' := by
  induction fuel generalizing re r s es with
  | zero => omega
  | succ fuel ih =>
    simp only [eraseLoop, one_ne_zero, if_false, defaultErase, if_neg hs] at h
    obtain ⟨es₁, es₂, ok₁, s₁, rfl, h₁, hrest⟩ := answers_bind.mp h
    obtain ⟨es₁, es₁', accepted, s₁', rfl, hcommand, hdone⟩ := answers_bind.mp h₁
    obtain ⟨rfl, ht⟩ := answers_eraseReq.mp hcommand
    obtain ⟨rfl, rfl, rfl⟩ := answers_pure.mp hdone
    obtain ⟨es₃, es₄, ok₂, s₂, rfl, h₂, hnext⟩ := answers_bind.mp hrest
    obtain ⟨rfl, hidle, rfl⟩ := answers_waitReq.mp h₂
    by_cases hagain : !ok₂ ∧ re + 1 < 3
    · rw [if_pos hagain] at hnext
      obtain rfl : ok₂ = false := by simpa using hagain.1
      exact .again hsize ht.marks (ih (by omega) hagain.2 hnext)
    · rw [if_neg hagain] at hnext
      obtain ⟨rfl, rfl, rfl⟩ := answers_eraseLoop_zero.mp hnext
      exact .last hre hsize ht hidle

/-- What an erase that was refused or has no blocks tells. -/
theorem erase_nothing {r : Bool} (hr : r = false) (h : Answers (pure r) s es ok s') :
    es = [] ∧ ok = false := by
  obtain ⟨rfl, rfl, -⟩ := answers_pure.mp h
  exact ⟨rfl, hr⟩

/-- A run over blocks does not start, or is one of the loop. -/
theorem answers_halFlashErase {mode : EraseMode} (hb : board dev = some chip) (ha : addr < 2 ^ 32)
    (h : Answers (halFlashErase board dev mode addr cnt) s es ok s') :
    es = [] ∧ ok = false ∨ EraseRun dev addr mode.size cnt 0 s es ok s' := by
  simp only [halFlashErase, hb] at h
  split at h
  · exact .inl (erase_nothing rfl h)
  split at h
  · exact .inl (erase_nothing rfl h)
  · rename_i halign
    rcases Nat.eq_zero_or_pos cnt with rfl | hpos
    · obtain ⟨rfl, rfl, -⟩ := answers_eraseLoop_zero.mp h
      exact .inl ⟨rfl, rfl⟩
    cases hs : chip.supports mode with
    | false =>
      rw [eraseLoop_refused hs (Nat.pos_iff_ne_zero.mp hpos)] at h
      exact .inl (erase_nothing rfl h)
    | true =>
      refine .inr (answers_eraseLoop hs (by omega) hpos ?_ ha h)
      exact fun i _ => blocks_end mode (Decidable.not_not.mp halign) i

/-- A run over the whole chip does not start, or is one of the loop. -/
theorem answers_eraseWhole (hb : board dev = some chip) (hsize : chip.mSize < 2 ^ 32)
    (h : Answers (romHalFlashErase board dev .chip addr cnt) s es ok s') :
    es = [] ∧ ok = false ∨ cnt = 1 ∧ ChipRun dev chip.mSize 0 s es ok s' := by
  simp only [romHalFlashErase, hb] at h
  split at h
  · exact .inl (erase_nothing rfl h)
  split at h
  · exact .inl (erase_nothing rfl h)
  split at h
  · exact .inl (erase_nothing rfl h)
  by_cases hs : chip.mEraseSizeSupport &&& FlashEraseMode.chip.value = 0
  · rw [eraseLoop, if_neg one_ne_zero, defaultErase, if_pos hs] at h
    exact .inl (erase_nothing rfl h)
  · exact .inr ⟨by omega, answers_eraseChip hs (Nat.le_of_lt hsize) (by omega) (by omega) h⟩

end

/-! ## What the status means -/

section

variable {board : Board} {dev : Nat} {chip : Chip} {s s' : Devices} {es : List Event} {ok : Bool}

/-- `HAL_OK` means what it should for every write in which no wait gives up, and for every erase
in which at most two do, unless a command for the whole chip is refused and nobody notices. Beyond
that it does exactly when a command is refused, or the last wait gives up as well. -/
theorem hal_flash_reports (hb : board dev = some chip) (hsize : chip.mSize < 2 ^ 32) :
    (∀ addr data, addr < 2 ^ 32 → data.length < 2 ^ 32 →
      Answers (halFlashWrite board dev addr data) s es ok s' →
      ((ok = true → Programmed es dev addr data s.cells s'.cells) ↔
        (Passed es → lateWaits es = 0))) ∧
    ∀ mode addr blkCnt, addr < 2 ^ 32 →
      Answers (romHalFlashErase board dev mode addr blkCnt) s es ok s' →
      ((ok = true → Erased es dev (eraseUnit chip mode addr).1 (eraseUnit chip mode addr).2 blkCnt
          s.cells s'.cells) ↔
        (Passed es → lateWaits es < 3) ∧ ¬Unnoticed es) := by
  constructor
  · intro addr data ha hlen h
    obtain ⟨hstatus, hcells⟩ := answers_halFlashWrite ha hlen h
    constructor
    · intro hok hpass
      exact (hok (hstatus.mpr hpass)).lateWaits
    · intro hlate hok
      exact hcells (hstatus.mp hok) (hlate (hstatus.mp hok))
  · intro mode addr blkCnt ha h
    cases mode with
    | block mode =>
      rcases answers_halFlashErase hb ha h with ⟨rfl, rfl⟩ | hrun
      · exact iff_of_true nofun ⟨fun hpass => absurd hpass not_passed_nil, not_unnoticed_nil⟩
      constructor
      · refine fun hok => ⟨fun hpass => ?_, hrun.noticed⟩
        have hlen := congrArg List.length (hok (hrun.status.mpr hpass)).blocks
        have hcounts := hrun.counts hpass
        rw [length_blockErases] at hlen
        omega
      · rintro ⟨hlate, -⟩ hok
        have hpass := hrun.status.mp hok
        exact hrun.erased hpass (by have := hlate hpass; omega)
    | chip =>
      rcases answers_eraseWhole hb hsize h with ⟨rfl, rfl⟩ | ⟨rfl, hrun⟩
      · exact iff_of_true nofun ⟨fun hpass => absurd hpass not_passed_nil, not_unnoticed_nil⟩
      have hlate : Passed es → lateWaits es < 3 := fun hpass => by
        have := hrun.late hpass
        omega
      cases ok with
      | false => exact iff_of_true nofun ⟨hlate, hrun.failed rfl⟩
      | true =>
        exact ⟨fun hok => ⟨hlate, (hrun.erased rfl).mp (hok rfl)⟩,
          fun ⟨_, hnoticed⟩ _ => (hrun.erased rfl).mpr hnoticed⟩

end

/-- A chip of 64K that has erase commands for all sizes. -/
def smallChip : Chip := ⟨65536, 4096 + 32768 + 65536⟩

theorem hal_flash_reports_small :
    Programmed (granted (halFlashWrite (fun _ => some smallChip) 0 127 [1, 2]) fun _ _ => blank)
        0 127 [1, 2] (fun _ _ => blank)
        (post (halFlashWrite (fun _ => some smallChip) 0 127 [1, 2]) fun _ _ => blank) ∧
      Erased (granted (romHalFlashErase (fun _ => some smallChip) 0 (.block .kb4) 4096 1)
          fun _ _ => 0) 0 4096 4096 1 (fun _ _ => 0)
        (post (romHalFlashErase (fun _ => some smallChip) 0 (.block .kb4) 4096 1) fun _ _ => 0) :=
  ⟨((hal_flash_reports (show (fun _ => some smallChip : Board) 0 = some smallChip from rfl)
      (by decide)).1 127 [1, 2] (by decide) (by decide) (answers_ret _ _)).mpr (fun _ => rfl) rfl,
    ((hal_flash_reports rfl (by decide)).2 (.block .kb4) 4096 1 (by decide)
      (answers_ret _ _)).mpr ⟨fun _ => by decide, unnoticed_accepted.not.mpr not_unnoticed_nil⟩ rfl⟩

/-- The first of two pages is still at work when its wait gives up. -/
theorem first_page_lost : Answers (halFlashWrite (fun _ => some smallChip) 0 127 [1, 2])
      ⟨fun _ _ => blank, false⟩
      [.command (.program 0 127 [1]) true, .wait 0 false, .command (.program 0 128 [2]) true,
        .wait 0 true] true ⟨programCells (fun _ _ => blank) 0 128 [2], false⟩ ∧
    programCells (fun _ _ => blank) 0 128 [2] 0 127 ≠
      programRange (fun _ _ => blank) 0 127 [1, 2] 0 127 := by
  refine ⟨?_, by decide⟩
  exact .program true (.late _ fun _ _ _ => rfl) (.wait false nofun
    (.program true (.done _) (.wait true (fun _ => rfl) (.done _ _))))

end Flash
end XR806

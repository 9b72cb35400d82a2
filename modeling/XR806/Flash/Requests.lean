import XR806.Flash.Hal
import XR806.Nor.Answer

/-!
# XR806.Flash.Requests

Which requests the driver makes, whatever the answers: a rule for each of its loops, with an
invariant of the loop, and from it the area every request stays in (`StaysIn`).
-/

namespace XR806
namespace Flash

open Nor

variable {board : Board} {chip : Chip} {dev addr n : Nat} {mode : EraseMode} {P : Event → Prop}

/-! ## The loops -/

/-- A loop over pages: `Q` holds of the address and the bytes that are left. -/
theorem only_writePages (Q : Nat → List Byte → Prop) (hw : ∀ ok, P (.wait dev ok))
    (hpage : ∀ a left, Q a left → ∀ pp, pp = min left.length (pageWriteByte - a % pageWriteByte) →
      (∀ ok, P (.command (.program dev a (left.take pp)) ok)) ∧
        (pp ≠ left.length → Q (u32 (a + pp)) (left.drop pp)))
    {fuel address : Nat} {left : List Byte} (h : Q address left) :
    Only P (writePages dev fuel address left) := by
  induction fuel generalizing address left with
  | zero => exact only_pure _
  | succ fuel ih =>
    obtain ⟨hp, hnext⟩ := hpage address left h _ rfl
    refine (only_programReq hp).bind fun ok => (only_pure _).ite ?_
    refine (only_waitReq hw).bind fun ok => ?_
    split
    · exact only_pure _
    · exact ih (hnext ‹_›)

theorem only_defaultErase (h : ∀ ok, P (.command (.erase dev addr mode.size) ok)) :
    Only P (defaultErase chip dev (.block mode) addr) :=
  (only_pure _).ite (only_eraseReq h)

/-- A loop over blocks: `Q` holds of the address and the number of blocks that are left. -/
theorem only_eraseLoop (Q : Nat → Nat → Prop) (hw : ∀ ok, P (.wait dev ok))
    (hblock : ∀ a cnt, Q a cnt → cnt ≠ 0 →
      (∀ ok, P (.command (.erase dev a mode.size) ok)) ∧ Q (u32 (a + mode.size)) (cnt - 1))
    {fuel cnt re : Nat} {ret : Bool} (h : Q addr cnt) :
    Only P (eraseLoop chip dev (.block mode) fuel cnt addr re ret) := by
  induction fuel generalizing cnt re addr ret with
  | zero => exact only_pure _
  | succ fuel ih =>
    rw [eraseLoop]
    split
    · exact only_pure _
    obtain ⟨he, hnext⟩ := hblock addr cnt h ‹_›
    refine (only_defaultErase he).bind fun ok => (only_pure _).ite ?_
    exact (only_waitReq hw).bind fun ok => (ih h).ite (ih hnext)

/-- The arguments pass the driver's check. -/
def Accepts (board : Board) (dev addr n : Nat) : Prop :=
  ∃ chip, board dev = some chip ∧ n ≠ 0 ∧ ¬u32 (addr + n) > chip.mSize

theorem only_halFlashRead (h : Accepts board dev addr n → ∀ ok, P (.read dev addr n ok)) :
    Only P (halFlashRead board dev addr n) := by
  unfold halFlashRead
  split
  · exact only_pure _
  rename_i chip hb
  split
  · exact only_pure _
  · rename_i hin
    obtain ⟨hn, hin⟩ := not_or.mp hin
    exact only_readReq (h ⟨chip, hb, hn, hin⟩)

theorem only_halFlashWrite {data : List Byte}
    (h : Accepts board dev addr data.length → Only P (writePages dev data.length addr data)) :
    Only P (halFlashWrite board dev addr data) := by
  unfold halFlashWrite
  split
  · exact only_pure _
  rename_i chip hb
  split
  · exact only_pure _
  · rename_i hin
    obtain ⟨hn, hin⟩ := not_or.mp hin
    exact h ⟨chip, hb, hn, hin⟩

theorem only_halFlashErase {cnt : Nat}
    (h : ∀ chip, Only P (eraseLoop chip dev (.block mode) (cnt + 2) cnt addr 0 false)) :
    Only P (halFlashErase board dev mode addr cnt) := by
  unfold halFlashErase
  split
  · exact only_pure _
  · exact (only_pure _).ite ((only_pure _).ite (h _))

/-- A read answers what the flash holds, or nothing. -/
theorem answers_flashRead {s s' : Devices} {es : List Event} {r : Option (List Byte)}
    (h : Answers (flashRead board dev addr n) s es r s') :
    s' = s ∧ (r = none ∨ r = some (readCells s.cells dev addr n)) := by
  unfold flashRead halFlashRead at h
  split at h
  · obtain ⟨-, rfl, rfl⟩ := answers_pure.mp h
    exact ⟨rfl, .inl rfl⟩
  split at h
  · obtain ⟨-, rfl, rfl⟩ := answers_pure.mp h
    exact ⟨rfl, .inl rfl⟩
  · obtain ⟨ok, -, rfl, rfl⟩ := answers_readReq.mp h
    cases ok with
    | false => exact ⟨rfl, .inl rfl⟩
    | true => exact ⟨rfl, .inr rfl⟩

theorem granted_flashRead {c : Cells} (h : Accepts board dev addr n) :
    granted (flashRead board dev addr n) c = [.read dev addr n true] := by
  obtain ⟨chip, hb, hn, hin⟩ := h
  rw [flashRead, halFlashRead, hb]
  exact congrArg (granted · c) (if_neg (not_or.mpr ⟨hn, hin⟩))

theorem granted_flashWrite {data : List Byte} {c : Cells} (h : Accepts board dev addr data.length) :
    granted (flashWrite board dev addr data) c =
      granted (writePages dev data.length addr data) c := by
  obtain ⟨chip, hb, hn, hin⟩ := h
  have hrun : halFlashWrite board dev addr data = writePages dev data.length addr data := by
    rw [halFlashWrite, hb]
    exact if_neg (not_or.mpr ⟨hn, hin⟩)
  rw [flashWrite, granted_bind, granted_pure, List.append_nil, hrun]

/-- Every byte of a write is in one of its pages. -/
theorem granted_writePages (dev : Nat) (c : Cells) {fuel address i : Nat} {left : List Byte}
    (hfuel : left.length ≤ fuel) (ha : address < 2 ^ 32) (hi : i < left.length) :
    ∃ a bs, .command (.program dev a bs) true ∈ granted (writePages dev fuel address left) c ∧
      a ≤ u32 (address + i) ∧ u32 (address + i) < a + bs.length := by
  induction fuel generalizing c address left i with
  | zero => omega
  | succ fuel ih =>
    have hpp : 0 < min left.length (pageWriteByte - address % pageWriteByte) ∧
        min left.length (pageWriteByte - address % pageWriteByte) ≤ left.length ∧
        address + min left.length (pageWriteByte - address % pageWriteByte) ≤ 2 ^ 32 := by
      unfold pageWriteByte
      omega
    simp only [writePages]
    generalize min left.length (pageWriteByte - address % pageWriteByte) = pp at hpp ⊢
    obtain ⟨hpos, hle, hend⟩ := hpp
    simp only [granted_bind, granted_programReq, ret_programReq, Bool.not_true, Bool.false_eq_true,
      if_false, granted_waitReq, ret_waitReq, List.singleton_append, List.mem_cons]
    by_cases hfirst : i < pp
    · refine ⟨address, left.take pp, .inl rfl, ?_⟩
      rw [List.length_take_of_le hle, u32_of_lt (by omega)]
      omega
    · have hlen : (left.drop pp).length = left.length - pp := List.length_drop ..
      have hmod : u32 (address + pp) < 2 ^ 32 := Nat.mod_lt _ (by decide)
      have hrest : (left.drop pp).length ≤ fuel := by omega
      have hbehind : i - pp < (left.drop pp).length := by omega
      obtain ⟨a, bs, hmem, hin⟩ :=
        ih (post (waitReq dev) (post (programReq dev address (left.take pp)) c)) hrest hmod hbehind
      have hi' : u32 (u32 (address + pp) + (i - pp)) = u32 (address + i) := by
        unfold u32
        omega
      rw [hi'] at hin
      refine ⟨a, bs, .inr (.inr ?_), hin⟩
      rw [if_neg (by omega)]
      exact hmem

/-! ## Inside an area -/

/-- The request is about cells of `[lo, hi)` only. -/
def StaysIn (dev lo hi : Nat) : Event → Prop
  | .read d a n _ | .command (.erase d a n) _ => d = dev ∧ lo ≤ a ∧ a + n ≤ hi
  | .command (.program d a bs) _ => d = dev ∧ lo ≤ a ∧ a + bs.length ≤ hi
  | .wait _ _ | .alloc _ _ => True

section
variable {lo hi : Nat}

theorem stays_flashRead (hlo : lo ≤ addr) (hhi : addr + n ≤ hi) :
    Only (StaysIn dev lo hi) (flashRead board dev addr n) :=
  only_halFlashRead fun _ _ => ⟨rfl, hlo, hhi⟩

theorem stays_flashWrite {data : List Byte} (hlo : lo ≤ addr) (hhi : addr + data.length ≤ hi)
    (h32 : hi < 2 ^ 32) : Only (StaysIn dev lo hi) (flashWrite board dev addr data) := by
  refine Only.bind (only_halFlashWrite fun _ => ?_) fun ok => only_pure _
  refine only_writePages (fun a left => lo ≤ a ∧ a + left.length ≤ hi) (fun _ => trivial) ?_
    ⟨hlo, hhi⟩
  rintro a left ⟨h1, h2⟩ pp hpp
  have hle : pp ≤ left.length := hpp ▸ Nat.min_le_left ..
  refine ⟨fun ok => ⟨rfl, h1, ?_⟩, fun _ => ?_⟩
  · rw [List.length_take_of_le hle]
    omega
  · rw [u32_of_lt (by omega), List.length_drop]
    omega

theorem stays_halFlashErase {cnt : Nat} (hlo : lo ≤ addr)
    (hhi : addr + mode.size * cnt ≤ hi) (h32 : hi < 2 ^ 32) :
    Only (StaysIn dev lo hi) (halFlashErase board dev mode addr cnt) := by
  refine only_halFlashErase fun chip => ?_
  refine only_eraseLoop (fun a cnt => lo ≤ a ∧ a + mode.size * cnt ≤ hi) (fun _ => trivial) ?_
    ⟨hlo, hhi⟩
  rintro a cnt ⟨h1, h2⟩ hcnt
  obtain ⟨k, rfl⟩ := Nat.exists_eq_succ_of_ne_zero hcnt
  rw [Nat.succ_eq_add_one, Nat.mul_succ] at h2
  refine ⟨fun ok => ⟨rfl, h1, by omega⟩, ?_⟩
  rw [u32_of_lt (by omega), Nat.succ_sub_one]
  omega

theorem stays_eraseParts {plan : ErasePlan}
    (h : ∀ part ∈ plan, 0 < part.2.2 → lo ≤ part.2.1 ∧ part.2.1 + part.2.2 ≤ hi)
    (h32 : hi < 2 ^ 32) : Only (StaysIn dev lo hi) (eraseParts board dev plan) := by
  induction plan with
  | nil => exact only_pure _
  | cons part plan ih =>
    obtain ⟨mode, start, size⟩ := part
    obtain ⟨hpart, hplan⟩ := List.forall_mem_cons.mp h
    rw [eraseParts]
    split
    · rename_i hpos
      obtain ⟨h1, h2⟩ : lo ≤ start ∧ start + size ≤ hi := hpart hpos
      have hmul := Nat.mul_div_le size mode.size
      exact (stays_halFlashErase h1 (by omega) h32).bind fun ok => (ih hplan).ite (only_pure _)
    · exact ih hplan

/-- `flash_erase` of an area. -/
theorem stays_flashErase {size : Nat} (h : EraseArea board dev addr size) :
    Only (StaysIn dev addr (addr + size)) (flashErase board dev addr size) := by
  obtain ⟨mode, hmode⟩ := h.block
  obtain ⟨chip, hb, -, -⟩ := h.inside.chip
  obtain ⟨he, ha, hsz, -⟩ := erasable_of_getEraseBlock hb hmode
  have ht := tiles_erasePlan ha hsz h.inside.lt he
  rw [flashErase, hb]
  refine (only_pure _).ite (stays_eraseParts (fun part hpart hpos => ?_) h.inside.lt)
  have hstart := (ht.covers part.2.1).mp ⟨part, hpart, Nat.le_refl _, by omega⟩
  exact ⟨hstart.1, (ht.parts part hpart).2.2⟩

end

end Flash
end XR806

import XR806.Trans.Along
import Mathlib.Logic.Function.Basic
import Mathlib.Algebra.Group.Nat.Defs

/-!
# XR806.Scr.RxBuf

The receive ring of the smart card driver against the queue of the bytes that are not read. The
writer and the reader of all bytes wrap a pointer at 64; the reader of one byte lets `rptr` run to
127 and masks the index only. So the pointers of an empty ring differ once the last byte was read
with `rptr` at 63 or above, and reading all bytes with `rptr` above 64 runs out of the buffer. The
ring is a queue in exactly the runs that do neither (`fifo_iff`).
-/

namespace XR806
namespace Scr

open Trans (Along)

abbrev Byte := BitVec 8

def scrBufferSizeMask : Nat := 0x3f

/-- `SCR_RxPriv`. -/
structure RxPriv where
  wptr : Nat
  rptr : Nat
  buffer : Nat → Byte

namespace RxPriv

def isEmpty (p : RxPriv) : Bool := p.wptr == p.rptr

def flush (p : RxPriv) : RxPriv := { p with wptr := 0, rptr := 0 }

/-- `HAL_SCR_FillRxbuf`. -/
def fill (p : RxPriv) (data : Byte) : RxPriv :=
  let wptr := p.wptr + 1
  { p with
    buffer := Function.update p.buffer p.wptr data
    wptr := if wptr = scrBufferSizeMask + 1 then 0 else wptr }

/-- The index at which `SCR_ReadRxBufByte` reads. -/
def byteIndex (p : RxPriv) : Nat := p.rptr &&& scrBufferSizeMask

def readByte (p : RxPriv) : Byte × RxPriv :=
  (p.buffer p.byteIndex,
    { p with rptr := (p.rptr + 1) &&& (scrBufferSizeMask <<< 1 ||| 0x1) })

/-- The indices at which `SCR_ReadRxBufAll` reads. The number of the first turns is a `uint32_t`. -/
def allIndices (p : RxPriv) : List Nat :=
  if p.wptr = p.rptr then []
  else if p.wptr < p.rptr then
    (List.range ((scrBufferSizeMask + 1 + 2 ^ 32 - p.rptr) % 2 ^ 32)).map (p.rptr + ·) ++
      List.range p.wptr
  else (List.range (p.wptr - p.rptr)).map (p.rptr + ·)

/-- The outer loop is left after one turn, in which the pointers become equal. -/
def readAll (p : RxPriv) : List Byte × RxPriv :=
  (p.allIndices.map p.buffer, { p with rptr := p.wptr })

end RxPriv

inductive Op
  | fill (data : Byte)
  | readByte
  | readAll
  | flush

/-- The ring, and the bytes that were filled since the last flush and are not read. -/
structure Link where
  ring : RxPriv
  unread : List Byte

def Link.start (buffer : Nat → Byte) : Link := ⟨⟨0, 0, buffer⟩, []⟩

namespace Link

def next (s : Link) : Op → Link
  | .fill data => ⟨s.ring.fill data, s.unread ++ [data]⟩
  | .readByte => ⟨s.ring.readByte.2, s.unread.tail⟩
  | .readAll => ⟨s.ring.readAll.2, []⟩
  | .flush => ⟨s.ring.flush, []⟩

/-- The bytes that an operation reads are those of the queue, and it stays in the buffer. -/
def Right (s : Link) : Op → Prop
  | .fill _ => s.ring.wptr < 64
  | .readByte => s.unread.head? = some s.ring.readByte.1 ∧ s.ring.byteIndex < 64
  | .readAll => s.ring.readAll.1 = s.unread ∧ ∀ i ∈ s.ring.allIndices, i < 64
  | .flush => True

/-- At most 63 bytes are unread, and a byte is read only if the ring does not look empty. -/
def Allowed (s : Link) : Op → Prop
  | .fill _ => s.unread.length < 63
  | .readByte => s.ring.isEmpty = false
  | .readAll => True
  | .flush => True

instance (s : Link) : (op : Op) → Decidable (s.Allowed op)
  | .fill _ => inferInstanceAs (Decidable (_ < _))
  | .readByte => inferInstanceAs (Decidable (_ = _))
  | .readAll => isTrue trivial
  | .flush => isTrue trivial

/-- The last byte is not read with `rptr` from 63 to 126, and all bytes with `rptr` to 64 only. -/
def Wrapped (s : Link) : Op → Prop
  | .fill _ => True
  | .readByte => s.unread.length = 1 → s.ring.rptr < 63 ∨ s.ring.rptr = 127
  | .readAll => s.ring.rptr ≤ 64
  | .flush => True

/-- The operation is right in every state of the run, and the ring looks empty when it is. -/
def Fifo : Link → List Op → Prop
  | s, [] => s.ring.isEmpty = true ↔ s.unread = []
  | s, op :: ops => (s.ring.isEmpty = true ↔ s.unread = []) ∧ s.Right op ∧ Fifo (s.next op) ops

end Link

/-! ## The contents of the ring -/

/-- `n` bytes from `r` on. -/
def contents (buffer : Nat → Byte) (r n : Nat) : List Byte :=
  (List.range n).map fun i => buffer ((r + i) % 64)

theorem contents_cons (buffer : Nat → Byte) (r n : Nat) :
    contents buffer r (n + 1) = buffer (r % 64) :: contents buffer (r + 1) n := by
  rw [contents, List.range_succ_eq_map, List.map_cons, List.map_map, Nat.add_zero, contents]
  refine congrArg _ (List.map_congr_left fun i _ => ?_)
  simp only [Function.comp, Nat.succ_eq_add_one]
  rw [Nat.add_assoc, Nat.add_comm 1 i]

theorem contents_append (buffer : Nat → Byte) (r m n : Nat) :
    contents buffer r (m + n) = contents buffer r m ++ contents buffer (r + m) n := by
  rw [contents, List.range_add, List.map_append, List.map_map, contents, contents]
  refine congrArg _ (List.map_congr_left fun i _ => ?_)
  rw [Nat.add_assoc]
  rfl

/-- Where the reader is matters up to a whole turn. -/
theorem contents_mod {r r' : Nat} (h : r % 64 = r' % 64) (buffer : Nat → Byte) (n : Nat) :
    contents buffer r n = contents buffer r' n := by
  refine List.map_congr_left fun i _ => ?_
  rw [Nat.add_mod, h, ← Nat.add_mod]

theorem contents_update (buffer : Nat → Byte) {r n : Nat} (hn : n < 64) (data : Byte) :
    contents (Function.update buffer ((r + n) % 64) data) r (n + 1) =
      contents buffer r n ++ [data] := by
  rw [contents, List.range_succ, List.map_append, List.map_singleton, Function.update_self]
  refine congrArg (· ++ [data]) (List.map_congr_left fun i hi => ?_)
  have hi := List.mem_range.mp hi
  exact Function.update_of_ne (by omega) _ _

/-- Bytes that do not pass the end of the buffer. -/
theorem map_range_add (buffer : Nat → Byte) {r n : Nat} (h : r + n ≤ 64) :
    ((List.range n).map (r + ·)).map buffer = contents buffer r n := by
  rw [List.map_map, contents]
  refine List.map_congr_left fun i hi => ?_
  have hi := List.mem_range.mp hi
  rw [Nat.mod_eq_of_lt (by omega)]
  rfl

/-! ## The invariant -/

/-- The bytes that are not read are from `rptr` to `wptr`. -/
structure Inv (s : Link) : Prop where
  wptr : s.ring.wptr < 64
  rptr : s.ring.rptr < 128
  few : s.unread.length < 64
  ends : (s.ring.rptr + s.unread.length) % 64 = s.ring.wptr
  bytes : s.unread = contents s.ring.buffer s.ring.rptr s.unread.length
  calm : s.unread = [] → s.ring.rptr < 64

theorem inv_empty (buffer : Nat → Byte) : Inv ⟨⟨0, 0, buffer⟩, []⟩ :=
  ⟨Nat.zero_lt_succ _, Nat.zero_lt_succ _, Nat.zero_lt_succ _, rfl, rfl,
    fun _ => Nat.zero_lt_succ _⟩

/-- The writer wraps at the end of the buffer. -/
theorem wptr_fill {p : RxPriv} (h : p.wptr < 64) (data : Byte) :
    (p.fill data).wptr = (p.wptr + 1) % 64 := by
  rw [RxPriv.fill]
  by_cases hw : p.wptr + 1 = scrBufferSizeMask + 1
  · rw [if_pos hw, hw]
    rfl
  · rw [if_neg hw]
    rw [scrBufferSizeMask] at hw
    exact (Nat.mod_eq_of_lt (by omega : p.wptr + 1 < 64)).symm

theorem byteIndex_eq (p : RxPriv) : p.byteIndex = p.rptr % 64 :=
  Nat.and_two_pow_sub_one_eq_mod p.rptr 6

/-- The reader of one byte does not. -/
theorem rptr_readByte (p : RxPriv) : p.readByte.2.rptr = (p.rptr + 1) % 128 :=
  Nat.and_two_pow_sub_one_eq_mod (p.rptr + 1) 7

namespace Inv

variable {s : Link}

theorem isEmpty_iff (h : Inv s) : s.ring.isEmpty = true ↔ s.unread = [] := by
  rw [RxPriv.isEmpty, beq_iff_eq]
  have hw := h.wptr
  have he := h.ends
  have hf := h.few
  constructor
  · intro hp
    exact List.eq_nil_of_length_eq_zero (by omega)
  · intro hn
    have hr := h.calm hn
    rw [hn, List.length_nil] at he
    omega

theorem ne_nil (h : Inv s) (he : s.ring.isEmpty = false) : s.unread ≠ [] := by
  intro hn
  rw [h.isEmpty_iff.mpr hn] at he
  exact Bool.noConfusion he

theorem fill (h : Inv s) (hf : s.unread.length < 63) (data : Byte) :
    Inv (s.next (.fill data)) := by
  have hw := h.wptr
  have hr := h.rptr
  have he := h.ends
  have hf' := wptr_fill hw data
  refine ⟨?_, hr, ?_, ?_, ?_, ?_⟩
  · rw [Link.next, hf']
    exact Nat.mod_lt _ (by decide)
  · rw [Link.next, List.length_append, List.length_singleton]
    exact Nat.succ_lt_succ hf
  · rw [Link.next, hf', List.length_append, List.length_singleton]
    exact (by omega : (s.ring.rptr + (s.unread.length + 1)) % 64 = (s.ring.wptr + 1) % 64)
  · simp only [Link.next, RxPriv.fill, List.length_append, List.length_singleton]
    rw [← he, contents_update _ (by omega), ← h.bytes]
  · exact fun hn => absurd hn (List.append_ne_nil_of_right_ne_nil _ (List.cons_ne_nil _ _))

theorem right_readByte (h : Inv s) (he : s.ring.isEmpty = false) : s.Right .readByte := by
  obtain ⟨b, q, hq⟩ := List.exists_cons_of_ne_nil (h.ne_nil he)
  have hb := h.bytes
  rw [hq, List.length_cons, contents_cons] at hb
  refine ⟨?_, ?_⟩
  · rw [hq, (List.cons.inj hb).1, RxPriv.readByte, byteIndex_eq]
    rfl
  · rw [byteIndex_eq]
    exact Nat.mod_lt _ (by decide)

/-- Only the test for an empty ring depends on how `rptr` is wrapped. -/
theorem readByte (h : Inv s) (he : s.ring.isEmpty = false) (hw : s.Wrapped .readByte) :
    Inv (s.next .readByte) := by
  obtain ⟨b, q, hq⟩ := List.exists_cons_of_ne_nil (h.ne_nil he)
  have hb := h.bytes
  have hr := h.rptr
  have hf := h.few
  have hend := h.ends
  have hrr := rptr_readByte s.ring
  rw [hq, List.length_cons] at hf hend
  rw [hq, List.length_cons, contents_cons] at hb
  refine ⟨h.wptr, ?_, ?_, ?_, ?_, ?_⟩
  · rw [Link.next, hrr]
    exact Nat.mod_lt _ (by decide)
  · rw [Link.next, hq]
    exact Nat.lt_of_succ_lt hf
  · rw [Link.next, hrr, hq, List.tail_cons]
    exact (by omega : ((s.ring.rptr + 1) % 128 + q.length) % 64 = s.ring.wptr)
  · rw [Link.next, hrr, hq, List.tail_cons]
    refine (List.cons.inj hb).2.trans (contents_mod ?_ _ _)
    omega
  · rw [Link.next, hrr, hq, List.tail_cons]
    rintro rfl
    have hw := hw (by rw [hq]; rfl)
    omega

theorem right_readAll (h : Inv s) (hr : s.ring.rptr ≤ 64) : s.Right .readAll := by
  have hw := h.wptr
  have hf := h.few
  have he := h.ends
  rw [Link.Right, RxPriv.readAll, RxPriv.allIndices, h.bytes]
  by_cases heq : s.ring.wptr = s.ring.rptr
  · rw [if_pos heq]
    have hn : s.unread.length = 0 := by omega
    rw [hn]
    exact ⟨rfl, List.forall_mem_nil _⟩
  rw [if_neg heq]
  by_cases hlt : s.ring.wptr < s.ring.rptr
  · rw [if_pos hlt]
    have hc : (scrBufferSizeMask + 1 + 2 ^ 32 - s.ring.rptr) % 2 ^ 32 = 64 - s.ring.rptr := by
      rw [scrBufferSizeMask]
      omega
    have hn : s.unread.length = 64 - s.ring.rptr + s.ring.wptr := by omega
    have hz : (List.range s.ring.wptr).map (0 + ·) = List.range s.ring.wptr := by
      simp only [Nat.zero_add, List.map_id']
    rw [hc, hn, contents_append, List.map_append, map_range_add _ (by omega), ← hz,
      map_range_add _ (by omega)]
    refine ⟨congrArg _ (contents_mod (by omega) _ _), fun i hi => ?_⟩
    rw [List.mem_append, List.mem_map, List.mem_map] at hi
    rcases hi with ⟨j, hj, rfl⟩ | ⟨j, hj, rfl⟩
    · have hj := List.mem_range.mp hj
      omega
    · have hj := List.mem_range.mp hj
      omega
  · rw [if_neg hlt]
    have hn : s.unread.length = s.ring.wptr - s.ring.rptr := by omega
    rw [hn]
    refine ⟨map_range_add _ (by omega), fun i hi => ?_⟩
    obtain ⟨j, hj, rfl⟩ := List.mem_map.mp hi
    have hj := List.mem_range.mp hj
    omega

theorem readAll (h : Inv s) : Inv (s.next .readAll) :=
  ⟨h.wptr, Nat.lt_trans h.wptr (by decide), Nat.zero_lt_succ _, Nat.mod_eq_of_lt h.wptr, rfl,
    fun _ => h.wptr⟩

/-- A step that is allowed and does not lose the place is right and keeps the invariant. -/
theorem step (h : Inv s) {op : Op} (ha : s.Allowed op) (hw : s.Wrapped op) :
    s.Right op ∧ Inv (s.next op) := by
  cases op with
  | fill data => exact ⟨h.wptr, h.fill ha data⟩
  | readByte => exact ⟨h.right_readByte ha, h.readByte ha hw⟩
  | readAll => exact ⟨h.right_readAll hw, h.readAll⟩
  | flush => exact ⟨trivial, inv_empty _⟩

/-- One that does is wrong, or the empty ring behind it does not look empty. -/
theorem wrapped_of_right (h : Inv s) {op : Op} (ha : s.Allowed op) (hr : s.Right op)
    (he : (s.next op).ring.isEmpty = true ↔ (s.next op).unread = []) : s.Wrapped op := by
  have hw := h.wptr
  have hb := h.rptr
  cases op with
  | fill data => trivial
  | flush => trivial
  | readByte =>
    intro h1
    have hn : s.unread.tail = [] := List.eq_nil_of_length_eq_zero (by rw [List.length_tail, h1])
    have hp := he.mpr hn
    rw [Link.next, RxPriv.isEmpty, beq_iff_eq, rptr_readByte] at hp
    have hp : s.ring.wptr = (s.ring.rptr + 1) % 128 := hp
    omega
  | readAll =>
    refine Nat.le_of_not_lt fun hgt => ?_
    have hi := hr.2 s.ring.rptr ?_
    · omega
    · rw [RxPriv.allIndices, if_neg (by omega), if_pos (by omega), List.mem_append]
      refine .inl (List.mem_map.mpr ⟨0, List.mem_range.mpr ?_, rfl⟩)
      rw [scrBufferSizeMask]
      omega

end Inv

/-! ## Runs -/

theorem Link.Fifo.now {s : Link} {ops : List Op} (h : s.Fifo ops) :
    s.ring.isEmpty = true ↔ s.unread = [] := by
  cases ops with
  | nil => exact h
  | cons op ops => exact h.1

theorem Inv.fifo_run {s : Link} (h : Inv s) {ops : List Op}
    (ha : Along Link.next Link.Allowed s ops) :
    s.Fifo ops ↔ Along Link.next Link.Wrapped s ops := by
  induction ops generalizing s with
  | nil => exact iff_of_true h.isEmpty_iff trivial
  | cons op ops ih =>
    obtain ⟨ha, hrest⟩ := ha
    constructor
    · rintro ⟨-, hr, hf⟩
      have hw := h.wrapped_of_right ha hr hf.now
      exact ⟨hw, (ih (h.step ha hw).2 hrest).mp hf⟩
    · rintro ⟨hw, hrun⟩
      obtain ⟨hr, hi⟩ := h.step ha hw
      exact ⟨h.isEmpty_iff, hr, (ih hi hrest).mpr hrun⟩

/-- In a run from the initial state with at most 63 bytes unread, and a byte read only from a ring
that does not look empty, the ring is a queue exactly if the last byte is never read with `rptr` at
63 or above and all bytes are never read with `rptr` above 64. -/
theorem fifo_iff (buffer : Nat → Byte) (ops : List Op)
    (ha : Along Link.next Link.Allowed (.start buffer) ops) :
    (Link.start buffer).Fifo ops ↔ Along Link.next Link.Wrapped (.start buffer) ops :=
  (inv_empty buffer).fifo_run ha

theorem fifo_two_bytes :
    Along Link.next Link.Allowed (.start fun _ => 0) [.fill 1, .fill 2, .readByte, .readAll] ∧
      ((Link.start fun _ => 0).Fifo [.fill 1, .fill 2, .readByte, .readAll] ↔
        Along Link.next Link.Wrapped (.start fun _ => 0)
          [.fill 1, .fill 2, .readByte, .readAll]) :=
  ⟨by decide, fifo_iff _ _ (by decide)⟩

theorem Link.Fifo.last {s : Link} {ops : List Op} (h : s.Fifo ops) :
    (ops.foldl Link.next s).ring.isEmpty = true ↔ (ops.foldl Link.next s).unread = [] := by
  induction ops generalizing s with
  | nil => exact h
  | cons op ops ih => exact ih h.2.2

/-- A byte is filled and read 64 times. -/
def oneByOne : List Op := (List.replicate 64 [Op.fill 0, Op.readByte]).flatten

set_option maxRecDepth 8000 in
/-- The pointers are 0 and 64 then. -/
theorem empty_looks_filled :
    ¬∀ (buffer : Nat → Byte) (ops : List Op),
      Along Link.next Link.Allowed (.start buffer) ops → (Link.start buffer).Fifo ops := by
  intro h
  have he := (h (fun _ => 0) oneByOne (by decide)).last.mpr (by decide)
  exact absurd he (by decide)

end Scr
end XR806

import XR806.Cyclic
import XR806.Trans.Along
import Mathlib.Algebra.Ring.Nat

/-!
# XR806.Audio.ReverbBuffer

The ring of the reverb stream: the indices run on modulo 2^32 and are masked where the buffer is
accessed, and both are reset when a get leaves the ring empty.

With bytes stored from `outIndex` on (`Stores`) a put appends as many as there is room for
(`Stores.put`), and a get takes the first ones (`Stores.get`), so that in any run what was got are
the first of the bytes that were accepted (`ring_kept`).
-/

namespace XR806
namespace Audio

open Cyclic (Holds store load)
open Trans (Along along_imp along_foldl along_forall)

/-! ## The ring -/

/-- `reverb_buffer`; `outside`: a copy has gone past the end of the buffer. -/
structure ReverbBuffer where
  buffer : List UInt8
  size : Nat
  inIndex : Nat
  outIndex : Nat
  outside : Bool
  deriving DecidableEq

def isPowerOf2 (x : Nat) : Prop := x ≠ 0 ∧ x &&& (x - 1) = 0

instance (x : Nat) : Decidable (isPowerOf2 x) := instDecidableAnd

namespace ReverbBuffer

/-- `reverb_buffer_init`, with memory for the ring. -/
def init (size : Nat) : Option ReverbBuffer :=
  if isPowerOf2 size then
    some ⟨List.replicate size 0, size, 0, 0, false⟩
  else none

/-- A `memcpy` into the buffer. -/
def copyIn (r : ReverbBuffer) (i : Nat) (data : List UInt8) : ReverbBuffer :=
  { r with
    buffer := store r.buffer i data
    outside := r.outside || decide (r.buffer.length < i + data.length) }

/-- A `memcpy` from the buffer. -/
def copyOut (r : ReverbBuffer) (i len : Nat) : ReverbBuffer × List UInt8 :=
  ({ r with outside := r.outside || decide (r.buffer.length < i + len) }, load r.buffer i len)

/-- `in - out`. -/
def stored (r : ReverbBuffer) : Nat := (r.inIndex + 2 ^ 32 - r.outIndex) % 2 ^ 32

/-- `size - in + out`. -/
def free (r : ReverbBuffer) : Nat := (r.size + 2 ^ 32 - r.inIndex + r.outIndex) % 2 ^ 32

/-- `reverb_buffer_get`: the ring, the number of the bytes and the bytes. -/
def get (r : ReverbBuffer) (size : Nat) : ReverbBuffer × Nat × List UInt8 :=
  let size := min size r.stored
  let i := r.outIndex &&& (r.size - 1)
  let len := min size (r.size - i)
  let first := r.copyOut i len
  let rest := first.1.copyOut 0 (size - len)
  let r := { rest.1 with outIndex := (r.outIndex + size) % 2 ^ 32 }
  (if r.inIndex = r.outIndex then { r with inIndex := 0, outIndex := 0 } else r,
    size, first.2 ++ rest.2)

/-- `reverb_buffer_put`: the ring and the number of the bytes. -/
def put (r : ReverbBuffer) (data : List UInt8) : ReverbBuffer × Nat :=
  let size := min data.length r.free
  let i := r.inIndex &&& (r.size - 1)
  let len := min size (r.size - i)
  let r := (r.copyIn i (data.take len)).copyIn 0 ((data.drop len).take (size - len))
  ({ r with inIndex := (r.inIndex + size) % 2 ^ 32 }, size)

variable {r : ReverbBuffer} {items : List UInt8}

theorem copyIn_inside {i : Nat} {data : List UInt8} (h : i + data.length ≤ r.buffer.length) :
    r.copyIn i data = { r with buffer := store r.buffer i data } := by
  rw [copyIn, decide_eq_false (Nat.not_lt.mpr h), Bool.or_false]

theorem copyOut_inside {i len : Nat} (h : i + len ≤ r.buffer.length) :
    r.copyOut i len = (r, load r.buffer i len) := by
  rw [copyOut, decide_eq_false (Nat.not_lt.mpr h), Bool.or_false]

/-! ## What the ring stores -/

/-- The ring stores `items`, and no copy was outside. -/
structure Stores (r : ReverbBuffer) (items : List UInt8) : Prop where
  size_eq : ∃ k < 32, r.size = 2 ^ k
  length_eq : r.buffer.length = r.size
  inside : r.outside = false
  out_lt : r.outIndex < 2 ^ 32
  in_eq : r.inIndex = (r.outIndex + items.length) % 2 ^ 32
  fits : items.length ≤ r.size
  holds : Holds r.buffer r.outIndex items

theorem init_stores {size : Nat} (hsize : size < 2 ^ 32)
    (hr : init size = some r) : r.Stores [] := by
  rw [init] at hr
  split at hr
  case isFalse => exact absurd hr (Option.some_ne_none r).symm
  case isTrue hp =>
    obtain ⟨k, rfl⟩ := Nat.ne_zero_and_sub_one_eq_zero_iff_isPowerOfTwo.mp hp
    have hk : k < 32 := (Nat.pow_lt_pow_iff_right (by omega)).mp hsize
    cases hr
    exact ⟨⟨k, hk, rfl⟩, List.length_replicate, rfl, Nat.two_pow_pos 32, rfl, Nat.zero_le _, .nil⟩

theorem init_size {size : Nat} (hr : init size = some r) : r.size = size := by
  rw [init] at hr
  split at hr
  case isFalse => exact absurd hr (Option.some_ne_none r).symm
  case isTrue =>
    cases hr
    rfl

theorem size_get {size : Nat} : (r.get size).1.size = r.size :=
  (apply_ite ReverbBuffer.size _ _ _).trans (ite_self _)

namespace Stores

theorem size_pos (h : r.Stores items) : 0 < r.size := by
  obtain ⟨k, -, hk⟩ := h.size_eq
  rw [hk]
  exact Nat.two_pow_pos k

theorem size_le (h : r.Stores items) : r.size ≤ 2 ^ 31 := by
  obtain ⟨k, hk, hsize⟩ := h.size_eq
  rw [hsize]
  exact Nat.pow_le_pow_right (by omega) (by omega)

theorem size_dvd (h : r.Stores items) : r.size ∣ 2 ^ 32 := by
  obtain ⟨k, hk, hsize⟩ := h.size_eq
  rw [hsize]
  exact Nat.pow_dvd_pow 2 hk.le

/-- The mask. -/
theorem and_size (h : r.Stores items) (i : Nat) : i &&& (r.size - 1) = i % r.size := by
  obtain ⟨k, -, hsize⟩ := h.size_eq
  rw [hsize, Nat.and_two_pow_sub_one_eq_mod]

theorem mod_mod (h : r.Stores items) (i : Nat) : i % 2 ^ 32 % r.size = i % r.size :=
  Nat.mod_mod_of_dvd i h.size_dvd

theorem stored_eq (h : r.Stores items) : r.stored = items.length := by
  have h1 := h.out_lt
  have h2 := h.in_eq
  have h3 := h.fits
  have h4 := h.size_le
  rw [stored]
  omega

theorem free_eq (h : r.Stores items) : r.free = r.size - items.length := by
  have h1 := h.out_lt
  have h2 := h.in_eq
  have h3 := h.fits
  have h4 := h.size_le
  rw [free]
  omega

/-- Both copies of a put are one cyclic write. -/
theorem put_eq (h : r.Stores items) {data : List UInt8} {m : Nat}
    (hm : min data.length (r.size - items.length) = m) :
    r.put data =
      ({ r with
          buffer := Cyclic.write r.buffer (r.inIndex % r.size) (data.take m)
          inIndex := (r.inIndex + m) % 2 ^ 32 }, m) := by
  have hi := Nat.mod_lt r.inIndex h.size_pos
  have hlen := h.length_eq
  have hfree : min data.length r.free = m := by rw [h.free_eq, hm]
  simp only [ReverbBuffer.put, hfree, h.and_size]
  generalize r.inIndex % r.size = i at hi
  have hfirst : data.take (min m (r.size - i)) = (data.take m).take (r.buffer.length - i) := by
    rw [List.take_take, Nat.min_comm, hlen]
  have hrest : (data.drop (min m (r.size - i))).take (m - min m (r.size - i)) =
      (data.take m).drop (r.buffer.length - i) := by
    rw [← List.drop_take, hlen]
    rcases Nat.le_total m (r.size - i) with hle | hle
    · rw [Nat.min_eq_left hle, List.drop_of_length_le (List.length_take_le _ _),
        List.drop_of_length_le ((List.length_take_le _ _).trans hle)]
    · rw [Nat.min_eq_right hle]
  have htake : (data.take m).length ≤ r.size := by
    rw [List.length_take]
    omega
  have hinside : i + ((data.take m).take (r.buffer.length - i)).length ≤ r.buffer.length := by
    rw [List.length_take]
    omega
  rw [hfirst, hrest, copyIn_inside hinside, copyIn_inside]
  · rfl
  · change 0 + _ ≤ (store _ _ _).length
    rw [Cyclic.length_store hinside, List.length_drop]
    omega

/-- Both copies of a get are one cyclic read. -/
theorem get_eq (h : r.Stores items) {size m : Nat} (hm : min size items.length = m) :
    r.get size =
      (if r.inIndex = (r.outIndex + m) % 2 ^ 32 then { r with inIndex := 0, outIndex := 0 }
        else { r with outIndex := (r.outIndex + m) % 2 ^ 32 },
        m, Cyclic.read r.buffer (r.outIndex % r.size) m) := by
  have hi := Nat.mod_lt r.outIndex h.size_pos
  have hlen := h.length_eq
  have hfits := h.fits
  have hstored : min size r.stored = m := by rw [h.stored_eq, hm]
  simp only [ReverbBuffer.get, hstored, h.and_size]
  generalize r.outIndex % r.size = i at hi
  have hfirst : r.copyOut i (min m (r.size - i)) = (r, load r.buffer i (min m (r.size - i))) :=
    copyOut_inside (by omega)
  have hrest : r.copyOut 0 (m - min m (r.size - i)) =
      (r, load r.buffer 0 (m - min m (r.size - i))) := copyOut_inside (by omega)
  rw [hfirst, hrest, Cyclic.read, hlen]

theorem put (h : r.Stores items) (data : List UInt8) :
    (r.put data).2 = min data.length (r.size - items.length) ∧
      (r.put data).1.Stores (items ++ data.take (r.put data).2) := by
  rw [h.put_eq rfl]
  have hfits := h.fits
  have hin := h.in_eq
  have hi : r.inIndex % r.size < r.buffer.length :=
    (Nat.mod_lt _ h.size_pos).trans_eq h.length_eq.symm
  generalize hm : min data.length (r.size - items.length) = m
  have htake : (data.take m).length = m := by
    rw [List.length_take]
    omega
  have hlen : (data.take m).length ≤ r.buffer.length := by
    rw [htake, h.length_eq]
    omega
  have hall : (items ++ data.take m).length = items.length + m := by
    rw [List.length_append, htake]
  have hat : (r.outIndex + items.length) % r.buffer.length = r.inIndex % r.size := by
    rw [hin, h.mod_mod, h.length_eq]
  refine ⟨rfl, h.size_eq, ?_, h.inside, h.out_lt, ?_, ?_, h.holds.write ?_ hi hat⟩
  · exact (Cyclic.length_write hi.le hlen).trans h.length_eq
  · change (r.inIndex + m) % 2 ^ 32 = (r.outIndex + (items ++ data.take m).length) % 2 ^ 32
    rw [hall]
    omega
  · change (items ++ data.take m).length ≤ r.size
    omega
  · rw [htake, h.length_eq]
    omega

theorem get (h : r.Stores items) (size : Nat) :
    (r.get size).2 = (min size items.length, items.take (min size items.length)) ∧
      (r.get size).1.Stores (items.drop (min size items.length)) := by
  rw [h.get_eq rfl]
  have hfits := h.fits
  have hin := h.in_eq
  have hle := h.size_le
  have hi : r.outIndex % r.size < r.buffer.length :=
    (Nat.mod_lt _ h.size_pos).trans_eq h.length_eq.symm
  generalize hm : min size items.length = m
  have hdrop : (items.drop m).length = items.length - m := List.length_drop
  refine ⟨congrArg (m, ·) (h.holds.read hi (by rw [h.length_eq]) (by omega)), ?_⟩
  change Stores (ite _ _ _) _
  split
  case isTrue heq =>
    have hnil : items.drop m = [] := List.drop_of_length_le (by omega)
    rw [hnil]
    exact ⟨h.size_eq, h.length_eq, h.inside, Nat.two_pow_pos 32, rfl, Nat.zero_le _, .nil⟩
  case isFalse hne =>
    refine ⟨h.size_eq, h.length_eq, h.inside, Nat.mod_lt _ (Nat.two_pow_pos 32), ?_, ?_, ?_⟩
    · change r.inIndex = ((r.outIndex + m) % 2 ^ 32 + (items.drop m).length) % 2 ^ 32
      omega
    · change (items.drop m).length ≤ r.size
      omega
    · refine (h.holds.drop (by omega)).congr ?_
      change (r.outIndex + m) % 2 ^ 32 % r.buffer.length = _
      rw [h.length_eq, h.mod_mod]

end Stores

/-! ## Runs -/

inductive Call
  | put (data : List UInt8)
  | get (size : Nat)

/-- A ring, the bytes that its puts have accepted and those that its gets have returned. -/
structure Traffic where
  ring : ReverbBuffer
  accepted : List UInt8
  got : List UInt8

namespace Traffic

def next (s : Traffic) : Call → Traffic
  | .put data =>
    { s with
      ring := (s.ring.put data).1
      accepted := s.accepted ++ data.take (s.ring.put data).2 }
  | .get size =>
    { s with
      ring := (s.ring.get size).1
      got := s.got ++ (s.ring.get size).2.2 }

/-- The bytes that are in the ring. -/
def inside (s : Traffic) : Nat := s.accepted.length - s.got.length

/-- The call moves as many bytes as it should. -/
def Counted (s : Traffic) : Call → Prop
  | .put data => (s.ring.put data).2 = min data.length (s.ring.size - s.inside)
  | .get size =>
    (s.ring.get size).2.1 = min size s.inside ∧
      (s.ring.get size).2.2.length = (s.ring.get size).2.1

/-- What was got are the first of the bytes, and the ring stores the others. -/
def Flows (size : Nat) (s : Traffic) : Prop :=
  ∃ items, s.ring.Stores items ∧ s.ring.size = size ∧ s.accepted = s.got ++ items

variable {size : Nat} {s : Traffic}

theorem Flows.next (h : s.Flows size) (c : Call) : (s.next c).Flows size ∧ s.Counted c := by
  obtain ⟨items, hstores, rfl, hacc⟩ := h
  have hinside : s.inside = items.length := by
    rw [inside, hacc, List.length_append, Nat.add_sub_cancel_left]
  cases c with
  | put data =>
    have hput := hstores.put data
    refine ⟨⟨_, hput.2, rfl, ?_⟩, ?_⟩
    · change s.accepted ++ _ = s.got ++ _
      rw [hacc, List.append_assoc]
    · change (s.ring.put data).2 = min data.length (s.ring.size - s.inside)
      rw [hinside, hput.1]
  | get n =>
    have hget := hstores.get n
    have hbytes := congrArg Prod.snd hget.1
    have hcount := congrArg Prod.fst hget.1
    refine ⟨⟨_, hget.2, ?_, ?_⟩, ?_, ?_⟩
    · exact size_get
    · change s.accepted = (s.got ++ (s.ring.get n).2.2) ++ _
      rw [hbytes, List.append_assoc, List.take_append_drop, hacc]
    · rw [hinside, hcount]
    · rw [hbytes, hcount, List.length_take]
      omega

/-- What was got are the first of the bytes that were accepted, no more are in the ring than there
is room for, and each copy was inside. -/
structure Kept (size : Nat) (s : Traffic) : Prop where
  ordered : s.got <+: s.accepted
  bounded : s.inside ≤ size
  inside : s.ring.outside = false

theorem Flows.kept (h : s.Flows size) : s.Kept size := by
  obtain ⟨items, hstores, rfl, hacc⟩ := h
  refine ⟨⟨items, hacc.symm⟩, ?_, hstores.inside⟩
  rw [Traffic.inside, hacc, List.length_append, Nat.add_sub_cancel_left]
  exact hstores.fits

theorem ring_kept {r : ReverbBuffer} (hsize : size < 2 ^ 32) (hr : init size = some r)
    (calls : List Call) :
    Along Traffic.next Counted ⟨r, [], []⟩ calls ∧
      (calls.foldl Traffic.next ⟨r, [], []⟩).Kept size := by
  have hflows : Flows size ⟨r, [], []⟩ := ⟨[], init_stores hsize hr, init_size hr, rfl⟩
  have hany : Along Traffic.next (fun _ _ => True) ⟨r, [], []⟩ calls :=
    along_forall.mpr fun _ _ => trivial
  exact ⟨along_imp hflows (fun s c hs _ => hs.next c) hany,
    (along_foldl hflows (fun s c hs _ => (hs.next c).1) hany).kept⟩

end Traffic

end ReverbBuffer
end Audio
end XR806

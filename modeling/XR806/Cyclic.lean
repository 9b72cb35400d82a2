import Mathlib.Data.List.Rotate

/-!
# Cyclic

Cyclic buffers: items are copied to a place and on to the end of the list, and what does not fit
there to its begin. `Holds buf start items` says that the buffer holds the items from `start` on,
where it may be any index, also one behind the end.

* `Holds.write`: items that are written behind those that are there, as far as there is room, are
  there behind them.
* `Holds.read`, `Holds.drop`: what is read in the same way are the first of the items, and the
  buffer holds the others behind them.
* `Holds.congr`: only the index modulo the length matters.
-/

namespace Cyclic

variable {α : Type*} {buf items data : List α} {i m start : Nat}

/-- A copy to one place. -/
def store (buf : List α) (i : Nat) (data : List α) : List α :=
  buf.take i ++ data ++ buf.drop (i + data.length)

/-- A copy from one place. -/
def load (buf : List α) (i m : Nat) : List α := (buf.drop i).take m

def write (buf : List α) (i : Nat) (data : List α) : List α :=
  store (store buf i (data.take (buf.length - i))) 0 (data.drop (buf.length - i))

def read (buf : List α) (i m : Nat) : List α :=
  load buf i (min m (buf.length - i)) ++ load buf 0 (m - min m (buf.length - i))

def Holds (buf : List α) (start : Nat) (items : List α) : Prop := items <+: buf.rotate start

@[simp] theorem store_nil : store buf i [] = buf := by
  rw [store, List.append_nil, List.length_nil, Nat.add_zero, List.take_append_drop]

theorem length_store (h : i + data.length ≤ buf.length) :
    (store buf i data).length = buf.length := by
  rw [store, List.length_append, List.length_append, List.length_take, List.length_drop]
  omega

theorem length_write (hi : i ≤ buf.length) (hd : data.length ≤ buf.length) :
    (write buf i data).length = buf.length := by
  have hfirst : (store buf i (data.take (buf.length - i))).length = buf.length := by
    refine length_store ?_
    rw [List.length_take]
    omega
  rw [write, length_store, hfirst]
  rw [hfirst, List.length_drop]
  omega

/-- Seen from where the write begins, the items are in front. -/
theorem write_rotate (hi : i < buf.length) (hd : data.length ≤ buf.length) :
    (write buf i data).rotate i = data ++ (buf.rotate i).drop data.length := by
  have hlen := length_write hi.le hd
  rw [List.rotate_eq_drop_append_take (hi.le.trans hlen.ge),
    List.rotate_eq_drop_append_take hi.le]
  have htake : (buf.take i).length = i := by
    rw [List.length_take]
    omega
  rcases Nat.le_total data.length (buf.length - i) with hfit | hfit
  · have hw : write buf i data = buf.take i ++ (data ++ buf.drop (i + data.length)) := by
      rw [write, List.take_of_length_le hfit, List.drop_of_length_le hfit, store_nil, store,
        List.append_assoc]
    have hrest : data.length ≤ (buf.drop i).length := by
      rw [List.length_drop]
      exact hfit
    rw [hw, List.drop_left' htake, List.take_left' htake, List.drop_append_of_le_length hrest,
      List.drop_drop, List.append_assoc]
  · obtain ⟨d, e, rfl, hdlen⟩ : ∃ d e, data = d ++ e ∧ d.length = buf.length - i :=
      ⟨_, _, (List.take_append_drop (buf.length - i) data).symm, by
        rw [List.length_take]
        omega⟩
    rw [List.length_append] at hd
    have helen : e.length ≤ (buf.take i).length := by omega
    have hdrop : buf.drop (i + d.length) = [] := by
      rw [List.drop_eq_nil_iff]
      omega
    have hw : write buf i (d ++ e) = (e ++ (buf.take i).drop e.length) ++ d := by
      rw [write, List.take_left' hdlen, List.drop_left' hdlen, store, store, hdrop,
        List.append_nil, List.take_zero, List.nil_append, Nat.zero_add,
        List.drop_append_of_le_length helen, List.append_assoc]
    have hfront : (e ++ (buf.take i).drop e.length).length = i := by
      rw [List.length_append, List.length_drop]
      omega
    have hback : (buf.drop i).length = d.length := by
      rw [List.length_drop]
      omega
    rw [hw, List.drop_left' hfront, List.take_left' hfront, List.length_append, List.drop_append,
      List.drop_of_length_le (hback.le.trans (Nat.le_add_right _ _)), hback, List.nil_append,
      Nat.add_sub_cancel_left, List.append_assoc]

theorem read_eq (hi : i ≤ buf.length) (hm : m ≤ buf.length) :
    read buf i m = (buf.rotate i).take m := by
  have hlen : (buf.drop i).length = buf.length - i := List.length_drop
  have hfirst : (buf.drop i).take (min m (buf.length - i)) = (buf.drop i).take m := by
    rw [← hlen, ← List.take_take, List.take_length]
  have hrest : min (m - (buf.length - i)) i = m - min m (buf.length - i) := by omega
  rw [List.rotate_eq_drop_append_take hi, List.take_append, hlen, List.take_take, hrest, read, load,
    load, List.drop_zero, hfirst]

namespace Holds

theorem nil : Holds buf start [] := List.nil_prefix

theorem congr {start' : Nat} (h : Holds buf start items)
    (hmod : start' % buf.length = start % buf.length) : Holds buf start' items := by
  rw [Holds, ← List.rotate_mod, hmod, List.rotate_mod]
  exact h

theorem write (h : Holds buf start items) (hlen : items.length + data.length ≤ buf.length)
    (hi : i < buf.length) (hat : (start + items.length) % buf.length = i) :
    Holds (write buf i data) start (items ++ data) := by
  obtain ⟨rest, hrest⟩ := h
  have hfits : data.length ≤ rest.length := by
    have hrot := congrArg List.length hrest
    rw [List.length_append, List.length_rotate] at hrot
    omega
  have hd : data.length ≤ buf.length := by omega
  -- Both sides behind `items`.
  have hturn : ((Cyclic.write buf i data).rotate start).rotate items.length =
      (items ++ (data ++ rest.drop data.length)).rotate items.length := by
    calc ((Cyclic.write buf i data).rotate start).rotate items.length
        = (Cyclic.write buf i data).rotate i := by
          rw [List.rotate_rotate, ← List.rotate_mod, length_write hi.le hd, hat]
      _ = data ++ ((buf.rotate start).rotate items.length).drop data.length := by
          rw [write_rotate hi hd, List.rotate_rotate, ← hat, List.rotate_mod]
      _ = data ++ (rest.drop data.length ++ items) := by
          rw [← hrest, List.rotate_append_length_eq, List.drop_append_of_le_length hfits]
      _ = (items ++ (data ++ rest.drop data.length)).rotate items.length := by
          rw [List.rotate_append_length_eq, List.append_assoc]
  refine ⟨rest.drop data.length, ?_⟩
  rw [List.append_assoc]
  exact (List.rotate_injective _ hturn).symm

theorem read (h : Holds buf start items) (hi : i < buf.length) (hat : start % buf.length = i)
    (hm : m ≤ items.length) : Cyclic.read buf i m = items.take m := by
  obtain ⟨rest, hrest⟩ := h
  have hlen := congrArg List.length hrest
  rw [List.length_append, List.length_rotate] at hlen
  rw [read_eq hi.le (by omega), ← hat, List.rotate_mod, ← hrest,
    List.take_append_of_le_length hm]

theorem drop (h : Holds buf start items) (hm : m ≤ items.length) :
    Holds buf (start + m) (items.drop m) := by
  obtain ⟨rest, hrest⟩ := h
  have hparts : items.take m ++ (items.drop m ++ rest) = buf.rotate start := by
    rw [← List.append_assoc, List.take_append_drop, hrest]
  have hfirst : (items.take m).length = m := by
    rw [List.length_take]
    omega
  refine ⟨rest ++ items.take m, ?_⟩
  calc items.drop m ++ (rest ++ items.take m)
      = (items.take m ++ (items.drop m ++ rest)).rotate (items.take m).length := by
        rw [List.rotate_append_length_eq, List.append_assoc]
    _ = buf.rotate (start + m) := by rw [hparts, hfirst, List.rotate_rotate]

end Holds

end Cyclic

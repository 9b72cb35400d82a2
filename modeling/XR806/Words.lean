import Mathlib.Data.List.Basic

/-!
# Words

Bytes as the 32-bit words they make, low byte first.

* `leWords_append`: words of bytes that end at a word boundary, and of what follows;
* `leWords_inj`: the words determine the bytes of whole words;
* `whole`, `rest`: a list up to its last word boundary, and behind it.
-/

namespace Words

abbrev Byte := BitVec 8

def leWord (b0 b1 b2 b3 : Byte) : BitVec 32 := b3 ++ b2 ++ b1 ++ b0

/-- Byte `i` of a word. -/
def byteOf (w : BitVec 32) (i : Nat) : Byte := w.extractLsb' (8 * i) 8

/-- What is left behind the last whole word is dropped. -/
def leWords : List Byte → List (BitVec 32)
  | b0 :: b1 :: b2 :: b3 :: rest => leWord b0 b1 b2 b3 :: leWords rest
  | _ => []

theorem append_inj {m n : Nat} {x x' : BitVec m} {y y' : BitVec n} (h : x ++ y = x' ++ y') :
    x = x' ∧ y = y' := by
  have hlow : y = y' := by
    have := congrArg (BitVec.setWidth n) h
    rwa [BitVec.setWidth_append_eq_right, BitVec.setWidth_append_eq_right] at this
  subst hlow
  exact ⟨(BitVec.append_left_inj y).mp h, rfl⟩

section

variable {a0 a1 a2 a3 b0 b1 b2 b3 : Byte} {xs ys : List Byte}

theorem leWord_inj (h : leWord a0 a1 a2 a3 = leWord b0 b1 b2 b3) :
    a0 = b0 ∧ a1 = b1 ∧ a2 = b2 ∧ a3 = b3 := by
  obtain ⟨h, h0⟩ := append_inj h
  obtain ⟨h, h1⟩ := append_inj h
  obtain ⟨h3, h2⟩ := append_inj h
  exact ⟨h0, h1, h2, h3⟩

theorem whole_rest (h : (b0 :: b1 :: b2 :: b3 :: xs).length % 4 = 0) : xs.length % 4 = 0 := by
  simp only [List.length_cons] at h
  omega

/-- A list of whole words, word by word. -/
theorem words_induction {motive : ∀ xs : List Byte, xs.length % 4 = 0 → Prop}
    (nil : motive [] rfl)
    (word : ∀ b0 b1 b2 b3 rest h, motive rest (whole_rest h) →
      motive (b0 :: b1 :: b2 :: b3 :: rest) h) :
    ∀ xs h, motive xs h
  | [], _ => nil
  | [_], h | [_, _], h | [_, _, _], h => absurd h (by simp)
  | b0 :: b1 :: b2 :: b3 :: rest, h =>
    word b0 b1 b2 b3 rest h (words_induction nil word rest (whole_rest h))

theorem leWords_append (h : xs.length % 4 = 0) : leWords (xs ++ ys) = leWords xs ++ leWords ys := by
  induction xs, h using words_induction with
  | nil => rfl
  | word b0 b1 b2 b3 rest _ ih => exact congrArg (_ :: ·) ih

theorem length_leWords (h : xs.length % 4 = 0) : 4 * (leWords xs).length = xs.length := by
  induction xs, h using words_induction with
  | nil => rfl
  | word b0 b1 b2 b3 rest _ ih =>
    simp only [leWords, List.length_cons]
    omega

theorem leWords_inj (hx : xs.length % 4 = 0) (hy : ys.length % 4 = 0)
    (h : leWords xs = leWords ys) : xs = ys := by
  induction xs, hx using words_induction generalizing ys with
  | nil =>
    have := length_leWords hy
    rw [← h] at this
    exact (List.length_eq_zero_iff.mp this.symm).symm
  | word b0 b1 b2 b3 rest _ ih =>
    cases ys, hy using words_induction with
    | nil => cases h
    | word c0 c1 c2 c3 rest' hrest' _ =>
      obtain ⟨hword, hrest⟩ := List.cons_eq_cons.mp h
      obtain ⟨rfl, rfl, rfl, rfl⟩ := leWord_inj hword
      rw [ih (whole_rest hrest') hrest]

/-! ## The last word boundary -/

def whole (xs : List Byte) : List Byte := xs.take (xs.length / 4 * 4)

def rest (xs : List Byte) : List Byte := xs.drop (xs.length / 4 * 4)

@[simp] theorem whole_append_rest (xs : List Byte) : whole xs ++ rest xs = xs :=
  List.take_append_drop ..

theorem length_whole (xs : List Byte) : (whole xs).length = xs.length / 4 * 4 :=
  List.length_take_of_le (Nat.div_mul_le_self ..)

theorem length_rest (xs : List Byte) : (rest xs).length = xs.length % 4 := by
  rw [rest, List.length_drop]
  omega

theorem whole_mod (xs : List Byte) : (whole xs).length % 4 = 0 := by
  rw [length_whole, Nat.mul_mod_left]

/-- A list that is cut at a word boundary, with less than a word behind it. -/
theorem whole_rest_eq (hx : xs.length % 4 = 0) (hy : ys.length < 4) :
    whole (xs ++ ys) = xs ∧ rest (xs ++ ys) = ys := by
  have hlen : (xs ++ ys).length / 4 * 4 = xs.length := by
    rw [List.length_append]
    omega
  rw [whole, rest, hlen]
  exact ⟨List.take_left .., List.drop_left ..⟩

theorem rest_append_small (h : (rest xs).length + ys.length < 4) :
    whole (xs ++ ys) = whole xs ∧ rest (xs ++ ys) = rest xs ++ ys := by
  have happ : xs ++ ys = whole xs ++ (rest xs ++ ys) := by
    rw [← List.append_assoc, whole_append_rest]
  rw [happ]
  exact whole_rest_eq (whole_mod xs) (by rwa [List.length_append])

end

end Words

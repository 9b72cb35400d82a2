import Mathlib.Algebra.Group.Nat.Defs
import XR806.Words

/-!
# XR806.Crypto.Hash

`HAL_MD5_Append` and its siblings, `HAL_CRC_Append` and the finish calls: the words the crypto
engine is given for a message in chunks, by the CPU and with the input FIFO always ready in time.

Up to three bytes wait in the handle for their word to be full. A chunk that does not fill it is
copied to the start of the word, over the bytes that wait there; what is sent in the end is what is
left of the message (`sent_words`), and that is the message when no such chunk came, or one that
makes no difference (`chunks_do_not_matter_iff`).
-/

namespace XR806
namespace Crypto

open Words

/-- `CE_MD5_Handler`, and as much of `CE_CRC_Handler`. -/
structure Handler where
  totalSize : Nat
  word : List Byte
  wordSize : Nat

/-- What the init calls leave. -/
def Handler.init : Handler := ⟨0, List.replicate 4 0, 0⟩

/-- `memcpy` to `&dst[i]`. -/
def copyAt (dst : List Byte) (i : Nat) (src : List Byte) : List Byte :=
  dst.take i ++ src ++ dst.drop (i + src.length)

/-- `HAL_CRC_Hash_Convey`, with the words that are written to the input register. -/
def halCrcHashConvey (h : Handler) (data : List Byte) : Handler × List (BitVec 32) :=
  let bufLeft := 4 - h.wordSize
  if data.length < bufLeft then
    -- not to `word[word_size]`
    ({ h with word := copyAt h.word 0 data, wordSize := h.wordSize + data.length }, [])
  else
    let word := copyAt h.word h.wordSize (data.take bufLeft)
    let wordSize := (data.length - bufLeft) &&& 3
    let alignLen := data.length - bufLeft - wordSize
    let words := leWords word ++ leWords ((data.drop bufLeft).take alignLen)
    let word := copyAt (List.replicate 4 0) 0 (data.drop (data.length - wordSize))
    ({ h with word, wordSize }, words)

/-- `HAL_MD5_Append`, `HAL_SHA1_Append`, `HAL_SHA256_Append` and `HAL_CRC_Append`. -/
def halMd5Append (h : Handler) (data : List Byte) : Handler × List (BitVec 32) :=
  if data.length = 0 then (h, [])
  else
    let (h, words) := halCrcHashConvey h data
    ({ h with totalSize := (h.totalSize + data.length) % 2 ^ 64 }, words)

/-- Byte order of the length in the padding: `htole64` for MD5, `htobe64` for the SHA family. -/
inductive LengthOrder where
  | little
  | big
  deriving DecidableEq

/-- The bytes of `bit_size` in memory. -/
def LengthOrder.bytes (order : LengthOrder) (n : Nat) : List Byte :=
  let le := (List.range 8).map fun i => BitVec.ofNat 8 (n / 256 ^ i)
  match order with
  | .little => le
  | .big => le.reverse

/-- The array that `HAL_Hash_Finish` appends. -/
def hashPad (totalSize : Nat) (bitSize : List Byte) : List Byte :=
  let remainSize := totalSize &&& 0x3f
  let padSize := if remainSize < 56 then 64 - remainSize - 8 - 1 else 128 - remainSize - 8 - 1
  0x80 :: List.replicate padSize 0 ++ bitSize

/-- `HAL_MD5_Finish`, `HAL_SHA1_Finish` and `HAL_SHA256_Finish`. -/
def halHashFinish (order : LengthOrder) (h : Handler) : Handler × List (BitVec 32) :=
  halMd5Append h (hashPad h.totalSize (order.bytes (h.totalSize * 2 ^ 3 % 2 ^ 64)))

/-- `HAL_CRC_Finish`. -/
def halCrcFinish (h : Handler) : Handler × List (BitVec 32) :=
  halMd5Append h (List.replicate ((4 - h.wordSize) &&& 3) 0)

def appendAll (h : Handler) : List (List Byte) → Handler × List (BitVec 32)
  | [] => (h, [])
  | data :: chunks =>
    let (h, words) := halMd5Append h data
    let (h, more) := appendAll h chunks
    (h, words ++ more)

/-! ## What should be sent -/

/-- The padding of MD5 and SHA for a message of `n` bytes. -/
def stdPadding (order : LengthOrder) (n : Nat) : List Byte :=
  0x80 :: List.replicate ((119 - n % 64) % 64) 0 ++ order.bytes (8 * n % 2 ^ 64)

/-- Zeros to a word boundary. -/
def crcPadding (n : Nat) : List Byte := List.replicate ((4 - n % 4) % 4) 0

/-- The words and the size for the message, with either finish call. -/
structure Digested (message : List Byte) (chunks : List (List Byte)) : Prop where
  hash : ∀ order, (appendAll .init chunks).2 ++
      (halHashFinish order (appendAll .init chunks).1).2 =
    leWords (message ++ stdPadding order message.length)
  crc : (appendAll .init chunks).2 ++ (halCrcFinish (appendAll .init chunks).1).2 =
    leWords (message ++ crcPadding message.length)
  size : (appendAll .init chunks).1.totalSize = message.length

/-! ## What is sent -/

/-- Bytes that wait, and a chunk copied over them. -/
def overwrite (waiting data : List Byte) : List Byte :=
  data ++ (waiting ++ List.replicate data.length 0).drop data.length

/-- What becomes of `m` with a chunk. -/
def sentStep (m data : List Byte) : List Byte :=
  if (rest m).length + data.length < 4 then whole m ++ overwrite (rest m) data else m ++ data

/-- The handle after the bytes `m`. -/
structure Holds (m : List Byte) (h : Handler) : Prop where
  word : h.word = rest m ++ List.replicate (4 - m.length % 4) 0
  wordSize : h.wordSize = m.length % 4
  totalSize : h.totalSize = m.length % 2 ^ 64

section

variable {m data : List Byte} {h : Handler}

theorem length_overwrite (waiting data : List Byte) :
    (overwrite waiting data).length = waiting.length + data.length := by
  rw [overwrite, List.length_append, List.length_drop, List.length_append, List.length_replicate]
  omega

theorem length_sentStep (m data : List Byte) :
    (sentStep m data).length = m.length + data.length := by
  unfold sentStep
  split
  · have := congrArg List.length (whole_append_rest m)
    rw [List.length_append] at this
    rw [List.length_append, length_overwrite]
    omega
  · rw [List.length_append]

theorem Holds.small (h₁ : Holds m h) (hsize : (rest m).length + data.length < 4) :
    Holds (sentStep m data) { h with
      word := copyAt h.word 0 data, wordSize := h.wordSize + data.length
      totalSize := (h.totalSize + data.length) % 2 ^ 64 } ∧
      whole (sentStep m data) = whole m := by
  have hlen := length_rest m
  have hover := length_overwrite (rest m) data
  have hsent : sentStep m data = whole m ++ overwrite (rest m) data := if_pos hsize
  obtain ⟨hwhole, hrest⟩ := whole_rest_eq (whole_mod m)
    (show (overwrite (rest m) data).length < 4 by rwa [hover])
  have hmod : (sentStep m data).length % 4 = m.length % 4 + data.length := by
    rw [length_sentStep]
    omega
  refine ⟨⟨?_, ?_, ?_⟩, hsent ▸ hwhole⟩
  · have hzeros : List.replicate (4 - m.length % 4) (0 : Byte) =
        List.replicate data.length 0 ++ List.replicate (4 - (sentStep m data).length % 4) 0 := by
      rw [← List.replicate_add]
      congr 1
      omega
    change copyAt h.word 0 data = _
    rw [hsent, hrest, ← hsent, copyAt, h₁.word, hzeros, ← List.append_assoc, Nat.zero_add,
      List.drop_append_of_le_length (by simp), List.take_zero, List.nil_append, overwrite,
      List.append_assoc]
  · change h.wordSize + data.length = _
    rw [hmod, h₁.wordSize]
  · change (h.totalSize + data.length) % 2 ^ 64 = _
    rw [h₁.totalSize, Nat.mod_add_mod, length_sentStep]

theorem Holds.large (h₁ : Holds m h) (hsize : ¬(rest m).length + data.length < 4) :
    let bufLeft := 4 - h.wordSize
    let wordSize := (data.length - bufLeft) &&& 3
    let alignLen := data.length - bufLeft - wordSize
    Holds (sentStep m data) { h with
      word := copyAt (List.replicate 4 0) 0 (data.drop (data.length - wordSize)), wordSize
      totalSize := (h.totalSize + data.length) % 2 ^ 64 } ∧
      leWords (whole m) ++ (leWords (copyAt h.word h.wordSize (data.take bufLeft)) ++
        leWords ((data.drop bufLeft).take alignLen)) = leWords (whole (sentStep m data)) := by
  intro bufLeft wordSize alignLen
  have hlen := length_rest m
  have hbuf : bufLeft = 4 - m.length % 4 := by rw [← h₁.wordSize]
  have hword : wordSize = (data.length - bufLeft) % 4 := Nat.and_two_pow_sub_one_eq_mod _ 2
  have halign : alignLen = data.length - bufLeft - wordSize := rfl
  have hcopy : copyAt h.word h.wordSize (data.take bufLeft) = rest m ++ data.take bufLeft := by
    have htake : (data.take bufLeft).length = bufLeft := List.length_take_of_le (by omega)
    have hend : (rest m).length + bufLeft = 4 := by omega
    rw [copyAt, h₁.word, h₁.wordSize, ← hlen, List.take_left, htake, List.drop_of_length_le,
      List.append_nil]
    rw [List.length_append, List.length_replicate]
    omega
  have hfirst : (rest m ++ data.take bufLeft).length % 4 = 0 := by
    rw [List.length_append, List.length_take_of_le (by omega)]
    omega
  have hmid : ((data.drop bufLeft).take alignLen).length % 4 = 0 := by
    rw [List.length_take_of_le (by rw [List.length_drop]; omega)]
    omega
  have hsplit : sentStep m data =
      (whole m ++ (rest m ++ data.take bufLeft) ++ (data.drop bufLeft).take alignLen) ++
        data.drop (data.length - wordSize) := by
    have hlast : data.drop (data.length - wordSize) = (data.drop bufLeft).drop alignLen := by
      rw [List.drop_drop]
      congr 1
      omega
    rw [sentStep, if_neg hsize, hlast, ← List.append_assoc (whole m), whole_append_rest,
      List.append_assoc, List.append_assoc, List.take_append_drop, List.take_append_drop]
  have hfront : (whole m ++ (rest m ++ data.take bufLeft) ++
      (data.drop bufLeft).take alignLen).length % 4 = 0 := by
    have := whole_mod m
    rw [List.length_append, List.length_append]
    omega
  have hback : (data.drop (data.length - wordSize)).length = wordSize := by
    rw [List.length_drop]
    omega
  obtain ⟨hwhole, hrest⟩ := whole_rest_eq hfront
    (show (data.drop (data.length - wordSize)).length < 4 by omega)
  rw [← hsplit] at hwhole hrest
  have hmod : (sentStep m data).length % 4 = wordSize := by
    rw [← length_rest, hrest, hback]
  refine ⟨⟨?_, hmod.symm, ?_⟩, ?_⟩
  · change copyAt _ _ _ = _
    rw [hrest, hmod, copyAt, hback, List.take_zero, List.nil_append, Nat.zero_add,
      List.drop_replicate]
  · change (h.totalSize + data.length) % 2 ^ 64 = _
    rw [h₁.totalSize, Nat.mod_add_mod, length_sentStep]
  · rw [hwhole, hcopy, ← leWords_append hfirst, ← leWords_append (whole_mod m),
      List.append_assoc (whole m)]

/-- A chunk. -/
theorem Holds.append (h₁ : Holds m h) (data : List Byte) :
    Holds (sentStep m data) (halMd5Append h data).1 ∧
      leWords (whole m) ++ (halMd5Append h data).2 = leWords (whole (sentStep m data)) := by
  have hlen := length_rest m
  unfold halMd5Append
  by_cases h0 : data.length = 0
  · obtain rfl := List.length_eq_zero_iff.mp h0
    have hsent : sentStep m [] = m := by
      rw [sentStep, if_pos (by rw [hlen, List.length_nil]; omega), overwrite]
      simp
    rw [if_pos h0, hsent, List.append_nil]
    exact ⟨h₁, rfl⟩
  rw [if_neg h0]
  have hws := h₁.wordSize
  unfold halCrcHashConvey
  dsimp only
  by_cases hsize : (rest m).length + data.length < 4
  · rw [if_pos (by omega)]
    obtain ⟨hholds, hwhole⟩ := h₁.small hsize
    exact ⟨hholds, by rw [hwhole, List.append_nil]⟩
  · rw [if_neg (by omega)]
    exact h₁.large hsize

/-- The chunks, one after the other. -/
def sent (m : List Byte) : List (List Byte) → List Byte
  | [] => m
  | data :: chunks => sent (sentStep m data) chunks

theorem length_sent (m : List Byte) (chunks : List (List Byte)) :
    (sent m chunks).length = m.length + chunks.flatten.length := by
  induction chunks generalizing m with
  | nil => rfl
  | cons data chunks ih =>
    rw [sent, ih, length_sentStep, List.flatten_cons, List.length_append, Nat.add_assoc]

theorem Holds.appendAll (h₁ : Holds m h) (chunks : List (List Byte)) :
    Holds (sent m chunks) (appendAll h chunks).1 ∧
      leWords (whole m) ++ (appendAll h chunks).2 = leWords (whole (sent m chunks)) := by
  induction chunks generalizing m h with
  | nil => exact ⟨h₁, List.append_nil _⟩
  | cons data chunks ih =>
    obtain ⟨hstep, hwords⟩ := h₁.append data
    obtain ⟨hholds, hmore⟩ := ih hstep
    refine ⟨hholds, ?_⟩
    rw [Crypto.appendAll, ← List.append_assoc, hwords]
    exact hmore

/-- A last chunk that ends at a word boundary. -/
theorem Holds.finish (h₁ : Holds m h) (hpad : (m.length + data.length) % 4 = 0)
    (hlarge : (rest m).length + data.length = 0 ∨ 4 ≤ (rest m).length + data.length) :
    leWords (whole m) ++ (halMd5Append h data).2 = leWords (m ++ data) := by
  have hwords := (h₁.append data).2
  have hlen := length_rest m
  have hsent : sentStep m data = m ++ data := by
    rcases hlarge with hzero | hlarge
    · obtain rfl : data = [] := List.length_eq_zero_iff.mp (by omega)
      rw [sentStep, if_pos (by omega), overwrite]
      simp
    · rw [sentStep, if_neg (by omega)]
  have hall : whole (m ++ data) = m ++ data :=
    List.take_of_length_le (by rw [List.length_append]; omega)
  rw [hwords, hsent, hall]

theorem length_orderBytes (order : LengthOrder) (n : Nat) : (order.bytes n).length = 8 := by
  cases order <;> rfl

theorem length_stdPadding (order : LengthOrder) (n : Nat) :
    (stdPadding order n).length = 9 + (119 - n % 64) % 64 := by
  rw [stdPadding, List.length_append, List.length_cons, List.length_replicate, length_orderBytes]
  omega

theorem hashPad_eq (order : LengthOrder) (n : Nat) :
    hashPad (n % 2 ^ 64) (order.bytes (n % 2 ^ 64 * 2 ^ 3 % 2 ^ 64)) = stdPadding order n := by
  have hremain : n % 2 ^ 64 &&& 0x3f = n % 64 := by
    rw [show (0x3f : Nat) = 2 ^ 6 - 1 from rfl, Nat.and_two_pow_sub_one_eq_mod]
    omega
  have hbits : n % 2 ^ 64 * 2 ^ 3 % 2 ^ 64 = 8 * n % 2 ^ 64 := by omega
  have hpad : (if n % 64 < 56 then 64 - n % 64 - 8 - 1 else 128 - n % 64 - 8 - 1) =
      (119 - n % 64) % 64 := by
    split <;> omega
  rw [hashPad, hremain, hbits, hpad, stdPadding]

/-- The words for the chunks and the padding. -/
theorem sent_words (chunks : List (List Byte)) :
    (∀ order, (appendAll .init chunks).2 ++ (halHashFinish order (appendAll .init chunks).1).2 =
        leWords (sent [] chunks ++ stdPadding order (sent [] chunks).length)) ∧
      (appendAll .init chunks).2 ++ (halCrcFinish (appendAll .init chunks).1).2 =
        leWords (sent [] chunks ++ crcPadding (sent [] chunks).length) ∧
      (appendAll .init chunks).1.totalSize = (sent [] chunks).length % 2 ^ 64 := by
  have hinit : Holds [] .init := ⟨rfl, rfl, rfl⟩
  obtain ⟨hholds, hwords⟩ := hinit.appendAll chunks
  change (appendAll .init chunks).2 = _ at hwords
  have hlen := length_rest (sent [] chunks)
  refine ⟨fun order => ?_, ?_, hholds.totalSize⟩
  · have hpad := length_stdPadding order (sent [] chunks).length
    rw [hwords, halHashFinish, hholds.totalSize, hashPad_eq]
    exact hholds.finish (by omega) (.inr (by omega))
  · have hpad : List.replicate ((4 - (appendAll .init chunks).1.wordSize) &&& 3) (0 : Byte) =
        crcPadding (sent [] chunks).length := by
      rw [crcPadding, hholds.wordSize, show (3 : Nat) = 2 ^ 2 - 1 from rfl,
        Nat.and_two_pow_sub_one_eq_mod]
    have hpadLen : (crcPadding (sent [] chunks).length).length =
        (4 - (sent [] chunks).length % 4) % 4 := List.length_replicate
    rw [hwords, halCrcFinish, hpad]
    exact hholds.finish (by omega) (by omega)

end

/-! ## Chunks that do not matter -/

/-- Each chunk that does not fill the word it starts in finds nothing waiting there, or bytes that
are the same with it on top as with it behind them. -/
def Clean (m : List Byte) : List (List Byte) → Prop
  | [] => True
  | data :: chunks =>
    ((rest m).length + data.length < 4 → overwrite (rest m) data = rest m ++ data) ∧
      Clean (m ++ data) chunks

/-- What waits in place of `s` once a chunk was copied over it. -/
inductive StrayRest : List Byte → List Byte → Prop where
  | two {a b : Byte} (h : [b, 0] ≠ [a, b]) : StrayRest [b, 0] [a, b]
  | three {r s : List Byte} (hr : r.length = 3) (hs : s.length = 3) (h : r ≠ s) : StrayRest r s

/-- `e` was sent for `m`. -/
inductive Strays (e m : List Byte) : Prop where
  | front (hlen : e.length = m.length) (h : whole e ≠ whole m) : Strays e m
  | waiting (hwhole : whole e = whole m) (h : StrayRest (rest e) (rest m)) : Strays e m

section

variable {e m r s data : List Byte} {chunks : List (List Byte)}

theorem StrayRest.length_eq (h : StrayRest r s) : r.length = s.length := by
  cases h with
  | two h => rfl
  | three hr hs h => rw [hr, hs]

theorem StrayRest.ne (h : StrayRest r s) : r ≠ s := by
  cases h with
  | two h => exact h
  | three hr hs h => exact h

/-- The first chunk that is copied over other bytes. -/
theorem strayRest_overwrite (hsize : s.length + data.length < 4)
    (hne : overwrite s data ≠ s ++ data) : StrayRest (overwrite s data) (s ++ data) := by
  by_cases h3 : s.length + data.length = 3
  · refine .three ?_ ?_ hne
    · rw [length_overwrite, h3]
    · rw [List.length_append, h3]
  · rcases s with _ | ⟨a, _ | ⟨b, s⟩⟩
    · exact absurd (by simp [overwrite]) hne
    · rcases data with _ | ⟨b, _ | ⟨c, data⟩⟩
      · exact absurd rfl hne
      · exact .two hne
      · simp only [List.length_cons] at h3 hsize
        omega
    · rcases data with _ | ⟨c, data⟩
      · exact absurd (by simp [overwrite]) hne
      · simp only [List.length_cons] at h3 hsize
        omega

/-- It cannot be made up for. -/
theorem StrayRest.overwrite (h : StrayRest r s) (hsize : s.length + data.length < 4) :
    StrayRest (overwrite r data) (s ++ data) := by
  cases h with
  | @two a b h =>
    rcases data with _ | ⟨x, _ | ⟨y, data⟩⟩
    · exact .two h
    · refine .three rfl rfl fun heq => h ?_
      change [x, 0, 0] = [a, b, x] at heq
      simp only [List.cons.injEq] at heq
      obtain ⟨rfl, rfl, rfl, -⟩ := heq
      rfl
    · simp only [List.length_cons, List.length_nil] at hsize
      omega
  | three hr hs h =>
    obtain rfl : data = [] := List.length_eq_zero_iff.mp (by omega)
    refine .three ?_ ?_ ?_
    · rw [length_overwrite, hr]
      rfl
    · rw [List.append_nil, hs]
    · simpa [Crypto.overwrite] using h

/-- The words of more bytes begin with the words of these. -/
theorem take_whole_append (m data : List Byte) {n : Nat} (hn : n ≤ m.length)
    (hle : n ≤ (m.length + data.length) / 4 * 4) : (whole (m ++ data)).take n = m.take n := by
  rw [whole, List.take_take, List.length_append, Nat.min_eq_left hle,
    List.take_append_of_le_length hn]

theorem Strays.step (h : Strays e m) (data : List Byte) :
    Strays (sentStep e data) (m ++ data) := by
  have hlen : e.length = m.length := by
    cases h with
    | front hlen h => exact hlen
    | waiting hwhole h =>
      rw [← whole_append_rest e, ← whole_append_rest m, List.length_append, List.length_append,
        hwhole, h.length_eq]
  have hlenStep : (sentStep e data).length = (m ++ data).length := by
    rw [length_sentStep, hlen, List.length_append]
  have hrestE := length_rest e
  have hrestM := length_rest m
  by_cases hsize : (rest m).length + data.length < 4
  · have hsizeE : (rest e).length + data.length < 4 := by omega
    have hsent : sentStep e data = whole e ++ overwrite (rest e) data := if_pos hsizeE
    obtain ⟨hwholeE, hrestE'⟩ := whole_rest_eq (whole_mod e)
      (show (overwrite (rest e) data).length < 4 by rwa [length_overwrite])
    obtain ⟨hwholeM, hrestM'⟩ := rest_append_small hsize
    rw [← hsent] at hwholeE hrestE'
    cases h with
    | front _ h => exact .front hlenStep (by rwa [hwholeE, hwholeM])
    | waiting hwhole h =>
      refine .waiting (by rw [hwholeE, hwholeM, hwhole]) ?_
      rw [hrestE', hrestM']
      exact h.overwrite hsize
  · have hsent : sentStep e data = e ++ data := if_neg (by omega)
    refine .front hlenStep fun hsame => ?_
    rw [hsent] at hsame
    cases h with
    | front _ h =>
      have htake := congrArg (List.take (m.length / 4 * 4)) hsame
      rw [take_whole_append e data (by omega) (by omega),
        take_whole_append m data (by omega) (by omega)] at htake
      refine h ?_
      rw [whole, whole, hlen]
      exact htake
    | waiting _ h =>
      have htake := congrArg (List.take m.length) hsame
      rw [take_whole_append e data (by omega) (by omega),
        take_whole_append m data (by omega) (by omega), List.take_length, ← hlen,
        List.take_length] at htake
      exact h.ne (by rw [htake])

theorem Strays.ne (h : Strays e m) : e ≠ m := by
  rintro rfl
  cases h with
  | front _ h => exact h rfl
  | waiting _ h => exact h.ne rfl

theorem Strays.sent (h : Strays e m) : sent e chunks ≠ m ++ chunks.flatten := by
  induction chunks generalizing e m with
  | nil => rw [List.flatten_nil, List.append_nil]; exact h.ne
  | cons data chunks ih =>
    rw [List.flatten_cons, ← List.append_assoc]
    exact ih (h.step data)

theorem sent_eq_iff : sent m chunks = m ++ chunks.flatten ↔ Clean m chunks := by
  induction chunks generalizing m with
  | nil => exact iff_of_true (List.append_nil m).symm trivial
  | cons data chunks ih =>
    rw [sent, Clean, List.flatten_cons, ← List.append_assoc, ← ih]
    by_cases hsize : (rest m).length + data.length < 4
    · rw [sentStep, if_pos hsize]
      by_cases hsame : overwrite (rest m) data = rest m ++ data
      · rw [hsame, ← List.append_assoc, whole_append_rest]
        exact ⟨fun h => ⟨fun _ => rfl, h⟩, And.right⟩
      · refine iff_of_false (Strays.sent ?_) fun h => hsame (h.1 hsize)
        obtain ⟨hwhole, hrest⟩ := whole_rest_eq (whole_mod m)
          (show (overwrite (rest m) data).length < 4 by rwa [length_overwrite])
        obtain ⟨hwholeM, hrestM⟩ := rest_append_small hsize
        refine .waiting (by rw [hwhole, hwholeM]) ?_
        rw [hrest, hrestM]
        exact strayRest_overwrite hsize hsame
    · rw [sentStep, if_neg hsize]
      exact ⟨fun h => ⟨fun h => absurd h hsize, h⟩, And.right⟩

end

/-- What is sent for a message in chunks is its words and those of the padding, exactly when no
chunk is copied over other bytes that wait, and the 64-bit counter does not wrap. -/
theorem chunks_do_not_matter_iff (chunks : List (List Byte)) :
    Digested chunks.flatten chunks ↔ Clean [] chunks ∧ chunks.flatten.length < 2 ^ 64 := by
  obtain ⟨hhash, hcrc, hsize⟩ := sent_words chunks
  have hlen : (sent [] chunks).length = chunks.flatten.length := by
    rw [length_sent, List.length_nil, Nat.zero_add]
  rw [← sent_eq_iff, List.nil_append]
  constructor
  · rintro ⟨hhash', -, hsize'⟩
    have hsame := (hhash .little).symm.trans (hhash' .little)
    have hpad := length_stdPadding .little chunks.flatten.length
    rw [hlen] at hsame
    have hbytes := leWords_inj (by rw [List.length_append]; omega)
      (by rw [List.length_append]; omega) hsame
    refine ⟨List.append_cancel_right hbytes, ?_⟩
    rw [hsize, hlen] at hsize'
    have hlt := Nat.mod_lt chunks.flatten.length (Nat.two_pow_pos 64)
    omega
  · rintro ⟨hsent, hlt⟩
    rw [hsent] at hhash hcrc hsize
    exact ⟨hhash, hcrc, hsize.trans (Nat.mod_eq_of_lt hlt)⟩

/-- The second of two bytes takes the place of the first. -/
theorem two_bytes_overwritten : ¬Digested [1, 2] [[1], [2]] := by
  intro h
  exact absurd h.crc (by decide)

end Crypto
end XR806

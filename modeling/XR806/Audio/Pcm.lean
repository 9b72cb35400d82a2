import Mathlib.Data.List.Basic

/-!
# XR806.Audio.Pcm

`snd_pcm_write`, `snd_pcm_flush` and `snd_pcm_read`: the sound card moves half buffers, and what
does not make up one waits in a cache. No filter is registered, the card takes what it is given, and
a size is that of a buffer, so that an `int` can say it.

What is written comes out in order (`given_writes`). A read of one half buffer into the cache that
comes back short is thrown away with what it delivered; apart from that a read returns what the card
delivers, in order (`pcm_streams_exact_iff`).
-/

namespace XR806
namespace Audio

abbrev Byte := BitVec 8

/-- The card: the sizes of its half buffers, what it records, and how many bytes it delivers, or an
error, when it is asked for the `k`-th time, for `n` bytes. -/
structure Card where
  playHalf : Nat
  capHalf : Nat
  stream : Nat → Byte
  reply : Nat → Nat → Int
  playHalf_pos : 0 < playHalf
  capHalf_pos : 0 < capHalf
  reply_le : ∀ k n, reply k n ≤ n

/-! ## Writing -/

/-- `HAL_SndCard_PcmWrite`: what it takes, and what it returns. -/
def pcmWrite (half : Nat) (data : List Byte) : List Byte × Int :=
  (data.take (data.length / half * half), (data.length / half * half : Nat))

/-- `play_priv`: the cached bytes. A call gives back the new cache, the bytes that were given to
the card, and what it returns. -/
abbrev PlayCall := List Byte × List Byte × Int

/-- Behind the cache. -/
def writeRest (half : Nat) (data : List Byte) (count cacheRemain : Nat) : PlayCall :=
  let (given, ret) := pcmWrite half data
  if ret > 0 ∧ ret < data.length then (data.drop ret.toNat, given, count)
  else if ret = data.length then ([], given, count)
  else if ret = 0 then (data.take (if data.length < half then data.length else half), given, count)
  else ([], given, if cacheRemain ≠ 0 then cacheRemain else -1)

def sndPcmWrite (half : Nat) (cache data : List Byte) : PlayCall :=
  if data.length = 0 then (cache, [], -1)
  else if cache.length ≠ 0 then
    let cacheRemain := half - cache.length
    if cacheRemain > data.length then (cache ++ data, [], data.length)
    else
      let given := (pcmWrite half (cache ++ data.take cacheRemain)).1
      if data.length - cacheRemain = 0 then ([], given, data.length)
      else
        let (cache, more, ret) := writeRest half (data.drop cacheRemain) data.length cacheRemain
        (cache, given ++ more, ret)
  else writeRest half data data.length 0

def sndPcmFlush (half : Nat) (cache : List Byte) : PlayCall :=
  let given := if cache.length ≠ 0 then
    (pcmWrite half (cache ++ List.replicate (half - cache.length) 0)).1 else []
  let zeros := (pcmWrite half (List.replicate half 0)).1
  ([], given ++ zeros ++ zeros, 0)

/-- The cache after some writes, and what the card was given. -/
def runWrites (half : Nat) (cache : List Byte) : List (List Byte) → List Byte × List Byte
  | [] => (cache, [])
  | data :: writes =>
    let (cache, given, _) := sndPcmWrite half cache data
    let (cache, more) := runWrites half cache writes
    (cache, given ++ more)

/-- What should be given to the card for the data and a flush. -/
def flushed (half : Nat) (data : List Byte) : List Byte :=
  data ++ List.replicate ((half - data.length % half) % half) 0 ++ List.replicate (2 * half) 0

section

variable {half : Nat} {cache data : List Byte} {writes : List (List Byte)}

/-- A call leaves less than a half buffer, and neither loses nor repeats a byte. -/
structure Kept (half : Nat) (cache data : List Byte) (r : PlayCall) : Prop where
  short : r.1.length < half
  whole : r.2.1.length % half = 0
  bytes : r.2.1 ++ r.1 = cache ++ data

theorem pcmWrite_full (hlen : data.length = half) (hhalf : 0 < half) :
    (pcmWrite half data).1 = data := by
  rw [pcmWrite, hlen, Nat.div_self hhalf, Nat.one_mul]
  exact List.take_of_length_le (Nat.le_of_eq hlen)

theorem writeRest_kept (data : List Byte) (hhalf : 0 < half) (count cacheRemain : Nat) :
    Kept half [] data (writeRest half data count cacheRemain) := by
  have hle := Nat.div_mul_le_self data.length half
  have hlt := Nat.lt_div_mul_add (a := data.length) hhalf
  have htake : (data.take (data.length / half * half)).length = data.length / half * half :=
    List.length_take_of_le hle
  have hwhole : (data.take (data.length / half * half)).length % half = 0 := by
    rw [htake, Nat.mul_mod_left]
  unfold writeRest pcmWrite
  dsimp only
  split
  · refine ⟨?_, hwhole, ?_⟩
    · rw [List.length_drop, Int.toNat_natCast]
      omega
    · exact List.take_append_drop ..
  · split
    · refine ⟨hhalf, hwhole, ?_⟩
      rw [List.append_nil, List.take_of_length_le (by omega), List.nil_append]
    · split
      · rename_i hzero
        have h0 : data.length / half * half = 0 := by omega
        rw [h0, if_pos (by omega), List.take_length]
        refine ⟨by simp only; omega, rfl, rfl⟩
      · omega

theorem sndPcmWrite_kept (data : List Byte) (hcache : cache.length < half) :
    Kept half cache data (sndPcmWrite half cache data) := by
  have hhalf : 0 < half := Nat.lt_of_le_of_lt (Nat.zero_le _) hcache
  unfold sndPcmWrite
  split
  · rename_i h0
    obtain rfl := List.length_eq_zero_iff.mp h0
    exact ⟨hcache, Nat.zero_mod _, (List.append_nil _).symm⟩
  split
  · dsimp only
    split
    · exact ⟨by simp only [List.length_append]; omega, Nat.zero_mod _, rfl⟩
    · have hfull : (cache ++ data.take (half - cache.length)).length = half := by
        rw [List.length_append, List.length_take_of_le (by omega)]
        omega
      rw [pcmWrite_full hfull hhalf]
      split
      · refine ⟨hhalf, by rw [hfull, Nat.mod_self], ?_⟩
        rw [List.append_nil, List.take_of_length_le (by omega)]
      · obtain ⟨hshort, hwhole, hbytes⟩ := writeRest_kept
          (data.drop (half - cache.length)) hhalf data.length (half - cache.length)
        refine ⟨hshort, ?_, ?_⟩
        · rw [List.length_append, hfull, Nat.add_mod_left]
          exact hwhole
        · rw [List.append_assoc, hbytes, List.nil_append, List.append_assoc,
            List.take_append_drop]
  · rename_i h0
    rw [not_not] at h0
    obtain rfl := List.length_eq_zero_iff.mp h0
    exact writeRest_kept _ hhalf _ _

theorem runWrites_kept (writes : List (List Byte)) (hcache : cache.length < half) :
    (runWrites half cache writes).1.length < half ∧
      (runWrites half cache writes).2.length % half = 0 ∧
      (runWrites half cache writes).2 ++ (runWrites half cache writes).1 =
        cache ++ writes.flatten := by
  induction writes generalizing cache with
  | nil => exact ⟨hcache, Nat.zero_mod _, (List.append_nil _).symm⟩
  | cons data writes ih =>
    obtain ⟨hshort, hwhole, hbytes⟩ := sndPcmWrite_kept data hcache
    obtain ⟨hshort', hwhole', hbytes'⟩ := ih hshort
    refine ⟨hshort', ?_, ?_⟩
    · rw [runWrites, List.length_append, Nat.add_mod, hwhole, hwhole', Nat.zero_mod]
    · rw [runWrites, List.append_assoc, hbytes', ← List.append_assoc, hbytes, List.append_assoc,
        List.flatten_cons]

/-- The data, filled up with zeros, and two half buffers of zeros. -/
theorem given_writes (hhalf : 0 < half) :
    (runWrites half [] writes).2 ++ (sndPcmFlush half (runWrites half [] writes).1).2.1 =
      flushed half writes.flatten := by
  obtain ⟨hshort, hwhole, hbytes⟩ := runWrites_kept writes (show ([] : List Byte).length < half from hhalf)
  generalize runWrites half [] writes = r at hshort hwhole hbytes
  obtain ⟨cache, given⟩ := r
  rw [List.nil_append] at hbytes
  dsimp only at hshort hwhole hbytes ⊢
  have hmod : writes.flatten.length % half = cache.length := by
    rw [← hbytes, List.length_append, Nat.add_mod, hwhole, Nat.zero_add, Nat.mod_mod,
      Nat.mod_eq_of_lt hshort]
  have hzeros : List.replicate half (0 : Byte) ++ List.replicate half 0 =
      List.replicate (2 * half) 0 := by
    rw [← List.replicate_add, Nat.two_mul]
  rw [flushed, hmod, ← hbytes, sndPcmFlush]
  dsimp only
  rw [pcmWrite_full (List.length_replicate) hhalf, List.append_assoc _ (List.replicate half 0),
    hzeros]
  split
  · rename_i hne
    rw [pcmWrite_full (by rw [List.length_append, List.length_replicate]; omega) hhalf,
      Nat.mod_eq_of_lt (by omega)]
    simp only [List.append_assoc]
  · rename_i h0
    rw [not_not] at h0
    obtain rfl := List.length_eq_zero_iff.mp h0
    rw [List.length_nil, Nat.sub_zero, Nat.mod_self]
    simp

end

/-! ## Reading -/

/-- `cap_priv`, the number of times the card was asked, and the bytes it has delivered. -/
structure Cap where
  cache : List Byte
  asked : Nat
  pos : Nat

/-- A call leaves the state, the bytes it has written to `data`, and what it returns. -/
abbrev CapCall := Cap × List Byte × Int

section

variable (card : Card)

/-- The recorded bytes from one position to another. -/
def Card.recorded (pos n : Nat) : List Byte := (List.range n).map fun i => card.stream (pos + i)

/-- `HAL_SndCard_PcmRead`. -/
def pcmRead (s : Cap) (n : Nat) : CapCall :=
  let ret := card.reply s.asked n
  ({ s with asked := s.asked + 1, pos := s.pos + ret.toNat }, card.recorded s.pos ret.toNat, ret)

/-- The read of one half buffer into the cache. -/
def readRemain (s : Cap) (data : List Byte) (remain count : Nat) : CapCall :=
  let (s, bytes, ret) := pcmRead card s card.capHalf
  if ret ≠ card.capHalf then (s, data, (count - remain : Nat))
  else ({ s with cache := bytes.drop remain }, data ++ bytes.take remain, count)

/-- Behind the cache. -/
def readRest (s : Cap) (data : List Byte) (remain count : Nat) : CapCall :=
  if remain ≥ card.capHalf then
    let hwRead := remain / card.capHalf * card.capHalf
    let (s, bytes, ret) := pcmRead card s hwRead
    if ret ≠ hwRead then
      (s, data ++ bytes, if ret > 0 then (count - remain : Nat) + ret else (count - remain : Nat))
    else if remain - hwRead = 0 then (s, data ++ bytes, count)
    else readRemain card s (data ++ bytes) (remain - hwRead) count
  else readRemain card s data remain count

def sndPcmRead (s : Cap) (count : Nat) : CapCall :=
  if count = 0 then (s, [], -1)
  else if s.cache.length ≠ 0 then
    if s.cache.length > count then
      ({ s with cache := s.cache.drop count }, s.cache.take count, count)
    else if count - s.cache.length = 0 then ({ s with cache := [] }, s.cache, count)
    else readRest card { s with cache := [] } s.cache (count - s.cache.length) count
  else readRest card s [] count count

/-- The state after some reads, and the bytes they returned, `ret` of them each. -/
def runReads (s : Cap) : List Nat → Cap × List Byte
  | [] => (s, [])
  | count :: counts =>
    let (s, data, ret) := sndPcmRead card s count
    let (s, more) := runReads s counts
    (s, data.take ret.toNat ++ more)

/-- If the call reads into the cache for `remain` bytes, how often the card was asked before. -/
def cacheReadRest (asked remain : Nat) : Option Nat :=
  let hwRead := remain / card.capHalf * card.capHalf
  if remain < card.capHalf then some asked
  else if card.reply asked hwRead = hwRead ∧ remain - hwRead ≠ 0 then some (asked + 1)
  else none

def cacheRead (s : Cap) (count : Nat) : Option Nat :=
  if s.cache.length < count then cacheReadRest card s.asked (count - s.cache.length) else none

/-- A read into the cache that comes back short delivers nothing. -/
def WholeAt (asked : Option Nat) : Prop :=
  ∀ k, asked = some k → card.reply k card.capHalf = card.capHalf ∨ card.reply k card.capHalf ≤ 0

def AllWhole (s : Cap) : List Nat → Prop
  | [] => True
  | count :: counts =>
    WholeAt card (cacheRead card s count) ∧ AllWhole (sndPcmRead card s count).1 counts

/-- What was returned is a prefix of what the card delivered, and the cache is the rest of it. -/
def Unskipped (s : Cap) (returned : List Byte) : Prop :=
  returned ++ s.cache = card.recorded 0 s.pos

end

section

variable {card : Card} {s : Cap} {data : List Byte} {n remain count : Nat}

theorem recorded_append (pos n m : Nat) :
    card.recorded pos (n + m) = card.recorded pos n ++ card.recorded (pos + n) m := by
  unfold Card.recorded
  rw [List.range_add, List.map_append, List.map_map]
  simp only [Function.comp_def, Nat.add_assoc]

theorem length_recorded (pos n : Nat) : (card.recorded pos n).length = n := by
  rw [Card.recorded, List.length_map, List.length_range]

/-- What a call does with the bytes `front` and with what the card delivers: it returns or caches
them, or, if not `whole`, it loses some. -/
structure Passes (card : Card) (pos : Nat) (front : List Byte) (whole : Prop) (r : CapCall) :
    Prop where
  le : pos ≤ r.1.pos
  bytes : whole → r.2.1 ++ r.1.cache = front ++ card.recorded pos (r.1.pos - pos)
  lost : ¬whole → r.2.1.length + r.1.cache.length < front.length + (r.1.pos - pos)
  count : r.2.1.length = r.2.2.toNat

/-- Nothing is lost when what is returned and cached is all there was. -/
theorem Passes.all {front : List Byte} {r : CapCall} (n : Nat) (hpos : r.1.pos = s.pos + n)
    (hbytes : r.2.1 ++ r.1.cache = front ++ card.recorded s.pos n)
    (hcount : r.2.1.length = r.2.2.toNat) :
    Passes card s.pos front (WholeAt card none) r where
  le := by
    rw [hpos]
    exact Nat.le_add_right ..
  bytes _ := by rw [hpos, Nat.add_sub_cancel_left, hbytes]
  lost h := absurd (fun k hk => absurd hk.symm (Option.some_ne_none k)) h
  count := hcount

/-- What was read before the call stands in front. -/
theorem Passes.after {pos : Nat} {front : List Byte} {whole : Prop} {r : CapCall}
    (h : Passes card (pos + n) (front ++ card.recorded pos n) whole r) :
    Passes card pos front whole r where
  le := Nat.le_trans (Nat.le_add_right ..) h.le
  bytes hwhole := by
    have hle := h.le
    have hsplit : r.1.pos - pos = n + (r.1.pos - (pos + n)) := by omega
    rw [h.bytes hwhole, hsplit, recorded_append, List.append_assoc]
  lost hlossy := by
    have hle := h.le
    have hlost := h.lost hlossy
    rw [List.length_append, length_recorded] at hlost
    omega
  count := h.count

theorem readRemain_passes (hc : s.cache = []) (hlen : data.length + remain = count)
    (hr : remain ≤ card.capHalf) :
    Passes card s.pos data (WholeAt card (some s.asked)) (readRemain card s data remain count) := by
  have hle := card.reply_le s.asked card.capHalf
  unfold readRemain pcmRead
  dsimp only
  by_cases hfull : card.reply s.asked card.capHalf = card.capHalf
  · rw [if_neg (not_not.mpr hfull), hfull, Int.toNat_natCast]
    refine ⟨Nat.le_add_right .., fun _ => ?_, fun h => ?_, ?_⟩
    · simp only [List.append_assoc, List.take_append_drop, Nat.add_sub_cancel_left]
    · refine absurd (fun k hk => ?_) h
      obtain rfl := Option.some.inj hk
      exact .inl hfull
    · dsimp only
      rw [List.length_append, List.length_take, length_recorded, Nat.min_eq_left hr, hlen,
        Int.toNat_natCast]
  · rw [if_pos hfull]
    refine ⟨Nat.le_add_right .., fun h => ?_, fun h => ?_, ?_⟩
    · have hnone : card.reply s.asked card.capHalf ≤ 0 := (h _ rfl).resolve_left hfull
      simp only [hc, Int.toNat_of_nonpos hnone, Nat.add_zero, Nat.sub_self]
      rfl
    · have hsome : 0 < card.reply s.asked card.capHalf := by
        refine Int.not_le.mp fun hnone => h fun k hk => ?_
        obtain rfl := Option.some.inj hk
        exact .inr hnone
      simp only [hc, List.length_nil]
      omega
    · simp only
      omega

theorem readRest_passes (hc : s.cache = []) (hlen : data.length + remain = count) :
    Passes card s.pos data (WholeAt card (cacheReadRest card s.asked remain))
      (readRest card s data remain count) := by
  have hhalf := card.capHalf_pos
  unfold readRest cacheReadRest
  by_cases hr : remain < card.capHalf
  · rw [if_neg (Nat.not_le.mpr hr)]
    dsimp only
    rw [if_pos hr]
    exact readRemain_passes hc hlen (Nat.le_of_lt hr)
  have hle := Nat.div_mul_le_self remain card.capHalf
  have hlt := Nat.lt_div_mul_add (a := remain) hhalf
  rw [if_pos (Nat.le_of_not_lt hr)]
  dsimp only [pcmRead]
  rw [if_neg hr]
  generalize remain / card.capHalf * card.capHalf = hwRead at hle hlt ⊢
  have hreply := card.reply_le s.asked hwRead
  by_cases hfull : card.reply s.asked hwRead = hwRead
  · rw [if_neg (not_not.mpr hfull), hfull, Int.toNat_natCast]
    by_cases h0 : remain - hwRead = 0
    · rw [if_pos h0, if_neg (fun h => h.2 h0)]
      refine Passes.all hwRead rfl ?_ ?_
      · simp only [hc, List.append_nil]
      · simp only [List.length_append, length_recorded]
        omega
    · rw [if_neg h0, if_pos ⟨rfl, h0⟩]
      refine Passes.after (readRemain_passes (s := { s with asked := _, pos := _ }) hc ?_ ?_)
      · rw [List.length_append, length_recorded]
        omega
      · omega
  · rw [if_pos hfull, if_neg (fun h => hfull h.1)]
    refine Passes.all (card.reply s.asked hwRead).toNat rfl ?_ ?_
    · simp only [hc, List.append_nil]
    · simp only [List.length_append, length_recorded]
      split <;> omega

/-- One read: the cache stands in front of what the card delivers. -/
theorem sndPcmRead_passes (card : Card) (s : Cap) (count : Nat) :
    Passes card s.pos s.cache (WholeAt card (cacheRead card s count))
      (sndPcmRead card s count) := by
  unfold sndPcmRead cacheRead
  by_cases h0 : count = 0
  · rw [if_pos h0, if_neg (by omega)]
    exact Passes.all 0 rfl (List.append_nil _).symm rfl
  rw [if_neg h0]
  by_cases hc : s.cache.length = 0
  · rw [if_neg (not_not.mpr hc), if_pos (by omega), hc]
    rw [List.length_eq_zero_iff] at hc
    rw [hc]
    exact readRest_passes hc (Nat.zero_add _)
  rw [if_pos hc]
  by_cases hmore : s.cache.length > count
  · rw [if_pos hmore, if_neg (by omega)]
    refine Passes.all 0 rfl ?_ ?_
    · simp only [List.take_append_drop]
      exact (List.append_nil _).symm
    · simp only [List.length_take_of_le (Nat.le_of_lt hmore), Int.toNat_natCast]
  rw [if_neg hmore]
  by_cases hsame : count - s.cache.length = 0
  · rw [if_pos hsame, if_neg (by omega)]
    refine Passes.all 0 rfl rfl ?_
    simp only [Int.toNat_natCast]
    omega
  · rw [if_neg hsame, if_pos (by omega)]
    exact readRest_passes (s := { s with cache := [] }) rfl (by omega)

theorem runReads_cons (counts : List Nat) :
    runReads card s (count :: counts) =
      ((runReads card (sndPcmRead card s count).1 counts).1,
        (sndPcmRead card s count).2.1 ++
          (runReads card (sndPcmRead card s count).1 counts).2) := by
  have htake := List.take_of_length_le
    (Nat.le_of_eq (sndPcmRead_passes card s count).count)
  simp only [runReads, htake]

/-- At most what the card delivered was returned or is cached. -/
theorem runReads_length (card : Card) (s : Cap) (counts : List Nat) :
    (runReads card s counts).2.length + (runReads card s counts).1.cache.length + s.pos ≤
      s.cache.length + (runReads card s counts).1.pos := by
  induction counts generalizing s with
  | nil => simp only [runReads, List.length_nil]; omega
  | cons count counts ih =>
    have hcall := sndPcmRead_passes card s count
    have hrest := ih (sndPcmRead card s count).1
    have hone : (sndPcmRead card s count).2.1.length + (sndPcmRead card s count).1.cache.length ≤
        s.cache.length + ((sndPcmRead card s count).1.pos - s.pos) := by
      by_cases hwhole : WholeAt card (cacheRead card s count)
      · have hlen := congrArg List.length (hcall.bytes hwhole)
        rw [List.length_append, List.length_append, length_recorded] at hlen
        exact Nat.le_of_eq hlen
      · exact Nat.le_of_lt (hcall.lost hwhole)
    have hle := hcall.le
    simp only [runReads_cons, List.length_append]
    omega

/-- Once a byte is lost, it stays lost. -/
theorem runReads_lossy {counts : List Nat} {returned : List Byte}
    (hlost : returned.length + s.cache.length < s.pos) :
    ¬Unskipped card (runReads card s counts).1 (returned ++ (runReads card s counts).2) := by
  intro h
  have hall := congrArg List.length h
  have hrun := runReads_length card s counts
  rw [List.length_append, List.length_append, length_recorded] at hall
  omega

theorem runReads_unskipped {counts : List Nat} {returned : List Byte}
    (hs : Unskipped card s returned) :
    Unskipped card (runReads card s counts).1 (returned ++ (runReads card s counts).2) ↔
      AllWhole card s counts := by
  induction counts generalizing s returned with
  | nil => exact iff_of_true (by rwa [runReads, List.append_nil]) trivial
  | cons count counts ih =>
    have hcall := sndPcmRead_passes card s count
    rw [runReads_cons, ← List.append_assoc, AllWhole]
    have hsplit : (sndPcmRead card s count).1.pos =
        s.pos + ((sndPcmRead card s count).1.pos - s.pos) := (Nat.add_sub_cancel' hcall.le).symm
    by_cases hwhole : WholeAt card (cacheRead card s count)
    · have hnext : Unskipped card (sndPcmRead card s count).1
          (returned ++ (sndPcmRead card s count).2.1) := by
        rw [Unskipped, List.append_assoc, hcall.bytes hwhole, ← List.append_assoc, hs, hsplit,
          recorded_append, Nat.zero_add, ← hsplit]
      rw [ih hnext, and_iff_right hwhole]
    · refine iff_of_false (runReads_lossy ?_) (fun h => hwhole h.1)
      have hbefore := congrArg List.length hs
      have hlost := hcall.lost hwhole
      rw [List.length_append, length_recorded] at hbefore
      rw [List.length_append]
      omega

end

/-! ## The streams -/

/-- Every write leaves less than a half buffer in the cache, and the writes and a flush give the
card the data, filled up with zeros, and two half buffers of zeros. Reads return what the card
delivered, except for what is still in the cache, exactly if no read of a half buffer into the
cache delivers some of it but not all. -/
theorem pcm_streams_exact_iff (card : Card) :
    (∀ writes, (runWrites card.playHalf [] writes).1.length < card.playHalf ∧
      (runWrites card.playHalf [] writes).2 ++
          (sndPcmFlush card.playHalf (runWrites card.playHalf [] writes).1).2.1 =
        flushed card.playHalf writes.flatten) ∧
    ∀ counts, Unskipped card (runReads card ⟨[], 0, 0⟩ counts).1
        (runReads card ⟨[], 0, 0⟩ counts).2 ↔
      AllWhole card ⟨[], 0, 0⟩ counts := by
  have hstart : Unskipped card ⟨[], 0, 0⟩ [] := rfl
  exact ⟨fun writes => ⟨(runWrites_kept writes card.playHalf_pos).1,
    given_writes card.playHalf_pos⟩, fun counts => runReads_unskipped hstart⟩

/-- The first read of a half buffer of four bytes delivers two. -/
def shortCard : Card where
  playHalf := 4
  capHalf := 4
  stream k := BitVec.ofNat 8 k
  reply k n := if k = 0 then min 2 n else n
  playHalf_pos := by decide
  capHalf_pos := by decide
  reply_le k n := by
    split
    · exact Int.min_le_right ..
    · exact Int.le_refl _

/-- Two reads of one byte: the first one returns nothing, and the second one the third byte. -/
theorem short_read_skipped :
    (runReads shortCard ⟨[], 0, 0⟩ [1, 1]).2 = [2] ∧
      ¬(runReads shortCard ⟨[], 0, 0⟩ [1, 1]).2 <+: shortCard.recorded 0 6 := by
  decide

end Audio
end XR806

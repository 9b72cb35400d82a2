import Mathlib.Tactic

/-!
# XR806.AtCmd.Queue

The queue that the AT parser takes its bytes from: a ring that is filled by a callback when it is
empty. To its user it is the list of the answers of the callback, a byte or nothing at a time
(`AtQueue.reads`), as long as each piece that the callback delivers fits the ring.
-/

namespace XR806
namespace AtCmd

/-- Where a parser gets its bytes from. `none` is `AQEC_EMPTY`. -/
structure Source (κ : Type) where
  get : κ → Option UInt8 × κ
  peek : κ → Option UInt8 × κ

/-- `f` takes the states of one source to those of another that gives the same answers, as long as
`inv` holds. -/
structure Source.Reads {κ κ' : Type} (src : Source κ) (src' : Source κ') (inv : κ → Prop)
    (f : κ → κ') : Prop where
  get : ∀ k, inv k → inv (src.get k).2 ∧ src'.get (f k) = ((src.get k).1, f (src.get k).2)
  peek : ∀ k, inv k → inv (src.peek k).2 ∧ src'.peek (f k) = ((src.peek k).1, f (src.peek k).2)

/-! ## The answers of the callback -/

/-- The bytes to come, with a `none` wherever the callback has nothing. When the list is over it
never has anything again. -/
def answers : Source (List (Option UInt8)) where
  get
    | [] => (none, [])
    | a :: rest => (a, rest)
  peek
    | [] => (none, [])
    | none :: rest => (none, rest)
    | some b :: rest => (some b, some b :: rest)

/-- What one call of the callback adds. -/
def answersOf (win : List UInt8) : List (Option UInt8) :=
  if win = [] then [none] else win.map some

/-! ## The ring -/

/-- `at_queue_t`. -/
structure AtQueue where
  qbuf : List UInt8
  widx : Nat
  ridx : Nat
  qcnt : Int

namespace AtQueue

def qsize (q : AtQueue) : Nat := q.qbuf.length

/-- `at_queue_init`. -/
def init (qbuf : List UInt8) : AtQueue := { qbuf, widx := 0, ridx := 0, qcnt := 0 }

def put (q : AtQueue) (b : UInt8) : AtQueue :=
  { q with qbuf := q.qbuf.set q.widx b,
           widx := if q.widx + 1 ≥ q.qsize then 0 else q.widx + 1,
           qcnt := q.qcnt + 1 }

/-- The head of `at_queue_get` and `at_queue_peek`: an empty ring is filled by the callback, of
which `feed` are the calls to come. The result is whether there is something to read. -/
def fill (q : AtQueue) (feed : List (List UInt8)) : Bool × AtQueue × List (List UInt8) :=
  if q.qcnt ≤ 0 then
    match feed with
    | [] => (false, q, [])
    | [] :: feed => (false, q, feed)
    | win :: feed =>
      -- a piece that does not fit is dropped, and what is read then is not of the stream
      if (win.length : Int) > q.qsize - q.qcnt then (true, q, feed)
      else (true, win.foldl put q, feed)
  else (true, q, feed)

def element (q : AtQueue) : UInt8 := q.qbuf.getD q.ridx 0

def pop (q : AtQueue) : AtQueue :=
  { q with ridx := if q.ridx + 1 ≥ q.qsize then 0 else q.ridx + 1, qcnt := q.qcnt - 1 }

def atQueueGet (k : AtQueue × List (List UInt8)) : Option UInt8 × AtQueue × List (List UInt8) :=
  match k.1.fill k.2 with
  | (false, k) => (none, k)
  | (true, q, feed) => (some q.element, q.pop, feed)

def atQueuePeek (k : AtQueue × List (List UInt8)) : Option UInt8 × AtQueue × List (List UInt8) :=
  match k.1.fill k.2 with
  | (false, k) => (none, k)
  | (true, q, feed) => (some q.element, q, feed)

def source : Source (AtQueue × List (List UInt8)) := { get := atQueueGet, peek := atQueuePeek }

/-! ## Its contents -/

/-- The bytes of the ring from `ridx` on. -/
def content (q : AtQueue) : List UInt8 :=
  (List.range q.qcnt.toNat).map fun i => q.qbuf.getD ((q.ridx + i) % q.qsize) 0

structure Valid (q : AtQueue) : Prop where
  cnt : 0 ≤ q.qcnt
  cap : q.qcnt ≤ q.qsize
  ridx : 0 < q.qsize → q.ridx < q.qsize
  widx : q.widx = (q.ridx + q.qcnt.toNat) % q.qsize

theorem valid_init (qbuf : List UInt8) : (init qbuf).Valid :=
  ⟨by simp [init], by simp [init], fun h => h, by simp [init]⟩

variable {q : AtQueue}

@[simp] theorem qsize_put (b : UInt8) : (q.put b).qsize = q.qsize := by simp [qsize, put]

@[simp] theorem qsize_pop : q.pop.qsize = q.qsize := rfl

/-- Stepping an index of a ring. -/
theorem wrap_add_one {i n : Nat} (h : i < n) : (if i + 1 ≥ n then 0 else i + 1) = (i + 1) % n := by
  split
  · rw [show i + 1 = n by omega, Nat.mod_self]
  · rw [Nat.mod_eq_of_lt (by omega)]

/-- The places of a ring that are less than its size apart differ. -/
theorem mod_add_ne {r i j n : Nat} (hij : i < j) (hj : j < n) : (r + i) % n ≠ (r + j) % n := by
  intro h
  have hd : (j - i) % n = 0 := by
    have := Nat.sub_mod_eq_zero_of_mod_eq h.symm
    rwa [Nat.add_sub_add_left] at this
  rw [Nat.mod_eq_of_lt (by omega)] at hd
  omega

theorem Valid.put (h : q.Valid) (hroom : q.qcnt < q.qsize) (b : UInt8) :
    (q.put b).Valid ∧ (q.put b).content = q.content ++ [b] := by
  obtain ⟨n, hn⟩ := Int.eq_ofNat_of_zero_le h.cnt
  have hlt : n < q.qsize := by omega
  have hw := h.widx
  rw [hn, Int.toNat_natCast] at hw
  have hwlt : q.widx < q.qsize := by
    rw [hw]
    exact Nat.mod_lt _ (by omega)
  have hcnt : (q.put b).qcnt = ((n + 1 : Nat) : Int) := by simp [AtQueue.put, hn]
  refine ⟨⟨by omega, by rw [qsize_put]; omega, fun _ => ?_, ?_⟩, ?_⟩
  · rw [qsize_put]
    exact h.ridx (by omega)
  · rw [hcnt, Int.toNat_natCast, qsize_put]
    calc (q.put b).widx = (q.widx + 1) % q.qsize := wrap_add_one hwlt
      _ = (q.ridx + (n + 1)) % q.qsize := by rw [hw, Nat.mod_add_mod, Nat.add_assoc]
  · have hat : ∀ i < n, (q.ridx + i) % q.qsize ≠ q.widx := fun i hi => by
      rw [hw]
      exact mod_add_ne hi hlt
    have hold : ∀ i ∈ List.range n, (q.put b).qbuf.getD ((q.ridx + i) % q.qsize) 0 =
        q.qbuf.getD ((q.ridx + i) % q.qsize) 0 := by
      intro i hi
      simp only [AtQueue.put, List.getD_eq_getElem?_getD]
      rw [List.getElem?_set_ne (hat i (List.mem_range.mp hi)).symm]
    have hnew : (q.put b).qbuf.getD ((q.ridx + n) % q.qsize) 0 = b := by
      rw [← hw]
      simp only [AtQueue.put, List.getD_eq_getElem?_getD]
      rw [List.getElem?_set_self hwlt, Option.getD_some]
    rw [content, content, hcnt, hn, Int.toNat_natCast, Int.toNat_natCast, List.range_succ,
      List.map_append, qsize_put]
    simp only [List.map_cons, List.map_nil]
    rw [show (q.put b).ridx = q.ridx from rfl, hnew, List.map_congr_left hold]

theorem Valid.puts (win : List UInt8) : ∀ {q : AtQueue}, q.Valid →
    q.qcnt + win.length ≤ q.qsize →
      (win.foldl AtQueue.put q).Valid ∧ (win.foldl AtQueue.put q).content = q.content ++ win := by
  induction win with
  | nil => exact fun h _ => ⟨h, by simp⟩
  | cons b win ih =>
    intro q h hroom
    rw [List.length_cons] at hroom
    obtain ⟨hv, hc⟩ := h.put (by omega) b
    have hcnt : (q.put b).qcnt = q.qcnt + 1 := rfl
    obtain ⟨hv', hc'⟩ := ih hv (by rw [hcnt, qsize_put]; omega)
    exact ⟨hv', by rw [List.foldl_cons, hc', hc, List.append_assoc]; rfl⟩

theorem Valid.pop (h : q.Valid) (hpos : 0 < q.qcnt) :
    q.pop.Valid ∧ q.content = q.element :: q.pop.content := by
  obtain ⟨n, hn⟩ := Int.eq_ofNat_of_zero_le (show 0 ≤ q.qcnt - 1 by omega)
  have hq : q.qcnt = ((n + 1 : Nat) : Int) := by omega
  have hcnt : q.pop.qcnt = (n : Int) := by simp [AtQueue.pop, hn]
  have hcap := h.cap
  have hridx : q.ridx < q.qsize := h.ridx (by omega)
  have hr : q.pop.ridx = (q.ridx + 1) % q.qsize := wrap_add_one hridx
  have hw := h.widx
  rw [hq, Int.toNat_natCast] at hw
  refine ⟨⟨by omega, by rw [qsize_pop]; omega, fun hpos => ?_, ?_⟩, ?_⟩
  · rw [hr, qsize_pop]
    exact Nat.mod_lt _ hpos
  · rw [hcnt, Int.toNat_natCast, hr, qsize_pop, Nat.mod_add_mod, Nat.add_assoc, Nat.add_comm 1 n]
    exact hw
  · rw [content, content, hq, hcnt, Int.toNat_natCast, Int.toNat_natCast,
      List.range_succ_eq_map, List.map_cons, List.map_map]
    refine congrArg₂ List.cons ?_ (List.map_congr_left fun i _ => ?_)
    · rw [Nat.add_zero, Nat.mod_eq_of_lt hridx]
      rfl
    · rw [Function.comp_apply, hr, qsize_pop, Nat.mod_add_mod, Nat.add_assoc,
        Nat.add_comm 1 i]
      rfl

/-! ## What its user reads -/

/-- The ring and the pieces to come, none of which is larger than the ring. -/
def Fed (k : AtQueue × List (List UInt8)) : Prop :=
  k.1.Valid ∧ ∀ win ∈ k.2, win.length ≤ k.1.qsize

def toCome (k : AtQueue × List (List UInt8)) : List (Option UInt8) :=
  k.1.content.map some ++ k.2.flatMap answersOf

theorem content_nil (h : q.qcnt ≤ 0) : q.content = [] := by
  rw [content, Int.toNat_of_nonpos h]
  rfl

theorem qsize_puts (win : List UInt8) : ∀ q : AtQueue, (win.foldl put q).qsize = q.qsize := by
  induction win with
  | nil => exact fun _ => rfl
  | cons b win ih => exact fun q => (ih (q.put b)).trans (qsize_put b)

/-- There is nothing to read and the callback has said so, or the ring has a byte; nothing is lost. -/
theorem fill_cases {k : AtQueue × List (List UInt8)} (h : Fed k) :
    (∃ k', k.1.fill k.2 = (false, k') ∧ Fed k' ∧
      (toCome k = [] ∧ toCome k' = [] ∨ toCome k = none :: toCome k')) ∨
    ∃ k', k.1.fill k.2 = (true, k') ∧ Fed k' ∧ toCome k' = toCome k ∧ 0 < k'.1.qcnt := by
  obtain ⟨q, feed⟩ := k
  obtain ⟨hv, hfit⟩ : q.Valid ∧ ∀ win ∈ feed, win.length ≤ q.qsize := h
  by_cases hq : q.qcnt ≤ 0
  · have hnil := content_nil hq
    rcases feed with _ | ⟨win, feed⟩
    · exact .inl ⟨(q, []), by simp [fill, hq], ⟨hv, by simp⟩, .inl (by simp [toCome, hnil])⟩
    have hrest : ∀ win ∈ feed, win.length ≤ q.qsize := fun w hw => hfit w (by simp [hw])
    rcases win with _ | ⟨b, win⟩
    · exact .inl ⟨(q, feed), by simp [fill, hq], ⟨hv, hrest⟩,
        .inr (by simp [toCome, hnil, answersOf])⟩
    · have hlen : (b :: win).length ≤ q.qsize := hfit _ (by simp)
      have hroom : ¬((b :: win).length : Int) > q.qsize - q.qcnt := by omega
      have hcnt0 : q.qcnt = 0 := le_antisymm hq hv.cnt
      obtain ⟨hv', hc'⟩ := Valid.puts (b :: win) hv (by omega)
      refine .inr ⟨((b :: win).foldl put q, feed), ?_, ⟨hv', ?_⟩, ?_, ?_⟩
      · simp only [fill]
        rw [if_pos hq, if_neg hroom]
      · simpa only [qsize_puts] using hrest
      · rw [toCome, hc', hnil]
        simp [toCome, hnil, answersOf]
      · by_contra hle
        have hnil' := content_nil (not_lt.mp hle)
        rw [hc', hnil] at hnil'
        exact absurd hnil' (by simp)
  · exact .inr ⟨(q, feed), by simp [fill, hq], ⟨hv, hfit⟩, rfl, not_le.mp hq⟩

/-- The ring gives the answers of its callback, one at a time and in their order. -/
theorem reads : source.Reads answers Fed toCome := by
  constructor
  · intro k h
    rcases fill_cases h with ⟨k', hf, hk', hn | hn⟩ | ⟨k', hf, hk', hc, hpos⟩
    · simp only [source, atQueueGet, hf]
      exact ⟨hk', by rw [hn.1, hn.2]; rfl⟩
    · simp only [source, atQueueGet, hf]
      exact ⟨hk', by rw [hn]; rfl⟩
    · obtain ⟨hv, hcons⟩ := hk'.1.pop hpos
      simp only [source, atQueueGet, hf]
      refine ⟨⟨hv, hk'.2⟩, ?_⟩
      rw [← hc, toCome, hcons]
      rfl
  · intro k h
    rcases fill_cases h with ⟨k', hf, hk', hn | hn⟩ | ⟨k', hf, hk', hc, hpos⟩
    · simp only [source, atQueuePeek, hf]
      exact ⟨hk', by rw [hn.1, hn.2]; rfl⟩
    · simp only [source, atQueuePeek, hf]
      exact ⟨hk', by rw [hn]; rfl⟩
    · obtain ⟨-, hcons⟩ := hk'.1.pop hpos
      simp only [source, atQueuePeek, hf]
      refine ⟨hk', ?_⟩
      rw [← hc, toCome, hcons]
      rfl

end AtQueue
end AtCmd
end XR806

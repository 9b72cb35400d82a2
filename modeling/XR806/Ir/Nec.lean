import Mathlib.Logic.Relation
import Mathlib.Data.List.GetD
import Mathlib.Algebra.Group.Nat.Defs

/-!
# XR806.Ir.Nec

The NEC codec of the infrared driver. A stream is a list of bytes, each with the level in bit 7 and
the number of samples for which the level was held below it. The decoder depends only on the widths
of the pulses and gaps (`decode_widths`), so that it does not matter how a run is cut into bytes,
and it gives back what the encoder was given. It returns what it has when the stream ends, so that
the code can be made of fewer than 32 bits: it is not exactly when no long gap was decoded before
the stream was cut off (`nec_codec_iff`).
-/

namespace XR806
namespace IrNec

abbrev Byte := BitVec 8
abbrev Width := BitVec 32

def pulse (b : Byte) : Bool := b &&& 0x80#8 != 0#8

def samples (b : Byte) : Width := (b &&& 0x7f#8).setWidth 32

/-! ## The clocks -/

def hoscClock24M : Nat := 24000000
def hoscClock26M : Nat := 26000000
def hoscClock40M : Nat := 40000000

/-- The thresholds of the decoder. -/
structure RxTimes where
  activeDelay : Width
  l1Min : Width
  l0Min : Width
  pmax : Width
  dmid : Width
  dmax : Width

/-- The thresholds for the values of `HAL_GetHFClock`. The source tests for 24 MHz twice. -/
def rxTimes (clk : Nat) : RxTimes :=
  if clk = hoscClock26M then ⟨(0 + 1) * 128, 80, 41, 27, 27, 55⟩
  else if clk = hoscClock24M then ⟨(0 + 1) * 128, 70, 40, 26, 26, 53⟩
  else if clk = hoscClock24M then ⟨(0 + 1) * 128, 70, 40, 26, 26, 53⟩
  else if clk = hoscClock40M then ⟨(0 + 1) * 128, 60, 34, 22, 22, 45⟩
  else ⟨0, 0, 0, 0, 0, 0⟩

/-- The bytes of the leads and the widths that the encoder uses. -/
structure TxTimes where
  leads : List Byte
  num560us : Byte
  num1680us : Byte

/-- The times of the encoder for a sample of `ts` microseconds. -/
def txTimesOf (ts : Nat) : TxTimes where
  leads := [0x80#8 ||| 0x7f#8, 0x80#8 ||| BitVec.ofNat 8 (9000 / ts - 0x7f),
    BitVec.ofNat 8 (4500 / ts)]
  num560us := BitVec.ofNat 8 (560 / ts)
  num1680us := BitVec.ofNat 8 (1680 / ts)

def txTimes (clk : Nat) : TxTimes :=
  if clk = hoscClock26M then txTimesOf 39
  else if clk = hoscClock24M then txTimesOf 43
  else if clk = hoscClock40M then txTimesOf 51
  else ⟨[], 0, 0⟩

/-! ## The decoder -/

/-- The locals of the decoder and the indices at which it has read. -/
structure Cursor where
  i : Nat
  val : Byte
  len : Width
  reads : List Nat

/-- `val = buf[i]`. -/
def Cursor.load (c : Cursor) (buf : List Byte) : Cursor :=
  { c with val := buf.getD c.i 0, reads := c.reads ++ [c.i] }

/-- The loop that finds lead '1', or lead '0' with the other level; `n` bytes are left. -/
def findLead (lvl : Bool) (min : Width) (buf : List Byte) : Nat → Cursor → Cursor
  | 0, c => c
  | n + 1, c =>
    let c := c.load buf
    if pulse c.val = lvl then
      findLead lvl min buf n { c with len := c.len + samples c.val, i := c.i + 1 }
    else if min < c.len then c
    else findLead lvl min buf n { c with len := 0#32, i := c.i + 1 }

/-- What the decoder returns, the bits it has counted and the indices at which it has read. -/
structure Decoded where
  code : BitVec 32
  bitCnt : Nat
  reads : List Nat

def errorCode : BitVec 32 := -1

/-- The loop over the bits; `n` bytes are left. -/
def dataLoop (t : RxTimes) (buf : List Byte) :
    Nat → Cursor → Bool → BitVec 32 → Nat → Decoded
  | 0, c, _, code, bitCnt => ⟨code, bitCnt, c.reads⟩
  | n + 1, c, last, code, bitCnt =>
    let c := c.load buf
    if last then
      if pulse c.val then
        dataLoop t buf n { c with len := c.len + samples c.val, i := c.i + 1 } true code bitCnt
      else if t.pmax < c.len then ⟨errorCode, bitCnt, c.reads⟩ -- Error Pulse
      else dataLoop t buf n { c with len := samples c.val, i := c.i + 1 } false code bitCnt
    else if pulse c.val then
      if t.dmax < c.len then ⟨errorCode, bitCnt, c.reads⟩ -- Error Distant
      else
        let code := if t.dmid < c.len then code ||| (1#32 <<< bitCnt) else code
        if bitCnt + 1 = 32 then ⟨code, bitCnt + 1, c.reads⟩
        else dataLoop t buf n { c with len := samples c.val, i := c.i + 1 } true code (bitCnt + 1)
    else dataLoop t buf n { c with len := c.len + samples c.val, i := c.i + 1 } false code bitCnt

/-- `IRRX_NECPacket_DeCode`. -/
def decode (clk : Nat) (buf : List Byte) : Decoded :=
  let t := rxTimes clk
  let c := findLead true t.l1Min buf buf.length ⟨0, 0, 0#32 + t.activeDelay >>> 1, []⟩
  if pulse c.val = true ∨ c.len ≤ t.l1Min then ⟨errorCode, 0, c.reads⟩
  else
    let c := findLead false t.l0Min buf (buf.length - c.i) { c with len := 0#32 }
    if pulse c.val = false ∨ c.len ≤ t.l0Min then ⟨errorCode, 0, c.reads⟩
    else dataLoop t buf (buf.length - c.i) { c with len := 0#32 } true 0 0

/-! ## The encoder -/

/-- The inner loop, `n` bits before its end. -/
def encodeByte (t : TxTimes) : Nat → Byte → List Byte
  | 0, _ => []
  | n + 1, b =>
    (if b &&& 1#8 ≠ 0#8 then [0x80#8 ||| t.num560us, t.num1680us]
      else [0x80#8 ||| t.num560us, t.num560us]) ++ encodeByte t n (b >>> 1)

/-- `IRTX_NECPacket_Code`: the bytes that it writes to `txBuff`. -/
def encode (clk : Nat) (code : BitVec 32) : List Byte :=
  let t := txTimes clk
  t.leads ++
    (encodeByte t 8 ((code >>> 24).setWidth 8) ++ (encodeByte t 8 ((code >>> 16).setWidth 8) ++
      (encodeByte t 8 ((code >>> 8).setWidth 8) ++
        (encodeByte t 8 ((code &&& 0xff#32).setWidth 8) ++
        [0x80#8 ||| t.num560us, t.num560us, 0x7f#8, 0x7f#8, 0x7f#8, 0x7f#8]))))

/-! ## Pulses and gaps -/

/-- The widths of the runs of a stream that goes on from a run of `len` samples at the level
`lvl`. The last run may not be complete. -/
def widths : Bool → Width → List Byte → List Width
  | _, len, [] => [len]
  | lvl, len, b :: s =>
    if pulse b = lvl then widths lvl (len + samples b) s else len :: widths (!lvl) (samples b) s

/-- What is behind the first complete run that is wider than `min`, among the first, the third
and so on. -/
def firstOver (min : Width) : List Width → Option (List Width)
  | x :: y :: w => if min < x then some (y :: w) else firstOver min w
  | _ => none

/-- The bits of the complete pulses and gaps. -/
def bitsOf (t : RxTimes) : List Width → BitVec 32 → Nat → Option (BitVec 32 × Nat)
  | p :: g :: q :: w, code, k =>
    if t.pmax < p then none
    else if t.dmax < g then none
    else
      let code := if t.dmid < g then code ||| (1#32 <<< k) else code
      if k + 1 = 32 then some (code, k + 1) else bitsOf t (q :: w) code (k + 1)
  | [p, _], code, k => if t.pmax < p then none else some (code, k)
  | _, code, k => some (code, k)

/-- The decoder on the widths: the code and the number of its bits. -/
def decodeWidths (t : RxTimes) (w : List Width) : Option (BitVec 32 × Nat) :=
  ((firstOver t.l1Min w).bind (firstOver t.l0Min)).bind fun d => bitsOf t d 0 0

/-- The stream as the decoder sees it: lead '1' has begun before the first byte. -/
def seen (t : RxTimes) (s : List Byte) : List Width := widths true (t.activeDelay >>> 1) s

theorem zero_le_width (x : Width) : 0#32 ≤ x := Nat.zero_le _

theorem widths_same {lvl : Bool} {b : Byte} (h : pulse b = lvl) (len : Width) (s : List Byte) :
    widths lvl len (b :: s) = widths lvl (len + samples b) s := by
  rw [widths, if_pos h]

theorem widths_other {lvl : Bool} {b : Byte} (h : pulse b ≠ lvl) (len : Width) (s : List Byte) :
    widths lvl len (b :: s) = len :: widths (!lvl) (samples b) s := by
  rw [widths, if_neg h]

/-- A run starts with no samples. -/
theorem widths_start {lvl : Bool} {b : Byte} (h : pulse b = lvl) (s : List Byte) :
    widths lvl (samples b) s = widths lvl 0#32 (b :: s) := by
  rw [widths_same h, BitVec.zero_add]

theorem widths_ne_nil (lvl : Bool) (len : Width) (s : List Byte) : widths lvl len s ≠ [] := by
  induction s generalizing len with
  | nil => exact List.cons_ne_nil _ _
  | cons b s ih =>
    by_cases hb : pulse b = lvl
    · rw [widths_same hb]
      exact ih _
    · rw [widths_other hb]
      exact List.cons_ne_nil _ _

theorem pulse_not {b : Byte} {lvl : Bool} (h : pulse b ≠ lvl) : pulse b = !lvl := by
  cases lvl <;> simpa using h

/-! ## The leads -/

theorem firstOver_skipped {min x y : Width} (h : x ≤ min) (w : List Width) :
    firstOver min (x :: y :: w) = firstOver min w := by
  rw [firstOver, if_neg (BitVec.not_lt.mpr h)]

theorem firstOver_found {min x y : Width} (h : min < x) (w : List Width) :
    firstOver min (x :: y :: w) = some (y :: w) := by
  rw [firstOver, if_pos h]

/-- A run that is too short is left out together with the one behind it. -/
theorem firstOver_skip {min : Width} (lvl : Bool) (s : List Byte) :
    ∀ {len : Width} (m : Width), len ≤ min →
      firstOver min (len :: widths (!lvl) m s) = firstOver min (widths lvl 0#32 s) := by
  induction s with
  | nil =>
    intro len m hlen
    rw [widths, widths, firstOver_skipped hlen]
    rfl
  | cons b s ih =>
    intro len m hlen
    by_cases hb : pulse b = lvl
    · have hb' : pulse b ≠ !lvl := by simp [hb]
      rw [widths_other hb', widths_same hb, Bool.not_not, BitVec.zero_add,
        firstOver_skipped hlen]
    · rw [widths_same (pulse_not hb), widths_other hb, ih _ hlen, ih _ (zero_le_width min)]

theorem getD_eq_getElem {buf : List Byte} {i : Nat} (h : i < buf.length) :
    buf.getD i 0 = buf[i] := by
  simp [h]

/-- The loop has left before the end, at the first byte of the run that follows the lead. -/
structure Found (lvl : Bool) (min : Width) (buf : List Byte) (w : Option (List Width))
    (c : Cursor) : Prop where
  inside : c.i < buf.length
  level : pulse c.val = !lvl
  wide : min < c.len
  rest : w = some (widths (!lvl) 0#32 (buf.drop c.i))

/-- The loop has come to the end. -/
structure Missed (lvl : Bool) (min : Width) (w : Option (List Width)) (c : Cursor) : Prop where
  level : pulse c.val = lvl ∨ c.len ≤ min
  rest : w = none

theorem findLead_spec (lvl : Bool) (min : Width) {buf : List Byte} {n : Nat} {c : Cursor}
    (hn : c.i + n = buf.length) (hz : n = 0 → pulse c.val = lvl ∨ c.len ≤ min) :
    let w := firstOver min (widths lvl c.len (buf.drop c.i))
    Found lvl min buf w (findLead lvl min buf n c) ∨
      Missed lvl min w (findLead lvl min buf n c) := by
  induction n generalizing c with
  | zero =>
    have hd : buf.drop c.i = [] := List.drop_eq_nil_of_le (by omega)
    exact .inr ⟨hz rfl, by rw [hd]; rfl⟩
  | succ n ih =>
    have hi : c.i < buf.length := by omega
    have hd : buf.drop c.i = buf[c.i] :: buf.drop (c.i + 1) := List.drop_eq_getElem_cons hi
    have hn' : c.i + 1 + n = buf.length := by omega
    rw [findLead]
    simp only [Cursor.load, getD_eq_getElem hi]
    by_cases hb : pulse buf[c.i] = lvl
    · rw [if_pos hb, hd, widths_same hb]
      exact ih (c := ⟨_, _, _, _⟩) hn' fun _ => .inl hb
    · rw [if_neg hb]
      by_cases hm : min < c.len
      · rw [if_pos hm]
        refine .inl ⟨hi, pulse_not hb, hm, ?_⟩
        rw [hd, widths_other hb, widths_start (pulse_not hb)]
        rcases hw : widths (!lvl) 0#32 (buf[c.i] :: buf.drop (c.i + 1)) with _ | ⟨y, w⟩
        · exact absurd hw (widths_ne_nil _ _ _)
        · exact firstOver_found hm _
      · rw [if_neg hm, hd, widths_other hb, firstOver_skip lvl _ _ (BitVec.not_lt.mp hm)]
        exact ih (c := ⟨_, _, _, _⟩) hn' fun _ => .inr (zero_le_width min)

/-! ## The bits -/

/-- The decoder's outcome is that of the widths. -/
def Agrees : Option (BitVec 32 × Nat) → Decoded → Prop
  | none, d => d.code = errorCode
  | some (code, k), d => d.code = code ∧ d.bitCnt = k

theorem bitsOf_wide {t : RxTimes} {p : Width} {w : List Width} (h : t.pmax < p) (hw : w ≠ [])
    (code : BitVec 32) (k : Nat) : bitsOf t (p :: w) code k = none := by
  match w, hw with
  | [g], _ => rw [bitsOf, if_pos h]
  | g :: q :: w, _ => rw [bitsOf, if_pos h]

/-- The loop is inside a pulse, or in a gap behind a pulse `p`. -/
theorem dataLoop_spec {t : RxTimes} {buf : List Byte} {n : Nat} :
    ∀ {c : Cursor} (code : BitVec 32) (k : Nat), c.i + n = buf.length →
      (∀ r, bitsOf t (widths true c.len (buf.drop c.i)) code k = r →
        Agrees r (dataLoop t buf n c true code k)) ∧
      (∀ p r, p ≤ t.pmax → bitsOf t (p :: widths false c.len (buf.drop c.i)) code k = r →
        Agrees r (dataLoop t buf n c false code k)) := by
  induction n with
  | zero =>
    intro c code k hn
    have hd : buf.drop c.i = [] := List.drop_eq_nil_of_le (by omega)
    rw [hd]
    refine ⟨fun r hr => ?_, fun p r hp hr => ?_⟩
    · subst hr
      exact ⟨rfl, rfl⟩
    · rw [widths, bitsOf, if_neg (BitVec.not_lt.mpr hp)] at hr
      subst hr
      exact ⟨rfl, rfl⟩
  | succ n ih =>
    intro c code k hn
    have hi : c.i < buf.length := by omega
    have hd : buf.drop c.i = buf[c.i] :: buf.drop (c.i + 1) := List.drop_eq_getElem_cons hi
    have hn' : c.i + 1 + n = buf.length := by omega
    rw [hd]
    refine ⟨fun r hr => ?_, fun p r hp hr => ?_⟩
    · rw [dataLoop]
      simp only [Cursor.load, getD_eq_getElem hi, if_true]
      by_cases hb : pulse buf[c.i] = true
      · rw [widths_same hb] at hr
        rw [if_pos hb]
        exact (ih (c := ⟨_, _, _, _⟩) code k hn').1 r hr
      · rw [if_neg hb]
        rw [widths_other hb] at hr
        by_cases hp : t.pmax < c.len
        · rw [if_pos hp]
          rw [bitsOf_wide hp (widths_ne_nil _ _ _)] at hr
          subst hr
          rfl
        · rw [if_neg hp]
          exact (ih (c := ⟨_, _, _, _⟩) code k hn').2 _ r (BitVec.not_lt.mp hp) hr
    · rw [dataLoop]
      simp only [Cursor.load, getD_eq_getElem hi, if_false, Bool.false_eq_true]
      by_cases hb : pulse buf[c.i] = true
      · rw [if_pos hb]
        have hb' : pulse buf[c.i] ≠ false := by simp [hb]
        rw [widths_other hb', Bool.not_false] at hr
        rcases hw : widths true (samples buf[c.i]) (buf.drop (c.i + 1)) with _ | ⟨q, w⟩
        · exact absurd hw (widths_ne_nil _ _ _)
        · rw [hw, bitsOf, if_neg (BitVec.not_lt.mpr hp)] at hr
          by_cases hg : t.dmax < c.len
          · rw [if_pos hg] at hr
            rw [if_pos hg]
            subst hr
            rfl
          · rw [if_neg hg] at hr
            rw [if_neg hg]
            dsimp only at hr ⊢
            by_cases hk : k + 1 = 32
            · rw [if_pos hk] at hr
              rw [if_pos hk]
              subst hr
              exact ⟨rfl, rfl⟩
            · rw [if_neg hk, ← hw] at hr
              rw [if_neg hk]
              exact (ih (c := ⟨_, _, _, _⟩) _ (k + 1) hn').1 r hr
      · have hb' : pulse buf[c.i] = false := Bool.not_eq_true _ ▸ hb
        rw [if_neg hb]
        rw [widths_same hb'] at hr
        exact (ih (c := ⟨_, _, _, _⟩) code k hn').2 p r hp hr

theorem Missed.gives {lvl : Bool} {min : Width} {w : Option (List Width)} {c : Cursor}
    (h : Missed lvl min w c) (d : Decoded) :
    (if pulse c.val = lvl ∨ c.len ≤ min then ⟨errorCode, 0, c.reads⟩ else d).code = errorCode := by
  rw [if_pos h.level]

theorem Found.gives {lvl : Bool} {min : Width} {buf : List Byte} {w : Option (List Width)}
    {c : Cursor} (h : Found lvl min buf w c) (d : Decoded) :
    (if pulse c.val = lvl ∨ c.len ≤ min then ⟨errorCode, 0, c.reads⟩ else d) = d := by
  refine if_neg ?_
  rintro (hl | hw)
  · rw [h.level] at hl
    exact Bool.not_eq_self lvl |>.mp hl
  · exact absurd h.wide (BitVec.not_lt.mpr hw)

theorem decode_nil (clk : Nat) : (decode clk []).code = errorCode := by
  simp [decode, findLead, pulse]

/-- What the decoder returns depends on the widths of the pulses and gaps only. -/
theorem decode_widths (clk : Nat) (buf : List Byte) :
    Agrees (decodeWidths (rxTimes clk) (seen (rxTimes clk) buf)) (decode clk buf) := by
  rcases Nat.eq_zero_or_pos buf.length with hz | hpos
  · rw [List.eq_nil_of_length_eq_zero hz]
    exact decode_nil clk
  · rw [decode, decodeWidths, seen]
    dsimp only
    generalize rxTimes clk = t
    rw [BitVec.zero_add]
    rcases findLead_spec true t.l1Min (c := ⟨0, 0, t.activeDelay >>> 1, []⟩)
      (Nat.zero_add buf.length) (fun h => absurd h (by omega)) with hf | hm
    · rw [hf.gives]
      rw [List.drop_zero] at hf
      rw [hf.rest, Option.bind_some]
      generalize findLead true t.l1Min buf buf.length ⟨0, 0, t.activeDelay >>> 1, []⟩ = c at hf
      have hn : c.i + (buf.length - c.i) = buf.length := by have := hf.inside; omega
      rcases findLead_spec false t.l0Min (c := { c with len := 0#32 }) hn
        (fun _ => .inl hf.level) with hg | hm
      · rw [hg.gives]
        have hr := hg.rest
        dsimp only at hr
        rw [Bool.not_true, hr, Option.bind_some]
        generalize findLead false t.l0Min buf (buf.length - c.i) _ = e at hg
        have hn : e.i + (buf.length - e.i) = buf.length := by have := hg.inside; omega
        exact (dataLoop_spec (c := { e with len := 0#32 }) 0 0 hn).1 _ rfl
      · have hr := hm.rest
        dsimp only at hr
        rw [Bool.not_true, hr]
        exact hm.gives _
    · rw [List.drop_zero] at hm
      rw [hm.rest]
      exact hm.gives _

/-! ## The reads -/

structure Inside (buf : List Byte) (c : Cursor) : Prop where
  bound : c.i ≤ buf.length
  reads : ∀ i ∈ c.reads, i < buf.length

/-- One turn of a loop reads at `i`. -/
theorem Inside.load {buf : List Byte} {c : Cursor} (h : Inside buf c) (hi : c.i < buf.length) :
    ∀ i ∈ (c.load buf).reads, i < buf.length := by
  intro i hm
  rcases List.mem_append.mp hm with hm | hm
  · exact h.reads i hm
  · rw [List.mem_singleton.mp hm]
    exact hi

theorem Inside.next {buf : List Byte} {c : Cursor} (h : Inside buf c) (hi : c.i < buf.length)
    (len : Width) : Inside buf { c.load buf with len := len, i := c.i + 1 } :=
  ⟨hi, h.load hi⟩

theorem Inside.restart {buf : List Byte} {c : Cursor} (h : Inside buf c) :
    Inside buf { c with len := 0#32 } :=
  ⟨h.bound, h.reads⟩

theorem findLead_inside (lvl : Bool) (min : Width) {buf : List Byte} {n : Nat} :
    ∀ {c : Cursor}, c.i + n = buf.length → Inside buf c →
      Inside buf (findLead lvl min buf n c) := by
  induction n with
  | zero => exact fun _ h => h
  | succ n ih =>
    intro c hn h
    have hi : c.i < buf.length := by omega
    have hn' : c.i + 1 + n = buf.length := by omega
    rw [findLead]
    split
    · exact ih hn' (h.next hi _)
    split
    · exact ⟨h.bound, h.load hi⟩
    · exact ih hn' (h.next hi _)

theorem dataLoop_inside {t : RxTimes} {buf : List Byte} {n : Nat} :
    ∀ {c : Cursor} {last : Bool} {code : BitVec 32} {k : Nat}, c.i + n = buf.length →
      Inside buf c → ∀ i ∈ (dataLoop t buf n c last code k).reads, i < buf.length := by
  induction n with
  | zero => exact fun _ h => h.reads
  | succ n ih =>
    intro c last code k hn h
    have hi : c.i < buf.length := by omega
    have hn' : c.i + 1 + n = buf.length := by omega
    rw [dataLoop]
    dsimp only
    repeat' split
    all_goals first
      | exact h.load hi
      | exact ih hn' (h.next hi _)

theorem decode_inside (clk : Nat) (buf : List Byte) :
    ∀ i ∈ (decode clk buf).reads, i < buf.length := by
  have hs : ∀ len, Inside buf ⟨0, 0, len, []⟩ := fun _ =>
    ⟨Nat.zero_le _, List.forall_mem_nil _⟩
  rw [decode]
  dsimp only
  have hc := findLead_inside true (rxTimes clk).l1Min (Nat.zero_add buf.length)
    (hs (0#32 + (rxTimes clk).activeDelay >>> 1))
  split
  · exact hc.reads
  have he := findLead_inside false (rxTimes clk).l0Min
    (Nat.add_sub_cancel' hc.restart.bound) hc.restart
  split
  · exact he.reads
  · exact dataLoop_inside (Nat.add_sub_cancel' he.restart.bound) he.restart

/-! ## How a run is cut into bytes -/

/-- Two bytes of one level become one. -/
inductive Merged : List Byte → List Byte → Prop
  | intro (front back : List Byte) {a b c : Byte} (ha : pulse a = pulse c) (hb : pulse b = pulse c)
      (hc : samples a + samples b = samples c) :
      Merged (front ++ a :: b :: back) (front ++ c :: back)

/-- `t` has the runs of `s`, cut into other bytes. -/
abbrev Regrouped : List Byte → List Byte → Prop := Relation.EqvGen Merged

theorem widths_merged {s t : List Byte} (h : Merged s t) :
    ∀ lvl len, widths lvl len s = widths lvl len t := by
  obtain ⟨front, back, ha, hb, hc⟩ := h
  rename_i a b c
  induction front with
  | nil =>
    intro lvl len
    by_cases hl : pulse c = lvl
    · rw [List.nil_append, List.nil_append, widths_same (ha.trans hl), widths_same (hb.trans hl),
        widths_same hl, BitVec.add_assoc, hc]
    · rw [List.nil_append, List.nil_append, widths_other (by rwa [ha]), widths_other hl,
        widths_same (hb.trans (pulse_not hl)), hc]
  | cons x front ih =>
    intro lvl len
    by_cases hl : pulse x = lvl
    · rw [List.cons_append, List.cons_append, widths_same hl, widths_same hl]
      exact ih _ _
    · rw [List.cons_append, List.cons_append, widths_other hl, widths_other hl, ih]

theorem widths_regrouped {s t : List Byte} (h : Regrouped s t) :
    ∀ lvl len, widths lvl len s = widths lvl len t := by
  induction h with
  | rel _ _ h => exact widths_merged h
  | refl _ => exact fun _ _ => rfl
  | symm _ _ _ ih => exact fun lvl len => (ih lvl len).symm
  | trans _ _ _ _ _ ih₁ ih₂ => exact fun lvl len => (ih₁ lvl len).trans (ih₂ lvl len)

theorem Agrees.code {r : Option (BitVec 32 × Nat)} {d : Decoded} (h : Agrees r d) :
    d.code = (r.map Prod.fst).getD errorCode := by
  match r, h with
  | none, h => exact h
  | some _, h => exact h.1

theorem decode_regrouped (clk : Nat) {s t : List Byte} (h : Regrouped s t) :
    (decode clk s).code = (decode clk t).code := by
  rw [(decode_widths clk s).code, (decode_widths clk t).code, seen, seen, widths_regrouped h]

/-! ## Streams that are cut off -/

/-- A gap behind each of the pulses. -/
def flat (l : List (Width × Width)) : List Width := l.flatMap fun x => [x.1, x.2]

/-- The bits from bit `k` on. -/
def codeFrom : List Bool → Nat → BitVec 32 → BitVec 32
  | [], _, code => code
  | b :: l, k, code => codeFrom l (k + 1) (if b then code ||| (1#32 <<< k) else code)

/-- A pulse that is not over, or a gap that is not over behind a pulse. -/
def Ending (t : RxTimes) (w : List Width) : Prop :=
  ∃ p, w = [p] ∨ p ≤ t.pmax ∧ ∃ g, w = [p, g]

/-- `w` is a pulse and a gap for each of `bits`, and an ending. -/
structure Short (t : RxTimes) (w : List Width) (bits : List (Width × Width))
    (ending : List Width) : Prop where
  eq : w = flat bits ++ ending
  bits_le : ∀ x ∈ bits, x.1 ≤ t.pmax ∧ x.2 ≤ t.dmax
  ending : Ending t ending

/-- The stream has both leads and ends before there are 32 bits. One of the bits is '1'. -/
structure CutOff (t : RxTimes) (w : List Width) (quiet : List (Width × Width)) (lead1 : Width)
    (noise : List (Width × Width)) (lead0 : Width) (data : List Width)
    (bits : List (Width × Width)) (ending : List Width) : Prop where
  eq : w = flat quiet ++ lead1 :: (flat noise ++ lead0 :: data)
  quiet_le : ∀ x ∈ quiet, x.1 ≤ t.l1Min
  lead1_gt : t.l1Min < lead1
  noise_le : ∀ x ∈ noise, x.1 ≤ t.l0Min
  lead0_gt : t.l0Min < lead0
  short : Short t data bits ending
  few : bits.length < 32
  one : ∃ x ∈ bits, t.dmid < x.2

def Truncated (t : RxTimes) (s : List Byte) : Prop :=
  ∃ quiet lead1 noise lead0 data bits ending,
    CutOff t (seen t s) quiet lead1 noise lead0 data bits ending

theorem firstOver_eq_some_iff {min : Width} {w d : List Width} :
    firstOver min w = some d ↔
      d ≠ [] ∧ ∃ quiet x, w = flat quiet ++ x :: d ∧ (∀ y ∈ quiet, y.1 ≤ min) ∧ min < x := by
  induction w using firstOver.induct min with
  | case1 x y w hx =>
    rw [firstOver_found hx]
    constructor
    · rintro ⟨⟩
      exact ⟨List.cons_ne_nil _ _, [], x, rfl, List.forall_mem_nil _, hx⟩
    · rintro ⟨-, quiet, z, hw, hq, -⟩
      rcases quiet with _ | ⟨⟨a, b⟩, quiet⟩
      · exact congrArg some (List.cons.inj hw).2
      · have hax : x = a := (List.cons.inj hw).1
        exact absurd hx (BitVec.not_lt.mpr (hax ▸ hq _ List.mem_cons_self))
  | case2 x y w hx ih =>
    have hx := BitVec.not_lt.mp hx
    rw [firstOver_skipped hx, ih]
    refine and_congr_right fun hd => ⟨?_, ?_⟩
    · rintro ⟨quiet, z, rfl, hq, hz⟩
      exact ⟨(x, y) :: quiet, z, rfl, List.forall_mem_cons.mpr ⟨hx, hq⟩, hz⟩
    · rintro ⟨quiet, z, hw, hq, hz⟩
      rcases quiet with _ | ⟨⟨a, b⟩, quiet⟩
      · have hxz : x = z := (List.cons.inj hw).1
        exact absurd hz (BitVec.not_lt.mpr (hxz ▸ hx))
      · refine ⟨quiet, z, ?_, (List.forall_mem_cons.mp hq).2, hz⟩
        exact (List.cons.inj (List.cons.inj hw).2).2
  | case3 w hw =>
    have hn : firstOver min w = none := by
      rw [firstOver]
      exact hw
    rw [hn]
    constructor
    · rintro ⟨⟩
    · rintro ⟨hd, quiet, x, rfl, -, -⟩
      obtain ⟨y, d, rfl⟩ := List.exists_cons_of_ne_nil hd
      rcases quiet with _ | ⟨⟨a, b⟩, quiet⟩
      · exact (hw x y d rfl).elim
      · exact (hw a b _ rfl).elim

/-- The code with bit `k` for the gap `g`. -/
def withBit (t : RxTimes) (g : Width) (code : BitVec 32) (k : Nat) : BitVec 32 :=
  if t.dmid < g then code ||| (1#32 <<< k) else code

theorem bitsOf_step {t : RxTimes} {p g q : Width} {w : List Width} (hp : p ≤ t.pmax)
    (hg : g ≤ t.dmax) (code : BitVec 32) (k : Nat) :
    bitsOf t (p :: g :: q :: w) code k =
      if k + 1 = 32 then some (withBit t g code k, k + 1)
      else bitsOf t (q :: w) (withBit t g code k) (k + 1) := by
  rw [bitsOf, if_neg (BitVec.not_lt.mpr hp), if_neg (BitVec.not_lt.mpr hg)]
  rfl

theorem bitsOf_ending {t : RxTimes} {w : List Width} (h : Ending t w) (code : BitVec 32) (k : Nat) :
    bitsOf t w code k = some (code, k) := by
  obtain ⟨p, rfl | ⟨hp, g, rfl⟩⟩ := h
  · rfl
  · rw [bitsOf, if_neg (BitVec.not_lt.mpr hp)]

theorem Ending.ne_nil {t : RxTimes} {w : List Width} (h : Ending t w) : w ≠ [] := by
  obtain ⟨p, rfl | ⟨-, g, rfl⟩⟩ := h <;> exact List.cons_ne_nil _ _

def ones (t : RxTimes) (bits : List (Width × Width)) : List Bool :=
  bits.map fun x => decide (t.dmid < x.2)

theorem codeFrom_ones (t : RxTimes) (x : Width × Width) (bits : List (Width × Width)) (k : Nat)
    (code : BitVec 32) : codeFrom (ones t (x :: bits)) k code =
      codeFrom (ones t bits) (k + 1) (withBit t x.2 code k) := by
  simp only [ones, List.map_cons, codeFrom, withBit, decide_eq_true_eq]

theorem Short.bitsOf {t : RxTimes} {bits : List (Width × Width)} :
    ∀ {w ending : List Width} (code : BitVec 32) {k : Nat}, Short t w bits ending →
      k + bits.length < 32 →
      bitsOf t w code k = some (codeFrom (ones t bits) k code, k + bits.length) := by
  induction bits with
  | nil =>
    intro w ending code k h _
    rw [h.eq]
    exact bitsOf_ending h.ending code k
  | cons x bits ih =>
    intro w ending code k h hk
    obtain ⟨⟨hp, hg⟩, hb⟩ := List.forall_mem_cons.mp h.bits_le
    have hk : k + 1 + bits.length < 32 := by rw [List.length_cons] at hk; omega
    have ih := ih (withBit t x.2 code k) ⟨rfl, hb, h.ending⟩ hk
    rcases hw : flat bits ++ ending with _ | ⟨q, w'⟩
    · exact absurd (List.append_eq_nil_iff.mp hw).2 h.ending.ne_nil
    · have he : w = x.1 :: x.2 :: q :: w' := by rw [h.eq, ← hw]; rfl
      rw [he, bitsOf_step hp hg, if_neg (by omega), ← hw, ih, List.length_cons, codeFrom_ones,
        Nat.add_right_comm]
      rfl

theorem bitsOf_short {t : RxTimes} {w : List Width} {code : BitVec 32} {k : Nat}
    {r : BitVec 32 × Nat} (hk : k < 32) (hw : w ≠ []) (h : bitsOf t w code k = some r) :
    r.2 = 32 ∨ ∃ bits ending, Short t w bits ending ∧ k + bits.length < 32 := by
  induction w, code, k using bitsOf.induct t with
  | case1 p g q w code k hp => rw [bitsOf, if_pos hp] at h; cases h
  | case2 p g q w code k hp hg => rw [bitsOf, if_neg hp, if_pos hg] at h; cases h
  | case3 p g q w code k hp hg hl =>
    rw [bitsOf_step (BitVec.not_lt.mp hp) (BitVec.not_lt.mp hg), if_pos hl] at h
    cases h
    exact .inl hl
  | case4 p g q w code k hp hg _ hl ih =>
    rw [bitsOf_step (BitVec.not_lt.mp hp) (BitVec.not_lt.mp hg), if_neg hl] at h
    rcases ih (by omega) (List.cons_ne_nil _ _) h with hr | ⟨bits, ending, hs, hb⟩
    · exact .inl hr
    · refine .inr ⟨(p, g) :: bits, ending, ⟨?_, ?_, hs.ending⟩, ?_⟩
      · rw [hs.eq]
        rfl
      · exact List.forall_mem_cons.mpr ⟨⟨BitVec.not_lt.mp hp, BitVec.not_lt.mp hg⟩, hs.bits_le⟩
      · rw [List.length_cons]
        omega
  | case5 p g code k hp => rw [bitsOf, if_pos hp] at h; cases h
  | case6 p g code k hp =>
    exact .inr ⟨[], [p, g], ⟨rfl, List.forall_mem_nil _, p, .inr ⟨BitVec.not_lt.mp hp, g, rfl⟩⟩, hk⟩
  | case7 w code k h₁ h₂ =>
    match w, hw with
    | [p], _ => exact .inr ⟨[], [p], ⟨rfl, List.forall_mem_nil _, p, .inl rfl⟩, hk⟩
    | [p, g], _ => exact (h₂ p g rfl).elim
    | p :: g :: q :: w, _ => exact (h₁ p g q w rfl).elim

theorem getLsbD_bit {i : Nat} (hi : i < 32) (k : Nat) :
    (1#32 <<< k).getLsbD i = decide (i = k) := by
  rw [BitVec.getLsbD_shiftLeft, BitVec.getLsbD_one, Bool.eq_iff_iff]
  simp only [Bool.and_eq_true, decide_eq_true_eq, Bool.not_eq_true', decide_eq_false_iff_not]
  omega

theorem codeFrom_getLsbD {i : Nat} (hi : i < 32) (l : List Bool) :
    ∀ (k : Nat) (code : BitVec 32), (codeFrom l k code).getLsbD i =
      (code.getLsbD i || (decide (k ≤ i) && l.getD (i - k) false)) := by
  induction l with
  | nil => simp [codeFrom]
  | cons b l ih =>
    intro k code
    have hb : (if b then code ||| (1#32 <<< k) else code).getLsbD i =
        (code.getLsbD i || (b && decide (i = k))) := by
      cases b
      · simp
      · simp only [if_true, BitVec.getLsbD_or, getLsbD_bit hi, Bool.true_and]
    rw [codeFrom, ih, hb]
    rcases Nat.lt_trichotomy i k with hk | rfl | hk
    · simp [Nat.ne_of_lt hk, Nat.not_le_of_lt hk, Nat.not_le_of_lt (Nat.lt_succ_of_lt hk)]
    · have hs : ¬ i + 1 ≤ i := Nat.not_succ_le_self i
      simp [hs]
    · have hs : i - k = i - (k + 1) + 1 := by omega
      rw [hs, List.getD_cons_succ]
      simp [Nat.ne_of_gt hk, Nat.le_of_lt hk, Nat.succ_le_of_lt hk]

theorem zero_getLsbD (i : Nat) : (0 : BitVec 32).getLsbD i = false := BitVec.getLsbD_zero

/-- A code that is not complete is not the error code. -/
theorem codeFrom_ne_error {l : List Bool} (h : l.length < 32) : codeFrom l 0 0 ≠ errorCode := by
  intro he
  have hb : (codeFrom l 0 0).getLsbD 31 = errorCode.getLsbD 31 := by rw [he]
  have hl : l.getD 31 false = false := List.getD_eq_default _ _ (by omega)
  rw [codeFrom_getLsbD (Nat.lt_add_one 31), zero_getLsbD, hl] at hb
  exact absurd hb (by decide)

/-- It is not 0 if one of its bits is '1'. -/
theorem codeFrom_eq_zero_iff {l : List Bool} (h : l.length < 32) :
    codeFrom l 0 0 = 0 ↔ true ∉ l := by
  constructor
  · intro hz hm
    obtain ⟨i, hi, hb⟩ := List.getElem_of_mem hm
    have hd := codeFrom_getLsbD (Nat.lt_trans hi h) l 0 0
    rw [hz, zero_getLsbD, Nat.sub_zero, List.getD_eq_getElem _ _ hi, hb] at hd
    simp at hd
  · intro hm
    refine BitVec.eq_of_getLsbD_eq fun i hi => ?_
    rw [codeFrom_getLsbD hi, zero_getLsbD]
    rcases Nat.lt_or_ge i l.length with hl | hl
    · have hb : l[i] = false := Bool.not_eq_true _ ▸ fun hb => hm (hb ▸ List.getElem_mem hl)
      rw [Nat.sub_zero, List.getD_eq_getElem _ _ hl, hb]
      rfl
    · rw [Nat.sub_zero, List.getD_eq_default _ _ hl]
      rfl

theorem true_mem_ones {t : RxTimes} {bits : List (Width × Width)} :
    true ∈ ones t bits ↔ ∃ x ∈ bits, t.dmid < x.2 := by
  simp [ones]

/-- The result is neither an error, nor 0, nor made of 32 bits exactly when the stream was cut
off. -/
theorem decodeWidths_short_iff {t : RxTimes} {s : List Byte} :
    (∃ code k, decodeWidths t (seen t s) = some (code, k) ∧ code ≠ errorCode ∧ code ≠ 0 ∧ k ≠ 32) ↔
      Truncated t s := by
  constructor
  · rintro ⟨code, k, hd, -, hz, hk⟩
    obtain ⟨d, hl, hb⟩ := Option.bind_eq_some_iff.mp hd
    obtain ⟨d', hl₁, hl₀⟩ := Option.bind_eq_some_iff.mp hl
    obtain ⟨-, quiet, lead1, hw, hq, h₁⟩ := firstOver_eq_some_iff.mp hl₁
    obtain ⟨hn, noise, lead0, hw', hno, h₀⟩ := firstOver_eq_some_iff.mp hl₀
    obtain ⟨bits, ending, hs, hf⟩ := (bitsOf_short (by omega) hn hb).resolve_left hk
    rw [Nat.zero_add] at hf
    have hc := Short.bitsOf 0 hs (by omega : 0 + bits.length < 32)
    rw [hb] at hc
    have hone : true ∈ ones t bits := by
      refine Decidable.byContradiction fun hno => ?_
      refine hz ((congrArg Prod.fst (Option.some.inj hc)).trans ?_)
      exact (codeFrom_eq_zero_iff (by rwa [ones, List.length_map])).mpr hno
    exact ⟨quiet, lead1, noise, lead0, d, bits, ending, by rw [hw, hw'], hq, h₁, hno, h₀, hs, hf,
      true_mem_ones.mp hone⟩
  · rintro ⟨quiet, lead1, noise, lead0, d, bits, ending, h⟩
    have hd : d ≠ [] := by
      rw [h.short.eq]
      exact fun hn => h.short.ending.ne_nil (List.append_eq_nil_iff.mp hn).2
    have hl : (ones t bits).length < 32 := by rw [ones, List.length_map]; exact h.few
    have hn : flat noise ++ lead0 :: d ≠ [] :=
      List.append_ne_nil_of_right_ne_nil _ (List.cons_ne_nil _ _)
    have hl₁ := firstOver_eq_some_iff.mpr ⟨hn, quiet, lead1, h.eq, h.quiet_le, h.lead1_gt⟩
    have hl₀ := firstOver_eq_some_iff.mpr ⟨hd, noise, lead0, rfl, h.noise_le, h.lead0_gt⟩
    have hb := Short.bitsOf 0 h.short (by have := h.few; omega : 0 + bits.length < 32)
    refine ⟨codeFrom (ones t bits) 0 0, 0 + bits.length, ?_, codeFrom_ne_error hl, ?_, ?_⟩
    · rw [decodeWidths, hl₁, Option.bind_some, hl₀, Option.bind_some, hb]
    · rw [Ne, codeFrom_eq_zero_iff hl, not_not]
      exact true_mem_ones.mpr h.one
    · have := h.few
      omega

/-! ## What the encoder writes is decoded -/

/-- The `n` lowest bits, the lowest first. -/
def lowBits : Nat → Byte → List Bool
  | 0, _ => []
  | n + 1, b => decide (b &&& 1#8 ≠ 0#8) :: lowBits n (b >>> 1)

/-- The bits in the order in which they are sent. -/
def sentBits (code : BitVec 32) : List Bool :=
  lowBits 8 ((code >>> 24).setWidth 8) ++ (lowBits 8 ((code >>> 16).setWidth 8) ++
    (lowBits 8 ((code >>> 8).setWidth 8) ++ lowBits 8 ((code &&& 0xff#32).setWidth 8)))

def cells (t : TxTimes) (l : List Bool) : List Byte :=
  l.flatMap fun b => [0x80#8 ||| t.num560us, if b then t.num1680us else t.num560us]

theorem encodeByte_eq (t : TxTimes) (n : Nat) :
    ∀ b, encodeByte t n b = cells t (lowBits n b) := by
  induction n with
  | zero => exact fun _ => rfl
  | succ n ih =>
    intro b
    rw [encodeByte, ih]
    by_cases hb : b &&& 1#8 ≠ 0#8
    · rw [if_pos hb, lowBits, decide_eq_true hb]
      rfl
    · rw [if_neg hb, lowBits, decide_eq_false hb]
      rfl

/-- The end bit and the last gap. -/
def endBytes (t : TxTimes) : List Byte :=
  [0x80#8 ||| t.num560us, t.num560us, 0x7f#8, 0x7f#8, 0x7f#8, 0x7f#8]

theorem encode_eq (clk : Nat) (code : BitVec 32) :
    encode clk code =
      (txTimes clk).leads ++ (cells (txTimes clk) (sentBits code) ++ endBytes (txTimes clk)) := by
  simp only [encode, encodeByte_eq, sentBits, cells, List.flatMap_append, List.append_assoc]
  rfl

/-- The times of the encoder are within the thresholds of the decoder. -/
structure Matched (r : RxTimes) (t : TxTimes) (a b c : Byte) : Prop where
  leads : t.leads = [a, b, c]
  pulses : pulse a = true ∧ pulse b = true ∧ pulse (0x80#8 ||| t.num560us) = true
  gaps : pulse c = false ∧ pulse t.num560us = false ∧ pulse t.num1680us = false
  lead1 : r.l1Min < r.activeDelay >>> 1 + samples a + samples b
  lead0 : r.l0Min < samples c
  pmax : samples (0x80#8 ||| t.num560us) ≤ r.pmax
  zero : samples t.num560us ≤ r.dmid ∧ samples t.num560us ≤ r.dmax
  one : r.dmid < samples t.num1680us ∧ samples t.num1680us ≤ r.dmax

def hfClocks : List Nat := [hoscClock24M, hoscClock26M, hoscClock40M]

theorem matched_of_mem {clk : Nat} (h : clk ∈ hfClocks) :
    ∃ a b c, Matched (rxTimes clk) (txTimes clk) a b c := by
  rcases List.mem_cons.mp h with rfl | h
  · refine ⟨_, _, _, rfl, ?_, ?_, ?_, ?_, ?_, ?_, ?_⟩ <;> decide
  rcases List.mem_cons.mp h with rfl | h
  · refine ⟨_, _, _, rfl, ?_, ?_, ?_, ?_, ?_, ?_, ?_⟩ <;> decide
  · rw [List.mem_singleton.mp h]
    refine ⟨_, _, _, rfl, ?_, ?_, ?_, ?_, ?_, ?_, ?_⟩ <;> decide

/-- A pulse and a gap in front of another pulse. -/
theorem widths_cell {p g q : Byte} {s : List Byte} (hp : pulse p = true) (hg : pulse g = false)
    (hq : pulse q = true) :
    widths true 0#32 (p :: g :: q :: s) = samples p :: samples g :: widths true 0#32 (q :: s) := by
  have hg' : pulse g ≠ true := by rw [hg]; exact Bool.false_ne_true
  have hq' : pulse q ≠ false := by rw [hq]; exact Bool.false_ne_true.symm
  rw [widths_same hp, BitVec.zero_add, widths_other hg', Bool.not_true, widths_other hq',
    Bool.not_false, widths_start hq]

/-- The pulse and the gap of each bit. -/
def sentWidths (t : TxTimes) (l : List Bool) : List (Width × Width) :=
  l.map fun b =>
    (samples (0x80#8 ||| t.num560us), samples (if b then t.num1680us else t.num560us))

theorem cells_cons (t : TxTimes) (l : List Bool) :
    ∃ s, cells t l ++ endBytes t = (0x80#8 ||| t.num560us) :: s := by
  cases l with
  | nil => exact ⟨_, rfl⟩
  | cons b l => exact ⟨_, rfl⟩

theorem Matched.widths_cells {r : RxTimes} {t : TxTimes} {a b c : Byte} (h : Matched r t a b c)
    (l : List Bool) :
    widths true 0#32 (cells t l ++ endBytes t) =
      flat (sentWidths t l) ++ widths true 0#32 (endBytes t) := by
  induction l with
  | nil => rfl
  | cons x l ih =>
    obtain ⟨s, hs⟩ := cells_cons t l
    have hg : pulse (if x then t.num1680us else t.num560us) = false := by
      cases x
      · exact h.gaps.2.1
      · exact h.gaps.2.2
    have he : cells t (x :: l) ++ endBytes t =
        (0x80#8 ||| t.num560us) :: (if x then t.num1680us else t.num560us) ::
          (0x80#8 ||| t.num560us) :: s := by rw [← hs]; rfl
    rw [he, widths_cell h.pulses.2.2 hg h.pulses.2.2, ← hs, ih]
    rfl

theorem Matched.seen_encode {clk : Nat} {a b c : Byte}
    (h : Matched (rxTimes clk) (txTimes clk) a b c) (code : BitVec 32) :
    seen (rxTimes clk) (encode clk code) =
      ((rxTimes clk).activeDelay >>> 1 + samples a + samples b) :: samples c ::
        (flat (sentWidths (txTimes clk) (sentBits code)) ++
          widths true 0#32 (endBytes (txTimes clk))) := by
  obtain ⟨s, hs⟩ := cells_cons (txTimes clk) (sentBits code)
  have hc : pulse c ≠ true := by rw [h.gaps.1]; exact Bool.false_ne_true
  have hq : pulse (0x80#8 ||| (txTimes clk).num560us) ≠ false := by
    rw [h.pulses.2.2]; exact Bool.false_ne_true.symm
  rw [seen, encode_eq, h.leads, ← h.widths_cells, hs, List.cons_append, List.cons_append,
    List.cons_append, List.nil_append, widths_same h.pulses.1, widths_same h.pulses.2.1,
    widths_other hc, Bool.not_true, widths_other hq, Bool.not_false, widths_start h.pulses.2.2]

/-- With 32 bits it does not matter what is behind them. -/
theorem bitsOf_full {t : RxTimes} {bits : List (Width × Width)} :
    ∀ {w : List Width} (code : BitVec 32) {k : Nat}, bits ≠ [] → k + bits.length = 32 → w ≠ [] →
      (∀ x ∈ bits, x.1 ≤ t.pmax ∧ x.2 ≤ t.dmax) →
      bitsOf t (flat bits ++ w) code k = some (codeFrom (ones t bits) k code, 32) := by
  induction bits with
  | nil => exact fun _ _ h => absurd rfl h
  | cons x bits ih =>
    intro w code k _ hk hw hb
    obtain ⟨⟨hp, hg⟩, hb⟩ := List.forall_mem_cons.mp hb
    rw [List.length_cons] at hk
    rcases hq : flat bits ++ w with _ | ⟨q, w'⟩
    · exact absurd (List.append_eq_nil_iff.mp hq).2 hw
    · have he : flat (x :: bits) ++ w = x.1 :: x.2 :: q :: w' := by rw [← hq]; rfl
      rw [he, bitsOf_step hp hg, codeFrom_ones]
      rcases Nat.eq_zero_or_pos bits.length with hz | hz
      · rw [if_pos (by omega), List.eq_nil_of_length_eq_zero hz]
        have hk : k + 1 = 32 := by omega
        rw [hk]
        rfl
      · rw [if_neg (by omega), ← hq]
        exact ih _ (List.ne_nil_of_length_pos hz) (by omega) hw hb

theorem length_lowBits (n : Nat) : ∀ b, (lowBits n b).length = n := by
  induction n with
  | zero => exact fun _ => rfl
  | succ n ih => exact fun b => congrArg (· + 1) (ih (b >>> 1))

theorem length_sentBits (code : BitVec 32) : (sentBits code).length = 32 := by
  simp only [sentBits, List.length_append, length_lowBits]

theorem ones_sentWidths {r : RxTimes} {t : TxTimes} {a b c : Byte} (h : Matched r t a b c)
    (l : List Bool) : ones r (sentWidths t l) = l := by
  rw [ones, sentWidths, List.map_map]
  refine (List.map_congr_left fun x _ => ?_).trans (List.map_id l)
  cases x
  · exact decide_eq_false (BitVec.not_lt.mpr h.zero.1)
  · exact decide_eq_true h.one.1

theorem Matched.fits {r : RxTimes} {t : TxTimes} {a b c : Byte} (h : Matched r t a b c)
    (l : List Bool) : ∀ x ∈ sentWidths t l, x.1 ≤ r.pmax ∧ x.2 ≤ r.dmax := by
  intro x hx
  obtain ⟨b, -, rfl⟩ := List.mem_map.mp hx
  refine ⟨h.pmax, ?_⟩
  cases b
  · exact h.zero.2
  · exact h.one.2

/-- The four code bytes from the last to the first. -/
def decoderOrder (code : BitVec 32) : BitVec 32 :=
  code.setWidth 8 ++ (code >>> 8).setWidth 8 ++ (code >>> 16).setWidth 8 ++
    (code >>> 24).setWidth 8

theorem lowBits_getD (n : Nat) :
    ∀ (b : Byte) (j : Nat), j < n → (lowBits n b).getD j false = b.getLsbD j := by
  induction n with
  | zero => exact fun _ _ h => absurd h (Nat.not_lt_zero _)
  | succ n ih =>
    intro b j hj
    cases j with
    | zero =>
      have hb : ∀ b : Byte, decide (b &&& 1#8 ≠ 0#8) = b.getLsbD 0 := by decide
      exact hb b
    | succ j =>
      rw [lowBits, List.getD_cons_succ, ih _ j (by omega), BitVec.getLsbD_ushiftRight, Nat.add_comm]

theorem lowBits_append_getD (b : Byte) (l : List Bool) (i : Nat) :
    (lowBits 8 b ++ l).getD i false = if i < 8 then b.getLsbD i else l.getD (i - 8) false := by
  split
  · rename_i h
    rw [List.getD_append _ _ _ _ (by rwa [length_lowBits]), lowBits_getD 8 b i h]
  · rename_i h
    rw [List.getD_append_right _ _ _ _ (by rw [length_lowBits]; omega), length_lowBits]

theorem codeFrom_sentBits (code : BitVec 32) :
    codeFrom (sentBits code) 0 0 = decoderOrder code := by
  refine BitVec.eq_of_getLsbD_eq fun i hi => ?_
  have hl : (code &&& 0xff#32).setWidth 8 = code.setWidth 8 := by
    refine BitVec.eq_of_getLsbD_eq fun j hj => ?_
    have hm : ∀ j < 8, (0xff#32).getLsbD j = true := by decide
    rw [BitVec.getLsbD_setWidth, BitVec.getLsbD_and, hm j hj, Bool.and_true,
      BitVec.getLsbD_setWidth]
  rw [codeFrom_getLsbD hi, zero_getLsbD, Nat.sub_zero, sentBits, hl]
  simp only [lowBits_append_getD, decoderOrder, BitVec.getLsbD_append, Nat.zero_le, decide_true,
    Bool.true_and, Bool.false_or]
  rcases Nat.lt_or_ge i 24 with h | h
  · have hs : i - 8 - 8 < 8 := by omega
    simp only [if_pos hs]
  · rw [lowBits_getD 8 _ _ (by omega : i - 8 - 8 - 8 < 8)]

theorem Matched.decodes {clk : Nat} {a b c : Byte}
    (h : Matched (rxTimes clk) (txTimes clk) a b c) (code : BitVec 32) :
    decodeWidths (rxTimes clk) (seen (rxTimes clk) (encode clk code)) =
      some (decoderOrder code, 32) := by
  have hl : (sentWidths (txTimes clk) (sentBits code)).length = 32 :=
    (List.length_map _).trans (length_sentBits code)
  have hn : sentWidths (txTimes clk) (sentBits code) ≠ [] :=
    List.ne_nil_of_length_pos (hl ▸ Nat.zero_lt_succ 31)
  have hw := widths_ne_nil true 0#32 (endBytes (txTimes clk))
  have hb := bitsOf_full 0 hn ((Nat.zero_add _).trans hl) hw (h.fits (sentBits code))
  rw [ones_sentWidths h, codeFrom_sentBits] at hb
  rcases hd : flat (sentWidths (txTimes clk) (sentBits code)) ++
    widths true 0#32 (endBytes (txTimes clk)) with _ | ⟨q, w⟩
  · exact absurd (List.append_eq_nil_iff.mp hd).2 hw
  · rw [decodeWidths, h.seen_encode, firstOver_found h.lead1, Option.bind_some, hd,
      firstOver_found h.lead0, Option.bind_some, ← hd, hb]

theorem decode_encode {clk : Nat} (h : clk ∈ hfClocks) (code : BitVec 32) :
    (decode clk (encode clk code)).code = decoderOrder code := by
  obtain ⟨a, b, c, h⟩ := matched_of_mem h
  rw [(decode_widths clk (encode clk code)).code, h.decodes]
  rfl

/-! ## The codec -/

/-- The code is 0, as for a repeat code, or made of 32 bits, unless there is an error. -/
def Whole (d : Decoded) : Prop := d.code ≠ errorCode → d.code = 0 ∨ d.bitCnt = 32

theorem whole_iff (clk : Nat) (s : List Byte) :
    Whole (decode clk s) ↔ ¬Truncated (rxTimes clk) s := by
  rw [← decodeWidths_short_iff, Whole]
  have ha := decode_widths clk s
  rcases hd : decodeWidths (rxTimes clk) (seen (rxTimes clk) s) with _ | ⟨code, k⟩
  · rw [hd] at ha
    refine ⟨fun _ => ?_, fun _ hc => absurd ha hc⟩
    rintro ⟨_, _, hn, -⟩
    cases hn
  · rw [hd] at ha
    obtain ⟨hc, hk⟩ := ha
    rw [hc, hk]
    constructor
    · rintro h ⟨code', k', hr, he, hz, h32⟩
      cases hr
      exact (h he).elim hz h32
    · intro h he
      by_cases hz : code = 0
      · exact .inl hz
      · by_cases h32 : k = 32
        · exact .inr h32
        · exact absurd ⟨code, k, rfl, he, hz, h32⟩ h

/-- The codec gives back every code, does not depend on how a run is cut into bytes and reads
inside of the stream. That the code is made of 32 bits is so exactly when the stream was not cut
off behind a '1'. -/
theorem nec_codec_iff (clk : Nat) (s : List Byte) :
    ((clk ∈ hfClocks → ∀ code, (decode clk (encode clk code)).code = decoderOrder code) ∧
      (∀ t, Regrouped s t → (decode clk t).code = (decode clk s).code) ∧
      (∀ i ∈ (decode clk s).reads, i < s.length) ∧ Whole (decode clk s)) ↔
      ¬Truncated (rxTimes clk) s := by
  rw [whole_iff]
  exact ⟨fun h => h.2.2.2, fun h => ⟨fun hc => decode_encode hc,
    fun _ ht => (decode_regrouped clk ht).symm, decode_inside clk s, h⟩⟩

/-- Both leads, one long bit and the pulse of the next. -/
theorem nec_partial_code :
    ¬∀ clk ∈ hfClocks, ∀ s : List Byte, Whole (decode clk s) := by
  intro h
  have hw := h hoscClock26M (by decide) [0xff#8, 0xe7#8, 0x73#8, 0x8e#8, 0x2b#8, 0x8e#8]
  have hd : (decode hoscClock26M [0xff#8, 0xe7#8, 0x73#8, 0x8e#8, 0x2b#8, 0x8e#8]).code = 1 ∧
      (decode hoscClock26M [0xff#8, 0xe7#8, 0x73#8, 0x8e#8, 0x2b#8, 0x8e#8]).bitCnt = 1 := by
    decide
  rcases hw (by rw [hd.1]; decide) with hz | hn
  · rw [hd.1] at hz
    exact absurd hz (by decide)
  · rw [hd.2] at hn
    exact absurd hn (by decide)

end IrNec
end XR806

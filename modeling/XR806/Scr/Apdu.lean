import XR806.Scr.RxBuf
import Mathlib.Data.List.GetD

/-!
# XR806.Scr.Apdu

A command to the smart card and the card's answer. The bytes of the answer come in interrupts while
the driver waits with the receive interrupt enabled; what comes at other times is lost. The driver
does not look at how many bytes have come. A command of type 1 needs the whole answer at once; one
of type 2 takes three bytes in its second wait, although the card has only the two status bytes
left; one of type 3 waits for `lc + 3` bytes in a buffer of `le + 3` and compares a byte before it
has received any. `apdu_iff` says for which answers the result is right.
-/

namespace XR806
namespace Scr

/-! ## The response buffer -/

/-- The response buffer and the indices at which it was accessed. -/
structure Rsp where
  mem : Nat → Byte
  touched : List Nat

namespace Rsp

def write (b : Rsp) (i : Nat) (v : Byte) : Rsp :=
  ⟨Function.update b.mem i v, b.touched ++ [i]⟩

def read (b : Rsp) (i : Nat) : Byte × Rsp := (b.mem i, { b with touched := b.touched ++ [i] })

/-- `HAL_Memmove` within the buffer. -/
def memmove (b : Rsp) (dst src n : Nat) : Rsp where
  mem i := if dst ≤ i ∧ i < dst + n then b.mem (src + (i - dst)) else b.mem i
  touched := b.touched ++ (List.range n).map (src + ·) ++ (List.range n).map (dst + ·)

end Rsp

/-! ## Receiving -/

/-- `rxpriv`: the response buffer, where `buf` points to in it and the bytes that are wanted. -/
structure RxPart where
  rsp : Rsp
  buf : Nat
  size : Nat

/-- The loop over `rxCnt` bytes of the interrupt handler. -/
def takeBytes : List Byte → RxPart → RxPart
  | [], p => p
  | b :: l, p => takeBytes l ⟨p.rsp.write p.buf b, p.buf + 1, p.size - 1⟩

/-- One receive interrupt with the bytes that are in the FIFO. -/
def rxIrq (p : RxPart) (fifo : List Byte) : RxPart :=
  let rxCnt := if p.size < fifo.length then p.size else fifo.length
  takeBytes (fifo.take rxCnt) p

/-- `HAL_SCR_ReceiveByIT` with the interrupts that come while it waits. -/
def receiveByIT (rsp : Rsp) (size : Nat) (irqs : List (List Byte)) : Rsp :=
  (irqs.foldl rxIrq ⟨rsp, 0, size⟩).rsp

/-! ## The commands -/

/-- What the card sends: in the interrupts of the first wait, in those of the second, and before,
between and after them. -/
structure Card where
  early : List Byte
  first : List (List Byte)
  between : List Byte
  second : List (List Byte)
  late : List Byte

/-- All bytes that the card sends for the command. -/
def Card.sent (c : Card) : List Byte :=
  c.early ++ c.first.flatten ++ c.between ++ c.second.flatten ++ c.late

inductive Status
  | ok
  | error
  deriving DecidableEq

/-- `SCR_WRData` when the command has returned. -/
structure WRData where
  status : Status
  rsp : Rsp
  rtnLen : Nat
  psw1 : Byte
  psw2 : Byte

/-- The end of a command: the status bytes are at the end of `rdataLen` bytes. -/
def finish (rsp : Rsp) (rtnLen rdataLen : Nat) : WRData :=
  let (psw1, rsp) := rsp.read (rdataLen - 2)
  let (psw2, rsp) := rsp.read (rdataLen - 1)
  ⟨.ok, rsp, rtnLen, psw1, psw2⟩

/-- `HAL_SCR_APDUCmd`. -/
def apduCmd (cmdBuf : List Byte) (mem : Nat → Byte) (card : Card) : WRData :=
  let cmdLen := cmdBuf.length
  let lc := (cmdBuf.getD 4 0).toNat
  let rtnData : Rsp := ⟨mem, []⟩
  if 5 = cmdLen then -- type1
    let rdataLen := lc + 3
    let rtnData := receiveByIT rtnData rdataLen card.first
    let rtnData := rtnData.memmove 0 1 lc
    finish rtnData lc rdataLen
  else if lc + 5 = cmdLen then -- type2
    let rtnData := receiveByIT rtnData 1 card.first
    let (ins, rtnData) := rtnData.read 0
    if ins ≠ cmdBuf.getD 1 0 then ⟨.error, rtnData, 0, 0, 0⟩
    else finish (receiveByIT rtnData 3 card.second) 0 3
  else if lc + 6 = cmdLen then -- type3
    let (ins, rtnData) := rtnData.read 0
    if ins ≠ cmdBuf.getD 1 0 then ⟨.error, rtnData, 0, 0, 0⟩
    else
      let rdataLen := (cmdBuf.getD (cmdLen - 1) 0).toNat + 3
      let rtnData := receiveByIT rtnData (lc + 3) card.first
      let rtnLen := rdataLen - 3
      finish (rtnData.memmove 0 1 rtnLen) rtnLen rdataLen
  else ⟨.error, rtnData, 0, 0, 0⟩

/-- The answer with the instruction, the data and the status bytes, or with the status bytes. -/
def Reply (ins : Byte) (sent data : List Byte) (sw1 sw2 : Byte) : Prop :=
  sent = ins :: data ++ [sw1, sw2] ∨ data = [] ∧ sent = [sw1, sw2]

/-- The second wait gets three bytes, the last two of the card's behind another. -/
def Closes (card : Card) : Prop :=
  ∃ b sw1 sw2 l, card.second.flatten = b :: sw1 :: sw2 :: l ∧ [sw1, sw2] <:+ card.sent

/-- A command of one of the three types. -/
inductive Cmd
  | type1 (cls ins p1 p2 le : Byte)
  | type2 (cls ins p1 p2 : Byte) (data : List Byte) (pos : 0 < data.length)
      (lt : data.length < 256)
  | type3 (cls ins p1 p2 : Byte) (data : List Byte) (lt : data.length < 256) (le : Byte)

namespace Cmd

def bytes : Cmd → List Byte
  | .type1 cls ins p1 p2 le => [cls, ins, p1, p2, le]
  | .type2 cls ins p1 p2 data _ _ => [cls, ins, p1, p2, BitVec.ofNat 8 data.length] ++ data
  | .type3 cls ins p1 p2 data _ le =>
    [cls, ins, p1, p2, BitVec.ofNat 8 data.length] ++ data ++ [le]

def ins : Cmd → Byte
  | .type1 _ ins _ _ _ => ins
  | .type2 _ ins _ _ _ _ _ => ins
  | .type3 _ ins _ _ _ _ _ => ins

def le : Cmd → Nat
  | .type1 _ _ _ _ le => le.toNat
  | .type2 .. => 0
  | .type3 _ _ _ _ _ _ le => le.toNat

/-- The card has sent `data` as its response data and `sw1` and `sw2` at the end. A command of
type 2 has no response data. -/
def Response (c : Cmd) (sent data : List Byte) (sw1 sw2 : Byte) : Prop :=
  match c with
  | .type2 .. => data = [] ∧ [sw1, sw2] <:+ sent
  | _ => Reply c.ins sent data sw1 sw2

/-- Whatever the response buffer holds before, the command accesses `le + 3` bytes of it, and when
it returns `HAL_OK` it has the response data and the status bytes. -/
def Exchanges (c : Cmd) (card : Card) : Prop :=
  ∀ mem, let d := apduCmd c.bytes mem card
    (∀ i ∈ d.rsp.touched, i < c.le + 3) ∧
      (d.status = .ok →
        c.Response card.sent ((List.range d.rtnLen).map d.rsp.mem) d.psw1 d.psw2)

/-- The answer is received as a whole. -/
def Answered (c : Cmd) (card : Card) : Prop :=
  card.first.flatten = card.sent ∧
    ∃ data sw1 sw2, card.sent = c.ins :: data ++ [sw1, sw2] ∧ data.length = c.le

/-- The answers with which a command does what it should. -/
def Fits (c : Cmd) (card : Card) : Prop :=
  match c with
  | .type1 .. => c.Answered card
  | .type2 .. => (∃ b l, card.first.flatten = b :: l ∧ b ≠ c.ins) ∨ Closes card
  | .type3 _ _ _ _ data _ _ => c.Answered card ∧ c.le ≤ data.length

end Cmd

/-! ## What is received -/

/-- The bytes of `l` from `pos` on. -/
def overlay (mem : Nat → Byte) (pos : Nat) (l : List Byte) : Nat → Byte := fun i =>
  if pos ≤ i then l.getD (i - pos) (mem i) else mem i

theorem overlay_nil (mem : Nat → Byte) (pos : Nat) : overlay mem pos [] = mem := by
  funext i
  rw [overlay, List.getD_nil]
  exact ite_self _

theorem overlay_cons (mem : Nat → Byte) (pos : Nat) (b : Byte) (l : List Byte) :
    overlay (Function.update mem pos b) (pos + 1) l = overlay mem pos (b :: l) := by
  funext i
  rw [overlay, overlay]
  rcases Nat.lt_trichotomy i pos with h | rfl | h
  · rw [if_neg (by omega), if_neg (by omega), Function.update_of_ne (by omega)]
  · rw [if_neg (by omega), if_pos (Nat.le_refl i), Nat.sub_self, List.getD_cons_zero,
      Function.update_self]
  · have hs : i - pos = i - (pos + 1) + 1 := by omega
    rw [if_pos (by omega), if_pos (by omega), hs, List.getD_cons_succ,
      Function.update_of_ne (by omega)]

/-- `l` has been received from `p` on. -/
structure Received (p : RxPart) (l : List Byte) (q : RxPart) : Prop where
  mem : q.rsp.mem = overlay p.rsp.mem p.buf l
  buf : q.buf = p.buf + l.length
  size : q.size = p.size - l.length
  touched : ∀ i ∈ q.rsp.touched, i ∈ p.rsp.touched ∨ i < p.buf + l.length

theorem takeBytes_received (l : List Byte) : ∀ p, Received p l (takeBytes l p) := by
  induction l with
  | nil => exact fun p => ⟨(overlay_nil _ _).symm, rfl, rfl, fun _ h => .inl h⟩
  | cons b l ih =>
    intro p
    obtain ⟨hm, hb, hs, ht⟩ := ih ⟨p.rsp.write p.buf b, p.buf + 1, p.size - 1⟩
    refine ⟨hm.trans (overlay_cons _ _ _ _), ?_, ?_, fun i hi => ?_⟩
    · rw [takeBytes, hb, List.length_cons]
      exact Nat.succ_add_eq_add_succ p.buf l.length
    · rw [takeBytes, hs, List.length_cons]
      exact (Nat.sub_sub p.size 1 l.length).trans (by rw [Nat.add_comm])
    · rw [List.length_cons]
      rcases ht i hi with hi | hi
      · rcases List.mem_append.mp hi with hi | hi
        · exact .inl hi
        · rw [List.mem_singleton.mp hi]
          exact .inr (by omega)
      · exact .inr (by simp only at hi; omega)

theorem overlay_append (mem : Nat → Byte) (pos : Nat) (l m : List Byte) :
    overlay (overlay mem pos l) (pos + l.length) m = overlay mem pos (l ++ m) := by
  induction l generalizing mem pos with
  | nil => rw [overlay_nil]; rfl
  | cons b l ih =>
    rw [← overlay_cons, List.cons_append, ← overlay_cons, ← ih, List.length_cons,
      Nat.succ_add_eq_add_succ]

theorem Received.trans {p q r : RxPart} {l m : List Byte} (h : Received p l q)
    (h' : Received q m r) : Received p (l ++ m) r := by
  refine ⟨?_, ?_, ?_, fun i hi => ?_⟩
  · rw [h'.mem, h.mem, h.buf, overlay_append]
  · rw [h'.buf, h.buf, List.length_append, Nat.add_assoc]
  · rw [h'.size, h.size, List.length_append, Nat.sub_sub]
  · rw [List.length_append]
    rcases h'.touched i hi with hi | hi
    · rcases h.touched i hi with hi | hi
      · exact .inl hi
      · exact .inr (by omega)
    · rw [h.buf] at hi
      exact .inr (by omega)

theorem rxIrq_received (p : RxPart) (fifo : List Byte) :
    Received p (fifo.take p.size) (rxIrq p fifo) := by
  rw [rxIrq]
  split
  · exact takeBytes_received _ p
  · rw [List.take_length, List.take_of_length_le (by omega)]
    exact takeBytes_received _ p

/-- However the bytes are spread over the interrupts, the first `size` of them are stored. -/
theorem foldl_rxIrq_received (irqs : List (List Byte)) :
    ∀ p, Received p (irqs.flatten.take p.size) (irqs.foldl rxIrq p) := by
  induction irqs with
  | nil =>
    intro p
    rw [List.flatten_nil, List.take_nil]
    exact takeBytes_received [] p
  | cons fifo irqs ih =>
    intro p
    have h := rxIrq_received p fifo
    have ht : (fifo ++ irqs.flatten).take p.size =
        fifo.take p.size ++ irqs.flatten.take (rxIrq p fifo).size := by
      rw [List.take_append, h.size, List.length_take]
      rcases Nat.le_total p.size fifo.length with hl | hl
      · rw [Nat.min_eq_left hl, Nat.sub_self, Nat.sub_eq_zero_of_le hl]
      · rw [Nat.min_eq_right hl]
    rw [List.flatten_cons, ht]
    exact h.trans (ih _)

theorem receiveByIT_mem (b : Rsp) (size : Nat) (irqs : List (List Byte)) (i : Nat) :
    (receiveByIT b size irqs).mem i = (irqs.flatten.take size).getD i (b.mem i) := by
  rw [receiveByIT, (foldl_rxIrq_received irqs ⟨b, 0, size⟩).mem, overlay, if_pos (Nat.zero_le i)]
  rfl

theorem receiveByIT_touched (b : Rsp) (size : Nat) (irqs : List (List Byte)) :
    ∀ i ∈ (receiveByIT b size irqs).touched,
      i ∈ b.touched ∨ i < min size irqs.flatten.length := by
  intro i hi
  have h := (foldl_rxIrq_received irqs ⟨b, 0, size⟩).touched i hi
  rw [List.length_take, Nat.zero_add] at h
  exact h

/-! ## An answer with data -/

/-- What a command with response data does with the answer. -/
def readAnswer (b : Rsp) (size le : Nat) (irqs : List (List Byte)) : WRData :=
  finish ((receiveByIT b size irqs).memmove 0 1 le) le (le + 3)

section

variable {b : Rsp} {size le : Nat} {irqs : List (List Byte)}

theorem memmove_data (b : Rsp) (le : Nat) :
    (List.range le).map (b.memmove 0 1 le).mem = (List.range le).map fun i => b.mem (1 + i) := by
  refine List.map_congr_left fun i hi => ?_
  have hi := List.mem_range.mp hi
  exact if_pos ⟨Nat.zero_le i, by omega⟩

theorem memmove_behind (b : Rsp) {le i : Nat} (hi : le ≤ i) :
    (b.memmove 0 1 le).mem i = b.mem i :=
  if_neg fun h => absurd h.2 (by omega)

theorem readAnswer_data : (List.range le).map (readAnswer b size le irqs).rsp.mem =
    (List.range le).map fun i => (irqs.flatten.take size).getD (1 + i) (b.mem (1 + i)) := by
  refine (memmove_data _ le).trans (List.map_congr_left fun i _ => ?_)
  exact receiveByIT_mem b size irqs (1 + i)

theorem readAnswer_psw1 : (readAnswer b size le irqs).psw1 =
    (irqs.flatten.take size).getD (le + 1) (b.mem (le + 1)) :=
  (memmove_behind _ (by omega : le ≤ le + 3 - 2)).trans (receiveByIT_mem b size irqs (le + 1))

theorem readAnswer_psw2 : (readAnswer b size le irqs).psw2 =
    (irqs.flatten.take size).getD (le + 2) (b.mem (le + 2)) :=
  (memmove_behind _ (by omega : le ≤ le + 3 - 1)).trans (receiveByIT_mem b size irqs (le + 2))

theorem readAnswer_touched (ht : ∀ i ∈ b.touched, i < le + 3)
    (hl : min size irqs.flatten.length ≤ le + 3) :
    ∀ i ∈ (readAnswer b size le irqs).rsp.touched, i < le + 3 := by
  intro i hi
  rcases List.mem_append.mp hi with hi | hi
  · rcases List.mem_append.mp hi with hi | hi
    · rcases List.mem_append.mp hi with hi | hi
      · rcases List.mem_append.mp hi with hi | hi
        · rcases receiveByIT_touched b size irqs i hi with hi | hi
          · exact ht i hi
          · omega
        · obtain ⟨j, hj, rfl⟩ := List.mem_map.mp hi
          have hj := List.mem_range.mp hj
          omega
      · obtain ⟨j, hj, rfl⟩ := List.mem_map.mp hi
        have hj := List.mem_range.mp hj
        omega
    · rw [List.mem_singleton.mp hi]
      omega
  · rw [List.mem_singleton.mp hi]
    omega

end

theorem Reply.getLast {ins : Byte} {sent data : List Byte} {sw1 sw2 : Byte}
    (h : Reply ins sent data sw1 sw2) : sent.getLast? = some sw2 := by
  rcases h with h | ⟨-, h⟩
  · rw [h, List.getLast?_append]
    rfl
  · rw [h]
    rfl

/-- A part that is as long as the whole. -/
theorem Card.first_eq_sent {c : Card} (h : c.sent.length ≤ c.first.flatten.length) :
    c.first.flatten = c.sent := by
  have hl : c.sent.length = c.early.length + c.first.flatten.length + c.between.length +
      c.second.flatten.length + c.late.length := by
    simp only [Card.sent, List.length_append]
  have h1 : c.early = [] := List.eq_nil_of_length_eq_zero (by omega)
  have h2 : c.between = [] := List.eq_nil_of_length_eq_zero (by omega)
  have h3 : c.second.flatten = [] := List.eq_nil_of_length_eq_zero (by omega)
  have h4 : c.late = [] := List.eq_nil_of_length_eq_zero (by omega)
  rw [Card.sent, h1, h2, h3, h4, List.nil_append, List.append_nil, List.append_nil, List.append_nil]

/-- A buffer that begins with the instruction and holds `v` behind it. -/
def filled (ins v : Byte) : Nat → Byte := fun i => if i = 0 then ins else v

theorem filled_succ (ins v : Byte) (i : Nat) : filled ins v (i + 1) = v :=
  if_neg (Nat.succ_ne_zero i)

/-- The answer is right whatever the buffer holds where the last byte of the answer is put, so that
this byte has been received. -/
theorem readAnswer_needs (t : List Nat) (size le : Nat) (ins : Byte) (card : Card)
    (h : ∀ v, let d := readAnswer ⟨filled ins v, t⟩ size le card.first
      Reply ins card.sent ((List.range le).map d.rsp.mem) d.psw1 d.psw2) :
    le + 3 ≤ size ∧ card.first.flatten = card.sent ∧
      ∃ data sw1 sw2, card.sent = ins :: data ++ [sw1, sw2] ∧ data.length = le := by
  have hstored : le + 3 ≤ (card.first.flatten.take size).length := by
    refine Nat.le_of_not_lt fun hlt => ?_
    have h2 := (h 0).getLast.symm.trans (h 1).getLast
    rw [readAnswer_psw2, readAnswer_psw2, List.getD_eq_default _ _ (by omega),
      List.getD_eq_default _ _ (by omega)] at h2
    have hv : filled ins 0 (le + 2) = filled ins 1 (le + 2) := Option.some.inj h2
    rw [filled_succ, filled_succ] at hv
    exact absurd hv (by decide)
  rw [List.length_take] at hstored
  rcases h 0 with hs | ⟨-, hs⟩
  · have hl : card.sent.length = le + 3 := by
      rw [hs, List.length_append, List.length_cons, List.length_map, List.length_range]
      rfl
    refine ⟨by omega, Card.first_eq_sent (by omega), _, _, _, hs, ?_⟩
    rw [List.length_map, List.length_range]
  · have hl : card.sent.length = 2 := by rw [hs]; rfl
    have hf := Card.first_eq_sent (c := card) (by omega)
    rw [hf] at hstored
    omega

theorem readAnswer_reply {b : Rsp} {size le : Nat} {ins : Byte} {card : Card}
    {data : List Byte} {sw1 sw2 : Byte} (hsize : le + 3 ≤ size)
    (hf : card.first.flatten = card.sent) (hs : card.sent = ins :: data ++ [sw1, sw2])
    (hl : data.length = le) :
    let d := readAnswer b size le card.first
    Reply ins card.sent ((List.range le).map d.rsp.mem) d.psw1 d.psw2 := by
  have ht : card.first.flatten.take size = ins :: data ++ [sw1, sw2] := by
    rw [hf, hs, List.take_of_length_le]
    rw [List.length_append, List.length_cons, hl]
    exact hsize
  have hc : ∀ i v, (ins :: data ++ [sw1, sw2]).getD (i + 1) v = (data ++ [sw1, sw2]).getD i v :=
    fun i v => List.getD_cons_succ
  have hd : (List.range le).map (readAnswer b size le card.first).rsp.mem = data := by
    rw [readAnswer_data, ht]
    refine List.ext_getElem (by rw [List.length_map, List.length_range, hl]) fun i _ hi => ?_
    rw [List.getElem_map, List.getElem_range, Nat.add_comm, hc, List.getD_append _ _ _ _ hi,
      List.getD_eq_getElem _ _ hi]
  have h1 : (readAnswer b size le card.first).psw1 = sw1 := by
    rw [readAnswer_psw1, ht, ← hl, hc, List.getD_append_right _ _ _ _ (Nat.le_refl _),
      Nat.sub_self]
    rfl
  have h2 : (readAnswer b size le card.first).psw2 = sw2 := by
    have h1 : data.length + 1 - data.length = 1 := Nat.add_sub_cancel_left ..
    rw [readAnswer_psw2, ht, ← hl, hc, List.getD_append_right _ _ _ _ (Nat.le_add_right _ 1), h1]
    rfl
  dsimp only
  rw [hd, h1, h2]
  exact .inl hs

/-! ## The three types -/

theorem toNat_ofNat {n : Nat} (h : n < 256) : (BitVec.ofNat 8 n).toNat = n := by
  rw [BitVec.toNat_ofNat]
  exact Nat.mod_eq_of_lt h

theorem apduCmd_type2 (cls ins p1 p2 : Byte) {data : List Byte} (pos : 0 < data.length)
    (lt : data.length < 256) (mem : Nat → Byte) (card : Card) :
    apduCmd (Cmd.type2 cls ins p1 p2 data pos lt).bytes mem card =
      let b := receiveByIT ⟨mem, []⟩ 1 card.first
      if b.mem 0 ≠ ins then ⟨.error, (b.read 0).2, 0, 0, 0⟩
      else finish (receiveByIT (b.read 0).2 3 card.second) 0 3 := by
  have hlen : (Cmd.type2 cls ins p1 p2 data pos lt).bytes.length = data.length + 5 := by
    simp [Cmd.bytes]
  have hlc : ((Cmd.type2 cls ins p1 p2 data pos lt).bytes.getD 4 0).toNat = data.length :=
    toNat_ofNat lt
  rw [apduCmd]
  dsimp only
  rw [hlen, hlc, if_neg (by omega), if_pos rfl]
  rfl

theorem apduCmd_type3 (cls ins p1 p2 : Byte) {data : List Byte} (lt : data.length < 256)
    (le : Byte) (mem : Nat → Byte) (card : Card) :
    apduCmd (Cmd.type3 cls ins p1 p2 data lt le).bytes mem card =
      if mem 0 ≠ ins then ⟨.error, ⟨mem, [0]⟩, 0, 0, 0⟩
      else readAnswer ⟨mem, [0]⟩ (data.length + 3) le.toNat card.first := by
  have hlen : (Cmd.type3 cls ins p1 p2 data lt le).bytes.length = data.length + 6 := by
    simp [Cmd.bytes]
  have hlc : ((Cmd.type3 cls ins p1 p2 data lt le).bytes.getD 4 0).toNat = data.length :=
    toNat_ofNat lt
  have hle : (Cmd.type3 cls ins p1 p2 data lt le).bytes.getD (data.length + 5) 0 = le := by
    have hl : ([cls, ins, p1, p2, BitVec.ofNat 8 data.length] ++ data).length =
        data.length + 5 := by simp
    rw [Cmd.bytes, List.getD_append_right _ _ _ _ (Nat.le_of_eq hl), hl, Nat.sub_self]
    rfl
  have hsub : data.length + 6 - 1 = data.length + 5 := rfl
  rw [apduCmd]
  dsimp only
  rw [hlen, hlc, if_neg (by omega), if_neg (by omega), if_pos rfl, hsub, hle]
  rfl

theorem exchanges_type1_iff (cls ins p1 p2 le : Byte) (card : Card) :
    (Cmd.type1 cls ins p1 p2 le).Exchanges card ↔ (Cmd.type1 cls ins p1 p2 le).Answered card := by
  constructor
  · intro h
    exact (readAnswer_needs [] (le.toNat + 3) le.toNat ins card fun v => (h (filled ins v)).2 rfl).2
  · rintro ⟨hf, data, sw1, sw2, hs, hl⟩ mem
    refine ⟨readAnswer_touched (List.forall_mem_nil _) (Nat.min_le_left _ _), fun _ => ?_⟩
    exact readAnswer_reply (Nat.le_refl _) hf hs hl

theorem exchanges_type3_iff (cls ins p1 p2 : Byte) {data : List Byte} (lt : data.length < 256)
    (le : Byte) (card : Card) :
    (Cmd.type3 cls ins p1 p2 data lt le).Exchanges card ↔
      (Cmd.type3 cls ins p1 p2 data lt le).Answered card ∧ le.toNat ≤ data.length := by
  have hok : ∀ {mem : Nat → Byte}, mem 0 = ins →
      apduCmd (Cmd.type3 cls ins p1 p2 data lt le).bytes mem card =
        readAnswer ⟨mem, [0]⟩ (data.length + 3) le.toNat card.first := fun h => by
    rw [apduCmd_type3, if_neg (not_not.mpr h)]
  constructor
  · intro h
    have hn := readAnswer_needs [0] (data.length + 3) le.toNat ins card fun v => ?_
    · exact ⟨hn.2, by omega⟩
    · have hm := (h (filled ins v)).2
      rw [hok rfl] at hm
      exact hm rfl
  · rintro ⟨⟨hf, rsp, sw1, sw2, hs, hl⟩, hle⟩ mem
    have h0 : ∀ i ∈ [0], i < le.toNat + 3 := fun i hi => by
      rw [List.mem_singleton.mp hi]
      omega
    have hlen : card.sent.length = le.toNat + 3 := by
      rw [hs, List.length_append, List.length_cons, hl]
      rfl
    by_cases hm : mem 0 = ins
    · rw [hok hm]
      refine ⟨readAnswer_touched h0 ?_, fun _ => ?_⟩
      · rw [hf, hlen]
        exact Nat.min_le_right _ _
      · exact readAnswer_reply (by omega) hf hs hl
    · rw [apduCmd_type3, if_pos hm]
      exact ⟨h0, fun hs => Status.noConfusion hs⟩

theorem suffix_getLast {a b : Byte} {l : List Byte} (h : [a, b] <:+ l) : l.getLast? = some b := by
  obtain ⟨t, rfl⟩ := h
  rw [List.getLast?_append]
  rfl

theorem finish_touched {b : Rsp} (hb : ∀ i ∈ b.touched, i < 3) (irqs : List (List Byte)) :
    ∀ i ∈ (finish (receiveByIT b 3 irqs) 0 3).rsp.touched, i < 3 := by
  intro i hi
  rcases List.mem_append.mp hi with hi | hi
  · rcases List.mem_append.mp hi with hi | hi
    · rcases receiveByIT_touched b 3 irqs i hi with hi | hi
      · exact hb i hi
      · omega
    · rw [List.mem_singleton.mp hi]
      omega
  · rw [List.mem_singleton.mp hi]
    omega

theorem finish_psw (b : Rsp) (irqs : List (List Byte)) :
    (finish (receiveByIT b 3 irqs) 0 3).psw1 = (irqs.flatten.take 3).getD 1 (b.mem 1) ∧
      (finish (receiveByIT b 3 irqs) 0 3).psw2 = (irqs.flatten.take 3).getD 2 (b.mem 2) :=
  ⟨receiveByIT_mem b 3 irqs 1, receiveByIT_mem b 3 irqs 2⟩

theorem exchanges_type2_iff (cls ins p1 p2 : Byte) {data : List Byte} (pos : 0 < data.length)
    (lt : data.length < 256) (card : Card) :
    (Cmd.type2 cls ins p1 p2 data pos lt).Exchanges card ↔
      (∃ b l, card.first.flatten = b :: l ∧ b ≠ ins) ∨ Closes card := by
  -- what the first wait leaves in the buffer
  have hbyte : ∀ mem, (receiveByIT ⟨mem, []⟩ 1 card.first).mem 0 =
      card.first.flatten.headD (mem 0) := fun mem => by
    rw [receiveByIT_mem]
    cases card.first.flatten <;> rfl
  have hrest : ∀ mem i, (receiveByIT ⟨mem, []⟩ 1 card.first).mem (i + 1) = mem (i + 1) :=
    fun mem i => by
      rw [receiveByIT_mem, List.getD_eq_default]
      rw [List.length_take]
      omega
  have ht : ∀ mem, ∀ i ∈ ((receiveByIT ⟨mem, []⟩ 1 card.first).read 0).2.touched, i < 3 := by
    intro mem i hi
    rcases List.mem_append.mp hi with hi | hi
    · rcases receiveByIT_touched ⟨mem, []⟩ 1 card.first i hi with hi | hi
      · exact absurd hi List.not_mem_nil
      · omega
    · rw [List.mem_singleton.mp hi]
      omega
  constructor
  · intro h
    refine Classical.or_iff_not_imp_left.mpr fun hno => ?_
    have hins : ∀ v, (receiveByIT ⟨filled ins v, []⟩ 1 card.first).mem 0 = ins := fun v => by
      rw [hbyte]
      rcases hl : card.first.flatten with _ | ⟨b, l⟩
      · rfl
      · exact Decidable.byContradiction fun hb => hno ⟨b, l, hl, hb⟩
    have hok : ∀ v, [(card.second.flatten.take 3).getD 1 v, (card.second.flatten.take 3).getD 2 v]
        <:+ card.sent := fun v => by
      have hv := (h (filled ins v)).2
      rw [apduCmd_type2, if_neg (not_not.mpr (hins v))] at hv
      have hs := (hv rfl).2
      rw [(finish_psw _ _).1, (finish_psw _ _).2] at hs
      have h1 : ((receiveByIT ⟨filled ins v, []⟩ 1 card.first).read 0).2.mem 1 = v :=
        (hrest (filled ins v) 0).trans (filled_succ ins v 0)
      have h2 : ((receiveByIT ⟨filled ins v, []⟩ 1 card.first).read 0).2.mem 2 = v :=
        (hrest (filled ins v) 1).trans (filled_succ ins v 1)
      rwa [h1, h2] at hs
    have h3 : 3 ≤ card.second.flatten.length := Nat.le_of_not_lt fun hlt => by
      have h2 := (suffix_getLast (hok 0)).symm.trans (suffix_getLast (hok 1))
      rw [List.getD_eq_default _ _ (by rw [List.length_take]; omega),
        List.getD_eq_default _ _ (by rw [List.length_take]; omega)] at h2
      exact absurd (Option.some.inj h2) (by decide)
    match hl : card.second.flatten, h3 with
    | b :: sw1 :: sw2 :: l, _ =>
      have hs := hok 0
      rw [hl] at hs
      exact ⟨b, sw1, sw2, l, hl, hs⟩
  · rintro h mem
    rw [apduCmd_type2]
    dsimp only
    by_cases hm : (receiveByIT ⟨mem, []⟩ 1 card.first).mem 0 = ins
    · rw [if_neg (not_not.mpr hm)]
      refine ⟨finish_touched (ht mem) _, fun _ => ⟨rfl, ?_⟩⟩
      rcases h with ⟨b, l, hl, hb⟩ | ⟨b, sw1, sw2, l, hl, hs⟩
      · rw [hbyte, hl] at hm
        exact absurd hm hb
      · rw [(finish_psw _ _).1, (finish_psw _ _).2, hl]
        exact hs
    · rw [if_pos hm]
      exact ⟨ht mem, fun hs => Status.noConfusion hs⟩

/-- A command to the card does what it should, whatever the response buffer holds before, exactly
for these answers. -/
theorem apdu_iff (c : Cmd) (card : Card) : c.Exchanges card ↔ c.Fits card := by
  cases c with
  | type1 cls ins p1 p2 le => exact exchanges_type1_iff cls ins p1 p2 le card
  | type2 cls ins p1 p2 data pos lt => exact exchanges_type2_iff cls ins p1 p2 pos lt card
  | type3 cls ins p1 p2 data lt le => exact exchanges_type3_iff cls ins p1 p2 lt le card

/-- A card that acknowledges a command of type 2 and, behind the data, sends its status 9000. -/
def writeCard : Card := ⟨[], [[0xd6]], [], [[0x90, 0x00]], []⟩

/-- The status bytes are taken for the instruction and the first status byte. -/
theorem type2_status_lost : ¬∀ (c : Cmd) (card : Card), c.Exchanges card := by
  intro h
  have he := h (.type2 0 0xd6 0 0 [0x11] (by decide) (by decide)) writeCard fun _ => 1
  have hs := (he.2 (by decide)).2
  exact absurd (suffix_getLast hs) (by decide)

end Scr
end XR806

import Mathlib.Algebra.Ring.Int.Defs
import Mathlib.Tactic.Common

/-!
# XR806.Wlan.Mbuf

The packet buffers of `mbuf_0.c`. An mbuf is one block of memory, a header of 80 bytes and the
buffer behind it; the data in the buffer has free space in front and behind. What the packets
contain is not modelled, only where it is read and written.

Numbers are integers, with the conversions of the source written out: `s32` for `int32_t`, `u16`
for `uint16_t` and `toU32` where a comparison or `memcpy` takes its argument as an unsigned number.
-/

namespace XR806
namespace Wlan

def s32 (x : Int) : Int := (x + 2 ^ 31) % 2 ^ 32 - 2 ^ 31

def u16 (x : Int) : Int := x % 2 ^ 16

def toU32 (x : Int) : Int := x % 2 ^ 32

theorem s32_of_lt {x : Int} (h : -2 ^ 31 ≤ x) (h' : x < 2 ^ 31) : s32 x = x := by
  unfold s32
  omega

theorem u16_of_lt {x : Int} (h : 0 ≤ x) (h' : x < 2 ^ 16) : u16 x = x := by
  unfold u16
  omega

/-- `struct mbuf`; `pktLen` is `m_pkthdr.len`. -/
structure Mbuf where
  mBuf : Int
  mData : Int
  mLen : Int
  mHeadspace : Int
  mTailspace : Int
  mType : Nat
  mFlags : Nat
  pktLen : Int
  deriving DecidableEq

/-- `MBUF_SIZE`. -/
def mbufSize : Int := 80

def mbufHeadSpace : Int := 68
def mbufTailSpace : Int := 16

def mPkthdr : Nat := 0x2
def mCopyflags : Nat := 0x2 ||| 0x4 ||| 0x8 ||| 0x10 ||| 0x20 ||| 0x80 ||| 0x40 ||| 0xFFF000

def mbufGetFlagMask : Nat := 0xF <<< 4
def mbufGetFlagLimitTx : Nat := 1 <<< 4
def mbufGetFlagLimitRx : Nat := 1 <<< 5

/-! ## The limits -/

/-- `MBUF_TX_MEM_MAX`, `MBUF_RX_MEM_MAX` and `MBUF_TXRX_MEM_MAX`; 0 is no limit. -/
structure Limits where
  tx : Int
  rx : Int
  txrx : Int

/-- `m_tx_mem_sum`, `m_rx_mem_sum` and `m_txrx_mem_sum`. -/
structure Sums where
  tx : Int
  rx : Int
  txrx : Int
  deriving DecidableEq

/-- A sum of `sum + len` is above the limit. The comparison is one of unsigned numbers. -/
def full (max sum len : Int) : Prop := 0 < max ∧ max < toU32 (s32 (sum + len))

instance (max sum len : Int) : Decidable (full max sum len) :=
  inferInstanceAs (Decidable (_ ∧ _))

def hasFlag (flag bit : Nat) : Prop := flag &&& bit ≠ 0

instance (flag bit : Nat) : Decidable (hasFlag flag bit) :=
  inferInstanceAs (Decidable (_ ≠ _))

/-- The part of `mb_limit_mem_inc` for RX, and the sum of both. -/
def mbLimitMemIncRx (lim : Limits) (s : Sums) (flag : Nat) (len : Int) : Sums × Bool :=
  if hasFlag flag mbufGetFlagLimitRx then
    if full lim.rx s.rx len then (s, false)
    else (⟨s.tx, s32 (s.rx + len), s32 (s.txrx + len)⟩, true)
  else (⟨s.tx, s.rx, s32 (s.txrx + len)⟩, true)

/-- `mb_limit_mem_inc`; `true` is the return value 0. -/
def mbLimitMemInc (lim : Limits) (s : Sums) (flag : Nat) (len : Int) : Sums × Bool :=
  if full lim.txrx s.txrx len then (s, false)
  else if hasFlag flag mbufGetFlagLimitTx then
    if full lim.tx s.tx len then (s, false)
    else mbLimitMemIncRx lim { s with tx := s32 (s.tx + len) } flag len
  else mbLimitMemIncRx lim s flag len

/-- `mb_limit_mem_dec`. -/
def mbLimitMemDec (s : Sums) (flag : Nat) (len : Int) : Sums where
  tx := if hasFlag flag mbufGetFlagLimitTx then s32 (s.tx - len) else s.tx
  rx := if hasFlag flag mbufGetFlagLimitRx then s32 (s.rx - len) else s.rx
  txrx := s32 (s.txrx - len)

/-! ## Getting and freeing -/

/-- `tot_len`. -/
def totLen (len : Int) (tx : Nat) : Int :=
  if tx &&& 0x1 ≠ 0 then s32 (mbufSize + len + (mbufHeadSpace + mbufTailSpace))
  else s32 (mbufSize + len)

/-- What `mb_get` makes of the block at `p`. -/
def newMbuf (p len : Int) (tx : Nat) : Mbuf where
  mBuf := p + mbufSize
  mData := if tx &&& 0x1 ≠ 0 then p + mbufSize + mbufHeadSpace else p + mbufSize
  mLen := len
  mHeadspace := if tx &&& 0x1 ≠ 0 then mbufHeadSpace else 0
  mTailspace := if tx &&& 0x1 ≠ 0 then mbufTailSpace else 0
  mType := tx &&& mbufGetFlagMask
  mFlags := mPkthdr
  pktLen := len

/-- `mb_get`; `malloc` is what `MB_MALLOC` returns when it is called. -/
def mbGet (lim : Limits) (s : Sums) (len : Int) (tx : Nat) (malloc : Option Int) :
    Sums × Option Mbuf :=
  if len < 0 then (s, none)
  else
    let flag := tx &&& mbufGetFlagMask
    let inc := if flag ≠ 0 then mbLimitMemInc lim s flag (totLen len tx) else (s, true)
    if inc.2 then
      match malloc with
      | some p => (inc.1, some (newMbuf p len tx))
      | none => (if flag ≠ 0 then mbLimitMemDec inc.1 flag (totLen len tx) else inc.1, none)
    else (inc.1, none)

/-- The length `mb_free` takes off the sums. -/
def Mbuf.size (m : Mbuf) : Int := s32 (mbufSize + m.mLen + m.mHeadspace + m.mTailspace)

def Mbuf.flag (m : Mbuf) : Nat := m.mType &&& mbufGetFlagMask

/-- `mb_free`. -/
def mbFree (s : Sums) (m : Mbuf) : Sums :=
  if m.flag ≠ 0 then mbLimitMemDec s m.flag m.size else s

/-! ## Moving the bounds of the data -/

def mbAdjHead (m : Mbuf) (increment : Int) : Mbuf :=
  { m with
    mHeadspace := u16 (m.mHeadspace - increment)
    mData := m.mData - increment
    mLen := s32 (m.mLen + increment)
    pktLen := s32 (m.pktLen + increment) }

def mbAdjTail (m : Mbuf) (increment : Int) : Mbuf :=
  { m with
    mTailspace := u16 (m.mTailspace - increment)
    mLen := s32 (m.mLen + increment)
    pktLen := s32 (m.pktLen + increment) }

def mbPkthdrInit (d s : Mbuf) (pktlen : Int) : Mbuf :=
  { d with
    mFlags := s.mFlags &&& mCopyflags ||| mPkthdr
    pktLen := pktlen }

/-- `mb_adj`. -/
def mbAdj (m : Mbuf) (reqLen : Int) : Mbuf × Bool :=
  if reqLen ≥ 0 then
    if reqLen > m.mLen then (m, false) else (mbAdjHead m (-reqLen), true)
  else
    let reqLen := s32 (-reqLen)
    if reqLen > m.mLen then (m, false) else (mbAdjTail m (s32 (-reqLen)), true)

/-- `mb_reserve`. -/
def mbReserve (m : Mbuf) (len headspace tailspace : Int) : Mbuf × Bool :=
  let bufEnd := m.mData + m.mLen + m.mTailspace
  let bufLen := s32 (m.mHeadspace + m.mLen + m.mTailspace)
  if bufLen < s32 (headspace + len + tailspace) then (m, false)
  else
    ({ m with
      mTailspace := tailspace
      mLen := len
      pktLen := len
      mData := bufEnd - tailspace - len
      mHeadspace := u16 (bufLen - tailspace - len) }, true)

/-- `MB_PREPEND`; `none` is an mbuf that was freed. -/
def mbPrepend (m : Mbuf) (plen : Int) : Option Mbuf :=
  if plen ≥ 0 ∧ m.mHeadspace ≥ plen then
    some { m with
      mHeadspace := u16 (m.mHeadspace - plen)
      mData := m.mData - plen
      mLen := s32 (m.mLen + plen)
      pktLen := s32 (m.pktLen + plen) }
  else none

/-- `mb_pullup`; `none` is an mbuf that was freed. -/
def mbPullup (m : Mbuf) (len : Int) : Option Mbuf := if m.mLen < len then none else some m

/-! ## Copying -/

/-- The `size` bytes at `addr`. -/
structure Area where
  addr : Int
  size : Int

/-- The bytes `memcpy` reads or writes at `addr`. -/
def memcpyArea (addr n : Int) : Area := ⟨addr, toU32 n⟩

/-- `mb_copydata`: the number of bytes copied, and what is read. -/
def mbCopydata (m : Mbuf) (off len : Int) : Int × List Area :=
  if off < 0 ∨ len ≤ 0 then (0, [])
  else
    let copyLen := s32 (m.mLen - off)
    let copyLen := if copyLen > len then len else copyLen
    (copyLen, [memcpyArea (m.mData + off) copyLen])

/-- `mb_append`, and what is written; `cp` says whether there is something to copy. -/
def mbAppend (m : Mbuf) (len : Int) (cp : Bool) : (Mbuf × Bool) × List Area :=
  if len > m.mTailspace then ((m, false), [])
  else
    ((mbAdjTail m len, true), if cp then [memcpyArea (m.mData + m.mLen) len] else [])

/-- The length `mb_dup` asks for. -/
def dupLen (m : Mbuf) : Int := s32 (m.mLen + m.mHeadspace + m.mTailspace)

/-- `mb_dup`: the new mbuf, what is read of `m` and what is written of the new one. -/
def mbDup (lim : Limits) (s : Sums) (m : Mbuf) (malloc : Option Int) :
    Sums × Option Mbuf × List Area × List Area :=
  match mbGet lim s (dupLen m) mbufGetFlagLimitRx malloc with
  | (s, none) => (s, none, [], [])
  | (s, some nm) =>
    let nm := mbAdjHead nm (-m.mHeadspace)
    let nm := mbAdjTail nm (-m.mTailspace)
    (s, some (mbPkthdrInit nm m m.mLen), [memcpyArea m.mData m.mLen],
      [memcpyArea nm.mData m.mLen])

/-- `mb_split`: `m0` and the new mbuf, what is read of `m0` and what is written of the new one. -/
def mbSplit (lim : Limits) (s : Sums) (m0 : Mbuf) (len0 : Int) (malloc : Option Int) :
    Sums × Mbuf × Option Mbuf × List Area × List Area :=
  if len0 ≤ 0 ∨ m0.mLen ≤ len0 then (s, m0, none, [], [])
  else
    let len := m0.mLen - len0
    -- `mb_create`
    match mbGet lim s len mbufGetFlagLimitRx malloc with
    | (s, none) => (s, m0, none, [], [])
    | (s, some m) =>
      (s, mbAdjTail m0 (-len), some (mbPkthdrInit m m0 len), [memcpyArea (m0.mData + len0) len],
        [memcpyArea m.mData len])

/-! ## Any calls -/

/-- An mbuf in use, and the size of the block it is in. -/
structure Live where
  m : Mbuf
  size : Int
  deriving DecidableEq

structure Sys where
  sums : Sums
  live : List Live

inductive Op where
  | get (len : Int32) (tx : Nat)
  | free
  | adj (reqLen : Int32)
  | copydata (off len : Int32)
  | dup
  | pullup (len : Int32)
  | split (len0 : Int32)
  | append (len : Int32) (cp : Bool)
  | reserve (len : Int32) (headspace tailspace : UInt16)
  | prepend (plen : Int32)

/-- A call: the mbuf it is for, and the areas it reads or writes, each with the mbuf it is meant to
be in. -/
structure Call where
  op : Op
  on : Option Live
  touched : List (Live × Area)

/-- What `MB_MALLOC` may return for a size: `NULL` at any time, a block if there is memory. -/
def Allows (live : List Live) (size : Int) (malloc : Option Int) : Prop :=
  ∀ p, malloc = some p → 0 ≤ size ∧ (live.map (·.size)).sum + size < 2 ^ 31

def withAreas (l : Live) (areas : List Area) : List (Live × Area) := areas.map fun a => (l, a)

section

variable (lim : Limits)

/-- A call on one of the mbufs in use. -/
inductive StepOn (s : Sums) (others : List Live) (l : Live) : Op → List (Live × Area) → Sums →
    List Live → Prop
  | free : StepOn s others l .free [] (mbFree s l.m) []
  | adj (reqLen : Int32) :
      StepOn s others l (.adj reqLen) [] s [{ l with m := (mbAdj l.m reqLen.toInt).1 }]
  | copydata (off len : Int32) :
      StepOn s others l (.copydata off len)
        (withAreas l (mbCopydata l.m off.toInt len.toInt).2) s [l]
  | pullupFree (len : Int32) (h : mbPullup l.m len.toInt = none) :
      StepOn s others l (.pullup len) [] (mbFree s l.m) []
  | pullup (len : Int32) (m : Mbuf) (h : mbPullup l.m len.toInt = some m) :
      StepOn s others l (.pullup len) [] s [{ l with m }]
  | prependFree (plen : Int32) (h : mbPrepend l.m plen.toInt = none) :
      StepOn s others l (.prepend plen) [] (mbFree s l.m) []
  | prepend (plen : Int32) (m : Mbuf) (h : mbPrepend l.m plen.toInt = some m) :
      StepOn s others l (.prepend plen) [] s [{ l with m }]
  | append (len : Int32) (cp : Bool) :
      StepOn s others l (.append len cp) (withAreas l (mbAppend l.m len.toInt cp).2) s
        [{ l with m := (mbAppend l.m len.toInt cp).1.1 }]
  | reserve (len : Int32) (headspace tailspace : UInt16) :
      StepOn s others l (.reserve len headspace tailspace) [] s
        [{ l with m := (mbReserve l.m len.toInt headspace.toNat tailspace.toNat).1 }]
  | dupFail (malloc : Option Int) (s' : Sums) (reads writes : List Area)
      (hmalloc : Allows (l :: others) (totLen (dupLen l.m) mbufGetFlagLimitRx) malloc)
      (h : mbDup lim s l.m malloc = (s', none, reads, writes)) :
      StepOn s others l .dup (withAreas l reads) s' [l]
  | dup (malloc : Option Int) (s' : Sums) (nm : Mbuf) (reads writes : List Area)
      (hmalloc : Allows (l :: others) (totLen (dupLen l.m) mbufGetFlagLimitRx) malloc)
      (h : mbDup lim s l.m malloc = (s', some nm, reads, writes)) :
      StepOn s others l .dup (withAreas l reads ++
          withAreas ⟨nm, totLen (dupLen l.m) mbufGetFlagLimitRx⟩ writes) s'
        [l, ⟨nm, totLen (dupLen l.m) mbufGetFlagLimitRx⟩]
  | splitFail (len0 : Int32) (malloc : Option Int) (s' : Sums) (m0 : Mbuf)
      (reads writes : List Area)
      (hmalloc : Allows (l :: others) (totLen (l.m.mLen - len0.toInt) mbufGetFlagLimitRx) malloc)
      (h : mbSplit lim s l.m len0.toInt malloc = (s', m0, none, reads, writes)) :
      StepOn s others l (.split len0) (withAreas l reads) s' [{ l with m := m0 }]
  | split (len0 : Int32) (malloc : Option Int) (s' : Sums) (m0 m : Mbuf)
      (reads writes : List Area)
      (hmalloc : Allows (l :: others) (totLen (l.m.mLen - len0.toInt) mbufGetFlagLimitRx) malloc)
      (h : mbSplit lim s l.m len0.toInt malloc = (s', m0, some m, reads, writes)) :
      StepOn s others l (.split len0) (withAreas l reads ++
          withAreas ⟨m, totLen (l.m.mLen - len0.toInt) mbufGetFlagLimitRx⟩ writes) s'
        [{ l with m := m0 }, ⟨m, totLen (l.m.mLen - len0.toInt) mbufGetFlagLimitRx⟩]

inductive Step : Sys → Call → Sys → Prop
  | get (s : Sys) (len : Int32) (tx : Nat) (malloc : Option Int)
      (hmalloc : Allows s.live (totLen len.toInt tx) malloc) :
      Step s ⟨.get len tx, none, []⟩
        ⟨(mbGet lim s.sums len.toInt tx malloc).1,
          (mbGet lim s.sums len.toInt tx malloc).2.toList.map (⟨·, totLen len.toInt tx⟩) ++ s.live⟩
  | call (sums sums' : Sums) (as bs ls : List Live) (l : Live) (op : Op)
      (touched : List (Live × Area)) (h : StepOn lim sums (as ++ bs) l op touched sums' ls) :
      Step ⟨sums, as ++ l :: bs⟩ ⟨op, some l, touched⟩ ⟨sums', as ++ ls ++ bs⟩

end

end Wlan
end XR806

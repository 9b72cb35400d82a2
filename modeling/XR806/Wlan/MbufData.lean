import XR806.Wlan.MbufBuf

/-!
# XR806.Wlan.MbufData

What the packets of `mbuf_0.c` contain. The bytes are in a memory of their own, and the calls copy
what the areas of `Wlan.Mbuf` say; the headers of the mbufs are kept apart from it.

* `InBlock`: the data is inside the block of the mbuf, with at least the free space on both sides.
  This is less than `Rep`: the free spaces may have lost their upper bits.
* `Lawful`: what the calls are to do to the data.

The calls do that unless the length is one the code takes for granted: `mb_append` with a negative
length removes bytes, and `mb_adj` cannot negate the smallest number (`lawful_iff`).
-/

namespace XR806
namespace Wlan

abbrev Byte := BitVec 8

abbrev Memory := Int → Byte

/-! ## Bytes in memory -/

/-- The `n` bytes at `addr`. -/
def bytesAt (mem : Memory) (addr n : Int) : List Byte :=
  (List.range n.toNat).map fun i : Nat => mem (addr + i)

/-- The bytes `src 0`, `src 1`, ... are written to an area. -/
def copyTo (src : Int → Byte) (mem : Memory) (t : Area) : Memory := fun a =>
  if t.addr ≤ a ∧ a < t.addr + t.size then src (a - t.addr) else mem a

section

variable {mem mem' : Memory} {src : Int → Byte} {addr k n : Int} {t : Area}

@[simp] theorem length_bytesAt (mem : Memory) (addr n : Int) :
    (bytesAt mem addr n).length = n.toNat := by
  rw [bytesAt, List.length_map, List.length_range]

theorem bytesAt_congr (h : ∀ a, addr ≤ a → a < addr + n → mem a = mem' a) :
    bytesAt mem addr n = bytesAt mem' addr n := by
  refine List.map_congr_left fun i hi => ?_
  have hlt : i < n.toNat := List.mem_range.mp hi
  exact h _ (by omega) (by omega)

theorem bytesAt_append (mem : Memory) (addr : Int) (hk : 0 ≤ k) (hn : 0 ≤ n) :
    bytesAt mem addr (k + n) = bytesAt mem addr k ++ bytesAt mem (addr + k) n := by
  have hsum : (k + n).toNat = k.toNat + n.toNat := Int.toNat_add hk hn
  unfold bytesAt
  rw [hsum, List.range_add, List.map_append, List.map_map]
  refine congrArg _ (List.map_congr_left fun i _ => ?_)
  have hat : addr + ((k.toNat + i : Nat) : Int) = addr + k + i := by omega
  exact congrArg mem hat

theorem copyTo_inside (h : t.addr ≤ addr) (h' : addr < t.addr + t.size) :
    copyTo src mem t addr = src (addr - t.addr) := if_pos ⟨h, h'⟩

theorem copyTo_outside (h : addr < t.addr ∨ t.addr + t.size ≤ addr) :
    copyTo src mem t addr = mem addr := if_neg fun hin => by omega

/-- What has been copied is there. -/
theorem bytesAt_copyTo (hn : n ≤ t.size) :
    bytesAt (copyTo src mem t) t.addr n = bytesAt src 0 n := by
  refine List.map_congr_left fun i hi => ?_
  have hlt : i < n.toNat := List.mem_range.mp hi
  rw [copyTo_inside (by omega) (by omega)]
  exact congrArg src (by omega)

end

/-! ## The calls -/

/-- `cp` is what there is to copy, if anything. -/
inductive DataOp where
  | adj (reqLen : Int32)
  | append (len : Int32) (cp : Option (Int → Byte))
  | dup
  | split (len0 : Int32)

structure Outcome where
  mem : Memory
  m : Mbuf
  made : Option Mbuf
  ok : Bool

/-- Every area read is copied to the area written with it. -/
def copies (mem : Memory) : List Area → List Area → Memory
  | r :: reads, w :: writes => copies (copyTo (fun i => mem (r.addr + i)) mem w) reads writes
  | _, _ => mem

section

variable (lim : Limits) (s : Sums) (mem : Memory) (m : Mbuf) (malloc : Option Int)

def exec : DataOp → Outcome
  | .adj reqLen => ⟨mem, (mbAdj m reqLen.toInt).1, none, (mbAdj m reqLen.toInt).2⟩
  | .append len cp =>
    let r := mbAppend m len.toInt cp.isSome
    ⟨r.2.foldl (copyTo (cp.getD mem)) mem, r.1.1, none, r.1.2⟩
  | .dup =>
    let r := mbDup lim s m malloc
    ⟨copies mem r.2.2.1 r.2.2.2, m, r.2.1, r.2.1.isSome⟩
  | .split len0 =>
    let r := mbSplit lim s m len0.toInt malloc
    ⟨copies mem r.2.2.2.1 r.2.2.2.2, r.2.1, r.2.2.1, r.2.2.1.isSome⟩

end

/-! ## What is wanted -/

def content (mem : Memory) (m : Mbuf) : List Byte := bytesAt mem m.mData m.mLen

structure InBlock (l : Live) : Prop where
  typed : Typed l.m
  nonneg : 0 ≤ l.m.mLen
  head : l.m.mBuf + l.m.mHeadspace ≤ l.m.mData
  tail : l.m.mData + l.m.mLen + l.m.mTailspace ≤ l.m.mBuf + (l.size - mbufSize)
  small : l.size < 2 ^ 31

/-- The buffer of `nm` is outside of the block. -/
def Apart (l : Live) (nm : Mbuf) : Prop :=
  nm.mData + nm.mLen + nm.mTailspace ≤ l.m.mBuf - mbufSize ∨
    l.m.mBuf - mbufSize + l.size ≤ nm.mData - nm.mHeadspace

/-- What a call that has succeeded has done. -/
def Done (mem : Memory) (l : Live) (o : Outcome) : DataOp → Prop
  | .adj reqLen => ∃ removed : List Byte, removed.length = reqLen.toInt.natAbs ∧ o.mem = mem ∧
    content mem l.m = if 0 ≤ reqLen.toInt then removed ++ content o.mem o.m
      else content o.mem o.m ++ removed
  | .append len cp => ∃ added : List Byte, (added.length : Int) = len.toInt ∧
    content o.mem o.m = content mem l.m ++ added ∧
    (∀ src, cp = some src → added = bytesAt src 0 len.toInt) ∧
    ∀ a, a < l.m.mData + l.m.mLen ∨ l.m.mData + l.m.mLen + len.toInt ≤ a → o.mem a = mem a
  | .dup => ∃ nm, o.made = some nm ∧ o.m = l.m ∧ content o.mem nm = content mem l.m ∧
    content o.mem o.m = content mem l.m ∧ Apart l nm
  | .split len0 => ∃ tail, o.made = some tail ∧ (content o.mem o.m).length = len0.toInt ∧
    content o.mem o.m ++ content o.mem tail = content mem l.m ∧ Apart l tail

/-- The laws of the contents. -/
def Lawful (mem : Memory) (l : Live) (op : DataOp) (o : Outcome) : Prop :=
  if o.ok then Done mem l o op
  else content o.mem o.m = content mem l.m ∧ o.m.mHeadspace = l.m.mHeadspace ∧
    o.m.mTailspace = l.m.mTailspace

/-- The lengths for which the calls keep the laws. -/
def LengthOk : DataOp → Prop
  | .adj reqLen => reqLen.toInt ≠ -2 ^ 31
  | .append len _ => 0 ≤ len.toInt
  | _ => True

/-- The size of the block a call asks for. -/
def blockSize (m : Mbuf) : DataOp → Int
  | .dup => totLen (dupLen m) mbufGetFlagLimitRx
  | .split len0 => totLen (m.mLen - len0.toInt) mbufGetFlagLimitRx
  | _ => 0

/-- What `MB_MALLOC` may return: a block of the size, apart from the block of the mbuf. -/
def Grants (l : Live) (size : Int) (malloc : Option Int) : Prop :=
  ∀ p, malloc = some p → 0 ≤ size ∧
    (p + size ≤ l.m.mBuf - mbufSize ∨ l.m.mBuf - mbufSize + l.size ≤ p)

section

variable {lim : Limits} {s s' : Sums} {mem : Memory} {l : Live} {malloc : Option Int}

theorem Rep.inBlock (h : Rep l) : InBlock l := by
  have hdata := h.data
  have hfill := h.fill
  exact ⟨h.typed, h.nonneg, by omega, by omega, h.small⟩

theorem InBlock.len_lt (h : InBlock l) : l.m.mLen + l.m.mTailspace < 2 ^ 31 - mbufSize := by
  have hhead := h.typed.head
  have h1 := h.head
  have h2 := h.tail
  have h3 := h.small
  omega

/-- The bytes of a buffer that stays are the same. -/
theorem content_congr {mem' : Memory} {m : Mbuf}
    (h : ∀ a, m.mData ≤ a → a < m.mData + m.mLen → mem' a = mem a) :
    content mem' m = content mem m := bytesAt_congr h

theorem lawful_done {op : DataOp} {o : Outcome} (hok : o.ok = true) :
    Lawful mem l op o ↔ Done mem l o op := by
  unfold Lawful
  rw [if_pos hok]

theorem lawful_failed {op : DataOp} {o : Outcome} (hok : o.ok = false) (hmem : o.mem = mem)
    (hm : o.m = l.m) : Lawful mem l op o := by
  unfold Lawful
  rw [hok, hmem, hm]
  exact ⟨rfl, rfl, rfl⟩

/-! ## Trimming -/

/-- What `mb_adj` does. The smallest number is its own negative, and passes the check. -/
theorem mbAdj_cases {m : Mbuf} {reqLen : Int} (hle : -2 ^ 31 ≤ reqLen) (hlt : reqLen < 2 ^ 31)
    (hnonneg : 0 ≤ m.mLen) :
    (mbAdj m reqLen = (m, false) ∧ reqLen ≠ -2 ^ 31) ∨
    (mbAdj m reqLen = (mbAdjHead m (-reqLen), true) ∧ 0 ≤ reqLen ∧ reqLen ≤ m.mLen) ∨
    (mbAdj m reqLen = (mbAdjTail m reqLen, true) ∧ reqLen < 0 ∧
      (-reqLen ≤ m.mLen ∨ reqLen = -2 ^ 31)) := by
  unfold mbAdj
  by_cases hfront : reqLen ≥ 0
  · rw [if_pos hfront]
    by_cases hbig : reqLen > m.mLen
    · exact .inl ⟨if_pos hbig, by omega⟩
    · exact .inr (.inl ⟨if_neg hbig, hfront, by omega⟩)
  · rw [if_neg hfront]
    dsimp only
    by_cases hmin : reqLen = -2 ^ 31
    · have hneg : s32 (-reqLen) = -2 ^ 31 := by
        rw [hmin]
        rfl
      have hback : s32 (-s32 (-reqLen)) = reqLen := by
        rw [hneg, hmin]
        rfl
      refine .inr (.inr ⟨?_, by omega, .inr hmin⟩)
      rw [hback, hneg, if_neg (by omega)]
    · have hneg : s32 (-reqLen) = -reqLen := s32_of_lt (by omega) (by omega)
      rw [hneg, Int.neg_neg, s32_of_lt hle hlt]
      by_cases hbig : -reqLen > m.mLen
      · exact .inl ⟨if_pos hbig, hmin⟩
      · exact .inr (.inr ⟨if_neg hbig, by omega, .inl (by omega)⟩)

theorem lawful_adj (h : InBlock l) (reqLen : Int32) :
    Lawful mem l (.adj reqLen) (exec lim s mem l.m malloc (.adj reqLen)) ↔
      reqLen.toInt ≠ -2 ^ 31 := by
  have hle := reqLen.le_toInt
  have hlt := reqLen.toInt_lt
  have htyped := h.typed.len
  have hnonneg := h.nonneg
  have hexec : ∀ m ok, mbAdj l.m reqLen.toInt = (m, ok) →
      exec lim s mem l.m malloc (.adj reqLen) = ⟨mem, m, none, ok⟩ := by
    intro m ok hr
    unfold exec
    dsimp only
    rw [hr]
  rcases mbAdj_cases hle hlt hnonneg with ⟨hr, hne⟩ | ⟨hr, hfront, hfit⟩ | ⟨hr, hback, hfit⟩
  · rw [hexec _ _ hr]
    exact iff_of_true (lawful_failed rfl rfl rfl) hne
  · rw [hexec _ _ hr, lawful_done rfl]
    refine iff_of_true ⟨bytesAt mem l.m.mData reqLen.toInt, ?_, rfl, ?_⟩ (by omega)
    · rw [length_bytesAt]
      omega
    · have hsplit := bytesAt_append mem l.m.mData hfront
        (show 0 ≤ l.m.mLen - reqLen.toInt by omega)
      have hlen : s32 (l.m.mLen + -reqLen.toInt) = l.m.mLen - reqLen.toInt :=
        s32_of_lt (by omega) (by omega)
      rw [if_pos hfront]
      unfold content mbAdjHead
      dsimp only
      rw [hlen, Int.sub_neg, ← hsplit]
      congr 1
      omega
  · rw [hexec _ _ hr, lawful_done rfl]
    have hlen : s32 (l.m.mLen + reqLen.toInt) = l.m.mLen + reqLen.toInt :=
      s32_of_lt (by omega) (by omega)
    by_cases hmin : reqLen.toInt = -2 ^ 31
    · -- more is trimmed than there is
      refine iff_of_false ?_ (not_not.mpr hmin)
      rintro ⟨removed, hcount, -, hcontent⟩
      have hlength := congrArg List.length hcontent
      rw [if_neg (by omega), List.length_append, hcount, content, length_bytesAt] at hlength
      omega
    · refine iff_of_true ⟨bytesAt mem (l.m.mData + (l.m.mLen + reqLen.toInt)) (-reqLen.toInt), ?_,
        rfl, ?_⟩ hmin
      · rw [length_bytesAt]
        omega
      · have hsplit := bytesAt_append mem l.m.mData
          (show 0 ≤ l.m.mLen + reqLen.toInt by omega) (show 0 ≤ -reqLen.toInt by omega)
        rw [if_neg (by omega)]
        unfold content mbAdjTail
        dsimp only
        rw [hlen, ← hsplit]
        congr 1
        omega

/-! ## Appending -/

/-- What `mb_append` does when it does not refuse, with what its copy leaves. -/
theorem exec_append (lim : Limits) (s : Sums) (mem : Memory) (malloc : Option Int) {m : Mbuf}
    {len : Int32} (cp : Option (Int → Byte)) (hpos : 0 ≤ len.toInt)
    (hfit : len.toInt ≤ m.mTailspace) :
    ∃ mem', exec lim s mem m malloc (.append len cp) =
        ⟨mem', mbAdjTail m len.toInt, none, true⟩ ∧
      (∀ src, cp = some src → bytesAt mem' (m.mData + m.mLen) len.toInt =
        bytesAt src 0 len.toInt) ∧
      ∀ a, a < m.mData + m.mLen ∨ m.mData + m.mLen + len.toInt ≤ a → mem' a = mem a := by
  have hle := len.toInt_lt
  have hsize : toU32 len.toInt = len.toInt := toU32_of_lt hpos (by omega)
  unfold exec mbAppend
  dsimp only
  rw [if_neg (by omega)]
  refine ⟨_, rfl, ?_⟩
  cases cp with
  | none => exact ⟨nofun, fun a _ => rfl⟩
  | some src =>
    refine ⟨?_, fun a ha => copyTo_outside (by rw [memcpyArea, hsize]; exact ha)⟩
    rintro src' heq
    cases heq
    exact bytesAt_copyTo (Int.le_of_eq (by rw [memcpyArea, hsize]))

theorem lawful_append (h : InBlock l) (len : Int32) (cp : Option (Int → Byte)) :
    Lawful mem l (.append len cp) (exec lim s mem l.m malloc (.append len cp)) ↔
      0 ≤ len.toInt := by
  have htail := h.typed.tail
  have hnonneg := h.nonneg
  have hroom := h.len_lt
  by_cases hneg : len.toInt < 0
  · -- a negative length is below the free space
    refine iff_of_false ?_ (by omega)
    have hok : (exec lim s mem l.m malloc (.append len cp)).ok = true := by
      unfold exec mbAppend
      dsimp only
      rw [if_neg (by omega)]
    rw [lawful_done hok]
    rintro ⟨added, hcount, -⟩
    omega
  refine iff_of_true ?_ (by omega)
  by_cases hbig : len.toInt > l.m.mTailspace
  · have hexec : exec lim s mem l.m malloc (.append len cp) = ⟨mem, l.m, none, false⟩ := by
      unfold exec mbAppend
      dsimp only
      rw [if_pos hbig]
      rfl
    rw [hexec]
    exact lawful_failed rfl rfl rfl
  obtain ⟨mem', hexec, hcopy, hframe⟩ := exec_append lim s mem malloc cp (Int.not_lt.mp hneg)
    (Int.not_lt.mp hbig)
  rw [hexec, lawful_done rfl]
  refine ⟨bytesAt mem' (l.m.mData + l.m.mLen) len.toInt, ?_, ?_, hcopy, hframe⟩
  · rw [length_bytesAt]
    omega
  · have hlen : s32 (l.m.mLen + len.toInt) = l.m.mLen + len.toInt := by
      unfold mbufSize at hroom
      exact s32_of_lt (by omega) (by omega)
    have hsame : content mem l.m = bytesAt mem' l.m.mData l.m.mLen :=
      bytesAt_congr fun a h1 h2 => (hframe a (.inl h2)).symm
    rw [hsame, ← bytesAt_append _ _ hnonneg (by omega)]
    unfold content mbAdjTail
    dsimp only
    rw [hlen]

/-! ## New mbufs -/

/-- Bytes that are copied to somewhere else. -/
theorem copies_single (mem : Memory) (src dst : Int) {n : Int} (hn : 0 ≤ n) (hlt : n < 2 ^ 32) :
    bytesAt (copies mem [memcpyArea src n] [memcpyArea dst n]) dst n = bytesAt mem src n ∧
      ∀ a, a < dst ∨ dst + n ≤ a →
        copies mem [memcpyArea src n] [memcpyArea dst n] a = mem a := by
  have hcopies : copies mem [memcpyArea src n] [memcpyArea dst n] =
      copyTo (fun i => mem (src + i)) mem ⟨dst, n⟩ := by
    rw [memcpyArea, memcpyArea, toU32_of_lt hn hlt]
    rfl
  rw [hcopies]
  constructor
  · refine (bytesAt_copyTo (t := ⟨dst, n⟩) (Int.le_refl n)).trans ?_
    refine List.map_congr_left fun i _ => ?_
    rw [Int.zero_add]
  · intro a ha
    exact copyTo_outside ha

/-- The block `mb_get` asks for without space for TX. -/
theorem totLen_rx {len : Int} (hlen : 0 ≤ len) (hlt : len < 2 ^ 31)
    (hsize : 0 ≤ totLen len mbufGetFlagLimitRx) :
    totLen len mbufGetFlagLimitRx = mbufSize + len := by
  have htot : totLen len mbufGetFlagLimitRx = s32 (mbufSize + len) := if_neg (by decide)
  rw [htot] at hsize ⊢
  unfold s32 mbufSize at *
  omega

theorem InBlock.spaces (h : InBlock l) :
    l.m.mHeadspace + l.m.mLen + l.m.mTailspace ≤ l.size - mbufSize := by
  have h1 := h.head
  have h2 := h.tail
  omega

/-- What `mb_dup` makes of a block at `p`. -/
theorem mbDup_cases (h : InBlock l)
    (hmalloc : Grants l (totLen (dupLen l.m) mbufGetFlagLimitRx) malloc) :
    (∃ s', mbDup lim s l.m malloc = (s', none, [], [])) ∨
    ∃ s' nm, mbDup lim s l.m malloc =
        (s', some nm, [memcpyArea l.m.mData l.m.mLen], [memcpyArea nm.mData l.m.mLen]) ∧
      nm.mLen = l.m.mLen ∧ nm.mHeadspace = l.m.mHeadspace ∧ nm.mTailspace = l.m.mTailspace ∧
      Apart l nm := by
  have hhead := h.typed.head
  have htail := h.typed.tail
  have hnonneg := h.nonneg
  have hspaces := h.spaces
  have hsmall := h.small
  have h80 : mbufSize = 80 := rfl
  unfold mbDup
  generalize hget : mbGet lim s (dupLen l.m) mbufGetFlagLimitRx malloc = res
  obtain ⟨s', _ | nm⟩ := res
  · exact .inl ⟨s', rfl⟩
  · obtain ⟨hpos, p, hp, rfl⟩ := mbGet_some hget
    obtain ⟨hsize, hfresh⟩ := hmalloc p hp
    have hdup : dupLen l.m = l.m.mLen + l.m.mHeadspace + l.m.mTailspace :=
      s32_of_lt (by omega) (by omega)
    rw [totLen_rx hpos (by omega) hsize] at hfresh
    have hfront : s32 (dupLen l.m + -l.m.mHeadspace) = l.m.mLen + l.m.mTailspace := by
      rw [hdup]
      exact (s32_of_lt (by omega) (by omega)).trans (by omega)
    have hback : s32 (l.m.mLen + l.m.mTailspace + -l.m.mTailspace) = l.m.mLen :=
      (s32_of_lt (by omega) (by omega)).trans (by omega)
    have hu16 : ∀ x : Int, 0 ≤ x → x < 2 ^ 16 → u16 (0 - -x) = x := fun x h1 h2 =>
      (u16_of_lt (by omega) (by omega)).trans (by omega)
    refine .inr ⟨s', _, rfl, ?_, hu16 _ hhead.1 hhead.2, hu16 _ htail.1 htail.2, ?_⟩
    · change s32 (s32 (dupLen l.m + -l.m.mHeadspace) + -l.m.mTailspace) = _
      rw [hfront, hback]
    · change p + mbufSize - -l.m.mHeadspace +
          s32 (s32 (dupLen l.m + -l.m.mHeadspace) + -l.m.mTailspace) +
            u16 (0 - -l.m.mTailspace) ≤ l.m.mBuf - mbufSize ∨
        l.m.mBuf - mbufSize + l.size ≤
          p + mbufSize - -l.m.mHeadspace - u16 (0 - -l.m.mHeadspace)
      rw [hfront, hback, hu16 _ hhead.1 hhead.2, hu16 _ htail.1 htail.2]
      omega

theorem lawful_dup (h : InBlock l)
    (hmalloc : Grants l (totLen (dupLen l.m) mbufGetFlagLimitRx) malloc) :
    Lawful mem l .dup (exec lim s mem l.m malloc .dup) := by
  have hlen := h.typed.len
  have hnonneg := h.nonneg
  have hhead := h.typed.head
  have htail := h.typed.tail
  have hlo := h.head
  have hhi := h.tail
  have h80 : mbufSize = 80 := rfl
  unfold exec
  dsimp only
  rcases mbDup_cases h hmalloc with ⟨s', hr⟩ | ⟨s', nm, hr, hsame, hhead', htail', hapart⟩
  · rw [hr]
    exact lawful_failed rfl rfl rfl
  · rw [hr, lawful_done rfl]
    obtain ⟨hcopy, hframe⟩ := copies_single mem l.m.mData nm.mData hnonneg
      (show l.m.mLen < 2 ^ 32 by omega)
    refine ⟨nm, rfl, rfl, ?_, ?_, hapart⟩
    · unfold content
      rw [hsame]
      exact hcopy
    · refine content_congr fun a (h1 : l.m.mData ≤ a) (h2 : a < l.m.mData + l.m.mLen) =>
        hframe a ?_
      unfold Apart at hapart
      omega

/-- What `mb_split` makes of a block at `p`. -/
theorem mbSplit_cases (h : InBlock l) {len0 : Int}
    (hmalloc : Grants l (totLen (l.m.mLen - len0) mbufGetFlagLimitRx) malloc) :
    (∃ s', mbSplit lim s l.m len0 malloc = (s', l.m, none, [], [])) ∨
    ∃ s' m, mbSplit lim s l.m len0 malloc =
        (s', mbAdjTail l.m (-(l.m.mLen - len0)), some m,
          [memcpyArea (l.m.mData + len0) (l.m.mLen - len0)],
          [memcpyArea m.mData (l.m.mLen - len0)]) ∧
      0 < len0 ∧ len0 < l.m.mLen ∧ m.mLen = l.m.mLen - len0 ∧ 0 ≤ m.mHeadspace ∧
      0 ≤ m.mTailspace ∧ Apart l m := by
  have hlen := h.typed.len
  unfold mbSplit
  split
  · exact .inl ⟨s, rfl⟩
  · rename_i hrange
    dsimp only
    generalize hget : mbGet lim s (l.m.mLen - len0) mbufGetFlagLimitRx malloc = res
    obtain ⟨s', _ | m⟩ := res
    · exact .inl ⟨s', rfl⟩
    · obtain ⟨hpos, p, hp, rfl⟩ := mbGet_some hget
      obtain ⟨hsize, hfresh⟩ := hmalloc p hp
      rw [totLen_rx hpos (by omega) hsize] at hfresh
      refine .inr ⟨s', _, rfl, by omega, by omega, rfl, Int.le_refl _, Int.le_refl _, ?_⟩
      change p + mbufSize + (l.m.mLen - len0) + 0 ≤ l.m.mBuf - mbufSize ∨
        l.m.mBuf - mbufSize + l.size ≤ p + mbufSize - 0
      unfold mbufSize at *
      omega

theorem lawful_split (h : InBlock l) (len0 : Int32)
    (hmalloc : Grants l (totLen (l.m.mLen - len0.toInt) mbufGetFlagLimitRx) malloc) :
    Lawful mem l (.split len0) (exec lim s mem l.m malloc (.split len0)) := by
  have hlen := h.typed.len
  have hhead := h.typed.head
  have htail := h.typed.tail
  have hlo := h.head
  have hhi := h.tail
  have h80 : mbufSize = 80 := rfl
  unfold exec
  dsimp only
  rcases mbSplit_cases h hmalloc with ⟨s', hr⟩ | ⟨s', m, hr, hpos, hlt, hm, hfront, hback, hapart⟩
  · rw [hr]
    exact lawful_failed rfl rfl rfl
  · rw [hr, lawful_done rfl]
    obtain ⟨hcopy, hframe⟩ := copies_single mem (l.m.mData + len0.toInt) m.mData
      (show 0 ≤ l.m.mLen - len0.toInt by omega) (by omega)
    have hrest : s32 (l.m.mLen + -(l.m.mLen - len0.toInt)) = len0.toInt :=
      (s32_of_lt (by omega) (by omega)).trans (by omega)
    have hkept : content (copies mem [memcpyArea (l.m.mData + len0.toInt) (l.m.mLen - len0.toInt)]
        [memcpyArea m.mData (l.m.mLen - len0.toInt)])
        (mbAdjTail l.m (-(l.m.mLen - len0.toInt))) = bytesAt mem l.m.mData len0.toInt := by
      unfold content mbAdjTail
      dsimp only
      rw [hrest]
      refine bytesAt_congr fun a h1 h2 => hframe a ?_
      unfold Apart at hapart
      omega
    refine ⟨m, rfl, ?_, ?_, hapart⟩
    · rw [hkept, length_bytesAt]
      omega
    · rw [hkept]
      unfold content
      rw [hm, hcopy, ← bytesAt_append _ _ (by omega) (by omega)]
      congr 1
      omega

/-! ## The mbufs stay in their blocks -/

theorem u16_le {x : Int} (h : 0 ≤ x) : u16 x ≤ x := by
  unfold u16
  omega

theorem InBlock.adjHead (h : InBlock l) {n : Int} (hn : 0 ≤ n) (hle : n ≤ l.m.mLen) :
    InBlock { l with m := mbAdjHead l.m (-n) } := by
  have hlen := h.typed.len
  have hhead := h.typed.head
  have h1 := h.head
  have h2 := h.tail
  have hu := u16_le (show 0 ≤ l.m.mHeadspace - -n by omega)
  have hs : s32 (l.m.mLen + -n) = l.m.mLen - n := (s32_of_lt (by omega) (by omega)).trans (by omega)
  refine ⟨h.typed.adjHead _, ?_, ?_, ?_, h.small⟩
  · simp only [mbAdjHead, hs]
    omega
  · simp only [mbAdjHead]
    omega
  · simp only [mbAdjHead, hs]
    omega

theorem InBlock.adjTail (h : InBlock l) {n : Int} (hn : n ≤ l.m.mTailspace)
    (hle : 0 ≤ l.m.mLen + n) : InBlock { l with m := mbAdjTail l.m n } := by
  have hlen := h.typed.len
  have hroom := h.len_lt
  have h2 := h.tail
  have h80 : mbufSize = 80 := rfl
  have hu := u16_le (show 0 ≤ l.m.mTailspace - n by omega)
  have hs : s32 (l.m.mLen + n) = l.m.mLen + n := s32_of_lt (by omega) (by omega)
  refine ⟨h.typed.adjTail _, ?_, h.head, ?_, h.small⟩
  · simp only [mbAdjTail, hs]
    exact hle
  · simp only [mbAdjTail, hs]
    omega

theorem InBlock.pkthdr {d m : Mbuf} {size pktlen : Int} (h : InBlock ⟨d, size⟩) :
    InBlock ⟨mbPkthdrInit d m pktlen, size⟩ :=
  ⟨typed_pkthdr h.typed pktlen, h.nonneg, h.head, h.tail, h.small⟩

theorem inBlock_new {p len : Int} (hlen : 0 ≤ len) (hlt : len < 2 ^ 31)
    (hsize : 0 ≤ totLen len mbufGetFlagLimitRx) :
    InBlock ⟨newMbuf p len mbufGetFlagLimitRx, totLen len mbufGetFlagLimitRx⟩ := by
  have htot : totLen len mbufGetFlagLimitRx < 2 ^ 31 := by
    rw [show totLen len mbufGetFlagLimitRx = s32 (mbufSize + len) from if_neg (by decide)]
    exact (typed_s32 _).2
  exact (rep_new hlen hlt ⟨hsize, htot⟩).inBlock

theorem InBlock.dup (h : InBlock l) {r : Option Mbuf} {reads writes : List Area}
    (hmalloc : Grants l (totLen (dupLen l.m) mbufGetFlagLimitRx) malloc)
    (hr : mbDup lim s l.m malloc = (s', r, reads, writes)) (nm : Mbuf) (hnm : r = some nm) :
    InBlock ⟨nm, totLen (dupLen l.m) mbufGetFlagLimitRx⟩ := by
  have hhead := h.typed.head
  have htail := h.typed.tail
  have hnonneg := h.nonneg
  have hspaces := h.spaces
  have hsmall := h.small
  have h80 : mbufSize = 80 := rfl
  unfold mbDup at hr
  generalize hget : mbGet lim s (dupLen l.m) mbufGetFlagLimitRx malloc = res at hr
  obtain ⟨s₁, _ | m⟩ := res
  · cases hr
    cases hnm
  · obtain ⟨hpos, p, hp, rfl⟩ := mbGet_some hget
    cases hr
    cases hnm
    have hdup : dupLen l.m = l.m.mLen + l.m.mHeadspace + l.m.mTailspace :=
      s32_of_lt (by omega) (by omega)
    have hlen : (newMbuf p (dupLen l.m) mbufGetFlagLimitRx).mLen = dupLen l.m := rfl
    have hnew := inBlock_new (p := p) hpos (by omega) (hmalloc p hp).1
    have hfront := hnew.adjHead hhead.1 (by rw [hlen]; omega)
    have hshort : (mbAdjHead (newMbuf p (dupLen l.m) mbufGetFlagLimitRx) (-l.m.mHeadspace)).mLen =
        l.m.mLen + l.m.mTailspace := by
      change s32 (dupLen l.m + -l.m.mHeadspace) = _
      rw [hdup]
      exact (s32_of_lt (by omega) (by omega)).trans (by omega)
    have hback := hfront.adjTail (n := -l.m.mTailspace)
      (by
        have hspace := hfront.typed.tail
        omega)
      (by
        rw [hshort]
        omega)
    exact hback.pkthdr

theorem InBlock.split (h : InBlock l) {len0 : Int} {m0 : Mbuf} {r : Option Mbuf}
    {reads writes : List Area}
    (hmalloc : Grants l (totLen (l.m.mLen - len0) mbufGetFlagLimitRx) malloc)
    (hr : mbSplit lim s l.m len0 malloc = (s', m0, r, reads, writes)) :
    InBlock { l with m := m0 } ∧ ∀ m, r = some m →
      InBlock ⟨m, totLen (l.m.mLen - len0) mbufGetFlagLimitRx⟩ := by
  have hlen := h.typed.len
  have htail := h.typed.tail
  unfold mbSplit at hr
  split at hr
  · cases hr
    exact ⟨h, nofun⟩
  · dsimp only at hr
    generalize hget : mbGet lim s (l.m.mLen - len0) mbufGetFlagLimitRx malloc = res at hr
    obtain ⟨s₁, _ | m⟩ := res
    · cases hr
      exact ⟨h, nofun⟩
    · obtain ⟨hpos, p, hp, rfl⟩ := mbGet_some hget
      cases hr
      refine ⟨h.adjTail (by omega) (by omega), ?_⟩
      intro m hm
      cases hm
      exact (inBlock_new hpos (by omega) (hmalloc p hp).1).pkthdr

/-- What a call leaves is in its blocks again. -/
theorem InBlock.exec (h : InBlock l) (op : DataOp) (hmalloc : Grants l (blockSize l.m op) malloc)
    (hlength : LengthOk op) :
    InBlock { l with m := (exec lim s mem l.m malloc op).m } ∧
      ∀ nm, (exec lim s mem l.m malloc op).made = some nm → InBlock ⟨nm, blockSize l.m op⟩ := by
  cases op with
  | adj reqLen =>
    refine ⟨?_, nofun⟩
    change InBlock { l with m := (mbAdj l.m reqLen.toInt).1 }
    rcases mbAdj_cases reqLen.le_toInt reqLen.toInt_lt h.nonneg with
      ⟨hr, -⟩ | ⟨hr, hfront, hfit⟩ | ⟨hr, hback, hfit⟩
    · rw [hr]
      exact h
    · rw [hr]
      exact h.adjHead hfront hfit
    · have htail := h.typed.tail
      rw [hr]
      exact h.adjTail (by omega) (by have := hfit.resolve_right hlength; omega)
  | append len cp =>
    refine ⟨?_, nofun⟩
    have hnonneg := h.nonneg
    have hpos : 0 ≤ len.toInt := hlength
    change InBlock { l with m := (mbAppend l.m len.toInt cp.isSome).1.1 }
    unfold mbAppend
    split
    · exact h
    · exact h.adjTail (by omega) (by omega)
  | dup => exact ⟨h, fun nm hnm => h.dup hmalloc rfl nm hnm⟩
  | split len0 => exact h.split hmalloc rfl

/-! ## All calls -/

/-- The calls keep the laws of the contents exactly for the lengths that are in order, and then the
laws hold of what they leave again. -/
theorem lawful_iff (h : InBlock l) (op : DataOp) (hmalloc : Grants l (blockSize l.m op) malloc) :
    (Lawful mem l op (exec lim s mem l.m malloc op) ↔ LengthOk op) ∧
    (LengthOk op → InBlock { l with m := (exec lim s mem l.m malloc op).m } ∧
      ∀ nm, (exec lim s mem l.m malloc op).made = some nm → InBlock ⟨nm, blockSize l.m op⟩) := by
  refine ⟨?_, h.exec op hmalloc⟩
  cases op with
  | adj reqLen => exact lawful_adj h reqLen
  | append len cp => exact lawful_append h len cp
  | dup => exact iff_of_true (lawful_dup h hmalloc) trivial
  | split len0 => exact iff_of_true (lawful_split h len0 hmalloc) trivial

end

/-- An mbuf with 16 bytes for TX. -/
theorem smallMbuf_inBlock : InBlock smallMbuf :=
  ⟨⟨by decide, by decide, by decide⟩, by decide, by decide, by decide, by decide⟩

/-- 20 bytes less are taken as well. -/
theorem append_removes : ¬Lawful (fun _ => 7) smallMbuf (.append (-20) none)
    (exec psramLimits ⟨0, 0, 0⟩ (fun _ => 7) smallMbuf.m none (.append (-20) none)) := by
  rw [lawful_append smallMbuf_inBlock]
  decide

/-- The first six bytes and the other ten. -/
theorem lawful_iff_split : Lawful (fun _ => 7) smallMbuf (.split 6)
    (exec psramLimits ⟨0, 0, 0⟩ (fun _ => 7) smallMbuf.m (some 0x30000) (.split 6)) := by
  have hmalloc : Grants smallMbuf (blockSize smallMbuf.m (.split 6)) (some 0x30000) := by
    intro p hp
    cases hp
    exact ⟨by decide, by decide⟩
  exact (lawful_iff smallMbuf_inBlock (.split 6) hmalloc).1.mpr trivial

end Wlan
end XR806

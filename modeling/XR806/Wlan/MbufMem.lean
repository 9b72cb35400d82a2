import Mathlib.Algebra.BigOperators.Group.List.Basic
import XR806.Wlan.Mbuf
import XR806.Trans.Run

/-!
# XR806.Wlan.MbufMem

The memory the mbufs are accounted with. Under any calls the three sums are the sizes of the mbufs
in use that carry the flags, and stay below their limits (`accounting_ok`).

Two slips break this. `mb_limit_mem_inc` has taken the TX sum up when the RX limit refuses, and
leaves it there (`rx_refuses_late`). And the free space of an mbuf has 16 bits, so trimming more
than 64K loses the rest of it when the mbuf is freed.
-/

namespace XR806
namespace Wlan

/-- The conversions of the free space to 16 bits lose nothing. -/
def SpacesFit (m : Mbuf) : Op → Prop
  | .adj reqLen =>
    (0 ≤ reqLen.toInt → reqLen.toInt ≤ m.mLen → m.mHeadspace + reqLen.toInt < 2 ^ 16) ∧
    (reqLen.toInt < 0 → -reqLen.toInt ≤ m.mLen → m.mTailspace - reqLen.toInt < 2 ^ 16) ∧
    reqLen.toInt ≠ -2 ^ 31
  | .split len0 =>
    0 < len0.toInt → len0.toInt < m.mLen → m.mTailspace + (m.mLen - len0.toInt) < 2 ^ 16
  | .append len _ => m.mTailspace - len.toInt < 2 ^ 16
  | .reserve len headspace tailspace =>
    s32 (headspace.toNat + len.toInt + tailspace.toNat) ≤
        s32 (m.mHeadspace + m.mLen + m.mTailspace) →
      0 ≤ s32 (m.mHeadspace + m.mLen + m.mTailspace) - tailspace.toNat - len.toInt ∧
      s32 (m.mHeadspace + m.mLen + m.mTailspace) - tailspace.toNat - len.toInt < 2 ^ 16
  | _ => True

/-- What the types of the fields promise. -/
structure Typed (m : Mbuf) : Prop where
  head : 0 ≤ m.mHeadspace ∧ m.mHeadspace < 2 ^ 16
  tail : 0 ≤ m.mTailspace ∧ m.mTailspace < 2 ^ 16
  len : -2 ^ 31 ≤ m.mLen ∧ m.mLen < 2 ^ 31

section

variable {m : Mbuf}

theorem typed_u16 (x : Int) : 0 ≤ u16 x ∧ u16 x < 2 ^ 16 := by
  unfold u16
  omega

theorem typed_s32 (x : Int) : -2 ^ 31 ≤ s32 x ∧ s32 x < 2 ^ 31 := by
  unfold s32
  omega

theorem Typed.adjHead (h : Typed m) (increment : Int) : Typed (mbAdjHead m increment) :=
  ⟨typed_u16 _, h.tail, typed_s32 _⟩

theorem Typed.adjTail (h : Typed m) (increment : Int) : Typed (mbAdjTail m increment) :=
  ⟨h.head, typed_u16 _, typed_s32 _⟩

theorem Typed.adj (h : Typed m) (reqLen : Int) : Typed (mbAdj m reqLen).1 := by
  unfold mbAdj
  split
  · split
    · exact h
    · exact h.adjHead _
  · dsimp only
    split
    · exact h
    · exact h.adjTail _

theorem Typed.append (h : Typed m) (len : Int) (cp : Bool) : Typed (mbAppend m len cp).1.1 := by
  unfold mbAppend
  split
  · exact h
  · exact h.adjTail _

theorem Typed.reserve (h : Typed m) (len : Int32) (headspace tailspace : UInt16) :
    Typed (mbReserve m len.toInt headspace.toNat tailspace.toNat).1 := by
  unfold mbReserve
  dsimp only
  split
  · exact h
  · have hlt := tailspace.toNat_lt
    have htail : 0 ≤ (tailspace.toNat : Int) ∧ (tailspace.toNat : Int) < 2 ^ 16 := by omega
    exact ⟨typed_u16 _, htail, ⟨len.le_toInt, len.toInt_lt⟩⟩

theorem Typed.prepend (h : Typed m) {plen : Int} {m' : Mbuf} (hm : mbPrepend m plen = some m') :
    Typed m' := by
  unfold mbPrepend at hm
  split at hm
  · cases hm
    exact ⟨typed_u16 _, h.tail, typed_s32 _⟩
  · cases hm

theorem mbPullup_some {len : Int} {m' : Mbuf} (hm : mbPullup m len = some m') : m' = m := by
  unfold mbPullup at hm
  split at hm
  · cases hm
  · cases hm
    rfl

theorem typed_new (p : Int) (len : Int) (tx : Nat) (hlen : -2 ^ 31 ≤ len ∧ len < 2 ^ 31) :
    Typed (newMbuf p len tx) := by
  refine ⟨?_, ?_, hlen⟩
  · unfold newMbuf mbufHeadSpace
    dsimp only
    split <;> omega
  · unfold newMbuf mbufTailSpace
    dsimp only
    split <;> omega

/-! ## The size stays -/

theorem size_adjHead {increment : Int}
    (hfit : 0 ≤ m.mHeadspace - increment ∧ m.mHeadspace - increment < 2 ^ 16) :
    (mbAdjHead m increment).size = m.size := by
  have hhead := u16_of_lt hfit.1 hfit.2
  simp only [Mbuf.size, mbAdjHead, hhead]
  unfold s32
  omega

theorem size_adjTail {increment : Int}
    (hfit : 0 ≤ m.mTailspace - increment ∧ m.mTailspace - increment < 2 ^ 16) :
    (mbAdjTail m increment).size = m.size := by
  have htail := u16_of_lt hfit.1 hfit.2
  simp only [Mbuf.size, mbAdjTail, htail]
  unfold s32
  omega

theorem size_adj (h : Typed m) {reqLen : Int32} (hfit : SpacesFit m (.adj reqLen)) :
    (mbAdj m reqLen.toInt).1.size = m.size := by
  obtain ⟨hhead, htail, hmin⟩ := hfit
  have hle := reqLen.le_toInt
  have hlt := reqLen.toInt_lt
  have hheadspace := h.head
  have htailspace := h.tail
  unfold mbAdj
  split
  · split
    · rfl
    · exact size_adjHead (by omega)
  · have hneg : s32 (-reqLen.toInt) = -reqLen.toInt := s32_of_lt (by omega) (by omega)
    dsimp only
    rw [hneg, Int.neg_neg, s32_of_lt hle hlt]
    split
    · rfl
    · exact size_adjTail (by omega)

theorem size_append {len : Int32} {cp : Bool} (hfit : SpacesFit m (.append len cp)) :
    (mbAppend m len.toInt cp).1.1.size = m.size := by
  have hfit : m.mTailspace - len.toInt < 2 ^ 16 := hfit
  unfold mbAppend
  split
  · rfl
  · exact size_adjTail (by omega)

theorem size_reserve {len : Int32} {headspace tailspace : UInt16}
    (hfit : SpacesFit m (.reserve len headspace tailspace)) :
    (mbReserve m len.toInt headspace.toNat tailspace.toNat).1.size = m.size := by
  unfold mbReserve
  dsimp only
  split
  · rfl
  · obtain ⟨hlo, hhi⟩ := hfit (by omega)
    simp only [Mbuf.size, u16_of_lt hlo hhi]
    unfold s32
    omega

theorem size_prepend (h : Typed m) {plen : Int} {m' : Mbuf} (hm : mbPrepend m plen = some m') :
    m'.size = m.size := by
  have hhead := h.head
  unfold mbPrepend at hm
  split at hm
  · cases hm
    simp only [Mbuf.size, u16_of_lt (x := m.mHeadspace - plen) (by omega) (by omega)]
    unfold s32
    omega
  · cases hm

end

/-! ## The sums -/

/-- The sums with `len` more, or less. -/
def Sums.add (s : Sums) (flag : Nat) (len : Int) : Sums where
  tx := if hasFlag flag mbufGetFlagLimitTx then s.tx + len else s.tx
  rx := if hasFlag flag mbufGetFlagLimitRx then s.rx + len else s.rx
  txrx := s.txrx + len

/-- Numbers of `int32_t` that are not negative. -/
structure Sums.Ok (s : Sums) : Prop where
  tx : 0 ≤ s.tx ∧ s.tx < 2 ^ 31
  rx : 0 ≤ s.rx ∧ s.rx < 2 ^ 31
  txrx : 0 ≤ s.txrx ∧ s.txrx < 2 ^ 31

/-- Only the RX limit refuses, when TX has been counted. -/
def LateRefusal (lim : Limits) (s : Sums) (flag : Nat) (len : Int) : Prop :=
  ¬full lim.txrx s.txrx len ∧ hasFlag flag mbufGetFlagLimitTx ∧ ¬full lim.tx s.tx len ∧
    hasFlag flag mbufGetFlagLimitRx ∧ full lim.rx s.rx len

/-- None of the sums that have `len` more is above its limit. -/
structure Room (lim : Limits) (s : Sums) (flag : Nat) (len : Int) : Prop where
  tx : hasFlag flag mbufGetFlagLimitTx → ¬full lim.tx s.tx len
  rx : hasFlag flag mbufGetFlagLimitRx → ¬full lim.rx s.rx len
  txrx : ¬full lim.txrx s.txrx len

section

variable {lim : Limits} {s s' : Sums} {flag : Nat} {len : Int} {malloc : Option Int}

/-- The sums go up by 32-bit additions, or stay. -/
theorem mbLimitMemInc_cases (hlate : ¬LateRefusal lim s flag len) :
    mbLimitMemInc lim s flag len = (s, false) ∨ Room lim s flag len ∧
      mbLimitMemInc lim s flag len =
        (⟨if hasFlag flag mbufGetFlagLimitTx then s32 (s.tx + len) else s.tx,
          if hasFlag flag mbufGetFlagLimitRx then s32 (s.rx + len) else s.rx,
          s32 (s.txrx + len)⟩, true) := by
  unfold mbLimitMemInc mbLimitMemIncRx
  by_cases hsum : full lim.txrx s.txrx len
  · rw [if_pos hsum]
    exact .inl rfl
  rw [if_neg hsum]
  by_cases htx : hasFlag flag mbufGetFlagLimitTx
  · by_cases hfull : full lim.tx s.tx len
    · rw [if_pos htx, if_pos hfull]
      exact .inl rfl
    rw [if_pos htx, if_neg hfull]
    by_cases hrx : hasFlag flag mbufGetFlagLimitRx
    · by_cases hlast : full lim.rx s.rx len
      · exact absurd ⟨hsum, htx, hfull, hrx, hlast⟩ hlate
      · rw [if_pos hrx, if_neg hlast, if_pos htx, if_pos hrx]
        exact .inr ⟨⟨fun _ => hfull, fun _ => hlast, hsum⟩, rfl⟩
    · rw [if_neg hrx, if_pos htx, if_neg hrx]
      exact .inr ⟨⟨fun _ => hfull, fun h => absurd h hrx, hsum⟩, rfl⟩
  · rw [if_neg htx]
    by_cases hrx : hasFlag flag mbufGetFlagLimitRx
    · by_cases hlast : full lim.rx s.rx len
      · rw [if_pos hrx, if_pos hlast]
        exact .inl rfl
      · rw [if_pos hrx, if_neg hlast, if_neg htx, if_pos hrx]
        exact .inr ⟨⟨fun h => absurd h htx, fun _ => hlast, hsum⟩, rfl⟩
    · rw [if_neg hrx, if_neg htx, if_neg hrx]
      exact .inr ⟨⟨fun h => absurd h htx, fun h => absurd h hrx, hsum⟩, rfl⟩

/-- A sum that is counted or not, when it is in range. -/
theorem ite_s32 {P : Prop} [Decidable P] {x y : Int} (h : 0 ≤ (if P then x else y) ∧
    (if P then x else y) < 2 ^ 31) : (if P then s32 x else y) = if P then x else y := by
  split at h
  · rw [if_pos ‹_›, if_pos ‹_›]
    exact s32_of_lt (by omega) h.2
  · rw [if_neg ‹_›, if_neg ‹_›]

theorem s32_undo {x : Int} (h : 0 ≤ x ∧ x < 2 ^ 31) : s32 (s32 (x + len) - len) = x := by
  unfold s32
  omega

theorem ite_undo {P : Prop} [Decidable P] {x : Int} (h : 0 ≤ x ∧ x < 2 ^ 31) :
    (if P then s32 ((if P then s32 (x + len) else x) - len) else
      if P then s32 (x + len) else x) = x := by
  by_cases hp : P
  · simp only [if_pos hp]
    exact s32_undo h
  · simp only [if_neg hp]

theorem mbLimitMemDec_add (hok : (s.add flag (-len)).Ok) :
    mbLimitMemDec s flag len = s.add flag (-len) := by
  obtain ⟨htx, hrx, htxrx⟩ := hok
  have hsum : s32 (s.txrx + -len) = s.txrx + -len :=
    s32_of_lt (Int.le_trans (by decide) htxrx.1) htxrx.2
  unfold mbLimitMemDec
  rw [Int.sub_eq_add_neg, Int.sub_eq_add_neg, Int.sub_eq_add_neg, ite_s32 htx, ite_s32 hrx, hsum]
  rfl

/-- `mb_get` returns `NULL` and leaves the sums, or it counts what it has allocated. -/
theorem mbGet_cases (hok : s.Ok) {tx : Nat}
    (hlate : ¬LateRefusal lim s (tx &&& mbufGetFlagMask) (totLen len tx))
    (hadd : ∀ p, malloc = some p → (s.add (tx &&& mbufGetFlagMask) (totLen len tx)).Ok) :
    mbGet lim s len tx malloc = (s, none) ∨ 0 ≤ len ∧ ∃ p, malloc = some p ∧
      (tx &&& mbufGetFlagMask ≠ 0 → Room lim s (tx &&& mbufGetFlagMask) (totLen len tx)) ∧
      mbGet lim s len tx malloc =
        (if tx &&& mbufGetFlagMask ≠ 0 then s.add (tx &&& mbufGetFlagMask) (totLen len tx) else s,
          some (newMbuf p len tx)) := by
  unfold mbGet
  by_cases hlen : len < 0
  · rw [if_pos hlen]
    exact .inl rfl
  rw [if_neg hlen]
  simp only
  by_cases hflag : tx &&& mbufGetFlagMask ≠ 0
  · simp only [if_pos hflag]
    rcases mbLimitMemInc_cases hlate with hinc | ⟨hroom, hinc⟩
    · rw [hinc]
      exact .inl rfl
    · simp only [hinc, if_true]
      cases malloc with
      | none =>
        refine .inl (Prod.ext ?_ rfl)
        simp only [mbLimitMemDec, ite_undo hok.tx, ite_undo hok.rx, s32_undo hok.txrx]
      | some p =>
        obtain ⟨htx, hrx, htxrx⟩ := hadd p rfl
        have hsum : s32 (s.txrx + totLen len tx) = s.txrx + totLen len tx :=
          s32_of_lt (Int.le_trans (by decide) htxrx.1) htxrx.2
        refine .inr ⟨by omega, p, rfl, fun _ => hroom, Prod.ext ?_ rfl⟩
        rw [ite_s32 htx, ite_s32 hrx, hsum]
        rfl
  · simp only [if_neg hflag, if_true]
    cases malloc with
    | none => exact .inl rfl
    | some p => exact .inr ⟨by omega, p, rfl, fun h => absurd h hflag, rfl⟩

end

/-! ## The mbufs in use -/

/-- What an mbuf counts for in the sum for `bit`. -/
def amount (bit : Nat) (l : Live) : Int := if hasFlag l.m.flag bit then l.size else 0

def countedSums (live : List Live) : Sums where
  tx := (live.map (amount mbufGetFlagLimitTx)).sum
  rx := (live.map (amount mbufGetFlagLimitRx)).sum
  txrx := (live.map (amount mbufGetFlagMask)).sum

/-- The sums are within the limits there are. -/
structure Below (lim : Limits) (s : Sums) : Prop where
  tx : 0 < lim.tx → s.tx ≤ lim.tx
  rx : 0 < lim.rx → s.rx ≤ lim.rx
  txrx : 0 < lim.txrx → s.txrx ≤ lim.txrx

/-- An mbuf that counts for the block it is in. -/
structure Counted (l : Live) : Prop where
  typed : Typed l.m
  nonneg : 0 ≤ l.size
  size : l.m.flag ≠ 0 → l.m.size = l.size

structure Accounted (lim : Limits) (s : Sums) (live : List Live) : Prop where
  sums : s = countedSums live
  counted : ∀ l ∈ live, Counted l
  memory : (live.map (·.size)).sum < 2 ^ 31
  below : Below lim s

section

variable {lim : Limits} {s s' : Sums} {live live' others : List Live} {l : Live} {m : Mbuf}
  {flag : Nat} {len : Int}

theorem hasFlag_mask {t : Nat} :
    hasFlag (t &&& mbufGetFlagMask) mbufGetFlagMask ↔ t &&& mbufGetFlagMask ≠ 0 := by
  rw [hasFlag, Nat.and_assoc, Nat.and_self]

theorem countedSums_cons : countedSums (l :: live) =
    if l.m.flag ≠ 0 then (countedSums live).add l.m.flag l.size else countedSums live := by
  by_cases hflag : l.m.flag ≠ 0
  · rw [if_pos hflag]
    have hmask : hasFlag l.m.flag mbufGetFlagMask := hasFlag_mask.mpr hflag
    simp only [countedSums, Sums.add, List.map_cons, List.sum_cons, amount, if_pos hmask]
    congr 1
    · split <;> omega
    · split <;> omega
    · omega
  · rw [if_neg hflag]
    have hnone : ∀ bit, ¬hasFlag l.m.flag bit := by
      intro bit h
      rw [not_not] at hflag
      rw [hasFlag, hflag, Nat.zero_and] at h
      exact h rfl
    simp [countedSums, amount, hnone]

theorem countedSums_perm (h : live.Perm live') : countedSums live = countedSums live' := by
  simp only [countedSums, (h.map _).sum_eq]

theorem Accounted.perm (h : live.Perm live') (ha : Accounted lim s live) :
    Accounted lim s live' where
  sums := ha.sums.trans (countedSums_perm h)
  counted l hl := ha.counted l (h.mem_iff.mpr hl)
  memory := by
    rw [← (h.map _).sum_eq]
    exact ha.memory
  below := ha.below

/-- A sum of some of the sizes is in range. -/
theorem amount_bounds (hc : ∀ l ∈ live, Counted l) (bit : Nat) :
    0 ≤ (live.map (amount bit)).sum ∧
      (live.map (amount bit)).sum ≤ (live.map (·.size)).sum := by
  induction live with
  | nil => exact ⟨Int.le_refl _, Int.le_refl _⟩
  | cons l live ih =>
    obtain ⟨hlo, hhi⟩ := ih fun l hl => hc l (List.mem_cons_of_mem _ hl)
    have hsize := (hc l (List.mem_cons_self ..)).nonneg
    simp only [List.map_cons, List.sum_cons, amount]
    split <;> omega

theorem countedSums_ok (hc : ∀ l ∈ live, Counted l) (hm : (live.map (·.size)).sum < 2 ^ 31) :
    (countedSums live).Ok := by
  have hbounds := amount_bounds hc
  exact ⟨⟨(hbounds _).1, Int.lt_of_le_of_lt (hbounds _).2 hm⟩,
    ⟨(hbounds _).1, Int.lt_of_le_of_lt (hbounds _).2 hm⟩,
    ⟨(hbounds _).1, Int.lt_of_le_of_lt (hbounds _).2 hm⟩⟩

theorem Accounted.ok (ha : Accounted lim s live) : s.Ok := by
  rw [ha.sums]
  exact countedSums_ok ha.counted ha.memory

theorem below_of_not_full {max sum : Int} (hroom : ¬full max sum len)
    (hsum : 0 ≤ sum + len ∧ sum + len < 2 ^ 31) (hmax : 0 < max) : sum + len ≤ max := by
  have hs : s32 (sum + len) = sum + len := s32_of_lt (by omega) hsum.2
  unfold full toU32 at hroom
  rw [hs] at hroom
  omega

theorem Below.add (hb : Below lim s) (hroom : Room lim s flag len) (hok : (s.add flag len).Ok) :
    Below lim (s.add flag len) := by
  obtain ⟨htx, hrx, htxrx⟩ := hok
  unfold Sums.add at *
  simp only at htx hrx htxrx ⊢
  refine ⟨?_, ?_, below_of_not_full hroom.txrx htxrx⟩
  · intro hmax
    simp only
    split
    · rename_i h
      rw [if_pos h] at htx
      exact below_of_not_full (hroom.tx h) htx hmax
    · exact hb.tx hmax
  · intro hmax
    simp only
    split
    · rename_i h
      rw [if_pos h] at hrx
      exact below_of_not_full (hroom.rx h) hrx hmax
    · exact hb.rx hmax

/-- An mbuf more. -/
theorem Accounted.new (ha : Accounted lim s live) (hl : Counted l)
    (hmemory : (live.map (·.size)).sum + l.size < 2 ^ 31)
    (hroom : l.m.flag ≠ 0 → Room lim s l.m.flag l.size) :
    Accounted lim (if l.m.flag ≠ 0 then s.add l.m.flag l.size else s) (l :: live) := by
  have hc : ∀ k ∈ l :: live, Counted k := List.forall_mem_cons.mpr ⟨hl, ha.counted⟩
  have hm : ((l :: live).map (·.size)).sum < 2 ^ 31 := by
    rw [List.map_cons, List.sum_cons]
    omega
  have hsums : countedSums (l :: live) = _ := countedSums_cons
  rw [← ha.sums] at hsums
  refine ⟨hsums.symm, hc, hm, ?_⟩
  split
  · rename_i hflag
    rw [if_pos hflag] at hsums
    refine ha.below.add (hroom hflag) ?_
    rw [← hsums]
    exact countedSums_ok hc hm
  · exact ha.below

theorem Sums.add_neg : (s.add flag len).add flag (-len) = s := by
  unfold Sums.add
  simp only
  congr 1
  · split <;> omega
  · split <;> omega
  · omega

/-- An mbuf less. -/
theorem Accounted.free (ha : Accounted lim s (l :: others)) : Accounted lim (mbFree s l.m) others := by
  have hc : ∀ k ∈ others, Counted k := fun k hk => ha.counted k (List.mem_cons_of_mem _ hk)
  have hl := ha.counted l (List.mem_cons_self ..)
  have hm := ha.memory
  rw [List.map_cons, List.sum_cons] at hm
  have hok : (countedSums others).Ok := countedSums_ok hc (by have := hl.nonneg; omega)
  have hsums := ha.sums
  rw [countedSums_cons] at hsums
  unfold mbFree
  split
  · rename_i hflag
    rw [if_pos hflag] at hsums
    have hback : s.add l.m.flag (-l.size) = countedSums others := by rw [hsums, Sums.add_neg]
    rw [hl.size hflag, mbLimitMemDec_add (hback ▸ hok), hback]
    refine ⟨rfl, hc, by have := hl.nonneg; omega, ?_⟩
    have hb := ha.below
    have hpos := hl.nonneg
    rw [hsums] at hb
    refine ⟨fun h => ?_, fun h => ?_, fun h => ?_⟩
    · have := hb.tx h
      simp only [Sums.add] at this
      split at this <;> omega
    · have := hb.rx h
      simp only [Sums.add] at this
      split at this <;> omega
    · have := hb.txrx h
      simp only [Sums.add] at this
      omega
  · rename_i hflag
    rw [if_neg hflag] at hsums
    exact ⟨hsums, hc, by have := hl.nonneg; omega, ha.below⟩

/-- An mbuf that is another one of the same size. -/
theorem Accounted.replace (ha : Accounted lim s (l :: others)) (hflag : m.flag = l.m.flag)
    (htyped : Typed m) (hsize : l.m.flag ≠ 0 → m.size = l.m.size) :
    Accounted lim s ({ l with m } :: others) := by
  have hl := ha.counted l (List.mem_cons_self ..)
  refine ⟨?_, ?_, ha.memory, ha.below⟩
  · rw [ha.sums, countedSums_cons, countedSums_cons]
    simp only [hflag]
  · refine List.forall_mem_cons.mpr ⟨⟨htyped, hl.nonneg, ?_⟩, fun k hk =>
      ha.counted k (List.mem_cons_of_mem _ hk)⟩
    intro h
    rw [hflag] at h
    exact (hsize h).trans (hl.size h)

end

/-! ## Calls -/

/-- No request is refused by the RX limit alone when it counts for TX as well, and the free space
of an mbuf that is counted stays below 64K. -/
def Accountable (lim : Limits) (s : Sys) (c : Call) : Prop :=
  (∀ len tx, c.op = .get len tx →
    ¬LateRefusal lim s.sums (tx &&& mbufGetFlagMask) (totLen len.toInt tx)) ∧
  ∀ l, c.on = some l → l.m.flag ≠ 0 → SpacesFit l.m c.op

section

variable {lim : Limits} {s s' : Sums} {live others ls : List Live} {l : Live} {m nm : Mbuf}
  {len p : Int} {tx : Nat} {malloc : Option Int}

theorem newMbuf_flag : (newMbuf p len tx).flag = tx &&& mbufGetFlagMask := by
  change tx &&& mbufGetFlagMask &&& mbufGetFlagMask = _
  rw [Nat.and_assoc, Nat.and_self]

theorem newMbuf_size : (newMbuf p len tx).size = totLen len tx := by
  unfold Mbuf.size newMbuf totLen mbufHeadSpace mbufTailSpace
  dsimp only
  split
  · congr 1
    omega
  · congr 1
    omega

theorem typed_pkthdr {d : Mbuf} (h : Typed d) (pktlen : Int) : Typed (mbPkthdrInit d m pktlen) :=
  ⟨h.head, h.tail, h.len⟩

theorem size_pkthdr (d s : Mbuf) (pktlen : Int) : (mbPkthdrInit d s pktlen).size = d.size := rfl

theorem flag_pkthdr (d s : Mbuf) (pktlen : Int) : (mbPkthdrInit d s pktlen).flag = d.flag := rfl

/-- `mb_get` in any state. -/
theorem Accounted.get (ha : Accounted lim s live)
    (hmalloc : Allows live (totLen len tx) malloc)
    (hlate : ¬LateRefusal lim s (tx &&& mbufGetFlagMask) (totLen len tx)) :
    mbGet lim s len tx malloc = (s, none) ∨ 0 ≤ len ∧ ∃ p s', mbGet lim s len tx malloc =
        (s', some (newMbuf p len tx)) ∧ 0 ≤ totLen len tx ∧
      ∀ m, m.flag = tx &&& mbufGetFlagMask → Typed m → m.size = totLen len tx →
        Accounted lim s' (⟨m, totLen len tx⟩ :: live) := by
  have hadd : ∀ p, malloc = some p → (s.add (tx &&& mbufGetFlagMask) (totLen len tx)).Ok := by
    intro p hp
    obtain ⟨hsize, hmemory⟩ := hmalloc p hp
    have hbounds := amount_bounds ha.counted
    have hsums := ha.sums
    unfold Sums.add
    constructor
    all_goals
      rw [hsums]
      simp only [countedSums]
      have h1 := hbounds mbufGetFlagLimitTx
      have h2 := hbounds mbufGetFlagLimitRx
      have h3 := hbounds mbufGetFlagMask
      omega
  rcases mbGet_cases ha.ok hlate hadd with hnone | ⟨hpos, p, hp, hroom, hget⟩
  · exact .inl hnone
  · obtain ⟨hsize, hmemory⟩ := hmalloc p hp
    refine .inr ⟨hpos, p, _, hget, hsize, ?_⟩
    intro m hflag htyped hm
    have hnew := ha.new (l := ⟨m, totLen len tx⟩) ⟨htyped, hsize, fun _ => hm⟩ hmemory (by
      rw [hflag]
      exact hroom)
    rwa [hflag] at hnew

/-- RX alone is never refused late. -/
theorem not_lateRefusal_rx :
    ¬LateRefusal lim s (mbufGetFlagLimitRx &&& mbufGetFlagMask) len := by
  rintro ⟨-, htx, -⟩
  exact absurd htx (by decide)

theorem Accounted.dup (ha : Accounted lim s (l :: others)) {reads writes : List Area}
    {r : Option Mbuf}
    (hmalloc : Allows (l :: others) (totLen (dupLen l.m) mbufGetFlagLimitRx) malloc)
    (h : mbDup lim s l.m malloc = (s', r, reads, writes)) :
    match r with
    | none => s' = s
    | some nm => Accounted lim s' (⟨nm, totLen (dupLen l.m) mbufGetFlagLimitRx⟩ :: l :: others) := by
  have hl := (ha.counted l (List.mem_cons_self ..)).typed
  unfold mbDup at h
  rcases ha.get hmalloc not_lateRefusal_rx with hget | ⟨-, p, t, hget, -, hnew⟩
  · rw [show mbGet lim s (dupLen l.m) mbufGetFlagLimitRx malloc = (s, none) from hget] at h
    cases h
    rfl
  · rw [show mbGet lim s (dupLen l.m) mbufGetFlagLimitRx malloc = _ from hget] at h
    cases h
    have hhead := hl.head
    have htail := hl.tail
    have hsize : (mbAdjTail (mbAdjHead (newMbuf p (dupLen l.m) mbufGetFlagLimitRx)
        (-l.m.mHeadspace)) (-l.m.mTailspace)).size = totLen (dupLen l.m) mbufGetFlagLimitRx := by
      rw [size_adjTail, size_adjHead, newMbuf_size]
      · change 0 ≤ 0 - -l.m.mHeadspace ∧ 0 - -l.m.mHeadspace < 2 ^ 16
        omega
      · change 0 ≤ 0 - -l.m.mTailspace ∧ 0 - -l.m.mTailspace < 2 ^ 16
        omega
    have htyped := ((typed_new p (dupLen l.m) mbufGetFlagLimitRx (typed_s32 _)).adjHead
      (-l.m.mHeadspace)).adjTail (-l.m.mTailspace)
    exact hnew _ (@newMbuf_flag p (dupLen l.m) _) (typed_pkthdr htyped _) hsize

theorem Accounted.split (ha : Accounted lim s (l :: others)) {len0 : Int32}
    (hfit : l.m.flag ≠ 0 → SpacesFit l.m (.split len0)) {m0 : Mbuf} {reads writes : List Area}
    {r : Option Mbuf}
    (hmalloc : Allows (l :: others) (totLen (l.m.mLen - len0.toInt) mbufGetFlagLimitRx) malloc)
    (h : mbSplit lim s l.m len0.toInt malloc = (s', m0, r, reads, writes)) :
    match r with
    | none => s' = s ∧ m0 = l.m
    | some m => Accounted lim s' (⟨m, totLen (l.m.mLen - len0.toInt) mbufGetFlagLimitRx⟩ ::
        { l with m := m0 } :: others) := by
  have hl := (ha.counted l (List.mem_cons_self ..)).typed
  unfold mbSplit at h
  split at h
  · cases h
    exact ⟨rfl, rfl⟩
  · rename_i hin
    have hlen := hl.len
    have htail := hl.tail
    simp only at h
    rcases ha.get hmalloc not_lateRefusal_rx with
      hget | ⟨-, p, t, hget, -, hnew⟩
    · rw [hget] at h
      cases h
      exact ⟨rfl, rfl⟩
    · rw [hget] at h
      cases h
      have hsize : l.m.flag ≠ 0 → (mbAdjTail l.m (-(l.m.mLen - len0.toInt))).size = l.m.size := by
        intro hflag
        have := hfit hflag (by omega) (by omega)
        exact size_adjTail (by omega)
      have hrange : -2 ^ 31 ≤ l.m.mLen - len0.toInt ∧ l.m.mLen - len0.toInt < 2 ^ 31 := by omega
      have htyped := typed_pkthdr (m := l.m) (typed_new p _ mbufGetFlagLimitRx hrange)
        (l.m.mLen - len0.toInt)
      have hacc := hnew _ ((flag_pkthdr _ l.m _).trans newMbuf_flag) htyped
        ((size_pkthdr ..).trans newMbuf_size)
      have hswap := hacc.perm (List.Perm.swap _ _ _)
      exact (hswap.replace (m := mbAdjTail l.m (-(l.m.mLen - len0.toInt))) rfl (hl.adjTail _)
        hsize).perm (List.Perm.swap _ _ _)

theorem adj_flag (reqLen : Int) : (mbAdj m reqLen).1.flag = m.flag := by
  unfold mbAdj
  split
  · split <;> rfl
  · dsimp only
    split <;> rfl

theorem append_flag (len : Int) (cp : Bool) : (mbAppend m len cp).1.1.flag = m.flag := by
  unfold mbAppend
  split <;> rfl

theorem reserve_flag (len headspace tailspace : Int) :
    (mbReserve m len headspace tailspace).1.flag = m.flag := by
  unfold mbReserve
  dsimp only
  split <;> rfl

theorem prepend_flag {plen : Int} (h : mbPrepend m plen = some nm) : nm.flag = m.flag := by
  unfold mbPrepend at h
  split at h
  · cases h
    rfl
  · cases h

/-- A call on an mbuf, the others in any order. -/
theorem Accounted.stepOn (ha : Accounted lim s (l :: others)) {op : Op}
    {touched : List (Live × Area)} (hfit : l.m.flag ≠ 0 → SpacesFit l.m op)
    (hstep : StepOn lim s others l op touched s' ls) : Accounted lim s' (ls ++ others) := by
  have hl := (ha.counted l (List.mem_cons_self ..)).typed
  cases hstep with
  | free => exact ha.free
  | adj reqLen =>
    exact ha.replace (adj_flag _) (hl.adj _) fun hflag => size_adj hl (hfit hflag)
  | copydata off len => exact ha
  | pullupFree len h => exact ha.free
  | pullup len m h =>
    rw [mbPullup_some h]
    exact ha
  | prependFree plen h => exact ha.free
  | prepend plen m h => exact ha.replace (prepend_flag h) (hl.prepend h) fun _ => size_prepend hl h
  | append len cp =>
    exact ha.replace (append_flag _ _) (hl.append _ _) fun hflag => size_append (hfit hflag)
  | reserve len headspace tailspace =>
    exact ha.replace (reserve_flag ..) (hl.reserve ..) fun hflag => size_reserve (hfit hflag)
  | dupFail malloc s' reads writes hmalloc h =>
    rw [show s' = s from ha.dup hmalloc h]
    exact ha
  | dup malloc s' nm reads writes hmalloc h =>
    exact (ha.dup hmalloc h).perm (List.Perm.swap _ _ _)
  | splitFail len0 malloc s' m0 reads writes hmalloc h =>
    obtain ⟨rfl, rfl⟩ := ha.split hfit hmalloc h
    exact ha
  | split len0 malloc s' m0 m reads writes hmalloc h =>
    exact (ha.split hfit hmalloc h).perm (List.Perm.swap _ _ _)

theorem Accounted.step {s s' : Sys} {c : Call} (ha : Accounted lim s.sums s.live)
    (hstep : Trans.Guarded (Step lim) (Accountable lim) s c s') :
    Accounted lim s'.sums s'.live := by
  obtain ⟨⟨hget, hfit⟩, hstep⟩ := hstep
  cases hstep with
  | get _ len tx malloc hmalloc =>
    rcases ha.get hmalloc (hget len tx rfl) with hnone | ⟨-, p, t, hsome, -, hnew⟩
    · rw [hnone]
      exact ha
    · rw [hsome]
      exact hnew _ newMbuf_flag (typed_new p _ tx ⟨len.le_toInt, len.toInt_lt⟩) newMbuf_size
  | call sums sums' as bs ls l op touched h =>
    have hacc := (ha.perm List.perm_middle).stepOn (hfit l rfl) h
    rw [← List.append_assoc] at hacc
    exact hacc.perm (List.perm_append_comm.append_right bs)

/-- In every run of accountable calls the sums are the sizes of the mbufs in use with the flags and
within the limits; a call after which the mbufs are the same leaves the sums, and without mbufs
they are 0. -/
theorem accounting_ok {calls : List Call} {s : Sys}
    (hrun : Trans.Run (Trans.Guarded (Step lim) (Accountable lim)) ⟨⟨0, 0, 0⟩, []⟩ calls s) :
    s.sums = countedSums s.live ∧ Below lim s.sums ∧
    (∀ c s', Trans.Guarded (Step lim) (Accountable lim) s c s' → s'.live = s.live →
      s'.sums = s.sums) ∧
    (s.live = [] → s.sums = ⟨0, 0, 0⟩) := by
  have h0 : Accounted lim ⟨0, 0, 0⟩ [] := by
    refine ⟨rfl, nofun, by decide, ?_, ?_, ?_⟩
    · exact Int.le_of_lt
    · exact Int.le_of_lt
    · exact Int.le_of_lt
  have ha := hrun.invariant (I := fun s => Accounted lim s.sums s.live) h0
    fun s c s' hs hstep => hs.step hstep
  refine ⟨ha.sums, ha.below, ?_, ?_⟩
  · intro c s' hstep hsame
    rw [(ha.step hstep).sums, ha.sums, hsame]
  · intro hnone
    rw [ha.sums, hnone]
    rfl

end

/-- The limits of a heap in PSRAM. -/
def psramLimits : Limits := ⟨64 * 1024, 64 * 1024, 0⟩

/-- 60000 bytes of RX are in use; 10000 for TX and RX are then refused by the RX limit, and stay in
the TX sum. -/
theorem rx_refuses_late : ∃ s s', Trans.Run (Step psramLimits) ⟨⟨0, 0, 0⟩, []⟩
      [⟨.get 60000 mbufGetFlagLimitRx, none, []⟩] s ∧
    Step psramLimits s ⟨.get 10000 (mbufGetFlagLimitTx ||| mbufGetFlagLimitRx), none, []⟩ s' ∧
    s'.live = s.live ∧ s.sums = ⟨0, 60080, 60080⟩ ∧ s'.sums = ⟨10080, 60080, 60080⟩ ∧
    s'.sums ≠ countedSums s'.live := by
  have hmalloc : Allows [] (totLen (60000 : Int32).toInt mbufGetFlagLimitRx) (some 0x20000) := by
    intro p _
    decide
  refine ⟨_, _, .single (.get _ 60000 mbufGetFlagLimitRx (some 0x20000) hmalloc),
    .get _ 10000 (mbufGetFlagLimitTx ||| mbufGetFlagLimitRx) none nofun, ?_, ?_, ?_, ?_⟩
  · decide
  · decide
  · decide
  · decide

theorem accounting_ok_get : ∃ s, Trans.Run (Step psramLimits) ⟨⟨0, 0, 0⟩, []⟩
      [⟨.get 60000 mbufGetFlagLimitRx, none, []⟩] s ∧ s.sums = ⟨0, 60080, 60080⟩ ∧
    s.sums = countedSums s.live := by
  have hmalloc : Allows [] (totLen (60000 : Int32).toInt mbufGetFlagLimitRx) (some 0x20000) := by
    intro p _
    decide
  have hok : Accountable psramLimits ⟨⟨0, 0, 0⟩, []⟩ ⟨.get 60000 mbufGetFlagLimitRx, none, []⟩ := by
    refine ⟨?_, nofun⟩
    intro len tx h
    cases h
    exact not_lateRefusal_rx
  have hrun := Trans.Run.single (show Trans.Guarded (Step psramLimits) (Accountable psramLimits)
    _ _ _ from ⟨hok, .get _ 60000 mbufGetFlagLimitRx (some 0x20000) hmalloc⟩)
  exact ⟨_, hrun.mono fun _ _ _ h => h.2, by decide, (accounting_ok hrun).1⟩

end Wlan
end XR806

import XR806.Wlan.MbufMem

/-!
# XR806.Wlan.MbufBuf

The bounds of the data in an mbuf. Under any calls the data starts behind the free space in front,
the two free spaces and the data fill the buffer, and every copy stays inside (`mbufs_ok`).

The calls have to keep to what `InBounds` says, which the code does not check: `mb_append` and
`mb_reserve` take a negative length (`negative_append`), `mb_copydata` takes an offset behind the
data, and a free space of 64K or more does not fit into its 16 bits.
-/

namespace XR806
namespace Wlan

/-- The data and the free space around it fill the buffer. -/
structure Rep (l : Live) : Prop where
  typed : Typed l.m
  data : l.m.mData = l.m.mBuf + l.m.mHeadspace
  fill : l.m.mHeadspace + l.m.mLen + l.m.mTailspace = l.size - mbufSize
  nonneg : 0 ≤ l.m.mLen
  small : l.size < 2 ^ 31

/-- The area is inside the buffer of the mbuf. -/
def InBuffer (t : Live × Area) : Prop :=
  t.1.m.mBuf ≤ t.2.addr ∧ t.2.addr + t.2.size ≤ t.1.m.mBuf + (t.1.size - mbufSize)

/-- What the code relies on. -/
def InBounds (m : Mbuf) (op : Op) : Prop :=
  SpacesFit m op ∧
  match op with
  | .append len cp => 0 ≤ len.toInt ∨ cp = false ∧ -len.toInt ≤ m.mLen
  | .copydata off len => 0 ≤ off.toInt → 0 < len.toInt → off.toInt ≤ m.mLen
  | .reserve len headspace tailspace =>
    s32 (headspace.toNat + len.toInt + tailspace.toNat) ≤
      s32 (m.mHeadspace + m.mLen + m.mTailspace) → 0 ≤ len.toInt
  | _ => True

section

variable {l : Live} {m : Mbuf} {lim : Limits} {s s' : Sums} {live others ls : List Live}

theorem Rep.bounds (h : Rep l) :
    0 ≤ l.m.mHeadspace ∧ 0 ≤ l.m.mLen ∧ 0 ≤ l.m.mTailspace ∧ mbufSize ≤ l.size := by
  have hhead := h.typed.head
  have htail := h.typed.tail
  have hfill := h.fill
  have hlen := h.nonneg
  omega

/-! ## The bounds that are moved -/

theorem Rep.adjHead (h : Rep l) (increment : Int)
    (hfit : 0 ≤ l.m.mHeadspace - increment ∧ l.m.mHeadspace - increment < 2 ^ 16)
    (hlen : 0 ≤ l.m.mLen + increment) : Rep { l with m := mbAdjHead l.m increment } := by
  obtain ⟨hhead, -, htail, -⟩ := h.bounds
  have hfill := h.fill
  have hsmall := h.small
  have hspace := u16_of_lt hfit.1 hfit.2
  unfold mbufSize at hfill
  have hnew : s32 (l.m.mLen + increment) = l.m.mLen + increment :=
    s32_of_lt (by omega) (by omega)
  refine ⟨h.typed.adjHead _, ?_, ?_, ?_, hsmall⟩
  · have hdata := h.data
    simp only [mbAdjHead, hspace]
    omega
  · simp only [mbAdjHead, hspace, hnew, mbufSize]
    omega
  · simp only [mbAdjHead, hnew]
    exact hlen

theorem Rep.adjTail (h : Rep l) (increment : Int)
    (hfit : 0 ≤ l.m.mTailspace - increment ∧ l.m.mTailspace - increment < 2 ^ 16)
    (hlen : 0 ≤ l.m.mLen + increment) : Rep { l with m := mbAdjTail l.m increment } := by
  obtain ⟨hhead, -, htail, -⟩ := h.bounds
  have hfill := h.fill
  have hsmall := h.small
  have hspace := u16_of_lt hfit.1 hfit.2
  unfold mbufSize at hfill
  have hnew : s32 (l.m.mLen + increment) = l.m.mLen + increment :=
    s32_of_lt (by omega) (by omega)
  refine ⟨h.typed.adjTail _, h.data, ?_, ?_, hsmall⟩
  · simp only [mbAdjTail, hspace, hnew, mbufSize]
    omega
  · simp only [mbAdjTail, hnew]
    exact hlen

theorem Rep.adj (h : Rep l) {reqLen : Int32} (hin : InBounds l.m (.adj reqLen)) :
    Rep { l with m := (mbAdj l.m reqLen.toInt).1 } := by
  obtain ⟨⟨hhead, htail, hmin⟩, -⟩ := hin
  have hle := reqLen.le_toInt
  have hlt := reqLen.toInt_lt
  have hb := h.bounds
  unfold mbAdj
  split
  · split
    · exact h
    · exact h.adjHead _ (by omega) (by omega)
  · have hneg : s32 (-reqLen.toInt) = -reqLen.toInt := s32_of_lt (by omega) (by omega)
    dsimp only
    rw [hneg, Int.neg_neg, s32_of_lt hle hlt]
    split
    · exact h
    · exact h.adjTail _ (by omega) (by omega)

theorem Rep.append (h : Rep l) {len : Int32} {cp : Bool} (hin : InBounds l.m (.append len cp)) :
    Rep { l with m := (mbAppend l.m len.toInt cp).1.1 } := by
  obtain ⟨hfit, hlen⟩ := hin
  have hfit : l.m.mTailspace - len.toInt < 2 ^ 16 := hfit
  have hlen : 0 ≤ len.toInt ∨ cp = false ∧ -len.toInt ≤ l.m.mLen := hlen
  have hb := h.bounds
  unfold mbAppend
  split
  · exact h
  · exact h.adjTail _ (by omega) (by omega)

theorem Rep.reserve (h : Rep l) {len : Int32} {headspace tailspace : UInt16}
    (hin : InBounds l.m (.reserve len headspace tailspace)) :
    Rep { l with m := (mbReserve l.m len.toInt headspace.toNat tailspace.toNat).1 } := by
  obtain ⟨hfit, hlen⟩ := hin
  have hb := h.bounds
  have hfill := h.fill
  have hsmall := h.small
  have hdata := h.data
  have htyped := h.typed.reserve len headspace tailspace
  unfold mbufSize at hfill hb
  have hbuf : s32 (l.m.mHeadspace + l.m.mLen + l.m.mTailspace) =
      l.m.mHeadspace + l.m.mLen + l.m.mTailspace := s32_of_lt (by omega) (by omega)
  unfold mbReserve at htyped ⊢
  dsimp only at htyped ⊢
  split at htyped
  · rw [if_pos ‹_›]
    exact h
  · rename_i hpass
    rw [if_neg hpass]
    obtain ⟨hlo, hhi⟩ := hfit (by omega)
    have hspace := u16_of_lt hlo hhi
    rw [hbuf] at hspace
    refine ⟨htyped, ?_, ?_, hlen (by omega), hsmall⟩
    · simp only [hbuf, hspace]
      omega
    · simp only [hbuf, hspace, mbufSize]
      omega

theorem Rep.prepend (h : Rep l) {plen : Int} (hm : mbPrepend l.m plen = some m) :
    Rep { l with m } := by
  have hb := h.bounds
  have hhead := h.typed.head
  unfold mbPrepend at hm
  split at hm
  · cases hm
    exact (h.adjHead plen (by omega) (by omega) : Rep { l with m := _ })
  · cases hm

/-! ## New mbufs -/

variable {len p : Int} {tx : Nat} {malloc : Option Int}

theorem mbGet_some (h : mbGet lim s len tx malloc = (s', some m)) :
    0 ≤ len ∧ ∃ p, malloc = some p ∧ m = newMbuf p len tx := by
  unfold mbGet at h
  split at h
  · cases h
  · dsimp only at h
    generalize (if tx &&& mbufGetFlagMask ≠ 0 then
      mbLimitMemInc lim s (tx &&& mbufGetFlagMask) (totLen len tx) else (s, true)) = inc at h
    split at h
    · cases malloc with
      | none => cases h
      | some p =>
        cases h
        exact ⟨by omega, p, rfl, rfl⟩
    · cases h

theorem rep_new (hlen : 0 ≤ len) (hlt : len < 2 ^ 31)
    (hsize : 0 ≤ totLen len tx ∧ totLen len tx < 2 ^ 31) :
    Rep ⟨newMbuf p len tx, totLen len tx⟩ := by
  refine ⟨typed_new p len tx ⟨by omega, hlt⟩, ?_, ?_, hlen, hsize.2⟩
  · simp only [newMbuf]
    split <;> omega
  · unfold totLen s32 mbufSize mbufHeadSpace mbufTailSpace at hsize
    unfold newMbuf totLen s32 mbufSize mbufHeadSpace mbufTailSpace
    dsimp only
    split at hsize
    · rename_i htx
      simp only [if_pos htx]
      omega
    · rename_i htx
      simp only [if_neg htx]
      omega

/-- The mbufs in use are well formed. -/
def AllRep (live : List Live) : Prop := ∀ l ∈ live, Rep l

theorem AllRep.sum_nonneg (h : AllRep live) : 0 ≤ (live.map (·.size)).sum := by
  induction live with
  | nil => exact Int.le_refl _
  | cons l live ih =>
    have hl := (h l (List.mem_cons_self ..)).bounds
    have := ih fun k hk => h k (List.mem_cons_of_mem _ hk)
    rw [List.map_cons, List.sum_cons]
    unfold mbufSize at hl
    omega

/-- A new mbuf fits into memory. -/
theorem AllRep.allows (h : AllRep live) {size : Int} (hmalloc : Allows live size (some p)) :
    0 ≤ size ∧ size < 2 ^ 31 := by
  have := hmalloc p rfl
  have := h.sum_nonneg
  omega

theorem toU32_of_lt {n : Int} (h : 0 ≤ n) (h' : n < 2 ^ 32) : toU32 n = n := by
  unfold toU32
  omega

theorem inBuffer_memcpy {addr n : Int} (hn : 0 ≤ n) (hlt : n < 2 ^ 32)
    (hlo : l.m.mBuf ≤ addr) (hhi : addr + n ≤ l.m.mBuf + (l.size - mbufSize)) :
    InBuffer (l, memcpyArea addr n) := by
  refine ⟨hlo, ?_⟩
  simp only [memcpyArea, toU32_of_lt hn hlt]
  exact hhi

/-- A part of the data is inside the buffer. -/
theorem Rep.part (h : Rep l) {addr n : Int} (hn : 0 ≤ n) (hlo : l.m.mData ≤ addr)
    (hhi : addr + n ≤ l.m.mData + l.m.mLen) : InBuffer (l, memcpyArea addr n) := by
  have hb := h.bounds
  have hlen := h.typed.len
  have hdata := h.data
  have hfill := h.fill
  exact inBuffer_memcpy hn (by omega) (by omega) (by omega)

theorem Rep.copydata (h : Rep l) {off len : Int32} (hin : InBounds l.m (.copydata off len)) :
    ∀ t ∈ withAreas l (mbCopydata l.m off.toInt len.toInt).2, InBuffer t := by
  have hoff : 0 ≤ off.toInt → 0 < len.toInt → off.toInt ≤ l.m.mLen := hin.2
  have hlen := h.typed.len
  unfold mbCopydata
  split
  · exact List.forall_mem_nil _
  · dsimp only
    have hcopy : s32 (l.m.mLen - off.toInt) = l.m.mLen - off.toInt :=
      s32_of_lt (by omega) (by omega)
    intro t ht
    rw [withAreas, List.map_singleton, List.mem_singleton] at ht
    subst ht
    rw [hcopy]
    split
    · exact h.part (by omega) (by omega) (by omega)
    · exact h.part (by omega) (by omega) (by omega)

theorem Rep.appendWrites (h : Rep l) {len : Int32} {cp : Bool}
    (hin : InBounds l.m (.append len cp)) :
    ∀ t ∈ withAreas l (mbAppend l.m len.toInt cp).2, InBuffer t := by
  have hlen : 0 ≤ len.toInt ∨ cp = false ∧ -len.toInt ≤ l.m.mLen := hin.2
  have hb := h.bounds
  have hlt := len.toInt_lt
  have hdata := h.data
  have hfill := h.fill
  unfold mbAppend
  split
  · exact List.forall_mem_nil _
  · cases cp with
    | false => exact List.forall_mem_nil _
    | true =>
      intro t ht
      rw [if_pos rfl, withAreas, List.map_singleton, List.mem_singleton] at ht
      subst ht
      have hnonneg := hlen.resolve_right fun h => Bool.noConfusion h.1
      exact inBuffer_memcpy hnonneg (by omega) (by omega) (by omega)

theorem rep_pkthdr {d : Mbuf} {size : Int} (h : Rep ⟨d, size⟩) (pktlen : Int) :
    Rep ⟨mbPkthdrInit d m pktlen, size⟩ :=
  ⟨typed_pkthdr h.typed pktlen, h.data, h.fill, h.nonneg, h.small⟩

theorem Rep.dup (h : Rep l) {r : Option Mbuf} {reads writes : List Area}
    (hsize : ∀ p, malloc = some p →
      0 ≤ totLen (dupLen l.m) mbufGetFlagLimitRx ∧ totLen (dupLen l.m) mbufGetFlagLimitRx < 2 ^ 31)
    (hdup : mbDup lim s l.m malloc = (s', r, reads, writes)) :
    (∀ t ∈ withAreas l reads, InBuffer t) ∧ ∀ nm, r = some nm →
      Rep ⟨nm, totLen (dupLen l.m) mbufGetFlagLimitRx⟩ ∧
      ∀ t ∈ withAreas ⟨nm, totLen (dupLen l.m) mbufGetFlagLimitRx⟩ writes, InBuffer t := by
  unfold mbDup at hdup
  generalize hget : mbGet lim s (dupLen l.m) mbufGetFlagLimitRx malloc = res at hdup
  obtain ⟨t, _ | nm⟩ := res
  · cases hdup
    exact ⟨List.forall_mem_nil _, fun _ hnm => absurd hnm.symm (Option.some_ne_none _)⟩
  · obtain ⟨hpos, p, hp, rfl⟩ := mbGet_some hget
    cases hdup
    have hb := h.bounds
    have hhead := h.typed.head
    have htail := h.typed.tail
    have hlen := h.typed.len
    have hfill := h.fill
    have hsmall := h.small
    have hdata := h.data
    unfold mbufSize at hfill hb
    have hsum : dupLen l.m = l.m.mLen + l.m.mHeadspace + l.m.mTailspace :=
      s32_of_lt (by omega) (by omega)
    have hnew := rep_new (p := p) hpos (by omega) (hsize p hp)
    have hadj := hnew.adjHead (-l.m.mHeadspace)
      (by change 0 ≤ 0 - -l.m.mHeadspace ∧ 0 - -l.m.mHeadspace < 2 ^ 16; omega)
      (by change 0 ≤ dupLen l.m + -l.m.mHeadspace; omega)
    have hadj := hadj.adjTail (-l.m.mTailspace)
      (by change 0 ≤ 0 - -l.m.mTailspace ∧ 0 - -l.m.mTailspace < 2 ^ 16; omega)
      (by
        have hl : s32 (dupLen l.m + -l.m.mHeadspace) = dupLen l.m + -l.m.mHeadspace :=
          s32_of_lt (by omega) (by omega)
        change 0 ≤ s32 (dupLen l.m + -l.m.mHeadspace) + -l.m.mTailspace
        omega)
    refine ⟨?_, ?_⟩
    · intro t ht
      rw [withAreas, List.map_singleton, List.mem_singleton] at ht
      subst ht
      exact h.part (by omega) (by omega) (by omega)
    · intro nm hnm
      cases hnm
      refine ⟨rep_pkthdr hadj _, ?_⟩
      intro t ht
      rw [withAreas, List.map_singleton, List.mem_singleton] at ht
      subst ht
      refine (rep_pkthdr (m := l.m) hadj l.m.mLen).part h.nonneg (Int.le_refl _) ?_
      have hl : s32 (s32 (dupLen l.m + -l.m.mHeadspace) + -l.m.mTailspace) = l.m.mLen := by
        rw [s32_of_lt (x := dupLen l.m + -l.m.mHeadspace) (by omega) (by omega)]
        exact (s32_of_lt (by omega) (by omega)).trans (by omega)
      exact Int.le_of_eq (congrArg _ hl.symm)

theorem Rep.split (h : Rep l) {len0 : Int32} (hin : InBounds l.m (.split len0)) {m0 : Mbuf}
    {r : Option Mbuf} {reads writes : List Area}
    (hsize : ∀ p, malloc = some p → 0 ≤ totLen (l.m.mLen - len0.toInt) mbufGetFlagLimitRx ∧
      totLen (l.m.mLen - len0.toInt) mbufGetFlagLimitRx < 2 ^ 31)
    (hsplit : mbSplit lim s l.m len0.toInt malloc = (s', m0, r, reads, writes)) :
    Rep { l with m := m0 } ∧ (∀ t ∈ withAreas l reads, InBuffer t) ∧ ∀ m, r = some m →
      Rep ⟨m, totLen (l.m.mLen - len0.toInt) mbufGetFlagLimitRx⟩ ∧
      ∀ t ∈ withAreas ⟨m, totLen (l.m.mLen - len0.toInt) mbufGetFlagLimitRx⟩ writes,
        InBuffer t := by
  unfold mbSplit at hsplit
  split at hsplit
  · cases hsplit
    exact ⟨h, List.forall_mem_nil _, fun _ hm => absurd hm.symm (Option.some_ne_none _)⟩
  · rename_i hrange
    dsimp only at hsplit
    generalize hget : mbGet lim s (l.m.mLen - len0.toInt) mbufGetFlagLimitRx malloc = res at hsplit
    obtain ⟨t, _ | m⟩ := res
    · cases hsplit
      exact ⟨h, List.forall_mem_nil _, fun _ hm => absurd hm.symm (Option.some_ne_none _)⟩
    · obtain ⟨hpos, p, hp, rfl⟩ := mbGet_some hget
      cases hsplit
      have hb := h.bounds
      have hlen := h.typed.len
      have hfit : l.m.mTailspace + (l.m.mLen - len0.toInt) < 2 ^ 16 := hin.1 (by omega) (by omega)
      have hnew := rep_pkthdr (m := l.m) (rep_new (p := p) hpos (by omega) (hsize p hp))
        (l.m.mLen - len0.toInt)
      refine ⟨h.adjTail _ (by omega) (by omega), ?_, ?_⟩
      · intro t ht
        rw [withAreas, List.map_singleton, List.mem_singleton] at ht
        subst ht
        exact h.part (by omega) (by omega) (by omega)
      · intro m hm
        cases hm
        refine ⟨hnew, ?_⟩
        intro t ht
        rw [withAreas, List.map_singleton, List.mem_singleton] at ht
        subst ht
        exact hnew.part hpos (Int.le_refl _) (Int.le_refl _)

/-! ## Calls -/

/-- A call on a well-formed mbuf makes well-formed mbufs, and keeps to their buffers. -/
theorem Rep.stepOn (h : Rep l) (hothers : AllRep others) {op : Op} {touched : List (Live × Area)}
    (hin : InBounds l.m op) (hstep : StepOn lim s others l op touched s' ls) :
    AllRep ls ∧ ∀ t ∈ touched, InBuffer t := by
  have hall : AllRep (l :: others) := List.forall_mem_cons.mpr ⟨h, hothers⟩
  have hone : ∀ {k : Live}, Rep k → AllRep [k] := fun hk => List.forall_mem_singleton.mpr hk
  have hgone : AllRep [] := List.forall_mem_nil _
  have hquiet : ∀ t ∈ ([] : List (Live × Area)), InBuffer t := List.forall_mem_nil _
  cases hstep with
  | free => exact ⟨hgone, hquiet⟩
  | adj reqLen => exact ⟨hone (h.adj hin), hquiet⟩
  | copydata off len => exact ⟨hone h, h.copydata hin⟩
  | pullupFree len hm => exact ⟨hgone, hquiet⟩
  | pullup len m hm =>
    rw [mbPullup_some hm]
    exact ⟨hone h, hquiet⟩
  | prependFree plen hm => exact ⟨hgone, hquiet⟩
  | prepend plen m hm => exact ⟨hone (h.prepend hm), hquiet⟩
  | append len cp => exact ⟨hone (h.append hin), h.appendWrites hin⟩
  | reserve len headspace tailspace => exact ⟨hone (h.reserve hin), hquiet⟩
  | dupFail malloc s' reads writes hmalloc hdup =>
    exact ⟨hone h, (h.dup (fun p hp => hall.allows (hp ▸ hmalloc)) hdup).1⟩
  | dup malloc s' nm reads writes hmalloc hdup =>
    obtain ⟨hreads, hnew⟩ := h.dup (fun p hp => hall.allows (hp ▸ hmalloc)) hdup
    obtain ⟨hrep, hwrites⟩ := hnew nm rfl
    exact ⟨List.forall_mem_cons.mpr ⟨h, hone hrep⟩, List.forall_mem_append.mpr ⟨hreads, hwrites⟩⟩
  | splitFail len0 malloc s' m0 reads writes hmalloc hsplit =>
    obtain ⟨hrep, hreads, -⟩ := h.split hin (fun p hp => hall.allows (hp ▸ hmalloc)) hsplit
    exact ⟨hone hrep, hreads⟩
  | split len0 malloc s' m0 m reads writes hmalloc hsplit =>
    obtain ⟨hrep, hreads, hnew⟩ := h.split hin (fun p hp => hall.allows (hp ▸ hmalloc)) hsplit
    obtain ⟨hrep', hwrites⟩ := hnew m rfl
    exact ⟨List.forall_mem_cons.mpr ⟨hrep, hone hrep'⟩,
      List.forall_mem_append.mpr ⟨hreads, hwrites⟩⟩

end

/-- The call is for an mbuf that it keeps in bounds. -/
def KeepsBounds (_ : Sys) (c : Call) : Prop := ∀ l, c.on = some l → InBounds l.m c.op

section

variable {lim : Limits} {s s' : Sys} {c : Call} {calls : List Call}

theorem AllRep.step (h : AllRep s.live) (hstep : Trans.Guarded (Step lim) KeepsBounds s c s') :
    AllRep s'.live ∧ ∀ t ∈ c.touched, InBuffer t := by
  obtain ⟨hin, hstep⟩ := hstep
  cases hstep with
  | get _ len tx malloc hmalloc =>
    refine ⟨List.forall_mem_append.mpr ⟨?_, h⟩, List.forall_mem_nil _⟩
    cases hget : (mbGet lim s.sums len.toInt tx malloc).2 with
    | none => exact List.forall_mem_nil _
    | some m =>
      obtain ⟨hpos, p, hp, rfl⟩ := mbGet_some (Prod.ext (Eq.refl _) hget)
      refine List.forall_mem_singleton.mpr (rep_new hpos len.toInt_lt ?_)
      exact h.allows (hp ▸ hmalloc)
  | call sums sums' as bs ls l op touched hon =>
    obtain ⟨has, hl, hbs⟩ := List.forall_mem_append.mp h |>.imp_right List.forall_mem_cons.mp
    obtain ⟨hls, htouched⟩ :=
      hl.stepOn (List.forall_mem_append.mpr ⟨has, hbs⟩) (hin l rfl) hon
    exact ⟨List.forall_mem_append.mpr ⟨List.forall_mem_append.mpr ⟨has, hls⟩, hbs⟩, htouched⟩

/-- In every run of calls in bounds every mbuf is well formed, and every copy is inside the buffer
of its mbuf. -/
theorem mbufs_ok
    (hrun : Trans.Run (Trans.Guarded (Step lim) KeepsBounds) ⟨⟨0, 0, 0⟩, []⟩ calls s) :
    (∀ l ∈ s.live, Rep l) ∧ ∀ c ∈ calls, ∀ t ∈ c.touched, InBuffer t :=
  hrun.labels (I := fun s => AllRep s.live) nofun fun _ _ _ hs hstep => hs.step hstep

end

/-- An mbuf for 16 bytes of TX. -/
def smallMbuf : Live := ⟨newMbuf 0x20000 16 1, 180⟩

theorem smallMbuf_get : Step psramLimits ⟨⟨0, 0, 0⟩, []⟩ ⟨.get 16 1, none, []⟩
    ⟨⟨0, 0, 0⟩, [smallMbuf]⟩ := by
  have hmalloc : Allows [] (totLen (16 : Int32).toInt 1) (some 0x20000) := by
    intro p _
    decide
  have hget : mbGet psramLimits ⟨0, 0, 0⟩ (16 : Int32).toInt 1 (some 0x20000) =
      (⟨0, 0, 0⟩, some smallMbuf.m) := by decide
  have hlen : totLen (16 : Int32).toInt 1 = 180 := by decide
  have hstep := @Step.get psramLimits ⟨⟨0, 0, 0⟩, []⟩ 16 1 (some 0x20000) hmalloc
  rw [hget, hlen] at hstep
  exact hstep

/-- The length is only compared with the free space, so 20 bytes less are taken, and the data has
-4. -/
theorem negative_append : ∃ s, Trans.Run (Step psramLimits) ⟨⟨0, 0, 0⟩, []⟩
      [⟨.get 16 1, none, []⟩, ⟨.append (-20) false, some smallMbuf, []⟩] s ∧
    ¬∀ l ∈ s.live, Rep l := by
  refine ⟨_, .cons smallMbuf_get (.single (.call _ _ [] [] _ smallMbuf _ _
    (.append (-20) false))), ?_⟩
  intro h
  exact absurd (h _ (List.mem_cons_self ..)).nonneg (by decide)

theorem mbufs_ok_small : ∃ s, Trans.Run (Step psramLimits) ⟨⟨0, 0, 0⟩, []⟩
      [⟨.get 16 1, none, []⟩, ⟨.adj 6, some smallMbuf, []⟩] s ∧ ∀ l ∈ s.live, Rep l := by
  have hget : KeepsBounds ⟨⟨0, 0, 0⟩, []⟩ ⟨.get 16 1, none, []⟩ := nofun
  have hadj : KeepsBounds ⟨⟨0, 0, 0⟩, [smallMbuf]⟩ ⟨.adj 6, some smallMbuf, []⟩ := by
    intro l hl
    cases hl
    exact ⟨⟨by decide, by decide, by decide⟩, trivial⟩
  have hrun : ∃ s, Trans.Run (Trans.Guarded (Step psramLimits) KeepsBounds) ⟨⟨0, 0, 0⟩, []⟩
      [⟨.get 16 1, none, []⟩, ⟨.adj 6, some smallMbuf, []⟩] s :=
    ⟨_, .cons ⟨hget, smallMbuf_get⟩ (.single ⟨hadj, .call _ _ [] [] _ smallMbuf _ _ (.adj 6)⟩)⟩
  obtain ⟨s, hrun⟩ := hrun
  exact ⟨s, hrun.mono fun _ _ _ h => h.2, (mbufs_ok hrun).1⟩

end Wlan
end XR806

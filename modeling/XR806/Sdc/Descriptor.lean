import Mathlib.Algebra.BigOperators.Group.List.Basic
import XR806.Sdc.Request
import Mathlib.Algebra.Ring.Nat

/-!
# XR806.Sdc.Descriptor

The chain of IDMA descriptors for a scatter list. A segment is cut into pieces of 8192 bytes, the
last one of which may be shorter, and the pieces of all segments are numbered through: that number
is the place of the descriptor in the pool. `alloc_eq`: the two loops write the list `chain` there.
`chain_described`: the list is followed from its first descriptor to its last and covers the
segments.
-/

namespace XR806
namespace Sdc

/-! ## The pool -/

/-- `SDXC_MAX_TRANS_LEN`. -/
def sdxcMaxTransLen (appCore : Bool) : Nat := if appCore then 1 <<< 18 else 1 <<< 14

/-- `SDXC_DES_NUM_SHIFT`. -/
def sdxcDesNumShift : Nat := 13

/-- `SDXC_DES_BUFFER_MAX_LEN`. -/
def sdxcDesBufferMaxLen : Nat := 1 <<< sdxcDesNumShift

/-- `SDXC_MAX_DES_NUM`. -/
def sdxcMaxDesNum (appCore : Bool) : Nat := sdxcMaxTransLen appCore >>> sdxcDesNumShift

/-- `SDXC_IDMAC_DES0_DIC` to `SDXC_IDMAC_DES0_OWN`, by the number of the bit. -/
def des0Dic : Nat := 1
def des0Ld : Nat := 2
def des0Fd : Nat := 3
def des0Ch : Nat := 4
def des0Er : Nat := 5
def des0Own : Nat := 31

def bit (n : Nat) : BitVec 32 := 1 <<< n

structure SmcIdmaDes where
  config : BitVec 32
  dataBuf1Sz : BitVec 16
  dataBuf2Sz : BitVec 16
  bufAddrPtr1 : BitVec 32
  bufAddrPtr2 : BitVec 32
  deriving DecidableEq

/-- Where `host->idma_des` is: inside of the memory, and not at 0. -/
structure Pool (appCore : Bool) where
  base : Nat
  pos : 0 < base
  fits : base + 16 * sdxcMaxDesNum appCore ≤ 2 ^ 32

/-- `&pdes[k]`. -/
def Pool.addr {appCore : Bool} (pool : Pool appCore) (k : Nat) : BitVec 32 :=
  .ofNat 32 (pool.base + 16 * k)

/-- The buffer and the length of a segment. -/
abbrev Segment := BitVec 32 × BitVec 32

section
variable {appCore : Bool} (pool : Pool appCore)

/-! ## `__mci_alloc_idma_des` -/

/-- `buff_frag_num` and `remain`. -/
def fragNum (len : BitVec 32) : Nat :=
  let num := (len >>> sdxcDesNumShift).toNat
  if len &&& .ofNat 32 (sdxcDesBufferMaxLen - 1) ≠ 0 then num + 1 else num

def remain (len : BitVec 32) : BitVec 32 :=
  let remain := len &&& .ofNat 32 (sdxcDesBufferMaxLen - 1)
  if remain ≠ 0 then remain else .ofNat 32 sdxcDesBufferMaxLen

/-- The flags of the first and the last descriptor, and of those between. -/
def desConfig (first last : Bool) : BitVec 32 :=
  let config := bit des0Ch ||| bit des0Own ||| bit des0Dic
  let config := if first then config ||| bit des0Fd else config
  if last then config &&& ~~~bit des0Dic ||| (bit des0Ld ||| bit des0Er) else config

/-- `pdes[des_idx]` for piece `j` of segment `i`. -/
def fragDes (sgLen i : Nat) (seg : Segment) (j desIdx : Nat) : SmcIdmaDes :=
  let num := fragNum seg.2
  let last := i = sgLen - 1 ∧ j = num - 1
  { config := desConfig (i = 0 ∧ j = 0) last
    dataBuf1Sz :=
      if 1 < num ∧ j ≠ num - 1 then .ofNat 16 sdxcDesBufferMaxLen
      else (remain seg.2).setWidth 16
    dataBuf2Sz := 0
    bufAddrPtr1 := seg.1 + .ofNat 32 (j * sdxcDesBufferMaxLen)
    bufAddrPtr2 := if last then 0 else pool.addr (desIdx + 1) }

/-- The descriptors of the pool, and `des_idx`. -/
abbrev Filled := (Nat → SmcIdmaDes) × Nat

/-- The loop over the pieces of a segment, `n` of which are left. -/
def fragLoop (sgLen i : Nat) (seg : Segment) : Nat → Nat → Filled → Filled
  | 0, _, s => s
  | n + 1, j, (pdes, desIdx) =>
    fragLoop sgLen i seg n (j + 1)
      (Function.update pdes desIdx (fragDes pool sgLen i seg j desIdx), desIdx + 1)

def segLoop (sgLen : Nat) : List Segment → Nat → Filled → Filled
  | [], _, s => s
  | seg :: sg, i, s => segLoop sgLen sg (i + 1) (fragLoop pool sgLen i seg (fragNum seg.2) 0 s)

def mciAllocIdmaDes (pdes : Nat → SmcIdmaDes) (sg : List Segment) : Nat → SmcIdmaDes :=
  (segLoop pool sg.length sg 0 (pdes, 0)).1

/-! ## The requests for blocks -/

/-- `struct mmc_card`: whether it has a host, and what `mmc_set_blocklen` returns. -/
structure Card where
  host : Bool
  suspend : Bool
  setBlocklen : Int

/-- `mmc_block_read` and `mmc_block_write` up to the request: the data of it. -/
def mmcBlock (appCore write : Bool) (card : Option Card) (buf nblk : BitVec 32) : Option Data :=
  match card with
  | none => none
  | some card =>
    if !card.host then none
    else if nblk.toNat > sdxcMaxTransLen appCore / 512 then none
    else if card.suspend then none
    else if card.setBlocklen ≠ 0 then none
    else some { write, stream := false, sg := [(buf, 512 * nblk)] }

def mmcBlockRead (appCore : Bool) (card : Option Card) (buf nblk : BitVec 32) : Option Data :=
  mmcBlock appCore false card buf nblk

def mmcBlockWrite (appCore : Bool) (card : Option Card) (buf nblk : BitVec 32) : Option Data :=
  mmcBlock appCore true card buf nblk

/-- What `rom_HAL_SDC_Request` writes to `SDXC_REG_BCNTR`. -/
def Data.byteCnt (d : Data) (dmaUse : Bool) : BitVec 32 := (countBytes d.sg dmaUse 0).2

/-! ## What a chain is for -/

/-- The addresses of `len` bytes. -/
def bytesAt (addr : BitVec 32) (len : Nat) : List (BitVec 32) :=
  (List.range len).map fun i => addr + .ofNat 32 i

def SmcIdmaDes.flag (d : SmcIdmaDes) (n : Nat) : Bool := d.config.getLsbD n

def SmcIdmaDes.bytes (d : SmcIdmaDes) : List (BitVec 32) := bytesAt d.bufAddrPtr1 d.dataBuf1Sz.toNat

def Segment.bytes (seg : Segment) : List (BitVec 32) := bytesAt seg.1 seg.2.toNat

/-- The descriptors that a scatter list needs. -/
def desNum (sg : List Segment) : Nat :=
  (sg.map fun seg => (seg.2.toNat + (sdxcDesBufferMaxLen - 1)) / sdxcDesBufferMaxLen).sum

/-- What the IDMA visits from an address on: descriptors of the pool, by their links up to the one
with the LD flag. -/
inductive Follows (pdes : Nat → SmcIdmaDes) : BitVec 32 → List SmcIdmaDes → Prop
  | last {k : Nat} (hk : k < sdxcMaxDesNum appCore) (hl : (pdes k).flag des0Ld = true) :
    Follows pdes (pool.addr k) [pdes k]
  | link {k : Nat} {ds : List SmcIdmaDes} (hk : k < sdxcMaxDesNum appCore)
      (hl : (pdes k).flag des0Ld = false) (h : Follows pdes (pdes k).bufAddrPtr2 ds) :
    Follows pdes (pool.addr k) (pdes k :: ds)

/-- The descriptor is number `k` of a chain of `n`. -/
structure SmcIdmaDes.InChain (d : SmcIdmaDes) (k n : Nat) : Prop where
  pos : 1 ≤ d.dataBuf1Sz.toNat
  le : d.dataBuf1Sz.toNat ≤ sdxcDesBufferMaxLen
  own : d.flag des0Own = true
  fd : d.flag des0Fd = true ↔ k = 0
  ld : d.flag des0Ld = true ↔ k + 1 = n
  dic : d.flag des0Dic = false ↔ k + 1 = n
  link : d.bufAddrPtr2 = 0 ↔ k + 1 = n

/-- `ds` is the chain for the scatter list. -/
structure Describes (pdes : Nat → SmcIdmaDes) (sg : List Segment) (ds : List SmcIdmaDes) :
    Prop where
  length : ds.length = desNum sg
  follows : ds ≠ [] → Follows pool pdes (pool.addr 0) ds
  bytes : ds.flatMap SmcIdmaDes.bytes = sg.flatMap Segment.bytes
  inChain : ∀ (k : Nat) (d : SmcIdmaDes), ds[k]? = some d → d.InChain k ds.length

end

/-! ## The pieces of a segment -/

section
variable {len : BitVec 32}

theorem toNat_frags : (len >>> sdxcDesNumShift).toNat = len.toNat / 8192 := by
  rw [BitVec.toNat_ushiftRight, Nat.shiftRight_eq_div_pow]
  rfl

theorem toNat_rest :
    (len &&& .ofNat 32 (sdxcDesBufferMaxLen - 1)).toNat = len.toNat % 8192 := by
  rw [BitVec.toNat_and]
  exact Nat.and_two_pow_sub_one_eq_mod len.toNat 13

theorem rest_ne_zero : len &&& .ofNat 32 (sdxcDesBufferMaxLen - 1) ≠ 0 ↔ len.toNat % 8192 ≠ 0 := by
  rw [← toNat_rest, ne_eq, ne_eq, ← BitVec.toNat_inj]
  rfl

theorem fragNum_eq : fragNum len = (len.toNat + 8191) / 8192 := by
  simp only [fragNum, rest_ne_zero, toNat_frags]
  split <;> omega

theorem toNat_remain (hlen : len ≠ 0) :
    (remain len).toNat + 8192 * (fragNum len - 1) = len.toNat := by
  have hpos : len.toNat ≠ 0 := fun h => hlen (BitVec.eq_of_toNat_eq h)
  rw [fragNum_eq]
  simp only [remain, rest_ne_zero]
  split
  · rw [toNat_rest]
    omega
  · have hmax : (BitVec.ofNat 32 sdxcDesBufferMaxLen).toNat = 8192 := rfl
    rw [hmax]
    omega

theorem remain_bounds (len : BitVec 32) :
    1 ≤ (remain len).toNat ∧ (remain len).toNat ≤ 8192 := by
  simp only [remain, rest_ne_zero]
  split
  · rw [toNat_rest]
    omega
  · exact ⟨by decide, by decide⟩

theorem fragNum_pos (hlen : len ≠ 0) : 0 < fragNum len := by
  have hpos : len.toNat ≠ 0 := fun h => hlen (BitVec.eq_of_toNat_eq h)
  rw [fragNum_eq]
  omega

end

section
variable {appCore : Bool} {pool : Pool appCore} {sgLen i j idx : Nat} {seg : Segment}

/-- All pieces are of 8192 bytes but the last. -/
theorem toNat_dataBuf1Sz (hj : j < fragNum seg.2) :
    (fragDes pool sgLen i seg j idx).dataBuf1Sz.toNat =
      if j + 1 < fragNum seg.2 then 8192 else (remain seg.2).toNat := by
  have hsize : ((remain seg.2).setWidth 16).toNat = (remain seg.2).toNat := by
    have hle := (remain_bounds seg.2).2
    rw [BitVec.toNat_setWidth, Nat.mod_eq_of_lt (by omega)]
  simp only [fragDes]
  by_cases hlt : j + 1 < fragNum seg.2
  · rw [if_pos ⟨by omega, by omega⟩, if_pos hlt]
    rfl
  · rw [if_neg (by omega), if_neg hlt, hsize]

theorem bytesAt_append (a : BitVec 32) (m n : Nat) :
    bytesAt a m ++ bytesAt (a + .ofNat 32 m) n = bytesAt a (m + n) := by
  rw [bytesAt, bytesAt, bytesAt, List.range_add, List.map_append, List.map_map]
  congr 1
  refine List.map_congr_left fun i _ => ?_
  rw [Function.comp_apply, BitVec.ofNat_add, BitVec.add_assoc]

/-- The descriptors of a segment, from number `idx` on. -/
def segDes (pool : Pool appCore) (sgLen i : Nat) (seg : Segment) (idx : Nat) : List SmcIdmaDes :=
  (List.range (fragNum seg.2)).map fun j => fragDes pool sgLen i seg j (idx + j)

/-- Before the last piece there are whole ones only. -/
theorem bytes_whole (n : Nat) (hn : n < fragNum seg.2) :
    ((List.range n).map fun j => fragDes pool sgLen i seg j (idx + j)).flatMap SmcIdmaDes.bytes =
      bytesAt seg.1 (8192 * n) := by
  induction n with
  | zero => rfl
  | succ n ih =>
    rw [List.range_succ, List.map_append, List.flatMap_append, ih (by omega), List.map_singleton,
      List.flatMap_singleton, SmcIdmaDes.bytes, toNat_dataBuf1Sz (by omega), if_pos (by omega),
      Nat.mul_succ, ← bytesAt_append]
    congr 2
    rw [Nat.mul_comm]
    rfl

theorem bytes_segDes (hlen : seg.2 ≠ 0) :
    (segDes pool sgLen i seg idx).flatMap SmcIdmaDes.bytes = seg.bytes := by
  obtain ⟨n, hn⟩ : ∃ n, fragNum seg.2 = n + 1 := Nat.exists_eq_add_one.mpr (fragNum_pos hlen)
  have hrest : seg.2.toNat = 8192 * n + (remain seg.2).toNat := by
    have hremain := toNat_remain hlen
    rw [hn] at hremain
    omega
  rw [segDes, hn, List.range_succ, List.map_append, List.flatMap_append, bytes_whole n (by omega),
    List.map_singleton, List.flatMap_singleton, SmcIdmaDes.bytes, toNat_dataBuf1Sz (by omega),
    if_neg (by omega), Segment.bytes, hrest, ← bytesAt_append]
  congr 2
  rw [Nat.mul_comm]
  rfl

theorem addr_ne_zero {k : Nat} (hk : k < sdxcMaxDesNum appCore) : pool.addr k ≠ 0 := by
  intro h
  have hpos := pool.pos
  have hfits := pool.fits
  have heq := congrArg BitVec.toNat h
  rw [Pool.addr, BitVec.toNat_ofNat, Nat.mod_eq_of_lt (by omega)] at heq
  have hzero : (0 : BitVec 32).toNat = 0 := rfl
  omega

theorem desConfig_flags : ∀ first last : Bool,
    (desConfig first last).getLsbD des0Own = true ∧
      (desConfig first last).getLsbD des0Fd = first ∧
      (desConfig first last).getLsbD des0Ld = last ∧
      (desConfig first last).getLsbD des0Dic = !last := by
  decide

/-- The piece is number `idx` of all `n`: the first one when it is the first of the first segment,
the last one when it is the last of the last. -/
theorem inChain_fragDes {n : Nat} (hj : j < fragNum seg.2) (hn : n ≤ sdxcMaxDesNum appCore)
    (hidx : idx < n) (hfirst : i = 0 ∧ j = 0 ↔ idx = 0)
    (hlast : i = sgLen - 1 ∧ j = fragNum seg.2 - 1 ↔ idx + 1 = n) :
    (fragDes pool sgLen i seg j idx).InChain idx n := by
  have hsize := remain_bounds seg.2
  have hmax : sdxcDesBufferMaxLen = 8192 := rfl
  have hpos : 1 ≤ (fragDes pool sgLen i seg j idx).dataBuf1Sz.toNat ∧
      (fragDes pool sgLen i seg j idx).dataBuf1Sz.toNat ≤ sdxcDesBufferMaxLen := by
    rw [toNat_dataBuf1Sz hj, hmax]
    split <;> omega
  obtain ⟨hown, hfd, hld, hdic⟩ := desConfig_flags (decide (idx = 0)) (decide (idx + 1 = n))
  have hconfig : (fragDes pool sgLen i seg j idx).config =
      desConfig (decide (idx = 0)) (decide (idx + 1 = n)) := by
    simp only [fragDes, hfirst, hlast]
  refine ⟨hpos.1, hpos.2, ?_, ?_, ?_, ?_, ?_⟩
  · rw [SmcIdmaDes.flag, hconfig, hown]
  · rw [SmcIdmaDes.flag, hconfig, hfd, decide_eq_true_eq]
  · rw [SmcIdmaDes.flag, hconfig, hld, decide_eq_true_eq]
  · rw [SmcIdmaDes.flag, hconfig, hdic, Bool.not_eq_false', decide_eq_true_eq]
  · simp only [fragDes, hlast]
    split
    · simp [*]
    · exact iff_of_false (addr_ne_zero (by omega)) ‹_›

end

/-! ## What the loops write -/

/-- The descriptors `ds` are at `idx` and behind it. -/
def store (pdes : Nat → SmcIdmaDes) (idx : Nat) (ds : List SmcIdmaDes) : Nat → SmcIdmaDes :=
  fun k => if idx ≤ k then ds[k - idx]?.getD (pdes k) else pdes k

section
variable {appCore : Bool} {pool : Pool appCore} {pdes : Nat → SmcIdmaDes} {sgLen i idx : Nat}
  {seg : Segment} {sg : List Segment}

theorem store_nil : store pdes idx [] = pdes := by
  funext k
  simp [store]

theorem store_cons (d : SmcIdmaDes) (ds : List SmcIdmaDes) :
    store (Function.update pdes idx d) (idx + 1) ds = store pdes idx (d :: ds) := by
  funext k
  simp only [store]
  rcases Nat.lt_trichotomy k idx with hlt | rfl | hgt
  · rw [if_neg (by omega), if_neg (by omega), Function.update_of_ne (by omega)]
  · rw [if_neg (by omega), if_pos (Nat.le_refl k), Nat.sub_self, Function.update_self]
    rfl
  · have hk : k - idx = k - (idx + 1) + 1 := by omega
    rw [if_pos (by omega), if_pos (by omega), Function.update_of_ne (by omega), hk,
      List.getElem?_cons_succ]

theorem store_append (ds es : List SmcIdmaDes) :
    store (store pdes idx ds) (idx + ds.length) es = store pdes idx (ds ++ es) := by
  induction ds generalizing pdes idx with
  | nil => rw [store_nil]; rfl
  | cons d ds ih =>
    rw [← store_cons, List.length_cons, Nat.add_comm ds.length, ← Nat.add_assoc, ih, store_cons]
    rfl

theorem fragLoop_eq (n j : Nat) : fragLoop pool sgLen i seg n j (pdes, idx) =
    (store pdes idx ((List.range n).map fun t => fragDes pool sgLen i seg (j + t) (idx + t)),
      idx + n) := by
  induction n generalizing j pdes idx with
  | zero => rw [List.range_zero, List.map_nil, store_nil]; rfl
  | succ n ih =>
    rw [fragLoop, ih, List.range_succ_eq_map, List.map_cons, List.map_map, store_cons]
    simp only [Function.comp_def, Nat.succ_eq_add_one, Nat.add_zero, Nat.add_assoc, Nat.add_comm 1]

/-- The descriptors of the segments, the first of which is segment `i` and gets number `idx`. -/
def chainFrom (pool : Pool appCore) (sgLen : Nat) : List Segment → Nat → Nat → List SmcIdmaDes
  | [], _, _ => []
  | seg :: sg, i, idx =>
    segDes pool sgLen i seg idx ++ chainFrom pool sgLen sg (i + 1) (idx + fragNum seg.2)

def chain (pool : Pool appCore) (sg : List Segment) : List SmcIdmaDes :=
  chainFrom pool sg.length sg 0 0

theorem length_segDes : (segDes pool sgLen i seg idx).length = fragNum seg.2 := by
  rw [segDes, List.length_map, List.length_range]

theorem segLoop_eq (sg : List Segment) (i : Nat) :
    (segLoop pool sgLen sg i (pdes, idx)).1 = store pdes idx (chainFrom pool sgLen sg i idx) := by
  induction sg generalizing i idx pdes with
  | nil => rw [chainFrom, store_nil]; rfl
  | cons seg sg ih =>
    have hseg : fragLoop pool sgLen i seg (fragNum seg.2) 0 (pdes, idx) =
        (store pdes idx (segDes pool sgLen i seg idx), idx + fragNum seg.2) := by
      rw [fragLoop_eq]
      simp only [Nat.zero_add]
      rfl
    rw [segLoop, hseg, ih, chainFrom, ← store_append, length_segDes]

theorem alloc_eq (sg : List Segment) :
    mciAllocIdmaDes pool pdes sg = store pdes 0 (chain pool sg) :=
  segLoop_eq sg 0

/-! ## What the chain is -/

theorem desNum_cons : desNum (seg :: sg) = fragNum seg.2 + desNum sg := by
  rw [desNum, List.map_cons, List.sum_cons, fragNum_eq]
  rfl

theorem length_chainFrom (sg : List Segment) (i : Nat) :
    (chainFrom pool sgLen sg i idx).length = desNum sg := by
  induction sg generalizing i idx with
  | nil => rfl
  | cons seg sg ih => rw [chainFrom, List.length_append, length_segDes, ih, desNum_cons]

theorem bytes_chainFrom (hne : ∀ seg ∈ sg, seg.2 ≠ 0) (i : Nat) :
    (chainFrom pool sgLen sg i idx).flatMap SmcIdmaDes.bytes = sg.flatMap Segment.bytes := by
  induction sg generalizing i idx with
  | nil => rfl
  | cons seg sg ih =>
    rw [chainFrom, List.flatMap_append, bytes_segDes (hne seg List.mem_cons_self),
      ih fun seg hseg => hne seg (List.mem_cons_of_mem _ hseg), List.flatMap_cons]

/-- What a descriptor of a chain of `n` is, with the address of the next one. -/
def At (pool : Pool appCore) (n k : Nat) (d : SmcIdmaDes) : Prop :=
  d.InChain k n ∧ (k + 1 ≠ n → d.bufAddrPtr2 = pool.addr (k + 1))

/-- Along the segments: the numbers before `idx` are taken exactly when there are segments before
number `i`, as none is empty. -/
theorem at_chainFrom {n : Nat} (hne : ∀ seg ∈ sg, seg.2 ≠ 0) (hfit : n ≤ sdxcMaxDesNum appCore)
    (hi : i + sg.length = sgLen) (hn : idx + desNum sg = n) (hidx : i = 0 ↔ idx = 0) :
    ∀ k d, (chainFrom pool sgLen sg i idx)[k]? = some d → At pool n (idx + k) d := by
  induction sg generalizing i idx with
  | nil => exact fun k d h => absurd h.symm (Option.some_ne_none d)
  | cons seg sg ih =>
    intro k d h
    have hpos := fragNum_pos (hne seg List.mem_cons_self)
    rw [desNum_cons] at hn
    rw [List.length_cons] at hi
    rw [chainFrom, List.getElem?_append, length_segDes] at h
    by_cases hk : k < fragNum seg.2
    · rw [if_pos hk, segDes, List.getElem?_map, List.getElem?_range hk, Option.map_some,
        Option.some.injEq] at h
      have hnext : sg = [] ↔ desNum sg = 0 := by
        cases sg with
        | nil => exact iff_of_true rfl rfl
        | cons seg' sg =>
          have hpos' := fragNum_pos (hne seg' (List.mem_cons_of_mem _ List.mem_cons_self))
          rw [desNum_cons]
          exact iff_of_false (List.cons_ne_nil _ _) (by omega)
      have hzero : sg.length = 0 ↔ desNum sg = 0 := List.length_eq_zero_iff.trans hnext
      have hlast : i = sgLen - 1 ∧ k = fragNum seg.2 - 1 ↔ idx + k + 1 = n := by omega
      subst h
      refine ⟨inChain_fragDes hk hfit (by omega) (by omega) hlast, fun hnot => ?_⟩
      exact if_neg fun h => hnot (hlast.mp h)
    · rw [if_neg hk] at h
      have hrest : At pool n (idx + fragNum seg.2 + (k - fragNum seg.2)) d :=
        ih (fun seg hseg => hne seg (List.mem_cons_of_mem _ hseg)) (by omega) (by omega)
          (by omega) _ _ h
      rwa [show idx + fragNum seg.2 + (k - fragNum seg.2) = idx + k by omega] at hrest

/-- A list of descriptors at the places 0 and up, each linked to the next, is followed to its
end. -/
theorem follows_chain {ds : List SmcIdmaDes} (hfit : ds.length ≤ sdxcMaxDesNum appCore)
    (hds : ∀ k d, ds[k]? = some d → pdes k = d ∧ At pool ds.length k d) (k n : Nat)
    (hn : k + (n + 1) = ds.length) : Follows pool pdes (pool.addr k) (ds.drop k) := by
  induction n generalizing k with
  | zero =>
    have hk : k < ds.length := by omega
    obtain ⟨hread, hchain, -⟩ := hds k ds[k] (List.getElem?_eq_getElem hk)
    rw [List.drop_eq_getElem_cons hk, List.drop_eq_nil_of_le (by omega), ← hread]
    exact .last (by omega) (by rw [hread]; exact hchain.ld.mpr hn)
  | succ n ih =>
    have hk : k < ds.length := by omega
    obtain ⟨hread, hchain, hlink⟩ := hds k ds[k] (List.getElem?_eq_getElem hk)
    have hld : (pdes k).flag des0Ld = false := by
      rw [hread, Bool.eq_false_iff, ne_eq, hchain.ld]
      omega
    rw [List.drop_eq_getElem_cons hk, ← hread]
    refine .link (by omega) hld ?_
    rw [hread, hlink (by omega)]
    exact ih (k + 1) (by omega)

theorem describes (hne : ∀ seg ∈ sg, seg.2 ≠ 0) (hfit : desNum sg ≤ sdxcMaxDesNum appCore) :
    Describes pool (mciAllocIdmaDes pool pdes sg) sg (chain pool sg) := by
  have hlen : (chain pool sg).length = desNum sg := length_chainFrom sg 0
  have hat : ∀ k d, (chain pool sg)[k]? = some d → At pool (chain pool sg).length k d := by
    intro k d h
    have hk := at_chainFrom (n := (chain pool sg).length) hne (by omega) (Nat.zero_add _)
      (by omega) Iff.rfl k d h
    rwa [Nat.zero_add] at hk
  refine ⟨hlen, fun hcons => ?_, bytes_chainFrom hne 0, fun k d h => (hat k d h).1⟩
  have hpos := List.length_pos_of_ne_nil hcons
  have hread : ∀ k d, (chain pool sg)[k]? = some d → mciAllocIdmaDes pool pdes sg k = d := by
    intro k d h
    rw [alloc_eq, store, if_pos (Nat.zero_le k), Nat.sub_zero, h, Option.getD_some]
  exact follows_chain (by omega) (fun k d h => ⟨hread k d h, hat k d h⟩) 0
    ((chain pool sg).length - 1) (by omega)

theorem length_bytes (ds : List SmcIdmaDes) :
    (ds.flatMap SmcIdmaDes.bytes).length = (ds.map fun d => d.dataBuf1Sz.toNat).sum := by
  rw [List.length_flatMap]
  congr 1
  refine List.map_congr_left fun d _ => ?_
  rw [SmcIdmaDes.bytes, bytesAt, List.length_map, List.length_range]

/-- A request for blocks has one segment, of at most `SDXC_MAX_TRANS_LEN` bytes. -/
theorem mmcBlock_some {write : Bool} {card : Option Card} {buf nblk : BitVec 32} {d : Data}
    (h : mmcBlock appCore write card buf nblk = some d) :
    ∃ len : BitVec 32, d.sg = [(buf, len)] ∧ len.toNat ≤ sdxcMaxTransLen appCore := by
  unfold mmcBlock at h
  split at h
  · exact absurd h.symm (Option.some_ne_none d)
  · split_ifs at h with hhost hn
    cases h
    have hmax : sdxcMaxTransLen appCore = 512 * (sdxcMaxTransLen appCore / 512) := by
      cases appCore <;> rfl
    have hlen : ((512 : BitVec 32) * nblk).toNat ≤ 512 * nblk.toNat := by
      rw [BitVec.toNat_mul]
      exact Nat.mod_le _ _
    exact ⟨_, rfl, by omega⟩

theorem desNum_single {len : BitVec 32} {buf : BitVec 32}
    (h : len.toNat ≤ sdxcMaxTransLen appCore) : desNum [(buf, len)] ≤ sdxcMaxDesNum appCore := by
  have hmax : sdxcMaxTransLen appCore = 8192 * sdxcMaxDesNum appCore := by cases appCore <;> rfl
  have hsize : sdxcDesBufferMaxLen = 8192 := rfl
  rw [desNum, List.map_singleton, List.sum_singleton, hsize]
  dsimp only
  omega

/-- A segment of no bytes needs no descriptor. -/
theorem describes_single {buf len : BitVec 32} (h : len.toNat ≤ sdxcMaxTransLen appCore) :
    Describes pool (mciAllocIdmaDes pool pdes [(buf, len)]) [(buf, len)]
      (chain pool [(buf, len)]) := by
  by_cases hlen : len = 0
  · subst hlen
    have hnum : fragNum 0 = 0 := by decide
    have hdes : desNum [(buf, 0)] = 0 := by rw [desNum_cons, hnum]; rfl
    have hnil : chain pool [(buf, 0)] = [] := by
      rw [chain, chainFrom, segDes, hnum]
      rfl
    rw [hnil]
    exact ⟨hdes.symm, fun h => absurd rfl h, rfl, fun k d h => absurd h.symm (Option.some_ne_none d)⟩
  · exact describes (by simpa using hlen) (desNum_single h)

theorem byteCnt_single {d : Data} {buf len : BitVec 32} (hbuf : buf &&& 3 = 0)
    (hd : d.sg = [(buf, len)]) (dmaUse : Bool) : d.byteCnt dmaUse = len := by
  rw [Data.byteCnt, hd, countBytes, if_neg (not_not.mpr hbuf), countBytes]
  exact BitVec.zero_add len

/-- Every scatter list that the pool has room for is described by the chain, and a request for
blocks has such a list, with the bytes counted that the chain moves. -/
theorem chain_described (pool : Pool appCore) (pdes : Nat → SmcIdmaDes) :
    (∀ sg, (∀ seg ∈ sg, seg.2 ≠ 0) → desNum sg ≤ sdxcMaxDesNum appCore →
      ∃ ds, Describes pool (mciAllocIdmaDes pool pdes sg) sg ds) ∧
    ∀ card buf nblk d, buf &&& 3 = 0 →
      (mmcBlockRead appCore card buf nblk = some d ∨
        mmcBlockWrite appCore card buf nblk = some d) →
      desNum d.sg ≤ sdxcMaxDesNum appCore ∧
        ∃ ds, Describes pool (mciAllocIdmaDes pool pdes d.sg) d.sg ds ∧
          ∀ dmaUse, (d.byteCnt dmaUse).toNat = (ds.map fun d => d.dataBuf1Sz.toNat).sum := by
  refine ⟨fun sg hne hfit => ⟨_, describes hne hfit⟩, fun card buf nblk d hbuf h => ?_⟩
  obtain ⟨len, hsg, hlen⟩ : ∃ len : BitVec 32, d.sg = [(buf, len)] ∧
      len.toNat ≤ sdxcMaxTransLen appCore := h.elim mmcBlock_some mmcBlock_some
  rw [hsg]
  refine ⟨desNum_single hlen, _, describes_single hlen, fun dmaUse => ?_⟩
  have hbytes : (chain pool [(buf, len)]).flatMap SmcIdmaDes.bytes =
      [(buf, len)].flatMap Segment.bytes :=
    (describes_single hlen : Describes pool (mciAllocIdmaDes pool pdes _) _ _).bytes
  rw [byteCnt_single hbuf hsg, ← length_bytes, hbytes, List.flatMap_singleton, Segment.bytes,
    bytesAt, List.length_map, List.length_range]

/-- The pool at 0x100, with no descriptor filled in. -/
def emptyPool : Pool true := ⟨0x100, by decide, by decide⟩

def noDes : Nat → SmcIdmaDes := fun _ => ⟨0, 0, 0, 0, 0⟩

/-- Three segments, the second of which is of whole pieces; and a write of forty blocks, which takes
three descriptors. -/
theorem chain_described_three :
    (∃ ds, Describes emptyPool
      (mciAllocIdmaDes emptyPool noDes [(0x1000, 10000), (0x8000, 16384), (0x20002, 7)])
      [(0x1000, 10000), (0x8000, 16384), (0x20002, 7)] ds) ∧
    ∃ d ds, mmcBlockWrite true (some ⟨true, false, 0⟩) 0x40000 40 = some d ∧ desNum d.sg = 3 ∧
      Describes emptyPool (mciAllocIdmaDes emptyPool noDes d.sg) d.sg ds ∧
      (ds.map fun d => d.dataBuf1Sz.toNat).sum = 20480 := by
  refine ⟨(chain_described emptyPool noDes).1 _ (by simp) (by decide), ?_⟩
  have hwrite : mmcBlockWrite true (some ⟨true, false, 0⟩) 0x40000 40 =
      some ⟨true, false, [(0x40000, 20480)]⟩ := rfl
  obtain ⟨-, ds, hds, hbytes⟩ :=
    (chain_described emptyPool noDes).2 _ _ _ _ (by decide) (.inr hwrite)
  refine ⟨_, ds, hwrite, by decide, hds, (hbytes true).symm.trans ?_⟩
  decide

end

end Sdc
end XR806

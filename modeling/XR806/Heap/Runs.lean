import XR806.Heap.Refine
import XR806.Trans.Run

/-!
# XR806.Heap.Runs

A heap from its start on, under any calls of its users, who free and resize only what they own and
write only into it. Every call returns, and the heap stays a tiling by blocks whose free ones are
the free list (`heap_ok`). The one call that can go wrong is `calloc` with a product that does not
fit in 32 bits: it hands out less than was asked for (`calloc_wraps`).
-/

namespace XR806
namespace Heap

open Tile

/-- A heap and the pointers its users own, with the sizes they asked for. -/
structure Sys where
  heap : SysHeap
  live : Nat → Option Nat

inductive Call where
  | malloc (size : UInt32)
  | calloc (nmemb size : UInt32)
  | realloc (ptr : Nat) (size : UInt32)
  | free (ptr : Nat)
  | write (ptr : Nat)

/-- The user pointers once a call for `n` bytes has returned `ret`. -/
def afterAlloc (live : Nat → Option Nat) (n ret : Nat) : Nat → Option Nat :=
  if ret = 0 then live else Function.update live ret (some n)

/-- `NULL`, or a pointer its user owns. -/
def Owned (live : Nat → Option Nat) (p : Nat) : Prop := p = 0 ∨ ∃ k, live p = some k

inductive Step : Sys → Call → Sys → Prop
  | malloc (s : Sys) (n : UInt32) (h : SysHeap) (ret : Nat)
    (hrun : sysHeapMalloc s.heap n.toNat = some (h, ret)) :
    Step s (.malloc n) ⟨h, afterAlloc s.live n.toNat ret⟩
  | calloc (s : Sys) (k n : UInt32) (h : SysHeap) (ret : Nat)
    (hrun : sysHeapCalloc s.heap k.toNat n.toNat = some (h, ret)) :
    Step s (.calloc k n) ⟨h, afterAlloc s.live (k.toNat * n.toNat) ret⟩
  | realloc (s : Sys) (p : Nat) (n : UInt32) (h : SysHeap) (ret : Nat) (hp : Owned s.live p)
    (hrun : sysHeapRealloc s.heap p n.toNat = some (h, ret)) :
    Step s (.realloc p n) ⟨h, afterRealloc s.live p n.toNat ret⟩
  | free (s : Sys) (p : Nat) (h : SysHeap) (hp : Owned s.live p)
    (hrun : sysHeapFree s.heap p = some h) :
    Step s (.free p) ⟨h, Function.update s.live p none⟩
  /-- A user writes into its block; a link has 8 bytes. -/
  | write (s : Sys) (p n : Nat) (links : Links) (hp : s.live p = some n)
    (hsame : ∀ a, a + 8 ≤ p ∨ p + n ≤ a → links a = s.heap.links a) :
    Step s (.write p) { s with heap.links := links }

/-- The product of a `calloc` fits in 32 bits. -/
def Fits (_ : Sys) : Call → Prop
  | .calloc k n => k.toNat * n.toNat < 2 ^ 32
  | _ => True

/-- A region a heap can be started on: room for a block and the end marker wherever it starts, and
`xStart` outside. -/
structure Region (xStart base len : Nat) : Prop where
  pos : 0 < base
  room : 64 ≤ len
  small : len < 2 ^ 31
  range : base + len ≤ 2 ^ 32 ∧ xStart < 2 ^ 32
  outside : xStart < base ∨ base + len ≤ xStart

/-- The two heaps of the SDK. -/
inductive Port where
  | sram
  | psram

def Port.init : Port → Nat → Links → Nat → Nat → SysHeap
  | .sram => sramHeapInit
  | .psram => psramHeapInit

/-- What the heap of `s` has to be: its first block is at `lo`, the end marker at `hi`. -/
structure SysOk (lo hi : Nat) (s : Sys) (bs : List (Block Nat)) : Prop where
  tiles : Tiles lo bs hi
  freeList : Chain s.heap.links s.heap.xStart (free bs) hi
  sorted : (free bs).Pairwise fun a b => a.addr < b.addr
  apart : Apart bs
  remaining : s.heap.xFreeBytesRemaining = ((bs.filter (·.isFree)).map (·.size)).sum
  owned : ∀ b ∈ bs, ¬b.isFree → ∃ n, s.live (b.addr + s.heap.xHeapStructSize) = some n
  live : ∀ p n, s.live p = some n → s.heap.portByteAlignment ∣ p ∧
    ∃ b ∈ bs, ¬b.isFree ∧ p = b.addr + s.heap.xHeapStructSize ∧ p + n ≤ b.addr + b.size
  disjoint : ∀ p q n m, s.live p = some n → s.live q = some m → p ≠ q → p + n ≤ q ∨ q + m ≤ p
  inside : ∀ p n, s.live p = some n → lo ≤ p ∧ p + n ≤ hi

section

variable {lo : Nat} {s s' : Sys} {call : Call} {bs : List (Block Nat)}

/-- What is kept by the calls. -/
def Inv (lo : Nat) (s : Sys) : Prop := ∃ bs, HeapRep s.heap lo bs ∧ Tracks bs s.live

theorem sysOk_of_rep (hr : HeapRep s.heap lo bs) (ht : Tracks bs s.live) :
    SysOk lo s.heap.pxEnd s bs := by
  have hstruct := hr.config.structSize
  have hlive : ∀ p n, s.live p = some n → ∃ b ∈ bs, ¬b.isFree ∧ p = b.addr + 16 ∧
      p + n ≤ b.addr + b.size ∧ lo ≤ b.addr ∧ b.addr + b.size ≤ s.heap.pxEnd := by
    intro p n hp
    obtain ⟨b, hb, howner, rfl⟩ := (ht p n).mp hp
    have hfit := (hr.owned b hb n howner).2
    have hrange := hr.addr_range hb
    exact ⟨b, hb, by simp [Block.isFree, howner], rfl, by omega, hrange.1, hrange.2.2⟩
  refine ⟨hr.tiles, hr.chain, ?_, hr.apart, hr.remaining, ?_, ?_, ?_, ?_⟩
  · refine (hr.tiles.pairwise.sublist List.filter_sublist).imp_of_mem ?_
    intro a b ha _ hab
    have hpos := (hr.addr_range (mem_free.mp ha).1).2.1
    unfold Block.next at hab
    omega
  · intro b hb hown
    obtain ⟨n, hn⟩ := Option.ne_none_iff_exists'.mp fun h => hown (isFree_iff.mpr h)
    exact ⟨n, (ht _ _).mpr ⟨b, hb, hn, by rw [hstruct]⟩⟩
  · intro p n hp
    obtain ⟨b, hb, hown, rfl, hfit, -⟩ := hlive p n hp
    refine ⟨?_, b, hb, hown, by rw [hstruct], hfit⟩
    have halign := (hr.aligned b hb).1
    rcases hr.config.align with ⟨ha, -⟩ | ⟨ha, -⟩ <;> rw [ha] at halign ⊢ <;> omega
  · intro p q n m hp hq hne
    obtain ⟨b, hb, -, rfl, hfit, -⟩ := hlive p n hp
    obtain ⟨c, hc, -, rfl, hfit', -⟩ := hlive q m hq
    have hsep := hr.tiles.disjoint hb hc (by omega)
    unfold Block.next at hsep
    omega
  · intro p n hp
    obtain ⟨b, hb, -, rfl, hfit, hlo, hhi⟩ := hlive p n hp
    omega

/-! ## The start -/

/-- From `lo` to `hi` is the whole region, up to the alignment and the end marker. -/
def Covers (base len lo hi : Nat) : Prop :=
  base ≤ lo ∧ lo < base + 16 ∧ hi ≤ base + len ∧ base + len < hi + 32

theorem clearBits_mask {x k : Nat} : clearBits x (2 ^ k - 1) = x - x % 2 ^ k := by
  rw [clearBits, Nat.and_two_pow_sub_one_eq_mod]

theorem sub32_u32 {n : Nat} (h : 16 ≤ n) (hn : n ≤ 2 ^ 32) : sub32 (u32 n) 16 = n - 16 := by
  unfold sub32 u32
  split <;> omega

theorem alignedHeap_spec {h : SysHeap} {k : Nat} (hk : k = 3 ∨ k = 4)
    (ha : h.portByteAlignment = 2 ^ k) (hm : h.portByteAlignmentMask = 2 ^ k - 1)
    (hbase : h.ucHeap + 16 ≤ 2 ^ 32) :
    h.ucHeap ≤ alignedHeap h ∧ alignedHeap h < h.ucHeap + 2 ^ k ∧ alignedHeap h % 2 ^ k = 0 := by
  unfold alignedHeap
  rw [ha, hm, clearBits_mask, Nat.and_two_pow_sub_one_eq_mod]
  rcases hk with rfl | rfl
  · split
    · rw [u32_of_lt (by omega)]
      omega
    · omega
  · split
    · rw [u32_of_lt (by omega)]
      omega
    · omega

theorem initRep {xStart base len k : Nat} {links : Links} (hreg : Region xStart base len)
    (hk : k = 3 ∨ k = 4) {h : SysHeap}
    (hh : h = { sysHeapDefaultInit xStart links base len with
      portByteAlignment := 2 ^ k
      portByteAlignmentMask := 2 ^ k - 1 }) :
    Covers base len (alignedHeap h) (sysHeapInit h).pxEnd ∧ (sysHeapInit h).pxEnd + 16 ≤ base + len ∧
      HeapRep (sysHeapInit h) (alignedHeap h)
        [⟨alignedHeap h, (sysHeapInit h).pxEnd - alignedHeap h, none⟩] := by
  obtain ⟨hpos, hroom, hsmall, ⟨hrange, hstart⟩, hout⟩ := hreg
  have hbase : h.ucHeap = base := by rw [hh]; rfl
  have htotal : h.configTotalHeapSize = len := by rw [hh]; rfl
  have hxStart : h.xStart = xStart := by rw [hh]; rfl
  have hmask : h.portByteAlignmentMask = 2 ^ k - 1 := by rw [hh]
  have hstruct : h.xHeapStructSize = 16 := by rw [hh]; rfl
  obtain ⟨h1, h2, h3⟩ := alignedHeap_spec (h := h) hk (by rw [hh]) hmask (by omega)
  set lo := alignedHeap h with hlo
  rw [hbase] at h1 h2
  have hk16 : 2 ^ k ≤ 16 ∧ 0 < 2 ^ k := by rcases hk with rfl | rfl <;> decide
  have hpxEnd : (sysHeapInit h).pxEnd = (base + len - 16) - (base + len - 16) % 2 ^ k := by
    change clearBits (sub32 (u32 (lo + sub32 h.configTotalHeapSize (sub32 lo h.ucHeap)))
      h.xHeapStructSize) h.portByteAlignmentMask = _
    have hinner : sub32 len (lo - base) = len - (lo - base) := sub32_of_le (by omega)
    have hend : lo + (len - (lo - base)) = base + len := by omega
    rw [htotal, hbase, hstruct, hmask, clearBits_mask, sub32_of_le h1, hinner, hend,
      sub32_u32 (by omega) hrange]
  have hmod : (base + len - 16) % 2 ^ k < 2 ^ k := Nat.mod_lt _ hk16.2
  set e := (sysHeapInit h).pxEnd with he
  have hsize : sub32 e lo = e - lo := sub32_of_le (by omega)
  have hlo8 : 2 ^ k ∣ lo := Nat.dvd_of_mod_eq_zero h3
  have halign : 2 ^ k ∣ e - lo := by
    refine Nat.dvd_sub ?_ hlo8
    rw [hpxEnd]
    exact Nat.dvd_sub_mod _
  have hlinks : (sysHeapInit h).links = Function.update (Function.update (Function.update h.links
      h.xStart ⟨lo, 0⟩) e ⟨0, 0⟩) lo ⟨e, e - lo⟩ := by
    rw [← hsize]
    rfl
  have hbytes : (sysHeapInit h).xFreeBytesRemaining = e - lo := hsize
  have hne : h.xStart ≠ lo ∧ h.xStart ≠ e ∧ e ≠ lo := by omega
  have hxs : (sysHeapInit h).xStart = h.xStart := rfl
  have hfirst : (sysHeapInit h).links h.xStart = ⟨lo, 0⟩ := by
    simp [hlinks, hne.1, hne.2.1]
  have hlast : (sysHeapInit h).links e = ⟨0, 0⟩ := by simp [hlinks, hne.2.2]
  have hblock : (sysHeapInit h).links lo = ⟨e, e - lo⟩ := by simp [hlinks]
  have hpa : (sysHeapInit h).portByteAlignment = 2 ^ k := by
    rw [hh]
    rfl
  have hpm : (sysHeapInit h).portByteAlignmentMask = 2 ^ k - 1 := hmask
  have hconfig : Config (sysHeapInit h) lo := by
    refine ⟨?_, hstruct, ?_, ?_, ?_, ?_, by omega, ?_, ?_⟩
    · rw [hpa, hpm]
      rcases hk with rfl | rfl
      · exact .inl ⟨rfl, rfl⟩
      · exact .inr ⟨rfl, rfl⟩
    · rw [hh]
      rfl
    · rw [hh]
      rfl
    · rw [hxs, hxStart]
      omega
    · rw [hxs, hxStart]
      omega
    · change e < lo + 2 ^ 31
      omega
    · change e ≤ lo + h.configTotalHeapSize
      rw [htotal]
      omega
  refine ⟨by unfold Covers; omega, by omega, hconfig, ?_, by simp [Apart], ?_, ?_, hlast, ?_, ?_, ?_, ?_⟩
  · have hend : lo + (e - lo) = e := by omega
    exact ⟨rfl, Nat.sub_pos_of_lt (by omega), hend⟩
  · exact ⟨(congrArg BlockLink.pxNextFreeBlock hfirst).trans rfl,
      congrArg BlockLink.xBlockSize hblock, congrArg BlockLink.pxNextFreeBlock hblock⟩
  · exact congrArg BlockLink.xBlockSize hfirst
  · intro b hb n hn
    rw [List.mem_singleton] at hb
    subst hb
    cases hn
  · intro b hb
    rw [List.mem_singleton] at hb
    subst hb
    rw [hpa]
    exact ⟨hlo8, halign⟩
  · rw [hbytes]
    simp [freeBytes, Block.isFree, free]
  · exact Nat.le_refl _

/-- A heap that has just been started is one free block. -/
theorem Port.init_rep (port : Port) {xStart base len : Nat} (links : Links)
    (hreg : Region xStart base len) :
    ∃ lo, Covers base len lo (port.init xStart links base len).pxEnd ∧
      HeapRep (port.init xStart links base len) lo
        [⟨lo, (port.init xStart links base len).pxEnd - lo, none⟩] := by
  cases port with
  | sram =>
    obtain ⟨hcovers, -, hr⟩ := @initRep xStart base len 3 links hreg (.inl rfl) _ rfl
    exact ⟨_, hcovers, hr⟩
  | psram =>
    obtain ⟨hcovers, -, hr⟩ := @initRep xStart base len 4 links hreg (.inr rfl) _ rfl
    exact ⟨_, hcovers, hr⟩

/-! ## The calls -/

/-- A user who writes into its block changes no link of the heap. -/
theorem Inv.write (hi : Inv lo s) {p n : Nat} {links : Links} (hp : s.live p = some n)
    (hsame : ∀ a, a + 8 ≤ p ∨ p + n ≤ a → links a = s.heap.links a) :
    Inv lo { s with heap.links := links } := by
  obtain ⟨bs, hr, ht⟩ := hi
  obtain ⟨b, hb, howner, rfl⟩ := (ht p n).mp hp
  have hfit := (hr.owned b hb n howner).2
  rw [hr.config.structSize] at hfit
  refine ⟨bs, hr.write hb fun a ha => hsame a ?_, ht⟩
  unfold Block.next at ha
  omega

theorem Inv.malloc (hi : Inv lo s) {n m : Nat} (hn : n < 2 ^ 32) (hm : m ≤ n) :
    ∃ h ret, sysHeapMalloc s.heap n = some (h, ret) ∧ Stable s.heap h ∧
      Inv lo ⟨h, afterAlloc s.live m ret⟩ := by
  obtain ⟨bs, hr, ht⟩ := hi
  obtain ⟨h, ret, hrun, hstable, hcases⟩ := sysHeapMalloc_spec hr ht hn
  refine ⟨h, ret, hrun, hstable, ?_⟩
  rcases hcases with ⟨rfl, rfl, -⟩ | ⟨hret, -, -, -, hgiven⟩
  · exact ⟨bs, hr, by simpa [afterAlloc] using ht⟩
  · obtain ⟨bs', hr', ht'⟩ := hgiven m hm
    exact ⟨bs', hr', by simpa [afterAlloc, hret] using ht'⟩

theorem Inv.realloc (hi : Inv lo s) {p n : Nat} (hn : n < 2 ^ 32) (hp : Owned s.live p) :
    ∃ h ret, sysHeapRealloc s.heap p n = some (h, ret) ∧ Stable s.heap h ∧
      Inv lo ⟨h, afterRealloc s.live p n ret⟩ := by
  obtain ⟨bs, hr, ht⟩ := hi
  obtain ⟨h, ret, hrun, hstable, bs', hr', ht'⟩ := sysHeapRealloc_spec hr ht hn hp
  exact ⟨h, ret, hrun, hstable, bs', hr', ht'⟩

theorem Inv.free (hi : Inv lo s) {p : Nat} (hp : Owned s.live p) :
    ∃ h, sysHeapFree s.heap p = some h ∧ Stable s.heap h ∧
      Inv lo ⟨h, Function.update s.live p none⟩ := by
  obtain ⟨bs, hr, ht⟩ := hi
  rcases hp with rfl | ⟨k, hk⟩
  · refine ⟨s.heap, rfl, .refl _, bs, hr, ?_⟩
    rw [← ht.zero, Function.update_eq_self]
    exact ht
  · obtain ⟨h, hrun, hstable, -, bs', hr', ht'⟩ := sysHeapFree_spec hr ht hk
    exact ⟨h, hrun, hstable, bs', hr', ht'⟩

/-- A step keeps the invariant. -/
theorem Inv.step (hi : Inv lo s) (hstep : Trans.Guarded Step Fits s call s') :
    Inv lo s' ∧ Stable s.heap s'.heap := by
  obtain ⟨hfits, hstep⟩ := hstep
  cases hstep with
  | malloc n h ret hrun =>
    obtain ⟨h', ret', hrun', hstable, hi'⟩ := hi.malloc (n := n.toNat) n.toNat_lt (Nat.le_refl _)
    obtain ⟨rfl, rfl⟩ := Prod.mk.inj (Option.some.inj (hrun.symm.trans hrun'))
    exact ⟨hi', hstable⟩
  | calloc k n h ret hrun =>
    have hfits' : k.toNat * n.toNat < 2 ^ 32 := hfits
    rw [sysHeapCalloc, u32_of_lt hfits'] at hrun
    obtain ⟨h', ret', hrun', hstable, hi'⟩ := hi.malloc hfits' (Nat.le_refl _)
    obtain ⟨rfl, rfl⟩ := Prod.mk.inj (Option.some.inj (hrun.symm.trans hrun'))
    exact ⟨hi', hstable⟩
  | realloc p n h ret hp hrun =>
    obtain ⟨h', ret', hrun', hstable, hi'⟩ := hi.realloc n.toNat_lt hp
    obtain ⟨rfl, rfl⟩ := Prod.mk.inj (Option.some.inj (hrun.symm.trans hrun'))
    exact ⟨hi', hstable⟩
  | free p h hp hrun =>
    obtain ⟨h', hrun', hstable, hi'⟩ := hi.free hp
    obtain rfl := Option.some.inj (hrun.symm.trans hrun')
    exact ⟨hi', hstable⟩
  | write p n links hp hsame => exact ⟨hi.write hp hsame, rfl, rfl, rfl, Nat.le_refl _⟩

/-- Every call of a user that keeps to its own pointers returns. -/
def Returns (s : Sys) : Prop :=
  (∀ n : UInt32, ∃ s', Step s (.malloc n) s') ∧
  (∀ k n : UInt32, ∃ s', Step s (.calloc k n) s') ∧
  (∀ p (n : UInt32), Owned s.live p → ∃ s', Step s (.realloc p n) s') ∧
  ∀ p, Owned s.live p → ∃ s', Step s (.free p) s'

theorem Inv.returns (hi : Inv lo s) : Returns s := by
  refine ⟨?_, ?_, ?_, ?_⟩
  · intro n
    obtain ⟨h, ret, hrun, -⟩ := hi.malloc (n := n.toNat) n.toNat_lt (Nat.le_refl _)
    exact ⟨_, .malloc s n h ret hrun⟩
  · intro k n
    have hlt : u32 (k.toNat * n.toNat) < 2 ^ 32 := Nat.mod_lt _ (by decide)
    obtain ⟨h, ret, hrun, -⟩ := hi.malloc hlt (Nat.le_refl _)
    exact ⟨_, .calloc s k n h ret hrun⟩
  · intro p n hp
    obtain ⟨h, ret, hrun, -⟩ := hi.realloc n.toNat_lt hp
    exact ⟨_, .realloc s p n h ret hp hrun⟩
  · intro p hp
    obtain ⟨h, hrun, -⟩ := hi.free hp
    exact ⟨_, .free s p h hp hrun⟩

end

/-! ## Runs -/

/-- The heap as it was started, and no user. -/
def Port.start (port : Port) (xStart base len : Nat) (links : Links) : Sys :=
  ⟨port.init xStart links base len, fun _ => none⟩

theorem Inv.run {lo : Nat} {s s' : Sys} {calls : List Call} (hi : Inv lo s)
    (hrun : Trans.Run (Trans.Guarded Step Fits) s calls s') :
    Inv lo s' ∧ Stable s.heap s'.heap := by
  refine hrun.invariant (I := fun t => Inv lo t ∧ Stable s.heap t.heap) ⟨hi, .refl _⟩ ?_
  intro t call t' ht hstep
  obtain ⟨hi', hstable⟩ := ht.1.step hstep
  exact ⟨hi', ht.2.trans hstable⟩

/-- In every run in which no product of a `calloc` wraps, the heap is what it has to be, the minimum
is not above what was left at any time, and the next call returns. -/
theorem heap_ok (port : Port) {xStart base len : Nat} (links : Links)
    (hreg : Region xStart base len) :
    ∃ lo hi, Covers base len lo hi ∧ ∀ calls s,
      Trans.Run (Trans.Guarded Step Fits) (port.start xStart base len links) calls s →
        (∃ bs, SysOk lo hi s bs) ∧ Returns s ∧
        ∀ calls₁ s₁ calls₂,
          Trans.Run (Trans.Guarded Step Fits) (port.start xStart base len links) calls₁ s₁ →
          Trans.Run (Trans.Guarded Step Fits) s₁ calls₂ s →
            s.heap.xMinimumEverFreeBytesRemaining ≤ s₁.heap.xFreeBytesRemaining := by
  obtain ⟨lo, hcovers, hrep⟩ := port.init_rep links hreg
  have h0 : Inv lo (port.start xStart base len links) := by
    refine ⟨_, hrep, ?_⟩
    intro p n
    simp [Port.start]
  refine ⟨lo, _, hcovers, ?_⟩
  intro calls s hrun
  obtain ⟨hi, hstable⟩ := h0.run hrun
  refine ⟨?_, hi.returns, ?_⟩
  · obtain ⟨bs, hr, ht⟩ := hi
    have hend : s.heap.pxEnd = (port.init xStart links base len).pxEnd := hstable.pxEnd
    exact ⟨bs, hend ▸ sysOk_of_rep hr ht⟩
  · intro calls₁ s₁ calls₂ hrun₁ hrun₂
    obtain ⟨hi₁, -⟩ := h0.run hrun₁
    obtain ⟨-, hstable₂⟩ := hi₁.run hrun₂
    obtain ⟨_, hr₁, -⟩ := hi₁
    exact Nat.le_trans hstable₂.minimum hr₁.minimum

/-- A heap of 256 bytes. -/
def smallHeap : Sys := Port.sram.start 16 0x1000 256 fun _ => ⟨0, 0⟩

theorem small_region : Region 16 0x1000 256 := by constructor <;> decide

theorem heap_ok_small : ∃ lo hi s, Covers 0x1000 256 lo hi ∧
    Trans.Run (Trans.Guarded Step Fits) smallHeap [.malloc 20, .calloc 3 5, .free 0x1010] s ∧
    ∃ bs, SysOk lo hi s bs := by
  obtain ⟨lo, hi, hcovers, hruns⟩ := heap_ok .sram (fun _ => ⟨0, 0⟩) small_region
  have hfits : (3 : UInt32).toNat * (5 : UInt32).toNat < 2 ^ 32 := by decide
  have hrun : ∃ s, Trans.Run (Trans.Guarded Step Fits) smallHeap
      [.malloc 20, .calloc 3 5, .free 0x1010] s :=
    ⟨_, .cons ⟨trivial, .malloc _ 20 _ _ rfl⟩ (.cons ⟨hfits, .calloc _ 3 5 _ _ rfl⟩
      (.cons ⟨trivial, .free _ 0x1010 _ (.inr ⟨20, rfl⟩) rfl⟩ (.nil _)))⟩
  obtain ⟨s, hrun⟩ := hrun
  exact ⟨lo, hi, s, hcovers, hrun, (hruns _ _ hrun).1⟩

/-- The product wraps to 16, so 16 bytes are handed out for the 2^32 + 16 that were asked for. -/
theorem calloc_wraps : ∃ s, Trans.Run Step smallHeap [.calloc 0x10000001 16] s ∧
    s.live 0x1010 = some (2 ^ 32 + 16) ∧ ∀ lo bs, ¬SysOk lo s.heap.pxEnd s bs := by
  refine ⟨_, .single (.calloc _ 0x10000001 16 _ _ rfl), by decide, ?_⟩
  intro lo bs hok
  have hfit := (hok.inside 0x1010 (2 ^ 32 + 16) (by decide)).2
  revert hfit
  decide

end Heap
end XR806

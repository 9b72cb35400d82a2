import Mathlib.Algebra.Order.BigOperators.Group.List
import XR806.Heap.FreeList

/-!
# XR806.Heap.Refine

The operations of `sys_heap.c` on the blocks of the heap. `HeapRep h lo bs` says that the heap has
the blocks `bs`, from `lo` on; an owned block is tagged with the size its user has asked for.
Allocation carves, freeing joins, and `sys_heap_realloc` extends a block, or allocates and frees.
-/

namespace XR806
namespace Heap

open Tile

/-- What never changes: the constants, and where the heap is. -/
structure Config (h : SysHeap) (lo : Nat) : Prop where
  align : h.portByteAlignment = 8 ∧ h.portByteAlignmentMask = 7 ∨
    h.portByteAlignment = 16 ∧ h.portByteAlignmentMask = 15
  structSize : h.xHeapStructSize = 16
  minBlock : h.heapMinmunBlockSize = 32
  bit : h.xBlockAllocatedBit = 2 ^ 31
  outside : h.xStart < lo ∨ h.pxEnd < h.xStart
  range : h.xStart < 2 ^ 32 ∧ h.pxEnd < 2 ^ 32
  pos : 0 < lo
  small : h.pxEnd < lo + 2 ^ 31
  room : h.pxEnd ≤ lo + h.configTotalHeapSize

/-- The heap has the blocks `bs`, from `lo` on. -/
structure HeapRep (h : SysHeap) (lo : Nat) (bs : List (Block Nat)) : Prop where
  config : Config h lo
  tiles : Tiles lo bs h.pxEnd
  apart : Apart bs
  chain : Chain h.links h.xStart (free bs) h.pxEnd
  start : h.size h.xStart = 0
  last : h.links h.pxEnd = ⟨0, 0⟩
  owned : ∀ b ∈ bs, ∀ n, b.owner = some n →
    h.links b.addr = ⟨0, b.size + 2 ^ 31⟩ ∧ n + h.xHeapStructSize ≤ b.size
  aligned : ∀ b ∈ bs, h.portByteAlignment ∣ b.addr ∧ h.portByteAlignment ∣ b.size
  remaining : h.xFreeBytesRemaining = freeBytes bs
  minimum : h.xMinimumEverFreeBytesRemaining ≤ h.xFreeBytesRemaining

/-- An operation leaves the heap where it is, and the minimum does not go up. -/
structure Stable (h h' : SysHeap) : Prop where
  xStart : h'.xStart = h.xStart
  pxEnd : h'.pxEnd = h.pxEnd
  align : h'.portByteAlignment = h.portByteAlignment
  minimum : h'.xMinimumEverFreeBytesRemaining ≤ h.xMinimumEverFreeBytesRemaining

theorem Stable.refl (h : SysHeap) : Stable h h :=
  ⟨rfl, rfl, rfl, Nat.le_refl _⟩

theorem Stable.trans {h h' h'' : SysHeap} (h₁ : Stable h h') (h₂ : Stable h' h'') : Stable h h'' :=
  ⟨h₂.xStart.trans h₁.xStart, h₂.pxEnd.trans h₁.pxEnd, h₂.align.trans h₁.align,
    Nat.le_trans h₂.minimum h₁.minimum⟩

/-- Where the links change: in `xStart`, and in a free block. -/
def InFree (h : SysHeap) (bs : List (Block Nat)) (a : Nat) : Prop :=
  a = h.xStart ∨ ∃ f ∈ bs, f.isFree ∧ 8 ∣ a ∧ f.addr ≤ a ∧ a + 8 ≤ f.next

theorem Config.update {h : SysHeap} {lo : Nat} (hc : Config h lo) (links : Links) (n m : Nat) :
    Config { h with
      links
      xFreeBytesRemaining := n
      xMinimumEverFreeBytesRemaining := m } lo :=
  ⟨hc.align, hc.structSize, hc.minBlock, hc.bit, hc.outside, hc.range, hc.pos, hc.small, hc.room⟩

section

variable {h : SysHeap} {lo : Nat} {bs as cs : List (Block Nat)} {b f : Block Nat}

namespace HeapRep

theorem addr_range (hr : HeapRep h lo bs) (hb : b ∈ bs) :
    lo ≤ b.addr ∧ 0 < b.size ∧ b.addr + b.size ≤ h.pxEnd := hr.tiles.mem hb

/-- Neither the list head nor the end marker is a block. -/
theorem ne_addr (hr : HeapRep h lo bs) (hb : b ∈ bs) :
    b.addr ≠ h.xStart ∧ b.addr ≠ h.pxEnd ∧ b.addr ≠ 0 := by
  have hrange := hr.addr_range hb
  have hout := hr.config.outside
  have hpos := hr.config.pos
  omega

theorem nodup (hr : HeapRep h lo bs) : (h.xStart :: (free bs).map Block.addr).Nodup := by
  refine List.nodup_cons.mpr ⟨?_, hr.tiles.nodup.sublist (List.filter_sublist.map _)⟩
  intro hmem
  obtain ⟨b, hb, heq⟩ := List.mem_map.mp hmem
  exact (hr.ne_addr (mem_free.mp hb).1).1 heq

theorem end_ne_zero (hr : HeapRep h lo bs) : h.pxEnd ≠ 0 := by
  have := hr.tiles.le
  have := hr.config.pos
  omega

theorem remaining_lt (hr : HeapRep h lo bs) : h.xFreeBytesRemaining < 2 ^ 31 := by
  have := hr.tiles.freeBytes_le
  have := hr.config.small
  rw [hr.remaining]
  omega

/-- The blocks in front of `f` and those behind it. -/
theorem sep (hr : HeapRep h lo (as ++ f :: cs)) :
    (∀ b ∈ as, b.addr + b.size ≤ f.addr ∧ 0 < b.size) ∧
      (∀ b ∈ cs, f.addr + f.size ≤ b.addr ∧ 0 < b.size) := by
  obtain ⟨mid, has, hfaddr, -, hcs⟩ := tiles_append.mp hr.tiles
  constructor
  · intro b hb
    have := has.mem hb
    exact ⟨by rw [hfaddr]; exact this.2.2, this.2.1⟩
  · intro b hb
    exact ⟨(hcs.mem hb).1, (hcs.mem hb).2.1⟩

theorem chain_at (hr : HeapRep h lo (as ++ f :: cs)) (hf : f.isFree) :
    Chain h.links h.xStart (free as ++ f :: free cs) h.pxEnd := by
  have hchain := hr.chain
  rwa [free_append, free_cons_of_free hf] at hchain

theorem size_at (hr : HeapRep h lo (as ++ f :: cs)) (hf : f.isFree) : h.size f.addr = f.size :=
  (chain_append_cons.mp (hr.chain_at hf)).2.1

theorem next_at (hr : HeapRep h lo (as ++ f :: cs)) (hf : f.isFree) :
    h.next f.addr = headAddr (free cs) h.pxEnd := (chain_append_cons.mp (hr.chain_at hf)).2.2.next

theorem align_dvd (hr : HeapRep h lo bs) : 8 ∣ h.portByteAlignment := by
  rcases hr.config.align with ⟨ha, -⟩ | ⟨ha, -⟩
  · rw [ha]
  · rw [ha]
    decide

theorem dvd_addr (hr : HeapRep h lo bs) (hb : b ∈ bs) : 8 ∣ b.addr ∧ 8 ∣ b.size :=
  ⟨hr.align_dvd.trans (hr.aligned b hb).1, hr.align_dvd.trans (hr.aligned b hb).2⟩

theorem inFree (hr : HeapRep h lo bs) (hb : b ∈ bs) (hfree : b.isFree) : InFree h bs b.addr := by
  obtain ⟨haddr, hsize⟩ := hr.dvd_addr hb
  have hpos := (hr.addr_range hb).2.1
  refine .inr ⟨b, hb, hfree, haddr, Nat.le_refl _, ?_⟩
  have h8 := Nat.le_of_dvd hpos hsize
  unfold Block.next
  omega

/-- Only the links of the blocks and of the two ends matter. -/
theorem of_links {links : Links} (hr : HeapRep h lo bs) (hstart : links h.xStart = h.links h.xStart)
    (hend : links h.pxEnd = h.links h.pxEnd) (hblock : ∀ c ∈ bs, links c.addr = h.links c.addr) :
    HeapRep { h with links } lo bs := by
  refine ⟨hr.config.update _ _ _, hr.tiles, hr.apart, ?_, ?_, hend.trans hr.last, ?_, hr.aligned,
    hr.remaining, hr.minimum⟩
  · exact hr.chain.congr hstart fun c hc => hblock c (mem_free.mp hc).1
  · exact (congrArg BlockLink.xBlockSize hstart).trans hr.start
  · intro c hc k hk
    exact ⟨(hblock c hc).trans (hr.owned c hc k hk).1, (hr.owned c hc k hk).2⟩

/-- What is written behind the link of a user's block is none of the heap's links. -/
theorem write {links : Links} (hr : HeapRep h lo bs) (hb : b ∈ bs)
    (hsame : ∀ a, a + 8 ≤ b.addr + 16 ∨ b.next ≤ a → links a = h.links a) :
    HeapRep { h with links } lo bs := by
  have hrange := hr.addr_range hb
  have hout := hr.config.outside
  unfold Block.next at hsame
  refine hr.of_links (hsame _ (by omega)) (hsame _ (by omega)) fun c hc => hsame _ ?_
  by_cases hcb : c.addr = b.addr
  · exact .inl (by omega)
  · have hpos := (hr.addr_range hc).2.1
    obtain ⟨haddr, hsize⟩ := hr.dvd_addr hc
    have hsep := hr.tiles.disjoint hc hb hcb
    unfold Block.next at hsep
    omega

end HeapRep

/-! ## Allocation -/

/-- The size of the block `sys_heap_malloc` makes of a free one. -/
def carveSize (h : SysHeap) (f : Block Nat) (size : Nat) : Nat :=
  if f.size - size > h.heapMinmunBlockSize then size else f.size

/-- The free block that is left of `f`. -/
def rest (h : SysHeap) (f : Block Nat) (size : Nat) : List (Block Nat) :=
  if carveSize h f size < f.size then
    [⟨f.addr + carveSize h f size, f.size - carveSize h f size, none⟩]
  else []

/-- The list without `f`. -/
def unlinked (h : SysHeap) (as : List (Block Nat)) (f : Block Nat) : SysHeap :=
  h.setNext (lastAddr h.xStart (free as)) (h.next f.addr)

theorem unlinked_spec (hr : HeapRep h lo (as ++ f :: cs)) (hf : f.isFree) :
    Chain (unlinked h as f).links h.xStart (free as ++ free cs) h.pxEnd ∧
      (∀ a, (unlinked h as f).size a = h.size a) ∧
      ∀ a, a ≠ h.xStart → (∀ b ∈ free as, a ≠ b.addr) → (unlinked h as f).links a = h.links a := by
  refine ⟨?_, ?_, ?_⟩
  · have hnodup := hr.nodup
    rw [free_append, free_cons_of_free hf] at hnodup
    have hchain := (hr.chain_at hf).unlink hnodup
    rwa [← hr.next_at hf] at hchain
  · intro a
    exact SysHeap.size_setNext ..
  · intro a ha hfree
    simp [unlinked, SysHeap.setNext, ne_lastAddr ha hfree]

/-- A user's block is neither the list head nor a free block. -/
theorem HeapRep.owned_apart (hr : HeapRep h lo (as ++ f :: cs)) (hb : b ∈ as ++ cs)
    (hown : ¬b.isFree) : b.addr ≠ h.xStart ∧ ∀ g ∈ free as, b.addr ≠ g.addr := by
  have hb' : b ∈ as ++ f :: cs := by
    rw [List.mem_append] at hb ⊢
    exact hb.imp_right (List.mem_cons_of_mem _)
  refine ⟨(hr.ne_addr hb').1, ?_⟩
  intro g hg heq
  rw [hr.tiles.eq_of_addr hb' (List.mem_append_left _ (mem_free.mp hg).1) heq] at hown
  exact hown (mem_free.mp hg).2

/-- What is outside of the free blocks is none of the links in front of `f`, and not that of `f`. -/
theorem HeapRep.outside_free (hr : HeapRep h lo (as ++ f :: cs)) (hf : f.isFree) {a : Nat}
    (ha : ¬InFree h (as ++ f :: cs) a) :
    a ≠ h.xStart ∧ a ≠ f.addr ∧ ∀ g ∈ free as, a ≠ g.addr := by
  refine ⟨fun heq => ha (.inl heq), ?_, ?_⟩
  · rintro rfl
    exact ha (hr.inFree (by simp) hf)
  · rintro g hg rfl
    exact ha (hr.inFree (List.mem_append_left _ (mem_free.mp hg).1) (mem_free.mp hg).2)

/-- Nor is it the link of a rest of `f`. -/
theorem HeapRep.outside_rest (hr : HeapRep h lo (as ++ f :: cs)) (hf : f.isFree) {size a : Nat}
    (halign : h.portByteAlignment ∣ size) (hlt : size < f.size)
    (ha : ¬InFree h (as ++ f :: cs) a) : a ≠ f.addr + size := by
  rintro rfl
  obtain ⟨haddr, hsize⟩ := hr.dvd_addr (b := f) (by simp)
  have h8 := hr.align_dvd.trans halign
  refine ha (.inr ⟨f, by simp, hf, Nat.dvd_add haddr h8, Nat.le_add_right .., ?_⟩)
  unfold Block.next
  omega

/-- The other blocks are not where `f` or a rest of it begins. -/
theorem HeapRep.apart_rest (hr : HeapRep h lo (as ++ f :: cs)) {size : Nat} (hlt : size < f.size)
    (hb : b ∈ as ++ cs) : b.addr ≠ f.addr + size ∧ b.addr ≠ f.addr := by
  obtain ⟨hfront, hbehind⟩ := hr.sep
  rcases List.mem_append.mp hb with hb | hb
  · have := hfront b hb
    omega
  · have := hbehind b hb
    omega

theorem join_alone (addr size : Nat) :
    join none (⟨addr, size, none⟩ : Block Nat) none = ⟨addr, size, none⟩ := by
  simp [join]

/-- The links once `f` is out of the list and what it does not need is back. -/
structure Split (h : SysHeap) (as : List (Block Nat)) (f : Block Nat) (cs : List (Block Nat))
    (size : Nat) (links : Links) : Prop where
  chain : Chain links h.xStart (free as ++ (rest h f size ++ free cs)) h.pxEnd
  size : (links f.addr).xBlockSize = carveSize h f size
  start : (links h.xStart).xBlockSize = 0
  last : links h.pxEnd = h.links h.pxEnd
  owned : ∀ b ∈ as ++ cs, ¬b.isFree → links b.addr = h.links b.addr
  outside : ∀ a, ¬InFree h (as ++ f :: cs) a → links a = h.links a

/-- Nothing goes back of a block that is not much too large. -/
theorem split_whole (hr : HeapRep h lo (as ++ f :: cs)) (hf : f.isFree) {size : Nat}
    (hsplit : ¬f.size - size > h.heapMinmunBlockSize) :
    Split h as f cs size (unlinked h as f).links := by
  obtain ⟨hchain, hsizes, hlinks⟩ := unlinked_spec hr hf
  have hcarve : carveSize h f size = f.size := if_neg hsplit
  refine ⟨?_, ?_, (hsizes _).trans hr.start, ?_, ?_, ?_⟩
  · rw [rest, hcarve, if_neg (Nat.lt_irrefl _)]
    exact hchain
  · rw [hcarve, ← hr.size_at hf]
    exact hsizes _
  · have hrange := hr.addr_range (b := f) (by simp)
    have hout := hr.config.outside
    refine hlinks _ (by omega) ?_
    intro b hb heq
    have := hr.sep.1 b (mem_free.mp hb).1
    omega
  · intro b hb hown
    exact hlinks _ (hr.owned_apart hb hown).1 (hr.owned_apart hb hown).2
  · intro a ha
    obtain ⟨h1, -, h2⟩ := hr.outside_free hf ha
    exact hlinks _ h1 h2

/-- The list without `f`, which has kept `size` bytes. -/
def shrunk (h : SysHeap) (as : List (Block Nat)) (f : Block Nat) (size : Nat) : SysHeap :=
  ((unlinked h as f).setSize (f.addr + size) (f.size - size)).setSize f.addr size

theorem shrunk_links {size a : Nat} (h1 : a ≠ f.addr + size) (h2 : a ≠ f.addr) :
    (shrunk h as f size).links a = (unlinked h as f).links a := by
  simp [shrunk, SysHeap.setSize, h1, h2]

theorem shrunk_insertion (hr : HeapRep h lo (as ++ f :: cs)) (hf : f.isFree) {size : Nat}
    (hpos : 0 < size) (hlt : size < f.size) :
    Insertion (shrunk h as f size) lo (as ++ [⟨f.addr, size, some 0⟩]) none
      ⟨f.addr + size, f.size - size, none⟩ none cs := by
  obtain ⟨hchain, hsizes, -⟩ := unlinked_spec hr hf
  have hrange := hr.addr_range (b := f) (by simp)
  have hout := hr.config.outside
  have hstart : h.xStart ≠ f.addr + size ∧ h.xStart ≠ f.addr := by omega
  refine ⟨?_, by simp, by simp, by simp [Block.isFree], ?_, ?_, ?_, ?_, hout, hr.config.range,
    hr.config.room⟩
  · have htiles := tiles_carve (a := 0) hpos (Nat.le_of_lt hlt) hr.tiles
    rw [carve, if_pos hlt] at htiles
    rw [Option.toList_none, List.append_nil, List.append_assoc]
    exact htiles
  · intro q hq hqfree
    have hneighbours := (List.isChain_cons.mp (apart_append.mp hr.apart).2.1).1 q hq
    exact hneighbours ⟨hf, hqfree⟩
  · have hfree : free (as ++ [⟨f.addr, size, some 0⟩]) = free as := by simp [Block.isFree]
    rw [Option.toList_none, List.append_nil, hfree, List.nil_append]
    refine hchain.congr (shrunk_links hstart.1 hstart.2) ?_
    intro b hb
    rw [← free_append] at hb
    obtain ⟨h1, h2⟩ := hr.apart_rest hlt (mem_free.mp hb).1
    exact shrunk_links h1 h2
  · have hne : f.addr + size ≠ f.addr := by omega
    rw [shrunk, SysHeap.size_setSize, if_neg hne, SysHeap.size_setSize, if_pos rfl]
  · change (shrunk h as f size).size h.xStart = 0
    rw [SysHeap.size, shrunk_links hstart.1 hstart.2]
    exact (hsizes _).trans hr.start

/-- What a block does not need goes back to the list. -/
theorem split_rest (hr : HeapRep h lo (as ++ f :: cs)) (hf : f.isFree) {size : Nat}
    (hpos : 0 < size) (halign : h.portByteAlignment ∣ size)
    (hsplit : f.size - size > h.heapMinmunBlockSize) :
    ∃ links, insertBlockIntoFreeList (shrunk h as f size) (f.addr + size) = some { h with links } ∧
      Split h as f cs size links := by
  have hlt : size < f.size := by omega
  have hcarve : carveSize h f size = size := if_pos hsplit
  have hins := shrunk_insertion hr hf hpos hlt
  have hfree : free (as ++ [⟨f.addr, size, some 0⟩]) = free as := by simp [Block.isFree]
  obtain ⟨-, -, hlinks⟩ := unlinked_spec hr hf
  have hrange := hr.addr_range (b := f) (by simp)
  have hout := hr.config.outside
  obtain ⟨links, hrun, hchain, hstart, hinserted⟩ := hins.spec
  rw [hfree] at hchain hinserted
  rw [join_alone] at hchain
  -- an address that is none of those that change
  have hsame : ∀ a, a ≠ h.xStart → a ≠ f.addr + size → a ≠ f.addr → (∀ g ∈ free as, a ≠ g.addr) →
      links a = h.links a := by
    intro a h1 h2 h3 h4
    exact (hinserted a h1 h2 h4).trans ((shrunk_links h2 h3).trans (hlinks a h1 h4))
  refine ⟨links, hrun, ?_, ?_, hstart, ?_, ?_, ?_⟩
  · rw [rest, hcarve, if_pos hlt]
    exact hchain
  · have hne : ∀ b ∈ free as, f.addr ≠ b.addr := fun b hb =>
      (hr.apart_rest hlt (List.mem_append_left _ (mem_free.mp hb).1)).2.symm
    have hstart' : f.addr ≠ h.xStart := by omega
    have hother : f.addr ≠ f.addr + size := by omega
    rw [hinserted f.addr hstart' hother hne, hcarve]
    simp [shrunk, SysHeap.setSize]
  · obtain ⟨h1, h2, -⟩ := hins.notMem (.inr rfl)
    rw [hfree] at h2
    exact hsame _ (by omega) h1 (by omega) h2
  · intro b hb hown
    obtain ⟨h1, h2⟩ := hr.apart_rest hlt hb
    obtain ⟨h3, h4⟩ := hr.owned_apart hb hown
    exact hsame _ h3 h1 h2 h4
  · intro a ha
    obtain ⟨h1, h2, h3⟩ := hr.outside_free hf ha
    exact hsame a h1 (hr.outside_rest hf halign hlt ha) h2 h3

/-- The block is out of the list; what it does not need goes back. -/
theorem splitBlock_spec (hr : HeapRep h lo (as ++ f :: cs)) (hf : f.isFree) {size : Nat}
    (hpos : 0 < size) (hle : size ≤ f.size) (halign : h.portByteAlignment ∣ size) :
    ∃ links, splitBlock (unlinked h as f) f.addr size = some { h with links } ∧
      Split h as f cs size links := by
  obtain ⟨-, hsizes, -⟩ := unlinked_spec hr hf
  rw [splitBlock, hsizes, hr.size_at hf, sub32_of_le hle]
  change ∃ links, (if f.size - size > h.heapMinmunBlockSize then _ else _) = _ ∧ _
  by_cases hsplit : f.size - size > h.heapMinmunBlockSize
  · have hrange := hr.addr_range (b := f) (by simp)
    have hbits := hr.config.range
    rw [if_pos hsplit, u32_of_lt (by omega)]
    exact split_rest hr hf hpos halign hsplit
  · rw [if_neg hsplit]
    exact ⟨_, rfl, split_whole hr hf hsplit⟩

theorem carveSize_bounds {size : Nat} (hle : size ≤ f.size) :
    size ≤ carveSize h f size ∧ carveSize h f size ≤ f.size := by
  unfold carveSize
  split <;> omega

/-- The blocks `old` have become `mid`, with `n` free bytes less. -/
theorem HeapRep.change {old mid : List (Block Nat)} {links : Links} {n : Nat}
    (hr : HeapRep h lo (as ++ (old ++ cs))) (htiles : Tiles lo (as ++ (mid ++ cs)) h.pxEnd)
    (hapart : Apart (as ++ (mid ++ cs)))
    (hchain : Chain links h.xStart (free (as ++ (mid ++ cs))) h.pxEnd)
    (hstart : (links h.xStart).xBlockSize = 0) (hlast : links h.pxEnd = h.links h.pxEnd)
    (hrest : ∀ c ∈ as ++ cs, ¬c.isFree → links c.addr = h.links c.addr)
    (howned : ∀ c ∈ mid, ∀ k, c.owner = some k →
      links c.addr = ⟨0, c.size + 2 ^ 31⟩ ∧ k + 16 ≤ c.size)
    (halign : ∀ c ∈ mid, h.portByteAlignment ∣ c.addr ∧ h.portByteAlignment ∣ c.size)
    (hbytes : freeBytes (as ++ (mid ++ cs)) + n = freeBytes (as ++ (old ++ cs))) :
    HeapRep ({ h with links }.take n) lo (as ++ (mid ++ cs)) := by
  have hold : ∀ c ∈ as ++ cs, c ∈ as ++ (old ++ cs) := by
    intro c hc
    rw [List.mem_append] at hc
    rcases hc with hc | hc <;> simp [hc]
  have hcases : ∀ c ∈ as ++ (mid ++ cs), c ∈ as ++ cs ∨ c ∈ mid := by
    intro c hc
    simp only [List.mem_append] at hc ⊢
    tauto
  refine ⟨hr.config.update _ _ _, htiles, hapart, hchain, hstart, hlast.trans hr.last,
    ?_, ?_, ?_, (SysHeap.take_minimum { h with links } n).1⟩
  · intro c hc k hk
    rcases hcases c hc with hc | hc
    · obtain ⟨h1, h2⟩ := hr.owned c (hold c hc) k hk
      exact ⟨(hrest c hc (by simp [Block.isFree, hk])).trans h1, h2⟩
    · obtain ⟨h1, h2⟩ := howned c hc k hk
      refine ⟨h1, ?_⟩
      change k + h.xHeapStructSize ≤ _
      rwa [hr.config.structSize]
  · intro c hc
    rcases hcases c hc with hc | hc
    · exact hr.aligned c (hold c hc)
    · exact halign c hc
  · change sub32 h.xFreeBytesRemaining n = _
    rw [hr.remaining, sub32_of_le (by omega)]
    omega

/-- The heap with the links `links`, its block at `p` given away with `n` bytes. -/
def given (h : SysHeap) (links : Links) (p n : Nat) : SysHeap :=
  { h with links := Function.update links p ⟨0, n + 2 ^ 31⟩ }.take n

theorem given_rep (hr : HeapRep h lo (as ++ f :: cs)) (hf : f.isFree) {links : Links} {sz m : Nat}
    (hm : m + 16 ≤ sz) (hle : sz ≤ f.size) (halign : h.portByteAlignment ∣ sz)
    (hchain : Chain links h.xStart (free (as ++ (carve f sz m ++ cs))) h.pxEnd)
    (hstart : (links h.xStart).xBlockSize = 0) (hlast : links h.pxEnd = h.links h.pxEnd)
    (hrest : ∀ b ∈ as ++ cs, ¬b.isFree → links b.addr = h.links b.addr) :
    HeapRep (given h links f.addr sz) lo (as ++ (carve f sz m ++ cs)) := by
  obtain ⟨hfront, hbehind⟩ := hr.sep
  have hne := hr.ne_addr (b := f) (by simp)
  have hrange := hr.addr_range (b := f) (by simp)
  have halign_f := hr.aligned f (by simp)
  have htiles := tiles_carve (a := m) (by omega) hle hr.tiles
  have hkeep : ∀ a, a ≠ f.addr →
      Function.update links f.addr (⟨0, sz + 2 ^ 31⟩ : BlockLink) a = links a := by
    intro a ha
    simp [ha]
  have hr' : HeapRep h lo (as ++ ([f] ++ cs)) := hr
  refine hr'.change htiles (apart_carve hf hr.apart) ?_ ?_ ?_ ?_ ?_ ?_ (freeBytes_carve hf hle)
  · refine hchain.congr (hkeep _ hne.1.symm) ?_
    intro b hb
    refine hkeep _ ?_
    intro heq
    have hgiven : (⟨f.addr, sz, some m⟩ : Block Nat) ∈ as ++ (carve f sz m ++ cs) := by
      simp [carve]
    have hsame := htiles.eq_of_addr (mem_free.mp hb).1 hgiven heq
    rw [hsame] at hb
    exact absurd (mem_free.mp hb).2 (by simp [Block.isFree])
  · rw [hkeep _ hne.1.symm, hstart]
  · rw [hkeep _ hne.2.1.symm, hlast]
  · intro b hb hown
    refine (hkeep _ ?_).trans (hrest b hb hown)
    rcases List.mem_append.mp hb with hb | hb
    · have := hfront b hb
      omega
    · have := hbehind b hb
      omega
  · intro b hb k hk
    rcases mem_carve.mp hb with rfl | ⟨-, rfl⟩
    · obtain rfl := Option.some.inj hk
      exact ⟨by simp, hm⟩
    · cases hk
  · intro b hb
    rcases mem_carve.mp hb with rfl | ⟨-, rfl⟩
    · exact ⟨halign_f.1, halign⟩
    · exact ⟨(Nat.dvd_add_right halign_f.1).mpr halign, Nat.dvd_sub halign_f.2 halign⟩

/-- The part of `sys_heap_malloc` behind the loop carves the block. -/
theorem allocateBlock_spec (hr : HeapRep h lo (as ++ f :: cs)) (hf : f.isFree) {size : Nat}
    (hpos : 16 < size) (hle : size ≤ f.size) (halign : h.portByteAlignment ∣ size) :
    ∃ h', allocateBlock h (lastAddr h.xStart (free as)) f.addr size = some (h', f.addr + 16) ∧
      Stable h h' ∧ (∀ a, ¬InFree h (as ++ f :: cs) a → h'.links a = h.links a) ∧
      ∀ m, m + 16 ≤ size → HeapRep h' lo (as ++ (carve f (carveSize h f size) m ++ cs)) := by
  obtain ⟨links, hrun, hchain, hsize, hstart, hlast, howned, hframe⟩ :=
    splitBlock_spec hr hf (by omega) hle halign
  have hrange := hr.addr_range (b := f) (by simp)
  have hbits := hr.config.range
  have hsmall := hr.config.small
  obtain ⟨hcarve, hcarve'⟩ := carveSize_bounds (h := h) hle
  have hlink : h.next (lastAddr h.xStart (free as)) = f.addr :=
    (chain_append.mp (hr.chain_at hf)).2.next
  have hret : u32 (h.next (lastAddr h.xStart (free as)) + h.xHeapStructSize) = f.addr + 16 := by
    rw [hlink, hr.config.structSize, u32_of_lt (by omega)]
  have hor : carveSize h f size ||| h.xBlockAllocatedBit = carveSize h f size + 2 ^ 31 := by
    rw [hr.config.bit, or_two_pow_of_lt (by omega)]
  have hgiven : allocateBlock h (lastAddr h.xStart (free as)) f.addr size =
      some (given h links f.addr (carveSize h f size), f.addr + 16) := by
    change splitBlock (unlinked h as f) f.addr size >>= _ = _
    rw [hrun]
    simp only [Option.bind_eq_bind, Option.bind_some, hret]
    refine congrArg some (Prod.ext ?_ rfl)
    simp only [SysHeap.size, hsize, given, SysHeap.setNext, SysHeap.setSize, SysHeap.take_links,
      SysHeap.setLink_setLink, SysHeap.setLink_links, Function.update_self]
    rw [← hor]
    rfl
  refine ⟨_, hgiven, ⟨rfl, rfl, rfl, (SysHeap.take_minimum { h with links := _ } _).2⟩, ?_, ?_⟩
  · intro a ha
    have hne : a ≠ f.addr := by
      rintro rfl
      exact ha (hr.inFree (by simp) hf)
    exact (Function.update_of_ne hne ..).trans (hframe a ha)
  intro m hm
  refine given_rep hr hf (by omega) hcarve' ?_ ?_ hstart hlast howned
  · unfold carveSize
    split
    · exact halign
    · exact (hr.aligned f (by simp)).2
  · rw [free_append, free_carve]
    exact hchain

/-! ## malloc -/

theorem Config.alignUp (hc : Config h lo) {n : Nat} (hn : n + 16 ≤ 2 ^ 32) :
    n ≤ h.alignUp n ∧ h.alignUp n < n + 16 ∧ h.portByteAlignment ∣ h.alignUp n := by
  have hmask8 : n &&& 7 = n % 8 := Nat.and_two_pow_sub_one_eq_mod n 3
  have hmask16 : n &&& 15 = n % 16 := Nat.and_two_pow_sub_one_eq_mod n 4
  unfold SysHeap.alignUp
  rcases hc.align with ⟨ha, hm⟩ | ⟨ha, hm⟩
  · rw [ha, hm, hmask8]
    split
    · rw [u32_of_lt (by omega)]
      omega
    · omega
  · rw [ha, hm, hmask16]
    split
    · rw [u32_of_lt (by omega)]
      omega
    · omega

/-- A free block in the free list is a block of the heap. -/
theorem split_free {l r : List (Block Nat)} (h : free bs = l ++ f :: r) :
    ∃ as cs, bs = as ++ f :: cs ∧ free as = l ∧ f.isFree := by
  obtain ⟨as, bs', rfl, rfl, hbs⟩ := List.filter_eq_append_iff.mp h
  obtain ⟨ds, cs, rfl, hds, hf, -⟩ := List.filter_eq_cons_iff.mp hbs
  refine ⟨as ++ ds, cs, by simp, ?_, hf⟩
  rw [free_append]
  have hnone : free ds = [] := List.filter_eq_nil_iff.mpr hds
  rw [hnone, List.append_nil]
  rfl

theorem HeapRep.size_free (hr : HeapRep h lo bs) (hb : b ∈ free bs) : h.size b.addr = b.size := by
  obtain ⟨l, r, hsplit⟩ := List.append_of_mem hb
  obtain ⟨as, cs, rfl, -, hfree⟩ := split_free hsplit
  exact hr.size_at hfree

theorem HeapRep.size_le_remaining (hr : HeapRep h lo bs) (hb : b ∈ free bs) :
    b.size ≤ h.xFreeBytesRemaining := by
  rw [hr.remaining]
  exact List.le_sum_of_mem (List.mem_map_of_mem hb)

/-- A walk along the free list stops at the first block that is not skipped. -/
theorem HeapRep.walk (hr : HeapRep h lo bs) (skip : Nat → Bool) :
    (∀ b ∈ free bs, skip b.addr) ∧
      walkFree h skip (h.configTotalHeapSize + 1) h.xStart (h.next h.xStart) =
        some (lastAddr h.xStart (free bs), h.pxEnd) ∨
    ∃ as f cs, bs = as ++ f :: cs ∧ f.isFree ∧ ¬skip f.addr ∧
      walkFree h skip (h.configTotalHeapSize + 1) h.xStart (h.next h.xStart) =
        some (lastAddr h.xStart (free as), f.addr) := by
  have hend : h.next h.pxEnd = 0 := by rw [SysHeap.next, hr.last]
  have hpos : ∀ b ∈ free bs, b.addr ≠ 0 := fun b hb => (hr.ne_addr (mem_free.mp hb).1).2.2
  have hlen : (free bs).length < h.configTotalHeapSize + 1 := by
    have h1 := hr.tiles.length_le
    have h2 := hr.config.room
    have h3 : (free bs).length ≤ bs.length := List.length_filter_le ..
    omega
  have hsplit := List.takeWhile_append_dropWhile (p := fun b : Block Nat => skip b.addr)
    (l := free bs)
  set l := (free bs).takeWhile fun b => skip b.addr with hl
  set r := (free bs).dropWhile fun b => skip b.addr with hr'
  have hskip : ∀ b ∈ l, skip b.addr := List.all_eq_true.mp List.all_takeWhile
  have hlen' : l.length ≤ (free bs).length := (List.takeWhile_prefix _).length_le
  have hchain := hr.chain
  rw [← hsplit] at hchain hpos
  cases hrest : r with
  | nil =>
    rw [hrest, List.append_nil] at hsplit hchain hpos
    refine .inl ⟨by rw [← hsplit]; exact hskip, ?_⟩
    rw [← hsplit]
    exact walkFree_spec (r := []) (by rwa [List.append_nil]) hend hr.end_ne_zero
      (by rwa [List.append_nil]) hskip (by simp) (by omega)
  | cons f r' =>
    rw [hrest] at hsplit hchain hpos
    have hstop : ¬skip f.addr := by
      have := List.head?_dropWhile_not (fun b : Block Nat => skip b.addr) (free bs)
      rw [← hr', hrest] at this
      simpa using this
    obtain ⟨as, cs, rfl, has, hf⟩ := split_free hsplit.symm
    refine .inr ⟨as, f, cs, rfl, hf, hstop, ?_⟩
    rw [has]
    exact walkFree_spec hchain hend hr.end_ne_zero hpos hskip (by simpa using hstop) (by omega)

/-- The owned blocks are those of the user pointers in `live`, with the sizes asked for. -/
def Tracks (bs : List (Block Nat)) (live : Nat → Option Nat) : Prop :=
  ∀ p n, live p = some n ↔ ∃ b ∈ bs, b.owner = some n ∧ p = b.addr + 16

variable {live : Nat → Option Nat}

/-- A list in which the blocks of `bs` but `f` are left, and `g` has come. -/
theorem Tracks.replace {bs' : List (Block Nat)} {g : Option (Block Nat)} (ht : Tracks bs live)
    (htiles : Tiles lo bs h.pxEnd) (hf : f ∈ bs)
    (hsame : ∀ b n, b.owner = some n → (b ∈ bs' ↔ b ∈ bs ∧ b ≠ f ∨ g = some b))
    (hg : ∀ b ∈ g, b.addr = f.addr) :
    Tracks bs' (Function.update live (f.addr + 16) (g.bind Block.owner)) := by
  intro p n
  by_cases hp : p = f.addr + 16
  · subst hp
    rw [Function.update_self]
    constructor
    · intro hn
      obtain ⟨b, hb, howner⟩ := Option.bind_eq_some_iff.mp hn
      exact ⟨b, (hsame b n howner).mpr (.inr hb), howner, by rw [hg b hb]⟩
    · rintro ⟨b, hb, howner, haddr⟩
      rcases (hsame b n howner).mp hb with ⟨hmem, hne⟩ | hb
      · exact absurd (htiles.eq_of_addr hmem hf (by omega)) hne
      · rw [hb]
        exact howner
  · rw [Function.update_of_ne hp, ht p n]
    constructor
    · rintro ⟨b, hb, howner, rfl⟩
      refine ⟨b, (hsame b n howner).mpr (.inl ⟨hb, ?_⟩), howner, rfl⟩
      rintro rfl
      exact hp rfl
    · rintro ⟨b, hb, howner, rfl⟩
      rcases (hsame b n howner).mp hb with ⟨hmem, -⟩ | hb
      · exact ⟨b, hmem, howner, rfl⟩
      · exact absurd (by rw [hg b hb]) hp

/-- A block that is carved is a new one of the user's. -/
theorem Tracks.carve {k m : Nat} (hr : HeapRep h lo (as ++ f :: cs)) (hf : f.isFree)
    (ht : Tracks (as ++ f :: cs) live) : live (f.addr + 16) = none ∧
      Tracks (as ++ (carve f k m ++ cs)) (Function.update live (f.addr + 16) (some m)) := by
  have hmem : f ∈ as ++ f :: cs := by simp
  have hnone : f.owner = none := isFree_iff.mp hf
  constructor
  · rw [Option.eq_none_iff_forall_ne_some]
    intro n hn
    obtain ⟨b, hb, howner, haddr⟩ := (ht _ _).mp hn
    have := hr.tiles.eq_of_addr hb hmem (by omega)
    rw [this, hnone] at howner
    cases howner
  · refine ht.replace (g := some ⟨f.addr, k, some m⟩) hr.tiles hmem ?_ (by simp)
    intro b n howner
    have hne : b ≠ f := by
      rintro rfl
      rw [hnone] at howner
      cases howner
    have hrest : ∀ k s, b ≠ ⟨k, s, none⟩ := by
      rintro k s rfl
      cases howner
    simp only [List.mem_append, List.mem_cons, mem_carve, hne, hrest, Option.some.injEq]
    tauto

/-- No block can be given away: none is large enough, or the size is none. -/
def NoRoom (h : SysHeap) (bs : List (Block Nat)) (n : Nat) : Prop :=
  n = 0 ∨ 2 ^ 31 ≤ n ∨ ∀ f ∈ free bs, f.size < h.alignUp (n + 16)

/-- `sys_heap_malloc`: nothing happens, or a new block of the size asked for is given away. -/
theorem sysHeapMalloc_spec (hr : HeapRep h lo bs) (ht : Tracks bs live) {n : Nat}
    (hn : n < 2 ^ 32) :
    ∃ h' ret, sysHeapMalloc h n = some (h', ret) ∧ Stable h h' ∧
      (ret = 0 ∧ h' = h ∧ NoRoom h bs n ∨ ret ≠ 0 ∧ live ret = none ∧ ¬NoRoom h bs n ∧
        (∀ a, ¬InFree h bs a → h'.links a = h.links a) ∧
        ∀ m ≤ n, ∃ bs', HeapRep h' lo bs' ∧ Tracks bs' (Function.update live ret (some m))) := by
  have hnothing : NoRoom h bs n → ∃ h' ret, some (h, 0) = some (h', ret) ∧ Stable h h' ∧
      (ret = 0 ∧ h' = h ∧ NoRoom h bs n ∨ ret ≠ 0 ∧ live ret = none ∧ ¬NoRoom h bs n ∧
        (∀ a, ¬InFree h bs a → h'.links a = h.links a) ∧
        ∀ m ≤ n, ∃ bs', HeapRep h' lo bs' ∧ Tracks bs' (Function.update live ret (some m))) :=
    fun hroom => ⟨h, 0, rfl, .refl h, .inl ⟨rfl, rfl, hroom⟩⟩
  have hstruct := hr.config.structSize
  rw [sysHeapMalloc, if_neg hr.end_ne_zero, hr.config.bit]
  split
  · rename_i hbit
    exact hnothing (.inr (.inl (Nat.le_of_not_lt fun hlt => hbit ((and_top_eq_zero_iff hn).mpr hlt))))
  rename_i hbit
  have hsmall : n < 2 ^ 31 := (and_top_eq_zero_iff hn).mp (not_not.mp hbit)
  by_cases hpos : n > 0
  swap
  · have hzero : ¬(n > 0 ∧ n ≤ h.xFreeBytesRemaining) := fun h => hpos h.1
    simp only [if_neg hpos, if_neg hzero]
    exact hnothing (.inl (Nat.eq_zero_of_not_pos hpos))
  simp only [if_pos hpos, hstruct]
  rw [u32_of_lt (by omega)]
  obtain ⟨hle, -, halign⟩ := hr.config.alignUp (n := n + 16) (by omega)
  split
  swap
  · rename_i hfits
    refine hnothing (.inr (.inr fun f hf => ?_))
    have hsum := hr.size_le_remaining hf
    omega
  -- the walk stops at the first block of adequate size
  rcases hr.walk (fun block => h.size block < h.alignUp (n + 16)) with
    ⟨hskip, hwalk⟩ | ⟨as, f, cs, rfl, hf, hstop, hwalk⟩
  · rw [findFit, hwalk]
    simp only [Option.bind_eq_bind, Option.bind_some, ne_eq, not_true, if_false]
    refine hnothing (.inr (.inr fun f hf => ?_))
    rw [← hr.size_free hf]
    exact of_decide_eq_true (hskip f hf)
  · have hfit : h.alignUp (n + 16) ≤ f.size := by
      rw [hr.size_at hf] at hstop
      simpa using hstop
    obtain ⟨h', hrun, hstable, hframe, hrep⟩ := allocateBlock_spec hr hf (by omega) hfit halign
    have htracks := fun m => ht.carve (k := carveSize h f (h.alignUp (n + 16))) (m := m) hr hf
    have hne := (hr.ne_addr (b := f) (by simp)).2.1
    have hroom : ¬NoRoom h (as ++ f :: cs) n := by
      rintro (hzero | hlarge | hnone)
      · omega
      · omega
      · have := hnone f (mem_free.mpr ⟨by simp, hf⟩)
        omega
    refine ⟨h', f.addr + 16, ?_, hstable, .inr ⟨by omega, (htracks 0).1, hroom, hframe,
      fun m hm => ⟨_, hrep m (by omega), (htracks m).2⟩⟩⟩
    rw [findFit, hwalk]
    simp only [Option.bind_eq_bind, Option.bind_some, ne_eq, hne, not_false_eq_true, if_true]
    exact hrun

/-! ## free -/

/-- The heap once `sys_heap_free` has cleared the bit of the block at `p`, and counted its bytes. -/
def released (h : SysHeap) (p n : Nat) : SysHeap :=
  { h.setSize p n with xFreeBytesRemaining := h.xFreeBytesRemaining + n }

theorem released_links {p n a : Nat} (ha : a ≠ p) : (released h p n).links a = h.links a := by
  simp [released, SysHeap.setSize, ha]

/-- The block that is freed, between its neighbours. -/
theorem HeapRep.insertion {l r : Option (Block Nat)}
    (hr : HeapRep h lo (as ++ l.toList ++ b :: (r.toList ++ cs))) (hb : ¬b.isFree)
    (hl : ∀ p ∈ l, p.isFree) (hr' : ∀ q ∈ r, q.isFree)
    (hlast : ∀ p ∈ as.getLast?, ¬p.isFree) (hfirst : ∀ q ∈ cs.head?, ¬q.isFree) :
    Insertion (released h b.addr b.size) lo as l b r cs := by
  have hne := hr.ne_addr (b := b) (by simp)
  refine ⟨hr.tiles, hl, hr', hlast, hfirst, ?_, ?_, ?_, hr.config.outside, hr.config.range,
    hr.config.room⟩
  · have hchain := hr.chain
    rw [free_append, free_cons_of_owned hb] at hchain
    refine hchain.congr (released_links hne.1.symm) ?_
    intro f hf
    refine released_links ?_
    intro heq
    rw [← free_append] at hf
    obtain ⟨hmem, hfree⟩ := mem_free.mp hf
    have hmem' : f ∈ as ++ l.toList ++ b :: (r.toList ++ cs) := by
      rw [List.mem_append] at hmem ⊢
      exact hmem.imp_right (List.mem_cons_of_mem _)
    rw [hr.tiles.eq_of_addr hmem' (by simp) heq] at hfree
    exact hb hfree
  · exact (SysHeap.size_setSize ..).trans (if_pos rfl)
  · exact (SysHeap.size_setSize ..).trans ((if_neg hne.1.symm).trans hr.start)

theorem released_rep {l r : Option (Block Nat)} {links : Links}
    (hr : HeapRep h lo (as ++ l.toList ++ b :: (r.toList ++ cs))) (hb : ¬b.isFree)
    (hi : Insertion (released h b.addr b.size) lo as l b r cs)
    (hchain : Chain links h.xStart (free as ++ join l b r :: free cs) h.pxEnd)
    (hstart : (links h.xStart).xBlockSize = 0)
    (hsame : ∀ a, a ≠ h.xStart → a ≠ (l.getD b).addr → (∀ f ∈ free as, a ≠ f.addr) →
      links a = (released h b.addr b.size).links a) :
    HeapRep { released h b.addr b.size with links } lo (as ++ join l b r :: cs) := by
  obtain ⟨hfront, hbehind⟩ := hr.sep
  have hsmall := hr.config.small
  have hmem : ∀ b' ∈ as ++ cs, b' ∈ as ++ l.toList ++ b :: (r.toList ++ cs) ∧
      b'.addr ≠ b.addr := by
    intro b' hb'
    rcases List.mem_append.mp hb' with hb' | hb'
    · have := hfront b' (List.mem_append_left _ hb')
      exact ⟨by simp [hb'], by omega⟩
    · have := hbehind b' (List.mem_append_right _ hb')
      have := hr.addr_range (b := b) (by simp)
      exact ⟨by simp [hb'], by omega⟩
  have hfreeOf : ∀ b' f : Block Nat, b' ∈ as ++ cs → ¬b'.isFree → f.isFree →
      f ∈ as ++ l.toList ++ b :: (r.toList ++ cs) → b'.addr ≠ f.addr := by
    intro b' f hb' hown hfree hf heq
    rw [hr.tiles.eq_of_addr (hmem b' hb').1 hf heq] at hown
    exact hown hfree
  have hleft : ∀ p ∈ l, p ∈ as ++ l.toList ++ b :: (r.toList ++ cs) := by
    intro p hp
    simp [Option.mem_toList.mpr hp]
  have hright : ∀ q ∈ r, q ∈ as ++ l.toList ++ b :: (r.toList ++ cs) := by
    intro q hq
    simp [Option.mem_toList.mpr hq]
  refine ⟨hr.config.update _ _ _, tiles_join hr.tiles, ?_, ?_, hstart, ?_, ?_, ?_, ?_, ?_⟩
  · obtain ⟨has, hbcs, -⟩ := apart_append.mp hr.apart
    have hcs := (List.isChain_cons.mp hbcs).2
    exact apart_between (apart_append.mp has).1 (apart_append.mp hcs).2.1 hi.last hi.first
  · rw [free_append, free_cons_of_free isFree_join]
    exact hchain
  · obtain ⟨h1, h2, h3⟩ := hi.notMem (.inr rfl)
    have hout := hr.config.outside
    have hend := (hr.ne_addr (b := b) (by simp)).2.1
    have hle := hr.tiles.le
    have hne : h.pxEnd ≠ h.xStart := by omega
    refine (hsame h.pxEnd hne h1 h2).trans ((released_links hend.symm).trans hr.last)
  · intro b' hb' k hk
    have hown : ¬b'.isFree := by simp [Block.isFree, hk]
    have hb' : b' ∈ as ++ cs := by
      rw [List.mem_append, List.mem_cons] at hb'
      rcases hb' with hb' | rfl | hb'
      · exact List.mem_append_left _ hb'
      · exact absurd isFree_join hown
      · exact List.mem_append_right _ hb'
    obtain ⟨hold, hne⟩ := hmem b' hb'
    have hjoin : b'.addr ≠ (l.getD b).addr := by
      cases hp : l with
      | none => exact hne
      | some p => exact hfreeOf b' p hb' hown (hi.left p hp) (hleft p hp)
    have hlink : links b'.addr = h.links b'.addr := by
      refine (hsame _ (hr.ne_addr hold).1 hjoin ?_).trans (released_links hne)
      intro f hf
      exact hfreeOf b' f hb' hown (mem_free.mp hf).2 (by simp [(mem_free.mp hf).1])
    obtain ⟨h1, h2⟩ := hr.owned b' hold k hk
    exact ⟨hlink.trans h1, h2⟩
  · intro b' hb'
    have hb := hr.aligned b (by simp)
    rw [List.mem_append, List.mem_cons] at hb'
    rcases hb' with hb' | rfl | hb'
    · exact hr.aligned b' (hmem b' (List.mem_append_left _ hb')).1
    · change h.portByteAlignment ∣ _ ∧ h.portByteAlignment ∣ _
      cases l with
      | none =>
        cases r with
        | none => simpa [join] using hb
        | some q =>
          have hq := hr.aligned q (hright q rfl)
          exact ⟨hb.1, by simpa [join] using Nat.dvd_add hb.2 hq.2⟩
      | some p =>
        have hp := hr.aligned p (hleft p rfl)
        cases r with
        | none => exact ⟨hp.1, by simpa [join] using Nat.dvd_add hp.2 hb.2⟩
        | some q =>
          have hq := hr.aligned q (hright q rfl)
          exact ⟨hp.1, by simpa [join] using Nat.dvd_add (Nat.dvd_add hp.2 hb.2) hq.2⟩
    · exact hr.aligned b' (hmem b' (List.mem_append_right _ hb')).1
  · have hbytes : freeBytes (as ++ join l b r :: cs) = _ := freeBytes_join hi.left hi.right
    have hold := hr.remaining
    rw [freeBytes_append, freeBytes_cons, if_neg hb] at hold
    change h.xFreeBytesRemaining + b.size = _
    omega
  · exact Nat.le_trans hr.minimum (Nat.le_add_right ..)

/-- `sys_heap_free`: a live block is joined with its free neighbours. -/
theorem sysHeapFree_spec (hr : HeapRep h lo bs) (ht : Tracks bs live) {p n : Nat}
    (hlive : live p = some n) :
    ∃ h', sysHeapFree h p = some h' ∧ Stable h h' ∧
      (∀ a, ¬InFree h bs a → a + 16 ≠ p → h'.links a = h.links a) ∧
      ∃ bs', HeapRep h' lo bs' ∧ Tracks bs' (Function.update live p none) := by
  obtain ⟨b, hmem, howner, rfl⟩ := (ht _ _).mp hlive
  obtain ⟨as₀, cs₀, rfl⟩ := List.append_of_mem hmem
  obtain ⟨has, hbcs, -⟩ := apart_append.mp hr.apart
  obtain ⟨as, l, rfl, hl, hlast⟩ := exists_left has
  obtain ⟨r, cs, rfl, hr', hfirst⟩ := exists_right (List.isChain_cons.mp hbcs).2
  have hb : ¬b.isFree := by simp [Block.isFree, howner]
  have hi := hr.insertion hb hl hr' hlast hfirst
  obtain ⟨links, hrun, hchain, hstart, hsame⟩ := hi.spec
  have hlink := (hr.owned b hmem n howner).1
  have hrange := hr.addr_range hmem
  have hsmall := hr.config.small
  have hbits := hr.config.range
  refine ⟨{ released h b.addr b.size with links }, ?_, ⟨rfl, rfl, rfl, Nat.le_refl _⟩, ?_,
    as ++ join l b r :: cs, released_rep hr hb hi hchain hstart hsame, ?_⟩
  · have hlink' : sub32 (b.addr + 16) h.xHeapStructSize = b.addr := by
      rw [hr.config.structSize, sub32_add_right]
    have hsize : h.size b.addr = b.size + 2 ^ 31 := congrArg BlockLink.xBlockSize hlink
    have hnext : h.next b.addr = 0 := congrArg BlockLink.pxNextFreeBlock hlink
    have hlt : b.size < 2 ^ 31 := by omega
    have hfree := hr.tiles.freeBytes_le
    have hremaining := hr.remaining
    rw [sysHeapFree, if_neg (by omega), hlink']
    simp only [hsize, hnext, hr.config.bit, and_two_pow_add hlt, clearBits_two_pow_add hlt,
      SysHeap.size_setSize, if_true]
    have hkept : (h.setSize b.addr b.size).xFreeBytesRemaining = h.xFreeBytesRemaining := rfl
    rw [if_pos (by decide), hkept, u32_of_lt (by omega)]
    exact hrun
  · intro a ha hne
    have hab : a ≠ b.addr := by omega
    have hjoin : a ≠ (l.getD b).addr := by
      cases hp : l with
      | none => exact hab
      | some p =>
        rintro rfl
        exact ha (hr.inFree (by simp [hp]) (hl p hp))
    refine (hsame a (fun heq => ha (.inl heq)) hjoin ?_).trans (released_links hab)
    rintro f hf rfl
    exact ha (hr.inFree (by simp [(mem_free.mp hf).1]) (mem_free.mp hf).2)
  · refine ht.replace (g := none) hr.tiles hmem ?_ (by simp)
    intro b' k hk
    have hne : ∀ f : Block Nat, f.isFree → b' ≠ f := by
      rintro f hf rfl
      simp [Block.isFree, hk] at hf
    have hl' : b' ∉ l.toList := fun hp => hne b' (hl b' (Option.mem_toList.mp hp)) rfl
    have hr'' : b' ∉ r.toList := fun hq => hne b' (hr' b' (Option.mem_toList.mp hq)) rfl
    have hnot : b' ∈ as ∨ b' ∈ cs → b' ≠ b := by
      rintro hmem' rfl
      obtain ⟨hfront, hbehind⟩ := hr.sep
      rcases hmem' with hmem' | hmem'
      · have := hfront b' (List.mem_append_left _ hmem')
        omega
      · have := hbehind b' (List.mem_append_right _ hmem')
        omega
    simp only [List.mem_append, List.mem_cons, hne _ isFree_join, hl', hr'']
    tauto

/-! ## realloc -/

/-- The user of a block may ask for another size that fits. -/
theorem HeapRep.retag {m : Nat} (hr : HeapRep h lo (as ++ b :: cs)) (hb : ¬b.isFree)
    (hm : m + 16 ≤ b.size) : HeapRep h lo (as ++ ⟨b.addr, b.size, some m⟩ :: cs) := by
  have hb' : ¬(⟨b.addr, b.size, some m⟩ : Block Nat).isFree := by simp [Block.isFree]
  have hfree : free (as ++ ⟨b.addr, b.size, some m⟩ :: cs) = free (as ++ b :: cs) := by
    rw [free_append, free_append, free_cons_of_owned hb, free_cons_of_owned hb']
  refine ⟨hr.config, ?_, ?_, by rw [hfree]; exact hr.chain, hr.start, hr.last, ?_, ?_, ?_, hr.minimum⟩
  · obtain ⟨mid, has, hcs⟩ := tiles_append.mp hr.tiles
    exact tiles_append.mpr ⟨mid, has, hcs⟩
  · obtain ⟨has, hbcs, -⟩ := apart_append.mp hr.apart
    refine apart_append_of_owned has (apart_cons_of_owned hb' (List.isChain_cons.mp hbcs).2) ?_
    simp [Block.isFree]
  · intro b₁ hb₁ n hn
    rw [List.mem_append, List.mem_cons] at hb₁
    rcases hb₁ with hb₁ | rfl | hb₁
    · exact hr.owned b₁ (by simp [hb₁]) n hn
    · obtain rfl := Option.some.inj hn
      obtain ⟨k, hk⟩ := Option.ne_none_iff_exists'.mp fun h => hb (isFree_iff.mpr h)
      refine ⟨(hr.owned b (by simp) k hk).1, ?_⟩
      rw [hr.config.structSize]
      exact hm
    · exact hr.owned b₁ (by simp [hb₁]) n hn
  · intro b₁ hb₁
    rw [List.mem_append, List.mem_cons] at hb₁
    rcases hb₁ with hb₁ | rfl | hb₁
    · exact hr.aligned b₁ (by simp [hb₁])
    · exact hr.aligned b (by simp)
    · exact hr.aligned b₁ (by simp [hb₁])
  · rw [hr.remaining, freeBytes, freeBytes, hfree]

/-- The block in front of another is the one that ends there. -/
theorem exists_before (htiles : Tiles lo (as ++ f :: cs) h.pxEnd) (hb : b ∈ as)
    (hnext : b.next = f.addr) : ∃ as', as = as' ++ [b] := by
  rcases List.eq_nil_or_concat as with rfl | ⟨as', c, rfl⟩
  · cases hb
  · rw [List.concat_eq_append] at htiles hb ⊢
    refine ⟨as', ?_⟩
    have hmem : c ∈ as' ++ [c] ++ f :: cs := by simp
    have hmem' : b ∈ as' ++ [c] ++ f :: cs := List.mem_append_left _ hb
    by_cases hbc : b.addr = c.addr
    · rw [htiles.eq_of_addr hmem' hmem hbc]
    · have hc := htiles.mem hmem
      have hsep : c.next ≤ f.addr := by
        have hpair := htiles.pairwise
        exact (List.pairwise_append.mp hpair).2.2 c (by simp) f (by simp)
      rcases htiles.disjoint hmem' hmem hbc with h1 | h1
      · unfold Block.next at h1 hnext hsep
        omega
      · have hb' := htiles.mem hmem'
        rcases List.mem_append.mp hb with hb'' | hb''
        · have hpair := htiles.pairwise
          rw [List.append_assoc] at hpair
          have := (List.pairwise_append.mp hpair).2.2 b hb'' c (by simp)
          unfold Block.next at this h1
          omega
        · exact absurd (congrArg Block.addr (List.mem_singleton.mp hb'')) hbc

/-- `b` has the first `n` bytes of `f`, which is out of the list. -/
def grown (h : SysHeap) (as : List (Block Nat)) (b f : Block Nat) (n : Nat) : SysHeap :=
  ((h.setSize b.addr (b.size + 2 ^ 31 + n)).setSize (f.addr + n) (f.size - n)).setNext
    (lastAddr h.xStart (free (as ++ [b]))) (h.next f.addr)

theorem HeapRep.snoc (hr : HeapRep h lo (as ++ b :: f :: cs)) :
    HeapRep h lo ((as ++ [b]) ++ f :: cs) := by
  rwa [List.append_assoc]

theorem free_snoc (hb : ¬b.isFree) : free (as ++ [b]) = free as := by
  simp [free_append, free_cons_of_owned hb]

theorem HeapRep.behind (hr : HeapRep h lo (as ++ b :: f :: cs)) : b.addr + b.size = f.addr := by
  have htiles := hr.tiles
  simp only [tiles_append, tiles_cons, Block.next] at htiles
  obtain ⟨-, -, -, -, haddr, -⟩ := htiles
  exact haddr.symm

theorem HeapRep.link_of_owned (hr : HeapRep h lo bs) (hmem : b ∈ bs) (hb : ¬b.isFree) :
    h.links b.addr = ⟨0, b.size + 2 ^ 31⟩ := by
  obtain ⟨k, hk⟩ := Option.ne_none_iff_exists'.mp fun h => hb (isFree_iff.mpr h)
  exact (hr.owned b hmem k hk).1

/-- The list head and the other blocks are not where `b`, `f` or the rest of `f` begins. -/
theorem HeapRep.apart_grown (hr : HeapRep h lo (as ++ b :: f :: cs)) {n : Nat} (hlt : n < f.size) :
    (h.xStart ≠ b.addr ∧ h.xStart ≠ f.addr + n ∧ h.xStart ≠ f.addr) ∧
      ∀ c ∈ as ++ cs, c.addr ≠ b.addr ∧ c.addr ≠ f.addr + n ∧ c.addr ≠ f.addr := by
  obtain ⟨hfront, -⟩ := hr.sep
  obtain ⟨-, hbehind⟩ := hr.snoc.sep
  have hbf := hr.behind
  have hbrange := hr.addr_range (b := b) (by simp)
  have hrange := hr.addr_range (b := f) (by simp)
  have hout := hr.config.outside
  refine ⟨by omega, ?_⟩
  intro c hc
  rcases List.mem_append.mp hc with hc | hc
  · have := hfront c hc
    omega
  · have := hbehind c hc
    omega

/-- So the links of these three are not that of the block in front of `f` in the list. -/
theorem HeapRep.apart_last (hr : HeapRep h lo (as ++ b :: f :: cs)) (hb : ¬b.isFree) {n : Nat}
    (hlt : n < f.size) : b.addr ≠ lastAddr h.xStart (free (as ++ [b])) ∧
      f.addr + n ≠ lastAddr h.xStart (free (as ++ [b])) := by
  obtain ⟨hstart, hother⟩ := hr.apart_grown hlt
  rw [free_snoc hb]
  refine ⟨ne_lastAddr hstart.1.symm fun c hc => ?_, ne_lastAddr hstart.2.1.symm fun c hc => ?_⟩
  · exact (hother c (List.mem_append_left _ (mem_free.mp hc).1)).1.symm
  · exact (hother c (List.mem_append_left _ (mem_free.mp hc).1)).2.1.symm

theorem grown_links {n a : Nat} (h1 : a ≠ b.addr) (h2 : a ≠ f.addr + n) :
    (grown h as b f n).links a = (unlinked h (as ++ [b]) f).links a := by
  rw [grown, unlinked]
  by_cases ha : a = lastAddr h.xStart (free (as ++ [b]))
  · subst ha
    simp only [SysHeap.setNext, SysHeap.setSize, SysHeap.setLink_links, Function.update_self,
      Function.update_of_ne h1, Function.update_of_ne h2]
  · simp only [SysHeap.setNext, SysHeap.setSize, SysHeap.setLink_links, Function.update_of_ne ha,
      Function.update_of_ne h1, Function.update_of_ne h2]

theorem grown_self (hr : HeapRep h lo (as ++ b :: f :: cs)) (hb : ¬b.isFree) {n : Nat}
    (hlt : n < f.size) : (grown h as b f n).links b.addr = ⟨0, b.size + n + 2 ^ 31⟩ := by
  have hbf := hr.behind
  have hbrange := hr.addr_range (b := b) (by simp)
  have hne : b.addr ≠ f.addr + n := by omega
  simp only [grown, SysHeap.setNext, SysHeap.setSize, SysHeap.setLink_links,
    Function.update_of_ne (hr.apart_last hb hlt).1, Function.update_of_ne hne, Function.update_self,
    hr.link_of_owned (b := b) (by simp) hb]
  rw [Nat.add_right_comm]

theorem grown_insertion (hr : HeapRep h lo (as ++ b :: f :: cs)) (hb : ¬b.isFree) (hf : f.isFree)
    {n : Nat} (m : Nat) (hlt : n < f.size) :
    Insertion (grown h as b f n) lo (as ++ [⟨b.addr, b.size + n, some m⟩]) none
      ⟨f.addr + n, f.size - n, none⟩ none cs := by
  obtain ⟨hchain, -, -⟩ := unlinked_spec hr.snoc hf
  obtain ⟨hstart, hother⟩ := hr.apart_grown hlt
  refine ⟨?_, by simp, by simp, by simp [Block.isFree], ?_, ?_, ?_, ?_, hr.config.outside,
    hr.config.range, hr.config.room⟩
  · rw [Option.toList_none, List.append_nil, List.append_assoc]
    exact tiles_extend hlt hr.tiles
  · intro q hq hqfree
    have hneighbours := (List.isChain_cons.mp (apart_append.mp hr.snoc.apart).2.1).1 q hq
    exact hneighbours ⟨hf, hqfree⟩
  · have hfree : free (as ++ [⟨b.addr, b.size + n, some m⟩]) = free as := by simp [Block.isFree]
    rw [Option.toList_none, List.append_nil, hfree, List.nil_append, ← free_snoc hb]
    refine hchain.congr (grown_links hstart.1 hstart.2.1) ?_
    intro c hc
    rw [free_snoc hb, ← free_append] at hc
    obtain ⟨h1, h2, -⟩ := hother c (mem_free.mp hc).1
    exact grown_links h1 h2
  · rw [grown, SysHeap.size_setNext, SysHeap.size_setSize, if_pos rfl]
  · change (grown h as b f n).size h.xStart = 0
    rw [grown, SysHeap.size_setNext, SysHeap.size_setSize, if_neg hstart.2.1,
      SysHeap.size_setSize, if_neg hstart.1]
    exact hr.start

/-- The links once the rest of `f` is back in the list. -/
structure Grown (h : SysHeap) (as : List (Block Nat)) (b f : Block Nat) (cs : List (Block Nat))
    (n : Nat) (links : Links) : Prop where
  chain : Chain links h.xStart (free as ++ ⟨f.addr + n, f.size - n, none⟩ :: free cs) h.pxEnd
  start : (links h.xStart).xBlockSize = 0
  last : links h.pxEnd = h.links h.pxEnd
  self : links b.addr = ⟨0, b.size + n + 2 ^ 31⟩
  same : ∀ a, a ≠ h.xStart → a ≠ b.addr → a ≠ f.addr + n → (∀ g ∈ free as, a ≠ g.addr) →
    links a = h.links a

theorem grown_spec (hr : HeapRep h lo (as ++ b :: f :: cs)) (hb : ¬b.isFree) (hf : f.isFree)
    {n : Nat} (hlt : n < f.size) :
    ∃ links, insertBlockIntoFreeList (grown h as b f n) (f.addr + n) = some { h with links } ∧
      Grown h as b f cs n links := by
  have hins := grown_insertion hr hb hf 0 hlt
  have hfree : free (as ++ [⟨b.addr, b.size + n, some 0⟩]) = free as := by simp [Block.isFree]
  obtain ⟨-, -, hlinks⟩ := unlinked_spec hr.snoc hf
  rw [free_snoc hb] at hlinks
  obtain ⟨hstart, hother⟩ := hr.apart_grown hlt
  obtain ⟨links, hrun, hchain, hstart', hinserted⟩ := hins.spec
  rw [hfree] at hchain hinserted
  rw [join_alone] at hchain
  have hsame : ∀ a, a ≠ h.xStart → a ≠ b.addr → a ≠ f.addr + n → (∀ g ∈ free as, a ≠ g.addr) →
      links a = h.links a := by
    intro a h1 h2 h3 h4
    exact (hinserted a h1 h3 h4).trans ((grown_links h2 h3).trans (hlinks a h1 h4))
  have hbf := hr.behind
  have hbrange := hr.addr_range (b := b) (by simp)
  refine ⟨links, hrun, hchain, hstart', ?_, ?_, hsame⟩
  · obtain ⟨h1, h2, -⟩ := hins.notMem (.inr rfl)
    have hrange := hr.addr_range (b := f) (by simp)
    have hout := hr.config.outside
    rw [hfree] at h2
    exact hsame _ (by omega) (by omega) h1 h2
  · have hne : b.addr ≠ f.addr + n := by omega
    refine (hinserted b.addr hstart.1.symm hne ?_).trans (grown_self hr hb hlt)
    intro c hc
    exact (hother c (List.mem_append_left _ (mem_free.mp hc).1)).1.symm

/-- The block gets its bytes, and the link of `f`, which is in the middle of it now, is cleared. -/
def regrown (h : SysHeap) (links : Links) (f n : Nat) : SysHeap :=
  { h with links := Function.update links f { links f with pxNextFreeBlock := 0 } }.take n

theorem growBlock_eq (hr : HeapRep h lo (as ++ b :: f :: cs)) (hb : ¬b.isFree) (hf : f.isFree)
    {n : Nat} (hpos : 0 < n) (hlt : n < f.size) {links : Links}
    (hrun : insertBlockIntoFreeList (grown h as b f n) (f.addr + n) = some { h with links }) :
    growBlock h b.addr (lastAddr h.xStart (free (as ++ [b]))) f.addr n =
      some (regrown h links f.addr n) := by
  have hbsize : h.size b.addr = b.size + 2 ^ 31 :=
    congrArg BlockLink.xBlockSize (hr.link_of_owned (by simp) hb)
  have hbf := hr.behind
  have hbrange := hr.addr_range (b := b) (by simp)
  have hrange := hr.addr_range (b := f) (by simp)
  have hbits := hr.config.range
  have hsmall := hr.config.small
  have hne : f.addr ≠ b.addr := by omega
  simp only [growBlock, hbsize, SysHeap.size_setSize, SysHeap.next_setSize, if_neg hne,
    hr.snoc.size_at hf]
  have hbit : (h.setSize b.addr (b.size + 2 ^ 31 + n)).xBlockAllocatedBit = 2 ^ 31 :=
    hr.config.bit
  rw [u32_of_lt (by omega), u32_of_lt (by omega), sub32_of_le (by omega), hbit,
    clearBits_two_pow_of_lt (by omega)]
  change insertBlockIntoFreeList (grown h as b f n) (f.addr + n) >>= _ = _
  rw [hrun]
  rfl

theorem regrown_links {links : Links} {f n a : Nat} (ha : a ≠ f) :
    (regrown h links f n).links a = links a :=
  Function.update_of_ne ha ..

theorem Grown.outside {links : Links} {n a : Nat} (hg : Grown h as b f cs n links)
    (hr : HeapRep h lo (as ++ b :: f :: cs)) (hf : f.isFree) (halign : h.portByteAlignment ∣ n)
    (hlt : n < f.size) (ha : ¬InFree h (as ++ b :: f :: cs) a) (hab : a ≠ b.addr) :
    (regrown h links f.addr n).links a = h.links a := by
  rw [← List.singleton_append, ← List.append_assoc] at ha
  obtain ⟨h1, h2, h3⟩ := hr.snoc.outside_free hf ha
  refine (regrown_links h2).trans (hg.same a h1 hab (hr.snoc.outside_rest hf halign hlt ha) ?_)
  intro g hg
  exact h3 g (mem_free.mpr ⟨List.mem_append_left _ (mem_free.mp hg).1, (mem_free.mp hg).2⟩)

theorem Grown.rep {links : Links} {n m : Nat} (hg : Grown h as b f cs n links)
    (hr : HeapRep h lo (as ++ b :: f :: cs)) (hb : ¬b.isFree) (hf : f.isFree) (hpos : 0 < n)
    (hlt : n < f.size) (halign : h.portByteAlignment ∣ n) (hm : m + 16 ≤ b.size + n) :
    HeapRep (regrown h links f.addr n) lo (as ++ (extend b f n m ++ cs)) := by
  obtain ⟨hstart, hother⟩ := hr.apart_grown hlt
  have hbf := hr.behind
  have hbrange := hr.addr_range (b := b) (by simp)
  have hrange := hr.addr_range (b := f) (by simp)
  have hr₂ : HeapRep h lo (as ++ ([b, f] ++ cs)) := hr
  have hcleared : ∀ {a}, a ≠ f.addr →
      Function.update links f.addr { links f.addr with pxNextFreeBlock := 0 } a = links a :=
    fun ha => Function.update_of_ne ha ..
  refine hr₂.change (tiles_extend hlt hr.tiles) (apart_extend hf hr.apart) ?_ ?_ ?_ ?_ ?_ ?_
    (freeBytes_extend hb hf (Nat.le_of_lt hlt))
  · rw [free_append, free_extend]
    refine hg.chain.congr (hcleared hstart.2.2) ?_
    intro c hc
    rw [List.mem_append, List.mem_cons] at hc
    rcases hc with hc | rfl | hc
    · exact hcleared (hother c (List.mem_append_left _ (mem_free.mp hc).1)).2.2
    · have hrest : f.addr + n ≠ f.addr := by omega
      exact hcleared hrest
    · exact hcleared (hother c (List.mem_append_right _ (mem_free.mp hc).1)).2.2
  · rw [hcleared hstart.2.2]
    exact hg.start
  · have hend : h.pxEnd ≠ f.addr := by omega
    exact (hcleared hend).trans hg.last
  · intro c hc hown
    obtain ⟨h1, h2, h3⟩ := hother c hc
    have hc' : c ∈ as ++ [b] ++ cs := by
      rw [List.mem_append] at hc
      rcases hc with hc | hc <;> simp [hc]
    obtain ⟨h4, h5⟩ := hr.snoc.owned_apart hc' hown
    rw [free_snoc hb] at h5
    exact (hcleared h3).trans (hg.same _ h4 h1 h2 h5)
  · intro c hc j hj
    simp only [extend, List.mem_cons, List.not_mem_nil, or_false] at hc
    rcases hc with rfl | rfl
    · obtain rfl := Option.some.inj hj
      have hne : b.addr ≠ f.addr := by omega
      exact ⟨(hcleared hne).trans hg.self, hm⟩
    · cases hj
  · intro c hc
    have hb_align := hr.aligned b (by simp)
    have hf_align := hr.aligned f (by simp)
    simp only [extend, List.mem_cons, List.not_mem_nil, or_false] at hc
    rcases hc with rfl | rfl
    · exact ⟨hb_align.1, (Nat.dvd_add_right hb_align.2).mpr halign⟩
    · exact ⟨(Nat.dvd_add_right hf_align.1).mpr halign, Nat.dvd_sub hf_align.2 halign⟩

/-- `sys_heap_realloc` in place: the block behind gives its first bytes. -/
theorem growBlock_spec (hr : HeapRep h lo (as ++ b :: f :: cs)) (hb : ¬b.isFree) (hf : f.isFree)
    {n m : Nat} (hpos : 0 < n) (hlt : n < f.size) (halign : h.portByteAlignment ∣ n)
    (hm : m + 16 ≤ b.size + n) :
    ∃ h', growBlock h b.addr (lastAddr h.xStart (free (as ++ [b]))) f.addr n = some h' ∧
      Stable h h' ∧
      (∀ a, ¬InFree h (as ++ b :: f :: cs) a → a ≠ b.addr → h'.links a = h.links a) ∧
      HeapRep h' lo (as ++ (extend b f n m ++ cs)) := by
  obtain ⟨links, hrun, hg⟩ := grown_spec hr hb hf hlt
  refine ⟨_, growBlock_eq hr hb hf hpos hlt hrun,
    ⟨rfl, rfl, rfl, (SysHeap.take_minimum { h with links := _ } _).2⟩, ?_, ?_⟩
  · exact fun a ha hab => hg.outside hr hf halign hlt ha hab
  · exact hg.rep hr hb hf hpos hlt halign hm

/-- The user pointers once `realloc` of `p` to `n` bytes has returned `ret`. -/
def afterRealloc (live : Nat → Option Nat) (p n ret : Nat) : Nat → Option Nat :=
  if n = 0 then Function.update live p none
  else if ret = 0 then live
  else Function.update (Function.update live p none) ret (some n)

theorem Tracks.zero (ht : Tracks bs live) : live 0 = none := by
  rw [Option.eq_none_iff_forall_ne_some]
  intro n hn
  obtain ⟨b, -, -, haddr⟩ := (ht _ _).mp hn
  omega

/-- A block of which the user is told where it was: its tag, or its size, has changed. -/
theorem Tracks.extend {n k m : Nat} (hr : HeapRep h lo (as ++ b :: f :: cs)) (hf : f.isFree)
    (hb : b.owner = some k) (ht : Tracks (as ++ b :: f :: cs) live) :
    Tracks (as ++ (extend b f n m ++ cs)) (Function.update live (b.addr + 16) (some m)) := by
  have hmem : b ∈ as ++ b :: f :: cs := by simp
  obtain ⟨hfront, hbehind⟩ := hr.sep
  refine ht.replace (g := some ⟨b.addr, b.size + n, some m⟩) hr.tiles hmem ?_ (by simp)
  intro c j hj
  have hne : ∀ x s, c ≠ ⟨x, s, none⟩ := by
    rintro x s rfl
    cases hj
  have hcf : c ≠ f := by
    rintro rfl
    rw [isFree_iff.mp hf] at hj
    cases hj
  have hcb : c ∈ as ∨ c ∈ cs → c ≠ b := by
    rintro hc rfl
    have hpos := (hr.addr_range hmem).2.1
    rcases hc with hc | hc
    · have := hfront c hc
      omega
    · have := hbehind c (List.mem_cons_of_mem _ hc)
      omega
  simp only [Tile.extend, List.mem_append, List.mem_cons, List.not_mem_nil, hne, hcf,
    Option.some.injEq]
  tauto

theorem Tracks.retag {k m : Nat} (hr : HeapRep h lo (as ++ b :: cs)) (hb : b.owner = some k)
    (ht : Tracks (as ++ b :: cs) live) :
    Tracks (as ++ ⟨b.addr, b.size, some m⟩ :: cs)
      (Function.update live (b.addr + 16) (some m)) := by
  have hmem : b ∈ as ++ b :: cs := by simp
  obtain ⟨hfront, hbehind⟩ := hr.sep
  refine ht.replace (g := some ⟨b.addr, b.size, some m⟩) hr.tiles hmem ?_ (by simp)
  intro c j hj
  have hcb : c ∈ as ∨ c ∈ cs → c ≠ b := by
    rintro hc rfl
    have hpos := (hr.addr_range hmem).2.1
    rcases hc with hc | hc
    · have := hfront c hc
      omega
    · have := hbehind c hc
      omega
  simp only [List.mem_append, List.mem_cons, Option.some.injEq]
  tauto

/-- The block moves: a new one is allocated, and the old one freed. -/
theorem moveBlock_spec (hr : HeapRep h lo bs) (ht : Tracks bs live) {p k n m : Nat}
    (hp : live p = some k) (hn : n < 2 ^ 32) (hm : m ≤ n) (hpos : m ≠ 0) :
    ∃ h' ret, moveBlock h p n = some (h', ret) ∧ Stable h h' ∧
      ∃ bs', HeapRep h' lo bs' ∧ Tracks bs' (afterRealloc live p m ret) := by
  obtain ⟨h₁, ret, hrun, hstable, hcases⟩ := sysHeapMalloc_spec hr ht hn
  rw [moveBlock, hrun]
  simp only [Option.bind_eq_bind, Option.bind_some, afterRealloc, if_neg hpos]
  rcases hcases with ⟨rfl, rfl, -⟩ | ⟨hret, hnone, -, -, hgiven⟩
  · exact ⟨_, 0, rfl, hstable, bs, hr, ht⟩
  · obtain ⟨bs₁, hr₁, ht₁⟩ := hgiven m hm
    have hne : p ≠ ret := by
      rintro rfl
      rw [hp] at hnone
      cases hnone
    have hp₁ : Function.update live ret (some m) p = some k := by
      rw [Function.update_of_ne hne, hp]
    obtain ⟨h₂, hrun₂, hstable₂, -, bs₂, hr₂, ht₂⟩ := sysHeapFree_spec hr₁ ht₁ hp₁
    rw [if_neg hret, hrun₂]
    refine ⟨h₂, ret, rfl, hstable.trans hstable₂, bs₂, hr₂, ?_⟩
    rw [if_neg hret, Function.update_comm hne]
    exact ht₂

/-- Which way `sys_heap_realloc` goes. -/
inductive Way where
  | null
  | free
  | malloc (size : Nat)
  | stay
  | grow (old previous block addSize : Nat)
  | move (oldSize size : Nat)

/-- The tests of `sys_heap_realloc`. -/
def reallocWay (h : SysHeap) (ptr size : Nat) : Option Way :=
  if h.pxEnd = 0 then some .null
  else if size = 0 then some .free
  else if size &&& h.xBlockAllocatedBit ≠ 0 then some .null
  else
    let size := h.alignUp size
    if size > 0 ∧ size ≤ h.xFreeBytesRemaining then
      if ptr = 0 then some (.malloc size)
      else do
        let old := sub32 ptr h.xHeapStructSize
        let judge := u32 (old + clearBits (h.size old) h.xBlockAllocatedBit)
        let (previous, block) ← findBlock h judge
        let oldSize := sub32 (clearBits (h.size old) h.xBlockAllocatedBit) h.xHeapStructSize
        if block = judge ∧ size < h.size block ∧ size ≥ oldSize ∧
            sub32 (h.size block) size > h.heapMinmunBlockSize then
          let addSize := clearBits (sub32 size oldSize) h.xBlockAllocatedBit
          if addSize = 0 then pure .stay else pure (.grow old previous block addSize)
        else pure (.move oldSize size)
    else some .null

theorem sysHeapRealloc_eq (h : SysHeap) (ptr size : Nat) :
    sysHeapRealloc h ptr size = (reallocWay h ptr size).bind fun way =>
      match way with
      | .null => some (h, 0)
      | .free => (sysHeapFree h ptr).map fun h => (h, 0)
      | .malloc size => sysHeapMalloc h size
      | .stay => some (h, ptr)
      | .grow old previous block addSize =>
        (growBlock h old previous block addSize).map fun h => (h, ptr)
      | .move _ size => moveBlock h ptr size := by
  unfold sysHeapRealloc reallocWay
  split
  · rfl
  split
  · cases sysHeapFree h ptr <;> rfl
  split
  · rfl
  dsimp only
  split
  · split
    · rfl
    · cases hfind : findBlock h _ with
      | none => rfl
      | some found =>
        simp only [Option.bind_eq_bind, Option.bind_some]
        split
        · split
          · rfl
          · exact (Option.map_eq_bind ..).symm
        · rfl
  · rfl

/-- What is known of the block at `p` when the call goes one way or the other. -/
inductive WayOk (h : SysHeap) (bs : List (Block Nat)) (p n : Nat) : Way → Prop where
  | null (hn : n ≠ 0) : WayOk h bs p n .null
  | free (hn : n = 0) : WayOk h bs p n .free
  | malloc {size : Nat} (hn : n ≠ 0) (hp : p = 0) (hle : n ≤ size) (hlt : size < 2 ^ 32) :
    WayOk h bs p n (.malloc size)
  | stay {as cs : List (Block Nat)} {b : Block Nat} {k : Nat} (hn : n ≠ 0)
    (hbs : bs = as ++ b :: cs) (hb : b.owner = some k) (hp : p = b.addr + 16)
    (hfit : n + 16 ≤ b.size) : WayOk h bs p n .stay
  | grow {as cs : List (Block Nat)} {b f : Block Nat} {k add : Nat} (hn : n ≠ 0)
    (hbs : bs = as ++ b :: f :: cs) (hb : b.owner = some k) (hp : p = b.addr + 16)
    (hf : f.isFree) (hpos : 0 < add) (hlt : add < f.size) (halign : h.portByteAlignment ∣ add)
    (hfit : n + 16 ≤ b.size + add) :
    WayOk h bs p n (.grow b.addr (lastAddr h.xStart (Tile.free (as ++ [b]))) f.addr add)
  | move {b : Block Nat} {k size : Nat} (hn : n ≠ 0) (hmem : b ∈ bs) (hb : b.owner = some k)
    (hp : p = b.addr + 16) (hle : n ≤ size) (hlt : size < 2 ^ 32) :
    WayOk h bs p n (.move (b.size - 16) size)

theorem reallocWay_spec (hr : HeapRep h lo bs) (ht : Tracks bs live) {p n : Nat}
    (hn : n < 2 ^ 32) (hp : p = 0 ∨ ∃ k, live p = some k) :
    ∃ way, reallocWay h p n = some way ∧ WayOk h bs p n way := by
  rw [reallocWay, if_neg hr.end_ne_zero]
  by_cases hpos : n = 0
  · rw [if_pos hpos]
    exact ⟨_, rfl, .free hpos⟩
  rw [if_neg hpos, hr.config.bit]
  split
  · exact ⟨_, rfl, .null hpos⟩
  rename_i hbit
  have hlt : n < 2 ^ 31 := (and_top_eq_zero_iff hn).mp (not_not.mp hbit)
  obtain ⟨hle, hbound, halign⟩ := hr.config.alignUp (n := n) (by omega)
  set size := h.alignUp n with hsize
  dsimp only
  split
  swap
  · exact ⟨_, rfl, .null hpos⟩
  rename_i hfits
  have hremaining := hr.remaining_lt
  by_cases hzero : p = 0
  · rw [if_pos hzero]
    exact ⟨_, rfl, .malloc hpos hzero hle (by omega)⟩
  obtain ⟨k, hk⟩ := hp.resolve_left hzero
  obtain ⟨b, hmem, howner, rfl⟩ := (ht _ _).mp hk
  have hblink := (hr.owned b hmem k howner).1
  have hbsize : h.size b.addr = b.size + 2 ^ 31 := congrArg BlockLink.xBlockSize hblink
  have hrange := hr.addr_range hmem
  have hsmall := hr.config.small
  have hbits := hr.config.range
  have hfit := (hr.owned b hmem k howner).2
  rw [hr.config.structSize] at hfit
  have hold : sub32 (b.addr + 16) h.xHeapStructSize = b.addr := by
    rw [hr.config.structSize, sub32_add_right]
  have hclear : clearBits (b.size + 2 ^ 31) (2 ^ 31) = b.size := clearBits_two_pow_add (by omega)
  have holdSize : sub32 b.size h.xHeapStructSize = b.size - 16 := by
    rw [hr.config.structSize, sub32_of_le (by omega)]
  have hmove : WayOk h bs (b.addr + 16) n (.move (b.size - 16) size) :=
    .move hpos hmem howner rfl hle (by omega)
  rw [if_neg hzero, hold, hbsize, hclear, u32_of_lt (by omega), holdSize, findBlock]
  rcases hr.walk (fun block => block ≠ b.addr + b.size) with
    ⟨-, hwalk⟩ | ⟨as, f, cs, rfl, hf, hstop, hwalk⟩
  · -- no free block behind: the end marker is never larger than a size
    have hlast : ¬size < h.size h.pxEnd := by
      rw [SysHeap.size, hr.last]
      exact Nat.not_lt_zero _
    rw [hwalk]
    simp only [Option.bind_eq_bind, Option.bind_some, hlast, false_and, and_false, if_false]
    exact ⟨_, rfl, hmove⟩
  have hjudge : f.addr = b.addr + b.size := by simpa using hstop
  rw [hwalk]
  simp only [Option.bind_eq_bind, Option.bind_some, hr.size_at hf]
  split
  swap
  · exact ⟨_, rfl, hmove⟩
  rename_i hgrow
  obtain ⟨-, hless, hmore, -⟩ := hgrow
  have hmem_as : b ∈ as := by
    obtain ⟨-, hbehind⟩ := hr.sep
    have hpos_f := (hr.addr_range (b := f) (by simp)).2.1
    rw [List.mem_append, List.mem_cons] at hmem
    rcases hmem with hb | rfl | hb
    · exact hb
    · rw [isFree_iff.mp hf] at howner
      cases howner
    · have := (hbehind b hb).1
      omega
  obtain ⟨as, rfl⟩ := exists_before hr.tiles hmem_as hjudge.symm
  rw [sub32_of_le hmore, clearBits_two_pow_of_lt (by omega)]
  have hsplit : as ++ [b] ++ f :: cs = as ++ b :: f :: cs := by simp
  split
  · exact ⟨_, rfl, .stay hpos hsplit howner rfl (by omega)⟩
  · have halign_b := (hr.aligned b hmem).2
    have halign16 : h.portByteAlignment ∣ 16 := by
      rcases hr.config.align with ⟨ha, -⟩ | ⟨ha, -⟩
      · rw [ha]
        decide
      · rw [ha]
    exact ⟨_, rfl, .grow hpos hsplit howner rfl hf (by omega) (by omega)
      (Nat.dvd_sub halign (Nat.dvd_sub halign_b halign16)) (by omega)⟩

/-- `sys_heap_realloc`. -/
theorem sysHeapRealloc_spec (hr : HeapRep h lo bs) (ht : Tracks bs live) {p n : Nat}
    (hn : n < 2 ^ 32) (hp : p = 0 ∨ ∃ k, live p = some k) :
    ∃ h' ret, sysHeapRealloc h p n = some (h', ret) ∧ Stable h h' ∧
      ∃ bs', HeapRep h' lo bs' ∧ Tracks bs' (afterRealloc live p n ret) := by
  obtain ⟨way, hway, hok⟩ := reallocWay_spec hr ht hn hp
  rw [sysHeapRealloc_eq, hway, Option.bind_some]
  cases hok with
  | null hpos =>
    refine ⟨h, 0, rfl, .refl h, bs, hr, ?_⟩
    rw [afterRealloc, if_neg hpos, if_pos rfl]
    exact ht
  | free hzero =>
    simp only [afterRealloc, if_pos hzero]
    rcases hp with rfl | ⟨k, hk⟩
    · refine ⟨h, 0, rfl, .refl h, bs, hr, ?_⟩
      rw [← ht.zero, Function.update_eq_self]
      exact ht
    · obtain ⟨h', hrun, hstable, -, bs', hr', ht'⟩ := sysHeapFree_spec hr ht hk
      rw [hrun]
      exact ⟨h', 0, rfl, hstable, bs', hr', ht'⟩
  | malloc hpos hzero hle hlt =>
    obtain ⟨h', ret, hrun, hstable, hcases⟩ := sysHeapMalloc_spec hr ht hlt
    refine ⟨h', ret, hrun, hstable, ?_⟩
    have hlive : Function.update live p none = live := by
      rw [hzero, ← ht.zero, Function.update_eq_self]
    rw [afterRealloc, if_neg hpos, hlive]
    rcases hcases with ⟨rfl, rfl, -⟩ | ⟨hret, -, -, -, hgiven⟩
    · exact ⟨bs, hr, by rwa [if_pos rfl]⟩
    · obtain ⟨bs', hr', ht'⟩ := hgiven n hle
      exact ⟨bs', hr', by rwa [if_neg hret]⟩
  | @stay as cs b k hpos hbs hb hp' hfit =>
    subst hbs hp'
    have hown : ¬b.isFree := by simp [Block.isFree, hb]
    refine ⟨h, _, rfl, .refl h, _, hr.retag hown hfit, ?_⟩
    rw [afterRealloc, if_neg hpos, if_neg (by omega), Function.update_idem]
    exact ht.retag hr hb
  | @grow as cs b f k add hpos hbs hb hp' hf hadd hlt halign hfit =>
    subst hbs hp'
    have hown : ¬b.isFree := by simp [Block.isFree, hb]
    obtain ⟨h', hrun, hstable, -, hr'⟩ := growBlock_spec hr hown hf hadd hlt halign hfit
    dsimp only
    rw [hrun]
    refine ⟨h', _, rfl, hstable, _, hr', ?_⟩
    rw [afterRealloc, if_neg hpos, if_neg (by omega), Function.update_idem]
    exact ht.extend hr hf hb
  | @move b k size hpos hmem hb hp' hle hlt =>
    exact moveBlock_spec hr ht ((ht _ _).mpr ⟨b, hmem, hb, hp'⟩) hlt hle hpos

end

end Heap
end XR806

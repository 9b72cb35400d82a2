import XR806.Heap.Memory
import XR806.Heap.Runs

/-!
# XR806.Heap.Realloc

What users keep in their blocks, over runs of a heap whose links are bytes of the same memory. The
links an operation changes lie in `xStart`, in free blocks, and at the head of the block it is given;
so the other users' bytes stay (`Same`), and those of a block that `sys_heap_realloc` resizes are
there up to the smaller of the two sizes (`realloc_keeps_data`).
-/

namespace XR806
namespace Heap

open Tile Nor

/-- `xStart` has bytes of its own. -/
def Clear (h : SysHeap) (lo : Nat) : Prop := h.xStart + 8 ≤ lo ∨ h.pxEnd + 8 ≤ h.xStart

/-- Where links are, but for the end marker. -/
def Place (h : SysHeap) (lo a : Nat) : Prop := a = h.xStart ∨ 8 ∣ a ∧ lo ≤ a ∧ a + 8 ≤ h.pxEnd

section

variable {lo a p k : Nat} {h : SysHeap} {s s' s'' : Machine} {bs bs' l : List (Block Nat)}
  {b c : Block Nat} {live : Nat → Option Nat}

theorem Clear.stable (hc : Clear s.heap lo) (hs : Stable s.heap s'.heap) : Clear s'.heap lo := by
  unfold Clear
  rw [hs.xStart, hs.pxEnd]
  exact hc

theorem spread_place (hc : Clear h lo) : Spread (Place h lo) := by
  unfold Clear at hc
  rintro a b (rfl | ha) (rfl | hb) hne
  · exact absurd rfl hne
  · omega
  · omega
  · omega

namespace HeapRep

theorem place (hr : HeapRep h lo bs) (hb : b ∈ bs) : Place h lo b.addr := by
  obtain ⟨haddr, hsize⟩ := hr.dvd_addr hb
  have hrange := hr.addr_range hb
  exact .inr ⟨haddr, hrange.1, by omega⟩

theorem place_of_inFree (hr : HeapRep h lo bs) (ha : InFree h bs a) : Place h lo a := by
  rcases ha with rfl | ⟨f, hf, -, h8, hlow, hhigh⟩
  · exact .inl rfl
  · have hrange := hr.addr_range hf
    unfold Block.next at hhigh
    exact .inr ⟨h8, by omega, by omega⟩

/-- The links in free blocks are in no user's block. -/
theorem inFree_apart (hr : HeapRep h lo bs) (hclear : Clear h lo) (hc : c ∈ bs) (hown : ¬c.isFree)
    (ha : InFree h bs a) : a + 8 ≤ c.addr ∨ c.next ≤ a := by
  have hrange := hr.addr_range hc
  unfold Clear at hclear
  unfold Block.next
  rcases ha with rfl | ⟨f, hf, hfree, -, hlow, hhigh⟩
  · omega
  · have hne : f.addr ≠ c.addr := by
      intro heq
      rw [hr.tiles.eq_of_addr hf hc heq] at hfree
      exact hown hfree
    have hsep := hr.tiles.disjoint hf hc hne
    unfold Block.next at hsep hhigh
    omega

/-- Nor is the link at the head of another block. -/
theorem head_apart (hr : HeapRep h lo bs) (hb : b ∈ bs) (hc : c ∈ bs) (hne : b.addr ≠ c.addr) :
    b.addr + 8 ≤ c.addr ∨ c.next ≤ b.addr := by
  have hsep := hr.tiles.disjoint hb hc hne
  obtain ⟨-, hsize⟩ := hr.dvd_addr hb
  have hpos := (hr.addr_range hb).2.1
  unfold Block.next at hsep ⊢
  omega

theorem headAddr_le (hr : HeapRep h lo bs) (hl : l ⊆ bs) : headAddr l h.pxEnd ≤ h.pxEnd := by
  cases l with
  | nil => exact Nat.le_refl _
  | cons c l =>
    have hrange := hr.addr_range (hl (List.mem_cons_self ..))
    rw [headAddr_cons]
    omega

theorem fits_start (hr : HeapRep h lo bs) : (h.links h.xStart).Fits := by
  have hbits := hr.config.range
  have hnext : (h.links h.xStart).pxNextFreeBlock = _ := hr.chain.next
  have hsize : (h.links h.xStart).xBlockSize = 0 := hr.start
  have hle := hr.headAddr_le (l := Tile.free bs) (List.filter_subset_self _)
  unfold BlockLink.Fits
  rw [hnext, hsize]
  omega

theorem fits (hr : HeapRep h lo bs) (hc : c ∈ bs) : (h.links c.addr).Fits := by
  have hbits := hr.config.range
  have hsmall := hr.config.small
  have hrange := hr.addr_range hc
  cases hown : c.owner with
  | some n =>
    rw [(hr.owned c hc n hown).1]
    unfold BlockLink.Fits
    dsimp only
    omega
  | none =>
    obtain ⟨as, cs, rfl⟩ := List.append_of_mem hc
    have hfree : c.isFree := isFree_iff.mpr hown
    have hnext : (h.links c.addr).pxNextFreeBlock = _ := hr.next_at hfree
    have hsize : (h.links c.addr).xBlockSize = c.size := hr.size_at hfree
    have hle := hr.headAddr_le (l := Tile.free cs) fun d hd => by
      have hmem := (mem_free.mp hd).1
      simp [hmem]
    unfold BlockLink.Fits
    rw [hnext, hsize]
    omega

/-- The links an operation has left are those that are read from memory afterwards. -/
theorem settle (hr : HeapRep s.heap lo bs) (hclear : Clear s.heap lo) (hstable : Stable s.heap h)
    (hsame : ∀ a, ¬Place s.heap lo a → h.links a = s.heap.links a) (hr' : HeapRep h lo bs') :
    HeapRep (s.settle h).heap lo bs' := by
  have hP := spread_place hclear
  have hmem : ∀ a, ¬Place s.heap lo a → h.links a = linkAt s.mem a := by
    intro a ha
    rw [hsame a ha, s.links]
  refine hr'.of_links ?_ ?_ fun c hc => ?_
  · exact linkAt_storeLinks hP hmem (.inl hstable.xStart) hr'.fits_start
  · have hend : linkAt (storeLinks s.mem h.links) h.pxEnd = linkAt s.mem h.pxEnd := by
      refine linkAt_congr fun i hi => storeLinks_of_apart hmem ?_
      have hle := hr.tiles.le
      unfold Clear at hclear
      rw [hstable.pxEnd]
      rintro a (rfl | ⟨-, -, ha⟩)
      · omega
      · omega
    rw [hend, hr'.last, ← s.links, hstable.pxEnd, hr.last]
  · refine linkAt_storeLinks hP hmem ?_ (hr'.fits hc)
    have hplace := hr'.place hc
    unfold Place at hplace ⊢
    rwa [hstable.xStart, hstable.pxEnd] at hplace

end HeapRep

/-! ## What users keep in their blocks -/

/-- The user of `q` has the same bytes as before. -/
structure Same (s s' : Machine) (q : Nat) : Prop where
  usable : usable s'.heap q = usable s.heap q
  data : ∀ i < Heap.usable s.heap q, s'.mem (q + i) = s.mem (q + i)

theorem Same.refl (s : Machine) (q : Nat) : Same s s q := ⟨rfl, fun _ _ => rfl⟩

theorem Same.trans {q : Nat} (h₁ : Same s s' q) (h₂ : Same s' s'' q) : Same s s'' q := by
  refine ⟨h₂.usable.trans h₁.usable, fun i hi => ?_⟩
  rw [h₂.data i (by rw [h₁.usable]; exact hi), h₁.data i hi]

theorem HeapRep.usable_eq (hr : HeapRep h lo bs) (hb : b ∈ bs) (hown : b.owner = some k) :
    usable h (b.addr + 16) = b.size - 16 := by
  obtain ⟨hlink, hfit⟩ := hr.owned b hb k hown
  have hsize : h.size b.addr = b.size + 2 ^ 31 := congrArg BlockLink.xBlockSize hlink
  have hrange := hr.addr_range hb
  have hsmall := hr.config.small
  have hclear : clearBits (b.size + 2 ^ 31) (2 ^ 31) = b.size := clearBits_two_pow_add (by omega)
  rw [hr.config.structSize] at hfit
  rw [usable, hr.config.structSize, hr.config.bit, sub32_add_right, hsize, hclear,
    sub32_of_le (by omega)]

theorem HeapRep.same (hr : HeapRep s.heap lo bs) (hr' : HeapRep s'.heap lo bs') (hc : c ∈ bs)
    (hown : c.owner = some k) (hbytes : ∀ x, c.addr ≤ x → x < c.next → s'.mem x = s.mem x) :
    Same s s' (c.addr + 16) := by
  have hfit := (hr.owned c hc k hown).2
  rw [hr.config.structSize] at hfit
  unfold Block.next at hbytes
  constructor
  · have hlink : s'.heap.links c.addr = s.heap.links c.addr := by
      rw [s'.links, s.links]
      exact linkAt_congr fun i hi => hbytes _ (by omega) (by omega)
    rw [usable, usable, hr.config.structSize, hr'.config.structSize, hr.config.bit, hr'.config.bit,
      sub32_add_right, SysHeap.size, SysHeap.size, hlink]
  · intro i hi
    rw [hr.usable_eq hc hown] at hi
    exact hbytes _ (by omega) (by omega)

/-- An operation whose links lie outside of a user's block. -/
theorem HeapRep.same_settle {P : Nat → Prop} (hr : HeapRep s.heap lo bs)
    (hr' : HeapRep (s.settle h).heap lo bs') (hc : c ∈ bs) (hown : c.owner = some k)
    (hsame : ∀ a, ¬P a → h.links a = s.heap.links a)
    (hapart : ∀ a, P a → a + 8 ≤ c.addr ∨ c.next ≤ a) : Same s (s.settle h) (c.addr + 16) := by
  refine hr.same hr' hc hown fun x hlow hhigh => ?_
  refine storeLinks_of_apart (P := P) (fun a ha => ?_) fun a ha => ?_
  · rw [hsame a ha, s.links]
  · have := hapart a ha
    omega

theorem Machine.settle_self (s : Machine) : s.settle s.heap = s := by
  have hmem : storeLinks s.mem s.heap.links = s.mem := by
    funext x
    refine storeLinks_of_apart (P := fun _ => False) (fun a _ => ?_) fun a ha => ha.elim
    rw [s.links]
  obtain ⟨heap, mem, hlinks⟩ := s
  simp only [Machine.settle] at hmem ⊢
  simp only [hmem, ← hlinks]

/-! ## The calls -/

/-- What is kept by the calls. -/
def Good (lo : Nat) (s : Machine) (live : Nat → Option Nat) : Prop :=
  Clear s.heap lo ∧ Inv lo ⟨s.heap, live⟩

theorem Stable.settle (hs : Stable s.heap h) : Stable s.heap (s.settle h).heap :=
  ⟨hs.xStart, hs.pxEnd, hs.align, hs.minimum⟩

theorem HeapRep.malloc (hr : HeapRep s.heap lo bs) (hclear : Clear s.heap lo) (ht : Tracks bs live)
    {n : Nat} (hn : n < 2 ^ 32) :
    ∃ s' ret, s.malloc n = some (s', ret) ∧ Stable s.heap s'.heap ∧
      (ret = 0 ∧ s' = s ∧ NoRoom s.heap bs n ∨
        ret ≠ 0 ∧ live ret = none ∧ ¬NoRoom s.heap bs n ∧ n ≤ usable s'.heap ret ∧
        (∀ m ≤ n, Good lo s' (Function.update live ret (some m))) ∧
        ∀ q k, live q = some k → Same s s' q) := by
  obtain ⟨h, ret, hrun, hstable, hcases⟩ := sysHeapMalloc_spec hr ht hn
  refine ⟨s.settle h, ret, ?_, hstable.settle, ?_⟩
  · rw [Machine.malloc, hrun]
    rfl
  rcases hcases with ⟨rfl, rfl, hroom⟩ | ⟨hret, hnone, hroom, hframe, hgiven⟩
  · exact .inl ⟨rfl, s.settle_self, hroom⟩
  have hplace : ∀ a, ¬Place s.heap lo a → h.links a = s.heap.links a := fun a ha =>
    hframe a fun hin => ha (hr.place_of_inFree hin)
  refine .inr ⟨hret, hnone, hroom, ?_, fun m hm => ?_, fun q k hq => ?_⟩
  · obtain ⟨bs', hr', ht'⟩ := hgiven n (Nat.le_refl n)
    obtain ⟨b, hb, hown, rfl⟩ := (ht' ret n).mp (Function.update_self ..)
    have hsettled := hr.settle hclear hstable hplace hr'
    have hfit := (hsettled.owned b hb n hown).2
    rw [hsettled.config.structSize] at hfit
    rw [hsettled.usable_eq hb hown]
    omega
  · obtain ⟨bs', hr', ht'⟩ := hgiven m hm
    exact ⟨hclear.stable hstable.settle, bs', hr.settle hclear hstable hplace hr', ht'⟩
  · obtain ⟨c, hc, hown, rfl⟩ := (ht q k).mp hq
    obtain ⟨bs', hr', -⟩ := hgiven n (Nat.le_refl n)
    have hcown : ¬c.isFree := by simp [Block.isFree, hown]
    exact hr.same_settle (hr.settle hclear hstable hplace hr') hc hown hframe fun a ha =>
      hr.inFree_apart hclear hc hcown ha

theorem Good.malloc (hg : Good lo s live) {n : Nat} (hn : n < 2 ^ 32) :
    ∃ s' ret, s.malloc n = some (s', ret) ∧ Stable s.heap s'.heap ∧
      (ret = 0 ∧ s' = s ∨ ret ≠ 0 ∧ live ret = none ∧ n ≤ usable s'.heap ret ∧
        (∀ m ≤ n, Good lo s' (Function.update live ret (some m))) ∧
        ∀ q k, live q = some k → Same s s' q) := by
  obtain ⟨hclear, bs, hr, ht⟩ := hg
  obtain ⟨s', ret, hrun, hstable, hcases⟩ := hr.malloc hclear ht hn
  refine ⟨s', ret, hrun, hstable, ?_⟩
  rcases hcases with ⟨hret, hs, -⟩ | ⟨hret, hnone, -, hrest⟩
  · exact .inl ⟨hret, hs⟩
  · exact .inr ⟨hret, hnone, hrest⟩

theorem Good.free (hg : Good lo s live) (hp : live p = some k) :
    ∃ s', s.free p = some s' ∧ Stable s.heap s'.heap ∧
      Good lo s' (Function.update live p none) ∧ ∀ q k, q ≠ p → live q = some k → Same s s' q := by
  obtain ⟨hclear, bs, hr, ht⟩ := hg
  obtain ⟨h, hrun, hstable, hframe, bs', hr', ht'⟩ := sysHeapFree_spec hr ht hp
  obtain ⟨b, hb, hown, rfl⟩ := (ht p k).mp hp
  have hchanged : ∀ a, ¬(InFree s.heap bs a ∨ a = b.addr) → h.links a = s.heap.links a :=
    fun a ha => hframe a (fun hin => ha (.inl hin)) fun heq => ha (.inr (by omega))
  have hplace : ∀ a, ¬Place s.heap lo a → h.links a = s.heap.links a := fun a ha =>
    hchanged a fun hor => hor.elim (fun hin => ha (hr.place_of_inFree hin)) fun heq =>
      ha (heq ▸ hr.place hb)
  have hsettled := hr.settle hclear hstable hplace hr'
  refine ⟨s.settle h, ?_, hstable.settle, ⟨hclear.stable hstable.settle, bs', hsettled, ht'⟩,
    fun q j hne hq => ?_⟩
  · rw [Machine.free, hrun]
    rfl
  · obtain ⟨c, hc, hcown, rfl⟩ := (ht q j).mp hq
    refine hr.same_settle hsettled hc hcown hchanged fun a ha => ?_
    have hcfree : ¬c.isFree := by simp [Block.isFree, hcown]
    rcases ha with hin | rfl
    · exact hr.inFree_apart hclear hc hcfree hin
    · exact hr.head_apart hb hc (by omega)

/-- What is written to a user's block is all that changes. -/
theorem Good.fill (hg : Good lo s live) (hp : live p = some k) (mem : Mem)
    (hmem : ∀ x, x < p ∨ p + usable s.heap p ≤ x → mem x = s.mem x) :
    Good lo (s.fill mem) live ∧ Stable s.heap (s.fill mem).heap ∧
      usable (s.fill mem).heap p = usable s.heap p ∧
      ∀ q k, q ≠ p → live q = some k → Same s (s.fill mem) q := by
  obtain ⟨hclear, bs, hr, ht⟩ := hg
  obtain ⟨b, hb, hown, rfl⟩ := (ht p k).mp hp
  rw [hr.usable_eq hb hown] at hmem ⊢
  have hfit := (hr.owned b hb k hown).2
  rw [hr.config.structSize] at hfit
  have hfilled : HeapRep (s.fill mem).heap lo bs := by
    refine hr.write hb fun a ha => ?_
    unfold Block.next at ha
    rw [s.links]
    exact linkAt_congr fun i hi => hmem _ (by omega)
  refine ⟨⟨hclear, bs, hfilled, ht⟩, ⟨rfl, rfl, rfl, Nat.le_refl _⟩, hfilled.usable_eq hb hown,
    fun q j hne hq => ?_⟩
  obtain ⟨c, hc, hcown, rfl⟩ := (ht q j).mp hq
  refine hr.same hfilled hc hcown fun x hlow hhigh => hmem x ?_
  have hsep := hr.tiles.disjoint hb hc (by omega)
  unfold Block.next at hsep hhigh
  omega

/-! ## realloc -/

/-- What `realloc` of the user's block at `p` to `n` bytes leaves, once it has returned `ret`. -/
structure Reallocated (s s' : Machine) (live : Nat → Option Nat) (p n ret : Nat) : Prop where
  null : ret = 0 → s' = s
  fresh : ret ≠ 0 → ret = p ∨ live ret = none
  fits : ret ≠ 0 → n ≤ usable s'.heap ret
  data : ret ≠ 0 → ∀ i < min (usable s.heap p) n, s'.mem (ret + i) = s.mem (p + i)
  others : ∀ q k, q ≠ p → live q = some k → Same s s' q

theorem Reallocated.refused {n : Nat} : Reallocated s s live p n 0 :=
  ⟨fun _ => rfl, fun h => absurd rfl h, fun h => absurd rfl h, fun h => absurd rfl h,
    fun q _ _ _ => .refl s q⟩

/-- The block moves: allocate, copy, free. -/
theorem Good.move (hg : Good lo s live) (hp : live p = some k) {n size : Nat} (hn : n ≠ 0)
    (hle : n ≤ size) (hlt : size < 2 ^ 32) :
    ∃ s' ret, s.move p (usable s.heap p) size = some (s', ret) ∧ Stable s.heap s'.heap ∧
      Good lo s' (afterRealloc live p n ret) ∧ Reallocated s s' live p n ret := by
  obtain ⟨s₁, ret, hrun, hstable, hcases⟩ := hg.malloc hlt
  rw [Machine.move, hrun]
  simp only [Option.bind_eq_bind, Option.bind_some]
  rcases hcases with ⟨rfl, rfl⟩ | ⟨hret, hnone, hfit, hgiven, hsame⟩
  · refine ⟨s₁, 0, rfl, hstable, ?_, .refused⟩
    rw [afterRealloc, if_neg hn, if_pos rfl]
    exact hg
  set m := if usable s.heap p > size then size else usable s.heap p with hm
  have hmin : min (usable s.heap p) n ≤ m ∧ m ≤ size := by
    rw [hm]
    split <;> omega
  have hne : p ≠ ret := by
    rintro rfl
    rw [hp] at hnone
    cases hnone
  have hlive : Function.update live ret (some n) p = some k := by
    rw [Function.update_of_ne hne, hp]
  have hret' : Function.update live ret (some n) ret = some n := Function.update_self ..
  -- the copy stays inside the new block
  obtain ⟨hg₂, hstable₂, hfit₂, hsame₂⟩ := (hgiven n hle).fill hret'
    (memcpy s₁.mem ret p m) fun x hx => memcpy_of_outside (by omega)
  obtain ⟨s₃, hrun₃, hstable₃, hg₃, hsame₃⟩ := hg₂.free hlive
  rw [if_neg hret, hrun₃]
  have hnew := hsame₃ ret n hne.symm hret'
  refine ⟨s₃, ret, rfl, (hstable.trans hstable₂).trans hstable₃, ?_,
    fun h => absurd h hret, fun _ => .inr hnone, fun _ => ?_, fun _ i hi => ?_, fun q j hq hj => ?_⟩
  · rw [afterRealloc, if_neg hn, if_neg hret, Function.update_comm hne]
    exact hg₃
  · rw [hnew.usable, hfit₂]
    omega
  · calc s₃.mem (ret + i) = memcpy s₁.mem ret p m (ret + i) := hnew.data i (by rw [hfit₂]; omega)
      _ = s₁.mem (p + i) := memcpy_add (by omega)
      _ = s.mem (p + i) := (hsame p k hp).data i (by omega)
  · have hqret : q ≠ ret := by
      rintro rfl
      rw [hj] at hnone
      cases hnone
    have hj' : Function.update live ret (some n) q = some j := by
      rw [Function.update_of_ne hqret, hj]
    exact ((hsame q j hj).trans (hsame₂ q j hqret hj')).trans (hsame₃ q j hq hj')

/-- The block grows in place: what is new is behind its old end. -/
theorem Good.grow {as cs : List (Block Nat)} {f : Block Nat} {n add : Nat} (hclear : Clear s.heap lo)
    (hr : HeapRep s.heap lo (as ++ b :: f :: cs)) (ht : Tracks (as ++ b :: f :: cs) live)
    (hb : b.owner = some k) (hf : f.isFree) (hn : n ≠ 0) (hpos : 0 < add) (hlt : add < f.size)
    (halign : s.heap.portByteAlignment ∣ add) (hfit : n + 16 ≤ b.size + add) :
    ∃ h, growBlock s.heap b.addr (lastAddr s.heap.xStart (Tile.free (as ++ [b]))) f.addr add = some h ∧
      Stable s.heap h ∧ Good lo (s.settle h) (afterRealloc live (b.addr + 16) n (b.addr + 16)) ∧
      Reallocated s (s.settle h) live (b.addr + 16) n (b.addr + 16) := by
  have hown : ¬b.isFree := by simp [Block.isFree, hb]
  have hmem : b ∈ as ++ b :: f :: cs := by simp
  obtain ⟨h, hrun, hstable, hframe, hr'⟩ := growBlock_spec hr hown hf hpos hlt halign hfit
  have hchanged : ∀ a, ¬(InFree s.heap (as ++ b :: f :: cs) a ∨ a = b.addr) →
      h.links a = s.heap.links a := fun a ha =>
    hframe a (fun hin => ha (.inl hin)) fun heq => ha (.inr heq)
  have hplace : ∀ a, ¬Place s.heap lo a → h.links a = s.heap.links a := fun a ha =>
    hchanged a fun hor => hor.elim (fun hin => ha (hr.place_of_inFree hin)) fun heq =>
      ha (heq ▸ hr.place hmem)
  have hsettled := hr.settle hclear hstable hplace hr'
  refine ⟨h, hrun, hstable, ⟨hclear.stable hstable.settle, _, hsettled, ?_⟩, fun h => by omega,
    fun _ => .inl rfl, fun _ => ?_, fun _ i hi => ?_, fun q j hq hj => ?_⟩
  · rw [afterRealloc, if_neg hn, if_neg (by omega), Function.update_idem]
    exact ht.extend hr hf hb
  · rw [hsettled.usable_eq (b := ⟨b.addr, b.size + add, some n⟩) (by simp [extend]) rfl]
    dsimp only
    omega
  · rw [hr.usable_eq hmem hb] at hi
    refine storeLinks_of_apart (fun a ha => (hchanged a ha).trans (congrFun s.links a)) ?_
    rintro a (hin | rfl)
    · have := hr.inFree_apart hclear hmem hown hin
      unfold Block.next at this
      omega
    · omega
  · obtain ⟨c, hc, hcown, rfl⟩ := (ht q j).mp hj
    refine hr.same_settle hsettled hc hcown hchanged fun a ha => ?_
    have hcfree : ¬c.isFree := by simp [Block.isFree, hcown]
    rcases ha with hin | rfl
    · exact hr.inFree_apart hclear hc hcfree hin
    · exact hr.head_apart hmem hc (by omega)

theorem Good.realloc (hg : Good lo s live) {n : Nat} (hn : n < 2 ^ 32) (hp : Owned live p) :
    ∃ s' ret, s.realloc p n = some (s', ret) ∧ Stable s.heap s'.heap ∧
      Good lo s' (afterRealloc live p n ret) ∧
      (n ≠ 0 → p ≠ 0 → Reallocated s s' live p n ret) := by
  obtain ⟨hclear, bs, hr, ht⟩ := hg
  have hg : Good lo s live := ⟨hclear, bs, hr, ht⟩
  obtain ⟨way, hway, hok⟩ := reallocWay_spec hr ht hn hp
  rw [Machine.realloc, hway]
  simp only [Option.bind_eq_bind, Option.bind_some]
  cases hok with
  | null hpos =>
    refine ⟨s, 0, rfl, .refl _, ?_, fun _ _ => .refused⟩
    rw [afterRealloc, if_neg hpos, if_pos rfl]
    exact hg
  | free hzero =>
    simp only [afterRealloc, if_pos hzero]
    rcases hp with rfl | ⟨k, hk⟩
    · refine ⟨s, 0, ?_, .refl _, ?_, fun h => absurd hzero h⟩
      · have hfree : s.free 0 = some (s.settle s.heap) := rfl
        rw [hfree, s.settle_self]
        rfl
      · rw [← ht.zero, Function.update_eq_self]
        exact hg
    · obtain ⟨s', hrun, hstable, hg', -⟩ := hg.free hk
      rw [hrun]
      exact ⟨s', 0, rfl, hstable, hg', fun h => absurd hzero h⟩
  | malloc hpos hzero hle hlt =>
    obtain ⟨s', ret, hrun, hstable, hcases⟩ := hg.malloc hlt
    refine ⟨s', ret, hrun, hstable, ?_, fun _ h => absurd hzero h⟩
    have hlive : Function.update live p none = live := by
      rw [hzero, ← ht.zero, Function.update_eq_self]
    rw [afterRealloc, if_neg hpos, hlive]
    rcases hcases with ⟨rfl, rfl⟩ | ⟨hret, -, -, hgiven, -⟩
    · rw [if_pos rfl]
      exact hg
    · rw [if_neg hret]
      exact hgiven n hle
  | @stay as cs b k hpos hbs hb hp' hfit =>
    subst hbs hp'
    have hown : ¬b.isFree := by simp [Block.isFree, hb]
    refine ⟨s, _, rfl, .refl _, ⟨hclear, _, hr.retag hown hfit, ?_⟩, fun _ _ => ?_⟩
    · rw [afterRealloc, if_neg hpos, if_neg (by omega), Function.update_idem]
      exact ht.retag hr hb
    · refine ⟨fun _ => rfl, fun _ => .inl rfl, fun _ => ?_, fun _ _ _ => rfl, fun q _ _ _ => .refl s q⟩
      rw [hr.usable_eq (by simp) hb]
      omega
  | @grow as cs b f k add hpos hbs hb hp' hf hadd hlt halign hfit =>
    subst hbs hp'
    obtain ⟨h, hrun, hstable, hg', hrealloc⟩ := Good.grow hclear hr ht hb hf hpos hadd hlt halign hfit
    dsimp only
    rw [hrun]
    exact ⟨s.settle h, _, rfl, hstable.settle, hg', fun _ _ => hrealloc⟩
  | @move b k size hpos hmem hb hp' hle hlt =>
    subst hp'
    obtain ⟨s', ret, hrun, hstable, hg', hrealloc⟩ :=
      hg.move ((ht _ _).mpr ⟨b, hmem, hb, rfl⟩) hpos hle hlt
    rw [hr.usable_eq hmem hb] at hrun
    exact ⟨s', ret, hrun, hstable, hg', fun _ _ => hrealloc⟩

end

/-! ## Runs -/

/-- A heap in its memory and the pointers its users own, with the sizes they can count on. -/
structure Users where
  machine : Machine
  live : Nat → Option Nat

inductive UserStep : Users → Call → Users → Prop
  | malloc (s : Users) (n : UInt32) (s' : Machine) (ret : Nat)
    (hrun : s.machine.malloc n.toNat = some (s', ret)) :
    UserStep s (.malloc n) ⟨s', afterAlloc s.live n.toNat ret⟩
  | calloc (s : Users) (k n : UInt32) (s' : Machine) (ret : Nat)
    (hrun : s.machine.calloc k.toNat n.toNat = some (s', ret)) :
    UserStep s (.calloc k n) ⟨s', afterAlloc s.live (u32 (k.toNat * n.toNat)) ret⟩
  | realloc (s : Users) (p : Nat) (n : UInt32) (s' : Machine) (ret : Nat) (hp : Owned s.live p)
    (hrun : s.machine.realloc p n.toNat = some (s', ret)) :
    UserStep s (.realloc p n) ⟨s', afterRealloc s.live p n.toNat ret⟩
  | free (s : Users) (p : Nat) (s' : Machine) (hp : Owned s.live p)
    (hrun : s.machine.free p = some s') : UserStep s (.free p) ⟨s', Function.update s.live p none⟩
  /-- A user writes to the bytes it has. -/
  | write (s : Users) (p k : Nat) (mem : Mem) (hp : s.live p = some k)
    (hmem : ∀ x, x < p ∨ p + usable s.machine.heap p ≤ x → mem x = s.machine.mem x) :
    UserStep s (.write p) { s with machine := s.machine.fill mem }

/-- The memory once the heap is started, and no user. -/
def Port.users (port : Port) (xStart base len : Nat) (mem : Mem) : Users where
  machine := Machine.settle ⟨sysHeapDefaultInit xStart (linkAt mem) base len, mem, rfl⟩
    (port.init xStart (linkAt mem) base len)
  live _ := none

section

variable {lo : Nat} {s s' : Users} {call : Call}

/-- The user of `p` has `n` bytes, all zero. -/
def Zeroed (s : Machine) (p n : Nat) : Prop := n ≤ usable s.heap p ∧ ∀ i < n, s.mem (p + i) = 0

theorem HeapRep.calloc {s : Machine} {live : Nat → Option Nat} {bs : List (Block Nat)}
    (hr : HeapRep s.heap lo bs) (hclear : Clear s.heap lo) (ht : Tracks bs live) (k n : Nat) :
    ∃ s' ret, s.calloc k n = some (s', ret) ∧ Stable s.heap s'.heap ∧
      Good lo s' (afterAlloc live (u32 (k * n)) ret) ∧
      (ret = 0 ∧ NoRoom s.heap bs (u32 (k * n)) ∨
        ret ≠ 0 ∧ ¬NoRoom s.heap bs (u32 (k * n)) ∧ Zeroed s' ret (u32 (k * n))) := by
  have hlt : u32 (k * n) < 2 ^ 32 := Nat.mod_lt _ (by decide)
  obtain ⟨s₁, ret, hrun, hstable, hcases⟩ := hr.malloc hclear ht hlt
  rw [Machine.calloc, hrun]
  simp only [Option.bind_eq_bind, Option.bind_some, afterAlloc]
  rcases hcases with ⟨rfl, rfl, hroom⟩ | ⟨hret, -, hroom, hfit, hgiven, -⟩
  · exact ⟨s₁, 0, rfl, hstable, ⟨hclear, bs, hr, ht⟩, .inl ⟨rfl, hroom⟩⟩
  · obtain ⟨hg, hstable', husable, -⟩ := (hgiven _ (Nat.le_refl _)).fill (Function.update_self ..)
      (memset s₁.mem ret 0 (u32 (k * n))) fun x hx => memset_of_outside (by omega)
    rw [if_pos hret]
    refine ⟨_, ret, rfl, hstable.trans hstable', ?_, .inr ⟨hret, hroom, ?_, fun i hi => memset_add hi⟩⟩
    · rw [if_neg hret]
      exact hg
    · rw [husable]
      exact hfit

/-- A step keeps the invariant. -/
theorem UserStep.good (h : UserStep s call s') (hg : Good lo s.machine s.live) :
    Good lo s'.machine s'.live ∧ Stable s.machine.heap s'.machine.heap := by
  cases h with
  | malloc n s' ret hrun =>
    obtain ⟨s₁, ret₁, hrun₁, hstable, hcases⟩ := hg.malloc n.toNat_lt
    obtain ⟨rfl, rfl⟩ := Prod.mk.inj (Option.some.inj (hrun.symm.trans hrun₁))
    refine ⟨?_, hstable⟩
    rcases hcases with ⟨rfl, rfl⟩ | ⟨hret, -, -, hgiven, -⟩
    · exact hg
    · rw [afterAlloc, if_neg hret]
      exact hgiven _ (Nat.le_refl _)
  | calloc k n s' ret hrun =>
    obtain ⟨hclear, bs, hr, ht⟩ := hg
    obtain ⟨s₁, ret₁, hrun₁, hstable, hg', -⟩ := hr.calloc hclear ht k.toNat n.toNat
    obtain ⟨rfl, rfl⟩ := Prod.mk.inj (Option.some.inj (hrun.symm.trans hrun₁))
    exact ⟨hg', hstable⟩
  | realloc p n s' ret hp hrun =>
    obtain ⟨s₁, ret₁, hrun₁, hstable, hg', -⟩ := hg.realloc n.toNat_lt hp
    obtain ⟨rfl, rfl⟩ := Prod.mk.inj (Option.some.inj (hrun.symm.trans hrun₁))
    exact ⟨hg', hstable⟩
  | free p s' hp hrun =>
    rcases hp with rfl | ⟨k, hk⟩
    · have hfree : s.machine.free 0 = some (s.machine.settle s.machine.heap) := rfl
      rw [hfree, Machine.settle_self] at hrun
      obtain rfl := Option.some.inj hrun
      obtain ⟨hclear, bs, hr, ht⟩ := hg
      refine ⟨⟨hclear, bs, hr, ?_⟩, .refl _⟩
      rw [← ht.zero, Function.update_eq_self]
      exact ht
    · obtain ⟨s₁, hrun₁, hstable, hg', -⟩ := hg.free hk
      obtain rfl := Option.some.inj (hrun.symm.trans hrun₁)
      exact ⟨hg', hstable⟩
  | write p k mem hp hmem =>
    obtain ⟨hg', hstable, -⟩ := hg.fill hp mem hmem
    exact ⟨hg', hstable⟩

/-- The links of a heap that is started are stored. -/
theorem rep_init {xStart base len k : Nat} {mem : Mem} (hreg : Region xStart base len)
    (hclear : xStart + 8 ≤ base ∨ base + len ≤ xStart) (hk : k = 3 ∨ k = 4) {s : Machine}
    (hmem : s.mem = mem) {h : SysHeap}
    (hh : h = { sysHeapDefaultInit xStart (linkAt mem) base len with
      portByteAlignment := 2 ^ k
      portByteAlignmentMask := 2 ^ k - 1 }) :
    Covers base len (alignedHeap h) (sysHeapInit h).pxEnd ∧
      Clear (s.settle (sysHeapInit h)).heap (alignedHeap h) ∧
      HeapRep (s.settle (sysHeapInit h)).heap (alignedHeap h)
        [⟨alignedHeap h, (sysHeapInit h).pxEnd - alignedHeap h, none⟩] := by
  obtain ⟨hcovers, hend, hr⟩ := initRep hreg hk hh
  have hx : (sysHeapInit h).xStart = xStart := (congrArg SysHeap.xStart hh).trans rfl
  have hclear' : Clear (sysHeapInit h) (alignedHeap h) := by
    unfold Covers at hcovers
    unfold Clear
    omega
  set lo := alignedHeap h with hlo
  set e := (sysHeapInit h).pxEnd with he
  have hblock : (⟨lo, e - lo, none⟩ : Block Nat) ∈ [(⟨lo, e - lo, none⟩ : Block Nat)] := .head _
  have hrange := hr.addr_range hblock
  obtain ⟨haddr, hsize⟩ := hr.dvd_addr hblock
  dsimp only at hrange haddr hsize
  have h8 : 8 ≤ e - lo := Nat.le_of_dvd hrange.2.1 hsize
  have hP : Spread fun a => a = (sysHeapInit h).xStart ∨ a = lo ∨ a = e := by
    unfold Clear at hclear'
    rintro a b (rfl | rfl | rfl) (rfl | rfl | rfl) hne <;> omega
  have hsame : ∀ a, ¬(a = (sysHeapInit h).xStart ∨ a = lo ∨ a = e) →
      (sysHeapInit h).links a = linkAt s.mem a := by
    intro a ha
    have hlinks : h.links = linkAt s.mem := (congrArg SysHeap.links hh).trans (by rw [hmem]; rfl)
    rw [← hlinks]
    refine (Function.update_of_ne (fun heq => ha (.inr (.inl heq))) ..).trans ?_
    refine (Function.update_of_ne (fun heq => ha (.inr (.inr heq))) ..).trans ?_
    exact Function.update_of_ne (fun heq => ha (.inl heq)) ..
  refine ⟨hcovers, hclear', hr.of_links ?_ ?_ fun c hc => ?_⟩
  · exact linkAt_storeLinks hP hsame (.inl rfl) hr.fits_start
  · refine linkAt_storeLinks hP hsame (.inr (.inr rfl)) ?_
    rw [hr.last]
    exact ⟨by decide, by decide⟩
  · obtain rfl := List.mem_singleton.mp hc
    exact linkAt_storeLinks hP hsame (.inr (.inl rfl)) (hr.fits hc)

theorem Port.users_rep (port : Port) {xStart base len : Nat} (mem : Mem)
    (hreg : Region xStart base len) (hclear : xStart + 8 ≤ base ∨ base + len ≤ xStart) :
    ∃ lo, Covers base len lo (port.users xStart base len mem).machine.heap.pxEnd ∧
      Clear (port.users xStart base len mem).machine.heap lo ∧
      HeapRep (port.users xStart base len mem).machine.heap lo
        [⟨lo, (port.users xStart base len mem).machine.heap.pxEnd - lo, none⟩] := by
  cases port with
  | sram => exact ⟨_, rep_init (k := 3) hreg hclear (.inl rfl) rfl rfl⟩
  | psram => exact ⟨_, rep_init (k := 4) hreg hclear (.inr rfl) rfl rfl⟩

theorem tracks_free {c : Block Nat} (hc : c.isFree) : Tracks [c] fun _ => none := by
  intro p n
  have hnone := isFree_iff.mp hc
  simp [hnone]

/-- In every run the heap is good, and where it was. -/
theorem Port.run_good (port : Port) {xStart base len : Nat} (mem : Mem)
    (hreg : Region xStart base len) (hclear : xStart + 8 ≤ base ∨ base + len ≤ xStart) :
    ∃ lo hi, Covers base len lo hi ∧ ∀ calls s,
      Trans.Run UserStep (port.users xStart base len mem) calls s →
        Good lo s.machine s.live ∧ s.machine.heap.pxEnd = hi := by
  obtain ⟨lo, hcovers, hc, hr⟩ := port.users_rep mem hreg hclear
  set hi := (port.users xStart base len mem).machine.heap.pxEnd
  refine ⟨lo, hi, hcovers, fun calls s hrun => ?_⟩
  refine hrun.invariant (I := fun t => Good lo t.machine t.live ∧ t.machine.heap.pxEnd = hi)
    ⟨⟨hc, _, hr, tracks_free rfl⟩, rfl⟩ fun t call t' ht hstep => ?_
  obtain ⟨hg, hstable⟩ := hstep.good ht.1
  exact ⟨hg, hstable.pxEnd.trans ht.2⟩

end

/-- In every run `sys_heap_realloc` of a live block to any size but 0 returns, and leaves the heap
what it has to be; the block's bytes are in the new one up to the smaller of the two sizes, and the
other users' are as they were. `NULL` leaves everything as it was. -/
theorem realloc_keeps_data (port : Port) {xStart base len : Nat} (mem : Mem)
    (hreg : Region xStart base len) (hclear : xStart + 8 ≤ base ∨ base + len ≤ xStart) :
    ∃ lo hi, Covers base len lo hi ∧ ∀ calls s,
      Trans.Run UserStep (port.users xStart base len mem) calls s →
        ∀ p k (n : UInt32), s.live p = some k → n ≠ 0 →
          ∃ s' ret, s.machine.realloc p n.toNat = some (s', ret) ∧
            (∃ bs, SysOk lo hi ⟨s'.heap, afterRealloc s.live p n.toNat ret⟩ bs) ∧
            Reallocated s.machine s' s.live p n.toNat ret := by
  obtain ⟨lo, hi, hcovers, hgood⟩ := port.run_good mem hreg hclear
  refine ⟨lo, hi, hcovers, fun calls s hrun p k n hp hn => ?_⟩
  obtain ⟨hg', hpxEnd⟩ := hgood calls s hrun
  have hn' : n.toNat ≠ 0 := fun h => hn (UInt32.toNat_inj.mp h)
  obtain ⟨s', ret, hrealloc, hstable', ⟨-, bs, hr, ht⟩, hok⟩ := hg'.realloc n.toNat_lt (.inr ⟨k, hp⟩)
  have hzero : p ≠ 0 := by
    obtain ⟨-, bs₀, -, ht₀⟩ := hg'
    rintro rfl
    cases hp.symm.trans ht₀.zero
  refine ⟨s', ret, hrealloc, ⟨bs, ?_⟩, hok hn' hzero⟩
  have hend : s'.heap.pxEnd = hi := hstable'.pxEnd.trans hpxEnd
  exact hend ▸ sysOk_of_rep hr ht

/-- A heap of 256 bytes has room for 100. -/
theorem room_small {h : SysHeap} {lo n : Nat} (hr : HeapRep h lo [⟨lo, h.pxEnd - lo, none⟩])
    (hcovers : Covers 0x1000 256 lo h.pxEnd) (hpos : n ≠ 0) (hle : n ≤ 100) :
    ¬NoRoom h [⟨lo, h.pxEnd - lo, none⟩] n := by
  obtain ⟨-, hbound, -⟩ := hr.config.alignUp (n := n + 16) (by omega)
  unfold Covers at hcovers
  rintro (hzero | hlarge | hnone)
  · exact hpos hzero
  · omega
  · have hlt : h.pxEnd - lo < _ :=
      hnone ⟨lo, h.pxEnd - lo, none⟩ (by simp [Tile.free, Block.isFree])
    omega

theorem malloc_small (mem : Mem) : ∃ s ret,
    Trans.Run UserStep (Port.sram.users 16 0x1000 256 mem) [.malloc 20]
      ⟨s, afterAlloc (fun _ => none) 20 ret⟩ ∧ ret ≠ 0 := by
  obtain ⟨lo, hcovers, hc, hr⟩ := Port.sram.users_rep mem small_region (by decide)
  have hlt : (20 : UInt32).toNat < 2 ^ 32 := by decide
  obtain ⟨s, ret, hrun, -, hcases⟩ := hr.malloc hc (tracks_free rfl) hlt
  refine ⟨s, ret, .single (.malloc _ 20 s ret hrun), fun hret => ?_⟩
  rcases hcases with ⟨-, -, hroom⟩ | ⟨hne, -⟩
  · exact room_small hr hcovers (by decide) (by decide) hroom
  · exact hne hret

theorem realloc_keeps_data_small : ∃ s p s' ret,
    Trans.Run UserStep (Port.sram.users 16 0x1000 256 fun _ => 0) [.malloc 20] s ∧ s.live p = some 20 ∧
      s.machine.realloc p 40 = some (s', ret) ∧ Reallocated s.machine s' s.live p 40 ret := by
  obtain ⟨lo, hi, -, hruns⟩ := realloc_keeps_data .sram (fun _ => 0) small_region (by decide)
  obtain ⟨s, p, hrun, hp⟩ := malloc_small fun _ => 0
  have hlive : afterAlloc (fun _ => none) 20 p p = some 20 := by simp [afterAlloc, hp]
  obtain ⟨s', ret, hrealloc, -, hok⟩ := hruns _ _ hrun p 20 40 hlive (by decide)
  exact ⟨_, p, s', ret, hrun, hlive, hrealloc, hok⟩

end Heap
end XR806

import XR806.Heap.SysHeap
import XR806.Tile.Blocks

/-!
# XR806.Heap.FreeList

The free list as a list of blocks. `Chain links p l e` says that the links, from `p` on, go along
the blocks `l` and end at `e`. The loops of `sys_heap.c` find a block in such a chain, and
`insertBlockIntoFreeList_spec` says what an insertion makes of it: the block joined with the free
neighbours it has.
-/

namespace XR806
namespace Heap

open Tile

variable {α : Type}

/-- From `p` on the links go along the blocks `l`, and end at `e`. -/
def Chain (links : Links) : Nat → List (Block α) → Nat → Prop
  | p, [], e => (links p).pxNextFreeBlock = e
  | p, b :: l, e => (links p).pxNextFreeBlock = b.addr ∧ (links b.addr).xBlockSize = b.size ∧
    Chain links b.addr l e

/-- The first address of a chain that ends at `e`. -/
def headAddr (l : List (Block α)) (e : Nat) : Nat := (l.head?.map Block.addr).getD e

/-- The last link of a chain that starts at `p`. -/
def lastAddr (p : Nat) (l : List (Block α)) : Nat := (l.getLast?.map Block.addr).getD p

@[simp] theorem headAddr_nil (e : Nat) : headAddr ([] : List (Block α)) e = e := rfl

@[simp] theorem headAddr_cons (b : Block α) (l : List (Block α)) (e : Nat) :
    headAddr (b :: l) e = b.addr := rfl

@[simp] theorem lastAddr_nil (p : Nat) : lastAddr p ([] : List (Block α)) = p := rfl

@[simp] theorem lastAddr_cons (p : Nat) (b : Block α) (l : List (Block α)) :
    lastAddr p (b :: l) = lastAddr b.addr l := by
  cases l with
  | nil => rfl
  | cons c l => simp [lastAddr, List.getLast?_cons]

@[simp] theorem lastAddr_append_singleton (p : Nat) (l : List (Block α)) (b : Block α) :
    lastAddr p (l ++ [b]) = b.addr := by simp [lastAddr]

theorem lastAddr_mem (p : Nat) (l : List (Block α)) :
    lastAddr p l = p ∨ ∃ b ∈ l, lastAddr p l = b.addr := by
  rcases List.eq_nil_or_concat l with rfl | ⟨l', b, rfl⟩
  · exact .inl rfl
  · exact .inr ⟨b, by simp, by simp⟩

theorem ne_lastAddr {a p : Nat} {l : List (Block α)} (hp : a ≠ p) (hl : ∀ b ∈ l, a ≠ b.addr) :
    a ≠ lastAddr p l := by
  rcases lastAddr_mem p l with heq | ⟨b, hb, heq⟩
  · rwa [heq]
  · rw [heq]
    exact hl b hb

/-! ## Chains -/

section

variable {links links' : Links} {p p' e e' : Nat} {b : Block α} {l r : List (Block α)}

theorem Chain.next (h : Chain links p l e) : (links p).pxNextFreeBlock = headAddr l e := by
  cases l with
  | nil => exact h
  | cons b l => exact h.1

theorem chain_append_cons : Chain links p (l ++ b :: r) e ↔
    Chain links p l b.addr ∧ (links b.addr).xBlockSize = b.size ∧ Chain links b.addr r e := by
  induction l generalizing p with
  | nil => exact Iff.rfl
  | cons c l ih =>
    simp only [List.cons_append, Chain, ih]
    tauto

theorem chain_append : Chain links p (l ++ r) e ↔
    Chain links p l (headAddr r e) ∧ Chain links (lastAddr p l) r e := by
  induction l generalizing p with
  | nil =>
    refine ⟨fun h => ⟨Chain.next h, h⟩, fun h => h.2⟩
  | cons b l ih =>
    simp only [List.cons_append, Chain, lastAddr_cons, ih]
    tauto

/-- A chain may start elsewhere, and depends on its own links only. -/
theorem Chain.of_next (h : Chain links p l e) (hnext : (links' p').pxNextFreeBlock = headAddr l e)
    (hlinks : ∀ b ∈ l, links' b.addr = links b.addr) : Chain links' p' l e := by
  induction l generalizing p p' with
  | nil => exact hnext
  | cons b l ih =>
    obtain ⟨-, hsize, hrest⟩ := h
    have hb := hlinks b List.mem_cons_self
    refine ⟨hnext, by rw [hb, hsize], ?_⟩
    refine ih hrest (by rw [hb, hrest.next]) ?_
    intro c hc
    exact hlinks c (List.mem_cons_of_mem _ hc)

theorem Chain.congr (h : Chain links p l e) (hp : links' p = links p)
    (hlinks : ∀ b ∈ l, links' b.addr = links b.addr) : Chain links' p l e :=
  h.of_next (by rw [hp, h.next]) hlinks

/-- The last link of a chain is set to another end. -/
theorem Chain.retarget (h : Chain links p l e) (hsorted : (p :: l.map Block.addr).Nodup)
    (hlast : (links' (lastAddr p l)).pxNextFreeBlock = e')
    (hsize : ∀ a, (links' a).xBlockSize = (links a).xBlockSize)
    (hlinks : ∀ a, a ≠ lastAddr p l → a ∈ p :: l.map Block.addr → links' a = links a) :
    Chain links' p l e' := by
  induction l generalizing p with
  | nil => exact hlast
  | cons b l ih =>
    obtain ⟨hnext, hb, hrest⟩ := h
    rw [lastAddr_cons] at hlast hlinks
    rw [List.map_cons, List.nodup_cons] at hsorted
    have hp : links' p = links p := by
      refine hlinks p ?_ List.mem_cons_self
      intro heq
      refine hsorted.1 ?_
      rcases lastAddr_mem b.addr l with h | ⟨c, hc, h⟩
      · rw [heq, h]
        exact List.mem_cons_self
      · rw [heq, h]
        exact List.mem_cons_of_mem _ (List.mem_map_of_mem hc)
    refine ⟨by rw [hp, hnext], by rw [hsize, hb], ih hrest hsorted.2 hlast ?_⟩
    intro a hne ha
    exact hlinks a hne (List.mem_cons_of_mem _ ha)

/-- A block is taken out of the list. -/
theorem Chain.unlink (h : Chain links p (l ++ b :: r) e)
    (hnodup : (p :: (l ++ b :: r).map Block.addr).Nodup) :
    Chain (Function.update links (lastAddr p l)
      ⟨headAddr r e, (links (lastAddr p l)).xBlockSize⟩) p (l ++ r) e := by
  rw [List.map_append, List.map_cons, ← List.cons_append, List.nodup_append] at hnodup
  obtain ⟨hfront, hbehind, hdisjoint⟩ := hnodup
  have hmem : lastAddr p l ∈ p :: l.map Block.addr := by
    rcases lastAddr_mem p l with heq | ⟨c, hc, heq⟩
    · rw [heq]
      exact List.mem_cons_self
    · rw [heq]
      exact List.mem_cons_of_mem _ (List.mem_map_of_mem hc)
  obtain ⟨hl, -, hr⟩ := chain_append_cons.mp h
  refine chain_append.mpr ⟨hl.retarget hfront (by simp) ?_ ?_, hr.of_next (by simp) ?_⟩
  · intro a
    by_cases ha : a = lastAddr p l
    · subst ha
      simp
    · simp [ha]
  · intro a ha _
    simp [ha]
  · intro c hc
    have hne : c.addr ≠ lastAddr p l := fun heq =>
      hdisjoint _ hmem _ (List.mem_cons_of_mem _ (List.mem_map_of_mem hc)) heq.symm
    simp [hne]

end

/-! ## The loops -/

section

variable {h : SysHeap} {p e fuel : Nat} {b : Block α} {l r : List (Block α)}

theorem findPlace_spec {block : Nat} (hchain : Chain h.links p (l ++ r) e)
    (hl : ∀ b ∈ l, b.addr < block) (hr : block ≤ headAddr r e) (hfuel : l.length < fuel) :
    findPlace h block fuel p = some (lastAddr p l) := by
  induction l generalizing p fuel with
  | nil =>
    obtain ⟨fuel, rfl⟩ : ∃ k, fuel = k + 1 := ⟨fuel - 1, by omega⟩
    have hnext : h.next p = headAddr r e := hchain.next
    rw [findPlace, if_neg (by omega)]
    rfl
  | cons b l ih =>
    obtain ⟨fuel, rfl⟩ : ∃ k, fuel = k + 1 := ⟨fuel - 1, by omega⟩
    obtain ⟨hnext, -, hrest⟩ := hchain
    have hb := hl b List.mem_cons_self
    rw [findPlace, SysHeap.next, hnext, if_pos hb, lastAddr_cons]
    refine ih hrest ?_ (Nat.lt_of_succ_lt_succ hfuel)
    intro c hc
    exact hl c (List.mem_cons_of_mem _ hc)

/-- A walk that skips the blocks `l` and not the one behind them. -/
theorem walkFree_spec {skip : Nat → Bool} (hchain : Chain h.links p (l ++ r) e)
    (hend : h.next e = 0) (he : e ≠ 0) (hpos : ∀ b ∈ l ++ r, b.addr ≠ 0)
    (hl : ∀ b ∈ l, skip b.addr) (hr : ∀ b ∈ r.head?, ¬skip b.addr) (hfuel : l.length < fuel) :
    walkFree h skip fuel p (h.next p) = some (lastAddr p l, headAddr r e) := by
  induction l generalizing p fuel with
  | nil =>
    obtain ⟨fuel, rfl⟩ : ∃ k, fuel = k + 1 := ⟨fuel - 1, by omega⟩
    have hnext : h.next p = headAddr r e := hchain.next
    rw [walkFree, hnext, if_neg]
    · rfl
    · rintro ⟨hskip, hne⟩
      cases r with
      | nil => exact hne hend
      | cons b r => exact hr b rfl hskip
  | cons b l ih =>
    obtain ⟨fuel, rfl⟩ : ∃ k, fuel = k + 1 := ⟨fuel - 1, by omega⟩
    obtain ⟨hnext, -, hrest⟩ := hchain
    have hnext' : h.next b.addr = headAddr (l ++ r) e := hrest.next
    have hne : h.next b.addr ≠ 0 := by
      rw [hnext']
      cases hlr : l ++ r with
      | nil => exact he
      | cons c cs => exact hpos c (by simp [hlr])
    rw [walkFree, SysHeap.next, hnext, if_pos ⟨hl b List.mem_cons_self, hne⟩, lastAddr_cons]
    refine ih hrest ?_ ?_ (Nat.lt_of_succ_lt_succ hfuel)
    · intro c hc
      exact hpos c (List.mem_cons_of_mem _ hc)
    · intro c hc
      exact hl c (List.mem_cons_of_mem _ hc)

end

/-! ## Insertion -/

/-- What an insertion starts from: the blocks `as` and `bs` around `b`, the free neighbours `l` and
`r` of `b`, and the free list without `b`. -/
structure Insertion (h : SysHeap) (lo : Nat) (as : List (Block α)) (l : Option (Block α))
    (b : Block α) (r : Option (Block α)) (bs : List (Block α)) : Prop where
  tiles : Tiles lo (as ++ l.toList ++ b :: (r.toList ++ bs)) h.pxEnd
  left : ∀ p ∈ l, p.isFree
  right : ∀ q ∈ r, q.isFree
  last : ∀ p ∈ as.getLast?, ¬p.isFree
  first : ∀ q ∈ bs.head?, ¬q.isFree
  chain : Chain h.links h.xStart (free (as ++ l.toList) ++ free (r.toList ++ bs)) h.pxEnd
  size : h.size b.addr = b.size
  start : h.size h.xStart = 0
  outside : h.xStart < lo ∨ h.pxEnd < h.xStart
  range : h.xStart < 2 ^ 32 ∧ h.pxEnd < 2 ^ 32
  room : h.pxEnd ≤ lo + h.configTotalHeapSize

section

variable {h : SysHeap} {lo : Nat} {as bs : List (Block α)} {b : Block α}
  {l r : Option (Block α)}

namespace Insertion

variable (hi : Insertion h lo as l b r bs)

include hi

theorem parts : ∃ mid, Tiles lo as mid ∧ Tiles mid l.toList b.addr ∧ 0 < b.size ∧
    ∃ mid', Tiles b.next r.toList mid' ∧ Tiles mid' bs h.pxEnd := by
  have htiles := hi.tiles
  simp only [List.append_assoc, tiles_append, tiles_cons] at htiles
  obtain ⟨mid, has, mid₂, hl, hb, hpos, mid', hr, hbs⟩ := htiles
  exact ⟨mid, has, hb ▸ hl, hpos, mid', hr, hbs⟩

/-- The blocks in front of `b`, but for its neighbour, do not touch it. -/
theorem lt_addr {f : Block α} (hf : f ∈ free as) : lo ≤ f.addr ∧ f.next < b.addr := by
  obtain ⟨mid, has, hl, -⟩ := hi.parts
  exact ⟨(has.mem (mem_free.mp hf).1).1, Nat.lt_of_lt_of_le (has.free_lt hi.last hf) hl.le⟩

/-- Those behind it do not either. -/
theorem next_lt {f : Block α} (hf : f ∈ free bs) : b.next < f.addr ∧ f.next ≤ h.pxEnd := by
  obtain ⟨-, -, -, -, mid', hr, hbs⟩ := hi.parts
  exact ⟨Nat.lt_of_le_of_lt hr.le (hbs.lt_free hi.first hf), (hbs.mem (mem_free.mp hf).1).2.2⟩

theorem left_addr {p : Block α} (hp : l = some p) : lo ≤ p.addr ∧ p.next = b.addr ∧ 0 < p.size := by
  obtain ⟨mid, has, hl, -⟩ := hi.parts
  subst hp
  obtain ⟨haddr, hpos, hnext⟩ := hl
  have := has.le
  exact ⟨by omega, hnext, hpos⟩

theorem right_addr {q : Block α} (hq : r = some q) :
    q.addr = b.next ∧ 0 < q.size ∧ q.next ≤ h.pxEnd := by
  obtain ⟨-, -, -, -, mid', hr, hbs⟩ := hi.parts
  subst hq
  obtain ⟨haddr, hpos, hnext⟩ := hr
  have := hbs.le
  exact ⟨haddr, hpos, by rw [hnext]; exact this⟩

theorem addr_range : lo ≤ b.addr ∧ 0 < b.size ∧ b.next ≤ h.pxEnd := by
  obtain ⟨mid, has, hl, hpos, mid', hr, hbs⟩ := hi.parts
  exact ⟨Nat.le_trans has.le hl.le, hpos, Nat.le_trans hr.le hbs.le⟩

theorem chain' : Chain h.links h.xStart (free as ++ l.toList ++ (r.toList ++ free bs)) h.pxEnd := by
  have hchain := hi.chain
  rwa [free_append, free_append, free_toList hi.left, free_toList hi.right] at hchain

/-- The link in front of `b`. -/
theorem findPlace : findPlace h b.addr (h.configTotalHeapSize + 1) h.xStart =
    some (lastAddr h.xStart (free as ++ l.toList)) := by
  have hrange := hi.addr_range
  refine findPlace_spec hi.chain' ?_ ?_ ?_
  · intro f hf
    rcases List.mem_append.mp hf with hf | hf
    · have := (hi.lt_addr hf).2
      unfold Block.next at this
      omega
    · have hp := hi.left_addr (Option.mem_toList.mp hf)
      unfold Block.next at hp
      omega
  · cases hr : r with
    | some q =>
      have hq := (hi.right_addr hr).1
      unfold Block.next at hq
      simp only [Option.toList_some, List.cons_append, headAddr_cons]
      omega
    | none =>
      cases hbs : free bs with
      | nil =>
        unfold Block.next at hrange
        simp only [Option.toList_none, List.nil_append, headAddr_nil]
        omega
      | cons q qs =>
        have hq := (hi.next_lt (f := q) (by simp [hbs])).1
        unfold Block.next at hq
        simp only [Option.toList_none, List.nil_append, headAddr_cons]
        omega
  · have hlen := hi.tiles.length_le
    have hroom := hi.room
    have hfree : (free as).length ≤ as.length := List.length_filter_le ..
    simp only [List.length_append, List.length_cons] at hlen ⊢
    omega

theorem size_left {p : Block α} (hp : l = some p) : h.size p.addr = p.size := by
  have hchain := hi.chain'
  rw [hp, Option.toList_some, List.append_assoc, List.singleton_append, chain_append_cons] at hchain
  exact hchain.2.1

theorem mergeFront : mergeFront h (lastAddr h.xStart (free as ++ l.toList)) b.addr =
    (h.setSize (l.getD b).addr ((l.map Block.size).getD 0 + b.size), (l.getD b).addr) := by
  have hrange := hi.addr_range
  have hbits := hi.range
  have hout := hi.outside
  simp only [Block.next] at hrange
  cases hl : l with
  | some p =>
    obtain ⟨hlo, hnext, hpos⟩ := hi.left_addr hl
    have hp := hi.size_left hl
    simp only [Block.next] at hnext
    simp only [Option.toList_some, lastAddr_append_singleton, Heap.mergeFront, hp, hi.size,
      Option.getD_some, Option.map_some]
    rw [u32_of_lt (by omega), if_pos hnext, u32_of_lt (by omega)]
  | none =>
    have hsame : h.setSize b.addr b.size = h := by
      rw [SysHeap.setSize, ← hi.size]
      exact congrArg (fun links => { h with links }) (Function.update_eq_self ..)
    simp only [Option.toList_none, List.append_nil, Heap.mergeFront, Option.getD_none,
      Option.map_none, Nat.zero_add, hsame]
    rw [if_neg]
    -- the link in front is `xStart`, or a block that does not touch
    rcases lastAddr_mem h.xStart (free as) with hstart | ⟨f, hf, hlast⟩
    · rw [hstart, hi.start, Nat.add_zero, u32_of_lt hbits.1]
      omega
    · obtain ⟨l', r', hsplit⟩ := List.append_of_mem hf
      have hchain := hi.chain'
      rw [hl, hsplit, Option.toList_none, List.append_nil, List.append_assoc, List.cons_append,
        chain_append_cons] at hchain
      have hsize : h.size f.addr = f.size := hchain.2.1
      have hlt := (hi.lt_addr hf).2
      unfold Block.next at hlt
      rw [hlast, hsize, u32_of_lt (by omega)]
      omega

/-- The joined block starts where `b` does, or where its left neighbour does. -/
theorem joined_addr : lo ≤ (l.getD b).addr ∧
    (l.getD b).addr + ((l.map Block.size).getD 0 + b.size) = b.next ∧
    (l.getD b).addr < b.next := by
  have hrange := hi.addr_range
  cases hl : l with
  | none => exact ⟨hrange.1, by simp [Block.next], by simp [Block.next]; omega⟩
  | some p =>
    obtain ⟨hlo, hnext, hpos⟩ := hi.left_addr hl
    simp only [Block.next, Option.getD_some, Option.map_some] at hnext hrange ⊢
    exact ⟨hlo, by omega, by omega⟩

theorem mergeBehind : mergeBehind
    (h.setSize (l.getD b).addr ((l.map Block.size).getD 0 + b.size))
    (lastAddr h.xStart (free as ++ l.toList)) (l.getD b).addr =
      h.setLink (l.getD b).addr ⟨headAddr (free bs) h.pxEnd, (join l b r).size⟩ := by
  obtain ⟨hlo, hsum, hlt⟩ := hi.joined_addr
  have hrange := hi.addr_range
  have hbits := hi.range
  set y := (l.getD b).addr
  set n := (l.map Block.size).getD 0 + b.size with hn
  have hlast := (chain_append.mp hi.chain').2
  have hsize : (h.setSize y n).size y = n := by simp [SysHeap.size, SysHeap.setSize]
  have hnext : ∀ a, (h.setSize y n).next a = h.next a := by
    intro a
    by_cases ha : a = y
    · subst ha
      simp [SysHeap.next, SysHeap.setSize]
    · simp [SysHeap.next, SysHeap.setSize, ha]
  have hfinal : ∀ m k, ((h.setSize y n).setNext y k).links y = ⟨k, n⟩ ∧
      ((h.setSize y n).setSize y m).setNext y k = h.setLink y ⟨k, m⟩ ∧
      (h.setSize y n).setNext y k = h.setLink y ⟨k, n⟩ := by
    intro m k
    simp [SysHeap.setSize, SysHeap.setNext, SysHeap.setLink]
  rw [Heap.mergeBehind, hsize, hnext, u32_of_lt (by omega), hsum]
  have hlast' : h.next (lastAddr h.xStart (free as ++ l.toList)) =
      headAddr (r.toList ++ free bs) h.pxEnd := hlast.next
  rw [hlast']
  cases hr : r with
  | some q =>
    obtain ⟨haddr, hpos, hqnext⟩ := hi.right_addr hr
    have hq := hlast
    rw [hr] at hq
    have hqsize : h.size q.addr = q.size := hq.2.1
    have hqlink : h.next q.addr = headAddr (free bs) h.pxEnd := hq.2.2.next
    have hne : q.addr ≠ y := by omega
    have hqs : (h.setSize y n).size q.addr = q.size := by
      rw [← hqsize]
      simp [SysHeap.size, SysHeap.setSize, hne]
    have hqn : ((h.setSize y n).setSize y (n + q.size)).next q.addr = h.next q.addr := by
      simp [SysHeap.next, SysHeap.setSize, hne]
    have hend : q.addr + q.size ≤ h.pxEnd := hqnext
    have hpxEnd : (h.setSize y n).pxEnd = h.pxEnd := rfl
    simp only [Option.toList_some, List.cons_append, headAddr_cons, hpxEnd]
    rw [if_pos haddr.symm, if_pos (by omega), hqs, u32_of_lt (by omega), hqn, hqlink,
      (hfinal _ _).2.1]
    simp [join, ← hn]
  | none =>
    simp only [Option.toList_none, List.nil_append]
    have hjoin : (join l b none).size = n := by simp [join, hn]
    have hpxEnd : (h.setSize y n).pxEnd = h.pxEnd := rfl
    rw [hjoin, hpxEnd]
    cases hbs : free bs with
    | nil =>
      simp only [headAddr_nil, ne_eq, not_true, if_false, ite_self]
      exact (hfinal 0 _).2.2
    | cons f fs =>
      have hf := (hi.next_lt (f := f) (by simp [hbs])).1
      have hne : b.next ≠ headAddr (f :: fs) h.pxEnd := by
        rw [headAddr_cons]
        omega
      exact (if_neg hne).trans (hfinal 0 _).2.2

theorem notMem {a : Nat} (ha : a = h.xStart ∨ a = h.pxEnd) : a ≠ (l.getD b).addr ∧
    (∀ f ∈ free as, a ≠ f.addr) ∧ ∀ f ∈ free bs, a ≠ f.addr := by
  obtain ⟨hlo, -, hlt⟩ := hi.joined_addr
  have hrange := hi.addr_range
  have hout := hi.outside
  refine ⟨by rcases ha with rfl | rfl <;> omega, ?_, ?_⟩
  · intro f hf
    obtain ⟨h1, h2⟩ := hi.lt_addr hf
    unfold Block.next at h2 hrange
    rcases ha with rfl | rfl <;> omega
  · intro f hf
    obtain ⟨h1, h2⟩ := hi.next_lt hf
    have hpos := ((hi.tiles.mem (b := f) (by simp [(mem_free.mp hf).1])).2.1)
    unfold Block.next at h1 h2 hrange
    rcases ha with rfl | rfl <;> omega

/-- The free blocks in front are not the one `b` is joined to. -/
theorem ne_joined {f : Block α} (hf : f ∈ free as) : f.addr ≠ (l.getD b).addr := by
  obtain ⟨mid, has, hl, -⟩ := hi.parts
  have hmem := has.mem (mem_free.mp hf).1
  have hlt := (hi.lt_addr hf).2
  unfold Block.next at hmem hlt
  cases l with
  | none => simp only [Option.getD_none]; omega
  | some p =>
    have := hl.1
    simp only [Option.getD_some]
    omega

/-- The free blocks behind are none of those in front. -/
theorem ne_front {f : Block α} (hf : f ∈ free bs) : f.addr ≠ (l.getD b).addr ∧
    f.addr ≠ h.xStart ∧ ∀ g ∈ free as, f.addr ≠ g.addr := by
  obtain ⟨-, -, hlt⟩ := hi.joined_addr
  have hnext := hi.next_lt hf
  refine ⟨by omega, (hi.notMem (.inl rfl)).2.2 f hf |>.symm, ?_⟩
  intro g hg
  have := (hi.lt_addr hg).2
  have hb := hi.addr_range
  unfold Block.next at this hnext
  omega

theorem nodup_front : (h.xStart :: (free as).map Block.addr).Nodup := by
  obtain ⟨mid, has, -⟩ := hi.parts
  refine List.nodup_cons.mpr ⟨?_, has.nodup.sublist (List.filter_sublist.map _)⟩
  intro hmem
  obtain ⟨f, hf, heq⟩ := List.mem_map.mp hmem
  exact (hi.notMem (.inl rfl)).2.1 f hf heq.symm

/-- The free list once the joined block has its link and the link in front of it is right. -/
theorem chain_of_links {links : Links} (hfront : Chain links h.xStart (free as) (l.getD b).addr)
    (hjoined : links (l.getD b).addr = ⟨headAddr (free bs) h.pxEnd, (join l b r).size⟩)
    (hbehind : ∀ f ∈ free bs, links f.addr = h.links f.addr) :
    Chain links h.xStart (free as ++ join l b r :: free bs) h.pxEnd := by
  refine chain_append_cons.mpr ⟨hfront, by rw [join, hjoined]; rfl, ?_⟩
  have htail := (chain_append.mp (chain_append.mp hi.chain').2).2
  exact htail.of_next (by rw [join, hjoined]) hbehind

/-- The joined block takes its place in the free list. Only links of free blocks change. -/
theorem spec : ∃ links, insertBlockIntoFreeList h b.addr = some { h with links } ∧
    Chain links h.xStart (free as ++ join l b r :: free bs) h.pxEnd ∧
    (links h.xStart).xBlockSize = 0 ∧
    ∀ a, a ≠ h.xStart → a ≠ (l.getD b).addr → (∀ f ∈ free as, a ≠ f.addr) →
      links a = h.links a := by
  have hne : h.xStart ≠ (l.getD b).addr := (hi.notMem (.inl rfl)).1
  have hstart : (h.links h.xStart).xBlockSize = 0 := hi.start
  set iterator := lastAddr h.xStart (free as ++ l.toList) with hiter
  set linked := h.setLink (l.getD b).addr ⟨headAddr (free bs) h.pxEnd, (join l b r).size⟩
    with hlinked
  have hlink : ∀ a, a ≠ (l.getD b).addr → linked.links a = h.links a := by
    intro a ha
    simp [hlinked, ha]
  have hjoined : linked.links (l.getD b).addr =
      ⟨headAddr (free bs) h.pxEnd, (join l b r).size⟩ := by simp [hlinked]
  have hrun : insertBlockIntoFreeList h b.addr =
      some (if iterator ≠ (l.getD b).addr then linked.setNext iterator (l.getD b).addr
        else linked) := by
    simp only [insertBlockIntoFreeList, hi.findPlace, hi.mergeFront, hi.mergeBehind, pure,
      Option.bind_eq_bind, Option.bind_some, hiter, hlinked]
  have hlast : (∃ p, l = some p ∧ iterator = (l.getD b).addr) ∨
      l = none ∧ iterator = lastAddr h.xStart (free as) ∧ iterator ≠ (l.getD b).addr := by
    cases hl : l with
    | some p => exact .inl ⟨p, rfl, by simp [hiter, hl]⟩
    | none =>
      have hfront : iterator = lastAddr h.xStart (free as) := by simp [hiter, hl]
      refine .inr ⟨rfl, hfront, ?_⟩
      rw [← hl, hfront]
      refine (ne_lastAddr hne.symm ?_).symm
      intro f hf
      exact (hi.ne_joined hf).symm
  have hchain := hi.chain'
  rcases hlast with ⟨p, hp, hsame⟩ | ⟨hl, hfront, hdiff⟩
  · -- the block in front has taken `b` in: its own link says it all
    rw [hrun, if_neg (not_not.mpr hsame)]
    refine ⟨linked.links, rfl, hi.chain_of_links ?_ hjoined ?_, ?_, ?_⟩
    · rw [hp, Option.toList_some, List.append_assoc, List.singleton_append,
        chain_append_cons] at hchain
      have hy : (l.getD b).addr = p.addr := by rw [hp]; rfl
      rw [hy]
      refine hchain.1.congr (hlink _ hne) ?_
      intro f hf
      exact hlink _ (hi.ne_joined hf)
    · intro f hf
      exact hlink _ (hi.ne_front hf).1
    · rw [hlink _ hne, hstart]
    · intro a _ ha _
      exact hlink a ha
  · rw [hrun, if_pos hdiff]
    have hset : ∀ a, a ≠ iterator →
        (linked.setNext iterator (l.getD b).addr).links a = linked.links a := by
      intro a ha
      simp [SysHeap.setNext, ha]
    have hiterator : ∀ a, a ≠ h.xStart → (∀ f ∈ free as, a ≠ f.addr) → a ≠ iterator := by
      intro a ha hfs
      rw [hfront]
      exact ne_lastAddr ha hfs
    have hsizes : ∀ a, ((linked.setNext iterator (l.getD b).addr).links a).xBlockSize =
        (linked.links a).xBlockSize := by
      intro a
      by_cases ha : a = iterator
      · subst ha
        simp [SysHeap.setNext]
      · rw [hset a ha]
    refine ⟨(linked.setNext iterator (l.getD b).addr).links, rfl, hi.chain_of_links ?_ ?_ ?_,
      ?_, ?_⟩
    · have hchain' := (chain_append.mp (chain_append.mp hchain).1).1
      have hlinked' : Chain linked.links h.xStart (free as) (headAddr l.toList
          (headAddr (r.toList ++ free bs) h.pxEnd)) := by
        refine hchain'.congr (hlink _ hne) ?_
        intro f hf
        exact hlink _ (hi.ne_joined hf)
      refine hlinked'.retarget hi.nodup_front ?_ hsizes ?_
      · rw [← hfront]
        simp [SysHeap.setNext]
      · intro a ha _
        exact hset a (by rw [hfront]; exact ha)
    · rw [hset _ hdiff.symm, hjoined]
    · intro f hf
      obtain ⟨h1, h2, h3⟩ := hi.ne_front hf
      rw [hset _ (hiterator _ h2 h3), hlink _ h1]
    · rw [hsizes, hlink _ hne, hstart]
    · intro a h1 h2 h3
      rw [hset _ (hiterator a h1 h3), hlink a h2]

end Insertion

end

end Heap
end XR806

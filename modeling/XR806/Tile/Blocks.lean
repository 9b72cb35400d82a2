import Mathlib.Data.List.Chain
import Mathlib.Tactic.Ring

/-!
# Tile.Blocks

Intervals tiled by blocks, each free or owned. This is what a heap is once the pointers are
forgotten: blocks end to end, and no two free ones next to each other.

* `Tiles lo bs hi`: the blocks `bs` lie end to end from `lo` to `hi`;
* `free bs`: the free blocks, in order;
* `Apart bs`: no two neighbours are free;
* `carve f s a`: a free block from which the first `s` bytes are given to an owner;
* `join l b r`: a block with the free neighbours it has.
-/

namespace Tile

structure Block (α : Type) where
  addr : Nat
  size : Nat
  owner : Option α

variable {α : Type}

namespace Block

/-- The address behind the block. -/
def next (b : Block α) : Nat := b.addr + b.size

def isFree (b : Block α) : Bool := b.owner.isNone

end Block

/-- The blocks lie end to end from `lo` to `hi`. -/
def Tiles : Nat → List (Block α) → Nat → Prop
  | lo, [], hi => lo = hi
  | lo, b :: bs, hi => b.addr = lo ∧ 0 < b.size ∧ Tiles b.next bs hi

/-- The free blocks. -/
def free (bs : List (Block α)) : List (Block α) := bs.filter (·.isFree)

/-- No two neighbours are free. -/
def Apart (bs : List (Block α)) : Prop := bs.IsChain fun a b => ¬(a.isFree ∧ b.isFree)

/-- The bytes of the free blocks. -/
def freeBytes (bs : List (Block α)) : Nat := ((free bs).map (·.size)).sum

/-! ## Tilings -/

section

variable {lo mid hi : Nat} {b : Block α} {as bs : List (Block α)}

@[simp] theorem tiles_nil : Tiles lo ([] : List (Block α)) hi ↔ lo = hi := Iff.rfl

@[simp] theorem tiles_cons :
    Tiles lo (b :: bs) hi ↔ b.addr = lo ∧ 0 < b.size ∧ Tiles b.next bs hi := Iff.rfl

theorem tiles_append :
    Tiles lo (as ++ bs) hi ↔ ∃ mid, Tiles lo as mid ∧ Tiles mid bs hi := by
  induction as generalizing lo with
  | nil => simp
  | cons a as ih =>
    simp only [List.cons_append, tiles_cons, ih]
    constructor
    · rintro ⟨h1, h2, mid, h3, h4⟩
      exact ⟨mid, ⟨h1, h2, h3⟩, h4⟩
    · rintro ⟨mid, ⟨h1, h2, h3⟩, h4⟩
      exact ⟨h1, h2, mid, h3, h4⟩

theorem Tiles.le (h : Tiles lo bs hi) : lo ≤ hi := by
  induction bs generalizing lo with
  | nil => exact Nat.le_of_eq h
  | cons b bs ih =>
    have := ih h.2.2
    unfold Block.next at this
    have := h.1
    omega

/-- Every block has at least one byte. -/
theorem Tiles.length_le (h : Tiles lo bs hi) : lo + bs.length ≤ hi := by
  induction bs generalizing lo with
  | nil => exact Nat.le_of_eq h
  | cons b bs ih =>
    have hrest := ih h.2.2
    obtain ⟨haddr, hpos, -⟩ := h
    simp only [Block.next, List.length_cons] at hrest ⊢
    omega

theorem Tiles.mem (h : Tiles lo bs hi) (hb : b ∈ bs) : lo ≤ b.addr ∧ 0 < b.size ∧ b.next ≤ hi := by
  induction bs generalizing lo with
  | nil => cases hb
  | cons a bs ih =>
    obtain ⟨haddr, hpos, hrest⟩ := h
    have hle := hrest.le
    cases hb with
    | head => exact ⟨Nat.le_of_eq haddr.symm, hpos, hle⟩
    | tail _ hb =>
      obtain ⟨h1, h2, h3⟩ := ih hrest hb
      unfold Block.next at h1
      exact ⟨by omega, h2, h3⟩

/-- A block that comes later lies behind. -/
theorem Tiles.pairwise (h : Tiles lo bs hi) : bs.Pairwise fun a b => a.next ≤ b.addr := by
  induction bs generalizing lo with
  | nil => exact List.Pairwise.nil
  | cons b bs ih => exact List.pairwise_cons.mpr ⟨fun c hc => (h.2.2.mem hc).1, ih h.2.2⟩

theorem Tiles.nodup (h : Tiles lo bs hi) : (bs.map Block.addr).Nodup := by
  have hpos : ∀ b ∈ bs, 0 < b.size := fun b hb => (h.mem hb).2.1
  have hlt := h.pairwise.imp_of_mem (S := fun a b => a.addr ≠ b.addr) ?_
  · exact List.pairwise_map.mpr hlt
  · intro a b ha _ hab
    have := hpos a ha
    unfold Block.next at hab
    omega

/-- Two blocks are the same, or one lies behind the other. -/
theorem Tiles.disjoint (h : Tiles lo bs hi) {a : Block α} (ha : a ∈ bs) (hb : b ∈ bs)
    (hne : a.addr ≠ b.addr) : a.next ≤ b.addr ∨ b.next ≤ a.addr := by
  induction bs generalizing lo with
  | nil => cases ha
  | cons c bs ih =>
    cases ha with
    | head =>
      cases hb with
      | head => exact absurd rfl hne
      | tail _ hb => exact .inl (h.2.2.mem hb).1
    | tail _ ha =>
      cases hb with
      | head => exact .inr (h.2.2.mem ha).1
      | tail _ hb => exact ih h.2.2 ha hb

theorem Tiles.eq_of_addr (h : Tiles lo bs hi) {a : Block α} (ha : a ∈ bs) (hb : b ∈ bs)
    (heq : a.addr = b.addr) : a = b := by
  induction bs generalizing lo with
  | nil => cases ha
  | cons c bs ih =>
    have hpos := h.2.1
    cases ha with
    | head =>
      cases hb with
      | head => rfl
      | tail _ hb =>
        have := (h.2.2.mem hb).1
        unfold Block.next at this
        omega
    | tail _ ha =>
      cases hb with
      | head =>
        have := (h.2.2.mem ha).1
        unfold Block.next at this
        omega
      | tail _ hb => exact ih h.2.2 ha hb

end

/-! ## Free blocks -/

section

variable {lo hi : Nat} {b : Block α} {as bs : List (Block α)}

theorem isFree_iff : b.isFree ↔ b.owner = none := Option.isNone_iff_eq_none

@[simp] theorem free_nil : free ([] : List (Block α)) = [] := rfl

@[simp] theorem free_append : free (as ++ bs) = free as ++ free bs := List.filter_append ..

theorem free_cons : free (b :: bs) = if b.isFree then b :: free bs else free bs :=
  List.filter_cons

@[simp] theorem free_cons_of_free (h : b.isFree) : free (b :: bs) = b :: free bs := by
  rw [free_cons, if_pos h]

@[simp] theorem free_cons_of_owned (h : ¬b.isFree) : free (b :: bs) = free bs := by
  rw [free_cons, if_neg h]

@[simp] theorem mem_free : b ∈ free bs ↔ b ∈ bs ∧ b.isFree := List.mem_filter

theorem freeBytes_append : freeBytes (as ++ bs) = freeBytes as + freeBytes bs := by
  simp [freeBytes]

theorem freeBytes_cons :
    freeBytes (b :: bs) = (if b.isFree then b.size else 0) + freeBytes bs := by
  by_cases h : b.isFree <;> simp [freeBytes, h]

/-- The free blocks are part of the tiling. -/
theorem Tiles.freeBytes_le (h : Tiles lo bs hi) : lo + freeBytes bs ≤ hi := by
  induction bs generalizing lo with
  | nil => exact Nat.le_of_eq h
  | cons b bs ih =>
    have hrest := ih h.2.2
    obtain ⟨haddr, -, -⟩ := h
    rw [freeBytes_cons]
    unfold Block.next at hrest
    split <;> omega

/-- Behind the last block, owned, the free ones do not reach. -/
theorem Tiles.free_lt (h : Tiles lo bs hi) (hlast : ∀ b ∈ bs.getLast?, ¬b.isFree)
    (hb : b ∈ free bs) : b.next < hi := by
  induction bs generalizing lo with
  | nil => cases hb
  | cons a bs ih =>
    obtain ⟨haddr, hpos, hrest⟩ := h
    cases bs with
    | nil =>
      have hmem := mem_free.mp hb
      obtain rfl := List.mem_singleton.mp hmem.1
      exact absurd hmem.2 (hlast b rfl)
    | cons c bs =>
      have hc := hrest.2.1
      have hle := hrest.2.2.le
      have haddr' := hrest.1
      simp only [Block.next] at haddr' hle
      by_cases hba : b = a
      · subst hba
        unfold Block.next
        omega
      · refine ih hrest (by simpa [List.getLast?_cons] using hlast) (mem_free.mpr ⟨?_, ?_⟩)
        · exact (List.mem_cons.mp (mem_free.mp hb).1).resolve_left hba
        · exact (mem_free.mp hb).2

/-- In front of the first block, owned, there is no free one. -/
theorem Tiles.lt_free (h : Tiles lo bs hi) (hfirst : ∀ b ∈ bs.head?, ¬b.isFree)
    (hb : b ∈ free bs) : lo < b.addr := by
  cases bs with
  | nil => cases hb
  | cons a bs =>
    rw [free_cons_of_owned (hfirst a rfl)] at hb
    have := (h.2.2.mem (mem_free.mp hb).1).1
    obtain ⟨haddr, hpos, -⟩ := h
    unfold Block.next at this
    omega

end

/-! ## A block that becomes free -/

/-- A block and the free neighbours it has, as one free block. -/
def join (l : Option (Block α)) (b : Block α) (r : Option (Block α)) : Block α where
  addr := (l.getD b).addr
  size := (l.map Block.size).getD 0 + b.size + (r.map Block.size).getD 0
  owner := none

section

variable {lo hi : Nat} {b : Block α} {l r : Option (Block α)} {as bs : List (Block α)}

/-- The blocks in front of `b`: those up to its free neighbour, and that neighbour, if any. -/
theorem exists_left (h : Apart as) : ∃ as' l, as = as' ++ Option.toList l ∧
    (∀ p ∈ l, p.isFree) ∧ (∀ p ∈ as'.getLast?, ¬p.isFree) := by
  rcases List.eq_nil_or_concat as with rfl | ⟨as', p, rfl⟩
  · exact ⟨[], none, rfl, by simp, by simp⟩
  · by_cases hp : p.isFree
    · refine ⟨as', some p, by simp, by simpa using hp, ?_⟩
      intro q hq hfree
      obtain ⟨as'', rfl⟩ := List.getLast?_eq_some_iff.mp hq
      simp [Apart, List.isChain_append, hfree, hp] at h
    · exact ⟨as' ++ [p], none, by simp, by simp, by simpa using hp⟩

/-- The blocks behind `b`: its free neighbour, if any, and those from there on. -/
theorem exists_right (h : Apart bs) : ∃ r bs', bs = Option.toList r ++ bs' ∧
    (∀ q ∈ r, q.isFree) ∧ (∀ q ∈ bs'.head?, ¬q.isFree) := by
  cases bs with
  | nil => exact ⟨none, [], rfl, by simp, by simp⟩
  | cons q bs' =>
    by_cases hq : q.isFree
    · refine ⟨some q, bs', rfl, by simpa using hq, ?_⟩
      intro p hp hfree
      cases bs' with
      | nil => cases hp
      | cons p' bs' =>
        obtain rfl := Option.some.inj hp
        simp [Apart, hq, hfree] at h
    · exact ⟨none, q :: bs', rfl, by simp, by simpa using hq⟩

theorem tiles_join (h : Tiles lo (as ++ l.toList ++ b :: (r.toList ++ bs)) hi) :
    Tiles lo (as ++ join l b r :: bs) hi := by
  simp only [List.append_assoc, tiles_append] at h ⊢
  obtain ⟨mid, has, hrest⟩ := h
  refine ⟨mid, has, ?_⟩
  cases l with
  | none =>
    cases r with
    | none => simpa [join, Block.next, Nat.add_assoc] using hrest
    | some q => simp [join, Block.next] at hrest ⊢; grind
  | some p =>
    cases r with
    | none => simp [join, Block.next] at hrest ⊢; grind
    | some q => simp [join, Block.next] at hrest ⊢; grind

theorem apart_append : Apart (as ++ bs) ↔ Apart as ∧ Apart bs ∧
    ∀ a ∈ as.getLast?, ∀ b ∈ bs.head?, ¬(a.isFree ∧ b.isFree) := List.isChain_append

theorem apart_cons_free (hbs : Apart bs) (hfirst : ∀ a ∈ bs.head?, ¬a.isFree) :
    Apart (b :: bs) := by
  refine List.isChain_cons.mpr ⟨?_, hbs⟩
  intro q hq hfree
  exact hfirst q hq hfree.2

/-- A free block may stand where both neighbours are owned. -/
theorem apart_between (has : Apart as) (hbs : Apart bs) (hlast : ∀ a ∈ as.getLast?, ¬a.isFree)
    (hfirst : ∀ a ∈ bs.head?, ¬a.isFree) : Apart (as ++ b :: bs) := by
  refine apart_append.mpr ⟨has, apart_cons_free hbs hfirst, ?_⟩
  intro a ha _ _ hfree
  exact hlast a ha hfree.1

/-- An owned block may stand anywhere. -/
theorem apart_cons_of_owned (hb : ¬b.isFree) (hbs : Apart bs) : Apart (b :: bs) := by
  refine List.isChain_cons.mpr ⟨?_, hbs⟩
  intro q _ hfree
  exact hb hfree.1

theorem apart_append_of_owned (has : Apart as) (hbs : Apart bs)
    (hfirst : ∀ b ∈ bs.head?, ¬b.isFree) : Apart (as ++ bs) := by
  refine apart_append.mpr ⟨has, hbs, ?_⟩
  intro a _ b hb hfree
  exact hfirst b hb hfree.2

theorem free_toList (hl : ∀ p ∈ l, p.isFree) : free l.toList = l.toList := by
  cases l with
  | none => rfl
  | some p => simp [hl p rfl]

@[simp] theorem isFree_join : (join l b r).isFree := rfl

theorem freeBytes_join (hl : ∀ p ∈ l, p.isFree) (hr : ∀ q ∈ r, q.isFree) :
    freeBytes (as ++ join l b r :: bs) =
      freeBytes (as ++ l.toList) + b.size + freeBytes (r.toList ++ bs) := by
  have hsum : ∀ o : Option (Block α), (∀ p ∈ o, p.isFree) →
      freeBytes o.toList = (o.map Block.size).getD 0 := by
    intro o ho
    cases o with
    | none => rfl
    | some p => simp [freeBytes, ho p rfl]
  simp only [freeBytes_append, freeBytes_cons, hsum l hl, hsum r hr, isFree_join, if_true]
  simp only [join]
  omega

end

/-! ## A free block that is given away -/

/-- The first `s` bytes of the free block `f` go to `a`, the rest, if any, stays free. -/
def carve (f : Block α) (s : Nat) (a : α) : List (Block α) :=
  ⟨f.addr, s, some a⟩ :: if s < f.size then [⟨f.addr + s, f.size - s, none⟩] else []

/-- The owner of `b` also gets the first `n` bytes of `f`, the free block behind. -/
def extend (b f : Block α) (n : Nat) (a : α) : List (Block α) :=
  [⟨b.addr, b.size + n, some a⟩, ⟨f.addr + n, f.size - n, none⟩]

section

variable {lo hi n s : Nat} {a : α} {b f : Block α} {as bs : List (Block α)}

theorem mem_carve : b ∈ carve f s a ↔
    b = ⟨f.addr, s, some a⟩ ∨ s < f.size ∧ b = ⟨f.addr + s, f.size - s, none⟩ := by
  unfold carve
  split <;> simp [*]

theorem tiles_carve (hs : 0 < s) (hle : s ≤ f.size) (h : Tiles lo (as ++ f :: bs) hi) :
    Tiles lo (as ++ (carve f s a ++ bs)) hi := by
  simp only [tiles_append, tiles_cons, carve] at h ⊢
  obtain ⟨mid, has, haddr, hpos, hbs⟩ := h
  refine ⟨mid, has, f.next, ?_, hbs⟩
  refine ⟨haddr, hs, ?_⟩
  split
  · refine ⟨rfl, by simp only; omega, ?_⟩
    simp only [tiles_nil, Block.next]
    omega
  · simp only [tiles_nil, Block.next]
    omega

theorem apart_carve (hf : f.isFree) (h : Apart (as ++ f :: bs)) :
    Apart (as ++ (carve f s a ++ bs)) := by
  obtain ⟨has, hfbs, -⟩ := apart_append.mp h
  have hbs := List.isChain_cons.mp hfbs
  have hfirst : ∀ q ∈ bs.head?, ¬q.isFree := fun q hq hfree => hbs.1 q hq ⟨hf, hfree⟩
  refine apart_append_of_owned has ?_ (by simp [carve, Block.isFree])
  refine apart_cons_of_owned (by simp [Block.isFree]) ?_
  split
  · exact apart_cons_free hbs.2 hfirst
  · exact hbs.2

theorem freeBytes_carve (hf : f.isFree) (hle : s ≤ f.size) :
    freeBytes (as ++ (carve f s a ++ bs)) + s = freeBytes (as ++ f :: bs) := by
  have howned : ¬(⟨f.addr, s, some a⟩ : Block α).isFree := by simp [Block.isFree]
  simp only [carve, freeBytes_append, freeBytes_cons, hf, if_true, if_neg howned]
  split
  · simp only [freeBytes, Block.isFree, free_cons]
    simp
    omega
  · simp only [freeBytes, free_nil, List.map_nil, List.sum_nil]
    omega

theorem free_carve : free (carve f s a ++ bs) =
    (if s < f.size then [⟨f.addr + s, f.size - s, none⟩] else []) ++ free bs := by
  rw [carve, List.cons_append, free_cons_of_owned (by simp [Block.isFree]), free_append]
  split <;> simp [free_cons, Block.isFree]

theorem free_extend : free (extend b f n a ++ bs) =
    ⟨f.addr + n, f.size - n, none⟩ :: free bs := by
  simp [extend, free_cons, Block.isFree]

theorem tiles_extend (hn : n < f.size) (h : Tiles lo (as ++ b :: f :: bs) hi) :
    Tiles lo (as ++ (extend b f n a ++ bs)) hi := by
  simp only [tiles_append, tiles_cons, tiles_nil, extend, Block.next] at h ⊢
  obtain ⟨mid, has, haddr, hb, hf, hpos, hbs⟩ := h
  refine ⟨mid, has, f.addr + f.size, ⟨haddr, by omega, by omega, by omega, by omega⟩, hbs⟩

theorem apart_extend (hf : f.isFree) (h : Apart (as ++ b :: f :: bs)) :
    Apart (as ++ (extend b f n a ++ bs)) := by
  obtain ⟨has, hbfbs, -⟩ := apart_append.mp h
  have hbs := List.isChain_cons.mp (List.isChain_cons.mp hbfbs).2
  refine apart_append_of_owned has ?_ (by simp [extend, Block.isFree])
  refine apart_cons_of_owned (by simp [Block.isFree]) ?_
  refine apart_cons_free hbs.2 ?_
  intro q hq hfree
  exact hbs.1 q hq ⟨hf, hfree⟩

theorem freeBytes_extend (hb : ¬b.isFree) (hf : f.isFree) (hn : n ≤ f.size) :
    freeBytes (as ++ (extend b f n a ++ bs)) + n = freeBytes (as ++ b :: f :: bs) := by
  simp only [extend, freeBytes_append, freeBytes_cons, hb, hf, if_true]
  simp [freeBytes, Block.isFree]
  omega

end

end Tile

import XR806.Heap.Refine
import XR806.Image.Fdcm

/-!
# XR806.Heap.Memory

The bytes under the heap: a link is eight bytes of the memory its users keep their data in. An
operation of `sys_heap.c` runs on the links that the bytes hold, and the links it changes are then
stored. `linkAt_storeLinks` and `storeLinks_of_apart` say what that leaves of the other bytes, as
long as no two links overlap.
-/

namespace XR806
namespace Heap

open Nor Image

abbrev Mem : Type := Nat → Byte

/-- The `BlockLink_t` at `a`. -/
def linkAt (mem : Mem) (a : Nat) : BlockLink where
  pxNextFreeBlock := leNat ((List.range 4).map fun i => mem (a + i))
  xBlockSize := leNat ((List.range 4).map fun i => mem (a + (4 + i)))

def linkBytes (l : BlockLink) : List Byte := leBytes 4 l.pxNextFreeBlock ++ leBytes 4 l.xBlockSize

/-- The memory with the links that differ from its own stored. -/
def storeLinks (mem : Mem) (links : Links) : Mem := fun x =>
  match (List.range 8).find? fun i => i ≤ x ∧ links (x - i) ≠ linkAt mem (x - i) with
  | some i => (linkBytes (links (x - i))).getD i 0
  | none => mem x

def memset (mem : Mem) (p : Nat) (c : Byte) (n : Nat) : Mem := fun x =>
  if p ≤ x ∧ x < p + n then c else mem x

def memcpy (mem : Mem) (dst src n : Nat) : Mem := fun x =>
  if dst ≤ x ∧ x < dst + n then mem (src + (x - dst)) else mem x

theorem memset_of_outside {mem : Mem} {p n x : Nat} {c : Byte} (h : x < p ∨ p + n ≤ x) :
    memset mem p c n x = mem x := if_neg (by omega)

theorem memset_add {mem : Mem} {p n i : Nat} {c : Byte} (h : i < n) : memset mem p c n (p + i) = c :=
  if_pos (by omega)

theorem memcpy_of_outside {mem : Mem} {dst src n x : Nat} (h : x < dst ∨ dst + n ≤ x) :
    memcpy mem dst src n x = mem x := if_neg (by omega)

theorem memcpy_add {mem : Mem} {dst src n i : Nat} (h : i < n) :
    memcpy mem dst src n (dst + i) = mem (src + i) := by
  unfold memcpy
  rw [if_pos (by omega), Nat.add_sub_cancel_left]

/-! ## Links in memory -/

section

variable {mem mem' : Mem} {links : Links} {a x : Nat} {l : BlockLink}

theorem linkAt_congr (h : ∀ i < 8, mem' (a + i) = mem (a + i)) : linkAt mem' a = linkAt mem a := by
  unfold linkAt
  congr 2
  · refine List.map_congr_left fun i hi => h i ?_
    have := List.mem_range.mp hi
    omega
  · refine List.map_congr_left fun i hi => h (4 + i) ?_
    have := List.mem_range.mp hi
    omega

/-- Both fields have 32 bits. -/
def BlockLink.Fits (l : BlockLink) : Prop := l.pxNextFreeBlock < 2 ^ 32 ∧ l.xBlockSize < 2 ^ 32

theorem linkAt_linkBytes (h : ∀ i < 8, mem (a + i) = (linkBytes l).getD i 0) (hl : l.Fits) :
    linkAt mem a = l := by
  have hnext : (List.range 4).map (fun i => mem (a + i)) = leBytes 4 l.pxNextFreeBlock := by
    simpa [List.range_succ, h, linkBytes, leBytes] using h 0 (by decide)
  have hsize : (List.range 4).map (fun i => mem (a + (4 + i))) = leBytes 4 l.xBlockSize := by
    simp [List.range_succ, h, linkBytes, leBytes]
  have h1 : l.pxNextFreeBlock < 256 ^ 4 := hl.1
  have h2 : l.xBlockSize < 256 ^ 4 := hl.2
  unfold linkAt
  rw [hnext, hsize, leNat_leBytes, leNat_leBytes, Nat.mod_eq_of_lt h1, Nat.mod_eq_of_lt h2]

/-- No two of these links overlap. -/
def Spread (P : Nat → Prop) : Prop := ∀ a b, P a → P b → a ≠ b → a + 8 ≤ b ∨ b + 8 ≤ a

variable {P : Nat → Prop}

theorem storeLinks_of_apart (hsame : ∀ a, ¬P a → links a = linkAt mem a)
    (hx : ∀ a, P a → x < a ∨ a + 8 ≤ x) : storeLinks mem links x = mem x := by
  have hnone : (List.range 8).find? (fun i => decide (i ≤ x ∧ links (x - i) ≠ linkAt mem (x - i))) =
      none := by
    refine List.find?_eq_none.mpr fun i hi => ?_
    have hlt := List.mem_range.mp hi
    rw [decide_eq_true_iff]
    rintro ⟨hle, hne⟩
    have hP : P (x - i) := by
      by_contra hP
      exact hne (hsame _ hP)
    have := hx _ hP
    omega
  unfold storeLinks
  rw [hnone]

theorem storeLinks_add (hP : Spread P) (hsame : ∀ a, ¬P a → links a = linkAt mem a) (ha : P a)
    (hne : links a ≠ linkAt mem a) {i : Nat} (hi : i < 8) :
    storeLinks mem links (a + i) = (linkBytes (links a)).getD i 0 := by
  have hsome : (List.range 8).find?
      (fun j => decide (j ≤ a + i ∧ links (a + i - j) ≠ linkAt mem (a + i - j))) = some i := by
    rw [List.find?_range_eq_some]
    refine ⟨?_, List.mem_range.mpr hi, fun j hj => ?_⟩
    · rw [decide_eq_true_iff, Nat.add_sub_cancel]
      exact ⟨Nat.le_add_left .., hne⟩
    · rw [Bool.not_eq_true', decide_eq_false_iff_not]
      rintro ⟨hle, hne'⟩
      have hPj : P (a + i - j) := by
        by_contra hPj
        exact hne' (hsame _ hPj)
      have := hP _ _ ha hPj (by omega)
      omega
  unfold storeLinks
  rw [hsome]
  dsimp only
  rw [Nat.add_sub_cancel]

theorem linkAt_storeLinks (hP : Spread P) (hsame : ∀ a, ¬P a → links a = linkAt mem a) (ha : P a)
    (hl : (links a).Fits) : linkAt (storeLinks mem links) a = links a := by
  by_cases hne : links a = linkAt mem a
  · rw [hne]
    refine linkAt_congr fun i hi => storeLinks_of_apart (P := fun b => P b ∧ b ≠ a) ?_ ?_
    · intro b hb
      by_cases hba : b = a
      · rw [hba, hne]
      · exact hsame b fun hPb => hb ⟨hPb, hba⟩
    · rintro b ⟨hPb, hba⟩
      have := hP b a hPb ha hba
      omega
  · exact linkAt_linkBytes (fun i hi => storeLinks_add hP hsame ha hne hi) hl

end

/-! ## The operations -/

/-- A heap and the memory it is in. -/
structure Machine where
  heap : SysHeap
  mem : Mem
  links : heap.links = linkAt mem

namespace Machine

/-- The memory once an operation has left the heap `h`. -/
def settle (s : Machine) (h : SysHeap) : Machine where
  heap := { h with links := linkAt (storeLinks s.mem h.links) }
  mem := storeLinks s.mem h.links
  links := rfl

/-- The same heap in other memory. -/
def fill (s : Machine) (mem : Mem) : Machine where
  heap := { s.heap with links := linkAt mem }
  mem
  links := rfl

/-- `sys_heap_malloc`. -/
def malloc (s : Machine) (size : Nat) : Option (Machine × Nat) := do
  let (h, ret) ← sysHeapMalloc s.heap size
  pure (s.settle h, ret)

/-- `sys_heap_free`. -/
def free (s : Machine) (ptr : Nat) : Option Machine := do
  let h ← sysHeapFree s.heap ptr
  pure (s.settle h)

/-- `sys_heap_calloc`. -/
def calloc (s : Machine) (nmemb size : Nat) : Option (Machine × Nat) := do
  let (s, ptr) ← s.malloc (u32 (nmemb * size))
  pure (if ptr ≠ 0 then s.fill (memset s.mem ptr 0 (u32 (nmemb * size))) else s, ptr)

/-- `sram_calloc`, of a heap that is started. -/
def sramCalloc : Machine → Nat → Nat → Option (Machine × Nat) := calloc

/-- `psram_calloc`, likewise. -/
def psramCalloc : Machine → Nat → Nat → Option (Machine × Nat) := calloc

/-- `sys_heap_realloc` when the block has to move. -/
def move (s : Machine) (ptr oldSize size : Nat) : Option (Machine × Nat) := do
  let (s, ret) ← s.malloc size
  if ret = 0 then pure (s, 0)
  else do
    let s ← (s.fill (memcpy s.mem ret ptr (if oldSize > size then size else oldSize))).free ptr
    pure (s, ret)

/-- `sys_heap_realloc`. -/
def realloc (s : Machine) (ptr size : Nat) : Option (Machine × Nat) := do
  match ← reallocWay s.heap ptr size with
  | .null => pure (s, 0)
  | .free => do
    let s ← s.free ptr
    pure (s, 0)
  | .malloc size => s.malloc size
  | .stay => pure (s, ptr)
  | .grow old previous block addSize => do
    let h ← growBlock s.heap old previous block addSize
    pure (s.settle h, ptr)
  | .move oldSize size => s.move ptr oldSize size

end Machine

/-- How many bytes the user of `p` has. -/
def usable (h : SysHeap) (p : Nat) : Nat :=
  sub32 (clearBits (h.size (sub32 p h.xHeapStructSize)) h.xBlockAllocatedBit) h.xHeapStructSize

end Heap
end XR806

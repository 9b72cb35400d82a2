import Mathlib.Logic.Function.Basic
import XR806.Word

/-!
# XR806.Heap.SysHeap

The heap of `sys_heap.c`. Every block starts with a `BlockLink_t`; the free ones are linked in the
order of their addresses, from `xStart` to `pxEnd`, and an allocated one has no next block and the
top bit of its size set.

Memory holds the links, by address; what users keep in their blocks is not modelled, so
`memset` and `memcpy` are left out. Addresses and sizes have 32 bits, and 0 is `NULL`. A walk along
the free list takes at most as many steps as the heap has bytes; `none` is a walk that has not
ended by then.
-/

namespace XR806
namespace Heap

/-- `BlockLink_t`. -/
structure BlockLink where
  pxNextFreeBlock : Nat
  xBlockSize : Nat
  deriving DecidableEq

/-- The links in memory, by address. -/
abbrev Links : Type := Nat → BlockLink

/-- `sys_heap_t`, and the memory it is in charge of. -/
structure SysHeap where
  heapBitsPerByte : Nat
  portByteAlignment : Nat
  portByteAlignmentMask : Nat
  configTotalHeapSize : Nat
  heapMinmunBlockSize : Nat
  xHeapStructSize : Nat
  ucHeap : Nat
  /-- The address of `xStart`. -/
  xStart : Nat
  pxEnd : Nat
  xFreeBytesRemaining : Nat
  xMinimumEverFreeBytesRemaining : Nat
  xBlockAllocatedBit : Nat
  links : Links

namespace SysHeap

def next (h : SysHeap) (p : Nat) : Nat := (h.links p).pxNextFreeBlock

def size (h : SysHeap) (p : Nat) : Nat := (h.links p).xBlockSize

def setLink (h : SysHeap) (p : Nat) (l : BlockLink) : SysHeap :=
  { h with links := Function.update h.links p l }

@[simp] theorem setLink_links (h : SysHeap) (p : Nat) (l : BlockLink) :
    (h.setLink p l).links = Function.update h.links p l := rfl

theorem setLink_setLink (h : SysHeap) (p : Nat) (l l' : BlockLink) :
    (h.setLink p l).setLink p l' = h.setLink p l' := by
  simp [setLink]

/-- `p->pxNextFreeBlock = q`. -/
def setNext (h : SysHeap) (p q : Nat) : SysHeap := h.setLink p { h.links p with pxNextFreeBlock := q }

/-- `p->xBlockSize = n`. -/
def setSize (h : SysHeap) (p n : Nat) : SysHeap := h.setLink p { h.links p with xBlockSize := n }

section

variable (h : SysHeap) (p q n a : Nat)

@[simp] theorem size_setSize : (h.setSize p n).size a = if a = p then n else h.size a := by
  by_cases ha : a = p
  · subst ha
    simp [size, setSize]
  · simp [size, setSize, ha]

@[simp] theorem next_setSize : (h.setSize p n).next a = h.next a := by
  by_cases ha : a = p
  · subst ha
    simp [next, setSize]
  · simp [next, setSize, ha]

@[simp] theorem size_setNext : (h.setNext p q).size a = h.size a := by
  by_cases ha : a = p
  · subst ha
    simp [size, setNext]
  · simp [size, setNext, ha]

@[simp] theorem next_setNext : (h.setNext p q).next a = if a = p then q else h.next a := by
  by_cases ha : a = p
  · subst ha
    simp [next, setNext]
  · simp [next, setNext, ha]

end

/-- Bytes are taken, and the minimum is adjusted. -/
def take (h : SysHeap) (n : Nat) : SysHeap :=
  let remaining := sub32 h.xFreeBytesRemaining n
  { h with
    xFreeBytesRemaining := remaining
    xMinimumEverFreeBytesRemaining :=
      if remaining < h.xMinimumEverFreeBytesRemaining then remaining
      else h.xMinimumEverFreeBytesRemaining }

@[simp] theorem take_links (h : SysHeap) (n : Nat) : (h.take n).links = h.links := rfl

theorem take_minimum (h : SysHeap) (n : Nat) :
    (h.take n).xMinimumEverFreeBytesRemaining ≤ (h.take n).xFreeBytesRemaining ∧
      (h.take n).xMinimumEverFreeBytesRemaining ≤ h.xMinimumEverFreeBytesRemaining := by
  simp only [take]
  split <;> omega

/-- A size, rounded up to the alignment. -/
def alignUp (h : SysHeap) (size : Nat) : Nat :=
  if size &&& h.portByteAlignmentMask ≠ 0 then
    u32 (size + (h.portByteAlignment - (size &&& h.portByteAlignmentMask)))
  else size

end SysHeap

/-! ## Starting -/

/-- `sys_heap_default_init`; `xStart` is where the structure has its member of this name. -/
def sysHeapDefaultInit (xStart : Nat) (links : Links) (baseAddr totalSize : Nat) : SysHeap where
  heapBitsPerByte := 8
  portByteAlignment := 16
  portByteAlignmentMask := 0xF
  -- a `BlockLink_t` has 8 bytes
  xHeapStructSize := clearBits (8 + (16 - 1)) 0xF
  heapMinmunBlockSize := clearBits (8 + (16 - 1)) 0xF <<< 1
  xFreeBytesRemaining := 0
  xMinimumEverFreeBytesRemaining := 0
  xBlockAllocatedBit := 0
  pxEnd := 0
  configTotalHeapSize := totalSize
  ucHeap := baseAddr
  xStart
  links

/-- Where `sys_heap_init` puts the first block. -/
def alignedHeap (h : SysHeap) : Nat :=
  if h.ucHeap &&& h.portByteAlignmentMask ≠ 0 then
    clearBits (u32 (h.ucHeap + (h.portByteAlignment - 1))) h.portByteAlignmentMask
  else h.ucHeap

/-- `sys_heap_init`. -/
def sysHeapInit (h : SysHeap) : SysHeap :=
  let pucAlignedHeap := alignedHeap h
  let xTotalHeapSize := sub32 h.configTotalHeapSize (sub32 pucAlignedHeap h.ucHeap)
  let pxEnd := clearBits (sub32 (u32 (pucAlignedHeap + xTotalHeapSize)) h.xHeapStructSize)
    h.portByteAlignmentMask
  let h := h.setLink h.xStart ⟨pucAlignedHeap, 0⟩
  let h := { h with pxEnd }.setLink pxEnd ⟨0, 0⟩
  let xBlockSize := sub32 pxEnd pucAlignedHeap
  { h.setLink pucAlignedHeap ⟨pxEnd, xBlockSize⟩ with
    xMinimumEverFreeBytesRemaining := xBlockSize
    xFreeBytesRemaining := xBlockSize
    xBlockAllocatedBit := 1 <<< (4 * h.heapBitsPerByte - 1) }

/-- `psram_heap_init`, up to the region. -/
def psramHeapInit (xStart : Nat) (links : Links) (base len : Nat) : SysHeap :=
  sysHeapInit (sysHeapDefaultInit xStart links base len)

/-- `sram_heap_init`, up to the region. -/
def sramHeapInit (xStart : Nat) (links : Links) (base len : Nat) : SysHeap :=
  sysHeapInit { sysHeapDefaultInit xStart links base len with
    portByteAlignment := 8
    portByteAlignmentMask := 0x7 }

/-! ## The free list -/

/-- The loop of `prvInsertBlockIntoFreeList`: the last link in front of `block`. -/
def findPlace (h : SysHeap) (block : Nat) : Nat → Nat → Option Nat
  | 0, _ => none
  | fuel + 1, iterator =>
    if h.next iterator < block then findPlace h block fuel (h.next iterator) else some iterator

/-- The block in front, if they touch, takes the new one in. -/
def mergeFront (h : SysHeap) (iterator block : Nat) : SysHeap × Nat :=
  if u32 (iterator + h.size iterator) = block then
    (h.setSize iterator (u32 (h.size iterator + h.size block)), iterator)
  else (h, block)

/-- The new block, if they touch, takes the block behind it in. -/
def mergeBehind (h : SysHeap) (iterator block : Nat) : SysHeap :=
  if u32 (block + h.size block) = h.next iterator then
    if h.next iterator ≠ h.pxEnd then
      let behind := h.next iterator
      let h := h.setSize block (u32 (h.size block + h.size behind))
      h.setNext block (h.next behind)
    else h.setNext block h.pxEnd
  else h.setNext block (h.next iterator)

/-- `sys_heap_prvInsertBlockIntoFreeList`. -/
def insertBlockIntoFreeList (h : SysHeap) (block : Nat) : Option SysHeap := do
  let iterator ← findPlace h block (h.configTotalHeapSize + 1) h.xStart
  let (h, block) := mergeFront h iterator block
  let h := mergeBehind h iterator block
  pure (if iterator ≠ block then h.setNext iterator block else h)

/-! ## malloc and free -/

/-- A walk along the free list, past the blocks `skip` says to, to the end marker at most: the block
it stops at and the link in front of it. -/
def walkFree (h : SysHeap) (skip : Nat → Bool) : Nat → Nat → Nat → Option (Nat × Nat)
  | 0, _, _ => none
  | fuel + 1, previous, block =>
    if skip block ∧ h.next block ≠ 0 then walkFree h skip fuel block (h.next block)
    else some (previous, block)

/-- The loop of `sys_heap_malloc`: the first block of adequate size. -/
def findFit (h : SysHeap) (size : Nat) : Option (Nat × Nat) :=
  walkFree h (fun block => h.size block < size) (h.configTotalHeapSize + 1) h.xStart
    (h.next h.xStart)

/-- A block that is larger than required is split into two. -/
def splitBlock (h : SysHeap) (block size : Nat) : Option SysHeap :=
  if sub32 (h.size block) size > h.heapMinmunBlockSize then
    let newBlockLink := u32 (block + size)
    let h := h.setSize newBlockLink (sub32 (h.size block) size)
    insertBlockIntoFreeList (h.setSize block size) newBlockLink
  else some h

/-- The part of `sys_heap_malloc` behind the loop. -/
def allocateBlock (h : SysHeap) (previous block size : Nat) : Option (SysHeap × Nat) := do
  let ret := u32 (h.next previous + h.xHeapStructSize)
  let h ← splitBlock (h.setNext previous (h.next block)) block size
  let h := h.take (h.size block)
  let h := h.setSize block (h.size block ||| h.xBlockAllocatedBit)
  pure (h.setNext block 0, ret)

/-- `sys_heap_malloc`. -/
def sysHeapMalloc (h : SysHeap) (size : Nat) : Option (SysHeap × Nat) :=
  if h.pxEnd = 0 then some (h, 0)
  else if size &&& h.xBlockAllocatedBit ≠ 0 then some (h, 0)
  else
    let size := if size > 0 then h.alignUp (u32 (size + h.xHeapStructSize)) else size
    if size > 0 ∧ size ≤ h.xFreeBytesRemaining then do
      let (previous, block) ← findFit h size
      if block ≠ h.pxEnd then allocateBlock h previous block size else pure (h, 0)
    else some (h, 0)

/-- `sys_heap_free`. -/
def sysHeapFree (h : SysHeap) (ptr : Nat) : Option SysHeap :=
  if ptr = 0 then some h
  else
    let link := sub32 ptr h.xHeapStructSize
    if h.size link &&& h.xBlockAllocatedBit ≠ 0 then
      if h.next link = 0 then
        let h := h.setSize link (clearBits (h.size link) h.xBlockAllocatedBit)
        let h := { h with xFreeBytesRemaining := u32 (h.xFreeBytesRemaining + h.size link) }
        insertBlockIntoFreeList h link
      else some h
    else some h

/-! ## realloc and calloc -/

/-- The loop of `sys_heap_realloc`: the block `judge`, if it is in the list. -/
def findBlock (h : SysHeap) (judge : Nat) : Option (Nat × Nat) :=
  walkFree h (fun block => block ≠ judge) (h.configTotalHeapSize + 1) h.xStart (h.next h.xStart)

/-- `sys_heap_realloc` when the free block behind is large enough. -/
def growBlock (h : SysHeap) (old previous block addSize : Nat) : Option SysHeap := do
  let h := h.setSize old (u32 (h.size old + addSize))
  let newBlockLink := u32 (block + addSize)
  let h := h.setSize newBlockLink
    (clearBits (sub32 (h.size block) addSize) h.xBlockAllocatedBit)
  let h := h.setNext previous (h.next block)
  let h ← insertBlockIntoFreeList h newBlockLink
  pure ((h.setNext block 0).take addSize)

/-- `sys_heap_realloc` when the block has to move. -/
def moveBlock (h : SysHeap) (ptr size : Nat) : Option (SysHeap × Nat) := do
  let (h, ret) ← sysHeapMalloc h size
  if ret = 0 then pure (h, 0)
  else do
    let h ← sysHeapFree h ptr
    pure (h, ret)

/-- `sys_heap_realloc`. -/
def sysHeapRealloc (h : SysHeap) (ptr size : Nat) : Option (SysHeap × Nat) :=
  if h.pxEnd = 0 then some (h, 0)
  else if size = 0 then do
    let h ← sysHeapFree h ptr
    pure (h, 0)
  else if size &&& h.xBlockAllocatedBit ≠ 0 then some (h, 0)
  else
    let size := h.alignUp size
    if size > 0 ∧ size ≤ h.xFreeBytesRemaining then
      if ptr = 0 then sysHeapMalloc h size
      else do
        let old := sub32 ptr h.xHeapStructSize
        let judge := u32 (old + clearBits (h.size old) h.xBlockAllocatedBit)
        let (previous, block) ← findBlock h judge
        let oldSize := sub32 (clearBits (h.size old) h.xBlockAllocatedBit) h.xHeapStructSize
        if block = judge ∧ size < h.size block ∧ size ≥ oldSize ∧
            sub32 (h.size block) size > h.heapMinmunBlockSize then
          let addSize := clearBits (sub32 size oldSize) h.xBlockAllocatedBit
          if addSize = 0 then pure (h, ptr)
          else do
            let h ← growBlock h old previous block addSize
            pure (h, ptr)
        else moveBlock h ptr size
    else some (h, 0)

/-- `sys_heap_calloc`. -/
def sysHeapCalloc (h : SysHeap) (nmemb size : Nat) : Option (SysHeap × Nat) :=
  sysHeapMalloc h (u32 (nmemb * size))

end Heap
end XR806

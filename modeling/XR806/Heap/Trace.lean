import Mathlib.Algebra.Order.BigOperators.Group.List
import Mathlib.Data.List.Perm.Subperm
import Mathlib.Order.Interval.Finset.Nat
import XR806.Heap.Runs
import XR806.Keyed

/-!
# XR806.Heap.Trace

The trace of the heaps (`heap_trace.c`): a table of the blocks that users have, with a search for a
free row that starts at `g_mem_empty_idx`, and records of their number and size for all of them, for
those in SRAM and for those in PSRAM. `sram_heap.c` and `psram_heap.c` ask the heap for four bytes
more, in which the trace keeps its guard bytes.

* `Holds.addEntry`, `Holds.deleteEntry`, `Holds.updateEntry`: the table holds the blocks there are.
* `heap_trace_ok`: in every run of both heaps in which the sizes leave room for the guard bytes, the
  table holds the blocks of the users with the sizes they asked for, each once, no row below the
  start of the search is free, and the records are right.
-/

namespace XR806
namespace Heap

open Tile Keyed

/-! ## The trace -/

/-- `struct heap_mem`; a pointer 0 is a free row. -/
structure TraceMem where
  ptr : Nat
  size : Nat
  deriving DecidableEq

/-- `heap_info_t`. -/
structure HeapInfo where
  entryCnt : Nat
  entryCntMax : Nat
  sum : Nat
  sumMax : Nat
  deriving DecidableEq

/-- `g_mem_info`, `g_sram_info` and `g_psram_info`. -/
inductive Record where
  | total
  | sram
  | psram
  deriving DecidableEq

structure HeapTrace where
  /-- `g_mem`. -/
  mem : List TraceMem
  emptyIdx : Nat
  info : Record → HeapInfo

/-- Where the two heaps are. -/
structure Layout where
  heapStart : Nat
  heapEnd : Nat
  psramEnd : Nat
  psramEndAddr : Nat

def heapMemMaxCnt : Nat := 1024

def heapMagicLen : Nat := 4

def rangeof (num start last : Nat) : Bool := num ≤ last ∧ num ≥ start

/-- The blocks that are counted in a record: `is_rangeof_sramheap`, `is_rangeof_psramheap`. -/
def Layout.covers (l : Layout) : Record → Nat → Bool
  | .total, _ => true
  | .sram, ptr => rangeof ptr l.heapStart l.heapEnd
  | .psram, ptr => rangeof ptr l.psramEnd l.psramEndAddr

namespace HeapInfo

def add (i : HeapInfo) (size : Nat) : HeapInfo where
  entryCnt := i.entryCnt + 1
  entryCntMax := max i.entryCntMax (i.entryCnt + 1)
  sum := u32 (i.sum + size)
  sumMax := max i.sumMax (u32 (i.sum + size))

def remove (i : HeapInfo) (size : Nat) : HeapInfo :=
  { i with entryCnt := i.entryCnt - 1, sum := sub32 i.sum size }

/-- `old` and `new` are the sizes that leave the record and enter it. -/
def replace (i : HeapInfo) (old new : Option Nat) : HeapInfo :=
  let sum := match old with
    | some size => sub32 i.sum size
    | none => i.sum
  let sum := match new with
    | some size => u32 (sum + size)
    | none => sum
  { i with sum, sumMax := max i.sumMax sum }

end HeapInfo

section

variable (l : Layout) (t : HeapTrace)

/-- `heap_trace_add_entry`, but for the guard bytes. -/
def heapTraceAddEntry (ptr size : Nat) : HeapTrace :=
  match (t.mem.drop t.emptyIdx).findIdx? (·.ptr = 0) with
  | some i =>
    { mem := t.mem.set (t.emptyIdx + i) ⟨ptr, size⟩
      emptyIdx := t.emptyIdx + i + 1
      info := fun r => if l.covers r ptr then (t.info r).add size else t.info r }
  | none => t

/-- `heap_trace_delete_entry`. -/
def heapTraceDeleteEntry (ptr : Nat) : HeapTrace :=
  match t.mem.findIdx? (·.ptr = ptr) with
  | some i =>
    let size := (t.mem.getD i ⟨0, 0⟩).size
    { mem := t.mem.set i ⟨0, 0⟩
      emptyIdx := if i < t.emptyIdx then i else t.emptyIdx
      info := fun r => if l.covers r ptr then (t.info r).remove size else t.info r }
  | none => t

/-- `heap_trace_update_entry`, but for the guard bytes. -/
def heapTraceUpdateEntry (oldPtr newPtr newSize : Nat) : HeapTrace :=
  match t.mem.findIdx? (·.ptr = oldPtr) with
  | some i =>
    let oldSize := (t.mem.getD i ⟨0, 0⟩).size
    { t with
      mem := t.mem.set i ⟨newPtr, newSize⟩
      info := fun r => (t.info r).replace (if l.covers r oldPtr then some oldSize else none)
        (if l.covers r newPtr then some newSize else none) }
  | none => t

def heapTraceMalloc (ptr size : Nat) : HeapTrace :=
  if ptr ≠ 0 then heapTraceAddEntry l t ptr size else t

def heapTraceFree (ptr : Nat) : HeapTrace := if ptr = 0 then t else heapTraceDeleteEntry l t ptr

def heapTraceRealloc (oldPtr newPtr newSize : Nat) : HeapTrace :=
  if newSize = 0 then if oldPtr ≠ 0 then heapTraceDeleteEntry l t oldPtr else t
  else if oldPtr = 0 then if newPtr ≠ 0 then heapTraceAddEntry l t newPtr newSize else t
  else if newPtr ≠ 0 then heapTraceUpdateEntry l t oldPtr newPtr newSize else t

end

def heapTraceStart : HeapTrace where
  mem := List.replicate heapMemMaxCnt ⟨0, 0⟩
  emptyIdx := 0
  info _ := ⟨0, 0, 0, 0⟩

/-! ## What the table holds -/

def TraceMem.key (row : TraceMem) : Option Nat := if row.ptr = 0 then none else some row.ptr

/-- What a row adds to a record. -/
def Layout.tally (l : Layout) (r : Record) (f : TraceMem → Nat) (row : TraceMem) : Nat :=
  if row.ptr ≠ 0 ∧ l.covers r row.ptr then f row else 0

/-- A record of the rows. -/
structure HeapInfo.Right (l : Layout) (r : Record) (rows : List TraceMem) (i : HeapInfo) :
    Prop where
  entryCnt : i.entryCnt = (rows.map (l.tally r fun _ => 1)).sum
  sum : i.sum = u32 (rows.map (l.tally r TraceMem.size)).sum

/-- The table holds the blocks `live` with their sizes, each once. -/
structure Holds (l : Layout) (live : Nat → Option Nat) (t : HeapTrace) : Prop where
  distinct : Distinct TraceMem.key t.mem
  mem : ∀ p n, live p = some n ↔ p ≠ 0 ∧ ⟨p, n⟩ ∈ t.mem
  bound : t.emptyIdx ≤ t.mem.length
  used : ∀ (i : Nat) (row : TraceMem), i < t.emptyIdx → t.mem[i]? = some row → row.ptr ≠ 0
  info : ∀ r, (t.info r).Right l r t.mem

/-- What is live once the row `old` has become the row `new`. -/
def afterPut (live : Nat → Option Nat) (old new : TraceMem) (p : Nat) : Option Nat :=
  if p ≠ 0 ∧ p = new.ptr then some new.size else if p = old.ptr then none else live p

section

variable {l : Layout} {t : HeapTrace} {live : Nat → Option Nat} {p n size ptr newPtr i : Nat}
  {row old : TraceMem}

theorem TraceMem.key_eq_some : row.key = some p ↔ p ≠ 0 ∧ row.ptr = p := by
  unfold TraceMem.key
  split
  · rename_i hzero
    refine iff_of_false nofun ?_
    rintro ⟨hne, heq⟩
    exact hne (heq.symm.trans hzero)
  · rename_i hne
    rw [Option.some.injEq]
    exact ⟨fun heq => ⟨heq ▸ hne, heq⟩, fun heq => heq.2⟩

theorem sub32_u32_add (a b : Nat) (hb : b < 2 ^ 32) : sub32 (u32 (a + b)) b = u32 a := by
  unfold sub32 u32
  split <;> omega

theorem u32_add (a b : Nat) : u32 (u32 a + b) = u32 (a + b) := by
  unfold u32
  omega

@[simp] theorem Layout.tally_free (r : Record) (f : TraceMem → Nat) : l.tally r f ⟨0, n⟩ = 0 := by
  simp [Layout.tally]

theorem Layout.tally_used (r : Record) (hp : p ≠ 0) (f : TraceMem → Nat) :
    l.tally r f ⟨p, n⟩ = if l.covers r p then f ⟨p, n⟩ else 0 := by
  simp [Layout.tally, hp]

section

variable {r : Record} {rows : List TraceMem} {info : HeapInfo}

theorem HeapInfo.Right.add (h : info.Right l r rows) (hi : rows[i]? = some ⟨0, n⟩) (hp : p ≠ 0) :
    (if l.covers r p then info.add size else info).Right l r (rows.set i ⟨p, size⟩) := by
  have hset := fun f => sum_map_set (b := ⟨p, size⟩) (l.tally r f) hi
  obtain ⟨hcnt, hsum⟩ := h
  split <;> constructor <;> simp_all [HeapInfo.add, u32_add, Layout.tally_used]

theorem HeapInfo.Right.remove (h : info.Right l r rows) (hi : rows[i]? = some ⟨p, n⟩) (hp : p ≠ 0)
    (hn : n < 2 ^ 32) :
    (if l.covers r p then info.remove n else info).Right l r (rows.set i ⟨0, 0⟩) := by
  have hset := fun f => sum_map_set (b := ⟨0, 0⟩) (l.tally r f) hi
  simp only [Layout.tally_used r hp, Layout.tally_free, Nat.add_zero] at hset
  split
  · rename_i hc
    simp only [if_pos hc] at hset
    constructor
    · change info.entryCnt - 1 = _
      rw [h.entryCnt, ← hset, Nat.add_sub_cancel]
    · change sub32 info.sum n = _
      rw [h.sum, ← hset, sub32_u32_add _ _ hn]
  · rename_i hc
    simp only [if_neg hc, Nat.add_zero] at hset
    exact ⟨h.entryCnt.trans (hset _).symm, h.sum.trans (congrArg u32 (hset _).symm)⟩

theorem HeapInfo.Right.replace (h : info.Right l r rows) (hi : rows[i]? = some ⟨p, n⟩) (hp : p ≠ 0)
    (hn : n < 2 ^ 32) (hp' : newPtr ≠ 0) (hsame : l.covers r newPtr = l.covers r p) :
    (info.replace (if l.covers r p then some n else none)
      (if l.covers r newPtr then some size else none)).Right l r (rows.set i ⟨newPtr, size⟩) := by
  have hset := fun f => sum_map_set (b := ⟨newPtr, size⟩) (l.tally r f) hi
  simp only [Layout.tally_used r hp, Layout.tally_used r hp', hsame] at hset
  refine ⟨h.entryCnt.trans (Nat.add_right_cancel (hset _)).symm, ?_⟩
  rw [hsame]
  split
  · rename_i hc
    -- the rest of the table, with neither of the two sizes
    have hrest := sum_map_set (b := ⟨0, 0⟩) (l.tally r TraceMem.size) hi
    have hsum := hset TraceMem.size
    simp only [Layout.tally_used r hp, Layout.tally_free, if_pos hc, Nat.add_zero] at hrest hsum
    change u32 (sub32 info.sum n + size) = _
    rw [h.sum, ← hrest, sub32_u32_add _ _ hn, u32_add]
    exact congrArg u32 (by omega)
  · rename_i hc
    simp only [if_neg hc, Nat.add_zero] at hset
    exact h.sum.trans (congrArg u32 (hset _).symm)

end

theorem Holds.zero (h : Holds l live t) : live 0 = none := by
  rw [Option.eq_none_iff_forall_ne_some]
  intro n hn
  exact ((h.mem 0 n).mp hn).1 rfl

/-- The row of a block. -/
theorem Holds.exists_row (h : Holds l live t) (hp : live p = some n) :
    p ≠ 0 ∧ ∃ i, t.mem[i]? = some ⟨p, n⟩ ∧ t.mem.findIdx? (·.ptr = p) = some i ∧
      t.mem.getD i ⟨0, 0⟩ = ⟨p, n⟩ := by
  obtain ⟨hne, hin⟩ := (h.mem p n).mp hp
  obtain ⟨i, hi⟩ := List.mem_iff_getElem?.mp hin
  refine ⟨hne, i, hi, h.distinct.findIdx?_eq hi (TraceMem.key_eq_some.mpr ⟨hne, rfl⟩) fun b => ?_, ?_⟩
  · rw [TraceMem.key_eq_some, decide_eq_true_eq]
    exact ⟨fun heq => ⟨hne, heq⟩, fun heq => heq.2⟩
  · rw [List.getD_eq_getElem?_getD, hi]
    rfl

/-- The place that `heap_trace_add_entry` finds when there is a free row. -/
theorem Holds.exists_free (h : Holds l live t) (hroom : ∃ row ∈ t.mem, row.ptr = 0) :
    ∃ i n, (t.mem.drop t.emptyIdx).findIdx? (·.ptr = 0) = some i ∧
      t.mem[t.emptyIdx + i]? = some ⟨0, n⟩ ∧
      ∀ j row, j < t.emptyIdx + i → t.mem[j]? = some row → row.ptr ≠ 0 := by
  obtain ⟨row, hrow, hzero⟩ := hroom
  obtain ⟨k, hk⟩ := List.mem_iff_getElem?.mp hrow
  have hle : t.emptyIdx ≤ k := Nat.le_of_not_lt fun hlt => h.used k row hlt hk hzero
  cases hfind : (t.mem.drop t.emptyIdx).findIdx? (·.ptr = 0) with
  | none =>
    have hin : row ∈ t.mem.drop t.emptyIdx := by
      refine List.mem_of_getElem? (i := k - t.emptyIdx) ?_
      rw [List.getElem?_drop, Nat.add_sub_cancel' hle, hk]
    have hno := List.findIdx?_eq_none_iff.mp hfind row hin
    simp [hzero] at hno
  | some i =>
    obtain ⟨hlt, hfree, hbefore⟩ := List.findIdx?_eq_some_iff_getElem.mp hfind
    have hi : t.mem[t.emptyIdx + i]? = some (t.mem.drop t.emptyIdx)[i] := by
      rw [← List.getElem?_drop, List.getElem?_eq_getElem hlt]
    refine ⟨i, (t.mem.drop t.emptyIdx)[i].size, rfl, ?_, ?_⟩
    · rw [hi, ← of_decide_eq_true hfree]
    · intro j row hj hrow
      by_cases hlow : j < t.emptyIdx
      · exact h.used j row hlow hrow
      · have hne := hbefore (j - t.emptyIdx) (by omega)
        have heq : (t.mem.drop t.emptyIdx)[j - t.emptyIdx]? = some row := by
          rw [List.getElem?_drop, Nat.add_sub_cancel' (Nat.le_of_not_lt hlow), hrow]
        obtain ⟨-, rfl⟩ := List.getElem?_eq_some_iff.mp heq
        simpa using hne

/-- A row changes, and no other row has the pointer of the new one. -/
theorem Holds.put (h : Holds l live t) (new : TraceMem) (hi : t.mem[i]? = some old)
    (hnew : new.ptr = 0 ∨ new.ptr = old.ptr ∨ live new.ptr = none) :
    Distinct TraceMem.key (t.mem.set i new) ∧
      ∀ p n, afterPut live old new p = some n ↔ p ≠ 0 ∧ ⟨p, n⟩ ∈ t.mem.set i new := by
  have hother : ∀ (j : Nat) (a : TraceMem), j ≠ i → t.mem[j]? = some a → a.ptr ≠ 0 →
      a.ptr ≠ new.ptr ∧ a.ptr ≠ old.ptr := by
    intro j a hne hj ha
    have hlive : live a.ptr = some a.size := (h.mem _ _).mpr ⟨ha, List.mem_of_getElem? hj⟩
    have hold : a.ptr ≠ old.ptr := fun heq =>
      hne (h.distinct j i a old a.ptr hj hi (TraceMem.key_eq_some.mpr ⟨ha, rfl⟩)
        (TraceMem.key_eq_some.mpr ⟨ha, heq.symm⟩))
    refine ⟨?_, hold⟩
    intro heq
    rcases hnew with hzero | hsame | hnone
    · exact ha (heq.trans hzero)
    · exact hold (heq.trans hsame)
    · rw [heq, hnone] at hlive
      cases hlive
  have hlt : i < t.mem.length := (List.getElem?_eq_some_iff.mp hi).1
  constructor
  · refine h.distinct.put ?_
    intro j a k hne hj hk hak
    obtain ⟨hk0, rfl⟩ := TraceMem.key_eq_some.mp hk
    obtain ⟨-, heq⟩ := TraceMem.key_eq_some.mp hak
    exact (hother j a hne hj (heq ▸ hk0)).1 heq
  · intro p n
    unfold afterPut
    constructor
    · intro hp
      split at hp
      · rename_i hc
        obtain ⟨hne, rfl⟩ := hc
        cases hp
        exact ⟨hne, List.mem_of_getElem? (i := i) (by rw [List.getElem?_set_self hlt])⟩
      · split at hp
        · cases hp
        · rename_i hold
          obtain ⟨hne, hin⟩ := (h.mem p n).mp hp
          obtain ⟨j, hj⟩ := List.mem_iff_getElem?.mp hin
          have hji : i ≠ j := by
            rintro rfl
            rw [hi] at hj
            cases hj
            exact hold rfl
          exact ⟨hne, List.mem_of_getElem? (i := j) (by rw [List.getElem?_set_ne hji, hj])⟩
    · rintro ⟨hne, hin⟩
      obtain ⟨j, hj⟩ := List.mem_iff_getElem?.mp hin
      obtain ⟨-, rfl⟩ | ⟨hji, hj⟩ := getElem?_set_cases hj
      · exact if_pos ⟨hne, rfl⟩
      · obtain ⟨h1, h2⟩ := hother j ⟨p, n⟩ hji hj hne
        rw [if_neg fun hc => h1 hc.2, if_neg h2]
        exact (h.mem p n).mpr ⟨hne, List.mem_of_getElem? hj⟩

/-- `heap_trace_add_entry`. -/
theorem Holds.addEntry (h : Holds l live t) (hne : ptr ≠ 0) (hnew : live ptr = none)
    (hroom : ∃ row ∈ t.mem, row.ptr = 0) :
    Holds l (Function.update live ptr (some size)) (heapTraceAddEntry l t ptr size) := by
  obtain ⟨i, n, hfind, hi, hused⟩ := h.exists_free hroom
  obtain ⟨hdistinct, hmem⟩ := h.put ⟨ptr, size⟩ hi (.inr (.inr hnew))
  have hlive : afterPut live ⟨0, n⟩ ⟨ptr, size⟩ = Function.update live ptr (some size) := by
    funext p
    unfold afterPut
    by_cases hp : p = ptr
    · subst hp
      rw [if_pos ⟨hne, rfl⟩, Function.update_self]
    · rw [if_neg fun hc => hp hc.2, Function.update_of_ne hp]
      split
      · rename_i hzero
        rw [hzero, h.zero]
      · rfl
  have hlt : t.emptyIdx + i < t.mem.length := (List.getElem?_eq_some_iff.mp hi).1
  simp only [heapTraceAddEntry, hfind]
  refine ⟨hdistinct, hlive ▸ hmem, ?_, ?_, fun r => (h.info r).add hi hne⟩
  · rw [List.length_set]
    exact hlt
  · intro j row hj hrow
    obtain ⟨-, rfl⟩ | ⟨hji, hrow⟩ := getElem?_set_cases hrow
    · exact hne
    · exact hused j row (Nat.lt_of_le_of_ne (Nat.le_of_lt_succ hj) hji) hrow

/-- `heap_trace_delete_entry`. -/
theorem Holds.deleteEntry (h : Holds l live t) (hp : live ptr = some n) (hn : n < 2 ^ 32) :
    Holds l (Function.update live ptr none) (heapTraceDeleteEntry l t ptr) := by
  obtain ⟨hne, i, hi, hfind, hget⟩ := h.exists_row hp
  obtain ⟨hdistinct, hmem⟩ := h.put ⟨0, 0⟩ hi (.inl rfl)
  have hlive : afterPut live ⟨ptr, n⟩ ⟨0, 0⟩ = Function.update live ptr none := by
    funext p
    unfold afterPut
    rw [if_neg fun hc => hc.1 hc.2, Function.update_apply]
  have hlt : i < t.mem.length := (List.getElem?_eq_some_iff.mp hi).1
  have hle : (if i < t.emptyIdx then i else t.emptyIdx) ≤ t.emptyIdx ∧
      (if i < t.emptyIdx then i else t.emptyIdx) ≤ i := by
    split <;> omega
  simp only [heapTraceDeleteEntry, hfind, hget]
  refine ⟨hdistinct, hlive ▸ hmem, ?_, ?_, fun r => (h.info r).remove hi hne hn⟩
  · rw [List.length_set]
    exact Nat.le_trans hle.1 h.bound
  · intro j row hj hrow
    obtain ⟨rfl, -⟩ | ⟨-, hrow⟩ := getElem?_set_cases hrow
    · exact absurd (Nat.lt_of_lt_of_le hj hle.2) (Nat.lt_irrefl j)
    · exact h.used j row (Nat.lt_of_lt_of_le hj hle.1) hrow

/-- `heap_trace_update_entry`. -/
theorem Holds.updateEntry (h : Holds l live t) (hp : live ptr = some n) (hn : n < 2 ^ 32)
    (hne' : newPtr ≠ 0) (hnew : newPtr = ptr ∨ live newPtr = none)
    (hsame : ∀ r, l.covers r newPtr = l.covers r ptr) :
    Holds l (Function.update (Function.update live ptr none) newPtr (some size))
      (heapTraceUpdateEntry l t ptr newPtr size) := by
  obtain ⟨hne, i, hi, hfind, hget⟩ := h.exists_row hp
  obtain ⟨hdistinct, hmem⟩ := h.put ⟨newPtr, size⟩ hi (.inr hnew)
  have hlive : afterPut live ⟨ptr, n⟩ ⟨newPtr, size⟩ =
      Function.update (Function.update live ptr none) newPtr (some size) := by
    funext p
    unfold afterPut
    by_cases hp : p = newPtr
    · subst hp
      rw [if_pos ⟨hne', rfl⟩, Function.update_self]
    · rw [if_neg fun hc => hp hc.2, Function.update_of_ne hp, Function.update_apply]
  simp only [heapTraceUpdateEntry, hfind, hget]
  refine ⟨hdistinct, hlive ▸ hmem, ?_, ?_, fun r => (h.info r).replace hi hne hn hne' (hsame r)⟩
  · simpa using h.bound
  · intro j row hj hrow
    obtain ⟨-, rfl⟩ | ⟨-, hrow⟩ := getElem?_set_cases hrow
    · exact hne'
    · exact h.used j row hj hrow

end

/-! ## The two heaps and the trace -/

/-- `sram_malloc` and `psram_malloc`; the block is 0 when there is none. -/
def tracedMalloc (l : Layout) (h : SysHeap) (t : HeapTrace) (size : Nat) :
    Option (SysHeap × HeapTrace × Nat) := do
  let size := u32 (size + heapMagicLen)
  let (h, ptr) ← sysHeapMalloc h size
  pure (h, heapTraceMalloc l t ptr (sub32 size heapMagicLen), ptr)

/-- `sram_free` and `psram_free`. -/
def tracedFree (l : Layout) (h : SysHeap) (t : HeapTrace) (ptr : Nat) :
    Option (SysHeap × HeapTrace) := do
  let t := heapTraceFree l t ptr
  let h ← sysHeapFree h ptr
  pure (h, t)

/-- `sram_realloc` and `psram_realloc`. -/
def tracedRealloc (l : Layout) (h : SysHeap) (t : HeapTrace) (ptr size : Nat) :
    Option (SysHeap × HeapTrace × Nat) := do
  let size := if size ≠ 0 then u32 (size + heapMagicLen) else size
  let (h, newPtr) ← sysHeapRealloc h ptr size
  let size := if size = 0 then size else sub32 size heapMagicLen
  pure (h, heapTraceRealloc l t ptr newPtr size, newPtr)

/-- The heaps with their users, and the trace. -/
structure Traced where
  heap : Port → Sys
  trace : HeapTrace

inductive TracedCall where
  | malloc (port : Port) (size : UInt32)
  | free (port : Port) (ptr : Nat)
  | realloc (port : Port) (ptr : Nat) (size : UInt32)
  | write (port : Port) (ptr : Nat)

deriving instance DecidableEq for Port

/-- `MEM_SET_MAGIC` behind the `size` bytes of a block, if there is one; a link has 8 bytes. -/
def SetsMagic (links : Links) (ptr size : Nat) (links' : Links) : Prop :=
  if ptr = 0 then links' = links
  else ∀ a, a + 8 ≤ ptr + size ∨ ptr + size + heapMagicLen ≤ a → links' a = links a

/-- A heap and its users have changed, and the trace. -/
def Traced.set (s : Traced) (port : Port) (sys : Sys) (trace : HeapTrace) : Traced where
  heap := Function.update s.heap port sys
  trace

/-- `live` has the sizes with the guard bytes. -/
inductive TracedStep (l : Layout) : Traced → TracedCall → Traced → Prop
  | malloc (s : Traced) (port : Port) (n : UInt32) (h : SysHeap) (t : HeapTrace) (ret : Nat)
    (links : Links) (hrun : tracedMalloc l (s.heap port).heap s.trace n.toNat = some (h, t, ret))
    (hmagic : SetsMagic h.links ret n.toNat links) :
    TracedStep l s (.malloc port n) (s.set port
      ⟨{ h with links }, afterAlloc (s.heap port).live (n.toNat + heapMagicLen) ret⟩ t)
  | free (s : Traced) (port : Port) (p : Nat) (h : SysHeap) (t : HeapTrace)
    (hp : Owned (s.heap port).live p)
    (hrun : tracedFree l (s.heap port).heap s.trace p = some (h, t)) :
    TracedStep l s (.free port p) (s.set port ⟨h, Function.update (s.heap port).live p none⟩ t)
  | realloc (s : Traced) (port : Port) (p : Nat) (n : UInt32) (h : SysHeap) (t : HeapTrace)
    (ret : Nat) (links : Links) (hp : Owned (s.heap port).live p)
    (hrun : tracedRealloc l (s.heap port).heap s.trace p n.toNat = some (h, t, ret))
    (hmagic : SetsMagic h.links ret n.toNat links) :
    TracedStep l s (.realloc port p n) (s.set port
      ⟨{ h with links }, afterRealloc (s.heap port).live p
        (if n.toNat = 0 then 0 else n.toNat + heapMagicLen) ret⟩ t)
  /-- A user writes into the bytes it has asked for. -/
  | write (s : Traced) (port : Port) (p n : Nat) (links : Links)
    (hp : (s.heap port).live p = some (n + heapMagicLen))
    (hsame : ∀ a, a + 8 ≤ p ∨ p + n ≤ a → links a = (s.heap port).heap.links a) :
    TracedStep l s (.write port p)
      (s.set port { s.heap port with heap.links := links } s.trace)

/-- The size leaves room for the guard bytes, and the table has a row for another block. -/
def Room (s : Traced) : TracedCall → Prop
  | .malloc _ n => n.toNat + heapMagicLen < 2 ^ 32 ∧ ∃ row ∈ s.trace.mem, row.ptr = 0
  | .realloc _ p n => n.toNat + heapMagicLen < 2 ^ 32 ∧ (p = 0 → ∃ row ∈ s.trace.mem, row.ptr = 0)
  | _ => True

/-- The heap of a pointer. -/
def Layout.port (l : Layout) (p : Nat) : Port :=
  if rangeof p l.heapStart l.heapEnd then .sram else .psram

/-- The blocks of the users, with the sizes they asked for. -/
def Traced.users (l : Layout) (s : Traced) (p : Nat) : Option Nat :=
  ((s.heap (l.port p)).live p).map (· - heapMagicLen)

/-- What is kept, when the heaps are from `lo` to `hi`. -/
structure TracedInv (l : Layout) (lo hi : Port → Nat) (s : Traced) : Prop where
  heap : ∀ port, Inv (lo port) (s.heap port)
  pxEnd : ∀ port, (s.heap port).heap.pxEnd = hi port
  magic : ∀ port p n, (s.heap port).live p = some n → heapMagicLen ≤ n
  holds : Holds l (s.users l) s.trace

/-- The records that count the blocks of a heap. -/
def Record.counts : Record → Port → Bool
  | .total, _ => true
  | .sram, port => port = .sram
  | .psram, port => port = .psram

/-- The blocks of a heap are in its range, and in no other. -/
def Layout.Separates (l : Layout) (lo hi : Port → Nat) : Prop :=
  ∀ port p, lo port ≤ p → p ≤ hi port → l.port p = port ∧ ∀ r, l.covers r p = r.counts port

section

variable {l : Layout} {lo hi : Port → Nat} {s s' : Traced} {port : Port} {p n size : Nat}
  {t : HeapTrace} {sys : Sys} {call : TracedCall} {v : Option Nat}

@[simp] theorem Traced.set_trace : (s.set port sys t).trace = t := rfl

theorem Traced.set_heap (q : Port) :
    (s.set port sys t).heap q = if q = port then sys else s.heap q := Function.update_apply ..

theorem Traced.set_set (sys sys' : Sys) (t t' : HeapTrace) :
    (s.set port sys t).set port sys' t' = s.set port sys' t' :=
  congrArg (Traced.mk · t') (Function.update_idem ..)

theorem Traced.users_set (hport : l.port p = port)
    (hlive : sys.live = Function.update (s.heap port).live p v) :
    (s.set port sys t).users l = Function.update (s.users l) p (v.map (· - heapMagicLen)) := by
  funext q
  rw [Function.update_apply, Traced.users, Traced.users, Traced.set_heap]
  by_cases hq : q = p
  · subst hq
    rw [if_pos hport, if_pos rfl, hlive, Function.update_self]
  · rw [if_neg hq]
    split
    · rename_i heq
      rw [hlive, Function.update_of_ne hq, heq]
    · rfl

theorem Traced.users_same (hlive : sys.live = (s.heap port).live) :
    (s.set port sys t).users l = s.users l := by
  funext q
  rw [Traced.users, Traced.users, Traced.set_heap]
  split
  · rename_i heq
    rw [hlive, heq]
  · rfl

/-- The guard bytes are in the block. -/
theorem Inv.setsMagic {lo ret : Nat} {h : SysHeap} {links : Links} {live : Nat → Option Nat}
    (hinv : Inv lo ⟨h, live⟩) (hlive : ret ≠ 0 → live ret = some (n + heapMagicLen))
    (hmagic : SetsMagic h.links ret n links) : Inv lo ⟨{ h with links }, live⟩ := by
  unfold SetsMagic at hmagic
  split at hmagic
  · subst hmagic
    exact hinv
  · rename_i hne
    refine hinv.write (hlive hne) ?_
    intro a ha
    refine hmagic a ?_
    omega

theorem Inv.inside {lo : Nat} (hinv : Inv lo sys) (hp : sys.live p = some n) :
    lo ≤ p ∧ p + n ≤ sys.heap.pxEnd := by
  obtain ⟨bs, hr, ht⟩ := hinv
  exact (sysOk_of_rep hr ht).inside p n hp

theorem Inv.lt {lo : Nat} (hinv : Inv lo sys) (hp : sys.live p = some n) : n < 2 ^ 32 := by
  have hend := (hinv.inside hp).2
  obtain ⟨bs, hr, ht⟩ := hinv
  have hrange := hr.config.range
  omega

section

variable (hsep : l.Separates lo hi) (hinv : TracedInv l lo hi s)

include hsep hinv

theorem TracedInv.separates (hp : (s.heap port).live p = some n) :
    l.port p = port ∧ ∀ r, l.covers r p = r.counts port := by
  obtain ⟨hlo, hhi⟩ := (hinv.heap port).inside hp
  rw [hinv.pxEnd] at hhi
  exact hsep port p hlo (Nat.le_trans (Nat.le_add_right p n) hhi)

theorem TracedInv.users_eq (hp : (s.heap port).live p = some n) :
    s.users l p = some (n - heapMagicLen) := by
  rw [Traced.users, (hinv.separates hsep hp).1, hp]
  rfl

end

theorem TracedInv.set (hinv : TracedInv l lo hi s) (hsys : Inv (lo port) sys)
    (hstable : Stable (s.heap port).heap sys.heap)
    (hmagic : ∀ p n, sys.live p = some n → heapMagicLen ≤ n)
    (hholds : Holds l ((s.set port sys t).users l) t) :
    TracedInv l lo hi (s.set port sys t) := by
  refine ⟨?_, ?_, ?_, hholds⟩
  · intro q
    rw [Traced.set_heap]
    split
    · rename_i heq
      exact heq ▸ hsys
    · exact hinv.heap q
  · intro q
    rw [Traced.set_heap]
    split
    · rename_i heq
      rw [hstable.pxEnd, heq, hinv.pxEnd]
    · exact hinv.pxEnd q
  · intro q
    rw [Traced.set_heap]
    split
    · exact hmagic
    · exact hinv.magic q

/-- A realloc returns nothing, the same block, or one that was not there. -/
theorem sysHeapRealloc_fresh {lo n p ret : Nat} {h h' : SysHeap} {bs : List (Block Nat)}
    {live : Nat → Option Nat} (hr : HeapRep h lo bs) (ht : Tracks bs live) (hn : n < 2 ^ 32)
    (hp : Owned live p) (hrun : sysHeapRealloc h p n = some (h', ret)) :
    ret = 0 ∨ ret = p ∨ live ret = none := by
  obtain ⟨way, hway, hok⟩ := reallocWay_spec hr ht hn hp
  rw [sysHeapRealloc_eq, hway, Option.bind_some] at hrun
  cases hok with
  | null => exact .inl (Prod.mk.inj (Option.some.inj hrun)).2.symm
  | free =>
    obtain ⟨_, -, heq⟩ := Option.map_eq_some_iff.mp hrun
    exact .inl (Prod.mk.inj heq).2.symm
  | malloc _ _ _ hlt =>
    obtain ⟨h₁, ret₁, hmalloc, -, hcases⟩ := sysHeapMalloc_spec hr ht hlt
    obtain ⟨rfl, rfl⟩ := Prod.mk.inj (Option.some.inj (hmalloc.symm.trans hrun))
    rcases hcases with ⟨hzero, -⟩ | ⟨-, hnone, -⟩
    · exact .inl hzero
    · exact .inr (.inr hnone)
  | stay => exact .inr (.inl (Prod.mk.inj (Option.some.inj hrun)).2.symm)
  | grow =>
    obtain ⟨_, -, heq⟩ := Option.map_eq_some_iff.mp hrun
    exact .inr (.inl (Prod.mk.inj heq).2.symm)
  | move _ _ _ _ _ hlt =>
    obtain ⟨h₁, ret₁, hmalloc, -, hcases⟩ := sysHeapMalloc_spec hr ht hlt
    simp only [moveBlock, hmalloc, Option.bind_eq_bind, Option.bind_some] at hrun
    split at hrun
    · exact .inl (Prod.mk.inj (Option.some.inj hrun)).2.symm
    · rename_i hne
      obtain ⟨_, -, heq⟩ := Option.bind_eq_some_iff.mp hrun
      obtain ⟨-, rfl⟩ := Prod.mk.inj (Option.some.inj heq)
      rcases hcases with ⟨hzero, -⟩ | ⟨-, hnone, -⟩
      · exact .inl hzero
      · exact .inr (.inr hnone)

theorem TracedInv.magic_update {p' : Nat} (hinv : TracedInv l lo hi s) (n : Nat)
    (hp : Function.update (s.heap port).live p none p' = some n) : heapMagicLen ≤ n := by
  rw [Function.update_apply] at hp
  split at hp
  · cases hp
  · exact hinv.magic port p' n hp

/-- The users keep their blocks. -/
theorem TracedInv.kept (hinv : TracedInv l lo hi s) (hsys : Inv (lo port) sys)
    (hstable : Stable (s.heap port).heap sys.heap) (hlive : sys.live = (s.heap port).live) :
    TracedInv l lo hi (s.set port sys s.trace) := by
  refine hinv.set hsys hstable ?_ ?_
  · rw [hlive]
    exact hinv.magic port
  · rw [Traced.users_same hlive]
    exact hinv.holds

/-- A block of `n` bytes and the guard bytes is given away. -/
theorem TracedInv.given {ret : Nat} {h : SysHeap} {links : Links} {live : Nat → Option Nat}
    (hsep : l.Separates lo hi) (hinv : TracedInv l lo hi s)
    (hsys : Inv (lo port) ⟨h, Function.update live ret (some (n + heapMagicLen))⟩)
    (hstable : Stable (s.heap port).heap h)
    (hlive : ∀ q k, live q = some k → heapMagicLen ≤ k)
    (hmagic : SetsMagic h.links ret n links)
    (hholds : l.port ret = port → (∀ r, l.covers r ret = r.counts port) → Holds l ((s.set port
      ⟨{ h with links }, Function.update live ret (some (n + heapMagicLen))⟩ t).users l) t) :
    TracedInv l lo hi (s.set port
      ⟨{ h with links }, Function.update live ret (some (n + heapMagicLen))⟩ t) := by
  have hret : Function.update live ret (some (n + heapMagicLen)) ret = some (n + heapMagicLen) :=
    Function.update_self ..
  have hsys' := hsys.setsMagic (fun _ => hret) hmagic
  obtain ⟨hle, hend⟩ := hsys.inside hret
  have hpxEnd : h.pxEnd = hi port := hstable.pxEnd.trans (hinv.pxEnd port)
  change ret + (n + heapMagicLen) ≤ h.pxEnd at hend
  obtain ⟨hport, hcovers⟩ := hsep port ret hle
    (Nat.le_trans (Nat.le_add_right ..) (hpxEnd ▸ hend))
  refine hinv.set hsys' ⟨hstable.xStart, hstable.pxEnd, hstable.align, hstable.minimum⟩ ?_
    (hholds hport hcovers)
  intro q k hq
  change Function.update live ret _ q = some k at hq
  rw [Function.update_apply] at hq
  split at hq
  · cases hq
    exact Nat.le_add_left ..
  · exact hlive q k hq

theorem TracedInv.malloc (hsep : l.Separates lo hi) (hinv : TracedInv l lo hi s)
    (hn : n + heapMagicLen < 2 ^ 32) (hroom : ∃ row ∈ s.trace.mem, row.ptr = 0) {h : SysHeap}
    {ret : Nat} {links : Links}
    (hrun : tracedMalloc l (s.heap port).heap s.trace n = some (h, t, ret))
    (hmagic : SetsMagic h.links ret n links) :
    TracedInv l lo hi (s.set port
      ⟨{ h with links }, afterAlloc (s.heap port).live (n + heapMagicLen) ret⟩ t) := by
  obtain ⟨bs, hr, ht⟩ := hinv.heap port
  obtain ⟨h₁, ret₁, hrun₁, hstable, hcases⟩ := sysHeapMalloc_spec hr ht hn
  have hsize : sub32 (n + heapMagicLen) heapMagicLen = n := by
    rw [sub32_of_le (Nat.le_add_left ..), Nat.add_sub_cancel]
  simp only [tracedMalloc, u32_of_lt hn, hrun₁, Option.bind_eq_bind, Option.bind_some, hsize,
    Option.pure_def, Option.some.injEq, Prod.mk.injEq] at hrun
  obtain ⟨rfl, rfl, rfl⟩ := hrun
  rcases hcases with ⟨rfl, rfl, -⟩ | ⟨hne, hnone, -, -, hgiven⟩
  · unfold SetsMagic at hmagic
    rw [if_pos rfl] at hmagic
    subst hmagic
    exact hinv.kept (hinv.heap port) (.refl _) rfl
  · obtain ⟨bs', hr', ht'⟩ := hgiven _ (Nat.le_refl _)
    rw [afterAlloc, if_neg hne]
    refine hinv.given hsep ⟨bs', hr', ht'⟩ hstable (hinv.magic port) hmagic ?_
    intro hport _
    rw [Traced.users_set hport rfl, heapTraceMalloc, if_pos hne]
    refine hinv.holds.addEntry hne ?_ hroom
    rw [Traced.users, hport, hnone]
    rfl

theorem TracedInv.free (hsep : l.Separates lo hi) (hinv : TracedInv l lo hi s)
    (hp : Owned (s.heap port).live p) {h : SysHeap}
    (hrun : tracedFree l (s.heap port).heap s.trace p = some (h, t)) :
    TracedInv l lo hi (s.set port ⟨h, Function.update (s.heap port).live p none⟩ t) := by
  obtain ⟨h₁, hrun₁, hstable, hsys⟩ := (hinv.heap port).free hp
  simp only [tracedFree, hrun₁, Option.bind_eq_bind, Option.bind_some, Option.pure_def,
    Option.some.injEq, Prod.mk.injEq] at hrun
  obtain ⟨rfl, rfl⟩ := hrun
  rcases hp with rfl | ⟨k, hk⟩
  · obtain ⟨_, -, ht⟩ := hinv.heap port
    rw [heapTraceFree, if_pos rfl]
    exact hinv.kept hsys hstable (Function.update_eq_self_iff.mpr ht.zero.symm)
  · have husers := hinv.users_eq hsep hk
    have hlt := (hinv.heap port).lt hk
    rw [heapTraceFree, if_neg (hinv.holds.exists_row husers).1]
    refine hinv.set hsys hstable (fun q k hq => hinv.magic_update k hq) ?_
    rw [Traced.users_set (hinv.separates hsep hk).1 rfl]
    exact hinv.holds.deleteEntry husers (Nat.lt_of_le_of_lt (Nat.sub_le ..) hlt)

/-- `realloc` with a size, which is not 0 with the guard bytes. -/
theorem TracedInv.resize (hsep : l.Separates lo hi) (hinv : TracedInv l lo hi s) (hpos : n ≠ 0)
    (hn : n + heapMagicLen < 2 ^ 32) (hp : Owned (s.heap port).live p)
    (hroom : p = 0 → ∃ row ∈ s.trace.mem, row.ptr = 0) {h : SysHeap} {ret : Nat} {links : Links}
    (hrun : sysHeapRealloc (s.heap port).heap p (n + heapMagicLen) = some (h, ret))
    (hmagic : SetsMagic h.links ret n links) :
    TracedInv l lo hi (s.set port
      ⟨{ h with links }, afterRealloc (s.heap port).live p (n + heapMagicLen) ret⟩
      (heapTraceRealloc l s.trace p ret n)) := by
  have hnz : n + heapMagicLen ≠ 0 := by omega
  obtain ⟨h₁, ret₁, hrun₁, hstable, hsys⟩ := (hinv.heap port).realloc hn hp
  obtain ⟨rfl, rfl⟩ := Prod.mk.inj (Option.some.inj (hrun.symm.trans hrun₁))
  rw [afterRealloc, if_neg hnz] at hsys ⊢
  rw [heapTraceRealloc, if_neg hpos]
  by_cases hret : ret = 0
  · -- nothing is given, and the old block stays
    subst hret
    rw [if_pos rfl] at hsys ⊢
    rw [SetsMagic, if_pos rfl] at hmagic
    subst hmagic
    have htrace : (if p = 0 then if (0 : Nat) ≠ 0 then heapTraceAddEntry l s.trace 0 n else s.trace
        else if (0 : Nat) ≠ 0 then heapTraceUpdateEntry l s.trace p 0 n else s.trace) = s.trace := by
      simp
    rw [htrace]
    exact hinv.kept hsys hstable rfl
  · obtain ⟨bs, hr, ht⟩ := hinv.heap port
    have hfresh := (sysHeapRealloc_fresh hr ht hn hp hrun).resolve_left hret
    rw [if_neg hret] at hsys ⊢
    refine hinv.given hsep hsys hstable (fun q k hq => hinv.magic_update k hq) hmagic ?_
    intro hport hcovers
    rcases hp with rfl | ⟨k, hk⟩
    · have hlive : Function.update (s.heap port).live 0 none = (s.heap port).live := by
        rw [← ht.zero, Function.update_eq_self]
      have hnone := hfresh.resolve_left hret
      rw [hlive, if_pos rfl, if_pos hret, Traced.users_set hport rfl]
      refine hinv.holds.addEntry hret ?_ (hroom rfl)
      rw [Traced.users, hport, hnone]
      rfl
    · have husers := hinv.users_eq hsep hk
      have hlt := (hinv.heap port).lt hk
      obtain ⟨hpport, hpcovers⟩ := hinv.separates hsep hk
      rw [if_neg (hinv.holds.exists_row husers).1, if_pos hret]
      have hset : (s.set port ⟨{ h with links }, Function.update (Function.update
          (s.heap port).live p none) ret (some (n + heapMagicLen))⟩
          (heapTraceUpdateEntry l s.trace p ret n)).users l =
          Function.update (Function.update (s.users l) p none) ret (some n) := by
        rw [← Traced.set_set ⟨h, Function.update (s.heap port).live p none⟩ _ s.trace,
          Traced.users_set hport (v := some (n + heapMagicLen)), Traced.users_set hpport rfl]
        · rfl
        · rw [Traced.set_heap, if_pos rfl]
      rw [hset]
      refine hinv.holds.updateEntry husers (Nat.lt_of_le_of_lt (Nat.sub_le ..) hlt) hret ?_ ?_
      · rcases hfresh with hsame | hnone
        · exact .inl hsame
        · right
          rw [Traced.users, hport, hnone]
          rfl
      · intro r
        rw [hcovers, hpcovers]

theorem TracedInv.realloc (hsep : l.Separates lo hi) (hinv : TracedInv l lo hi s)
    (hn : n + heapMagicLen < 2 ^ 32) (hp : Owned (s.heap port).live p)
    (hroom : p = 0 → ∃ row ∈ s.trace.mem, row.ptr = 0) {h : SysHeap} {ret : Nat} {links : Links}
    (hrun : tracedRealloc l (s.heap port).heap s.trace p n = some (h, t, ret))
    (hmagic : SetsMagic h.links ret n links) :
    TracedInv l lo hi (s.set port ⟨{ h with links }, afterRealloc (s.heap port).live p
      (if n = 0 then 0 else n + heapMagicLen) ret⟩ t) := by
  by_cases hpos : n = 0
  · subst hpos
    obtain ⟨_, hr, -⟩ := hinv.heap port
    simp only [tracedRealloc, sysHeapRealloc, if_neg hr.end_ne_zero, ne_eq, not_true, if_false,
      if_true, Option.bind_eq_bind] at hrun
    obtain ⟨⟨h₁, ret₁⟩, hbind, heq⟩ := Option.bind_eq_some_iff.mp hrun
    obtain ⟨h₂, hfree, heq₂⟩ := Option.bind_eq_some_iff.mp hbind
    obtain ⟨rfl, rfl⟩ := Prod.mk.inj (Option.some.inj heq₂)
    obtain ⟨rfl, rfl, rfl⟩ : h₂ = h ∧ heapTraceRealloc l s.trace p 0 0 = t ∧ 0 = ret := by
      simpa using heq
    rw [SetsMagic, if_pos rfl] at hmagic
    subst hmagic
    rw [if_pos rfl, afterRealloc, if_pos rfl]
    refine hinv.free hsep hp ?_
    rw [tracedFree, hfree, heapTraceFree, heapTraceRealloc, if_pos rfl]
    by_cases hzero : p = 0 <;> simp [hzero]
  · rw [if_neg hpos]
    have hnz : n + heapMagicLen ≠ 0 := by omega
    have hsize : sub32 (n + heapMagicLen) heapMagicLen = n := by
      rw [sub32_of_le (Nat.le_add_left ..), Nat.add_sub_cancel]
    simp only [tracedRealloc, ne_eq, hpos, not_false_eq_true, if_true, u32_of_lt hn, if_neg hnz,
      hsize, Option.bind_eq_bind] at hrun
    obtain ⟨⟨h₁, ret₁⟩, hrealloc, heq⟩ := Option.bind_eq_some_iff.mp hrun
    obtain ⟨rfl, rfl, rfl⟩ : h₁ = h ∧ heapTraceRealloc l s.trace p ret₁ n = t ∧ ret₁ = ret := by
      simpa using heq
    exact hinv.resize hsep hpos hn hp hroom hrealloc hmagic

/-- A step keeps the invariant. -/
theorem TracedInv.step (hsep : l.Separates lo hi) (hinv : TracedInv l lo hi s)
    (hstep : Trans.Guarded (TracedStep l) Room s call s') : TracedInv l lo hi s' := by
  obtain ⟨hroom, hstep⟩ := hstep
  cases hstep with
  | malloc port n h t ret links hrun hmagic =>
    exact hinv.malloc hsep hroom.1 hroom.2 hrun hmagic
  | free port p h t hp hrun => exact hinv.free hsep hp hrun
  | realloc port p n h t ret links hp hrun hmagic =>
    exact hinv.realloc hsep hroom.1 hp hroom.2 hrun hmagic
  | write port p n links hp hsame =>
    have hsys : Inv (lo port) { s.heap port with heap.links := links } := by
      refine (hinv.heap port).write hp ?_
      intro a ha
      exact hsame a (by omega)
    exact hinv.kept hsys ⟨rfl, rfl, rfl, Nat.le_refl _⟩ rfl

/-! ## The sums -/

/-- The addresses of the block of a row. -/
def TraceMem.span (row : TraceMem) : Finset Nat :=
  if row.ptr = 0 then ∅ else Finset.Ico row.ptr (row.ptr + row.size)

theorem Layout.tally_le (r : Record) (row : TraceMem) :
    l.tally r TraceMem.size row ≤ row.span.card := by
  unfold Layout.tally TraceMem.span
  by_cases hzero : row.ptr = 0
  · simp [hzero]
  · rw [if_neg hzero, Nat.card_Ico, Nat.add_sub_cancel_left]
    split
    · exact Nat.le_refl _
    · exact Nat.zero_le _

/-- Rows of blocks that do not overlap. -/
theorem sum_card_le {rows : List TraceMem} {N : Nat}
    (hin : ∀ row ∈ rows, row.span ⊆ Finset.range N)
    (hapart : rows.Pairwise fun a b => Disjoint a.span b.span) :
    (rows.map fun row => row.span.card).sum ≤ N := by
  have hunion : ∃ u : Finset Nat, u ⊆ Finset.range N ∧
      u.card = (rows.map fun row => row.span.card).sum ∧ ∀ x ∈ u, ∃ row ∈ rows, x ∈ row.span := by
    induction hapart with
    | nil => exact ⟨∅, Finset.empty_subset _, rfl, by simp⟩
    | @cons a rows hhead _ ih =>
      obtain ⟨u, hu, hcard, hmem⟩ := ih fun row hrow => hin row (List.mem_cons_of_mem _ hrow)
      have hdisj : Disjoint a.span u := by
        rw [Finset.disjoint_left]
        intro x hx hxu
        obtain ⟨row, hrow, hxrow⟩ := hmem x hxu
        exact Finset.disjoint_left.mp (hhead row hrow) hx hxrow
      refine ⟨a.span ∪ u, Finset.union_subset (hin a List.mem_cons_self) hu, ?_, ?_⟩
      · rw [Finset.card_union_of_disjoint hdisj, hcard, List.map_cons, List.sum_cons]
      · intro x hx
        rcases Finset.mem_union.mp hx with hx | hx
        · exact ⟨a, List.mem_cons_self, hx⟩
        · obtain ⟨row, hrow, hxrow⟩ := hmem x hx
          exact ⟨row, List.mem_cons_of_mem _ hrow, hxrow⟩
  obtain ⟨u, hu, hcard, -⟩ := hunion
  rw [← hcard]
  exact (Finset.card_le_card hu).trans_eq (Finset.card_range N)

/-- The block of a row, in its heap. -/
theorem TracedInv.row (hinv : TracedInv l lo hi s) {row : TraceMem} (hrow : row ∈ s.trace.mem)
    (hne : row.ptr ≠ 0) :
    (s.heap (l.port row.ptr)).live row.ptr = some (row.size + heapMagicLen) := by
  have husers := (hinv.holds.mem row.ptr row.size).mpr ⟨hne, hrow⟩
  obtain ⟨k, hk, hsize⟩ := Option.map_eq_some_iff.mp husers
  have hle := hinv.magic _ _ _ hk
  rw [hk, ← hsize, Nat.sub_add_cancel hle]

theorem TracedInv.span_inside (hinv : TracedInv l lo hi s) {row : TraceMem}
    (hrow : row ∈ s.trace.mem) (hp : p ∈ row.span) :
    row.ptr ≠ 0 ∧ lo (l.port row.ptr) ≤ p ∧ p < hi (l.port row.ptr) := by
  unfold TraceMem.span at hp
  split at hp
  · simp at hp
  · rename_i hne
    obtain ⟨hlo, hhi⟩ := (hinv.heap _).inside (hinv.row hrow hne)
    rw [hinv.pxEnd] at hhi
    rw [Finset.mem_Ico] at hp
    unfold heapMagicLen at hhi
    exact ⟨hne, by omega, by omega⟩

/-- What the blocks add up to has no overflow. -/
theorem TracedInv.sum_le (hsep : l.Separates lo hi) (hinv : TracedInv l lo hi s) (r : Record) :
    (s.trace.mem.map (l.tally r TraceMem.size)).sum < 2 ^ 32 := by
  have hin : ∀ row ∈ s.trace.mem, row.span ⊆ Finset.range (2 ^ 32 - 1) := by
    intro row hrow x hx
    obtain ⟨-, -, hlt⟩ := hinv.span_inside hrow hx
    obtain ⟨_, hr, -⟩ := hinv.heap (l.port row.ptr)
    have hrange := hr.config.range.2
    rw [hinv.pxEnd] at hrange
    rw [Finset.mem_range]
    omega
  have hapart : s.trace.mem.Pairwise fun a b => Disjoint a.span b.span := by
    rw [List.pairwise_iff_getElem]
    intro i j hi hj hij
    rw [Finset.disjoint_left]
    intro x hx hx'
    obtain ⟨hne, hlo, hhi⟩ := hinv.span_inside (List.getElem_mem hi) hx
    obtain ⟨hne', hlo', hhi'⟩ := hinv.span_inside (List.getElem_mem hj) hx'
    have hport := ((hsep _ x hlo (Nat.le_of_lt hhi)).1).symm.trans
      (hsep _ x hlo' (Nat.le_of_lt hhi')).1
    have hrow := hinv.row (List.getElem_mem hi) hne
    have hrow' := hinv.row (List.getElem_mem hj) hne'
    rw [← hport] at hrow'
    have hptr : s.trace.mem[i].ptr ≠ s.trace.mem[j].ptr := by
      intro heq
      have hsame := hinv.holds.distinct i j _ _ _ (List.getElem?_eq_getElem hi)
        (List.getElem?_eq_getElem hj) (TraceMem.key_eq_some.mpr ⟨hne, rfl⟩)
        (TraceMem.key_eq_some.mpr ⟨hne, heq.symm⟩)
      omega
    obtain ⟨bs, hr, ht⟩ := hinv.heap (l.port s.trace.mem[i].ptr)
    have hdisj := (sysOk_of_rep hr ht).disjoint _ _ _ _ hrow hrow' hptr
    simp only [TraceMem.span, if_neg hne, if_neg hne', Finset.mem_Ico] at hx hx'
    omega
  calc (s.trace.mem.map (l.tally r TraceMem.size)).sum
      ≤ (s.trace.mem.map fun row => row.span.card).sum :=
        List.sum_le_sum fun row _ => Layout.tally_le r row
    _ ≤ 2 ^ 32 - 1 := sum_card_le hin hapart
    _ < 2 ^ 32 := by decide

/-! ## The maxima -/

/-- The maxima are brought up to date. -/
structure HeapInfo.Updated (i i' : HeapInfo) : Prop where
  entryCntMax : i'.entryCntMax = max i.entryCntMax i'.entryCnt
  sumMax : i'.sumMax = max i.sumMax i'.sum

/-- No record is above its maximum. -/
def Below (t : HeapTrace) : Prop :=
  ∀ r, (t.info r).entryCnt ≤ (t.info r).entryCntMax ∧ (t.info r).sum ≤ (t.info r).sumMax

/-- `t'` is `t` after one call. -/
def Updates (t t' : HeapTrace) : Prop := ∀ r, (t.info r).Updated (t'.info r)

theorem Below.refl (h : Below t) : Updates t t := by
  intro r
  exact ⟨(Nat.max_eq_left (h r).1).symm, (Nat.max_eq_left (h r).2).symm⟩

theorem Below.addEntry (h : Below t) (ptr size : Nat) :
    Updates t (heapTraceAddEntry l t ptr size) := by
  unfold heapTraceAddEntry
  split
  · intro r
    dsimp only
    split
    · exact ⟨rfl, rfl⟩
    · exact h.refl r
  · exact h.refl

theorem Below.updateEntry (h : Below t) (oldPtr newPtr newSize : Nat) :
    Updates t (heapTraceUpdateEntry l t oldPtr newPtr newSize) := by
  unfold heapTraceUpdateEntry
  split
  · intro r
    exact ⟨(Nat.max_eq_left (h r).1).symm, rfl⟩
  · exact h.refl

theorem Below.deleteEntry (h : Below t) {live : Nat → Option Nat} (hholds : Holds l live t)
    (hsum : ∀ r, (t.mem.map (l.tally r TraceMem.size)).sum < 2 ^ 32) {ptr : Nat} (hne : ptr ≠ 0) :
    Updates t (heapTraceDeleteEntry l t ptr) := by
  unfold heapTraceDeleteEntry
  split
  · rename_i i hfind
    obtain ⟨hlt, hptr, -⟩ := List.findIdx?_eq_some_iff_getElem.mp hfind
    have hi : t.mem[i]? = some t.mem[i] := List.getElem?_eq_getElem hlt
    have hrow : t.mem[i].ptr = ptr := of_decide_eq_true hptr
    have hget : t.mem.getD i ⟨0, 0⟩ = t.mem[i] := by
      rw [List.getD_eq_getElem?_getD, hi]
      rfl
    intro r
    dsimp only
    rw [hget]
    split
    · rename_i hc
      have hrest := sum_map_set (b := ⟨0, 0⟩) (l.tally r TraceMem.size) hi
      have hcounted : l.tally r TraceMem.size t.mem[i] = t.mem[i].size :=
        if_pos ⟨hrow ▸ hne, hrow.symm ▸ hc⟩
      rw [hcounted, Layout.tally_free] at hrest
      have hsize : t.mem[i].size ≤ (t.info r).sum := by
        rw [(hholds.info r).sum, u32_of_lt (hsum r)]
        omega
      obtain ⟨hcnt, hmax⟩ := h r
      refine ⟨?_, ?_⟩
      · exact (Nat.max_eq_left (Nat.le_trans (Nat.sub_le ..) hcnt)).symm
      · change (t.info r).sumMax = max (t.info r).sumMax (sub32 (t.info r).sum t.mem[i].size)
        rw [sub32_of_le hsize]
        exact (Nat.max_eq_left (Nat.le_trans (Nat.sub_le ..) hmax)).symm
    · exact h.refl r
  · exact h.refl

theorem Below.realloc (h : Below t) {oldPtr : Nat}
    (hdelete : oldPtr ≠ 0 → Updates t (heapTraceDeleteEntry l t oldPtr)) (newPtr newSize : Nat) :
    Updates t (heapTraceRealloc l t oldPtr newPtr newSize) := by
  unfold heapTraceRealloc
  split
  · split
    · rename_i hne
      exact hdelete hne
    · exact h.refl
  split
  · split
    · exact h.addEntry _ _
    · exact h.refl
  split
  · exact h.updateEntry _ _ _
  · exact h.refl

/-- A call brings the maxima up to date. -/
theorem TracedInv.updates (hsep : l.Separates lo hi) (hinv : TracedInv l lo hi s)
    (h : Below s.trace) (hstep : TracedStep l s call s') : Updates s.trace s'.trace := by
  have hdelete : ∀ ptr, ptr ≠ 0 → Updates s.trace (heapTraceDeleteEntry l s.trace ptr) :=
    fun ptr hne => h.deleteEntry hinv.holds (hinv.sum_le hsep) hne
  cases hstep with
  | malloc port n h₁ t ret links hrun =>
    obtain ⟨_, -, heq⟩ := Option.bind_eq_some_iff.mp hrun
    obtain ⟨-, rfl, -⟩ := by simpa using heq
    rw [Traced.set_trace, heapTraceMalloc]
    split
    · exact h.addEntry _ _
    · exact h.refl
  | free port p h₁ t hp hrun =>
    obtain ⟨_, -, heq⟩ := Option.bind_eq_some_iff.mp hrun
    obtain ⟨-, rfl⟩ := by simpa using heq
    rw [Traced.set_trace, heapTraceFree]
    split
    · exact h.refl
    · rename_i hne
      exact hdelete p hne
  | realloc port p n h₁ t ret links hp hrun =>
    obtain ⟨_, -, heq⟩ := Option.bind_eq_some_iff.mp hrun
    obtain ⟨-, rfl, -⟩ := by simpa using heq
    exact h.realloc (hdelete p) _ _
  | write => exact h.refl

/-! ## Runs -/

/-- The rows of the table that count in a record. -/
def HeapTrace.counted (l : Layout) (t : HeapTrace) (r : Record) : List TraceMem :=
  t.mem.filter fun row => row.ptr ≠ 0 ∧ l.covers r row.ptr

/-- What the trace has to say of the heaps. -/
structure TraceOk (l : Layout) (s : Traced) : Prop where
  rows : ∀ p n, p ≠ 0 ∧ ⟨p, n⟩ ∈ s.trace.mem ↔
    ∃ port, (s.heap port).live p = some (n + heapMagicLen)
  once : Distinct TraceMem.key s.trace.mem
  used : ∀ (i : Nat) (row : TraceMem), i < s.trace.emptyIdx → s.trace.mem[i]? = some row →
    row.ptr ≠ 0
  covers : ∀ port p k, (s.heap port).live p = some k → ∀ r, l.covers r p = r.counts port
  entryCnt : ∀ r, (s.trace.info r).entryCnt = (s.trace.counted l r).length
  sum : ∀ r, (s.trace.info r).sum = ((s.trace.counted l r).map (·.size)).sum

theorem sum_tally (r : Record) (f : TraceMem → Nat) (rows : List TraceMem) :
    (rows.map (l.tally r f)).sum =
      ((rows.filter fun row => row.ptr ≠ 0 ∧ l.covers r row.ptr).map f).sum := by
  induction rows with
  | nil => rfl
  | cons row rows ih =>
    rw [List.map_cons, List.sum_cons, ih, Layout.tally]
    by_cases hrow : row.ptr ≠ 0 ∧ l.covers r row.ptr
    · rw [if_pos hrow, List.filter_cons_of_pos (by simpa using hrow), List.map_cons, List.sum_cons]
    · rw [if_neg hrow, List.filter_cons_of_neg (by simpa using hrow), Nat.zero_add]

theorem TracedInv.traceOk (hsep : l.Separates lo hi) (hinv : TracedInv l lo hi s) :
    TraceOk l s := by
  have hholds := hinv.holds
  refine ⟨?_, hholds.distinct, hholds.used, ?_, ?_, ?_⟩
  · intro p n
    constructor
    · rintro ⟨hne, hrow⟩
      exact ⟨_, hinv.row hrow hne⟩
    · rintro ⟨port, hp⟩
      refine (hholds.mem p n).mp ?_
      rw [hinv.users_eq hsep hp, Nat.add_sub_cancel]
  · intro port p k hp
    exact (hinv.separates hsep hp).2
  · intro r
    rw [(hholds.info r).entryCnt, sum_tally]
    simp [HeapTrace.counted]
  · intro r
    rw [(hholds.info r).sum, u32_of_lt (hinv.sum_le hsep r), sum_tally]
    rfl

end

/-- Where the two heaps are, and `xStart` of each; `psram_heap_len` leaves 17 bytes at the end. -/
structure Layout.Ok (l : Layout) (xStart : Port → Nat) : Prop where
  sram : Region (xStart .sram) l.heapStart (l.heapEnd - l.heapStart)
  psram : Region (xStart .psram) l.psramEnd (l.psramEndAddr - l.psramEnd - 17)
  apart : l.heapEnd < l.psramEnd ∨ l.psramEndAddr < l.heapStart

/-- The heaps as they were started, no user, and an empty table. -/
def Layout.start (l : Layout) (xStart : Port → Nat) (links : Links) : Traced where
  heap
    | .sram => Port.sram.start (xStart .sram) l.heapStart (l.heapEnd - l.heapStart) links
    | .psram => Port.psram.start (xStart .psram) l.psramEnd (l.psramEndAddr - l.psramEnd - 17) links
  trace := heapTraceStart

section

variable {l : Layout} {lo hi xStart : Port → Nat}

theorem Layout.Ok.separates (hl : l.Ok xStart)
    (hsram : Covers l.heapStart (l.heapEnd - l.heapStart) (lo .sram) (hi .sram))
    (hpsram : Covers l.psramEnd (l.psramEndAddr - l.psramEnd - 17) (lo .psram) (hi .psram)) :
    l.Separates lo hi := by
  obtain ⟨-, hroom, -, -, -⟩ := hl.sram
  obtain ⟨-, hroom', -, -, -⟩ := hl.psram
  have hapart := hl.apart
  obtain ⟨h1, -, h2, -⟩ := hsram
  obtain ⟨h3, -, h4, -⟩ := hpsram
  intro port p hlo hhi
  cases port with
  | sram =>
    have hin : rangeof p l.heapStart l.heapEnd = true := by
      simp only [rangeof, decide_eq_true_eq]
      omega
    have hout : rangeof p l.psramEnd l.psramEndAddr = false := by
      simp only [rangeof, decide_eq_false_iff_not]
      omega
    refine ⟨if_pos hin, ?_⟩
    intro r
    cases r <;> simp [Layout.covers, Record.counts, hin, hout]
  | psram =>
    have hin : rangeof p l.psramEnd l.psramEndAddr = true := by
      simp only [rangeof, decide_eq_true_eq]
      omega
    have hout : rangeof p l.heapStart l.heapEnd = false := by
      simp only [rangeof, decide_eq_false_iff_not]
      omega
    refine ⟨if_neg (by simp [hout]), ?_⟩
    intro r
    cases r <;> simp [Layout.covers, Record.counts, hin, hout]

theorem holds_start (l : Layout) : Holds l (fun _ => none) heapTraceStart := by
  have hrow : ∀ row ∈ heapTraceStart.mem, row = ⟨0, 0⟩ := fun row h => List.eq_of_mem_replicate h
  refine ⟨?_, ?_, Nat.zero_le _, ?_, ?_⟩
  · intro i j a b k ha _ hk
    rw [hrow a (List.mem_of_getElem? ha)] at hk
    cases hk
  · intro p n
    refine iff_of_false nofun ?_
    rintro ⟨hne, h⟩
    cases hrow _ h
    exact hne rfl
  · intro i row hlt
    exact absurd hlt (Nat.not_lt_zero i)
  · intro r
    constructor <;> simp [heapTraceStart, u32]

/-- The invariant at the start. -/
theorem Layout.Ok.tracedInv (hl : l.Ok xStart) (links : Links) :
    ∃ lo hi, l.Separates lo hi ∧ TracedInv l lo hi (l.start xStart links) := by
  obtain ⟨lo, hcovers, hrep⟩ := Port.sram.init_rep links hl.sram
  obtain ⟨lo', hcovers', hrep'⟩ := Port.psram.init_rep links hl.psram
  refine ⟨fun | .sram => lo | .psram => lo', fun port => ((l.start xStart links).heap port).heap.pxEnd,
    hl.separates hcovers hcovers', ?_, fun _ => rfl, ?_, ?_⟩
  · intro port
    cases port with
    | sram => exact ⟨_, hrep, fun p n => by simp [Layout.start, Port.start]⟩
    | psram => exact ⟨_, hrep', fun p n => by simp [Layout.start, Port.start]⟩
  · intro port p n hp
    cases port <;> cases hp
  · have husers : (l.start xStart links).users l = fun _ => none := by
      funext p
      unfold Traced.users
      cases l.port p <;> rfl
    rw [husers]
    exact holds_start l

/-- In every run in which the sizes leave room for the guard bytes and the table has a row for each
block: the heaps are what they have to be, so that the guard bytes are in the blocks, the trace says
what the users have, and the maxima are the greatest numbers and sums there have been. -/
theorem heap_trace_ok (hl : l.Ok xStart) (links : Links) :
    ∃ lo hi : Port → Nat, ∀ calls s,
      Trans.Run (Trans.Guarded (TracedStep l) Room) (l.start xStart links) calls s →
        (∀ port, ∃ bs, SysOk (lo port) (hi port) (s.heap port) bs) ∧ TraceOk l s ∧
        ∀ r, Trans.IsPeak (Trans.Guarded (TracedStep l) Room) (fun s => (s.trace.info r).entryCnt)
            (l.start xStart links) s (s.trace.info r).entryCntMax ∧
          Trans.IsPeak (Trans.Guarded (TracedStep l) Room) (fun s => (s.trace.info r).sum)
            (l.start xStart links) s (s.trace.info r).sumMax := by
  obtain ⟨lo, hi, hsep, h0⟩ := hl.tracedInv links
  have hbelow : Below (l.start xStart links).trace := fun r => ⟨Nat.le_refl 0, Nat.le_refl 0⟩
  have hstep : ∀ s call s', TracedInv l lo hi s ∧ Below s.trace →
      Trans.Guarded (TracedStep l) Room s call s' →
      (TracedInv l lo hi s' ∧ Below s'.trace) ∧ Updates s.trace s'.trace := by
    intro s call s' hs hcall
    have hupdates := hs.1.updates hsep hs.2 hcall.2
    refine ⟨⟨hs.1.step hsep hcall, fun r => ?_⟩, hupdates⟩
    obtain ⟨hcnt, hsum⟩ := hupdates r
    exact ⟨hcnt ▸ Nat.le_max_right .., hsum ▸ Nat.le_max_right ..⟩
  refine ⟨lo, hi, ?_⟩
  intro calls s hrun
  have hinv := (hrun.invariant (I := fun s => TracedInv l lo hi s ∧ Below s.trace) ⟨h0, hbelow⟩
    fun s call s' hs hcall => (hstep s call s' hs hcall).1).1
  refine ⟨?_, hinv.traceOk hsep, ?_⟩
  · intro port
    obtain ⟨bs, hr, ht⟩ := hinv.heap port
    exact ⟨bs, hinv.pxEnd port ▸ sysOk_of_rep hr ht⟩
  · intro r
    constructor
    · refine hrun.peak (I := fun s => TracedInv l lo hi s ∧ Below s.trace)
        (g := fun s => (s.trace.info r).entryCntMax) ⟨h0, hbelow⟩ rfl ?_
      intro s call s' hs hcall
      obtain ⟨hs', hupdates⟩ := hstep s call s' hs hcall
      exact ⟨hs', (hupdates r).entryCntMax⟩
    · refine hrun.peak (I := fun s => TracedInv l lo hi s ∧ Below s.trace)
        (g := fun s => (s.trace.info r).sumMax) ⟨h0, hbelow⟩ rfl ?_
      intro s call s' hs hcall
      obtain ⟨hs', hupdates⟩ := hstep s call s' hs hcall
      exact ⟨hs', (hupdates r).sumMax⟩

/-- Two heaps of 256 bytes. -/
def smallLayout : Layout := ⟨0x1000, 0x1100, 0x2000, 0x2111⟩

def smallXStart : Port → Nat
  | .sram => 16
  | .psram => 32

theorem smallLayout_ok : smallLayout.Ok smallXStart := by
  refine ⟨?_, ?_, .inl (by decide)⟩ <;> constructor <;> decide

/-- A block in each heap, and the first one grows. -/
theorem heap_trace_ok_small : ∃ s,
    Trans.Run (Trans.Guarded (TracedStep smallLayout) Room)
      (smallLayout.start smallXStart fun _ => ⟨0, 0⟩)
      [.malloc .sram 20, .malloc .psram 8, .realloc .sram 0x1010 40] s ∧
    TraceOk smallLayout s ∧ (s.trace.info .total).sum = 48 ∧ (s.trace.info .sram).entryCnt = 1 := by
  obtain ⟨lo, hi, hruns⟩ := heap_trace_ok smallLayout_ok fun _ => ⟨0, 0⟩
  have hrun : ∃ s, Trans.Run (Trans.Guarded (TracedStep smallLayout) Room)
      (smallLayout.start smallXStart fun _ => ⟨0, 0⟩)
      [.malloc .sram 20, .malloc .psram 8, .realloc .sram 0x1010 40] s ∧
      (s.trace.info .total).sum = 48 ∧ (s.trace.info .sram).entryCnt = 1 :=
    ⟨_, .cons ⟨⟨by decide, ⟨0, 0⟩, by decide, rfl⟩, .malloc _ .sram 20 _ _ _ _ rfl fun _ _ => rfl⟩
      (.cons ⟨⟨by decide, ⟨0, 0⟩, by decide, rfl⟩, .malloc _ .psram 8 _ _ _ _ rfl fun _ _ => rfl⟩
      (.cons ⟨⟨by decide, nofun⟩,
        .realloc _ .sram 0x1010 40 _ _ _ _ (.inr ⟨24, rfl⟩) rfl fun _ _ => rfl⟩ (.nil _))), rfl, rfl⟩
  obtain ⟨s, hrun, hsum, hcnt⟩ := hrun
  exact ⟨s, hrun, (hruns _ _ hrun).2.1, hsum, hcnt⟩

end

end Heap
end XR806

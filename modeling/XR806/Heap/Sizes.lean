import XR806.Heap.Realloc

/-!
# XR806.Heap.Sizes

The sizes that allocation works out. `sys_heap_malloc` adds the link and rounds up without wrapping,
as it refuses the sizes with the top bit; the product of a `calloc` is taken modulo `2 ^ 32`, and
when it wraps a block of the wrapped size is given away, if there is room for one (`alloc_sizes`).
-/

namespace XR806
namespace Heap

open Tile

section

variable {lo p k : Nat} {s : Machine} {bs : List (Block Nat)} {live : Nat → Option Nat}

theorem HeapRep.usable_lt (hr : HeapRep s.heap lo bs) (ht : Tracks bs live) (hp : live p = some k) :
    usable s.heap p < 2 ^ 31 := by
  obtain ⟨b, hb, hown, rfl⟩ := (ht p k).mp hp
  have hrange := hr.addr_range hb
  have hsmall := hr.config.small
  rw [hr.usable_eq hb hown]
  omega

/-- A `calloc` gives what it was asked for just when the product fits, or nothing is given. -/
theorem HeapRep.calloc_iff (hr : HeapRep s.heap lo bs) (hclear : Clear s.heap lo)
    (ht : Tracks bs live) (k n : Nat) :
    ∃ s' ret, s.calloc k n = some (s', ret) ∧ Stable s.heap s'.heap ∧
      Good lo s' (afterAlloc live (u32 (k * n)) ret) ∧
      ((ret = 0 ∨ Zeroed s' ret (k * n)) ↔ k * n < 2 ^ 32 ∨ NoRoom s.heap bs (u32 (k * n))) := by
  obtain ⟨s', ret, hrun, hstable, hg, hcases⟩ := hr.calloc hclear ht k n
  refine ⟨s', ret, hrun, hstable, hg, ?_⟩
  rcases hcases with ⟨hret, hroom⟩ | ⟨hret, hroom, hzero⟩
  · exact ⟨fun _ => .inr hroom, fun _ => .inl hret⟩
  constructor
  · rintro (hnull | ⟨hfit, -⟩)
    · exact absurd hnull hret
    · obtain ⟨-, bs', hr', ht'⟩ := hg
      have hlive : afterAlloc live (u32 (k * n)) ret ret = some (u32 (k * n)) := by
        rw [afterAlloc, if_neg hret, Function.update_self]
      have hlt := hr'.usable_lt ht' hlive
      exact .inl (by omega)
  · rintro (hlt | hnone)
    · rw [u32_of_lt hlt] at hzero
      exact .inr hzero
    · exact absurd hnone hroom

end

/-- In every run: `malloc` of any size returns `NULL` or a block in which that many bytes are usable,
and `calloc` returns `NULL` or a zeroed block of the product just when the product fits in 32 bits
or there is no room for what is left of it. Either way the heap is what it has to be. -/
theorem alloc_sizes (port : Port) {xStart base len : Nat} (mem : Mem)
    (hreg : Region xStart base len) (hclear : xStart + 8 ≤ base ∨ base + len ≤ xStart) :
    ∃ lo hi, Covers base len lo hi ∧ ∀ calls s,
      Trans.Run UserStep (port.users xStart base len mem) calls s →
        ∃ bs, SysOk lo hi ⟨s.machine.heap, s.live⟩ bs ∧
          (∀ n : UInt32, ∃ s' ret, s.machine.malloc n.toNat = some (s', ret) ∧
            (ret = 0 ∨ n.toNat ≤ usable s'.heap ret) ∧
            ∃ bs', SysOk lo hi ⟨s'.heap, afterAlloc s.live n.toNat ret⟩ bs') ∧
          ∀ calloc ∈ [Machine.calloc, Machine.sramCalloc, Machine.psramCalloc], ∀ k n : UInt32,
            ∃ s' ret, calloc s.machine k.toNat n.toNat = some (s', ret) ∧
              (∃ bs', SysOk lo hi
                ⟨s'.heap, afterAlloc s.live (u32 (k.toNat * n.toNat)) ret⟩ bs') ∧
              ((ret = 0 ∨ Zeroed s' ret (k.toNat * n.toNat)) ↔
                k.toNat * n.toNat < 2 ^ 32 ∨
                  NoRoom s.machine.heap bs (u32 (k.toNat * n.toNat))) := by
  obtain ⟨lo, hi, hcovers, hgood⟩ := port.run_good mem hreg hclear
  refine ⟨lo, hi, hcovers, fun calls s hrun => ?_⟩
  obtain ⟨⟨hc, bs, hr, ht⟩, hend⟩ := hgood calls s hrun
  have hok : ∀ {s' : Machine} {live}, Good lo s' live → Stable s.machine.heap s'.heap →
      ∃ bs', SysOk lo hi ⟨s'.heap, live⟩ bs' := by
    rintro s' live ⟨-, bs', hr', ht'⟩ hstable
    have hend' : s'.heap.pxEnd = hi := hstable.pxEnd.trans hend
    exact ⟨bs', hend' ▸ sysOk_of_rep hr' ht'⟩
  refine ⟨bs, hend ▸ sysOk_of_rep hr ht, fun n => ?_, fun calloc hmem k n => ?_⟩
  · obtain ⟨s', ret, hrun', hstable, hcases⟩ := Good.malloc ⟨hc, bs, hr, ht⟩ n.toNat_lt
    refine ⟨s', ret, hrun', ?_, hok ?_ hstable⟩
    · rcases hcases with ⟨hret, -⟩ | ⟨-, -, hfit, -⟩
      · exact .inl hret
      · exact .inr hfit
    · rcases hcases with ⟨rfl, rfl⟩ | ⟨hret, -, -, hgiven, -⟩
      · exact ⟨hc, bs, hr, ht⟩
      · rw [afterAlloc, if_neg hret]
        exact hgiven _ (Nat.le_refl _)
  · have heq : calloc = Machine.calloc := by
      simp only [List.mem_cons, List.not_mem_nil, or_false] at hmem
      rcases hmem with rfl | rfl | rfl <;> rfl
    obtain ⟨s', ret, hrun', hstable, hg, hiff⟩ := hr.calloc_iff hc ht k.toNat n.toNat
    exact ⟨s', ret, heq ▸ hrun', hok hg hstable, hiff⟩

theorem alloc_sizes_small : ∃ s ret,
    (Port.sram.users 16 0x1000 256 fun _ => 0).machine.calloc 3 5 = some (s, ret) ∧
      (ret = 0 ∨ Zeroed s ret 15) := by
  obtain ⟨lo, hi, -, hruns⟩ := alloc_sizes .sram (fun _ => 0) small_region (by decide)
  obtain ⟨bs, -, -, hcalloc⟩ := hruns [] _ (.nil _)
  obtain ⟨s, ret, hrun, -, hiff⟩ := hcalloc Machine.calloc (.head _) 3 5
  exact ⟨s, ret, hrun, hiff.mpr (.inl (by decide))⟩

/-- The product of `2 ^ 28 + 1` and 16 wraps to 16, for which there is room. -/
theorem calloc_too_small : ∃ s ret,
    (Port.sram.users 16 0x1000 256 fun _ => 0).machine.calloc 0x10000001 16 = some (s, ret) ∧ ret ≠ 0 ∧
      usable s.heap ret < 0x10000001 * 16 := by
  obtain ⟨lo, hcovers, hc, hr⟩ := Port.sram.users_rep (fun _ => 0) small_region (by decide)
  obtain ⟨s, ret, hrun, -, ⟨-, bs, hr', ht⟩, hcases⟩ := hr.calloc hc (tracks_free rfl) 0x10000001 16
  have hwrap : u32 (0x10000001 * 16) = 16 := rfl
  rw [hwrap] at hcases ht
  refine ⟨s, ret, hrun, ?_⟩
  rcases hcases with ⟨-, hroom⟩ | ⟨hret, -⟩
  · exact absurd hroom (room_small hr hcovers (by decide) (by decide))
  · refine ⟨hret, ?_⟩
    have hlive : afterAlloc (fun _ => none) 16 ret ret = some 16 := by
      rw [afterAlloc, if_neg hret, Function.update_self]
    have hlt := hr'.usable_lt ht hlive
    omega

end Heap
end XR806

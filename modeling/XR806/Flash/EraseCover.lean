import XR806.Flash.Report
import XR806.Tile.Blocks

/-!
# XR806.Flash.EraseCover

What `flash_erase` has erased when it returns 0, whatever the chip supports and whichever requests
fail: blocks that lie end to end from the start of the area to its end, each of a size the chip
supports (`flash_erase_covers`).

For an area smaller than every block the chip supports there is no plan: nothing is erased, and
the return value is 0 all the same (`sector_not_erased`).
-/

namespace XR806
namespace Flash

open Nor Tile

/-! ## Blocks -/

/-- The blocks of one call of `HAL_Flash_Erase`. -/
def modeBlocks (mode : EraseMode) : Nat → Nat → List (Block EraseMode)
  | _, 0 => []
  | start, n + 1 => ⟨start, mode.size, some mode⟩ :: modeBlocks mode (start + mode.size) n

def partBlocks (part : EraseMode × Nat × Nat) : List (Block EraseMode) :=
  modeBlocks part.1 part.2.1 (part.2.2 / part.1.size)

def planBlocks (plan : ErasePlan) : List (Block EraseMode) := plan.flatMap partBlocks

/-- The erase command for a block. -/
def eraseOf (dev : Nat) (b : Block EraseMode) : Write := .erase dev b.addr b.size

/-- The commands that were accepted. -/
def accepted (es : List Event) : List Write :=
  es.filterMap fun e =>
    match e with
    | .command w true => some w
    | _ => none

/-- The commands were for these blocks, and for each of them once unless a wait gave up. -/
structure Issues (dev : Nat) (bs : List (Block EraseMode)) (es : List Event) : Prop where
  same : ∀ w, w ∈ accepted es ↔ w ∈ bs.map (eraseOf dev)
  once : lateWaits es = 0 → accepted es = bs.map (eraseOf dev)

/-- A block the chip can erase. -/
structure CanErase (chip : Chip) (b : Block EraseMode) : Prop where
  mode : ∃ mode, chip.supports mode ∧ b.size = mode.size ∧ b.addr % mode.size = 0

/-- The blocks cover the area once, and nothing else. -/
structure Exactly (chip : Chip) (addr size : Nat) (bs : List (Block EraseMode)) : Prop where
  tiles : ∃ bs', bs'.Perm bs ∧ Tile.Tiles addr bs' (addr + size)
  blocks : ∀ b ∈ bs, CanErase chip b

/-- There are blocks that cover the area once. -/
def Tileable (chip : Chip) (addr size : Nat) : Prop := ∃ bs, Exactly chip addr size bs

/-! ## The plan -/

section

variable {mode : EraseMode} {start n addr size : Nat}

theorem tiles_modeBlocks (mode : EraseMode) (start n : Nat) :
    Tile.Tiles start (modeBlocks mode start n) (start + mode.size * n) := by
  induction n generalizing start with
  | zero => rfl
  | succ n ih =>
    refine ⟨rfl, mode.size_pos, ?_⟩
    have h := ih (start + mode.size)
    rwa [Nat.add_assoc, Nat.add_comm mode.size, ← Nat.mul_succ] at h

theorem tiles_partBlocks (start : Nat) (h : size % mode.size = 0) :
    Tile.Tiles start (partBlocks (mode, start, size)) (start + size) := by
  have htiles := tiles_modeBlocks mode start (size / mode.size)
  rwa [Nat.mul_div_cancel' (Nat.dvd_of_mod_eq_zero h)] at htiles

theorem partBlocks_zero : partBlocks (mode, start, 0) = [] := by
  rw [partBlocks, Nat.zero_div, modeBlocks]

theorem mem_modeBlocks {b : Block EraseMode} (hb : b ∈ modeBlocks mode start n) :
    b.size = mode.size ∧ (start % mode.size = 0 → b.addr % mode.size = 0) := by
  induction n generalizing start with
  | zero => cases hb
  | succ n ih =>
    cases hb with
    | head => exact ⟨rfl, id⟩
    | tail _ hb =>
      obtain ⟨h1, h2⟩ := ih hb
      exact ⟨h1, fun hs => h2 (by rw [Nat.add_mod_right, hs])⟩

/-- The five parts of a plan, in the order of their addresses. -/
theorem tiles_five {a y x z w e : Nat} (hay : a ≤ y) (hyx : y ≤ x) (hxz : x ≤ z) (hzw : z ≤ w)
    (hwe : w ≤ e) (h1 : (y - a) % 4096 = 0) (h2 : (x - y) % 32768 = 0) (h3 : (z - x) % 65536 = 0)
    (h4 : (w - z) % 32768 = 0) (h5 : (e - w) % 4096 = 0) :
    ∃ bs', bs'.Perm (planBlocks [(.kb4, a, y - a), (.kb4, w, e - w), (.kb32, y, x - y),
      (.kb32, z, w - z), (.kb64, x, z - x)]) ∧ Tile.Tiles a bs' e := by
  refine ⟨partBlocks (.kb4, a, y - a) ++ (partBlocks (.kb32, y, x - y) ++
    (partBlocks (.kb64, x, z - x) ++ (partBlocks (.kb32, z, w - z) ++
      partBlocks (.kb4, w, e - w)))), ?_, ?_⟩
  · simp only [planBlocks, List.flatMap_cons, List.flatMap_nil, List.append_nil]
    refine List.Perm.append_left _ ?_
    refine List.Perm.trans ?_ List.perm_append_comm
    rw [List.append_assoc, List.append_assoc]
    refine List.Perm.append_left _ ?_
    rw [← List.append_assoc, ← List.append_assoc]
    exact List.Perm.append_right _ List.perm_append_comm
  · have hpart : ∀ (mode : EraseMode) {lo hi : Nat}, lo ≤ hi → (hi - lo) % mode.size = 0 →
        Tile.Tiles lo (partBlocks (mode, lo, hi - lo)) hi := by
      intro mode lo hi hle hdvd
      have htiles := tiles_partBlocks lo hdvd
      rwa [Nat.add_sub_cancel' hle] at htiles
    exact tiles_append.mpr ⟨y, hpart .kb4 hay h1, tiles_append.mpr ⟨x, hpart .kb32 hyx h2,
      tiles_append.mpr ⟨z, hpart .kb64 hxz h3, tiles_append.mpr ⟨w, hpart .kb32 hzw h4,
        hpart .kb4 hwe h5⟩⟩⟩⟩

/-- The end of an area at the end of the address space is taken for 0; the parts behind it are
empty. -/
theorem planBlocks_plan64 (ha : addr % 4096 = 0) (hsz : size % 4096 = 0) (hpos : 65536 ≤ size)
    (hsize : size < 2 ^ 32) (hend : addr + size ≤ 2 ^ 32) :
    ∃ bs', bs'.Perm (planBlocks (erasePlan64 addr (u32 (addr + size)))) ∧
      Tile.Tiles addr bs' (addr + size) := by
  obtain ⟨x, hx, hx1, hx2⟩ := alignUp_spec addr 65536 (by decide) (by omega)
  obtain ⟨y, hy, hy1, hy2⟩ := alignUp_spec addr 32768 (by decide) (by omega)
  rcases Nat.lt_or_ge (addr + size) (2 ^ 32) with hlt | hge
  · obtain ⟨z, hz, hz1, hz2⟩ := alignDown_spec (addr + size) 65536 (by decide)
    obtain ⟨w, hw, hw1, hw2⟩ := alignDown_spec (addr + size) 32768 (by decide)
    have h := tiles_five (a := addr) (y := 32768 * y) (x := 65536 * x) (z := 65536 * z)
      (w := 32768 * w) (e := addr + size) hy1 (by omega) (by omega) (by omega) hw1 (by omega)
      (by omega) (by omega) (by omega) (by omega)
    simp only [erasePlan64, u32_of_lt hlt, hx, hy, hz, hw]
    rwa [sub32_of_le hy1, sub32_of_le hw1, sub32_of_le (by omega), sub32_of_le (by omega),
      sub32_of_le (by omega)]
  · have heq : addr + size = 2 ^ 32 := by omega
    have h := tiles_five (a := addr) (y := 32768 * y) (x := 65536 * x) (z := 2 ^ 32)
      (w := 2 ^ 32) (e := 2 ^ 32) hy1 (by omega) (by omega) (Nat.le_refl _) (Nat.le_refl _)
      (by omega) (by omega) (by omega) (by omega) (by omega)
    have hzero : alignDown 0 65536 = 0 ∧ alignDown 0 32768 = 0 := by decide
    have hsub : sub32 0 (65536 * x) = 2 ^ 32 - 65536 * x := by
      unfold sub32
      rw [if_neg (by omega), Nat.sub_zero]
    rw [heq]
    simp only [erasePlan64, show u32 (2 ^ 32) = 0 from rfl, hx, hy, hzero.1, hzero.2]
    rw [sub32_of_le hy1, sub32_of_le (by omega : 32768 * y ≤ 65536 * x), hsub,
      show sub32 0 0 = 0 from rfl]
    simp only [planBlocks, List.flatMap_cons, List.flatMap_nil, Nat.sub_self,
      partBlocks_zero] at h ⊢
    exact h

theorem planBlocks_plan32 (ha : addr % 4096 = 0) (hsz : size % 4096 = 0) (hpos : 32768 ≤ size)
    (hsize : size < 2 ^ 32) (hend : addr + size ≤ 2 ^ 32) :
    ∃ bs', bs'.Perm (planBlocks (erasePlan32 addr (u32 (addr + size)))) ∧
      Tile.Tiles addr bs' (addr + size) := by
  obtain ⟨y, hy, hy1, hy2⟩ := alignUp_spec addr 32768 (by decide) (by omega)
  rcases Nat.lt_or_ge (addr + size) (2 ^ 32) with hlt | hge
  · obtain ⟨w, hw, hw1, hw2⟩ := alignDown_spec (addr + size) 32768 (by decide)
    have h := tiles_five (a := addr) (y := 32768 * y) (x := 32768 * w) (z := 32768 * w)
      (w := 32768 * w) (e := addr + size) hy1 (by omega) (Nat.le_refl _) (Nat.le_refl _) hw1
      (by omega) (by omega) (by omega) (by omega) (by omega)
    simp only [erasePlan32, u32_of_lt hlt, hy, hw]
    rw [sub32_of_le hy1, sub32_of_le hw1, sub32_of_le (by omega)]
    simp only [planBlocks, List.flatMap_cons, List.flatMap_nil, Nat.sub_self,
      partBlocks_zero, List.append_nil] at h ⊢
    exact h
  · have heq : addr + size = 2 ^ 32 := by omega
    have h := tiles_five (a := addr) (y := 32768 * y) (x := 2 ^ 32) (z := 2 ^ 32)
      (w := 2 ^ 32) (e := 2 ^ 32) hy1 (by omega) (Nat.le_refl _) (Nat.le_refl _) (Nat.le_refl _)
      (by omega) (by omega) (by omega) (by omega) (by omega)
    have hzero : alignDown 0 32768 = 0 := by decide
    have hsub : sub32 0 (32768 * y) = 2 ^ 32 - 32768 * y := by
      unfold sub32
      rw [if_neg (by omega), Nat.sub_zero]
    rw [heq]
    simp only [erasePlan32, show u32 (2 ^ 32) = 0 from rfl, hy, hzero]
    rw [sub32_of_le hy1, hsub, show sub32 0 0 = 0 from rfl]
    simp only [planBlocks, List.flatMap_cons, List.flatMap_nil, Nat.sub_self,
      partBlocks_zero, List.nil_append, List.append_nil] at h ⊢
    exact h

theorem planBlocks_erasePlan {chip : Chip} (ha : addr % 4096 = 0) (hsz : size % 4096 = 0)
    (hsize : size < 2 ^ 32) (hend : addr + size ≤ 2 ^ 32) (h : size = 0 ∨ Erasable chip size) :
    ∃ bs', bs'.Perm (planBlocks (erasePlan chip addr size)) ∧
      Tile.Tiles addr bs' (addr + size) := by
  unfold erasePlan
  split
  · rename_i h64
    exact planBlocks_plan64 ha hsz h64.1 hsize hend
  split
  · rename_i h32
    exact planBlocks_plan32 ha hsz h32.1 hsize hend
  split
  · refine ⟨planBlocks [(.kb4, addr, size)], List.Perm.refl _, ?_⟩
    rw [planBlocks, List.flatMap_cons, List.flatMap_nil, List.append_nil]
    exact tiles_partBlocks addr hsz
  · rename_i h64 h32 h4
    rcases h with rfl | h
    · exact ⟨[], List.Perm.refl _, rfl⟩
    · simp only [Erasable, ge_iff_le] at *
      tauto

end

/-! ## The commands -/

section

variable {dev addr n : Nat} {mode : EraseMode} {bs bs' : List (Block EraseMode)}
  {es es' : List Event} {s s' : Devices}

@[simp] theorem accepted_append : accepted (es ++ es') = accepted es ++ accepted es' :=
  List.filterMap_append ..

@[simp] theorem accepted_command {w : Write} :
    accepted (.command w true :: es) = w :: accepted es := rfl

@[simp] theorem accepted_wait {ok : Bool} : accepted (.wait dev ok :: es) = accepted es := rfl

@[simp] theorem lateWaits_append : lateWaits (es ++ es') = lateWaits es + lateWaits es' :=
  List.countP_append ..

theorem Issues.nil : Issues dev [] [] := ⟨fun _ => Iff.rfl, fun _ => rfl⟩

theorem Issues.append (h : Issues dev bs es) (h' : Issues dev bs' es') :
    Issues dev (bs ++ bs') (es ++ es') where
  same w := by rw [accepted_append, List.map_append, List.mem_append, List.mem_append, h.same,
    h'.same]
  once hlate := by
    rw [lateWaits_append] at hlate
    rw [accepted_append, List.map_append, h.once (by omega), h'.once (by omega)]

/-- The next block. -/
theorem Issues.cons {b : Block EraseMode} {ok : Bool} (h : Issues dev bs es) :
    Issues dev (b :: bs) (.command (eraseOf dev b) true :: .wait dev ok :: es) where
  same w := by
    rw [accepted_command, accepted_wait, List.map_cons, List.mem_cons, List.mem_cons, h.same]
  once hlate := by
    cases ok with
    | true => rw [accepted_command, accepted_wait, List.map_cons, h.once (by simpa using hlate)]
    | false => simp at hlate

/-- The same block once more. -/
theorem Issues.again {b : Block EraseMode} (h : Issues dev bs es) (hb : b ∈ bs) :
    Issues dev bs (.command (eraseOf dev b) true :: .wait dev false :: es) where
  same w := by
    rw [accepted_command, accepted_wait, List.mem_cons, h.same]
    exact ⟨fun hw => hw.elim (fun heq => heq ▸ List.mem_map_of_mem hb) id, .inr⟩
  once hlate := by simp at hlate

variable {board : Board} {chip : Chip}

theorem issues_eraseLoop (hs : chip.supports mode = true) {fuel re : Nat} {r : Bool}
    (hf : n + (2 - re) ≤ fuel) (hend : ∀ b ∈ modeBlocks mode addr n, b.next ≤ 2 ^ 32)
    (h : Answers (eraseLoop chip dev (.block mode) fuel n addr re r) s es true s') :
    Issues dev (modeBlocks mode addr n) es := by
  induction fuel generalizing n addr re r s es with
  | zero =>
    obtain rfl : n = 0 := by omega
    obtain ⟨rfl, -, -⟩ := answers_eraseLoop_zero.mp h
    exact .nil
  | succ fuel ih =>
    cases n with
    | zero =>
      obtain ⟨rfl, -, -⟩ := answers_eraseLoop_zero.mp h
      exact .nil
    | succ n =>
      simp only [eraseLoop, if_neg (Nat.succ_ne_zero n), Nat.add_sub_cancel, defaultErase_block hs,
        FlashEraseMode.value] at h
      obtain ⟨es₁, es₂, ok₁, s₁, rfl, h₁, hrest⟩ := answers_bind.mp h
      obtain ⟨rfl, -⟩ := answers_eraseReq.mp h₁
      cases ok₁ with
      | false => cases (answers_pure.mp hrest).2.1
      | true =>
        obtain ⟨es₃, es₄, ok₂, s₂, rfl, h₂, hnext⟩ := answers_bind.mp hrest
        obtain ⟨rfl, -, -⟩ := answers_waitReq.mp h₂
        by_cases hagain : !ok₂ ∧ re + 1 < 3
        · rw [if_pos hagain] at hnext
          obtain rfl : ok₂ = false := by simpa using hagain.1
          exact (ih (by omega) hend hnext).again (List.mem_cons_self ..)
        · rw [if_neg hagain] at hnext
          refine Issues.cons (b := ⟨addr, mode.size, some mode⟩) ?_
          cases n with
          | zero =>
            obtain ⟨rfl, -, -⟩ := answers_eraseLoop_zero.mp hnext
            exact .nil
          | succ n =>
            have hlt : addr + mode.size < 2 ^ 32 := by
              have hsecond := hend _ (List.mem_cons_of_mem _ (List.mem_cons_self ..))
              have := mode.size_pos
              unfold Block.next at hsecond
              simp only at hsecond
              omega
            rw [u32_of_lt hlt] at hnext
            refine ih ?_ (fun b hb => hend b (List.mem_cons_of_mem _ hb)) hnext
            split <;> omega

/-- An erase that reports success has commanded blocks that the chip can erase. -/
theorem issues_halFlashErase (hb : board dev = some chip)
    (hend : ∀ b ∈ modeBlocks mode addr n, b.next ≤ 2 ^ 32)
    (h : Answers (halFlashErase board dev mode addr n) s es true s') :
    (∀ b ∈ modeBlocks mode addr n, CanErase chip b) ∧ Issues dev (modeBlocks mode addr n) es := by
  simp only [halFlashErase, hb] at h
  split at h
  · cases (answers_pure.mp h).2.1
  split at h
  · cases (answers_pure.mp h).2.1
  rename_i halign
  cases n with
  | zero =>
    obtain ⟨rfl, -, -⟩ := answers_eraseLoop_zero.mp h
    exact ⟨List.forall_mem_nil _, .nil⟩
  | succ n =>
    have hs := supports_of_answers (Nat.succ_ne_zero n) h
    refine ⟨fun b hb => ⟨mode, hs, ?_⟩, issues_eraseLoop hs (by omega) hend h⟩
    obtain ⟨hsize, haddr⟩ := mem_modeBlocks hb
    exact ⟨hsize, haddr (Decidable.not_not.mp halign)⟩

theorem issues_eraseParts {plan : ErasePlan} (hb : board dev = some chip)
    (hend : ∀ b ∈ planBlocks plan, b.next ≤ 2 ^ 32)
    (h : Answers (eraseParts board dev plan) s es true s') :
    (∀ b ∈ planBlocks plan, CanErase chip b) ∧ Issues dev (planBlocks plan) es := by
  induction plan generalizing s es with
  | nil =>
    obtain ⟨rfl, -, -⟩ := answers_pure.mp h
    exact ⟨List.forall_mem_nil _, .nil⟩
  | cons part plan ih =>
    obtain ⟨mode, start, size⟩ := part
    rw [eraseParts] at h
    have hends := List.forall_mem_append.mp hend
    rw [planBlocks, List.flatMap_cons, List.forall_mem_append]
    split at h
    · obtain ⟨es₁, es₂, ok₁, s₁, rfl, h₁, hrest⟩ := answers_bind.mp h
      cases ok₁ with
      | false => cases (answers_pure.mp hrest).2.1
      | true =>
        obtain ⟨hpart, hissues⟩ := issues_halFlashErase hb hends.1 h₁
        obtain ⟨hblocks, hplan⟩ := ih hends.2 hrest
        exact ⟨⟨hpart, hblocks⟩, hissues.append hplan⟩
    · obtain rfl : size = 0 := by omega
      rw [partBlocks_zero]
      exact ⟨⟨List.forall_mem_nil _, (ih hends.2 h).1⟩, (ih hends.2 h).2⟩

/-! ## What the status means -/

/-- The blocks `flash_erase` had erased when it returns 0 cover the area, and it does not return 0
for an area that no blocks cover, just when there is something to erase and a supported block
that is not larger than the area. -/
theorem flash_erase_covers {size : Nat} {ok : Bool} (hb : board dev = some chip)
    (ha : addr % 4096 = 0) (hsz : size % 4096 = 0) (hsize : size < 2 ^ 32)
    (hend : addr + size ≤ 2 ^ 32)
    (h : Answers (flashErase board dev addr size) s es ok s') :
    (ok = true → ∃ bs, Issues dev bs es ∧ Exactly chip addr size bs) ∧
        (¬Tileable chip addr size → ok = false) ↔
      size = 0 ∨ Erasable chip size := by
  have hrun : flashErase board dev addr size = eraseParts board dev (erasePlan chip addr size) := by
    rw [flashErase, hb, if_neg (by simp only [EraseMode.size]; omega)]
  rw [hrun] at h
  constructor
  · rintro ⟨hok, -⟩
    by_contra hnone
    rw [not_or] at hnone
    rw [erasePlan_nil hnone.2] at h
    obtain ⟨rfl, rfl, -⟩ := answers_pure.mp h
    obtain ⟨bs, hissues, ⟨bs', hperm, htiles⟩, -⟩ := hok rfl
    have hnil : bs = [] := List.map_eq_nil_iff.mp (hissues.once rfl).symm
    rw [hnil, List.perm_nil] at hperm
    rw [hperm, tiles_nil] at htiles
    omega
  · intro hcan
    have hdone : ok = true → ∃ bs, Issues dev bs es ∧ Exactly chip addr size bs := by
      rintro rfl
      have htiles := planBlocks_erasePlan ha hsz hsize hend hcan
      obtain ⟨hblocks, hissues⟩ := issues_eraseParts hb (fun b hb => by
        obtain ⟨bs', hperm, htiles⟩ := htiles
        have := (htiles.mem (hperm.mem_iff.mpr hb)).2.2
        omega) h
      exact ⟨_, hissues, htiles, hblocks⟩
    refine ⟨hdone, fun hnot => ?_⟩
    cases ok with
    | false => rfl
    | true =>
      obtain ⟨bs, -, hexact⟩ := hdone rfl
      exact absurd ⟨bs, hexact⟩ hnot

end

theorem flash_erase_covers_small :
    ∃ bs, Issues 0 bs (granted (flashErase (fun _ => some smallChip) 0 4096 8192) fun _ _ => 0) ∧
      Exactly smallChip 4096 8192 bs :=
  ((flash_erase_covers (show (fun _ => some smallChip : Board) 0 = some smallChip from rfl)
    (by decide) (by decide) (by decide) (by decide) (answers_ret _ _)).mpr
    (.inr (.inr (.inr ⟨by decide, by decide⟩)))).1 rfl

/-- `FLASH_M25P64`: blocks of 64K, and the whole chip. -/
def m25p64 : Chip := ⟨128 * 65536, 65536 + 2⟩

/-- Nothing is done for a single sector, and the return value is 0. -/
theorem sector_not_erased : Answers (flashErase (fun _ => some m25p64) 0 4096 4096)
      ⟨fun _ _ => 0, false⟩ [] true ⟨fun _ _ => 0, false⟩ ∧
      ¬∃ bs, Issues 0 bs [] ∧ Exactly m25p64 4096 4096 bs := by
  refine ⟨.done _ _, ?_⟩
  rintro ⟨bs, hissues, hexact⟩
  obtain ⟨bs', hperm, htiles⟩ := hexact.tiles
  have hnil : bs = [] := List.map_eq_nil_iff.mp (hissues.once rfl).symm
  rw [hnil, List.perm_nil] at hperm
  rw [hperm, tiles_nil] at htiles
  cases htiles

end Flash
end XR806
